import EvManager.KillStack
import EvManager.Promises
import EvManager.TaskMoves

/-!
# The two members that `poll` uses

**`step_requests`**, **`step_handle`**: only `poll` sets `_polling_requests` and `_polling_handle`.
-/

namespace EvManager

open Lib State

namespace State

variable {s s' : State}

/-! ### What leaves `_polling_requests` alone -/

theorem requests_resume {h : CoroId} {cause : Option ReqId} (hs : s.resume h cause = .ok s') :
    s'.ev.pollingRequests = s.ev.pollingRequests := by
  cases resumes_of_resume hs <;> rfl

theorem requests_destroyLocals (h : CoroId) : (s.destroyLocals h).ev.pollingRequests = s.ev.pollingRequests := by
  obtain ⟨coros, vars, reqs, heq, -⟩ := s.destroyLocals_eq h
  rw [heq]

theorem requests_finish {h : CoroId} {out : Option ℕ} (hs : s.finish h out = .ok s') :
    s'.ev.pollingRequests = s.ev.pollingRequests := by
  have h1 : ((s.storeResult h out).endBody h out).ev.pollingRequests = s.ev.pollingRequests := by
    show ((s.storeResult h out).destroyLocals h).ev.pollingRequests = _
    rw [requests_destroyLocals]
    cases out with
    | none => rfl
    | some code =>
      show (s.returnValue h code).ev.pollingRequests = _
      unfold State.returnValue
      split <;> rfl
  rcases finish_ok hs with ⟨a, -, h2⟩ | ⟨-, rfl⟩
  · rw [requests_resume h2, h1]
  · exact h1

theorem requests_setTask (t : TaskRef) (e : EvTask) : (s.setTask t e).ev.pollingRequests = s.ev.pollingRequests := by
  cases t <;> rfl

theorem requests_startTask {t : TaskRef} (hs : s.startTask t = .ok s') :
    s'.ev.pollingRequests = s.ev.pollingRequests := by
  unfold State.startTask at hs
  obtain ⟨e, -, hs⟩ := bind_ok.mp hs
  split at hs
  · cases hs
    rfl
  · obtain ⟨h, -, hs⟩ := bind_ok.mp hs
    rw [requests_resume hs]
    exact requests_setTask ..

theorem requests_startReturn {t : TaskRef} {h : CoroId} (hs : s.startReturn t h = .ok s') :
    s'.ev.pollingRequests = s.ev.pollingRequests := by
  unfold State.startReturn at hs
  obtain ⟨e, -, hs⟩ := bind_ok.mp hs
  split at hs
  · unfold State.rethrow at hs
    split at hs
    · cases hs
      rfl
    · split at hs <;> cases hs
      rfl
    · cases hs
      rfl
  · cases hs
    rfl

theorem requests_awaitSuspendTail {t : TaskRef} {a : CoroId} (hs : s.awaitSuspendTail t a = .ok s') :
    s'.ev.pollingRequests = s.ev.pollingRequests := by
  unfold State.awaitSuspendTail at hs
  obtain ⟨e, -, hs⟩ := bind_ok.mp hs
  split at hs
  · exact requests_resume hs
  · obtain ⟨x, -, hs⟩ := bind_ok.mp hs
    cases hs
    rfl

theorem requests_awaitTask {t : TaskRef} {a : CoroId} (hs : s.awaitTask a t = .ok s') :
    s'.ev.pollingRequests = s.ev.pollingRequests := by
  unfold State.awaitTask at hs
  obtain ⟨e, -, hs⟩ := bind_ok.mp hs
  obtain ⟨x, -, hs⟩ := bind_ok.mp hs
  simp only at hs
  split at hs
  · exact (requests_awaitSuspendTail hs).trans rfl
  · exact (requests_startTask hs).trans rfl

theorem requests_destroyTask (v : VarId) : (s.destroyTask v).ev.pollingRequests = s.ev.pollingRequests := by
  obtain ⟨coros, heq, -⟩ := s.destroyTask_eq v
  rw [heq]

theorem requests_finalReturn (h : CoroId) : (s.finalReturn h).ev.pollingRequests = s.ev.pollingRequests := by
  unfold State.finalReturn
  simp only
  split <;> rfl

theorem requests_call (ctx : Option CoroId) (b : Body) : (s.call ctx b).ev.pollingRequests = s.ev.pollingRequests := by
  cases ctx <;> rfl

/-! ### Requests -/

theorem requests_submit {ret : ℤ} (hs : s.submitQueuedEntries ret = .ok s') :
    s'.ev.pollingRequests = s.ev.pollingRequests := by
  obtain ⟨-, -, -, rfl⟩ := submitQueuedEntries_ok hs
  rfl

theorem requests_getUringSqe {p : Purpose} {x : Option ℕ} (hs : s.getUringSqe p = .ok (x, s')) :
    s'.ev.pollingRequests = s.ev.pollingRequests := by
  rcases getUringSqe_ok hs with ⟨-, -, rfl⟩ | ⟨j, ring, -, -, -, -, rfl⟩ <;> rfl

theorem requests_ioOp {ctx : Option CoroId} {p : ParameterPack} {r : ReqId} (hs : s.ioOp ctx p = .ok (r, s')) :
    s'.ev.pollingRequests = s.ev.pollingRequests := by
  obtain ⟨-, -, sqe, s1, h1, rfl⟩ := ioOp_ok hs
  rw [← requests_getUringSqe h1]
  cases ctx <;> rfl

theorem requests_awaitIo {h : CoroId} {r : ReqId} (hs : s.awaitIo h r = .ok s') :
    s'.ev.pollingRequests = s.ev.pollingRequests := by
  rcases awaitIo_ok hs with ⟨-, ⟨-, rfl⟩ | ⟨j, -, -, -, rfl⟩⟩ <;> rfl

theorem requests_ioSubmit {h : CoroId} {r : ReqId} {ret : ℤ} (hs : s.ioSubmit h r ret = .ok s') :
    s'.ev.pollingRequests = s.ev.pollingRequests := by
  unfold State.ioSubmit at hs
  obtain ⟨s1, h1, hs⟩ := bind_ok.mp hs
  have h2 : s1.ev.pollingRequests = s.ev.pollingRequests := (requests_submit h1).trans rfl
  split at hs
  · exact (requests_resume hs).trans h2
  · cases hs
    exact h2

theorem requests_naOp {p : ParameterPack} {ret : ℤ} {e : Errnos} (hs : s.naOp p ret = .ok (e, s')) :
    s'.ev.pollingRequests = s.ev.pollingRequests := by
  rcases naOp_ok hs with ⟨-, -, rfl⟩ | ⟨-, j, ring, s2, -, h2, hcase⟩
  · rfl
  · have h3 : s2.ev.pollingRequests = s.ev.pollingRequests := (requests_submit h2).trans rfl
    rcases hcase with ⟨-, -, rfl⟩ | ⟨-, -, rfl⟩ <;> exact h3

theorem requests_processRequests {h : CoroId} {l : List (ParameterPack × ReqId)} :
    ∀ {s s' : State}, s.processRequests h l = .ok s' → s'.ev.pollingRequests = s.ev.pollingRequests := by
  induction l with
  | nil =>
    intro s s' hs
    cases hs
    rfl
  | cons x l ih =>
    intro s s' hs
    obtain ⟨req, r⟩ := x
    obtain ⟨⟨b, s1⟩, h1, h2⟩ := bind_ok.mp hs
    rw [ih h2]
    rcases processSingleGenericRequest_ok h1 with ⟨-, -, rfl⟩ | ⟨-, -, -, j, ring, -, rfl⟩ <;> rfl

theorem requests_submitAndWaitBegin {h : CoroId} {q : RequestQueue} {ret : ℤ}
    (hs : s.submitAndWaitBegin h q ret = .ok s') :
    s'.ev.pollingRequests = s.ev.pollingRequests := by
  unfold State.submitAndWaitBegin at hs
  obtain ⟨s1, h1, hs⟩ := bind_ok.mp hs
  split at hs
  · rw [requests_finish hs, requests_submit h1]
  · obtain ⟨s2, h2, hs⟩ := bind_ok.mp hs
    cases hs
    have h3 : s2.ev.pollingRequests = s1.ev.pollingRequests := (requests_processRequests h2).trans rfl
    exact h3.trans (requests_submit h1)

theorem requests_submitAndWaitLoop {h : CoroId} {q : RequestQueue} {l : BatchLocals} {ret : Option ℤ}
    (hs : s.submitAndWaitLoop h q l ret = .ok s') : s'.ev.pollingRequests = s.ev.pollingRequests := by
  unfold State.submitAndWaitLoop at hs
  split at hs
  · split at hs
    · exact requests_finish hs
    · cases hs
  · split at hs
    · split at hs
      · obtain ⟨s1, h1, hs⟩ := bind_ok.mp hs
        split at hs
        · rw [requests_finish hs, requests_submit h1]
        · cases hs
          show s1.ev.pollingRequests = _
          exact requests_submit h1
      · cases hs
    · split at hs <;> cases hs
      rfl

/-! ### The loop -/

theorem requests_eventHandler {res : ℤ} {x : Option ReqId} {base : Addr} (hs : s.eventHandler res x base = .ok s') :
    s'.ev.pollingRequests = s.ev.pollingRequests := by
  unfold State.eventHandler at hs
  split at hs
  · cases hs
    rfl
  · simp only at hs
    split at hs
    · split at hs
      · cases hs
        rfl
      · obtain ⟨pack, -, hs⟩ := bind_ok.mp hs
        exact (requests_resume hs).trans rfl
    · cases hs

theorem requests_eventHandlerReturn {r : ReqId} {h : CoroId} (hs : s.eventHandlerReturn r h = .ok s') :
    s'.ev.pollingRequests = s.ev.pollingRequests := by
  unfold State.eventHandlerReturn at hs
  simp only at hs
  split at hs
  · split at hs <;> cases hs
    split <;> rfl
  · cases hs
    split <;> rfl

theorem requests_awaitMessage {base : Addr} (hs : s.awaitMessage base = .ok s') :
    s'.ev.pollingRequests = s.ev.pollingRequests := by
  unfold State.awaitMessage at hs
  simp only at hs
  split at hs
  · exact (requests_eventHandler hs).trans rfl
  · cases hs
    rfl

theorem requests_awaitCqe {i : ℕ} {res : ℤ} {base : Addr} (hs : s.awaitCqe i res base = .ok s') :
    s'.ev.pollingRequests = s.ev.pollingRequests := by
  unfold State.awaitCqe at hs
  split at hs
  · split at hs
    · rw [requests_eventHandler hs]
      split <;> rfl
    · cases hs
  · cases hs

theorem requests_awaitSeen (hs : s.awaitSeen = .ok s') : s'.ev.pollingRequests = s.ev.pollingRequests := by
  unfold State.awaitSeen at hs
  split at hs
  · simp only at hs
    split at hs
    · exact (requests_resume hs).trans rfl
    · cases hs
    · cases hs
      rfl
  · cases hs

theorem requests_flushLoop {h : CoroId} {pc : ℕ → KillPc} {iter : ℕ} {ret : Option ℤ} {next : State → Except Stop State}
    (hn : ∀ s', next s = .ok s' → s'.ev.pollingRequests = s.ev.pollingRequests)
    (hs : s.flushLoop h pc iter ret next = .ok s') : s'.ev.pollingRequests = s.ev.pollingRequests := by
  unfold State.flushLoop at hs
  split at hs
  · split at hs
    · split at hs
      · obtain ⟨s1, h1, hs⟩ := bind_ok.mp hs
        cases hs
        show s1.ev.pollingRequests = _
        exact requests_submit h1
      · cases hs
    · split at hs
      · split at hs
        · exact requests_finish hs
        · exact hn _ hs
      · cases hs
  · cases hs

theorem requests_killInternal {h : CoroId} {pc : KillPc} {ret : Option ℤ} (hs : s.killInternal h pc ret = .ok s') :
    s'.ev.pollingRequests = s.ev.pollingRequests := by
  have hnext : ∀ {b : Body} {u}, Except.ok (s.setBody h b) = Except.ok (ε := Stop) u →
      u.ev.pollingRequests = s.ev.pollingRequests := by
    intro b u h1
    cases h1
    rfl
  unfold State.killInternal at hs
  split at hs
  · split at hs
    · split at hs
      · exact requests_finish hs
      · cases hs
        rfl
    · cases hs
  · exact requests_flushLoop (fun _ => hnext) hs
  · split at hs
    · obtain ⟨⟨j, s1⟩, h1, hs⟩ := bind_ok.mp hs
      have h2 : s1.ev.pollingRequests = s.ev.pollingRequests := by
        rcases cancelSqe_ok h1 with ⟨-, rfl⟩ | h1
        · rfl
        · cases j with
          | none => rw [ioUringGetSqe_none h1]
          | some j =>
            obtain ⟨ring, -, -, rfl⟩ := ioUringGetSqe_some h1
            rfl
      cases j with
      | none => exact (requests_finish hs).trans h2
      | some j =>
        cases hs
        exact h2
    · cases hs
  · exact requests_flushLoop (fun _ => hnext) hs
  · split at hs
    · split at hs
      · cases hs
        rfl
      · exact (requests_finish hs).trans rfl
    · cases hs

theorem requests_makeRoom {pick : ℕ} {grow : Bool} (hs : s.makeRoom pick grow = .ok s') :
    s'.ev.pollingRequests = s.ev.pollingRequests := by
  have hrelink : ∀ (e : EvTask) (u : State), (u.relink e).ev = u.ev := by
    intro e u
    unfold State.relink
    split <;> rfl
  have hrelinks : ∀ (es : List EvTask) (u : State), (es.foldl (fun s e => s.relink e) u).ev = u.ev := by
    intro es
    induction es with
    | nil => exact fun _ => rfl
    | cons e es ih => exact fun u => (ih _).trans (hrelink e u)
  unfold State.makeRoom at hs
  simp only at hs
  split at hs
  · cases hs
    split
    · rw [hrelinks]
    · rfl
  · split at hs
    · obtain ⟨old, -, hs⟩ := bind_ok.mp hs
      unfold State.overwriteTask at hs
      split at hs
      · cases hs
        rfl
      · split at hs
        · cases hs
        · split at hs
          · cases hs
            rfl
          · unfold State.destroyCoro at hs
            split at hs <;> cases hs
            exact requests_destroyLocals ..
    · cases hs

theorem requests_registerCoroReturn {v : VarId} {pick : ℕ} {grow : Bool}
    (hs : s.registerCoroReturn v pick grow = .ok s') :
    s'.ev.pollingRequests = s.ev.pollingRequests := by
  unfold State.registerCoroReturn at hs
  obtain ⟨s1, h1, hs⟩ := bind_ok.mp hs
  obtain ⟨e, -, hs⟩ := bind_ok.mp hs
  obtain ⟨coros, heq, -⟩ := insertTask_eq pick e s1
  rw [heq] at hs
  cases hs
  show s1.ev.pollingRequests = _
  exact requests_makeRoom h1

theorem requests_userStep {ctx : Option CoroId} {a : Act} (hs : s.userStep ctx a = .ok s') :
    s'.ev.pollingRequests = s.ev.pollingRequests := by
  cases a with
  | call | submitAndWait | poll | kill =>
    cases hs
    exact requests_call ..
  | startTask v => exact requests_startTask hs
  | registerCoro v => exact (requests_startTask hs).trans rfl
  | destroyTask v =>
    cases hs
    exact requests_destroyTask v
  | io p =>
    simp only [State.userStep, Except.map] at hs
    split at hs
    · cases hs
    · rename_i x hx
      cases hs
      exact requests_ioOp (r := x.1) hx
  | na p ret =>
    simp only [State.userStep, Except.map] at hs
    split at hs
    · cases hs
    · rename_i x hx
      cases hs
      exact requests_naOp (e := x.1) hx
  | submitQueuedEntries ret => exact requests_submit hs
  | getUringSqe =>
    simp only [State.userStep, Except.map] at hs
    split at hs
    · cases hs
    · rename_i x hx
      cases hs
      exact requests_getUringSqe (x := x.1) hx
  | start =>
    cases hs
    unfold startLoop
    split <;> rfl
  | dropAwaitable | consume =>
    simp only [State.userStep] at hs
    split at hs <;> cases hs
    rfl
  | awaitTask | awaitIo | awaitOp | coReturn | throw | handlerReturn => cases hs

theorem requests_coroStep {h : CoroId} {a : Act} (hs : s.coroStep h a = .ok s') :
    s'.ev.pollingRequests = s.ev.pollingRequests := by
  unfold State.coroStep at hs
  split at hs
  · exact requests_awaitTask hs
  · exact requests_awaitIo hs
  · obtain ⟨⟨r, s1⟩, h1, hs⟩ := bind_ok.mp hs
    exact (requests_awaitIo hs).trans (requests_ioOp h1)
  · exact requests_finish hs
  · exact requests_finish hs
  · exact requests_userStep hs

/-- **Where `_polling_requests` changes**: only where `poll` begins, and where its handler asks to stop. -/
theorem step_requests {c : Choice} (hs : State.step s c = .ok s') : s'.ev.pollingRequests = s.ev.pollingRequests ∨
    ∃ h rest, s.stack = .run h :: rest ∧ ((s.coros h).body = .poll .begin ∧ s.pollBegin h = .ok s' ∨
      (s.coros h).body = .poll .handler ∧ s.pollNext h true = .ok s') := by
  unfold State.step at hs
  split at hs
  · exact .inl (requests_userStep hs)
  · split at hs
    · exact .inl (requests_awaitMessage hs)
    · cases hs
  · split at hs <;> cases hs
    exact .inl rfl
  · exact .inl (requests_awaitCqe hs)
  · cases hs
  · exact .inl (requests_awaitSeen hs)
  · exact .inl ((requests_eventHandlerReturn hs).trans rfl)
  · rename_i h rest hst
    unfold State.bodyStep at hs
    split at hs
    · exact .inl (requests_coroStep hs)
    · exact .inl (requests_killInternal hs)
    · exact .inl (requests_killInternal hs)
    · exact .inl (requests_awaitTask hs)
    · exact .inl (requests_finish hs)
    · split at hs
      · exact .inl (requests_submitAndWaitBegin hs)
      · exact .inl (requests_submitAndWaitLoop hs)
      · exact .inl (requests_submitAndWaitLoop hs)
      · cases hs
        unfold submitAndWaitNext
        split <;> exact .inl rfl
      · exact .inl (requests_finish hs)
      · exact .inl (requests_userStep hs)
      · cases hs
    · rename_i hb
      split at hs
      · exact .inr ⟨h, rest, hst, .inl ⟨hb, hs⟩⟩
      · rename_i stop
        cases stop with
        | true => exact .inr ⟨h, rest, hst, .inr ⟨hb, hs⟩⟩
        | false =>
          cases hs
          exact .inl rfl
      · exact .inl (requests_finish hs)
      · exact .inl (requests_userStep hs)
      · cases hs
    · cases hs
  · exact .inl ((requests_startReturn hs).trans rfl)
  · exact .inl ((requests_registerCoroReturn hs).trans rfl)
  · exact .inl ((requests_awaitSuspendTail hs).trans rfl)
  · cases hs
    exact .inl (requests_finalReturn ..)
  · exact .inl (requests_ioSubmit hs)
  · cases hs

/-! ### What leaves `_polling_handle` alone -/

theorem handle_eventHandler {res : ℤ} {x : Option ReqId} {base : Addr} (hs : s.eventHandler res x base = .ok s') :
    s'.ev.pollingHandle = none ∨ s'.ev.pollingHandle = s.ev.pollingHandle := by
  unfold State.eventHandler at hs
  split at hs
  · cases hs
    exact .inr rfl
  · simp only at hs
    split at hs
    · split at hs
      · cases hs
        exact .inr rfl
      · obtain ⟨pack, -, hs⟩ := bind_ok.mp hs
        exact (Quiet.resume hs).polling
    · cases hs

/-- `_polling_handle` is cleared, or set to a coroutine that runs. -/
theorem step_handle {c : Choice} (hs : State.step s c = .ok s') :
    (s'.ev.pollingHandle = none ∨ s'.ev.pollingHandle = s.ev.pollingHandle) ∨
      ∃ h rest, s.stack = .run h :: rest ∧ s'.ev.pollingHandle = some h := by
  cases step_loopEffect hs with
  | issue hi => exact .inl hi.polling
  | start | leave | dying => exact .inl (.inr rfl)
  | message _ h1 =>
    unfold State.awaitMessage at h1
    simp only at h1
    split at h1
    · exact .inl ((handle_eventHandler h1).imp_right fun h2 => h2.trans rfl)
    · cases h1
      exact .inl (.inr rfl)
  | cqe _ h1 =>
    unfold State.awaitCqe at h1
    split at h1
    · split at h1
      · refine .inl ((handle_eventHandler h1).imp_right fun h2 => h2.trans ?_)
        split <;> rfl
      · cases h1
    · cases h1
  | seen _ h1 =>
    unfold State.awaitSeen at h1
    split at h1
    · simp only at h1
      split at h1
      · exact .inl (Quiet.resume h1).polling
      · cases h1
      · cases h1
        exact .inl (.inr rfl)
    · cases h1
  | handlerReturn _ h1 =>
    unfold State.eventHandlerReturn at h1
    simp only at h1
    refine .inl (.inr ?_)
    split at h1
    · split at h1 <;> cases h1
      split <;> rfl
    · cases h1
      split <;> rfl
  | dead _ _ hq => exact .inl hq.polling
  | poll hst _ _ hq' =>
    rcases hq'.polling with h1 | h1
    · exact .inl (.inl h1)
    · exact .inr ⟨_, _, hst, h1⟩
  | register _ h1 =>
    obtain ⟨s1, e, h2, -, hev, -⟩ := registerCoroReturn_ok h1
    rw [hev]
    exact .inl (Quiet.makeRoom h2).polling

end State

end EvManager
