import EvManager.Batches

/-!
# The error of an awaitable

`error` is set where an awaitable is made and gets no entry, and where its own submission fails, and nowhere else
(**`step_errors`**).  So a coroutine that is suspended at an I/O awaitable is suspended at one without an error
(**`Reachable.noErr`**).
-/

namespace EvManager

open Lib State ErrorProcessing

namespace State

variable {s s' s'' u : State} {c : Choice} {h x : CoroId} {r : ReqId}

/-- An awaitable that was just made has no error, or got no entry. -/
def NewError (e : ErrorCodes) : Prop := e = .noErr ∨ e = .eventManagerErr .submissionQueueFull

/-- Between `s` and `s'` no record that was there has got another error. -/
structure ErrorsKept (s s' : State) : Prop where
  nextReq : s.nextReq ≤ s'.nextReq
  old : ∀ r, r < s.nextReq → (s'.reqs r).error = (s.reqs r).error
  new : ∀ r, s.nextReq ≤ r → (s'.reqs r).error = (s.reqs r).error ∨ NewError (s'.reqs r).error

namespace ErrorsKept

theorem of_error (hn : s'.nextReq = s.nextReq) (he : ∀ r, (s'.reqs r).error = (s.reqs r).error) : ErrorsKept s s' :=
  ⟨hn.ge, fun r _ => he r, fun r _ => .inl (he r)⟩

theorem of_eq (hn : s'.nextReq = s.nextReq) (hr : s'.reqs = s.reqs) : ErrorsKept s s' := of_error hn fun r => by rw [hr]

theorem refl (s : State) : ErrorsKept s s := of_eq rfl rfl

theorem trans (h : ErrorsKept s s') (h' : ErrorsKept s' s'') : ErrorsKept s s'' := by
  refine ⟨h.nextReq.trans h'.nextReq, fun r hr => (h'.old r (hr.trans_le h.nextReq)).trans (h.old r hr), fun r hr => ?_⟩
  by_cases hr' : r < s'.nextReq
  · rw [h'.old r hr']
    exact h.new r hr
  · rcases h'.new r (not_lt.mp hr') with h1 | h1
    · rw [h1]
      exact h.new r hr
    · exact .inr h1

theorem modReq {f : Request → Request} (hf : ∀ q, (f q).error = q.error) (s : State) : ErrorsKept s (s.modReq r f) := by
  refine of_error rfl fun a => ?_
  by_cases ha : a = r
  · subst ha
    simp [State.modReq, hf]
  · simp [State.modReq, ha]

theorem setTask (t : TaskRef) (e : EvTask) (s : State) : ErrorsKept s (s.setTask t e) := by
  cases t <;> exact of_eq rfl rfl

theorem submit {ret : ℤ} (hs : s.submitQueuedEntries ret = .ok s') : ErrorsKept s s' := by
  obtain ⟨-, -, -, rfl⟩ := submitQueuedEntries_ok hs
  exact of_eq rfl rfl

theorem getUringSqe {p : Purpose} {j : Option ℕ} (hs : s.getUringSqe p = .ok (j, s')) : ErrorsKept s s' := by
  rcases getUringSqe_ok hs with ⟨-, -, rfl⟩ | ⟨j, ring, -, -, -, -, rfl⟩ <;> exact of_eq rfl rfl

theorem of_update {q : Request} (hn : s'.nextReq = s.nextReq + 1) (hr : s'.reqs = Function.update s.reqs s.nextReq q)
    (hq : NewError q.error) : ErrorsKept s s' := by
  refine ⟨by omega, fun r hlt => ?_, fun r _ => ?_⟩
  · rw [hr, Function.update_of_ne hlt.ne]
  · by_cases hrn : r = s.nextReq
    · subst hrn
      rw [hr, Function.update_self]
      exact .inr hq
    · rw [hr, Function.update_of_ne hrn]
      exact .inl rfl

theorem ioOp {ctx : Option CoroId} {p : ParameterPack} (hs : s.ioOp ctx p = .ok (r, s')) : ErrorsKept s s' := by
  obtain ⟨-, -, sqe, s1, h1, rfl⟩ := ioOp_ok hs
  have hq : NewError (Request.awaitable ctx p sqe).error := by
    unfold Request.awaitable
    by_cases hsqe : sqe = none
    · exact .inr (by simp [hsqe])
    · exact .inl (by simp [hsqe])
  obtain ⟨hn, hr⟩ : s1.nextReq = s.nextReq ∧ s1.reqs = s.reqs := by
    rcases getUringSqe_ok h1 with ⟨-, -, rfl⟩ | ⟨j, ring, -, -, -, -, rfl⟩ <;> exact ⟨rfl, rfl⟩
  cases ctx with
  | none => exact of_update (congrArg (· + 1) hn) (by rw [← hr, ← hn]; rfl) hq
  | some x => exact of_update (congrArg (· + 1) hn) (by rw [← hr, ← hn]; rfl) hq

theorem naOp {p : ParameterPack} {ret : ℤ} {e : Errnos} (hs : s.naOp p ret = .ok (e, s')) : ErrorsKept s s' := by
  rcases naOp_ok hs with ⟨-, -, rfl⟩ | ⟨-, j, ring, s2, -, h2, ⟨-, -, rfl⟩ | ⟨-, -, rfl⟩⟩
  · exact .refl _
  all_goals
    have hr : s2.reqs = s.reqs := by
      obtain ⟨-, -, -, rfl⟩ := submitQueuedEntries_ok h2
      rfl
    exact of_update rfl (by rw [← hr]) (.inl rfl)

theorem processRequests {l : List (ParameterPack × ReqId)} : ∀ {s s' : State}, s.processRequests h l = .ok s' →
    ErrorsKept s s' := by
  induction l with
  | nil =>
    intro s s' hs
    cases hs
    exact .refl s
  | cons y l ih =>
    intro s s' hs
    obtain ⟨req, a⟩ := y
    obtain ⟨⟨b, s1⟩, h1, h2⟩ := bind_ok.mp hs
    refine .trans ?_ (ih h2)
    rcases processSingleGenericRequest_ok h1 with ⟨-, -, rfl⟩ | ⟨-, -, -, j, ring, -, rfl⟩
    · exact .refl _
    · have h3 : ErrorsKept s (s.setRing ring) := of_eq rfl rfl
      exact h3.trans (modReq (f := fun q => { q with data := q.data.queue h req }) (fun _ => rfl) _)

theorem newVector (h : CoroId) (n : ℕ) (s : State) : ErrorsKept s (s.newVector h n).2 := by
  have hreqs : ∀ r, (s.newVector h n).2.reqs r =
      if r ∈ List.range' s.nextReq n then { live := true, home := .vector h } else s.reqs r := fun _ => rfl
  refine ⟨Nat.le_add_right .., fun r hr => ?_, fun r hr => ?_⟩
  · rw [hreqs, if_neg fun hm => absurd (List.mem_range'_1.mp hm).1 (not_le.mpr hr)]
  · rw [hreqs]
    split
    · exact .inr (.inl rfl)
    · exact .inl rfl

/-! ### Resuming and ending -/

theorem ioReturn (h : CoroId) (r : ReqId) (s : State) : ErrorsKept s (s.ioReturn h r) := by
  have h1 := modReq (r := r) (f := fun q => { q with live := false, held := true }) (fun _ => rfl) s
  exact ⟨h1.nextReq, h1.old, h1.new⟩

theorem resume {cause : Option ReqId} (hs : s.resume h cause = .ok s') : ErrorsKept s s' := by
  cases resumes_of_resume hs with
  | io =>
    have h1 : ErrorsKept s (s.enter h) := of_eq rfl rfl
    exact h1.trans (ioReturn ..)
  | enter | task | batch | poll => exact of_eq rfl rfl

theorem storeResult (h : CoroId) (out : Option ℕ) (s : State) : ErrorsKept s (s.storeResult h out) := by
  cases out with
  | none => exact of_eq rfl rfl
  | some code =>
    show ErrorsKept s (s.returnValue h code)
    unfold State.returnValue
    split <;> exact of_eq rfl rfl

theorem destroyLocals (h : CoroId) (s : State) : ErrorsKept s (s.destroyLocals h) := by
  obtain ⟨vars, coros, heq, -⟩ := Records.destroyLocals_eq h s
  rw [heq]
  refine of_error rfl fun r => ?_
  show (if r ∈ (s.coros h).reqs then { s.reqs r with live := false, held := false } else s.reqs r).error = _
  split <;> rfl

theorem endBody (h : CoroId) (out : Option ℕ) (s : State) : ErrorsKept s (s.endBody h out) :=
  (destroyLocals h s).trans (of_eq rfl rfl)

theorem finish {out : Option ℕ} (hs : s.finish h out = .ok s') : ErrorsKept s s' := by
  have h1 : ErrorsKept s ((s.storeResult h out).endBody h out) := (storeResult h out s).trans (endBody h out _)
  rcases finish_ok hs with ⟨a, -, h2⟩ | ⟨-, rfl⟩
  · exact h1.trans (resume h2)
  · exact h1

theorem destroyCoro (hs : s.destroyCoro h = .ok s') : ErrorsKept s s' := by
  unfold State.destroyCoro at hs
  split at hs <;> cases hs
  exact (destroyLocals h s).trans (of_eq rfl rfl)

theorem relink (e : EvTask) (s : State) : ErrorsKept s (s.relink e) := by
  unfold State.relink
  split <;> exact of_eq rfl rfl

theorem relinks (es : List EvTask) : ∀ s : State, ErrorsKept s (es.foldl (fun s e => s.relink e) s) := by
  induction es with
  | nil => exact fun s => .refl s
  | cons e es ih => exact fun s => (relink e s).trans (ih _)

theorem makeRoom {pick : ℕ} {grow : Bool} (hs : s.makeRoom pick grow = .ok s') : ErrorsKept s s' := by
  unfold State.makeRoom at hs
  simp only at hs
  split at hs
  · cases hs
    split
    · exact relinks _ s
    · exact .refl s
  · split at hs
    · obtain ⟨old, -, hs⟩ := bind_ok.mp hs
      unfold State.overwriteTask at hs
      split at hs
      · cases hs
        exact .refl s
      · split at hs
        · cases hs
        · split at hs
          · cases hs
            exact .refl s
          · exact destroyCoro hs
    · cases hs

/-! ### Tasks -/

theorem startTask {t : TaskRef} (hs : s.startTask t = .ok s') : ErrorsKept s s' := by
  unfold State.startTask at hs
  obtain ⟨e, -, hs⟩ := bind_ok.mp hs
  split at hs
  · cases hs
    exact .refl s
  · obtain ⟨x, -, hs⟩ := bind_ok.mp hs
    refine ((setTask t { e with startedCoro := true } s).trans ?_).trans (resume hs)
    exact of_eq rfl rfl

theorem startReturn {t : TaskRef} (hs : s.startReturn t h = .ok s') : ErrorsKept s s' := by
  unfold State.startReturn at hs
  obtain ⟨e, -, hs⟩ := bind_ok.mp hs
  split at hs
  · unfold State.rethrow at hs
    split at hs
    · cases hs
      exact of_eq rfl rfl
    · split at hs <;> cases hs
      exact of_eq rfl rfl
    · cases hs
      exact of_eq rfl rfl
  · cases hs
    exact .refl s

theorem awaitSuspendTail {t : TaskRef} {a : CoroId} (hs : s.awaitSuspendTail t a = .ok s') : ErrorsKept s s' := by
  unfold State.awaitSuspendTail at hs
  obtain ⟨e, -, hs⟩ := bind_ok.mp hs
  split at hs
  · exact resume hs
  · obtain ⟨x, -, hs⟩ := bind_ok.mp hs
    cases hs
    exact of_eq rfl rfl

theorem awaitTask {t : TaskRef} {a : CoroId} (hs : s.awaitTask a t = .ok s') : ErrorsKept s s' := by
  unfold State.awaitTask at hs
  obtain ⟨e, -, hs⟩ := bind_ok.mp hs
  obtain ⟨x, -, hs⟩ := bind_ok.mp hs
  simp only at hs
  have h1 : ErrorsKept s (s.suspend a (.atTask t x false)) := of_eq rfl rfl
  split at hs
  · exact h1.trans (awaitSuspendTail hs)
  · refine (h1.trans ?_).trans (startTask hs)
    exact of_eq rfl rfl

theorem awaitIo (hs : s.awaitIo h r = .ok s') : ErrorsKept s s' := by
  rcases awaitIo_ok hs with ⟨-, ⟨-, rfl⟩ | ⟨j, -, -, -, rfl⟩⟩
  · exact ioReturn h r s
  · have h1 := modReq (r := r) (f := fun q => { q with data := q.data.await h (s.coros h).promise }) (fun _ => rfl) s
    exact ⟨h1.nextReq, h1.old, h1.new⟩

/-! ### The bodies of the library -/

theorem killInternal {pc : KillPc} {ret : Option ℤ} (hs : s.killInternal h pc ret = .ok s') : ErrorsKept s s' := by
  cases killInternal_ok hs with
  | begin | flushed | cancelled | wait => exact of_eq rfl rfl
  | submit _ _ h1 => exact (submit h1).trans (of_eq rfl rfl)
  | cancel h1 =>
    obtain ⟨ring, -, -, rfl⟩ := ioUringGetSqe_some h1
    exact of_eq rfl rfl
  | exit _ h1 =>
    have h2 := finish h1
    exact ⟨h2.nextReq, h2.old, h2.new⟩
  | fail _ _ h1 => exact finish h1

theorem submitAndWaitBegin {q : RequestQueue} {ret : ℤ} (hs : s.submitAndWaitBegin h q ret = .ok s') :
    ErrorsKept s s' := by
  obtain ⟨s1, h1, ⟨-, h2⟩ | ⟨-, s2, h2, rfl⟩⟩ := submitAndWaitBegin_ok hs
  · exact (submit h1).trans (finish h2)
  · have h3 := ((submit h1).trans (newVector h q.length s1)).trans (processRequests h2)
    exact ⟨h3.nextReq, h3.old, h3.new⟩

theorem submitAndWaitLoop {q : RequestQueue} {l : BatchLocals} {ret : Option ℤ}
    (hs : s.submitAndWaitLoop h q l ret = .ok s') : ErrorsKept s s' := by
  rcases submitAndWaitLoop_ok hs with ⟨-, -, -, h1⟩ | ⟨-, -, rfl⟩ | ⟨n, s1, -, -, -, h1, ⟨-, h2⟩ | ⟨-, rfl⟩⟩
  · exact finish h1
  · exact of_eq rfl rfl
  · exact (submit h1).trans (finish h2)
  · exact (submit h1).trans (of_eq rfl rfl)

/-! ### The loop -/

theorem eventHandler {res : ℤ} {a : Option ReqId} {base : Addr} (hs : s.eventHandler res a base = .ok s') :
    ErrorsKept s s' := by
  unfold State.eventHandler at hs
  split at hs
  · cases hs
    exact .refl _
  · simp only at hs
    split at hs
    · split at hs
      · cases hs
        exact of_eq rfl rfl
      · obtain ⟨d, -, h1⟩ := bind_ok.mp hs
        have h2 := resume h1
        exact ⟨h2.nextReq, h2.old, h2.new⟩
    · cases hs

theorem awaitMessage {base : Addr} (hs : s.awaitMessage base = .ok s') : ErrorsKept s s' := by
  unfold State.awaitMessage at hs
  simp only at hs
  split at hs
  · rename_i res a ready p _ _
    have h1 : ErrorsKept s ((s.push .awaitWait).modEv fun ev => { ev with readyRequestsStore := ready }) :=
      of_eq rfl rfl
    refine (h1.trans (modReq ?_ _)).trans (eventHandler hs)
    exact fun _ => rfl
  · cases hs
    exact of_eq rfl rfl

theorem awaitCqe {i : ℕ} {res : ℤ} {base : Addr} (hs : s.awaitCqe i res base = .ok s') : ErrorsKept s s' := by
  unfold State.awaitCqe at hs
  split at hs
  · split at hs
    · refine .trans ?_ (eventHandler hs)
      split <;> exact of_eq rfl rfl
    · cases hs
  · cases hs

theorem awaitSeen (hs : s.awaitSeen = .ok s') : ErrorsKept s s' := by
  unfold State.awaitSeen at hs
  split at hs
  · simp only at hs
    split at hs
    · have h1 := resume hs
      exact ⟨h1.nextReq, h1.old, h1.new⟩
    · cases hs
    · cases hs
      exact of_eq rfl rfl
  · cases hs

theorem eventHandlerReturn (hs : s.eventHandlerReturn r h = .ok s') : ErrorsKept s s' := by
  obtain ⟨-, -, hn, -, -, -, ⟨-, -, hr, -⟩ | ⟨-, hr, -⟩⟩ := eventHandlerReturn_ok hs
  · have h1 := modReq (r := r) (f := fun q => { q with live := false }) (fun _ => rfl) s
    refine of_error hn fun a => ?_
    rw [hr]
    by_cases ha : a = r
    · subst ha
      rw [Function.update_self]
    · rw [Function.update_of_ne ha]
  · exact of_eq hn hr

theorem registerCoroReturn {v : VarId} {pick : ℕ} {grow : Bool} (hs : s.registerCoroReturn v pick grow = .ok s') :
    ErrorsKept s s' := by
  unfold State.registerCoroReturn at hs
  obtain ⟨s1, h1, hs⟩ := bind_ok.mp hs
  obtain ⟨e, -, hs⟩ := bind_ok.mp hs
  obtain ⟨coros, heq, -⟩ := insertTask_eq pick e s1
  rw [heq] at hs
  cases hs
  have h2 := makeRoom h1
  exact ⟨h2.nextReq, h2.old, h2.new⟩

/-! ### User code -/

theorem userStep {ctx : Option CoroId} {a : Act} (hs : s.userStep ctx a = .ok s') : ErrorsKept s s' := by
  cases a with
  | call | submitAndWait | poll | kill =>
    cases hs
    cases ctx <;> exact of_eq rfl rfl
  | startTask v => exact startTask hs
  | registerCoro v =>
    have h1 := startTask hs
    exact ⟨h1.nextReq, h1.old, h1.new⟩
  | destroyTask v =>
    cases hs
    obtain ⟨coros, heq, -⟩ := s.destroyTask_eq v
    rw [heq]
    exact of_eq rfl rfl
  | io p =>
    simp only [State.userStep, Except.map] at hs
    split at hs
    · cases hs
    · rename_i y hy
      cases hs
      exact ioOp (r := y.1) hy
  | na p ret =>
    simp only [State.userStep, Except.map] at hs
    split at hs
    · cases hs
    · rename_i y hy
      cases hs
      exact naOp (e := y.1) hy
  | submitQueuedEntries ret => exact submit hs
  | getUringSqe =>
    simp only [State.userStep, Except.map] at hs
    split at hs
    · cases hs
    · rename_i y hy
      cases hs
      exact getUringSqe (j := y.1) hy
  | start =>
    cases hs
    unfold startLoop
    split <;> exact of_eq rfl rfl
  | dropAwaitable a =>
    simp only [State.userStep] at hs
    split at hs <;> cases hs
    exact modReq (f := fun q => { q with live := false, held := false }) (fun _ => rfl) s
  | consume =>
    simp only [State.userStep] at hs
    split at hs <;> cases hs
    exact of_eq rfl rfl
  | awaitTask | awaitIo | awaitOp | coReturn | throw | handlerReturn => cases hs

theorem coroStep {a : Act} (hs : s.coroStep h a = .ok s') : ErrorsKept s s' := by
  unfold State.coroStep at hs
  split at hs
  · exact awaitTask hs
  · exact awaitIo hs
  · obtain ⟨⟨r, s1⟩, h1, hs⟩ := bind_ok.mp hs
    exact (ioOp h1).trans (awaitIo hs)
  · exact finish hs
  · exact finish hs
  · exact userStep hs

theorem bodyStep (hs : s.bodyStep h c = .ok s') : ErrorsKept s s' := by
  unfold State.bodyStep at hs
  split at hs
  · exact coroStep hs
  · exact killInternal hs
  · exact killInternal hs
  · exact awaitTask hs
  · exact finish hs
  · split at hs
    · exact submitAndWaitBegin hs
    · exact submitAndWaitLoop hs
    · exact submitAndWaitLoop hs
    · cases hs
      unfold submitAndWaitNext
      split <;> exact of_eq rfl rfl
    · exact finish hs
    · exact userStep hs
    · cases hs
  · split at hs
    · unfold State.pollBegin at hs
      split at hs
      · exact finish hs
      · cases hs
        exact of_eq rfl rfl
    · unfold State.pollNext at hs
      split at hs
      · have h1 := finish hs
        exact ⟨h1.nextReq, h1.old, h1.new⟩
      · cases hs
        exact of_eq rfl rfl
    · exact finish hs
    · exact userStep hs
    · cases hs
  · cases hs

end ErrorsKept

/-- **The errors of awaitables change in one place**: where the submission of one fails. -/
theorem step_errors (hs : State.step s c = .ok s') (hst : ∀ h r rest, s.stack ≠ .ioSubmit h r :: rest) :
    ErrorsKept s s' := by
  have hpop : ErrorsKept s s.pop := .of_eq rfl rfl
  unfold State.step at hs
  split at hs
  · exact .userStep hs
  · split at hs
    · exact .awaitMessage hs
    · cases hs
  · split at hs <;> cases hs
    exact hpop
  · exact .awaitCqe hs
  · cases hs
  · exact .awaitSeen hs
  · exact hpop.trans (.eventHandlerReturn hs)
  · exact .bodyStep hs
  · exact hpop.trans (.startReturn hs)
  · exact hpop.trans (.registerCoroReturn hs)
  · exact hpop.trans (.awaitSuspendTail hs)
  · cases hs
    unfold State.finalReturn
    simp only
    split <;> exact .of_eq rfl rfl
  · rename_i hio
    exact absurd hio (hst _ _ _)
  · cases hs

/-- After the submission of an awaitable its error is that of the submission, if this failed, and no other has
changed. -/
theorem errors_ioSubmit {ret : ℤ} (hs : s.ioSubmit h r ret = .ok s') :
    (1 ≤ ret ∧ ErrorsKept s s') ∨
      (ret < 1 ∧ ErrorsKept
        (s.modReq r fun q => { q with error := setErrorFromNum .liburingSubmissionErrErrno q.error (-ret) }) s') := by
  unfold State.ioSubmit at hs
  obtain ⟨s1, h1, h2⟩ := bind_ok.mp hs
  obtain ⟨-, -, -, rfl⟩ := submitQueuedEntries_ok h1
  split at h2
  · rename_i hret
    have h3 := ErrorsKept.resume h2
    exact .inr ⟨hret, h3.nextReq, h3.old, h3.new⟩
  · rename_i hret
    cases h2
    exact .inl ⟨not_lt.mp hret, .of_eq rfl rfl⟩

end State

/-! ### Suspended at an awaitable -/

section TaskStep

variable {m m' : Tasks} {l : TaskLabel} {x a : CoroId} {p : Place} {r : ReqId}

theorem Tasks.atIo_of_setPlace (hp : (m.setPlace x p).place a = .atIo r) : m.place a = .atIo r ∨ a = x ∧
    p = .atIo r := by
  by_cases hax : a = x
  · exact .inr ⟨hax, by simpa [Tasks.setPlace, hax] using hp⟩
  · exact .inl (by simpa [Tasks.setPlace, hax] using hp)

theorem Tasks.atIo_of_setPlace_ne (hp : (m.setPlace x p).place a = .atIo r) (hn : p ≠ .atIo r) : m.place a = .atIo r :=
  (atIo_of_setPlace hp).resolve_right fun h => hn h.2

theorem Tasks.atIo_of_arm {y : CoroId} (hp : (m.arm y x).place a = .atIo r) : m.place a = .atIo r := by
  by_cases hax : a = x
  · subst hax
    exact Place.arm_eq_atIo.mp (by simpa [Tasks.arm] using hp)
  · simpa [Tasks.arm, hax] using hp

theorem Started.atIo {t : TaskRef} (hs : Started m t m') (hp : m'.place a = .atIo r) : m.place a = .atIo r := by
  cases hs with
  | already => exact hp
  | now => exact Tasks.atIo_of_setPlace_ne (m := m) hp (by simp)

/-- A coroutine comes to the `co_await` of an awaitable by beginning it, unless it is one of the library. -/
theorem TaskStep.atIo (hs : TaskStep m l m') (hp : m'.place a = .atIo r) :
    m.place a = .atIo r ∨ l = .event a ∨ m'.user a = false := by
  cases hs with
  | idle | startReturn | rethrowRegister | beginDone | destroy | registered => exact .inl hp
  | suspend _ _ hu =>
    rcases Tasks.atIo_of_setPlace (m := m) hp with h1 | ⟨rfl, -⟩
    · exact .inl h1
    · exact .inr (.inr hu)
  | event =>
    rcases Tasks.atIo_of_setPlace (m := m) hp with h1 | ⟨rfl, -⟩
    · exact .inl h1
    · exact .inr (.inl rfl)
  | wake | wakeKill => exact .inl (Tasks.atIo_of_setPlace_ne (m := m) hp (by simp))
  | call =>
    by_cases han : a = m.next
    · simp [Tasks.call, han] at hp
    · exact .inl (by simpa [Tasks.call, han] using hp)
  | start h1 => exact .inl (h1.atIo hp)
  | register h1 => exact .inl (h1.atIo hp)
  | rethrowAwait => exact .inl (Tasks.atIo_of_setPlace_ne (m := m) hp (by simp))
  | beginStart _ _ _ _ _ h1 => exact .inl (Tasks.atIo_of_setPlace_ne (m := m) (h1.atIo hp) (by simp))
  | @beginArm _ y => exact .inl (Tasks.atIo_of_setPlace_ne (m := m) (Tasks.atIo_of_arm (y := y) hp) (by simp))
  | tailDone => exact .inl (Tasks.atIo_of_setPlace_ne (m := m) hp (by simp))
  | @tailArm _ y _ _ rest => exact .inl (Tasks.atIo_of_arm (m := { m with calls := rest }) (y := y) hp)
  | @finish _ _ _ _ _ _ h1 =>
    rw [h1.place] at hp
    exact .inl (Tasks.atIo_of_setPlace_ne (m := m) hp (by simp))
  | @finishResume _ _ _ _ _ _ _ m₁ _ _ _ h1 =>
    have hp1 := Tasks.atIo_of_setPlace_ne (m := m₁) hp (by simp)
    rw [h1.place] at hp1
    exact .inl (Tasks.atIo_of_setPlace_ne (m := m) hp1 (by simp))
  | finalReturn | overwritten => exact .inl (Tasks.atIo_of_setPlace_ne (m := m) hp (by simp))

end TaskStep

namespace State

variable {s s' : State} {c : Choice} {x : CoroId} {r : ReqId}

theorem place_ioSubmit_failed {h : CoroId} {ret : ℤ} (hp : (s.coros h).place = .atIo r) (hret : ret < 1)
    (hs : s.ioSubmit h r ret = .ok s') : (s'.coros h).place = .running := by
  unfold State.ioSubmit at hs
  obtain ⟨s1, h1, h2⟩ := bind_ok.mp hs
  obtain ⟨-, -, -, rfl⟩ := submitQueuedEntries_ok h1
  rw [if_pos hret] at h2
  have hp' : (s.pop.coros h).place = .atIo r := hp
  simp only [State.resume, State.modReq, State.modEv, hp'] at h2
  cases h2
  simp [State.enter, State.ioReturn, State.push, State.setPlace, State.modCoro, State.modPromise,
    State.modReq, State.log]

/-- In a step that brings `x` to an awaitable it suspends there itself: it awaits one that has no error. -/
theorem noErr_of_new (hreach : Reachable s) (hs : State.step s c = .ok s') (hp : (s'.coros x).place = .atIo r)
    (hn : (s.coros x).place ≠ .atIo r) : (s'.reqs r).error = .noErr := by
  have hkind : (s'.coros x).body.kind = .user := by
    have h1 := (hreach.step hs).sound.records.fits x
    rw [hp] at h1
    simpa [Body.fits] using h1
  have hev : s.label c = .event x := by
    rcases (step_tasks hreach.sound hreach.killing hs).atIo (a := x) (r := r) hp with h1 | h1 | h1
    · exact absurd h1 hn
    · exact h1
    · exact absurd hkind (by simpa [State.tasks] using h1)
  have hcase := s.label_case c
  rw [hev] at hcase
  have hio : ∀ {u : State} {a : ReqId}, (u.coros x).place = .running → u.awaitIo x a = .ok s' →
      (s'.reqs r).error = .noErr := by
    intro u a hpl h1
    rcases awaitIo_ok h1 with ⟨-, ⟨-, rfl⟩ | ⟨j, he, -, -, rfl⟩⟩
    · simp [ioReturn, log, modReq, modPromise, modCoro, hpl] at hp
    · have hat : ∀ v : State, (((v.suspend x (.atIo a)).push (.ioSubmit x a)).coros x).place = .atIo a := by
        simp [push, suspend, setPlace, modCoro, pop]
      rw [hat] at hp
      obtain rfl := Place.atIo.inj hp
      show (Function.update u.reqs a _ a).error = _
      rw [Function.update_self]
      exact isThereAnError_eq_false.mp he
  generalize hl : TaskLabel.event x = l at hcase
  cases hcase with
  | @main a => cases a <;> cases hl
  | @handler _ a => cases a <;> cases hl
  | @body h a rest hst hk =>
    have hrun := hreach.placed.place_of_top hst
    rw [step_run hst] at hs
    unfold State.bodyStep at hs
    have hb : (s.coros h).body = .user := by
      cases hb : (s.coros h).body <;> simp [hb, Body.kind] at hk
      rfl
    simp only [hb] at hs
    cases a with
    | awaitIo a =>
      cases hl
      exact hio hrun hs
    | awaitOp p =>
      cases hl
      obtain ⟨⟨r', s1⟩, h1, h2⟩ := bind_ok.mp hs
      exact hio ((Acts.place_ioOp h1 _).trans hrun) h2
    | _ => cases hl
  | _ => cases hl

/-- **A coroutine that is suspended at an awaitable is suspended at one without an error.** -/
theorem noErr (h : Reachable s) : ∀ x r, (s.coros x).place = .atIo r → (s.reqs r).error = .noErr := by
  refine Reach.inv_of (I := fun s => ∀ x r, (s.coros x).place = .atIo r → (s.reqs r).error = .noErr)
    (J := fun s => Reachable s) (fun s h => h) (fun s hi => ?_) (fun s c s' hreach ih _ hs x r hp => ?_) h
  · intro x r hp
    rw [hi.place] at hp
    split at hp <;> cases hp
  by_cases hx : (s.coros x).place = .atIo r
  · have hlt : r < s.nextReq := (hreach.sound.records.owned x r (hreach.sound.records.atIo x r hx).2.2.2).1
    by_cases hst : ∃ h r' rest, s.stack = .ioSubmit h r' :: rest
    · obtain ⟨h, r', rest, hst⟩ := hst
      obtain ⟨ret, -, h1⟩ := step_ioSubmit hst hs
      have hp' := place_of_ioSubmit hreach hst
      rcases errors_ioSubmit h1 with ⟨-, h2⟩ | ⟨hret, h2⟩
      · rw [h2.old r hlt]
        exact ih x r hx
      · -- the submission of another awaitable has failed: the coroutine of this one runs on
        have hne : r ≠ r' := by
          rintro rfl
          obtain rfl := hreach.sound.records.atIo_inj hx hp'
          cases hp.symm.trans (place_ioSubmit_failed hp' hret h1)
        rw [h2.old r hlt]
        simpa [State.modReq, hne] using ih x r hx
    · rw [(step_errors hs fun h r' rest hst' => hst ⟨h, r', rest, hst'⟩).old r hlt]
      exact ih x r hx
  · exact noErr_of_new hreach hs hp hx

/-- **An awaitable that was not awaited has no error, or got no entry.** -/
theorem newError (h : Reachable s) : ∀ r, s.nextReq ≤ r ∨ (s.reqs r).data.handle = none →
    NewError (s.reqs r).error := by
  refine Reach.inv_of (I := fun s => ∀ r, s.nextReq ≤ r ∨ (s.reqs r).data.handle = none → NewError (s.reqs r).error)
    (J := fun s => Reachable s) (fun s h => h) (fun s hi => ?_) (fun s c s' hreach ih _ hs r hr => ?_) h
  · intro r _
    rw [hi.reqs]
    exact .inl rfl
  -- but for the awaitable whose submission fails, which was awaited, the errors are kept
  obtain ⟨u, hn, hu, hkept⟩ : ∃ u : State, u.nextReq = s.nextReq ∧ (∀ a, s.nextReq ≤ a ∨ (s.reqs a).data.handle = none →
      (u.reqs a).error = (s.reqs a).error) ∧ ErrorsKept u s' := by
    by_cases hst : ∃ h r' rest, s.stack = .ioSubmit h r' :: rest
    · obtain ⟨h, r', rest, hst⟩ := hst
      obtain ⟨ret, -, h1⟩ := step_ioSubmit hst hs
      rcases errors_ioSubmit h1 with ⟨-, h2⟩ | ⟨-, h2⟩
      · exact ⟨s, rfl, fun _ _ => rfl, h2⟩
      · obtain ⟨-, -, hhandle, hown⟩ := hreach.sound.records.atIo h r' (place_of_ioSubmit hreach hst)
        refine ⟨s.modReq r' _, rfl, fun a ha => ?_, h2⟩
        have hne : a ≠ r' := by
          rintro rfl
          rcases ha with ha | ha
          · exact absurd (hreach.sound.records.owned h a hown).1 (not_lt.mpr ha)
          · cases hhandle.symm.trans ha
        simp [State.modReq, hne]
    · exact ⟨s, rfl, fun _ _ => rfl, step_errors hs fun h r' rest hst' => hst ⟨h, r', rest, hst'⟩⟩
  by_cases hlt : r < s.nextReq
  · have hh : (s.reqs r).data.handle = none := by
      by_contra hh
      have hle := hkept.nextReq
      exact (Lasting.step hs).handle r hlt hh (hr.resolve_left (by omega))
    rw [hkept.old r (hn ▸ hlt), hu r (.inr hh)]
    exact ih r (.inr hh)
  · have hle := not_lt.mp hlt
    rcases hkept.new r (hn ▸ hle) with h1 | h1
    · rw [h1, hu r (.inl hle)]
      exact ih r (.inl hle)
    · exact h1

end State

end EvManager
