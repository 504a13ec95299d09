import EvManager.Control
import Mathlib.Data.List.Chain

/-!
# The call stack

`StackStep` lists how a step changes the call stack: a call comes on it, a call returns, or another goes on in
its place.  It follows that the calls lie on each other as the code makes them, `main` at the bottom.
-/

namespace EvManager

open Lib

/-- User code may run in the activation: `main`, or a body with its handlers. -/
def Activation.isCode : Activation → Bool
  | .main | .run _ => true
  | _ => false

/-- How a step changes the call stack. -/
inductive StackStep : List Activation → List Activation → Prop
  | keep {st : List Activation} : StackStep st st
  | start {a : Activation} {st : List Activation} : a.isCode = true → StackStep (a :: st) (.start :: a :: st)
  | startTask {a : Activation} {t : TaskRef} {h : CoroId} {st : List Activation} : a.isCode = true →
      StackStep (a :: st) (.run h :: .taskStart t h :: a :: st)
  | register {a : Activation} {v : VarId} {st : List Activation} : a.isCode = true →
      StackStep (a :: st) (.registerCoro v :: a :: st)
  | registerStart {a : Activation} {v : VarId} {t : TaskRef} {h : CoroId} {st : List Activation} : a.isCode = true →
      StackStep (a :: st) (.run h :: .taskStart t h :: .registerCoro v :: a :: st)
  | awaitStart {a h : CoroId} {t : TaskRef} {st : List Activation} :
      StackStep (.run a :: st) (.run h :: .taskStart t h :: .taskAwait t a :: st)
  | io {h : CoroId} {r : ReqId} {st : List Activation} : StackStep (.run h :: st) (.ioSubmit h r :: st)
  | final {h : CoroId} {st : List Activation} : StackStep (.run h :: st) (.finalSuspend h :: st)
  | finalResume {h a : CoroId} {st : List Activation} : StackStep (.run h :: st) (.run a :: .finalSuspend h :: st)
  | wait {st : List Activation} : StackStep (.start :: st) (.awaitWait :: .start :: st)
  | parked {r : ReqId} {p : CoroId} {st : List Activation} :
      StackStep (.start :: st) (.run p :: .eventHandler r p :: .awaitWait :: .start :: st)
  | seen {st : List Activation} : StackStep (.awaitWait :: st) (.awaitSeen :: st)
  | dispatch {r : ReqId} {h : CoroId} {st : List Activation} :
      StackStep (.awaitWait :: st) (.run h :: .eventHandler r h :: .awaitSeen :: st)
  | ret {a : Activation} {st : List Activation} : a ≠ .main → StackStep (a :: st) st
  | resume {a : Activation} {h : CoroId} {st : List Activation} : a ≠ .main → StackStep (a :: st) (.run h :: st)
  | rethrow {t : TaskRef} {h : CoroId} {v : VarId} {st : List Activation} :
      StackStep (.taskStart t h :: .registerCoro v :: st) st
  | rethrowAwait {t t' : TaskRef} {h a : CoroId} {st : List Activation} :
      StackStep (.taskStart t h :: .taskAwait t' a :: st) (.run a :: st)

namespace State

variable {s s' : State} {h : CoroId} {rest : List Activation}

/-! ### Coroutines and tasks -/

theorem stack_resume {cause : Option ReqId} (hs : s.resume h cause = .ok s') : s'.stack = .run h :: s.stack := by
  cases resumes_of_resume hs <;> rfl

theorem stack_startTask {t : TaskRef} {e : EvTask} (he : s.task t = some e) (hs : s.startTask t = .ok s') :
    (e.startedCoro = true ∧ s' = s) ∨
      e.startedCoro = false ∧ ∃ x, s'.stack = .run x :: .taskStart t x :: s.stack := by
  unfold startTask at hs
  obtain ⟨e', he', h2⟩ := bind_ok.mp hs
  rw [need_ok, he, Option.some.injEq] at he'
  subst he'
  split at h2
  · rename_i hst
    cases h2
    exact .inl ⟨hst, rfl⟩
  · rename_i hst
    obtain ⟨x, -, h3⟩ := bind_ok.mp h2
    refine .inr ⟨by simpa using hst, x, ?_⟩
    rw [stack_resume h3]
    cases t <;> rfl

theorem stack_startTask_or {t : TaskRef} (hs : s.startTask t = .ok s') :
    s'.stack = s.stack ∨ ∃ x, s'.stack = .run x :: .taskStart t x :: s.stack := by
  obtain ⟨e, he, -⟩ := bind_ok.mp (show (need .deadTask (s.task t) >>= _) = .ok s' from hs)
  rcases stack_startTask (need_ok.mp he) hs with ⟨-, rfl⟩ | ⟨-, hx⟩
  · exact .inl rfl
  · exact .inr hx

theorem stack_awaitSuspendTail {t : TaskRef} {a : CoroId} (hs : s.awaitSuspendTail t a = .ok s') :
    s'.stack = s.stack ∨ s'.stack = .run a :: s.stack := by
  unfold awaitSuspendTail at hs
  obtain ⟨e, -, h2⟩ := bind_ok.mp hs
  split at h2
  · exact .inr (stack_resume h2)
  · obtain ⟨x, -, h3⟩ := bind_ok.mp h2
    cases h3
    exact .inl rfl

theorem stackStep_finish {out : Option ℕ} (hst : s.stack = .run h :: rest) (hs : s.finish h out = .ok s') :
    StackStep (.run h :: rest) s'.stack := by
  have he : ((s.storeResult h out).endBody h out).stack = .finalSuspend h :: rest := by simp [endBody, hst]
  rcases finish_ok hs with ⟨a, -, h1⟩ | ⟨-, rfl⟩
  · rw [stack_resume h1, he]
    exact .finalResume
  · rw [he]
    exact .final

theorem stack_suspend {p : Place} (hst : s.stack = .run h :: rest) : (s.suspend h p).stack = rest := by
  rw [suspend, stack_pop, stack_setPlace, hst, List.tail_cons]

theorem stack_finalReturn (h : CoroId) (s : State) : (s.finalReturn h).stack = s.stack := by
  unfold finalReturn
  simp only
  split <;> rfl

theorem stackStep_suspend {p : Place} (hst : s.stack = .run h :: rest) :
    StackStep (.run h :: rest) (s.suspend h p).stack := by
  rw [stack_suspend hst]
  exact .ret (by simp)

theorem stackStep_park {s1 : State} {p : Place} (hst : s.stack = .run h :: rest) (h1 : s1.stack = s.stack) :
    StackStep (.run h :: rest) (s1.suspend h p).stack :=
  stackStep_suspend (h1.trans hst)

theorem stack_awaitTask {t : TaskRef} (hst : s.stack = .run h :: rest) (hs : s.awaitTask h t = .ok s') :
    s'.stack = rest ∨ s'.stack = .run h :: rest ∨
      ∃ x, s'.stack = .run x :: .taskStart t x :: .taskAwait t h :: rest := by
  unfold awaitTask at hs
  obtain ⟨e, he, h2⟩ := bind_ok.mp hs
  obtain ⟨x, -, h3⟩ := bind_ok.mp h2
  rw [need_ok] at he
  have hsus : (s.suspend h (.atTask t x false)).stack = rest := stack_suspend hst
  simp only at h3
  split at h3
  · rcases stack_awaitSuspendTail h3 with h4 | h4 <;> rw [h4, hsus]
    · exact .inl rfl
    · exact .inr (.inl rfl)
  · rename_i hne
    have he' : ((s.suspend h (.atTask t x false)).push (.taskAwait t h)).task t = some e := by cases t <;> exact he
    rcases stack_startTask he' h3 with ⟨hst', -⟩ | ⟨-, y, h4⟩
    · exact absurd hst' hne
    · rw [h4, stack_push, hsus]
      exact .inr (.inr ⟨y, rfl⟩)

theorem stackStep_awaitTask {t : TaskRef} (hst : s.stack = .run h :: rest) (hs : s.awaitTask h t = .ok s') :
    StackStep (.run h :: rest) s'.stack := by
  rcases stack_awaitTask hst hs with h1 | h1 | ⟨x, h1⟩ <;> rw [h1]
  · exact .ret (by simp)
  · exact .keep
  · exact .awaitStart

theorem stackStep_startReturn {t : TaskRef} (hst : s.stack = .taskStart t h :: rest)
    (hs : s.pop.startReturn t h = .ok s') : StackStep (.taskStart t h :: rest) s'.stack := by
  have hpop : s.pop.stack = rest := by rw [stack_pop, hst, List.tail_cons]
  unfold startReturn at hs
  obtain ⟨e, -, h2⟩ := bind_ok.mp hs
  split at h2
  · unfold rethrow at h2
    split at h2
    · rename_i hreg
      cases h2
      rw [hpop] at hreg
      rw [stack_pop, hpop, hreg]
      exact .rethrow
    · rename_i haw
      rw [hpop] at haw
      split at h2
      · cases h2
        rw [haw]
        simp only [enter, stack_push, stack_setPlace, stack_pop, hst, haw, List.tail_cons]
        exact .rethrowAwait
      · cases h2
    · cases h2
      rw [hpop]
      exact .ret (by simp)
  · cases h2
    rw [hpop]
    exact .ret (by simp)

/-! ### Issuing requests -/

theorem stack_submit {ret : ℤ} (hs : s.submitQueuedEntries ret = .ok s') : s'.stack = s.stack :=
  (submitQueuedEntries_stack hs).1

theorem stack_na {p : ParameterPack} {ret : ℤ} {e : Errnos} (hs : s.naOp p ret = .ok (e, s')) : s'.stack = s.stack := by
  rcases naOp_ok hs with ⟨-, -, rfl⟩ | ⟨-, j, ring, s2, -, h2, hcase⟩
  · rfl
  · have h3 : s2.stack = s.stack := stack_submit (s := s.setRing ring) h2
    rcases hcase with ⟨-, -, rfl⟩ | ⟨-, -, rfl⟩ <;> exact h3

theorem stackStep_awaitIo {r : ReqId} (hst : s.stack = .run h :: rest) (hs : s.awaitIo h r = .ok s') :
    StackStep (.run h :: rest) s'.stack := by
  rcases awaitIo_ok hs with ⟨-, ⟨-, rfl⟩ | ⟨j, -, -, -, rfl⟩⟩
  · rw [show (s.ioReturn h r).stack = s.stack from rfl, hst]
    exact .keep
  · rw [stack_push, stack_suspend (by exact hst)]
    exact .io

theorem stack_processRequests {l : List (ParameterPack × ReqId)} :
    ∀ {s s' : State}, s.processRequests h l = .ok s' → s'.stack = s.stack := by
  induction l with
  | nil =>
    intro s s' hs
    cases hs
    rfl
  | cons x l ih =>
    intro s s' hs
    obtain ⟨req, r⟩ := x
    obtain ⟨⟨b, s1⟩, h1, h2⟩ := bind_ok.mp hs
    rw [ih h2]
    rcases processSingleGenericRequest_ok h1 with ⟨-, -, rfl⟩ | ⟨-, -, -, j, ring, -, rfl⟩ <;> rfl

theorem stackStep_submitAndWaitBegin {q : RequestQueue} {ret : ℤ} (hst : s.stack = .run h :: rest)
    (hs : s.submitAndWaitBegin h q ret = .ok s') : StackStep (.run h :: rest) s'.stack := by
  unfold submitAndWaitBegin at hs
  obtain ⟨s1, h1, h2⟩ := bind_ok.mp hs
  have hst1 := stack_submit h1
  split at h2
  · exact stackStep_finish (hst1.trans hst) h2
  · simp only at h2
    obtain ⟨s2, h3, h4⟩ := bind_ok.mp h2
    cases h4
    have hst2 : s2.stack = .run h :: rest := (stack_processRequests h3).trans (hst1.trans hst)
    rw [stack_setBody, hst2]
    exact .keep

theorem stackStep_submitAndWaitLoop {q : RequestQueue} {l : BatchLocals} {ret : Option ℤ}
    (hst : s.stack = .run h :: rest)
    (hs : s.submitAndWaitLoop h q l ret = .ok s') : StackStep (.run h :: rest) s'.stack := by
  unfold submitAndWaitLoop at hs
  split at hs
  · split at hs
    · exact stackStep_finish hst hs
    · cases hs
  · split at hs
    · split at hs
      · obtain ⟨s1, h1, h2⟩ := bind_ok.mp hs
        have hst1 := stack_submit h1
        split at h2
        · exact stackStep_finish (hst1.trans hst) h2
        · cases h2
          rw [stack_setBody, hst1, hst]
          exact .keep
      · cases hs
    · split at hs <;> cases hs
      exact stackStep_park hst rfl

theorem stackStep_submitAndWaitNext {q : RequestQueue} {l : BatchLocals} {i : ℕ} (hst : s.stack = .run h :: rest) :
    StackStep (.run h :: rest) (s.submitAndWaitNext h q l i).stack := by
  unfold submitAndWaitNext
  split
  · exact stackStep_park hst rfl
  · rw [stack_setBody, hst]
    exact .keep

theorem stackStep_pollBegin (hst : s.stack = .run h :: rest) (hs : s.pollBegin h = .ok s') :
    StackStep (.run h :: rest) s'.stack := by
  unfold pollBegin at hs
  split at hs
  · exact stackStep_finish hst hs
  · cases hs
    exact stackStep_park hst rfl

theorem stackStep_pollNext {stop : Bool} (hst : s.stack = .run h :: rest) (hs : s.pollNext h stop = .ok s') :
    StackStep (.run h :: rest) s'.stack := by
  unfold pollNext at hs
  split at hs
  · have hst1 : (s.modEv fun ev => { ev with pollingRequests := false }).stack = .run h :: rest := hst
    exact stackStep_finish hst1 hs
  · cases hs
    exact stackStep_park hst rfl

/-! ### The event loop -/

theorem stackStep_flushLoop {pc : ℕ → KillPc} {iter : ℕ} {ret : Option ℤ} {next : State → Except Stop State}
    (hst : s.stack = .run h :: rest) (hnext : ∀ s', next s = .ok s' → s'.stack = s.stack)
    (hs : s.flushLoop h pc iter ret next = .ok s') : StackStep (.run h :: rest) s'.stack := by
  unfold flushLoop at hs
  split at hs
  · split at hs
    · split at hs
      · obtain ⟨s1, h1, h2⟩ := bind_ok.mp hs
        cases h2
        rw [stack_setBody, stack_submit h1, hst]
        exact .keep
      · cases hs
    · split at hs
      · split at hs
        · exact stackStep_finish hst hs
        · rw [hnext s' hs, hst]
          exact .keep
      · cases hs
  · cases hs

theorem stackStep_killInternal {pc : KillPc} {ret : Option ℤ} (hst : s.stack = .run h :: rest)
    (hs : s.killInternal h pc ret = .ok s') : StackStep (.run h :: rest) s'.stack := by
  unfold killInternal at hs
  split at hs
  · split at hs
    · split at hs
      · exact stackStep_finish hst hs
      · cases hs
        rw [stack_setBody, stack_modEv, hst]
        exact .keep
    · cases hs
  · refine stackStep_flushLoop hst (fun s1 h1 => ?_) hs
    cases h1
    rfl
  · split at hs
    · obtain ⟨⟨j, s1⟩, h1, h2⟩ := bind_ok.mp hs
      have hst1 : s1.stack = s.stack := by
        rcases cancelSqe_ok h1 with ⟨-, rfl⟩ | h3
        · rfl
        · cases j with
          | none => rw [ioUringGetSqe_none h3]
          | some j =>
            obtain ⟨ring, -, -, rfl⟩ := ioUringGetSqe_some h3
            rfl
      cases j with
      | none =>
        exact stackStep_finish (hst1.trans hst) h2
      | some j =>
        cases h2
        rw [stack_setBody, stack_writeSqe, hst1, hst]
        exact .keep
    · cases hs
  · refine stackStep_flushLoop hst (fun s1 h1 => ?_) hs
    cases h1
    rfl
  · split at hs
    · split at hs
      · cases hs
        exact stackStep_suspend hst
      · have hst1 : (s.modEv fun ev => { ev with managerLifeState := .dead, ringUp := false }).stack = .run h :: rest :=
          hst
        exact stackStep_finish hst1 hs
    · cases hs

theorem stack_eventHandler {res : ℤ} {x : Option ReqId} {base : Addr} (hs : s.eventHandler res x base = .ok s') :
    s'.stack = s.stack ∨ ∃ r p, s'.stack = .run p :: .eventHandler r p :: s.stack := by
  unfold eventHandler at hs
  split at hs
  · cases hs
    exact .inl rfl
  · rename_i r
    simp only at hs
    split at hs
    · split at hs
      · cases hs
        exact .inl rfl
      · rename_i p _
        obtain ⟨pack, -, h1⟩ := bind_ok.mp hs
        exact .inr ⟨r, p, stack_resume h1⟩
    · cases hs

theorem stackStep_awaitMessage {base : Addr} (hst : s.stack = .start :: rest) (hs : s.awaitMessage base = .ok s') :
    StackStep (.start :: rest) s'.stack := by
  unfold awaitMessage at hs
  simp only at hs
  split at hs
  · rcases stack_eventHandler hs with h1 | ⟨r, p, h1⟩ <;> rw [h1, stack_modReq, stack_modEv, stack_push, hst]
    · exact .wait
    · exact .parked
  · cases hs
    rw [stack_push, hst]
    exact .wait

theorem stackStep_awaitCqe {i : ℕ} {res : ℤ} {base : Addr} (hst : s.stack = .awaitWait :: rest)
    (hs : s.awaitCqe i res base = .ok s') : StackStep (.awaitWait :: rest) s'.stack := by
  unfold awaitCqe at hs
  split at hs
  · split at hs
    · rename_i x _
      simp only at hs
      have hw : ∀ s1 : State, s1.stack = .awaitSeen :: rest → s1.eventHandler res x.sqe.userData base = .ok s' →
          StackStep (.awaitWait :: rest) s'.stack := by
        intro s1 hst1 h1
        rcases stack_eventHandler h1 with h2 | ⟨r, p, h2⟩ <;> rw [h2, hst1]
        · exact .seen
        · exact .dispatch
      refine hw _ ?_ hs
      split <;> simp [setRing, hst]
    · cases hs
  · cases hs

theorem stackStep_awaitSeen (hst : s.stack = .awaitSeen :: rest) (hs : s.awaitSeen = .ok s') :
    StackStep (.awaitSeen :: rest) s'.stack := by
  unfold awaitSeen at hs
  split at hs
  · simp only at hs
    split at hs
    · rw [stack_resume hs, stack_modEv, stack_pop, hst, List.tail_cons]
      exact .resume (by simp)
    · cases hs
    · cases hs
      rw [stack_modEv, stack_pop, hst, List.tail_cons]
      exact .ret (by simp)
  · cases hs

theorem stack_eventHandlerReturn {r : ReqId} (hs : s.eventHandlerReturn r h = .ok s') : s'.stack = s.stack := by
  unfold eventHandlerReturn at hs
  simp only at hs
  split at hs
  · split at hs
    · cases hs
      rw [stack_log, stack_modReq]
      split <;> rfl
    · cases hs
  · cases hs
    split <;> rfl

@[simp] theorem stack_relink (e : EvTask) (s : State) : (s.relink e).stack = s.stack := by
  unfold relink
  split <;> rfl

theorem stack_makeRoom {pick : ℕ} {grow : Bool} (hs : s.makeRoom pick grow = .ok s') : s'.stack = s.stack := by
  have hrelinks : ∀ (es : List EvTask) (s : State), (es.foldl (fun s e => s.relink e) s).stack = s.stack := by
    intro es
    induction es with
    | nil => exact fun s => rfl
    | cons e es ih => exact fun s => (ih _).trans (stack_relink e s)
  unfold makeRoom at hs
  simp only at hs
  split at hs
  · cases hs
    split
    · exact hrelinks _ s
    · rfl
  · split at hs
    · obtain ⟨old, -, h1⟩ := bind_ok.mp hs
      unfold overwriteTask at h1
      split at h1
      · cases h1
        rfl
      · split at h1
        · cases h1
        · split at h1
          · cases h1
            rfl
          · unfold destroyCoro at h1
            split at h1 <;> cases h1
            simp
    · cases hs

theorem stack_registerCoroReturn {v : VarId} {idx : ℕ} {grow : Bool} (hs : s.registerCoroReturn v idx grow = .ok s') :
    s'.stack = s.stack := by
  unfold registerCoroReturn at hs
  obtain ⟨s1, h1, h2⟩ := bind_ok.mp hs
  obtain ⟨e, -, h3⟩ := bind_ok.mp h2
  cases h3
  rw [← stack_makeRoom h1, ← stack_relink e s1]
  unfold insertTask
  simp only
  split <;> rfl

theorem stackStep_ioSubmit {r : ReqId} {ret : ℤ} (hst : s.stack = .ioSubmit h r :: rest)
    (hs : s.ioSubmit h r ret = .ok s') : StackStep (.ioSubmit h r :: rest) s'.stack := by
  unfold ioSubmit at hs
  obtain ⟨s1, h1, h2⟩ := bind_ok.mp hs
  have hst1 : s1.stack = rest := by rw [stack_submit h1, stack_pop, hst, List.tail_cons]
  split at h2
  · rw [stack_resume h2, stack_modReq, hst1]
    exact .resume (by simp)
  · cases h2
    rw [hst1]
    exact .ret (by simp)

/-! ### User code -/

theorem stackStep_userStep {ctx : Option CoroId} {a : Act} {x : Activation} (hx : x.isCode = true)
    (hst : s.stack = x :: rest) (hs : s.userStep ctx a = .ok s') : StackStep (x :: rest) s'.stack := by
  have hkeep : s'.stack = s.stack → StackStep (x :: rest) s'.stack := by
    intro h1
    rw [h1, hst]
    exact .keep
  cases a with
  | call | submitAndWait q | poll | kill =>
    cases hs
    refine hkeep ?_
    cases ctx <;> rfl
  | startTask v =>
    rcases stack_startTask_or hs with h1 | ⟨y, h1⟩
    · exact hkeep h1
    · rw [h1, hst]
      exact .startTask hx
  | registerCoro v =>
    rcases stack_startTask_or hs with h1 | ⟨y, h1⟩ <;> rw [h1, stack_push, hst]
    · exact .register hx
    · exact .registerStart hx
  | destroyTask v =>
    cases hs
    exact hkeep (stack_destroyTask s v)
  | io p =>
    simp only [userStep, Except.map] at hs
    split at hs
    · cases hs
    · rename_i y hy
      cases hs
      exact hkeep (ioOp_stack (r := y.1) hy)
  | dropAwaitable r =>
    simp only [userStep] at hs
    split at hs <;> cases hs
    exact hkeep rfl
  | na p ret =>
    simp only [userStep, Except.map] at hs
    split at hs
    · cases hs
    · rename_i y hy
      cases hs
      exact hkeep (stack_na (e := y.1) hy)
  | submitQueuedEntries ret => exact hkeep (stack_submit hs)
  | getUringSqe =>
    simp only [userStep, Except.map] at hs
    split at hs
    · cases hs
    · rename_i y hy
      cases hs
      exact hkeep (getUringSqe_stack (x := y.1) hy)
  | start =>
    cases hs
    unfold startLoop
    split
    · rw [hst]
      exact .keep
    · rw [stack_push, stack_modEv, hst]
      exact .start hx
  | consume h rt =>
    simp only [userStep] at hs
    split at hs <;> cases hs
    exact hkeep rfl
  | awaitTask | awaitIo | awaitOp | coReturn | throw | handlerReturn => cases hs

theorem stackStep_coroStep {a : Act} (hst : s.stack = .run h :: rest) (hs : s.coroStep h a = .ok s') :
    StackStep (.run h :: rest) s'.stack := by
  unfold coroStep at hs
  split at hs
  · exact stackStep_awaitTask hst hs
  · exact stackStep_awaitIo hst hs
  · obtain ⟨⟨r, s1⟩, h1, h2⟩ := bind_ok.mp hs
    exact stackStep_awaitIo ((ioOp_stack h1).trans hst) h2
  · exact stackStep_finish hst hs
  · exact stackStep_finish hst hs
  · exact stackStep_userStep rfl hst hs

theorem stackStep_bodyStep {c : Choice} (hst : s.stack = .run h :: rest) (hs : s.bodyStep h c = .ok s') :
    StackStep (.run h :: rest) s'.stack := by
  unfold bodyStep at hs
  split at hs
  · exact stackStep_coroStep hst hs
  · exact stackStep_killInternal hst hs
  · exact stackStep_killInternal hst hs
  · exact stackStep_awaitTask hst hs
  · exact stackStep_finish hst hs
  · split at hs
    · exact stackStep_submitAndWaitBegin hst hs
    · exact stackStep_submitAndWaitLoop hst hs
    · exact stackStep_submitAndWaitLoop hst hs
    · cases hs
      exact stackStep_submitAndWaitNext hst
    · exact stackStep_finish hst hs
    · exact stackStep_userStep rfl hst hs
    · cases hs
  · split at hs
    · exact stackStep_pollBegin hst hs
    · exact stackStep_pollNext hst hs
    · exact stackStep_finish hst hs
    · exact stackStep_userStep rfl hst hs
    · cases hs
  · cases hs

end State

open State

/-- **Every step of the program changes the stack so.** -/
theorem step_stack {s s' : State} {c : Choice} (hs : step s c = .ok s') : StackStep s.stack s'.stack := by
  unfold step at hs
  split at hs
  · rename_i hst
    rw [hst]
    exact stackStep_userStep rfl hst hs
  · rename_i hst
    split at hs
    · rw [hst]
      exact stackStep_awaitMessage hst hs
    · cases hs
  · rename_i hst
    split at hs <;> cases hs
    rw [stack_pop, hst, List.tail_cons]
    exact .ret (by simp)
  · rename_i hst
    rw [hst]
    exact stackStep_awaitCqe hst hs
  · cases hs
  · rename_i hst
    rw [hst]
    exact stackStep_awaitSeen hst hs
  · rename_i hst
    rw [stack_eventHandlerReturn hs, stack_pop, hst, List.tail_cons]
    exact .ret (by simp)
  · rename_i hst
    rw [hst]
    exact stackStep_bodyStep hst hs
  · rename_i hst
    rw [hst]
    exact stackStep_startReturn hst hs
  · rename_i hst
    rw [stack_registerCoroReturn hs, stack_pop, hst, List.tail_cons]
    exact .ret (by simp)
  · rename_i hst
    rcases stack_awaitSuspendTail hs with h1 | h1 <;> rw [h1, stack_pop, hst, List.tail_cons]
    · exact .ret (by simp)
    · exact .resume (by simp)
  · rename_i hst
    cases hs
    rw [stack_finalReturn, stack_pop, hst, List.tail_cons]
    exact .ret (by simp)
  · rename_i hst
    rw [hst]
    exact stackStep_ioSubmit hst hs
  · cases hs

/-- A body comes on the stack at its top. -/
theorem StackStep.run_head {st st' : List Activation} {h : CoroId} (hs : StackStep st st') (hm : Activation.run h ∈ st')
    (h0 : Activation.run h ∉ st) : ∃ rest, st' = .run h :: rest := by
  cases hs <;> simp_all

/-! ### What lies on what -/

/-- `EvTask::start` may be called in the activation. -/
def Activation.startsTasks : Activation → Bool
  | .main | .run _ | .registerCoro _ | .taskAwait .. => true
  | _ => false

/-- What may lie right below a call. -/
def Activation.on : Activation → Activation → Bool
  | .main, _ => false
  | .start, b | .registerCoro _, b => b.isCode
  | .awaitWait, b | .awaitSeen, b => b = .start
  | .eventHandler .., .awaitWait | .eventHandler .., .awaitSeen => true
  | .eventHandler .., _ => false
  | .taskStart .., b => b.startsTasks
  | _, _ => true

/-- The calls lie on each other as the code makes them. -/
def Stacked (st : List Activation) : Prop := st.IsChain fun a b => a.on b = true

namespace Stacked

variable {a a' b : Activation} {st st' : List Activation}

theorem tail (h : Stacked (a :: st)) : Stacked st := List.IsChain.tail h

theorem cons (hab : a.on b = true) (h : Stacked (b :: st)) : Stacked (a :: b :: st) :=
  List.isChain_cons_cons.mpr ⟨hab, h⟩

theorem cons_any (ha : ∀ b, a.on b = true) (h : Stacked st) : Stacked (a :: st) := by
  cases st with
  | nil => exact List.isChain_singleton a
  | cons b st => exact cons (ha b) h

theorem on (h : Stacked (a :: b :: st)) : a.on b = true := (List.isChain_cons_cons.mp h).1

theorem replace (hab : ∀ b, a.on b = true → a'.on b = true) (h : Stacked (a :: st)) : Stacked (a' :: st) := by
  cases st with
  | nil => exact List.isChain_singleton a'
  | cons b st => exact cons (hab b h.on) h.tail

/-- `main` is at the bottom. -/
theorem main (h : Stacked (.main :: st)) : st = [] := by
  cases st with
  | nil => rfl
  | cons b st => exact absurd h.on (by simp [Activation.on])

theorem step (hs : StackStep st st') (h : Stacked st) : Stacked st' := by
  have hrun : ∀ {x : CoroId} {l : List Activation}, Stacked l → Stacked (.run x :: l) := cons_any fun _ => rfl
  have hcode : ∀ {x : Activation}, x.isCode = true → x.startsTasks = true := by
    intro x hx
    cases x <;> first | rfl | cases hx
  cases hs with
  | keep => exact h
  | start ha => exact h.cons ha
  | startTask ha => exact hrun (h.cons (hcode ha))
  | register ha => exact h.cons ha
  | registerStart ha => exact hrun (cons rfl (h.cons ha))
  | awaitStart => exact hrun (cons rfl (cons_any (fun _ => rfl) h.tail))
  | io => exact cons_any (fun _ => rfl) h.tail
  | final => exact cons_any (fun _ => rfl) h.tail
  | finalResume => exact hrun (cons_any (fun _ => rfl) h.tail)
  | wait => exact h.cons rfl
  | parked => exact hrun (cons rfl (h.cons rfl))
  | seen => exact h.replace fun _ (hb : Activation.awaitWait.on _ = true) => hb
  | dispatch => exact hrun (cons rfl (h.replace fun _ (hb : Activation.awaitWait.on _ = true) => hb))
  | ret _ => exact h.tail
  | resume _ => exact hrun h.tail
  | rethrow => exact h.tail.tail
  | rethrowAwait => exact hrun h.tail.tail

end Stacked

theorem Reachable.stacked {s : State} (h : Reachable s) : Stacked s.stack := by
  refine Reach.inv (I := fun s => Stacked s.stack) (fun s hi => ?_) (fun s c s' hst _ hs => hst.step (step_stack hs)) h
  rw [hi.stack]
  exact List.isChain_singleton _

end EvManager
