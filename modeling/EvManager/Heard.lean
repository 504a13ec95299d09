import EvManager.Deals
import EvManager.KillStack
import EvManager.Responses

/-!
# What is heard

A coroutine that waits is told how it came out: its `co_await` returns, or its handler is called.  A response is
published where `event_handler` resumes the coroutine that waits for it, which takes it up at once, and where it
does not an awaitable returns only because no entry was to be had or the submission failed: **`step_hears`**.
-/

namespace EvManager

open Lib State ErrorProcessing

/-- The events of waiting: a coroutine is resumed on account of a request, or has got what it waited for. -/
def Event.isHeard : Event → Bool
  | .resumed .. | .ioReturned .. | .handled .. | .taskReturned .. => true
  | _ => false

/-- Nobody is resumed right on top of code that goes on running, or of a call. -/
theorem StackStep.calls_ne {a : Activation} {rest st : List Activation} (h : StackStep (a :: rest) st)
    (ha : a.isCall = true ∨ a = .main) (x : CoroId) :
    st.filter Activation.isCall ≠ .run x :: (a :: rest).filter Activation.isCall := by
  intro he
  have hlen := congrArg List.length he
  have hrest : (rest.filter Activation.isCall).length ≤ ((a :: rest).filter Activation.isCall).length :=
    ((List.sublist_cons_self a rest).filter _).length_le
  cases h with
  | keep => simp at hlen
  | start =>
    rw [List.filter_cons_of_neg (by simp [Activation.isCall])] at hlen
    simp at hlen
  | startTask | registerStart | awaitStart =>
    -- the task that is started is resumed on top of other calls
    rw [List.filter_cons_of_pos rfl, List.filter_cons_of_pos rfl] at hlen
    simp [List.filter_cons, Activation.isCall] at hlen <;> omega
  | register | finalResume => simp [List.filter_cons, Activation.isCall] at he
  | ret =>
    rw [List.length_cons] at hlen
    omega
  | resume ha' =>
    rw [List.filter_cons_of_pos rfl, List.filter_cons_of_pos (ha.resolve_right ha')] at hlen
    simp at hlen
  | _ => simp [List.filter_cons, Activation.isCall] at hlen ha <;> omega

namespace State

variable {s s' u : State} {c : Choice} {h : CoroId}

/-! ### How a coroutine that waits for a response goes on -/

theorem step_ioSubmit {r : ReqId} {rest : List Activation} (hst : s.stack = .ioSubmit h r :: rest)
    (hs : State.step s c = .ok s') :
    ∃ ret, c = .sub ret ∧ s.ioSubmit h r ret = .ok s' := by
  cases c <;> simp only [State.step, hst] at hs <;> first | exact ⟨_, rfl, hs⟩ | cases hs

/-- A coroutine that waits for a response goes on by a dispatch, or because its own submission failed. -/
theorem response_wakes (hreach : Reachable s) (hs : State.step s c = .ok s') {x : CoroId}
    (hp : (s.coros x).place.awaitsResponse = true) (hp' : (s'.coros x).place = .running) :
    (∃ rest base, s.stack = .start :: rest ∧ c = .message base ∧ s.awaitMessage base = .ok s') ∨
      (∃ rest i res base, s.stack = .awaitWait :: rest ∧ c = .cqe i res base ∧ s.awaitCqe i res base = .ok s') ∨
      ∃ r rest, s.stack = .ioSubmit x r :: rest := by
  have hsame : s'.coros = s.coros → False := fun h1 => by
    rw [h1] at hp'
    simp [hp', Place.awaitsResponse] at hp
  obtain ⟨hl, hcalls⟩ := (step_tasks hreach.sound hreach.killing hs).wakes_response
    (tasks_suspending hreach.sound) hp hp'
  have hcalls' : s'.stack.filter Activation.isCall = .run x :: s.stack.filter Activation.isCall := hcalls
  have hss := step_stack hs
  cases hst : s.stack with
  | nil => simp [State.step, hst] at hs
  | cons top rest =>
    rw [hst] at hss hcalls'
    cases top with
    | start =>
      cases c with
      | message base =>
        simp only [State.step, hst] at hs
        split at hs
        · exact .inl ⟨rest, base, rfl, rfl, hs⟩
        · cases hs
      | tau =>
        simp only [State.step, hst] at hs
        split at hs <;> cases hs
        exact (hsame rfl).elim
      | _ => simp [State.step, hst] at hs
    | awaitWait =>
      cases c with
      | cqe i res base => exact .inr (.inl ⟨rest, i, res, base, rfl, rfl, by simpa only [State.step, hst] using hs⟩)
      | _ => simp [State.step, hst] at hs
    | eventHandler r h => exact (hsame (eventHandlerReturn_ok (step_eventHandler hst hs)).1).elim
    | awaitSeen =>
      cases c with
      | tau => simp [State.label, hst] at hl
      | _ => simp [State.step, hst] at hs
    | ioSubmit h r =>
      obtain ⟨ret, -, h1⟩ := step_ioSubmit hst hs
      unfold State.ioSubmit at h1
      obtain ⟨s1, h2, h3⟩ := bind_ok.mp h1
      have hst1 : s1.stack = rest := by rw [(submitQueuedEntries_stack h2).1, stack_pop, hst, List.tail_cons]
      rw [List.filter_cons_of_neg (by simp [Activation.isCall])] at hcalls'
      split at h3
      · rw [stack_resume h3, List.filter_cons_of_pos rfl] at hcalls'
        obtain rfl : h = x := by simpa using (List.cons.inj hcalls').1
        exact .inr (.inr ⟨r, rest, rfl⟩)
      · cases h3
        rw [hst1] at hcalls'
        simp at hcalls'
    | main => exact (hss.calls_ne (.inr rfl) x hcalls').elim
    | run | taskStart | registerCoro | taskAwait | finalSuspend => exact (hss.calls_ne (.inl rfl) x hcalls').elim

/-! ### What nothing is heard of -/

/-- What was heard, newest first. -/
def heard (s : State) : List Event := s.trace.filter Event.isHeard

theorem heard_log {e : Event} (he : e.isHeard = false) (s : State) : (s.log e).heard = s.heard := by
  rw [heard, heard, State.log, List.filter_cons_of_neg (by simp [he])]

theorem heard_ioReturn (h : CoroId) (r : ReqId) (s : State) : ∃ resp,
    (s.ioReturn h r).heard = .ioReturned h r resp :: s.heard :=
  ⟨_, rfl⟩

/-- Somebody who does not wait for a response is resumed: all it may get is the code of a task. -/
theorem heard_resume {cause : Option ReqId} (hp : (s.coros h).place.awaitsResponse = false)
    (hs : s.resume h cause = .ok s') :
    s'.heard = s.heard ∨ ∃ t child e, s'.task t = some e ∧
    s'.heard = .taskReturned h t child (s'.retCode e) :: s.heard := by
  cases resumes_of_resume hs with
  | enter => exact .inl rfl
  | @task t child b e _ he =>
    refine .inr ⟨t, child, e, ?_, rfl⟩
    cases t <;> exact he
  | io hpl | batch hpl | poll hpl =>
    rw [hpl] at hp
    cases hp

/-- Between `s` and `s'` nothing is heard, and nobody comes to wait for a response. -/
structure Hush (s s' : State) : Prop where
  heard : s'.heard = s.heard
  waits : ∀ x, (s'.coros x).place.awaitsResponse = true → (s.coros x).place = (s'.coros x).place

namespace Hush

theorem of_place (ht : s'.heard = s.heard) (hp : ∀ x, (s'.coros x).place = (s.coros x).place) : Hush s s' :=
  ⟨ht, fun x _ => (hp x).symm⟩

theorem of_eq (ht : s'.trace = s.trace) (hc : s'.coros = s.coros) : Hush s s' :=
  of_place (by rw [State.heard, ht, State.heard]) fun x => by rw [hc]

theorem trans {s'' : State} (h : Hush s s') (h' : Hush s' s'') : Hush s s'' := by
  refine ⟨h'.heard.trans h.heard, fun x hx => ?_⟩
  have h1 := h'.waits x hx
  exact (h.waits x (h1 ▸ hx)).trans h1

theorem setPlace {p : Place} (hp : p.awaitsResponse = false) (s : State) : Hush s (s.setPlace h p) := by
  refine ⟨rfl, fun x hx => ?_⟩
  by_cases hxh : x = h
  · subst hxh
    have h1 : ((s.setPlace x p).coros x).place = p := by simp [State.setPlace, modCoro]
    rw [h1, hp] at hx
    cases hx
  · simp [State.setPlace, modCoro, hxh]

theorem suspend {p : Place} (hp : p.awaitsResponse = false) (s : State) : Hush s (s.suspend h p) :=
  (setPlace hp s).trans (of_eq rfl rfl)

theorem setTask (t : TaskRef) (e : EvTask) (s : State) : Hush s (s.setTask t e) := by
  cases t <;> exact of_eq rfl rfl

theorem submit {ret : ℤ} (hs : s.submitQueuedEntries ret = .ok s') : Hush s s' := by
  obtain ⟨-, -, -, rfl⟩ := submitQueuedEntries_ok hs
  exact of_eq rfl rfl

theorem getUringSqe {p : Purpose} {x : Option ℕ} (hs : s.getUringSqe p = .ok (x, s')) : Hush s s' := by
  rcases getUringSqe_ok hs with ⟨-, -, rfl⟩ | ⟨j, ring, -, -, -, -, rfl⟩ <;> exact of_eq rfl rfl

theorem ioOp {ctx : Option CoroId} {p : ParameterPack} {r : ReqId} (hs : s.ioOp ctx p = .ok (r, s')) : Hush s s' := by
  have hplace := Acts.place_ioOp hs
  obtain ⟨-, -, sqe, s1, h1, rfl⟩ := ioOp_ok hs
  refine of_place ?_ hplace
  refine Eq.trans ?_ (getUringSqe h1).heard
  cases ctx <;> rfl

theorem storeResult (h : CoroId) (out : Option ℕ) (s : State) : Hush s (s.storeResult h out) := by
  cases out with
  | none =>
    refine of_place rfl fun x => ?_
    by_cases hx : x = h <;> simp [State.storeResult, modPromise, modCoro, hx]
  | some code =>
    show Hush s (s.returnValue h code)
    unfold State.returnValue
    split <;> exact of_eq rfl rfl

theorem destroyLocals (h : CoroId) (s : State) : Hush s (s.destroyLocals h) := by
  obtain ⟨vars, coros, heq, hc⟩ := Records.destroyLocals_eq h s
  rw [heq]
  exact of_place rfl fun x => (hc x).place

theorem endBody (h : CoroId) (out : Option ℕ) (s : State) : Hush s (s.endBody h out) := by
  have h1 : Hush s (((s.destroyLocals h).setPlace h .final).pop.push (.finalSuspend h)) :=
    ((destroyLocals h s).trans (setPlace rfl _)).trans (of_eq rfl rfl)
  exact h1.trans (of_place (heard_log rfl _) fun _ => rfl)

theorem destroyCoro (hs : s.destroyCoro h = .ok s') : Hush s s' := by
  unfold State.destroyCoro at hs
  split at hs <;> cases hs
  exact (destroyLocals h s).trans (setPlace rfl _)

theorem relink (e : EvTask) (s : State) : Hush s (s.relink e) := by
  unfold State.relink
  split
  · rename_i x _
    refine of_place rfl fun y => ?_
    by_cases hy : y = x <;> simp [modPromise, modCoro, hy]
  · exact of_eq rfl rfl

theorem relinks (es : List EvTask) : ∀ s : State, Hush s (es.foldl (fun s e => s.relink e) s) := by
  induction es with
  | nil => exact fun _ => of_eq rfl rfl
  | cons e es ih => exact fun s => (relink e s).trans (ih _)

theorem makeRoom {pick : ℕ} {grow : Bool} (hs : s.makeRoom pick grow = .ok s') : Hush s s' := by
  unfold State.makeRoom at hs
  simp only at hs
  split at hs
  · cases hs
    split
    · exact relinks _ s
    · exact of_eq rfl rfl
  · split at hs
    · obtain ⟨old, -, hs⟩ := bind_ok.mp hs
      unfold State.overwriteTask at hs
      split at hs
      · cases hs
        exact of_eq rfl rfl
      · split at hs
        · cases hs
        · split at hs
          · cases hs
            exact of_eq rfl rfl
          · exact destroyCoro hs
    · cases hs

theorem processRequests {l : List (ParameterPack × ReqId)} :
    ∀ {s s' : State}, s.processRequests h l = .ok s' → Hush s s' := by
  induction l with
  | nil =>
    intro s s' hs
    cases hs
    exact of_eq rfl rfl
  | cons x l ih =>
    intro s s' hs
    obtain ⟨req, r⟩ := x
    obtain ⟨⟨b, s1⟩, h1, h2⟩ := bind_ok.mp hs
    refine trans ?_ (ih h2)
    rcases processSingleGenericRequest_ok h1 with ⟨-, -, rfl⟩ | ⟨-, -, -, j, ring, -, rfl⟩ <;> exact of_eq rfl rfl

end Hush

/-- What a step that is no dispatch does: nothing is heard, or somebody is resumed at its end, or an awaitable
without an entry is awaited. -/
inductive Speaks (s s' : State) : Prop
  | mute : s'.heard = s.heard → Speaks s s'
  | resumes {u : State} {h : CoroId} : Hush s u → u.resume h none = .ok s' → Speaks s s'
  | refused {u : State} {h : CoroId} {r : ReqId} : Hush s u → u.Awaitable h r → isThereAnError (u.reqs r).error = true →
      s' = u.ioReturn h r → Speaks s s'

namespace Speaks

theorem of_hush (h : Hush s s') : Speaks s s' := .mute h.heard

theorem of_eq (ht : s'.trace = s.trace) : Speaks s s' := .mute (by rw [State.heard, ht, State.heard])

theorem after (h : Speaks u s') (h0 : Hush s u) : Speaks s s' := by
  cases h with
  | mute ht => exact .mute (ht.trans h0.heard)
  | resumes h1 h2 => exact .resumes (h0.trans h1) h2
  | refused h1 ha he hs => exact .refused (h0.trans h1) ha he hs

theorem finish {out : Option ℕ} (hs : s.finish h out = .ok s') : Speaks s s' := by
  have h1 : Hush s ((s.storeResult h out).endBody h out) := (Hush.storeResult h out s).trans (.endBody h out _)
  rcases finish_ok hs with ⟨a, -, h2⟩ | ⟨-, rfl⟩
  · exact .resumes h1 h2
  · exact of_hush h1

theorem startTask {t : TaskRef} (hs : s.startTask t = .ok s') : Speaks s s' := by
  unfold State.startTask at hs
  obtain ⟨e, -, hs⟩ := bind_ok.mp hs
  split at hs
  · cases hs
    exact of_eq rfl
  · obtain ⟨x, -, hs⟩ := bind_ok.mp hs
    refine .resumes ((Hush.setTask t { e with startedCoro := true } s).trans ?_) hs
    exact .of_eq rfl rfl

theorem startReturn {t : TaskRef} (hs : s.startReturn t h = .ok s') : Speaks s s' := by
  unfold State.startReturn at hs
  obtain ⟨e, -, hs⟩ := bind_ok.mp hs
  split at hs
  · unfold State.rethrow at hs
    split at hs
    · cases hs
      exact of_eq rfl
    · split at hs <;> cases hs
      exact of_eq rfl
    · cases hs
      exact of_eq rfl
  · cases hs
    exact of_eq rfl

theorem awaitSuspendTail {t : TaskRef} {a : CoroId} (hs : s.awaitSuspendTail t a = .ok s') : Speaks s s' := by
  unfold State.awaitSuspendTail at hs
  obtain ⟨e, -, hs⟩ := bind_ok.mp hs
  split at hs
  · exact .resumes (.of_eq rfl rfl) hs
  · obtain ⟨x, -, hs⟩ := bind_ok.mp hs
    cases hs
    exact of_eq rfl

theorem awaitTask {t : TaskRef} {a : CoroId} (hs : s.awaitTask a t = .ok s') : Speaks s s' := by
  unfold State.awaitTask at hs
  obtain ⟨e, -, hs⟩ := bind_ok.mp hs
  obtain ⟨x, -, hs⟩ := bind_ok.mp hs
  simp only at hs
  have h1 : Hush s (s.suspend a (.atTask t x false)) := .suspend rfl s
  split at hs
  · exact (awaitSuspendTail hs).after h1
  · exact (startTask hs).after (h1.trans (.of_eq rfl rfl))

theorem awaitIo {r : ReqId} (hs : s.awaitIo h r = .ok s') : Speaks s s' := by
  obtain ⟨ha, ⟨he, rfl⟩ | ⟨j, -, -, -, rfl⟩⟩ := awaitIo_ok hs
  · exact .refused (.of_eq rfl rfl) ha he rfl
  · exact of_eq rfl

theorem ioSubmit {r : ReqId} {ret : ℤ} (hs : s.ioSubmit h r ret = .ok s') : Speaks s s' := by
  unfold State.ioSubmit at hs
  obtain ⟨s1, h1, hs⟩ := bind_ok.mp hs
  have h0 : Hush s s.pop := .of_eq rfl rfl
  have h2 := h0.trans (.submit h1)
  split at hs
  · refine .resumes (h2.trans ?_) hs
    exact .of_eq rfl rfl
  · cases hs
    exact of_hush h2

theorem naOp {p : ParameterPack} {ret : ℤ} {e : Errnos} (hs : s.naOp p ret = .ok (e, s')) : Speaks s s' := by
  rcases naOp_ok hs with ⟨-, -, rfl⟩ | ⟨-, j, ring, s2, -, h2, hcase⟩
  · exact of_eq rfl
  · have h0 : Hush s (s.setRing ring) := .of_eq rfl rfl
    have h3 := (h0.trans (.submit h2)).heard
    rcases hcase with ⟨-, -, rfl⟩ | ⟨-, -, rfl⟩
    · exact .mute ((heard_log (e := .deleted s.nextReq) rfl s2).trans h3)
    · exact .mute ((heard_log (e := .accepted s.nextReq) rfl s2).trans h3)

theorem submitAndWaitBegin {q : RequestQueue} {ret : ℤ} (hs : s.submitAndWaitBegin h q ret = .ok s') : Speaks s s' := by
  unfold State.submitAndWaitBegin at hs
  obtain ⟨s1, h1, hs⟩ := bind_ok.mp hs
  split at hs
  · exact (finish hs).after (.submit h1)
  · obtain ⟨s2, h2, hs⟩ := bind_ok.mp hs
    cases hs
    have h3 : s2.heard = (s1.newVector h q.length).2.heard := (Hush.processRequests h2).heard
    exact .mute ((Eq.trans rfl h3).trans (Hush.submit h1).heard)

theorem submitAndWaitLoop {q : RequestQueue} {l : BatchLocals} {ret : Option ℤ}
    (hs : s.submitAndWaitLoop h q l ret = .ok s') : Speaks s s' := by
  unfold State.submitAndWaitLoop at hs
  split at hs
  · split at hs
    · exact finish hs
    · cases hs
  · split at hs
    · split at hs
      · obtain ⟨s1, h1, hs⟩ := bind_ok.mp hs
        split at hs
        · exact (finish hs).after (.submit h1)
        · cases hs
          exact .mute (Eq.trans rfl (Hush.submit h1).heard)
      · cases hs
    · split at hs <;> cases hs
      exact of_eq rfl

theorem awaitSeen (hs : s.awaitSeen = .ok s') : Speaks s s' := by
  unfold State.awaitSeen at hs
  split at hs
  · simp only at hs
    split at hs
    · refine .resumes ?_ hs
      exact .of_eq rfl rfl
    · cases hs
    · cases hs
      exact of_eq rfl
  · cases hs

theorem eventHandlerReturn {r : ReqId} (hs : s.eventHandlerReturn r h = .ok s') : Speaks s s' := by
  obtain ⟨-, -, -, -, -, -, ⟨-, -, -, ht⟩ | ⟨-, -, ht⟩⟩ := eventHandlerReturn_ok hs
  · refine .mute ?_
    rw [State.heard, ht]
    exact heard_log (e := .deleted r) rfl s
  · exact of_eq ht

theorem registerCoroReturn {v : VarId} {pick : ℕ} {grow : Bool} (hs : s.registerCoroReturn v pick grow = .ok s') :
    Speaks s s' := by
  unfold State.registerCoroReturn at hs
  obtain ⟨s1, h1, hs⟩ := bind_ok.mp hs
  obtain ⟨e, -, hs⟩ := bind_ok.mp hs
  obtain ⟨coros, heq, -⟩ := insertTask_eq pick e s1
  rw [heq] at hs
  cases hs
  exact .mute (Eq.trans rfl (Hush.makeRoom h1).heard)

theorem killInternal {pc : KillPc} {ret : Option ℤ} (hs : s.killInternal h pc ret = .ok s') : Speaks s s' := by
  cases killInternal_ok hs with
  | begin | flushed | cancelled | wait => exact of_eq rfl
  | submit _ _ h1 => exact .mute (Eq.trans rfl (Hush.submit h1).heard)
  | cancel h1 =>
    obtain ⟨ring, -, -, rfl⟩ := ioUringGetSqe_some h1
    exact of_eq rfl
  | exit _ h1 =>
    refine (finish h1).after ?_
    exact .of_eq rfl rfl
  | fail _ _ h1 => exact finish h1

theorem userStep {ctx : Option CoroId} {a : Act} (hs : s.userStep ctx a = .ok s') : Speaks s s' := by
  cases a with
  | call | submitAndWait | poll | kill =>
    cases hs
    exact of_eq (by cases ctx <;> rfl)
  | startTask v => exact startTask hs
  | registerCoro v =>
    refine (startTask hs).after ?_
    exact .of_eq rfl rfl
  | destroyTask v =>
    cases hs
    obtain ⟨coros, heq, -⟩ := s.destroyTask_eq v
    rw [heq]
    exact of_eq rfl
  | io p =>
    simp only [State.userStep, Except.map] at hs
    split at hs
    · cases hs
    · rename_i x hx
      cases hs
      exact of_hush (.ioOp (r := x.1) hx)
  | na p ret =>
    simp only [State.userStep, Except.map] at hs
    split at hs
    · cases hs
    · rename_i x hx
      cases hs
      exact naOp (e := x.1) hx
  | submitQueuedEntries ret => exact of_hush (.submit hs)
  | getUringSqe =>
    simp only [State.userStep, Except.map] at hs
    split at hs
    · cases hs
    · rename_i x hx
      cases hs
      exact of_hush (.getUringSqe (x := x.1) hx)
  | start =>
    cases hs
    unfold startLoop
    split <;> exact of_eq rfl
  | dropAwaitable | consume =>
    simp only [State.userStep] at hs
    split at hs <;> cases hs
    exact of_eq rfl
  | awaitTask | awaitIo | awaitOp | coReturn | throw | handlerReturn => cases hs

theorem coroStep {a : Act} (hs : s.coroStep h a = .ok s') : Speaks s s' := by
  unfold State.coroStep at hs
  split at hs
  · exact awaitTask hs
  · exact awaitIo hs
  · obtain ⟨⟨r, s1⟩, h1, hs⟩ := bind_ok.mp hs
    exact (awaitIo hs).after (.ioOp h1)
  · exact finish hs
  · exact finish hs
  · exact userStep hs

theorem bodyStep (hs : s.bodyStep h c = .ok s') : Speaks s s' := by
  unfold State.bodyStep at hs
  split at hs
  · exact coroStep hs
  · exact killInternal hs
  · exact killInternal hs
  · exact awaitTask hs
  · exact finish hs
  · split at hs
    · exact submitAndWaitBegin hs
    · exact submitAndWaitLoop hs
    · exact submitAndWaitLoop hs
    · cases hs
      unfold submitAndWaitNext
      split <;> exact of_eq rfl
    · exact finish hs
    · exact userStep hs
    · cases hs
  · split at hs
    · unfold State.pollBegin at hs
      split at hs
      · exact finish hs
      · cases hs
        exact of_eq rfl
    · unfold State.pollNext at hs
      split at hs
      · refine (finish hs).after ?_
        exact .of_eq rfl rfl
      · cases hs
        exact of_eq rfl
    · exact finish hs
    · exact userStep hs
    · cases hs
  · cases hs

end Speaks

theorem step_speaks (hs : State.step s c = .ok s') (hm : ∀ rest, s.stack ≠ .start :: rest)
    (hw : ∀ rest, s.stack ≠ .awaitWait :: rest) :
    Speaks s s' := by
  have hpop : Hush s s.pop := .of_eq rfl rfl
  unfold State.step at hs
  split at hs
  · exact .userStep hs
  · rename_i hst
    exact absurd hst (hm _)
  · rename_i hst
    exact absurd hst (hm _)
  · rename_i hst
    exact absurd hst (hw _)
  · cases hs
  · exact .awaitSeen hs
  · exact (Speaks.eventHandlerReturn hs).after hpop
  · exact .bodyStep hs
  · exact (Speaks.startReturn hs).after hpop
  · exact (Speaks.registerCoroReturn hs).after hpop
  · exact (Speaks.awaitSuspendTail hs).after hpop
  · cases hs
    refine .of_eq ?_
    unfold State.finalReturn
    simp only
    split <;> rfl
  · exact .ioSubmit hs
  · cases hs

/-! ### Dispatches -/

/-- Who takes the pack, and what is heard of it: the `co_await` of the record returns, or the handler of the batch
the record is of, or that of `poll`, is called with it. -/
inductive Takes (s : State) (r : ReqId) (h : CoroId) (d : ResponsePack) : Event → State → Prop
  | awaitable {s' : State} : (s.coros h).place = .atIo r → (s.reqs r).home = .awaitable (some h) →
      (s'.reqs r).live = false →
      Takes s r h d (.ioReturned h r (awaitResume (s.reqs r).data.reqType (s.reqs r).error ⟨some d⟩).1) s'
  | batch {q : RequestQueue} {l : BatchLocals} {i : ℕ} {s' : State} : (s.coros h).place = .atGeneric →
      (s.reqs r).home = .vector h → (s.coros h).body = .submitAndWait q l → l.pc = .await i →
      (s'.coros h).body = .submitAndWait q { l with pc := .handler i } →
      Takes s r h d (.handled h (some r) (some d.type) (some d)) s'
  | poll {s' : State} : (s.coros h).place = .atGeneric → (s.reqs r).home = .heap → (s.coros h).body = .poll .waiting →
      (s'.coros h).body = .poll .handler → s'.ev.pollingHandle = none →
      Takes s r h d (.handled h (some r) (some d.type) (some d)) s'

/-- The pack of the request is published to `h`, which takes it. -/
structure Delivers (s : State) (r : ReqId) (h : CoroId) (res : ℤ) (d : ResponsePack) (s' : State) : Prop where
  live : (s.reqs r).live = true
  pack : ∃ base, responsePack (s.reqs r).data.reqType (s.reqs r).data.specificData res base = some d
  others : ∀ x, x ≠ h → s'.coros x = s.coros x
  place : (s'.coros h).place = .running
  takes : ∃ e, s'.heard = e :: .resumed r h res d :: s.heard ∧ Takes s r h d e s'

/-- A coroutine that serves a record of a batch or of the heap, and can be resumed, waits for a response. -/
theorem atGeneric_of_serves (hr : Records s) {r : ReqId} (hv : s.Serves r h) (ha : ∀ a, (s.reqs r).home ≠ .awaitable a)
    (hsus : (s.coros h).place.suspended = true) : (s.coros h).place = .atGeneric := by
  have hfits := hr.fits h
  have hkind : (s.coros h).place ≠ .initial ∧
      ((s.coros h).body.kind = .poll ∨ ∃ q, (s.coros h).body.kind = .submitAndWait q) := by
    unfold State.Serves at hv
    cases hh : (s.reqs r).home with
    | awaitable a => exact absurd hh (ha a)
    | vector a =>
      rw [hh] at hv
      exact ⟨hv.2.2.2, .inr hv.2.2.1⟩
    | heap =>
      rw [hh] at hv
      exact ⟨hv.2.2, .inl hv.2.1⟩
  obtain ⟨hi, hk⟩ := hkind
  cases hp : (s.coros h).place with
  | atGeneric => rfl
  | initial => exact absurd hp hi
  | running | final | gone =>
    rw [hp] at hsus
    cases hsus
  | atIo | atTask | atAlways =>
    rw [hp] at hfits
    cases hb : (s.coros h).body <;> simp [hb, Body.fits, Body.kind] at hfits hk

theorem deliver (hr : Records s) {r : ReqId} {res : ℤ} {base : Addr} {d : ResponsePack} (hlive : (s.reqs r).live = true)
    (hh : (s.reqs r).data.handle = some h)
    (hd : responsePack (s.reqs r).data.reqType (s.reqs r).data.specificData res base = some d)
    (hs : resume h (some r) (((s.modPromise h fun p => { p with comData := p.comData.publishRespData d }).log
      (.resumed r h res d)).push (.eventHandler r h)) = .ok s') : s.Delivers r h res d s' := by
  have hv := hr.serves r h hlive hh
  have hsus := suspended_of_resume hs
  have hself : ((((s.modPromise h fun p => { p with comData := p.comData.publishRespData d }).log
      (.resumed r h res d)).push (.eventHandler r h)).coros h) =
        { s.coros h with promise := { (s.coros h).promise with comData := ⟨some d⟩ } } := by
    simp [State.push, State.log, State.modPromise, State.modCoro, CommunicationChannel.publishRespData]
  rw [hself] at hsus
  unfold State.resume at hs
  rw [hself] at hs
  by_cases ha : ∃ a, (s.reqs r).home = .awaitable a
  · obtain ⟨a, ha⟩ := ha
    unfold State.Serves at hv
    rw [ha] at hv
    obtain ⟨rfl, hp⟩ := hv
    rw [hp] at hs
    cases hs
    refine ⟨hlive, ⟨base, hd⟩, fun x hx => ?_, ?_, _, ?_, .awaitable hp ha ?_⟩
    · simp [State.ioReturn, State.enter, State.push, State.log, State.setPlace, State.modPromise, State.modCoro,
        State.modReq, hx]
    · simp [State.ioReturn, State.enter, State.push, State.log, State.setPlace, State.modPromise, State.modCoro,
        State.modReq]
    · simp only [heard, State.ioReturn, State.enter, State.push, State.log, State.setPlace, State.modPromise,
        State.modCoro, State.modReq, CommunicationChannel.publishRespData, Function.update_self]
      rfl
    · simp [State.ioReturn, State.log, State.modReq]
  · have hp := atGeneric_of_serves hr hv (fun a he => ha ⟨a, he⟩) hsus
    have hhome : ((∃ q, (s.coros h).body.kind = .submitAndWait q) ∧ (s.reqs r).home = .vector h) ∨
        ((s.coros h).body.kind = .poll ∧ (s.reqs r).home = .heap) := by
      unfold State.Serves at hv
      cases hho : (s.reqs r).home with
      | awaitable a => exact absurd ⟨a, hho⟩ ha
      | vector a =>
        rw [hho] at hv
        exact .inl ⟨hv.2.2.1, by rw [hv.1]⟩
      | heap =>
        rw [hho] at hv
        exact .inr ⟨hv.2.1, rfl⟩
    rw [hp] at hs
    simp only [State.genericResume, State.enter, State.push, State.log, State.setPlace, State.modPromise, State.modCoro,
      Function.update_self, CommunicationChannel.publishRespData] at hs
    split at hs
    · rename_i q l hb
      split at hs
      · rename_i i hpc
        cases hs
        have hv := (hhome.resolve_right fun hn => by simp [hb, Body.kind] at hn).2
        refine ⟨hlive, ⟨base, hd⟩, fun x hx => by simp [State.setBody, State.modCoro, hx],
          by simp [State.setBody, State.modCoro], _, rfl, .batch hp hv hb hpc ?_⟩
        simp [State.setBody, State.modCoro]
      · cases hs
    · rename_i hb
      cases hs
      have hv := (hhome.resolve_left fun hn => by simp [hb, Body.kind] at hn).2
      refine ⟨hlive, ⟨base, hd⟩, fun x hx => by simp [State.setBody, State.modCoro, State.modEv, hx],
        by simp [State.setBody, State.modCoro, State.modEv], _, rfl, .poll hp hv hb ?_ rfl⟩
      simp [State.setBody, State.modCoro]
    · cases hs

/-- What `event_handler` does: nothing, or it parks the request, or it delivers the response. -/
theorem eventHandler_delivers (hr : Records s) {res : ℤ} {x : Option ReqId} {base : Addr}
    (hs : s.eventHandler res x base = .ok s') :
    (x = none ∧ s' = s) ∨ (∃ r, x = some r ∧ (s.reqs r).live = true ∧ (s.reqs r).data.handle = none ∧
      s' = s.modEv fun ev => { ev with readyRequestsStore := (res, r) :: ev.readyRequestsStore }) ∨
      ∃ r h d, x = some r ∧ (s.reqs r).data.handle = some h ∧ s.Delivers r h res d s' := by
  unfold State.eventHandler at hs
  split at hs
  · cases hs
    exact .inl ⟨rfl, rfl⟩
  · rename_i r
    simp only at hs
    split at hs
    · rename_i hlive
      split at hs
      · rename_i hnone
        cases hs
        exact .inr (.inl ⟨r, rfl, hlive, hnone, rfl⟩)
      · rename_i h hh
        obtain ⟨d, hd, hs⟩ := bind_ok.mp hs
        exact .inr (.inr ⟨r, h, d, rfl, hh, deliver hr hlive hh (need_ok.mp hd) hs⟩)
    · cases hs

/-- Why a response is delivered: its completion came, or it was parked and `poll` waits. -/
inductive Source (s : State) (r : ReqId) (h : CoroId) (res : ℤ) : Choice → Prop
  | completed {i : ℕ} {base : Addr} {x : Slot} {rest : List Activation} : s.stack = .awaitWait :: rest →
      s.ev.ring.inFlight[i]? = some x → x.sqe.userData = some r → (s.reqs r).data.handle = some h →
      Source s r h res (.cqe i res base)
  | parked {base : Addr} {ready : List (ℤ × ReqId)} {rest : List Activation} : s.stack = .start :: rest →
      s.ev.readyRequestsStore = (res, r) :: ready → s.ev.pollingHandle = some h → Source s r h res (.message base)

/-- What a turn of the loop does, up to the body of whoever it resumes. -/
inductive Dispatches (s : State) (c : Choice) (s' : State) : Prop
  | idle : s'.coros = s.coros → s'.heard = s.heard → Dispatches s c s'
  | delivers {r : ReqId} {h : CoroId} {res : ℤ} {d : ResponsePack} : s.Source r h res c → s.Delivers r h res d s' →
      Dispatches s c s'

theorem Delivers.of_same {r : ReqId} {res : ℤ} {d : ResponsePack} (hd : u.Delivers r h res d s')
    (hc : u.coros = s.coros)
    (ht : u.heard = s.heard) (hl : (u.reqs r).live = (s.reqs r).live) (hh : (u.reqs r).home = (s.reqs r).home)
    (he : (u.reqs r).error = (s.reqs r).error) (hrt : (u.reqs r).data.reqType = (s.reqs r).data.reqType)
    (hsd : (u.reqs r).data.specificData = (s.reqs r).data.specificData) : s.Delivers r h res d s' := by
  obtain ⟨hlive, hpack, hothers, hplace, e, hresp, htakes⟩ := hd
  rw [hl] at hlive
  rw [hrt, hsd] at hpack
  rw [hc] at hothers
  rw [ht] at hresp
  refine ⟨hlive, hpack, hothers, hplace, e, hresp, ?_⟩
  cases htakes with
  | awaitable h1 h2 h3 =>
    rw [hc] at h1
    rw [hh] at h2
    rw [hrt, he]
    exact .awaitable h1 h2 h3
  | batch h1 h2 h3 h4 h5 =>
    rw [hc] at h1 h3
    rw [hh] at h2
    exact .batch h1 h2 h3 h4 h5
  | poll h1 h2 h3 h4 h5 =>
    rw [hc] at h1 h3
    rw [hh] at h2
    exact .poll h1 h2 h3 h4 h5

theorem dispatches_awaitMessage (hreach : Reachable s) {rest : List Activation} {base : Addr}
    (hst : s.stack = .start :: rest) (hs : s.awaitMessage base = .ok s') : Dispatches s (.message base) s' := by
  unfold State.awaitMessage at hs
  simp only at hs
  split at hs
  · rename_i res r ready p hready hpoll
    have hr : Records s := (hreach.sound.coherent hst (by simp)).records
    rcases eventHandler_delivers (hr.parked hready hpoll) hs with ⟨hn, -⟩ | ⟨r', hx, -, hn, -⟩ | ⟨r', h, d, hx, hh, hd⟩
    · cases hn
    · obtain rfl : r = r' := Option.some.inj hx
      simp [State.modReq] at hn
    · obtain rfl : r = r' := Option.some.inj hx
      obtain rfl : p = h := by simpa [State.modReq] using hh
      refine .delivers (.parked hst hready hpoll) (hd.of_same rfl rfl ?_ ?_ ?_ ?_ ?_) <;>
        simp [State.modReq, State.modEv, State.push]
  · cases hs
    exact .idle rfl rfl

/-- What becomes of the completion that `await_message` takes. -/
theorem awaitCqe_delivers (hreach : Reachable s) {rest : List Activation} {i : ℕ} {res : ℤ} {base : Addr}
    (hst : s.stack = .awaitWait :: rest) (hs : s.awaitCqe i res base = .ok s') : ∃ y, s.ev.ring.inFlight[i]? = some y ∧
      (((∀ r, y.sqe.userData = some r → (s.reqs r).data.handle = none) ∧ s'.coros = s.coros ∧ s'.heard = s.heard) ∨
        ∃ r h d, y.sqe.userData = some r ∧ (s.reqs r).data.handle = some h ∧ s.Delivers r h res d s') := by
  have hr : Records ((s.pop.push .awaitSeen).setRing (s.ev.ring.reap i)) :=
    ((hreach.sound.coherent hst (by simp)).reaped i).records
  unfold State.awaitCqe at hs
  split at hs
  · split at hs
    · rename_i x hx
      refine ⟨x, hx, ?_⟩
      simp only at hs
      split at hs
      · rename_i r hu
        rw [hu] at hs
        have hlog : (((s.pop.push .awaitSeen).setRing (s.ev.ring.reap i)).log (.completed r res)).heard = s.heard :=
          heard_log rfl _
        rcases eventHandler_delivers (hr.log _) hs with ⟨hn, -⟩ | ⟨r', hr', -, hn, rfl⟩ | ⟨r', h, d, hr', hh, hd⟩
        · cases hn
        · obtain rfl : r = r' := Option.some.inj hr'
          refine .inl ⟨fun y hy => ?_, rfl, hlog⟩
          obtain rfl : r = y := Option.some.inj (hu.symm.trans hy)
          exact hn
        · obtain rfl : r = r' := Option.some.inj hr'
          exact .inr ⟨r, h, d, hu, hh, hd.of_same rfl hlog rfl rfl rfl rfl rfl⟩
      · rename_i hu
        rw [hu] at hs
        cases hs
        refine .inl ⟨fun y hy => ?_, rfl, rfl⟩
        rw [hu] at hy
        cases hy
    · cases hs
  · cases hs

theorem dispatches_awaitCqe (hreach : Reachable s) {rest : List Activation} {i : ℕ} {res : ℤ} {base : Addr}
    (hst : s.stack = .awaitWait :: rest) (hs : s.awaitCqe i res base = .ok s') : Dispatches s (.cqe i res base) s' := by
  obtain ⟨x, hx, ⟨-, hc, ht⟩ | ⟨r, h, d, hu, hh, hd⟩⟩ := awaitCqe_delivers hreach hst hs
  · exact .idle hc ht
  · exact .delivers (.completed hst hx hu hh) hd

theorem place_of_ioSubmit (hreach : Reachable s) {r : ReqId} {rest : List Activation}
    (hst : s.stack = .ioSubmit h r :: rest) :
    (s.coros h).place = .atIo r := by
  rcases hreach.sound with hc | ⟨s0, h0, r0, -, hp, rfl⟩
  · exact absurd (hst ▸ List.mem_cons_self) (hc.awaits.noSubmit h r)
  · cases hst
    exact hp

/-- What is heard in a step. -/
inductive Hears (s : State) (c : Choice) (s' : State) : Prop
  | mute : s'.heard = s.heard → Hears s c s'
  | answered {a : CoroId} {t : TaskRef} {child : CoroId} {e : EvTask} : s'.task t = some e →
      s'.heard = .taskReturned a t child (s'.retCode e) :: s.heard → Hears s c s'
  | refused {u : State} {h : CoroId} {r : ReqId} : Hush s u → u.Awaitable h r → isThereAnError (u.reqs r).error = true →
      s' = u.ioReturn h r → Hears s c s'
  | failed {h : CoroId} {r : ReqId} {ret : ℤ} {rest : List Activation} : s.stack = .ioSubmit h r :: rest →
      c = .sub ret → ret < 1 →
      s'.heard = .ioReturned h r ⟨.errno .liburingSubmissionErrErrno (Errnos.cast (-ret)),
        .empty (s.reqs r).data.reqType⟩ ::
        s.heard → Hears s c s'
  | delivers {r : ReqId} {h : CoroId} {res : ℤ} {d : ResponsePack} : s.Source r h res c →
      s.Delivers r h res d s' → Hears s c s'

/-- **What is heard in a step.** -/
theorem step_hears (hreach : Reachable s) (hs : State.step s c = .ok s') : Hears s c s' := by
  by_cases hm : ∃ rest, s.stack = .start :: rest
  · obtain ⟨rest, hst⟩ := hm
    cases c with
    | message base =>
      simp only [State.step, hst] at hs
      split at hs
      · cases dispatches_awaitMessage hreach hst hs with
        | idle _ ht => exact .mute ht
        | delivers hsrc hd => exact .delivers hsrc hd
      · cases hs
    | tau =>
      simp only [State.step, hst] at hs
      split at hs <;> cases hs
      exact .mute rfl
    | _ => simp [State.step, hst] at hs
  by_cases hw : ∃ rest, s.stack = .awaitWait :: rest
  · obtain ⟨rest, hst⟩ := hw
    cases c with
    | cqe i res base =>
      cases dispatches_awaitCqe hreach hst (by simpa only [State.step, hst] using hs) with
      | idle _ ht => exact .mute ht
      | delivers hsrc hd => exact .delivers hsrc hd
    | _ => simp [State.step, hst] at hs
  cases step_speaks hs (fun rest hst => hm ⟨rest, hst⟩) fun rest hst => hw ⟨rest, hst⟩ with
  | mute ht => exact .mute ht
  | refused h0 ha he hs' => exact .refused h0 ha he hs'
  | @resumes u h h0 h1 =>
    by_cases hp : (u.coros h).place.awaitsResponse = true
    · have hps := h0.waits h hp
      have hrun : (s'.coros h).place = .running := (hreach.step hs).placed.run h (by simp [stack_resume h1])
      rcases response_wakes hreach hs (hps ▸ hp) hrun with ⟨rest, base, hst, -⟩ | ⟨rest, i, res, base, hst, -⟩ |
        ⟨r, rest, hst⟩
      · exact absurd ⟨rest, hst⟩ hm
      · exact absurd ⟨rest, hst⟩ hw
      · obtain ⟨ret, rfl, h2⟩ := step_ioSubmit hst hs
        have hpl := place_of_ioSubmit hreach hst
        by_cases hret : ret < 1
        · refine .failed hst rfl hret ?_
          rw [heard, ioSubmit_response hst hpl hret hs]
          rfl
        · -- a submission that succeeds resumes nobody
          unfold State.ioSubmit at h2
          obtain ⟨s1, h3, h4⟩ := bind_ok.mp h2
          rw [if_neg hret] at h4
          cases h4
          rw [(submitQueuedEntries_stack h3).2] at hrun
          exact absurd (hpl.symm.trans hrun) (by simp)
    · rcases heard_resume (by simpa using hp) h1 with h2 | ⟨t, child, e, he, h2⟩
      · exact .mute (h2.trans h0.heard)
      · exact .answered he (h0.heard ▸ h2)

end State

end EvManager
