import EvManager.Sound

/-!
# The stack of the event loop

`OneLoop`: the loop is entered once, and its activations lie on each other in order, with at most one dispatch
under way.
-/

namespace EvManager

open Lib State

/-- The loop waits for a completion or dispatches one. -/
def Activation.isAwait : Activation → Bool
  | .awaitWait | .awaitSeen => true
  | _ => false

/-- The loop is entered once, and its activations lie on each other in order. -/
structure OneLoop (s : State) : Prop where
  shape : s.loops = [] ∨ s.loops = [.start] ∨ (∃ a, a.isAwait = true ∧ s.loops = [a, .start]) ∨
    ∃ r h a, a.isAwait = true ∧ s.loops = [.eventHandler r h, a, .start]
  started : s.ev.managerLifeState = .notStarted → s.loops = []

namespace OneLoop

variable {s s' : State}

theorem same (h : OneLoop s) (hl : s'.loops = s.loops)
    (hlife : s'.ev.managerLifeState = .notStarted → s.ev.managerLifeState = .notStarted) : OneLoop s' := by
  refine ⟨?_, fun hn => ?_⟩ <;> rw [hl]
  · exact h.shape
  · exact h.started (hlife hn)

theorem issue (h : OneLoop s) (hi : Issue s s') : OneLoop s' := h.same hi.loops fun hn => hi.life ▸ hn

theorem of_start {rest : List Activation} (h : OneLoop s) (hst : s.stack = .start :: rest) :
    rest.filter Activation.ofLoop = [] := by
  have hs := h.shape
  rw [State.loops, hst, List.filter_cons_of_pos rfl] at hs
  rcases hs with hs | hs | ⟨a, ha, hs⟩ | ⟨r, x, a, ha, hs⟩
  · cases hs
  · exact (List.cons.inj hs).2
  · rw [← (List.cons.inj hs).1] at ha
    cases ha
  · cases (List.cons.inj hs).1

theorem of_await {a : Activation} {rest : List Activation} (h : OneLoop s) (ha : a.isAwait = true)
    (hst : s.stack = a :: rest) : rest.filter Activation.ofLoop = [.start] := by
  have hl : a.ofLoop = true := by cases a <;> first | rfl | cases ha
  have hs := h.shape
  rw [State.loops, hst, List.filter_cons_of_pos hl] at hs
  rcases hs with hs | hs | ⟨b, hb, hs⟩ | ⟨r, x, b, hb, hs⟩
  · cases hs
  · rw [(List.cons.inj hs).1] at ha
    cases ha
  · exact (List.cons.inj hs).2
  · rw [(List.cons.inj hs).1] at ha
    cases ha

theorem of_eventHandler {r : ReqId} {x : CoroId} {rest : List Activation} (h : OneLoop s)
    (hst : s.stack = .eventHandler r x :: rest) :
    ∃ a, a.isAwait = true ∧ rest.filter Activation.ofLoop = [a, .start] := by
  have hs := h.shape
  rw [State.loops, hst, List.filter_cons_of_pos rfl] at hs
  rcases hs with hs | hs | ⟨b, hb, hs⟩ | ⟨r', x', b, hb, hs⟩
  · cases hs
  · cases (List.cons.inj hs).1
  · rw [← (List.cons.inj hs).1] at hb
    cases hb
  · exact ⟨b, hb, (List.cons.inj hs).2⟩

theorem init {s : State} (hi : State.Initial s) : OneLoop s := by
  have hl : s.loops = [] := by rw [State.loops, hi.stack]; rfl
  exact ⟨.inl hl, fun _ => hl⟩

/-- `event_handler` either does not resume anyone, or lies on the stack while it does. -/
theorem eventHandler_loops {res : ℤ} {x : Option ReqId} {base : Addr} (hs : s.eventHandler res x base = .ok s') :
    (s'.loops = s.loops ∨ ∃ r h, s'.loops = .eventHandler r h :: s.loops) ∧
      s'.ev.managerLifeState = s.ev.managerLifeState := by
  refine ⟨?_, (Uncounted.eventHandler hs).life⟩
  unfold State.eventHandler at hs
  split at hs
  · cases hs
    exact .inl rfl
  · rename_i r
    simp only at hs
    split at hs
    · split at hs
      · cases hs
        exact .inl rfl
      · rename_i h _
        obtain ⟨pack, -, h2⟩ := bind_ok.mp hs
        refine .inr ⟨r, h, ?_⟩
        rw [(Quiet.resume h2).loops]
        rfl
    · cases hs

theorem eventHandler (hw : s.loops = [.awaitWait, .start] ∨ s.loops = [.awaitSeen, .start])
    (hlife : s.ev.managerLifeState ≠ .notStarted) {res : ℤ} {x : Option ReqId} {base : Addr}
    (hs : s.eventHandler res x base = .ok s') : OneLoop s' := by
  obtain ⟨hl, hlf⟩ := eventHandler_loops hs
  refine ⟨?_, fun hn => absurd (hlf.symm.trans hn) hlife⟩
  rcases hl with hl | ⟨r, h, hl⟩ <;> rw [hl]
  · rcases hw with hw | hw <;> rw [hw] <;> exact .inr (.inr (.inl ⟨_, rfl, rfl⟩))
  · rcases hw with hw | hw <;> rw [hw] <;> exact .inr (.inr (.inr ⟨r, h, _, rfl, rfl⟩))

/-- **There is one loop**, over every step. -/
theorem step {c : Choice} (h : OneLoop s) (hs : State.step s c = .ok s') : OneLoop s' := by
  -- inside the loop the manager is not in the state it was made in
  have hlife : ∀ {a rest}, s.stack = a :: rest → a.ofLoop = true → s.ev.managerLifeState ≠ .notStarted := by
    intro a rest hst ha hn
    have hl := h.started hn
    rw [State.loops, hst, List.filter_cons_of_pos ha] at hl
    cases hl
  cases step_loopEffect hs with
  | issue hi => exact h.issue hi
  | start hl =>
    refine ⟨.inr (.inl ?_), (fun he => by cases he)⟩
    have hl' := h.started hl
    rw [State.loops] at hl' ⊢
    rw [stack_push, List.filter_cons_of_pos rfl, stack_modEv, hl']
  | leave hst hd =>
    have hl := h.of_start hst
    exact ⟨.inl (by rw [State.loops, stack_pop, hst]; exact hl), fun _ => by rw [State.loops, stack_pop, hst]; exact hl⟩
  | message hst h1 =>
    have hl := h.of_start hst
    have hw : (s.push .awaitWait).loops = [.awaitWait, .start] := by
      rw [State.loops, stack_push, List.filter_cons_of_pos rfl, hst, List.filter_cons_of_pos rfl, hl]
    unfold State.awaitMessage at h1
    simp only at h1
    split at h1
    · exact eventHandler (.inl (by exact hw)) (by exact hlife hst rfl) h1
    · cases h1
      exact ⟨.inr (.inr (.inl ⟨_, rfl, hw⟩)), fun hn => absurd hn (hlife hst rfl)⟩
  | cqe hst h1 =>
    have hl := h.of_await rfl hst
    have hw : (s.pop.push .awaitSeen).loops = [.awaitSeen, .start] := by
      rw [State.loops, stack_push, List.filter_cons_of_pos rfl, stack_pop, hst, List.tail_cons, hl]
    unfold State.awaitCqe at h1
    split at h1
    · split at h1
      · refine eventHandler (.inr ?_) ?_ h1
        · split <;> exact hw
        · have hne := hlife hst rfl
          split <;> exact hne
      · cases h1
    · cases h1
  | seen hst h1 =>
    have hl := h.of_await rfl hst
    have hp : s.pop.loops = [.start] := by rw [State.loops, stack_pop, hst, List.tail_cons, hl]
    have hne := hlife hst rfl
    unfold State.awaitSeen at h1
    split at h1
    · simp only at h1
      split at h1
      · have hq := Quiet.resume h1
        exact ⟨.inr (.inl (hq.loops.trans hp)), fun hn => absurd (hq.life.symm.trans hn) hne⟩
      · cases h1
      · cases h1
        exact ⟨.inr (.inl hp), fun hn => absurd hn hne⟩
    · cases h1
  | handlerReturn hst h1 =>
    obtain ⟨a, ha, hl⟩ := h.of_eventHandler hst
    have hp : s.pop.loops = [a, .start] := by rw [State.loops, stack_pop, hst, List.tail_cons, hl]
    have hne := hlife hst rfl
    unfold State.eventHandlerReturn at h1
    simp only at h1
    split at h1
    · split at h1
      · cases h1
        refine ⟨.inr (.inr (.inl ⟨a, ha, ?_⟩)), fun hn => absurd ?_ hne⟩
        · split <;> exact hp
        · split at hn <;> exact hn
      · cases h1
    · cases h1
      refine ⟨.inr (.inr (.inl ⟨a, ha, ?_⟩)), fun hn => absurd ?_ hne⟩
      · split <;> exact hp
      · split at hn <;> exact hn
  | dying hst hb hl => exact ⟨h.shape, fun he => by cases he⟩
  | dead hst h0 hq =>
    have hd : OneLoop (s.modEv fun ev => { ev with managerLifeState := .dead, ringUp := false }) :=
      ⟨h.shape, fun he => by cases he⟩
    exact hd.issue (.of_quiet hq)
  | poll hst ha hq hq' =>
    have h1 := h.issue (.of_quiet hq)
    exact h1.same hq'.loops fun hn => hq'.life ▸ hn
  | register hst h1 =>
    have hq : Issue s s.pop := .of_quiet (.pop hst rfl)
    unfold State.registerCoroReturn at h1
    obtain ⟨s1, h2, h3⟩ := bind_ok.mp h1
    obtain ⟨e, -, h4⟩ := bind_ok.mp h3
    cases h4
    have h5 := (h.issue hq).issue (.of_quiet ((Quiet.makeRoom h2).trans (.relink e s1)))
    unfold insertTask
    simp only
    split <;> exact h5.same rfl id

end OneLoop

theorem Reachable.oneLoop {s : State} (h : Reachable s) : OneLoop s :=
  h.inv (fun _ => OneLoop.init) fun _ _ _ ho _ hs => ho.step hs

end EvManager
