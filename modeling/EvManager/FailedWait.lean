import EvManager.Drain

/-!
# A wait that fails

`await_message` only prints that `io_uring_wait_cqe` failed and goes on with the pointer it declared, which nothing has
set.  `awaitCqeFailed` is that code for whatever the pointer is found to hold.  **`failed_wait_harms`**: none of it is
harmless, for the loop does not come back to its wait before it has marked a completion seen.
-/

namespace EvManager

open Lib State

namespace State

/-- `io_uring_wait_cqe` has failed, and `cqe` is what the rest of `await_message` reads through its pointer: a
result and a `user_data`, or nothing when the pointer cannot be read through. -/
def awaitCqeFailed (cqe : Option (ℤ × Option ReqId)) (iovBase : Addr) (s : State) : Except Stop State :=
  match cqe with
  | none => .error (.undefined .uninitCqe)
  | some (res, reqData) => eventHandler res reqData iovBase (s.pop.push .awaitSeen)

/-- In `s'` the loop waits as it did in `s`, at its head or in the wait, and what a failed wait must not touch is as it
was. -/
structure WaitsAgain (s s' : State) : Prop where
  stack : s'.stack = s.stack ∨ s'.stack = s.stack.tail
  counter : s'.ev.inFlightRequests = s.ev.inFlightRequests
  seen : s'.seen = s.seen
  coros : s'.coros = s.coros
  trace : s'.trace = s.trace

end State

/-! ### Completions that are dispatched are marked seen -/

/-- The completions marked seen and the one that is dispatched. -/
def State.handedOver (s : State) : ℕ := s.seen + s.loops.count .awaitSeen

/-- No step takes back what was handed over. -/
theorem handedOver_step {s s' : State} {c : Choice} (hs : State.step s c = .ok s') : s.handedOver ≤ s'.handedOver := by
  have hseen : s.seen ≤ s'.seen := by
    cases step_ring hs with
    | prepare _ h | submit _ _ _ _ _ h | reap _ _ h | cancel _ _ _ h => exact h.ge
    | seen _ _ h => omega
  have of_count : s.loops.count .awaitSeen ≤ s'.loops.count .awaitSeen → s.handedOver ≤ s'.handedOver :=
    fun h => Nat.add_le_add hseen h
  have of_loops : s'.loops = s.loops → s.handedOver ≤ s'.handedOver := fun h => of_count (by rw [h])
  have hpop : ∀ {a : Activation} {rest : List Activation}, s.stack = a :: rest → a ≠ .awaitSeen → a.ofLoop = true →
      s.pop.loops.count .awaitSeen = s.loops.count .awaitSeen := by
    intro a rest hst hne ha
    rw [State.loops, State.loops, stack_pop, hst, List.filter_cons_of_pos ha]
    exact (List.count_cons_of_ne hne).symm
  cases step_loopEffect hs with
  | issue h => exact of_loops h.loops
  | start =>
    refine of_count (le_of_eq ?_)
    rw [State.loops, State.loops, stack_push, List.filter_cons_of_pos rfl]
    exact (List.count_cons_of_ne (by decide)).symm
  | leave hst => exact of_count (hpop hst (by decide) rfl).ge
  | message hst h1 =>
    have hw : (s.push .awaitWait).loops.count .awaitSeen = s.loops.count .awaitSeen := by
      rw [State.loops, stack_push, List.filter_cons_of_pos rfl]
      exact List.count_cons_of_ne (by decide)
    unfold State.awaitMessage at h1
    simp only at h1
    split at h1
    · exact of_count (((Uncounted.eventHandler h1).dispatched).trans hw).ge
    · cases h1
      exact of_count hw.ge
  | cqe hst h1 =>
    have hw : s.loops.count .awaitSeen ≤ (s.pop.push .awaitSeen).loops.count .awaitSeen := by
      have h2 : (s.pop.push .awaitSeen).loops = .awaitSeen :: s.pop.loops := rfl
      rw [h2, List.count_cons_self, hpop hst (by decide) rfl]
      exact Nat.le_succ _
    unfold State.awaitCqe at h1
    split at h1
    · split at h1
      · refine of_count (hw.trans (le_of_eq ?_))
        rw [(Uncounted.eventHandler h1).dispatched]
        split <;> rfl
      · cases h1
    · cases h1
  | @seen rest _ hst h1 =>
    -- what is marked seen leaves the stack
    have hl : s.loops.count .awaitSeen = s.pop.loops.count .awaitSeen + 1 := by
      rw [State.loops, State.loops, stack_pop, hst, List.filter_cons_of_pos rfl, List.count_cons_self]
      rfl
    unfold State.handedOver
    unfold State.awaitSeen at h1
    split at h1
    · simp only at h1
      split at h1
      · have hq := Quiet.resume h1
        rw [hq.seen, hq.loops, hl]
        show s.seen + (s.pop.loops.count .awaitSeen + 1) ≤ s.seen + 1 + s.pop.loops.count .awaitSeen
        omega
      · cases h1
      · cases h1
        rw [hl]
        show s.seen + (s.pop.loops.count .awaitSeen + 1) ≤ s.seen + 1 + s.pop.loops.count .awaitSeen
        omega
    · cases h1
  | handlerReturn hst h1 =>
    refine of_count (le_of_eq ?_)
    rw [(Uncounted.eventHandlerReturn h1).dispatched]
    exact (hpop hst (by simp) rfl).symm
  | dying => exact of_loops rfl
  | dead _ _ hq => exact of_loops hq.loops
  | poll _ _ hq hq' => exact of_loops (hq'.loops.trans hq.loops)
  | register hst h1 =>
    refine of_count (le_of_eq ?_)
    rw [(Uncounted.registerCoroReturn h1).dispatched, (Quiet.pop hst rfl).loops]

theorem handedOver_run {P : State → Choice → Prop} {s s' : State} (h : Run State.step P s s') :
    s.handedOver ≤ s'.handedOver := by
  induction h with
  | refl => exact le_rfl
  | tail _ _ hs ih => exact ih.trans (handedOver_step hs)

theorem not_waitsAgain {P : State → Choice → Prop} {s s1 s' : State} {rest : List Activation}
    (hst : s.stack = .awaitWait :: rest) {cqe : Option (ℤ × Option ReqId)} {base : Addr}
    (h1 : s.awaitCqeFailed cqe base = .ok s1) (hr : Run State.step P s1 s') : ¬ s.WaitsAgain s' := by
  intro hw
  have hover : (s.pop.push .awaitSeen).handedOver = s.handedOver + 1 := by
    unfold State.handedOver
    rw [State.loops, State.loops, stack_push, stack_pop, hst, List.tail_cons, List.filter_cons_of_pos rfl,
      List.count_cons_self, List.filter_cons_of_pos rfl, List.count_cons_of_ne (by decide)]
    rfl
  have h2 : s1.handedOver = s.handedOver + 1 := by
    cases cqe with
    | none => cases h1
    | some x =>
      obtain ⟨res, reqData⟩ := x
      have h3 : (s.pop.push .awaitSeen).eventHandler res reqData base = .ok s1 := h1
      have h4 := Uncounted.eventHandler h3
      rw [← hover, State.handedOver, State.handedOver, h4.dispatched, h4.seen]
  -- the stack is as it was, so what was handed over was marked seen
  have h3 : s'.loops.count .awaitSeen = s.loops.count .awaitSeen := by
    rw [State.loops, State.loops]
    rcases hw.stack with he | he <;> rw [he]
    rw [hst, List.tail_cons, List.filter_cons_of_pos rfl, List.count_cons_of_ne (by decide)]
  have hle := handedOver_run hr
  have hseen := hw.seen
  unfold State.handedOver at hle h2
  omega

/-- **A failed wait is never harmless**, in any state of the manager and whatever the unset pointer holds: the run ends
there, or a completion is marked seen before the loop waits again.  Where the pointer shows no `user_data`, the very
next step lowers the counter, from 0 to the greatest `size_t`, and resumes the kill task of a manager that is DYING. -/
theorem failed_wait_harms {s : State} {rest : List Activation} (h : Reachable s) (hst : s.stack = .awaitWait :: rest) :
    (∀ (cqe : Option (ℤ × Option ReqId)) (base : Addr), ¬ ∃ s1 s', s.awaitCqeFailed cqe base = .ok s1 ∧
      Run State.step (fun _ _ => True) s1 s' ∧ s.WaitsAgain s') ∧
    ∀ (res : ℤ) (base : Addr) (s1 s' : State) (c : Choice), s.awaitCqeFailed (some (res, none)) base = .ok s1 →
      State.step s1 c = .ok s' → s'.seen = s.seen + 1 ∧ s'.ev.inFlightRequests = decrement s.ev.inFlightRequests ∧
        (s.ev.managerLifeState = .dying → ∃ rest', s'.stack = .run 0 :: rest') := by
  constructor
  · rintro cqe base ⟨s1, s', h1, hr, hw⟩
    exact not_waitsAgain hst h1 hr hw
  · intro res base s1 s' c h1 hs
    cases h1
    have hst1 : (s.pop.push .awaitSeen).stack = .awaitSeen :: rest := by rw [stack_push, stack_pop, hst]; rfl
    have hc := (h.sound.coherent hst (by simp)).pop.push (a := .awaitSeen) rfl rfl (by simp)
    have hk : Killing (s.pop.push .awaitSeen) := ⟨h.killing.only, h.killing.lt, h.killing.started⟩
    rcases awaitSeen_ok hc hk (step_awaitSeen hst1 hs) with ⟨-, -, rfl⟩ | ⟨hn, rfl⟩
    · exact ⟨rfl, rfl, fun _ => ⟨_, rfl⟩⟩
    · exact ⟨rfl, rfl, fun hd => absurd hd hn⟩

/-- The first wait of a loop fails, the unset pointer shows a completion without `user_data`, and the counter wraps. -/
theorem failed_wait_harms_first : ∃ s s1 s' : State, s.awaitCqeFailed (some (0, none)) 0 = .ok s1 ∧
    State.step s1 .tau = .ok s' ∧ s.ev.inFlightRequests = 0 ∧ s'.ev.inFlightRequests = 2 ^ 64 - 1 ∧
    s'.seen = s.seen + 1 := by
  have he : (exec step (fun _ _ => True) (init 4) [.user .start, .message 0]).map (fun s =>
      decide (s.stack = [.awaitWait, .start, .main] ∧ s.ev.inFlightRequests = 0 ∧
        (s.awaitCqeFailed (some (0, none)) 0).isOk = true ∧
        (s.awaitCqeFailed (some (0, none)) 0 >>= fun s1 => step s1 .tau).isOk = true)) = some true := by decide
  obtain ⟨s, hreach, hs⟩ := Reach.of_exec (.up 4) he
  obtain ⟨hst, h0, hok, hok'⟩ := of_decide_eq_true hs
  rcases h1 : s.awaitCqeFailed (some (0, none)) 0 with e | s1
  · rw [h1] at hok
    cases hok
  · rcases h2 : step s1 .tau with e | s'
    · rw [h1] at hok'
      simp only [bind, Except.bind, h2] at hok'
      cases hok'
    · obtain ⟨hseen, hcount, -⟩ := (failed_wait_harms hreach hst).2 0 0 s1 s' .tau h1 h2
      refine ⟨s, s1, s', h1, h2, h0, ?_, hseen⟩
      rw [hcount, h0]
      decide

/-- The first wait of a loop fails, and the loop does not wait again with all as it was. -/
theorem failed_wait_fails : ¬ ∀ (s : State) (rest : List Activation) (cqe : Option (ℤ × Option ReqId)) (base : Addr),
    Reachable s → s.stack = .awaitWait :: rest → ∃ s1 s', s.awaitCqeFailed cqe base = .ok s1 ∧
      Run State.step (fun _ _ => True) s1 s' ∧ s.WaitsAgain s' := by
  intro hall
  have he : (exec step (fun _ _ => True) (init 4) [.user .start, .message 0]).map (fun s =>
      decide (s.stack = [.awaitWait, .start, .main])) = some true := by decide
  obtain ⟨s, hreach, hs⟩ := Reach.of_exec (.up 4) he
  have hst := of_decide_eq_true hs
  obtain ⟨s1, s', h1, hr, hw⟩ := hall s _ (some (0, none)) 0 hreach hst
  exact not_waitsAgain hst h1 hr hw

end EvManager
