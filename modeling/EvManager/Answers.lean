import EvManager.Awaiting
import EvManager.TaskRun

/-!
# Who awaits a task is answered

**`co_awaits_answered`**: in a run that loses no awaiter of a coroutine and resumes none early, every `co_await`
of its task is answered once, with the code that the coroutine has returned before.
-/

namespace EvManager

open Lib State

/-- The states a program reaches by steps that all meet `P`, with the number of those that meet `B`. -/
def ReachCount (P B : State → Choice → Prop) (n : ℕ) (s : State) : Prop :=
  ∃ s₀, State.Initial s₀ ∧ RunCount State.step P B s₀ n s

theorem ReachCount.reach {P B : State → Choice → Prop} {n : ℕ} {s : State} (h : ReachCount P B n s) : Reach P s := by
  obtain ⟨s₀, hi, hr⟩ := h
  exact ⟨s₀, hi, hr.run⟩

/-- What is known of the awaiters of `c` along a run that loses none. -/
structure State.Accounts (a c : CoroId) (n : ℕ) (s : State) : Prop where
  awaited : s.tasks.Awaited c
  count : n = s.tasks.answers a c + s.tasks.waits a c

/-- The step loses no awaiter of `c`, and hands over no awaitable that is held after its `co_await` has returned. -/
def State.AwaitsKept (c : CoroId) (s : State) (ch : Choice) : Prop := s.tasks.AwaitOk c (s.label ch) ∧ s.OnTime ch

instance (c : CoroId) (s : State) (ch : Choice) : Decidable (s.AwaitsKept c ch) := by
  unfold State.AwaitsKept; infer_instance

/-- The step begins a `co_await` of `a` on a task of `c`. -/
def State.BeginsAwait (a c : CoroId) (s : State) (ch : Choice) : Prop := s.tasks.Begins a c (s.label ch)

theorem accounts {a c : CoroId} {n : ℕ} {s : State} (h : ReachCount (State.AwaitsKept c) (State.BeginsAwait a c) n s) :
    Event.returned c none ∉ s.trace → s.Accounts a c n := by
  obtain ⟨s₀, hi, hr⟩ := h
  have hstep : ∀ {n : ℕ} {s s' : State} {ch : Choice}, Reachable s → s.AwaitsKept c ch → State.step s ch = .ok s' →
      (Event.returned c none ∉ s.trace → s.Accounts a c n) → Event.returned c none ∉ s'.trace →
      s.Accounts a c n ∧ s'.tasks.Awaited c ∧ s.tasks.Counts a c s'.tasks (s.label ch) := by
    intro n s s' ch hreach hok hs ih hno
    have hno0 : Event.returned c none ∉ s.trace :=
      fun hm => hno (mem_trace_of_step hreach.sound hreach.killing hs rfl hm)
    have hno1 : Event.returned c none ∉ s'.tasks.log := fun hm => hno (List.mem_filter.mp hm).1
    have hno2 : Event.returned c none ∉ s.tasks.log := fun hm => hno0 (List.mem_filter.mp hm).1
    have hts := step_tasks hreach.sound hreach.killing hs
    have hf := tasks_fresh hreach.sound
    obtain ⟨hh, hsp⟩ := hreach.history
    exact ⟨ih hno0, (ih hno0).awaited.step hh hf hok.1 hts hno1, hts.counts hh hsp hf hok.1 hno2 a⟩
  have hplace : ∀ b t x, s₀.tasks.place b ≠ .atTask t c x := by
    intro b t x hp
    have hp' : s₀.tasks.place b = if b = 0 then .initial else .gone := hi.place b
    rw [hp'] at hp
    split at hp <;> cases hp
  refine hr.inv_of (I := fun n s => Event.returned c none ∉ s.trace → s.Accounts a c n) (J := Reachable)
    (fun s hs => Reach.reachable ⟨s₀, hi, hs⟩) ?_ ?_ ?_
  · refine fun _ => ⟨⟨fun b t hp => absurd hp (hplace b t true), fun b t x hp => absurd hp (hplace b t x), ?_⟩, ?_⟩
    · have hlog : s₀.tasks.log = [] := by cases hi <;> rfl
      intro l₁ l₂ b t x heq
      rw [hlog] at heq
      simp at heq
    · have hans : s₀.tasks.answers a c = 0 := by cases hi <;> rfl
      have hw : s₀.tasks.waits a c = 0 := by
        rw [Tasks.waits, if_neg]
        intro hp
        obtain ⟨t, b, hp⟩ := Place.awaits_eq.mp hp
        exact hplace a t b hp
      rw [hans, hw]
  · intro n s ch s' hreach ih hok hB hs hno
    obtain ⟨h1, h2, ⟨-, h3⟩ | ⟨h3, -⟩⟩ := hstep hreach hok hs ih hno
    · exact ⟨h2, by rw [h3, h1.count]⟩
    · exact absurd hB h3
  · intro n s ch s' hreach ih hok hB hs hno
    obtain ⟨h1, h2, ⟨h3, -⟩ | ⟨-, h3⟩⟩ := hstep hreach hok hs ih hno
    · exact absurd h3 hB
    · exact ⟨h2, by rw [h3, h1.count]⟩

/-- **Who awaits a task is answered.**  In a run that loses no awaiter of `c`, in which no completion comes for an
awaitable that is held after its `co_await` has returned, and in which the body of `c` does not throw, every
`co_await` of `a` on the task of `c` either has returned or waits; it returns the code that `c` has returned before;
and once `c` has returned, and no `await_suspend` of `a` is still on the stack, all of them have returned. -/
theorem co_awaits_answered {a c : CoroId} {n : ℕ} {s : State}
    (h : ReachCount (State.AwaitsKept c) (State.BeginsAwait a c) n s) (hno : Event.returned c none ∉ s.trace) :
    n = s.trace.countP (Event.answers a c) + (if (s.coros a).place.awaits c then 1 else 0) ∧
      (∀ l₁ l₂ t x, s.trace = l₁ ++ .taskReturned a t c x :: l₂ → Event.returned c (some x) ∈ l₂) ∧
      ∀ x, Event.returned c (some x) ∈ s.trace → (∀ t, Activation.taskAwait t a ∉ s.stack) →
        s.trace.countP (Event.answers a c) = n := by
  have hacc := accounts h hno
  have hcount : n = s.trace.countP (Event.answers a c) + (if (s.coros a).place.awaits c then 1 else 0) := by
    have hans : s.tasks.answers a c = s.trace.countP (Event.answers a c) := by
      rw [Tasks.answers, State.tasks, List.countP_filter]
      refine List.countP_congr fun e _ => ?_
      cases e <;> simp [Event.answers, Event.ofTask]
    rw [← hans]
    exact hacc.count
  refine ⟨hcount, fun l₁ l₂ t x heq => ?_, fun x hm hst => ?_⟩
  · have h1 : s.tasks.log = l₁.filter Event.ofTask ++ .taskReturned a t c x :: l₂.filter Event.ofTask := by
      rw [State.tasks, heq, List.filter_append, List.filter_cons_of_pos rfl]
    exact (List.mem_filter.mp (hacc.awaited.value _ _ a t x h1)).1
  · have hp : (s.coros a).place.awaits c = false := by
      by_contra hp
      obtain ⟨t, b, hp⟩ := Place.awaits_eq.mp (by simpa using hp)
      cases b with
      | true => exact (hacc.awaited.armed a t hp).2.2 (some x) (List.mem_filter.mpr ⟨hm, rfl⟩)
      | false =>
        have h1 := h.reach.reachable.history.2.waiting a t c hp
        exact hst t (List.mem_filter.mp h1).1
    rw [hcount, hp]
    simp

/-- A coroutine that awaits `kill()` while its own request is dispatched is answered when `kill_internal` is done. -/
theorem co_awaits_answered_kill : ∃ (n : ℕ) (s : State), n = 1 ∧ s.trace.countP (Event.answers 2 0) = n ∧
    s.stack = [.main] ∧ s.ev.managerLifeState = .dead := by
  have he : (exec State.step (State.AwaitsKept 0) (init 4) [.user .call, .user (.startTask 0),
      .user (.awaitOp (.read ⟨3, 100, 8⟩)), .sub 1, .tau, .user .start, .message 0, .cqe 0 8 0, .user .kill,
      .user (.startTask 1), .tau, .tau, .tau, .tau, .sub 1, .tau, .tau, .tau, .tau, .tau,
      .user (.coReturn 0), .tau, .tau, .tau, .tau, .message 0, .cqe 0 0 0, .tau, .tau, .tau, .tau, .tau,
      .tau]).map (fun s =>
        decide (s.stack = [.main] ∧ s.ev.managerLifeState = .dead ∧ Event.returned 0 (some 0) ∈ s.trace ∧
          Event.returned 0 none ∉ s.trace ∧ s.trace.countP (Event.answers 2 0) = 1)) = some true := by decide
  obtain ⟨s, hrun, hs⟩ := Run.exists_of_exec he
  obtain ⟨hst, hl, hret, hno, hone⟩ := of_decide_eq_true hs
  obtain ⟨n, hn⟩ := hrun.count (State.BeginsAwait 2 0)
  have hn' : s.trace.countP (Event.answers 2 0) = n :=
    (co_awaits_answered ⟨init 4, .up 4, hn⟩ hno).2.2 0 hret (by simp [hst])
  exact ⟨n, s, hn'.symm.trans hone, hn', hst, hl⟩

/-- Two coroutines await `kill()` while the first one's request is dispatched: the second takes the slot of
`kill_internal`, and the first is left waiting for a coroutine that is gone. -/
theorem co_awaits_answered_fails : ∃ s : State, Reachable s ∧ s.stack = [.main] ∧ s.ev.managerLifeState = .dead ∧
    Event.returned 0 (some 0) ∈ s.trace ∧ (s.coros 0).place = .gone ∧ (s.coros 2).place = .atTask .kill 0 true ∧
    s.trace.countP (Event.answers 2 0) = 0 ∧ s.trace.countP (Event.answers 3 0) = 1 := by
  have he : (exec State.step (fun _ _ => True) (init 4) [.user .call, .user (.startTask 0),
      .user (.awaitOp (.read ⟨3, 100, 8⟩)), .sub 1, .tau, .user .start, .message 0, .cqe 0 8 0, .user .kill,
      .user (.startTask 1), .tau, .tau, .tau, .tau, .sub 1, .tau, .tau, .tau, .tau, .tau, .user .kill,
      .user (.startTask 2), .tau, .tau, .user (.coReturn 0), .tau, .tau, .tau, .tau, .message 0, .cqe 0 0 0, .tau, .tau,
      .tau, .tau, .tau, .tau]).map (fun s =>
        decide (s.stack = [.main] ∧ s.ev.managerLifeState = .dead ∧ Event.returned 0 (some 0) ∈ s.trace ∧
          (s.coros 0).place = .gone ∧ (s.coros 2).place = .atTask .kill 0 true ∧
          s.trace.countP (Event.answers 2 0) = 0 ∧ s.trace.countP (Event.answers 3 0) = 1)) = some true := by decide
  obtain ⟨s, hreach, hs⟩ := Reach.of_exec (.up 4) he
  exact ⟨s, hreach, of_decide_eq_true hs⟩

end EvManager
