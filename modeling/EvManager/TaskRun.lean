import EvManager.TaskHistory
import EvManager.Refines
import EvManager.Stack

/-!
# The task machine along a run

What the machine keeps holds in every state that a program reaches.
-/

namespace EvManager

open Lib State

section Machine

variable {s : State}

theorem tasks_suspending (hso : Sound s) : s.tasks.Suspending := by
  intro t a hm
  have hm' : Activation.taskAwait t a ∈ s.stack := (List.mem_filter.mp hm).1
  rcases hso with hc | ⟨s0, h, r, hc, hp, rfl⟩
  · exact (hc.awaits.suspending t a hm').2
  · refine (hc.awaits.suspending t a ?_).2
    exact (List.mem_cons.mp hm').resolve_left (by simp)

theorem tasks_fresh (hso : Sound s) (h : CoroId) (hle : s.tasks.next ≤ h) : s.tasks.place h = .gone := by
  rcases hso with hc | ⟨s0, x, r, hc, hp, rfl⟩ <;> exact hc.placed.fresh h hle

/-- User code that calls `start()` runs in `main` or in a body, so no `await_suspend` is right below. -/
theorem not_taskAwait_of_start (hst : Stacked s.stack) {c : Choice} {t : TaskRef} (hl : s.label c = .start t)
    (t' : TaskRef) (a : CoroId) (rest : List Activation) : s.tasks.calls ≠ .taskAwait t' a :: rest := by
  intro hcalls
  have hrun : ∀ {h : CoroId} {l : List Activation}, s.stack = .run h :: l → False := by
    intro h l hs
    have h1 := (tasks_pop hs rfl).1
    rw [hcalls] at h1
    cases h1
  have h1 := s.label_case c
  rw [hl] at h1
  generalize hx : TaskLabel.start t = l at h1
  cases h1 with
  | main hs =>
    rw [hs] at hst
    have h1 : s.tasks.calls = [] := by simp [State.tasks, hs, hst.main, Activation.isCall]
    rw [hcalls] at h1
    cases h1
  | body hs | throws hs | handler hs | kill hs => exact hrun hs
  | seen | registered | tail | tau => cases hx

theorem tasks_init (hi : State.Initial s) : s.tasks.History ∧ s.tasks.Suspends := by
  have hlog : s.tasks.log = [] := by cases hi <;> rfl
  have hcalls : s.tasks.calls = [] := by simp [State.tasks, hi.stack, Activation.isCall]
  refine ⟨⟨fun h out hm => ?_, fun h out _ hm => ?_, fun h hx => ?_, fun h ht => ?_, fun h x hm => ?_⟩,
    fun a t h hp => ?_, fun t t' h a hin => ?_⟩
  · simp [hlog] at hm
  · simp [hlog] at hm
  · exfalso
    have hp : s.tasks.place h = if h = 0 then .initial else .gone := hi.place h
    have hd : s.tasks.done h = false := by cases hi <;> rfl
    rw [hp, hd] at hx
    split at hx <;> simp at hx
  · have hth : s.tasks.thrown h = false := by
      cases hi <;> by_cases hh : h = 0 <;> simp [State.tasks, State.init, initFailed, blank, hh]
    rw [hth] at ht
    cases ht
  · simp [hlog] at hm
  · have hp' : s.tasks.place a = if a = 0 then .initial else .gone := hi.place a
    rw [hp'] at hp
    split at hp <;> cases hp
  · rw [hcalls] at hin
    simp at hin

end Machine

theorem Reachable.history {s : State} (h : Reachable s) : s.tasks.History ∧ s.tasks.Suspends := by
  refine Reach.inv_of (J := fun s => Reachable s) (fun s hs => hs) (fun s hi => tasks_init hi) ?_ h
  intro s c s' hr ih _ hs
  have hstep := step_tasks hr.sound hr.killing hs
  have hso' : Sound s' := hr.sound.step hr.killing hs
  exact ⟨ih.1.step hstep, ih.2.step (tasks_suspending hr.sound) (tasks_suspending hso') hstep
    fun t hl => not_taskAwait_of_start hr.stacked hl⟩

theorem mem_trace_of_step {s s' : State} {c : Choice} (hso : Sound s) (hk : Killing s) (hs : State.step s c = .ok s')
    {e : Event} (he : e.ofTask = true) (hm : e ∈ s.trace) : e ∈ s'.trace := by
  have h1 : e ∈ s.tasks.log := List.mem_filter.mpr ⟨hm, he⟩
  exact (List.mem_filter.mp ((step_tasks hso hk hs).mem_log h1)).1

/-- **A coroutine runs exactly while its body is on the stack.** -/
theorem Reachable.running {s : State} (h : Reachable s) {x : CoroId} :
    (s.coros x).place = .running ↔ Activation.run x ∈ s.stack := by
  have hrun : s.tasks.Running := by
    refine Reach.inv_of (I := fun s => s.tasks.Running) (J := fun s => Reachable s) (fun s hs => hs) ?_ ?_ h
    · intro s hi x hp
      have hp' : s.tasks.place x = if x = 0 then .initial else .gone := hi.place x
      rw [hp'] at hp
      split at hp <;> cases hp
    · intro s c s' hr ih _ hs
      exact (step_tasks hr.sound hr.killing hs).running ih
  refine ⟨fun hp => (List.mem_filter.mp (hrun x hp)).1, fun hm => ?_⟩
  rcases h.sound with hc | ⟨s0, y, r, hc, hp, rfl⟩
  · exact hc.placed.run x hm
  · exact hc.placed.run x ((List.mem_cons.mp hm).resolve_left (by simp))

end EvManager
