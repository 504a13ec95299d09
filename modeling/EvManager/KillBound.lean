import EvManager.IssueOrder

/-!
# The steps of `kill_internal`

Each flush loop of `kill_internal` submits at most `MAX_ITER` times, and in its wait it is resumed once for each
completion that is marked seen.  So **in every stretch of every run it takes boundedly many steps, but for those
completions** (`kill_bounded`).
-/

namespace EvManager

open Lib State

/-- How many steps `kill_internal` can take from here on before it waits. -/
def KillPc.work : KillPc → ℕ
  | .begin => 2 * maxIter + 5
  | .flush iter => maxIter - iter + (maxIter + 4)
  | .cancel => maxIter + 3
  | .flushCancel iter => maxIter - iter + 2
  | .wait => 1

theorem KillPc.work_pos (pc : KillPc) : 0 < pc.work := by
  cases pc <;> simp only [KillPc.work] <;> omega

theorem KillPc.work_le (pc : KillPc) : pc.work ≤ 2 * maxIter + 5 := by
  cases pc <;> simp only [KillPc.work] <;> omega

namespace State

variable {s s' : State} {c : Choice}

/-- How many steps `kill_internal` can take from here on while no completion is marked seen. -/
def killWork (s : State) : ℕ :=
  match (s.coros 0).place, (s.coros 0).body with
  | .initial, _ => 2 * maxIter + 5
  | .running, .killInternal pc => pc.work
  | _, _ => 0

/-- `kill_internal` takes the step. -/
def StepsKill (s : State) (_ : Choice) : Prop := s.stack.head? = some (.run 0)

instance (s : State) (c : Choice) : Decidable (s.StepsKill c) := by
  unfold StepsKill
  infer_instance

theorem killWork_running {pc : KillPc} (hp : (s.coros 0).place = .running) (hb : (s.coros 0).body = .killInternal pc) :
    s.killWork = pc.work := by
  rw [killWork, hp, hb]

theorem killWork_le (s : State) : s.killWork ≤ 2 * maxIter + 5 := by
  unfold killWork
  split
  · exact le_rfl
  · exact KillPc.work_le _
  · exact Nat.zero_le _

theorem killWork_rest (hi : (s.coros 0).place ≠ .initial) (hr : (s.coros 0).place ≠ .running) : s.killWork = 0 := by
  unfold killWork
  generalize (s.coros 0).place = p at hi hr
  cases p <;> simp_all

theorem killWork_setBody {pc : KillPc} (hrun : (s.coros 0).place = .running) :
    (s.setBody 0 (.killInternal pc)).killWork = pc.work := by
  refine killWork_running ?_ (setBody_body ..)
  simp [State.setBody, modCoro, hrun]

theorem killWork_kill (hreach : Reachable s) {rest : List Activation} (hst : s.stack = .run 0 :: rest)
    (hs : State.step s c = .ok s') :
    s'.killWork < s.killWork := by
  have hc := hreach.sound.coherent hst (by simp)
  have hrun := hreach.placed.place_of_top hst
  have hfinal : (s'.coros 0).place = .final → s'.killWork = 0 := fun hp => killWork_rest (by simp [hp]) (by simp [hp])
  obtain ⟨pc, ret, hb, hk⟩ := step_kill hreach.killing hst hs
  rw [killWork_running hrun hb]
  cases hk with
  | begin =>
    rw [killWork_setBody (by exact hrun)]
    simp only [KillPc.work]
    omega
  | @submit pc iter ret s1 hpc hu h1 =>
    have hlt : iter < maxIter := by
      rcases step_flush hreach.killing hpc (killPc_eq hst hb) hs with ⟨-, hi, -⟩ | ⟨-, -, h2⟩ | ⟨h0, -⟩
      · exact hi
      · have hp := place_finish hc hst h2
        simp [State.setBody, modCoro, (submitQueuedEntries_stack h1).2, hrun] at hp
      · exact absurd h0 hu
    rw [killWork_setBody (by rw [(submitQueuedEntries_stack h1).2]; exact hrun)]
    rcases hpc with rfl | rfl <;> simp only [KillPc.work] <;> omega
  | flushed | cancelled =>
    rw [killWork_setBody hrun]
    simp only [KillPc.work]
    omega
  | cancel h1 =>
    obtain ⟨ring, -, -, rfl⟩ := ioUringGetSqe_some h1
    rw [killWork_setBody (by exact hrun)]
    simp only [KillPc.work]
    omega
  | wait =>
    rw [killWork_rest (by simp [suspend, State.setPlace, modCoro, pop])
      (by simp [suspend, State.setPlace, modCoro, pop])]
    exact KillPc.work_pos _
  | exit _ h1 =>
    rw [hfinal (place_finish (hc.modEv rfl rfl rfl rfl rfl) (by exact hst) h1)]
    exact KillPc.work_pos _
  | fail _ _ h1 =>
    rw [hfinal (place_finish hc hst h1)]
    exact KillPc.work_pos _

theorem seen_le (hs : State.step s c = .ok s') : s.seen ≤ s'.seen := by
  cases step_ring hs <;> omega

/-- Another step leaves what `kill_internal` has left, but for the wait in which a completion that is marked seen
resumes it. -/
theorem killWork_other (hreach : Reachable s) (htop : ∀ rest, s.stack ≠ .run 0 :: rest) (hs : State.step s c = .ok s') :
    s'.killWork + s.seen ≤ s.killWork + s'.seen := by
  have hseen := seen_le hs
  by_cases hi : (s'.coros 0).place = .initial
  · have hi0 := (Steady.step hs).initial_of hreach.killing.lt hi
    have h1 : s'.killWork = s.killWork := by simp [killWork, hi, hi0]
    omega
  by_cases hr : (s'.coros 0).place = .running
  · rcases hreach.killPlace.wakes hreach htop hs hr with ⟨h1, hb⟩ | h1
    · have h2 : s.killWork = 2 * maxIter + 5 := by simp [killWork, h1]
      have h3 := killWork_le s'
      omega
    · obtain ⟨hb, h2⟩ := resumed_of_always hreach hs h1 hr
      rw [killWork_running hr hb, KillPc.work]
      omega
  · rw [killWork_rest hi hr]
    omega

end State

/-- **`kill_internal` does not run on.**  In every stretch of every run it takes at most `2 · MAX_ITER + 5` steps
and one for each completion that is marked seen. -/
theorem kill_bounded {s₀ s : State} {n : ℕ} (hreach : Reachable s₀)
    (h : RunCount State.step (fun _ _ => True) State.StepsKill s₀ n s) : n + s₀.seen ≤ 2 * maxIter + 5 + s.seen := by
  have hinv : n + s.killWork + s₀.seen ≤ 2 * maxIter + 5 + s.seen := by
    refine RunCount.inv_of (I := fun n s => n + s.killWork + s₀.seen ≤ 2 * maxIter + 5 + s.seen)
      (J := fun s => Reachable s)
      (fun s hr => ?_) ?_ ?_ ?_ h
    · obtain ⟨s1, hi, hr1⟩ := hreach
      exact ⟨s1, hi, hr1.trans hr⟩
    · have h1 := State.killWork_le s₀
      omega
    · intro n s c s' hreach hI _ hB hs
      obtain ⟨rest, hst⟩ := List.head?_eq_some_iff.mp hB
      have h1 := State.killWork_kill hreach hst hs
      have h2 : s.seen ≤ s'.seen := State.seen_le hs
      omega
    · intro n s c s' hreach hI _ hB hs
      have h1 := State.killWork_other hreach (fun rest hst => hB (by simp [State.StepsKill, hst])) hs
      omega
  omega

/-- A coroutine that was answered kills the manager. -/
theorem kill_bounded_dead : ∃ (s : State) (n : ℕ), RunCount State.step (fun _ _ => True) State.StepsKill (init 4) n s ∧
    s.ev.managerLifeState = .dead ∧ s.seen = 2 ∧ n ≤ 2 * maxIter + 7 := by
  have he : (exec State.step (fun _ _ => True) (init 4) [.user .call, .user (.startTask 0),
      .user (.awaitOp (.read ⟨3, 100, 8⟩)), .sub 1, .tau, .user .start, .message 0, .cqe 0 8 0, .user .kill,
      .user (.startTask 1), .tau, .tau, .tau, .tau, .sub 1, .tau, .tau, .tau, .tau, .tau,
      .user (.coReturn 0), .tau, .tau, .tau, .tau, .message 0, .cqe 0 0 0, .tau, .tau, .tau, .tau, .tau,
      .tau]).map (fun s =>
      decide (s.ev.managerLifeState = .dead ∧ s.seen = 2)) = some true := by decide
  obtain ⟨s, h, hs⟩ := Run.exists_of_exec he
  obtain ⟨hd, hseen⟩ := of_decide_eq_true hs
  obtain ⟨n, hn⟩ := h.count State.StepsKill
  have hle := kill_bounded ⟨init 4, .up 4, .refl⟩ hn
  refine ⟨s, n, hn, hd, hseen, ?_⟩
  simp only [hseen, show (init 4).seen = 0 from rfl] at hle
  omega

end EvManager
