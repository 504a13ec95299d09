import EvManager.Drain

/-!
# The flush checks of `kill_internal`

The two checks look at the entries that `io_uring_submit` has not published, not at those the kernel has not taken.
**`kill_flushes`**: they mean what they say as long as each submit of `kill_internal` takes all, and no longer.
-/

namespace EvManager

open Lib State

namespace State

/-- From `s` to `s'` `kill_internal` goes on past one of its flush checks. -/
def PassesCheck (s s' : State) : Prop :=
  ∃ iter, s.killPc = some (.flush iter) ∧ s'.killPc = some .cancel ∨
    s.killPc = some (.flushCancel iter) ∧ s'.killPc = some .wait

theorem of_killPc {s : State} (hk : Killing s) {pc : KillPc} (h : s.killPc = some pc) :
    ∃ rest, s.stack = .run 0 :: rest ∧ (s.coros 0).body = .killInternal pc := by
  unfold killPc at h
  split at h
  · rename_i x rest hst
    split at h
    · rename_i pc' hb
      cases h
      obtain rfl := (hk.only x).mp (by rw [hb]; rfl)
      exact ⟨rest, hst, hb⟩
    · cases h
  · cases h

theorem flushLoop_ok {s s' : State} {h : CoroId} {pc : ℕ → KillPc} {iter : ℕ} {ret : Option ℤ}
    {next : State → Except Stop State} (hs : s.flushLoop h pc iter ret next = .ok s') :
    (s.ev.ring.unpublished ≠ 0 ∧ iter < maxIter ∧ ∃ r s1, ret = some r ∧ s.submitQueuedEntries r = .ok s1 ∧
        s' = s1.setBody h (.killInternal (pc (iter + 1)))) ∨
      (s.ev.ring.unpublished ≠ 0 ∧ maxIter ≤ iter ∧ s.finish h (some (u64 (-1))) = .ok s') ∨
      s.ev.ring.unpublished = 0 ∧ next s = .ok s' := by
  unfold flushLoop at hs
  split at hs
  · split at hs
    · rename_i hu
      split at hs
      · rename_i r
        obtain ⟨s1, h1, h2⟩ := bind_ok.mp hs
        cases h2
        exact .inl ⟨hu.1, hu.2, r, s1, rfl, h1, rfl⟩
      · cases hs
    · rename_i hu
      split at hs
      · split at hs
        · rename_i hn
          exact .inr (.inl ⟨hn, not_lt.mp fun hlt => hu ⟨hn, hlt⟩, hs⟩)
        · rename_i hn
          exact .inr (.inr ⟨not_not.mp hn, hs⟩)
      · cases hs
  · cases hs

theorem step_flush {s s' : State} (hk : Killing s) {pc : ℕ → KillPc} {iter : ℕ} (hpc : pc = .flush ∨ pc = .flushCancel)
    (h : s.killPc = some (pc iter)) {c : Choice} (hs : step s c = .ok s') :
    (s.ev.ring.unpublished ≠ 0 ∧ iter < maxIter ∧ ∃ r s1, c = .sub r ∧ s.submitQueuedEntries r = .ok s1 ∧
        s' = s1.setBody 0 (.killInternal (pc (iter + 1)))) ∨
      (s.ev.ring.unpublished ≠ 0 ∧ maxIter ≤ iter ∧ s.finish 0 (some (u64 (-1))) = .ok s') ∨
      s.ev.ring.unpublished = 0 ∧ s.PassesCheck s' := by
  obtain ⟨rest, hst, hb⟩ := of_killPc hk h
  rw [step_run hst] at hs
  have hset : ∀ pc : KillPc, (s.setBody 0 (.killInternal pc)).killPc = some pc := fun pc =>
    killPc_eq hst (by simp [State.setBody, modCoro])
  have hloop : ∃ ret next, s.flushLoop 0 pc iter ret next = .ok s' ∧ (∀ r, ret = some r → c = .sub r) ∧
      (next s = .ok s' → s.PassesCheck s') := by
    have hpass : ∀ {ret : Option ℤ}, s.killInternal 0 (pc iter) ret = .ok s' →
        ∃ next, s.flushLoop 0 pc iter ret next = .ok s' ∧ (next s = .ok s' → s.PassesCheck s') := by
      intro ret h1
      rcases hpc with rfl | rfl <;> simp only [killInternal] at h1
      · refine ⟨_, h1, fun h2 => ?_⟩
        cases h2
        exact ⟨iter, .inl ⟨h, hset _⟩⟩
      · refine ⟨_, h1, fun h2 => ?_⟩
        cases h2
        exact ⟨iter, .inr ⟨h, hset _⟩⟩
    unfold bodyStep at hs
    rw [hb] at hs
    cases c with
    | tau =>
      obtain ⟨next, h1, h2⟩ := hpass hs
      exact ⟨none, next, h1, by simp, h2⟩
    | sub r =>
      obtain ⟨next, h1, h2⟩ := hpass hs
      exact ⟨some r, next, h1, by simp, h2⟩
    | message | cqe | waitErr | pick | user => rcases hpc with rfl | rfl <;> cases hs
  obtain ⟨ret, next, h1, hret, hnext⟩ := hloop
  rcases flushLoop_ok h1 with ⟨hu, hi, r, s1, hr, h2, h3⟩ | ⟨hu, hi, h2⟩ | ⟨hu, h2⟩
  · exact .inl ⟨hu, hi, r, s1, hret r hr, h2, h3⟩
  · exact .inr (.inl ⟨hu, hi, h2⟩)
  · exact .inr (.inr ⟨hu, hnext h2⟩)

end State

/-- Where a check would pass, the next step of `kill_internal` passes it. -/
theorem passes_of_unpublished {s : State} {pc : ℕ → KillPc} {iter : ℕ} (hpc : pc = .flush ∨ pc = .flushCancel)
    {rest : List Activation} (hst : s.stack = .run 0 :: rest) (hb : (s.coros 0).body = .killInternal (pc iter))
    (hup : s.ev.ringUp = true) (hu : s.ev.ring.unpublished = 0) :
    ∃ s', State.step s .tau = .ok s' ∧ s.PassesCheck s' := by
  have hset : ∀ pc : KillPc, (s.setBody 0 (.killInternal pc)).killPc = some pc := fun pc =>
    killPc_eq hst (by simp [State.setBody, modCoro])
  have hk := killPc_eq hst hb
  rcases hpc with rfl | rfl
  · refine ⟨s.setBody 0 (.killInternal .cancel), ?_, iter, .inl ⟨hk, hset _⟩⟩
    rw [step_run hst]
    unfold bodyStep
    rw [hb]
    simp [State.killInternal, flushLoop, hup, hu]
  · refine ⟨s.setBody 0 (.killInternal .wait), ?_, iter, .inr ⟨hk, hset _⟩⟩
    rw [step_run hst]
    unfold bodyStep
    rw [hb]
    simp [State.killInternal, flushLoop, hup, hu]

section

variable {s s' : State} {c : Choice}

theorem running_of_killPc (hreach : Reachable s) {pc : KillPc} (h : s.killPc = some pc) :
    (s.coros 0).place = .running := by
  obtain ⟨rest, hst, -⟩ := of_killPc hreach.killing h
  exact hreach.sound.place_of_top hst

theorem killPc_finish (hreach : Reachable s) {pc : KillPc} (h : s.killPc = some pc) (hs : State.step s c = .ok s')
    {ret : Option ℕ} (hf : s.finish 0 ret = .ok s') (pc' : KillPc) : s'.killPc ≠ some pc' := by
  intro h'
  obtain ⟨rest, hst, -⟩ := of_killPc hreach.killing h
  have hrun := running_of_killPc (hreach.step hs) h'
  rw [place_finish (hreach.sound.coherent hst (by simp)) hst hf] at hrun
  cases hrun

theorem killPc_submit (hk : Killing s) {pc pc' : KillPc} (h : s.killPc = some pc) {r : ℤ} {s1 : State}
    (hs : s.submitQueuedEntries r = .ok s1) : (s1.setBody 0 (.killInternal pc')).killPc = some pc' := by
  obtain ⟨rest, hst, -⟩ := of_killPc hk h
  have hst1 : s1.stack = .run 0 :: rest := (submitQueuedEntries_stack hs).1.trans hst
  exact killPc_eq hst1 (by simp [State.setBody, modCoro])

namespace Flushed

theorem pending_eq_nil (hf : Flushed s) (hreach : Reachable s) {pc : ℕ → KillPc} {iter : ℕ}
    (hpc : pc = .flush ∨ pc = .flushCancel) (h : s.killPc = some (pc iter)) (hu : s.ev.ring.unpublished = 0) :
    s.ev.ring.pending = [] := by
  obtain ⟨rest, -, hb⟩ := of_killPc hreach.killing h
  refine hf.check iter (running_of_killPc hreach h) ?_ hu
  rcases hpc with rfl | rfl
  · exact .inl hb
  · exact .inr hb

theorem passes (hf : Flushed s) (hreach : Reachable s) (hs : State.step s c = .ok s') (hp : s.PassesCheck s') :
    s.ev.ring.pending = [] := by
  have key : ∀ {pc : ℕ → KillPc} {pc' : KillPc} {iter : ℕ}, pc = .flush ∨ pc = .flushCancel →
      s.killPc = some (pc iter) → s'.killPc = some pc' → pc' ≠ pc (iter + 1) → s.ev.ring.pending = [] := by
    intro pc pc' iter hpc h1 h2 hne
    rcases step_flush hreach.killing hpc h1 hs with ⟨-, -, r, s1, -, h3, rfl⟩ | ⟨-, -, h3⟩ | ⟨hu, -⟩
    · have h4 : (s1.setBody 0 (.killInternal (pc (iter + 1)))).killPc = some (pc (iter + 1)) :=
        killPc_submit hreach.killing h1 h3
      exact absurd (Option.some.inj (h2.symm.trans h4)) hne
    · exact absurd h2 (killPc_finish hreach h1 hs h3 pc')
    · exact hf.pending_eq_nil hreach hpc h1 hu
  obtain ⟨iter, ⟨h1, h2⟩ | ⟨h1, h2⟩⟩ := hp
  · exact key (.inl rfl) h1 h2 (by simp)
  · exact key (.inr rfl) h1 h2 (by simp)

/-- While something is pending, a flush loop submits again or gives up. -/
theorem submits_or_fails (hf : Flushed s) (hreach : Reachable s) {pc : ℕ → KillPc} {iter : ℕ}
    (hpc : pc = .flush ∨ pc = .flushCancel) (h : s.killPc = some (pc iter)) (hne : s.ev.ring.pending ≠ [])
    (hs : State.step s c = .ok s') :
    (iter < maxIter ∧ (∃ ret, c = .sub ret) ∧ s'.killPc = some (pc (iter + 1))) ∨
      maxIter ≤ iter ∧ s.finish 0 (some (u64 (-1))) = .ok s' := by
  rcases step_flush hreach.killing hpc h hs with ⟨-, hi, r, s1, hc, h2, rfl⟩ | ⟨-, hi, h2⟩ | ⟨hu, -⟩
  · exact .inl ⟨hi, ⟨r, hc⟩, killPc_submit hreach.killing h h2⟩
  · exact .inr ⟨hi, h2⟩
  · exact absurd (hf.pending_eq_nil hreach hpc h hu) hne

end Flushed

/-- A step that breaks the condition is the beginning of `kill_internal`, where all is published and something is
pending, or a submit that does not take all. -/
theorem of_not_flushesAll (hreach : Reachable s) (hall : ¬ s.FlushesAll c) (hs : State.step s c = .ok s') :
    ∃ rest pc iter, (pc = KillPc.flush ∨ pc = .flushCancel) ∧ s'.stack = .run 0 :: rest ∧
    (s'.coros 0).body = .killInternal (pc iter) ∧ s'.ev.ringUp = true ∧
      s'.ev.ring.unpublished = 0 ∧ s'.ev.ring.pending ≠ [] := by
  have hk := hreach.killing
  have hpc : s.killPc.isSome = true := by
    unfold FlushesAll at hall
    split at hall <;> simp_all
  obtain ⟨pc, hpc⟩ := Option.isSome_iff_exists.mp hpc
  obtain ⟨rest, hst, hb⟩ := of_killPc hk hpc
  rcases step_killRet hk hst hs with ⟨pc', rfl, hb', hstep⟩ | ⟨pc', ret, rfl, hb', hstep⟩
  · simp only [FlushesAll, not_forall] at hall
    obtain ⟨hbegin, hres, hu, hne⟩ := hall
    obtain rfl : pc' = .begin := by
      rw [hpc] at hbegin
      rw [hb] at hb'
      simp_all
    rcases hstep.of_begin with ⟨-, rfl⟩ | ⟨hl, -⟩
    · refine ⟨rest, .flush, 0, .inl rfl, hst, by simp [State.setBody, modCoro], ?_, hu, fun he => hne ?_⟩
      · show s.ev.ringUp = true
        by_contra hup
        have hd := hreach.counted.ringUp.mp (Bool.not_eq_true _ ▸ hup)
        rw [shouldRestrictUsage, hd] at hres
        cases hres
      · exact List.length_eq_zero_iff.mpr he
    · unfold shouldRestrictUsage at hres
      generalize s.ev.managerLifeState = l at hl hres
      cases l <;> simp [LivingState.rank] at hl hres
  · have hne : ret ≠ s.ev.ring.pending.length := fun he => hall fun _ => he
    generalize hr : some ret = o at hstep
    cases hstep with
    | @submit pc iter ret' s1 hf hu h1 =>
      cases hr
      obtain ⟨hup, -, hle, rfl⟩ := submitQueuedEntries_ok h1
      refine ⟨rest, pc, iter + 1, hf, hst, by simp [State.setBody, modCoro], hup, s.ev.ring.submit_unpublished _, ?_⟩
      show (s.ev.ring.submit ret.toNat).pending ≠ []
      have hu1 : s.ev.ring.sqeTail - s.ev.ring.sqeHead ≠ 0 := hu
      have hk := s.ev.ring.khead_le
      rw [Uring.length_pending] at hne hle
      rw [← List.length_pos_iff, Uring.submit_pending, List.length_drop, Uring.length_pending]
      omega
    | begin | flushed | cancel | cancelled | wait | exit | fail => cases hr

end

/-- **The flush checks of `kill_internal`.**  In a run where `kill_internal` finds all that was published taken when it
begins with nothing to publish, and where each of its submits takes all, it passes a check only when nothing is pending,
and otherwise submits again up to `MAX_ITER` times and then returns -1; and a manager that is DEAD has left nothing in
the ring.  A step that breaks the condition leads straight to a check that is passed while something is pending. -/
theorem kill_flushes {s : State} :
    (Reach State.FlushesAll s →
      (∀ c s', State.step s c = .ok s' → s.PassesCheck s' → s.ev.ring.pending = []) ∧
      (∀ (pc : ℕ → KillPc) iter c s', pc = .flush ∨ pc = .flushCancel → s.killPc = some (pc iter) →
        s.ev.ring.pending ≠ [] → State.step s c = .ok s' →
        (iter < maxIter ∧ (∃ ret, c = .sub ret) ∧ s'.killPc = some (pc (iter + 1))) ∨
          maxIter ≤ iter ∧ s.finish 0 (some (u64 (-1))) = .ok s') ∧
      (s.ev.managerLifeState = .dead → s.ev.ring.pending = [])) ∧
    (Reachable s → ∀ c s', ¬ s.FlushesAll c → State.step s c = .ok s' →
      s'.ev.ring.pending ≠ [] ∧ ∃ s'', State.step s' .tau = .ok s'' ∧ s'.PassesCheck s'') := by
  refine ⟨fun h => ?_, fun h c s' hall hs => ?_⟩
  · have hf := flushed_of_reach h
    exact ⟨fun c s' hs hp => hf.passes h.reachable hs hp,
      fun pc iter c s' hpc h1 hne hs => hf.submits_or_fails h.reachable hpc h1 hne hs, hf.dead⟩
  · obtain ⟨rest, pc, iter, hpc, hst, hb, hup, hu, hne⟩ := of_not_flushesAll h hall hs
    exact ⟨hne, passes_of_unpublished hpc hst hb hup hu⟩

/-- A run that ends with the manager DEAD and nothing in its ring, and one whose first flush submit takes nothing: the
check is passed all the same. -/
theorem kill_flushes_dead : (∃ s : State, s.ev.managerLifeState = .dead ∧ s.ev.ring.pending = []) ∧
    ∃ s s' : State, s.PassesCheck s' ∧ s.ev.ring.pending ≠ [] := by
  constructor
  · have he : (exec step FlushesAll (init 4) [.user .call, .user (.startTask 0),
        .user (.awaitOp (.read ⟨3, 100, 8⟩)), .sub 1, .tau, .user .start, .message 0, .cqe 0 8 0, .user .kill,
        .user (.startTask 1), .tau, .tau, .tau, .tau, .sub 1, .tau, .tau, .tau, .tau, .tau,
        .user (.coReturn 0), .tau, .tau, .tau, .tau, .message 0, .cqe 0 0 0, .tau, .tau, .tau, .tau, .tau,
        .tau]).map (fun s =>
        decide (s.ev.managerLifeState = .dead)) = some true := by decide
    obtain ⟨s, hreach, hs⟩ := Reach.of_exec (.up 4) he
    have hd := of_decide_eq_true hs
    exact ⟨s, hd, (kill_flushes.1 hreach).2.2 hd⟩
  · have he : (exec step (fun _ _ => True) (init 4) [.user .getUringSqe, .user .kill, .user (.startTask 0), .tau,
        .tau]).map (fun s => decide (¬ s.FlushesAll (.sub 0) ∧ (step s (.sub 0)).isOk = true)) = some true := by decide
    obtain ⟨s, hreach, hs⟩ := Reach.of_exec (.up 4) he
    obtain ⟨hn, hok⟩ := of_decide_eq_true hs
    rcases h1 : step s (.sub 0) with e | s'
    · rw [h1] at hok
      cases hok
    · obtain ⟨hne, s'', -, hp⟩ := kill_flushes.2 hreach _ _ hn h1
      exact ⟨s', s'', hp, hne⟩

/-- An entry that nobody awaits is taken in place of one that was queued by `read`, so that the read is never taken: the
submit for the cancel request takes nothing, and the manager is DEAD while the coroutine that reads is suspended. -/
theorem kill_flushes_fails : ¬ ∀ s : State, Reachable s →
    (∀ c s', State.step s c = .ok s' → s.PassesCheck s' → s.ev.ring.pending = []) ∧
      (s.ev.managerLifeState = .dead → ∀ h r, (s.coros h).place = .atIo r →
        ∀ x ∈ s.ev.ring.pending, x.sqe.userData ≠ some r) := by
  intro hall
  have he : (exec step (fun _ _ => True) (init 4) [.user .getUringSqe, .user (.na (.read {}) 1), .user .call,
      .user (.startTask 0), .user (.awaitOp (.read ⟨3, 100, 8⟩)), .sub 1, .tau, .user .poll,
      .user (.startTask 1), .tau, .tau, .user .start, .message 0, .cqe 0 0 0, .tau, .message 0, .cqe 0 8 0, .tau,
      .message 0, .user .kill, .user (.startTask 2), .tau, .tau, .tau, .tau, .sub 0, .tau, .tau]).map (fun s =>
      decide (s.ev.managerLifeState = .dead ∧ (s.coros 1).place = .atIo 1 ∧
        s.ev.ring.pending.any (fun x => x.sqe.userData = some 1) = true)) = some true := by decide
  obtain ⟨s, hreach, hs⟩ := Reach.of_exec (.up 4) he
  obtain ⟨hd, hp, hm⟩ := of_decide_eq_true hs
  obtain ⟨x, hx, hu⟩ := List.any_eq_true.mp hm
  exact (hall s hreach).2 hd 1 1 hp x hx (of_decide_eq_true hu)

end EvManager
