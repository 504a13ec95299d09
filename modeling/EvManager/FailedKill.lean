import EvManager.Flushing

/-!
# A kill that fails

`await_message` resumes the kill task whenever the manager is DYING.  **`failed_kill`**: as long as the cancel request
gets its entry, `kill_internal` waits there whenever it is resumed and fails only where it changes nothing; without an
entry it ends and leaves the manager DYING.
-/

namespace EvManager

open Lib State

namespace State

/-- When `kill_internal` asks for an entry for the cancel request, the ring has one. -/
def CancelEntry (s : State) (_ : Choice) : Prop :=
  s.killPc = some .cancel → s.ev.ring.pending.length < s.ev.ring.entries

instance (s : State) (c : Choice) : Decidable (s.CancelEntry c) := by unfold CancelEntry; infer_instance

/-- From `s` to `s'` `kill_internal` returns -1. -/
def KillFails (s s' : State) : Prop := s.killPc.isSome = true ∧ s.finish 0 (some (u64 (-1))) = .ok s'

/-- A full ring has no entry however often one asks. -/
theorem cancelSqe_full {s s1 : State} {n : ℕ} (hfull : s.ev.ring.entries ≤ s.ev.ring.pending.length) {j : Option ℕ}
    (hs : s.cancelSqe n = .ok (j, s1)) : j = none ∧ s1 = s := by
  rcases cancelSqe_ok hs with h1 | h1
  · exact h1
  · cases j with
    | none => exact ⟨rfl, ioUringGetSqe_none h1⟩
    | some j =>
      obtain ⟨ring, -, hr, -⟩ := ioUringGetSqe_some h1
      rw [Uring.length_pending] at hfull
      rw [Uring.getSqe_eq_none.mpr hfull] at hr
      cases hr

theorem cancelSqe_room {s s1 : State} (hroom : s.ev.ring.pending.length < s.ev.ring.entries) {j : Option ℕ}
    (hs : s.cancelSqe maxIter = .ok (j, s1)) : j ≠ none := by
  rintro rfl
  have h1 : s.ioUringGetSqe .cancel = .ok (none, s1) := by
    have hn : maxIter = 999 + 1 := rfl
    rw [hn, cancelSqe] at hs
    obtain ⟨⟨j, s2⟩, h1, h2⟩ := bind_ok.mp hs
    cases j with
    | some j => cases h2
    | none =>
      obtain rfl := ioUringGetSqe_none h1
      rcases cancelSqe_ok h2 with ⟨-, rfl⟩ | h3
      · exact h1
      · exact h3
  unfold ioUringGetSqe at h1
  split at h1
  · split at h1
    · cases h1
    · rename_i hr
      have h2 := Uring.getSqe_eq_none.mp hr
      rw [Uring.length_pending] at hroom
      omega
  · cases h1

theorem step_cancel {s s' : State} (hk : Killing s) (h : s.killPc = some .cancel) {c : Choice}
    (hs : step s c = .ok s') :
    (s.ev.ring.pending.length < s.ev.ring.entries ∧ ∃ j s1, s.ioUringGetSqe .cancel = .ok (some j, s1) ∧
        s' = (s1.writeSqe j (Slot.prep (ioUringPrepCancel 0 cancelFlags))).setBody 0 (.killInternal (.flushCancel 0))) ∨
      s.ev.ring.entries ≤ s.ev.ring.pending.length ∧ s.finish 0 (some (u64 (-1))) = .ok s' := by
  obtain ⟨rest, hst, hb⟩ := of_killPc hk h
  rw [step_run hst] at hs
  unfold bodyStep at hs
  rw [hb] at hs
  cases c with
  | tau =>
    obtain ⟨⟨j, s1⟩, h1, h2⟩ := bind_ok.mp hs
    by_cases hroom : s.ev.ring.pending.length < s.ev.ring.entries
    · left
      refine ⟨hroom, ?_⟩
      cases j with
      | none => exact absurd rfl (cancelSqe_room hroom h1)
      | some j =>
        cases h2
        rcases cancelSqe_ok h1 with ⟨hj, -⟩ | h3
        · cases hj
        · exact ⟨j, s1, h3, rfl⟩
    · right
      refine ⟨not_lt.mp hroom, ?_⟩
      obtain ⟨rfl, rfl⟩ := cancelSqe_full (not_lt.mp hroom) h1
      exact h2
  | sub | message | cqe | waitErr | pick | user => cases hs

/-! ### How the manager comes to be DYING, and `kill_internal` to run -/

section

variable {s s' : State} {c : Choice}

/-- A manager is DYING when it was so before the step, or when `kill_internal` begins. -/
theorem dying_or_begin (hreach : Reachable s) (hs : State.step s c = .ok s') (hd : s'.ev.managerLifeState = .dying) :
    s.ev.managerLifeState = .dying ∨ s.killPc = some .begin := by
  cases step_lifeEffect hs with
  | same hl => exact .inl (hl ▸ hd)
  | start _ hl =>
    rw [hl] at hd
    cases hd
  | @dying x rest hst hb =>
    obtain rfl := (hreach.killing.only x).mp (by rw [hb]; rfl)
    exact .inr (killPc_eq hst hb)
  | dead _ hl =>
    rw [hl] at hd
    cases hd

/-- Out of its wait, `kill_internal` comes by a completion only. -/
theorem always_or_seen (hreach : Reachable s) (hs : State.step s c = .ok s') (hp : (s.coros 0).place = .atAlways) :
    (s'.coros 0).place = .atAlways ∨
      (s'.coros 0).place = .running ∧ (s'.coros 0).body = .killInternal .wait := by
  have hsus := tasks_suspending hreach.sound
  rcases (step_tasks hreach.sound hreach.killing hs).place_of_always hsus (h := 0) hp with h1 | h1 | ⟨v, h1⟩
  · exact .inl h1
  · obtain ⟨rfl, rest, hst⟩ := of_label_seen h1
    have hc := hreach.sound.coherent hst (by simp)
    rcases awaitSeen_ok hc hreach.killing (step_awaitSeen hst hs) with ⟨-, -, rfl⟩ | ⟨hn, -⟩
    · have hfits := hreach.sound.records.fits 0
      rw [hp] at hfits
      refine .inr ⟨by simp [enter, push, State.setPlace, modCoro], (body_enter 0 0).trans ?_⟩
      exact of_decide_eq_true hfits
    · exact absurd (hreach.killPlace.always hp).1 hn
  · exact absurd rfl (overwritten_ne_kill hreach.sound.linked h1)

/-- Where another's step leaves `kill_internal` running, it is at its beginning or at its wait. -/
theorem runs_begin_or_wait (hreach : Reachable s) (htop : ∀ rest, s.stack ≠ .run 0 :: rest)
    (hs : State.step s c = .ok s') (hp : (s'.coros 0).place = .running) :
    (s.coros 0).place = .initial ∧ (s'.coros 0).body = .killInternal .begin ∨
      (s'.coros 0).body = .killInternal .wait := by
  refine (hreach.killPlace.wakes hreach htop hs hp).imp_right fun h1 => ?_
  rcases always_or_seen hreach hs h1 with h2 | ⟨-, h2⟩
  · rw [hp] at h2
    cases h2
  · exact h2

end

end State

/-- The manager is DYING from the beginning of `kill_internal` to its end, and what a flush loop has submitted is
published. -/
structure KillOpen (s : State) : Prop where
  dying : s.ev.managerLifeState = .dying → (s.coros 0).place = .running ∨ (s.coros 0).place = .atAlways
  begin : (s.coros 0).place = .running → (s.coros 0).body = .killInternal .begin → s.ev.managerLifeState ≠ .dying
  published : ∀ iter, (s.coros 0).place = .running →
    ((s.coros 0).body = .killInternal (.flush (iter + 1)) ∨
      (s.coros 0).body = .killInternal (.flushCancel (iter + 1))) →
    s.ev.ring.unpublished = 0

namespace KillOpen

variable {s s' : State}

theorem init (hi : State.Initial s) : KillOpen s := by
  have hp : (s.coros 0).place = .initial := by rw [hi.place, if_pos rfl]
  refine ⟨fun hd => ?_, fun h1 => ?_, fun _ h1 => ?_⟩
  · cases hi <;> cases hd
  · rw [hp] at h1
    cases h1
  · rw [hp] at h1
    cases h1

theorem flush_ok (h : KillOpen s) (hreach : Reachable s) {pc : ℕ → KillPc} {iter : ℕ}
    (hpc : pc = .flush ∨ pc = .flushCancel)
    (hk : s.killPc = some (pc iter)) (hi : maxIter ≤ iter) : s.ev.ring.unpublished = 0 := by
  obtain ⟨rest, hst, hb⟩ := of_killPc hreach.killing hk
  obtain ⟨i, rfl⟩ : ∃ i, iter = i + 1 := ⟨iter - 1, by unfold maxIter at hi; omega⟩
  refine h.published i (hreach.sound.place_of_top hst) ?_
  rcases hpc with rfl | rfl
  · exact .inl hb
  · exact .inr hb

/-- **When `kill_internal` fails**: at its beginning, where it has changed nothing, or for want of an entry. -/
theorem fails (h : KillOpen s) (hreach : Reachable s) {c : Choice} (hs : State.step s c = .ok s')
    (hf : s.KillFails s') :
    s.killPc = some .begin ∨ s.killPc = some .cancel ∧ s.ev.ring.entries ≤ s.ev.ring.pending.length := by
  have hk := hreach.killing
  obtain ⟨hsome, hfin⟩ := hf
  obtain ⟨pc, hpc⟩ := Option.isSome_iff_exists.mp hsome
  obtain ⟨rest, hst, hb⟩ := of_killPc hk hpc
  have hc := hreach.sound.coherent hst (by simp)
  have hfinal := place_finish hc hst hfin
  have hrun := hreach.sound.place_of_top hst
  have hplace : ∀ {u : State} {b : Body}, u.coros = s.coros → s' = u.setBody 0 b → False := by
    rintro u b h1 rfl
    have h2 : ((u.setBody 0 b).coros 0).place = .running := by simp [State.setBody, modCoro, h1, hrun]
    rw [hfinal] at h2
    cases h2
  have hflush : ∀ {pc : ℕ → KillPc} {iter : ℕ}, pc = .flush ∨ pc = .flushCancel →
      s.killPc = some (pc iter) → False := by
    intro pc iter hpc h1
    rcases step_flush hk hpc h1 hs with ⟨-, -, r, s1, -, h2, h3⟩ | ⟨hu, hi, -⟩ | ⟨-, i, h2⟩
    · exact hplace (submitQueuedEntries_stack h2).2 h3
    · exact hu (h.flush_ok hreach hpc h1 hi)
    · rcases h2 with ⟨-, h2⟩ | ⟨-, h2⟩
      · exact killPc_finish hreach h1 hs hfin _ h2
      · exact killPc_finish hreach h1 hs hfin _ h2
  cases pc with
  | begin => exact .inl hpc
  | flush iter => exact (hflush (.inl rfl) hpc).elim
  | flushCancel iter => exact (hflush (.inr rfl) hpc).elim
  | cancel =>
    rcases step_cancel hk hpc hs with ⟨-, j, s1, h1, h2⟩ | ⟨hfull, -⟩
    · obtain ⟨ring, -, -, rfl⟩ := ioUringGetSqe_some h1
      exact (hplace (u := (s.setRing ring).writeSqe _ _) rfl h2).elim
    · exact .inr ⟨hpc, hfull⟩
  | wait =>
    exfalso
    obtain ⟨pc', ret, hb', hstep⟩ := step_kill hk hst hs
    obtain rfl : pc' = .wait := by
      rw [hb] at hb'
      simpa using hb'.symm
    rcases hstep.of_wait with ⟨-, rfl⟩ | ⟨-, h1⟩
    · simp [suspend, State.setPlace, State.pop, modCoro] at hfinal
    · have hdead := (Quiet.finish (by exact hst) h1).life
      have hsame := (Quiet.finish hst hfin).life
      have hdying := hreach.killPlace.dying hrun (by rw [hb]; simp)
      rw [hdying, hdead] at hsame
      cases hsame

theorem goes (h0 : (s.coros 0).place = .running) {u : State} {pc : KillPc} (hu : u.coros = s.coros) (hne : pc ≠ .begin)
    (hpub : ∀ iter, pc = .flush (iter + 1) ∨ pc = .flushCancel (iter + 1) → u.ev.ring.unpublished = 0) :
    KillOpen (u.setBody 0 (.killInternal pc)) := by
  have hp : ((u.setBody 0 (.killInternal pc)).coros 0).place = .running := by simp [State.setBody, modCoro, hu, h0]
  have hb : ((u.setBody 0 (.killInternal pc)).coros 0).body = .killInternal pc := by simp [State.setBody, modCoro]
  refine ⟨fun _ => .inl hp, fun _ h1 => ?_, fun iter _ h1 => ?_⟩
  · rw [hb] at h1
    exact absurd (Body.killInternal.inj h1) hne
  · refine hpub iter ?_
    rw [hb] at h1
    exact h1.imp Body.killInternal.inj Body.killInternal.inj

/-- A `kill_internal` that is not running leaves the manager DYING only while it waits. -/
theorem rests (hp : (s.coros 0).place ≠ .running)
    (hd : s.ev.managerLifeState = .dying → (s.coros 0).place = .atAlways) : KillOpen s :=
  ⟨fun h1 => .inr (hd h1), fun h1 => absurd h1 hp, fun _ h1 => absurd h1 hp⟩

theorem own (h : KillOpen s) (hreach : Reachable s) {c : Choice} (hcond : s.CancelEntry c) {rest : List Activation}
    (hst : s.stack = .run 0 :: rest) (hs : State.step s c = .ok s') : KillOpen s' := by
  have hrun := hreach.sound.place_of_top hst
  have hc := hreach.sound.coherent hst (by simp)
  obtain ⟨pc, ret, hb, hstep⟩ := step_kill hreach.killing hst hs
  have hpc := killPc_eq hst hb
  -- where it ends the manager is not DYING
  have hends : (s'.coros 0).place = .final → s'.ev.managerLifeState ≠ .dying → KillOpen s' := by
    intro hp hd
    exact rests (by rw [hp]; simp) fun h1 => absurd h1 hd
  cases hstep with
  | begin hl => exact goes hrun (u := s.modEv _) rfl (by simp) (by simp)
  | @submit pc iter ret s1 hpc' hu h1 =>
    obtain ⟨-, -, -, rfl⟩ := submitQueuedEntries_ok h1
    refine goes hrun (u := s.modEv _) rfl ?_ fun _ _ => s.ev.ring.submit_unpublished _
    rcases hpc' with rfl | rfl <;> simp
  | flushed => exact goes hrun rfl (by simp) (by simp)
  | cancel h1 =>
    obtain ⟨ring, -, -, rfl⟩ := ioUringGetSqe_some h1
    exact goes hrun (u := (s.setRing ring).writeSqe _ _) rfl (by simp) (by simp)
  | cancelled => exact goes hrun rfl (by simp) (by simp)
  | wait =>
    have hp : ((s.suspend 0 .atAlways).coros 0).place = .atAlways := by
      simp [suspend, State.setPlace, State.pop, modCoro]
    exact rests (by rw [hp]; simp) fun _ => hp
  | exit _ h1 =>
    refine hends (place_finish (hc.modEv (f := fun ev => { ev with managerLifeState := .dead, ringUp := false })
      rfl rfl rfl rfl rfl) (by exact hst) h1) ?_
    rw [(Quiet.finish (by exact hst) h1).life]
    simp [modEv]
  | fail hne hl h1 =>
    refine hends (place_finish hc hst h1) ?_
    intro hd
    rw [(Quiet.finish hst h1).life] at hd
    rcases h.fails hreach hs ⟨by rw [hpc]; rfl, h1⟩ with h2 | ⟨h2, hfull⟩
    · rw [hpc] at h2
      obtain rfl := Option.some.inj h2
      exact h.begin hrun hb hd
    · have hfree := hcond h2
      omega

theorem other (h : KillOpen s) (hreach : Reachable s) {c : Choice} (htop : ∀ rest, s.stack ≠ .run 0 :: rest)
    (hs : State.step s c = .ok s') : KillOpen s' := by
  have hnot : (s.coros 0).place ≠ .running := by
    intro hrun
    obtain ⟨rest, hst⟩ := hreach.killPlace.top hrun
    exact htop rest hst
  have halways : s'.ev.managerLifeState = .dying → (s.coros 0).place = .atAlways := by
    intro hd
    refine (h.dying ((dying_or_begin hreach hs hd).resolve_right ?_)).resolve_left hnot
    intro h1
    obtain ⟨rest, hst, -⟩ := of_killPc hreach.killing h1
    exact htop rest hst
  refine ⟨fun hd => ?_, fun hp hb hd => ?_, fun iter hp hb => ?_⟩
  · exact (always_or_seen hreach hs (halways hd)).elim .inr fun h1 => .inl h1.1
  · have h1 := halways hd
    rcases runs_begin_or_wait hreach htop hs hp with ⟨h2, -⟩ | h2
    · rw [h1] at h2
      cases h2
    · rw [hb] at h2
      simp at h2
  · exfalso
    rcases runs_begin_or_wait hreach htop hs hp with ⟨-, h2⟩ | h2 <;> rw [h2] at hb <;> simp at hb

theorem step (h : KillOpen s) (hreach : Reachable s) {c : Choice} (hcond : s.CancelEntry c)
    (hs : State.step s c = .ok s') : KillOpen s' := by
  by_cases htop : ∃ rest, s.stack = .run 0 :: rest
  · obtain ⟨rest, hst⟩ := htop
    exact h.own hreach hcond hst hs
  · exact h.other hreach (fun rest hst => htop ⟨rest, hst⟩) hs

end KillOpen

theorem killOpen_of_reach {s : State} (h : Reach State.CancelEntry s) : KillOpen s :=
  h.inv_of (J := Reachable) (fun _ h1 => h1.reachable) (fun _ => KillOpen.init)
    fun _ _ _ hreach h1 hcond hs => h1.step hreach hcond hs

/-- **A kill that fails.**  In a run where the cancel request gets an entry whenever `kill_internal` asks for one,
`await_message` resumes the kill task only where `kill_internal` is suspended in its wait, and where `kill_internal`
returns -1 it leaves the life state as it found it.  Without an entry it returns -1 and leaves the manager DYING with
a kill task that has ended. -/
theorem failed_kill {s : State} :
    (Reach State.CancelEntry s →
      (∀ rest, s.stack = .awaitSeen :: rest → s.ev.managerLifeState = .dying →
        (s.coros 0).place = .atAlways ∧ (s.coros 0).body = .killInternal .wait) ∧
      (∀ c s', s.CancelEntry c → State.step s c = .ok s' → s.KillFails s' →
        s.killPc = some .begin ∧ s'.ev.managerLifeState = s.ev.managerLifeState)) ∧
    (Reachable s → ∀ c s', ¬ s.CancelEntry c → State.step s c = .ok s' →
      s.KillFails s' ∧ s'.ev.managerLifeState = .dying ∧ (s'.coros 0).place = .final) := by
  constructor
  · intro h
    have ho := killOpen_of_reach h
    have hreach := h.reachable
    refine ⟨fun rest hst hd => ?_, fun c s' hcond hs hf => ?_⟩
    · have hp : (s.coros 0).place = .atAlways := (ho.dying hd).resolve_left fun hr => by
        obtain ⟨rest', hst'⟩ := hreach.killPlace.top hr
        rw [hst] at hst'
        cases hst'
      have hfits := hreach.sound.records.fits 0
      rw [hp] at hfits
      exact ⟨hp, of_decide_eq_true hfits⟩
    · obtain ⟨pc, hpc⟩ := Option.isSome_iff_exists.mp hf.1
      obtain ⟨rest, hst, -⟩ := of_killPc hreach.killing hpc
      have hlife := (Quiet.finish hst hf.2).life
      rcases ho.fails hreach hs hf with h1 | ⟨h1, hfull⟩
      · exact ⟨h1, hlife⟩
      · exact absurd (hcond h1) (not_lt.mpr hfull)
  · intro hreach c s' hcond hs
    simp only [CancelEntry, not_forall] at hcond
    obtain ⟨hpc, hfull⟩ := hcond
    obtain ⟨rest, hst, hb⟩ := of_killPc hreach.killing hpc
    rcases step_cancel hreach.killing hpc hs with ⟨hroom, -⟩ | ⟨-, hfin⟩
    · exact absurd hroom hfull
    · refine ⟨⟨by rw [hpc]; rfl, hfin⟩, ?_, place_finish (hreach.sound.coherent hst (by simp)) hst hfin⟩
      rw [(Quiet.finish hst hfin).life]
      exact hreach.killPlace.dying (hreach.sound.place_of_top hst) (by rw [hb]; simp)

/-- A kill in the middle of a dispatch, at the end of which the kill task is resumed; and one that finds the only entry
of the ring occupied. -/
theorem failed_kill_waits : (∃ s : State, (s.coros 0).place = .atAlways ∧ ∃ rest, s.stack = .awaitSeen :: rest) ∧
    ∃ s s' : State, s.KillFails s' ∧ s'.ev.managerLifeState = .dying := by
  constructor
  · have he : (exec step CancelEntry (init 4) [.user .call, .user (.startTask 0),
        .user (.awaitOp (.read ⟨3, 100, 8⟩)), .sub 1, .tau, .user .start, .message 0, .cqe 0 8 0, .user .kill,
        .user (.startTask 1), .tau, .tau, .tau, .tau, .sub 1, .tau, .tau, .tau, .tau, .tau, .user (.coReturn 0), .tau,
        .tau]).map (fun s => decide (s.stack = [.awaitSeen, .start, .main] ∧ s.ev.managerLifeState = .dying)) =
        some true := by decide
    obtain ⟨s, hreach, hs⟩ := Reach.of_exec (.up 4) he
    obtain ⟨hst, hd⟩ := of_decide_eq_true hs
    exact ⟨s, ((failed_kill.1 hreach).1 _ hst hd).1, _, hst⟩
  · have he : (exec step (fun _ _ => True) (init 1) [.user .getUringSqe, .user .kill, .user (.startTask 0), .tau, .tau,
        .sub 0, .tau]).map (fun s => decide (¬ s.CancelEntry .tau ∧ (step s .tau).isOk = true)) = some true := by
      decide +kernel
    obtain ⟨s, hreach, hs⟩ := Reach.of_exec (.up 1) he
    obtain ⟨hn, hok⟩ := of_decide_eq_true hs
    rcases h1 : step s .tau with e | s'
    · rw [h1] at hok
      cases hok
    · obtain ⟨hf, hd, -⟩ := failed_kill.2 hreach _ _ hn h1
      exact ⟨s, s', hf, hd⟩

/-- The ring has one entry, which is occupied when a coroutine kills the manager: the kill fails, the manager stays
DYING, and the completion that is being dispatched ends with a resumption of the kill task, which is gone. -/
theorem failed_kill_fails : ¬ ∀ s : State, Reachable s →
    (∀ rest, s.stack = .awaitSeen :: rest → s.ev.managerLifeState = .dying →
      (s.coros 0).place = .atAlways ∧ (s.coros 0).body = .killInternal .wait) := by
  intro hall
  have he : (exec step (fun _ _ => True) (init 1) [.user .call, .user (.startTask 0),
      .user (.awaitOp (.read ⟨3, 100, 8⟩)), .sub 1, .tau, .user .start, .message 0, .cqe 0 8 0, .user .getUringSqe,
      .user .kill, .user (.startTask 1), .tau, .tau, .sub 0, .tau, .tau, .tau, .tau, .tau, .tau, .tau, .tau,
      .user (.coReturn 0), .tau, .tau]).map (fun s => decide (s.stack = [.awaitSeen, .start, .main] ∧
        s.ev.managerLifeState = .dying ∧ (s.coros 0).place = .gone)) = some true := by decide +kernel
  obtain ⟨s, hreach, hs⟩ := Reach.of_exec (.up 1) he
  obtain ⟨hst, hd, hp⟩ := of_decide_eq_true hs
  have h1 := (hall s hreach _ hst hd).1
  rw [hp] at h1
  cases h1

end EvManager
