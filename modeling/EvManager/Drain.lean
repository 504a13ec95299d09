import EvManager.KillInternal

/-!
# Shutdown drains the ring

While every submit takes all there is, nothing is pending when `kill_internal` waits, and nothing comes to be after
that.  **`kill_drains`**: from there on the counter is lowered once for each completion marked seen and never raised,
and the manager becomes DEAD with the completion that makes it zero.
-/

namespace EvManager

open Lib State

namespace State

/-- The step's `io_uring_submit`, if it calls it, takes all pending entries; an `_na` call adds its own first. -/
def TakesAll (s : State) : Choice → Prop
  | .sub ret | .user (.submitQueuedEntries ret) => ret = s.ev.ring.pending.length
  | .user (.na _ ret) => s.SqeAvailable → ret = s.ev.ring.pending.length + 1
  | _ => True

instance (s : State) (c : Choice) : Decidable (s.TakesAll c) := by
  unfold TakesAll
  split <;> infer_instance

end State

/-- What was published was taken. -/
theorem published_taken {s : State} (h : Reach State.TakesAll s) : s.ev.ring.khead = s.ev.ring.sqeHead := by
  refine h.inv (I := fun s => s.ev.ring.khead = s.ev.ring.sqeHead) (fun s hi => ?_) fun s c s' ih hall hs => ?_
  · cases hi <;> rfl
  · have hprep : ∀ {b : Bool} {r r' : Uring Slot}, Prepares b r r' → r.khead = r.sqeHead → r'.khead = r'.sqeHead :=
      fun hp h1 => hp.khead.trans (h1.trans hp.sqeHead.symm)
    cases step_ring hs with
    | prepare hp => exact hprep hp ih
    | cancel _ _ hp => exact hprep hp ih
    | reap _ hr | seen _ hr => rw [hr]; exact ih
    | @submit _ ret r _ hret hr hp _ hp' =>
      refine hprep hp' ?_
      -- the kernel takes as many as there are
      have hk := r.khead_le_tail
      have htake : ret.toNat = r.sqeTail - r.khead := by
        rcases hr with ⟨rfl, hna⟩ | ⟨⟨p, rfl⟩, htail, ha⟩
        · have h1 : ret = s.ev.ring.pending.length := by
            cases c with
            | sub => cases hret; exact hall
            | user a =>
              cases a with
              | submitQueuedEntries => cases hret; exact hall
              | na p ret' => exact absurd rfl (hna p ret')
              | _ => cases hret
            | _ => cases hret
          rw [h1, Uring.length_pending]
          rfl
        · have h1 : ret = s.ev.ring.pending.length + 1 := hall ha
          have h2 := hp.khead
          have h3 := s.ev.ring.khead_le_tail
          rw [Uring.length_pending] at h1
          omega
      show r.khead + min ret.toNat (r.sqeTail - r.khead) = r.sqeTail
      omega

/-- The end of `await_message` marks a completion seen. -/
theorem seen_of_awaitSeen {s s' : State} (h : Reachable s) (htop : ∃ rest, s.stack = .awaitSeen :: rest) {c : Choice}
    (hs : State.step s c = .ok s') : s'.seen = s.seen + 1 := by
  obtain ⟨rest, hst⟩ := htop
  rcases awaitSeen_ok (h.sound.coherent hst (by simp)) h.killing (step_awaitSeen hst hs) with ⟨-, -, rfl⟩ | ⟨-, rfl⟩ <;>
    rfl

/-- `register_coro` does not destroy `kill_internal`, whose task is not in the store. -/
theorem overwritten_ne_kill {s : State} (hl : Linked s) {c : Choice} {v : VarId} {x : CoroId}
    (hlab : s.label c = .registered v (some x)) : x ≠ 0 := by
  have hover : ∀ {pick : ℕ}, s.overwritten pick = some x → x ≠ 0 := by
    rintro pick h1 rfl
    unfold State.overwritten at h1
    split at h1
    · cases h1
    · split at h1
      · rename_i e he
        split at h1
        · cases h1
        · have h2 := hl.inj (.item pick) (.task .kill) e s.ev.killCoroTask 0 he rfl h1 hl.kill
          cases h2
      · cases h1
  have h1 := s.label_case c
  generalize s.label c = l at hlab h1
  cases h1 with
  | @main a | @handler _ a => cases a <;> simp [Act.label] at hlab
  | @body _ a => cases a <;> simp [Act.labelIn, Act.label] at hlab
  | registered =>
    simp only [TaskLabel.registered.injEq] at hlab
    exact hover hlab.2
  | throws | kill | seen | tail | tau => simp at hlab

/-- Nothing is pending, and `kill_internal` waits for what is in flight, or is about to look whether there is any,
or has ended. -/
structure Draining (s : State) : Prop where
  pending : s.ev.ring.pending = []
  kill : s.ev.managerLifeState = .dead ∨ s.ev.managerLifeState = .dying ∧ (s.coros 0).body = .killInternal .wait ∧
    ((s.coros 0).place = .atAlways ∨ ∃ rest, s.stack = .run 0 :: rest)

namespace Draining

variable {s s' : State}

theorem restricted (h : Draining s) : s.shouldRestrictUsage = true := by
  unfold shouldRestrictUsage
  rcases h.kill with hl | ⟨hl, -⟩ <;> rw [hl] <;> rfl

theorem counts (h : Draining s) (hreach : Reachable s) (hreach' : Reachable s') {c : Choice}
    (hs : State.step s c = .ok s') :
    s'.ev.ring.pending = [] ∧
      (((∀ rest, s.stack ≠ .awaitSeen :: rest) ∧ s'.seen = s.seen ∧ s'.ev.inFlightRequests = s.ev.inFlightRequests) ∨
        (∃ rest, s.stack = .awaitSeen :: rest) ∧ s'.seen = s.seen + 1 ∧
          s'.ev.inFlightRequests + 1 = s.ev.inFlightRequests) := by
  have hres := h.restricted
  have htail : s.ev.ring.sqeTail = s.ev.ring.khead := by
    have h1 := congrArg List.length h.pending
    have h2 := s.ev.ring.khead_le_tail
    rw [Uring.length_pending, List.length_nil] at h1
    omega
  have hpend : ∀ {r : Uring Slot}, r.khead = s.ev.ring.khead → r.sqeTail = s.ev.ring.sqeTail → r.pending = [] := by
    intro r h1 h2
    refine List.eq_nil_of_length_eq_zero ?_
    rw [Uring.length_pending]
    omega
  have htaken := hreach.counted.taken
  have htaken' := hreach'.counted.taken
  unfold State.taken at htaken htaken'
  have hring : s'.ev.ring.pending = [] ∧ s'.ev.ring.khead = s.ev.ring.khead ∧
      (s'.seen = s.seen ∨ (∃ rest, s.stack = .awaitSeen :: rest)) := by
    cases step_ring hs with
    | prepare hp hseen => exact ⟨hpend hp.khead (hp.same hres), hp.khead, .inl hseen⟩
    | @submit _ ret r _ hret hr hp hle hp' hseen =>
      -- nothing is handed out, so nothing is there to be taken
      have hr1 : r = s.ev.ring := by
        rcases hr with ⟨rfl, -⟩ | ⟨-, -, ha⟩
        · rfl
        · rw [ha.1] at hres
          cases hres
      subst hr1
      have h0 : ret.toNat = 0 := by
        rw [h.pending, List.length_nil] at hle
        omega
      have hk : (s.ev.ring.submit ret.toNat).khead = s.ev.ring.khead := by simp [h0]
      have hk' : s'.ev.ring.khead = s.ev.ring.khead := hp'.khead.trans hk
      exact ⟨hpend hk' (hp'.same hres), hk', .inl hseen⟩
    | reap _ hr hseen => exact ⟨by rw [hr]; exact h.pending, by rw [hr]; rfl, .inl hseen⟩
    | seen hst hr => exact ⟨by rw [hr]; exact h.pending, by rw [hr], .inr ⟨_, hst⟩⟩
    | cancel hst hb =>
      exfalso
      obtain rfl := (hreach.killing.only _).mp (by rw [hb]; rfl)
      rcases h.kill with hl | ⟨-, hb', -⟩
      · have h1 := hreach.killPlace.dying (hreach.sound.place_of_top hst) (by rw [hb]; simp)
        rw [hl] at h1
        cases h1
      · rw [hb] at hb'
        simp at hb'
  obtain ⟨hpending, hk, hseen⟩ := hring
  refine ⟨hpending, ?_⟩
  by_cases htop : ∃ rest, s.stack = .awaitSeen :: rest
  · have h1 := seen_of_awaitSeen hreach htop hs
    exact .inr ⟨htop, h1, by omega⟩
  · have h1 := hseen.resolve_right htop
    exact .inl ⟨fun rest hst => htop ⟨rest, hst⟩, h1, by omega⟩

theorem kill_step (h : Draining s) (hreach : Reachable s) (hreach' : Reachable s') {c : Choice}
    (hs : State.step s c = .ok s') :
    s'.ev.managerLifeState = .dead ∨ s'.ev.managerLifeState = .dying ∧ (s'.coros 0).body = .killInternal .wait ∧
      ((s'.coros 0).place = .atAlways ∨ ∃ rest, s'.stack = .run 0 :: rest) := by
  rcases h.kill with hl | ⟨hl, hb, hpl⟩
  · exact .inl (dead_of_step hs hl)
  have hwait : (s'.coros 0).place = .atAlways → s'.ev.managerLifeState = .dying ∧
      (s'.coros 0).body = .killInternal .wait ∧ (s'.coros 0).place = .atAlways := by
    intro hp
    have h1 := hreach'.sound.records.fits 0
    rw [hp] at h1
    exact ⟨(hreach'.killPlace.always hp).1, by simpa [Body.fits] using h1, hp⟩
  by_cases htop : ∃ rest, s.stack = .run 0 :: rest
  · obtain ⟨rest, hst⟩ := htop
    obtain ⟨pc, ret, hb', hk⟩ := step_kill hreach.killing hst hs
    have hpc : pc = .wait := by
      rw [hb] at hb'
      simpa using hb'.symm
    cases hk with
    | begin | flushed | cancel | cancelled => cases hpc
    | submit hf => rcases hf with rfl | rfl <;> cases hpc
    | wait =>
      obtain ⟨h1, h2, h3⟩ := hwait (by simp [suspend, State.setPlace, State.pop, modCoro])
      exact .inr ⟨h1, h2, .inl h3⟩
    | exit _ h1 => exact .inl (Quiet.finish (by exact hst) h1).life
    | fail hne => exact absurd hpc hne
  · have hp : (s.coros 0).place = .atAlways := hpl.resolve_right htop
    rcases (step_tasks hreach.sound hreach.killing hs).place_of_always (tasks_suspending hreach.sound) (h := 0) hp with
      h1 | h1 | ⟨v, h1⟩
    · obtain ⟨h2, h3, h4⟩ := hwait h1
      exact .inr ⟨h2, h3, .inl h4⟩
    · obtain ⟨rfl, rest, hst⟩ := of_label_seen h1
      have hs1 := step_awaitSeen hst hs
      rcases awaitSeen_ok (hreach.sound.coherent hst (by simp)) hreach.killing hs1 with ⟨-, -, rfl⟩ | ⟨hn, -⟩
      · exact .inr ⟨hl, (body_enter 0 0).trans hb, .inr ⟨_, rfl⟩⟩
      · exact absurd hl hn
    · exact absurd rfl (overwritten_ne_kill hreach.sound.linked h1)

theorem step (h : Draining s) (hreach : Reachable s) (hreach' : Reachable s') {c : Choice}
    (hs : State.step s c = .ok s') : Draining s' :=
  ⟨(h.counts hreach hreach' hs).1, h.kill_step hreach hreach' hs⟩

theorem of_always (h : Reachable s) (hp : (s.coros 0).place = .atAlways) (hpend : s.ev.ring.pending = []) :
    Draining s := by
  have h1 := h.sound.records.fits 0
  rw [hp] at h1
  exact ⟨hpend, .inr ⟨(h.killPlace.always hp).1, by simpa [Body.fits] using h1, .inl hp⟩⟩

end Draining

/-! ### The flush checks of `kill_internal` -/

namespace State

/-- The program counter of `kill_internal` when it is on top. -/
def killPc (s : State) : Option KillPc :=
  match s.stack with
  | .run h :: _ =>
    match (s.coros h).body with
    | .killInternal pc => some pc
    | _ => none
  | _ => none

theorem killPc_eq {s : State} {h : CoroId} {rest : List Activation} {pc : KillPc} (hst : s.stack = .run h :: rest)
    (hb : (s.coros h).body = .killInternal pc) : s.killPc = some pc := by
  unfold killPc
  simp only [hst, hb]

/-- When `kill_internal` begins, on a manager not past LIVING, and finds all published, all was taken; and each
`io_uring_submit` it calls takes all pending entries. -/
def FlushesAll (s : State) : Choice → Prop
  | .sub ret => s.killPc.isSome = true → ret = s.ev.ring.pending.length
  | _ => s.killPc = some .begin → s.shouldRestrictUsage = false → s.ev.ring.unpublished = 0 →
    s.ev.ring.pending.length = 0

instance (s : State) (c : Choice) : Decidable (s.FlushesAll c) := by
  unfold FlushesAll
  split <;> infer_instance

end State

/-- Where `kill_internal` has passed a check, and where it would pass the next one, nothing is pending. -/
structure Flushed (s : State) : Prop where
  check : ∀ iter, (s.coros 0).place = .running →
    ((s.coros 0).body = .killInternal (.flush iter) ∨ (s.coros 0).body = .killInternal (.flushCancel iter)) →
    s.ev.ring.unpublished = 0 → s.ev.ring.pending = []
  wait : (s.coros 0).place = .atAlways ∨ (s.coros 0).place = .running ∧ (s.coros 0).body = .killInternal .wait →
    s.ev.ring.pending = []
  dead : s.ev.managerLifeState = .dead → s.ev.ring.pending = []

namespace Flushed

variable {s s' : State}

theorem init (hi : State.Initial s) : Flushed s := by
  have hp : (s.coros 0).place = .initial := by rw [hi.place, if_pos rfl]
  have hpend : s.ev.ring.pending = [] := by cases hi <;> exact Uring.pending_init ..
  exact ⟨fun _ _ _ _ => hpend, fun _ => hpend, fun _ => hpend⟩

theorem of_pending (h : s.ev.ring.pending = []) : Flushed s :=
  ⟨fun _ _ _ _ => h, fun _ => h, fun _ => h⟩

theorem of_final (hp : (s.coros 0).place = .final) (hd : s.ev.managerLifeState = .dead → s.ev.ring.pending = []) :
    Flushed s := by
  refine ⟨fun _ h1 => ?_, fun h1 => ?_, hd⟩
  · rw [hp] at h1
    cases h1
  · rcases h1 with h1 | ⟨h1, -⟩ <;> rw [hp] at h1 <;> cases h1

/-- In a flush loop it is the check that counts. -/
theorem of_check {iter : ℕ} (hb : (s.coros 0).body = .killInternal (.flush iter) ∨
      (s.coros 0).body = .killInternal (.flushCancel iter)) (hp : (s.coros 0).place = .running)
    (hl : s.ev.managerLifeState ≠ .dead) (h : s.ev.ring.unpublished = 0 → s.ev.ring.pending = []) : Flushed s := by
  refine ⟨fun _ _ _ => h, fun h1 => ?_, fun hd => absurd hd hl⟩
  · rcases h1 with h1 | ⟨-, h1⟩
    · rw [hp] at h1
      cases h1
    · rcases hb with hb | hb <;> rw [hb] at h1 <;> simp at h1

theorem kill (h : Flushed s) (hreach : Reachable s) {rest : List Activation} (hst : s.stack = .run 0 :: rest)
    {pc : KillPc} {ret : Option ℤ} (hb : (s.coros 0).body = .killInternal pc)
    (hbegin : pc = .begin → ret = none → s.shouldRestrictUsage = false → s.ev.ring.unpublished = 0 →
      s.ev.ring.pending = [])
    (hret : ∀ r ∈ ret, r = s.ev.ring.pending.length) (hs : KillStep s 0 pc ret s') : Flushed s' := by
  have hc := hreach.sound.coherent hst (by simp)
  have hrun := hreach.sound.place_of_top hst
  have hbody : ∀ {u : State} {pc : KillPc}, ((u.setBody 0 (.killInternal pc)).coros 0).body = .killInternal pc := by
    intro u pc
    simp [State.setBody, modCoro]
  have hplace : ∀ {u : State} {b : Body}, u.coros = s.coros → ((u.setBody 0 b).coros 0).place = .running := by
    intro u b h1
    simp [State.setBody, modCoro, h1, hrun]
  have hdying : pc ≠ .begin → s.ev.managerLifeState ≠ .dead := by
    intro hpc hd
    have h1 := hreach.killPlace.dying hrun (by rw [hb]; simpa using hpc)
    rw [hd] at h1
    cases h1
  cases hs with
  | begin hl =>
    have hres : s.shouldRestrictUsage = false := by
      unfold shouldRestrictUsage
      generalize s.ev.managerLifeState = l at hl
      cases l <;> simp_all [LivingState.rank]
    exact of_check (.inl hbody) (hplace rfl) (by simp [State.setBody, modCoro, modEv]) (hbegin rfl rfl hres)
  | @submit pc iter ret s1 hpc hu h1 =>
    -- all is taken
    obtain ⟨-, -, -, rfl⟩ := submitQueuedEntries_ok h1
    have hr : ret.toNat = s.ev.ring.pending.length := by
      have h2 := hret ret rfl
      omega
    refine of_pending ?_
    show (s.ev.ring.submit ret.toNat).pending = []
    rw [Uring.submit_pending, hr, List.drop_length]
  | @flushed iter hu => exact of_pending (h.check iter hrun (.inl hb) hu)
  | @cancel j s1 h1 =>
    obtain ⟨ring, -, hr, rfl⟩ := ioUringGetSqe_some h1
    refine of_check (.inr hbody : _ ∨ (_ : Body) = .killInternal (.flushCancel 0)) (hplace rfl)
      (hdying (by simp)) fun hu => ?_
    -- the cancel entry is not published yet
    have h2 := Uring.getSqe_unpublished hr
    have h3 : ring.unpublished = 0 := hu
    omega
  | @cancelled iter hu => exact of_pending (h.check iter hrun (.inr hb) hu)
  | wait => exact of_pending (h.wait (.inr ⟨hrun, hb⟩))
  | exit h0 h1 =>
    refine of_pending ?_
    rw [(Quiet.finish (by exact hst) h1).ring]
    exact h.wait (.inr ⟨hrun, hb⟩)
  | fail _ _ h1 =>
    have hq := Quiet.finish hst h1
    refine of_final (place_finish hc hst h1) fun hd => ?_
    rw [hq.ring]
    exact h.dead (hq.life ▸ hd)

theorem step (h : Flushed s) (hreach : Reachable s) (hreach' : Reachable s') {c : Choice} (hall : s.FlushesAll c)
    (hs : State.step s c = .ok s') : Flushed s' := by
  by_cases htop : ∃ rest, s.stack = .run 0 :: rest
  · obtain ⟨rest, hst⟩ := htop
    rcases step_killRet hreach.killing hst hs with ⟨pc, rfl, hb, hk⟩ | ⟨pc, ret, rfl, hb, hk⟩
    · refine h.kill hreach hst hb (fun he _ hres hu => ?_) (by simp) hk
      exact List.eq_nil_of_length_eq_zero (hall (by rw [killPc_eq hst hb, he]) hres hu)
    · have hret : ret = s.ev.ring.pending.length := hall (by rw [killPc_eq hst hb]; rfl)
      exact h.kill hreach hst hb (by simp) (by simpa using hret) hk
  · have htop' : ∀ rest, s.stack ≠ .run 0 :: rest := fun rest hst => htop ⟨rest, hst⟩
    have hdrain : (s.coros 0).place = .atAlways → s'.ev.ring.pending = [] := fun hp =>
      ((Draining.of_always hreach hp (h.wait (.inl hp))).counts hreach hreach' hs).1
    have hwake : (s'.coros 0).place = .running → (s'.coros 0).body ≠ .killInternal .begin → s'.ev.ring.pending = [] :=
      fun hp hb => hdrain ((hreach.killPlace.wakes hreach htop' hs hp).resolve_left fun h1 => hb h1.2)
    refine ⟨fun iter hp hb _ => hwake hp ?_, fun hw => ?_, fun hd => ?_⟩
    · rcases hb with hb | hb <;> rw [hb] <;> simp
    · rcases hw with hp | ⟨hp, hb⟩
      · exact hdrain (hreach.killPlace.always_of_step hreach htop' hs hp)
      · exact hwake hp (by rw [hb]; simp)
    · have hd0 : s.ev.managerLifeState = .dead := by
        cases step_lifeEffect hs with
        | same hl => exact hl ▸ hd
        | start _ hl =>
          rw [hl] at hd
          cases hd
        | dying _ _ _ hl =>
          rw [hl] at hd
          cases hd
        | dead hx =>
          obtain ⟨x, rest, hst, hb, -⟩ := atExit_iff.mp hx
          obtain rfl := (hreach.killing.only x).mp (by rw [hb]; rfl)
          exact absurd hst (htop' rest)
      exact ((⟨h.dead hd0, .inl hd0⟩ : Draining s).counts hreach hreach' hs).1

end Flushed

/-- What `kill_internal` has flushed while its submits take all. -/
theorem flushed_of_reach {s : State} (h : Reach State.FlushesAll s) : Flushed s := by
  obtain ⟨s₀, hi, hr⟩ := h
  induction hr with
  | refl => exact .init hi
  | tail hr hall hs ih =>
    exact ih.step (Reach.reachable ⟨s₀, hi, hr⟩) (Reach.reachable ⟨s₀, hi, .tail hr hall hs⟩) hall hs

theorem reach_flushesAll {s : State} (h : Reach State.TakesAll s) : Reach State.FlushesAll s := by
  have hbegin : ∀ s : State, s.ev.ring.khead = s.ev.ring.sqeHead → s.ev.ring.unpublished = 0 →
      s.ev.ring.pending.length = 0 := by
    intro s h1 hu
    have h2 : s.ev.ring.sqeTail - s.ev.ring.sqeHead = 0 := hu
    rw [Uring.length_pending]
    omega
  refine h.mono_of (J := fun s => s.ev.ring.khead = s.ev.ring.sqeHead) (fun _ => published_taken) fun s c h1 hall => ?_
  cases c with
  | sub ret => exact fun _ => hall
  | tau | message | cqe | waitErr | pick | user => exact fun _ _ => hbegin s h1

/-- While every submit takes all, nothing is pending when `kill_internal` waits or is about to. -/
theorem pending_of_wait {s : State} (h : Reach State.TakesAll s) :
    ((s.coros 0).place = .atAlways ∨ (s.coros 0).place = .running ∧ (s.coros 0).body = .killInternal .wait) →
      s.ev.ring.pending = [] :=
  (flushed_of_reach (reach_flushesAll h)).wait

end EvManager
