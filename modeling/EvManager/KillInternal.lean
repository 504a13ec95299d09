import EvManager.TaskRun
import EvManager.Life
import EvManager.Ring

/-!
# Where `kill_internal` is

`KillStep` lists the steps of `kill_internal`.  `KillPlace`: its body runs on top of the stack only, the manager is
DYING from its beginning to its end, and while it is suspended something is in flight.
-/

namespace EvManager

open Lib State

/-- The steps of `kill_internal`, run by `h`. -/
inductive KillStep (s : State) (h : CoroId) : KillPc → Option ℤ → State → Prop
  | begin : s.ev.managerLifeState.rank < LivingState.dying.rank →
      KillStep s h .begin none
        ((s.modEv fun ev => { ev with managerLifeState := .dying }).setBody h (.killInternal (.flush 0)))
  | submit {pc : ℕ → KillPc} {iter : ℕ} {ret : ℤ} {s1 : State} : pc = .flush ∨ pc = .flushCancel →
      s.ev.ring.unpublished ≠ 0 → s.submitQueuedEntries ret = .ok s1 →
      KillStep s h (pc iter) (some ret) (s1.setBody h (.killInternal (pc (iter + 1))))
  | flushed {iter : ℕ} : s.ev.ring.unpublished = 0 →
      KillStep s h (.flush iter) none (s.setBody h (.killInternal .cancel))
  | cancel {j : ℕ} {s1 : State} : s.ioUringGetSqe .cancel = .ok (some j, s1) →
      KillStep s h .cancel none ((s1.writeSqe j (Slot.prep (ioUringPrepCancel 0 cancelFlags))).setBody h
        (.killInternal (.flushCancel 0)))
  | cancelled {iter : ℕ} : s.ev.ring.unpublished = 0 →
      KillStep s h (.flushCancel iter) none (s.setBody h (.killInternal .wait))
  | wait : s.ev.inFlightRequests ≠ 0 → KillStep s h .wait none (s.suspend h .atAlways)
  | exit {s' : State} : s.ev.inFlightRequests = 0 →
      (s.modEv fun ev => { ev with managerLifeState := .dead, ringUp := false }).finish h (some 0) = .ok s' →
      KillStep s h .wait none s'
  | fail {pc : KillPc} {s' : State} : pc ≠ .wait → (pc = .begin → LivingState.dying.rank ≤ s.ev.managerLifeState.rank) →
      s.finish h (some (u64 (-1))) = .ok s' → KillStep s h pc none s'

theorem KillStep.of_begin {s s' : State} {h : CoroId} {ret : Option ℤ} (hs : KillStep s h .begin ret s') :
    (s.ev.managerLifeState.rank < LivingState.dying.rank ∧
        s' = (s.modEv fun ev => { ev with managerLifeState := .dying }).setBody h (.killInternal (.flush 0))) ∨
      LivingState.dying.rank ≤ s.ev.managerLifeState.rank ∧ s.finish h (some (u64 (-1))) = .ok s' := by
  generalize hpc : KillPc.begin = pc at hs
  cases hs with
  | begin hl => exact .inl ⟨hl, rfl⟩
  | submit hf => rcases hf with rfl | rfl <;> cases hpc
  | flushed | cancel | cancelled | wait | exit => cases hpc
  | fail _ hl h1 => exact .inr ⟨hl hpc.symm, h1⟩

theorem KillStep.of_wait {s s' : State} {h : CoroId} {ret : Option ℤ} (hs : KillStep s h .wait ret s') :
    (s.ev.inFlightRequests ≠ 0 ∧ s' = s.suspend h .atAlways) ∨ s.ev.inFlightRequests = 0 ∧
      (s.modEv fun ev => { ev with managerLifeState := .dead, ringUp := false }).finish h (some 0) = .ok s' := by
  generalize hpc : KillPc.wait = pc at hs
  cases hs with
  | wait h0 => exact .inl ⟨h0, rfl⟩
  | exit h0 h1 => exact .inr ⟨h0, h1⟩
  | submit hf => rcases hf with rfl | rfl <;> cases hpc
  | begin | flushed | cancel | cancelled => cases hpc
  | fail hne => exact absurd hpc.symm hne

namespace State

variable {s s' : State} {h : CoroId} {rest : List Activation}

theorem killInternal_ok {pc : KillPc} {ret : Option ℤ} (hs : s.killInternal h pc ret = .ok s') :
    KillStep s h pc ret s' := by
  have hflush : ∀ {pc : ℕ → KillPc} {iter : ℕ} {next : State → Except Stop State}, pc = .flush ∨ pc = .flushCancel →
      (s.ev.ring.unpublished = 0 → ∀ s', next s = .ok s' → KillStep s h (pc iter) none s') →
      s.flushLoop h pc iter ret next = .ok s' → KillStep s h (pc iter) ret s' := by
    intro pc iter next hpc hnext hf
    unfold flushLoop at hf
    split at hf
    · split at hf
      · rename_i hu
        split at hf
        · obtain ⟨s1, h1, h2⟩ := bind_ok.mp hf
          cases h2
          exact .submit hpc hu.1 h1
        · cases hf
      · split at hf
        · rename_i hr
          subst hr
          split at hf
          · refine .fail ?_ (fun hb => ?_) hf
            · rcases hpc with rfl | rfl <;> simp
            · rcases hpc with rfl | rfl <;> cases hb
          · rename_i hu
            exact hnext (not_not.mp hu) s' hf
        · cases hf
    · cases hf
  unfold killInternal at hs
  split at hs
  · split at hs
    · rename_i hr
      subst hr
      split at hs
      · rename_i hl
        exact .fail (by simp) (fun _ => hl) hs
      · rename_i hl
        cases hs
        exact .begin (not_le.mp hl)
    · cases hs
  · refine hflush (.inl rfl) (fun hu s1 h1 => ?_) hs
    cases h1
    exact .flushed hu
  · split at hs
    · rename_i hr
      subst hr
      obtain ⟨⟨j, s1⟩, h1, h2⟩ := bind_ok.mp hs
      cases j with
      | none =>
        have hs1 : s1 = s := by
          rcases cancelSqe_ok h1 with ⟨-, hs1⟩ | h3
          · exact hs1
          · exact ioUringGetSqe_none h3
        subst hs1
        exact .fail (by simp) (by simp) h2
      | some j =>
        rcases cancelSqe_ok h1 with ⟨hj, -⟩ | h3
        · cases hj
        · cases h2
          exact .cancel h3
    · cases hs
  · refine hflush (.inr rfl) (fun hu s1 h1 => ?_) hs
    cases h1
    exact .cancelled hu
  · split at hs
    · rename_i hr
      subst hr
      split at hs
      · rename_i h0
        cases hs
        exact .wait h0
      · rename_i h0
        exact .exit (not_not.mp h0) hs
    · cases hs

theorem step_run (hst : s.stack = .run h :: rest) (c : Choice) : step s c = s.bodyStep h c := by
  simp only [step, hst]

theorem step_awaitSeen (hst : s.stack = .awaitSeen :: rest) {c : Choice} (hs : step s c = .ok s') :
    s.awaitSeen = .ok s' := by
  cases c <;> simp only [step, hst] at hs <;> first | exact hs | cases hs

/-- A step while `kill_internal` is on top is one of its steps. -/
theorem step_killRet (hk : Killing s) (hst : s.stack = .run 0 :: rest) {c : Choice} (hs : step s c = .ok s') :
    (∃ pc, c = .tau ∧ (s.coros 0).body = .killInternal pc ∧ KillStep s 0 pc none s') ∨
      ∃ pc ret, c = .sub ret ∧ (s.coros 0).body = .killInternal pc ∧ KillStep s 0 pc (some ret) s' := by
  have hkind := (hk.only 0).mpr rfl
  rw [step_run hst] at hs
  unfold bodyStep at hs
  cases hb : (s.coros 0).body with
  | killInternal pc =>
    cases c with
    | tau =>
      simp only [hb] at hs
      exact .inl ⟨pc, rfl, rfl, killInternal_ok hs⟩
    | sub ret =>
      simp only [hb] at hs
      exact .inr ⟨pc, ret, rfl, rfl, killInternal_ok hs⟩
    | message | cqe | waitErr | pick | user =>
      simp only [hb] at hs
      cases hs
  | user | kill | submitAndWait | poll =>
    rw [hb] at hkind
    cases hkind

theorem step_kill (hk : Killing s) (hst : s.stack = .run 0 :: rest) {c : Choice} (hs : step s c = .ok s') :
    ∃ pc ret, (s.coros 0).body = .killInternal pc ∧ KillStep s 0 pc ret s' := by
  rcases step_killRet hk hst hs with ⟨pc, -, hb, h1⟩ | ⟨pc, ret, -, hb, h1⟩
  · exact ⟨pc, none, hb, h1⟩
  · exact ⟨pc, some ret, hb, h1⟩

/-- A body that ends is final, whoever it resumes. -/
theorem place_finish (hc : Coherent s) (hst : s.stack = .run h :: rest) {out : Option ℕ}
    (hs : s.finish h out = .ok s') :
    (s'.coros h).place = .final := by
  have hend : ∀ {m' : Tasks}, Ended s.tasks h out m' → m'.place h = .final := by
    intro m' h1
    rw [h1.place, Function.update_self]
  have hrun : s.tasks.place h = .running := hc.placed.place_of_top hst
  have h1 : s'.tasks.place h = .final := by
    have h2 := tasks_finish hc hst (.inl rfl) hs
    generalize s'.tasks = m' at h2
    cases h2 with
    | idle hl => simp at hl
    | finish hl _ h3 =>
      obtain ⟨rfl, rfl⟩ : _ ∧ _ := by simpa using hl.resolve_right (by simp)
      exact hend h3
    | finishResume hl _ hp h3 =>
      obtain ⟨rfl, rfl⟩ : _ ∧ _ := by simpa using hl.resolve_right (by simp)
      refine (Function.update_of_ne ?_ _ _).trans (hend h3)
      rintro rfl
      rw [hrun] at hp
      cases hp
  exact h1

end State

/-! ### What brings it to run -/

namespace State

variable {s s' : State} {h : CoroId} {rest : List Activation}

theorem body_enter (x h : CoroId) : ((s.enter h).coros x).body = (s.coros x).body := by
  by_cases hx : x = h <;> simp [enter, push, State.setPlace, modCoro, hx]

theorem body_setAwaiter (x h a : CoroId) (s : State) : ((s.setAwaiter h a).coros x).body = (s.coros x).body := by
  have hmod : ∀ (s : State) (y : CoroId) {f : Coro → Coro}, (∀ c, (f c).body = c.body) →
      ((s.modCoro y f).coros x).body = (s.coros x).body := by
    intro s y f hf
    by_cases hxy : x = y
    · subst hxy
      simp [modCoro, hf]
    · simp [modCoro, hxy]
  exact (hmod _ a (f := fun c => { c with place := c.place.arm }) fun _ => rfl).trans (hmod s h fun _ => rfl)

/-- Resuming a coroutine changes no other body, and not its own if it is at the beginning. -/
theorem body_resume {cause : Option ReqId} (hs : s.resume h cause = .ok s') {x : CoroId}
    (hx : x ≠ h ∨ (s.coros h).place = .initial) : (s'.coros x).body = (s.coros x).body := by
  have hset : ∀ {u : State} {b : Body}, u.coros = (s.enter h).coros → x ≠ h →
      ((u.setBody h b).coros x).body = (s.coros x).body := by
    intro s1 b h1 hne
    have h2 : (s1.setBody h b).coros x = s1.coros x := by simp [State.setBody, modCoro, hne]
    rw [h2, h1]
    exact body_enter x h
  cases resumes_of_resume hs with
  | enter => exact body_enter x h
  | @io r =>
    have h2 : (((s.enter h).ioReturn h r).coros x).body = ((s.enter h).coros x).body := by
      generalize s.enter h = s1
      by_cases hxh : x = h <;> simp [ioReturn, State.log, State.modReq, State.modPromise, modCoro, hxh]
    exact h2.trans (body_enter x h)
  | task hp | batch hp | poll hp => exact hset rfl (hx.resolve_right (by rw [hp]; simp))

/-- A `co_await` of the kill task leaves the body of `kill_internal` where it is, if that is its beginning. -/
theorem body_awaitTask (hl : Linked s) {a : CoroId} (ha : a ≠ 0) (hp : (s.coros 0).place = .initial)
    (hs : s.awaitTask a .kill = .ok s') : (s'.coros 0).body = (s.coros 0).body := by
  have hsus : ∀ {p : Place}, (s.suspend a p).coros 0 = s.coros 0 := by
    intro p
    simp [suspend, State.setPlace, State.pop, modCoro, Ne.symm ha]
  unfold awaitTask at hs
  obtain ⟨e, he, h1⟩ := bind_ok.mp hs
  obtain ⟨x, hx, h2⟩ := bind_ok.mp h1
  rw [need_ok] at he hx
  simp only at h2
  split at h2
  · unfold awaitSuspendTail at h2
    obtain ⟨e', -, h3⟩ := bind_ok.mp h2
    split at h3
    · rw [body_resume h3 (.inl (Ne.symm ha)), hsus]
    · obtain ⟨y, -, h4⟩ := bind_ok.mp h3
      cases h4
      rw [body_setAwaiter, hsus]
  · unfold startTask at h2
    obtain ⟨e', he', h3⟩ := bind_ok.mp h2
    rw [need_ok] at he'
    split at h3
    · cases h3
      exact congrArg Coro.body hsus
    · obtain ⟨y, hy, h4⟩ := bind_ok.mp h3
      have h5 : e'.handle = some 0 := by
        have h6 : s.task .kill = some e' := he'
        rw [← Option.some.inj h6]
        exact hl.kill
      rw [need_ok, h5] at hy
      obtain rfl : 0 = y := Option.some.inj hy
      have h6 : (((((s.suspend a (.atTask .kill x false)).push (.taskAwait .kill a)).setTask .kill
          { e' with startedCoro := true }).push (.taskStart .kill 0)).coros 0) = s.coros 0 := hsus
      rw [body_resume h4 (.inr (by rw [h6]; exact hp)), h6]

theorem of_label_seen {c : Choice} (hl : s.label c = .seen) : c = .tau ∧ ∃ rest, s.stack = .awaitSeen :: rest := by
  have h1 := s.label_case c
  rw [hl] at h1
  generalize hx : TaskLabel.seen = l at h1
  cases h1 with
  | @main a | @handler _ a => cases a <;> cases hx
  | @body _ a => cases a <;> cases hx
  | seen hst => exact ⟨rfl, _, hst⟩
  | throws | kill | registered | tail | tau => cases hx

theorem of_label_kill {c : Choice} (hl : s.label c = .start .kill ∨ ∃ a, s.label c = .begin a .kill) :
    c = .tau ∧ ∃ a rest, s.stack = .run a :: rest ∧ (s.coros a).body = .kill none := by
  have h1 := s.label_case c
  generalize s.label c = l at hl h1
  cases h1 with
  | @main a | @handler _ a => cases a <;> simp [Act.label] at hl
  | @body _ a => cases a <;> simp [Act.labelIn, Act.label] at hl
  | kill hst hb => exact ⟨rfl, _, _, hst, hb⟩
  | throws | seen | registered | tail | tau => simp at hl

end State

/-- `kill_internal` runs on top of the stack only, while the manager is DYING; and it waits for something. -/
structure KillPlace (s : State) : Prop where
  top : (s.coros 0).place = .running → ∃ rest, s.stack = .run 0 :: rest
  dying : (s.coros 0).place = .running → (s.coros 0).body ≠ .killInternal .begin → s.ev.managerLifeState = .dying
  always : (s.coros 0).place = .atAlways → s.ev.managerLifeState = .dying ∧ s.ev.inFlightRequests ≠ 0

namespace KillPlace

variable {s s' : State}

theorem init (hi : State.Initial s) : KillPlace s := by
  have hp : (s.coros 0).place = .initial := by rw [hi.place, if_pos rfl]
  refine ⟨fun h1 => ?_, fun h1 => ?_, fun h1 => ?_⟩ <;> rw [hp] at h1 <;> cases h1

theorem of_final (hp : (s.coros 0).place = .final) : KillPlace s := by
  refine ⟨fun h1 => ?_, fun h1 => ?_, fun h1 => ?_⟩ <;> rw [hp] at h1 <;> cases h1

theorem of_running (hp : (s.coros 0).place = .running) (hst : ∃ rest, s.stack = .run 0 :: rest)
    (hd : (s.coros 0).body ≠ .killInternal .begin → s.ev.managerLifeState = .dying) : KillPlace s := by
  refine ⟨fun _ => hst, fun _ => hd, fun h1 => ?_⟩
  rw [hp] at h1
  cases h1

theorem kill (h : KillPlace s) (hc : Coherent s) {rest : List Activation} (hst : s.stack = .run 0 :: rest) {pc : KillPc}
    {ret : Option ℤ} (hb : (s.coros 0).body = .killInternal pc) (hs : KillStep s 0 pc ret s') : KillPlace s' := by
  have hrun := hc.placed.place_of_top hst
  have hlife : pc ≠ .begin → s.ev.managerLifeState = .dying := by
    intro hpc
    exact h.dying hrun (by rw [hb]; simpa using hpc)
  have hset : ∀ {u : State} {pc : KillPc}, u.stack = s.stack → u.coros = s.coros →
      u.ev.managerLifeState = .dying → KillPlace (u.setBody 0 (.killInternal pc)) := by
    intro s1 pc h1 h2 h3
    refine of_running ?_ ⟨rest, h1.trans hst⟩ fun _ => h3
    simp [State.setBody, modCoro, h2, hrun]
  cases hs with
  | begin hl => exact hset (u := s.modEv _) rfl rfl rfl
  | @submit pc iter ret s1 hpc hu h1 =>
    obtain ⟨-, -, -, rfl⟩ := submitQueuedEntries_ok h1
    refine hset (u := s.modEv _) rfl rfl (hlife ?_)
    rcases hpc with rfl | rfl <;> simp
  | flushed => exact hset rfl rfl (hlife (by simp))
  | cancel h1 =>
    obtain ⟨ring, -, -, rfl⟩ := ioUringGetSqe_some h1
    exact hset (u := (s.setRing ring).writeSqe _ _) rfl rfl (hlife (by simp))
  | cancelled => exact hset rfl rfl (hlife (by simp))
  | wait h0 =>
    have hp : ((s.suspend 0 .atAlways).coros 0).place = .atAlways := by
      simp [suspend, State.setPlace, State.pop, modCoro]
    refine ⟨fun h1 => ?_, fun h1 => ?_, fun _ => ⟨hlife (by simp), h0⟩⟩ <;> rw [hp] at h1 <;> cases h1
  | exit h0 h1 =>
    refine of_final (place_finish (hc.modEv (f := fun ev => { ev with managerLifeState := .dead, ringUp := false })
      rfl rfl rfl rfl rfl) (by exact hst) h1)
  | fail _ _ h1 => exact of_final (place_finish hc hst h1)

/-- A manager that is dying goes on to do so, unless `kill_internal` is on top. -/
theorem dying_of_step (hreach : Reachable s) (htop : ∀ rest, s.stack ≠ .run 0 :: rest) {c : Choice}
    (hs : State.step s c = .ok s') (hd : s.ev.managerLifeState = .dying) : s'.ev.managerLifeState = .dying := by
  cases step_lifeEffect hs with
  | same hl => exact hl.trans hd
  | start hl =>
    rw [hd] at hl
    cases hl
  | dying _ _ _ hl => exact hl
  | dead hx =>
    obtain ⟨h, rest, hst, hb, -⟩ := atExit_iff.mp hx
    obtain rfl := (hreach.killing.only h).mp (by rw [hb]; rfl)
    exact absurd hst (htop rest)

/-- While `kill_internal` is not on top nothing makes it wait. -/
theorem always_of_step (h : KillPlace s) (hreach : Reachable s) (htop : ∀ rest, s.stack ≠ .run 0 :: rest) {c : Choice}
    (hs : State.step s c = .ok s') (hp : (s'.coros 0).place = .atAlways) : (s.coros 0).place = .atAlways := by
  have hp' : s'.tasks.place 0 = .atAlways := hp
  have h1 := (step_tasks hreach.sound hreach.killing hs).place_of_suspended (h := 0) (by rw [hp']; rfl)
    (by rw [hp']; rfl)
    (by rw [hp']; simp)
  rcases h1 with h1 | h1
  · exact h1.symm.trans hp'
  · exact ((h.top h1).elim fun rest hst => htop rest hst).elim

/-- Where `kill_internal` waits, what it waits for is in flight. -/
theorem waits (h : KillPlace s) (hreach : Reachable s) (hreach' : Reachable s')
    (htop : ∀ rest, s.stack ≠ .run 0 :: rest)
    {c : Choice} (hs : State.step s c = .ok s') (hp : (s'.coros 0).place = .atAlways) :
    s'.ev.managerLifeState = .dying ∧ s'.ev.inFlightRequests ≠ 0 := by
  obtain ⟨hd, h0⟩ := h.always (h.always_of_step hreach htop hs hp)
  refine ⟨dying_of_step hreach htop hs hd, ?_⟩
  by_cases hseen : ∃ rest, s.stack = .awaitSeen :: rest
  · -- a completion that is marked seen resumes it
    obtain ⟨rest, hst⟩ := hseen
    have hc := hreach.sound.coherent hst (by simp)
    rcases awaitSeen_ok hc hreach.killing (step_awaitSeen hst hs) with ⟨-, -, rfl⟩ | ⟨hnd, -⟩
    · simp [State.enter, State.setPlace, State.push, modCoro] at hp
    · exact absurd hd hnd
  · have h1 := inFlight_le_of_step hreach hreach' hs fun rest hst => hseen ⟨rest, hst⟩
    omega

/-- `kill_internal` is brought to run at its beginning or where it waits. -/
theorem wakes (h : KillPlace s) (hreach : Reachable s) (htop : ∀ rest, s.stack ≠ .run 0 :: rest) {c : Choice}
    (hs : State.step s c = .ok s') (hp : (s'.coros 0).place = .running) :
    (s.coros 0).place = .initial ∧ (s'.coros 0).body = .killInternal .begin ∨ (s.coros 0).place = .atAlways := by
  have hnot : (s.coros 0).place ≠ .running := fun hr => (h.top hr).elim fun rest hst => htop rest hst
  have hkind := (hreach.killing.only 0).mpr rfl
  have hfits := hreach.sound.records.fits 0
  have hw := (step_tasks hreach.sound hreach.killing hs).wakes (tasks_suspending hreach.sound) hnot hp
  generalize hlabel : s.label c = l at hw
  cases hw with
  | event hpl =>
    exfalso
    rcases hpl with ⟨r, hpl⟩ | hpl <;> rw [show (s.coros 0).place = _ from hpl] at hfits <;>
      cases hb : (s.coros 0).body <;> simp_all [Body.fits, Body.kind, Body.waiting]
  | task hpl =>
    exfalso
    rw [show (s.coros 0).place = _ from hpl] at hfits
    cases hb : (s.coros 0).body <;> simp_all [Body.fits, Body.kind]
  | seen hpl => exact .inr hpl
  | @start _ t e hpl ht hh hl =>
    have hlink := hreach.sound.linked
    obtain rfl : t = .kill := by
      have h1 := hlink.inj (.task t) (.task .kill) e s.ev.killCoroTask 0 ht rfl hh hlink.kill
      simpa using h1
    have hbody : (s.coros 0).body = .killInternal .begin := by
      rw [show (s.coros 0).place = _ from hpl] at hfits
      cases hb : (s.coros 0).body <;> simp_all [Body.fits, Body.kind, Body.atBegin]
    have hlab : s.label c = .start .kill ∨ ∃ a, s.label c = .begin a .kill := by
      rcases hl with hl | ⟨v, -, hl⟩ | ⟨a, hl⟩
      · exact .inl (hlabel.trans hl)
      · cases hl
      · exact .inr ⟨a, hlabel.trans hl⟩
    obtain ⟨rfl, a, rest, hst, hb⟩ := of_label_kill hlab
    have ha : a ≠ 0 := by
      rintro rfl
      exact htop rest hst
    have hs1 : s.awaitTask a .kill = .ok s' := by
      rw [step_run hst] at hs
      simpa only [bodyStep, hb] using hs
    exact .inl ⟨hpl, (body_awaitTask hlink ha hpl hs1).trans hbody⟩

theorem step (h : KillPlace s) (hreach : Reachable s) (hreach' : Reachable s') {c : Choice}
    (hs : State.step s c = .ok s') : KillPlace s' := by
  by_cases htop : ∃ rest, s.stack = .run 0 :: rest
  · obtain ⟨rest, hst⟩ := htop
    obtain ⟨pc, ret, hb, hk⟩ := step_kill hreach.killing hst hs
    exact h.kill (hreach.sound.coherent hst (by simp)) hst hb hk
  · push Not at htop
    have hnot : (s.coros 0).place ≠ .running := fun hr => (h.top hr).elim fun rest hst => htop rest hst
    refine ⟨fun hr => ?_, fun hr hb => ?_, fun hp => h.waits hreach hreach' htop hs hp⟩
    · exact (step_stack hs).run_head (hreach'.running.mp hr) fun hm => hnot (hreach.running.mpr hm)
    · exact dying_of_step hreach htop hs (h.always ((h.wakes hreach htop hs hr).resolve_left fun h1 => hb h1.2)).1

end KillPlace

theorem Reachable.killPlace {s : State} (h : Reachable s) : KillPlace s := by
  obtain ⟨s₀, hi, hr⟩ := h
  induction hr with
  | refl => exact .init hi
  | tail hr _ hs ih => exact ih.step ⟨s₀, hi, hr⟩ ⟨s₀, hi, .tail hr trivial hs⟩ hs

end EvManager
