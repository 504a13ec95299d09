import EvManager.KillBound

/-!
# The library does not run on

Each activation of the call stack has a bounded amount of work left until it returns, waits for a completion or
calls user code.  A step of user code or a completion adds boundedly much to it, and every step that the library
takes by itself is some of it.  So **in every stretch of every run the library takes at most as many steps by
itself as there are activations, user actions and completions, up to a constant factor** (`library_bounded`),
where a submission that takes no entry counts as a completion: `submit_and_wait` repeats it.
-/

namespace EvManager

open Lib State

/-- The library goes on by itself: user code takes no action, no completion comes, and a submission is not one that
takes no entry. -/
def Choice.own : Choice → Bool
  | .tau | .message _ | .pick .. => true
  | .sub ret => ret ≠ 0
  | .cqe .. | .waitErr | .user _ => false

/-- How many steps a body can take from here on before it waits, ends or calls user code, with those that its end
leads to. -/
def Body.work : Body → ℕ
  | .user => 0
  | .killInternal pc => pc.work + 3
  | .kill none => 2 * maxIter + 13
  | .kill (some _) => 2
  | .submitAndWait _ l =>
    match l.pc with
    | .begin => 4
    | .loop => if l.numSubmitted = 0 then 3 else 2
    | .await _ | .handler _ => 0
  | .poll pc => if pc = .begin then 2 else 0

/-- How many steps an activation has left at most. -/
def maxWork : ℕ := 2 * maxIter + 13

theorem Body.work_le (b : Body) : b.work ≤ maxWork := by
  unfold maxWork
  cases b with
  | user => exact Nat.zero_le _
  | killInternal pc =>
    have h1 := pc.work_le
    simp only [Body.work]
    omega
  | kill ret => cases ret <;> simp only [Body.work] <;> omega
  | submitAndWait q l =>
    simp only [Body.work]
    split
    · omega
    · split <;> omega
    · omega
    · omega
  | poll pc =>
    simp only [Body.work]
    split <;> omega

namespace State

variable {s s' u : State} {c : Choice} {h x : CoroId} {rest st : List Activation}

/-- How many steps an activation has left, with those of `kill_internal` that follow when a completion is marked
seen. -/
def workOf (s : State) : Activation → ℕ
  | .main | .awaitWait => 0
  | .start | .taskAwait .. => 3
  | .awaitSeen => 5
  | .run h => (s.coros h).body.work
  | .eventHandler .. | .taskStart .. | .registerCoro _ | .finalSuspend _ | .ioSubmit .. => 1

/-- How many steps the activations have left.  Two of the three of the loop in `start` are taken where it waits for
a completion. -/
def workOn (s : State) : List Activation → ℕ
  | [] => 0
  | .awaitWait :: st => s.workOn st - 2
  | a :: st => s.workOf a + s.workOn st

/-- How many steps the library has left. -/
def work (s : State) : ℕ := s.workOn s.stack

theorem workOf_le (s : State) (a : Activation) : s.workOf a ≤ maxWork := by
  cases a with
  | run h => exact Body.work_le _
  | _ =>
    simp only [workOf, maxWork]
    omega

theorem workOn_cons {a : Activation} (ha : a ≠ .awaitWait) : s.workOn (a :: st) = s.workOf a + s.workOn st := by
  cases a with
  | awaitWait => exact absurd rfl ha
  | _ => rfl

theorem workOn_cons_le (s : State) (a : Activation) (st : List Activation) :
    s.workOn (a :: st) ≤ s.workOf a + s.workOn st := by
  by_cases ha : a = .awaitWait
  · subst ha
    simp only [workOn]
    omega
  · exact (workOn_cons ha).le

theorem workOn_le_cons (s : State) (a : Activation) (st : List Activation) : s.workOn st ≤ s.workOn (a :: st) + 2 := by
  by_cases ha : a = .awaitWait
  · subst ha
    simp only [workOn]
    omega
  · rw [workOn_cons ha]
    omega

theorem workOn_append_le (s : State) (l st : List Activation) :
    s.workOn (l ++ st) ≤ maxWork * l.length + s.workOn st := by
  induction l with
  | nil => simp
  | cons a l ih =>
    have h1 := workOn_cons_le s a (l ++ st)
    have h2 := workOf_le s a
    rw [List.length_cons, Nat.mul_succ, List.cons_append]
    omega

theorem workOn_congr (hb : ∀ h, .run h ∈ st → (s'.coros h).body = (s.coros h).body) : s'.workOn st = s.workOn st := by
  induction st with
  | nil => rfl
  | cons a st ih =>
    have h1 := ih fun h hm => hb h (List.mem_cons_of_mem _ hm)
    by_cases ha : a = .awaitWait
    · subst ha
      simp only [workOn, h1]
    · have h2 : s'.workOf a = s.workOf a := by
        cases a with
        | run h => simp only [workOf, hb h List.mem_cons_self]
        | _ => rfl
      rw [workOn_cons ha, workOn_cons ha, h1, h2]

/-- What lies under the top of the stack has as much left as before. -/
theorem workOn_under (hreach : Reachable s) (hs : State.step s c = .ok s') {a : Activation} (hst : s.stack = a :: rest)
    (hsub : ∀ b ∈ st, b ∈ rest) : s'.workOn st = s.workOn st := by
  refine workOn_congr fun h hm => ?_
  have hmem : Activation.run h ∈ rest := hsub _ hm
  have hrun := hreach.placed.run h (by rw [hst]; exact List.mem_cons_of_mem _ hmem)
  have hx : h < s.nextCoro := by
    by_contra hn
    cases (hreach.placed.fresh h (not_lt.mp hn)).symm.trans hrun
  have htop : ∀ b l, s.stack = b :: l → b.subject ≠ some h := by
    intro b l hl hb
    have hnd := hreach.placed.nodup
    rw [hl, List.filterMap_cons, hb] at hnd
    obtain ⟨rfl, rfl⟩ := List.cons.inj (hst.symm.trans hl)
    exact (List.nodup_cons.mp hnd).1 (List.mem_filterMap.mpr ⟨_, hmem, rfl⟩)
  rcases step_aside hreach hs hx htop with hstay | ⟨hsus, -⟩
  · exact hstay.body
  · rw [hrun] at hsus
    cases hsus

theorem workOn_rest (hreach : Reachable s) (hs : State.step s c = .ok s') {a : Activation} (hst : s.stack = a :: rest) :
    s'.workOn rest = s.workOn rest := workOn_under hreach hs hst fun _ hb => hb

/-- The body that runs has its own work left, and what lies under it has the rest. -/
theorem work_top (hst : s.stack = .run h :: rest) : s.work = (s.coros h).body.work + s.workOn rest := by
  unfold work
  rw [hst, workOn_cons (by simp)]
  rfl

/-! ### What is added from without -/

end State

/-- A step puts at most four activations on what was under the top, or under the activation there. -/
theorem StackStep.on_top {a : Activation} {rest st' : List Activation} (hs : StackStep (a :: rest) st') :
    ∃ l st, st' = l ++ st ∧ l.length ≤ 4 ∧ (st = rest ∨ ∃ b, rest = b :: st) := by
  cases hs with
  | keep => exact ⟨[a], rest, rfl, by simp, .inl rfl⟩
  | start => exact ⟨[.start, a], rest, rfl, by simp, .inl rfl⟩
  | @startTask _ t h => exact ⟨[.run h, .taskStart t h, a], rest, rfl, by simp, .inl rfl⟩
  | @register _ v => exact ⟨[.registerCoro v, a], rest, rfl, by simp, .inl rfl⟩
  | @registerStart _ v t h => exact ⟨[.run h, .taskStart t h, .registerCoro v, a], rest, rfl, by simp, .inl rfl⟩
  | @awaitStart x h t => exact ⟨[.run h, .taskStart t h, .taskAwait t x], rest, rfl, by simp, .inl rfl⟩
  | @io h r => exact ⟨[.ioSubmit h r], rest, rfl, by simp, .inl rfl⟩
  | @final h => exact ⟨[.finalSuspend h], rest, rfl, by simp, .inl rfl⟩
  | @finalResume h x => exact ⟨[.run x, .finalSuspend h], rest, rfl, by simp, .inl rfl⟩
  | wait => exact ⟨[.awaitWait, .start], rest, rfl, by simp, .inl rfl⟩
  | @parked r p => exact ⟨[.run p, .eventHandler r p, .awaitWait, .start], rest, rfl, by simp, .inl rfl⟩
  | seen => exact ⟨[.awaitSeen], rest, rfl, by simp, .inl rfl⟩
  | @dispatch r h => exact ⟨[.run h, .eventHandler r h, .awaitSeen], rest, rfl, by simp, .inl rfl⟩
  | ret => exact ⟨[], rest, rfl, by simp, .inl rfl⟩
  | @resume _ h => exact ⟨[.run h], rest, rfl, by simp, .inl rfl⟩
  | rethrow => exact ⟨[], st', rfl, by simp, .inr ⟨_, rfl⟩⟩
  | @rethrowAwait _ _ _ x st => exact ⟨[.run x], st, rfl, by simp, .inr ⟨_, rfl⟩⟩

namespace State

variable {s s' u : State} {c : Choice} {h x : CoroId} {rest st : List Activation}

/-- **A step adds boundedly much work.** -/
theorem work_step (hreach : Reachable s) (hs : State.step s c = .ok s') : s'.work ≤ s.work + 4 * (maxWork + 1) := by
  cases hst : s.stack with
  | nil =>
    unfold State.step at hs
    rw [hst] at hs
    cases c <;> cases hs
  | cons a rest =>
    have hstep := step_stack hs
    rw [hst] at hstep
    obtain ⟨l, st, hl, hlen, hsub⟩ := hstep.on_top
    have hmem : ∀ b ∈ st, b ∈ rest := by
      rcases hsub with rfl | ⟨b, rfl⟩
      · exact fun _ hb => hb
      · exact fun _ hb => List.mem_cons_of_mem _ hb
    have hst' : s.workOn st ≤ s.workOn rest + 2 := by
      rcases hsub with rfl | ⟨b, rfl⟩
      · exact Nat.le_add_right _ _
      · exact workOn_le_cons s b st
    have h1 := workOn_append_le s' l st
    have h2 := workOn_under hreach hs hst hmem
    have h3 := workOn_le_cons s a rest
    have h4 : maxWork * l.length ≤ maxWork * 4 := Nat.mul_le_mul_left _ hlen
    unfold work
    rw [hl, hst]
    omega

/-! ### What is left when a coroutine is resumed -/

/-- How much work a coroutine has left when it is resumed. -/
def wakes (s : State) (h : CoroId) : ℕ :=
  match (s.coros h).place with
  | .initial => (s.coros h).body.work
  | .atTask .. => if (s.coros h).body = .user then 0 else 2
  | .atAlways => 4
  | _ => 0

theorem work_resume {cause : Option ReqId} (hf : (s.coros h).body.fits (s.coros h).place = true)
    (hs : s.resume h cause = .ok s') :
    (s'.coros h).body.work ≤ s.wakes h := by
  unfold wakes
  cases resumes_of_resume hs with
  | enter hp =>
    rcases hp with hp | hp
    · rw [body_enter, hp]
    · rw [hp] at hf ⊢
      rw [body_enter, of_decide_eq_true hf]
      exact le_rfl
  | @io r hp =>
    rw [hp] at hf
    have hbody : (((s.enter h).ioReturn h r).coros h).body = (s.coros h).body := by
      rw [← body_enter h h (s := s)]
      simp [ioReturn, State.log, State.modReq, State.modPromise, modCoro]
    rw [hbody, Body.eq_user (of_decide_eq_true hf)]
    exact Nat.zero_le _
  | @task t y b e hp he =>
    rw [hp] at hf ⊢
    have hbody : ∀ code, ((((s.enter h).setBody h (((s.enter h).coros h).body.taskReturned code)).log
        (.taskReturned h t y code)).coros h).body = (s.coros h).body.taskReturned code := by
      intro code
      rw [body_enter]
      simp [State.setBody, State.log, modCoro]
    rw [hbody]
    rcases of_decide_eq_true hf with hk | hk
    · rw [Body.eq_user hk]
      exact Nat.zero_le _
    · rw [hk]
      exact le_rfl
  | batch | poll => simp [State.setBody, State.log, modCoro, modEv, Body.work]

/-! ### What the library takes by itself -/

/-- Whoever awaits a coroutine that ends has at most two steps left, and these only if it was `kill_internal`. -/
theorem work_awaiter (hreach : Reachable s) (hst : s.stack = .run h :: rest) (hs : State.step s c = .ok s') {a : CoroId}
    (ha : (s.coros h).promise.awaiterHandle = some a) (hrun' : (s'.coros a).place = .running) :
    (s'.coros a).body.work ≤ if h = 0 then 2 else 0 := by
  have haw := (hreach.sound.coherent hst (by simp)).awaits
  have hrun := hreach.placed.place_of_top hst
  have hplace := haw.awaiter h a ha (by rw [hrun]; rfl)
  have hne : (s.coros a).place ≠ .running := by
    rcases hplace with ⟨t, hp⟩ | hp <;> simp [hp]
  have htop : ∀ b l, s.stack = b :: l → b.subject ≠ some a := by
    intro b l hl hb
    obtain ⟨rfl, rfl⟩ := List.cons.inj (hst.symm.trans hl)
    obtain rfl : h = a := by simpa [Activation.subject] using hb
    exact hne hrun
  cases step_moves hreach hs (haw.awaiterBound h a ha) htop with
  | stays hstay =>
    have hp := hstay.place
    rw [hrun'] at hp
    exact absurd (show (s.coros a).place = .running
      by cases hq : (s.coros a).place <;> rw [hq] at hp <;> first | rfl | cases hp) hne
  | @resumed v cause hstay hr =>
    rcases hplace with ⟨t, hp⟩ | hp
    · have hfits := hreach.sound.records.fits a
      rw [hp] at hfits
      have hv : ∃ b, (v.coros a).place = .atTask t h b := by
        have hp' := hstay.place
        rw [hp] at hp'
        cases hq : (v.coros a).place <;> rw [hq] at hp' <;> simp [Place.arm] at hp'
        exact ⟨_, by rw [hp'.1, hp'.2]⟩
      obtain ⟨b, hv⟩ := hv
      have hle := work_resume (by rw [hstay.body, hv]; exact hfits) hr
      unfold wakes at hle
      rw [hv, hstay.body] at hle
      refine hle.trans ?_
      rcases of_decide_eq_true hfits with hk | hk
      · simp [Body.eq_user hk]
      · have h0 := hreach.killStack.awaits a t h true (by rw [hk]; rfl) hp
        simp [h0, hk]
    · have hsus := suspended_of_resume hr
      rw [hstay.suspended, hp] at hsus
      cases hsus
  | @thrown v t _ hsus hm _ =>
    rcases hplace with ⟨t', hp⟩ | hp
    · rcases (haw.suspending t a hm).2 with ⟨x, hp'⟩ | hp'
      · cases hp.symm.trans hp'
      · cases hp.symm.trans hp'
    · rw [hp] at hsus
      cases hsus
  | destroyed _ hp => cases hrun'.symm.trans hp

theorem work_finish (hreach : Reachable s) (hst : s.stack = .run h :: rest) (hs : State.step s c = .ok s')
    (hu : u.stack = s.stack) (hc : u.coros = s.coros) {out : Option ℕ} (hf : u.finish h out = .ok s') :
    s'.work ≤ s.workOn rest + 1 + if h = 0 then 2 else 0 := by
  have hunder := workOn_rest hreach hs hst
  have he : ((u.storeResult h out).endBody h out).stack = .finalSuspend h :: rest := by simp [endBody, hu, hst]
  unfold work
  rcases finish_ok hf with ⟨a, ha, h1⟩ | ⟨-, rfl⟩
  · have hl : s'.stack = .run a :: .finalSuspend h :: rest := by rw [stack_resume h1, he]
    have hle := work_awaiter hreach hst hs (hc ▸ ha) ((hreach.step hs).placed.place_of_top hl)
    rw [hl, workOn_cons (by simp), workOn_cons (by simp), hunder]
    simp only [workOf]
    omega
  · rw [he, workOn_cons (by simp), hunder]
    simp only [workOf]
    omega

theorem work_setBody (hreach : Reachable s) (hst : s.stack = .run h :: rest) {b : Body} (hu : u.stack = s.stack)
    (hs : State.step s c = .ok (u.setBody h b)) (hb : b.work < (s.coros h).body.work) :
    (u.setBody h b).work < s.work := by
  have hunder := workOn_rest hreach hs hst
  unfold work
  rw [stack_setBody, hu, hst, workOn_cons (by simp), workOn_cons (by simp), hunder]
  simp only [workOf, setBody_body]
  omega

theorem work_ret (hreach : Reachable s) {a : Activation} (hst : s.stack = a :: rest) (ha : a ≠ .awaitWait)
    (hpos : 0 < s.workOf a) (hs : State.step s c = .ok s') (hl : s'.stack = rest) : s'.work < s.work := by
  have hunder := workOn_rest hreach hs hst
  unfold work
  rw [hl, hst, workOn_cons ha, hunder]
  omega

theorem work_kill (hreach : Reachable s) (hst : s.stack = .run 0 :: rest) (hs : State.step s c = .ok s') :
    s'.work < s.work := by
  have hrun := hreach.placed.place_of_top hst
  have hlt := killWork_kill hreach hst hs
  obtain ⟨pc, ret, hb, hk⟩ := step_kill hreach.killing hst hs
  have hpos := pc.work_pos
  have hold := work_top hst
  rw [hb] at hold
  simp only [Body.work] at hold
  have hset : ∀ {v : State} {pc' : KillPc}, v.stack = s.stack → (v.coros 0).place = .running →
      s' = v.setBody 0 (.killInternal pc') → s'.work < s.work := by
    rintro v pc' hv hp rfl
    rw [killWork_setBody hp, killWork_running hrun hb] at hlt
    refine work_setBody hreach hst hv hs ?_
    rw [hb]
    simp only [Body.work]
    omega
  have hfin : ∀ {v : State} {out : Option ℕ}, v.stack = s.stack → v.coros = s.coros → v.finish 0 out = .ok s' →
      s'.work < s.work := by
    intro v out hv hc hf
    have hle := work_finish hreach hst hs hv hc hf
    rw [if_pos rfl] at hle
    omega
  cases hk with
  | begin => exact hset (v := s.modEv _) rfl hrun rfl
  | flushed | cancelled => exact hset (v := s) rfl hrun rfl
  | submit _ _ h1 =>
    obtain ⟨h2, h3⟩ := submitQueuedEntries_stack h1
    exact hset h2 (by rw [h3]; exact hrun) rfl
  | cancel h1 =>
    obtain ⟨ring, -, -, rfl⟩ := ioUringGetSqe_some h1
    exact hset (v := (s.setRing ring).writeSqe _ _) rfl hrun rfl
  | wait => exact work_ret hreach hst (by simp) (by simp [workOf, hb, Body.work]) hs (stack_suspend hst)
  | exit _ h1 | fail _ _ h1 => exact hfin (by rfl) (by rfl) h1

theorem work_killBody (hreach : Reachable s) (hst : s.stack = .run h :: rest) (hk : (s.coros h).body.kind = .kill)
    (hs : State.step s c = .ok s') : s'.work < s.work := by
  have hunder := workOn_rest hreach hs hst
  have hold := work_top hst
  have hne := KillStack.ne_zero hreach hk
  have hstep := hs
  rw [step_run hst] at hstep
  unfold bodyStep at hstep
  obtain ⟨ret, hb⟩ : ∃ ret, (s.coros h).body = .kill ret := by
    revert hk
    cases (s.coros h).body <;> simp [Body.kind]
  rw [hb] at hstep hold
  cases ret with
  | some code =>
    cases c with
    | tau =>
      have hle := work_finish hreach hst hs rfl rfl hstep
      rw [if_neg hne] at hle
      simp only [Body.work] at hold
      omega
    | _ => cases hstep
  | none =>
    cases c with
    | tau =>
      have hpop : ∀ p, (s.suspend h p).stack = rest := fun p => stack_suspend hst
      unfold awaitTask at hstep
      obtain ⟨e, he, h2⟩ := bind_ok.mp hstep
      obtain ⟨x, -, h3⟩ := bind_ok.mp h2
      obtain rfl : s.ev.killCoroTask = e := Option.some.inj (need_ok.mp he)
      simp only [Body.work] at hold
      simp only at h3
      split at h3
      · -- it has started already
        unfold awaitSuspendTail at h3
        obtain ⟨e', -, h4⟩ := bind_ok.mp h3
        split at h4
        · have hle := work_resume (by simp [suspend, State.setPlace, modCoro, pop, hb, Body.fits]) h4
          unfold wakes at hle
          have hl := stack_resume h4
          rw [hpop] at hl
          unfold work at hold ⊢
          rw [hl, workOn_cons (by simp), hunder, hold]
          simp only [workOf]
          simp [suspend, State.setPlace, modCoro, pop, hb] at hle
          omega
        · obtain ⟨y, -, h5⟩ := bind_ok.mp h4
          cases h5
          exact work_ret hreach hst (by simp) (by simp [workOf, hb, Body.work]) hs (hpop _)
      · -- `kill()` starts `kill_internal`
        rename_i hne'
        unfold startTask at h3
        obtain ⟨e', he', h4⟩ := bind_ok.mp h3
        obtain rfl : s.ev.killCoroTask = e' := Option.some.inj (need_ok.mp he')
        rw [if_neg hne'] at h4
        obtain ⟨y, hy, h5⟩ := bind_ok.mp h4
        rw [need_ok, (hreach.sound.coherent hst (by simp)).linked.kill] at hy
        obtain rfl : 0 = y := Option.some.inj hy
        have hl := stack_resume h5
        have hstk : ((((s.suspend h (.atTask .kill x false)).push (.taskAwait .kill h)).setTask .kill
            { s.ev.killCoroTask with startedCoro := true }).push (.taskStart .kill 0)).stack =
              .taskStart .kill 0 :: .taskAwait .kill h :: rest := by
          rw [stack_push, show ∀ u : State, ∀ e, (u.setTask .kill e).stack = u.stack from fun _ _ => rfl,
            stack_push, hpop]
        rw [hstk] at hl
        have hkind := ((hreach.step hs).killing.only 0).mpr rfl
        have hle : (s'.coros 0).body.work ≤ 2 * maxIter + 8 := by
          cases hq : (s'.coros 0).body with
          | killInternal pc =>
            have h6 := pc.work_le
            simp only [Body.work]
            omega
          | _ =>
            rw [hq] at hkind
            cases hkind
        unfold work at hold ⊢
        rw [hl, workOn_cons (by simp), workOn_cons (by simp), workOn_cons (by simp), hunder, hold]
        simp only [workOf]
        omega
    | _ => cases hstep

theorem work_batch (hreach : Reachable s) (hst : s.stack = .run h :: rest) {q : RequestQueue} {l : BatchLocals}
    (hb : (s.coros h).body = .submitAndWait q l) (hown : c.own = true) (hs : State.step s c = .ok s') :
    s'.work < s.work := by
  have hold := work_top hst
  rw [hb] at hold
  have hne : h ≠ 0 := fun h0 => by
    have hkind := (hreach.killing.only h).mpr h0
    rw [hb] at hkind
    cases hkind
  have hfin : ∀ {v : State} {out : Option ℕ}, v.stack = s.stack → v.coros = s.coros → v.finish h out = .ok s' →
      2 ≤ (Body.submitAndWait q l).work → s'.work < s.work := by
    intro v out hv hc hf hpos
    have hle := work_finish hreach hst hs hv hc hf
    rw [if_neg hne] at hle
    omega
  have hloop : l.pc = .loop → ∀ ret, (∀ n, ret = some n → n ≠ 0) → s.submitAndWaitLoop h q l ret = .ok s' →
      s'.work < s.work := by
    intro hpc ret hret hl
    have hpos : 2 ≤ (Body.submitAndWait q l).work := by
      simp only [Body.work, hpc]
      split <;> omega
    rcases submitAndWaitLoop_ok hl with ⟨-, -, -, h1⟩ | ⟨-, -, rfl⟩ | ⟨n, s1, rfl, hnum, -, h1, ⟨-, h2⟩ | ⟨hn, rfl⟩⟩
    · exact hfin rfl rfl h1 hpos
    · refine work_ret hreach hst (by simp) ?_ hs (stack_suspend hst)
      simp only [workOf, hb]
      omega
    · obtain ⟨h3, h4⟩ := submitQueuedEntries_stack h1
      exact hfin h3 h4 h2 hpos
    · have hn0 := hret n rfl
      have hto : 0 + n.toNat ≠ 0 := by omega
      refine work_setBody hreach hst (submitQueuedEntries_stack h1).1 hs ?_
      rw [hb]
      simp only [Body.work, hpc, hnum, if_neg hto, if_true]
      omega
  have hstep := hs
  rw [step_run hst] at hstep
  unfold bodyStep at hstep
  rw [hb] at hstep
  simp only at hstep
  split at hstep
  · rename_i ret hpc
    have hwork : (Body.submitAndWait q l).work = 4 := by simp only [Body.work, hpc]
    obtain ⟨s1, h1, ⟨-, h2⟩ | ⟨-, s2, h2, rfl⟩⟩ := submitAndWaitBegin_ok hstep
    · obtain ⟨h3, h4⟩ := submitQueuedEntries_stack h1
      exact hfin h3 h4 h2 (by omega)
    · refine work_setBody hreach hst ((stack_processRequests h2).trans (submitQueuedEntries_stack h1).1) hs ?_
      rw [hb, hwork]
      simp only [Body.work]
      split <;> omega
  · rename_i hpc
    exact hloop hpc none (fun n hn => by cases hn) hstep
  · rename_i ret hpc
    refine hloop hpc (some ret) (fun n hn => ?_) hstep
    obtain rfl : ret = n := Option.some.inj hn
    simpa [Choice.own] using hown
  · cases hown
  · cases hown
  · cases hown
  · cases hstep

theorem work_poll (hreach : Reachable s) (hst : s.stack = .run h :: rest) {pc : PollPc}
    (hb : (s.coros h).body = .poll pc) (hown : c.own = true) (hs : State.step s c = .ok s') : s'.work < s.work := by
  have hold := work_top hst
  rw [hb] at hold
  have hne : h ≠ 0 := fun h0 => by
    have hkind := (hreach.killing.only h).mpr h0
    rw [hb] at hkind
    cases hkind
  have hstep := hs
  rw [step_run hst] at hstep
  unfold bodyStep at hstep
  rw [hb] at hstep
  simp only at hstep
  split at hstep
  · unfold pollBegin at hstep
    split at hstep
    · have hle := work_finish hreach hst hs rfl rfl hstep
      rw [if_neg hne] at hle
      simp only [Body.work, if_true] at hold
      omega
    · cases hstep
      exact work_ret hreach hst (by simp) (by simp [workOf, hb, Body.work]) hs (stack_suspend hst)
  · cases hown
  · cases hown
  · cases hown
  · cases hstep

theorem work_run (hreach : Reachable s) (hst : s.stack = .run h :: rest) (hown : c.own = true)
    (hs : State.step s c = .ok s') :
    s'.work < s.work := by
  cases hb : (s.coros h).body with
  | user =>
    rw [step_run hst] at hs
    unfold bodyStep at hs
    rw [hb] at hs
    cases c with
    | user => cases hown
    | _ => cases hs
  | killInternal pc =>
    obtain rfl := (hreach.killing.only h).mp (by rw [hb]; rfl)
    exact work_kill hreach hst hs
  | kill => exact work_killBody hreach hst (by rw [hb]; rfl) hs
  | submitAndWait => exact work_batch hreach hst hb hown hs
  | poll => exact work_poll hreach hst hb hown hs

/-! ### The calls of the library -/

theorem work_eventHandler (hr : Records s) {res : ℤ} {y : Option ReqId} {base : Addr}
    (hs : s.eventHandler res y base = .ok s') :
    s'.stack = s.stack ∨ ∃ r p, s'.stack = .run p :: .eventHandler r p :: s.stack ∧ (s'.coros p).body.work = 0 := by
  unfold eventHandler at hs
  split at hs
  · cases hs
    exact .inl rfl
  · rename_i r
    simp only at hs
    split at hs
    · rename_i hlive
      split at hs
      · cases hs
        exact .inl rfl
      · rename_i p hp
        obtain ⟨pack, -, h1⟩ := bind_ok.mp hs
        refine .inr ⟨r, p, stack_resume h1, Nat.le_zero.mp ?_⟩
        have hself : ((((s.modPromise p fun q => { q with comData := q.comData.publishRespData pack }).log
            (.resumed r p res pack)).push (.eventHandler r p)).coros p).place = (s.coros p).place := by
          simp [State.push, State.log, State.modPromise, State.modCoro]
        have hbody : ((((s.modPromise p fun q => { q with comData := q.comData.publishRespData pack }).log
            (.resumed r p res pack)).push (.eventHandler r p)).coros p).body = (s.coros p).body := by
          simp [State.push, State.log, State.modPromise, State.modCoro]
        have hsus := suspended_of_resume h1
        have hplace : (∃ a, (s.coros p).place = .atIo a) ∨ (s.coros p).place = .atGeneric := by
          have hv := hr.serves r p hlive hp
          by_cases ha : ∃ a, (s.reqs r).home = .awaitable a
          · obtain ⟨a, ha⟩ := ha
            unfold State.Serves at hv
            rw [ha] at hv
            exact .inl ⟨r, hv.2⟩
          · exact .inr (atGeneric_of_serves hr hv (fun a he => ha ⟨a, he⟩) (hself ▸ hsus))
        have hle := work_resume (by rw [hbody, hself]; exact hr.fits p) h1
        unfold wakes at hle
        rw [hself] at hle
        rcases hplace with ⟨a, hq⟩ | hq <;> rw [hq] at hle <;> exact hle
    · cases hs

theorem work_message (hreach : Reachable s) (hst : s.stack = .start :: rest) {base : Addr}
    (hs : State.step s c = .ok s') (h1 : s.awaitMessage base = .ok s') : s'.work < s.work := by
  have hunder := workOn_rest hreach hs hst
  have hold : s.work = 3 + s.workOn rest := by
    unfold work
    rw [hst, workOn_cons (by simp)]
    rfl
  have hwait : s'.workOn (.awaitWait :: .start :: rest) = 1 + s.workOn rest := by
    simp only [workOn, workOf, hunder]
    omega
  unfold awaitMessage at h1
  simp only at h1
  unfold work at hold ⊢
  split at h1
  · rename_i res r ready p hready hpoll
    have hr : Records s := (hreach.sound.coherent hst (by simp)).records
    rcases work_eventHandler (hr.parked hready hpoll) h1 with hl | ⟨r', p', hl, h0⟩ <;>
      rw [stack_modReq, stack_modEv, stack_push, hst] at hl <;> rw [hl]
    · omega
    · rw [workOn_cons (by simp), workOn_cons (by simp), hwait]
      simp only [workOf]
      omega
  · cases h1
    rw [hst] at hold
    rw [stack_push, hst]
    omega

theorem work_seen (hreach : Reachable s) (hst : s.stack = .awaitSeen :: rest) (hs : State.step s c = .ok s') :
    s'.work < s.work := by
  have hunder := workOn_rest hreach hs hst
  have hmark : s.markSeen.stack = rest := by simp [markSeen, hst]
  rcases awaitSeen_ok (hreach.sound.coherent hst (by simp)) hreach.killing (step_awaitSeen hst hs) with
    ⟨-, hp, rfl⟩ | ⟨-, rfl⟩
  · have hfits := hreach.sound.records.fits 0
    rw [hp] at hfits
    have hbody : ((s.markSeen.enter 0).coros 0).body = .killInternal .wait := by
      rw [body_enter]
      exact of_decide_eq_true hfits
    have hl : (s.markSeen.enter 0).stack = .run 0 :: rest := by simp [enter, hmark]
    unfold work
    rw [hl, hst, workOn_cons (by simp), workOn_cons (by simp), hunder]
    simp only [workOf, hbody, Body.work, KillPc.work]
    omega
  · exact work_ret hreach hst (by simp) (by simp [workOf]) hs hmark

/-- What becomes of a coroutine whose `await_suspend` goes on. -/
theorem work_suspending (hreach : Reachable s) {t : TaskRef} {a : CoroId} (hst : s.stack = .taskAwait t a :: rest)
    (hs : State.step s c = .ok s') : s'.work < s.work := by
  have hunder := workOn_rest hreach hs hst
  have hpop : s.pop.stack = rest := by rw [stack_pop, hst, List.tail_cons]
  have h1 := step_taskAwait hst hs
  unfold awaitSuspendTail at h1
  obtain ⟨e, -, h2⟩ := bind_ok.mp h1
  split at h2
  · have hplace :=
      ((hreach.sound.coherent hst (by simp)).awaits.suspending t a (by rw [hst]; exact List.mem_cons_self)).2
    have hle := work_resume (s := s.pop) (hreach.sound.records.fits a) h2
    have hl := stack_resume h2
    rw [hpop] at hl
    have htwo : s.pop.wakes a ≤ 2 := by
      unfold wakes
      rcases hplace with ⟨x, hp⟩ | hp
      · rw [show (s.pop.coros a).place = .atTask t x false from hp]
        simp only
        split <;> omega
      · rw [show (s.pop.coros a).place = .gone from hp]
        exact Nat.zero_le _
    unfold work
    rw [hl, hst, workOn_cons (by simp), workOn_cons (by simp), hunder]
    simp only [workOf]
    omega
  · obtain ⟨x, -, h3⟩ := bind_ok.mp h2
    cases h3
    exact work_ret hreach hst (by simp) (by simp [workOf]) hs hpop

theorem work_started (hreach : Reachable s) {t : TaskRef} (hst : s.stack = .taskStart t h :: rest)
    (hs : State.step s c = .ok s') :
    s'.work < s.work := by
  have hpop : s.pop.stack = rest := by rw [stack_pop, hst, List.tail_cons]
  have hpos : 0 < s.workOf (.taskStart t h) := by simp [workOf]
  have h1 := step_taskStart hst hs
  unfold startReturn at h1
  obtain ⟨e, -, h2⟩ := bind_ok.mp h1
  split at h2
  · rename_i hex
    unfold rethrow at h2
    rw [hpop] at h2
    split at h2
    · rename_i st
      have hunder : s'.workOn st = s.workOn st := workOn_under hreach hs hst fun b hb => List.mem_cons_of_mem _ hb
      cases h2
      unfold work
      rw [stack_pop, hpop, List.tail_cons, hst, workOn_cons (by simp), workOn_cons (by simp), hunder]
      simp only [workOf]
      omega
    · rename_i t' a st
      split at h2
      · rename_i hsus
        have hunder : s'.workOn st = s.workOn st := workOn_under hreach hs hst fun b hb => List.mem_cons_of_mem _ hb
        cases h2
        -- `kill()` does not wait for a task that throws
        have huser : (s.coros a).body = .user := by
          have hmem : Activation.taskAwait t' a ∈ s.stack := by
            rw [hst]
            exact List.mem_cons_of_mem _ List.mem_cons_self
          rcases ((hreach.sound.coherent hst (by simp)).awaits.suspending t' a hmem).2 with ⟨x, hp⟩ | hp
          · have hfits := hreach.sound.records.fits a
            rw [hp] at hfits
            refine (of_decide_eq_true hfits).elim Body.eq_user fun hk => ?_
            have h0 := hreach.killStack.awaits a t' x false (by rw [hk]; rfl) hp
            subst h0
            obtain ⟨l, hl⟩ := hreach.killStack.internal a t' hp
            rw [hst] at hl
            generalize hq : Activation.taskStart t h :: .taskAwait t' a :: st = st' at hl
            cases hl with
            | starts =>
              obtain ⟨-, rfl⟩ : t = t' ∧ h = 0 := by simpa using congrArg List.head? hq
              have hcalm :=
                hreach.killStack.calm 0 (.inl (Body.isKill_iff.mpr (.inr ((hreach.killing.only 0).mpr rfl))))
              rw [show (s.pop.coros 0).promise.exceptionPtr = false from hcalm] at hex
              simp at hex
            | awaits | ends | runs => cases hq
          · rw [show (s.pop.coros a).place = .gone from hp] at hsus
            cases hsus
        have hl : (s.pop.pop.enter a).stack = .run a :: st := by simp [enter, hst]
        have hbody : ((s.pop.pop.enter a).coros a).body = .user := (body_enter a a).trans huser
        unfold work
        rw [hl, hst, workOn_cons (by simp), workOn_cons (by simp), workOn_cons (by simp), hunder]
        simp only [workOf, hbody, Body.work]
        omega
      · cases h2
    · cases h2
      exact work_ret hreach hst (by simp) hpos hs hpop
  · cases h2
    exact work_ret hreach hst (by simp) hpos hs hpop

/-- **A step that the library takes by itself is some of its work.** -/
theorem work_own (hreach : Reachable s) (hown : c.own = true) (hs : State.step s c = .ok s') : s'.work < s.work := by
  have hstep := hs
  unfold State.step at hstep
  split at hstep
  · cases hown
  · rename_i hst
    split at hstep
    · exact work_message hreach hst hs hstep
    · cases hstep
  · rename_i hst
    split at hstep <;> cases hstep
    exact work_ret hreach hst (by simp) (by simp [workOf]) hs (by rw [stack_pop, hst, List.tail_cons])
  · cases hown
  · cases hown
  · rename_i hst
    exact work_seen hreach hst hs
  · rename_i hst
    refine work_ret hreach hst (by simp) (by simp [workOf]) hs ?_
    rw [stack_eventHandlerReturn hstep, stack_pop, hst, List.tail_cons]
  · rename_i hst
    exact work_run hreach hst hown hs
  · rename_i hst
    exact work_started hreach hst hs
  · rename_i hst
    refine work_ret hreach hst (by simp) (by simp [workOf]) hs ?_
    rw [stack_registerCoroReturn hstep, stack_pop, hst, List.tail_cons]
  · rename_i hst
    exact work_suspending hreach hst hs
  · rename_i hst
    cases hstep
    refine work_ret hreach hst (by simp) (by simp [workOf]) hs ?_
    rw [stack_finalReturn, stack_pop, hst, List.tail_cons]
  · rename_i h r rest ret hst
    have hunder := workOn_rest hreach hs hst
    have hpop : ∀ {u}, s.pop.submitQueuedEntries ret = .ok u → u.stack = rest := fun hu => by
      rw [stack_submit hu, stack_pop, hst, List.tail_cons]
    unfold ioSubmit at hstep
    obtain ⟨s1, h1, h2⟩ := bind_ok.mp hstep
    split at h2
    · have hplace : (s1.coros h).place = .atIo r := by
        rw [(submitQueuedEntries_stack h1).2]
        exact place_of_ioSubmit hreach hst
      have hbody : (s1.coros h).body = (s.coros h).body := by
        rw [(submitQueuedEntries_stack h1).2]
        rfl
      have hfits := hreach.sound.records.fits h
      rw [place_of_ioSubmit hreach hst] at hfits
      have hle := work_resume (by
        rw [show ∀ f, (s1.modReq r f).coros = s1.coros from fun _ => rfl, hplace, hbody]
        exact hfits) h2
      unfold wakes at hle
      rw [show ∀ f, (s1.modReq r f).coros = s1.coros from fun _ => rfl, hplace] at hle
      have hl := stack_resume h2
      rw [stack_modReq, hpop h1] at hl
      unfold work
      rw [hl, hst, workOn_cons (by simp), workOn_cons (by simp), hunder]
      simp only [workOf]
      simp only [Nat.le_zero] at hle
      omega
    · cases h2
      exact work_ret hreach hst (by simp) (by simp [workOf]) hs (hpop h1)
  · cases hstep

end State

/-- **The library does not run on.**  In every stretch of every run the steps that the library takes by itself (its
bodies and calls, with the submissions that take an entry or fail) are at most a constant times the activations on
the stack where it begins and the steps that come from without: the actions of user code, the completions, and the
submissions that take no entry. -/
theorem library_bounded {s₀ s : State} (h₀ : Reachable s₀) {cs : List Choice}
    (h : exec State.step (fun _ _ => True) s₀ cs = some s) :
    cs.countP Choice.own ≤ (maxWork + 1) * (s₀.stack.length + 4 * cs.countP fun c => !c.own) := by
  have hle := exec_potential State.work Choice.own (4 * (maxWork + 1)) (J := fun s => Reachable s)
    (fun s c s' hr hs => hr.step hs)
    (fun s c s' hr hc hs => State.work_own hr hc hs) (fun s c s' hr hs => State.work_step hr hs) h₀ h
  have hwork : s₀.work ≤ maxWork * s₀.stack.length := by
    have h1 := State.workOn_append_le s₀ s₀.stack []
    rw [List.append_nil] at h1
    exact h1
  calc cs.countP Choice.own ≤ s₀.work + 4 * (maxWork + 1) * cs.countP (fun c => !c.own) :=
    (Nat.le_add_right _ _).trans hle
    _ ≤ (maxWork + 1) * s₀.stack.length + 4 * (maxWork + 1) * cs.countP (fun c => !c.own) :=
      Nat.add_le_add_right (hwork.trans (Nat.mul_le_mul_right _ (Nat.le_succ _))) _
    _ = (maxWork + 1) * (s₀.stack.length + 4 * cs.countP fun c => !c.own) := by
      rw [Nat.mul_add (maxWork + 1), Nat.mul_comm 4, Nat.mul_assoc]

/-- A manager is killed before its loop runs: two actions of user code, and ten steps of the library. -/
theorem library_bounded_kill : ∃ cs : List Choice, (exec State.step (fun _ _ => True) (init 4) cs).map
    (fun s => s.ev.managerLifeState) =
    some .dying ∧ cs.countP Choice.own = 10 ∧ cs.countP Choice.own ≤ (maxWork + 1) * 9 := by
  let cs : List Choice :=
    [.user .kill, .user (.startTask 0), .tau, .tau, .tau, .tau, .sub 1, .tau, .tau, .tau, .tau, .tau]
  have he : (exec State.step (fun _ _ => True) (init 4) cs).map (fun s => s.ev.managerLifeState) = some .dying := by
    decide
  obtain ⟨s, hs, -⟩ := Option.map_eq_some_iff.mp he
  have hle := library_bounded ⟨init 4, .up 4, .refl⟩ hs
  exact ⟨cs, he, by decide, hle⟩

/-! ### The loop that runs on -/

namespace State

variable {s s' u : State} {c : Choice} {x : CoroId}

/-- `submit_and_wait`, run by `x`, is about to submit entries that are not there. -/
structure Idles (s : State) (x : CoroId) : Prop where
  top : ∃ rest, s.stack = .run x :: rest
  body : ∃ q l, (s.coros x).body = .submitAndWait q l ∧ l.pc = .loop ∧ l.numSubmitted = 0 ∧ l.numQueued ≠ 0
  pending : s.ev.ring.pending = []

/-- Nothing happened between `s` and `s'`: no coroutine moved, nothing was called, taken or heard. -/
structure Unmoved (s s' : State) : Prop where
  stack : s'.stack = s.stack
  coros : s'.coros = s.coros
  reqs : s'.reqs = s.reqs
  pending : s'.ev.ring.pending = s.ev.ring.pending
  inFlight : s'.ev.ring.inFlight = s.ev.ring.inFlight
  seen : s'.seen = s.seen
  trace : s'.trace = s.trace

theorem Idles.step (h : s.Idles x) (hreach : Reachable s) (hc : ∀ ret ∈ c.ret, 0 ≤ ret) (hs : State.step s c = .ok s') :
    s.Unmoved s' := by
  obtain ⟨rest, hst⟩ := h.top
  obtain ⟨q, l, hb, hpc, hsub, hq⟩ := h.body
  have hsmall := (hreach.vectors x q l hb (by rw [hreach.placed.place_of_top hst]; rfl)).small
  have hstep := hs
  rw [step_run hst] at hstep
  unfold bodyStep at hstep
  rw [hb] at hstep
  simp only [hpc] at hstep
  have hloop : ∀ ret, c.ret = ret → s.submitAndWaitLoop x q l ret = .ok s' → s.Unmoved s' := by
    intro ret hret h1
    rcases submitAndWaitLoop_ok h1 with ⟨-, -, h2, -⟩ | ⟨-, h2, -⟩ | ⟨n, s1, rfl, -, -, h2, ⟨h3, -⟩ | ⟨h3, rfl⟩⟩
    · exact absurd h2 hq
    · exact absurd hsub h2
    · exact absurd (hc n hret) (not_le.mpr h3)
    · obtain ⟨-, -, hle, rfl⟩ := submitQueuedEntries_ok h2
      rw [h.pending] at hle
      obtain rfl : n = 0 := le_antisymm hle h3
      have hnum : u32 (l.numQueued - 0) = l.numQueued := by
        unfold u32
        omega
      have hsame : ({ l with numSubmitted := l.numSubmitted + (0 : ℤ).toNat, numQueued := u32 (l.numQueued - 0) } :
        BatchLocals) =
          l := by
        rw [hnum]
        rfl
      rw [hsame]
      refine ⟨rfl, ?_, rfl, ?_, ?_, rfl, rfl⟩
      · refine (Function.update_eq_self_iff).mpr ?_
        show ({ s.coros x with body := .submitAndWait q l } : Coro) = s.coros x
        rw [← hb]
      · show (s.ev.ring.submit 0).pending = s.ev.ring.pending
        rw [Uring.submit_pending, List.drop_zero]
      · show (s.ev.ring.submit 0).inFlight = s.ev.ring.inFlight
        rw [Uring.submit_inFlight, List.take_zero, List.append_nil]
  cases c with
  | tau => exact hloop none rfl hstep
  | sub ret => exact hloop (some ret) rfl hstep
  | _ => cases hstep

theorem Idles.of_unmoved (h : s.Idles x) (hu : s.Unmoved s') : s'.Idles x := by
  obtain ⟨rest, hst⟩ := h.top
  obtain ⟨q, l, hb, hl⟩ := h.body
  exact ⟨⟨rest, hu.stack.trans hst⟩, ⟨q, l, by rw [hu.coros, hb], hl⟩, hu.pending.trans h.pending⟩

theorem Unmoved.trans (h : s.Unmoved u) (h' : u.Unmoved s') : s.Unmoved s' :=
  ⟨h'.stack.trans h.stack, h'.coros.trans h.coros, h'.reqs.trans h.reqs, h'.pending.trans h.pending,
    h'.inFlight.trans h.inFlight, h'.seen.trans h.seen, h'.trace.trans h.trace⟩

end State

/-- **`submit_and_wait` may run on**: where it still counts entries as queued that another submission took, nothing
happens any more in any run in which no submission fails; it submits again and again, and no coroutine and no
completion gets its turn. -/
theorem idles_forever {s₁ s : State} {x : CoroId} (h₁ : Reachable s₁) (hi : s₁.Idles x)
    (h : Run State.step (fun _ c => ∀ ret ∈ c.ret, 0 ≤ ret) s₁ s) : s₁.Unmoved s := by
  have hrun : Reachable s ∧ s₁.Unmoved s := by
    induction h with
    | refl => exact ⟨h₁, ⟨rfl, rfl, rfl, rfl, rfl, rfl, rfl⟩⟩
    | tail _ hc hs ih =>
      obtain ⟨hreach, hu⟩ := ih
      exact ⟨hreach.step hs, hu.trans ((hi.of_unmoved hu).step hreach hc hs)⟩
  exact hrun.2

/-- The handler of a batch submits what the batch has queued. -/
theorem idles_forever_handler : ∃ s₁ s : State, s₁.ev.ring.inFlight.length = 1 ∧
    s.stack = [.run 1, .eventHandler 0 1, .awaitSeen, .start, .main] ∧ s₁.Unmoved s := by
  have he : ((exec State.step (fun _ _ => True) (init 4)
    [.user (.submitAndWait [.write ⟨4, 200, 4⟩, .read ⟨3, 100, 8⟩]),
      .user (.startTask 0), .sub 0, .sub 1, .tau, .tau, .user .start, .message 0, .cqe 0 4 0,
      .user (.submitQueuedEntries 1), .user (.handlerReturn false)]).bind fun s₁ =>
        (exec State.step (fun _ c => ∀ ret ∈ c.ret, 0 ≤ ret) s₁ [.sub 0, .sub 0]).map fun s => decide
        (s₁.ev.ring.inFlight.length = 1 ∧
          s₁.ev.ring.pending.length = 0 ∧ s₁.stack = [.run 1, .eventHandler 0 1, .awaitSeen, .start, .main] ∧
          (s₁.coros 1).body = .submitAndWait [.write ⟨4, 200, 4⟩, .read ⟨3, 100, 8⟩] ⟨.loop, [0, 1], 0, 1⟩)) =
          some true := by decide
  obtain ⟨s₁, h1, he⟩ := Option.bind_eq_some_iff.mp he
  obtain ⟨s, hr, hs⟩ := Run.exists_of_exec he
  obtain ⟨hf, hp, hst, hb⟩ := of_decide_eq_true hs
  have hi : s₁.Idles 1 := ⟨⟨_, hst⟩, ⟨_, _, hb, rfl, rfl, by simp⟩, List.length_eq_zero_iff.mp hp⟩
  have hu := idles_forever ⟨init 4, .up 4, Run.of_exec h1⟩ hi hr
  exact ⟨s₁, s, hf, hu.stack.trans hst, hu⟩

end EvManager
