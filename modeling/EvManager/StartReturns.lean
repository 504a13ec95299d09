import EvManager.KillStack
import EvManager.Drain
import EvManager.Loop

/-!
# `start()` returns when the manager is DEAD

The guard of `start()` lets a call return at once when a kill was requested before it.  Where it does not, and no
awaiter of a `kill()` is lost, **`start_returns`**: a call of `start()` that is not made from inside the running
loop returns only when the manager is DEAD, nothing is in flight, the ring is exited and nobody awaits `kill()`.
-/

namespace EvManager

open Lib State

/-- The coroutine that the step destroys although its body has not ended. -/
def TaskLabel.destroys : TaskLabel → Option CoroId
  | .registered _ x => x
  | _ => none

/-- No awaiter of `c` is lost: its handle is stored in time and in a slot that is free, and `register_coro` does not
destroy `c` while it is stored. -/
def Tasks.KeepsAwaiter (c : CoroId) (m : Tasks) (l : TaskLabel) : Prop :=
  m.SlotOk c l ∧ (l.destroys = some c → m.awaiter c = none)

instance (c : CoroId) (m : Tasks) (l : TaskLabel) : Decidable (m.KeepsAwaiter c l) := by
  unfold Tasks.KeepsAwaiter; infer_instance

namespace State

/-- A call of `start()` that is not made from inside the running loop finds no manager that is DYING, and no awaiter of
`kill()` is lost. -/
def StartOk (s : State) (c : Choice) : Prop :=
  (c = .user .start → s.loops = [] → s.ev.managerLifeState ≠ .dying) ∧
    ∀ k < s.nextCoro, (s.coros k).body.isKill = true → s.tasks.KeepsAwaiter k (s.label c)

instance (s : State) (c : Choice) : Decidable (s.StartOk c) := by
  unfold StartOk; infer_instance

/-- A call of `start()` that is not made from inside the running loop returns in this step: its loop is over, or it does
not enter one. -/
def StartReturns (s : State) (c : Choice) : Prop :=
  match s.stack, c with
  | .start :: _, .tau => True
  | _, .user .start => s.loops = [] ∧ LivingState.living.rank ≤ s.ev.managerLifeState.rank
  | _, _ => False

end State

/-! ### What is kept along the run -/

theorem TaskStep.log_finish {m m' : Tasks} {h : CoroId} {out : Option ℕ} (hs : TaskStep m (.finish h out) m') :
    Event.returned h out ∈ m'.log := by
  have hend : ∀ {n : Tasks} {x : CoroId} {o : Option ℕ}, Ended m x o n →
      TaskLabel.finish h out = .finish x o ∨ (TaskLabel.finish h out = .tau ∧ m.user x = false) →
      Event.returned h out ∈ n.log := by
    intro m₁ x o h1 hl
    obtain ⟨rfl, rfl⟩ : h = x ∧ out = o := by simpa using hl
    cases h1
    exact List.mem_cons_self
  cases hs with
  | idle hl => simp at hl
  | finish hl _ h1 => exact hend h1 hl
  | finishResume hl _ _ h1 => exact List.mem_cons_of_mem _ (hend h1 hl)

/-- The loop is left when the manager is DEAD. -/
theorem start_mem_of_step {s s' : State} {c : Choice} (hs : State.step s c = .ok s') (hm : Activation.start ∈ s.stack)
    (hl : s.ev.managerLifeState ≠ .dead) : Activation.start ∈ s'.stack := by
  by_cases htop : ∃ rest, s.stack = .start :: rest
  · obtain ⟨rest, hst⟩ := htop
    have hmsg : ∀ {base : Addr}, s.awaitMessage base = .ok s' → Activation.start ∈ s'.stack := by
      intro base h1
      unfold State.awaitMessage at h1
      simp only at h1
      split at h1
      · rcases stack_eventHandler h1 with h2 | ⟨r, p, h2⟩ <;> rw [h2] <;> simp [hst]
      · cases h1
        simp [hst]
    cases c with
    | message base =>
      simp only [State.step, hst] at hs
      split at hs
      · exact hmsg hs
      · cases hs
    | tau =>
      simp only [State.step, hst] at hs
      split at hs
      · cases hs
      · rename_i hr
        exfalso
        cases hlife : s.ev.managerLifeState <;> simp_all [LivingState.rank]
    | _ => simp only [State.step, hst] at hs; cases hs
  · have h1 := step_stack hs
    revert h1 hm htop
    generalize s.stack = st
    generalize s'.stack = st'
    intro hm htop h1
    cases h1 <;> simp_all <;> exact hm.resolve_left (Ne.symm htop)

/-- What a run keeps that loses no awaiter of `kill()`: whoever is stored in its promise waits for it. -/
structure KillSlots (s : State) : Prop where
  armed : ∀ k, (s.coros k).body.isKill = true → s.tasks.Armed k
  alive : ∀ k, (s.coros k).body.isKill = true ∨ s.nextCoro ≤ k → (s.coros k).place = .gone →
    s.slot k = none ∨ ∃ out, Event.returned k out ∈ s.tasks.log
  dead : s.ev.managerLifeState = .dead → Event.returned 0 (some 0) ∈ s.tasks.log
  living : s.ev.managerLifeState = .living → Activation.start ∈ s.stack

namespace KillSlots

variable {s s' : State} {c : Choice}

theorem init (n : ℕ) : KillSlots (State.init n) := by
  have hi : State.Initial (State.init n) := .up n
  refine ⟨fun k _ a t hp => ?_, fun k _ _ => .inl ?_, (fun h1 => by cases h1), (fun h1 => by cases h1)⟩
  · have hp' : ((State.init n).coros a).place = .atTask t k true := hp
    rw [hi.place] at hp'
    split at hp' <;> cases hp'
  · by_cases hk : k = 0 <;> simp [slot, State.init, blank, hk]

theorem isKill_back (hs : State.step s c = .ok s') {k : CoroId} (hk : (s'.coros k).body.isKill = true) :
    (s.coros k).body.isKill = true ∨ s.nextCoro ≤ k := by
  rcases (Steady.step hs).kind k with h1 | ⟨h1, -⟩
  · rw [Body.isKill_iff, h1] at hk
    exact .inl (Body.isKill_iff.mpr hk)
  · exact .inr h1

theorem armed_step (h : KillSlots s) (hreach : Reachable s) (hok : s.StartOk c) (hs : State.step s c = .ok s')
    {k : CoroId} (hk : (s'.coros k).body.isKill = true) : s'.tasks.Armed k := by
  have hstep := step_tasks hreach.sound hreach.killing hs
  by_cases hlt : k < s.nextCoro
  · have hk0 := (isKill_back hs hk).resolve_right (not_le.mpr hlt)
    exact (h.armed k hk0).step hreach.history.1 (tasks_fresh hreach.sound) (hok.2 k hlt hk0).1 hstep
  · intro a t hp
    exfalso
    rcases hstep.atTask hp with h1 | ⟨-, h1, -⟩ | ⟨-, h1⟩
    · exact hlt (hreach.killStack.bound a t k true h1)
    · exact hlt (hreach.killStack.bound a t k false h1)
    · rw [h1] at hstep
      obtain ⟨e, he, hh, -⟩ := hstep.of_begin hp
      exact hlt (hreach.sound.linked.bound (.task t) e k he hh)

theorem alive_step (h : KillSlots s) (hreach : Reachable s) (hok : s.StartOk c) (hs : State.step s c = .ok s')
    {k : CoroId} (hk : (s'.coros k).body.isKill = true ∨ s'.nextCoro ≤ k) (hp : (s'.coros k).place = .gone) :
    s'.slot k = none ∨ ∃ out, Event.returned k out ∈ s'.tasks.log := by
  have hstep := step_tasks hreach.sound hreach.killing hs
  have hk0 : (s.coros k).body.isKill = true ∨ s.nextCoro ≤ k := by
    rcases hk with hk | hk
    · exact isKill_back hs hk
    · exact .inr ((Steady.step hs).nextCoro.trans hk)
  -- the slot of a frame that is gone is not filled
  have hslot : s.slot k = none → (s.coros k).place = .gone ∨ (∃ v x, s.label c = .registered v x) →
      s'.slot k = none := by
    intro h1 hg
    rcases hstep.awaiter_eq k with h2 | ⟨-, h2⟩ | ⟨a, t, e, he, hh, hd, h2⟩
    · exact h2.trans h1
    · exact h2
    · exfalso
      have hlt : k < s.nextCoro := hreach.sound.linked.bound (.task t) e k he hh
      have hsl := (hok.2 k hlt (hk0.resolve_right (not_le.mpr hlt))).1
      have hfree : s.tasks.SlotFree k := by
        rcases h2 with ⟨h2, h3⟩ | ⟨h2, -⟩ <;> rw [h2] at hsl
        · exact hsl e he hh h3 hd
        · exact hsl e he hh hd
      rcases hg with hg | ⟨v, x, hg⟩
      · have h3 : (s.coros k).place.unfinished = true := hfree.2
        rw [hg] at h3
        cases h3
      · rcases h2 with ⟨h2, -⟩ | ⟨h2, -⟩ <;> cases hg.symm.trans h2
  have hgone : (s.coros k).place = .gone → s'.slot k = none ∨ ∃ out, Event.returned k out ∈ s'.tasks.log := by
    intro h1
    rcases h.alive k hk0 h1 with h2 | ⟨out, h2⟩
    · exact .inl (hslot h2 (.inl h1))
    · exact .inr ⟨out, hstep.mem_log h2⟩
  by_cases hlt : k < s.nextCoro
  · rcases hstep.gone hp with h1 | h1 | ⟨v, h1⟩
    · exact hgone h1
    · obtain ⟨out, h2⟩ := hreach.history.1.ended k (.inl h1)
      exact .inr ⟨out, hstep.mem_log h2⟩
    · have h2 := (hok.2 k hlt (hk0.resolve_right (not_le.mpr hlt))).2
      rw [h1] at h2
      exact .inl (hslot (h2 rfl) (.inr ⟨v, some k, h1⟩))
  · exact hgone (tasks_fresh hreach.sound k (not_lt.mp hlt))

theorem dead_step (h : KillSlots s) (hreach : Reachable s) (hs : State.step s c = .ok s')
    (hd : s'.ev.managerLifeState = .dead) : Event.returned 0 (some 0) ∈ s'.tasks.log := by
  cases step_lifeEffect hs with
  | same hl => exact (step_tasks hreach.sound hreach.killing hs).mem_log (h.dead (hl.symm.trans hd))
  | start _ hl | dying _ _ _ hl =>
    rw [hl] at hd
    cases hd
  | dead hx =>
    obtain ⟨x, rest, hst, hb, h0⟩ := State.atExit_iff.mp hx
    obtain rfl := (hreach.killing.only x).mp (by rw [hb]; rfl)
    obtain ⟨pc, ret, hb', hk⟩ := step_kill hreach.killing hst hs
    have hpc : pc = .wait := by
      rw [hb] at hb'
      simpa using hb'.symm
    cases hk with
    | begin | flushed | cancel | cancelled => cases hpc
    | submit hf => rcases hf with rfl | rfl <;> cases hpc
    | wait hne => exact absurd h0 hne
    | fail hne => exact absurd hpc hne
    | exit _ h1 =>
      have hc := (hreach.sound.coherent hst (by simp)).modEv
        (f := fun ev => { ev with managerLifeState := .dead, ringUp := false }) rfl rfl rfl rfl rfl
      exact (tasks_finish hc (l := .finish 0 (some 0)) (by exact hst) (.inl rfl) h1).log_finish

theorem living_step (h : KillSlots s) (hreach : Reachable s) (hs : State.step s c = .ok s')
    (hl' : s'.ev.managerLifeState = .living) : Activation.start ∈ s'.stack := by
  by_cases hl : s.ev.managerLifeState = .living
  · exact start_mem_of_step hs (h.living hl) (by simp [hl])
  · -- the manager was made LIVING in this step
    have hno : s.ev.managerLifeState = .notStarted := by
      cases step_lifeEffect hs with
      | same h1 => exact absurd (h1.symm.trans hl') hl
      | start h1 => exact h1
      | dying _ _ _ h1 | dead _ h1 => cases h1.symm.trans hl'
    have hloops := hreach.oneLoop.started hno
    have htop : ∀ {a : Activation} {rest : List Activation}, s.stack = a :: rest → a.ofLoop = true → False := by
      intro a rest hst ha
      rw [State.loops, hst, List.filter_cons_of_pos ha] at hloops
      cases hloops
    cases step_loopEffect hs with
    | issue h1 => exact absurd (h1.life.symm.trans hl') hl
    | start => exact List.mem_cons_self
    | leave hst | message hst | cqe hst | seen hst | handlerReturn hst => exact (htop hst rfl).elim
    | dying => cases hl'
    | dead _ _ h1 => cases h1.life.symm.trans hl'
    | poll _ _ h1 h2 => exact absurd ((h2.life.trans h1.life).symm.trans hl') hl
    | register _ h1 => exact absurd ((Uncounted.registerCoroReturn h1).life.symm.trans hl') hl

theorem step (h : KillSlots s) (hreach : Reachable s) (hok : s.StartOk c) (hs : State.step s c = .ok s') :
    KillSlots s' where
  armed _ hk := h.armed_step hreach hok hs hk
  alive _ hk hp := h.alive_step hreach hok hs hk hp
  dead hd := h.dead_step hreach hs hd
  living hl := h.living_step hreach hs hl

end KillSlots

theorem killSlots {n : ℕ} {s : State} (hr : Run State.step State.StartOk (State.init n) s) : KillSlots s :=
  hr.inv_of (J := Reachable) (fun _ h => Reach.reachable ⟨_, .up n, h⟩) (.init n)
    fun _ _ _ hreach h hok hs => h.step hreach hok hs

/-- Nobody awaits `kill()` once `kill_internal` has ended and something else is on top. -/
theorem KillSlots.unawaited {s : State} (h : KillSlots s) (hreach : Reachable s) (hd : s.ev.managerLifeState = .dead)
    (htop : ∀ x rest, s.stack = x :: rest → x.isCall = true → ∃ k, x = .run k ∧ (s.coros k).body.isKill = false)
    {a k : CoroId} {t : TaskRef} {b : Bool} (hp : (s.coros a).place = .atTask t k b) :
    (s.coros k).body.isKill = false := by
  have hzero : (s.coros 0).body.isKill = true := Body.isKill_iff.mpr (.inr ((hreach.killing.only 0).mpr rfl))
  have hstart : ∀ {o : Option CoroId} {u : TaskRef} {x y : CoroId} {rest : List Activation},
      (s.coros y).body.isKill = true → ¬ Starting o u x y rest s.stack := by
    intro o u x y rest hy h1
    generalize hst : s.stack = st at h1
    cases h1 with
    | awaits | starts | ends =>
      obtain ⟨z, h2, -⟩ := htop _ _ hst rfl
      cases h2
    | runs =>
      obtain ⟨z, h2, h3⟩ := htop _ _ hst rfl
      obtain rfl : y = z := by simpa using h2
      rw [hy] at h3
      cases h3
  -- the coroutine `0` is awaited by none
  have hinternal : ∀ x u b', (s.coros x).place ≠ .atTask u 0 b' := by
    intro x u b' h1
    cases b' with
    | true => exact (h.armed 0 hzero x u h1).2.2 _ (h.dead hd)
    | false =>
      obtain ⟨rest, h2⟩ := hreach.killStack.internal x u h1
      exact hstart hzero h2
  by_contra hk
  have hk' : (s.coros k).body.isKill = true := by simpa using hk
  have hkind : (s.coros k).body.kind = .kill := by
    refine (Body.isKill_iff.mp hk').resolve_right fun h1 => ?_
    obtain rfl := (hreach.killing.only k).mp h1
    exact hinternal a t b hp
  cases b with
  | false =>
    obtain ⟨rest, h1 | ⟨-, u, h1, -⟩⟩ := hreach.killStack.kill a t k hkind hp
    · exact hstart hk' h1
    · exact hinternal k u false h1
  | true =>
    obtain ⟨h1, -, h2⟩ := h.armed k hk' a t hp
    have hslot : s.slot k = some a := h1
    have hfits := hreach.sound.records.fits k
    cases hpk : (s.coros k).place with
    | initial => cases (hreach.begun.awaiter k hpk).symm.trans h1
    | running =>
      obtain ⟨rest, hst⟩ := hreach.killStack.top k hkind hpk
      obtain ⟨z, h3, h4⟩ := htop _ _ hst rfl
      obtain rfl : k = z := by simpa using h3
      rw [hk'] at h4
      cases h4
    | atTask u x b' =>
      obtain rfl := hreach.killStack.awaits k u x b' hkind hpk
      exact hinternal k u b' hpk
    | final =>
      obtain ⟨out, h3⟩ := hreach.history.1.ended k (.inl hpk)
      exact h2 out h3
    | gone =>
      rcases h.alive k (.inl hk') hpk with h3 | ⟨out, h3⟩
      · cases h3.symm.trans hslot
      · exact h2 out h3
    | atIo | atGeneric | atAlways =>
      rw [hpk] at hfits
      cases hb : (s.coros k).body <;> rw [hb] at hfits hkind <;> cases hkind
      cases hfits

theorem step_start {s s' : State} (hs : State.step s (.user .start) = .ok s') :
    s' = s.startLoop ∧ ∀ x rest, s.stack = x :: rest → x.isCall = true →
      ∃ k, x = .run k ∧ (s.coros k).body.isKill = false := by
  have hbody : ∀ {h : CoroId}, s.bodyStep h (.user .start) = .ok s' → s' = s.startLoop ∧
      (s.coros h).body.isKill = false := by
    intro h h1
    cases hb : (s.coros h).body with
    | user =>
      simp only [bodyStep, hb] at h1
      exact ⟨(Except.ok.inj h1).symm, rfl⟩
    | killInternal => simp [bodyStep, hb] at h1
    | kill ret => cases ret <;> simp [bodyStep, hb] at h1
    | submitAndWait q l =>
      cases hpc : l.pc <;> simp only [bodyStep, hb, hpc] at h1
      case handler => exact ⟨(Except.ok.inj h1).symm, rfl⟩
      all_goals cases h1
    | poll pc =>
      cases pc <;> simp only [bodyStep, hb] at h1
      case handler => exact ⟨(Except.ok.inj h1).symm, rfl⟩
      all_goals cases h1
  cases hst : s.stack with
  | nil => simp [State.step, hst] at hs
  | cons x rest =>
    cases x with
    | main =>
      simp only [State.step, hst] at hs
      refine ⟨(Except.ok.inj hs).symm, fun y l h1 h2 => ?_⟩
      rw [← (List.cons.inj h1).1] at h2
      cases h2
    | run h =>
      rw [step_run hst] at hs
      obtain ⟨h1, h2⟩ := hbody hs
      exact ⟨h1, fun y l h3 _ => ⟨h, (List.cons.inj h3).1.symm, h2⟩⟩
    | _ => simp [State.step, hst] at hs

/-- **`start()` returns when the manager is DEAD.**  In a run of a manager whose ring was set up let no call of
`start()` from outside the running loop find the manager DYING, and let no awaiter of a `kill()` be lost.  When a
call of `start()` from outside the running loop returns, the manager is DEAD, nothing is in flight, the ring is
exited, and no coroutine awaits `kill()` or `kill_internal`. -/
theorem start_returns {n : ℕ} {s s' : State} {c : Choice} (hr : Run State.step State.StartOk (State.init n) s)
    (hok : s.StartOk c) (hs : State.step s c = .ok s') (hret : s.StartReturns c) :
    s'.ev.managerLifeState = .dead ∧ s'.ev.inFlightRequests = 0 ∧ s'.ev.ringUp = false ∧
      ∀ a t k b, (s'.coros a).place = .atTask t k b → (s'.coros k).body.isKill = false := by
  have hreach : Reachable s := Reach.reachable ⟨_, .up n, hr⟩
  have hkept := killSlots hr
  have hstate : s.ev.managerLifeState = .dead ∧ s'.ev = s.ev ∧ s'.coros = s.coros ∧
      ∀ x rest, s.stack = x :: rest → x.isCall = true → ∃ k, x = .run k ∧ (s.coros k).body.isKill = false := by
    unfold State.StartReturns at hret
    split at hret
    · rename_i rest hst
      simp only [State.step, hst] at hs
      split at hs
      · cases hs
      · rename_i hrank
        obtain rfl := Except.ok.inj hs
        refine ⟨?_, rfl, rfl, fun x l h1 h2 => ?_⟩
        · cases hl : s.ev.managerLifeState <;> simp [hl, LivingState.rank] at hrank ⊢
        · rw [hst] at h1
          rw [← (List.cons.inj h1).1] at h2
          cases h2
    · obtain ⟨hloops, hrank⟩ := hret
      obtain ⟨h1, h2⟩ := step_start hs
      unfold startLoop at h1
      rw [if_pos hrank] at h1
      subst h1
      refine ⟨?_, rfl, rfl, h2⟩
      cases hl : s'.ev.managerLifeState with
      | dead => rfl
      | notStarted => simp [hl, LivingState.rank] at hrank
      | dying => exact absurd hl (hok.1 rfl hloops)
      | living =>
        -- the loop that made it so would be on the stack
        have h3 : Activation.start ∈ s'.loops := List.mem_filter.mpr ⟨hkept.living hl, rfl⟩
        rw [hloops] at h3
        cases h3
    · exact hret.elim
  obtain ⟨hd, hev, hcoros, htop⟩ := hstate
  rw [hev, hcoros]
  exact ⟨hd, hreach.counted.drained hd, hreach.counted.ringUp.mpr hd,
    fun a t k b hp => hkept.unawaited hreach hd htop hp⟩

/-- A coroutine awaits `kill()` while its own request is dispatched.  It is answered, and `start()` returns. -/
theorem start_returns_answered : ∃ s s' : State, State.step s .tau = .ok s' ∧ s.StartReturns .tau ∧ s'.stack = [.main] ∧
    Event.taskReturned 1 (.var 1) 2 0 ∈ s'.trace ∧ s'.ev.managerLifeState = .dead ∧ s'.ev.inFlightRequests = 0 ∧
    s'.ev.ringUp = false := by
  have he : (exec State.step State.StartOk (State.init 4) [.user .call, .user (.startTask 0),
      .user (.awaitOp (.read ⟨3, 100, 8⟩)), .sub 1, .tau, .user .start, .message 0, .cqe 0 8 0, .user .kill,
      .user (.awaitTask 1), .tau, .tau, .tau, .tau, .sub 1, .tau, .tau, .tau, .tau, .tau, .tau, .tau, .tau, .tau,
      .message 0, .cqe 0 0 0, .tau, .tau, .tau, .user (.coReturn 0), .tau, .tau, .tau]).map (fun s =>
        decide (s.stack = [.start, .main] ∧ Event.taskReturned 1 (.var 1) 2 0 ∈ s.trace ∧
          s.ev.managerLifeState = .dead)) = some true := by decide
  obtain ⟨s, hr, hp⟩ := Run.exists_of_exec he
  obtain ⟨hst, hm, hl⟩ := of_decide_eq_true hp
  have hs : State.step s .tau = .ok s.pop := by
    simp [State.step, hst, hl, LivingState.rank]
  have hret : s.StartReturns .tau := by simp [State.StartReturns, hst]
  have hok : s.StartOk .tau := ⟨(fun h1 => by cases h1), fun k _ _ => ⟨by simp [State.label, hst, Tasks.SlotOk],
    by simp [State.label, hst, TaskLabel.destroys]⟩⟩
  obtain ⟨h1, h2, h3, -⟩ := start_returns hr hok hs hret
  exact ⟨s, s.pop, hs, hret, by simp [hst], hm, h1, h2, h3⟩

/-- A coroutine that is registered before `start()` awaits `kill()`.  `start()` then returns at once: the manager is
DYING, the cancel request is in flight, and the coroutine waits. -/
theorem start_returns_fails : ∃ s s' : State, Run State.step (fun _ _ => True) (State.init 4) s ∧
    State.step s (.user .start) = .ok s' ∧ s.StartReturns (.user .start) ∧ s'.ev.managerLifeState = .dying ∧
    s'.ev.inFlightRequests = 1 ∧ s'.ev.ringUp = true ∧ (s'.coros 1).place = .atTask (.var 1) 2 true ∧
    (s'.coros 2).body.isKill = true := by
  have he : (exec State.step (fun _ _ => True) (State.init 4) [.user .call, .user (.registerCoro 0), .user .kill,
      .user (.awaitTask 1), .tau, .tau, .tau, .tau, .sub 1, .tau, .tau, .tau, .tau, .tau, .tau, .tau,
      .pick 0 false]).map (fun s => decide (s.stack = [.main] ∧ s.ev.managerLifeState = .dying ∧
        s.ev.inFlightRequests = 1 ∧ s.ev.ringUp = true ∧ (s.coros 1).place = .atTask (.var 1) 2 true ∧
        (s.coros 2).body.isKill = true)) = some true := by decide
  obtain ⟨s, hr, hp⟩ := Run.exists_of_exec he
  obtain ⟨hst, hl, h1, h2, h3, h4⟩ := of_decide_eq_true hp
  refine ⟨s, s, hr, ?_, ?_, hl, h1, h2, h3, h4⟩
  · simp [State.step, hst, userStep, startLoop, hl, LivingState.rank]
  · simp [State.StartReturns, hst, State.loops, Activation.ofLoop, hl, LivingState.rank]

end EvManager
