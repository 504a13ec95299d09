import EvManager.KillInternal
import EvManager.TaskSlots

/-!
# What runs above an awaited `kill()`

A coroutine that awaits `kill()` starts it, and `kill()` starts `kill_internal`.  `KillStack`: until these two have
suspended or ended nothing else comes on the stack, so that no user code runs while the handle of whoever awaits them is
not stored.
-/

namespace EvManager

open Lib State

/-- The body of `kill` or of `kill_internal`. -/
def Body.isKill : Body → Bool
  | .kill _ | .killInternal _ => true
  | _ => false

theorem Body.isKill_iff {b : Body} : b.isKill = true ↔ b.kind = .kill ∨ b.kind = .killInternal := by
  cases b <;> simp [Body.isKill, Body.kind]

theorem Body.eq_user {b : Body} (hk : b.kind = .user) : b = .user := by
  cases b <;> first | rfl | cases hk

/-- `awaiter_handle` of the promise of `h`. -/
def State.slot (h : CoroId) (s : State) : Option CoroId := (s.coros h).promise.awaiterHandle

/-- The coroutine `a` has started `c` in the `await_suspend` of the task `t`, and nothing but that lies on `rest`; while
`c` runs its slot is `o`, which is empty. -/
inductive Starting (o : Option CoroId) (t : TaskRef) (a c : CoroId) (rest : List Activation) : List Activation → Prop
  | awaits : Starting o t a c rest (.taskAwait t a :: rest)
  | starts : Starting o t a c rest (.taskStart t c :: .taskAwait t a :: rest)
  | ends : Starting o t a c rest (.finalSuspend c :: .taskStart t c :: .taskAwait t a :: rest)
  | runs : o = none → Starting o t a c rest (.run c :: .taskStart t c :: .taskAwait t a :: rest)

/-! ### Steps of the calls that lie there -/

namespace State

variable {s s' : State} {h a : CoroId} {t : TaskRef} {rest : List Activation} {c : Choice}

theorem step_taskAwait (hst : s.stack = .taskAwait t a :: rest) (hs : step s c = .ok s') :
    s.pop.awaitSuspendTail t a = .ok s' := by
  cases c <;> simp only [step, hst] at hs <;> first | exact hs | cases hs

theorem step_taskStart (hst : s.stack = .taskStart t h :: rest) (hs : step s c = .ok s') :
    s.pop.startReturn t h = .ok s' := by
  cases c <;> simp only [step, hst] at hs <;> first | exact hs | cases hs

theorem step_finalSuspend (hst : s.stack = .finalSuspend h :: rest) (hs : step s c = .ok s') :
    s' = s.pop.finalReturn h := by
  cases c <;> simp only [step, hst] at hs <;> first | exact (Except.ok.inj hs).symm | cases hs

/-- `start()` returns without an exception. -/
theorem startReturn_calm (hth : (s.coros h).promise.exceptionPtr = false)
    (hs : s.startReturn t h = .ok s') : s' = s := by
  unfold startReturn at hs
  obtain ⟨e, -, h1⟩ := bind_ok.mp hs
  rw [hth, Bool.and_false, if_neg (by simp)] at h1
  exact (Except.ok.inj h1).symm

theorem finish_unawaited (hst : s.stack = .run h :: rest) (hslot : s.slot h = none) {out : Option ℕ}
    (hs : s.finish h out = .ok s') : s'.stack = .finalSuspend h :: rest ∧
      ∀ x, x ≠ h → (s'.coros x).place = (s.coros x).place ∧ s'.slot x = s.slot x := by
  rcases finish_ok hs with ⟨a, ha, -⟩ | ⟨-, rfl⟩
  · have h1 : s.slot h = some a := ha
    rw [hslot] at h1
    cases h1
  · refine ⟨by simp [endBody, hst], fun x hx => ?_⟩
    have h1 := Coherent.endBody_coros h out (s.storeResult h out) x
    have h2 : (s.storeResult h out).coros x = s.coros x := by
      cases out with
      | none => simp [storeResult, modPromise, modCoro, hx]
      | some code =>
        unfold storeResult returnValue
        simp only
        split <;> rfl
    rw [h2, if_neg hx] at h1
    exact h1

theorem finalReturn_other {x : CoroId} (hx : x ≠ h) : (s.finalReturn h).coros x = s.coros x := by
  unfold finalReturn
  simp only
  split <;> simp [State.setPlace, modCoro, hx]

theorem kill_unawaited (hst : s.stack = .run 0 :: rest) (hslot : s.slot 0 = none) {pc : KillPc} {ret : Option ℤ}
    (hs : KillStep s 0 pc ret s') :
    (s'.stack = .run 0 :: rest ∧ s'.slot 0 = none ∨ s'.stack = rest ∨ s'.stack = .finalSuspend 0 :: rest) ∧
      ∀ x, x ≠ 0 → (s'.coros x).place = (s.coros x).place ∧ s'.slot x = s.slot x := by
  have hset : ∀ {u : State} {p : KillPc}, u.stack = s.stack → u.coros = s.coros →
      ((u.setBody 0 (.killInternal p)).stack = .run 0 :: rest ∧ (u.setBody 0 (.killInternal p)).slot 0 = none) ∧
        ∀ x, x ≠ 0 → ((u.setBody 0 (.killInternal p)).coros x).place = (s.coros x).place ∧
          (u.setBody 0 (.killInternal p)).slot x = s.slot x := by
    intro s1 p h1 h2
    refine ⟨⟨h1.trans hst, ?_⟩, fun x hx => ?_⟩
    · simpa [slot, State.setBody, modCoro, h2] using hslot
    · simp [slot, State.setBody, modCoro, hx, h2]
  have hfin : ∀ {u : State} {out : Option ℕ}, u.stack = s.stack → u.coros = s.coros → u.finish 0 out = .ok s' →
      s'.stack = .finalSuspend 0 :: rest ∧
        ∀ x, x ≠ 0 → (s'.coros x).place = (s.coros x).place ∧ s'.slot x = s.slot x := by
    intro s1 out h1 h2 h3
    obtain ⟨h4, h5⟩ := finish_unawaited (h1.trans hst) (by rw [slot, h2]; exact hslot) h3
    refine ⟨h4, fun x hx => ?_⟩
    obtain ⟨h6, h7⟩ := h5 x hx
    rw [h2] at h6
    exact ⟨h6, h7.trans (by rw [slot, h2]; rfl)⟩
  cases hs with
  | begin =>
    obtain ⟨h1, h2⟩ := hset (u := s.modEv _) (p := .flush 0) rfl rfl
    exact ⟨.inl h1, h2⟩
  | submit _ _ h1 =>
    obtain ⟨-, -, -, rfl⟩ := submitQueuedEntries_ok h1
    obtain ⟨h1, h2⟩ := hset (u := s.modEv _) rfl rfl
    exact ⟨.inl h1, h2⟩
  | flushed | cancelled =>
    obtain ⟨h1, h2⟩ := hset (u := s) rfl rfl
    exact ⟨.inl h1, h2⟩
  | cancel h1 =>
    obtain ⟨ring, -, -, rfl⟩ := ioUringGetSqe_some h1
    obtain ⟨h1, h2⟩ := hset (u := (s.setRing ring).writeSqe _ _) (p := .flushCancel 0) rfl rfl
    exact ⟨.inl h1, h2⟩
  | wait =>
    refine ⟨.inr (.inl (stack_suspend hst)), fun x hx => ?_⟩
    simp [slot, suspend, State.setPlace, State.pop, modCoro, hx]
  | exit _ h1 =>
    obtain ⟨h2, h3⟩ := hfin (by rfl) (by rfl) h1
    exact ⟨.inr (.inr h2), h3⟩
  | fail _ _ h1 =>
    obtain ⟨h2, h3⟩ := hfin rfl rfl h1
    exact ⟨.inr (.inr h2), h3⟩

/-- `kill_internal`, which is awaited for the first time, and what its start does. -/
theorem starting_step (hreach : Reachable s) (hcalm : (s.coros 0).promise.exceptionPtr = false)
    (hst : Starting (s.slot 0) t a 0 rest s.stack) (hs : step s c = .ok s') :
    s.stack = .taskAwait t a :: rest ∨
      Starting (s'.slot 0) t a 0 rest s'.stack ∧ ∀ x, x ≠ 0 → (s'.coros x).place = (s.coros x).place ∧
      s'.slot x = s.slot x := by
  generalize hl : s.stack = st at hst
  cases hst with
  | awaits => exact .inl rfl
  | starts =>
    have h1 := startReturn_calm (s := s.pop) hcalm (step_taskStart hl hs)
    subst h1
    refine .inr ⟨?_, fun x _ => ⟨rfl, rfl⟩⟩
    rw [stack_pop, hl]
    exact .awaits
  | ends =>
    have h1 := step_finalSuspend hl hs
    subst h1
    refine .inr ⟨?_, fun x hx => ?_⟩
    · rw [stack_finalReturn, stack_pop, hl]
      exact .starts
    · have h2 := finalReturn_other (s := s.pop) hx
      rw [slot, h2]
      exact ⟨rfl, rfl⟩
  | runs ho =>
    obtain ⟨pc, ret, -, hk⟩ := step_kill hreach.killing hl hs
    obtain ⟨h1, h2⟩ := kill_unawaited hl ho hk
    refine .inr ⟨?_, h2⟩
    rcases h1 with ⟨h1, h3⟩ | h1 | h1 <;> rw [h1]
    · exact .runs h3
    · exact .starts
    · exact .ends

theorem step_begin (hl : s.label c = .begin a t) (hs : step s c = .ok s') :
    ∃ rest, s.stack = .run a :: rest ∧ s.awaitTask a t = .ok s' := by
  have h1 := s.label_case c
  rw [hl] at h1
  generalize hx : TaskLabel.begin a t = l at h1
  cases h1 with
  | @main b | @handler _ b => cases b <;> cases hx
  | @body h b rest hst hk =>
    cases b with
    | awaitTask v =>
      obtain ⟨rfl, rfl⟩ : a = h ∧ t = .var v := by simpa [Act.labelIn] using hx
      refine ⟨rest, hst, ?_⟩
      simpa only [step_run hst, bodyStep, coroStep, Body.eq_user hk] using hs
    | _ => cases hx
  | @kill h rest hst hb =>
    obtain ⟨rfl, rfl⟩ : a = h ∧ t = .kill := by simpa using hx
    refine ⟨rest, hst, ?_⟩
    simpa only [step_run hst, bodyStep, hb] using hs
  | throws | seen | registered | tail | tau => cases hx

/-- A `co_await` that begins and does not go on at once has started the task. -/
theorem begin_stack (hreach : Reachable s) {x : CoroId} (hl : s.label c = .begin a t)
    (hp : (s'.coros a).place = .atTask t x false) (hs : step s c = .ok s') :
    ∃ rest, s.stack = .run a :: rest ∧ s'.stack = .run x :: .taskStart t x :: .taskAwait t a :: rest ∧
    s'.slot x = none := by
  have hstep := step_tasks hreach.sound hreach.killing hs
  rw [hl] at hstep
  obtain ⟨hi, haw, l, h1, h2⟩ := hstep.begin_started hp
  have hslot : s'.slot x = none := (congrFun haw x).trans (hreach.begun.awaiter x hi)
  obtain ⟨rest, hst, ha⟩ := step_begin hl hs
  have h3 := (tasks_pop hst rfl).1
  obtain rfl : l = rest.filter Activation.isCall := (List.cons.inj (h1.symm.trans h3)).2
  refine ⟨rest, hst, ?_, hslot⟩
  have hcalls : ∀ {st : List Activation}, s'.stack = st →
      st.filter Activation.isCall = .run x :: .taskStart t x :: .taskAwait t a :: rest.filter Activation.isCall := by
    rintro st rfl
    exact h2
  rcases stack_awaitTask hst ha with h4 | h4 | ⟨y, h4⟩
  · have h5 := congrArg List.length (hcalls h4)
    simp only [List.length_cons] at h5
    omega
  · have h5 := congrArg List.length (hcalls h4)
    rw [List.filter_cons_of_pos rfl] at h5
    simp only [List.length_cons] at h5
    omega
  · have h5 := (List.cons.inj (hcalls h4)).1
    obtain rfl : y = x := by simpa using h5
    exact h4

theorem step_killBody (hst : s.stack = .run h :: rest) (hk : (s.coros h).body.kind = .kill) (hs : step s c = .ok s') :
    (s.label c = .begin h .kill ∧ s.awaitTask h .kill = .ok s') ∨ ∃ code, s.finish h (some code) = .ok s' := by
  rw [step_run hst] at hs
  unfold bodyStep at hs
  have hbody : ∃ ret, (s.coros h).body = .kill ret := by
    revert hk
    cases (s.coros h).body <;> simp [Body.kind]
  obtain ⟨ret, hb⟩ := hbody
  rw [hb] at hs
  cases ret with
  | none =>
    cases c with
    | tau =>
      refine .inl ⟨?_, hs⟩
      simp [label, hst, hb]
    | _ => cases hs
  | some code =>
    cases c with
    | tau => exact .inr ⟨code, hs⟩
    | _ => cases hs

end State

/-! ### The invariant -/

/-- What is known of `kill` and `kill_internal`: they do not throw, they run on top of the stack only, `kill` awaits
`kill_internal` only, and while a coroutine that awaits one of them has not been stored nothing but their start lies
on it. -/
structure KillStack (s : State) : Prop where
  calm : ∀ k, (s.coros k).body.isKill = true ∨ s.nextCoro ≤ k → (s.coros k).promise.exceptionPtr = false
  top : ∀ k, (s.coros k).body.kind = .kill → (s.coros k).place = .running → ∃ rest, s.stack = .run k :: rest
  bound : ∀ a t k b, (s.coros a).place = .atTask t k b → k < s.nextCoro
  awaits : ∀ k t x b, (s.coros k).body.kind = .kill → (s.coros k).place = .atTask t x b → x = 0
  internal : ∀ a t, (s.coros a).place = .atTask t 0 false → ∃ rest, Starting (s.slot 0) t a 0 rest s.stack
  kill : ∀ a t k, (s.coros k).body.kind = .kill → (s.coros a).place = .atTask t k false → ∃ rest,
    Starting (s.slot k) t a k rest s.stack ∨ s.slot k = none ∧ ∃ u, (s.coros k).place = .atTask u 0 false ∧
      Starting (s.slot 0) u k 0 (.taskStart t k :: .taskAwait t a :: rest) s.stack

namespace KillStack

variable {s s' : State} {c : Choice}

theorem init (hi : State.Initial s) : KillStack s := by
  have hp : ∀ a t k b, (s.coros a).place ≠ .atTask t k b := by
    intro a t k b h1
    rw [hi.place] at h1
    split at h1 <;> cases h1
  refine ⟨fun k _ => ?_, fun k _ h1 => ?_, fun a t k b h1 => absurd h1 (hp a t k b),
    fun k t x b _ h1 => absurd h1 (hp k t x b),
    fun a t h1 => absurd h1 (hp a t 0 false), fun a t k _ h1 => absurd h1 (hp a t k false)⟩
  · cases hi <;> by_cases hk : k = 0 <;> simp [State.init, initFailed, blank, hk]
  · rw [hi.place] at h1
    split at h1 <;> cases h1

/-- The body was one of `kill` before the step, or its coroutine is new. -/
theorem kind_back (hs : State.step s c = .ok s') {k : CoroId} (hk : (s'.coros k).body.kind = .kill) :
    (s.coros k).body.kind = .kill ∨ s.nextCoro ≤ k := by
  rcases (Steady.step hs).kind k with h1 | ⟨h1, -⟩
  · exact .inl (h1.symm.trans hk)
  · exact .inr h1

/-- What is not new was there and has run the same function. -/
theorem kind_of_place (hreach : Reachable s) (hs : State.step s c = .ok s') {k : CoroId}
    (hp : (s.coros k).place ≠ .gone) (hk : (s'.coros k).body.kind = .kill) : (s.coros k).body.kind = .kill := by
  rcases kind_back hs hk with h1 | h1
  · exact h1
  · exact absurd (tasks_fresh hreach.sound k h1) hp

theorem thrown_finish {u : State} (hc : Coherent u) {h : CoroId} {rest : List Activation}
    (hst : u.stack = .run h :: rest) {x : ℕ} (hs : u.finish h (some x) = .ok s') (k : CoroId) :
    (s'.coros k).promise.exceptionPtr = (u.coros k).promise.exceptionPtr ∨
      k = u.nextCoro ∧ (s'.coros k).promise.exceptionPtr = false := by
  rcases (tasks_finish hc hst (l := .finish h (some x)) (.inl rfl) hs).thrown_eq k with h1 | h1 | ⟨-, h1 | ⟨h1, -⟩⟩
  · exact .inl h1
  · exact .inr h1
  · cases h1
  · cases h1

theorem calm_step (h : KillStack s) (hreach : Reachable s) (hs : State.step s c = .ok s') {k : CoroId}
    (hk : (s'.coros k).body.isKill = true ∨ s'.nextCoro ≤ k) : (s'.coros k).promise.exceptionPtr = false := by
  have hk0 : (s.coros k).body.isKill = true ∨ s.nextCoro ≤ k := by
    rcases hk with hk | hk
    · rcases (Steady.step hs).kind k with h1 | ⟨h1, -⟩
      · rw [Body.isKill_iff, h1] at hk
        exact .inl (Body.isKill_iff.mpr hk)
      · exact .inr h1
    · exact .inr ((Steady.step hs).nextCoro.trans hk)
  have hold := h.calm k hk0
  have hfin : ∀ {u : State} {rest : List Activation} {x : ℕ}, Coherent u → u.stack = .run k :: rest →
    u.coros = s.coros →
      u.finish k (some x) = .ok s' → (s'.coros k).promise.exceptionPtr = false := by
    intro s1 rest x hc hst hcoros h1
    rcases thrown_finish hc hst h1 k with h2 | ⟨-, h2⟩
    · rw [h2, hcoros]
      exact hold
    · exact h2
  rcases (step_tasks hreach.sound hreach.killing hs).thrown_eq k with h1 | ⟨-, h1⟩ | ⟨hrun, h1⟩
  · exact h1.trans hold
  · exact h1
  · have hkill : (s.coros k).body.isKill = true := by
      refine hk0.resolve_right fun hge => ?_
      rw [tasks_fresh hreach.sound k hge] at hrun
      cases hrun
    rcases Body.isKill_iff.mp hkill with hk1 | hk1
    · obtain ⟨rest, hst⟩ := h.top k hk1 hrun
      rcases step_killBody hst hk1 hs with ⟨h2, -⟩ | ⟨code, h2⟩
      · rw [h2] at h1
        simp at h1
      · exact hfin (hreach.sound.coherent hst (by simp)) hst rfl h2
    · obtain rfl := (hreach.killing.only k).mp hk1
      obtain ⟨rest, hst⟩ := hreach.killPlace.top hrun
      have hc := hreach.sound.coherent hst (by simp)
      obtain ⟨pc, ret, -, hks⟩ := step_kill hreach.killing hst hs
      have hset : ∀ {u : State} {p : KillPc}, u.coros = s.coros →
          ((u.setBody 0 (.killInternal p)).coros 0).promise.exceptionPtr = false := by
        intro s1 p h2
        simpa [State.setBody, modCoro, h2] using hold
      cases hks with
      | begin => exact hset (u := s.modEv _) (p := .flush 0) rfl
      | submit _ _ h2 =>
        obtain ⟨-, -, -, rfl⟩ := submitQueuedEntries_ok h2
        exact hset (u := s.modEv _) rfl
      | flushed | cancelled => exact hset (u := s) rfl
      | cancel h2 =>
        obtain ⟨ring, -, -, rfl⟩ := ioUringGetSqe_some h2
        exact hset (u := (s.setRing ring).writeSqe _ _) (p := .flushCancel 0) rfl
      | wait => simpa [suspend, State.setPlace, State.pop, modCoro] using hold
      | exit _ h2 =>
        exact hfin
          (hc.modEv (f := fun ev => { ev with managerLifeState := .dead, ringUp := false }) rfl rfl rfl rfl rfl)
          (by exact hst) rfl h2
      | fail _ _ h2 => exact hfin hc hst rfl h2

theorem run_notMem (hreach : Reachable s) {k : CoroId} {rest : List Activation} (hst : s.stack = .run k :: rest) :
    Activation.run k ∉ rest := by
  have h1 := (hreach.sound.coherent hst (by simp)).placed.nodup
  have h2 : (Activation.run k :: rest).filterMap Activation.subject = k :: rest.filterMap Activation.subject :=
    List.filterMap_cons_some rfl
  rw [hst, h2] at h1
  exact fun hm => (List.nodup_cons.mp h1).1 (List.mem_filterMap.mpr ⟨_, hm, rfl⟩)

theorem top_step (h : KillStack s) (hreach : Reachable s) (hreach' : Reachable s') (hs : State.step s c = .ok s')
    {k : CoroId} (hk : (s'.coros k).body.kind = .kill) (hp : (s'.coros k).place = .running) :
    ∃ rest, s'.stack = .run k :: rest := by
  have hm := hreach'.running.mp hp
  by_cases hrun : (s.coros k).place = .running
  · have hk0 := kind_of_place hreach hs (by rw [hrun]; simp) hk
    obtain ⟨rest, hst⟩ := h.top k hk0 hrun
    have hno := run_notMem hreach hst
    have hhead : ∀ {x : CoroId} {l : List Activation}, s'.stack = .run x :: l → Activation.run k ∉ l →
        ∃ rest, s'.stack = .run k :: rest := by
      intro x l h1 h2
      rw [h1] at hm
      rcases List.mem_cons.mp hm with h3 | h3
      · obtain rfl : k = x := by simpa using h3
        exact ⟨l, h1⟩
      · exact absurd h3 h2
    rcases step_killBody hst hk0 hs with ⟨-, h1⟩ | ⟨code, h1⟩
    · rcases stack_awaitTask hst h1 with h2 | h2 | ⟨x, h2⟩
      · exact absurd (h2 ▸ hm) hno
      · exact ⟨rest, h2⟩
      · exact hhead h2 (by simpa using hno)
    · have he : ((s.storeResult k (some code)).endBody k (some code)).stack = .finalSuspend k :: rest := by
        simp [endBody, hst]
      rcases finish_ok h1 with ⟨a, -, h2⟩ | ⟨-, rfl⟩
      · have h3 := stack_resume h2
        rw [he] at h3
        exact hhead h3 (by simpa using hno)
      · rw [he] at hm
        exact absurd hm (by simpa using hno)
  · exact (step_stack hs).run_head hm fun h1 => hrun (hreach.running.mpr h1)

theorem bound_step (h : KillStack s) (hreach : Reachable s) (hs : State.step s c = .ok s') {a k : CoroId} {t : TaskRef}
    {b : Bool} (hp : (s'.coros a).place = .atTask t k b) : k < s'.nextCoro := by
  have hstep := step_tasks hreach.sound hreach.killing hs
  refine lt_of_lt_of_le ?_ (Steady.step hs).nextCoro
  rcases hstep.atTask hp with h1 | ⟨-, h1, -⟩ | ⟨-, h1⟩
  · exact h.bound a t k b h1
  · exact h.bound a t k false h1
  · rw [h1] at hstep
    obtain ⟨e, he, hh, -⟩ := hstep.of_begin hp
    exact hreach.sound.linked.bound (.task t) e k he hh

theorem awaits_step (h : KillStack s) (hreach : Reachable s) (hs : State.step s c = .ok s') {k x : CoroId} {t : TaskRef}
    {b : Bool} (hk : (s'.coros k).body.kind = .kill) (hp : (s'.coros k).place = .atTask t x b) : x = 0 := by
  have hstep := step_tasks hreach.sound hreach.killing hs
  have hold : ∀ b', (s.coros k).place = .atTask t x b' → x = 0 := by
    intro b' h1
    exact h.awaits k t x b' (kind_of_place hreach hs (by rw [h1]; simp) hk) h1
  rcases hstep.atTask hp with h1 | ⟨-, h1, -⟩ | ⟨hrun, h1⟩
  · exact hold b h1
  · exact hold false h1
  · have hrun' : (s.coros k).place = .running := hrun
    have hk0 := kind_of_place hreach hs (by rw [hrun']; simp) hk
    obtain ⟨rest, hst, -⟩ := step_begin h1 hs
    rw [h1] at hstep
    obtain ⟨e, he, hh, -⟩ := hstep.of_begin hp
    have ht : t = .kill := by
      rcases step_killBody hst hk0 hs with ⟨h2, -⟩ | ⟨code, h2⟩
      · exact (TaskLabel.begin.inj (h1.symm.trans h2)).2
      · -- a body that ends does not wait
        have h3 := place_finish (hreach.sound.coherent hst (by simp)) hst h2
        rw [hp] at h3
        cases h3
    subst ht
    obtain rfl : s.ev.killCoroTask = e := Option.some.inj he
    exact Option.some.inj (hh.symm.trans hreach.sound.linked.kill)

/-- When an `await_suspend` returns its coroutine goes on or is stored. -/
theorem not_waiting (hreach : Reachable s) (hreach' : Reachable s') {a x : CoroId} {t u : TaskRef}
    {rest : List Activation} (hst : s.stack = .taskAwait t a :: rest) (hs : State.step s c = .ok s') :
    (s'.coros a).place ≠ .atTask u x false := by
  intro hp
  have hm : Activation.taskAwait u a ∈ s'.stack := (List.mem_filter.mp (hreach'.history.2.waiting a u x hp)).1
  have hpop : s.pop.stack = rest := by rw [stack_pop, hst, List.tail_cons]
  have hm' : Activation.taskAwait u a ∈ rest := by
    rcases stack_awaitSuspendTail (step_taskAwait hst hs) with h1 | h1 <;> rw [h1, hpop] at hm
    · exact hm
    · exact (List.mem_cons.mp hm).resolve_left (by simp)
  have h1 := (hreach.sound.coherent hst (by simp)).awaits.nodup
  have h2 : (Activation.taskAwait t a :: rest).filterMap Activation.awaiting =
      a :: rest.filterMap Activation.awaiting :=
    List.filterMap_cons_some rfl
  rw [hst, h2] at h1
  exact (List.nodup_cons.mp h1).1 (List.mem_filterMap.mpr ⟨_, hm', rfl⟩)

theorem internal_step (h : KillStack s) (hreach : Reachable s) (hreach' : Reachable s') (hs : State.step s c = .ok s')
    {a : CoroId} {t : TaskRef} (hp : (s'.coros a).place = .atTask t 0 false) :
    ∃ rest, Starting (s'.slot 0) t a 0 rest s'.stack := by
  have hcalm := h.calm 0 (.inl (Body.isKill_iff.mpr (.inr ((hreach.killing.only 0).mpr rfl))))
  rcases (step_tasks hreach.sound hreach.killing hs).atTask hp with h1 | ⟨hb, -⟩ | ⟨-, h1⟩
  · obtain ⟨rest, hst⟩ := h.internal a t h1
    rcases starting_step hreach hcalm hst hs with h2 | ⟨h2, -⟩
    · exact absurd hp (not_waiting hreach hreach' h2 hs)
    · exact ⟨rest, h2⟩
  · cases hb
  · obtain ⟨rest, -, h2, h3⟩ := begin_stack hreach h1 hp hs
    exact ⟨rest, h2 ▸ .runs h3⟩

theorem ne_zero (hreach : Reachable s) {k : CoroId} (hk : (s.coros k).body.kind = .kill) : k ≠ 0 := by
  intro h1
  rw [(hreach.killing.only k).mpr h1] at hk
  cases hk

/-- The slot of a coroutine that nobody is stored in stays empty while another one is awaited. -/
theorem slot_step (hreach : Reachable s) (hs : State.step s c = .ok s') {k : CoroId} (hslot : s.slot k = none)
    (hno : ∀ t e a, s.task t = some e → e.handle = some k →
      s.label c ≠ .begin a t ∧ (s.label c = .tail a t → (s.coros a).place ≠ .atTask t k false ∧
        (s.coros a).place ≠ .gone)) :
    s'.slot k = none := by
  rcases (step_tasks hreach.sound hreach.killing hs).awaiter_eq k with h1 | ⟨-, h1⟩ | ⟨a, t, e, he, hh, -, h1⟩
  · exact h1.trans hslot
  · exact h1
  · exfalso
    obtain ⟨h2, h3⟩ := hno t e a he hh
    rcases h1 with ⟨h1, -⟩ | ⟨h1, -, h4 | h4⟩
    · exact h2 h1
    · exact (h3 h1).1 h4
    · exact (h3 h1).2 h4

theorem kill_body_step (h : KillStack s) (hreach : Reachable s) (hreach' : Reachable s') (hs : State.step s c = .ok s')
    {a k : CoroId} {t : TaskRef} {rest : List Activation} (hk : (s.coros k).body.kind = .kill)
    (hk' : (s'.coros k).body.kind = .kill)
    (hslot : s.slot k = none) (hst : s.stack = .run k :: .taskStart t k :: .taskAwait t a :: rest) :
    Starting (s'.slot k) t a k rest s'.stack ∨ s'.slot k = none ∧ ∃ u, (s'.coros k).place = .atTask u 0 false ∧
      Starting (s'.slot 0) u k 0 (.taskStart t k :: .taskAwait t a :: rest) s'.stack := by
  rcases step_killBody hst hk hs with ⟨hl, h1⟩ | ⟨code, h1⟩
  · have hslot' : s'.slot k = none := by
      refine slot_step hreach hs hslot fun u e x he hh => ⟨fun h2 => ?_, fun h2 => ?_⟩
      · obtain ⟨rfl, rfl⟩ : k = x ∧ .kill = u := by simpa using hl.symm.trans h2
        obtain rfl : s.ev.killCoroTask = e := Option.some.inj he
        exact ne_zero hreach hk (Option.some.inj (hh.symm.trans hreach.sound.linked.kill))
      · cases hl.symm.trans h2
    rcases stack_awaitTask hst h1 with h2 | h2 | ⟨x, h2⟩
    · exact .inl (h2 ▸ .starts)
    · exact .inl (h2 ▸ .runs hslot')
    · have hm : Activation.taskAwait .kill k ∈ s'.tasks.calls := List.mem_filter.mpr ⟨by simp [h2], rfl⟩
      rcases tasks_suspending hreach'.sound .kill k hm with ⟨y, hp⟩ | hp
      · obtain rfl := h.awaits_step hreach hs hk' hp
        obtain ⟨rest', h3, h4, h5⟩ := begin_stack hreach hl hp hs
        rw [hst] at h3
        obtain rfl := (List.cons.inj h3).2
        exact .inr ⟨hslot', .kill, hp, h4 ▸ .runs h5⟩
      · exfalso
        have hrun : s.tasks.place k = .running := hreach.sound.place_of_top hst
        rcases (step_tasks hreach.sound hreach.killing hs).gone hp with h3 | h3 | ⟨v, h3⟩
        · cases hrun.symm.trans h3
        · cases hrun.symm.trans h3
        · cases hl.symm.trans h3
  · rw [(finish_unawaited hst hslot h1).1]
    exact .inl .ends

theorem kill_step (h : KillStack s) (hreach : Reachable s) (hreach' : Reachable s') (hs : State.step s c = .ok s')
    {a k : CoroId} {t : TaskRef} (hk' : (s'.coros k).body.kind = .kill) (hp : (s'.coros a).place = .atTask t k false) :
    ∃ rest, Starting (s'.slot k) t a k rest s'.stack ∨ s'.slot k = none ∧ ∃ u, (s'.coros k).place = .atTask u 0 false ∧
      Starting (s'.slot 0) u k 0 (.taskStart t k :: .taskAwait t a :: rest) s'.stack := by
  rcases (step_tasks hreach.sound hreach.killing hs).atTask hp with h1 | ⟨hb, -⟩ | ⟨-, h1⟩
  · have hk : (s.coros k).body.kind = .kill := by
      refine (kind_back hs hk').resolve_right fun hge => ?_
      exact absurd (h.bound a t k false h1) (not_lt.mpr hge)
    have hcalm := h.calm k (.inl (Body.isKill_iff.mpr (.inl hk)))
    have hcalm0 := h.calm 0 (.inl (Body.isKill_iff.mpr (.inr ((hreach.killing.only 0).mpr rfl))))
    obtain ⟨rest, hst | ⟨hslot, u, hpk, hst⟩⟩ := h.kill a t k hk h1
    · refine ⟨rest, ?_⟩
      generalize hl : s.stack = st at hst
      cases hst with
      | awaits => exact absurd hp (not_waiting hreach hreach' hl hs)
      | starts =>
        rw [startReturn_calm (s := s.pop) hcalm (step_taskStart hl hs), stack_pop, hl]
        exact .inl .awaits
      | ends =>
        rw [step_finalSuspend hl hs, stack_finalReturn, stack_pop, hl]
        exact .inl .starts
      | runs ho => exact h.kill_body_step hreach hreach' hs hk hk' ho hl
    · refine ⟨rest, ?_⟩
      rcases starting_step hreach hcalm0 hst hs with h2 | ⟨h2, h3⟩
      · -- `kill` has its answer, or is stored with `kill_internal`
        have hpop : s.pop.stack = .taskStart t k :: .taskAwait t a :: rest := by rw [stack_pop, h2, List.tail_cons]
        have hlab : s.label c = .tail k u := by
          have h3 := hs
          cases c <;> simp only [State.step, h2] at h3 <;> first | cases h3 | simp [State.label, h2]
        rcases stack_awaitSuspendTail (step_taskAwait h2 hs) with h3 | h3 <;> rw [h3, hpop]
        · exact .inl .starts
        · refine .inl (.runs (slot_step hreach hs hslot fun u' e x he hh => ⟨fun h4 => ?_, fun h4 => ?_⟩))
          · cases hlab.symm.trans h4
          · obtain ⟨rfl, rfl⟩ : k = x ∧ u = u' := by simpa using hlab.symm.trans h4
            rw [hpk]
            exact ⟨by simpa using Ne.symm (ne_zero hreach hk), by simp⟩
      · obtain ⟨h4, h5⟩ := h3 k (ne_zero hreach hk)
        exact .inr ⟨h5.trans hslot, u, h4.trans hpk, h2⟩
  · cases hb
  · obtain ⟨rest, -, h2, h3⟩ := begin_stack hreach h1 hp hs
    exact ⟨rest, .inl (h2 ▸ .runs h3)⟩

theorem step (h : KillStack s) (hreach : Reachable s) (hreach' : Reachable s') (hs : State.step s c = .ok s') :
    KillStack s' where
  calm _ hk := h.calm_step hreach hs hk
  top _ hk hp := h.top_step hreach hreach' hs hk hp
  bound _ _ _ _ hp := h.bound_step hreach hs hp
  awaits _ _ _ _ hk hp := h.awaits_step hreach hs hk hp
  internal _ _ hp := h.internal_step hreach hreach' hs hp
  kill _ _ _ hk hp := h.kill_step hreach hreach' hs hk hp

end KillStack

theorem Reachable.killStack {s : State} (h : Reachable s) : KillStack s := by
  obtain ⟨s₀, hi, hr⟩ := h
  induction hr with
  | refl => exact .init hi
  | tail hr _ hs ih => exact ih.step ⟨s₀, hi, hr⟩ ⟨s₀, hi, .tail hr trivial hs⟩ hs

end EvManager
