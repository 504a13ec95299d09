import EvManager.Acts
import EvManager.Exceptions
import EvManager.Store

/-!
# The promises that tasks look up

A handle stays in its task after the coroutine has finished.  `State.hasPromise` is the table of promises, from which a
promise goes with its coroutine.  **`promise_lookups`**: a task finds its promise as long as it is not done, and
`register_coro` finds all it looks up just in case no task that it moves is done.
-/

namespace EvManager

open Lib State

/-! ### How a coroutine goes -/

/-- **A frame in `final_suspend`** stays there until `final_suspend` returns. -/
theorem step_final {s s' : State} {c : Choice} (hreach : Reachable s) (hs : step s c = .ok s') {h : CoroId}
    (hp : (s.coros h).place = .final) (hp' : (s'.coros h).place ≠ .final) :
    ∃ rest, s.stack = .finalSuspend h :: rest ∧ s' = s.pop.finalReturn h := by
  have hlt : h < s.nextCoro := hreach.placed.lt_nextCoro (by simp [hp])
  by_cases htop : ∀ a rest, s.stack = a :: rest → a.subject ≠ some h
  · exfalso
    rcases step_aside hreach hs hlt htop with h1 | ⟨h1, -⟩
    · exact hp' ((h1.place_eq (by rw [hp]; rfl)).trans hp)
    · simp [hp, Place.suspended] at h1
  · simp only [not_forall, not_not] at htop
    obtain ⟨a, rest, hst, ha⟩ := htop
    cases a with
    | run x =>
      obtain rfl : x = h := by simpa [Activation.subject] using ha
      simp [hreach.placed.place_of_top hst] at hp
    | finalSuspend x =>
      obtain rfl : x = h := by simpa [Activation.subject] using ha
      unfold step at hs
      rw [hst] at hs
      cases c <;> first | cases hs; done | exact ⟨rest, hst, (Except.ok.inj hs).symm⟩
    | _ => simp [Activation.subject] at ha

namespace State

variable {s s' : State}

theorem insertTask_eq (pick : ℕ) (e : EvTask) (s : State) : ∃ coros : CoroId → Coro,
    s.insertTask pick e = { s with
      ev := { s.ev with managedCoroutinesStore := s.ev.managedCoroutinesStore.insert pick e }
      coros } ∧ ∀ h, (coros h).place = (s.coros h).place := by
  obtain ⟨c, hc⟩ : ∃ c, s.relink e = { s with coros := c } := by
    unfold relink
    split <;> exact ⟨_, rfl⟩
  refine ⟨(s.insertTask pick e).coros, ?_, (insertTask_store pick e s).2⟩
  unfold insertTask
  simp only [hc]
  split <;> rfl

theorem registerCoroReturn_ok {v : VarId} {pick : ℕ} {grow : Bool} (hs : s.registerCoroReturn v pick grow = .ok s') :
    ∃ s1 e, s.makeRoom pick grow = .ok s1 ∧ s1.vars v = some e ∧
      s'.ev = { s1.ev with managedCoroutinesStore := s1.ev.managedCoroutinesStore.insert pick e } ∧
      s'.vars = Function.update s1.vars v (some {}) ∧ s'.statuses = s1.statuses ∧
      ∀ h, (s'.coros h).place = (s1.coros h).place := by
  unfold registerCoroReturn at hs
  obtain ⟨s1, h1, hs⟩ := bind_ok.mp hs
  obtain ⟨e, he, hs⟩ := bind_ok.mp hs
  rw [need_ok] at he
  obtain ⟨coros, heq, hplace⟩ := insertTask_eq pick e s1
  rw [heq] at hs
  cases hs
  exact ⟨s1, e, h1, he, rfl, rfl, rfl, hplace⟩

theorem overwritten_held {pick : ℕ} {h : CoroId} (hz : s.overwritten pick = some h) :
    s.ev.managedCoroutinesStore.freedIdxs ≠ ∅ ∧ ∃ e, s.holder (.item pick) = some e ∧ e.handle = some h := by
  unfold overwritten at hz
  split at hz
  · cases hz
  · rename_i hfree
    split at hz
    · rename_i e he
      split at hz
      · cases hz
      · exact ⟨hfree, e, he, hz⟩
    · cases hz

theorem register_kept (hc : Coherent s) {v : VarId} {pick : ℕ} {grow : Bool}
    (hs : s.registerCoroReturn v pick grow = .ok s') {x : Holder} {e : EvTask} {h : CoroId} (he : s'.holder x = some e)
    (hh : e.handle = some h) : ∃ y, s.holder y = some e ∧ (s'.coros h).place = (s.coros h).place ∧
      s'.finished h = s.finished h := by
  obtain ⟨s1, e0, h1, he0, hev, hvars, hst, hplace⟩ := registerCoroReturn_ok hs
  have hstore : s1.ev.managedCoroutinesStore = s.ev.managedCoroutinesStore := (Quiet.makeRoom h1).store
  have hroom : s1.ev.managedCoroutinesStore.freedIdxs = ∅ ∨ pick < s1.ev.managedCoroutinesStore.items.length := by
    rw [hstore]
    exact (Coherent.makeRoom_ok h1).imp_right And.right
  have hfin : s'.finished h = s1.finished h := by rw [finished, hst, finished]
  rw [hplace h, hfin]
  -- where the task was before it was moved
  have hfrom : ∃ y, s1.holder y = some e ∧ (y = .task (.var v) ∨
      y ≠ .item (s1.ev.managedCoroutinesStore.selectedIdx pick)) := by
    rcases holder_insert hroom (by rw [hev]) (by rw [hev]) hvars he with ⟨-, rfl⟩ | ⟨-, rfl⟩ | ⟨hne, -, he⟩
    · exact ⟨.task (.var v), he0, .inl rfl⟩
    · cases hh
    · exact ⟨x, he, .inr hne⟩
  obtain ⟨y, hy, hyv⟩ := hfrom
  rcases tasks_makeRoom hc h1 with ⟨-, rfl⟩ | ⟨z, task, hz, hsus, hfew, heq⟩
  · exact ⟨y, hy, rfl, rfl⟩
  · have hy0 : s.holder y = some e := by
      cases y with
      | task t => exact hfew.2 t e (by rw [← hy]; exact (congrFun (congrArg Tasks.task heq) t).symm)
      | item i => rwa [holder, hstore] at hy
    have hpl : ∀ u, (s1.coros u).place = (s.tasks.setPlace z .gone).place u :=
      fun u => congrFun (congrArg Tasks.place heq) u
    have hne : h ≠ z := by
      rintro rfl
      -- the coroutine that is destroyed was held by the slot
      obtain ⟨hfree, old, hold, hoh⟩ := overwritten_held hz
      have hsel : s1.ev.managedCoroutinesStore.selectedIdx pick = pick := by
        rw [hstore, ItemStore.selectedIdx, if_neg hfree]
      have heq := hc.linked.inj y (.item pick) e old h hy0 hold hh hoh
      rcases hyv with rfl | hyv
      · cases heq
      · exact hyv (heq.trans (by rw [hsel]))
    refine ⟨y, hy0, ?_, congrFun (congrArg Tasks.done heq) h⟩
    rw [hpl h]
    simp [Tasks.setPlace, hne, tasks]

theorem stack_of_registered {c : Choice} {v : VarId} {x : Option CoroId} (hl : s.label c = .registered v x) :
    ∃ rest, s.stack = .registerCoro v :: rest := by
  have hcase := s.label_case c
  generalize s.label c = l at hcase hl
  have hno : ∀ a : Act, a.label ≠ .registered v x := fun a => by cases a <;> simp [Act.label]
  cases hcase with
  | main => exact absurd hl (hno _)
  | handler => exact absurd hl (hno _)
  | @body h a =>
    exfalso
    revert hl
    cases a <;> simp [Act.labelIn, Act.label]
  | @registered v' idx grow rest hst =>
    cases hl
    exact ⟨rest, hst⟩
  | throws | kill | seen | tail | tau => cases hl

/-! ### What a task that is done stands for -/

/-- Where a task holds a coroutine that is gone, the task was started and is done. -/
def Kept (s : State) : Prop :=
  ∀ x e h, s.holder x = some e → e.handle = some h → (s.coros h).place = .gone → s.finished h = true ∧
    e.startedCoro = true

theorem held_before {c : Choice} (hreach : Reachable s) (hs : State.step s c = .ok s') {x : Holder}
    {e : EvTask} {h : CoroId} (he : s'.holder x = some e) (hh : e.handle = some h)
    (hstore : s'.ev.managedCoroutinesStore.items = s.ev.managedCoroutinesStore.items) :
    (∃ e', s.holder x = some e' ∧ e'.handle = some h ∧ (e'.startedCoro = true → e.startedCoro = true)) ∨
      (s'.coros h).place = .initial := by
  cases x with
  | task t =>
    have hstep := step_tasks hreach.sound hreach.killing hs
    rcases hstep.task_started (t := t) he hh with ⟨e', he', hh', hst⟩ | ⟨⟨user, hl⟩, -, rfl, -⟩
    · exact .inl ⟨e', he', hh', fun h1 => hst.elim (fun h2 => h2.trans h1) And.left⟩
    · rw [hl] at hstep
      right
      have hplace : s'.tasks.place s.tasks.next = .initial := by
        generalize s'.tasks = m at hstep
        cases hstep with
        | idle h1 | finish h1 | finishResume h1 => simp at h1
        | call => simp [Tasks.call]
      exact hplace
  | item i =>
    refine .inl ⟨e, ?_, hh, id⟩
    rwa [holder, ItemStore.get?, hstore] at he

theorem Kept.step {c : Choice} (hk : s.Kept) (hreach : Reachable s) (hs : State.step s c = .ok s') : s'.Kept := by
  intro x e h he hh hg
  by_cases htop : ∃ v rest, s.stack = .registerCoro v :: rest
  · obtain ⟨v, rest, hst⟩ := htop
    have hc : Coherent s := hreach.sound.coherent hst (by simp)
    unfold State.step at hs
    rw [hst] at hs
    cases c with
    | pick idx grow =>
      obtain ⟨y, hy, hp, hf⟩ := register_kept hc.pop hs he hh
      rw [hf]
      exact hk y e h (by cases y <;> exact hy) hh (hp.symm.trans hg)
    | _ => cases hs
  · have hitems : s'.ev.managedCoroutinesStore.items = s.ev.managedCoroutinesStore.items := by
      rcases step_store hs with h1 | ⟨_, _, _, _, _, h1⟩ | ⟨v, rest, _, _, _, _, _, hst, _⟩
      · rw [h1]
      · rw [h1]
        rfl
      · exact absurd ⟨v, rest, hst⟩ htop
    rcases held_before hreach hs he hh hitems with ⟨e', he', hh', hmono⟩ | hi
    · have hl := hreach.sound.linked
      rcases (step_tasks hreach.sound hreach.killing hs).gone hg with h1 | h1 | ⟨v, h1⟩
      · obtain ⟨h2, h3⟩ := hk x e' h he' hh' h1
        exact ⟨(Steady.step hs).done_of (hl.bound x e' h he' hh') h2, hmono h3⟩
      · obtain ⟨rest, -, rfl⟩ := step_final hreach hs h1 (by rw [hg]; simp)
        have hptr : (s.pop.coros h).promise.taskStatusPtr = some h := hl.held x e' h he' hh'
        refine ⟨by simp [finished, finalReturn, hptr, State.setPlace, State.modCoro], hmono ?_⟩
        have hf : (s.coros h).place = .final := h1
        by_contra hne
        rcases hl.unstarted x e' h he' hh' (by simpa using hne) with h2 | h2 <;> simp [h2] at hf
      · exfalso
        exact htop ⟨v, stack_of_registered h1⟩
    · rw [hi] at hg
      cases hg

end State

/-- **A task is done when the coroutine it holds has finished.** -/
theorem Reachable.kept {s : State} (h : Reachable s) : s.Kept := by
  refine h.inv_of (J := Reachable) (fun _ hr => hr) (fun s hi x e h he hh hg => ?_) fun _ _ _ hr hk _ hs =>
    hk.step hr hs
  rw [hi.place] at hg
  split at hg
  · cases hg
  · have hb := (Linked.init hi).bound x e h he hh
    cases hi <;> simp_all [State.init, initFailed, blank]

/-! ### The task that is started -/

/-- An `EvTask::start` that has resumed its coroutine found it in the task. -/
theorem TaskStep.taskStart_new {m m' : Tasks} {l : TaskLabel} (hs : TaskStep m l m') {t : TaskRef} {h : CoroId}
    (hm : Activation.taskStart t h ∈ m'.calls) : Activation.taskStart t h ∈ m.calls ∨
      ∃ e, m'.task t = some e ∧ e.handle = some h := by
  have hpop : ∀ {x : Activation} {rest : List Activation}, m.calls = x :: rest → Activation.taskStart t h ∈ rest →
      Activation.taskStart t h ∈ m.calls := by
    intro x rest hc h1
    rw [hc]
    exact List.mem_cons_of_mem _ h1
  have hrun : ∀ {x : Activation} {rest : List Activation}, x ≠ .taskStart t h → Activation.taskStart t h ∈ x :: rest →
      Activation.taskStart t h ∈ rest := fun hx h1 => (List.mem_cons.mp h1).resolve_left (Ne.symm hx)
  have hstart : ∀ {n : Tasks} {t₁ : TaskRef}, Started n t₁ m' → Activation.taskStart t h ∈ n.calls ∨
      ∃ e, m'.task t = some e ∧ e.handle = some h := by
    intro m₁ t₁ h1
    cases h1 with
    | already => exact .inl hm
    | @now e x he hst hx =>
      rcases List.mem_cons.mp (hrun (by simp) hm) with h2 | h2
      · obtain ⟨rfl, rfl⟩ : t = t₁ ∧ h = x := by simpa using h2
        exact .inr ⟨{ e with startedCoro := true }, by simp [Tasks.enter, Tasks.setPlace, Tasks.setTask], hx⟩
      · exact .inl h2
  have hend : ∀ {n : Tasks} {x : CoroId} {out : Option ℕ}, Ended m x out n → Activation.taskStart t h ∈ n.calls →
      Activation.taskStart t h ∈ m.calls := by
    intro m₁ x out h1 h2
    cases h1 with
    | mk hc => exact hpop hc (hrun (by simp) h2)
  cases hs with
  | idle | call | beginDone | destroy => exact .inl hm
  | suspend hc | event hc | startReturn hc | finalReturn hc | registered hc | overwritten hc | beginArm hc
  | tailArm hc =>
    exact .inl (hpop hc hm)
  | wake | wakeKill => exact .inl (hrun (by simp) hm)
  | start h1 => exact hstart h1
  | register h1 => exact (hstart h1).imp_left (hrun (by simp))
  | rethrowRegister hc => exact .inl (hpop hc (List.mem_cons_of_mem _ hm))
  | rethrowAwait hc => exact .inl (hpop hc (List.mem_cons_of_mem _ (hrun (by simp) hm)))
  | beginStart hc _ _ _ _ h1 => exact (hstart h1).imp_left fun h2 => hpop hc (hrun (by simp) h2)
  | tailDone hc => exact .inl (hpop hc (hrun (by simp) hm))
  | finish _ _ h1 => exact .inl (hend h1 hm)
  | finishResume _ _ _ h1 => exact .inl (hend h1 (hrun (by simp) hm))

/-- The task that a `start()` has started holds what it has resumed, or was moved from. -/
structure Tasks.Starts (m : Tasks) : Prop where
  holds : ∀ t h e x, Activation.taskStart t h ∈ m.calls → m.task t = some e → e.handle = some x → x = h
  bound : ∀ v h, Activation.taskStart (.var v) h ∈ m.calls → v < m.nextVar

theorem Tasks.Starts.step {m m' : Tasks} {l : TaskLabel} (h : m.Starts)
    (hfresh : ∀ v, m'.nextVar ≤ v → m'.task (.var v) = none) (hs : TaskStep m l m') : m'.Starts where
  holds t c e x hm he hx := by
    rcases hs.taskStart_new hm with h1 | ⟨e', he', hh'⟩
    · rcases hs.task_started he hx with ⟨e0, he0, hh0, -⟩ | ⟨-, rfl, -, -⟩
      · exact h.holds t c e0 x h1 he0 hh0
      · exact absurd (h.bound _ c h1) (lt_irrefl _)
    · rw [he, Option.some.injEq] at he'
      rw [he', hh'] at hx
      exact (Option.some.inj hx).symm
  bound v c hm := by
    rcases hs.taskStart_new hm with h1 | ⟨e, he, -⟩
    · exact (h.bound v c h1).trans_le hs.nextVar_le
    · by_contra hge
      rw [hfresh v (Nat.le_of_not_lt hge)] at he
      cases he

theorem Reachable.starts {s : State} (h : Reachable s) : s.tasks.Starts := by
  refine h.inv_of (I := fun s => s.tasks.Starts) (J := Reachable) (fun _ hr => hr) (fun s hi => ?_)
    fun s c s' hr hk _ hs => ?_
  · have hcalls : s.tasks.calls = [] := by simp [State.tasks, hi.stack, Activation.isCall]
    exact ⟨fun t h e x hm => by simp [hcalls] at hm, fun v h hm => by simp [hcalls] at hm⟩
  · exact hk.step (hr.step hs).sound.linked.varFresh (step_tasks hr.sound hr.killing hs)

/-! ### Looking up promises -/

/-- What user code and `register_coro` do with a task. -/
inductive TaskOp
  | start | awaitSuspend | move | setCoroMetadata | getCoroMetadata | destroy
  deriving DecidableEq

/-- The operation looks at `_started_coro` or at `handler_done` first. -/
def TaskOp.guarded : TaskOp → Bool
  | .start | .awaitSuspend | .destroy => true
  | .move | .setCoroMetadata | .getCoroMetadata => false

/-- On the task `e` the operation comes to `_handle.promise()`. -/
def TaskOp.looksUp (s : State) (e : EvTask) : TaskOp → Bool
  | .start => !e.startedCoro
  | .awaitSuspend => !e.startedCoro || !s.taskDone e
  | .move => true
  | .setCoroMetadata | .getCoroMetadata => e.handle.isSome
  | .destroy => e.taskStatusPtr.isSome && !s.taskDone e

namespace State

/-- The promise of `h` is in the table. -/
def hasPromise (s : State) (h : CoroId) : Bool := (s.coros h).place ≠ .gone

/-- `handle.promise()` finds a promise. -/
def finds (s : State) : Option CoroId → Bool
  | some h => s.hasPromise h
  | none => false

/-- The tasks that `register_coro` moves: what is in the vector, when it grows, and the task it is given. -/
def movedTasks (v : VarId) (grow : Bool) (s : State) : List EvTask :=
  (if grow ∧ s.ev.managedCoroutinesStore.freedIdxs = ∅ then s.ev.managedCoroutinesStore.items else []) ++
    (s.vars v).toList

/-- The handles whose promises `register_coro` looks up in a step: `coro.start()` before it resumes and after, and then
`insert`, which moves tasks, and `set_coro_metadata`. -/
def registerLookups (c : Choice) (s : State) : List (Option CoroId) :=
  match s.stack, c with
  | _, .user (.registerCoro v) =>
    (s.vars v).toList.filterMap fun e => if TaskOp.start.looksUp s e then some e.handle else none
  | .taskStart t h :: _, .tau => (s.task t).toList.filterMap fun e => if s.taskDone e then none else some (some h)
  | .registerCoro v :: _, .pick _ grow =>
    (s.movedTasks v grow).map EvTask.handle ++
      (s.vars v).toList.filterMap fun e => if TaskOp.setCoroMetadata.looksUp s e then some e.handle else none
  | _, _ => []

/-- No task that `register_coro` starts has been moved from, nor is one that it moves done. -/
def MovesUnfinished (c : Choice) (s : State) : Prop :=
  match s.stack, c with
  | _, .user (.registerCoro v) => ∀ e, s.vars v = some e → e.startedCoro = false → e.handle ≠ none
  | .taskStart t h :: _, .tau => ∀ e, s.task t = some e → e.handle = none → s.hasPromise h = true
  | .registerCoro v :: _, .pick _ grow => ∀ e ∈ s.movedTasks v grow, e.handle ≠ none ∧ s.taskDone e = false
  | _, _ => True

/-- **A task finds its promise unless it is done.** -/
theorem hasPromise_iff {s : State} (hreach : Reachable s) {x : Holder} {e : EvTask} {h : CoroId}
    (he : s.holder x = some e) (hh : e.handle = some h) : s.hasPromise h = true ↔ s.taskDone e = false := by
  have hl := hreach.sound.linked
  have hdone : s.taskDone e = s.finished h := by simp [taskDone, hl.paired x e he, hh, finished]
  rw [hdone]
  constructor
  · intro hp
    by_contra hne
    have h1 := hl.done h (by simpa [finished] using hne)
    simp [hasPromise, h1] at hp
  · intro hd
    by_contra hne
    have h1 := (hreach.kept x e h he hh (by simpa [hasPromise] using hne)).1
    rw [hd] at h1
    cases h1

/-- The operations that look first always find the promise. -/
theorem op_finds {s : State} (hreach : Reachable s) {x : Holder} {e : EvTask} {h : CoroId} (he : s.holder x = some e)
    (hh : e.handle = some h) (op : TaskOp) :
    (op.looksUp s e = true → s.hasPromise h = true) ↔ op.guarded = true ∨ s.taskDone e = false := by
  have hiff := hasPromise_iff hreach he hh
  have hptr := hreach.sound.linked.paired x e he
  -- a task that was not started is not done
  have hun : e.startedCoro = false → s.taskDone e = false := by
    intro hu
    rw [← hiff]
    by_contra hne
    rw [(hreach.kept x e h he hh (by simpa [hasPromise] using hne)).2] at hu
    cases hu
  rw [hiff]
  cases op <;> simp [TaskOp.looksUp, TaskOp.guarded, hptr, hh]
  · exact hun
  · rintro (h1 | h1)
    · exact hun h1
    · exact h1

theorem finds_iff {s : State} (hreach : Reachable s) {x : Holder} {e : EvTask} (he : s.holder x = some e) :
    s.finds e.handle = true ↔ e.handle ≠ none ∧ s.taskDone e = false := by
  cases hh : e.handle with
  | none => simp [finds]
  | some h => simpa [finds] using hasPromise_iff hreach he hh

/-- A task that `register_coro` moves is one that a variable or the vector holds. -/
theorem movedTasks_held {s : State} {v : VarId} {grow : Bool} {e : EvTask} (he : e ∈ s.movedTasks v grow) :
    ∃ x, s.holder x = some e := by
  rcases List.mem_append.mp he with h1 | h1
  · split at h1
    · obtain ⟨i, hi⟩ := List.mem_iff_getElem?.mp h1
      exact ⟨.item i, hi⟩
    · cases h1
  · exact ⟨.task (.var v), Option.mem_toList.mp h1⟩

/-- **What `register_coro` looks up** is found just in case it moves no task that is done. -/
theorem registerLookups_iff {s : State} (hreach : Reachable s) (c : Choice) :
    (∀ o ∈ s.registerLookups c, s.finds o = true) ↔ s.MovesUnfinished c := by
  unfold registerLookups MovesUnfinished
  split
  · rename_i v
    cases he : s.vars v with
    | none => simp
    | some e =>
      have hx : s.holder (.task (.var v)) = some e := he
      have hstart : e.startedCoro = false → (s.finds e.handle = true ↔ e.handle ≠ none) := by
        intro hu
        cases hh : e.handle with
        | none => simp [finds]
        | some h => simpa [finds] using (op_finds hreach hx hh .start).mpr (.inl rfl) (by simp [TaskOp.looksUp, hu])
      simp [TaskOp.looksUp]
      exact forall_congr' hstart
  · rename_i t h rest hst
    cases he : s.task t with
    | none => simp
    | some e =>
      have hx : s.holder (.task t) = some e := he
      have hm : Activation.taskStart t h ∈ s.tasks.calls := by simp [State.tasks, hst, Activation.isCall]
      simp [finds]
      constructor
      · intro h1 hn
        refine h1 ?_
        simp [taskDone, hreach.sound.linked.paired _ e hx, hn]
      · intro h1 hd
        cases hh : e.handle with
        | none => exact h1 hh
        | some y =>
          obtain rfl := hreach.starts.holds t h e y hm he hh
          exact (hasPromise_iff hreach hx hh).mpr hd
  · rename_i v rest idx grow hst
    constructor
    · intro h1 e he
      obtain ⟨x, hx⟩ := movedTasks_held he
      exact (finds_iff hreach hx).mp (h1 _ (List.mem_append_left _ (List.mem_map_of_mem he)))
    · intro h1 o ho
      rcases List.mem_append.mp ho with h2 | h2
      · obtain ⟨e, he, rfl⟩ := List.mem_map.mp h2
        obtain ⟨x, hx⟩ := movedTasks_held he
        exact (finds_iff hreach hx).mpr (h1 e he)
      · obtain ⟨e, he, heq⟩ := List.mem_filterMap.mp h2
        have hm : e ∈ s.movedTasks v grow := List.mem_append_right _ he
        obtain ⟨x, hx⟩ := movedTasks_held hm
        split at heq
        · cases heq
          exact (finds_iff hreach hx).mpr (h1 e hm)
        · cases heq
  · simp

end State

/-- **The promises that tasks look up**, in every state a program reaches: `start()`, `co_await` and the destructor
of a task that holds a coroutine find its promise, a move and the accesses to its metadata do just in case the task
is not done; and `register_coro` finds every promise it looks up just in case no task that it moves is done. -/
theorem promise_lookups {s : State} (hreach : Reachable s) :
    (∀ x e h op, s.holder x = some e → e.handle = some h →
      ((TaskOp.looksUp s e op = true → s.hasPromise h = true) ↔ op.guarded = true ∨ s.taskDone e = false)) ∧
    ∀ c, (∀ o ∈ s.registerLookups c, s.finds o = true) ↔ s.MovesUnfinished c :=
  ⟨fun _ _ _ op he hh => op_finds hreach he hh op, fun c => registerLookups_iff hreach c⟩

/-- A coroutine that waits for a read is registered, and its promise is found. -/
theorem promise_lookups_read : ∃ s : State, s.hasPromise 1 = true ∧
    ∀ o ∈ s.registerLookups (.pick 0 false), s.finds o = true := by
  have he : (exec step (fun _ _ => True) (init 4)
    [.user .call, .user (.registerCoro 0), .user (.awaitOp (.read {})), .sub 1,
      .tau]).map (fun s => decide (s.hasPromise 1 = true ∧ s.movedTasks 0 false = [⟨true, some 1, some 1⟩] ∧
        s.taskDone ⟨true, some 1, some 1⟩ = false ∧ s.stack = [.registerCoro 0, .main])) = some true := by decide
  obtain ⟨s, hreach, hs⟩ := Reach.of_exec (.up 4) he
  obtain ⟨h1, h2, h3, h4⟩ := of_decide_eq_true hs
  refine ⟨s, h1, ((promise_lookups hreach).2 _).mpr ?_⟩
  simp [MovesUnfinished, h2, h3, h4]

/-- A coroutine that returns in `coro.start()` is registered: the move of its task looks for a promise that is gone. -/
theorem promise_lookups_fail : ¬ ∀ s, Reachable s → ∀ c, ∀ o ∈ s.registerLookups c, s.finds o = true := by
  intro hall
  have he : (exec step (fun _ _ => True) (init 4)
    [.user .call, .user (.registerCoro 0), .user (.coReturn 0), .tau, .tau]).map
      (fun s => decide (some 1 ∈ s.registerLookups (.pick 0 false) ∧ s.finds (some 1) = false)) = some true := by decide
  obtain ⟨s, hreach, hs⟩ := Reach.of_exec (.up 4) he
  obtain ⟨hm, hf⟩ := of_decide_eq_true hs
  rw [hall s hreach _ _ hm] at hf
  cases hf

end EvManager
