import EvManager.Linked
import EvManager.Stack

/-!
# Tasks that are moved

User code may move its tasks as it likes.  `State.opStep` does with `EvTask` objects and coroutines whatever C++
code can: it makes, moves and destroys tasks and resumes any coroutine that waits, in any order and any
depth.  The slots of a vector are tasks like any others.  **`task_links`**: task, status and promise keep pointing
at each other, as long as no task is assigned over whose coroutine runs or is in `final_suspend`.
-/

namespace EvManager

open Lib State

/-- What is done with tasks and coroutines.  New tasks become objects of `ctx`. -/
inductive TaskAct
  /-- a coroutine function is called -/
  | construct (ctx : Option CoroId)
  | moveConstruct (ctx : Option CoroId) (other : VarId)
  | moveAssign (v other : VarId)
  | destroy (v : VarId)
  /-- a coroutine that waits is resumed, and one that runs waits -/
  | resume (h : CoroId)
  | suspend (h : CoroId)
  /-- the body ends, by `co_return` or with an exception -/
  | finish (h : CoroId) (out : Option ℕ)
  /-- `final_suspend`, after it has resumed the awaiter -/
  | finalReturn (h : CoroId)
  deriving DecidableEq, Repr

namespace State

/-- `EvTask(EvTask&& other)`, for a new object of `ctx`. -/
def moveConstruct (ctx : Option CoroId) (other : VarId) (s : State) : Except Stop State := do
  let e ← need .deadTask (s.vars other)
  let _ ← need .nullHandle e.handle
  let s' := { s.relink e with
    vars := Function.update (Function.update s.vars other (some {})) s.nextVar (some e)
    nextVar := s.nextVar + 1 }
  return match ctx with
    | some c => s'.modCoro c fun c => { c with vars := c.vars ++ [s.nextVar] }
    | none => s'

/-- What `EvTask::operator=` does to the task it assigns over.  It destroys a coroutine that has not set
`handler_done` wherever this is: where it runs, or is in `final_suspend`, its frame is freed and control goes on in
it. -/
def assignOver (old : EvTask) (s : State) : Except Stop State :=
  match old.handle with
  | none => s.overwriteTask old
  | some h =>
    if ((s.coros h).place = .running ∨ (s.coros h).place = .final) ∧ s.taskDone old = false then .ok s
    else s.overwriteTask old

/-- `EvTask::operator=`.  The coroutine it destroys may have either task in its frame. -/
def moveAssign (v other : VarId) (s : State) : Except Stop State := do
  let old ← need .deadTask (s.vars v)
  if v = other then return s
  else
    let s ← s.assignOver old
    let _ ← need .deadTask (s.vars v)
    let e ← need .deadTask (s.vars other)
    let _ ← need .nullHandle e.handle
    return { s.relink e with vars := Function.update (Function.update s.vars other (some {})) v (some e) }

/-- A step of a program that has nothing but tasks and coroutines. -/
def opStep (s : State) : TaskAct → Except Stop State
  | .construct ctx => .ok (s.call ctx .user)
  | .moveConstruct ctx other => s.moveConstruct ctx other
  | .moveAssign v other => s.moveAssign v other
  | .destroy v => .ok (s.destroyTask v)
  | .resume h => if (s.coros h).place.suspended then .ok (s.setPlace h .running) else .error (.undefined .notSuspended)
  | .suspend h => if (s.coros h).place = .running then .ok (s.setPlace h .atAlways) else .error .disabled
  | .finish h out =>
    if (s.coros h).place = .running then .ok ((s.storeResult h out).endBody h out) else .error .disabled
  | .finalReturn h => if (s.coros h).place = .final then .ok (s.finalReturn h) else .error .disabled

/-- The status that a step writes to: `return_value` and `final_suspend` do, through the pointer in the promise. -/
def statusWritten (s : State) : TaskAct → Option StatusId
  | .finish h (some _) | .finalReturn h => (s.coros h).promise.taskStatusPtr
  | _ => none

/-- If the step assigns over a task it destroys no coroutine that runs, or that is in `final_suspend`. -/
def DestroysSuspended (s : State) : TaskAct → Prop
  | .moveAssign v other => v = other ∨ ∀ old ∈ s.vars v, ∀ h ∈ old.handle,
      (s.coros h).place ≠ .running ∧ (s.coros h).place ≠ .final ∨ s.taskDone old = true
  | _ => True

instance (s : State) (a : TaskAct) : Decidable (s.DestroysSuspended a) := by
  unfold DestroysSuspended
  split <;> infer_instance

/-- The coroutine is held by a task. -/
def Held (s : State) (h : CoroId) : Prop := ∃ t e, s.task t = some e ∧ e.handle = some h

end State

/-- The tasks of a frame are destroyed: coroutines stay where they are, and no task is new. -/
theorem State.destroyTasks_eq (vs : List VarId) (s : State) : ∃ coros vars,
    vs.foldl (fun s v => s.destroyTask v) s = { s with coros, vars } ∧ (∀ h, (coros h).place = (s.coros h).place) ∧
      ∀ v e, vars v = some e → s.vars v = some e := by
  induction vs generalizing s with
  | nil => exact ⟨s.coros, s.vars, rfl, fun _ => rfl, fun _ _ he => he⟩
  | cons w vs ih =>
    obtain ⟨coros, vars, heq, hplace, hfew⟩ := ih (s.destroyTask w)
    obtain ⟨coros', heq', hcoros⟩ := s.destroyTask_eq w
    rw [heq'] at heq hplace hfew
    refine ⟨coros, vars, ?_, fun h => (hplace h).trans ?_, fun v e he => ?_⟩
    · rw [List.foldl_cons, heq', heq]
    · rcases hcoros h with h1 | ⟨h1, -⟩ <;> simp [h1, Coro.orphan]
    · have h1 := hfew v e he
      by_cases hv : v = w
      · simp [hv] at h1
      · simpa [hv] using h1

theorem State.destroyLocals_eq (h : CoroId) (s : State) : ∃ coros vars reqs,
    s.destroyLocals h = { s with coros, vars, reqs } ∧ (∀ h, (coros h).place = (s.coros h).place) ∧
      ∀ v e, vars v = some e → s.vars v = some e := by
  obtain ⟨coros, vars, heq, hplace, hfew⟩ := s.destroyTasks_eq (s.coros h).vars.reverse
  refine ⟨coros, vars, (s.destroyLocals h).reqs, ?_, hplace, hfew⟩
  unfold State.destroyLocals
  simp only [heq]

/-- Tasks own the statuses of the coroutines they hold, and the promises know. -/
structure Owned (s : State) : Prop where
  paired : ∀ t e, s.task t = some e → e.taskStatusPtr = e.handle
  bound : ∀ t e h, s.task t = some e → e.handle = some h → h < s.nextCoro
  inj : ∀ t t' e e' h, s.task t = some e → s.task t' = some e' → e.handle = some h → e'.handle = some h → t = t'
  ptr : ∀ h, (s.coros h).place ≠ .gone → s.Held h → (s.coros h).promise.taskStatusPtr = some h
  held : ∀ h st, (s.coros h).place ≠ .gone → (s.coros h).promise.taskStatusPtr = some st → st = h ∧ s.Held h
  done : ∀ h, (s.statuses h).handlerDone = true → (s.coros h).place = .gone
  code : ∀ h x, Event.returned h (some x) ∈ s.trace → s.Held h → (s.statuses h).retCode = x
  ended : ∀ h out, Event.returned h out ∈ s.trace → h < s.nextCoro ∧ (s.coros h).place.unfinished = false
  fresh : ∀ h, s.nextCoro ≤ h → (s.coros h).place = .gone
  varFresh : ∀ v, s.nextVar ≤ v → s.vars v = none

namespace Owned

variable {s s' : State}

theorem init {s : State} (hi : State.Initial s) : Owned s := by
  have htask : ∀ t e, s.task t = some e → t = .kill ∧ e = ⟨false, some 0, some 0⟩ := by
    intro t e he
    rw [hi.task] at he
    split at he
    · rename_i ht
      exact ⟨ht, (Option.some.inj he).symm⟩
    · cases he
  have hkill : s.Held 0 := ⟨.kill, _, by rw [hi.task, if_pos rfl], rfl⟩
  have hgone : ∀ h, (s.coros h).place ≠ .gone → h = 0 := fun h hp => by
    rw [hi.place] at hp
    by_contra hne
    exact hp (if_neg hne)
  have hptr : (s.coros 0).promise.taskStatusPtr = some 0 := by
    cases hi <;> simp [State.init, initFailed, blank]
  have htrace : s.trace = [] := by cases hi <;> rfl
  refine ⟨fun t e he => ?_, fun t e h he hh => ?_, fun t t' e e' h he he' _ _ => ?_, fun h hp hh => ?_,
    fun h st hp hst => ?_, fun h hd => ?_, fun h x hm => ?_, fun h out hm => ?_, (Placed.init hi).fresh,
    (Linked.init hi).varFresh⟩
  · obtain ⟨-, rfl⟩ := htask t e he
    rfl
  · obtain ⟨-, rfl⟩ := htask t e he
    exact (Linked.init hi).bound (.task t) _ h he hh
  · rw [(htask t e he).1, (htask t' e' he').1]
  · rw [hgone h hp, hptr]
  · obtain rfl := hgone h hp
    rw [hptr] at hst
    exact ⟨(Option.some.inj hst).symm, hkill⟩
  · cases hi <;> cases hd
  · simp [htrace] at hm
  · simp [htrace] at hm

/-- Nothing happens to the tasks.  Coroutines may move on, but a status is done only where the coroutine is gone. -/
theorem same (ho : Owned s) (htask : s'.task = s.task) (hnc : s'.nextCoro = s.nextCoro) (hnv : s'.nextVar = s.nextVar)
    (hvars : s'.vars = s.vars)
    (hptr : ∀ h, (s'.coros h).promise.taskStatusPtr = (s.coros h).promise.taskStatusPtr)
    (hplace : ∀ h, (s'.coros h).place ≠ .gone → (s.coros h).place ≠ .gone)
    (hdone : ∀ h, (s'.statuses h).handlerDone = true → (s'.coros h).place = .gone)
    (hcode : ∀ h x, Event.returned h (some x) ∈ s'.trace → s.Held h → (s'.statuses h).retCode = x)
    (hend : ∀ h out, Event.returned h out ∈ s'.trace → h < s.nextCoro ∧ (s'.coros h).place.unfinished = false) :
    Owned s' := by
  have hheld : ∀ h, s'.Held h ↔ s.Held h := fun h => by simp only [Held, htask]
  refine ⟨fun t e he => ho.paired t e (htask ▸ he), fun t e h he hh => hnc ▸ ho.bound t e h (htask ▸ he) hh,
    fun t t' e e' h he he' => ho.inj t t' e e' h (htask ▸ he) (htask ▸ he'), fun h hp hh => ?_, fun h st hp hst => ?_,
    hdone, fun h x hm hh => hcode h x hm ((hheld h).mp hh), fun h out hm => hnc ▸ hend h out hm, fun h hge => ?_,
    fun v hv => ?_⟩
  · rw [hptr]
    exact ho.ptr h (hplace h hp) ((hheld h).mp hh)
  · rw [hptr] at hst
    obtain ⟨h1, h2⟩ := ho.held h st (hplace h hp) hst
    exact ⟨h1, (hheld h).mpr h2⟩
  · by_contra hne
    exact hplace h hne (ho.fresh h (hnc ▸ hge))
  · rw [hvars]
    exact ho.varFresh v (hnv ▸ hv)

/-- A coroutine goes from where it has not ended to where it has not, or it is destroyed. -/
theorem setPlace (ho : Owned s) {h : CoroId} {p : Place} (hp : p = .gone ∨ (s.coros h).place.unfinished = true) :
    Owned (s.setPlace h p) := by
  have hne : ∀ x, x ≠ h → ((s.setPlace h p).coros x).place = (s.coros x).place := fun x hx => by
    simp [State.setPlace, State.modCoro, hx]
  have heq : ((s.setPlace h p).coros h).place = p := by simp [State.setPlace, State.modCoro]
  refine ho.same ?_ rfl rfl rfl (fun x => ?_) (fun x hx => ?_) (fun x hd => ?_) ho.code fun x out hm => ?_
  · funext t
    cases t <;> rfl
  · by_cases hx : x = h
    · subst hx
      simp [State.setPlace, State.modCoro]
    · simp [State.setPlace, State.modCoro, hx]
  · by_cases hxh : x = h
    · subst hxh
      rcases hp with rfl | hu
      · exact absurd heq hx
      · exact fun hg => by simp [hg, Place.unfinished] at hu
    · rwa [hne x hxh] at hx
  · have hg := ho.done x hd
    by_cases hxh : x = h
    · subst hxh
      rcases hp with rfl | hu
      · exact heq
      · simp [hg, Place.unfinished] at hu
    · rw [hne x hxh, hg]
  · obtain ⟨h1, h2⟩ := ho.ended x out hm
    refine ⟨h1, ?_⟩
    by_cases hxh : x = h
    · subst hxh
      rcases hp with rfl | hu
      · rw [heq]
        rfl
      · rw [h2] at hu
        cases hu
    · rw [hne x hxh, h2]

theorem made (ho : Owned s)
    (htask : s'.task = Function.update s.task (.var s.nextVar) (some ⟨false, some s.nextCoro, some s.nextCoro⟩))
    (hcoros : ∀ h, h ≠ s.nextCoro → s'.coros h = s.coros h)
    (hptr : (s'.coros s.nextCoro).promise.taskStatusPtr = some s.nextCoro)
    (hst : s'.statuses = Function.update s.statuses s.nextCoro {}) (hnc : s'.nextCoro = s.nextCoro + 1)
    (hnv : s'.nextVar = s.nextVar + 1) (htrace : s'.trace = s.trace) : Owned s' := by
  have hold : ∀ t e, s'.task t = some e → t = .var s.nextVar ∧ e = ⟨false, some s.nextCoro, some s.nextCoro⟩ ∨
      s.task t = some e := by
    intro t e he
    rw [htask] at he
    by_cases ht : t = .var s.nextVar
    · subst ht
      rw [Function.update_self, Option.some.injEq] at he
      exact .inl ⟨rfl, he.symm⟩
    · exact .inr (by simpa [ht] using he)
  have hnew : s.task (.var s.nextVar) = none := ho.varFresh _ le_rfl
  have hkeep : ∀ t e, s.task t = some e → s'.task t = some e := by
    intro t e he
    have ht : t ≠ .var s.nextVar := fun ht => by simp [ht, hnew] at he
    simpa [htask, ht] using he
  have hself : s'.Held s.nextCoro := ⟨.var s.nextVar, _, by rw [htask, Function.update_self], rfl⟩
  have hlt : ∀ t e h, s.task t = some e → e.handle = some h → h ≠ s.nextCoro := fun t e h he hh =>
    Nat.ne_of_lt (ho.bound t e h he hh)
  have hheld : ∀ h, h ≠ s.nextCoro → (s'.Held h ↔ s.Held h) := by
    intro h hne
    constructor
    · rintro ⟨t, e, he, hh⟩
      rcases hold t e he with ⟨-, rfl⟩ | he
      · exact absurd (Option.some.inj hh).symm hne
      · exact ⟨t, e, he, hh⟩
    · rintro ⟨t, e, he, hh⟩
      exact ⟨t, e, hkeep t e he, hh⟩
  have hno : ∀ out, Event.returned s.nextCoro out ∉ s'.trace := fun out hm =>
    lt_irrefl _ (ho.ended _ out (htrace ▸ hm)).1
  refine ⟨fun t e he => ?_, fun t e h he hh => ?_, fun t t' e e' h he he' hh hh' => ?_, fun h hp hh => ?_,
    fun h st hp hs => ?_, fun h hd => ?_, fun h x hm hh => ?_, fun h out hm => ?_, fun h hge => ?_, fun v hv => ?_⟩
  · rcases hold t e he with ⟨-, rfl⟩ | he
    · rfl
    · exact ho.paired t e he
  · rw [hnc]
    rcases hold t e he with ⟨-, rfl⟩ | he
    · cases hh
      exact Nat.lt_succ_self _
    · exact Nat.lt_succ_of_lt (ho.bound t e h he hh)
  · rcases hold t e he with ⟨rfl, rfl⟩ | he <;> rcases hold t' e' he' with ⟨rfl, rfl⟩ | he'
    · rfl
    · exact absurd (Option.some.inj hh).symm (hlt t' e' h he' hh')
    · exact absurd (Option.some.inj hh').symm (hlt t e h he hh)
    · exact ho.inj t t' e e' h he he' hh hh'
  · by_cases hn : h = s.nextCoro
    · rw [hn, hptr]
    · rw [hcoros h hn] at hp ⊢
      exact ho.ptr h hp ((hheld h hn).mp hh)
  · by_cases hn : h = s.nextCoro
    · rw [hn, hptr] at hs
      rw [hn]
      exact ⟨(Option.some.inj hs).symm, hself⟩
    · rw [hcoros h hn] at hp hs
      obtain ⟨h1, h2⟩ := ho.held h st hp hs
      exact ⟨h1, (hheld h hn).mpr h2⟩
  · by_cases hn : h = s.nextCoro
    · simp [hst, hn] at hd
    · rw [hcoros h hn]
      exact ho.done h (by simpa [hst, hn] using hd)
  · have hn : h ≠ s.nextCoro := fun hn => hno _ (hn ▸ hm)
    simpa [hst, hn] using ho.code h x (htrace ▸ hm) ((hheld h hn).mp hh)
  · have hn : h ≠ s.nextCoro := fun hn => hno _ (hn ▸ hm)
    obtain ⟨h1, h2⟩ := ho.ended h out (htrace ▸ hm)
    rw [hcoros h hn, hnc]
    exact ⟨Nat.lt_succ_of_lt h1, h2⟩
  · rw [hnc] at hge
    rw [hcoros h (by omega)]
    exact ho.fresh h (by omega)
  · rw [hnv] at hv
    have hv1 : s'.task (.var v) = s.task (.var v) := by
      rw [htask, Function.update_of_ne fun heq => by cases heq; omega]
    exact hv1.trans (ho.varFresh v (by omega))

theorem modVars (ho : Owned s) (c : CoroId) (f : List VarId → List VarId) :
    Owned (s.modCoro c fun c => { c with vars := f c.vars }) := by
  refine ho.same ?_ rfl rfl rfl (fun h => ?_) (fun h => ?_) (fun h hd => ?_) ho.code fun h out hm => ?_
  · funext t
    cases t <;> rfl
  · by_cases hh : h = c <;> simp [State.modCoro, hh]
  · by_cases hh : h = c <;> simp [State.modCoro, hh]
  · have h1 := ho.done h hd
    by_cases hh : h = c <;> simpa [State.modCoro, hh] using h1
  · obtain ⟨h1, h2⟩ := ho.ended h out hm
    refine ⟨h1, ?_⟩
    by_cases hh : h = c <;> simpa [State.modCoro, hh] using h2

theorem call (ho : Owned s) (ctx : Option CoroId) : Owned (s.call ctx .user) := by
  have hnew : Owned { s with
      coros := Function.update s.coros s.nextCoro
        { promise := { taskStatusPtr := some s.nextCoro }, body := .user, place := .initial }
      statuses := Function.update s.statuses s.nextCoro {}
      nextCoro := s.nextCoro + 1
      vars := Function.update s.vars s.nextVar (some ⟨false, some s.nextCoro, some s.nextCoro⟩)
      nextVar := s.nextVar + 1 } := by
    refine ho.made ?_ (fun h hne => by simp [hne]) (by simp) rfl rfl rfl rfl
    funext t
    cases t with
    | var v => by_cases hv : v = s.nextVar <;> simp [State.task, hv]
    | kill => rfl
  unfold State.call
  cases ctx with
  | none => exact hnew
  | some c => exact hnew.modVars c (· ++ [s.nextVar])

/-! ### Tasks that go and tasks that move -/

/-- A task goes, and the coroutine it held loses its status. -/
theorem lost (ho : Owned s) {v : VarId} (hvars : s'.vars = Function.update s.vars v none)
    (hkill : s'.task .kill = s.task .kill) (hplace : ∀ h, (s'.coros h).place = (s.coros h).place)
    (hptr : ∀ h, (s.coros h).place ≠ .gone → (∃ e, s.vars v = some e ∧ e.handle = some h) →
      (s'.coros h).promise.taskStatusPtr = none)
    (hsame : ∀ h, (¬ ∃ e, s.vars v = some e ∧ e.handle = some h) →
      (s'.coros h).promise.taskStatusPtr = (s.coros h).promise.taskStatusPtr)
    (hst : s'.statuses = s.statuses) (hnc : s'.nextCoro = s.nextCoro) (hnv : s'.nextVar = s.nextVar)
    (htrace : s'.trace = s.trace) : Owned s' := by
  have hfew : ∀ t e, s'.task t = some e → t ≠ .var v ∧ s.task t = some e := by
    intro t e he
    cases t with
    | var w =>
      by_cases hw : w = v
      · simp [State.task, hvars, hw] at he
      · exact ⟨by simpa using hw, by simpa [State.task, hvars, hw] using he⟩
    | kill => exact ⟨by simp, hkill.symm.trans he⟩
  have hkeep : ∀ t e, s.task t = some e → t ≠ .var v → s'.task t = some e := by
    intro t e he hne
    cases t with
    | var w =>
      have hw : w ≠ v := fun hw => hne (by rw [hw])
      simpa [State.task, hvars, hw] using he
    | kill => exact hkill.trans he
  have hheld : ∀ h, s'.Held h → s.Held h ∧ ¬ ∃ e, s.vars v = some e ∧ e.handle = some h := by
    rintro h ⟨t, e, he, hh⟩
    obtain ⟨hne, he⟩ := hfew t e he
    refine ⟨⟨t, e, he, hh⟩, ?_⟩
    rintro ⟨e', he', hh'⟩
    exact hne (ho.inj t (.var v) e e' h he he' hh hh')
  refine ⟨fun t e he => ho.paired t e (hfew t e he).2, fun t e h he hh => hnc ▸ ho.bound t e h (hfew t e he).2 hh,
    fun t t' e e' h he he' => ho.inj t t' e e' h (hfew t e he).2 (hfew t' e' he').2, fun h hp hh => ?_,
    fun h st hp hs => ?_,
    fun h hd => ?_, fun h x hm hh => ?_, fun h out hm => ?_, fun h hge => ?_, fun w hw => ?_⟩
  · obtain ⟨h1, h2⟩ := hheld h hh
    rw [hsame h h2]
    exact ho.ptr h (hplace h ▸ hp) h1
  · rw [hplace] at hp
    by_cases hv : ∃ e, s.vars v = some e ∧ e.handle = some h
    · rw [hptr h hp hv] at hs
      cases hs
    · rw [hsame h hv] at hs
      obtain ⟨h1, t, e, he, hh⟩ := ho.held h st hp hs
      exact ⟨h1, t, e, hkeep t e he fun ht => hv ⟨e, by rw [ht] at he; exact he, hh⟩, hh⟩
  · rw [hplace]
    exact ho.done h (hst ▸ hd)
  · rw [hst]
    exact ho.code h x (htrace ▸ hm) (hheld h hh).1
  · rw [hnc, hplace]
    exact ho.ended h out (htrace ▸ hm)
  · rw [hplace]
    exact ho.fresh h (hnc ▸ hge)
  · rw [hvars]
    by_cases hwv : w = v
    · simp [hwv]
    · simpa [hwv] using ho.varFresh w (hnv ▸ hw)

theorem destroyTask (ho : Owned s) (v : VarId) : Owned (s.destroyTask v) := by
  unfold State.destroyTask
  split
  · exact ho
  · rename_i e he
    have hpair := ho.paired (.var v) e he
    simp only
    split
    · rename_i st h hst hh
      obtain rfl : st = h := by rw [hpair, hh] at hst; exact (Option.some.inj hst).symm
      split
      · rename_i hd
        -- the coroutine is gone
        show Owned { s with vars := Function.update s.vars v none }
        refine ho.lost rfl rfl (fun _ => rfl) (fun x hp hx => ?_) (fun _ _ => rfl) rfl rfl rfl rfl
        obtain ⟨e', he', hh'⟩ := hx
        obtain rfl := Option.some.inj (he.symm.trans he')
        obtain rfl := Option.some.inj (hh.symm.trans hh')
        exact absurd (ho.done st hd) hp
      · refine ho.lost (v := v) rfl rfl (fun x => ?_) (fun x _ hx => ?_) (fun x hx => ?_) rfl rfl rfl rfl
        · by_cases hxs : x = st <;> simp [State.modPromise, State.modCoro, hxs]
        · obtain ⟨e', he', hh'⟩ := hx
          obtain rfl := Option.some.inj (he.symm.trans he')
          obtain rfl := Option.some.inj (hh.symm.trans hh')
          simp [State.modPromise, State.modCoro]
        · have hxs : x ≠ st := fun hxs => hx ⟨e, he, hxs ▸ hh⟩
          simp [State.modPromise, State.modCoro, hxs]
    · rename_i hno
      show Owned { s with vars := Function.update s.vars v none }
      refine ho.lost rfl rfl (fun _ => rfl) (fun x _ hx => ?_) (fun _ _ => rfl) rfl rfl rfl rfl
      obtain ⟨e', he', hh'⟩ := hx
      obtain rfl := Option.some.inj (he.symm.trans he')
      exact absurd hh' (hno x x (hpair.trans hh'))

theorem destroyTasks (ho : Owned s) (vs : List VarId) : Owned (vs.foldl (fun s v => s.destroyTask v) s) := by
  induction vs generalizing s with
  | nil => exact ho
  | cons v vs ih => exact ih (ho.destroyTask v)

theorem destroyLocals (ho : Owned s) (h : CoroId) : Owned (s.destroyLocals h) :=
  (ho.destroyTasks (s.coros h).vars.reverse).same (by funext t; cases t <;> rfl) rfl rfl rfl (fun _ => rfl)
    (fun _ h1 => h1)
    (ho.destroyTasks _).done (ho.destroyTasks _).code (ho.destroyTasks _).ended

/-- The task of `w` is moved to `v`, which held no coroutine that has not finished. -/
theorem moved (ho : Owned s) {v w : VarId} {e : EvTask} (hw : s.vars w = some e) (hvw : w ≠ v)
    (hold : ∀ old h, s.vars v = some old → old.handle = some h → (s.coros h).place = .gone)
    (hvars : s'.vars = Function.update (Function.update s.vars w (some {})) v (some e))
    (hkill : s'.task .kill = s.task .kill) (hplace : ∀ h, (s'.coros h).place = (s.coros h).place)
    (hptr : ∀ h, (s.coros h).place ≠ .gone → (s'.coros h).promise.taskStatusPtr = (s.coros h).promise.taskStatusPtr)
    (hst : s'.statuses = s.statuses) (hnc : s'.nextCoro = s.nextCoro) (hnv : s.nextVar ≤ s'.nextVar)
    (hv : v < s'.nextVar) (htrace : s'.trace = s.trace) : Owned s' := by
  have htask : ∀ t e', s'.task t = some e' → t = .var v ∧ e' = e ∨ t ≠ .var v ∧
      (e' = {} ∨ t ≠ .var w ∧ s.task t = some e') := by
    intro t e' he
    cases t with
    | var x =>
      by_cases hxv : x = v
      · simp only [State.task, hvars, hxv, Function.update_self, Option.some.injEq] at he
        exact .inl ⟨by rw [hxv], he.symm⟩
      · right
        refine ⟨by simpa using hxv, ?_⟩
        by_cases hxw : x = w
        · subst hxw
          left
          simpa [State.task, hvars, hxv, eq_comm] using he
        · exact .inr ⟨by simpa using hxw, by simpa [State.task, hvars, hxv, hxw] using he⟩
    | kill => exact .inr ⟨by simp, .inr ⟨by simp, hkill.symm.trans he⟩⟩
  -- where a task that holds a coroutine was before
  have hfrom : ∀ t e' h, s'.task t = some e' → e'.handle = some h →
    s.task (if t = .var v then .var w else t) = some e' ∧
      (t ≠ .var v → t ≠ .var w) := by
    intro t e' h he hh
    rcases htask t e' he with ⟨rfl, rfl⟩ | ⟨hne, rfl | ⟨hne', he⟩⟩
    · exact ⟨by rw [if_pos rfl]; exact hw, fun h1 => absurd rfl h1⟩
    · cases hh
    · exact ⟨by rw [if_neg hne]; exact he, fun _ => hne'⟩
  have hback : ∀ h, s'.Held h → s.Held h := by
    rintro h ⟨t, e', he, hh⟩
    exact ⟨_, e', (hfrom t e' h he hh).1, hh⟩
  have hforth : ∀ h, (s.coros h).place ≠ .gone → s.Held h → s'.Held h := by
    rintro h hp ⟨t, e', he, hh⟩
    cases t with
    | var x =>
      have hxv : x ≠ v := fun hxv => hp (hold e' h (by rw [← hxv]; exact he) hh)
      by_cases hxw : x = w
      · obtain rfl := Option.some.inj (hw.symm.trans (by rw [← hxw]; exact he))
        exact ⟨.var v, e, by simp [State.task, hvars], hh⟩
      · exact ⟨.var x, e', by simpa [State.task, hvars, hxv, hxw] using he, hh⟩
    | kill => exact ⟨.kill, e', hkill.trans he, hh⟩
  refine ⟨fun t e' he => ?_, fun t e' h he hh => ?_, fun t t' e₁ e₂ h he he' hh hh' => ?_, fun h hp hh => ?_,
    fun h st hp hs => ?_, fun h hd => ?_, fun h x hm hh => ?_, fun h out hm => ?_, fun h hge => ?_, fun x hx => ?_⟩
  · rcases htask t e' he with ⟨-, rfl⟩ | ⟨-, rfl | ⟨-, he⟩⟩
    · exact ho.paired (.var w) e' hw
    · rfl
    · exact ho.paired t e' he
  · rw [hnc]
    exact ho.bound _ e' h (hfrom t e' h he hh).1 hh
  · obtain ⟨h1, h2⟩ := hfrom t e₁ h he hh
    obtain ⟨h3, h4⟩ := hfrom t' e₂ h he' hh'
    have heq := ho.inj _ _ e₁ e₂ h h1 h3 hh hh'
    by_cases ht : t = .var v <;> by_cases ht' : t' = .var v
    · rw [ht, ht']
    · rw [if_pos ht, if_neg ht'] at heq
      exact absurd heq.symm (h4 ht')
    · rw [if_neg ht, if_pos ht'] at heq
      exact absurd heq (h2 ht)
    · rwa [if_neg ht, if_neg ht'] at heq
  · rw [hplace] at hp
    rw [hptr h hp]
    exact ho.ptr h hp (hback h hh)
  · rw [hplace] at hp
    rw [hptr h hp] at hs
    obtain ⟨h1, h2⟩ := ho.held h st hp hs
    exact ⟨h1, hforth h hp h2⟩
  · rw [hplace]
    exact ho.done h (hst ▸ hd)
  · rw [hst]
    exact ho.code h x (htrace ▸ hm) (hback h hh)
  · rw [hnc, hplace]
    exact ho.ended h out (htrace ▸ hm)
  · rw [hplace]
    exact ho.fresh h (hnc ▸ hge)
  · have hwn : w < s.nextVar := by
      by_contra hge
      rw [ho.varFresh w (Nat.le_of_not_lt hge)] at hw
      cases hw
    have h1 : x ≠ v := Nat.ne_of_gt (hv.trans_le hx)
    have h2 : x ≠ w := Nat.ne_of_gt (hwn.trans_le (hnv.trans hx))
    simpa [hvars, h1, h2] using ho.varFresh x (hnv.trans hx)

/-- A move writes to the promise what is there, unless the coroutine is gone. -/
theorem relink_eq (ho : Owned s) {t : TaskRef} {e : EvTask} (he : s.task t = some e) : ∃ coros,
    s.relink e = { s with coros } ∧
    (∀ h, (coros h).place = (s.coros h).place) ∧
    ∀ h, (s.coros h).place ≠ .gone → (coros h).promise.taskStatusPtr = (s.coros h).promise.taskStatusPtr := by
  unfold State.relink
  split
  · rename_i h hh
    refine ⟨_, rfl, fun x => ?_, fun x hp => ?_⟩
    · by_cases hx : x = h <;> simp [hx]
    · by_cases hx : x = h
      · subst hx
        simp [ho.ptr x hp ⟨t, e, he, hh⟩, ho.paired t e he, hh]
      · simp [hx]
  · exact ⟨s.coros, rfl, fun _ => rfl, fun _ _ => rfl⟩

theorem moveConstruct (ho : Owned s) {ctx : Option CoroId} {w : VarId} (hs : s.moveConstruct ctx w = .ok s') :
    Owned s' := by
  unfold State.moveConstruct at hs
  obtain ⟨e, he, hs⟩ := bind_ok.mp hs
  obtain ⟨h, -, hs⟩ := bind_ok.mp hs
  rw [need_ok] at he
  obtain ⟨coros, heq, hplace, hptr⟩ := ho.relink_eq (t := .var w) he
  have hwn : w < s.nextVar := by
    by_contra hge
    rw [ho.varFresh w (Nat.le_of_not_lt hge)] at he
    cases he
  have hnew : Owned { s.relink e with
      vars := Function.update (Function.update s.vars w (some {})) s.nextVar (some e)
      nextVar := s.nextVar + 1 } := by
    rw [heq]
    refine ho.moved he (Nat.ne_of_lt hwn) (fun old h hold => ?_) rfl rfl hplace hptr rfl rfl (Nat.le_succ _)
      (Nat.lt_succ_self _) rfl
    rw [ho.varFresh _ le_rfl] at hold
    cases hold
  cases hs
  cases ctx with
  | none => exact hnew
  | some c => exact hnew.modVars c (· ++ [s.nextVar])

theorem destroyCoro (ho : Owned s) {h : CoroId} (hs : s.destroyCoro h = .ok s') : Owned s' := by
  unfold State.destroyCoro at hs
  split at hs
  · cases hs
    exact (ho.destroyLocals h).setPlace (.inl rfl)
  · cases hs

/-- A task that is assigned over holds no coroutine afterwards that has not finished, if it is there at all. -/
theorem overwriteTask (ho : Owned s) {v : VarId} {old : EvTask} (hv : s.vars v = some old)
    (hs : s.overwriteTask old = .ok s') :
    Owned s' ∧ ∀ e h, s'.vars v = some e → e.handle = some h → (s'.coros h).place = .gone := by
  have hpair := ho.paired (.var v) old hv
  unfold State.overwriteTask at hs
  split at hs
  · rename_i hn
    cases hs
    refine ⟨ho, fun e h he hh => ?_⟩
    rw [hv, Option.some.injEq] at he
    simp [← he, hn] at hh
  · rename_i h hh
    rw [hpair, hh] at hs
    simp only at hs
    split at hs
    · rename_i hd
      cases hs
      refine ⟨ho, fun e x he hx => ?_⟩
      rw [hv, Option.some.injEq] at he
      rw [← he, hh, Option.some.injEq] at hx
      exact hx ▸ ho.done h hd
    · refine ⟨ho.destroyCoro hs, fun e x he hx => ?_⟩
      obtain ⟨coros, vars, reqs, heq, -, hfew⟩ := s.destroyLocals_eq h
      unfold State.destroyCoro at hs
      split at hs
      · cases hs
        rw [heq] at he ⊢
        have he0 := hfew v e he
        rw [hv, Option.some.injEq] at he0
        rw [← he0, hh, Option.some.injEq] at hx
        simp [← hx, State.setPlace, State.modCoro]
      · cases hs

theorem assignOver_eq {v w : VarId} {old : EvTask} (hd : s.DestroysSuspended (.moveAssign v w)) (hvw : v ≠ w)
    (hv : s.vars v = some old) : s.assignOver old = s.overwriteTask old := by
  unfold State.assignOver
  split
  · rfl
  · rename_i h hh
    refine if_neg fun ⟨hp, hdone⟩ => ?_
    rcases hd.resolve_left hvw old hv h hh with ⟨hrun, hfinal⟩ | hdone'
    · exact hp.elim hrun hfinal
    · cases hdone.symm.trans hdone'

theorem moveAssign (ho : Owned s) {v w : VarId} (hd : s.DestroysSuspended (.moveAssign v w))
    (hs : s.moveAssign v w = .ok s') :
    Owned s' := by
  unfold State.moveAssign at hs
  obtain ⟨old, hold, hs⟩ := bind_ok.mp hs
  rw [need_ok] at hold
  split at hs
  · cases hs
    exact ho
  · rename_i hvw
    obtain ⟨s1, h1, hs⟩ := bind_ok.mp hs
    obtain ⟨x, hx, hs⟩ := bind_ok.mp hs
    obtain ⟨e, he, hs⟩ := bind_ok.mp hs
    obtain ⟨h, -, hs⟩ := bind_ok.mp hs
    rw [need_ok] at hx he
    cases hs
    rw [assignOver_eq hd hvw hold] at h1
    obtain ⟨ho1, hgone⟩ := ho.overwriteTask hold h1
    obtain ⟨coros, heq, hplace, hptr⟩ := ho1.relink_eq (t := .var w) he
    rw [heq]
    refine ho1.moved he (Ne.symm hvw) (fun old h h2 h3 => hgone old h h2 h3) rfl rfl hplace hptr rfl rfl le_rfl ?_ rfl
    show v < s1.nextVar
    by_contra hge
    rw [ho1.varFresh v (Nat.le_of_not_lt hge)] at hx
    cases hx

/-! ### Bodies that end -/

/-- The status of a coroutine that runs is its own, and it is kept for the task that holds it. -/
theorem storeResult (ho : Owned s) {h : CoroId} (hrun : (s.coros h).place = .running) (out : Option ℕ) :
    Owned (s.storeResult h out) ∧ (s.storeResult h out).task = s.task ∧ (∀ x, ((s.storeResult h out).coros x).place =
      (s.coros x).place) ∧ ∀ x, out = some x → s.Held h → ((s.storeResult h out).statuses h).retCode = x := by
  have hno : ∀ out, Event.returned h out ∉ s.trace := fun out hm => by
    have h1 := (ho.ended h out hm).2
    simp [hrun, Place.unfinished] at h1
  cases out with
  | none =>
    have hplace : ∀ x, ((s.storeResult h none).coros x).place = (s.coros x).place := fun x => by
      by_cases hx : x = h <;> simp [State.storeResult, State.modPromise, State.modCoro, hx]
    have htask : (s.storeResult h none).task = s.task := by
      funext t
      cases t <;> rfl
    refine ⟨ho.same htask rfl rfl rfl (fun x => ?_) (fun x => ?_) (fun x hd => ?_) ho.code fun x out hm => ?_,
      htask, hplace,
      by simp⟩
    · by_cases hx : x = h <;> simp [State.storeResult, State.modPromise, State.modCoro, hx]
    · rw [hplace]
      exact id
    · rw [hplace]
      exact ho.done x hd
    · rw [hplace]
      exact ho.ended x out hm
  | some code =>
    simp only [State.storeResult, State.returnValue]
    split
    · rename_i st hst
      obtain ⟨rfl, -⟩ := ho.held h st (by simp [hrun]) hst
      have htask : State.task
          { s with statuses := Function.update s.statuses st { s.statuses st with retCode := code } } =
          s.task := by
        funext t
        cases t <;> rfl
      refine ⟨ho.same htask rfl rfl rfl (fun _ => rfl) (fun _ => id) (fun x hd => ?_)
        (fun x y hm hh => ?_) ho.ended, htask,
        fun _ => rfl, fun x hx _ => by simpa using hx⟩
      · refine ho.done x ?_
        by_cases hx : x = st
        · subst hx
          simpa using hd
        · simpa [hx] using hd
      · have hx : x ≠ st := fun hx => hno _ (hx ▸ hm)
        simpa [hx] using ho.code x y hm hh
    · rename_i hn
      refine ⟨ho, rfl, fun _ => rfl, fun x _ hh => ?_⟩
      rw [ho.ptr h (by simp [hrun]) hh] at hn
      cases hn

theorem finish (ho : Owned s) {h : CoroId} (hrun : (s.coros h).place = .running) (out : Option ℕ) :
    Owned ((s.storeResult h out).endBody h out) := by
  obtain ⟨ho1, htask, hplace, hcode⟩ := ho.storeResult hrun out
  obtain ⟨coros, vars, reqs, heq, hpl, hfew⟩ := (s.storeResult h out).destroyLocals_eq h
  have ho2 := ho1.destroyLocals h
  have hrun2 : (((s.storeResult h out).destroyLocals h).coros h).place = .running := by
    rw [heq]
    exact (hpl h).trans ((hplace h).trans hrun)
  have hlt : h < ((s.storeResult h out).destroyLocals h).nextCoro := by
    by_contra hge
    rw [ho2.fresh h (Nat.le_of_not_lt hge)] at hrun2
    cases hrun2
  have ho3 := ho2.setPlace (p := .final) (.inr (by rw [hrun2]; rfl))
  have hheld : ((s.storeResult h out).destroyLocals h).Held h → s.Held h := by
    rintro ⟨t, e, he, hh⟩
    refine ⟨t, e, ?_, hh⟩
    rw [← htask]
    rw [heq] at he
    cases t with
    | var v => exact hfew v e he
    | kill => exact he
  refine ho3.same (by funext t; cases t <;> rfl) rfl rfl rfl (fun _ => rfl) (fun _ => id) ho3.done (fun x y hm hh => ?_)
    fun x o hm => ?_
  · rcases List.mem_cons.mp hm with h1 | h1
    · cases h1
      have h2 : s.Held h := hheld (by obtain ⟨t, e, he, hh⟩ := hh; exact ⟨t, e, by cases t <;> exact he, hh⟩)
      have h3 := hcode y rfl h2
      rw [show ((s.storeResult h (some y)).endBody h (some y)).statuses =
        ((s.storeResult h (some y)).destroyLocals h).statuses
        from rfl, heq]
      exact h3
    · exact ho3.code x y h1 hh
  · rcases List.mem_cons.mp hm with h1 | h1
    · cases h1
      exact ⟨hlt, by simp [State.endBody, State.setPlace, State.modCoro, State.push, State.pop, State.log,
        Place.unfinished]⟩
    · exact ho3.ended x o h1

theorem finalReturn (ho : Owned s) {h : CoroId} (hp : (s.coros h).place = .final) : Owned (s.finalReturn h) := by
  have hgone := ho.setPlace (h := h) (p := .gone) (.inl rfl)
  unfold State.finalReturn
  simp only
  split
  · rename_i st hst
    obtain ⟨rfl, -⟩ := ho.held h st (by simp [hp]) hst
    refine hgone.same (by funext t; cases t <;> rfl) rfl rfl rfl (fun _ => rfl) (fun _ => id) (fun x hd => ?_)
      (fun x y hm hh => ?_) hgone.ended
    · by_cases hx : x = st
      · simp [hx, State.setPlace, State.modCoro]
      · exact hgone.done x (by simpa [State.setPlace, State.modCoro, hx] using hd)
    · have h1 := hgone.code x y hm hh
      by_cases hx : x = st
      · subst hx
        simpa [State.setPlace, State.modCoro] using h1
      · simpa [State.setPlace, State.modCoro, hx] using h1
  · exact hgone

/-- **Every operation keeps tasks, statuses and promises linked**, if it destroys coroutines only where they are
suspended. -/
theorem step (ho : Owned s) {a : TaskAct} (hd : s.DestroysSuspended a) (hs : s.opStep a = .ok s') : Owned s' := by
  cases a with
  | construct ctx =>
    cases hs
    exact ho.call ctx
  | moveConstruct ctx w => exact ho.moveConstruct hs
  | moveAssign v w => exact ho.moveAssign hd hs
  | destroy v =>
    cases hs
    exact ho.destroyTask v
  | resume h =>
    simp only [opStep] at hs
    split at hs
    · rename_i hsus
      cases hs
      refine ho.setPlace (.inr ?_)
      revert hsus
      cases (s.coros h).place <;> simp [Place.suspended, Place.unfinished]
    · cases hs
  | suspend h =>
    simp only [opStep] at hs
    split at hs
    · rename_i hrun
      cases hs
      exact ho.setPlace (.inr (by rw [hrun]; rfl))
    · cases hs
  | finish h out =>
    simp only [opStep] at hs
    split at hs
    · rename_i hrun
      cases hs
      exact ho.finish hrun out
    · cases hs
  | finalReturn h =>
    simp only [opStep] at hs
    split at hs
    · rename_i hp
      cases hs
      exact ho.finalReturn hp
    · cases hs

end Owned

/-! ### What a task reads -/

section ReadCode

variable {s s' : State}

theorem statuses_relink (e : EvTask) (s : State) : (s.relink e).statuses = s.statuses ∧
    (s.relink e).trace = s.trace := by
  unfold State.relink
  split <;> exact ⟨rfl, rfl⟩

theorem statuses_overwriteTask {old : EvTask} (hs : s.overwriteTask old = .ok s') :
    s'.statuses = s.statuses ∧ s'.trace = s.trace := by
  unfold State.overwriteTask at hs
  split at hs
  · cases hs
    exact ⟨rfl, rfl⟩
  · rename_i h _
    split at hs
    · cases hs
    · split at hs
      · cases hs
        exact ⟨rfl, rfl⟩
      · obtain ⟨coros, vars, reqs, heq, -⟩ := s.destroyLocals_eq h
        unfold State.destroyCoro at hs
        split at hs <;> cases hs
        rw [heq]
        exact ⟨rfl, rfl⟩

theorem statuses_assignOver {old : EvTask} (hs : s.assignOver old = .ok s') : s'.statuses = s.statuses ∧
    s'.trace = s.trace := by
  unfold State.assignOver at hs
  split at hs
  · exact statuses_overwriteTask hs
  · split at hs
    · cases hs
      exact ⟨rfl, rfl⟩
    · exact statuses_overwriteTask hs

/-- A body that ends writes to its own status. -/
theorem retCode_finish (ho : Owned s) {h : CoroId} (hrun : (s.coros h).place = .running) (out : Option ℕ) (c : CoroId) :
    (((s.storeResult h out).endBody h out).statuses c).retCode = (s.statuses c).retCode ∨
      ∃ x, Event.returned c (some x) ∈ ((s.storeResult h out).endBody h out).trace := by
  obtain ⟨coros, vars, reqs, heq, -⟩ := (s.storeResult h out).destroyLocals_eq h
  have hst : ((s.storeResult h out).endBody h out).statuses = (s.storeResult h out).statuses := by
    show ((s.storeResult h out).destroyLocals h).statuses = _
    rw [heq]
  rw [hst]
  cases out with
  | none => exact .inl rfl
  | some code =>
    by_cases hc : c = h
    · exact .inr ⟨code, hc ▸ List.mem_cons_self⟩
    · left
      simp only [State.storeResult, State.returnValue]
      split
      · rename_i st hptr
        obtain ⟨rfl, -⟩ := ho.held h st (by simp [hrun]) hptr
        simp [hc]
      · rfl

/-- A status is written to by its own coroutine only. -/
theorem opStep_retCode (ho : Owned s) {a : TaskAct} (hs : s.opStep a = .ok s') {c : CoroId}
    (hz : (s.statuses c).retCode = 0 ∨ ∃ x, Event.returned c (some x) ∈ s.trace) :
    (s'.statuses c).retCode = 0 ∨ ∃ x, Event.returned c (some x) ∈ s'.trace := by
  have of_eq : s'.statuses = s.statuses ∧ s'.trace = s.trace →
      (s'.statuses c).retCode = 0 ∨ ∃ x, Event.returned c (some x) ∈ s'.trace := by
    rintro ⟨h1, h2⟩
    rwa [h1, h2]
  cases a with
  | construct ctx =>
    cases hs
    have hst : ((s.call ctx .user).statuses c).retCode = 0 ∨ ((s.call ctx .user).statuses c) = s.statuses c := by
      by_cases hc : c = s.nextCoro <;> cases ctx <;> simp [State.call, State.modCoro, hc]
    have htrace : (s.call ctx .user).trace = s.trace := by cases ctx <;> rfl
    rw [htrace]
    exact hst.elim .inl fun h1 => h1 ▸ hz
  | moveConstruct ctx w =>
    refine of_eq ?_
    simp only [opStep, State.moveConstruct] at hs
    obtain ⟨e, -, hs⟩ := bind_ok.mp hs
    obtain ⟨h, -, hs⟩ := bind_ok.mp hs
    cases hs
    cases ctx <;> exact statuses_relink e s
  | moveAssign v w =>
    refine of_eq ?_
    simp only [opStep, State.moveAssign] at hs
    obtain ⟨old, -, hs⟩ := bind_ok.mp hs
    split at hs
    · cases hs
      exact ⟨rfl, rfl⟩
    · obtain ⟨s1, h1, hs⟩ := bind_ok.mp hs
      obtain ⟨x, -, hs⟩ := bind_ok.mp hs
      obtain ⟨e, -, hs⟩ := bind_ok.mp hs
      obtain ⟨h, -, hs⟩ := bind_ok.mp hs
      cases hs
      obtain ⟨h2, h3⟩ := statuses_assignOver h1
      obtain ⟨h4, h5⟩ := statuses_relink e s1
      exact ⟨h4.trans h2, h5.trans h3⟩
  | destroy v =>
    cases hs
    obtain ⟨coros, heq, -⟩ := s.destroyTask_eq v
    refine of_eq ?_
    rw [heq]
    exact ⟨rfl, rfl⟩
  | resume h | suspend h =>
    refine of_eq ?_
    simp only [opStep] at hs
    split at hs <;> cases hs
    exact ⟨rfl, rfl⟩
  | finish h out =>
    simp only [opStep] at hs
    split at hs
    · rename_i hrun
      cases hs
      rcases retCode_finish ho hrun out c with h1 | h1
      · refine hz.imp (fun h2 => h1.trans h2) fun ⟨x, hx⟩ => ⟨x, List.mem_cons_of_mem _ ?_⟩
        obtain ⟨coros, vars, reqs, heq, -⟩ := (s.storeResult h out).destroyLocals_eq h
        show Event.returned c (some x) ∈ ((s.storeResult h out).destroyLocals h).trace
        rw [heq]
        cases out with
        | none => exact hx
        | some code =>
          simp only [State.storeResult, State.returnValue]
          split <;> exact hx
      · exact .inr h1
    · cases hs
  | finalReturn h =>
    simp only [opStep] at hs
    split at hs <;> cases hs
    unfold State.finalReturn
    simp only
    split
    · rename_i st _
      refine hz.imp_left fun h1 => ?_
      by_cases hcs : c = st
      · subst hcs
        simpa [State.setPlace, State.modCoro] using h1
      · simpa [State.setPlace, State.modCoro, hcs] using h1
    · exact hz

end ReadCode

/-! ### Every sequence of operations -/

/-- The states that operations on tasks and coroutines which all meet `P` reach, in any order. -/
def OpReach (P : State → TaskAct → Prop) (s : State) : Prop := ∃ s₀, State.Initial s₀ ∧ Run opStep P s₀ s

theorem OpReach.owned {s : State} (h : OpReach State.DestroysSuspended s) :
    Owned s ∧ ∀ c, (s.statuses c).retCode = 0 ∨ ∃ x, Event.returned c (some x) ∈ s.trace := by
  obtain ⟨s₀, hi, hr⟩ := h
  refine hr.inv (I := fun s => Owned s ∧ ∀ c, (s.statuses c).retCode = 0 ∨ ∃ x, Event.returned c (some x) ∈ s.trace)
    ⟨.init hi, fun c => .inl ?_⟩ fun s a s' ⟨ho, hz⟩ hd hs => ⟨ho.step hd hs, fun c => opStep_retCode ho hs (hz c)⟩
  cases hi <;> rfl

end EvManager
