import EvManager.Control

/-!
# Tasks, statuses and promises

`Linked`: every `EvTask`, wherever it is, owns the status of the coroutine it holds, no coroutine is held
twice, the promise of a coroutine that is held points back to its status, and a status is done only when the
coroutine is gone.
-/

namespace EvManager

open Lib State

/-- Where an `EvTask` can be: a variable or temporary, `_kill_coro_task`, or the store. -/
inductive Holder
  | task (t : TaskRef)
  | item (i : ℕ)
  deriving DecidableEq

def State.holder (s : State) : Holder → Option EvTask
  | .task t => s.task t
  | .item i => s.ev.managedCoroutinesStore.get? i

/-- Tasks, statuses and promises are linked. -/
structure Linked (s : State) : Prop where
  paired : ∀ x e, s.holder x = some e → e.taskStatusPtr = e.handle
  bound : ∀ x e h, s.holder x = some e → e.handle = some h → h < s.nextCoro
  inj : ∀ x y e e' h, s.holder x = some e → s.holder y = some e' → e.handle = some h → e'.handle = some h → x = y
  unstarted : ∀ x e h, s.holder x = some e → e.handle = some h → e.startedCoro = false →
    (s.coros h).place = .initial ∨ (s.coros h).place = .gone
  prom : ∀ h st, (s.coros h).promise.taskStatusPtr = some st → st = h
  held : ∀ x e h, s.holder x = some e → e.handle = some h → (s.coros h).promise.taskStatusPtr = some h
  done : ∀ h, (s.statuses h).handlerDone = true → (s.coros h).place = .gone
  varFresh : ∀ v, s.nextVar ≤ v → s.vars v = none
  kill : s.ev.killCoroTask.handle = some 0

/-- Where the tasks are after a task was moved from a variable to a slot that an insert selects. -/
theorem State.holder_insert {s s' : State} {v : VarId} {e : EvTask} {pick : ℕ}
    (hroom : s.ev.managedCoroutinesStore.freedIdxs = ∅ ∨ pick < s.ev.managedCoroutinesStore.items.length)
    (hstore : s'.ev.managedCoroutinesStore = s.ev.managedCoroutinesStore.insert pick e)
    (hkill : s'.ev.killCoroTask = s.ev.killCoroTask) (hvars : s'.vars = Function.update s.vars v (some {})) {x : Holder}
    {e' : EvTask} (he : s'.holder x = some e') :
    x = .item (s.ev.managedCoroutinesStore.selectedIdx pick) ∧ e' = e ∨ x = .task (.var v) ∧ e' = {} ∨
      x ≠ .item (s.ev.managedCoroutinesStore.selectedIdx pick) ∧ x ≠ .task (.var v) ∧ s.holder x = some e' := by
  cases x with
  | task t =>
    cases t with
    | var w =>
      simp only [State.holder, State.task, hvars] at he
      by_cases hw : w = v
      · subst hw
        simp only [Function.update_self, Option.some.injEq] at he
        exact .inr (.inl ⟨rfl, he.symm⟩)
      · exact .inr (.inr ⟨by simp, by simpa using hw, by simpa [State.holder, State.task, hw] using he⟩)
    | kill =>
      simp only [State.holder, State.task, hkill] at he
      exact .inr (.inr ⟨by simp, by simp, he⟩)
  | item i =>
    simp only [State.holder, hstore] at he
    by_cases hi : i = s.ev.managedCoroutinesStore.selectedIdx pick
    · subst hi
      rw [ItemStore.get?_insert_self _ _ _ hroom, Option.some.injEq] at he
      exact .inl ⟨rfl, he.symm⟩
    · rw [ItemStore.get?_insert_of_ne _ _ _ _ hi] at he
      exact .inr (.inr ⟨by simpa using hi, by simp, he⟩)

namespace Linked

variable {s s' : State}

theorem init {s : State} (hi : State.Initial s) : Linked s := by
  have hholder : ∀ x e, s.holder x = some e → x = .task .kill ∧ e = ⟨false, some 0, some 0⟩ := by
    intro x e he
    cases x with
    | task t =>
      simp only [State.holder, hi.task] at he
      split at he
      · rename_i ht
        cases he
        exact ⟨by rw [ht], rfl⟩
      · cases he
    | item i => cases hi <;> simp [State.holder, State.init, initFailed, blank, ItemStore.get?] at he
  refine ⟨fun x e he => ?_, fun x e h he hh => ?_, fun x y e e' h he he' _ _ => ?_, fun x e h he hh _ => ?_,
    fun h st hst => ?_, fun x e h he hh => ?_, fun h hd => ?_, fun v _ => ?_, ?_⟩
  · obtain ⟨-, rfl⟩ := hholder x e he
    rfl
  · obtain ⟨-, rfl⟩ := hholder x e he
    cases hh
    cases hi <;> exact Nat.one_pos
  · rw [(hholder x e he).1, (hholder y e' he').1]
  · obtain ⟨-, rfl⟩ := hholder x e he
    cases hh
    exact .inl (by rw [hi.place, if_pos rfl])
  · cases hi <;>
      · by_cases hh : h = 0
        · subst hh
          simpa [State.init, initFailed, blank, eq_comm] using hst
        · simp [State.init, initFailed, blank, hh] at hst
  · obtain ⟨-, rfl⟩ := hholder x e he
    cases hh
    cases hi <;> simp [State.init, initFailed, blank]
  · cases hi <;> simp [State.init, initFailed, blank] at hd
  · cases hi <;> rfl
  · cases hi <;> rfl

theorem of_eq (hl : Linked s) (hholder : ∀ x, s'.holder x = s.holder x)
    (hplace : ∀ h, (s'.coros h).place = (s.coros h).place)
    (hptr : ∀ h, (s'.coros h).promise.taskStatusPtr = (s.coros h).promise.taskStatusPtr)
    (hdone : ∀ h, (s'.statuses h).handlerDone = (s.statuses h).handlerDone)
    (hnc : s'.nextCoro = s.nextCoro) (hnv : s'.nextVar = s.nextVar) : Linked s' where
  paired x e he := hl.paired x e (hholder x ▸ he)
  bound x e h he hh := by rw [hnc]; exact hl.bound x e h (hholder x ▸ he) hh
  inj x y e e' h he he' := hl.inj x y e e' h (hholder x ▸ he) (hholder y ▸ he')
  unstarted x e h he hh hu := by rw [hplace]; exact hl.unstarted x e h (hholder x ▸ he) hh hu
  prom h st hs := hl.prom h st (hptr h ▸ hs)
  held x e h he hh := by rw [hptr]; exact hl.held x e h (hholder x ▸ he) hh
  done h hd := by rw [hplace]; exact hl.done h (hdone h ▸ hd)
  varFresh v hv := by
    have hx := hholder (.task (.var v))
    exact hx.trans (hl.varFresh v (hnv ▸ hv))
  kill := by
    have hx := hholder (.task .kill)
    simp only [State.holder, State.task, Option.some.injEq] at hx
    rw [hx]
    exact hl.kill

theorem push (hl : Linked s) (a : Activation) : Linked (s.push a) := { hl with }

theorem pop (hl : Linked s) : Linked s.pop := { hl with }

theorem log (hl : Linked s) (e : Event) : Linked (s.log e) := { hl with }

theorem modReq (hl : Linked s) (r : ReqId) (f : Request → Request) : Linked (s.modReq r f) := { hl with }

theorem modEv (hl : Linked s) {f : EventManager → EventManager}
    (hitems : (f s.ev).managedCoroutinesStore.items = s.ev.managedCoroutinesStore.items)
    (hkill : (f s.ev).killCoroTask = s.ev.killCoroTask) : Linked (s.modEv f) := by
  refine hl.of_eq (fun x => ?_) (fun _ => rfl) (fun _ => rfl) (fun _ => rfl) rfl rfl
  cases x with
  | task t =>
    cases t with
    | var v => rfl
    | kill => simp [State.holder, State.task, State.modEv, hkill]
  | item i => simp [State.holder, State.modEv, ItemStore.get?, hitems]

theorem modCoro (hl : Linked s) (h : CoroId) {f : Coro → Coro} (hplace : ∀ c, (f c).place = c.place)
    (hptr : ∀ c, (f c).promise.taskStatusPtr = c.promise.taskStatusPtr) : Linked (s.modCoro h f) := by
  refine hl.of_eq (fun x => ?_) (fun h' => ?_) (fun h' => ?_) (fun _ => rfl) rfl rfl
  · cases x with
    | task t => cases t <;> rfl
    | item i => rfl
  all_goals
    by_cases hh : h' = h
    · subst hh
      simp [State.modCoro, hplace, hptr]
    · simp [State.modCoro, hh]

theorem setBody (hl : Linked s) (h : CoroId) (b : Body) : Linked (s.setBody h b) :=
  hl.modCoro h (fun _ => rfl) fun _ => rfl

theorem modPromise (hl : Linked s) (h : CoroId) {f : Promise → Promise}
    (hptr : ∀ p, (f p).taskStatusPtr = p.taskStatusPtr) : Linked (s.modPromise h f) :=
  hl.modCoro h (fun _ => rfl) fun _ => hptr _

/-- A coroutine that is neither unstarted nor gone is held, if at all, by a task that was started. -/
theorem started (hl : Linked s) {x : Holder} {e : EvTask} {h : CoroId} (he : s.holder x = some e)
    (hh : e.handle = some h) (hi : (s.coros h).place ≠ .initial) (hg : (s.coros h).place ≠ .gone) :
    e.startedCoro = true := by
  by_contra hu
  rcases hl.unstarted x e h he hh (by simpa using hu) with hp | hp
  · exact hi hp
  · exact hg hp

theorem setPlace (hl : Linked s) {h : CoroId} {p : Place} (hg : p = .gone ∨ (s.coros h).place ≠ .gone)
    (hstarted : p = .gone ∨ (s.coros h).place ≠ .initial ∨
      ∀ x e, s.holder x = some e → e.handle = some h → e.startedCoro = true) : Linked (s.setPlace h p) := by
  have hall : p = .gone ∨ ∀ x e, s.holder x = some e → e.handle = some h → e.startedCoro = true := by
    rcases hg with rfl | hg
    · exact .inl rfl
    · rcases hstarted with rfl | hi | hall
      · exact .inl rfl
      · exact .inr fun x e he hh => hl.started he hh hi hg
      · exact .inr hall
  have hnd : p = .gone ∨ (s.statuses h).handlerDone = false := by
    rcases hg with rfl | hg
    · exact .inl rfl
    · refine .inr ?_
      by_contra hd
      exact hg (hl.done h (by simpa using hd))
  refine ⟨?_, hl.bound, ?_, fun x e h' he hh hu => ?_, fun h' st hst => ?_, fun x e h' he hh => ?_, fun h' hd => ?_,
    hl.varFresh, hl.kill⟩
  · intro x e he
    exact hl.paired x e (by cases x <;> exact he)
  · intro x y e e' h' he he'
    exact hl.inj x y e e' h' (by cases x <;> exact he) (by cases y <;> exact he')
  · have he' : s.holder x = some e := by cases x <;> exact he
    by_cases hh' : h' = h
    · subst hh'
      rcases hall with rfl | hall
      · simp [State.setPlace, State.modCoro]
      · rw [hall x e he' hh] at hu
        cases hu
    · simpa [State.setPlace, State.modCoro, hh'] using hl.unstarted x e h' he' hh hu
  · refine hl.prom h' st ?_
    by_cases hh' : h' = h
    · subst hh'
      simpa [State.setPlace, State.modCoro] using hst
    · simpa [State.setPlace, State.modCoro, hh'] using hst
  · have he' : s.holder x = some e := by cases x <;> exact he
    have hheld := hl.held x e h' he' hh
    by_cases hh' : h' = h
    · subst hh'
      simpa [State.setPlace, State.modCoro] using hheld
    · simpa [State.setPlace, State.modCoro, hh'] using hheld
  · by_cases hh' : h' = h
    · subst hh'
      rcases hnd with rfl | hnd
      · simp [State.setPlace, State.modCoro]
      · have hd' : (s.statuses h').handlerDone = true := hd
        rw [hnd] at hd'
        cases hd'
    · simpa [State.setPlace, State.modCoro, hh'] using hl.done h' hd

/-! ### Tasks that are started, made, destroyed and moved -/

theorem holder_setTask (s : State) (t : TaskRef) (e : EvTask) (x : Holder) :
    (s.setTask t e).holder x = if x = .task t then some e else s.holder x := by
  cases t with
  | var v =>
    cases x with
    | task t' =>
      cases t' with
      | var v' => simp [State.holder, State.task, State.setTask, Function.update_apply]
      | kill => simp [State.holder, State.task, State.setTask]
    | item i => simp [State.holder, State.setTask]
  | kill =>
    cases x with
    | task t' => cases t' <;> simp [State.holder, State.task, State.setTask, State.modEv]
    | item i => simp [State.holder, State.setTask, State.modEv]

/-- Tasks are moved, started and destroyed: every coroutine that is held now was held before, at a place
that tells where it is held now, and a status pointer is lost only with the task. -/
theorem of_moved (hl : Linked s) (f : Holder → Holder)
    (hpaired : ∀ x e, s'.holder x = some e → e.taskStatusPtr = e.handle)
    (hfrom : ∀ x e h, s'.holder x = some e → e.handle = some h → ∃ e0, s.holder (f x) = some e0 ∧
      e0.handle = some h ∧ (e.startedCoro = false → e0.startedCoro = false))
    (hf : ∀ x y e e' h, s'.holder x = some e → s'.holder y = some e' → e.handle = some h → e'.handle = some h →
      f x = f y → x = y)
    (hplace : ∀ h, (s'.coros h).place = (s.coros h).place)
    (hptr : ∀ h, (s'.coros h).promise.taskStatusPtr = (s.coros h).promise.taskStatusPtr ∨
      (s'.coros h).promise.taskStatusPtr = none ∧ ∀ x e, s'.holder x = some e → e.handle ≠ some h)
    (hst : s'.statuses = s.statuses) (hnc : s'.nextCoro = s.nextCoro) (hvar : ∀ v, s'.nextVar ≤ v → s'.vars v = none)
    (hkill : s'.ev.killCoroTask.handle = some 0) : Linked s' := by
  refine ⟨hpaired, fun x e h he hh => ?_, fun x y e e' h he he' hh hh' => ?_, fun x e h he hh hu => ?_,
    fun h st hp => ?_, fun x e h he hh => ?_, fun h hd => ?_, hvar, hkill⟩
  · obtain ⟨e0, h0, hh0, -⟩ := hfrom x e h he hh
    rw [hnc]
    exact hl.bound _ e0 h h0 hh0
  · obtain ⟨e0, h0, hh0, -⟩ := hfrom x e h he hh
    obtain ⟨e1, h1, hh1, -⟩ := hfrom y e' h he' hh'
    exact hf x y e e' h he he' hh hh' (hl.inj _ _ e0 e1 h h0 h1 hh0 hh1)
  · obtain ⟨e0, h0, hh0, hs0⟩ := hfrom x e h he hh
    rw [hplace]
    exact hl.unstarted _ e0 h h0 hh0 (hs0 hu)
  · rcases hptr h with hp' | ⟨hp', -⟩
    · exact hl.prom h st (hp' ▸ hp)
    · rw [hp'] at hp
      cases hp
  · obtain ⟨e0, h0, hh0, -⟩ := hfrom x e h he hh
    rcases hptr h with hp' | ⟨-, hno⟩
    · rw [hp']
      exact hl.held _ e0 h h0 hh0
    · exact absurd hh (hno x e he)
  · rw [hst] at hd
    rw [hplace]
    exact hl.done h hd

theorem setStarted (hl : Linked s) {t : TaskRef} {e : EvTask} (ht : s.task t = some e) :
    Linked (s.setTask t { e with startedCoro := true }) := by
  have hx : s.holder (.task t) = some e := ht
  refine hl.of_moved id (fun x e' he' => ?_) (fun x e' h he' hh => ?_) (fun _ _ _ _ _ _ _ _ _ h => h)
    (fun h => by cases t <;> rfl) (fun h => .inl (by cases t <;> rfl)) (by cases t <;> rfl) (by cases t <;> rfl) ?_ ?_
  · rw [holder_setTask] at he'
    split at he'
    · cases he'
      exact hl.paired _ e hx
    · exact hl.paired x e' he'
  · rw [holder_setTask] at he'
    split at he'
    · rename_i hxt
      subst hxt
      cases he'
      exact ⟨e, hx, hh, by simp⟩
    · exact ⟨e', he', hh, id⟩
  · intro v hv
    cases t with
    | var w =>
      have hv' : s.nextVar ≤ v := hv
      have hne : v ≠ w := by
        rintro rfl
        rw [State.task, hl.varFresh v hv'] at ht
        cases ht
      simpa [State.setTask, hne] using hl.varFresh v hv'
    | kill => exact hl.varFresh v hv
  · cases t with
    | var w => exact hl.kill
    | kill =>
      simp only [State.task, Option.some.injEq] at ht
      subst ht
      exact hl.kill

/-- After a task was started, every task that holds its coroutine was. -/
theorem all_started (hl : Linked s) {t : TaskRef} {e : EvTask} {h : CoroId} (ht : s.task t = some e)
    (hh : e.handle = some h) (x : Holder) (e' : EvTask)
    (he' : (s.setTask t { e with startedCoro := true }).holder x = some e') (hh' : e'.handle = some h) :
    e'.startedCoro = true := by
  rw [holder_setTask] at he'
  split at he'
  · cases he'
    rfl
  · rename_i hxt
    exact absurd (hl.inj x (.task t) e' e h he' ht hh' hh) hxt

theorem destroyTask (hl : Linked s) (v : VarId) : Linked (s.destroyTask v) := by
  obtain ⟨coros, heq, hcoros⟩ := s.destroyTask_eq v
  rw [heq]
  -- a holder that is left is another one and holds what it held
  have hold : ∀ x e, ({ s with vars := Function.update s.vars v none, coros := coros } : State).holder x = some e →
      x ≠ .task (.var v) ∧ s.holder x = some e := by
    intro x e he
    cases x with
    | task t =>
      cases t with
      | var w =>
        by_cases hw : w = v
        · simp [State.holder, State.task, hw] at he
        · exact ⟨by simpa using hw, by simpa [State.holder, State.task, hw] using he⟩
      | kill => exact ⟨by simp, he⟩
    | item i => exact ⟨by simp, he⟩
  refine hl.of_moved id (fun x e he => hl.paired x e (hold x e he).2)
    (fun x e h he hh => ⟨e, (hold x e he).2, hh, id⟩) (fun _ _ _ _ _ _ _ _ _ h => h) (fun h => ?_) (fun h => ?_) rfl rfl
    (fun w hw => ?_) hl.kill
  · rcases hcoros h with hc | ⟨hc, -⟩ <;> simp [hc, Coro.orphan]
  · rcases hcoros h with hc | ⟨hc, e0, he0, hh0⟩
    · exact .inl (by simp [hc])
    · refine .inr ⟨by simp [hc, Coro.orphan], fun x e he hh => ?_⟩
      obtain ⟨hx, he'⟩ := hold x e he
      exact hx (hl.inj x (.task (.var v)) e e0 h he' he0 hh hh0)
  · by_cases hwv : w = v
    · simp [hwv]
    · simpa [hwv] using hl.varFresh w hw

theorem destroyTasks (hl : Linked s) (vs : List VarId) : Linked (vs.foldl (fun s v => s.destroyTask v) s) := by
  induction vs generalizing s with
  | nil => exact hl
  | cons v vs ih => exact ih (hl.destroyTask v)

theorem destroyLocals (hl : Linked s) (h : CoroId) : Linked (s.destroyLocals h) :=
  { hl.destroyTasks (s.coros h).vars.reverse with }

theorem returnValue (hl : Linked s) (h : CoroId) (code : ℕ) : Linked (s.returnValue h code) := by
  unfold State.returnValue
  split
  · rename_i st hst
    refine hl.of_eq (fun x => by cases x <;> rfl) (fun _ => rfl) (fun _ => rfl) (fun h' => ?_) rfl rfl
    by_cases hh : h' = st
    · subst hh
      simp
    · simp [hh]
  · exact hl

/-- The frame destroys itself and the status is done. -/
theorem finalReturn (hl : Linked s) {h : CoroId} : Linked (s.finalReturn h) := by
  have h1 : Linked (s.setPlace h .gone) := hl.setPlace (.inl rfl) (.inl rfl)
  unfold State.finalReturn
  simp only
  split
  · rename_i st hst
    obtain rfl := hl.prom h st hst
    refine { h1 with done := fun h' hd => ?_ }
    by_cases hh : h' = st
    · subst hh
      simp [State.setPlace, State.modCoro]
    · refine h1.done h' ?_
      simpa [State.setPlace, State.modCoro, hh] using hd
  · exact h1

/-- Moving a task that holds a coroutine sets the status pointer to what it is. -/
theorem relink_eq (hl : Linked s) {x : Holder} {e : EvTask} (he : s.holder x = some e) : s.relink e = s := by
  unfold State.relink
  split
  · rename_i h hh
    have hptr := hl.held x e h he hh
    have hpair := hl.paired x e he
    have hc : { s.coros h with promise := { (s.coros h).promise with taskStatusPtr := e.taskStatusPtr } } =
        s.coros h := by
      rw [hpair, hh, ← hptr]
    simp only [State.modPromise, State.modCoro, hc, Function.update_eq_self]
  · rfl

theorem relinks_eq (hl : Linked s) {es : List EvTask} (hes : ∀ e ∈ es, ∃ x, s.holder x = some e) :
    es.foldl (fun s e => s.relink e) s = s := by
  induction es with
  | nil => rfl
  | cons e es ih =>
    obtain ⟨x, hx⟩ := hes e (by simp)
    rw [List.foldl_cons, hl.relink_eq hx]
    exact ih fun e' he' => hes e' (by simp [he'])

theorem call (hl : Linked s) (ctx : Option CoroId) (b : Body) : Linked (s.call ctx b) := by
  have hnew : Linked { s with
      coros := Function.update s.coros s.nextCoro
        { promise := { taskStatusPtr := some s.nextCoro }, body := b, place := .initial }
      statuses := Function.update s.statuses s.nextCoro {}
      nextCoro := s.nextCoro + 1
      vars := Function.update s.vars s.nextVar (some ⟨false, some s.nextCoro, some s.nextCoro⟩)
      nextVar := s.nextVar + 1 } := by
    -- a holder is the new one or an old one
    have hold : ∀ x e, ({ s with
        coros := Function.update s.coros s.nextCoro
          { promise := { taskStatusPtr := some s.nextCoro }, body := b, place := .initial }
        statuses := Function.update s.statuses s.nextCoro {}
        nextCoro := s.nextCoro + 1
        vars := Function.update s.vars s.nextVar (some ⟨false, some s.nextCoro, some s.nextCoro⟩)
        nextVar := s.nextVar + 1 } : State).holder x = some e →
        x = .task (.var s.nextVar) ∧ e = ⟨false, some s.nextCoro, some s.nextCoro⟩ ∨ s.holder x = some e := by
      intro x e he
      cases x with
      | task t =>
        cases t with
        | var w =>
          by_cases hw : w = s.nextVar
          · subst hw
            simp only [State.holder, State.task, Function.update_self, Option.some.injEq] at he
            exact .inl ⟨rfl, he.symm⟩
          · exact .inr (by simpa [State.holder, State.task, hw] using he)
        | kill => exact .inr he
      | item i => exact .inr he
    have hlt : ∀ x e h, s.holder x = some e → e.handle = some h → h ≠ s.nextCoro := fun x e h he hh =>
      Nat.ne_of_lt (hl.bound x e h he hh)
    refine ⟨fun x e he => ?_, fun x e h he hh => ?_, fun x y e e' h he he' hh hh' => ?_, fun x e h he hh hu => ?_,
      fun h st hst => ?_, fun x e h he hh => ?_, fun h hd => ?_, fun v hv => ?_, hl.kill⟩
    · rcases hold x e he with ⟨-, rfl⟩ | he
      · rfl
      · exact hl.paired x e he
    · rcases hold x e he with ⟨-, rfl⟩ | he
      · cases hh
        exact Nat.lt_succ_self _
      · exact Nat.lt_succ_of_lt (hl.bound x e h he hh)
    · rcases hold x e he with ⟨rfl, rfl⟩ | he <;> rcases hold y e' he' with ⟨rfl, rfl⟩ | he'
      · rfl
      · cases hh
        exact absurd rfl (hlt y e' _ he' hh')
      · cases hh'
        exact absurd rfl (hlt x e _ he hh)
      · exact hl.inj x y e e' h he he' hh hh'
    · rcases hold x e he with ⟨-, rfl⟩ | he
      · cases hh
        exact .inl (by simp)
      · simpa [hlt x e h he hh] using hl.unstarted x e h he hh hu
    · by_cases hh : h = s.nextCoro
      · subst hh
        simpa using hst.symm
      · exact hl.prom h st (by simpa [hh] using hst)
    · rcases hold x e he with ⟨-, rfl⟩ | he
      · cases hh
        simp
      · simpa [hlt x e h he hh] using hl.held x e h he hh
    · by_cases hh : h = s.nextCoro
      · simp [hh] at hd
      · simpa [hh] using hl.done h (by simpa [hh] using hd)
    · have hv' : s.nextVar + 1 ≤ v := hv
      have hne : v ≠ s.nextVar := by omega
      simpa [hne] using hl.varFresh v (by omega)
  unfold State.call
  cases ctx with
  | none => exact hnew
  | some c => exact hnew.modCoro c (fun _ => rfl) fun _ => rfl

/-- `register_coro` moves the task of a variable into the store. -/
theorem insertTask (hl : Linked s) {v : VarId} {e : EvTask} {pick : ℕ} (hv : s.vars v = some e)
    (hpick : s.ev.managedCoroutinesStore.freedIdxs = ∅ ∨ pick < s.ev.managedCoroutinesStore.items.length) :
    Linked { s.insertTask pick e with vars := Function.update s.vars v (some {}) } := by
  have hx : s.holder (.task (.var v)) = some e := hv
  have hrel : s.relink e = s := hl.relink_eq hx
  -- the holders after: the slot that was selected has the task, the variable has none
  have h1 : ∀ s1 : State, s1.ev = { s.ev with managedCoroutinesStore := s.ev.managedCoroutinesStore.insert pick e } →
      s1.vars = Function.update s.vars v (some {}) → s1.coros = s.coros → s1.statuses = s.statuses →
      s1.nextCoro = s.nextCoro → s1.nextVar = s.nextVar → Linked s1 := by
    intro s1 hev hvars hcoros hst hnc hnv
    have hold := fun x e' (he' : s1.holder x = some e') => holder_insert hpick (by rw [hev]) (by rw [hev]) hvars he'
    refine hl.of_moved
      (fun x => if x = .item (s.ev.managedCoroutinesStore.selectedIdx pick) then .task (.var v) else x)
      (fun x e' he' => ?_) (fun x e' h he' hh => ?_) (fun x y e' e'' h he' he'' hh hh' hxy => ?_)
      (fun _ => by rw [hcoros]) (fun _ => .inl (by rw [hcoros])) hst hnc (fun w hw => ?_) (by rw [hev]; exact hl.kill)
    · rcases hold x e' he' with ⟨-, rfl⟩ | ⟨-, rfl⟩ | ⟨-, -, he0⟩
      · exact hl.paired _ _ hx
      · rfl
      · exact hl.paired _ _ he0
    · rcases hold x e' he' with ⟨rfl, rfl⟩ | ⟨-, rfl⟩ | ⟨hxi, -, he0⟩
      · exact ⟨e', by simpa using hx, hh, id⟩
      · cases hh
      · exact ⟨e', by simpa [hxi] using he0, hh, id⟩
    · rcases hold x e' he' with ⟨rfl, rfl⟩ | ⟨-, rfl⟩ | ⟨hxi, hxv, -⟩
      · rcases hold y e'' he'' with ⟨rfl, rfl⟩ | ⟨-, rfl⟩ | ⟨hyi, hyv, -⟩
        · rfl
        · cases hh'
        · simp [hyi] at hxy
          exact absurd hxy.symm hyv
      · cases hh
      · rcases hold y e'' he'' with ⟨rfl, rfl⟩ | ⟨-, rfl⟩ | ⟨hyi, hyv, -⟩
        · simp [hxi] at hxy
          exact absurd hxy hxv
        · cases hh'
        · simpa [hxi, hyi] using hxy
    · rw [hnv] at hw
      have hne : w ≠ v := by
        rintro rfl
        rw [hl.varFresh w hw] at hv
        cases hv
      simpa [hvars, hne] using hl.varFresh w hw
  unfold State.insertTask
  simp only [hrel]
  split
  · rename_i h _
    have h2 : Linked { s with
        ev := { s.ev with managedCoroutinesStore := s.ev.managedCoroutinesStore.insert pick e }
        vars := Function.update s.vars v (some {}) } := h1 _ rfl rfl rfl rfl rfl rfl
    exact h2.modPromise h (f := fun p => { p with metadata := s.ev.managedCoroutinesStore.selectedIdx pick })
      fun _ => rfl
  · exact h1 _ rfl rfl rfl rfl rfl rfl

end Linked

end EvManager
