import EvManager.Linked

/-!
# Coroutines that await tasks

`Awaits`: who is in the awaiter slot of an unfinished coroutine is suspended at a `co_await` of exactly that
coroutine, or was destroyed; a `co_await` names a task that holds the coroutine awaited or was moved from; and
an `await_suspend` that has not returned belongs to one coroutine, which is not in any slot yet.
-/

namespace EvManager

open Lib State

/-- The coroutine whose `EvTask::await_suspend` an activation is. -/
def Activation.awaiting : Activation → Option CoroId
  | .taskAwait _ a => some a
  | _ => none

structure Awaits (s : State) : Prop where
  awaiter : ∀ h a, (s.coros h).promise.awaiterHandle = some a → (s.coros h).place.unfinished = true →
    (∃ t, (s.coros a).place = .atTask t h true) ∨ (s.coros a).place = .gone
  awaiterBound : ∀ h a, (s.coros h).promise.awaiterHandle = some a → a < s.nextCoro
  target : ∀ a t h b, (s.coros a).place = .atTask t h b → ∀ e, s.task t = some e →
    e.handle = some h ∨ e.handle = none
  targetBound : ∀ a v h b, (s.coros a).place = .atTask (.var v) h b → v < s.nextVar
  suspending : ∀ t a, Activation.taskAwait t a ∈ s.stack → a < s.nextCoro ∧
    ((∃ h, (s.coros a).place = .atTask t h false) ∨ (s.coros a).place = .gone)
  nodup : (s.stack.filterMap Activation.awaiting).Nodup
  noSubmit : ∀ h r, Activation.ioSubmit h r ∉ s.stack

/-- Nobody is about to resume `h`: it is in no awaiter slot of an unfinished coroutine and in no
`await_suspend` that has not returned. -/
def State.Free (s : State) (h : CoroId) : Prop :=
  (∀ h', (s.coros h').promise.awaiterHandle = some h → (s.coros h').place.unfinished = false) ∧
    ∀ t, Activation.taskAwait t h ∉ s.stack

namespace Awaits

variable {s s' : State}

theorem init {s : State} (hi : State.Initial s) : Awaits s := by
  have hawaiter : ∀ h, (s.coros h).promise.awaiterHandle = none := by
    intro h
    cases hi <;> by_cases hh : h = 0 <;> simp [State.init, initFailed, blank, hh]
  have hplace : ∀ h t c b, (s.coros h).place ≠ .atTask t c b := by
    intro h t c b hp
    rw [hi.place] at hp
    split at hp <;> cases hp
  refine ⟨fun h a hh => ?_, fun h a hh => ?_, fun a t h b hp => absurd hp (hplace a t h b),
    fun a v h b hp => absurd hp (hplace a _ h b), fun t a hm => ?_, ?_, fun h r hm => ?_⟩
  · rw [hawaiter] at hh
    cases hh
  · rw [hawaiter] at hh
    cases hh
  · simp [hi.stack] at hm
  · rw [hi.stack]
    exact List.nodup_nil
  · simp [hi.stack] at hm

theorem of_eq (ha : Awaits s) (hplace : ∀ h, (s'.coros h).place = (s.coros h).place)
    (hawaiter : ∀ h, (s'.coros h).promise.awaiterHandle = (s.coros h).promise.awaiterHandle)
    (htask : ∀ t e, s'.task t = some e → e.handle = none ∨ ∃ e0, s.task t = some e0 ∧ e0.handle = e.handle)
    (hstack : s'.stack = s.stack) (hnc : s'.nextCoro = s.nextCoro) (hnv : s'.nextVar = s.nextVar) : Awaits s' where
  awaiter h a hh hu := by
    rw [hplace] at hu ⊢
    exact ha.awaiter h a (hawaiter h ▸ hh) hu
  awaiterBound h a hh := by rw [hnc]; exact ha.awaiterBound h a (hawaiter h ▸ hh)
  target a t h b hp e he := by
    rcases htask t e he with hn | ⟨e0, he0, hh0⟩
    · exact .inr hn
    · rw [← hh0]
      exact ha.target a t h b (hplace a ▸ hp) e0 he0
  targetBound a v h b hp := by rw [hnv]; exact ha.targetBound a v h b (hplace a ▸ hp)
  suspending t a hm := by
    rw [hnc, hplace]
    exact ha.suspending t a (hstack ▸ hm)
  nodup := by rw [hstack]; exact ha.nodup
  noSubmit h r := by rw [hstack]; exact ha.noSubmit h r

theorem log (ha : Awaits s) (e : Event) : Awaits (s.log e) := { ha with }

theorem modReq (ha : Awaits s) (r : ReqId) (f : Request → Request) : Awaits (s.modReq r f) := { ha with }

theorem modEv (ha : Awaits s) {f : EventManager → EventManager} (hkill : (f s.ev).killCoroTask = s.ev.killCoroTask) :
    Awaits (s.modEv f) := by
  refine ha.of_eq (fun _ => rfl) (fun _ => rfl) (fun t e he => .inr ⟨e, ?_, rfl⟩) rfl rfl rfl
  cases t with
  | var v => exact he
  | kill => simpa [State.task, State.modEv, hkill] using he

theorem push (ha : Awaits s) {a : Activation} (hn : a.awaiting = none) (hio : ∀ h r, a ≠ .ioSubmit h r) :
    Awaits (s.push a) := by
  refine { ha with suspending := fun t b hm => ?_, nodup := ?_, noSubmit := fun h r hm => ?_ }
  · rcases List.mem_cons.mp hm with rfl | hm
    · cases hn
    · exact ha.suspending t b hm
  · rw [stack_push, List.filterMap_cons_none hn]
    exact ha.nodup
  · rcases List.mem_cons.mp hm with heq | hm
    · exact hio h r heq.symm
    · exact ha.noSubmit h r hm

theorem pop (ha : Awaits s) : Awaits s.pop :=
  { ha with
    suspending := fun t b hm => ha.suspending t b (List.mem_of_mem_tail hm)
    nodup := ((List.tail_sublist s.stack).filterMap _).nodup ha.nodup
    noSubmit := fun h r hm => ha.noSubmit h r (List.mem_of_mem_tail hm) }

theorem modCoro (ha : Awaits s) (h : CoroId) {f : Coro → Coro} (hplace : ∀ c, (f c).place = c.place)
    (hawaiter : ∀ c, (f c).promise.awaiterHandle = c.promise.awaiterHandle) : Awaits (s.modCoro h f) := by
  refine ha.of_eq (fun h' => ?_) (fun h' => ?_) (fun t e he => .inr ⟨e, ?_, rfl⟩) rfl rfl rfl
  · by_cases hh : h' = h
    · subst hh
      simp [State.modCoro, hplace]
    · simp [State.modCoro, hh]
  · by_cases hh : h' = h
    · subst hh
      simp [State.modCoro, hawaiter]
    · simp [State.modCoro, hh]
  · cases t <;> exact he

theorem setBody (ha : Awaits s) (h : CoroId) (b : Body) : Awaits (s.setBody h b) :=
  ha.modCoro h (fun _ => rfl) fun _ => rfl

theorem modPromise (ha : Awaits s) (h : CoroId) {f : Promise → Promise}
    (hf : ∀ p, (f p).awaiterHandle = p.awaiterHandle) : Awaits (s.modPromise h f) :=
  ha.modCoro h (fun _ => rfl) fun _ => hf _

/-- A coroutine that is neither at a `co_await` of a task nor gone is free. -/
theorem free (ha : Awaits s) {h : CoroId} (ht : ∀ t c b, (s.coros h).place ≠ .atTask t c b)
    (hg : (s.coros h).place ≠ .gone) : s.Free h := by
  refine ⟨fun h' hh => ?_, fun t hm => ?_⟩
  · by_contra hu
    rcases ha.awaiter h' h hh (by simpa using hu) with ⟨t, hp⟩ | hp
    · exact ht _ _ _ hp
    · exact hg hp
  · rcases (ha.suspending t h hm).2 with ⟨c, hp⟩ | hp
    · exact ht _ _ _ hp
    · exact hg hp

theorem setPlace (ha : Awaits s) {h : CoroId} {p : Place} (hfree : p = .gone ∨ s.Free h)
    (hu : p.unfinished = true → (s.coros h).place.unfinished = true)
    (ht : ∀ t c b, p = .atTask t c b → (∀ e, s.task t = some e → e.handle = some c ∨ e.handle = none) ∧
      ∀ v, t = .var v → v < s.nextVar) : Awaits (s.setPlace h p) := by
  have hself : ((s.setPlace h p).coros h).place = p := by simp [State.setPlace, State.modCoro]
  have hother : ∀ h', h' ≠ h → ((s.setPlace h p).coros h').place = (s.coros h').place := by
    intro h' hne
    simp [State.setPlace, State.modCoro, hne]
  have hawaiter : ∀ h', ((s.setPlace h p).coros h').promise.awaiterHandle = (s.coros h').promise.awaiterHandle := by
    intro h'
    by_cases hh : h' = h
    · subst hh
      simp [State.setPlace, State.modCoro]
    · simp [State.setPlace, State.modCoro, hh]
  have htask : ∀ t, (s.setPlace h p).task t = s.task t := fun t => by cases t <;> rfl
  refine ⟨fun h' a haw hun => ?_, fun h' a haw => ha.awaiterBound h' a (hawaiter h' ▸ haw), fun a t c b hp e he => ?_,
    fun a v c b hp => ?_, fun t a hm => ?_, ha.nodup, ha.noSubmit⟩
  · rw [hawaiter] at haw
    have hun' : (s.coros h').place.unfinished = true := by
      by_cases hh : h' = h
      · subst hh
        exact hu (hself ▸ hun)
      · exact hother h' hh ▸ hun
    by_cases haa : a = h
    · subst haa
      rcases hfree with rfl | hfree
      · exact .inr hself
      · rw [hfree.1 h' haw] at hun'
        cases hun'
    · rw [hother a haa]
      exact ha.awaiter h' a haw hun'
  · rw [htask] at he
    by_cases haa : a = h
    · subst haa
      rw [hself] at hp
      exact (ht t c b hp).1 e he
    · rw [hother a haa] at hp
      exact ha.target a t c b hp e he
  · by_cases haa : a = h
    · subst haa
      rw [hself] at hp
      exact (ht _ c b hp).2 v rfl
    · rw [hother a haa] at hp
      exact ha.targetBound a v c b hp
  · have hs := ha.suspending t a hm
    refine ⟨hs.1, ?_⟩
    by_cases haa : a = h
    · subst haa
      rcases hfree with rfl | hfree
      · exact .inr hself
      · exact absurd hm (hfree.2 t)
    · rw [hother a haa]
      exact hs.2

/-- `EvTask::await_suspend` is entered: the coroutine waits and is in no slot yet. -/
theorem pushTaskAwait (ha : Awaits s) {t : TaskRef} {a h : CoroId} (hp : (s.coros a).place = .atTask t h false)
    (hlt : a < s.nextCoro) (hno : ∀ t', Activation.taskAwait t' a ∉ s.stack) : Awaits (s.push (.taskAwait t a)) := by
  refine { ha with suspending := fun t' b hm => ?_, nodup := ?_, noSubmit := fun h r hm => ?_ }
  · rcases List.mem_cons.mp hm with heq | hm
    · cases heq
      exact ⟨hlt, .inl ⟨h, hp⟩⟩
    · exact ha.suspending t' b hm
  · refine List.nodup_cons.mpr ⟨fun hm => ?_, ha.nodup⟩
    obtain ⟨x, hx, hxa⟩ := List.mem_filterMap.mp hm
    cases x <;> simp [Activation.awaiting] at hxa
    exact hno _ (hxa ▸ hx)
  · rcases List.mem_cons.mp hm with heq | hm
    · cases heq
    · exact ha.noSubmit h r hm

theorem not_mem_tail (ha : Awaits s) {t : TaskRef} {a : CoroId} {rest : List Activation}
    (hst : s.stack = .taskAwait t a :: rest) : ∀ t', Activation.taskAwait t' a ∉ s.pop.stack := by
  intro t' hm
  have hn := ha.nodup
  rw [hst, List.filterMap_cons_some (show Activation.awaiting (.taskAwait t a) = some a from rfl),
    List.nodup_cons] at hn
  rw [stack_pop, hst, List.tail_cons] at hm
  exact hn.1 (List.mem_filterMap.mpr ⟨_, hm, rfl⟩)

/-- Whoever waits for an `await_suspend` to return is in no slot. -/
theorem free_of_suspending (ha : Awaits s) {t : TaskRef} {a h : CoroId}
    (hp : (s.coros a).place = .atTask t h false) (hno : ∀ t', Activation.taskAwait t' a ∉ s.stack) : s.Free a := by
  refine ⟨fun h' hh => ?_, hno⟩
  by_contra hu
  rcases ha.awaiter h' a hh (by simpa using hu) with ⟨t', hp'⟩ | hp' <;> rw [hp] at hp' <;> cases hp'

theorem free_of_final (ha : Awaits s) {h a : CoroId} (haw : (s.coros h).promise.awaiterHandle = some a)
    (hu : (s.coros h).place.unfinished = true) (hg : (s.coros a).place ≠ .gone) :
    (∀ h', h' ≠ h → (s.coros h').promise.awaiterHandle = some a → (s.coros h').place.unfinished = false) ∧
      ∀ t, Activation.taskAwait t a ∉ s.stack := by
  obtain ⟨t, hp⟩ := (ha.awaiter h a haw hu).resolve_right hg
  refine ⟨fun h' hne hh => ?_, fun t' hm => ?_⟩
  · by_contra hun
    rcases ha.awaiter h' a hh (by simpa using hun) with ⟨t', hp'⟩ | hp' <;> rw [hp] at hp' <;> cases hp'
    exact hne rfl
  · rcases (ha.suspending t' a hm).2 with ⟨c, hp'⟩ | hp' <;> rw [hp] at hp' <;> cases hp'

/-- The rest of `await_suspend` when the task is not done: the coroutine goes into the slot. -/
theorem setAwaiter (ha : Awaits s) {t : TaskRef} {a h : CoroId} (hlt : a < s.nextCoro)
    (hp : (s.coros a).place = .atTask t h false ∨ (s.coros a).place = .gone)
    (hno : ∀ t', Activation.taskAwait t' a ∉ s.stack) : Awaits (s.setAwaiter h a) := by
  have hself : ((s.setAwaiter h a).coros a).place = (s.coros a).place.arm := by
    by_cases hah : a = h <;> simp [State.setAwaiter, State.modPromise, State.modCoro, hah]
  have hother : ∀ x, x ≠ a → ((s.setAwaiter h a).coros x).place = (s.coros x).place := by
    intro x hx
    by_cases hxh : x = h
    · subst hxh
      simp [State.setAwaiter, State.modPromise, State.modCoro, hx]
    · simp [State.setAwaiter, State.modPromise, State.modCoro, hx, hxh]
  have hawaiter : ∀ x, ((s.setAwaiter h a).coros x).promise.awaiterHandle =
      if x = h then some a else (s.coros x).promise.awaiterHandle := by
    intro x
    by_cases hah : a = h
    · subst hah
      by_cases hx : x = a <;> simp [State.setAwaiter, State.modPromise, State.modCoro, hx]
    · by_cases hxa : x = a
      · subst hxa
        simp [State.setAwaiter, State.modPromise, State.modCoro, hah]
      · by_cases hxh : x = h
        · subst hxh
          simp [State.setAwaiter, State.modPromise, State.modCoro, hxa]
        · simp [State.setAwaiter, State.modPromise, State.modCoro, hxa, hxh]
  have harm : ∀ p : Place, p.arm.unfinished = p.unfinished := fun p => by cases p <;> rfl
  have htask : ∀ t', (s.setAwaiter h a).task t' = s.task t' := fun t' => by cases t' <;> rfl
  refine ⟨fun x b hb hu => ?_, fun x b hb => ?_, fun x t' c d hx e he => ?_, fun x v c d hx => ?_, fun t' x hm => ?_,
    ha.nodup, ha.noSubmit⟩
  · rw [hawaiter] at hb
    split at hb
    · rename_i hxh
      subst hxh
      cases hb
      rw [hself]
      rcases hp with hp | hp <;> rw [hp]
      · exact .inl ⟨t, rfl⟩
      · exact .inr rfl
    · have hun : (s.coros x).place.unfinished = true := by
        by_cases hxa : x = a
        · subst hxa
          rwa [hself, harm] at hu
        · rwa [hother x hxa] at hu
      have hold := ha.awaiter x b hb hun
      by_cases hba : b = a
      · subst hba
        rw [hself]
        rcases hp with hp | hp <;> rw [hp] at hold ⊢
        · rcases hold with ⟨t', hc⟩ | hc <;> cases hc
        · exact .inr rfl
      · rw [hother b hba]
        exact hold
  · rw [hawaiter] at hb
    split at hb
    · cases hb
      exact hlt
    · exact ha.awaiterBound x b hb
  · rw [htask] at he
    by_cases hxa : x = a
    · subst hxa
      rw [hself] at hx
      rcases hp with hp | hp <;> rw [hp] at hx <;> cases hx
      exact ha.target x _ _ _ hp e he
    · rw [hother x hxa] at hx
      exact ha.target x t' c d hx e he
  · by_cases hxa : x = a
    · subst hxa
      rw [hself] at hx
      rcases hp with hp | hp <;> rw [hp] at hx <;> cases hx
      exact ha.targetBound x _ _ _ hp
    · rw [hother x hxa] at hx
      exact ha.targetBound x v c d hx
  · have hs := ha.suspending t' x hm
    have hxa : x ≠ a := by
      rintro rfl
      exact hno t' hm
    rw [hother x hxa]
    exact hs

/-! ### Tasks that are started, made, destroyed and moved -/

theorem setStarted (ha : Awaits s) {t : TaskRef} {e : EvTask} (ht : s.task t = some e) :
    Awaits (s.setTask t { e with startedCoro := true }) := by
  have hcoros : (s.setTask t { e with startedCoro := true }).coros = s.coros := by cases t <;> rfl
  refine ha.of_eq (fun h => by rw [hcoros]) (fun h => by rw [hcoros]) (fun t' e' he' => ?_) (by cases t <;> rfl)
    (by cases t <;> rfl) (by cases t <;> rfl)
  have hh := Linked.holder_setTask s t { e with startedCoro := true } (.task t')
  have he2 : (s.setTask t { e with startedCoro := true }).holder (.task t') = some e' := he'
  rw [hh] at he2
  split at he2
  · rename_i htt
    cases htt
    cases he2
    exact .inr ⟨e, ht, rfl⟩
  · exact .inr ⟨e', he2, rfl⟩

theorem destroyTask (ha : Awaits s) (v : VarId) : Awaits (s.destroyTask v) := by
  obtain ⟨coros, heq, hcoros⟩ := s.destroyTask_eq v
  rw [heq]
  refine ha.of_eq (fun h => ?_) (fun h => ?_) (fun t e he => ?_) rfl rfl rfl
  · rcases hcoros h with hc | ⟨hc, -⟩ <;> simp [hc, Coro.orphan]
  · rcases hcoros h with hc | ⟨hc, -⟩ <;> simp [hc, Coro.orphan]
  · cases t with
    | var w =>
      by_cases hw : w = v
      · simp [State.task, hw] at he
      · exact .inr ⟨e, by simpa [State.task, hw] using he, rfl⟩
    | kill => exact .inr ⟨e, he, rfl⟩

theorem destroyTasks (ha : Awaits s) (vs : List VarId) : Awaits (vs.foldl (fun s v => s.destroyTask v) s) := by
  induction vs generalizing s with
  | nil => exact ha
  | cons v vs ih => exact ih (ha.destroyTask v)

theorem destroyLocals (ha : Awaits s) (h : CoroId) : Awaits (s.destroyLocals h) :=
  { ha.destroyTasks (s.coros h).vars.reverse with }

theorem returnValue (ha : Awaits s) (h : CoroId) (code : ℕ) : Awaits (s.returnValue h code) := by
  unfold State.returnValue
  split
  · refine ha.of_eq (fun _ => rfl) (fun _ => rfl) (fun t e he => .inr ⟨e, ?_, rfl⟩) rfl rfl rfl
    cases t <;> exact he
  · exact ha

theorem finalReturn (ha : Awaits s) {h : CoroId} : Awaits (s.finalReturn h) := by
  have h1 : Awaits (s.setPlace h .gone) :=
    ha.setPlace (.inl rfl) (fun hu => by cases hu) fun _ _ _ hp => by cases hp
  unfold State.finalReturn
  simp only
  split
  · refine h1.of_eq (fun _ => rfl) (fun _ => rfl) (fun t e he => .inr ⟨e, ?_, rfl⟩) rfl rfl rfl
    cases t <;> exact he
  · exact h1

theorem call (ha : Awaits s) (hp : Placed s) (ctx : Option CoroId) (b : Body) : Awaits (s.call ctx b) := by
  have hgone : (s.coros s.nextCoro).place = .gone := hp.fresh _ le_rfl
  have hnew : Awaits { s with
      coros := Function.update s.coros s.nextCoro
        { promise := { taskStatusPtr := some s.nextCoro }, body := b, place := .initial }
      statuses := Function.update s.statuses s.nextCoro {}
      nextCoro := s.nextCoro + 1
      vars := Function.update s.vars s.nextVar (some ⟨false, some s.nextCoro, some s.nextCoro⟩)
      nextVar := s.nextVar + 1 } := by
    refine ⟨fun h a haw hu => ?_, fun h a haw => ?_, fun a t h c hpl e he => ?_, fun a v h c hpl => ?_,
      fun t a hm => ?_,
      ha.nodup, ha.noSubmit⟩
    · by_cases hh : h = s.nextCoro
      · simp [hh] at haw
      · have haw' : (s.coros h).promise.awaiterHandle = some a := by simpa [hh] using haw
        have hne : a ≠ s.nextCoro := Nat.ne_of_lt (ha.awaiterBound h a haw')
        simpa [hne] using ha.awaiter h a haw' (by simpa [hh] using hu)
    · by_cases hh : h = s.nextCoro
      · simp [hh] at haw
      · exact Nat.lt_succ_of_lt (ha.awaiterBound h a (by simpa [hh] using haw))
    · have hne : a ≠ s.nextCoro := by
        rintro rfl
        simp at hpl
      have hpl' : (s.coros a).place = .atTask t h c := by simpa [hne] using hpl
      cases t with
      | var v =>
        have hv : v ≠ s.nextVar := Nat.ne_of_lt (ha.targetBound a v h c hpl')
        exact ha.target a _ h c hpl' e (by simpa [State.task, hv] using he)
      | kill => exact ha.target a _ h c hpl' e he
    · have hne : a ≠ s.nextCoro := by
        rintro rfl
        simp at hpl
      exact Nat.lt_succ_of_lt (ha.targetBound a v h c (by simpa [hne] using hpl))
    · have hs := ha.suspending t a hm
      have hne : a ≠ s.nextCoro := Nat.ne_of_lt hs.1
      exact ⟨Nat.lt_succ_of_lt hs.1, by simpa [hne] using hs.2⟩
  unfold State.call
  cases ctx with
  | none => exact hnew
  | some c => exact hnew.modCoro c (fun _ => rfl) fun _ => rfl

theorem insertTask (ha : Awaits s) (hl : Linked s) {v : VarId} {e : EvTask} {pick : ℕ} (hv : s.vars v = some e) :
    Awaits { s.insertTask pick e with vars := Function.update s.vars v (some {}) } := by
  have hx : s.holder (.task (.var v)) = some e := hv
  have h1 : Awaits { s with
      ev := { s.ev with managedCoroutinesStore := s.ev.managedCoroutinesStore.insert pick e }
      vars := Function.update s.vars v (some {}) } := by
    refine ha.of_eq (fun _ => rfl) (fun _ => rfl) (fun t e' he' => ?_) rfl rfl rfl
    cases t with
    | var w =>
      by_cases hw : w = v
      · simp only [State.task, hw, Function.update_self, Option.some.injEq] at he'
        exact .inl (by rw [← he'])
      · exact .inr ⟨e', by simpa [State.task, hw] using he', rfl⟩
    | kill => exact .inr ⟨e', he', rfl⟩
  unfold State.insertTask
  simp only [hl.relink_eq hx]
  split
  · rename_i h _
    exact h1.modPromise h (f := fun p => { p with metadata := s.ev.managedCoroutinesStore.selectedIdx pick })
      fun _ => rfl
  · exact h1

end Awaits

end EvManager
