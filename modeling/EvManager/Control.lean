import EvManager.Inversion

/-!
# Where the control of the coroutines is

`Placed`: the call stack and the places of the coroutines fit.  A coroutine whose body is on the stack is
running, one in `final_suspend` is final, and no coroutine is on the stack twice.  From it: **a coroutine
that is gone stays gone.**
-/

namespace EvManager

open Lib State

/-- The coroutine whose frame an activation runs in. -/
def Activation.subject : Activation → Option CoroId
  | .run h | .finalSuspend h => some h
  | _ => none

/-- The stack fits the places. -/
structure Placed (s : State) : Prop where
  run : ∀ h, Activation.run h ∈ s.stack → (s.coros h).place = .running
  final : ∀ h, Activation.finalSuspend h ∈ s.stack → (s.coros h).place = .final
  nodup : (s.stack.filterMap Activation.subject).Nodup
  fresh : ∀ h, s.nextCoro ≤ h → (s.coros h).place = .gone

/-! ### Initial states -/

namespace State.Initial

variable {s : State}

theorem place (hi : State.Initial s) (h : CoroId) : (s.coros h).place = if h = 0 then .initial else .gone := by
  cases hi <;> by_cases hh : h = 0 <;> simp [State.init, initFailed, blank, hh]

theorem stack (hi : State.Initial s) : s.stack = [.main] := by cases hi <;> rfl

theorem reqs (hi : State.Initial s) (r : ReqId) : s.reqs r = {} := by cases hi <;> rfl

theorem task (hi : State.Initial s) (t : TaskRef) : s.task t =
    if t = .kill then some ⟨false, some 0, some 0⟩ else none := by
  cases hi <;> cases t <;> simp [State.task, State.init, initFailed, blank]

end State.Initial

namespace Placed

variable {s s' : State}

theorem init {s : State} (hi : State.Initial s) : Placed s := by
  refine ⟨fun h hm => ?_, fun h hm => ?_, ?_, fun h hle => ?_⟩
  · simp [hi.stack] at hm
  · simp [hi.stack] at hm
  · rw [hi.stack]
    exact List.nodup_nil
  · have hn : s.nextCoro = 1 := by cases hi <;> rfl
    have hh : h ≠ 0 := by
      rw [hn] at hle
      exact Nat.one_le_iff_ne_zero.mp hle
    rw [hi.place, if_neg hh]

theorem of_eq (hp : Placed s) (hplace : ∀ h, (s'.coros h).place = (s.coros h).place)
    (hstack : s'.stack = s.stack) (hnext : s'.nextCoro = s.nextCoro) : Placed s' := by
  refine ⟨fun h hm => ?_, fun h hm => ?_, ?_, fun h hle => ?_⟩
  · rw [hplace]
    exact hp.run h (hstack ▸ hm)
  · rw [hplace]
    exact hp.final h (hstack ▸ hm)
  · rw [hstack]
    exact hp.nodup
  · rw [hplace]
    exact hp.fresh h (hnext ▸ hle)

theorem lt_nextCoro (hp : Placed s) {h : CoroId} (hne : (s.coros h).place ≠ .gone) : h < s.nextCoro := by
  by_contra hle
  exact hne (hp.fresh h (not_lt.mp hle))

theorem push (hp : Placed s) {a : Activation} (ha : a.subject = none) : Placed (s.push a) := by
  refine ⟨fun h hm => ?_, fun h hm => ?_, ?_, hp.fresh⟩
  · rcases List.mem_cons.mp hm with rfl | hm
    · cases ha
    · exact hp.run h hm
  · rcases List.mem_cons.mp hm with rfl | hm
    · cases ha
    · exact hp.final h hm
  · rw [stack_push, List.filterMap_cons_none ha]
    exact hp.nodup

theorem pop (hp : Placed s) : Placed s.pop := by
  refine ⟨fun h hm => hp.run h (List.mem_of_mem_tail hm), fun h hm => hp.final h (List.mem_of_mem_tail hm), ?_,
    hp.fresh⟩
  exact ((List.tail_sublist s.stack).filterMap _).nodup hp.nodup

theorem log (hp : Placed s) (e : Event) : Placed (s.log e) := ⟨hp.run, hp.final, hp.nodup, hp.fresh⟩

theorem modEv (hp : Placed s) (f : EventManager → EventManager) : Placed (s.modEv f) :=
  ⟨hp.run, hp.final, hp.nodup, hp.fresh⟩

theorem modReq (hp : Placed s) (r : ReqId) (f : Request → Request) : Placed (s.modReq r f) :=
  ⟨hp.run, hp.final, hp.nodup, hp.fresh⟩

theorem modCoro (hp : Placed s) (h : CoroId) {f : Coro → Coro} (hf : ∀ c, (f c).place = c.place) :
    Placed (s.modCoro h f) := by
  refine hp.of_eq (fun h' => ?_) rfl rfl
  by_cases hh : h' = h
  · subst hh
    simp [State.modCoro, hf]
  · simp [State.modCoro, hh]

theorem setBody (hp : Placed s) (h : CoroId) (b : Body) : Placed (s.setBody h b) := hp.modCoro h fun _ => rfl

theorem modPromise (hp : Placed s) (h : CoroId) (f : Promise → Promise) : Placed (s.modPromise h f) :=
  hp.modCoro h fun _ => rfl

theorem setPlace (hp : Placed s) {h : CoroId} {p : Place} (hlt : h < s.nextCoro)
    (hrun : Activation.run h ∉ s.stack) (hfin : Activation.finalSuspend h ∉ s.stack) :
    Placed (s.setPlace h p) := by
  refine ⟨fun h' hm => ?_, fun h' hm => ?_, hp.nodup, fun h' hle => ?_⟩
  · have hne : h' ≠ h := by
      rintro rfl
      exact hrun hm
    simpa [State.setPlace, State.modCoro, hne] using hp.run h' hm
  · have hne : h' ≠ h := by
      rintro rfl
      exact hfin hm
    simpa [State.setPlace, State.modCoro, hne] using hp.final h' hm
  · have hne : h' ≠ h := by
      rintro rfl
      exact absurd hlt (not_lt.mpr hle)
    simpa [State.setPlace, State.modCoro, hne] using hp.fresh h' hle

theorem not_mem (hp : Placed s) {h : CoroId} (hr : (s.coros h).place ≠ .running)
    (hf : (s.coros h).place ≠ .final) : Activation.run h ∉ s.stack ∧ Activation.finalSuspend h ∉ s.stack :=
  ⟨fun hm => hr (hp.run h hm), fun hm => hf (hp.final h hm)⟩

theorem enter (hp : Placed s) {h : CoroId} (hsus : (s.coros h).place.suspended = true) : Placed (s.enter h) := by
  have hr : (s.coros h).place ≠ .running := fun he => by simp [he, Place.suspended] at hsus
  have hf : (s.coros h).place ≠ .final := fun he => by simp [he, Place.suspended] at hsus
  have hg : (s.coros h).place ≠ .gone := fun he => by simp [he, Place.suspended] at hsus
  obtain ⟨hnr, hnf⟩ := hp.not_mem hr hf
  have h1 := hp.setPlace (p := .running) (hp.lt_nextCoro hg) hnr hnf
  refine ⟨fun h' hm => ?_, fun h' hm => ?_, ?_, h1.fresh⟩
  · rcases List.mem_cons.mp hm with heq | hm
    · cases heq
      simp [State.enter, State.push, State.setPlace, State.modCoro]
    · exact h1.run h' hm
  · rcases List.mem_cons.mp hm with heq | hm
    · cases heq
    · exact h1.final h' hm
  · refine List.nodup_cons.mpr ⟨fun hm => ?_, hp.nodup⟩
    obtain ⟨a, ha, hsub⟩ := List.mem_filterMap.mp hm
    cases a <;> simp [Activation.subject] at hsub
    · exact hnr (hsub ▸ ha)
    · exact hnf (hsub ▸ ha)

theorem not_mem_tail (hp : Placed s) {h : CoroId} {rest : List Activation} (hst : s.stack = .run h :: rest) :
    Activation.run h ∉ s.pop.stack ∧ Activation.finalSuspend h ∉ s.pop.stack := by
  have hn := hp.nodup
  rw [hst, List.filterMap_cons_some (show Activation.subject (.run h) = some h from rfl), List.nodup_cons] at hn
  rw [stack_pop, hst, List.tail_cons]
  exact ⟨fun hm => hn.1 (List.mem_filterMap.mpr ⟨_, hm, rfl⟩),
    fun hm => hn.1 (List.mem_filterMap.mpr ⟨_, hm, rfl⟩)⟩

theorem place_of_top (hp : Placed s) {h : CoroId} {rest : List Activation} (hst : s.stack = .run h :: rest) :
    (s.coros h).place = .running := hp.run h (by simp [hst])

theorem lt_of_top (hp : Placed s) {h : CoroId} {rest : List Activation} (hst : s.stack = .run h :: rest) :
    h < s.nextCoro := hp.lt_nextCoro (by simp [hp.place_of_top hst])

theorem suspend (hp : Placed s) {h : CoroId} {p : Place} {rest : List Activation}
    (hst : s.stack = .run h :: rest) : Placed (s.suspend h p) :=
  have ht := hp.not_mem_tail hst
  hp.pop.setPlace (hp.lt_of_top hst) ht.1 ht.2

theorem call (hp : Placed s) (ctx : Option CoroId) (b : Body) : Placed (s.call ctx b) := by
  have hnew : Placed { s with
      coros := Function.update s.coros s.nextCoro
        { promise := { taskStatusPtr := some s.nextCoro }, body := b, place := .initial }
      statuses := Function.update s.statuses s.nextCoro {}
      nextCoro := s.nextCoro + 1
      vars := Function.update s.vars s.nextVar (some ⟨false, some s.nextCoro, some s.nextCoro⟩)
      nextVar := s.nextVar + 1 } := by
    have hne : ∀ h, (s.coros h).place ≠ .gone → h ≠ s.nextCoro := by
      rintro h hg rfl
      exact hg (hp.fresh _ le_rfl)
    refine ⟨fun h hm => ?_, fun h hm => ?_, hp.nodup, fun h hle => ?_⟩
    · have hr := hp.run h hm
      simpa [hne h (by simp [hr])] using hr
    · have hf := hp.final h hm
      simpa [hne h (by simp [hf])] using hf
    · have hh : h ≠ s.nextCoro := Nat.ne_of_gt hle
      simpa [hh] using hp.fresh h (Nat.le_of_succ_le hle)
  unfold State.call
  cases ctx with
  | none => exact hnew
  | some c => exact hnew.modCoro c fun _ => rfl

theorem toFinal (hp : Placed s) {h : CoroId} {rest : List Activation} (hst : s.stack = .run h :: rest) :
    Placed ((s.setPlace h .final).pop.push (.finalSuspend h)) := by
  have h1 : Placed (s.suspend h .final) := hp.suspend hst
  obtain ⟨hnr, hnf⟩ := hp.not_mem_tail hst
  refine ⟨fun h' hm => ?_, fun h' hm => ?_, ?_, h1.fresh⟩
  · rcases List.mem_cons.mp hm with heq | hm
    · cases heq
    · exact h1.run h' hm
  · rcases List.mem_cons.mp hm with heq | hm
    · cases heq
      simp [State.push, State.pop, State.setPlace, State.modCoro]
    · exact h1.final h' hm
  · refine List.nodup_cons.mpr ⟨fun hm => ?_, h1.nodup⟩
    obtain ⟨a, ha, hsub⟩ := List.mem_filterMap.mp hm
    cases a <;> simp [Activation.subject] at hsub
    · exact hnr (hsub ▸ ha)
    · exact hnf (hsub ▸ ha)

/-- The frame destroys itself, or is destroyed while it is suspended. -/
theorem toGone (hp : Placed s) {h : CoroId} (hrun : Activation.run h ∉ s.stack)
    (hfin : Activation.finalSuspend h ∉ s.stack) : Placed (s.setPlace h .gone) := by
  refine ⟨fun h' hm => ?_, fun h' hm => ?_, hp.nodup, fun h' hle => ?_⟩
  · have hne : h' ≠ h := by
      rintro rfl
      exact hrun hm
    simpa [State.setPlace, State.modCoro, hne] using hp.run h' hm
  · have hne : h' ≠ h := by
      rintro rfl
      exact hfin hm
    simpa [State.setPlace, State.modCoro, hne] using hp.final h' hm
  · by_cases hh : h' = h
    · subst hh
      simp [State.setPlace, State.modCoro]
    · simpa [State.setPlace, State.modCoro, hh] using hp.fresh h' hle

/-- What is in `final_suspend` is on the stack only there. -/
theorem not_mem_tail_final (hp : Placed s) {h : CoroId} {rest : List Activation}
    (hst : s.stack = .finalSuspend h :: rest) :
    Activation.run h ∉ s.pop.stack ∧ Activation.finalSuspend h ∉ s.pop.stack := by
  have hn := hp.nodup
  rw [hst, List.filterMap_cons_some (show Activation.subject (.finalSuspend h) = some h from rfl),
    List.nodup_cons] at hn
  rw [stack_pop, hst, List.tail_cons]
  exact ⟨fun hm => hn.1 (List.mem_filterMap.mpr ⟨_, hm, rfl⟩),
    fun hm => hn.1 (List.mem_filterMap.mpr ⟨_, hm, rfl⟩)⟩

/-! ### Destroying tasks and frames -/

end Placed

/-- A frame whose promise has lost its status. -/
def Coro.orphan (c : Coro) : Coro := { c with promise := { c.promise with taskStatusPtr := none } }

/-- What `~EvTask` does: the task is gone, and the coroutine it held may lose its status. -/
theorem State.destroyTask_eq (s : State) (v : VarId) : ∃ coros,
    s.destroyTask v = { s with vars := Function.update s.vars v none, coros := coros } ∧
    ∀ h, coros h = s.coros h ∨ coros h = (s.coros h).orphan ∧ ∃ e, s.vars v = some e ∧ e.handle = some h := by
  unfold State.destroyTask
  split
  · rename_i hv
    refine ⟨s.coros, ?_, fun h => .inl rfl⟩
    rw [← hv, Function.update_eq_self]
  · rename_i e he
    simp only
    split
    · rename_i st h0 hst hh
      split
      · exact ⟨s.coros, rfl, fun h => .inl rfl⟩
      · refine ⟨_, rfl, fun h => ?_⟩
        by_cases hh' : h = h0
        · subst hh'
          exact .inr ⟨by simp [Coro.orphan], e, he, hh⟩
        · exact .inl (by simp [hh'])
    · exact ⟨s.coros, rfl, fun h => .inl rfl⟩

namespace Placed

variable {s s' : State}

theorem destroyTask (hp : Placed s) (v : VarId) : Placed (s.destroyTask v) := by
  obtain ⟨coros, heq, hcoros⟩ := s.destroyTask_eq v
  rw [heq]
  refine hp.of_eq (fun h => ?_) rfl rfl
  rcases hcoros h with hc | ⟨hc, -⟩ <;> simp [hc, Coro.orphan]

theorem destroyTasks (hp : Placed s) (vs : List VarId) : Placed (vs.foldl (fun s v => s.destroyTask v) s) := by
  induction vs generalizing s with
  | nil => exact hp
  | cons v vs ih => exact ih (hp.destroyTask v)

theorem destroyLocals (hp : Placed s) (h : CoroId) : Placed (s.destroyLocals h) := by
  have h1 := hp.destroyTasks (s.coros h).vars.reverse
  exact ⟨h1.run, h1.final, h1.nodup, h1.fresh⟩

end Placed

end EvManager
