import EvManager.Sound
import EvManager.Stack
import EvManager.TaskMachine

/-!
# What a step leaves alone

`Acts X s s'`: between `s` and `s'` only the coroutines of `X` act.  The others stay where they are in their functions,
and of the records of batches and of the heap only those that coroutines of `X` own end their lives.  **`step_does`**:
so does every step, up to the coroutine that it resumes at its end or destroys.
-/

namespace EvManager

open Lib State

/-- A coroutine stays where it is in its function, with the records it has. -/
structure Coro.Stays (c c' : Coro) : Prop where
  place : c'.place.arm = c.place.arm
  body : c'.body = c.body
  reqs : c'.reqs = c.reqs

theorem Place.arm_eq_atIo {p : Place} {r : ReqId} : p.arm = .atIo r ↔ p = .atIo r := by cases p <;> simp [Place.arm]

theorem Place.unfinished_of_suspended {p : Place} (h : p.suspended = true) : p.unfinished = true := by
  cases p <;> simp_all [Place.suspended, Place.unfinished]

@[simp] theorem Place.arm_arm (p : Place) : p.arm.arm = p.arm := by cases p <;> rfl

namespace Coro.Stays

variable {c c' c'' : Coro}

theorem refl (c : Coro) : c.Stays c := ⟨rfl, rfl, rfl⟩

theorem trans (h : c.Stays c') (h' : c'.Stays c'') : c.Stays c'' :=
  ⟨h'.place.trans h.place, h'.body.trans h.body, h'.reqs.trans h.reqs⟩

theorem place_eq (h : c.Stays c') (hp : c.place.isTask = false) : c'.place = c.place := by
  have h1 := h.place
  cases h2 : c.place <;> cases h3 : c'.place <;> simp_all [Place.arm, Place.isTask]

end Coro.Stays

theorem Coro.Stays.unfinished {c c' : Coro} (h : c.Stays c') : c'.place.unfinished = c.place.unfinished := by
  have h1 : ∀ p : Place, p.arm.unfinished = p.unfinished := fun p => by cases p <;> rfl
  rw [← h1 c'.place, h.place, h1]

theorem Coro.Stays.suspended {c c' : Coro} (h : c.Stays c') : c'.place.suspended = c.place.suspended := by
  have h1 : ∀ p : Place, p.arm.suspended = p.suspended := fun p => by cases p <;> rfl
  rw [← h1 c'.place, h.place, h1]

theorem Coro.Stays.atIo {c c' : Coro} {r : ReqId} (h : c.Stays c') (hp : c'.place = .atIo r) : c.place = .atIo r :=
  Place.arm_eq_atIo.mp (h.place.symm.trans (Place.arm_eq_atIo.mpr hp))

/-- Between `s` and `s'` only the coroutines of `X` act.  A body that ends takes the records of its frame along, and
other records of batches and of the heap stay. -/
structure Acts (X : CoroId → Prop) (s s' : State) : Prop where
  nextCoro : s.nextCoro ≤ s'.nextCoro
  nextReq : s.nextReq ≤ s'.nextReq
  coros : ∀ h, ¬ X h → h < s.nextCoro → (s.coros h).Stays (s'.coros h)
  alive : ∀ h, h < s.nextCoro → (s'.coros h).place.unfinished = true → (s.coros h).place.unfinished = true
  atIo : ∀ h r, r < s.nextReq → (s'.coros h).place = .atIo r → (s.coros h).place = .atIo r ∨
    ∃ a, (s.reqs r).home = .awaitable a
  keeps : ∀ h r, h < s.nextCoro → r ∈ (s.coros h).reqs → r ∈ (s'.coros h).reqs
  reqs : ∀ h r, r < s.nextReq → h < s'.nextCoro → r ∈ (s'.coros h).reqs → h < s.nextCoro ∧ r ∈ (s.coros h).reqs
  home : ∀ r, r < s.nextReq → (s'.reqs r).home = (s.reqs r).home
  mono : ∀ r, r < s.nextReq → (s'.reqs r).live = true → (s.reqs r).live = true
  live : ∀ r, r < s.nextReq → (∀ a, (s.reqs r).home ≠ .awaitable a) → (s.reqs r).live = true →
    (s'.reqs r).live = false →
    ∃ h, X h ∧ ((s.coros h).place = .atIo r ∨ h < s.nextCoro ∧ r ∈ (s.coros h).reqs ∧
      (s'.coros h).place.unfinished = false)
  ended : ∀ h r, h < s.nextCoro → (s.coros h).place.unfinished = true → (s'.coros h).place.unfinished = false →
    r ∈ (s.coros h).reqs → r < s.nextReq → (s'.reqs r).live = false

namespace Acts

variable {X : CoroId → Prop} {s s' s'' : State}

theorem of_stays (hc : ∀ h, (s.coros h).Stays (s'.coros h)) (hreqs : s'.reqs = s.reqs) (hnc : s'.nextCoro = s.nextCoro)
    (hnr : s'.nextReq = s.nextReq) : Acts X s s' where
  nextCoro := hnc.ge
  nextReq := hnr.ge
  coros h _ _ := hc h
  alive h _ hu := (hc h).unfinished.symm.trans hu
  atIo h _ _ hp := .inl ((hc h).atIo hp)
  keeps h _ _ hm := (hc h).reqs.symm ▸ hm
  reqs h _ _ hlt hm := ⟨hnc ▸ hlt, (hc h).reqs ▸ hm⟩
  home r _ := by rw [hreqs]
  mono r _ hl := by rwa [hreqs] at hl
  live r _ _ hl hd := by
    rw [hreqs, hl] at hd
    cases hd
  ended h _ _ hu hd := by
    rw [(hc h).unfinished, hu] at hd
    cases hd

theorem of_coros (hc : s'.coros = s.coros) (hreqs : s'.reqs = s.reqs) (hnc : s'.nextCoro = s.nextCoro)
    (hnr : s'.nextReq = s.nextReq) : Acts X s s' := of_stays (fun h => by rw [hc]; exact .refl _) hreqs hnc hnr

theorem refl (s : State) : Acts X s s := of_coros rfl rfl rfl rfl

theorem trans (h : Acts X s s') (h' : Acts X s' s'') : Acts X s s'' := by
  have hlt : ∀ {x}, x < s.nextCoro → x < s'.nextCoro := fun hx => hx.trans_le h.nextCoro
  have hltr : ∀ {r}, r < s.nextReq → r < s'.nextReq := fun hr => hr.trans_le h.nextReq
  have hgone : ∀ {x}, x < s'.nextCoro → (s'.coros x).place.unfinished = false →
      (s''.coros x).place.unfinished = false := by
    intro x hx hd
    by_contra hne
    rw [h'.alive x hx (by simpa using hne)] at hd
    cases hd
  have hdead : ∀ {r}, r < s'.nextReq → (s'.reqs r).live = false → (s''.reqs r).live = false := by
    intro r hr hd
    by_contra hne
    rw [h'.mono r hr (by simpa using hne)] at hd
    cases hd
  refine ⟨h.nextCoro.trans h'.nextCoro, h.nextReq.trans h'.nextReq, fun x hx hl => ?_, fun x hx hu => ?_,
    fun x r hr hp => ?_, fun x r hx hm => ?_, fun x r hr hx hm => ?_, fun r hr => ?_, fun r hr hl => ?_,
    fun r hr hh hl hd => ?_, fun x r hx hu hd hm hr => ?_⟩
  · exact (h.coros x hx hl).trans (h'.coros x hx (hlt hl))
  · exact h.alive x hx (h'.alive x (hlt hx) hu)
  · rcases h'.atIo x r (hltr hr) hp with hp | ⟨a, ha⟩
    · exact h.atIo x r hr hp
    · exact .inr ⟨a, (h.home r hr).symm.trans ha⟩
  · exact h'.keeps x r (hlt hx) (h.keeps x r hx hm)
  · obtain ⟨hx1, hm1⟩ := h'.reqs x r (hltr hr) hx hm
    exact h.reqs x r hr hx1 hm1
  · rw [h'.home r (hltr hr), h.home r hr]
  · exact h.mono r hr (h'.mono r (hltr hr) hl)
  · cases hl1 : (s'.reqs r).live with
    | false =>
      obtain ⟨x, hX, hp | ⟨hx, hm, hp⟩⟩ := h.live r hr hh hl hl1
      · exact ⟨x, hX, .inl hp⟩
      · exact ⟨x, hX, .inr ⟨hx, hm, hgone (hlt hx) hp⟩⟩
    | true =>
      obtain ⟨x, hX, hp | ⟨hx, hm, hp⟩⟩ := h'.live r (hltr hr) (fun a => by rw [h.home r hr]; exact hh a) hl1 hd
      · exact ⟨x, hX, .inl ((h.atIo x r hr hp).resolve_right fun ⟨a, ha⟩ => hh a ha)⟩
      · obtain ⟨hx0, hm0⟩ := h.reqs x r hr hx hm
        exact ⟨x, hX, .inr ⟨hx0, hm0, hp⟩⟩
  · cases hu1 : (s'.coros x).place.unfinished with
    | false => exact hdead (hltr hr) (h.ended x r hx hu hu1 hm hr)
    | true => exact h'.ended x r (hlt hx) hu1 hd (h.keeps x r hx hm) (hltr hr)

theorem single {h : CoroId} (hX : X h) (hc : ∀ x, x ≠ h → (s.coros x).Stays (s'.coros x))
    (hreqs : (s'.coros h).reqs = (s.coros h).reqs)
    (halive : (s'.coros h).place.unfinished = true → (s.coros h).place.unfinished = true)
    (hio : ∀ r, (s'.coros h).place = .atIo r → (s.coros h).place = .atIo r ∨ ∃ a, (s.reqs r).home = .awaitable a)
    (hhome : ∀ r, (s'.reqs r).home = (s.reqs r).home) (hmono : ∀ r, (s'.reqs r).live = true → (s.reqs r).live = true)
    (hlive : ∀ r, (s.reqs r).live = true → (s'.reqs r).live = false → (∃ a, (s.reqs r).home = .awaitable a) ∨
      (s.coros h).place = .atIo r)
    (hend : (s.coros h).place.unfinished = true → (s'.coros h).place.unfinished = false →
      ∀ r ∈ (s.coros h).reqs, (s'.reqs r).live = false)
    (hnc : s'.nextCoro = s.nextCoro) (hnr : s'.nextReq = s.nextReq) : Acts X s s' := by
  refine ⟨hnc.ge, hnr.ge, fun x hx _ => hc x fun hxh => hx (hxh ▸ hX), fun x _ hu => ?_, fun x r _ hp => ?_,
    fun x r _ hm => ?_, fun x r _ hx hm => ⟨hnc ▸ hx, ?_⟩, fun r _ => hhome r, fun r _ => hmono r,
    fun r _ hh hl hd => ?_, fun x r _ hu hd hm _ => ?_⟩
  · by_cases hxh : x = h
    · exact hxh ▸ halive (hxh ▸ hu)
    · exact (hc x hxh).unfinished.symm.trans hu
  · by_cases hxh : x = h
    · exact hxh ▸ hio r (hxh ▸ hp)
    · exact .inl ((hc x hxh).atIo hp)
  · by_cases hxh : x = h
    · rw [hxh, hreqs]
      exact hxh ▸ hm
    · exact (hc x hxh).reqs.symm ▸ hm
  · by_cases hxh : x = h
    · rw [hxh, ← hreqs]
      exact hxh ▸ hm
    · exact (hc x hxh).reqs ▸ hm
  · rcases hlive r hl hd with ⟨a, ha⟩ | hp
    · exact absurd ha (hh a)
    · exact ⟨h, hX, .inl hp⟩
  · by_cases hxh : x = h
    · exact hend (hxh ▸ hu) (hxh ▸ hd) r (hxh ▸ hm)
    · rw [(hc x hxh).unfinished, hu] at hd
      cases hd

/-! ### Small updates -/

theorem push (a : Activation) (s : State) : Acts X s (s.push a) := of_coros rfl rfl rfl rfl

theorem pop (s : State) : Acts X s s.pop := of_coros rfl rfl rfl rfl

theorem log (e : Event) (s : State) : Acts X s (s.log e) := of_coros rfl rfl rfl rfl

theorem modEv (f : EventManager → EventManager) (s : State) : Acts X s (s.modEv f) := of_coros rfl rfl rfl rfl

theorem writeSqe (j : ℕ) (f : Slot → Slot) (s : State) : Acts X s (s.writeSqe j f) := of_coros rfl rfl rfl rfl

theorem modPromise (h : CoroId) (f : Promise → Promise) (s : State) : Acts X s (s.modPromise h f) := by
  refine of_stays (fun x => ?_) rfl rfl rfl
  by_cases hx : x = h
  · subst hx
    simpa [State.modPromise, State.modCoro] using ⟨rfl, rfl, rfl⟩
  · simpa [State.modPromise, State.modCoro, hx] using .refl _

theorem setTask (t : TaskRef) (e : EvTask) (s : State) : Acts X s (s.setTask t e) := by
  cases t <;> exact of_coros rfl rfl rfl rfl

theorem setPlace {h : CoroId} (hX : X h) {p : Place} (hu : p.unfinished = true → (s.coros h).place.unfinished = true)
    (hp : ∀ r, p = .atIo r → ∃ a, (s.reqs r).home = .awaitable a)
    (hd : p.unfinished = false → (s.coros h).place.unfinished = false) : Acts X s (s.setPlace h p) := by
  have hplace : ((s.setPlace h p).coros h).place = p := by simp [State.setPlace, State.modCoro]
  refine single hX (fun x hx => by simpa [State.setPlace, State.modCoro, hx] using .refl _)
    (by simp [State.setPlace, State.modCoro]) (fun h1 => hu (hplace ▸ h1))
    (fun r h1 => .inr (hp r (hplace.symm.trans h1)))
    (fun _ => rfl) (fun _ hl => hl) (fun r h1 h2 => ?_) (fun h1 h2 => ?_) rfl rfl
  · rw [show (s.setPlace h p).reqs = s.reqs from rfl, h1] at h2
    cases h2
  · rw [hd (hplace ▸ h2)] at h1
    cases h1

theorem setBody {h : CoroId} (hX : X h) (b : Body) (s : State) : Acts X s (s.setBody h b) := by
  have hplace : ((s.setBody h b).coros h).place = (s.coros h).place := by simp [State.setBody, State.modCoro]
  have hreqs : (s.setBody h b).reqs = s.reqs := rfl
  refine ⟨le_rfl, le_rfl, fun x hx _ => ?_, fun x _ hu => ?_, fun x r _ hp => .inl ?_, fun x r _ hm => ?_,
    fun x r _ hx hm => ⟨hx, ?_⟩, fun _ _ => rfl, fun _ _ hl => hl, fun r _ _ h1 h2 => ?_, fun x r _ hu hd => ?_⟩
  · have hxh : x ≠ h := fun hxh => hx (hxh ▸ hX)
    simpa [State.setBody, State.modCoro, hxh] using .refl _
  · by_cases hxh : x = h <;> simpa [State.setBody, State.modCoro, hxh] using hu
  · by_cases hxh : x = h <;> simpa [State.setBody, State.modCoro, hxh] using hp
  · by_cases hxh : x = h <;> simpa [State.setBody, State.modCoro, hxh] using hm
  · by_cases hxh : x = h <;> simpa [State.setBody, State.modCoro, hxh] using hm
  · rw [hreqs, h1] at h2
    cases h2
  · by_cases hxh : x = h
    · rw [hxh, hplace, ← hxh, hu] at hd
      cases hd
    · simp [State.setBody, State.modCoro, hxh, hu] at hd

theorem modReq {r : ReqId} {f : Request → Request} (hh : (f (s.reqs r)).home = (s.reqs r).home)
    (hm : (f (s.reqs r)).live = true → (s.reqs r).live = true)
    (hl : (∃ a, (s.reqs r).home = .awaitable a) ∨ (f (s.reqs r)).live = (s.reqs r).live) : Acts X s (s.modReq r f) := by
  refine ⟨le_rfl, le_rfl, fun h _ _ => .refl _, fun _ _ hu => hu, fun _ _ _ hp => .inl hp, fun _ _ _ hm => hm,
    fun _ _ _ hx hm => ⟨hx, hm⟩, fun x _ => ?_, fun x _ hl => ?_, fun x _ ha h1 h2 => ?_, fun x y _ hu hd => ?_⟩
  · by_cases hx : x = r
    · subst hx
      simpa [State.modReq] using hh
    · simp [State.modReq, hx]
  · by_cases hx : x = r
    · subst hx
      exact hm (by simpa [State.modReq] using hl)
    · simpa [State.modReq, hx] using hl
  · exfalso
    by_cases hx : x = r
    · subst hx
      rcases hl with ⟨a, h3⟩ | h3
      · exact ha a h3
      · simp [State.modReq, h3, h1] at h2
    · simp [State.modReq, hx, h1] at h2
  · rw [show (s.modReq r f).coros = s.coros from rfl, hu] at hd
    cases hd

/-! ### Resuming -/

theorem enter {h : CoroId} (hX : X h) (hu : (s.coros h).place.unfinished = true) : Acts X s (s.enter h) :=
  (setPlace hX (p := .running) (fun _ => hu) (by simp) (by simp [Place.unfinished])).trans (push ..)

theorem resume {h : CoroId} {cause : Option ReqId} (hX : X h) (hs : s.resume h cause = .ok s') : Acts X s s' := by
  cases resumes_of_resume hs with
  | enter hp => exact enter hX (by rcases hp with hp | hp <;> simp [hp, Place.unfinished])
  | @io r hp =>
    refine single hX (fun x hx => ?_) ?_ (fun _ => by simp [hp, Place.unfinished]) (fun x h1 => ?_) (fun x => ?_)
      (fun x h1 => ?_) (fun x h1 h2 => ?_) (fun _ h1 => ?_) rfl rfl
    · simpa [State.ioReturn, State.enter, State.log, State.modReq, State.modPromise, State.setPlace, State.push,
        State.modCoro, hx] using .refl _
    · simp [State.ioReturn, State.enter, State.log, State.modReq, State.modPromise, State.setPlace, State.push,
        State.modCoro]
    · simp [State.ioReturn, State.enter, State.log, State.modReq, State.modPromise, State.setPlace, State.push,
        State.modCoro] at h1
    · by_cases hx : x = r <;>
        simp [State.ioReturn, State.enter, State.log, State.modReq, State.modPromise, State.setPlace, State.push,
          State.modCoro, hx]
    · by_cases hx : x = r
      · simp [State.ioReturn, State.enter, State.log, State.modReq, State.modPromise, State.setPlace, State.push,
          State.modCoro, hx] at h1
      · simpa [State.ioReturn, State.enter, State.log, State.modReq, State.modPromise, State.setPlace, State.push,
          State.modCoro, hx] using h1
    · by_cases hx : x = r
      · exact .inr (hx ▸ hp)
      · simp [State.ioReturn, State.enter, State.log, State.modReq, State.modPromise, State.setPlace, State.push,
          State.modCoro, hx, h1] at h2
    · simp [State.ioReturn, State.enter, State.log, State.modReq, State.modPromise, State.setPlace, State.push,
        State.modCoro, Place.unfinished] at h1
  | task hp => exact ((enter hX (by simp [hp, Place.unfinished])).trans (setBody hX ..)).trans (log ..)
  | batch hp => exact ((enter hX (by simp [hp, Place.unfinished])).trans (log ..)).trans (setBody hX ..)
  | poll hp =>
    exact (((enter hX (by simp [hp, Place.unfinished])).trans (log ..)).trans (modEv ..)).trans (setBody hX ..)

theorem suspend {h : CoroId} (hX : X h) {p : Place} (hrun : (s.coros h).place = .running) (hp : p.unfinished = true)
    (hio : ∀ r, p ≠ .atIo r) : Acts X s (s.suspend h p) :=
  (setPlace hX (fun _ => by simp [hrun, Place.unfinished]) (fun r h1 => absurd h1 (hio r)) (by simp [hp])).trans (pop _)

theorem call (ctx : Option CoroId) (b : Body) (s : State) : Acts X s (s.call ctx b) := by
  have hnew : Acts X s { s with
      coros := Function.update s.coros s.nextCoro
        { promise := { taskStatusPtr := some s.nextCoro }, body := b, place := .initial }
      statuses := Function.update s.statuses s.nextCoro {}
      nextCoro := s.nextCoro + 1
      vars := Function.update s.vars s.nextVar (some ⟨false, some s.nextCoro, some s.nextCoro⟩)
      nextVar := s.nextVar + 1 } := by
    refine ⟨Nat.le_succ _, le_rfl, fun h _ hlt => ?_, fun h hlt hu => ?_, fun h r _ hp => .inl ?_, fun h r hlt hm => ?_,
      fun h r _ hlt hm => ?_, fun _ _ => rfl, fun _ _ hl => hl, fun r _ _ h1 h2 => ?_, fun h r hlt hu hd => ?_⟩
    · simpa [Nat.ne_of_lt hlt] using .refl _
    · simpa [Nat.ne_of_lt hlt] using hu
    · by_cases hh : h = s.nextCoro
      · simp [hh] at hp
      · simpa [hh] using hp
    · simpa [Nat.ne_of_lt hlt] using hm
    · by_cases hh : h = s.nextCoro
      · simp [hh] at hm
      · exact ⟨Nat.lt_of_le_of_ne (Nat.lt_succ_iff.mp hlt) hh, by simpa [hh] using hm⟩
    · simp [h1] at h2
    · simp [Nat.ne_of_lt hlt, hu] at hd
  unfold State.call
  cases ctx with
  | none => exact hnew
  | some c =>
    refine hnew.trans (of_stays (fun x => ?_) rfl rfl rfl)
    by_cases hx : x = c
    · subst hx
      simpa [State.modCoro] using ⟨rfl, rfl, rfl⟩
    · simpa [State.modCoro, hx] using .refl _

theorem setAwaiter (h a : CoroId) (s : State) : Acts X s (s.setAwaiter h a) := by
  refine (modPromise h (fun p => { p with awaiterHandle := some a }) s).trans (of_stays (fun x => ?_) rfl rfl rfl)
  by_cases hx : x = a
  · subst hx
    exact ⟨by simp [State.setAwaiter, State.modCoro], by simp [State.setAwaiter, State.modCoro],
      by simp [State.setAwaiter, State.modCoro]⟩
  · simpa [State.setAwaiter, State.modCoro, hx] using .refl _

/-! ### The end of a body -/

theorem destroyTask (v : VarId) (s : State) : Acts X s (s.destroyTask v) := by
  obtain ⟨coros, heq, hcoros⟩ := s.destroyTask_eq v
  rw [heq]
  refine of_stays (fun h => ?_) rfl rfl rfl
  rcases hcoros h with hc | ⟨hc, -⟩ <;> simpa [hc] using ⟨rfl, rfl, rfl⟩

/-- The tasks of a frame are destroyed, and every coroutine stays where it is. -/
theorem stays_destroyTasks (vs : List VarId) (s : State) :
    (∀ h, (s.coros h).Stays ((vs.foldl (fun s v => s.destroyTask v) s).coros h)) ∧
      (vs.foldl (fun s v => s.destroyTask v) s).reqs = s.reqs ∧
      (vs.foldl (fun s v => s.destroyTask v) s).nextCoro = s.nextCoro ∧
      (vs.foldl (fun s v => s.destroyTask v) s).nextReq = s.nextReq := by
  induction vs generalizing s with
  | nil => exact ⟨fun h => .refl _, rfl, rfl, rfl⟩
  | cons v vs ih =>
    obtain ⟨h1, h2, h3, h4⟩ := ih (s.destroyTask v)
    obtain ⟨coros, heq, hcoros⟩ := s.destroyTask_eq v
    rw [heq] at h1 h2 h3 h4
    rw [List.foldl_cons, heq]
    refine ⟨fun h => ?_, h2, h3, h4⟩
    refine Coro.Stays.trans ?_ (h1 h)
    rcases hcoros h with hc | ⟨hc, -⟩ <;> simpa [hc] using ⟨rfl, rfl, rfl⟩

theorem destroyFrame {h : CoroId} (hX : X h) (hlt : h < s.nextCoro) {p : Place} (hp : p = .final ∨ p = .gone) :
    Acts X s ((s.destroyLocals h).setPlace h p) := by
  obtain ⟨hc, hr, hn, hq⟩ := stays_destroyTasks (s.coros h).vars.reverse s
  have hreqs : ∀ r, ((s.destroyLocals h).setPlace h p).reqs r =
      if r ∈ (s.coros h).reqs then { s.reqs r with live := false, held := false } else s.reqs r := fun r => by
    simp only [State.setPlace, State.modCoro, State.destroyLocals, hr]
  have hne : ∀ x, x ≠ h → ((s.destroyLocals h).setPlace h p).coros x = (s.destroyLocals h).coros x := fun x hx => by
    simp [State.setPlace, State.modCoro, hx]
  have hplace : (((s.destroyLocals h).setPlace h p).coros h).place = p := by simp [State.setPlace, State.modCoro]
  have hown : (((s.destroyLocals h).setPlace h p).coros h).reqs = (s.coros h).reqs := by
    rw [← (hc h).reqs]
    simp [State.setPlace, State.modCoro, State.destroyLocals]
  have hdead : ∀ r ∈ (s.coros h).reqs, (((s.destroyLocals h).setPlace h p).reqs r).live = false := fun r hm => by
    rw [hreqs, if_pos hm]
  have hend : p.unfinished = false := by rcases hp with rfl | rfl <;> rfl
  refine ⟨hn.ge, hq.ge, fun x hx _ => ?_, fun x _ hu => ?_, fun x r _ hio => .inl ?_, fun x r _ hm => ?_,
    fun x r _ hx hm => ⟨hn ▸ hx, ?_⟩, fun r _ => ?_, fun r _ hl => ?_, fun r _ _ h1 h2 => ?_,
    fun x r _ hu hd hm _ => ?_⟩
  · rw [hne x fun hxh => hx (hxh ▸ hX)]
    exact hc x
  · by_cases hxh : x = h
    · rw [hxh, hplace, hend] at hu
      cases hu
    · rw [hne x hxh] at hu
      exact (hc x).unfinished.symm.trans hu
  · by_cases hxh : x = h
    · rw [hxh, hplace] at hio
      rcases hp with rfl | rfl <;> cases hio
    · rw [hne x hxh] at hio
      exact (hc x).atIo hio
  · by_cases hxh : x = h
    · rw [hxh, hown]
      exact hxh ▸ hm
    · rw [hne x hxh]
      exact (hc x).reqs.symm ▸ hm
  · by_cases hxh : x = h
    · rw [hxh, ← hown]
      exact hxh ▸ hm
    · rw [hne x hxh] at hm
      exact (hc x).reqs ▸ hm
  · rw [hreqs]
    split <;> rfl
  · rw [hreqs] at hl
    split at hl
    · cases hl
    · exact hl
  · refine ⟨h, hX, .inr ?_⟩
    by_cases hm : r ∈ (s.coros h).reqs
    · exact ⟨hlt, hm, by rw [hplace, hend]⟩
    · rw [hreqs, if_neg hm, h1] at h2
      cases h2
  · by_cases hxh : x = h
    · exact hdead r (hxh ▸ hm)
    · rw [hne x hxh, show ((s.destroyLocals h).coros x).place.unfinished = _ from (hc x).unfinished, hu] at hd
      cases hd

theorem returnValue (h : CoroId) (code : ℕ) (s : State) : Acts X s (s.returnValue h code) := by
  unfold State.returnValue
  split
  · exact of_coros rfl rfl rfl rfl
  · exact refl s

theorem storeResult (h : CoroId) (out : Option ℕ) (s : State) : Acts X s (s.storeResult h out) := by
  cases out with
  | none => exact modPromise h (fun p => { p with exceptionPtr := true }) s
  | some code => exact returnValue h code s

theorem endBody {h : CoroId} (hX : X h) (hlt : h < s.nextCoro) (out : Option ℕ) : Acts X s (s.endBody h out) :=
  ((destroyFrame hX hlt (.inl rfl)).trans (pop _)).trans ((push ..).trans (log ..))

theorem finalReturn {h : CoroId} (hX : X h) (hp : (s.coros h).place = .final) : Acts X s (s.finalReturn h) := by
  unfold State.finalReturn
  have hset : ∀ u : State, u.coros = s.coros → u.reqs = s.reqs → u.nextCoro = s.nextCoro → u.nextReq = s.nextReq →
      Acts X s (u.setPlace h .gone) := by
    intro u hc hr hn hq
    refine (of_coros hc hr hn hq).trans (setPlace hX (by simp [Place.unfinished]) (by simp) fun _ => ?_)
    rw [hc, hp]
    rfl
  simp only
  split
  · exact hset _ rfl rfl rfl rfl
  · exact hset s rfl rfl rfl rfl

theorem destroyCoro {h : CoroId} (hX : X h) (hlt : h < s.nextCoro) (hs : s.destroyCoro h = .ok s') : Acts X s s' := by
  unfold State.destroyCoro at hs
  split at hs
  · cases hs
    exact destroyFrame hX hlt (.inr rfl)
  · cases hs

theorem relink (e : EvTask) (s : State) : Acts X s (s.relink e) := by
  unfold State.relink
  split
  · exact modPromise ..
  · exact refl s

theorem relinks (es : List EvTask) (s : State) : Acts X s (es.foldl (fun s e => s.relink e) s) := by
  induction es generalizing s with
  | nil => exact refl s
  | cons e es ih => exact (relink e s).trans (ih _)

theorem insertTask (pick : ℕ) (e : EvTask) (s : State) : Acts X s (s.insertTask pick e) := by
  unfold State.insertTask
  have h1 : Acts X s ((s.relink e).modEv fun ev => { ev with
      managedCoroutinesStore := s.ev.managedCoroutinesStore.insert pick e }) := (relink e s).trans (modEv ..)
  simp only
  split
  · exact h1.trans (modPromise ..)
  · exact h1

/-! ### Requests -/

theorem submit {ret : ℤ} (hs : s.submitQueuedEntries ret = .ok s') : Acts X s s' := by
  obtain ⟨-, -, -, rfl⟩ := submitQueuedEntries_ok hs
  exact modEv ..

theorem getUringSqe {p : Purpose} {x : Option ℕ} (hs : s.getUringSqe p = .ok (x, s')) : Acts X s s' := by
  rcases getUringSqe_ok hs with ⟨-, -, rfl⟩ | ⟨j, ring, -, -, -, -, rfl⟩
  · exact refl _
  · exact modEv ..

theorem ioUringGetSqe {p : Purpose} {x : Option ℕ} (hs : s.ioUringGetSqe p = .ok (x, s')) : Acts X s s' := by
  cases x with
  | none => rw [ioUringGetSqe_none hs]; exact refl _
  | some j =>
    obtain ⟨ring, -, -, rfl⟩ := ioUringGetSqe_some hs
    exact modEv ..

theorem alloc (hc : ∀ h, ¬ X h → (s.coros h).Stays (s'.coros h)) (hplace : ∀ h, (s'.coros h).place = (s.coros h).place)
    (hkeep : ∀ h r, r ∈ (s.coros h).reqs → r ∈ (s'.coros h).reqs)
    (hown : ∀ h r, r < s.nextReq → r ∈ (s'.coros h).reqs → r ∈ (s.coros h).reqs)
    (hreqs : ∀ r, r < s.nextReq → s'.reqs r = s.reqs r) (hnc : s'.nextCoro = s.nextCoro)
    (hnr : s.nextReq ≤ s'.nextReq) :
    Acts X s s' where
  nextCoro := hnc.ge
  nextReq := hnr
  coros h hX _ := hc h hX
  alive h _ hu := by rwa [hplace] at hu
  atIo h r _ hp := .inl (hplace h ▸ hp)
  keeps h r _ hm := hkeep h r hm
  reqs h r hr hlt hm := ⟨hnc ▸ hlt, hown h r hr hm⟩
  home r hr := by rw [hreqs r hr]
  mono r hr hl := by rwa [hreqs r hr] at hl
  live r hr _ hl hd := by
    rw [hreqs r hr, hl] at hd
    cases hd
  ended h r _ hu hd := by
    rw [hplace, hu] at hd
    cases hd

theorem ioOp {ctx : Option CoroId} (hX : ∀ c, ctx = some c → X c) {p : ParameterPack} {r : ReqId}
    (hs : s.ioOp ctx p = .ok (r, s')) : Acts X s s' := by
  obtain ⟨-, rfl, sqe, s1, h1, rfl⟩ := ioOp_ok hs
  have hnr : s1.nextReq = s.nextReq := by
    rcases getUringSqe_ok h1 with ⟨-, -, rfl⟩ | ⟨j, ring, -, -, -, -, rfl⟩ <;> rfl
  refine (getUringSqe h1).trans ?_
  rw [← hnr]
  cases ctx with
  | none =>
    refine alloc (fun _ _ => .refl _) (fun _ => rfl) (fun _ _ hm => hm) (fun _ _ _ hm => hm) (fun r hlt => ?_) rfl
      (Nat.le_succ _)
    simp [ownReq, State.newReq, Nat.ne_of_lt hlt]
  | some c =>
    refine alloc (fun h hh => ?_) (fun h => ?_) (fun h r hm => ?_) (fun h r hlt hm => ?_) (fun r hlt => ?_) rfl
      (Nat.le_succ _)
    · have hc : h ≠ c := fun hc => hh (hc ▸ hX c rfl)
      simpa [ownReq, State.modCoro, State.newReq, hc] using .refl _
    · by_cases hc : h = c <;> simp [ownReq, State.modCoro, State.newReq, hc]
    · by_cases hc : h = c
      · subst hc
        simp [ownReq, State.modCoro, State.newReq, hm]
      · simpa [ownReq, State.modCoro, State.newReq, hc] using hm
    · by_cases hc : h = c
      · subst hc
        simpa [ownReq, State.modCoro, State.newReq, Nat.ne_of_lt hlt] using hm
      · simpa [ownReq, State.modCoro, State.newReq, hc] using hm
    · simp [ownReq, State.modCoro, State.newReq, Nat.ne_of_lt hlt]

theorem place_ioOp {ctx : Option CoroId} {p : ParameterPack} {r : ReqId} (hs : s.ioOp ctx p = .ok (r, s'))
    (h : CoroId) :
    (s'.coros h).place = (s.coros h).place := by
  obtain ⟨-, rfl, sqe, s1, h1, rfl⟩ := ioOp_ok hs
  have hc : s1.coros = s.coros := by
    rcases getUringSqe_ok h1 with ⟨-, -, rfl⟩ | ⟨j, ring, -, -, -, -, rfl⟩ <;> rfl
  rw [← hc]
  cases ctx with
  | none => rfl
  | some c => by_cases hh : h = c <;> simp [ownReq, State.modCoro, State.newReq, hh]

theorem ioReturn {h : CoroId} {r : ReqId} {a : Option CoroId} (ha : (s.reqs r).home = .awaitable a) :
    Acts X s (s.ioReturn h r) := by
  refine (modPromise h (fun p => { p with comData := (State.awaitResume (s.reqs r).data.reqType (s.reqs r).error
    (s.coros h).promise.comData).2 }) s).trans (Acts.trans ?_ (log ..))
  exact modReq rfl (by simp) (.inl ⟨a, ha⟩)

theorem awaitIo {h : CoroId} (hX : X h) (hrun : (s.coros h).place = .running) {r : ReqId}
    (hs : s.awaitIo h r = .ok s') :
    Acts X s s' := by
  obtain ⟨⟨hm, -, ha, -⟩, ⟨-, rfl⟩ | ⟨j, -, -, -, rfl⟩⟩ := awaitIo_ok hs
  · exact ioReturn ha
  · have h1 : Acts X s ((s.modReq r fun q => { q with data := q.data.await h (s.coros h).promise }).writeSqe j
        fun x => (x.prep (prepareSqringOp (s.reqs r).data.specificData)).setData (some r)) :=
      (modReq rfl (fun hl => hl) (.inr rfl)).trans (writeSqe ..)
    refine h1.trans (Acts.trans (Acts.trans (setPlace hX ?_ ?_ ?_) (pop _)) (push ..))
    · intro _
      show (s.coros h).place.unfinished = true
      simp [hrun, Place.unfinished]
    · intro x hx
      obtain rfl : r = x := by simpa using hx
      exact ⟨some h, by simpa [State.writeSqe, setRing, State.modEv, State.modReq] using ha⟩
    · simp [Place.unfinished]

theorem na {p : ParameterPack} {ret : ℤ} {e : Errnos} (hs : s.naOp p ret = .ok (e, s')) : Acts X s s' := by
  rcases naOp_ok hs with ⟨-, -, rfl⟩ | ⟨-, j, ring, s2, -, h2, hcase⟩
  · exact refl _
  · obtain ⟨-, -, -, rfl⟩ := submitQueuedEntries_ok h2
    rcases hcase with ⟨-, -, rfl⟩ | ⟨-, -, rfl⟩ <;>
      refine alloc (fun _ _ => .refl _) (fun _ => rfl) (fun _ _ hm => hm) (fun _ _ _ hm => hm) (fun r hlt => ?_) rfl
        (Nat.le_succ _) <;>
      simp [Nat.ne_of_lt hlt, State.setRing, State.modEv]

theorem processRequests {h : CoroId} {l : List (ParameterPack × ReqId)} :
    ∀ {s s' : State}, s.processRequests h l = .ok s' → Acts X s s' := by
  induction l with
  | nil =>
    intro s s' hs
    cases hs
    exact refl _
  | cons x l ih =>
    intro s s' hs
    obtain ⟨req, r⟩ := x
    obtain ⟨⟨b, s1⟩, h1, h2⟩ := bind_ok.mp hs
    refine Acts.trans ?_ (ih h2)
    rcases processSingleGenericRequest_ok h1 with ⟨-, -, rfl⟩ | ⟨-, -, -, j, ring, -, rfl⟩
    · exact refl _
    · exact (modEv ..).trans (modReq rfl (fun hl => hl) (.inr rfl))

theorem newVector {h : CoroId} (hX : X h) (n : ℕ) (s : State) : Acts X s (s.newVector h n).2 := by
  have hnew : ∀ r, r < s.nextReq → r ∉ List.range' s.nextReq n := fun r hlt hm => by
    simp only [List.mem_range'_1] at hm
    omega
  refine alloc (fun x hx => ?_) (fun x => ?_) (fun x r hm => ?_) (fun x r hlt hm => ?_) (fun r hlt => ?_) rfl
    (Nat.le_add_right ..)
  · have hxh : x ≠ h := fun hxh => hx (hxh ▸ hX)
    simpa [State.newVector, State.modCoro, hxh] using .refl _
  · by_cases hxh : x = h <;> simp [State.newVector, State.modCoro, hxh]
  · by_cases hxh : x = h
    · subst hxh
      simp [State.newVector, State.modCoro, hm]
    · simpa [State.newVector, State.modCoro, hxh] using hm
  · by_cases hxh : x = h
    · subst hxh
      have h1 : r ∈ (s.coros x).reqs ∨ r ∈ List.range' s.nextReq n := by
        simpa [State.newVector, State.modCoro, -List.mem_range'_1] using hm
      exact h1.resolve_right (hnew r hlt)
    · simpa [State.newVector, State.modCoro, hxh] using hm
  · simp [State.newVector, hnew r hlt, -List.mem_range'_1]

theorem batch {h : CoroId} (hX : X h) {q : RequestQueue} {s1 s2 : State} (s : State)
    (h1 : Acts X s s1) (h2 : State.processRequests h (q.zip (s1.newVector h q.length).1)
      (s1.newVector h q.length).2 = .ok s2)
    (b : Body) : Acts X s (s2.setBody h b) :=
  h1.trans ((newVector hX q.length s1).trans ((processRequests h2).trans (setBody hX ..)))

end Acts

/-! ### The coroutine that a step resumes -/

/-- Between `s` and `s'` only the coroutines of `X` act, but for one that is resumed at the end, gets an exception
in its `await_suspend`, or is destroyed. -/
inductive Does (X : CoroId → Prop) (s s' : State) : Prop
  | acts : Acts X s s' → Does X s s'
  | wakes {u : State} {h : CoroId} {cause : Option ReqId} : ¬ X h → Acts X s u → u.resume h cause = .ok s' → Does X s s'
  | throws {u : State} {h : CoroId} {t : TaskRef} : ¬ X h → Acts X s u → .taskAwait t h ∈ s.stack →
      (u.coros h).place.suspended = true → s' = u.enter h → Does X s s'
  | destroys {u v : State} {h : CoroId} : ¬ X h → Acts X s u → u.destroyCoro h = .ok v → Acts X v s' → Does X s s'

/-- A coroutine of `X` runs. -/
structure Runs (X : CoroId → Prop) (s : State) (h : CoroId) : Prop where
  mem : X h
  place : (s.coros h).place = .running
  lt : h < s.nextCoro

namespace Does

variable {X : CoroId → Prop} {s s' u : State} {h : CoroId} {rest : List Activation}

theorem of_resume {cause : Option ReqId} (ha : Acts X s u) (hs : u.resume h cause = .ok s') : Does X s s' := by
  by_cases hX : X h
  · exact .acts (ha.trans (.resume hX hs))
  · exact .wakes hX ha hs

theorem startTask {t : TaskRef} (ha : Acts X s u) (hs : u.startTask t = .ok s') : Does X s s' := by
  unfold State.startTask at hs
  obtain ⟨e, -, hs⟩ := bind_ok.mp hs
  split at hs
  · cases hs
    exact .acts ha
  · obtain ⟨h, -, hs⟩ := bind_ok.mp hs
    exact of_resume (ha.trans ((Acts.setTask ..).trans (.push ..))) hs

theorem startReturn {t : TaskRef} (hs : s.pop.startReturn t h = .ok s') :
    Does X s s' := by
  unfold State.startReturn at hs
  obtain ⟨e, -, hs⟩ := bind_ok.mp hs
  split at hs
  · unfold State.rethrow at hs
    split at hs
    · cases hs
      exact .acts ((Acts.pop s).trans (.pop _))
    · rename_i t' a _ hst'
      split at hs
      · rename_i hsus
        cases hs
        by_cases hX : X a
        · exact .acts (((Acts.pop s).trans (.pop _)).trans (.enter hX (Place.unfinished_of_suspended hsus)))
        · refine .throws (t := t') hX ((Acts.pop s).trans (.pop _)) ?_ hsus rfl
          rw [stack_pop] at hst'
          exact List.mem_of_mem_tail (by rw [hst']; exact List.mem_cons_self)
      · cases hs
    · cases hs
      exact .acts (.pop s)
  · cases hs
    exact .acts (.pop s)

theorem awaitSuspendTail {t : TaskRef} (ha : Acts X s u) (hs : u.awaitSuspendTail t h = .ok s') : Does X s s' := by
  unfold State.awaitSuspendTail at hs
  obtain ⟨e, -, hs⟩ := bind_ok.mp hs
  split at hs
  · exact of_resume ha hs
  · obtain ⟨x, -, hs⟩ := bind_ok.mp hs
    cases hs
    exact .acts (ha.trans (.setAwaiter ..))

theorem awaitTask {t : TaskRef} (hX : Runs X s h) (hs : s.awaitTask h t = .ok s') : Does X s s' := by
  unfold State.awaitTask at hs
  obtain ⟨e, -, hs⟩ := bind_ok.mp hs
  obtain ⟨x, -, hs⟩ := bind_ok.mp hs
  have h1 : Acts X s (s.suspend h (.atTask t x false)) := .suspend hX.mem hX.place (by rfl) (by simp)
  simp only at hs
  split at hs
  · exact awaitSuspendTail h1 hs
  · exact startTask (h1.trans (.push ..)) hs

theorem finish {out : Option ℕ} (hX : X h) (hlt : h < s.nextCoro) (ha : Acts X s u) (hs : u.finish h out = .ok s') :
    Does X s s' := by
  have h0 : Acts X s (u.storeResult h out) := ha.trans (.storeResult h out u)
  have h1 : Acts X s ((u.storeResult h out).endBody h out) := h0.trans (.endBody hX (hlt.trans_le h0.nextCoro) out)
  rcases State.finish_ok hs with ⟨a, -, h2⟩ | ⟨-, rfl⟩
  · exact of_resume h1 h2
  · exact .acts h1

/-! ### The library -/

theorem flushLoop {pc : ℕ → KillPc} {iter : ℕ} {ret : Option ℤ} {next : State → Except Stop State} (hX : Runs X s h)
    (hn : ∀ s', next s = .ok s' → Acts X s s') (hs : s.flushLoop h pc iter ret next = .ok s') : Does X s s' := by
  unfold State.flushLoop at hs
  split at hs
  · split at hs
    · split at hs
      · obtain ⟨s2, h2, hs⟩ := bind_ok.mp hs
        cases hs
        exact .acts ((Acts.submit h2).trans (.setBody hX.mem ..))
      · cases hs
    · split at hs
      · split at hs
        · exact finish hX.mem hX.lt (.refl s) hs
        · exact .acts (hn _ hs)
      · cases hs
  · cases hs

theorem killInternal {pc : KillPc} {ret : Option ℤ} (hX : Runs X s h) (hs : s.killInternal h pc ret = .ok s') :
    Does X s s' := by
  have hnext : ∀ {b : Body} {s'}, Except.ok (s.setBody h b) = Except.ok (ε := Stop) s' → Acts X s s' := by
    intro b s' h1
    cases h1
    exact .setBody hX.mem ..
  unfold State.killInternal at hs
  split at hs
  · split at hs
    · split at hs
      · exact finish hX.mem hX.lt (.refl s) hs
      · cases hs
        exact .acts ((Acts.modEv ..).trans (.setBody hX.mem ..))
    · cases hs
  · exact flushLoop hX (fun _ => hnext) hs
  · split at hs
    · obtain ⟨⟨j, s1⟩, h1, h2⟩ := bind_ok.mp hs
      have h3 : Acts X s s1 := by
        rcases cancelSqe_ok h1 with ⟨-, rfl⟩ | h1
        · exact .refl _
        · exact .ioUringGetSqe h1
      cases j with
      | none => exact finish hX.mem hX.lt h3 h2
      | some j =>
        cases h2
        exact .acts (h3.trans ((Acts.writeSqe ..).trans (.setBody hX.mem ..)))
    · cases hs
  · exact flushLoop hX (fun _ => hnext) hs
  · split at hs
    · split at hs
      · cases hs
        exact .acts (.suspend hX.mem hX.place (by rfl) (by simp))
      · exact finish hX.mem hX.lt (.modEv ..) hs
    · cases hs

theorem park {b : Body} (hX : Runs X s h) : Acts X s ((s.setBody h b).suspend h .atGeneric) := by
  refine (Acts.setBody hX.mem b s).trans (.suspend hX.mem ?_ (by rfl) (by simp))
  simpa [State.setBody, State.modCoro] using hX.place

theorem submitAndWaitLoop {q : RequestQueue} {l : BatchLocals} {ret : Option ℤ} (hX : Runs X s h)
    (hs : s.submitAndWaitLoop h q l ret = .ok s') : Does X s s' := by
  unfold State.submitAndWaitLoop at hs
  split at hs
  · split at hs
    · exact finish hX.mem hX.lt (.refl s) hs
    · cases hs
  · split at hs
    · split at hs
      · obtain ⟨s2, h2, hs⟩ := bind_ok.mp hs
        split at hs
        · exact finish hX.mem hX.lt (.submit h2) hs
        · cases hs
          exact .acts ((Acts.submit h2).trans (.setBody hX.mem ..))
      · cases hs
    · split at hs
      · cases hs
        exact .acts (park hX)
      · cases hs

theorem submitAndWaitBegin {q : RequestQueue} {ret : ℤ} (hX : Runs X s h) (hs : s.submitAndWaitBegin h q ret = .ok s') :
    Does X s s' := by
  unfold State.submitAndWaitBegin at hs
  obtain ⟨s1, h1, hs⟩ := bind_ok.mp hs
  split at hs
  · exact finish hX.mem hX.lt (.submit h1) hs
  · obtain ⟨s2, h2, hs⟩ := bind_ok.mp hs
    cases hs
    exact .acts (Acts.batch hX.mem s (.submit h1) h2 _)

theorem submitAndWaitNext {q : RequestQueue} {l : BatchLocals} {i : ℕ} (hX : Runs X s h) :
    Acts X s (s.submitAndWaitNext h q l i) := by
  unfold State.submitAndWaitNext
  split
  · exact park hX
  · exact .setBody hX.mem ..

theorem pollWait (hX : Runs X s h) : Acts X s (s.pollWait h) :=
  (Acts.modEv (fun ev => { ev with pollingHandle := some h }) s).trans (park ⟨hX.mem, hX.place, hX.lt⟩)

theorem pollBegin (hX : Runs X s h) (hs : s.pollBegin h = .ok s') : Does X s s' := by
  unfold State.pollBegin at hs
  split at hs
  · exact finish hX.mem hX.lt (.refl s) hs
  · cases hs
    exact .acts ((Acts.modEv (fun ev => { ev with pollingRequests := true }) s).trans
      (pollWait ⟨hX.mem, hX.place, hX.lt⟩))

theorem pollNext {stop : Bool} (hX : Runs X s h) (hs : s.pollNext h stop = .ok s') : Does X s s' := by
  unfold State.pollNext at hs
  split at hs
  · exact finish hX.mem hX.lt (.modEv ..) hs
  · cases hs
    exact .acts (pollWait hX)

/-! ### The loop -/

theorem eventHandler {res : ℤ} {x : Option ReqId} {base : Addr} (ha : Acts X s u)
    (hs : u.eventHandler res x base = .ok s') :
    Does X s s' := by
  unfold State.eventHandler at hs
  split at hs
  · cases hs
    exact .acts ha
  · simp only at hs
    split at hs
    · split at hs
      · cases hs
        exact .acts (ha.trans (.modEv ..))
      · obtain ⟨pack, -, hs⟩ := bind_ok.mp hs
        exact of_resume (ha.trans ((Acts.modPromise ..).trans ((Acts.log ..).trans (.push ..)))) hs
    · cases hs

theorem awaitMessage {base : Addr} (hs : s.awaitMessage base = .ok s') : Does X s s' := by
  unfold State.awaitMessage at hs
  simp only at hs
  split at hs
  · rename_i r ready p _ _
    have h1 : Acts X s ((s.push .awaitWait).modEv fun ev => { ev with readyRequestsStore := ready }) :=
      (Acts.push ..).trans (.modEv ..)
    refine eventHandler (h1.trans ?_) hs
    exact .modReq rfl (fun hl => hl) (.inr rfl)
  · cases hs
    exact .acts (.push ..)

theorem awaitCqe {i : ℕ} {res : ℤ} {base : Addr} (hs : s.awaitCqe i res base = .ok s') : Does X s s' := by
  unfold State.awaitCqe at hs
  split at hs
  · split at hs
    · simp only at hs
      have h1 : Acts X s ((s.pop.push .awaitSeen).setRing (s.ev.ring.reap i)) :=
        ((Acts.pop s).trans (.push ..)).trans (.modEv ..)
      refine eventHandler (h1.trans ?_) hs
      split
      · exact .log ..
      · exact .refl _
    · cases hs
  · cases hs

theorem awaitSeen (hs : s.awaitSeen = .ok s') : Does X s s' := by
  unfold State.awaitSeen at hs
  split at hs
  · have h1 : Acts X s ({ s.pop with seen := s.seen + 1 } : State) := .of_coros rfl rfl rfl rfl
    simp only at hs
    split at hs
    · exact of_resume (h1.trans (.modEv ..)) hs
    · cases hs
    · cases hs
      exact .acts (h1.trans (.modEv ..))
  · cases hs

theorem registerCoroReturn {v : VarId} {idx : ℕ} {grow : Bool} (ha : Acts X s u)
    (hfresh : ∀ h, u.nextCoro ≤ h → (u.coros h).place = .gone) (hs : u.registerCoroReturn v idx grow = .ok s') :
    Does X s s' := by
  unfold State.registerCoroReturn at hs
  obtain ⟨s1, h1, hs⟩ := bind_ok.mp hs
  obtain ⟨e, -, hs⟩ := bind_ok.mp hs
  cases hs
  have h2 : Acts X s1 { s1.insertTask idx e with vars := Function.update s1.vars v (some {}) } :=
    (Acts.insertTask idx e s1).trans (.of_coros rfl rfl rfl rfl)
  unfold State.makeRoom at h1
  simp only at h1
  split at h1
  · have h3 : Acts X u s1 := by
      cases h1
      split
      · exact .relinks ..
      · exact .refl _
    exact .acts (ha.trans (h3.trans h2))
  · split at h1
    · obtain ⟨old, -, h1⟩ := bind_ok.mp h1
      unfold State.overwriteTask at h1
      split at h1
      · cases h1
        exact .acts (ha.trans h2)
      · rename_i x _
        split at h1
        · cases h1
        · split at h1
          · cases h1
            exact .acts (ha.trans h2)
          · have hlt : x < u.nextCoro := by
              by_contra hge
              simp [destroyCoro, hfresh x (Nat.le_of_not_lt hge), Place.suspended] at h1
            by_cases hX : X x
            · exact .acts (ha.trans ((Acts.destroyCoro hX hlt h1).trans h2))
            · exact .destroys hX ha h1 h2
    · cases h1

theorem ioSubmit {r : ReqId} {ret : ℤ} (hs : s.ioSubmit h r ret = .ok s') : Does X s s' := by
  unfold State.ioSubmit at hs
  obtain ⟨s2, h2, hs⟩ := bind_ok.mp hs
  have h1 : Acts X s s2 := (Acts.pop s).trans (.submit h2)
  split at hs
  · refine of_resume (h1.trans ?_) hs
    exact .modReq rfl (fun hl => hl) (.inr rfl)
  · cases hs
    exact .acts h1

/-! ### User code -/

theorem userStep {ctx : Option CoroId} {a : Act} (hX : ∀ c, ctx = some c → X c) (hs : s.userStep ctx a = .ok s') :
    Does X s s' := by
  cases a with
  | call | submitAndWait | poll | kill =>
    cases hs
    exact .acts (.call ctx _ s)
  | startTask v => exact startTask (.refl s) hs
  | registerCoro v => exact startTask (.push ..) hs
  | destroyTask v =>
    cases hs
    exact .acts (.destroyTask v s)
  | io p =>
    simp only [State.userStep, Except.map] at hs
    split at hs
    · cases hs
    · rename_i x hx
      cases hs
      exact .acts (.ioOp (r := x.1) hX hx)
  | dropAwaitable r =>
    simp only [State.userStep] at hs
    split at hs
    · rename_i hr
      cases hs
      exact .acts (.modReq rfl (by simp) (.inl ⟨ctx, hr.1⟩))
    · cases hs
  | na p ret =>
    simp only [State.userStep, Except.map] at hs
    split at hs
    · cases hs
    · rename_i x hx
      cases hs
      exact .acts (.na (e := x.1) hx)
  | submitQueuedEntries ret => exact .acts (.submit hs)
  | getUringSqe =>
    simp only [State.userStep, Except.map] at hs
    split at hs
    · cases hs
    · rename_i x hx
      cases hs
      exact .acts (.getUringSqe (x := x.1) hx)
  | start =>
    cases hs
    unfold State.startLoop
    split
    · exact .acts (.refl s)
    · exact .acts ((Acts.modEv ..).trans (.push ..))
  | consume x rt =>
    simp only [State.userStep] at hs
    split at hs
    · cases hs
      exact .acts (.modPromise ..)
    · cases hs
  | awaitTask | awaitIo | awaitOp | coReturn | throw | handlerReturn => cases hs

theorem coroStep {a : Act} (hX : Runs X s h) (hs : s.coroStep h a = .ok s') : Does X s s' := by
  have hctx : ∀ c, some h = some c → X c := fun c hc => Option.some.inj hc ▸ hX.mem
  unfold State.coroStep at hs
  split at hs
  · exact awaitTask hX hs
  · exact .acts (.awaitIo hX.mem hX.place hs)
  · obtain ⟨⟨r, s1⟩, h1, hs⟩ := bind_ok.mp hs
    exact .acts ((Acts.ioOp hctx h1).trans (.awaitIo hX.mem ((Acts.place_ioOp h1 h).trans hX.place) hs))
  · exact finish hX.mem hX.lt (.refl s) hs
  · exact finish hX.mem hX.lt (.refl s) hs
  · exact userStep hctx hs

theorem bodyStep {c : Choice} (hX : Runs X s h) (hs : s.bodyStep h c = .ok s') : Does X s s' := by
  unfold State.bodyStep at hs
  split at hs
  · exact coroStep hX hs
  · exact killInternal hX hs
  · exact killInternal hX hs
  · exact awaitTask hX hs
  · exact finish hX.mem hX.lt (.refl s) hs
  · split at hs
    · exact submitAndWaitBegin hX hs
    · exact submitAndWaitLoop hX hs
    · exact submitAndWaitLoop hX hs
    · cases hs
      exact .acts (submitAndWaitNext hX)
    · exact finish hX.mem hX.lt (.refl s) hs
    · exact userStep (by simp) hs
    · cases hs
  · split at hs
    · exact pollBegin hX hs
    · exact pollNext hX hs
    · exact finish hX.mem hX.lt (.refl s) hs
    · exact userStep (by simp) hs
    · cases hs
  · cases hs

end Does

/-- **What a step does to others**: where what is on top carries on a coroutine of `X` or none, only those of `X`
act, but for one. -/
theorem step_does {X : CoroId → Prop} {s s' : State} {c : Choice} (hs : step s c = .ok s') (hp : Placed s)
    (hX : ∀ a rest h, s.stack = a :: rest → a.subject = some h → X h)
    (htop : ∀ r h rest, s.stack ≠ .eventHandler r h :: rest) : Does X s s' := by
  unfold step at hs
  split at hs
  · exact .userStep (by simp) hs
  · split at hs
    · exact .awaitMessage hs
    · cases hs
  · split at hs <;> cases hs
    exact .acts (.pop s)
  · exact .awaitCqe hs
  · cases hs
  · exact .awaitSeen hs
  · rename_i hst
    exact (htop _ _ _ hst).elim
  · rename_i h _ hst
    have hrun := hp.place_of_top hst
    refine .bodyStep ⟨hX _ _ _ hst rfl, hrun, ?_⟩ hs
    by_contra hge
    rw [hp.fresh h (Nat.le_of_not_lt hge)] at hrun
    cases hrun
  · exact .startReturn hs
  · exact .registerCoroReturn (.pop s) hp.fresh hs
  · exact .awaitSuspendTail (.pop s) hs
  · rename_i hst
    cases hs
    exact .acts ((Acts.pop s).trans (.finalReturn (hX _ _ _ hst rfl) (hp.final _ (by simp [hst]))))
  · exact .ioSubmit hs
  · cases hs

theorem step_eventHandler {s s' : State} {r : ReqId} {h : CoroId} {rest : List Activation} {c : Choice}
    (hst : s.stack = .eventHandler r h :: rest) (hs : step s c = .ok s') : s.pop.eventHandlerReturn r h = .ok s' := by
  cases c <;> simp only [step, hst] at hs <;> first | exact hs | cases hs

/-- `event_handler`, after `resume()`, may free a slot and delete its own record, and touches nothing else. -/
theorem eventHandlerReturn_ok {s s' : State} {r : ReqId} {h : CoroId} (hs : s.eventHandlerReturn r h = .ok s') :
    s'.coros = s.coros ∧ s'.nextCoro = s.nextCoro ∧ s'.nextReq = s.nextReq ∧ s'.stack = s.stack ∧
      s'.statuses = s.statuses ∧ s'.ev.managedCoroutinesStore = (if (s.reqs r).data.handle = none ∨ s.isDone h then
        s.ev.managedCoroutinesStore.erase (s.reqs r).data.coroIdx else s.ev.managedCoroutinesStore) ∧
      ((s.reqs r).data.allocatedDynamic = true ∧ (s.reqs r).live = true ∧
          s'.reqs = Function.update s.reqs r { s.reqs r with live := false } ∧ s'.trace = .deleted r :: s.trace ∨
        (s.reqs r).data.allocatedDynamic = false ∧ s'.reqs = s.reqs ∧ s'.trace = s.trace) := by
  unfold eventHandlerReturn at hs
  simp only at hs
  split at hs
  · rename_i hd
    split at hs
    · rename_i hl
      cases hs
      refine ⟨?_, ?_, ?_, ?_, ?_, ?_, .inl ⟨hd, hl, ?_, ?_⟩⟩ <;> split <;> rfl
    · cases hs
  · rename_i hd
    cases hs
    refine ⟨?_, ?_, ?_, ?_, ?_, ?_, .inr ⟨by simpa using hd, ?_, ?_⟩⟩ <;> split <;> rfl

theorem Reachable.placed {s : State} (h : Reachable s) : Placed s := by
  rcases h.sound with hc | ⟨s0, x, r, hc, -, rfl⟩
  · exact hc.placed
  · exact hc.placed.push rfl

/-- Only a coroutine that is suspended can be resumed or destroyed. -/
theorem suspended_of_resume {u s' : State} {h : CoroId} {cause : Option ReqId} (hs : u.resume h cause = .ok s') :
    (u.coros h).place.suspended = true := by
  unfold State.resume at hs
  split at hs <;> first | cases hs; done | simp [*, Place.suspended]

/-- What can happen to a coroutine that does not act: it stays where it is, `resume()` brings it to run, an
exception does, or it is destroyed. -/
inductive Moves (x : CoroId) (s s' : State) : Prop
  | stays : (s.coros x).Stays (s'.coros x) → Moves x s s'
  | resumed {u : State} {cause : Option ReqId} : (s.coros x).Stays (u.coros x) →
      u.resume x cause = .ok s' → Moves x s s'
  | thrown {u : State} {t : TaskRef} : (s.coros x).Stays (u.coros x) → (s.coros x).place.suspended = true →
      .taskAwait t x ∈ s.stack → s' = u.enter x → Moves x s s'
  | destroyed : (s.coros x).place.suspended = true → (s'.coros x).place = .gone → Moves x s s'

theorem Does.moves {s s' : State} {x : CoroId} (hd : Does (fun y => y ≠ x) s s') (hx : x < s.nextCoro) :
    Moves x s s' := by
  have hx' : ¬ (fun y => y ≠ x) x := by simp
  cases hd with
  | acts ha => exact .stays (ha.coros x hx' hx)
  | @wakes u h cause hX ha hr =>
    obtain rfl : h = x := not_not.mp hX
    exact .resumed (ha.coros h hx' hx) hr
  | @throws u h t hX ha hm hsus heq =>
    obtain rfl : h = x := not_not.mp hX
    have hst := ha.coros h hx' hx
    exact .thrown hst (hst.suspended ▸ hsus) hm heq
  | @destroys u v h hX ha hd ha' =>
    obtain rfl : h = x := not_not.mp hX
    have hlt : h < u.nextCoro := hx.trans_le ha.nextCoro
    have hv : u.nextCoro ≤ v.nextCoro := (Acts.destroyCoro (X := fun _ => True) trivial hlt hd).nextCoro
    have hst := ha'.coros h hx' (hlt.trans_le hv)
    unfold destroyCoro at hd
    split at hd
    · rename_i hsus
      cases hd
      have hgone : (((u.destroyLocals h).setPlace h .gone).coros h).place = .gone := by
        simp [State.setPlace, State.modCoro]
      exact .destroyed ((ha.coros h hx' hx).suspended ▸ hsus) ((hst.place_eq (by rw [hgone]; rfl)).trans hgone)
    · cases hd

/-- **What happens to a coroutine that does not act**, where the top of the stack carries on another or none. -/
theorem step_moves {s s' : State} {c : Choice} (hreach : Reachable s) (hs : step s c = .ok s') {x : CoroId}
    (hx : x < s.nextCoro) (htop : ∀ a rest, s.stack = a :: rest → a.subject ≠ some x) : Moves x s s' := by
  by_cases hev : ∃ r h rest, s.stack = .eventHandler r h :: rest
  · obtain ⟨r, h, rest, hst⟩ := hev
    refine .stays ?_
    rw [(eventHandlerReturn_ok (step_eventHandler hst hs)).1]
    exact .refl _
  · have hdoes : Does (fun y => y ≠ x) s s' := by
      refine step_does hs hreach.placed (fun a rest h hst ha heq => htop a rest hst (heq ▸ ha)) fun r h rest hst => ?_
      exact hev ⟨r, h, rest, hst⟩
    exact hdoes.moves hx

/-- It stays where it is, or it was suspended, and runs now or is gone. -/
theorem step_aside {s s' : State} {c : Choice} (hreach : Reachable s) (hs : step s c = .ok s') {x : CoroId}
    (hx : x < s.nextCoro)
    (htop : ∀ a rest, s.stack = a :: rest → a.subject ≠ some x) : (s.coros x).Stays (s'.coros x) ∨
      (s.coros x).place.suspended = true ∧ ((s'.coros x).place = .running ∨ (s'.coros x).place = .gone) := by
  cases step_moves hreach hs hx htop with
  | stays hst => exact .inl hst
  | resumed hst hr =>
    refine .inr ⟨hst.suspended ▸ suspended_of_resume hr, .inl ?_⟩
    exact (hreach.step hs).placed.run x (by simp [stack_resume hr])
  | thrown _ hsus _ heq =>
    refine .inr ⟨hsus, .inl ?_⟩
    simp [heq, State.enter, State.setPlace, State.push, State.modCoro]
  | destroyed hsus hp => exact .inr ⟨hsus, .inr hp⟩

end EvManager
