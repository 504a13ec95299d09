import EvManager.Lasting

/-!
# The store of registered coroutines

Which steps change `_managed_coroutines_store`, and **what its freed slots hold**: as long as `event_handler`
frees the slot of the coroutine it resumed, a freed slot holds a coroutine that has finished, and registering a
coroutine overwrites no other.
-/

namespace EvManager

open Lib State

/-! ### Which steps change the store -/

theorem eventHandler_store {s s' : State} {res : ℤ} {x : Option ReqId} {base : Addr}
    (hs : s.eventHandler res x base = .ok s') :
    s'.ev.managedCoroutinesStore = s.ev.managedCoroutinesStore := by
  unfold State.eventHandler at hs
  split at hs
  · cases hs
    rfl
  · simp only at hs
    split at hs
    · split at hs
      · cases hs
        rfl
      · obtain ⟨pack, -, h2⟩ := bind_ok.mp hs
        exact (Quiet.resume h2).store
    · cases hs

theorem insertTask_store (pick : ℕ) (e : EvTask) (s : State) :
    (s.insertTask pick e).ev.managedCoroutinesStore = s.ev.managedCoroutinesStore.insert pick e ∧
      ∀ h, ((s.insertTask pick e).coros h).place = (s.coros h).place := by
  have hmod : ∀ (s : State) (h : CoroId) (f : Promise → Promise) x,
      ((s.modPromise h f).coros x).place = (s.coros x).place := by
    intro s h f x
    by_cases hx : x = h
    · subst hx
      simp [State.modPromise, State.modCoro]
    · simp [State.modPromise, State.modCoro, hx]
  have hrel : ∀ x, ((s.relink e).coros x).place = (s.coros x).place := by
    intro x
    unfold relink
    split
    · exact hmod ..
    · rfl
  unfold insertTask
  simp only
  split
  · exact ⟨rfl, fun x => (hmod _ _ _ x).trans (hrel x)⟩
  · exact ⟨rfl, hrel⟩

/-- Slots are freed after a dispatch and filled by `register_coro`, and change nowhere else. -/
theorem step_store {s s' : State} {c : Choice} (hs : State.step s c = .ok s') :
    s'.ev.managedCoroutinesStore = s.ev.managedCoroutinesStore ∨
    (∃ r h rest, s.stack = .eventHandler r h :: rest ∧ ((s.reqs r).data.handle = none ∨ s.isDone h = true) ∧
      s'.ev.managedCoroutinesStore = s.ev.managedCoroutinesStore.erase (s.reqs r).data.coroIdx) ∨
    ∃ v rest idx grow s1 e, c = .pick idx grow ∧ s.stack = .registerCoro v :: rest ∧
      s.pop.makeRoom idx grow = .ok s1 ∧
      s'.ev.managedCoroutinesStore = s1.ev.managedCoroutinesStore.insert idx e ∧
      ∀ h, (s'.coros h).place = (s1.coros h).place := by
  cases step_loopEffect hs with
  | issue hi => exact .inl hi.store
  | start | leave | dying => exact .inl rfl
  | message hst h1 =>
    unfold State.awaitMessage at h1
    simp only at h1
    split at h1
    · exact .inl ((eventHandler_store h1).trans rfl)
    · cases h1
      exact .inl rfl
  | cqe hst h1 =>
    unfold State.awaitCqe at h1
    split at h1
    · split at h1
      · refine .inl ((eventHandler_store h1).trans ?_)
        split <;> rfl
      · cases h1
    · cases h1
  | seen hst h1 =>
    unfold State.awaitSeen at h1
    split at h1
    · simp only at h1
      split at h1
      · exact .inl (Quiet.resume h1).store
      · cases h1
      · cases h1
        exact .inl rfl
    · cases h1
  | @handlerReturn r h rest _ hst h1 =>
    unfold State.eventHandlerReturn at h1
    simp only at h1
    by_cases hfree : (s.reqs r).data.handle = none ∨ s.isDone h = true
    · refine .inr (.inl ⟨r, h, rest, hst, hfree, ?_⟩)
      have hfree' : (s.pop.reqs r).data.handle = none ∨ s.pop.isDone h = true := hfree
      rw [if_pos hfree'] at h1
      split at h1
      · split at h1 <;> cases h1
        rfl
      · cases h1
        rfl
    · have hfree' : ¬ ((s.pop.reqs r).data.handle = none ∨ s.pop.isDone h = true) := hfree
      rw [if_neg hfree'] at h1
      split at h1
      · split at h1 <;> cases h1
        exact .inl rfl
      · cases h1
        exact .inl rfl
  | dead hst h0 hq => exact .inl (hq.store.trans rfl)
  | poll hst ha hq hq' => exact .inl (hq'.store.trans hq.store)
  | @register v idx grow rest _ hst h1 =>
    unfold State.registerCoroReturn at h1
    obtain ⟨s1, h2, h3⟩ := bind_ok.mp h1
    obtain ⟨e, -, h4⟩ := bind_ok.mp h3
    cases h4
    obtain ⟨hstore, hplace⟩ := insertTask_store idx e s1
    exact .inr (.inr ⟨v, rest, idx, grow, s1, e, rfl, hst, h2, hstore, hplace⟩)

/-! ### The record under dispatch -/

/-- The record `event_handler` resumes a coroutine for keeps a handle while it does. -/
def Dispatched (s : State) : Prop :=
  ∀ r h, Activation.eventHandler r h ∈ s.stack → r < s.nextReq ∧ (s.reqs r).data.handle ≠ none

theorem Dispatched.of_loops {s s' : State} (hd : Dispatched s) (hl : Lasting s s') (hloops : ∀ r h,
    Activation.eventHandler r h ∈ s'.loops → Activation.eventHandler r h ∈ s.loops ∨
      r < s'.nextReq ∧ (s'.reqs r).data.handle ≠ none) : Dispatched s' := by
  intro r h hm
  rcases hloops r h (List.mem_filter.mpr ⟨hm, rfl⟩) with hm' | hnew
  · obtain ⟨hlt, hh⟩ := hd r h (List.mem_filter.mp hm').1
    exact ⟨hlt.trans_le hl.nextReq, hl.handle r hlt hh⟩
  · exact hnew

theorem eventHandler_dispatched {s s' : State} (hfresh : ∀ r, (s.reqs r).live = true → r < s.nextReq) {res : ℤ}
    {x : Option ReqId} {base : Addr}
    (hs : s.eventHandler res x base = .ok s') : ∀ r h, Activation.eventHandler r h ∈ s'.loops →
      Activation.eventHandler r h ∈ s.loops ∨ r < s'.nextReq ∧ (s'.reqs r).data.handle ≠ none := by
  intro r h hm
  have hlast := Lasting.eventHandler hs
  unfold State.eventHandler at hs
  split at hs
  · cases hs
    exact .inl hm
  · rename_i r0
    simp only at hs
    split at hs
    · rename_i hlive
      split at hs
      · cases hs
        exact .inl hm
      · rename_i h0 hh
        obtain ⟨pack, -, h2⟩ := bind_ok.mp hs
        rw [(Quiet.resume h2).loops, State.loops, stack_push, List.filter_cons_of_pos rfl, List.mem_cons] at hm
        rcases hm with hm | hm
        · cases hm
          have hlt := hfresh r hlive
          exact .inr ⟨hlt.trans_le hlast.nextReq, hlast.handle r hlt (by simp [hh])⟩
        · exact .inl hm
    · cases hs

theorem Sound.lt_nextReq {s : State} (hso : Sound s) {r : ReqId} (hl : (s.reqs r).live = true) : r < s.nextReq := by
  rcases hso with hc | ⟨s0, h, r', hc, -, rfl⟩
  · exact hc.records.lt_nextReq hl
  · exact hc.records.lt_nextReq hl

/-- A step takes from the loop's part of the stack, or adds what is under dispatch. -/
theorem Dispatched.step {s s' : State} {c : Choice} (hd : Dispatched s) (hso : Sound s)
    (hs : State.step s c = .ok s') : Dispatched s' := by
  have hl := Lasting.step hs
  have of_eq : s'.loops = s.loops → Dispatched s' := fun he =>
    hd.of_loops hl fun r h hm => .inl (he ▸ hm)
  have of_tail : s'.loops = s.loops.tail → Dispatched s' := fun he =>
    hd.of_loops hl fun r h hm => .inl (List.mem_of_mem_tail (he ▸ hm))
  have hpop : ∀ {a rest}, s.stack = a :: rest → a.ofLoop = true → s.pop.loops = s.loops.tail := by
    intro a rest hst ha
    rw [State.loops, State.loops, stack_pop, hst, List.filter_cons_of_pos ha]
    rfl
  cases step_loopEffect hs with
  | issue hi => exact of_eq hi.loops
  | start =>
    refine hd.of_loops hl fun r h hm => .inl ?_
    rw [State.loops, stack_push, List.filter_cons_of_pos rfl, List.mem_cons] at hm
    exact hm.resolve_left (fun he => by cases he)
  | leave hst => exact of_tail (hpop hst rfl)
  | message hst h1 =>
    refine hd.of_loops hl fun r h hm => ?_
    have hw : Activation.eventHandler r h ∈ (s.push .awaitWait).loops → Activation.eventHandler r h ∈ s.loops := by
      intro hm
      rw [State.loops, stack_push, List.filter_cons_of_pos rfl, List.mem_cons] at hm
      exact hm.resolve_left (fun he => by cases he)
    unfold State.awaitMessage at h1
    simp only at h1
    split at h1
    · rename_i res r0 ready p _ _
      refine (eventHandler_dispatched ?_ h1 r h hm).imp_left hw
      intro x hx
      by_cases hxr : x = r0
      · subst hxr
        exact hso.lt_nextReq (r := x) (by simpa [State.modReq, State.modEv, State.push] using hx)
      · exact hso.lt_nextReq (r := x) (by simpa [State.modReq, State.modEv, State.push, hxr] using hx)
    · cases h1
      exact .inl (hw hm)
  | cqe hst h1 =>
    refine hd.of_loops hl fun r h hm => ?_
    have hw : Activation.eventHandler r h ∈ (s.pop.push .awaitSeen).loops → Activation.eventHandler r h ∈ s.loops := by
      intro hm
      rw [State.loops, stack_push, List.filter_cons_of_pos rfl, List.mem_cons] at hm
      have hm' : Activation.eventHandler r h ∈ s.pop.loops := hm.resolve_left (fun he => by cases he)
      rw [hpop hst rfl] at hm'
      exact List.mem_of_mem_tail hm'
    unfold State.awaitCqe at h1
    split at h1
    · split at h1
      · refine (eventHandler_dispatched (fun x hx => ?_) h1 r h hm).imp_left fun hm => hw ?_
        · split at hx <;> exact hso.lt_nextReq hx
        · split at hm <;> exact hm
      · cases h1
    · cases h1
  | seen hst h1 =>
    unfold State.awaitSeen at h1
    split at h1
    · simp only at h1
      split at h1
      · exact of_tail ((Quiet.resume h1).loops.trans (hpop hst rfl))
      · cases h1
      · cases h1
        exact of_tail (hpop hst rfl)
    · cases h1
  | handlerReturn hst h1 =>
    refine of_tail (Eq.trans ?_ (hpop hst rfl))
    unfold State.eventHandlerReturn at h1
    simp only at h1
    split at h1
    · split at h1
      · cases h1
        split <;> rfl
      · cases h1
    · cases h1
      split <;> rfl
  | dying => exact of_eq rfl
  | dead hst h0 hq => exact of_eq (hq.loops.trans rfl)
  | poll hst ha hq hq' => exact of_eq (hq'.loops.trans hq.loops)
  | register hst h1 =>
    have hq : s.pop.loops = s.loops := (Quiet.pop hst rfl).loops
    unfold State.registerCoroReturn at h1
    obtain ⟨s1, h2, h3⟩ := bind_ok.mp h1
    obtain ⟨e, -, h4⟩ := bind_ok.mp h3
    cases h4
    refine of_eq (Eq.trans ?_ (((Quiet.makeRoom h2).trans (.relink e s1)).loops.trans hq))
    unfold insertTask
    simp only
    split <;> rfl

theorem Reachable.dispatched {s : State} (h : Reachable s) : Dispatched s :=
  h.inv_of (J := Sound) (fun _ hr => Reachable.sound hr) (fun s hi r h hm => by simp [hi.stack] at hm)
    fun _ _ _ hso hd _ hs => hd.step hso hs

/-! ### What the freed slots hold -/

/-- The request a dispatch is about and the coroutine it has resumed. -/
def Activation.dispatched : Activation → Option (ReqId × CoroId)
  | .eventHandler r h => some (r, h)
  | _ => none

namespace State

/-- The coroutine registered in the slot `i`. -/
def registered (s : State) (i : ℕ) : Option CoroId := (s.ev.managedCoroutinesStore.get? i).bind EvTask.handle

/-- The coroutine has finished: `final_suspend` has set `handler_done`. -/
def finished (s : State) (h : CoroId) : Bool := (s.statuses h).handlerDone

/-- Every freed slot holds a coroutine that has finished. -/
def FreedFinished (s : State) : Prop :=
  ∀ i ∈ s.ev.managedCoroutinesStore.freedIdxs, ∃ h, s.registered i = some h ∧ s.finished h = true

/-- When `event_handler` is about to free the slot that the request remembers, because the coroutine it
resumed has finished, that is the slot of this coroutine. -/
def FreesOwnSlot (s : State) (_ : Choice) : Prop :=
  ∀ x ∈ s.stack.head?.bind Activation.dispatched, s.isDone x.2 = true →
    s.registered (s.reqs x.1).data.coroIdx = some x.2

instance (s : State) (c : Choice) : Decidable (s.FreesOwnSlot c) := by unfold FreesOwnSlot; infer_instance

theorem registered_lt {s : State} (hl : Linked s) {i : ℕ} {h : CoroId} (hi : s.registered i = some h) :
    h < s.nextCoro := by
  obtain ⟨e, he, hh⟩ := Option.bind_eq_some_iff.mp hi
  exact hl.bound (.item i) e h he hh

theorem finished_of_isDone {s : State} (hl : Linked s) {h : CoroId} (hd : s.isDone h = true) :
    s.finished h = true := by
  unfold isDone at hd
  split at hd
  · rename_i st hst
    rwa [hl.prom h st hst] at hd
  · cases hd

namespace FreedFinished

variable {s s' : State}

theorem of_store (hf : s.FreedFinished) (hl : Linked s) (hst : Steady s s')
    (hstore : s'.ev.managedCoroutinesStore = s.ev.managedCoroutinesStore) : s'.FreedFinished := by
  intro i hi
  rw [hstore] at hi
  obtain ⟨h, hr, hd⟩ := hf i hi
  refine ⟨h, ?_, hst.done_of (registered_lt hl hr) hd⟩
  rw [registered, hstore]
  exact hr

/-- **What registering a coroutine overwrites**: nothing, and it moves what is in the store as it is. -/
theorem makeRoom (hf : s.FreedFinished) (hl : Linked s) (pick : ℕ) (grow : Bool) :
    s.makeRoom pick grow = .ok s ∨ s.makeRoom pick grow = .error .disabled := by
  have hmoved : ∀ es : List EvTask, (∀ e ∈ es, e ∈ s.ev.managedCoroutinesStore.items) →
      es.foldl (fun s e => s.relink e) s = s := by
    intro es hes
    refine hl.relinks_eq fun e he => ?_
    obtain ⟨i, hi⟩ := List.mem_iff_getElem?.mp (hes e he)
    exact ⟨.item i, hi⟩
  unfold State.makeRoom
  simp only
  split
  · left
    split
    · rw [hmoved _ fun _ he => he]
    · rfl
  · split
    · rename_i hm
      obtain ⟨h, hr, hd⟩ := hf pick hm
      obtain ⟨e, he, hh⟩ := Option.bind_eq_some_iff.mp hr
      have hptr : e.taskStatusPtr = some h := (hl.paired (.item pick) e he).trans hh
      left
      rw [he]
      have hd' : (s.statuses h).handlerDone = true := hd
      simp only [need, bind, Except.bind, overwriteTask, hh, hptr, hd', if_true]
    · exact .inr rfl

theorem step (hf : s.FreedFinished) (hso : Sound s) (hdisp : Dispatched s) {c : Choice} (hown : s.FreesOwnSlot c)
    (hs : State.step s c = .ok s') : s'.FreedFinished := by
  have hl := hso.linked
  have hst := Steady.step hs
  rcases step_store hs with hstore | ⟨r, h, rest, hstack, hfree, hstore⟩ |
      ⟨v, rest, idx, grow, s1, e, rfl, hstack, h1, hstore, -⟩
  · exact hf.of_store hl hst hstore
  · -- the slot that is freed is that of the coroutine that has finished
    have hh : (s.reqs r).data.handle ≠ none := (hdisp r h (by rw [hstack]; simp)).2
    have hd : s.isDone h = true := hfree.resolve_left hh
    have hreg : s.registered (s.reqs r).data.coroIdx = some h := hown (r, h) (by rw [hstack]; rfl) hd
    intro i hi
    rw [hstore, ItemStore.mem_freedIdxs_erase] at hi
    have hsame : s'.registered i = s.registered i := by rw [registered, hstore]; rfl
    rw [hsame]
    rcases hi with rfl | hi
    · exact ⟨h, hreg, hst.done_of (registered_lt hl hreg) (finished_of_isDone hl hd)⟩
    · obtain ⟨x, hx, hxd⟩ := hf i hi
      exact ⟨x, hx, hst.done_of (registered_lt hl hx) hxd⟩
  · -- the slot that is filled is no longer free
    have hf1 : s.pop.FreedFinished := hf
    rcases hf1.makeRoom (hl.pop) idx grow with h2 | h2
    · rw [h2] at h1
      cases h1
      intro i hi
      rw [hstore] at hi
      obtain ⟨hi, hne⟩ := s.pop.ev.managedCoroutinesStore.mem_freedIdxs_insert idx i e hi
      obtain ⟨x, hx, hxd⟩ := hf i hi
      refine ⟨x, ?_, hst.done_of (registered_lt hl hx) hxd⟩
      rw [registered, hstore, s.pop.ev.managedCoroutinesStore.get?_insert_of_ne idx i e hne]
      exact hx
    · rw [h2] at h1
      cases h1

/-- **Registering leaves what has not finished** in its slot and where it was. -/
theorem register (hf : s.FreedFinished) (hl : Linked s) {v : VarId} {rest : List Activation} {idx : ℕ} {grow : Bool}
    (hst : s.stack = .registerCoro v :: rest) (hs : State.step s (.pick idx grow) = .ok s') {i : ℕ} {h : CoroId}
    (hi : s.registered i = some h) (hd : s.finished h = false) :
    s'.registered i = some h ∧ (s'.coros h).place = (s.coros h).place := by
  unfold State.step at hs
  rw [hst] at hs
  obtain ⟨s1, h1, h2⟩ := bind_ok.mp hs
  obtain ⟨e, -, h3⟩ := bind_ok.mp h2
  cases h3
  have hf1 : s.pop.FreedFinished := hf
  rcases hf1.makeRoom hl.pop idx grow with h4 | h4
  · rw [h4] at h1
    cases h1
    obtain ⟨hstore, hplace⟩ := insertTask_store idx e s.pop
    refine ⟨?_, hplace h⟩
    have hne : i ≠ s.pop.ev.managedCoroutinesStore.selectedIdx idx := by
      rintro rfl
      obtain ⟨e', he', hh'⟩ := Option.bind_eq_some_iff.mp hi
      rcases Coherent.makeRoom_ok h4 with hempty | ⟨hfree, -⟩
      · rw [ItemStore.selectedIdx, if_pos hempty] at he'
        exact absurd (List.getElem?_eq_some_iff.mp he').1 (lt_irrefl _)
      · have hne : s.pop.ev.managedCoroutinesStore.freedIdxs ≠ ∅ := Finset.ne_empty_of_mem hfree
        rw [ItemStore.selectedIdx, if_neg hne] at hi
        obtain ⟨x, hx, hxd⟩ := hf idx hfree
        rw [hi] at hx
        cases hx
        rw [hd] at hxd
        cases hxd
    have hget := s.pop.ev.managedCoroutinesStore.get?_insert_of_ne idx i e hne
    simp only [registered, hstore, hget]
    exact hi
  · rw [h4] at h1
    cases h1

end FreedFinished

end State

/-- **What `register_coro` finds and leaves**, in every run in which `event_handler` frees only the slot of the
coroutine it resumed: the freed slots hold coroutines that have finished; making room in the vector changes
nothing, destroys nothing and stays within the vector; and every coroutine that has not finished keeps its slot. -/
theorem freed_finished {s : State} (h : Reach State.FreesOwnSlot s) :
    s.FreedFinished ∧ ∀ v rest idx grow, s.stack = .registerCoro v :: rest →
      (s.pop.makeRoom idx grow = .ok s.pop ∨ s.pop.makeRoom idx grow = .error .disabled) ∧
      ∀ s', State.step s (.pick idx grow) = .ok s' → ∀ i h, s.registered i = some h → s.finished h = false →
        s'.registered i = some h ∧ (s'.coros h).place = (s.coros h).place := by
  have hf : s.FreedFinished := by
    refine h.inv_of (J := fun s => Sound s ∧ Dispatched s) (fun s hr => ?_) (fun s hi i hm => ?_)
      fun s c s' hj hf hown hs => hf.step hj.1 hj.2 hown hs
    · exact ⟨hr.reachable.sound, hr.reachable.dispatched⟩
    · cases hi <;> simp [State.init, initFailed, blank] at hm
  have hl := h.reachable.sound.linked
  have hf1 : s.pop.FreedFinished := hf
  exact ⟨hf, fun v rest idx grow hst =>
    ⟨hf1.makeRoom hl.pop idx grow, fun s' hs i h hi hd => hf.register hl hst hs hi hd⟩⟩

/-- A coroutine that reads once and then returns frees its slot. -/
theorem freed_finished_once : ∃ s : State, 0 ∈ s.ev.managedCoroutinesStore.freedIdxs ∧ s.FreedFinished := by
  have he : (exec step FreesOwnSlot (init 4) [.user .call, .user (.registerCoro 0), .user (.awaitOp (.read {})), .sub 1,
      .tau, .pick 0 false, .user .start, .message 0, .cqe 0 8 0, .user (.coReturn 0), .tau, .tau]).map (fun s =>
      decide (0 ∈ s.ev.managedCoroutinesStore.freedIdxs)) = some true := by decide
  obtain ⟨s, hreach, hs⟩ := Reach.of_exec (.up 4) he
  exact ⟨s, of_decide_eq_true hs, (freed_finished hreach).1⟩

/-- The second of two coroutines awaits its first request before it has its slot, and then returns: the request
remembers the slot of the first one, which is still waiting. -/
theorem freed_finished_fails : ¬ ∀ s, Reachable s → s.FreedFinished := by
  intro hall
  have he : (exec step (fun _ _ => True) (init 4) [.user .call, .user (.registerCoro 0), .user (.awaitOp (.read {})),
      .sub 1, .tau, .pick 0 false, .user .call, .user (.registerCoro 1), .user (.awaitOp (.read {})), .sub 1, .tau,
      .pick 0 false, .user .start, .message 0, .cqe 1 8 0, .user (.coReturn 0), .tau, .tau]).map (fun s =>
      decide (0 ∈ s.ev.managedCoroutinesStore.freedIdxs ∧ s.registered 0 = some 1 ∧ s.finished 1 = false)) =
      some true := by decide
  obtain ⟨s, hreach, hs⟩ := Reach.of_exec (.up 4) he
  obtain ⟨hfree, hreg, hd⟩ := of_decide_eq_true hs
  obtain ⟨h, hh, hhd⟩ := hall s hreach 0 hfree
  rw [hreg] at hh
  cases hh
  rw [hd] at hhd
  cases hhd

end EvManager
