import EvManager.KillStack
import EvManager.Promises

/-!
# The slots that are freed

A slot of the store is freed where `event_handler` finds that the coroutine it resumed is
done.  **`slots_bounded`**: as long as registered coroutines end there and only there, the slots of those that
have finished are free, and there are never more slots than there were unfinished registered coroutines at some
time before.
-/

namespace EvManager

open Lib State

/-- **Where `handler_done` is set**: in `final_suspend`, after the awaiter was resumed. -/
theorem step_done {s s' : State} {c : Choice} (hreach : Reachable s) (hs : step s c = .ok s') {h : CoroId}
    (hlt : h < s.nextCoro) (hd : s'.finished h = true) :
    s.finished h = true ∨ ∃ rest, s.stack = .finalSuspend h :: rest ∧ s' = s.pop.finalReturn h := by
  by_cases hp : (s.coros h).place = .final
  · refine .inr (step_final hreach hs hp ?_)
    rw [(hreach.step hs).sound.linked.done h hd]
    simp
  · have h1 := (step_tasks hreach.sound hreach.killing hs).done_eq (x := h) hlt hp
    exact .inl (h1.symm.trans hd)

/-- The task that `register_coro` is registering. -/
def Activation.registers : Activation → Option VarId
  | .registerCoro v => some v
  | _ => none

/-- The coroutine that is in `final_suspend`. -/
def Activation.finishes : Activation → Option CoroId
  | .finalSuspend h => some h
  | _ => none

namespace State

/-- `register_coro` goes on with a task that holds a coroutine that has not finished. -/
def RegistersUnfinished (s : State) : Prop :=
  ∀ v ∈ s.stack.head?.bind Activation.registers, ∃ e ∈ s.vars v, ∃ h ∈ e.handle, s.finished h = false

/-- A registered coroutine that finishes was resumed by `event_handler`, for a request that remembers its slot. -/
def FinishesInDispatch (s : State) : Prop :=
  ∀ h ∈ s.stack.head?.bind Activation.finishes, ∀ i < s.ev.managedCoroutinesStore.items.length,
    s.registered i = some h →
    i ∈ s.ev.managedCoroutinesStore.freedIdxs ∨
      ∃ x ∈ s.stack.tail.head?.bind Activation.dispatched, x.2 = h ∧ (s.reqs x.1).data.coroIdx = i

def EndsInDispatch (s : State) (_ : Choice) : Prop := s.RegistersUnfinished ∧ s.FinishesInDispatch

instance (s : State) (c : Choice) : Decidable (s.EndsInDispatch c) := by
  unfold EndsInDispatch RegistersUnfinished FinishesInDispatch
  infer_instance

/-- How many slots hold a coroutine that has not finished. -/
def unfinishedSlots (s : State) : ℕ :=
  (List.range s.ev.managedCoroutinesStore.items.length).countP fun i => (s.registered i).any fun h => !s.finished h

theorem unfinishedSlots_eq {s : State} (hall : ∀ i < s.ev.managedCoroutinesStore.items.length,
    ∃ h, s.registered i = some h ∧ s.finished h = false) :
    s.unfinishedSlots = s.ev.managedCoroutinesStore.items.length := by
  have hcount : ∀ i ∈ List.range s.ev.managedCoroutinesStore.items.length,
      ((s.registered i).any fun h => !s.finished h) = true := by
    intro i hi
    obtain ⟨h, hreg, hd⟩ := hall i (List.mem_range.mp hi)
    rw [hreg, Option.any_some, hd, Bool.not_false]
  rw [unfinishedSlots, List.countP_eq_length.mpr hcount, List.length_range]

/-- Every slot holds a coroutine, and one that has finished is free or is being freed. -/
structure SlotsFreed (s : State) : Prop where
  holds : ∀ i < s.ev.managedCoroutinesStore.items.length, ∃ h, s.registered i = some h
  freed : ∀ i h, s.registered i = some h → s.finished h = true → i ∈ s.ev.managedCoroutinesStore.freedIdxs ∨
    ∃ r rest, s.stack = .eventHandler r h :: rest ∧ (s.reqs r).data.coroIdx = i

namespace SlotsFreed

variable {s s' : State}

theorem same (hf : s.SlotsFreed) (hstore : s'.ev.managedCoroutinesStore = s.ev.managedCoroutinesStore)
    (hdone : ∀ i h, s.registered i = some h → s'.finished h = true → s.finished h = true)
    (htop : ∀ r h rest, s.stack ≠ .eventHandler r h :: rest) : s'.SlotsFreed := by
  have hreg : ∀ i, s'.registered i = s.registered i := fun i => by rw [registered, hstore, registered]
  refine ⟨fun i hi => ?_, fun i h hi hd => ?_⟩
  · rw [hreg]
    exact hf.holds i (hstore ▸ hi)
  · rw [hreg] at hi
    rw [hstore]
    rcases hf.freed i h hi (hdone i h hi hd) with h1 | ⟨r, rest, h1, -⟩
    · exact .inl h1
    · exact absurd h1 (htop r h rest)

/-- `event_handler` frees the slot of the coroutine that it resumed and that has finished. -/
theorem frees (hl : Linked s) {r : ReqId} {h : CoroId} {i : ℕ} (hi : s.registered i = some h)
    (hd : s.finished h = true) (hidx : (s.reqs r).data.coroIdx = i) (hs : s.pop.eventHandlerReturn r h = .ok s') :
    i ∈ s'.ev.managedCoroutinesStore.freedIdxs := by
  obtain ⟨-, -, -, -, -, hstore, -⟩ := eventHandlerReturn_ok hs
  obtain ⟨e, he, hh⟩ := Option.bind_eq_some_iff.mp hi
  -- the promise of the coroutine that was resumed points at its status
  have hptr : (s.pop.coros h).promise.taskStatusPtr = some h := hl.held (.item i) e h he hh
  have hdone : s.pop.isDone h = true := by
    unfold isDone
    rw [hptr]
    exact hd
  rw [hstore, if_pos (.inr hdone)]
  exact (ItemStore.mem_freedIdxs_erase _ _ _).mpr (.inl hidx.symm)

theorem handlerReturn (hf : s.SlotsFreed) (hl : Linked s) {r : ReqId} {h : CoroId} {rest : List Activation}
    (hst : s.stack = .eventHandler r h :: rest) (hs : s.pop.eventHandlerReturn r h = .ok s') : s'.SlotsFreed := by
  obtain ⟨-, -, -, -, hstat, hstore, -⟩ := eventHandlerReturn_ok hs
  have hitems : s'.ev.managedCoroutinesStore.items = s.ev.managedCoroutinesStore.items := by
    rw [hstore]
    split <;> rfl
  have hreg : ∀ i, s'.registered i = s.registered i := fun i => by
    simp only [registered, ItemStore.get?, hitems]
  have hfin : ∀ x, s'.finished x = s.finished x := fun x => by rw [finished, hstat]; rfl
  refine ⟨fun i hi => ?_, fun i x hi hd => .inl ?_⟩
  · rw [hreg]
    exact hf.holds i (hitems ▸ hi)
  · rw [hreg] at hi
    rw [hfin] at hd
    rcases hf.freed i x hi hd with h1 | ⟨r', rest', h1, hidx⟩
    · rw [hstore]
      split
      · exact (ItemStore.mem_freedIdxs_erase _ _ _).mpr (.inr h1)
      · exact h1
    · obtain ⟨⟨rfl, rfl⟩, -⟩ : (r = r' ∧ h = x) ∧ rest = rest' := by simpa [hst] using h1
      exact frees hl hi hd hidx hs

/-- A registered coroutine finishes in a dispatch that frees its slot. -/
theorem finalReturn (hf : s.SlotsFreed) {c : Choice} (hends : s.EndsInDispatch c) {h : CoroId} {rest : List Activation}
    (hst : s.stack = .finalSuspend h :: rest)
    (hdone : ∀ x i, s.registered i = some x → x ≠ h → (s.pop.finalReturn h).finished x = true → s.finished x = true) :
    (s.pop.finalReturn h).SlotsFreed := by
  have hstore : (s.pop.finalReturn h).ev = s.ev := by
    unfold State.finalReturn
    simp only
    split <;> rfl
  have hreg : ∀ i, (s.pop.finalReturn h).registered i = s.registered i :=
    fun i => by rw [registered, hstore, registered]
  have hstack : (s.pop.finalReturn h).stack = rest := by rw [stack_finalReturn, stack_pop, hst, List.tail_cons]
  have hreqs : (s.pop.finalReturn h).reqs = s.reqs := by
    unfold State.finalReturn
    simp only
    split <;> rfl
  refine ⟨fun i hi => ?_, fun i x hi hd => ?_⟩
  · rw [hreg]
    rw [hstore] at hi
    exact hf.holds i hi
  · rw [hreg] at hi
    rw [hstore]
    by_cases hx : x = h
    · subst hx
      obtain ⟨e, he, -⟩ := Option.bind_eq_some_iff.mp hi
      rcases hends.2 x (by rw [hst]; rfl) i (List.getElem?_eq_some_iff.mp he).1 hi with h1 | ⟨⟨r, y⟩, hy, rfl, hidx⟩
      · exact .inl h1
      · rw [hst, List.tail_cons] at hy
        obtain ⟨a, ha, hd⟩ := Option.bind_eq_some_iff.mp hy
        cases a with
        | eventHandler r' y' =>
          obtain ⟨rfl, rfl⟩ : r' = r ∧ y' = y := by simpa [Activation.dispatched] using hd
          refine .inr ⟨r', rest.tail, ?_, by rw [hreqs]; exact hidx⟩
          rw [hstack]
          exact (List.cons_head?_tail ha).symm
        | _ => simp [Activation.dispatched] at hd
    · rcases hf.freed i x hi (hdone x i hi hx hd) with h1 | ⟨r, rest', h1, -⟩
      · exact .inl h1
      · simp [hst] at h1

theorem register (hf : s.SlotsFreed) (hc : Coherent s) {c : Choice} (hends : s.EndsInDispatch c) {v : VarId}
    {rest : List Activation} {idx : ℕ} {grow : Bool} (hst : s.stack = .registerCoro v :: rest)
    (hs : s.pop.registerCoroReturn v idx grow = .ok s') : s'.SlotsFreed ∧
      (s'.ev.managedCoroutinesStore.items.length = s.ev.managedCoroutinesStore.items.length ∨
        s'.unfinishedSlots = s'.ev.managedCoroutinesStore.items.length) := by
  obtain ⟨s1, e, h1, he, hev, -, hstat, -⟩ := registerCoroReturn_ok hs
  have hstore : s1.ev.managedCoroutinesStore = s.ev.managedCoroutinesStore := (Quiet.makeRoom h1).store
  have hroom : s.ev.managedCoroutinesStore.freedIdxs = ∅ ∨ idx < s.ev.managedCoroutinesStore.items.length :=
    (Coherent.makeRoom_ok h1).imp_right And.right
  have hins : s'.ev.managedCoroutinesStore = s.ev.managedCoroutinesStore.insert idx e := by rw [hev, hstore]
  -- what making room in the vector leaves
  obtain ⟨hdone, htask⟩ : (∀ x, s1.finished x = s.finished x) ∧ ∀ t e, s1.task t = some e → s.task t = some e := by
    rcases tasks_makeRoom hc.pop h1 with ⟨-, rfl⟩ | ⟨z, task, -, -, hfew, heq⟩
    · exact ⟨fun _ => rfl, fun _ _ he => he⟩
    · exact ⟨fun x => congrFun (congrArg Tasks.done heq) x, fun t e he =>
        hfew.2 t e ((congrFun (congrArg Tasks.task heq) t).symm.trans he)⟩
  have hfin : ∀ x, s'.finished x = s.finished x := fun x => by rw [finished, hstat, ← hdone x, finished]
  have hother : ∀ i, i ≠ s.ev.managedCoroutinesStore.selectedIdx idx → s'.registered i = s.registered i :=
    fun i hi => by
    rw [registered, hins, ItemStore.get?_insert_of_ne _ _ _ _ hi, registered]
  obtain ⟨x, hx, hnew⟩ : ∃ x, e.handle = some x ∧ s.finished x = false := by
    obtain ⟨e', he', x, hx, hnew⟩ := hends.1 v (by rw [hst]; rfl)
    have he1 : s.vars v = some e := htask (.var v) e he
    obtain rfl : e' = e := Option.some.inj (he'.symm.trans he1)
    exact ⟨x, hx, hnew⟩
  have hself : s'.registered (s.ev.managedCoroutinesStore.selectedIdx idx) = some x := by
    rw [registered, hins, ItemStore.get?_insert_self _ _ _ hroom, Option.bind_some, hx]
  have hholds : ∀ i < s'.ev.managedCoroutinesStore.items.length, ∃ h, s'.registered i = some h := by
    intro i hi
    by_cases hsel : i = s.ev.managedCoroutinesStore.selectedIdx idx
    · exact ⟨x, hsel ▸ hself⟩
    · rw [hother i hsel]
      refine hf.holds i ?_
      rw [hins] at hi
      exact ItemStore.lt_of_lt_insert _ _ _ _ hi hsel
  have hfreed : ∀ i y, s'.registered i = some y → s'.finished y = true →
      i ∈ s'.ev.managedCoroutinesStore.freedIdxs := by
    intro i y hi hd
    rw [hfin] at hd
    by_cases hsel : i = s.ev.managedCoroutinesStore.selectedIdx idx
    · -- the coroutine in the slot that was filled has not finished
      rw [hsel, hself] at hi
      cases hi
      rw [hnew] at hd
      cases hd
    · rw [hother i hsel] at hi
      rcases hf.freed i y hi hd with hfree | ⟨r, rest', h1, -⟩
      · rw [hins]
        exact ItemStore.mem_freedIdxs_insert_of_ne _ _ _ _ hfree hsel
      · simp [hst] at h1
  refine ⟨⟨hholds, fun i y hi hd => .inl (hfreed i y hi hd)⟩, ?_⟩
  rcases s.ev.managedCoroutinesStore.length_insert idx e with hlen | hfree
  · exact .inl (by rw [hins, hlen])
  · refine .inr (unfinishedSlots_eq fun i hi => ?_)
    obtain ⟨y, hy⟩ := hholds i hi
    refine ⟨y, hy, Bool.eq_false_iff.mpr fun hd => ?_⟩
    have hmem := hfreed i y hy hd
    rw [hins, hfree] at hmem
    exact absurd hmem (Finset.notMem_empty i)

/-- **A step** leaves the slots of those that have finished free, and adds a slot only when none is. -/
theorem step (hf : s.SlotsFreed) (hreach : Reachable s) {c : Choice} (hends : s.EndsInDispatch c)
    (hs : State.step s c = .ok s') : s'.SlotsFreed ∧
      (s'.ev.managedCoroutinesStore.items.length = s.ev.managedCoroutinesStore.items.length ∨
        s'.unfinishedSlots = s'.ev.managedCoroutinesStore.items.length) := by
  have hl := hreach.sound.linked
  have hdone : ∀ i x, s.registered i = some x → s'.finished x = true → s.finished x = true ∨
      ∃ rest, s.stack = .finalSuspend x :: rest ∧ s' = s.pop.finalReturn x :=
    fun i x hi hd => step_done hreach hs (registered_lt hl hi) hd
  rcases step_store hs with hstore | ⟨r, h, rest, hst, -, hstore⟩ | ⟨v, rest, idx, grow, -, -, rfl, hst, -, -⟩
  · refine ⟨?_, .inl (by rw [hstore])⟩
    by_cases hfinal : ∃ h rest, s.stack = .finalSuspend h :: rest
    · obtain ⟨h, rest, hst⟩ := hfinal
      obtain rfl : s' = s.pop.finalReturn h := step_finalSuspend hst hs
      refine hf.finalReturn hends hst fun x i hi hx hd => ?_
      rcases hdone i x hi hd with h1 | ⟨rest', h1, -⟩
      · exact h1
      · obtain ⟨rfl, -⟩ : h = x ∧ rest = rest' := by simpa [hst] using h1
        exact absurd rfl hx
    · by_cases hdisp : ∃ r h rest, s.stack = .eventHandler r h :: rest
      · obtain ⟨r, h, rest, hst⟩ := hdisp
        exact hf.handlerReturn hl hst (step_eventHandler hst hs)
      · refine hf.same hstore (fun i x hi hd => ?_) fun r h rest hst => hdisp ⟨r, h, rest, hst⟩
        rcases hdone i x hi hd with h1 | ⟨rest, h1, -⟩
        · exact h1
        · exact absurd ⟨x, rest, h1⟩ hfinal
  · refine ⟨hf.handlerReturn hl hst (step_eventHandler hst hs), .inl ?_⟩
    rw [hstore]
    rfl
  · unfold State.step at hs
    rw [hst] at hs
    exact hf.register (hreach.sound.coherent hst (by simp)) hends hst hs

end SlotsFreed

end State

/-- **The slots are bounded**: in every run in which registered coroutines finish in the dispatch of a request that
remembers their slot, the slot of one that has finished is free or `event_handler` is about to free it, and at some time
before there were as many registered coroutines that had not finished as there are slots. -/
theorem slots_bounded {s₀ s : State} (h0 : Initial s₀) (h : Run State.step EndsInDispatch s₀ s) :
    (∀ i x, s.registered i = some x → s.finished x = true → i ∈ s.ev.managedCoroutinesStore.freedIdxs ∨
      ∃ r rest, s.stack = .eventHandler r x :: rest ∧
        ∀ c s', State.step s c = .ok s' → i ∈ s'.ev.managedCoroutinesStore.freedIdxs) ∧
    ∃ s₁, Run State.step EndsInDispatch s₀ s₁ ∧ Run State.step EndsInDispatch s₁ s ∧
      s.ev.managedCoroutinesStore.items.length ≤ s₁.unfinishedSlots := by
  have hreach : ∀ {s}, Run State.step EndsInDispatch s₀ s → Reachable s :=
    fun h => ⟨s₀, h0, h.mono fun _ _ _ => trivial⟩
  suffices hall : s.SlotsFreed ∧ ∃ s₁, Run State.step EndsInDispatch s₀ s₁ ∧ Run State.step EndsInDispatch s₁ s ∧
      s.ev.managedCoroutinesStore.items.length ≤ s₁.unfinishedSlots by
    refine ⟨fun i x hi hd => (hall.1.freed i x hi hd).imp_right ?_, hall.2⟩
    rintro ⟨r, rest, hst, hidx⟩
    exact ⟨r, rest, hst, fun c s' hs => SlotsFreed.frees (hreach h).sound.linked hi hd hidx (step_eventHandler hst hs)⟩
  induction h with
  | refl =>
    have hitems : s₀.ev.managedCoroutinesStore.items = [] := by cases h0 <;> rfl
    refine ⟨⟨fun i hi => ?_, fun i x hi => ?_⟩, s₀, .refl, .refl, ?_⟩
    · rw [hitems] at hi
      exact absurd hi (Nat.not_lt_zero i)
    · rw [registered, ItemStore.get?, hitems] at hi
      cases hi
    · rw [hitems]
      exact Nat.zero_le _
  | @tail s s' c hr hends hs ih =>
    obtain ⟨hf, s₁, hr₁, hr₂, hle⟩ := ih
    obtain ⟨hf', hlen⟩ := hf.step (hreach hr) hends hs
    refine ⟨hf', ?_⟩
    rcases hlen with hlen | hfull
    · exact ⟨s₁, hr₁, .tail hr₂ hends hs, hlen ▸ hle⟩
    · exact ⟨s', .tail hr hends hs, .refl, hfull.ge⟩

/-- A coroutine that reads once and then returns: its slot was the only one. -/
theorem slots_bounded_once : ∃ s s₁ : State, s.registered 0 = some 1 ∧ s.finished 1 = true ∧
    s.ev.managedCoroutinesStore.items.length = 1 ∧ 0 ∈ s.ev.managedCoroutinesStore.freedIdxs ∧
    Run State.step EndsInDispatch (init 4) s₁ ∧ Run State.step EndsInDispatch s₁ s ∧ 1 ≤ s₁.unfinishedSlots := by
  have he : (exec step EndsInDispatch (init 4)
    [.user .call, .user (.registerCoro 0), .user (.awaitOp (.read {})), .sub 1,
      .tau, .pick 0 false, .user .start, .message 0, .cqe 0 8 0, .user (.coReturn 0), .tau, .tau]).map (fun s =>
      decide (s.registered 0 = some 1 ∧ s.finished 1 = true ∧ s.ev.managedCoroutinesStore.items.length = 1 ∧
        s.stack = [.awaitSeen, .start, .main])) = some true := by decide
  obtain ⟨s, hrun, hs⟩ := Run.exists_of_exec he
  obtain ⟨hreg, hd, hlen, hst⟩ := of_decide_eq_true hs
  obtain ⟨hfree, s₁, hr₁, hr₂, hle⟩ := slots_bounded (.up 4) hrun
  refine ⟨s, s₁, hreg, hd, hlen, ?_, hr₁, hr₂, hlen ▸ hle⟩
  rcases hfree 0 1 hreg hd with h1 | ⟨r, rest, h1, -⟩
  · exact h1
  · rw [hst] at h1
    cases h1

/-- A coroutine that returns inside `register_coro`: nothing frees its slot. -/
theorem slots_bounded_fails : ¬ ∀ s₀ s, Initial s₀ → Run State.step (fun _ _ => True) s₀ s →
    (∀ i x, s.registered i = some x → s.finished x = true → i ∈ s.ev.managedCoroutinesStore.freedIdxs ∨
      ∃ r rest, s.stack = .eventHandler r x :: rest ∧
        ∀ c s', State.step s c = .ok s' → i ∈ s'.ev.managedCoroutinesStore.freedIdxs) ∧
    ∃ s₁, Run State.step (fun _ _ => True) s₀ s₁ ∧ Run State.step (fun _ _ => True) s₁ s ∧
      s.ev.managedCoroutinesStore.items.length ≤ s₁.unfinishedSlots := by
  intro hall
  have he : (exec step (fun _ _ => True) (init 4)
    [.user .call, .user (.registerCoro 0), .user (.coReturn 0), .tau, .tau,
      .pick 0 false]).map (fun s => decide (s.registered 0 = some 1 ∧ s.finished 1 = true ∧
        0 ∉ s.ev.managedCoroutinesStore.freedIdxs ∧ s.stack = [.main])) = some true := by decide
  obtain ⟨s, hrun, hs⟩ := Run.exists_of_exec he
  obtain ⟨hreg, hd, hfree, hst⟩ := of_decide_eq_true hs
  rcases (hall (init 4) s (.up 4) hrun).1 0 1 hreg hd with h1 | ⟨r, rest, h1, -⟩
  · exact hfree h1
  · rw [hst] at h1
    cases h1

end EvManager
