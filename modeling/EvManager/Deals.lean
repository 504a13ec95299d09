import EvManager.Lives

/-!
# Dispatches

Every step keeps the dispatches there are, begins one or ends one (**`step_deals`**).  From it: a record of the
heap is there from the time its request is accepted up to the end of the first dispatch to it
(**`Reachable.dealt`**), and a handle in a record is that of the coroutine it belongs to
(**`Reachable.handles`**).
-/

namespace EvManager

open Lib State

/-! ### Dispatches -/

namespace State

variable {s s' : State}

/-- The dispatch of `r` to `h` was logged, and `h` has taken the response: of an awaitable only the dead record is
left. -/
structure Serving (s : State) (r : ReqId) (h : CoroId) : Prop where
  lt : r < s.nextReq
  logged : ∃ res d, Event.resumed r h res d ∈ s.trace
  awaitable : ∀ a, (s.reqs r).home = .awaitable a → a = some h ∧ (s.reqs r).live = false
  vector : ∀ x, (s.reqs r).home = .vector x → x = h

/-- Between `s` and `s'` nothing is dispatched and no dispatch comes to its end. -/
structure Undealt (s s' : State) : Prop where
  loops : ∀ r h, .eventHandler r h ∈ s'.loops ↔ .eventHandler r h ∈ s.loops
  resumed : ∀ r h res d, .resumed r h res d ∈ s'.trace ↔ .resumed r h res d ∈ s.trace

namespace Undealt

theorem of_eq (hl : s'.loops = s.loops) (ht : s'.trace = s.trace) : Undealt s s' :=
  ⟨fun _ _ => by rw [hl], fun _ _ _ _ => by rw [ht]⟩

theorem trans {s'' : State} (h : Undealt s s') (h' : Undealt s' s'') : Undealt s s'' :=
  ⟨fun r x => (h'.loops r x).trans (h.loops r x), fun r x res d => (h'.resumed r x res d).trans (h.resumed r x res d)⟩

theorem of_quiet (h : Quiet s s') : Undealt s s' := by
  refine ⟨fun _ _ => by rw [h.loops], fun r x res d => ?_⟩
  obtain ⟨es, ht, hes⟩ := h.trace
  rw [ht, List.mem_append]
  refine ⟨fun hm => hm.resolve_left fun hm => ?_, .inr⟩
  cases hes _ hm

theorem push {a : Activation} (ha : ∀ r h, a ≠ .eventHandler r h) (s : State) : Undealt s (s.push a) := by
  refine ⟨fun r h => ?_, fun _ _ _ _ => .rfl⟩
  have hne : Activation.eventHandler r h ≠ a := fun he => ha r h he.symm
  simp [State.loops, State.push, List.mem_filter, hne]

theorem pop {a : Activation} {rest : List Activation} (hst : s.stack = a :: rest) (ha : ∀ r h, a ≠ .eventHandler r h) :
    Undealt s s.pop := by
  refine ⟨fun r h => ?_, fun _ _ _ _ => .rfl⟩
  have hne : Activation.eventHandler r h ≠ a := fun he => ha r h he.symm
  simp [State.loops, State.pop, hst, List.mem_filter, hne]

theorem log {e : Event} (he : ∀ r h res d, e ≠ .resumed r h res d) (s : State) : Undealt s (s.log e) := by
  refine ⟨fun _ _ => .rfl, fun r h res d => ?_⟩
  have hne : Event.resumed r h res d ≠ e := fun h1 => he r h res d h1.symm
  simp [State.log, hne]

theorem getUringSqe {p : Purpose} {x : Option ℕ} (hs : s.getUringSqe p = .ok (x, s')) : Undealt s s' := by
  rcases getUringSqe_ok hs with ⟨-, -, rfl⟩ | ⟨j, ring, -, -, -, -, rfl⟩ <;> exact of_eq rfl rfl

theorem submit {ret : ℤ} (hs : s.submitQueuedEntries ret = .ok s') : Undealt s s' := by
  obtain ⟨-, -, -, rfl⟩ := submitQueuedEntries_ok hs
  exact of_eq rfl rfl

theorem ioOp {ctx : Option CoroId} {p : ParameterPack} {r : ReqId} (hs : s.ioOp ctx p = .ok (r, s')) :
    Undealt s s' := by
  obtain ⟨-, -, sqe, s1, h1, rfl⟩ := ioOp_ok hs
  refine (getUringSqe h1).trans ?_
  cases ctx <;> exact of_eq rfl rfl

theorem awaitIo {h : CoroId} {r : ReqId} {rest : List Activation} (hst : s.stack = .run h :: rest)
    (hs : s.awaitIo h r = .ok s') : Undealt s s' := by
  rcases awaitIo_ok hs with ⟨-, ⟨-, rfl⟩ | ⟨j, -, -, -, rfl⟩⟩
  · exact of_quiet (.ioReturn ..)
  · refine trans ?_ (push (by simp) _)
    refine trans ?_ (of_quiet (.suspend (by simp) (by exact hst)))
    exact of_eq rfl rfl

theorem na {p : ParameterPack} {ret : ℤ} {e : Errnos} (hs : s.naOp p ret = .ok (e, s')) : Undealt s s' := by
  rcases naOp_ok hs with ⟨-, -, rfl⟩ | ⟨-, j, ring, s2, -, h2, ⟨-, -, rfl⟩ | ⟨-, -, rfl⟩⟩
  · exact of_eq rfl rfl
  all_goals
    have h0 : Undealt s (s.setRing ring) := of_eq rfl rfl
    have h1 := h0.trans (submit h2)
    exact ⟨h1.loops, fun r h res d => by simpa using h1.resumed r h res d⟩

theorem processRequests {h : CoroId} {l : List (ParameterPack × ReqId)} :
    ∀ {s s' : State}, s.processRequests h l = .ok s' → Undealt s s' := by
  induction l with
  | nil =>
    intro s s' hs
    cases hs
    exact of_eq rfl rfl
  | cons x l ih =>
    intro s s' hs
    obtain ⟨req, r⟩ := x
    obtain ⟨⟨b, s1⟩, h1, h2⟩ := bind_ok.mp hs
    refine trans ?_ (ih h2)
    rcases processSingleGenericRequest_ok h1 with ⟨-, -, rfl⟩ | ⟨-, -, -, j, ring, -, rfl⟩ <;> exact of_eq rfl rfl

theorem batch {h : CoroId} {rest : List Activation} {q : RequestQueue} {ret : ℤ} (hst : s.stack = .run h :: rest)
    (hs : s.submitAndWaitBegin h q ret = .ok s') : Undealt s s' := by
  unfold State.submitAndWaitBegin at hs
  obtain ⟨s2, h2, h3⟩ := bind_ok.mp hs
  refine (submit h2).trans ?_
  split at h3
  · exact of_quiet (.finish (by rw [(submitQueuedEntries_stack h2).1, hst]) h3)
  · obtain ⟨s3, h4, h5⟩ := bind_ok.mp h3
    cases h5
    have h6 : Undealt s2 (s2.newVector h q.length).2 := of_eq rfl rfl
    exact (h6.trans (processRequests h4)).trans (of_eq rfl rfl)

theorem awaitSeen {rest : List Activation} (hst : s.stack = .awaitSeen :: rest) (hs : s.awaitSeen = .ok s') :
    Undealt s s' := by
  refine (pop hst (by simp)).trans ?_
  unfold State.awaitSeen at hs
  split at hs
  · simp only at hs
    split at hs
    · have h1 := of_quiet (.resume hs)
      exact ⟨h1.loops, h1.resumed⟩
    · cases hs
    · cases hs
      exact of_eq rfl rfl
  · cases hs

theorem registerCoroReturn {v : VarId} {idx : ℕ} {grow : Bool} (hs : s.registerCoroReturn v idx grow = .ok s') :
    Undealt s s' := by
  unfold State.registerCoroReturn at hs
  obtain ⟨s1, h1, hs⟩ := bind_ok.mp hs
  obtain ⟨e, -, hs⟩ := bind_ok.mp hs
  obtain ⟨coros, heq, -⟩ := insertTask_eq idx e s1
  rw [heq] at hs
  cases hs
  exact (of_quiet (.makeRoom h1)).trans (of_eq rfl rfl)

end Undealt

/-- What a step does to the dispatches under way and to those there have been. -/
inductive Deals (s s' : State) : Prop
  | keeps : Undealt s s' → Deals s s'
  | resumes {r : ReqId} {h : CoroId} {res : ℤ} {d : ResponsePack} : (s.reqs r).live = true → s'.Serving r h →
      (∀ x y, .eventHandler x y ∈ s'.loops ↔ (x = r ∧ y = h) ∨ .eventHandler x y ∈ s.loops) →
      (∀ x y res' d', .resumed x y res' d' ∈ s'.trace ↔ (x = r ∧ y = h ∧ res' = res ∧ d' = d) ∨
        .resumed x y res' d' ∈ s.trace) →
      Deals s s'
  | returns {r : ReqId} {h : CoroId} {rest : List Activation} : s.stack = .eventHandler r h :: rest →
      s'.loops = s.loops.tail →
      (∀ r h res d, .resumed r h res d ∈ s'.trace ↔ .resumed r h res d ∈ s.trace) → Deals s s'

/-- The record is dead once its `co_await` has returned. -/
theorem live_of_resume {r : ReqId} {h : CoroId} {cause : Option ReqId} (hp : (s.coros h).place = .atIo r)
    (hs : s.resume h cause = .ok s') : (s'.reqs r).live = false := by
  unfold State.resume at hs
  rw [hp] at hs
  cases hs
  simp [State.ioReturn, State.log, State.modReq]

namespace Deals

theorem of_undealt {u : State} (h : Deals u s') (h0 : Undealt s u) (hl : ∀ r, (u.reqs r).live = (s.reqs r).live)
    (hu : ∀ r h rest, u.stack ≠ .eventHandler r h :: rest) : Deals s s' := by
  cases h with
  | keeps h1 => exact .keeps (h0.trans h1)
  | resumes hlive hserv hloops hres =>
    exact .resumes (hl _ ▸ hlive) hserv (fun x y => by rw [hloops, h0.loops]) fun x y r d => by rw [hres, h0.resumed]
  | returns hst => exact absurd hst (hu _ _ _)

/-- Whoever is resumed for a request takes the response: it is at the `co_await` of the record, or waits in its
batch or in `poll`. -/
theorem eventHandler (hr : Records s) {res : ℤ} {x : Option ReqId} {base : Addr}
    (hs : s.eventHandler res x base = .ok s') :
    Deals s s' := by
  unfold State.eventHandler at hs
  split at hs
  · cases hs
    exact .keeps (.of_eq rfl rfl)
  · rename_i r
    simp only at hs
    split at hs
    · rename_i hlive
      split at hs
      · cases hs
        exact .keeps (.of_eq rfl rfl)
      · rename_i h hh
        obtain ⟨pack, -, hs⟩ := bind_ok.mp hs
        have hserves := hr.serves r h hlive hh
        have hq := Quiet.resume hs
        have hres := (Undealt.of_quiet hq).resumed
        have hhome : (s'.reqs r).home = (s.reqs r).home := hq.home r
        have hnew : Event.resumed r h res pack ∈ s'.trace := (hres ..).mpr List.mem_cons_self
        refine @Deals.resumes s s' r h res pack hlive ⟨?_, ⟨res, pack, hnew⟩, fun a ha => ?_, fun a ha => ?_⟩
          (fun a b => ?_) fun a b res' d' => ?_
        · exact hq.nextReq ▸ hr.lt_nextReq hlive
        · rw [hhome] at ha
          unfold State.Serves at hserves
          rw [ha] at hserves
          exact ⟨hserves.1, live_of_resume
            (by simpa [State.push, State.log, State.modPromise, State.modCoro] using hserves.2) hs⟩
        · rw [hhome] at ha
          unfold State.Serves at hserves
          rw [ha] at hserves
          exact hserves.1
        · rw [hq.loops]
          simp [State.loops, State.push, List.mem_filter, State.log, State.modPromise, State.modCoro, Activation.ofLoop]
        · rw [hres]
          simp [State.push, State.log, State.modPromise, State.modCoro]
    · cases hs

theorem awaitMessage (hc : Coherent s) {base : Addr} (hs : s.awaitMessage base = .ok s') : Deals s s' := by
  have h0 : Undealt s (s.push .awaitWait) := .push (by simp) s
  unfold State.awaitMessage at hs
  simp only at hs
  split at hs
  · rename_i res r ready p hready hpoll
    have h1 := eventHandler (hc.parked hready hpoll).records hs
    refine of_undealt h1 ⟨h0.loops, h0.resumed⟩ (fun x => ?_) ?_
    · by_cases hx : x = r <;> simp [State.modReq, State.modEv, State.push, hx]
    · simp [State.modReq, State.modEv, State.push]
  · cases hs
    exact .keeps h0

theorem awaitCqe (hc : Coherent s) {rest : List Activation} (hst : s.stack = .awaitWait :: rest) {i : ℕ} {res : ℤ}
    {base : Addr} (hs : s.awaitCqe i res base = .ok s') : Deals s s' := by
  have h0 : Undealt s ((s.pop.push .awaitSeen).setRing (s.ev.ring.reap i)) :=
    ((Undealt.pop hst (by simp)).trans (.push (by simp) _)).trans (.of_eq rfl rfl)
  have hrec := (hc.reaped i).records
  unfold State.awaitCqe at hs
  split at hs
  · split at hs
    · simp only at hs
      split at hs
      · have h1 := eventHandler (hrec.log _) hs
        exact of_undealt h1 (h0.trans (.log (by simp) _)) (fun _ => rfl)
          (by simp [State.log, State.setRing, State.modEv, State.push])
      · exact of_undealt (eventHandler hrec hs) h0 (fun _ => rfl) (by simp [State.setRing, State.modEv, State.push])
    · cases hs
  · cases hs

end Deals

/-- **Every step** keeps the dispatches there are, begins one or ends one. -/
theorem step_deals {c : Choice} (hreach : Reachable s) (hs : State.step s c = .ok s') : Deals s s' := by
  have hcoh : ∀ {a rest}, s.stack = a :: rest → (∀ x r, a ≠ .ioSubmit x r) → Coherent s :=
    fun hst ha => hreach.sound.coherent hst ha
  cases step_effect hs with
  | quiet hq => exact .keeps (.of_quiet hq)
  | io h1 => exact .keeps (.ioOp h1)
  | awaitIo hst h1 => exact .keeps (.awaitIo hst h1)
  | awaitOp hst h1 h2 => exact .keeps ((Undealt.ioOp h1).trans (.awaitIo ((ioOp_stack h1).trans hst) h2))
  | na h1 => exact .keeps (.na h1)
  | submit _ _ hq h1 hq' => exact .keeps (((Undealt.of_quiet hq).trans (.submit h1)).trans (.of_quiet hq'))
  | rawSqe h1 => exact .keeps (.getUringSqe h1)
  | start =>
    have h1 : Undealt s (s.push .start) := .push (by simp) s
    exact .keeps ⟨h1.loops, h1.resumed⟩
  | leave hst => exact .keeps (.pop hst (by simp))
  | message hst h1 => exact .awaitMessage (hcoh hst (by simp)) h1
  | cqe hst h1 => exact .awaitCqe (hcoh hst (by simp)) hst h1
  | seen hst h1 => exact .keeps (.awaitSeen hst h1)
  | handlerReturn hst h1 =>
    obtain ⟨-, -, -, hstack, -, -, hcase⟩ := eventHandlerReturn_ok h1
    refine .returns hst ?_ fun r h res d => ?_
    · rw [State.loops, hstack, stack_pop, hst, State.loops, hst, List.filter_cons_of_pos rfl]
      rfl
    · rcases hcase with ⟨-, -, -, ht⟩ | ⟨-, -, ht⟩ <;> rw [ht] <;> simp [State.pop]
  | dying => exact .keeps (.of_eq rfl rfl)
  | cancel _ _ h1 =>
    obtain ⟨ring, -, -, rfl⟩ := ioUringGetSqe_some h1
    exact .keeps (.of_eq rfl rfl)
  | dead hst _ _ h1 =>
    have h2 := Undealt.of_quiet (.finish (by exact hst) h1)
    exact .keeps ⟨h2.loops, h2.resumed⟩
  | batch hst _ _ h1 => exact .keeps (.batch hst h1)
  | poll hst _ hst1 _ hq =>
    have h1 : Undealt s s.pop := .pop hst (by simp)
    refine .keeps ((Undealt.of_quiet hq).trans ⟨fun r x => ?_, fun _ _ _ _ => .rfl⟩)
    simpa [State.loops, State.pollWait, State.suspend, State.pop, State.setPlace, State.setBody,
      State.modCoro, State.modEv,
      hst1] using h1.loops r x
  | register hst h1 => exact .keeps ((Undealt.pop hst (by simp)).trans (.registerCoroReturn h1))

/-! ### Which records are there while they are dispatched -/

namespace Serving

variable {r : ReqId} {h : CoroId}

theorem mono (hv : s.Serving r h) (hl : Lasting s s')
    (ht : ∀ res d, .resumed r h res d ∈ s.trace → .resumed r h res d ∈ s'.trace) :
    s'.Serving r h := by
  obtain ⟨res, d, hm⟩ := hv.logged
  refine ⟨hv.lt.trans_le hl.nextReq, ⟨res, d, ht res d hm⟩, fun a ha => ?_, fun x hx => ?_⟩
  · obtain ⟨h1, h2⟩ := hv.awaitable a ((hl.home r hv.lt).symm.trans ha)
    refine ⟨h1, ?_⟩
    by_contra hne
    rw [hl.live r hv.lt (by simpa using hne)] at h2
    cases h2
  · exact hv.vector x ((hl.home r hv.lt).symm.trans hx)

end Serving

/-- A record of the heap is there from the time its request is accepted up to the end of the first dispatch to it. -/
structure Dealt (s : State) : Prop where
  serving : ∀ r h, .eventHandler r h ∈ s.loops → s.Serving r h
  dynamic : ∀ r, r < s.nextReq → (s.reqs r).home = .heap → (s.reqs r).data.allocatedDynamic = true
  taken : ∀ r h, .eventHandler r h ∈ s.loops → (s.reqs r).home = .heap → .accepted r ∈ s.trace
  heap : ∀ r, r < s.nextReq → (s.reqs r).home = .heap → ((s.reqs r).live = true ↔ .accepted r ∈ s.trace ∧
    ∀ h res d, .resumed r h res d ∈ s.trace → ∃ x, .eventHandler r x ∈ s.loops)
  fresh : ∀ r, s.nextReq ≤ r → .accepted r ∉ s.trace ∧ ∀ h res d, .resumed r h res d ∉ s.trace

namespace Dealt

theorem init (hi : State.Initial s) : Dealt s := by
  have hn : s.nextReq = 0 := by cases hi <;> rfl
  have ht : s.trace = [] := by cases hi <;> rfl
  have hl : s.loops = [] := by rw [State.loops, hi.stack]; rfl
  refine ⟨fun r h hm => ?_, fun r hr => ?_, fun r h hm => ?_, fun r hr => ?_, fun r _ => ?_⟩
  · rw [hl] at hm
    cases hm
  · exact absurd hr (by simp [hn])
  · rw [hl] at hm
    cases hm
  · exact absurd hr (by simp [hn])
  · simp [ht]

theorem only {r x : ReqId} {h y : CoroId} (ho : OneLoop s) (hm : .eventHandler r h ∈ s.loops)
    (hx : .eventHandler x y ∈ s.loops) : x = r := by
  rcases ho.shape with hl | hl | ⟨a, ha, hl⟩ | ⟨r0, h0, a, ha, hl⟩ <;> rw [hl] at hm hx
  · cases hm
  · simp at hm
  · simp at hm
    subst hm
    cases ha
  · have hne : ∀ r h, Activation.eventHandler r h ≠ a := by
      rintro r h rfl
      cases ha
    simp [hne] at hm hx
    rw [hx.1, hm.1]

theorem mem_iff {e : Event} (h : s'.trace.count e = s.trace.count e) : e ∈ s'.trace ↔ e ∈ s.trace := by
  rw [← List.count_pos_iff, h, List.count_pos_iff]

theorem notes_mem {e x : Event} (h : Notes e s s') (hx : x.ofRecord = true) : x ∈ s'.trace ↔ x = e ∨ x ∈ s.trace := by
  rw [← List.count_pos_iff, h x hx, ← List.count_pos_iff (l := s.trace)]
  by_cases hxe : x = e
  · simp [hxe]
  · simp [hxe]

/-- What a step accepts is new, and of the heap. -/
theorem accepted {c : Choice} (hreach : Reachable s) (hs : State.step s c = .ok s') (r : ReqId) :
    .accepted r ∈ s'.trace ↔ .accepted r ∈ s.trace ∨
      r = s.nextReq ∧ s.nextReq < s'.nextReq ∧ (s'.reqs r).home = .heap ∧ (s'.reqs r).live = true := by
  cases step_ledger hs hreach.placed with
  | settled hset =>
    rw [mem_iff (hset.count (.accepted r) rfl), hset.nextReq]
    simp
  | awaitable hn hh hcount =>
    rw [mem_iff (hcount (.accepted r) rfl)]
    refine ⟨.inl, fun h => h.resolve_right ?_⟩
    rintro ⟨rfl, -, hheap, -⟩
    rw [hh] at hheap
    cases hheap
  | heap hn hh _ hnote =>
    rw [notes_mem hnote rfl, or_comm]
    refine or_congr Iff.rfl ?_
    cases hl : (s'.reqs s.nextReq).live with
    | true =>
      constructor
      · intro he
        obtain rfl : r = s.nextReq := by simpa [firstEvent] using he
        exact ⟨rfl, by omega, hh, hl⟩
      · rintro ⟨rfl, -⟩
        rfl
    | false =>
      constructor
      · intro he
        simp [firstEvent] at he
      · rintro ⟨rfl, -, -, h2⟩
        rw [hl] at h2
        cases h2
  | vector _ _ hcount hall =>
    rw [mem_iff (hcount (.accepted r) rfl)]
    refine ⟨.inl, fun h => h.resolve_right ?_⟩
    rintro ⟨rfl, hlt, hheap, -⟩
    rw [(hall _ le_rfl hlt).1] at hheap
    cases hheap
  | deletes _ _ _ hn _ hnote =>
    rw [notes_mem hnote rfl, hn]
    simp

theorem made {c : Choice} (hreach : Reachable s) (hs : State.step s c = .ok s') {r : ReqId} (hr : s.nextReq ≤ r)
    (hr' : r < s'.nextReq) (hh : (s'.reqs r).home = .heap) : r = s.nextReq ∧
    (s'.reqs r).data.allocatedDynamic = true := by
  cases step_ledger hs hreach.placed with
  | settled hset => exact absurd hr' (not_lt.mpr (hset.nextReq ▸ hr))
  | awaitable hn hh' =>
    obtain rfl : r = s.nextReq := Nat.le_antisymm (Nat.lt_succ_iff.mp (hr'.trans_le hn.le)) hr
    rw [hh'] at hh
    cases hh
  | heap hn _ hdyn =>
    obtain rfl : r = s.nextReq := Nat.le_antisymm (Nat.lt_succ_iff.mp (hr'.trans_le hn.le)) hr
    exact ⟨rfl, hdyn⟩
  | vector _ _ _ hall =>
    rw [(hall r hr hr').1] at hh
    cases hh
  | deletes _ _ _ hn => exact absurd hr' (not_lt.mpr (hn ▸ hr))

/-- What was dispatched is not forgotten, and what a step dispatches was there. -/
theorem resumed {c : Choice} (hreach : Reachable s) (hs : State.step s c = .ok s') (r : ReqId) (h : CoroId) (res : ℤ)
    (d : ResponsePack) : (.resumed r h res d ∈ s.trace → .resumed r h res d ∈ s'.trace) ∧
      (.resumed r h res d ∈ s'.trace → .resumed r h res d ∈ s.trace ∨ (s.reqs r).live = true ∧
        .eventHandler r h ∈ s'.loops) := by
  cases step_deals hreach hs with
  | keeps hu => exact ⟨(hu.resumed r h res d).mpr, fun hm => .inl ((hu.resumed r h res d).mp hm)⟩
  | returns _ _ hres => exact ⟨(hres r h res d).mpr, fun hm => .inl ((hres r h res d).mp hm)⟩
  | resumes hlive _ hloops hres =>
    refine ⟨fun hm => (hres r h res d).mpr (.inr hm), fun hm => ?_⟩
    rcases (hres r h res d).mp hm with ⟨rfl, rfl, -, -⟩ | hm
    · exact .inr ⟨hlive, (hloops r h).mpr (.inl ⟨rfl, rfl⟩)⟩
    · exact .inl hm

theorem not_dispatched {r x : ReqId} {h y : CoroId} {rest : List Activation} (ho : OneLoop s)
    (hst : s.stack = .eventHandler r h :: rest) (hl : s'.loops = s.loops.tail) : .eventHandler x y ∉ s'.loops := by
  obtain ⟨a, ha, hl0⟩ := ho.of_eventHandler hst
  rw [hl, State.loops, hst, List.filter_cons_of_pos rfl, List.tail_cons, hl0]
  intro hm
  rcases List.mem_cons.mp hm with rfl | hm
  · cases ha
  · simp at hm

theorem heap_step (hd : Dealt s) {c : Choice} (hreach : Reachable s) (hs : State.step s c = .ok s') {r : ReqId}
    (hr : r < s.nextReq) (hh : (s.reqs r).home = .heap) : (s'.reqs r).live = true ↔ .accepted r ∈ s'.trace ∧
      ∀ h res d, .resumed r h res d ∈ s'.trace → ∃ x, .eventHandler r x ∈ s'.loops := by
  have hold := hd.heap r hr hh
  have hres := resumed hreach hs r
  have hacc : .accepted r ∈ s'.trace ↔ .accepted r ∈ s.trace := by
    rw [accepted hreach hs r]
    exact or_iff_left fun h1 => absurd h1.1 (Nat.ne_of_lt hr)
  by_cases htop : ∃ h rest, s.stack = .eventHandler r h :: rest
  · obtain ⟨h, rest, hst⟩ := htop
    obtain ⟨-, -, -, hstack, -, -, hcase⟩ := eventHandlerReturn_ok (step_eventHandler hst hs)
    have hdyn := hd.dynamic r hr hh
    have hdead : (s'.reqs r).live = false := by
      rcases hcase with ⟨-, -, hreqs, -⟩ | ⟨hdyn', -⟩
      · rw [hreqs, Function.update_self]
      · have h1 : (s.reqs r).data.allocatedDynamic = false := hdyn'
        rw [hdyn] at h1
        cases h1
    have hserv := hd.serving r h (by rw [State.loops, hst, List.filter_cons_of_pos rfl]; exact List.mem_cons_self)
    obtain ⟨res, d, hm⟩ := hserv.logged
    rw [hdead]
    refine iff_of_false Bool.false_ne_true ?_
    rintro ⟨-, hall⟩
    obtain ⟨x, hx⟩ := hall h res d ((hres h res d).1 hm)
    have hl : s'.loops = s.loops.tail := by
      rw [State.loops, hstack, stack_pop, hst, State.loops, hst, List.filter_cons_of_pos rfl]
      rfl
    exact not_dispatched hreach.oneLoop hst hl hx
  · rw [heap_live hreach hs hr hh fun h rest hst => htop ⟨h, rest, hst⟩, hold, hacc]
    refine and_congr_right fun ha => ?_
    cases step_deals hreach hs with
    | keeps hu => simp only [hu.resumed, hu.loops]
    | @returns x h rest hst hl hr' =>
      have hx : r ≠ x := by
        rintro rfl
        exact htop ⟨h, rest, hst⟩
      have hno : ∀ y, .eventHandler r y ∉ s.loops := fun y hy =>
        hx (only hreach.oneLoop (by rw [State.loops, hst, List.filter_cons_of_pos rfl]; exact List.mem_cons_self) hy)
      have hno' : ∀ y, .eventHandler r y ∉ s'.loops := fun y => not_dispatched hreach.oneLoop hst hl
      simp only [hr', hno, hno']
    | @resumes x h res d hlive _ hloops hr' =>
      by_cases hx : r = x
      · subst hx
        refine ⟨fun _ _ _ _ _ => ⟨h, (hloops r h).mpr (.inl ⟨rfl, rfl⟩)⟩, fun _ => (hold.mp hlive).2⟩
      · simp only [hr', hloops, hx, false_and, false_or]

theorem step (hd : Dealt s) {c : Choice} (hreach : Reachable s) (hs : State.step s c = .ok s') : Dealt s' := by
  have hlast := Lasting.step hs
  have hres := resumed hreach hs
  -- what was of no interest before
  have hfresh : ∀ r, s.nextReq ≤ r → ∀ h res d, .resumed r h res d ∉ s'.trace := by
    intro r hr h res d hm
    rcases (hres r h res d).2 hm with hm | ⟨hl, -⟩
    · exact (hd.fresh r hr).2 h res d hm
    · exact absurd (hreach.sound.records.lt_nextReq hl) (not_lt.mpr hr)
  refine ⟨fun r h hm => ?_, fun r hr hh => ?_, fun r h hm hh => (accepted hreach hs r).mpr (.inl ?_), fun r hr hh => ?_,
    fun r hr => ⟨fun hm => ?_, ?_⟩⟩
  · have hold : .eventHandler r h ∈ s.loops → s'.Serving r h := fun hm =>
      (hd.serving r h hm).mono hlast fun res d => (hres r h res d).1
    cases step_deals hreach hs with
    | keeps hu => exact hold ((hu.loops r h).mp hm)
    | returns _ hl => exact hold (List.mem_of_mem_tail (hl ▸ hm))
    | resumes _ hserv hloops =>
      rcases (hloops r h).mp hm with ⟨rfl, rfl⟩ | hm
      · exact hserv
      · exact hold hm
  · by_cases hr0 : r < s.nextReq
    · exact (hlast.dynamic r hr0).trans (hd.dynamic r hr0 ((hlast.home r hr0).symm.trans hh))
    · exact (made hreach hs (not_lt.mp hr0) hr hh).2
  · have hold : .eventHandler r h ∈ s.loops → .accepted r ∈ s.trace := fun hm =>
      hd.taken r h hm ((hlast.home r (hd.serving r h hm).lt).symm.trans hh)
    cases step_deals hreach hs with
    | keeps hu => exact hold ((hu.loops r h).mp hm)
    | returns _ hl => exact hold (List.mem_of_mem_tail (hl ▸ hm))
    | resumes hlive _ hloops =>
      rcases (hloops r h).mp hm with ⟨rfl, rfl⟩ | hm
      · have hlt := hreach.sound.records.lt_nextReq hlive
        exact ((hd.heap r hlt ((hlast.home r hlt).symm.trans hh)).mp hlive).1
      · exact hold hm
  · by_cases hr0 : r < s.nextReq
    · exact hd.heap_step hreach hs hr0 ((hlast.home r hr0).symm.trans hh)
    · obtain ⟨rfl, -⟩ := made hreach hs (not_lt.mp hr0) hr hh
      rw [accepted hreach hs]
      simp [(hd.fresh s.nextReq le_rfl).1, hfresh s.nextReq le_rfl, hr, hh]
  · rcases (accepted hreach hs r).mp hm with hm | ⟨rfl, hlt, -⟩
    · exact (hd.fresh r (hlast.nextReq.trans hr)).1 hm
    · exact absurd hlt (not_lt.mpr hr)
  · exact hfresh r (hlast.nextReq.trans hr)

end Dealt

end State

theorem Reachable.dealt {s : State} (h : Reachable s) : s.Dealt := by
  refine Reach.inv_of (J := fun s => Reachable s) (fun s hs => hs) (fun s hi => .init hi) ?_ h
  exact fun s c s' hreach hd _ hs => hd.step hreach hs

/-! ### Whom a record names -/

namespace State

variable {s s' : State}

/-- The coroutine `h` owns the record, or was resumed for it. -/
def Names (s : State) (r : ReqId) (h : CoroId) : Prop :=
  match (s.reqs r).home with
  | .awaitable a => a = some h
  | .vector x => x = h
  | .heap => ∃ res d, Event.resumed r h res d ∈ s.trace

/-- A handle in a record is that of the coroutine it belongs to, and on the heap that of the coroutine last resumed. -/
def Handles (s : State) : Prop := ∀ r h, (s.reqs r).data.handle = some h → s.Names r h

theorem Names.of_resumed {r : ReqId} {h : CoroId} {res : ℤ} {d : ResponsePack} (hh : (s.reqs r).home = .heap)
    (hm : .resumed r h res d ∈ s.trace) : s.Names r h := by
  unfold Names
  rw [hh]
  exact ⟨res, d, hm⟩

theorem Names.mono {r : ReqId} {h : CoroId} (hn : s.Names r h) (hhome : (s'.reqs r).home = (s.reqs r).home)
    (ht : ∀ res d, .resumed r h res d ∈ s.trace → .resumed r h res d ∈ s'.trace) : s'.Names r h := by
  unfold Names at hn ⊢
  rw [hhome]
  cases hh : (s.reqs r).home with
  | awaitable | vector =>
    rw [hh] at hn
    exact hn
  | heap =>
    rw [hh] at hn
    obtain ⟨res, d, hm⟩ := hn
    exact ⟨res, d, ht res d hm⟩

namespace Handles

theorem of_same (hn : Handles s) (hreq : ∀ r h, (s'.reqs r).data.handle = some h →
      (s.reqs r).data.handle = some h ∧ (s'.reqs r).home = (s.reqs r).home)
    (ht : ∀ r h res d, .resumed r h res d ∈ s.trace → .resumed r h res d ∈ s'.trace) : Handles s' := by
  intro r h hh
  obtain ⟨h1, h2⟩ := hreq r h hh
  exact (hn r h h1).mono h2 (ht r h)

theorem of_eq (hn : Handles s) (hr : s'.reqs = s.reqs) (ht : s'.trace = s.trace) : Handles s' :=
  hn.of_same (fun r h hh => by rw [hr] at hh ⊢; exact ⟨hh, rfl⟩) fun _ _ _ _ hm => by rwa [ht]

theorem of_quiet (hn : Handles s) (h : Quiet s s') : Handles s' :=
  hn.of_same (fun r _ hx => ⟨h.data r ▸ hx, h.home r⟩) fun r x res d hm =>
    ((Undealt.of_quiet h).resumed r x res d).mpr hm

theorem update (hn : Handles s) {r : ReqId} {q : Request} (hr : s'.reqs = Function.update s.reqs r q)
    (hq : ∀ h, q.data.handle = some h → q.home = .awaitable (some h) ∨ q.home = .vector h)
    (ht : ∀ r h res d, .resumed r h res d ∈ s.trace → .resumed r h res d ∈ s'.trace) : Handles s' := by
  intro x h hh
  by_cases hx : x = r
  · subst hx
    have h1 : s'.reqs x = q := by rw [hr, Function.update_self]
    rw [h1] at hh
    unfold Names
    rw [h1]
    rcases hq h hh with hq | hq <;> rw [hq]
  · have h1 : s'.reqs x = s.reqs x := by rw [hr, Function.update_of_ne hx]
    exact (hn x h (h1 ▸ hh)).mono (by rw [h1]) (ht x h)

theorem getUringSqe (hn : Handles s) {p : Purpose} {x : Option ℕ} (hs : s.getUringSqe p = .ok (x, s')) :
    Handles s' := by
  rcases getUringSqe_ok hs with ⟨-, -, rfl⟩ | ⟨j, ring, -, -, -, -, rfl⟩ <;> exact hn.of_eq rfl rfl

theorem submit (hn : Handles s) {ret : ℤ} (hs : s.submitQueuedEntries ret = .ok s') : Handles s' := by
  obtain ⟨-, -, -, rfl⟩ := submitQueuedEntries_ok hs
  exact hn.of_eq rfl rfl

theorem ioOp (hn : Handles s) {ctx : Option CoroId} {p : ParameterPack} {r : ReqId} (hs : s.ioOp ctx p = .ok (r, s')) :
    Handles s' := by
  obtain ⟨-, -, sqe, s1, h1, rfl⟩ := ioOp_ok hs
  have hnew : Handles (s1.newReq (.awaitable ctx p sqe)).2 :=
    (hn.getUringSqe h1).update rfl (fun h hh => by cases hh) fun _ _ _ _ hm => hm
  cases ctx <;> exact hnew.of_eq rfl rfl

theorem awaitIo (hn : Handles s) {h : CoroId} {r : ReqId} (hs : s.awaitIo h r = .ok s') : Handles s' := by
  obtain ⟨⟨-, -, hhome, -⟩, ⟨-, rfl⟩ | ⟨j, -, -, -, rfl⟩⟩ := awaitIo_ok hs
  · exact hn.of_quiet (.ioReturn ..)
  · refine hn.update (r := r) rfl (fun x hx => .inl ?_) fun _ _ _ _ hm => hm
    obtain rfl : h = x := by simpa [RequestData.await] using hx
    exact hhome

theorem na (hn : Handles s) {p : ParameterPack} {ret : ℤ} {e : Errnos} (hs : s.naOp p ret = .ok (e, s')) :
    Handles s' := by
  rcases naOp_ok hs with ⟨-, -, rfl⟩ | ⟨-, j, ring, s2, -, h2, hcase⟩
  · exact hn
  · have h0 : Handles (s.setRing ring) := hn.of_eq rfl rfl
    rcases hcase with ⟨-, -, rfl⟩ | ⟨-, -, rfl⟩ <;>
      exact (h0.submit h2).update rfl (fun h hh => by cases hh) fun _ _ _ _ hm => List.mem_cons_of_mem _ hm

theorem processRequests {h : CoroId} {l : List (ParameterPack × ReqId)} : ∀ {s s' : State}, Handles s →
    (∀ x ∈ l, (s.reqs x.2).home = .vector h) → s.processRequests h l = .ok s' → Handles s' := by
  induction l with
  | nil =>
    intro s s' hn _ hs
    cases hs
    exact hn
  | cons x l ih =>
    intro s s' hn hl hs
    obtain ⟨req, r⟩ := x
    obtain ⟨⟨b, s1⟩, h1, h2⟩ := bind_ok.mp hs
    have hr : (s.reqs r).home = .vector h := hl (req, r) List.mem_cons_self
    rcases processSingleGenericRequest_ok h1 with ⟨-, -, rfl⟩ | ⟨-, -, -, j, ring, -, rfl⟩
    · exact ih hn (fun x hx => hl x (List.mem_cons_of_mem _ hx)) h2
    · have h0 : Handles (s.setRing ring) := hn.of_eq rfl rfl
      have h3 : Handles ((s.setRing ring).modReq r fun q => { q with data := q.data.queue h req }) := by
        refine h0.update rfl (fun x hx => .inr ?_) fun _ _ _ _ hm => hm
        obtain rfl : h = x := by simpa [RequestData.queue] using hx
        exact hr
      refine ih h3 (fun x hx => ?_) h2
      · have hx' := hl x (List.mem_cons_of_mem _ hx)
        by_cases hxr : x.2 = r
        · rw [hxr]
          simpa [State.modReq, State.setRing, State.modEv] using hr
        · simpa [State.modReq, State.setRing, State.modEv, hxr] using hx'

theorem batch (hn : Handles s) {h : CoroId} {rest : List Activation} {q : RequestQueue} {ret : ℤ}
    (hst : s.stack = .run h :: rest) (hs : s.submitAndWaitBegin h q ret = .ok s') : Handles s' := by
  unfold State.submitAndWaitBegin at hs
  obtain ⟨s2, h2, h3⟩ := bind_ok.mp hs
  have hn2 := hn.submit h2
  split at h3
  · exact hn2.of_quiet (.finish (by rw [(submitQueuedEntries_stack h2).1, hst]) h3)
  · obtain ⟨s3, h4, h5⟩ := bind_ok.mp h3
    cases h5
    have hvec : Handles (s2.newVector h q.length).2 := by
      refine hn2.of_same (fun r x hx => ?_) fun _ _ _ _ hm => hm
      by_cases hr : r ∈ List.range' s2.nextReq q.length
      · simp [State.newVector, hr, -List.mem_range'_1] at hx
      · simpa [State.newVector, hr, -List.mem_range'_1] using hx
    refine (processRequests hvec (fun x hx => ?_) h4).of_eq rfl rfl
    have hx' : x.2 ∈ List.range' s2.nextReq q.length := (List.of_mem_zip hx).2
    exact congrArg Request.home (if_pos hx')

/-- A record that is dispatched may have got its handle only now, from the heap. -/
theorem eventHandler {res : ℤ} {x : Option ReqId} {base : Addr} (hn : ∀ r h, (s.reqs r).data.handle = some h →
      s.Names r h ∨ x = some r ∧ (s.reqs r).home = .heap) (hs : s.eventHandler res x base = .ok s') : Handles s' := by
  unfold State.eventHandler at hs
  split at hs
  · cases hs
    exact fun r h hh => (hn r h hh).resolve_right fun h1 => by cases h1.1
  · rename_i r
    simp only at hs
    split at hs
    · split at hs
      · rename_i hnone
        cases hs
        intro x h hh
        refine (hn x h hh).resolve_right fun h1 => ?_
        obtain rfl : r = x := by simpa using h1.1
        have hh' : (s.reqs r).data.handle = some h := hh
        rw [hnone] at hh'
        cases hh'
      · rename_i h hh
        obtain ⟨pack, -, hs⟩ := bind_ok.mp hs
        refine Handles.of_quiet ?_ (.resume hs)
        intro x y hy
        have hy' : (s.reqs x).data.handle = some y := hy
        rcases hn x y hy' with h1 | ⟨h1, h2⟩
        · exact h1.mono rfl fun _ _ hm => List.mem_cons_of_mem _ hm
        · obtain rfl : r = x := by simpa using h1
          obtain rfl : h = y := by simpa using hh.symm.trans hy'
          exact .of_resumed h2 (List.mem_cons_self (a := Event.resumed r h res pack))
    · cases hs

theorem awaitMessage (hn : Handles s) (hr : Records s) {base : Addr} (hs : s.awaitMessage base = .ok s') :
    Handles s' := by
  unfold State.awaitMessage at hs
  simp only at hs
  split at hs
  · rename_i res r ready p hready _
    have hheap : (s.reqs r).home = .heap := (hr.ready (res, r) (by rw [hready]; exact List.mem_cons_self)).2
    refine eventHandler (fun x h hh => ?_) hs
    by_cases hx : x = r
    · subst hx
      exact .inr ⟨rfl, by simpa [State.modReq, State.modEv, State.push] using hheap⟩
    · have hh' : (s.reqs x).data.handle = some h := by simpa [State.modReq, State.modEv, State.push, hx] using hh
      exact .inl ((hn x h hh').mono (by simp [State.modReq, State.modEv, State.push, hx]) fun _ _ hm => hm)
  · cases hs
    exact hn.of_eq rfl rfl

theorem awaitCqe (hn : Handles s) {i : ℕ} {res : ℤ} {base : Addr} (hs : s.awaitCqe i res base = .ok s') :
    Handles s' := by
  unfold State.awaitCqe at hs
  split at hs
  · split at hs
    · refine eventHandler (fun x h hh => .inl ?_) hs
      split at hh
      · exact (hn x h hh).mono rfl fun _ _ hm => List.mem_cons_of_mem _ hm
      · exact hn x h hh
    · cases hs
  · cases hs

theorem step (hn : Handles s) {c : Choice} (hreach : Reachable s) (hs : State.step s c = .ok s') : Handles s' := by
  cases step_effect hs with
  | quiet hq => exact hn.of_quiet hq
  | io h1 => exact hn.ioOp h1
  | awaitIo _ h1 => exact hn.awaitIo h1
  | awaitOp _ h1 h2 => exact (hn.ioOp h1).awaitIo h2
  | na h1 => exact hn.na h1
  | submit _ _ hq h1 hq' => exact ((hn.of_quiet hq).submit h1).of_quiet hq'
  | rawSqe h1 => exact hn.getUringSqe h1
  | start | leave | dying => exact hn.of_eq rfl rfl
  | message _ h1 => exact hn.awaitMessage hreach.sound.records h1
  | cqe _ h1 => exact hn.awaitCqe h1
  | seen hst h1 =>
    unfold State.awaitSeen at h1
    split at h1
    · simp only at h1
      split at h1
      · have hq := Quiet.resume h1
        refine Handles.of_quiet ?_ hq
        exact hn.of_eq rfl rfl
      · cases h1
      · cases h1
        exact hn.of_eq rfl rfl
    · cases h1
  | @handlerReturn r h _ _ hst h1 =>
    obtain ⟨-, -, -, -, -, -, ⟨-, -, hreqs, ht⟩ | ⟨-, hreqs, ht⟩⟩ := eventHandlerReturn_ok h1
    · refine hn.of_same (fun x y hy => ?_) fun _ _ _ _ hm => ht ▸ List.mem_cons_of_mem _ hm
      by_cases hx : x = r
      · subst hx
        rw [hreqs, Function.update_self] at hy ⊢
        exact ⟨hy, rfl⟩
      · rw [hreqs, Function.update_of_ne hx] at hy ⊢
        exact ⟨hy, rfl⟩
    · exact hn.of_eq hreqs ht
  | cancel _ _ h1 =>
    obtain ⟨ring, -, -, rfl⟩ := ioUringGetSqe_some h1
    exact hn.of_eq rfl rfl
  | dead hst _ _ h1 =>
    have hd : Handles (s.modEv fun ev => { ev with managerLifeState := .dead, ringUp := false }) := hn.of_eq rfl rfl
    exact hd.of_quiet (.finish (by exact hst) h1)
  | batch hst _ _ h1 => exact hn.batch hst h1
  | poll _ _ _ _ hq => exact (hn.of_quiet hq).of_eq rfl rfl
  | @register _ idx _ _ _ _ h1 =>
    unfold State.registerCoroReturn at h1
    obtain ⟨s1, h2, h1⟩ := bind_ok.mp h1
    obtain ⟨e, -, h1⟩ := bind_ok.mp h1
    obtain ⟨coros, heq, -⟩ := insertTask_eq idx e s1
    rw [heq] at h1
    cases h1
    have h3 : Handles s.pop := hn.of_eq rfl rfl
    exact (h3.of_quiet (.makeRoom h2)).of_eq rfl rfl

end Handles

end State

theorem Reachable.handles {s : State} (h : Reachable s) : s.Handles := by
  refine Reach.inv_of (J := fun s => Reachable s) (fun s hs => hs) (fun s hi r x hx => ?_) ?_ h
  · rw [hi.reqs] at hx
    cases hx
  · exact fun s c s' hreach hn _ hs => hn.step hreach hs

end EvManager
