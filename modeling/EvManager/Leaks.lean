import EvManager.Deals
import EvManager.Life

/-!
# What is left of the `_na` requests at the end

A record on the heap is named by the entry of its request, is parked or is being dispatched
(**`Outstanding.step`**), as long as no `co_await` writes over the entry of such a request.  `kill_internal` looks
at none of the three. **`na_deleted`**: where nothing of an `_na` request is left when it sets DEAD, every record
that was on the heap has been deleted once.
-/

namespace EvManager

open Lib State

/-- The request the entry was handed out for. -/
def Slot.record (x : Slot) : Option ReqId :=
  match x.purpose with
  | some (.request _ r) => some r
  | _ => none

namespace State

variable {s s' s'' : State} {r : ReqId}

/-- The record is on the heap and not deleted. -/
def OnHeap (s : State) (r : ReqId) : Prop := (s.reqs r).home = .heap ∧ (s.reqs r).live = true

instance (s : State) (r : ReqId) : Decidable (s.OnHeap r) := by unfold OnHeap; infer_instance

/-- Nothing is left of any `_na` request: none is parked, none is being dispatched, and no entry of one is pending. -/
structure Cleared (s : State) : Prop where
  ready : s.ev.readyRequestsStore = []
  stack : ∀ a ∈ s.stack, ∀ x ∈ a.dispatched, ¬ s.OnHeap x.1
  pending : ∀ x ∈ s.ev.ring.pending, ∀ r ∈ x.record, ¬ s.OnHeap r

instance (s : State) : Decidable s.Cleared :=
  decidable_of_iff (s.ev.readyRequestsStore = [] ∧ (∀ a ∈ s.stack, ∀ x ∈ a.dispatched, ¬ s.OnHeap x.1) ∧
    ∀ x ∈ s.ev.ring.pending, ∀ r ∈ x.record, ¬ s.OnHeap r) ⟨fun h => ⟨h.1, h.2.1, h.2.2⟩, fun h => ⟨h.1, h.2, h.3⟩⟩

/-- The slot of an awaitable that is awaited holds no pending entry of an `_na` request. -/
def SparesEntries (s : State) : Choice → Prop
  | .user (.awaitIo r) => ∀ j ∈ (s.reqs r).sqe, ∀ k < s.ev.ring.pending.length,
      s.ev.ring.slot (s.ev.ring.khead + k) = j → ∀ x ∈ (s.ev.ring.sqes j).record, ¬ s.OnHeap x
  | _ => True

instance (s : State) (c : Choice) : Decidable (s.SparesEntries c) := by
  unfold SparesEntries
  split <;> infer_instance

/-- No `co_await` writes over the entry of an `_na` request, and `kill_internal` sets DEAD where nothing is left of
any. -/
def LeavesNone (s : State) (c : Choice) : Prop := s.SparesEntries c ∧ (s.atExit = true → s.Cleared)

instance (s : State) (c : Choice) : Decidable (s.LeavesNone c) := by unfold LeavesNone; infer_instance

/-- Every record that was on the heap has been deleted once, and none is parked. -/
def NaDeleted (s : State) : Prop :=
  ∀ r, r < s.nextReq → (s.reqs r).home = .heap → s.deletes r = 1 ∧ ∀ res, (res, r) ∉ s.ev.readyRequestsStore

/-! ### Where a record on the heap is needed -/

theorem eventHandlerReturn_ready {x : ReqId} {h : CoroId} (hs : s.eventHandlerReturn x h = .ok s') :
    s'.ev.readyRequestsStore = s.ev.readyRequestsStore := by
  unfold State.eventHandlerReturn at hs
  simp only at hs
  split at hs
  · split at hs
    · cases hs
      split <;> rfl
    · cases hs
  · cases hs
    split <;> rfl

/-- Where something is left of a request. -/
inductive Outstanding (s : State) (r : ReqId) : Prop
  | pending {x : Slot} : x ∈ s.ev.ring.pending → x.record = some r → x.sqe.userData = some r → Outstanding s r
  | inFlight {x : Slot} : x ∈ s.ev.ring.inFlight → x.sqe.userData = some r → Outstanding s r
  | parked {res : ℤ} : (res, r) ∈ s.ev.readyRequestsStore → Outstanding s r
  | dispatched {h : CoroId} : .eventHandler r h ∈ s.loops → Outstanding s r

/-- Between `s` and `s'` nothing that is left of the request gets lost. -/
structure Keeps (r : ReqId) (s s' : State) : Prop where
  pending : ∀ x ∈ s.ev.ring.pending, x.record = some r → x.sqe.userData = some r →
    x ∈ s'.ev.ring.pending ∨ x ∈ s'.ev.ring.inFlight
  inFlight : ∀ x ∈ s.ev.ring.inFlight, x ∈ s'.ev.ring.inFlight
  ready : s'.ev.readyRequestsStore = s.ev.readyRequestsStore
  loops : ∀ h, .eventHandler r h ∈ s.loops → .eventHandler r h ∈ s'.loops

theorem Outstanding.keep (ho : Outstanding s r) (hk : Keeps r s s') : Outstanding s' r := by
  cases ho with
  | pending hx hp hu =>
    rcases hk.pending _ hx hp hu with hx | hx
    · exact .pending hx hp hu
    · exact .inFlight hx hu
  | inFlight hx hu => exact .inFlight (hk.inFlight _ hx) hu
  | parked hx => exact .parked (hk.ready ▸ hx)
  | dispatched hx => exact .dispatched (hk.loops _ hx)

namespace Keeps

theorem of_eq (hr : s'.ev.ring = s.ev.ring) (hready : s'.ev.readyRequestsStore = s.ev.readyRequestsStore)
    (hl : s'.loops = s.loops) : Keeps r s s' :=
  ⟨fun _ hx _ _ => .inl (hr ▸ hx), fun _ hx => hr ▸ hx, hready, fun _ hm => hl ▸ hm⟩

theorem of_quiet (h : Quiet s s') : Keeps r s s' := of_eq h.ring h.ready h.loops

theorem trans (h : Keeps r s s') (h' : Keeps r s' s'') : Keeps r s s'' := by
  refine ⟨fun x hx hp hu => ?_, fun x hx => h'.inFlight x (h.inFlight x hx), h'.ready.trans h.ready,
    fun y hm => h'.loops y (h.loops y hm)⟩
  rcases h.pending x hx hp hu with hx | hx
  · exact h'.pending x hx hp hu
  · exact .inr (h'.inFlight x hx)

theorem of_undealt (hr : s'.ev.ring = s.ev.ring) (hready : s'.ev.readyRequestsStore = s.ev.readyRequestsStore)
    (hu : Undealt s s') : Keeps r s s' :=
  ⟨fun _ hx _ _ => .inl (hr ▸ hx), fun _ hx => hr ▸ hx, hready, fun h => (hu.loops r h).mpr⟩

theorem getSqe {mark : Slot → Slot} {j : ℕ} {ring : Uring Slot} (hr : s.ev.ring.getSqe mark = some (j, ring))
    (hs : s'.ev.ring = ring) (hready : s'.ev.readyRequestsStore = s.ev.readyRequestsStore) (hl : s'.loops = s.loops) :
    Keeps r s s' := by
  refine ⟨fun x hx _ _ => .inl ?_, fun x hx => ?_, hready, fun _ hm => hl ▸ hm⟩
  · rw [hs, (Uring.getSqe_pending hr).1]
    exact List.mem_append_left _ hx
  · rwa [hs, Uring.getSqe_inFlight hr]

/-- A slot is written that holds no pending entry of the request. -/
theorem write {j : ℕ} {f : Slot → Slot} (hj : ∀ k, s.ev.ring.Holds k j → (s.ev.ring.sqes j).record ≠ some r)
    (hs : s'.ev.ring = s.ev.ring.write j f) (hready : s'.ev.readyRequestsStore = s.ev.readyRequestsStore)
    (hl : s'.loops = s.loops) : Keeps r s s' := by
  refine ⟨fun x hx hp _ => .inl ?_, fun x hx => ?_, hready, fun _ hm => hl ▸ hm⟩
  · rw [hs]
    rcases s.ev.ring.write_pending j f with ⟨k, hk, he⟩ | ⟨-, he⟩
    · rw [he]
      obtain ⟨m, hm, rfl⟩ := List.mem_iff_getElem.mp hx
      have hmk : k ≠ m := by
        rintro rfl
        rw [Uring.getElem_pending, hk.2] at hp
        exact hj k hk hp
      exact List.mem_iff_getElem.mpr ⟨m, by simpa using hm, List.getElem_set_ne hmk _⟩
    · rwa [he]
  · rwa [hs]

theorem submit {ret : ℤ} (hs : s.submitQueuedEntries ret = .ok s') : Keeps r s s' := by
  obtain ⟨-, -, -, rfl⟩ := submitQueuedEntries_ok hs
  refine ⟨fun x hx _ _ => ?_, fun x hx => ?_, rfl, fun _ hm => hm⟩
  · show x ∈ (s.ev.ring.submit ret.toNat).pending ∨ x ∈ (s.ev.ring.submit ret.toNat).inFlight
    rw [Uring.submit_pending, Uring.submit_inFlight, List.mem_append]
    rw [← List.take_append_drop ret.toNat s.ev.ring.pending, List.mem_append] at hx
    exact hx.symm.imp id .inr
  · exact List.mem_append_left _ hx

theorem getUringSqe {p : Purpose} {x : Option ℕ} (hs : s.getUringSqe p = .ok (x, s')) : Keeps r s s' := by
  rcases getUringSqe_ok hs with ⟨-, -, rfl⟩ | ⟨j, ring, -, -, -, hr, rfl⟩
  · exact of_eq rfl rfl rfl
  · exact getSqe hr rfl rfl rfl

theorem ioOp {ctx : Option CoroId} {p : ParameterPack} {x : ReqId} (hs : s.ioOp ctx p = .ok (x, s')) :
    Keeps r s s' := by
  obtain ⟨-, -, sqe, s1, h1, rfl⟩ := ioOp_ok hs
  refine (getUringSqe h1).trans ?_
  cases ctx <;> exact of_eq rfl rfl rfl

theorem awaitIo {h : CoroId} {x : ReqId} {rest : List Activation} (hst : s.stack = .run h :: rest)
    (hj : ∀ j ∈ (s.reqs x).sqe, ∀ k, s.ev.ring.Holds k j → (s.ev.ring.sqes j).record ≠ some r)
    (hs : s.awaitIo h x = .ok s') : Keeps r s s' := by
  rcases awaitIo_ok hs with ⟨-, ⟨-, rfl⟩ | ⟨j, -, -, hsqe, rfl⟩⟩
  · exact of_quiet (.ioReturn h x s)
  · refine write (f := fun y => (y.prep (prepareSqringOp (s.reqs x).data.specificData)).setData (some x))
      (hj j hsqe) rfl rfl ?_
    simp [State.loops, State.push, State.suspend, State.pop, State.setPlace, State.writeSqe, State.setRing, State.modEv,
      State.modReq, State.modCoro, hst, Activation.ofLoop]

theorem processRequests {h : CoroId} {l : List (ParameterPack × ReqId)} :
    ∀ {s s' : State}, s.processRequests h l = .ok s' → Keeps r s s' := by
  induction l with
  | nil =>
    intro s s' hs
    cases hs
    exact of_eq rfl rfl rfl
  | cons x l ih =>
    intro s s' hs
    obtain ⟨req, y⟩ := x
    obtain ⟨⟨b, s1⟩, h1, h2⟩ := bind_ok.mp hs
    refine trans ?_ (ih h2)
    rcases processSingleGenericRequest_ok h1 with ⟨-, -, rfl⟩ | ⟨-, -, -, j, ring, hr, rfl⟩
    · exact of_eq rfl rfl rfl
    · exact getSqe hr rfl rfl rfl

theorem batch {h : CoroId} {rest : List Activation} {q : RequestQueue} {ret : ℤ} (hst : s.stack = .run h :: rest)
    (hs : s.submitAndWaitBegin h q ret = .ok s') : Keeps r s s' := by
  unfold State.submitAndWaitBegin at hs
  obtain ⟨s1, h1, h2⟩ := bind_ok.mp hs
  refine (submit h1).trans ?_
  split at h2
  · exact of_quiet (.finish (by rw [(submitQueuedEntries_stack h1).1, hst]) h2)
  · obtain ⟨s2, h3, h4⟩ := bind_ok.mp h2
    cases h4
    have hv : Keeps r s1 (s1.newVector h q.length).2 := of_eq rfl rfl rfl
    exact hv.trans ((processRequests h3).trans (of_eq rfl rfl rfl))

theorem awaitSeen {rest : List Activation} (hst : s.stack = .awaitSeen :: rest) (hs : s.awaitSeen = .ok s') :
    Keeps r s s' := by
  have hu := Undealt.awaitSeen hst hs
  unfold State.awaitSeen at hs
  split at hs
  · simp only at hs
    split at hs
    · have hq := Quiet.resume hs
      exact of_undealt (hq.ring.trans rfl) (hq.ready.trans rfl) hu
    · cases hs
    · cases hs
      exact of_undealt rfl rfl hu
  · cases hs

theorem eventHandlerReturn {x : ReqId} {h : CoroId} {rest : List Activation} (hst : s.stack = .eventHandler x h :: rest)
    (hx : x ≠ r) (hs : s.pop.eventHandlerReturn x h = .ok s') : Keeps r s s' := by
  obtain ⟨-, -, -, hstack, -⟩ := eventHandlerReturn_ok hs
  have hready := eventHandlerReturn_ready hs
  have hring := (Uncounted.eventHandlerReturn hs).ring
  refine ⟨fun _ hy _ _ => .inl (by rw [hring]; exact hy), fun _ hy => by rw [hring]; exact hy, hready, fun y hm => ?_⟩
  rw [State.loops, hst, List.filter_cons_of_pos rfl] at hm
  rw [State.loops, hstack, stack_pop, hst]
  refine (List.mem_cons.mp hm).resolve_left fun he => hx ?_
  cases he
  rfl

theorem registerCoroReturn {v : VarId} {idx : ℕ} {grow : Bool} (hs : s.registerCoroReturn v idx grow = .ok s') :
    Keeps r s s' := by
  unfold State.registerCoroReturn at hs
  obtain ⟨s1, h1, hs⟩ := bind_ok.mp hs
  obtain ⟨e, -, hs⟩ := bind_ok.mp hs
  obtain ⟨coros, heq, -⟩ := insertTask_eq idx e s1
  rw [heq] at hs
  cases hs
  exact (of_quiet (.makeRoom h1)).trans (of_eq rfl rfl rfl)

end Keeps

namespace Outstanding

theorem eventHandler {res : ℤ} {x : Option ReqId} {base : Addr} (hs : s.eventHandler res x base = .ok s')
    (ho : x = some r ∨ Outstanding s r) : Outstanding s' r := by
  unfold State.eventHandler at hs
  split at hs
  · cases hs
    exact ho.resolve_left (by simp)
  · rename_i y
    simp only at hs
    split at hs
    · split at hs
      · cases hs
        rcases ho with hy | ho
        · obtain rfl : y = r := by simpa using hy
          exact @Outstanding.parked _ _ res List.mem_cons_self
        · cases ho with
          | pending hx hp hu => exact .pending hx hp hu
          | inFlight hx hu => exact .inFlight hx hu
          | parked hx => exact .parked (List.mem_cons_of_mem _ hx)
          | dispatched hx => exact .dispatched hx
      · rename_i h hh
        obtain ⟨pack, -, hs⟩ := bind_ok.mp hs
        refine keep ?_ (.of_quiet (.resume hs))
        rcases ho with hy | ho
        · obtain rfl : y = r := by simpa using hy
          refine .dispatched (h := h) ?_
          rw [State.loops, stack_push, List.filter_cons_of_pos rfl]
          exact List.mem_cons_self
        · refine ho.keep ⟨fun _ hx _ _ => .inl hx, fun _ hx => hx, rfl, fun z hm => ?_⟩
          rw [State.loops, stack_push, List.filter_cons_of_pos rfl]
          exact List.mem_cons_of_mem _ hm
    · cases hs

/-- The loop takes the newest parked request for the poller, or waits. -/
theorem awaitMessage {base : Addr} (hs : s.awaitMessage base = .ok s') (ho : Outstanding s r) : Outstanding s' r := by
  have hloops : ∀ h, .eventHandler r h ∈ s.loops → .eventHandler r h ∈ (s.push .awaitWait).loops := fun h hm => by
    rw [State.loops, stack_push, List.filter_cons_of_pos rfl]
    exact List.mem_cons_of_mem _ hm
  unfold State.awaitMessage at hs
  simp only at hs
  split at hs
  · rename_i res x ready p hready hpoll
    apply eventHandler hs
    by_cases hx : x = r
    · exact .inl (by rw [hx])
    · right
      cases ho with
      | pending hx hp hu => exact .pending hx hp hu
      | inFlight hx hu => exact .inFlight hx hu
      | parked hm =>
        rw [hready, List.mem_cons, Prod.mk.injEq] at hm
        exact .parked (hm.resolve_left fun h => hx h.2.symm)
      | dispatched hm => exact .dispatched (hloops _ hm)
  · cases hs
    exact ho.keep ⟨fun _ hx _ _ => .inl hx, fun _ hx => hx, rfl, hloops⟩

/-- A completion that is taken off is that of the request, or of another. -/
theorem awaitCqe {rest : List Activation} (hst : s.stack = .awaitWait :: rest) {i : ℕ} {res : ℤ} {base : Addr}
    (hs : s.awaitCqe i res base = .ok s') (ho : Outstanding s r) : Outstanding s' r := by
  have hmem : ∀ h, .eventHandler r h ∈ s.loops → .eventHandler r h ∈ (s.pop.push .awaitSeen).loops := fun h =>
    (((Undealt.pop hst (by simp)).trans (.push (by simp) _)).loops r h).mpr
  unfold State.awaitCqe at hs
  split at hs
  · split at hs
    · rename_i x hx
      simp only at hs
      apply eventHandler hs
      have hring : ∀ u : State, u.ev.ring = s.ev.ring.reap i → u.ev.readyRequestsStore = s.ev.readyRequestsStore →
          u.loops = (s.pop.push .awaitSeen).loops → x.sqe.userData = some r ∨ Outstanding u r := by
        intro u hr hready hl
        cases ho with
        | pending hy hp hu => exact .inr (.pending (by rw [hr]; exact hy) hp hu)
        | @inFlight y hy hu =>
          obtain ⟨m, hm⟩ := List.mem_iff_getElem?.mp hy
          by_cases hmi : m = i
          · subst hmi
            rw [hx] at hm
            cases hm
            exact .inl hu
          · refine .inr (.inFlight ?_ hu)
            rw [hr, Uring.reap_inFlight]
            exact List.mem_eraseIdx_iff_getElem?.mpr ⟨m, hmi, hm⟩
        | parked hm => exact .inr (.parked (hready ▸ hm))
        | dispatched hm => exact .inr (.dispatched (hl ▸ hmem _ hm))
      split
      · exact hring _ rfl rfl rfl
      · exact hring _ rfl rfl rfl
    · cases hs
  · cases hs

end Outstanding

/-- **What is left of a request on the heap** gets lost in no step, except that its record is deleted. -/
theorem Outstanding.step {c : Choice} (hreach : Reachable s) (hs : State.step s c = .ok s') (hc : s.SparesEntries c)
    (hr : s.OnHeap r) (hr' : s'.OnHeap r) (ho : Outstanding s r) : Outstanding s' r := by
  have hlt := hreach.sound.records.lt_nextReq hr.2
  cases step_effect hs with
  | quiet hq => exact ho.keep (.of_quiet hq)
  | io h1 => exact ho.keep (.ioOp h1)
  | awaitIo hst h1 =>
    refine ho.keep (.awaitIo hst (fun j hj k hk hx => ?_) h1)
    exact hc j hj k (by rw [Uring.length_pending]; exact hk.1) hk.2 r hx hr
  | @awaitOp h rest p x s1 _ hst h1 h2 =>
    refine ho.keep ((Keeps.ioOp h1).trans (.awaitIo ((ioOp_stack h1).trans hst) (fun j hj k hk hx => ?_) h2))
    -- the entry is of the awaitable that was just made
    obtain ⟨-, rfl, sqe, s2, h3, rfl⟩ := ioOp_ok h1
    rcases getUringSqe_ok h3 with ⟨rfl, -, rfl⟩ | ⟨i, ring, rfl, -, -, hring, rfl⟩
    · simp [newReq, ownReq, modCoro, Request.awaitable] at hj
    · obtain rfl : i = j := by simpa [newReq, ownReq, modCoro, Request.awaitable, setRing, modEv] using hj
      have hx' : (ring.sqes i).record = some r := hx
      rw [Uring.getSqe_sqes hring, Function.update_self] at hx'
      obtain rfl : s.nextReq = r := by simpa [Slot.record, Slot.hand] using hx'
      exact absurd hlt (lt_irrefl _)
  | na h1 =>
    rcases naOp_ok h1 with ⟨-, -, rfl⟩ | ⟨-, j, ring, s2, hring, h2, hcase⟩
    · exact ho
    · have h3 : Keeps r s (s.setRing ring) := .getSqe hring rfl rfl rfl
      refine ho.keep ((h3.trans (.submit h2)).trans ?_)
      rcases hcase with ⟨-, -, rfl⟩ | ⟨-, -, rfl⟩ <;> exact .of_eq rfl rfl rfl
  | submit _ _ hq h1 hq' => exact ho.keep (((Keeps.of_quiet hq).trans (.submit h1)).trans (.of_quiet hq'))
  | rawSqe h1 => exact ho.keep (.getUringSqe h1)
  | start =>
    exact ho.keep ⟨fun _ hx _ _ => .inl hx, fun _ hx => hx, rfl,
      fun h hm => by simpa [State.loops, State.push, Activation.ofLoop] using hm⟩
  | leave hst => exact ho.keep (.of_undealt rfl rfl (.pop hst (by simp)))
  | message hst h1 => exact ho.awaitMessage h1
  | cqe hst h1 => exact ho.awaitCqe hst h1
  | seen hst h1 => exact ho.keep (.awaitSeen hst h1)
  | @handlerReturn x h rest _ hst h1 =>
    refine ho.keep (.eventHandlerReturn hst ?_ h1)
    rintro rfl
    obtain ⟨-, -, -, -, -, -, ⟨-, -, hreqs, -⟩ | ⟨hdyn, -⟩⟩ := eventHandlerReturn_ok h1
    · have h2 := hr'.2
      rw [hreqs, Function.update_self] at h2
      cases h2
    · have h2 : (s.reqs x).data.allocatedDynamic = false := hdyn
      rw [hreach.dealt.dynamic x hlt hr.1] at h2
      cases h2
  | dying => exact ho.keep (.of_eq rfl rfl rfl)
  | @cancel h rest j s1 hst hb h1 =>
    obtain ⟨ring, -, hring, rfl⟩ := ioUringGetSqe_some h1
    have h2 : Keeps r s (s.setRing ring) := .getSqe hring rfl rfl rfl
    refine ho.keep (h2.trans (.write (f := Slot.prep (ioUringPrepCancel 0 cancelFlags)) (fun k _ => ?_) rfl rfl rfl))
    rw [show (s.setRing ring).ev.ring = ring from rfl, Uring.getSqe_sqes hring, Function.update_self]
    simp [Slot.record, Slot.hand]
  | dead hst _ _ h1 =>
    have h2 : Keeps r _ s' := .of_quiet (.finish (by exact hst) h1)
    exact ho.keep ⟨h2.pending, h2.inFlight, h2.ready, h2.loops⟩
  | batch hst _ _ h1 => exact ho.keep (.batch hst h1)
  | @poll _ h rest s1 hst _ hst1 _ hq =>
    refine ho.keep ((Keeps.of_quiet hq).trans (.of_eq rfl rfl ?_))
    simp [State.loops, State.pollWait, State.suspend, State.pop, State.setPlace, State.setBody,
      State.modCoro, State.modEv,
      hst1, hst, Activation.ofLoop]
  | register hst h1 =>
    have h2 : Keeps r s s.pop := .of_undealt rfl rfl (.pop hst (by simp))
    exact ho.keep (h2.trans (.registerCoroReturn h1))

/-- A record on the heap is made by an `_na` call, and no other step. -/
theorem made_by_na {c : Choice} (hreach : Reachable s) (hs : State.step s c = .ok s') (hr : s.nextReq ≤ r)
    (hr' : s'.OnHeap r) : ∃ p ret e, c = .user (.na p ret) ∧ s.naOp p ret = .ok (e, s') := by
  have hlt := (hreach.step hs).sound.records.lt_nextReq hr'.2
  have hsame : ∀ {P : Prop}, s'.nextReq = s.nextReq → P := fun h => absurd hlt (not_lt.mpr (h ▸ hr))
  have hset : ∀ {P : Prop}, Settled s s' → P := fun h => hsame h.nextReq
  have hio : ∀ {P : Prop} {a : Option CoroId}, s'.nextReq = s.nextReq + 1 →
      (s'.reqs s.nextReq).home = .awaitable a → P := by
    intro P a hn hh
    obtain rfl : r = s.nextReq := Nat.le_antisymm (Nat.lt_succ_iff.mp (hlt.trans_le hn.le)) hr
    rw [hr'.1] at hh
    cases hh
  cases step_effect hs with
  | quiet hq => exact hset (.of_quiet hq)
  | io h1 =>
    obtain ⟨hn, hh, -⟩ := ledger_ioOp h1
    exact hio hn hh
  | awaitIo _ h1 => exact hset (.awaitIo h1)
  | awaitOp _ h1 h2 =>
    obtain ⟨hn, hh, -⟩ := ledger_ioOp h1
    have hhome := (Lasting.awaitIo h2).home s.nextReq (by rw [hn]; exact Nat.lt_succ_self _)
    exact hio ((Settled.awaitIo h2).nextReq.trans hn) (hhome.trans hh)
  | na h1 => exact ⟨_, _, _, rfl, h1⟩
  | submit _ _ hq h1 hq' => exact hset (((Settled.of_quiet hq).trans (.submit h1)).trans (.of_quiet hq'))
  | rawSqe h1 => exact hset (.getUringSqe h1)
  | start | leave | dying => exact hset (.of_eq rfl rfl)
  | message _ h1 => exact hset (.awaitMessage h1)
  | cqe _ h1 => exact hset (.awaitCqe h1)
  | seen _ h1 => exact hset (.awaitSeen h1)
  | handlerReturn _ h1 => exact hsame (eventHandlerReturn_ok h1).2.2.1
  | cancel _ _ h1 =>
    obtain ⟨ring, -, -, rfl⟩ := ioUringGetSqe_some h1
    exact hset (.of_eq rfl rfl)
  | dead hst _ _ h1 =>
    obtain ⟨hn, hd⟩ := Settled.of_quiet (.finish (by exact hst) h1)
    exact hset ⟨hn, hd⟩
  | @batch h _ q _ _ _ hst _ _ h1 =>
    unfold State.submitAndWaitBegin at h1
    obtain ⟨s1, h2, h3⟩ := bind_ok.mp h1
    split at h3
    · exact hset
        ((Settled.submit h2).trans (.of_quiet (.finish (by rw [(submitQueuedEntries_stack h2).1]; exact hst) h3)))
    · obtain ⟨s2, h4, h5⟩ := bind_ok.mp h3
      cases h5
      have hn : s1.nextReq = s.nextReq := (Settled.submit h2).nextReq
      have hn2 : s2.nextReq = s1.nextReq + q.length := (Settled.processRequests h4).nextReq
      have hh : (s2.reqs r).home = _ := ((processRequests_records h4).2 r).1
      have hm : r ∈ List.range' s1.nextReq q.length := List.mem_range'_1.mpr ⟨hn ▸ hr, hn2 ▸ hlt⟩
      have h6 : (s2.reqs r).home = .vector h := hh.trans (congrArg Request.home (if_pos hm))
      have h7 : (s2.reqs r).home = .heap := hr'.1
      rw [h6] at h7
      cases h7
  | poll _ _ _ _ hq => exact hset ((Settled.of_quiet hq).trans (.of_eq rfl rfl))
  | register _ h1 =>
    obtain ⟨hn, hd⟩ := Settled.registerCoroReturn h1
    exact hset ⟨hn, hd⟩

/-- The entry of a request that was just accepted is pending, or the kernel took it at once. -/
theorem Outstanding.of_naOp {p : ParameterPack} {ret : ℤ} {e : Errnos} (hs : s.naOp p ret = .ok (e, s'))
    (hn : s'.nextReq = s.nextReq + 1) : Outstanding s' s.nextReq := by
  rcases naOp_ok hs with ⟨-, -, rfl⟩ | ⟨-, j, ring, s2, hring, h2, hcase⟩
  · exact absurd hn (Nat.succ_ne_self _).symm
  · have h0 : Outstanding (s.setRing ring) s.nextReq := by
      refine .pending (x := naSlot p s.nextReq (s.ev.ring.sqes j)) ?_ rfl rfl
      show _ ∈ ring.pending
      rw [(Uring.getSqe_pending hring).1]
      exact List.mem_append_right _ List.mem_cons_self
    have h1 : Outstanding s2 s.nextReq := h0.keep (.submit h2)
    rcases hcase with ⟨-, -, rfl⟩ | ⟨-, -, rfl⟩ <;> exact h1.keep (.of_eq rfl rfl rfl)

/-! ### What is left when the manager is DEAD -/

/-- What is on the heap was there, or is new. -/
theorem onHeap_of_step {c : Choice} (hreach : Reachable s) (hs : State.step s c = .ok s') (hr' : s'.OnHeap r) :
    s.OnHeap r ∨ ∃ p ret e, s.naOp p ret = .ok (e, s') ∧ r = s.nextReq ∧ s'.nextReq = s.nextReq + 1 := by
  by_cases hr : r < s.nextReq
  · have hlast := Lasting.step hs
    exact .inl ⟨(hlast.home r hr).symm.trans hr'.1, hlast.live r hr hr'.2⟩
  · obtain ⟨p, ret, e, -, h1⟩ := made_by_na hreach hs (not_lt.mp hr) hr'
    have hlt := (hreach.step hs).sound.records.lt_nextReq hr'.2
    rcases naOp_ok h1 with ⟨-, -, rfl⟩ | ⟨-, j, ring, s2, -, -, hcase⟩
    · exact .inl hr'
    · have hn : s'.nextReq = s.nextReq + 1 := by rcases hcase with ⟨-, -, rfl⟩ | ⟨-, -, rfl⟩ <;> rfl
      exact .inr ⟨p, ret, e, h1, Nat.le_antisymm (Nat.lt_succ_iff.mp (hlt.trans_le hn.le)) (not_lt.mp hr), hn⟩

/-- No record is made on the heap in a step that leaves the manager DEAD. -/
theorem onHeap_of_dead {c : Choice} (hreach : Reachable s) (hs : State.step s c = .ok s')
    (hd : s'.ev.managerLifeState = .dead) (hr' : s'.OnHeap r) : s.OnHeap r := by
  rcases onHeap_of_step hreach hs hr' with hr | ⟨p, ret, e, h1, -, hn⟩
  · exact hr
  · rcases naOp_ok h1 with ⟨-, -, rfl⟩ | ⟨ha, -⟩
    · exact hr'
    · have h2 := ha.1
      simp [shouldRestrictUsage, ← (Issue.na h1).life, hd, LivingState.rank] at h2

/-- Only the loop parks requests, and takes them from the store. -/
theorem ready_of_step {c : Choice} (hs : State.step s c = .ok s')
    (hmsg : ∀ base rest, s.stack = .start :: rest → c ≠ .message base)
    (hcqe : ∀ i res base rest, s.stack = .awaitWait :: rest → c ≠ .cqe i res base) :
    s'.ev.readyRequestsStore = s.ev.readyRequestsStore := by
  cases step_loopEffect hs with
  | issue hi => exact hi.ready
  | start | leave | dying => rfl
  | message hst => exact absurd rfl (hmsg _ _ hst)
  | cqe hst => exact absurd rfl (hcqe _ _ _ _ hst)
  | seen hst h1 => exact (Keeps.awaitSeen (r := 0) hst h1).ready
  | handlerReturn hst h1 => exact (eventHandlerReturn_ready h1).trans rfl
  | dead _ _ hq => exact hq.ready
  | poll _ _ hq hq' => exact hq'.ready.trans hq.ready
  | register _ h1 => exact (Keeps.registerCoroReturn (r := 0) h1).ready

theorem ready_of_dead {c : Choice} (hreach : Reachable s) (hs : State.step s c = .ok s')
    (hd : s.ev.managerLifeState = .dead) :
    s'.ev.readyRequestsStore = s.ev.readyRequestsStore := by
  have hdown : s.ev.ringUp = false := hreach.counted.ringUp.mpr hd
  apply ready_of_step hs
  · rintro base rest hst rfl
    simp [State.step, hst, hd, LivingState.rank] at hs
  · rintro i res base rest hst rfl
    simp [State.step, hst, State.awaitCqe, hdown] at hs

/-- Where `kill_internal` sets DEAD nothing is parked and nothing taken from the store. -/
theorem ready_of_exit {c : Choice} (hs : State.step s c = .ok s') (hx : s.atExit = true) :
    s'.ev.readyRequestsStore = s.ev.readyRequestsStore := by
  obtain ⟨h, rest, hst, -⟩ := atExit_iff.mp hx
  apply ready_of_step hs
  · intro _ _ hst'
    simp [hst] at hst'
  · intro _ _ _ _ hst'
    simp [hst] at hst'

/-- Where the last record was deleted and none is parked, nothing was left when `kill_internal` set DEAD. -/
theorem NaDeleted.cleared (hall : s'.NaDeleted) {c : Choice} (hreach : Reachable s) (hs : State.step s c = .ok s')
    (hx : s.atExit = true) : s.Cleared := by
  obtain ⟨h, rest, hst, -⟩ := atExit_iff.mp hx
  have hlast := Lasting.step hs
  have hready := ready_of_exit hs hx
  have hno : ∀ r, ¬ s.OnHeap r := by
    rintro r ⟨hh, hl⟩
    have hr := hreach.sound.records.lt_nextReq hl
    have hl' : (s'.reqs r).live = true := (heap_live hreach hs hr hh (by simp [hst])).trans hl
    have hr' := hr.trans_le hlast.nextReq
    have hh' := (hlast.home r hr).trans hh
    have h0 := (hreach.step hs).lives.heap r hr' hh'
    rw [if_pos hl', (hall r hr' hh').1] at h0
    cases h0
  refine ⟨List.eq_nil_iff_forall_not_mem.mpr fun x hm => ?_, fun _ _ x _ => hno x.1, fun _ _ r _ => hno r⟩
  obtain ⟨hr, hh⟩ := hreach.sound.records.ready x hm
  exact (hall x.2 (hr.trans_le hlast.nextReq) ((hlast.home _ hr).trans hh)).2 x.1 (hready ▸ hm)

/-- Something is left of every record on the heap, and nothing when the manager is DEAD. -/
structure Accounted (s : State) : Prop where
  outstanding : ∀ r, s.OnHeap r → Outstanding s r
  dead : s.ev.managerLifeState = .dead → ∀ r, ¬ s.OnHeap r
  ready : s.ev.managerLifeState = .dead → s.ev.readyRequestsStore = []

theorem Cleared.not_onHeap (hc : s.Cleared) (hf : s.ev.ring.inFlight = []) (ho : Outstanding s r) : ¬ s.OnHeap r := by
  cases ho with
  | pending hx hp => exact hc.pending _ hx r hp
  | inFlight hx =>
    rw [hf] at hx
    cases hx
  | parked hx =>
    rw [hc.ready] at hx
    cases hx
  | @dispatched h hx => exact hc.stack _ (List.mem_filter.mp hx).1 (r, h) rfl

theorem Accounted.step (ha : Accounted s) {c : Choice} (hreach : Reachable s) (hc : s.LeavesNone c)
    (hs : State.step s c = .ok s') : Accounted s' := by
  refine ⟨fun r hr' => ?_, fun hd r hr' => ?_, fun hd => ?_⟩
  · rcases onHeap_of_step hreach hs hr' with hr | ⟨p, ret, e, h1, rfl, hn⟩
    · exact (ha.outstanding r hr).step hreach hs hc.1 hr hr'
    · exact .of_naOp h1 hn
  · have hr := onHeap_of_dead hreach hs hd hr'
    cases step_lifeEffect hs with
    | same hl => exact ha.dead (hl.symm.trans hd) r hr
    | start _ hl | dying _ _ _ hl =>
      rw [hl] at hd
      cases hd
    | dead hx =>
      obtain ⟨-, -, -, -, h0⟩ := atExit_iff.mp hx
      have hcount := hreach.counted.counter
      have hf : s.ev.ring.inFlight = [] := List.eq_nil_of_length_eq_zero (by omega)
      exact (hc.2 hx).not_onHeap hf (ha.outstanding r hr) hr
  · cases step_lifeEffect hs with
    | same hl => exact (ready_of_dead hreach hs (hl.symm.trans hd)).trans (ha.ready (hl.symm.trans hd))
    | start _ hl | dying _ _ _ hl =>
      rw [hl] at hd
      cases hd
    | dead hx =>
      exact (ready_of_exit hs hx).trans (hc.2 hx).ready

end State

/-- What is left of the `_na` requests when nothing of them gets lost. -/
theorem Reach.accounted {s : State} (h : Reach State.LeavesNone s) : s.Accounted := by
  refine h.inv_of (J := fun s => Reachable s) (fun s hs => hs.reachable) (fun s hi => ?_) fun s c s' hreach ha hc hs =>
    ha.step hreach hc hs
  have hno : ∀ r, ¬ s.OnHeap r := fun r hr => by cases hi <;> cases hr.2
  exact ⟨fun r hr => (hno r hr).elim, fun _ r => hno r, fun _ => by cases hi <;> rfl⟩

/-- **Every record that was on the heap** has been deleted once when the manager is DEAD, if nothing of an `_na`
request was left where `kill_internal` set DEAD and no `co_await` wrote over an entry of one; and where something is
left it never is. -/
theorem na_deleted {s : State} (h : Reach State.LeavesNone s) : (s.ev.managerLifeState = .dead → s.NaDeleted) ∧
    ∀ c s', State.step s c = .ok s' → s.atExit = true → s'.NaDeleted → s.Cleared := by
  refine ⟨fun hd r hr hh => ⟨?_, fun res hm => ?_⟩, fun c s' hs hx hall => hall.cleared h.reachable hs hx⟩
  · rw [h.reachable.lives.heap r hr hh, if_neg]
    exact fun hl => h.accounted.dead hd r ⟨hh, hl⟩
  · rw [h.accounted.ready hd] at hm
    cases hm

/-- A read is polled for, and the handler kills the manager: the record is deleted before the cancel request
completes. -/
theorem na_deleted_polled : ∃ s : State, s.ev.managerLifeState = .dead ∧ 0 < s.nextReq ∧
    (s.reqs 0).home = .heap ∧ s.NaDeleted := by
  have he : (exec State.step State.LeavesNone (init 4)
    [.user (.na (.read ⟨3, 100, 8⟩) 1), .user .poll, .user (.startTask 0), .tau,
      .tau, .user .start, .message 0, .cqe 0 8 0, .tau, .message 0, .user .kill, .user (.startTask 1), .tau,
      .tau, .tau, .tau, .sub 1, .tau, .tau, .tau, .tau, .tau, .user (.handlerReturn true), .tau, .tau, .cqe 0 0 0, .tau,
      .tau]).map (fun s =>
      decide (s.ev.managerLifeState = .dead ∧ 0 < s.nextReq ∧ (s.reqs 0).home = .heap)) = some true := by decide
  obtain ⟨s, hreach, hs⟩ := Reach.of_exec (.up 4) he
  obtain ⟨hd, hr, hh⟩ := of_decide_eq_true hs
  exact ⟨s, hd, hr, hh, (na_deleted hreach).1 hd⟩

/-- A coroutine kills the manager while a read is in flight that nobody polls for: its completion is parked, and the
manager is DEAD with the record in the store. -/
theorem na_deleted_fails : ¬ ∀ s : State, Reachable s → s.ev.managerLifeState = .dead → s.NaDeleted := by
  intro hall
  have he : (exec State.step (fun _ _ => True) (init 4)
    (([.user (.na (.read ⟨3, 100, 8⟩) 1), .user .call, .user (.startTask 0),
      .user (.awaitOp (.read ⟨3, 200, 8⟩)), .sub 1, .tau, .user .start, .message 0, .cqe 1 8 0, .user .kill,
      .user (.startTask 1), .tau, .tau, .tau, .tau, .sub 1, .tau, .tau, .tau, .tau] :
      List Choice) ++ [.tau, .user (.coReturn 0), .tau, .tau, .tau, .tau, .message 0, .cqe 0 (-125) 0, .tau, .tau,
        .message 0, .cqe 0 1 0, .tau, .tau])).map (fun s =>
      decide (s.ev.managerLifeState = .dead ∧ 0 < s.nextReq ∧ (s.reqs 0).home = .heap ∧ s.deletes 0 = 0)) = some true :=
        by decide
  obtain ⟨s, hreach, hs⟩ := Reach.of_exec (.up 4) he
  obtain ⟨hd, hr, hh, h0⟩ := of_decide_eq_true hs
  have h1 := (hall s hreach hd 0 hr hh).1
  rw [h0] at h1
  cases h1

end EvManager
