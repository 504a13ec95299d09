import EvManager.Acts
import EvManager.Promises
import EvManager.Store

/-!
# The lives of the records

An element of the vector of a batch lives as long as the body of its `submit_and_wait`, and a record of the heap
until it is deleted, which happens once (**`Reachable.lives`**).
-/

namespace EvManager

open Lib State

/-- The events in the life of a record of the heap. -/
def Event.ofRecord : Event → Bool
  | .accepted _ | .deleted _ => true
  | _ => false

namespace State

variable {s s' s'' : State}

/-- How often the record was deleted. -/
def deletes (r : ReqId) (s : State) : ℕ := s.trace.count (.deleted r)

/-- Between `s` and `s'` no record is made, none accepted and none deleted. -/
structure Settled (s s' : State) : Prop where
  nextReq : s'.nextReq = s.nextReq
  count : ∀ e : Event, e.ofRecord = true → s'.trace.count e = s.trace.count e

namespace Settled

theorem of_eq (hn : s'.nextReq = s.nextReq) (ht : s'.trace = s.trace) : Settled s s' := ⟨hn, fun e _ => by rw [ht]⟩

theorem trans (h : Settled s s') (h' : Settled s' s'') : Settled s s'' :=
  ⟨h'.nextReq.trans h.nextReq, fun e he => (h'.count e he).trans (h.count e he)⟩

theorem deletes (h : Settled s s') (r : ReqId) : s'.deletes r = s.deletes r := h.count _ rfl

theorem log {e : Event} (he : e.ofRecord = false) (s : State) : Settled s (s.log e) := by
  refine ⟨rfl, fun x hx => List.count_cons_of_ne ?_⟩
  rintro rfl
  rw [he] at hx
  cases hx

theorem of_quiet (h : Quiet s s') : Settled s s' := by
  refine ⟨h.nextReq, fun e he => ?_⟩
  obtain ⟨es, ht, hes⟩ := h.trace
  have h0 : es.count e = 0 := by
    refine List.count_eq_zero.mpr fun hm => ?_
    have h1 := hes e hm
    cases e <;> simp_all [Event.ofRecord, Event.ofCoroutine]
  rw [ht, List.count_append, h0, Nat.zero_add]

theorem getUringSqe {p : Purpose} {x : Option ℕ} (hs : s.getUringSqe p = .ok (x, s')) : Settled s s' := by
  rcases getUringSqe_ok hs with ⟨-, -, rfl⟩ | ⟨j, ring, -, -, -, -, rfl⟩ <;> exact of_eq rfl rfl

theorem awaitIo {h : CoroId} {r : ReqId} (hs : s.awaitIo h r = .ok s') : Settled s s' := by
  rcases awaitIo_ok hs with ⟨-, ⟨-, rfl⟩ | ⟨j, -, -, -, rfl⟩⟩
  · exact of_quiet (.ioReturn h r s)
  · exact of_eq rfl rfl

theorem submit {ret : ℤ} (hs : s.submitQueuedEntries ret = .ok s') : Settled s s' := by
  obtain ⟨-, -, -, rfl⟩ := submitQueuedEntries_ok hs
  exact of_eq rfl rfl

theorem processRequests {h : CoroId} {l : List (ParameterPack × ReqId)} :
    ∀ {s s' : State}, s.processRequests h l = .ok s' → Settled s s' := by
  induction l with
  | nil =>
    intro s s' hs
    cases hs
    exact of_eq rfl rfl
  | cons x l ih =>
    intro s s' hs
    obtain ⟨req, r⟩ := x
    obtain ⟨⟨b, s1⟩, h1, h2⟩ := bind_ok.mp hs
    refine trans ?_ (ih h2)
    rcases processSingleGenericRequest_ok h1 with ⟨-, -, rfl⟩ | ⟨-, -, -, j, ring, -, rfl⟩ <;> exact of_eq rfl rfl

theorem eventHandler {res : ℤ} {x : Option ReqId} {base : Addr} (hs : s.eventHandler res x base = .ok s') :
    Settled s s' := by
  unfold State.eventHandler at hs
  split at hs
  · cases hs
    exact of_eq rfl rfl
  · simp only at hs
    split at hs
    · split at hs
      · cases hs
        exact of_eq rfl rfl
      · obtain ⟨pack, -, hs⟩ := bind_ok.mp hs
        have h1 := of_quiet (.resume hs)
        exact ⟨h1.nextReq, fun e he => (h1.count e he).trans ((log (by rfl) s).count e he)⟩
    · cases hs

theorem awaitMessage {base : Addr} (hs : s.awaitMessage base = .ok s') : Settled s s' := by
  unfold State.awaitMessage at hs
  simp only at hs
  split at hs
  · obtain ⟨hn, hd⟩ := eventHandler hs
    exact ⟨hn, hd⟩
  · cases hs
    exact of_eq rfl rfl

theorem awaitCqe {i : ℕ} {res : ℤ} {base : Addr} (hs : s.awaitCqe i res base = .ok s') : Settled s s' := by
  unfold State.awaitCqe at hs
  split at hs
  · split at hs
    · refine trans ?_ (eventHandler hs)
      split
      · exact (log (by rfl) s).trans (of_eq rfl rfl)
      · exact of_eq rfl rfl
    · cases hs
  · cases hs

theorem awaitSeen (hs : s.awaitSeen = .ok s') : Settled s s' := by
  unfold State.awaitSeen at hs
  split at hs
  · simp only at hs
    split at hs
    · obtain ⟨hn, hd⟩ := of_quiet (.resume hs)
      exact ⟨hn, hd⟩
    · cases hs
    · cases hs
      exact of_eq rfl rfl
  · cases hs

theorem registerCoroReturn {v : VarId} {idx : ℕ} {grow : Bool} (hs : s.registerCoroReturn v idx grow = .ok s') :
    Settled s s' := by
  unfold State.registerCoroReturn at hs
  obtain ⟨s1, h1, hs⟩ := bind_ok.mp hs
  obtain ⟨e, -, hs⟩ := bind_ok.mp hs
  obtain ⟨coros, heq, -⟩ := insertTask_eq idx e s1
  rw [heq] at hs
  cases hs
  obtain ⟨hn, hd⟩ := of_quiet (.makeRoom h1)
  exact ⟨hn, hd⟩

end Settled

/-- Queueing the requests of a batch makes no record and ends no life. -/
theorem processRequests_records {h : CoroId} {l : List (ParameterPack × ReqId)} :
    ∀ {s s' : State}, s.processRequests h l = .ok s' → s'.nextCoro = s.nextCoro ∧
      ∀ r, (s'.reqs r).home = (s.reqs r).home ∧ (s'.reqs r).live = (s.reqs r).live := by
  induction l with
  | nil =>
    intro s s' hs
    cases hs
    exact ⟨rfl, fun _ => ⟨rfl, rfl⟩⟩
  | cons x l ih =>
    intro s s' hs
    obtain ⟨req, r⟩ := x
    obtain ⟨⟨b, s1⟩, h1, h2⟩ := bind_ok.mp hs
    obtain ⟨hnc, hreq⟩ := ih h2
    rcases processSingleGenericRequest_ok h1 with ⟨-, -, rfl⟩ | ⟨-, -, -, j, ring, -, rfl⟩
    · exact ⟨hnc, hreq⟩
    · refine ⟨hnc, fun y => ?_⟩
      obtain ⟨hh, hl⟩ := hreq y
      rw [hh, hl]
      by_cases hy : y = r
      · subst hy
        simp [State.modReq, State.setRing, State.modEv]
      · simp [State.modReq, State.setRing, State.modEv, hy]

/-- Between `s` and `s'` one event of records is logged. -/
def Notes (e : Event) (s s' : State) : Prop :=
  ∀ x : Event, x.ofRecord = true → s'.trace.count x = s.trace.count x + if x = e then 1 else 0

theorem Notes.of_cons {e : Event} {es : List Event} (ht : s'.trace = e :: es)
    (hes : ∀ x : Event, x.ofRecord = true → es.count x = s.trace.count x) : Notes e s s' := by
  intro x hx
  rw [ht, List.count_cons, hes x hx]
  by_cases hxe : x = e
  · simp [hxe]
  · simp [hxe, Ne.symm hxe]

theorem Notes.deletes {r : ReqId} (h : Notes (.deleted r) s s') (x : ReqId) :
    s'.deletes x = s.deletes x + if x = r then 1 else 0 := by
  rw [State.deletes, h _ rfl]
  by_cases hx : x = r <;> simp [State.deletes, hx]

/-- How the life of a record of the heap begins: its request is accepted, or it is deleted at once. -/
def firstEvent (r : ReqId) (live : Bool) : Event := if live = true then .accepted r else .deleted r

theorem Notes.first {r : ReqId} {live : Bool} (h : Notes (firstEvent r live) s s') (x : ReqId) :
    s'.deletes x = s.deletes x + if x = r then if live = true then 0 else 1 else 0 := by
  rw [State.deletes, h _ rfl]
  cases live <;> by_cases hx : x = r <;> simp [State.deletes, firstEvent, hx]

theorem Notes.deletes_of_ne {r x : ReqId} {live : Bool} (h : Notes (firstEvent r live) s s') (hx : x ≠ r) :
    s'.deletes x = s.deletes x := by rw [h.first, if_neg hx, Nat.add_zero]

/-- What a step does to the records of batches and of the heap, apart from what the end of a body does. -/
inductive Ledger (s s' : State) : Prop
  | settled : Settled s s' → Ledger s s'
  | awaitable {a : Option CoroId} : s'.nextReq = s.nextReq + 1 → (s'.reqs s.nextReq).home = .awaitable a →
      (∀ e : Event, e.ofRecord = true → s'.trace.count e = s.trace.count e) → Ledger s s'
  | heap : s'.nextReq = s.nextReq + 1 → (s'.reqs s.nextReq).home = .heap →
      (s'.reqs s.nextReq).data.allocatedDynamic = true →
      Notes (firstEvent s.nextReq (s'.reqs s.nextReq).live) s s' → Ledger s s'
  | vector {h : CoroId} : h < s'.nextCoro → (s'.coros h).place.unfinished = true →
      (∀ e : Event, e.ofRecord = true → s'.trace.count e = s.trace.count e) →
      (∀ r, s.nextReq ≤ r → r < s'.nextReq → (s'.reqs r).home = .vector h ∧ (s'.reqs r).live = true ∧
        r ∈ (s'.coros h).reqs) → Ledger s s'
  | deletes {r : ReqId} {h : CoroId} {rest : List Activation} : s.stack = .eventHandler r h :: rest →
      (s.reqs r).data.allocatedDynamic = true → (s.reqs r).live = true → s'.nextReq = s.nextReq →
      s'.reqs = Function.update s.reqs r { s.reqs r with live := false } → Notes (.deleted r) s s' → Ledger s s'

theorem ledger_ioOp {ctx : Option CoroId} {p : ParameterPack} {r : ReqId} (hs : s.ioOp ctx p = .ok (r, s')) :
    s'.nextReq = s.nextReq + 1 ∧ (s'.reqs s.nextReq).home = .awaitable ctx ∧
      ∀ e : Event, e.ofRecord = true → s'.trace.count e = s.trace.count e := by
  obtain ⟨-, -, sqe, s1, h1, rfl⟩ := ioOp_ok hs
  obtain ⟨hn, hd⟩ := Settled.getUringSqe h1
  rw [← hn]
  cases ctx <;> exact ⟨rfl, by simp [ownReq, newReq, Request.awaitable, modCoro], hd⟩

theorem ledger_naOp {p : ParameterPack} {ret : ℤ} {e : Errnos} (hs : s.naOp p ret = .ok (e, s')) : Ledger s s' := by
  rcases naOp_ok hs with ⟨-, -, rfl⟩ | ⟨-, j, ring, s2, -, h2, hcase⟩
  · exact .settled (.of_eq rfl rfl)
  · have hd : ∀ e : Event, e.ofRecord = true → s2.trace.count e = s.trace.count e := (Settled.submit h2).count
    rcases hcase with ⟨-, -, rfl⟩ | ⟨-, -, rfl⟩
    · refine .heap rfl (by simp [naRequest, Request.allocated]) (by simp [naRequest, Request.allocated])
        (.of_cons ?_ hd)
      simp [firstEvent]
    · refine .heap rfl (by simp [naRequest, Request.allocated]) (by simp [naRequest, Request.allocated])
        (.of_cons ?_ hd)
      simp [firstEvent, naRequest, Request.allocated]

theorem ledger_batch {h : CoroId} {rest : List Activation} {q : RequestQueue} {ret : ℤ} (hst : s.stack = .run h :: rest)
    (hrun : (s.coros h).place = .running) (hlt : h < s.nextCoro) (hs : s.submitAndWaitBegin h q ret = .ok s') :
    Ledger s s' := by
  unfold State.submitAndWaitBegin at hs
  obtain ⟨s2, h2, h3⟩ := bind_ok.mp hs
  have hset := Settled.submit h2
  obtain ⟨-, -, -, rfl⟩ := submitQueuedEntries_ok h2
  split at h3
  · exact .settled (hset.trans (.of_quiet (.finish (by exact hst) h3)))
  · obtain ⟨s3, h4, h5⟩ := bind_ok.mp h3
    cases h5
    have hcoros := processRequests_coros h4
    obtain ⟨hnc, hreqs⟩ := processRequests_records h4
    obtain ⟨hnr, hdel⟩ := Settled.processRequests h4
    refine .vector (h := h) ?_ ?_ (fun e he => (hdel e he).trans (hset.count e he)) fun r hge hr => ?_
    · show h < s3.nextCoro
      rw [hnc]
      exact hlt
    · simp [State.setBody, modCoro, hcoros, modEv, hrun, Place.unfinished]
    · have hr' : r < s3.nextReq := hr
      rw [hnr] at hr'
      have hm : r ∈ List.range' s.nextReq q.length := List.mem_range'_1.mpr ⟨hge, hr'⟩
      refine ⟨(hreqs r).1.trans ?_, (hreqs r).2.trans ?_, ?_⟩
      · exact congrArg Request.home (if_pos hm)
      · exact congrArg Request.live (if_pos hm)
      · simp only [State.setBody, modCoro, hcoros, modEv, Function.update_self, List.mem_append]
        exact .inr hm

theorem step_ledger {c : Choice} (hs : State.step s c = .ok s') (hp : Placed s) : Ledger s s' := by
  cases step_effect hs with
  | quiet hq => exact .settled (.of_quiet hq)
  | io h1 =>
    obtain ⟨hn, hh, hd⟩ := ledger_ioOp h1
    exact .awaitable hn hh hd
  | awaitIo _ h1 => exact .settled (.awaitIo h1)
  | awaitOp _ h1 h2 =>
    obtain ⟨hn, hh, hd⟩ := ledger_ioOp h1
    have hset := Settled.awaitIo h2
    have hhome := (Lasting.awaitIo h2).home s.nextReq (by rw [hn]; exact Nat.lt_succ_self _)
    exact .awaitable (hset.nextReq.trans hn) (hhome.trans hh) fun e he => (hset.count e he).trans (hd e he)
  | na h1 => exact ledger_naOp h1
  | submit _ _ hq h1 hq' => exact .settled (((Settled.of_quiet hq).trans (.submit h1)).trans (.of_quiet hq'))
  | rawSqe h1 => exact .settled (.getUringSqe h1)
  | start | leave | dying => exact .settled (.of_eq rfl rfl)
  | message _ h1 => exact .settled (.awaitMessage h1)
  | cqe _ h1 => exact .settled (.awaitCqe h1)
  | seen _ h1 => exact .settled (.awaitSeen h1)
  | @handlerReturn r _ _ _ hst h1 =>
    obtain ⟨-, -, hn, -, -, -, ⟨hd, hl, hreqs, ht⟩ | ⟨-, hreqs, ht⟩⟩ := eventHandlerReturn_ok h1
    · exact .deletes hst hd hl hn hreqs (.of_cons ht fun _ _ => rfl)
    · exact .settled (.of_eq hn ht)
  | cancel _ _ h1 =>
    obtain ⟨ring, -, -, rfl⟩ := ioUringGetSqe_some h1
    exact .settled (.of_eq rfl rfl)
  | dead hst _ _ h1 =>
    obtain ⟨hn, hd⟩ := Settled.of_quiet (.finish (by exact hst) h1)
    exact .settled ⟨hn, hd⟩
  | @batch h _ _ _ _ _ hst hb _ h1 =>
    have hrun := hp.place_of_top hst
    exact ledger_batch hst hrun (hp.lt_nextCoro (by simp [hrun])) h1
  | poll _ _ _ _ hq => exact .settled ((Settled.of_quiet hq).trans (.of_eq rfl rfl))
  | register _ h1 =>
    obtain ⟨hn, hd⟩ := Settled.registerCoroReturn h1
    exact .settled ⟨hn, hd⟩

/-! ### Who lives how long -/

/-- An element of the vector of a batch lives as long as its body, and a record of the heap until it is deleted, which
happens at most once. -/
structure Lives (s : State) : Prop where
  vector : ∀ r h, r < s.nextReq → (s.reqs r).home = .vector h → h < s.nextCoro ∧ r ∈ (s.coros h).reqs ∧
    (s.reqs r).live = (s.coros h).place.unfinished
  heap : ∀ r, r < s.nextReq → (s.reqs r).home = .heap → s.deletes r = if (s.reqs r).live = true then 0 else 1
  other : ∀ r, s.nextReq ≤ r ∨ (s.reqs r).home ≠ .heap → s.deletes r = 0

theorem step_acts {c : Choice} (hs : State.step s c = .ok s') (hp : Placed s)
    (htop : ∀ r h rest, s.stack ≠ .eventHandler r h :: rest) : Acts (fun _ => True) s s' := by
  cases step_does hs hp (fun _ _ _ _ _ => trivial) htop with
  | acts ha => exact ha
  | wakes hX | throws hX | destroys hX => exact absurd trivial hX

/-- **A record of the heap** dies where `event_handler` returns from the dispatch to it, and nowhere else. -/
theorem heap_live {c : Choice} (hreach : Reachable s) (hs : State.step s c = .ok s') {r : ReqId} (hr : r < s.nextReq)
    (hh : (s.reqs r).home = .heap) (htop : ∀ h rest, s.stack ≠ .eventHandler r h :: rest) :
    (s'.reqs r).live = (s.reqs r).live := by
  by_cases hev : ∃ x h rest, s.stack = .eventHandler x h :: rest
  · obtain ⟨x, h, rest, hst⟩ := hev
    obtain ⟨-, -, -, -, -, -, ⟨-, -, hreqs, -⟩ | ⟨-, hreqs, -⟩⟩ := eventHandlerReturn_ok (step_eventHandler hst hs)
    · have hx : r ≠ x := fun hx => htop h rest (hx ▸ hst)
      rw [hreqs, Function.update_of_ne hx]
      rfl
    · rw [hreqs]
      rfl
  · have ha := step_acts hs hreach.placed fun x h rest hst => hev ⟨x, h, rest, hst⟩
    cases hl : (s.reqs r).live with
    | false =>
      by_contra hne
      rw [ha.mono r hr (by simpa using hne)] at hl
      cases hl
    | true =>
      by_contra hne
      obtain ⟨x, -, hp | ⟨-, hm, -⟩⟩ := ha.live r hr (by simp [hh]) hl (by simpa using hne)
      · have h1 := (hreach.sound.records.atIo x r hp).2.1
        rw [hh] at h1
        cases h1
      · rcases (hreach.sound.records.owned x r hm).2 with h1 | h1 <;> rw [hh] at h1 <;> cases h1

theorem heap_step {c : Choice} (hreach : Reachable s) (hs : State.step s c = .ok s') {r : ReqId} (hr : r < s.nextReq)
    (hh : (s.reqs r).home = .heap) : (s'.deletes r = s.deletes r ∧ (s'.reqs r).live = (s.reqs r).live) ∨
      (s'.deletes r = s.deletes r + 1 ∧ (s.reqs r).live = true ∧ (s'.reqs r).live = false) := by
  have hsame : s'.deletes r = s.deletes r → (s'.reqs r).live = (s.reqs r).live := by
    intro hd
    by_cases hev : ∃ h rest, s.stack = .eventHandler r h :: rest
    · obtain ⟨h, rest, hst⟩ := hev
      obtain ⟨-, -, -, -, -, -, ⟨-, -, -, ht⟩ | ⟨-, hreqs, -⟩⟩ := eventHandlerReturn_ok (step_eventHandler hst hs)
      · rw [State.deletes, ht, List.count_cons_self] at hd
        exact absurd hd (Nat.succ_ne_self _)
      · rw [hreqs]
        rfl
    · exact heap_live hreach hs hr hh fun h rest hst => hev ⟨h, rest, hst⟩
  cases step_ledger hs hreach.placed with
  | settled hset => exact .inl ⟨hset.deletes r, hsame (hset.deletes r)⟩
  | awaitable _ _ hd | vector _ _ hd => exact .inl ⟨hd _ rfl, hsame (hd _ rfl)⟩
  | heap _ _ _ hd =>
    have hd' : s'.deletes r = s.deletes r := hd.deletes_of_ne (Nat.ne_of_lt hr)
    exact .inl ⟨hd', hsame hd'⟩
  | @deletes x h rest hst _ hlive _ hreqs hd =>
    by_cases hx : r = x
    · subst hx
      exact .inr ⟨by rw [hd.deletes, if_pos rfl], hlive, by rw [hreqs, Function.update_self]⟩
    · have hd' : s'.deletes r = s.deletes r := by rw [hd.deletes, if_neg hx, Nat.add_zero]
      exact .inl ⟨hd', hsame hd'⟩

namespace Lives

theorem init (hi : State.Initial s) : Lives s := by
  have hn : s.nextReq = 0 := by cases hi <;> rfl
  have ht : s.trace = [] := by cases hi <;> rfl
  refine ⟨fun r h hr => ?_, fun r hr => ?_, fun r _ => by rw [State.deletes, ht]; rfl⟩
  · rw [hn] at hr
    exact absurd hr (Nat.not_lt_zero r)
  · rw [hn] at hr
    exact absurd hr (Nat.not_lt_zero r)

theorem vector_step (hl : Lives s) {c : Choice} (hreach : Reachable s) (hs : State.step s c = .ok s')
    {r : ReqId} {h : CoroId}
    (hr : r < s.nextReq) (hh : (s.reqs r).home = .vector h) : h < s'.nextCoro ∧ r ∈ (s'.coros h).reqs ∧
      (s'.reqs r).live = (s'.coros h).place.unfinished := by
  obtain ⟨hlt, hm, heq⟩ := hl.vector r h hr hh
  by_cases hev : ∃ x y rest, s.stack = .eventHandler x y :: rest
  · obtain ⟨x, y, rest, hst⟩ := hev
    obtain ⟨hcoros, hnc, -, -, -, -, ⟨hd, -, hreqs, -⟩ | ⟨-, hreqs, -⟩⟩ :=
      eventHandlerReturn_ok (step_eventHandler hst hs)
    · have hx : r ≠ x := by
        rintro rfl
        have h1 := hreach.sound.records.dynamic r hd
        rw [hh] at h1
        cases h1
      rw [hcoros, hnc, hreqs, Function.update_of_ne hx]
      exact ⟨hlt, hm, heq⟩
    · rw [hcoros, hnc, hreqs]
      exact ⟨hlt, hm, heq⟩
  · have ha := step_acts hs hreach.placed fun x y rest hst => hev ⟨x, y, rest, hst⟩
    refine ⟨hlt.trans_le ha.nextCoro, ha.keeps h r hlt hm, ?_⟩
    rw [Bool.eq_iff_iff]
    constructor
    · intro hl'
      by_contra hu'
      have hu : (s.coros h).place.unfinished = true := heq ▸ ha.mono r hr hl'
      rw [ha.ended h r hlt hu (by simpa using hu') hm hr] at hl'
      cases hl'
    · intro hu'
      by_contra hl'
      have hlive : (s.reqs r).live = true := heq.trans (ha.alive h hlt hu')
      obtain ⟨x, -, hp | ⟨-, hmx, hx⟩⟩ := ha.live r hr (by simp [hh]) hlive (by simpa using hl')
      · have h1 := (hreach.sound.records.atIo x r hp).2.1
        rw [hh] at h1
        cases h1
      · rcases (hreach.sound.records.owned x r hmx).2 with h1 | h1 <;> rw [hh] at h1 <;> cases h1
        rw [hu'] at hx
        cases hx

theorem step (hl : Lives s) {c : Choice} (hreach : Reachable s) (hs : State.step s c = .ok s') : Lives s' := by
  have hlast := Lasting.step hs
  have hold : ∀ r, r < s.nextReq → (s'.reqs r).home = .heap →
      s'.deletes r = if (s'.reqs r).live = true then 0 else 1 := by
    intro r hr hh
    have hh0 : (s.reqs r).home = .heap := (hlast.home r hr).symm.trans hh
    have h0 := hl.heap r hr hh0
    rcases heap_step hreach hs hr hh0 with ⟨hd, hlive⟩ | ⟨hd, hlive, hlive'⟩
    · rw [hd, hlive]
      exact h0
    · rw [hlive] at h0
      rw [hd, h0, hlive']
      rfl
  have hvec : ∀ r h, r < s.nextReq → (s'.reqs r).home = .vector h → h < s'.nextCoro ∧ r ∈ (s'.coros h).reqs ∧
      (s'.reqs r).live = (s'.coros h).place.unfinished := fun r h hr hh =>
    hl.vector_step hreach hs hr ((hlast.home r hr).symm.trans hh)
  -- what was of no interest before
  have hfresh : ∀ r, s'.nextReq ≤ r ∨ (s'.reqs r).home ≠ .heap → s.deletes r = 0 := by
    intro r hr
    by_cases hlt : r < s.nextReq
    · refine hl.other r (.inr ?_)
      rw [← hlast.home r hlt]
      exact hr.resolve_left (not_le.mpr (hlt.trans_le hlast.nextReq))
    · exact hl.other r (.inl (not_lt.mp hlt))
  cases step_ledger hs hreach.placed with
  | settled hset =>
    rw [← hset.nextReq] at hold hvec
    exact ⟨hvec, hold, fun r hr => (hset.deletes r).trans (hfresh r hr)⟩
  | @awaitable a hn hh hd =>
    have hnew : ∀ r, r < s'.nextReq → r < s.nextReq ∨ r = s.nextReq := by omega
    refine ⟨fun r h hr hv => ?_, fun r hr hv => ?_, fun r hr => (hd _ rfl).trans (hfresh r hr)⟩
    · rcases hnew r hr with hr | rfl
      · exact hvec r h hr hv
      · rw [hh] at hv
        cases hv
    · rcases hnew r hr with hr | rfl
      · exact hold r hr hv
      · rw [hh] at hv
        cases hv
  | heap hn hh _ hd =>
    have hnew : ∀ r, r < s'.nextReq → r < s.nextReq ∨ r = s.nextReq := by omega
    refine ⟨fun r h hr hv => ?_, fun r hr hv => ?_, fun r hr => ?_⟩
    · rcases hnew r hr with hr | rfl
      · exact hvec r h hr hv
      · rw [hh] at hv
        cases hv
    · rcases hnew r hr with hr | rfl
      · exact hold r hr hv
      · rw [hd.first, if_pos rfl, hl.other s.nextReq (.inl le_rfl), Nat.zero_add]
    · have hne : r ≠ s.nextReq := by
        rintro rfl
        rcases hr with hr | hr
        · omega
        · exact hr hh
      exact (hd.deletes_of_ne hne).trans (hfresh r hr)
  | @vector h hlt hu hd hall =>
    refine ⟨fun r x hr hv => ?_, fun r hr hv => ?_, fun r hr => (hd _ rfl).trans (hfresh r hr)⟩
    · by_cases hr0 : r < s.nextReq
      · exact hvec r x hr0 hv
      · obtain ⟨hh, hlive, hm⟩ := hall r (not_lt.mp hr0) hr
        obtain rfl : h = x := by simpa using hh.symm.trans hv
        exact ⟨hlt, hm, hlive.trans hu.symm⟩
    · by_cases hr0 : r < s.nextReq
      · exact hold r hr0 hv
      · obtain ⟨hh, -⟩ := hall r (not_lt.mp hr0) hr
        rw [hh] at hv
        cases hv
  | @deletes x h rest hst hdyn hlive hn hreqs hd =>
    rw [← hn] at hold hvec
    refine ⟨hvec, hold, fun r hr => ?_⟩
    have hx : x < s.nextReq ∧ (s.reqs x).home = .heap :=
      ⟨hreach.sound.records.lt_nextReq hlive, hreach.sound.records.dynamic x hdyn⟩
    have hne : r ≠ x := by
      rintro rfl
      rcases hr with hr | hr
      · exact absurd hx.1 (not_lt.mpr (hn ▸ hr))
      · exact hr ((hlast.home r hx.1).trans hx.2)
    rw [hd.deletes, if_neg hne]
    exact hfresh r hr

end Lives

end State

theorem Reachable.lives {s : State} (h : Reachable s) : s.Lives := by
  refine Reach.inv_of (J := fun s => Reachable s) (fun s hs => hs) (fun s hi => .init hi) ?_ h
  exact fun s c s' hreach hl _ hs => hl.step hreach hs

end EvManager
