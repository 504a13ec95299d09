import EvManager.Entries

/-!
# What is posted for a request

How many entries that carry the address of one of the records `rs` are pending, and how many are in
flight.  **`step_posts`**: apart from those that are handed out for new records, entries only move from the one to
the other and then are answered.
-/

namespace EvManager

open Lib State

/-- The entry carries the address of one of the records. -/
def Slot.among (rs : List ReqId) (y : Slot) : Bool :=
  match y.sqe.userData with
  | some r => r ∈ rs
  | none => false

/-- The entry was written for one of the records. -/
def Slot.postedFor (rs : List ReqId) (y : Slot) : Bool := y.written && y.among rs

namespace State

variable {s s' u : State} {c : Choice} {rs : List ReqId}

/-- How many entries for the records wait to be taken. -/
def queuedFor (rs : List ReqId) (s : State) : ℕ := s.ev.ring.pending.countP (Slot.postedFor rs)

/-- How many entries with the address of one of the records are in flight. -/
def takenFor (rs : List ReqId) (s : State) : ℕ := s.ev.ring.inFlight.countP (Slot.among rs)

/-- Between `s` and `s'` neither changes. -/
structure Unposted (rs : List ReqId) (s s' : State) : Prop where
  queued : s'.queuedFor rs = s.queuedFor rs
  taken : s'.takenFor rs = s.takenFor rs

namespace Unposted

theorem of_ring (h : s'.ev.ring = s.ev.ring) : Unposted rs s s' :=
  ⟨by rw [queuedFor, h, queuedFor], by rw [takenFor, h, takenFor]⟩

theorem trans (h : Unposted rs s u) (h' : Unposted rs u s') : Unposted rs s s' :=
  ⟨h'.queued.trans h.queued, h'.taken.trans h.taken⟩

theorem getSqe {mark : Slot → Slot} {j : ℕ} {ring : Uring Slot} (hr : s.ev.ring.getSqe mark = some (j, ring))
    (hs : s'.ev.ring = ring) (hm : (mark (s.ev.ring.sqes j)).postedFor rs = false) : Unposted rs s s' := by
  refine ⟨?_, by rw [takenFor, hs, Uring.getSqe_inFlight hr, takenFor]⟩
  rw [queuedFor, hs, (Uring.getSqe_pending hr).1, List.countP_append, queuedFor]
  simp [hm]

theorem getUringSqe {p : Purpose} {x : Option ℕ} (hs : s.getUringSqe p = .ok (x, s')) : Unposted rs s s' := by
  rcases getUringSqe_ok hs with ⟨-, -, rfl⟩ | ⟨j, ring, -, -, -, hr, rfl⟩
  · exact of_ring rfl
  · exact getSqe hr rfl rfl

theorem write {j : ℕ} {f : Slot → Slot} (hs : s'.ev.ring = s.ev.ring.write j f)
    (h0 : (s.ev.ring.sqes j).postedFor rs = false)
    (h1 : (f (s.ev.ring.sqes j)).postedFor rs = false) : Unposted rs s s' :=
  ⟨by rw [queuedFor, hs, Uring.countP_write_eq _ _ h0 h1, queuedFor],
    by rw [takenFor, hs, Uring.write_inFlight, takenFor]⟩

theorem ioOp {ctx : Option CoroId} {p : ParameterPack} {r : ReqId} (hs : s.ioOp ctx p = .ok (r, s')) :
    Unposted rs s s' := by
  obtain ⟨-, -, sqe, s1, h1, rfl⟩ := ioOp_ok hs
  refine (getUringSqe h1).trans ?_
  cases ctx <;> exact of_ring rfl

theorem processRequests {h : CoroId} {l : List (ParameterPack × ReqId)} : ∀ {s s' : State},
    (∀ x ∈ l, x.2 ∉ rs) → s.processRequests h l = .ok s' → Unposted rs s s' := by
  induction l with
  | nil =>
    intro s s' _ hs
    cases hs
    exact of_ring rfl
  | cons x l ih =>
    intro s s' hl hs
    obtain ⟨req, r⟩ := x
    obtain ⟨⟨b, s1⟩, h1, h2⟩ := bind_ok.mp hs
    refine trans ?_ (ih (fun y hy => hl y (List.mem_cons_of_mem _ hy)) h2)
    rcases processSingleGenericRequest_ok h1 with ⟨-, -, rfl⟩ | ⟨-, -, -, j, ring, hr, rfl⟩
    · exact of_ring rfl
    · refine getSqe hr rfl ?_
      have hr' : r ∉ rs := hl (req, r) List.mem_cons_self
      simp [Slot.postedFor, queuedSlot, Slot.setData, ioUringSqeSetData, Slot.among, hr']

end Unposted

/-- What a step does to the entries for records that are there. -/
inductive Posts (rs : List ReqId) (s : State) (c : Choice) (s' : State) : Prop
  | keeps : Unposted rs s s' → Posts rs s c s'
  | writes {h : CoroId} {r : ReqId} {j : ℕ} {rest : List Activation} {f : Slot → Slot} : s.stack = .run h :: rest →
      c = .user (.awaitIo r) → s.Awaitable h r → (s.reqs r).sqe = some j →
      s'.ev.ring = s.ev.ring.write j (fun y => (f y).setData (some r)) → Posts rs s c s'
  | takes : s'.queuedFor rs + (s.ev.ring.pending.take (s.taking c)).countP (Slot.postedFor rs) = s.queuedFor rs →
      s'.takenFor rs = s.takenFor rs + (s.ev.ring.pending.take (s.taking c)).countP (Slot.among rs) → Posts rs s c s'
  | reaps {i : ℕ} {res : ℤ} {base : Addr} {y : Slot} {rest : List Activation} : s.stack = .awaitWait :: rest →
      c = .cqe i res base → s.ev.ring.inFlight[i]? = some y → s'.queuedFor rs = s.queuedFor rs →
      s'.takenFor rs + (if y.among rs then 1 else 0) = s.takenFor rs → Posts rs s c s'

theorem takes_submit (rs : List ReqId) {ret : ℤ} (hs : s.submitQueuedEntries ret = .ok s') :
    s'.queuedFor rs + (s.ev.ring.pending.take ret.toNat).countP (Slot.postedFor rs) = s.queuedFor rs ∧
      s'.takenFor rs = s.takenFor rs + (s.ev.ring.pending.take ret.toNat).countP (Slot.among rs) := by
  obtain ⟨-, -, -, rfl⟩ := submitQueuedEntries_ok hs
  constructor
  · show (s.ev.ring.submit ret.toNat).pending.countP _ + _ = s.ev.ring.pending.countP _
    rw [Uring.submit_pending, Nat.add_comm, ← List.countP_append, List.take_append_drop]
  · show (s.ev.ring.submit ret.toNat).inFlight.countP _ = s.ev.ring.inFlight.countP _ + _
    rw [Uring.submit_inFlight, List.countP_append]

/-- The slot of an awaitable that was just made holds what was left in it, which counts as not written. -/
theorem ioOp_slot {ctx : Option CoroId} {p : ParameterPack} {r : ReqId} {j : ℕ} (hs : s.ioOp ctx p = .ok (r, s'))
    (hj : (s'.reqs r).sqe = some j) : (s'.ev.ring.sqes j).written = false ∧ r = s.nextReq := by
  obtain ⟨-, hr, sqe, s1, h1, rfl⟩ := ioOp_ok hs
  refine ⟨?_, hr⟩
  rcases getUringSqe_ok h1 with ⟨rfl, -, rfl⟩ | ⟨i, ring, rfl, -, -, hring, rfl⟩
  · cases ctx <;> simp [newReq, ownReq, Request.awaitable, modCoro, hr] at hj
  · obtain rfl : i = j := by
      cases ctx <;> simpa [newReq, ownReq, Request.awaitable, modCoro, setRing, modEv, hr] using hj
    have hring' : ((((s.setRing ring).newReq (.awaitable ctx p (some i))).2.ownReq ctx r).ev.ring.sqes i) =
        (s.ev.ring.sqes i).hand (.request p s.nextReq) := by
      cases ctx <;> simp [newReq, ownReq, modCoro, setRing, modEv, Uring.getSqe_sqes hring, hr]
    rw [hring']
    rfl

theorem awaitIo_posts (rs : List ReqId) {h : CoroId} {r : ReqId} (hs : s.awaitIo h r = .ok s') : Unposted rs s s' ∨
    ∃ (j : ℕ) (f : Slot → Slot), s.Awaitable h r ∧ (s.reqs r).sqe = some j ∧
      s'.ev.ring = s.ev.ring.write j fun y => (f y).setData (some r) := by
  obtain ⟨ha, ⟨-, rfl⟩ | ⟨j, -, -, hj, rfl⟩⟩ := awaitIo_ok hs
  · exact .inl (.of_ring rfl)
  · exact .inr ⟨j, Slot.prep (prepareSqringOp (s.reqs r).data.specificData), ha, hj, rfl⟩

theorem postedFor_setData {r : ReqId} (hr : r ∉ rs) (y : Slot) : (y.setData (some r)).postedFor rs = false := by
  simp [Slot.postedFor, Slot.setData, ioUringSqeSetData, Slot.among, hr]

theorem posts_na {p : ParameterPack} {ret : ℤ} {e : Errnos} (hrs : ∀ r ∈ rs, r < s.nextReq)
    (hs : s.naOp p ret = .ok (e, s')) :
    Posts rs s (.user (.na p ret)) s' := by
  rcases naOp_ok hs with ⟨-, -, rfl⟩ | ⟨ha, j, ring, s2, hr, h2, hcase⟩
  · exact .keeps (.of_ring rfl)
  · have hfresh : s.nextReq ∉ rs := fun hm => lt_irrefl _ (hrs _ hm)
    have hnew : (naSlot p s.nextReq (s.ev.ring.sqes j)).postedFor rs = false := postedFor_setData hfresh _
    have hamong : (naSlot p s.nextReq (s.ev.ring.sqes j)).among rs = false := by
      simp [naSlot, Slot.setData, ioUringSqeSetData, Slot.among, hfresh]
    have hget : Unposted rs s (s.setRing ring) := .getSqe hr rfl hnew
    obtain ⟨hq, ht⟩ := takes_submit rs h2
    have hring : s'.ev.ring = s2.ev.ring := by rcases hcase with ⟨-, -, rfl⟩ | ⟨-, -, rfl⟩ <;> rfl
    have htake : s.taking (.user (.na p ret)) = ret.toNat := if_pos ha
    have hpend : (s.setRing ring).ev.ring.pending = s.ev.ring.pending ++ [naSlot p s.nextReq (s.ev.ring.sqes j)] :=
      (Uring.getSqe_pending hr).1
    -- the new entry, if it is taken, counts for none of the records
    have hcount : ∀ f : Slot → Bool, f (naSlot p s.nextReq (s.ev.ring.sqes j)) = false →
        ((s.setRing ring).ev.ring.pending.take ret.toNat).countP f = (s.ev.ring.pending.take ret.toNat).countP f := by
      intro f hf
      rw [hpend, List.take_append, List.countP_append, Nat.add_eq_left, List.countP_eq_zero]
      intro y hy
      have hy' : y = naSlot p s.nextReq (s.ev.ring.sqes j) := by simpa using List.mem_of_mem_take hy
      simp [hy', hf]
    rw [hcount _ hnew, hget.queued] at hq
    rw [hcount _ hamong, hget.taken] at ht
    refine .takes ?_ ?_
    · rw [htake, queuedFor, hring, ← queuedFor]
      exact hq
    · rw [htake, takenFor, hring, ← takenFor]
      exact ht

theorem posts_submit {ret : ℤ} {s1 s2 : State} (hc : c.ret = some ret) (hna : ∀ p ret, c ≠ .user (.na p ret))
    (h0 : Unposted rs s s1) (hring : s1.ev.ring = s.ev.ring) (h1 : s1.submitQueuedEntries ret = .ok s2)
    (h2 : Unposted rs s2 s') :
    Posts rs s c s' := by
  have htake : s.taking c = ret.toNat := by
    cases c with
    | sub ret' =>
      obtain rfl : ret' = ret := Option.some.inj hc
      rfl
    | user a =>
      cases a with
      | submitQueuedEntries ret' =>
        obtain rfl : ret' = ret := Option.some.inj hc
        rfl
      | na p ret' => exact absurd rfl (hna p ret')
      | _ => cases hc
    | _ => cases hc
  obtain ⟨hq, ht⟩ := takes_submit rs h1
  rw [hring, h0.queued, ← h2.queued] at hq
  rw [hring, h0.taken, ← h2.taken] at ht
  exact .takes (htake ▸ hq) (htake ▸ ht)

theorem takenFor_reap (rs : List ReqId) {i : ℕ} {y : Slot} (hy : s.ev.ring.inFlight[i]? = some y)
    (hs : s'.ev.ring = s.ev.ring.reap i) :
    s'.takenFor rs + (if y.among rs then 1 else 0) = s.takenFor rs := by
  obtain ⟨hi, rfl⟩ := List.getElem?_eq_some_iff.mp hy
  rw [takenFor, takenFor, hs, Uring.reap_inFlight, ← (List.getElem_cons_eraseIdx_perm hi).countP_eq (Slot.among rs),
    List.countP_cons]

/-- **What a step does to the entries for records that are there.** -/
theorem step_posts (hrs : ∀ r ∈ rs, r < s.nextReq) (hs : State.step s c = .ok s') : Posts rs s c s' := by
  cases step_effect hs with
  | quiet hq => exact .keeps (.of_ring hq.ring)
  | io h1 => exact .keeps (.ioOp h1)
  | awaitIo hst h1 =>
    rcases awaitIo_posts rs h1 with h2 | ⟨j, f, ha, hj, h2⟩
    · exact .keeps h2
    · exact .writes hst rfl ha hj h2
  | awaitOp _ h1 h2 =>
    refine .keeps ((Unposted.ioOp h1).trans ?_)
    rcases awaitIo_posts rs h2 with h3 | ⟨j, f, -, hj, h3⟩
    · exact h3
    · obtain ⟨hw, rfl⟩ := ioOp_slot h1 hj
      exact .write h3 (by simp [Slot.postedFor, hw]) (postedFor_setData (fun hm => lt_irrefl _ (hrs _ hm)) _)
  | na h1 => exact posts_na hrs h1
  | submit hc hna hq h1 hq' => exact posts_submit hc hna (.of_ring hq.ring) hq.ring h1 (.of_ring hq'.ring)
  | rawSqe h1 => exact .keeps (.getUringSqe h1)
  | start | leave | dying => exact .keeps (.of_ring rfl)
  | message _ h1 => exact .keeps (.of_ring (ring_awaitMessage h1).1)
  | @cqe i res base rest _ hst h1 =>
    have hring := (ring_awaitCqe h1).1
    obtain ⟨y, hy⟩ : ∃ y, s.ev.ring.inFlight[i]? = some y := by
      unfold State.awaitCqe at h1
      split at h1
      · split at h1
        · rename_i y hy
          exact ⟨y, hy⟩
        · cases h1
      · cases h1
    exact .reaps hst rfl hy (by rw [queuedFor, hring, Uring.reap_pending, queuedFor]) (takenFor_reap rs hy hring)
  | seen _ h1 => exact .keeps (.of_ring (ring_awaitSeen h1).1)
  | handlerReturn _ h1 => exact .keeps (.of_ring ((Uncounted.eventHandlerReturn h1).ring.trans rfl))
  | @cancel h rest j s1 _ _ h1 =>
    obtain ⟨ring, -, hr, rfl⟩ := ioUringGetSqe_some h1
    have h2 : Unposted rs s (s.setRing ring) := .getSqe hr rfl rfl
    refine .keeps (h2.trans (.write (j := j) rfl ?_ ?_)) <;>
      simp [setRing, modEv, Uring.getSqe_sqes hr, Slot.hand, Slot.prep, Slot.postedFor]
  | dead hst _ _ h1 => exact .keeps (.of_ring ((Quiet.finish (by exact hst) h1).ring.trans rfl))
  | @batch h rest q _ _ _ hst _ _ h1 =>
    unfold State.submitAndWaitBegin at h1
    obtain ⟨s1, h2, h3⟩ := bind_ok.mp h1
    have hn : s1.nextReq = s.nextReq := (Settled.submit h2).nextReq
    have hst1 := (submitQueuedEntries_stack h2).1
    split at h3
    · have h4 := Quiet.finish (by rw [hst1, hst]) h3
      exact posts_submit rfl (by simp) (.of_ring rfl) rfl h2 (.of_ring h4.ring)
    · obtain ⟨s3, h4, h5⟩ := bind_ok.mp h3
      cases h5
      have h6 : Unposted rs s1 (s1.newVector h q.length).2 := .of_ring rfl
      have h7 : Unposted rs (s1.newVector h q.length).2 s3 := .processRequests (fun x hx hm => ?_) h4
      · exact posts_submit rfl (by simp) (.of_ring rfl) rfl h2 ((h6.trans h7).trans (.of_ring rfl))
      have hge := (List.mem_range'_1.mp (List.of_mem_zip hx).2).1
      exact absurd (hrs _ hm) (not_lt.mpr (hn ▸ hge))
  | poll _ _ _ _ hq => exact .keeps (.of_ring hq.ring)
  | register _ h1 => exact .keeps (.of_ring ((Uncounted.registerCoroReturn h1).ring.trans rfl))

theorem Unposted.of_write {j : ℕ} {f : Slot → Slot} (hs : s'.ev.ring = s.ev.ring.write j f)
    (h0 : ∀ k, s.ev.ring.Holds k j → (s.ev.ring.sqes j).postedFor rs = false) (h1 : ∀ y, (f y).postedFor rs = false) :
    Unposted rs s s' := by
  rcases Uring.write_pending s.ev.ring j f with ⟨k, hk, -⟩ | ⟨-, hp⟩
  · exact .write hs (h0 k hk) (h1 _)
  · exact ⟨by rw [queuedFor, hs, hp, queuedFor], by rw [takenFor, hs, Uring.write_inFlight, takenFor]⟩

theorem posted_fresh (h : ∀ y, s.ev.ring.Has y → ∀ r, y.sqe.userData = some r → r < s.nextReq)
    (hrs : ∀ r ∈ rs, s.nextReq ≤ r) :
    s.queuedFor rs = 0 ∧ s.takenFor rs = 0 := by
  have hnone : ∀ y, s.ev.ring.Has y → y.among rs = false := by
    intro y hy
    unfold Slot.among
    cases hu : y.sqe.userData with
    | none => rfl
    | some r =>
      have hr : r ∉ rs := fun hm => absurd (h y hy r hu) (not_lt.mpr (hrs r hm))
      simp [hr]
  constructor
  · refine List.countP_eq_zero.mpr fun y hy => ?_
    simp [Slot.postedFor, hnone y (Uring.has_of_mem_pending hy)]
  · exact List.countP_eq_zero.mpr fun y hy => by simp [hnone y (.inr hy)]

/-- The entries of a batch are all for its records. -/
theorem processRequests_posts {h : CoroId} {l : List (ParameterPack × ReqId)} : ∀ {s s' : State}, (∀ x ∈ l, x.2 ∈ rs) →
    s.processRequests h l = .ok s' → s'.queuedFor rs + s.ev.ring.unpublished = s.queuedFor rs + s'.ev.ring.unpublished ∧
      s'.takenFor rs = s.takenFor rs := by
  induction l with
  | nil =>
    intro s s' _ hs
    cases hs
    exact ⟨rfl, rfl⟩
  | cons x l ih =>
    intro s s' hl hs
    obtain ⟨req, r⟩ := x
    obtain ⟨⟨b, s1⟩, h1, h2⟩ := bind_ok.mp hs
    obtain ⟨hq, ht⟩ := ih (fun y hy => hl y (List.mem_cons_of_mem _ hy)) h2
    rcases processSingleGenericRequest_ok h1 with ⟨-, -, rfl⟩ | ⟨-, -, -, j, ring, hr, rfl⟩
    · exact ⟨hq, ht⟩
    · have hr' : r ∈ rs := hl (req, r) List.mem_cons_self
      have hone : ((s.setRing ring).modReq r fun q => { q with data := q.data.queue h req }).queuedFor rs =
        s.queuedFor rs + 1 := by
        show ring.pending.countP (Slot.postedFor rs) = _
        rw [(Uring.getSqe_pending hr).1, List.countP_append, queuedFor]
        simp [Slot.postedFor, queuedSlot, Slot.setData, ioUringSqeSetData, Slot.among, hr']
      have hunp : ((s.setRing ring).modReq r fun q => { q with data := q.data.queue h req }).ev.ring.unpublished =
          s.ev.ring.unpublished + 1 := Uring.getSqe_unpublished hr
      have hfl : ((s.setRing ring).modReq r fun q => { q with data := q.data.queue h req }).takenFor rs =
        s.takenFor rs :=
        congrArg (List.countP _) (Uring.getSqe_inFlight hr)
      rw [hone, hunp] at hq
      exact ⟨by omega, ht.trans hfl⟩

end State

end EvManager
