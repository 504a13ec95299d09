import EvManager.Batches
import EvManager.FailedKill
import EvManager.Vectors

/-!
# The order in which entries are queued

The ring is a queue, and a record is made in the step that hands out its entry.  So entries are taken in the order
in which the records they were handed out for were made, those of a batch in the order of its queue
(**`batch_queues`**), and once the manager is past LIVING only the cancel request of `kill_internal` is still
queued (**`past_living`**).
-/

namespace EvManager

open Lib State

/-- The record of the request that an entry is for. -/
def Purpose.record : Option Purpose → Option ReqId
  | some (.request _ r) => some r
  | _ => none

namespace State

variable {s s' s'' : State} {c : Choice}

/-- What the pending entries were handed out for, oldest first. -/
def queue (s : State) : List (Option Purpose) := s.ev.ring.pending.map Slot.purpose

/-- What the entries in flight were handed out for. -/
def flight (s : State) : List (Option Purpose) := s.ev.ring.inFlight.map Slot.purpose

/-- The requests that the entries of the ring were handed out for, in the order of the entries: those in flight before
those pending. -/
def issued (s : State) : List ReqId := (s.flight ++ s.queue).filterMap Purpose.record

/-! ### What is handed out -/

theorem queue_submit {ret : ℤ} (hs : s.submitQueuedEntries ret = .ok s') : ret ≤ s.queue.length ∧
    s'.queue = s.queue.drop ret.toNat ∧ s'.flight = s.flight ++ s.queue.take ret.toNat ∧ s'.nextReq = s.nextReq := by
  obtain ⟨-, -, hle, rfl⟩ := submitQueuedEntries_ok hs
  refine ⟨by simpa only [queue, List.length_map] using hle, ?_, ?_, rfl⟩
  · show (s.ev.ring.submit ret.toNat).pending.map Slot.purpose = _
    rw [Uring.submit_pending, List.map_drop]
    rfl
  · show (s.ev.ring.submit ret.toNat).inFlight.map Slot.purpose = _
    rw [Uring.submit_inFlight, List.map_append, List.map_take]
    rfl

/-- What the entries that are handed out between `s` and `s'` are for. -/
inductive NewEntries (s s' : State) : List (Option Purpose) → Prop
  | none : NewEntries s s' []
  | cancel {rest : List Activation} : s.stack = .run 0 :: rest → (s.coros 0).body = .killInternal .cancel →
      NewEntries s s' [some .cancel]
  | requests {l : List (Option Purpose)} : s.shouldRestrictUsage = false →
      (l.filterMap Purpose.record).Pairwise (· < ·) →
      (∀ r ∈ l.filterMap Purpose.record, s.nextReq ≤ r ∧ r < s'.nextReq) → NewEntries s s' l

theorem NewEntries.sorted {l : List (Option Purpose)} (h : NewEntries s s' l) :
    (l.filterMap Purpose.record).Pairwise (· < ·) ∧ ∀ r ∈ l.filterMap Purpose.record, s.nextReq ≤ r ∧
    r < s'.nextReq := by
  cases h with
  | none | cancel => exact ⟨.nil, fun r hr => by cases hr⟩
  | requests _ hsort hrange => exact ⟨hsort, hrange⟩

/-- What happens to the entries between `s` and `s'`: the entries `a` are handed out, then the oldest entries are
taken, then the entries `b` are handed out; or a completion is taken off. -/
inductive Issues (s s' : State) : Prop
  | moves {n : ℕ} {a b : List (Option Purpose)} : s'.queue = (s.queue ++ a).drop n ++ b →
      s'.flight = s.flight ++ (s.queue ++ a).take n → NewEntries s s' (a ++ b) → Issues s s'
  | reaps {i : ℕ} {rest : List Activation} : s.stack = .awaitWait :: rest → s'.queue = s.queue →
      s'.flight = s.flight.eraseIdx i → Issues s s'

namespace Issues

theorem of_eq (hq : s'.queue = s.queue) (hf : s'.flight = s.flight) : Issues s s' :=
  .moves (n := 0) (a := []) (b := []) (by simp [hq]) (by simp [hf]) .none

theorem of_ring (hr : s'.ev.ring = s.ev.ring) : Issues s s' :=
  of_eq (by rw [queue, hr, queue]) (by rw [flight, hr, flight])

theorem getSqe {mark : Slot → Slot} {p : Purpose} (hm : ∀ x, (mark x).purpose = some p) {j : ℕ} {ring : Uring Slot}
    (hr : s.ev.ring.getSqe mark = some (j, ring)) (hs : s'.ev.ring = ring) (hp : NewEntries s s' [some p]) :
    Issues s s' := by
  refine .moves (n := 0) (a := []) (b := [some p]) ?_ ?_ hp
  · rw [List.append_nil, List.drop_zero, queue, hs, (Uring.getSqe_pending hr).1, List.map_append, List.map_cons, hm]
    rfl
  · rw [flight, hs, Uring.getSqe_inFlight hr]
    simp [flight]

theorem and_then (h : Issues s s') (hq : s''.queue = s'.queue) (hf : s''.flight = s'.flight)
    (hn : s'.nextReq ≤ s''.nextReq) :
    Issues s s'' := by
  cases h with
  | @moves n a b hq1 hf1 hnew =>
    refine .moves (hq.trans hq1) (hf.trans hf1) ?_
    generalize a ++ b = l at hnew
    cases hnew with
    | none => exact .none
    | cancel hst h1 => exact .cancel hst h1
    | requests hlive hsort hrange =>
      exact .requests hlive hsort fun r hr => ⟨(hrange r hr).1, (hrange r hr).2.trans_le hn⟩
  | reaps hst hq1 hf1 => exact .reaps hst (hq.trans hq1) (hf.trans hf1)

theorem request {p : ParameterPack} (hlive : s.shouldRestrictUsage = false) (hn : s'.nextReq = s.nextReq + 1) :
    NewEntries s s' [some (.request p s.nextReq)] := by
  refine .requests hlive (by simp [Purpose.record]) fun r hr => ?_
  obtain rfl : r = s.nextReq := by simpa [Purpose.record] using hr
  exact ⟨le_rfl, hn.ge⟩

theorem ioOp {ctx : Option CoroId} {p : ParameterPack} {r : ReqId} (hs : s.ioOp ctx p = .ok (r, s')) : Issues s s' := by
  obtain ⟨-, rfl, sqe, s1, h1, rfl⟩ := ioOp_ok hs
  have hn : ((s1.newReq (.awaitable ctx p sqe)).2.ownReq ctx s.nextReq).nextReq = s1.nextReq + 1 := by cases ctx <;> rfl
  have hring : ((s1.newReq (.awaitable ctx p sqe)).2.ownReq ctx s.nextReq).ev.ring = s1.ev.ring := by cases ctx <;> rfl
  rcases getUringSqe_ok h1 with ⟨-, -, rfl⟩ | ⟨j, ring, -, ha, -, hr, rfl⟩
  · exact of_ring hring
  · exact getSqe (fun _ => rfl) hr hring (request ha.1 hn)

theorem entries_awaitIo {h : CoroId} {r : ReqId} (hs : s.awaitIo h r = .ok s') : s'.queue = s.queue ∧
    s'.flight = s.flight := by
  rcases awaitIo_ok hs with ⟨-, ⟨-, rfl⟩ | ⟨j, -, -, -, rfl⟩⟩
  · exact ⟨rfl, rfl⟩
  · exact ⟨Uring.map_write_pending s.ev.ring j fun _ => rfl, rfl⟩

end Issues

/-! ### The entries of a batch -/

theorem queuedSlot_eq (req : ParameterPack) (r : ReqId) (y : Slot) : queuedSlot req r y = queuedSlot req r {} := by
  cases req <;> rfl

/-- How many entries `get_uring_sqe` has to give. -/
def room (s : State) : ℕ := if s.shouldRestrictUsage then 0 else s.ev.ring.entries - s.ev.ring.pending.length

/-- **The requests that fit are queued in order.** -/
theorem processRequests_pending {h : CoroId} {l : List (ParameterPack × ReqId)} : ∀ {s s' : State},
    s.processRequests h l = .ok s' →
      s'.ev.ring.pending = s.ev.ring.pending ++ (l.take s.room).map fun y => queuedSlot y.1 y.2 {} := by
  induction l with
  | nil =>
    intro s s' hs
    cases hs
    simp
  | cons y l ih =>
    intro s s' hs
    obtain ⟨req, a⟩ := y
    obtain ⟨⟨b, s1⟩, h1, h2⟩ := bind_ok.mp hs
    have h3 := ih h2
    rcases processSingleGenericRequest_ok h1 with ⟨-, hna, rfl⟩ | ⟨-, ha, -, j, ring, hr, rfl⟩
    · have hroom : s1.room = 0 := by
        unfold SqeAvailable at hna
        unfold room
        split
        · rfl
        · rename_i hlive
          have : ¬ s1.ev.ring.pending.length < s1.ev.ring.entries := fun hlt => hna ⟨by simpa using hlive, hlt⟩
          omega
      rw [hroom, List.take_zero] at h3 ⊢
      exact h3
    · have hpend := (Uring.getSqe_pending hr).1
      have hent : ring.entries = s.ev.ring.entries := Uring.getSqe_entries hr
      have hlt : s.ev.ring.pending.length < s.ev.ring.entries := ha.2
      have hroom : s.room = ((s.setRing ring).modReq a fun q => { q with data := q.data.queue h req }).room + 1 := by
        have hlive : s.shouldRestrictUsage = false := ha.1
        unfold room
        show (if s.shouldRestrictUsage then 0 else _) = (if s.shouldRestrictUsage then 0 else ring.entries -
          ring.pending.length) + 1
        rw [if_neg (by simp [hlive]), if_neg (by simp [hlive]), hpend, hent, List.length_append, List.length_singleton]
        omega
      rw [h3, hroom, List.take_succ_cons, List.map_cons]
      show ring.pending ++ _ = _
      rw [hpend, queuedSlot_eq, List.append_assoc, List.singleton_append]

/-- **What `submit_and_wait` begins with**: after its first submit the entries of its first requests that fit are
pending, in the order of the queue. -/
theorem submitAndWaitBegin_pending {h : CoroId} {q : RequestQueue} {ret : ℤ} (hret : 0 ≤ ret)
    (hs : s.submitAndWaitBegin h q ret = .ok s') :
    ∃ l, (s'.coros h).body = .submitAndWait q l ∧ l.reqData = List.range' s.nextReq q.length ∧
      s'.ev.ring.pending = s.ev.ring.pending.drop ret.toNat ++
        ((q.zip l.reqData).take
          (if s.shouldRestrictUsage then 0 else s.ev.ring.entries - (s.ev.ring.pending.length - ret.toNat))).map
          (fun y => queuedSlot y.1 y.2 {}) ∧
      s'.ev.ring.inFlight = s.ev.ring.inFlight ++ s.ev.ring.pending.take ret.toNat ∧
      s'.nextReq = s.nextReq + q.length := by
  obtain ⟨s1, h1, ⟨hneg, -⟩ | ⟨-, s2, h2, rfl⟩⟩ := submitAndWaitBegin_ok hs
  · exact absurd hneg (not_lt.mpr hret)
  obtain ⟨-, -, -, rfl⟩ := submitQueuedEntries_ok h1
  obtain ⟨hn, hf, -⟩ := processRequests_ring h2
  refine ⟨_, setBody_body .., rfl, ?_, hf, hn⟩
  refine (processRequests_pending h2).trans ?_
  show (s.ev.ring.submit ret.toNat).pending ++ List.map _ (List.take (if s.shouldRestrictUsage then 0
    else s.ev.ring.entries - (s.ev.ring.submit ret.toNat).pending.length) _) = _
  rw [Uring.submit_pending, List.length_drop]

theorem batch_records (q : RequestQueue) (rs : List ReqId) (hlen : rs.length = q.length) (room : ℕ) :
    (((q.zip rs).take room).map fun y => some (Purpose.request y.1 y.2)).filterMap Purpose.record = rs.take room := by
  have hrec : ∀ fit : List (ParameterPack × ReqId),
      (fit.map fun y => some (Purpose.request y.1 y.2)).filterMap Purpose.record = fit.map Prod.snd := by
    intro fit
    rw [List.filterMap_map]
    exact List.filterMap_eq_map.symm ▸ rfl
  rw [hrec, List.map_take, List.map_snd_zip hlen.le]

theorem Issues.batch {h : CoroId} {rest : List Activation} {q : RequestQueue} {ret : ℤ} (hst : s.stack = .run h :: rest)
    (hs : s.submitAndWaitBegin h q ret = .ok s') : Issues s s' := by
  by_cases hret : 0 ≤ ret
  · obtain ⟨l, -, hl, hq, hf, hn⟩ := submitAndWaitBegin_pending hret hs
    rw [hl] at hq
    generalize hroom : (if s.shouldRestrictUsage then 0 else _) = room at hq
    have hrec := batch_records q (List.range' s.nextReq q.length) (by rw [List.length_range']) room
    have hnone : room = 0 → (q.zip (List.range' s.nextReq q.length)).take room = [] :=
      fun h0 => by rw [h0, List.take_zero]
    generalize (q.zip (List.range' s.nextReq q.length)).take room = fit at hq hrec hnone
    refine .moves (n := ret.toNat) (a := []) (b := fit.map fun y => some (.request y.1 y.2)) ?_ ?_ ?_
    · rw [List.append_nil, queue, hq, List.map_append, List.map_drop, List.map_map]
      rfl
    · rw [List.append_nil, flight, hf, List.map_append, List.map_take]
      rfl
    · by_cases hlive : s.shouldRestrictUsage = true
      · rw [if_pos hlive] at hroom
        rw [hnone hroom.symm]
        exact .none
      · refine .requests (by simpa using hlive) ?_ fun r hr => ?_
        · rw [List.nil_append, hrec]
          exact List.Pairwise.sublist (List.take_sublist _ _) List.pairwise_lt_range'
        · rw [List.nil_append, hrec] at hr
          rw [hn]
          exact List.mem_range'_1.mp (List.mem_of_mem_take hr)
  · obtain ⟨s1, h1, ⟨-, h2⟩ | ⟨hpos, -⟩⟩ := submitAndWaitBegin_ok hs
    · obtain ⟨-, hq, hf, -⟩ := queue_submit h1
      have hh := Quiet.finish (by rw [(submitQueuedEntries_stack h1).1, hst]) h2
      refine .moves (n := ret.toNat) (a := []) (b := []) ?_ ?_ .none
      · rw [List.append_nil, List.append_nil, ← hq, queue, hh.ring, queue]
      · rw [List.append_nil, ← hf, flight, hh.ring, flight]
    · exact absurd hpos hret

/-- **What a step hands out.** -/
theorem step_issues (hreach : Reachable s) (hs : State.step s c = .ok s') : Issues s s' := by
  cases step_effect hs with
  | quiet hq => exact .of_ring hq.ring
  | io h1 => exact .ioOp h1
  | awaitIo _ h1 =>
    obtain ⟨hq, hf⟩ := Issues.entries_awaitIo h1
    exact .of_eq hq hf
  | awaitOp _ h1 h2 =>
    obtain ⟨hq, hf⟩ := Issues.entries_awaitIo h2
    exact (Issues.ioOp h1).and_then hq hf (Lasting.awaitIo h2).nextReq
  | @na p ret _ _ h1 =>
    rcases naOp_ok h1 with ⟨-, -, rfl⟩ | ⟨ha, j, ring, s2, hr, h2, hcase⟩
    · exact .of_ring rfl
    · obtain ⟨-, hq, hf, -⟩ := queue_submit h2
      have hone : (s.setRing ring).queue = s.queue ++ [some (.request p s.nextReq)] := by
        show ring.pending.map Slot.purpose = _
        rw [(Uring.getSqe_pending hr).1, List.map_append]
        rfl
      have hfl : (s.setRing ring).flight = s.flight := congrArg (List.map Slot.purpose) (Uring.getSqe_inFlight hr)
      rw [hone] at hq hf
      rw [hfl] at hf
      have hn : s'.nextReq = s.nextReq + 1 := by rcases hcase with ⟨-, -, rfl⟩ | ⟨-, -, rfl⟩ <;> rfl
      have hring : s'.ev.ring = s2.ev.ring := by rcases hcase with ⟨-, -, rfl⟩ | ⟨-, -, rfl⟩ <;> rfl
      refine .moves (n := ret.toNat) (a := [some (.request p s.nextReq)]) (b := []) ?_ ?_ (Issues.request ha.1 hn)
      · rw [List.append_nil, ← hq, queue, hring, queue]
      · rw [← hf, flight, hring, flight]
  | @submit _ ret s1 s2 _ _ _ hq h1 hq' =>
    obtain ⟨-, hqu, hf, -⟩ := queue_submit h1
    refine .moves (n := ret.toNat) (a := []) (b := []) ?_ ?_ .none
    · rw [List.append_nil, List.append_nil, queue, hq'.ring, ← queue, hqu, queue, hq.ring, queue]
    · rw [List.append_nil, flight, hq'.ring, ← flight, hf, flight, queue, hq.ring, flight, queue]
  | rawSqe h1 =>
    rcases getUringSqe_ok h1 with ⟨-, -, rfl⟩ | ⟨j, ring, -, ha, -, hr, rfl⟩
    · exact .of_ring rfl
    · exact .getSqe (p := .raw) (fun _ => rfl) hr rfl (.requests ha.1 .nil fun r hm => by cases hm)
  | start | leave | dying => exact .of_ring rfl
  | message _ h1 => exact .of_ring (ring_awaitMessage h1).1
  | @cqe i res base rest _ hst h1 =>
    have hring := (ring_awaitCqe h1).1
    refine .reaps (i := i) hst (by rw [queue, hring]; rfl) ?_
    rw [flight, hring, flight, Uring.reap_inFlight, List.eraseIdx_map]
  | seen _ h1 => exact .of_ring (ring_awaitSeen h1).1
  | handlerReturn _ h1 => exact .of_ring ((Uncounted.eventHandlerReturn h1).ring.trans rfl)
  | @cancel h rest j s1 hst hb h1 =>
    obtain rfl := (hreach.killing.only h).mp (by rw [hb]; rfl)
    obtain ⟨ring, -, hr, rfl⟩ := ioUringGetSqe_some h1
    have h2 : Issues s (s.setRing ring) := .getSqe (fun _ => rfl) hr rfl (.cancel hst hb)
    exact h2.and_then (Uring.map_write_pending ring j fun _ => rfl) rfl le_rfl
  | dead hst _ _ h1 => exact .of_ring ((Quiet.finish (by exact hst) h1).ring.trans rfl)
  | batch hst _ _ h1 => exact .batch hst h1
  | poll _ _ _ _ hq => exact .of_ring ((show _ = _ from rfl).trans hq.ring)
  | register _ h1 => exact .of_ring ((Uncounted.registerCoroReturn h1).ring.trans rfl)

/-! ### The order of requests -/

theorem issued_append (s : State) : s.issued = s.flight.filterMap Purpose.record ++ s.queue.filterMap Purpose.record :=
  List.filterMap_append

/-- What is in the ring afterwards was in it, in the same order, or is new. -/
theorem issued_moves {n : ℕ} {a b : List (Option Purpose)} (hq : s'.queue = (s.queue ++ a).drop n ++ b)
    (hf : s'.flight = s.flight ++ (s.queue ++ a).take n) :
    s'.issued = s.issued ++ (a ++ b).filterMap Purpose.record := by
  unfold issued
  rw [← List.filterMap_append, hq, hf]
  congr 1
  rw [← List.append_assoc, List.append_assoc s.flight, List.take_append_drop]
  simp

/-- The requests in the ring are in the order in which they were made. -/
def Ordered (s : State) : Prop := s.issued.Pairwise (· < ·) ∧ ∀ r ∈ s.issued, r < s.nextReq

theorem Ordered.step (h : Ordered s) (hreach : Reachable s) (hs : State.step s c = .ok s') : Ordered s' := by
  have hle := (Lasting.step hs).nextReq
  cases step_issues hreach hs with
  | moves hq hf hnew =>
    obtain ⟨hsort, hrange⟩ := hnew.sorted
    rw [Ordered, issued_moves hq hf]
    refine ⟨List.pairwise_append.mpr ⟨h.1, hsort, fun r hr r' hr' => ?_⟩, fun r hr => ?_⟩
    · exact (h.2 r hr).trans_le (hrange r' hr').1
    · rcases List.mem_append.mp hr with hr | hr
      · exact (h.2 r hr).trans_le hle
      · exact (hrange r hr).2
  | reaps _ hq hf =>
    have hsub : s'.issued.Sublist s.issued := by
      rw [issued, issued, hq, hf]
      exact ((List.eraseIdx_sublist ..).append (.refl _)).filterMap _
    exact ⟨h.1.sublist hsub, fun r hr => (h.2 r (hsub.mem hr)).trans_le hle⟩

theorem ordered_of_reachable (h : Reachable s) : Ordered s := by
  refine Reach.inv_of (I := Ordered) (J := fun s => Reachable s) (fun s hs => hs) (fun s hi => ?_)
    (fun s c s' hreach ho _ hs => ho.step hreach hs) h
  have hnil : s.issued = [] := by
    cases hi <;> simp [issued, queue, flight, State.init, initFailed, blank, Uring.init, Uring.pending]
  rw [Ordered, hnil]
  exact ⟨.nil, fun r hr => by cases hr⟩

/-- The requests that the pending entries were handed out for, oldest first. -/
def queued (s : State) : List ReqId := s.queue.filterMap Purpose.record

/-- Of the requests made before, the oldest leave the queue first and none comes back. -/
theorem queued_step (hreach : Reachable s) (hs : State.step s c = .ok s') {n : ReqId} (hn : n ≤ s.nextReq) :
    s'.queued.filter (· < n) <:+ s.queued.filter (· < n) := by
  cases step_issues hreach hs with
  | reaps _ hq =>
    rw [queued, hq, queued]
  | @moves k a b hq _ hnew =>
    have hfresh : ((a ++ b).filterMap Purpose.record).filter (· < n) = [] := by
      refine List.filter_eq_nil_iff.mpr fun r hr => ?_
      have h1 := (hnew.sorted.2 r hr).1
      simp only [decide_eq_true_eq, not_lt]
      exact hn.trans h1
    rw [List.filterMap_append, List.filter_append, List.append_eq_nil_iff] at hfresh
    have hb : s'.queued.filter (· < n) = (((s.queue ++ a).drop k).filterMap Purpose.record).filter (· < n) := by
      rw [queued, hq, List.filterMap_append, List.filter_append, hfresh.2, List.append_nil]
    have ha : ((s.queue ++ a).filterMap Purpose.record).filter (· < n) = s.queued.filter (· < n) := by
      rw [List.filterMap_append, List.filter_append, hfresh.1, List.append_nil, queued]
    rw [hb, ← ha]
    exact ((List.drop_suffix k _).filterMap _).filter _

/-- Of the requests made before `s₁` those still pending are the last of those pending there. -/
theorem queued_run {s₁ : State} (h₁ : Reachable s₁) (h : Run State.step (fun _ _ => True) s₁ s) :
    Reachable s ∧ s.queued.filter (· < s₁.nextReq) <:+ s₁.queued := by
  have hrun : Reachable s ∧ s₁.nextReq ≤ s.nextReq ∧
      s.queued.filter (· < s₁.nextReq) <:+ s₁.queued.filter (· < s₁.nextReq) := by
    induction h with
    | refl => exact ⟨h₁, le_rfl, List.suffix_rfl⟩
    | tail _ _ hs ih =>
      obtain ⟨hreach, hle, hsuf⟩ := ih
      exact ⟨hreach.step hs, hle.trans (Lasting.step hs).nextReq, (queued_step hreach hs hle).trans hsuf⟩
  have hall : s₁.queued.filter (· < s₁.nextReq) = s₁.queued := by
    refine List.filter_eq_self.mpr fun r hr => ?_
    have hmem : r ∈ s₁.issued := by
      rw [issued_append]
      exact List.mem_append_right _ hr
    simpa using (ordered_of_reachable h₁).2 r hmem
  rw [← hall]
  exact ⟨hrun.1, hrun.2.2⟩

end State

variable {s₁ s₂ s : State} {x : CoroId} {q : RequestQueue} {ret : ℤ} {rest : List Activation}

/-- **What a batch puts on the ring.**  After its first submit `submit_and_wait` has queued its first requests that
fit, in the order of the queue, each entry with the opcode and parameters of its request and with the record of its
own; and in every run from there those still pending are the last of these. -/
theorem batch_queues (h₁ : Reachable s₁) (hst : s₁.stack = .run x :: rest)
    (hb : (s₁.coros x).body = .submitAndWait q {})
    (hret : 0 ≤ ret) (hs : State.step s₁ (.sub ret) = .ok s₂) (h : Run State.step (fun _ _ => True) s₂ s) :
    let room := if s₁.shouldRestrictUsage then 0 else s₁.ev.ring.entries - (s₁.ev.ring.pending.length - ret.toNat)
    let batch := List.range' s₁.nextReq q.length
    s₂.ev.ring.pending = s₁.ev.ring.pending.drop ret.toNat ++
      ((q.zip batch).take room).map
      (fun y => (({ purpose := some (.request y.1 y.2) } : Slot).prep (prepGenericRequest y.1)).setData
        (some y.2)) ∧
    s.queued.filter (· ∈ batch) <:+ batch.take room := by
  intro room batch
  have hbegin : s₁.submitAndWaitBegin x q ret = .ok s₂ := by
    simpa [State.step, hst, State.bodyStep, hb] using hs
  obtain ⟨l, -, hl, hp, -, hn⟩ := State.submitAndWaitBegin_pending hret hbegin
  rw [hl] at hp
  refine ⟨hp, ?_⟩
  have hold : ((s₁.queue.drop ret.toNat).filterMap Purpose.record).filter (· ∈ batch) = [] := by
    refine List.filter_eq_nil_iff.mpr fun r hr => ?_
    have hmem : r ∈ s₁.issued := by
      rw [State.issued_append]
      exact List.mem_append_right _ (((List.drop_sublist _ _).filterMap _).mem hr)
    have hlt := (State.ordered_of_reachable h₁).2 r hmem
    simp only [decide_eq_true_eq]
    intro hbatch
    exact absurd (List.mem_range'_1.mp hbatch).1 (not_le.mpr hlt)
  have hqueued : s₂.queued.filter (· ∈ batch) = batch.take room := by
    have hrec := State.batch_records q batch (by rw [List.length_range']) room
    have hall : (batch.take room).filter (· ∈ batch) = batch.take room :=
      List.filter_eq_self.mpr fun r hr => by simpa using List.mem_of_mem_take hr
    rw [State.queued, State.queue, hp, List.map_append, List.filterMap_append, List.filter_append, List.map_drop]
    rw [show s₁.ev.ring.pending.map Slot.purpose = s₁.queue from rfl, hold, List.nil_append, List.map_map]
    exact (congrArg (List.filter (· ∈ batch)) hrec).trans hall
  have hsuf := (State.queued_run (h₁.step hs) h).2.filter (· ∈ batch)
  rw [hqueued, List.filter_filter] at hsuf
  -- the records of the batch are made by now
  have hmade : ∀ r, (decide (r ∈ batch) && decide (r < s₂.nextReq)) = decide (r ∈ batch) := fun r => by
    by_cases hr : r ∈ batch
    · have hlt := (List.mem_range'_1.mp hr).2
      rw [← hn] at hlt
      simp [hr, hlt]
    · simp [hr]
  simpa only [hmade] using hsuf

/-- A batch of three that finds two entries free: its third request is not queued, and of the other two one is taken
later. -/
theorem batch_queues_two : ∃ s : State, s.ev.ring.pending.length = 1 ∧ s.queued.filter (· ∈ [0, 1, 2]) <:+ [0, 1] := by
  have he : ((exec State.step (fun _ _ => True) (init 4) [.user .getUringSqe, .user .getUringSqe,
      .user (.submitAndWait [.write ⟨4, 200, 4⟩, .read ⟨3, 100, 8⟩, .close ⟨3⟩]), .user (.startTask 0)]).bind fun s₁ =>
        (State.step s₁ (.sub 0)).toOption.bind fun s₂ => (exec State.step (fun _ _ => True) s₂ [.sub 3]).map fun s =>
          decide (s₁.stack = [.run 1, .taskStart (.var 0) 1, .main] ∧ (s₁.coros 1).body =
            .submitAndWait [.write ⟨4, 200, 4⟩, .read ⟨3, 100, 8⟩, .close ⟨3⟩] {} ∧ s₁.shouldRestrictUsage = false ∧
            s₁.ev.ring.entries = 4 ∧ s₁.ev.ring.pending.length = 2 ∧ s₁.nextReq = 0 ∧ s.ev.ring.pending.length = 1)) =
      some true := by decide
  obtain ⟨s₁, h1, he⟩ := Option.bind_eq_some_iff.mp he
  obtain ⟨s₂, h2, he⟩ := Option.bind_eq_some_iff.mp he
  obtain ⟨s, hr, hs⟩ := Run.exists_of_exec he
  obtain ⟨hst, hb, hlive, hent, hpend, hn, hlen⟩ := of_decide_eq_true hs
  have hstep : State.step s₁ (.sub 0) = .ok s₂ := by
    cases hs2 : State.step s₁ (.sub 0) with
    | error e => simp [hs2, Except.toOption] at h2
    | ok u =>
      rw [hs2] at h2
      obtain rfl : u = s₂ := Option.some.inj h2
      rfl
  have h3 := (batch_queues ⟨init 4, .up 4, Run.of_exec h1⟩ hst hb le_rfl hstep hr).2
  rw [hlive, hent, hpend, hn] at h3
  exact ⟨s, hlen, h3⟩

/-! ### Past LIVING -/

namespace State

variable {s s' : State} {c : Choice}

theorem restricted_step (hs : State.step s c = .ok s') (hres : s.shouldRestrictUsage = true) :
    s'.shouldRestrictUsage = true := by
  unfold shouldRestrictUsage at hres ⊢
  cases step_lifeEffect hs with
  | same hl =>
    rw [hl]
    exact hres
  | start hl =>
    rw [hl] at hres
    cases hres
  | dying _ _ _ hl | dead _ hl =>
    rw [hl]
    rfl

/-- `kill_internal` has no cancel request left to queue. -/
def Spent (s : State) : Prop :=
  (s.coros 0).place = .running → ∀ pc, (s.coros 0).body = .killInternal pc → (∀ i, pc ≠ .flush i) ∧ pc ≠ .cancel

/-- `kill_internal` is resumed in its wait when a completion is marked seen, and is there again. -/
theorem resumed_of_always (hreach : Reachable s) (hs : State.step s c = .ok s') (hp : (s.coros 0).place = .atAlways)
    (hp' : (s'.coros 0).place = .running) : (s'.coros 0).body = .killInternal .wait ∧ s'.seen = s.seen + 1 := by
  rcases (step_tasks hreach.sound hreach.killing hs).place_of_always (tasks_suspending hreach.sound) (h := 0) hp with
    h1 | h1 | ⟨v, h1⟩
  · rw [show (s'.coros 0).place = .atAlways from h1] at hp'
    cases hp'
  · obtain ⟨rfl, rest, hst⟩ := of_label_seen h1
    rcases awaitSeen_ok (hreach.sound.coherent hst (by simp)) hreach.killing (step_awaitSeen hst hs) with
      ⟨-, -, rfl⟩ | ⟨hn, -⟩
    · have hfits := hreach.sound.records.fits 0
      rw [hp] at hfits
      exact ⟨(body_enter 0 0).trans (of_decide_eq_true hfits), rfl⟩
    · exact absurd (hreach.killPlace.always hp).1 hn
  · exact absurd rfl (overwritten_ne_kill hreach.sound.linked h1)

theorem Spent.of_body {pc : KillPc} (hb : (s.coros 0).body = .killInternal pc)
    (hpc : (∀ i, pc ≠ .flush i) ∧ pc ≠ .cancel) :
    Spent s := by
  intro _ pc' hb'
  rw [hb] at hb'
  obtain rfl : pc = pc' := by simpa using hb'
  exact hpc

theorem Spent.of_final (hp : (s.coros 0).place = .final) : Spent s := fun hrun => by
  rw [hp] at hrun
  cases hrun

theorem Spent.kill (hreach : Reachable s) (hres : s.shouldRestrictUsage = true) {rest : List Activation}
    (hst : s.stack = .run 0 :: rest) {pc : KillPc} {ret : Option ℤ} (hpc : ∀ i, pc ≠ .flush i)
    (h : KillStep s 0 pc ret s') :
    Spent s' := by
  have hc := hreach.sound.coherent hst (by simp)
  cases h with
  | begin hl =>
    have h1 : LivingState.living.rank < s.ev.managerLifeState.rank := of_decide_eq_true hres
    exact absurd hl (not_lt.mpr h1)
  | submit hf =>
    rcases hf with rfl | rfl
    · exact absurd rfl (hpc _)
    · exact .of_body (setBody_body ..) (by simp)
  | flushed => exact absurd rfl (hpc _)
  | cancel | cancelled => exact .of_body (setBody_body ..) (by simp)
  | wait =>
    intro hrun
    simp [suspend, State.setPlace, modCoro, pop] at hrun
  | exit _ h1 => exact .of_final (place_finish (hc.modEv rfl rfl rfl rfl rfl) (by exact hst) h1)
  | fail _ _ h1 => exact .of_final (place_finish hc hst h1)

theorem Spent.step (h : Spent s) (hreach : Reachable s) (hres : s.shouldRestrictUsage = true)
    (hs : State.step s c = .ok s') :
    Spent s' := by
  by_cases htop : ∃ rest, s.stack = .run 0 :: rest
  · obtain ⟨rest, hst⟩ := htop
    obtain ⟨pc, ret, hb, hk⟩ := step_kill hreach.killing hst hs
    exact .kill hreach hres hst (h (hreach.placed.place_of_top hst) pc hb).1 hk
  · push Not at htop
    intro hrun
    rcases hreach.killPlace.wakes hreach htop hs hrun with ⟨-, hb⟩ | hp
    · exact Spent.of_body hb (by simp) hrun
    · exact Spent.of_body (resumed_of_always hreach hs hp hrun).1 (by simp) hrun

theorem drop_append_one {α : Type} (l : List α) (n : ℕ) (x : α) : ∃ m, l.drop n ++ [x] = (l ++ [x]).drop m := by
  refine ⟨min n l.length, ?_⟩
  rw [List.drop_append_of_le_length (min_le_right ..)]
  rcases le_total n l.length with hle | hle
  · rw [min_eq_left hle]
  · rw [min_eq_right hle, List.drop_length, List.drop_eq_nil_of_le hle]

/-- Past LIVING the oldest entries are taken, and no entry is handed out but for the cancel request. -/
theorem queue_step (hreach : Reachable s) (hres : s.shouldRestrictUsage = true) (hs : State.step s c = .ok s') :
    (∃ n, s'.queue = s.queue.drop n) ∨ (∃ n, s'.queue = (s.queue ++ [some Purpose.cancel]).drop n) ∧ ¬ Spent s ∧
    Spent s' := by
  cases step_issues hreach hs with
  | reaps _ hq => exact .inl ⟨0, hq⟩
  | @moves n a b hq _ hnew =>
    generalize hl : a ++ b = l at hnew
    cases hnew with
    | none =>
      obtain ⟨rfl, rfl⟩ := List.append_eq_nil_iff.mp hl
      exact .inl ⟨n, by simpa using hq⟩
    | cancel hst hb =>
      refine .inr ⟨?_, fun hsp => ?_, ?_⟩
      · rcases List.append_eq_singleton_iff.mp hl with ⟨rfl, rfl⟩ | ⟨rfl, rfl⟩
        · rw [List.append_nil] at hq
          rw [hq]
          exact drop_append_one ..
        · exact ⟨n, by rw [hq, List.append_nil]⟩
      · exact (hsp (hreach.placed.place_of_top hst) _ hb).2 rfl
      · obtain ⟨pc, ret, hb', hk⟩ := step_kill hreach.killing hst hs
        refine .kill hreach hres hst (fun i hi => ?_) hk
        rw [hb, hi] at hb'
        cases hb'
    | requests hlive =>
      rw [hres] at hlive
      cases hlive

end State

/-- **Past LIVING nothing new is queued but the cancel request.**  From a state past LIVING on every run stays past
LIVING, and what is pending is what is left of the entries that were pending there, followed by at most one more,
which is `kill_internal`'s. -/
theorem past_living (h₁ : Reachable s₁) (hres : s₁.shouldRestrictUsage = true)
    (h : Run State.step (fun _ _ => True) s₁ s) :
    s.shouldRestrictUsage = true ∧
      ((∃ n, s.queue = s₁.queue.drop n) ∨ ∃ n, s.queue = (s₁.queue ++ [some Purpose.cancel]).drop n) := by
  have hrun : Reachable s ∧ s.shouldRestrictUsage = true ∧
      ((∃ n, s.queue = s₁.queue.drop n) ∨ s.Spent ∧ ∃ n, s.queue = (s₁.queue ++ [some Purpose.cancel]).drop n) := by
    induction h with
    | refl => exact ⟨h₁, hres, .inl ⟨0, rfl⟩⟩
    | tail _ _ hs ih =>
      obtain ⟨hreach, hres', hq⟩ := ih
      refine ⟨hreach.step hs, State.restricted_step hs hres', ?_⟩
      rcases State.queue_step hreach hres' hs with ⟨m, hm⟩ | ⟨⟨m, hm⟩, hnot, hspent⟩
      · rcases hq with ⟨n, hn⟩ | ⟨hsp, n, hn⟩
        · exact .inl ⟨n + m, by rw [hm, hn, List.drop_drop]⟩
        · exact .inr ⟨hsp.step hreach hres' hs, n + m, by rw [hm, hn, List.drop_drop]⟩
      · rcases hq with ⟨n, hn⟩ | ⟨hsp, -⟩
        · obtain ⟨k, hk⟩ := State.drop_append_one s₁.queue n (some Purpose.cancel)
          exact .inr ⟨hspent, k + m, by rw [hm, hn, hk, List.drop_drop]⟩
        · exact absurd hsp hnot
  exact ⟨hrun.2.1, hrun.2.2.imp_right And.right⟩

/-- A manager that is killed while one entry is pending, and queues its cancel request after it. -/
theorem past_living_cancel : ∃ s₁ s : State, s₁.queue = [some .raw] ∧ s.queue = [some .raw, some .cancel] ∧
    s.shouldRestrictUsage = true ∧
      ((∃ n, s.queue = s₁.queue.drop n) ∨ ∃ n, s.queue = (s₁.queue ++ [some Purpose.cancel]).drop n) := by
  have he : ((exec State.step (fun _ _ => True) (init 4)
    [.user .getUringSqe, .user .kill, .user (.startTask 0), .tau, .tau]).bind
      fun s₁ => (exec State.step (fun _ _ => True) s₁ [.sub 0, .tau, .tau]).map fun s =>
        decide (s₁.queue = [some .raw] ∧ s₁.shouldRestrictUsage = true ∧ s.queue = [some .raw, some .cancel])) =
      some true := by decide
  obtain ⟨s₁, h1, he⟩ := Option.bind_eq_some_iff.mp he
  obtain ⟨s, hr, hs⟩ := Run.exists_of_exec he
  obtain ⟨hq, hres, hq'⟩ := of_decide_eq_true hs
  exact ⟨s₁, s, hq, hq', past_living ⟨init 4, .up 4, Run.of_exec h1⟩ hres hr⟩

end EvManager
