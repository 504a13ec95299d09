import EvManager.Posted
import EvManager.Vectors

/-!
# The rounds of a batch

`submit_and_wait` counts in `num_queued` its entries that are still to be taken, and in `num_submitted` those it
waits for.  The counters are local and the ring is shared.  **`batch_counts`**: they are right as long as what the
kernel takes in its own submits is its own, and what it takes in others' is not.
-/

namespace EvManager

open Lib State

/-- How many responses of the round the batch has had. -/
def BatchLocals.answered (l : BatchLocals) : ℕ :=
  match l.pc with
  | .begin | .loop => 0
  | .await i => i
  | .handler i => i + 1

/-- The request that is co_awaited in the step. -/
def Choice.awaits : Choice → Option ReqId
  | .user (.awaitIo r) => some r
  | _ => none

namespace State

variable {s s' : State} {c : Choice} {x : CoroId} {q : RequestQueue} {l : BatchLocals}

/-- The local variables of the batch that `x` runs, while its body is under way. -/
def batch (s : State) (x : CoroId) : Option BatchLocals :=
  match (s.coros x).body with
  | .submitAndWait _ l => if (s.coros x).place.unfinished then some l else none
  | _ => none

theorem mem_batch : l ∈ s.batch x ↔ ∃ q, (s.coros x).body = .submitAndWait q l ∧
    (s.coros x).place.unfinished = true := by
  unfold batch
  cases hb : (s.coros x).body with
  | submitAndWait q l0 =>
    simp only [Option.mem_def, Option.ite_none_right_eq_some, Option.some.injEq, Body.submitAndWait.injEq]
    constructor
    · rintro ⟨hu, rfl⟩
      exact ⟨q, ⟨rfl, rfl⟩, hu⟩
    · rintro ⟨q, ⟨rfl, rfl⟩, hu⟩
      exact ⟨hu, rfl⟩
  | _ => simp

/-- The counters of the batch of `x` are right: `num_queued` is how many of its entries are still to be taken, and
`num_submitted` how many it had to wait for in this round, of which some were answered. -/
def Counts (x : CoroId) (s : State) : Prop :=
  ∀ l ∈ s.batch x, l.numQueued = s.queuedFor l.reqData ∧ l.numSubmitted = l.answered + s.takenFor l.reqData

/-- What the kernel takes in the step is accounted for by the batch of `x`: nothing, where it begins; entries of its
own, where it submits again; none of its own, where others submit. -/
def TakesFair (x : CoroId) (l : BatchLocals) (s : State) (c : Choice) : Prop :=
  if s.stack.head? = some (.run x) ∧ l.pc = .begin then s.taking c = 0 ∧ s.ev.ring.entries < 2 ^ 32
  else if s.stack.head? = some (.run x) ∧ l.pc = .loop then
    ∀ y ∈ s.ev.ring.pending.take (s.taking c), y.postedFor l.reqData = true
  else ∀ y ∈ s.ev.ring.pending.take (s.taking c), y.among l.reqData = false

/-- An awaitable that is co_awaited is not written over an entry of the batch. -/
def WritesFair (l : BatchLocals) (s : State) (c : Choice) : Prop :=
  ∀ r ∈ c.awaits, ∀ j ∈ (s.reqs r).sqe, ∀ k < s.ev.ring.pending.length, s.ev.ring.slot (s.ev.ring.khead + k) = j →
    (s.ev.ring.sqes j).postedFor l.reqData = false

def Fair (x : CoroId) (s : State) (c : Choice) : Prop := ∀ l ∈ s.batch x, s.TakesFair x l c ∧ s.WritesFair l c

instance (x : CoroId) (s : State) : Decidable (s.Counts x) := by
  unfold Counts
  infer_instance

instance (x : CoroId) (s : State) (c : Choice) : Decidable (s.Fair x c) := by
  unfold Fair TakesFair WritesFair
  infer_instance

/-! ### Responses of the batch -/

/-- The completion of an entry with the address of a record of the batch is delivered to it. -/
theorem delivers_of_among (hreach : Reachable s) {rest : List Activation} {i : ℕ} {res : ℤ} {base : Addr} {y : Slot}
    (hst : s.stack = .awaitWait :: rest) (hs : State.step s (.cqe i res base) = .ok s')
    (hy : s.ev.ring.inFlight[i]? = some y) (hv : s.Vector x q l) (ha : y.among l.reqData = true) :
    ∃ r d, (s.reqs r).home = .vector x ∧ s.Delivers r x res d s' := by
  obtain ⟨r, hr, hm⟩ : ∃ r, y.sqe.userData = some r ∧ r ∈ l.reqData := by
    unfold Slot.among at ha
    split at ha
    · rename_i r hr
      exact ⟨r, hr, of_decide_eq_true ha⟩
    · cases ha
  obtain ⟨hlt, hh⟩ := (hv.mem r).mp hm
  obtain ⟨y', hy', ⟨hnone, -⟩ | ⟨r', h, d, hr', hhandle, hd⟩⟩ :=
    awaitCqe_delivers hreach hst (by simpa only [State.step, hst] using hs)
  all_goals obtain rfl : y = y' := Option.some.inj (hy.symm.trans hy')
  · rcases (hreach.sound.records.entry r ⟨y, .inr (List.mem_of_getElem? hy), hr⟩).2 with h1 | h1
    · rw [hh] at h1
      cases h1
    · exact absurd (hnone r hr) h1
  · obtain rfl : r = r' := Option.some.inj (hr.symm.trans hr')
    have hn := hreach.handles r h hhandle
    unfold State.Names at hn
    rw [hh] at hn
    exact ⟨r, d, hh, hn ▸ hd⟩

/-- What is delivered to a batch is the completion of an entry with the address of one of its records. -/
theorem among_of_delivers (hreach : Reachable s) {r : ReqId} {res : ℤ} {d : ResponsePack} (hv : s.Vector x q l)
    (hb : (s.coros x).body = .submitAndWait q l) (hsrc : s.Source r x res c) (hd : s.Delivers r x res d s') :
    ∃ i base y rest, s.stack = .awaitWait :: rest ∧ c = .cqe i res base ∧ s.ev.ring.inFlight[i]? = some y ∧
      y.sqe.userData = some r ∧ y.among l.reqData = true := by
  have hh : (s.reqs r).home = .vector x := by
    obtain ⟨e, -, ht⟩ := hd.takes
    have hfits := hreach.sound.records.fits x
    cases ht with
    | awaitable h1 =>
      rw [h1, hb] at hfits
      cases hfits
    | batch _ h1 => exact h1
    | poll _ _ h1 =>
      rw [hb] at h1
      cases h1
  cases hsrc with
  | completed hst hy hu =>
    have hm := (hv.mem r).mpr ⟨hreach.sound.records.lt_nextReq hd.live, hh⟩
    exact ⟨_, _, _, _, hst, rfl, hy, hu, by simp [Slot.among, hu, hm]⟩
  | parked _ hready =>
    have h1 := (hreach.sound.records.ready (res, r) (by rw [hready]; exact List.mem_cons_self)).2
    rw [hh] at h1
    cases h1

/-! ### The counters -/

theorem queuedFor_nil (s : State) : s.queuedFor [] = 0 := by
  refine List.countP_eq_zero.mpr fun y _ => ?_
  unfold Slot.postedFor Slot.among
  split <;> simp

theorem takenFor_nil (s : State) : s.takenFor [] = 0 := by
  refine List.countP_eq_zero.mpr fun y _ => ?_
  unfold Slot.among
  split <;> simp

theorem counts_begin (hreach : Reachable s) {ret : ℤ} {rest : List Activation} (hst : s.stack = .run x :: rest)
    (hret : ret.toNat = 0) (hent : s.ev.ring.entries < 2 ^ 32) (hs : s.submitAndWaitBegin x q ret = .ok s') :
    s'.Counts x := by
  intro l' hl'
  obtain ⟨q', hb', hu'⟩ := mem_batch.mp hl'
  obtain ⟨s1, h1, ⟨-, h2⟩ | ⟨-, s2, h2, rfl⟩⟩ := submitAndWaitBegin_ok hs
  · rw [place_submit_finish hreach hst h1 h2] at hu'
    cases hu'
  · rw [setBody_body] at hb'
    cases hb'
    have hr1 : s1.nextReq = s.nextReq ∧ s1.ev.ring = s.ev.ring.submit ret.toNat := by
      obtain ⟨-, -, -, rfl⟩ := submitQueuedEntries_ok h1
      exact ⟨rfl, rfl⟩
    have hfresh : s1.queuedFor (List.range' s1.nextReq q.length) = 0 ∧
        s1.takenFor (List.range' s1.nextReq q.length) = 0 := by
      refine posted_fresh (fun y hy r hr => ?_) fun r hr => (List.mem_range'_1.mp hr).1
      rw [hr1.2] at hy
      rw [hr1.1]
      exact (hreach.sound.records.entry r ⟨y, Uring.has_submit hy, hr⟩).1
    obtain ⟨hq, ht⟩ := processRequests_posts (fun y hy => (List.of_mem_zip hy).2) h2
    have hunp : s1.ev.ring.unpublished = 0 := by rw [hr1.2, Uring.submit_unpublished]
    have hq' : s2.queuedFor (List.range' s1.nextReq q.length) = s2.ev.ring.unpublished := by
      have h3 : (s1.newVector x q.length).2.queuedFor (List.range' s1.nextReq q.length) = 0 := hfresh.1
      have h4 : (s1.newVector x q.length).2.ev.ring.unpublished = 0 := hunp
      rw [h3, h4] at hq
      omega
    have hsmall : s2.ev.ring.unpublished < 2 ^ 32 := by
      have hent2 : s2.ev.ring.entries = s.ev.ring.entries := by
        rw [(processRequests_ring h2).2.2]
        show s1.ev.ring.entries = _
        rw [hr1.2, Uring.submit_entries]
      have := s2.ev.ring.room
      have := s2.ev.ring.khead_le
      unfold Uring.unpublished
      omega
    refine ⟨?_, ?_⟩
    · show u32 s2.ev.ring.unpublished = s2.queuedFor _
      rw [hq', u32_natCast, Nat.mod_eq_of_lt hsmall]
    · show ret.toNat = 0 + s2.takenFor _
      rw [hret, ht, Nat.zero_add]
      exact hfresh.2.symm

theorem counts_loop (hreach : Reachable s) {ret : Option ℤ} {rest : List Activation} (hst : s.stack = .run x :: rest)
    (hpc : l.pc = .loop) (hq : l.numQueued = s.queuedFor l.reqData)
    (ht : l.numSubmitted = l.answered + s.takenFor l.reqData)
    (hown : ∀ n, ret = some n → ∀ y ∈ s.ev.ring.pending.take n.toNat, y.postedFor l.reqData = true)
    (hsmall : l.numQueued < 2 ^ 32) (hs : s.submitAndWaitLoop x q l ret = .ok s') : s'.Counts x := by
  intro l' hl'
  obtain ⟨q', hb', hu'⟩ := mem_batch.mp hl'
  have hans : l.answered = 0 := by simp [BatchLocals.answered, hpc]
  rcases submitAndWaitLoop_ok hs with ⟨-, -, -, h2⟩ | ⟨-, -, rfl⟩ | ⟨n, s1, rfl, hsub, -, h2, ⟨-, h3⟩ | ⟨hn, rfl⟩⟩
  · rw [place_finish (hreach.sound.coherent hst (by simp)) hst h2] at hu'
    cases hu'
  · obtain rfl := awaits_body hb'
    rw [hans] at ht
    exact ⟨hq, ht⟩
  · rw [place_submit_finish hreach hst h2 h3] at hu'
    cases hu'
  · rw [setBody_body] at hb'
    cases hb'
    obtain ⟨hq1, ht1⟩ := takes_submit l.reqData h2
    obtain ⟨-, -, hle, -⟩ := submitQueuedEntries_ok h2
    have hall := hown n rfl
    have hlen : (s.ev.ring.pending.take n.toNat).length = n.toNat := List.length_take_of_le (by omega)
    have hc1 : (s.ev.ring.pending.take n.toNat).countP (Slot.postedFor l.reqData) = n.toNat := by
      rw [List.countP_eq_length.mpr hall, hlen]
    have hc2 : (s.ev.ring.pending.take n.toNat).countP (Slot.among l.reqData) = n.toNat := by
      rw [List.countP_eq_length.mpr fun y hy => ?_, hlen]
      have hy' := hall y hy
      unfold Slot.postedFor at hy'
      exact (Bool.and_eq_true_iff.mp hy').2
    refine ⟨?_, ?_⟩
    · show u32 (l.numQueued - n) = s1.queuedFor l.reqData
      have h5 : (l.numQueued : ℤ) - n = (s1.queuedFor l.reqData : ℕ) := by omega
      rw [h5, u32_natCast, Nat.mod_eq_of_lt (by omega)]
    · show l.numSubmitted + n.toNat = l.answered + s1.takenFor l.reqData
      omega

theorem counts_rest (hreach : Reachable s) (hs : State.step s c = .ok s') (hb : (s.coros x).body = .submitAndWait q l)
    (hu : (s.coros x).place.unfinished = true) (hidle : ∀ rest, s.stack = .run x :: rest → ∃ i, l.pc = .handler i)
    (hp : (s'.coros x).place = .running → (s.coros x).place ≠ .atGeneric)
    (hfair : s.TakesFair x l c ∧ s.WritesFair l c) :
    s'.queuedFor l.reqData = s.queuedFor l.reqData ∧ s'.takenFor l.reqData = s.takenFor l.reqData := by
  have hv := hreach.vectors x q l hb hu
  have hnone : ∀ y ∈ s.ev.ring.pending.take (s.taking c), y.among l.reqData = false := by
    have hnot : ∀ pc, s.stack.head? = some (.run x) ∧ l.pc = pc → ∃ i, pc = .handler i := by
      rintro pc ⟨hh, rfl⟩
      cases hst : s.stack with
      | nil =>
        rw [hst] at hh
        cases hh
      | cons a rest =>
        rw [hst] at hh
        obtain rfl : a = .run x := Option.some.inj hh
        exact hidle rest hst
    have h1 := hfair.1
    unfold TakesFair at h1
    rw [if_neg fun h => by simpa using hnot _ h, if_neg fun h => by simpa using hnot _ h] at h1
    exact h1
  cases step_posts (fun r hr => hv.lt hr) hs with
  | keeps h => exact ⟨h.queued, h.taken⟩
  | @writes h r j rest f hst hc ha hj hring =>
    have hr : r ∉ l.reqData := by
      intro hm
      have h1 := ((hv.mem r).mp hm).2
      rw [ha.2.2.1] at h1
      cases h1
    have hun : Unposted l.reqData s s' := by
      refine .of_write hring (fun k hk => ?_) fun y => postedFor_setData hr _
      subst hc
      exact hfair.2 r rfl j hj k (by rw [Uring.length_pending]; exact hk.1) hk.2
    exact ⟨hun.queued, hun.taken⟩
  | takes hq ht =>
    have h1 : (s.ev.ring.pending.take (s.taking c)).countP (Slot.among l.reqData) = 0 :=
      List.countP_eq_zero.mpr fun y hy => by simp [hnone y hy]
    have h2 : (s.ev.ring.pending.take (s.taking c)).countP (Slot.postedFor l.reqData) = 0 :=
      List.countP_eq_zero.mpr fun y hy => by simp [Slot.postedFor, hnone y hy]
    omega
  | @reaps i res base y rest hst hc hy hq ht =>
    refine ⟨hq, ?_⟩
    by_cases ha : y.among l.reqData = true
    · -- it would have been resumed
      subst hc
      obtain ⟨r, d, hh, hd⟩ := delivers_of_among hreach hst hs hy hv ha
      obtain ⟨e, -, htakes⟩ := hd.takes
      cases htakes with
      | awaitable _ h1 =>
        rw [hh] at h1
        cases h1
      | batch h1 => exact absurd h1 (hp hd.place)
      | poll _ h1 =>
        rw [hh] at h1
        cases h1
    · rw [if_neg ha] at ht
      exact ht

theorem Counts.step (hc : s.Counts x) (hreach : Reachable s) (hfair : s.Fair x c) (hs : State.step s c = .ok s') :
    s'.Counts x := by
  intro l' hl'
  obtain ⟨q, hb', hu'⟩ := mem_batch.mp hl'
  by_cases hx : x < s.nextCoro
  · obtain ⟨l, hb⟩ := batch_body hs hx hb'
    have hrun : ∀ {rest}, s.stack = .run x :: rest → l ∈ s.batch x ∧ s.Vector x q l := fun hst =>
      have hu : (s.coros x).place.unfinished = true := by rw [hreach.placed.place_of_top hst]; rfl
      ⟨mem_batch.mpr ⟨q, hb, hu⟩, hreach.vectors x q l hb hu⟩
    cases step_batch hreach hs hb hx with
    | rests hb1 hidle hp =>
      rw [hb1] at hb'
      cases hb'
      have hu : (s.coros x).place.unfinished = true := by
        rcases hp with hp | ⟨hp, -⟩
        · exact hp ▸ hu'
        · rw [hp]
          rfl
      have hl : l' ∈ s.batch x := mem_batch.mpr ⟨q, hb, hu⟩
      have hwaits : (s'.coros x).place = .running → (s.coros x).place ≠ .atGeneric := by
        intro hrun hat
        rcases hp with hp | ⟨hp, -⟩
        · rw [hrun, hat] at hp
          cases hp
        · rw [hat] at hp
          cases hp
      obtain ⟨hq, ht⟩ := counts_rest hreach hs hb hu hidle hwaits (hfair l' hl)
      rw [hq, ht]
      exact hc l' hl
    | leaves _ hgone =>
      rw [hgone] at hu'
      cases hu'
    | begins hst hcs hpc h1 =>
      subst hcs
      have hf := (hfair l (hrun hst).1).1
      unfold TakesFair at hf
      rw [if_pos ⟨by rw [hst]; rfl, hpc⟩] at hf
      exact counts_begin hreach hst hf.1 hf.2 h1 l' hl'
    | @loops ret rest hst hcs hpc h1 =>
      obtain ⟨hl, hv⟩ := hrun hst
      have hf := (hfair l hl).1
      unfold TakesFair at hf
      rw [if_neg (by simp [hpc]), if_pos ⟨by rw [hst]; rfl, hpc⟩] at hf
      refine counts_loop hreach hst hpc (hc l hl).1 (hc l hl).2 (fun n hn y hy => hf y ?_) hv.small h1 l' hl'
      subst hn
      rw [hcs]
      exact hy
    | @next i stop rest hst _ hpc h1 =>
      obtain ⟨hq, ht⟩ := hc l (hrun hst).1
      have hans : l.answered = i + 1 := by simp [BatchLocals.answered, hpc]
      subst h1
      unfold State.submitAndWaitNext at hb' ⊢
      split at hb'
      · rename_i hlt
        rw [if_pos hlt]
        obtain rfl := awaits_body hb'
        rw [hans] at ht
        exact ⟨hq, ht⟩
      · rename_i hlt
        rw [if_neg hlt]
        rw [setBody_body] at hb'
        cases hb'
        refine ⟨hq, ?_⟩
        show 0 = 0 + s.takenFor l.reqData
        omega
    | throws hst _ _ h1 =>
      rw [place_finish (hreach.sound.coherent hst (by simp)) hst h1] at hu'
      cases hu'
    | @hears i r res d hpc hsrc hd hb1 =>
      rw [hb1] at hb'
      cases hb'
      have hu : (s.coros x).place.unfinished = true := by
        obtain ⟨e, -, ht⟩ := hd.takes
        cases ht with
        | awaitable h1 => rw [h1]; rfl
        | batch h1 => rw [h1]; rfl
        | poll h1 => rw [h1]; rfl
      have hl : l ∈ s.batch x := mem_batch.mpr ⟨q, hb, hu⟩
      obtain ⟨hq, ht⟩ := hc l hl
      have hans : l.answered = i := by simp [BatchLocals.answered, hpc]
      obtain ⟨j, base, y, rest, hst, rfl, hy, -, ha⟩ := among_of_delivers hreach (hreach.vectors x q l hb hu) hb hsrc hd
      have hring : s'.ev.ring = s.ev.ring.reap j := (ring_awaitCqe (by simpa only [State.step, hst] using hs)).1
      have ht1 := takenFor_reap l.reqData hy hring
      rw [if_pos ha] at ht1
      refine ⟨?_, ?_⟩
      · show l.numQueued = s'.queuedFor l.reqData
        rw [queuedFor, hring, Uring.reap_pending]
        exact hq
      · show l.numSubmitted = i + 1 + s'.takenFor l.reqData
        omega
  · obtain ⟨rfl, rfl, -, -⟩ := batch_born hreach hs hx hb' hu'
    exact ⟨(queuedFor_nil s').symm, by rw [takenFor_nil]; rfl⟩

theorem Counts.init (hi : State.Initial s) (x : CoroId) : s.Counts x := by
  intro l hl
  obtain ⟨q, hb, hu⟩ := mem_batch.mp hl
  rw [hi.place] at hu
  split at hu
  · rename_i hx
    subst hx
    cases hi <;> cases hb
  · cases hu

/-- What a submit of the loop takes is no more than what is queued. -/
theorem Counts.no_wrap (hc : s.Counts x) (hl : l ∈ s.batch x) {rest : List Activation} (hst : s.stack = .run x :: rest)
    (hpc : l.pc = .loop) {n : ℤ} (hfair : s.Fair x (.sub n)) (hs : State.step s (.sub n) = .ok s') :
    n ≤ l.numQueued := by
  obtain ⟨q, hb, hu⟩ := mem_batch.mp hl
  have hf := (hfair l hl).1
  unfold TakesFair at hf
  rw [if_neg (by simp [hpc]), if_pos ⟨by rw [hst]; rfl, hpc⟩] at hf
  have h1 : s.submitAndWaitLoop x q l (some n) = .ok s' := by
    rw [step_run hst] at hs
    simpa only [State.bodyStep, hb, hpc] using hs
  rcases submitAndWaitLoop_ok h1 with ⟨h2, -⟩ | ⟨h2, -⟩ | ⟨m, s1, h2, -, -, h3, -⟩
  · cases h2
  · cases h2
  · obtain rfl : n = m := Option.some.inj h2
    obtain ⟨-, -, hle, -⟩ := submitQueuedEntries_ok h3
    have hlen : (s.ev.ring.pending.take n.toNat).length = n.toNat := List.length_take_of_le (by omega)
    have hall : (s.ev.ring.pending.take n.toNat).countP (Slot.postedFor l.reqData) = n.toNat :=
      (List.countP_eq_length.mpr hf).trans hlen
    have hcount : (s.ev.ring.pending.take n.toNat).countP (Slot.postedFor l.reqData) ≤ s.queuedFor l.reqData :=
      (List.take_sublist ..).countP_le
    rw [hall, ← (hc l hl).1] at hcount
    omega

end State

/-- **The counters of a batch**: `num_queued` is the number of its entries that are still to be taken, so that it
never wraps, and `num_submitted` the number of responses the batch has had in this round and of its entries taken
and not yet answered; as long as its first submit takes nothing, its other submits take nothing but its entries, and
nothing else takes or overwrites one. -/
theorem batch_counts {x : CoroId} {s : State} (h : Reach (State.Fair x) s) : s.Counts x ∧
    ∀ l ∈ s.batch x, ∀ (rest : List Activation) (n : ℤ) (s' : State), s.stack = .run x :: rest → l.pc = .loop →
      s.Fair x (.sub n) → State.step s (.sub n) = .ok s' → n ≤ l.numQueued := by
  have hc : s.Counts x := by
    refine Reach.inv_of (J := fun s => Reachable s) (fun s hs => hs.reachable) (fun s hi => .init hi x) ?_ h
    exact fun s c s' hreach hc hfair hs => hc.step hreach hfair hs
  exact ⟨hc, fun l hl rest n s' hst hpc hfair hs => hc.no_wrap hl hst hpc hfair hs⟩

/-- A batch of two, of which the kernel takes one after the other. -/
theorem batch_counts_two : ∃ s : State, s.batch 1 = some ⟨.loop, [0, 1], 0, 1⟩ ∧ s.Counts 1 := by
  have he : (exec State.step (State.Fair 1) (init 4) [.user (.submitAndWait [.write ⟨4, 200, 8⟩, .read ⟨3, 100, 8⟩]),
      .user (.startTask 0), .sub 0, .sub 1, .tau, .tau, .user .start, .message 0, .cqe 0 8 0,
      .user (.handlerReturn false)]).map
      (fun s => decide (s.batch 1 = some ⟨.loop, [0, 1], 0, 1⟩)) = some true := by decide
  obtain ⟨s, hreach, hs⟩ := Reach.of_exec (.up 4) he
  exact ⟨s, of_decide_eq_true hs, (batch_counts hreach).1⟩

/-- A read is not taken by its own submit, and the first submit of a batch takes it: the batch counts it as its own. -/
theorem batch_counts_fails : ¬ ∀ (s : State) (x : CoroId), Reachable s → s.Counts x := by
  intro hall
  have he : (exec State.step (fun _ _ => True) (init 4)
    [.user .call, .user (.startTask 0), .user (.awaitOp (.read ⟨3, 100, 8⟩)),
      .sub 0, .user (.submitAndWait [.write ⟨4, 200, 8⟩]), .user (.startTask 1), .sub 1]).map
      (fun s => decide ¬ s.Counts 2) = some true := by decide
  obtain ⟨s, hreach, hs⟩ := Reach.of_exec (.up 4) he
  exact of_decide_eq_true hs (hall s 2 hreach)

end EvManager
