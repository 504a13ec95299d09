import EvManager.CallOrder
import EvManager.IssueOrder
import EvManager.Polls
import EvManager.Reports

/-!
# A batch ends

On a ring that nobody else uses meanwhile, with room for all its requests, `submit_and_wait` ends: it makes at
most four moves a request, and where it waits one of its requests is in flight (`batch_ends`).
-/

namespace EvManager

open Lib State

/-- The suspended coroutine that is destroyed where the step is asked of the machine. -/
def TaskLabel.overwrites : TaskLabel → Option CoroId
  | .registered _ x => x
  | _ => none

/-- How many moves are left to a batch of `n` requests, of whose entries some are taken and some pending. -/
def BatchLocals.work (l : BatchLocals) (n taken pending : ℕ) : ℕ :=
  match l.pc with
  | .begin => 4 * n + 2
  | .loop => if l.numSubmitted = 0 then 4 * pending + 1 else 2 * taken + 4 * pending + 2
  | .await _ => 2 * taken + 4 * pending + 1
  | .handler _ => 2 * taken + 4 * pending + 2

namespace State

variable {s s' : State} {c : Choice} {x : CoroId} {q : RequestQueue} {l : BatchLocals}

/-! ### A batch that has the ring for itself -/

/-- The batch of `x` has the ring for itself in the step, if it is under way: its own submits take at least one
entry while some are pending, and otherwise no entry is taken, queued or overwritten, its handler does not throw and
its coroutine is not destroyed. -/
def Undisturbed (x : CoroId) (s : State) (c : Choice) : Prop :=
  ∀ l ∈ s.batch x,
    if s.stack.head? = some (.run x) ∧ (l.pc = .begin ∨ l.pc = .loop) then
      ∀ ret ∈ c.ret, 0 ≤ ret ∧ (s.ev.ring.pending ≠ [] → 0 < ret)
    else
      s.ev.ring.pending.take (s.taking c) = [] ∧
      (∀ u ∈ (State.step s c).toOption, u.ev.ring.pending = s.ev.ring.pending) ∧
        (s.stack.head? = some (.run x) → c ≠ .user .throw) ∧ (s.label c).overwrites ≠ some x

/-- The batch of `x` moves in the step. -/
def MovesBatch (x : CoroId) (s : State) (c : Choice) : Prop := ∃ u ∈ (State.step s c).toOption, u.batch x ≠ s.batch x

instance (x : CoroId) (s : State) (c : Choice) : Decidable (s.Undisturbed x c) := by
  unfold Undisturbed
  infer_instance

/-- The batch of `x` is under way, and what is pending is its own: each of its requests is pending, in flight or
answered. -/
structure Own (s : State) (x : CoroId) (q : RequestQueue) (l : BatchLocals) : Prop where
  body : (s.coros x).body = .submitAndWait q l
  unfinished : (s.coros x).place.unfinished = true
  begun : l.pc ≠ .begin
  posted : ∀ y ∈ s.ev.ring.pending, y.postedFor l.reqData = true
  queued : l.numQueued = s.ev.ring.pending.length
  submitted : l.numSubmitted = l.answered + s.takenFor l.reqData
  total : (s.calls x).length + s.takenFor l.reqData + s.ev.ring.pending.length = q.length
  waits : ∀ i, l.pc = .await i → i < l.numSubmitted

/-- The batch of `x` has returned 0, after one call of its handler for each request. -/
structure Over (s : State) (x : CoroId) (q : RequestQueue) : Prop where
  lt : x < s.nextCoro
  body : ∃ l, (s.coros x).body = .submitAndWait q l
  finished : (s.coros x).place.unfinished = false
  returned : .returned x (some 0) ∈ s.trace
  calls : (s.calls x).length = q.length

/-- Nothing is pending, and none of the requests of the batch is in flight. -/
def Emptied (s : State) (l : BatchLocals) : Prop := s.ev.ring.pending = [] ∧ s.takenFor l.reqData = 0

def batchWork (x : CoroId) (s : State) : ℕ :=
  match s.batch x with
  | some l => l.work (s.coros x).body.requests.length (s.takenFor l.reqData) s.ev.ring.pending.length
  | none => 0

theorem Own.mem_batch (h : Own s x q l) : s.batch x = some l := State.mem_batch.mpr ⟨q, h.body, h.unfinished⟩

theorem Own.batchWork (h : Own s x q l) :
    s.batchWork x = l.work q.length (s.takenFor l.reqData) s.ev.ring.pending.length := by
  rw [State.batchWork, h.mem_batch, h.body]
  rfl

theorem batch_of_finished (h : (s.coros x).place.unfinished = false) : s.batch x = none := by
  unfold State.batch
  split
  · rw [if_neg (by simp [h])]
  · rfl

/-- The step is not one of `submit_and_wait` itself. -/
theorem Undisturbed.idle (hund : s.Undisturbed x c) (how : Own s x q l)
    (hidle : ∀ rest, s.stack = .run x :: rest → ∃ i, l.pc = .handler i)
    (hs : State.step s c = .ok s') : s.ev.ring.pending.take (s.taking c) = [] ∧ s'.ev.ring.pending = s.ev.ring.pending ∧
      (s.stack.head? = some (.run x) → c ≠ .user .throw) ∧ (s.label c).overwrites ≠ some x := by
  have h1 := hund l (by rw [how.mem_batch]; rfl)
  rw [if_neg] at h1
  · exact ⟨h1.1, h1.2.1 s' (by rw [hs]; rfl), h1.2.2⟩
  · rintro ⟨htop, hpc⟩
    obtain ⟨rest, hst⟩ : ∃ rest, s.stack = .run x :: rest := by
      cases hst : s.stack with
      | nil =>
        rw [hst] at htop
        cases htop
      | cons a rest =>
        rw [hst] at htop
        obtain rfl : a = .run x := Option.some.inj htop
        exact ⟨rest, rfl⟩
    obtain ⟨i, hi⟩ := hidle rest hst
    rw [hi] at hpc
    simp at hpc

theorem Own.taken_rest (how : Own s x q l) (hreach : Reachable s) (hs : State.step s c = .ok s')
    (hnone : s.ev.ring.pending.take (s.taking c) = [])
    (hp : (s'.coros x).place = .running → (s.coros x).place ≠ .atGeneric) :
    s'.takenFor l.reqData = s.takenFor l.reqData := by
  have hv := hreach.vectors x q l how.body how.unfinished
  cases step_posts (fun r hr => hv.lt hr) hs with
  | keeps h => exact h.taken
  | writes _ _ _ _ hring =>
    unfold takenFor
    rw [hring, Uring.write_inFlight]
  | takes _ ht =>
    rw [hnone] at ht
    exact ht
  | @reaps i res base y rest hst hc hy _ ht =>
    by_cases ha : y.among l.reqData = true
    · -- it would have been resumed
      subst hc
      obtain ⟨r, d, hh, hd⟩ := delivers_of_among hreach hst hs hy hv ha
      obtain ⟨e, -, htakes⟩ := hd.takes
      cases htakes with
      | awaitable _ h1 => cases hh.symm.trans h1
      | batch h1 => exact absurd h1 (hp hd.place)
      | poll _ h1 => cases hh.symm.trans h1
    · rw [if_neg ha] at ht
      exact ht

/-- The batch rests: it is as it was. -/
theorem Own.rests (how : Own s x q l) (hreach : Reachable s) (hs : State.step s c = .ok s') (hund : s.Undisturbed x c)
    (hb : (s'.coros x).body = .submitAndWait q l) (hidle : ∀ rest, s.stack = .run x :: rest → ∃ i, l.pc = .handler i)
    (hp : (s'.coros x).place = (s.coros x).place ∨ ((s.coros x).place = .initial ∧ (s'.coros x).place = .running)) :
    Own s' x q l ∧ s'.batchWork x = s.batchWork x := by
  obtain ⟨hnone, hpend, -⟩ := hund.idle how hidle hs
  have hwaits : (s'.coros x).place = .running → (s.coros x).place ≠ .atGeneric := by
    intro hrun hat
    rcases hp with hp | ⟨hp, -⟩
    · cases hrun.symm.trans (hp.trans hat)
    · cases hp.symm.trans hat
  have htaken := how.taken_rest hreach hs hnone hwaits
  have hcalls := calls_stay hreach hs how.body fun hat hrun => hwaits hrun hat
  have how' : Own s' x q l := by
    refine ⟨hb, ?_, how.begun, by rw [hpend]; exact how.posted, by rw [hpend]; exact how.queued,
      by rw [htaken]; exact how.submitted,
      by rw [hcalls, htaken, hpend]; exact how.total, how.waits⟩
    rcases hp with hp | ⟨-, hp⟩
    · rw [hp]
      exact how.unfinished
    · rw [hp]
      rfl
  exact ⟨how', by rw [how'.batchWork, how.batchWork, htaken, hpend]⟩

/-- The coroutine of the batch is not destroyed. -/
theorem Own.not_leaves (how : Own s x q l) (hreach : Reachable s) (hs : State.step s c = .ok s')
    (hund : s.Undisturbed x c) (hne : (s.coros x).place ≠ .running) : (s'.coros x).place ≠ .gone := by
  intro hgone
  have hu := how.unfinished
  obtain ⟨-, -, -, hover⟩ := hund.idle how (fun rest hst => absurd (hreach.placed.place_of_top hst) hne) hs
  rcases (step_tasks hreach.sound hreach.killing hs).gone (h := x) hgone with h1 | h1 | ⟨v, h1⟩
  · rw [show (s.coros x).place = .gone from h1] at hu
    cases hu
  · rw [show (s.coros x).place = .final from h1] at hu
    cases hu
  · rw [h1] at hover
    exact hover rfl

theorem lt_nextCoro (hreach : Reachable s) (hu : (s.coros x).place.unfinished = true) : x < s.nextCoro := by
  by_contra hge
  rw [hreach.placed.fresh x (not_lt.mp hge)] at hu
  cases hu

theorem batch_kind (hs : State.step s c = .ok s') (hx : x < s.nextCoro) (hb : (s.coros x).body = .submitAndWait q l) :
    ∃ l', (s'.coros x).body = .submitAndWait q l' := by
  have hk := ((Steady.step hs).kind x).resolve_right fun h => absurd hx (not_lt.mpr h.1)
  rw [hb] at hk
  cases hb' : (s'.coros x).body with
  | submitAndWait q' l' =>
    rw [hb'] at hk
    cases hk
    exact ⟨l', rfl⟩
  | _ =>
    rw [hb'] at hk
    cases hk

theorem Own.await (how : Own s x q l) {i : ℕ} (hsub : l.numSubmitted = i + s.takenFor l.reqData)
    (hi : i < l.numSubmitted) :
    Own ((s.setBody x (.submitAndWait q { l with pc := .await i })).suspend x .atGeneric) x q
    { l with pc := .await i } := by
  have hb : ((s.setBody x (.submitAndWait q { l with pc := .await i })).suspend x .atGeneric).coros x =
      { s.coros x with body := .submitAndWait q { l with pc := .await i }, place := .atGeneric } := by
    simp [State.suspend, setPlace, pop, State.setBody, modCoro]
  refine ⟨by rw [hb], by rw [hb]; rfl, by simp, how.posted, how.queued, hsub, how.total, ?_⟩
  intro j hj
  cases hj
  exact hi

theorem Own.finishes (how : Own s x q l) (hreach : Reachable s) (hs : State.step s c = .ok s') {rest : List Activation}
    (hst : s.stack = .run x :: rest) (h0 : l.numSubmitted = 0) (hq : l.numQueued = 0)
    (hf : s.finish x (some 0) = .ok s') : Over s' x q ∧ s'.Emptied l := by
  have hrun := hreach.placed.place_of_top hst
  have hcoh : Coherent s := hreach.sound.coherent hst (by simp)
  have hlt := lt_nextCoro hreach how.unfinished
  have hcalls := calls_stay hreach hs how.body fun hat => by cases hrun.symm.trans hat
  have htaken : s.takenFor l.reqData = 0 := by
    have hsub := how.submitted
    omega
  have hpend : s.ev.ring.pending.length = 0 := how.queued ▸ hq
  have hring : s'.ev.ring = s.ev.ring := (Quiet.finish hst hf).ring
  constructor
  · refine ⟨hlt.trans_le (Steady.step hs).nextCoro, batch_kind hs hlt how.body, ?_,
      (returned_finish hf).mpr (.inl ⟨rfl, rfl⟩), ?_⟩
    · rw [place_finish hcoh hst hf]
      rfl
    · have htot := how.total
      rw [hcalls]
      omega
  · refine ⟨?_, ?_⟩
    · rw [hring]
      exact List.eq_nil_of_length_eq_zero hpend
    · rw [takenFor, hring]
      exact htaken

/-- The batch submits again: what the kernel takes is its own. -/
theorem Own.submits (how : Own s x q l) (hreach : Reachable s) {n : ℤ} {s1 : State} (hpc : l.pc = .loop)
    (h0 : l.numSubmitted = 0) (hs : s.submitQueuedEntries n = .ok s1) {l' : BatchLocals}
    (hl' : l' = { l with numSubmitted := l.numSubmitted + n.toNat, numQueued := u32 (l.numQueued - n) })
    (hcalls : (s1.setBody x (.submitAndWait q l')).calls x = s.calls x) (hpos : 0 ≤ n) :
    Own (s1.setBody x (.submitAndWait q l')) x q l' := by
  obtain ⟨-, htk⟩ := takes_submit l.reqData hs
  obtain ⟨hring, hle, htr⟩ : s1.ev.ring = s.ev.ring.submit n.toNat ∧ n ≤ s.ev.ring.pending.length ∧
      s1.coros = s.coros := by
    obtain ⟨-, -, hle, rfl⟩ := submitQueuedEntries_ok hs
    exact ⟨rfl, hle, rfl⟩
  have hpend : s1.ev.ring.pending = s.ev.ring.pending.drop n.toNat := by rw [hring, Uring.submit_pending]
  have hlen : s1.ev.ring.pending.length = s.ev.ring.pending.length - n.toNat := by rw [hpend, List.length_drop]
  have hamong : (s.ev.ring.pending.take n.toNat).countP (Slot.among l.reqData) = n.toNat := by
    rw [List.countP_eq_length.mpr fun y hy => ?_, List.length_take_of_le (by omega)]
    have hy' := how.posted y (List.mem_of_mem_take hy)
    unfold Slot.postedFor at hy'
    exact (Bool.and_eq_true_iff.mp hy').2
  have hans : l.answered = 0 := by simp [BatchLocals.answered, hpc]
  have hsub := how.submitted
  have htot := how.total
  have hq := how.queued
  have hrd : l'.reqData = l.reqData := by rw [hl']
  have hpc' : l'.pc = .loop := by rw [hl']; exact hpc
  have hns : l'.numSubmitted = n.toNat := by
    rw [hl']
    show l.numSubmitted + n.toNat = n.toNat
    omega
  refine ⟨setBody_body .., ?_, by simp [hpc'], fun y hy => ?_, ?_, ?_, ?_, fun i hi => ?_⟩
  · simp [State.setBody, modCoro, htr, how.unfinished]
  · rw [hrd]
    refine how.posted y (List.mem_of_mem_drop (i := n.toNat) ?_)
    rw [← hpend]
    exact hy
  · show l'.numQueued = s1.ev.ring.pending.length
    have hsmall := (hreach.vectors x q l how.body how.unfinished).small
    have h6 : (l.numQueued : ℤ) - n = ((s.ev.ring.pending.length - n.toNat : ℕ) : ℤ) := by omega
    rw [hlen, hl']
    show u32 (l.numQueued - n) = _
    rw [h6, u32_natCast, Nat.mod_eq_of_lt (by omega)]
  · rw [hrd, hns]
    show n.toNat = l'.answered + s1.takenFor l.reqData
    rw [htk, hamong]
    simp only [BatchLocals.answered, hpc']
    omega
  · rw [hcalls, hrd]
    show _ + s1.takenFor l.reqData + s1.ev.ring.pending.length = _
    omega
  · rw [hpc'] at hi
    cases hi

/-- The loop of the batch goes on. -/
theorem Own.loops (how : Own s x q l) (hreach : Reachable s) (hs : State.step s c = .ok s') (hund : s.Undisturbed x c)
    {ret : Option ℤ} {rest : List Activation} (hst : s.stack = .run x :: rest) (hc : c = ret.elim .tau .sub)
    (hpc : l.pc = .loop) (h1 : s.submitAndWaitLoop x q l ret = .ok s') :
    (∃ l', Own s' x q l' ∧ s'.batchWork x < s.batchWork x) ∨ Over s' x q ∧ s'.Emptied l := by
  have hrun := hreach.placed.place_of_top hst
  have hcalls := calls_stay hreach hs how.body fun hat => by cases hrun.symm.trans hat
  rcases submitAndWaitLoop_ok h1 with ⟨-, h0, h2, h3⟩ | ⟨-, h0, rfl⟩ | ⟨n, s1, rfl, h0, h2, h3, h4⟩
  · exact .inr (how.finishes hreach hs hst h0 h2 h3)
  · -- it waits for the first response of the round
    left
    have hsub := how.submitted
    have hans : l.answered = 0 := by simp [BatchLocals.answered, hpc]
    rw [hans] at hsub
    have how' := how.await hsub (Nat.pos_of_ne_zero h0)
    refine ⟨_, how', ?_⟩
    rw [how'.batchWork, how.batchWork]
    simp only [BatchLocals.work, hpc, if_neg h0]
    exact Nat.lt_succ_self _
  · -- it submits again
    left
    have hpend : s.ev.ring.pending ≠ [] := by
      intro hnil
      have hq := how.queued
      rw [hnil] at hq
      exact h2 hq
    have hpos : 0 < n := by
      have h5 := hund l (by rw [how.mem_batch]; rfl)
      rw [if_pos ⟨by rw [hst]; rfl, .inr hpc⟩] at h5
      subst hc
      exact (h5 n rfl).2 hpend
    rcases h4 with ⟨hneg, -⟩ | ⟨-, rfl⟩
    · exact absurd hneg (not_lt.mpr hpos.le)
    generalize hl' : ({ l with numSubmitted := l.numSubmitted + n.toNat, numQueued := u32 (l.numQueued - n) } :
      BatchLocals) = l'
      at hcalls ⊢
    have how' := how.submits hreach hpc h0 h3 hl'.symm hcalls hpos.le
    have hpc' : l'.pc = .loop := by rw [← hl']; exact hpc
    have hn : l'.numSubmitted ≠ 0 := by
      rw [← hl']
      show l.numSubmitted + n.toNat ≠ 0
      omega
    refine ⟨l', how', ?_⟩
    -- what was pending is still to be answered, and what was taken is nearer to it
    have hsub := how.submitted
    have hsub' := how'.submitted
    have htot := how.total
    have htot' := how'.total
    rw [hcalls] at htot'
    rw [how'.batchWork, how.batchWork]
    simp only [BatchLocals.answered, BatchLocals.work, hpc, hpc', h0, if_true] at hsub hsub' ⊢
    rw [if_neg hn]
    omega

theorem Own.next (how : Own s x q l) (hreach : Reachable s) (hs : State.step s c = .ok s') {i : ℕ}
    {rest : List Activation}
    (hst : s.stack = .run x :: rest) (hpc : l.pc = .handler i) (h1 : s' = s.submitAndWaitNext x q l i) :
    ∃ l', Own s' x q l' ∧ s'.batchWork x < s.batchWork x := by
  have hrun := hreach.placed.place_of_top hst
  have hsub := how.submitted
  have hans : l.answered = i + 1 := by simp [BatchLocals.answered, hpc]
  rw [hans] at hsub
  have hcalls := calls_stay hreach hs how.body fun hat => by cases hrun.symm.trans hat
  subst h1
  unfold State.submitAndWaitNext at hcalls ⊢
  split at hcalls
  · rename_i hlt
    rw [if_pos hlt]
    have how' := how.await hsub hlt
    refine ⟨_, how', ?_⟩
    rw [how'.batchWork, how.batchWork]
    simp only [BatchLocals.work, hpc]
    exact Nat.lt_succ_self _
  · rename_i hlt
    rw [if_neg hlt]
    have htaken : s.takenFor l.reqData = 0 := by omega
    have how' : Own (s.setBody x (.submitAndWait q { l with pc := .loop, numSubmitted := 0 })) x q
        { l with pc := .loop, numSubmitted := 0 } := by
      refine ⟨setBody_body .., ?_, by simp, how.posted, how.queued, ?_, how.total, fun j hj => by cases hj⟩
      · simp [State.setBody, modCoro, how.unfinished]
      · show 0 = 0 + s.takenFor l.reqData
        omega
    refine ⟨_, how', ?_⟩
    rw [how'.batchWork, how.batchWork]
    simp only [BatchLocals.work, hpc, if_true]
    show 4 * s.ev.ring.pending.length + 1 < _
    omega

theorem Own.hears (how : Own s x q l) (hreach : Reachable s) (hs : State.step s c = .ok s') {i : ℕ}
    {r : ReqId} {res : ℤ}
    {d : ResponsePack} (hpc : l.pc = .await i) (hsrc : s.Source r x res c) (hd : s.Delivers r x res d s')
    (hb : (s'.coros x).body = .submitAndWait q { l with pc := .handler i }) :
    ∃ l', Own s' x q l' ∧ s'.batchWork x < s.batchWork x := by
  have hsub := how.submitted
  have htot := how.total
  have hans : l.answered = i := by simp [BatchLocals.answered, hpc]
  rw [hans] at hsub
  obtain ⟨j, base, y, rest, hst, rfl, hy, -, ha⟩ :=
    among_of_delivers hreach (hreach.vectors x q l how.body how.unfinished) how.body hsrc hd
  have hring : s'.ev.ring = s.ev.ring.reap j := (ring_awaitCqe (by simpa only [State.step, hst] using hs)).1
  have hpend : s'.ev.ring.pending = s.ev.ring.pending := by rw [hring, Uring.reap_pending]
  have htk := takenFor_reap l.reqData hy hring
  rw [if_pos ha] at htk
  have hcalls := (calls_of_delivers hreach how.body hd).2.2
  have how' : Own s' x q { l with pc := .handler i } := by
    refine ⟨hb, by rw [hd.place]; rfl, by simp, by rw [hpend]; exact how.posted,
      by rw [hpend]; exact how.queued, ?_, ?_,
      fun k hk => by cases hk⟩
    · show l.numSubmitted = i + 1 + s'.takenFor l.reqData
      omega
    · rw [hcalls, hpend, List.length_cons]
      show _ + s'.takenFor l.reqData + _ = _
      omega
  refine ⟨_, how', ?_⟩
  rw [how'.batchWork, how.batchWork, hpend]
  simp only [BatchLocals.work, hpc]
  show 2 * s'.takenFor l.reqData + 4 * s.ev.ring.pending.length + 2 < _
  omega

/-- **A step of a batch that has the ring for itself**: it rests, or is one move nearer to its end, or has returned
0. -/
theorem Own.step (how : Own s x q l) (hreach : Reachable s) (hund : s.Undisturbed x c) (hs : State.step s c = .ok s') :
    (Own s' x q l ∧ s'.batchWork x = s.batchWork x) ∨ (∃ l', Own s' x q l' ∧ s'.batchWork x < s.batchWork x) ∨
      Over s' x q ∧ s'.Emptied l := by
  cases step_batch hreach hs how.body (lt_nextCoro hreach how.unfinished) with
  | rests hb hidle hp => exact .inl (how.rests hreach hs hund hb hidle hp)
  | leaves hne hgone => exact absurd hgone (how.not_leaves hreach hs hund hne)
  | begins _ _ hpc => exact absurd hpc how.begun
  | loops hst hc hpc h1 => exact .inr (how.loops hreach hs hund hst hc hpc h1)
  | next hst _ hpc h1 => exact .inr (.inl (how.next hreach hs hst hpc h1))
  | throws hst hc hpc =>
    refine absurd hc ((hund.idle how (fun _ _ => ⟨_, hpc⟩) hs).2.2.1 ?_)
    rw [hst]
    rfl
  | hears hpc hsrc hd hb => exact .inr (.inl (how.hears hreach hs hpc hsrc hd hb))

theorem Over.step (hov : Over s x q) (hreach : Reachable s) (hs : State.step s c = .ok s') : Over s' x q := by
  obtain ⟨l, hb⟩ := hov.body
  have hfin : (s'.coros x).place.unfinished = false := by
    by_contra hu
    have h1 := batch_unfinished hreach hs hov.lt hb (by simpa using hu)
    cases hov.finished.symm.trans h1
  have hcalls := calls_stay hreach hs hb fun hat => by
    have h1 := hov.finished
    rw [hat] at h1
    cases h1
  exact ⟨hov.lt.trans_le (Steady.step hs).nextCoro, batch_kind hs hov.lt hb, hfin, step_mem hs hov.returned,
    by rw [hcalls]; exact hov.calls⟩

/-! ### The beginning -/

/-- The batch of `x` is about to begin, on an empty ring with room for its requests, before the manager is past
LIVING. -/
structure Begins (s : State) (x : CoroId) (q : RequestQueue) : Prop where
  stack : ∃ rest, s.stack = .run x :: rest
  body : (s.coros x).body = .submitAndWait q {}
  pending : s.ev.ring.pending = []
  fits : q.length ≤ s.ev.ring.entries
  entries : s.ev.ring.entries < 2 ^ 32
  lives : s.shouldRestrictUsage = false

theorem Begins.mem_batch (hbg : Begins s x q) (hreach : Reachable s) : s.batch x = some {} := by
  obtain ⟨rest, hst⟩ := hbg.stack
  exact State.mem_batch.mpr ⟨q, hbg.body, by rw [hreach.placed.place_of_top hst]; rfl⟩

theorem Begins.batchWork (hbg : Begins s x q) (hreach : Reachable s) : s.batchWork x = 4 * q.length + 2 := by
  rw [State.batchWork, hbg.mem_batch hreach, hbg.body]
  rfl

theorem Begins.calls (hbg : Begins s x q) (hreach : Reachable s) : s.calls x = [] := by
  obtain ⟨rest, hst⟩ := hbg.stack
  have hv := hreach.vectors x q {} hbg.body (by rw [hreach.placed.place_of_top hst]; rfl)
  have hnone : s.completionsOf x = [] := by
    refine List.filter_eq_nil_iff.mpr fun y hy => ?_
    simp only [decide_eq_true_eq]
    intro hh
    have hm := (hv.mem y.1).mpr ⟨completions_made hreach y hy, hh⟩
    cases hm
  have hlen := (inOrder hreach x (.inl ⟨q, {}, hbg.body⟩)).length_eq
  rw [hnone] at hlen
  exact List.eq_nil_of_length_eq_zero hlen

/-- The batch begins: all its requests are pending. -/
theorem Begins.step (hbg : Begins s x q) (hreach : Reachable s) (hund : s.Undisturbed x c)
    (hs : State.step s c = .ok s') :
    ∃ l, Own s' x q l ∧ s'.batchWork x < s.batchWork x := by
  obtain ⟨rest, hst⟩ := hbg.stack
  have hrun := hreach.placed.place_of_top hst
  have hbody := hbg.body
  cases step_batch hreach hs hbg.body (lt_nextCoro hreach (by rw [hrun]; rfl)) with
  | rests _ hidle =>
    obtain ⟨i, hi⟩ := hidle rest hst
    cases hi
  | leaves hne => exact absurd hrun hne
  | loops _ _ hpc | next _ _ hpc | throws _ _ hpc | hears hpc => cases hpc
  | @begins ret rest' hst' hc _ h1 =>
    subst hc
    have hret : 0 ≤ ret := by
      have h2 := hund {} (by rw [hbg.mem_batch hreach]; rfl)
      rw [if_pos ⟨by rw [hst]; rfl, .inl rfl⟩] at h2
      exact (h2 ret rfl).1
    obtain ⟨s1, h2, ⟨hneg, -⟩ | ⟨-, s2, h3, rfl⟩⟩ := submitAndWaitBegin_ok h1
    · exact absurd hneg (not_lt.mpr hret)
    obtain ⟨hn1, hring, htrace, hlive1, hle, hc1⟩ : s1.nextReq = s.nextReq ∧ s1.ev.ring = s.ev.ring.submit ret.toNat ∧
        s1.trace = s.trace ∧ s1.shouldRestrictUsage = s.shouldRestrictUsage ∧ ret ≤ s.ev.ring.pending.length ∧
        s1.coros = s.coros := by
      obtain ⟨-, -, hle, rfl⟩ := submitQueuedEntries_ok h2
      exact ⟨rfl, rfl, rfl, rfl, hle, rfl⟩
    rw [hbg.pending] at hle
    obtain rfl : ret = 0 := le_antisymm hle hret
    generalize hrs : List.range' s1.nextReq q.length = rs at h3
    have hlen : rs.length = q.length := by rw [← hrs, List.length_range']
    have hlenz : (q.zip rs).length = q.length := by rw [List.length_zip, hlen, min_self]
    have hpend1 : s1.ev.ring.pending = [] := by rw [hring, Uring.submit_pending, hbg.pending, List.drop_nil]
    have hroom : (s1.newVector x q.length).2.room = s.ev.ring.entries := by
      show (if s1.shouldRestrictUsage then 0 else s1.ev.ring.entries - s1.ev.ring.pending.length) = _
      rw [hlive1, hbg.lives, hpend1, hring, Uring.submit_entries]
      simp
    have hpend : s2.ev.ring.pending = (q.zip rs).map fun y => queuedSlot y.1 y.2 {} := by
      rw [processRequests_pending h3, hroom, List.take_of_length_le (by rw [hlenz]; exact hbg.fits)]
      show s1.ev.ring.pending ++ _ = _
      rw [hpend1, List.nil_append]
    have hunp : s2.ev.ring.unpublished = q.length := by
      have hsnd : (q.zip rs).map Prod.snd = rs := List.map_snd_zip hlen.le
      have h4 := (processRequests_all (by rw [hsnd, ← hrs]; exact List.nodup_range') (s := (s1.newVector x q.length).2)
        (hlive1.trans hbg.lives) (by
          show s1.ev.ring.pending.length + _ ≤ s1.ev.ring.entries
          rw [hpend1, hlenz, hring, Uring.submit_entries]
          simpa using hbg.fits) h3).1
      rw [h4, hlenz]
      show s1.ev.ring.unpublished + _ = _
      rw [hring, Uring.submit_unpublished, Nat.zero_add]
    have hfresh : s2.takenFor rs = 0 := by
      have h4 : s1.queuedFor rs = 0 ∧ s1.takenFor rs = 0 := by
        refine posted_fresh (fun y hy r hr => ?_) fun r hr => ?_
        · rw [hring] at hy
          rw [hn1]
          exact (hreach.sound.records.entry r ⟨y, Uring.has_submit hy, hr⟩).1
        · rw [← hrs] at hr
          exact (List.mem_range'_1.mp hr).1
      have h5 : s2.takenFor rs = s1.takenFor rs := (processRequests_posts (fun y hy => (List.of_mem_zip hy).2) h3).2
      exact h5.trans h4.2
    have hplace :
      ((s2.setBody x (.submitAndWait q ⟨.loop, rs, (0 : ℤ).toNat, u32 s2.ev.ring.unpublished⟩)).coros x).place =
        .running := by
      have h4 : ((s1.newVector x q.length).2.coros x).place = (s1.coros x).place := by simp [newVector, modCoro]
      simp only [State.setBody, modCoro, Function.update_self, processRequests_coros h3]
      rw [h4, hc1]
      exact hrun
    have hcalls : (s2.setBody x (.submitAndWait q ⟨.loop, rs, (0 : ℤ).toNat, u32 s2.ev.ring.unpublished⟩)).calls x =
        [] := by
      rw [← hbg.calls hreach]
      exact congrArg (List.filter (Event.isCallOf x)) ((Eq.trans (trace_processRequests h3) rfl).trans htrace)
    have hlen2 : s2.ev.ring.pending.length = q.length := by rw [hpend, List.length_map, hlenz]
    have how : Own (s2.setBody x (.submitAndWait q ⟨.loop, rs, (0 : ℤ).toNat, u32 s2.ev.ring.unpublished⟩)) x q
        ⟨.loop, rs, (0 : ℤ).toNat, u32 s2.ev.ring.unpublished⟩ := by
      refine ⟨setBody_body .., by rw [hplace]; rfl, by simp, fun y hy => ?_, ?_, ?_, ?_, fun i hi => by cases hi⟩
      · have hy' : y ∈ s2.ev.ring.pending := hy
        rw [hpend] at hy'
        obtain ⟨z, hz, rfl⟩ := List.mem_map.mp hy'
        simp [Slot.postedFor, queuedSlot, Slot.setData, ioUringSqeSetData, Slot.among, (List.of_mem_zip hz).2]
      · show u32 s2.ev.ring.unpublished = s2.ev.ring.pending.length
        rw [hunp, hlen2, u32_natCast, Nat.mod_eq_of_lt (hbg.fits.trans_lt hbg.entries)]
      · show 0 = 0 + s2.takenFor rs
        rw [hfresh]
      · rw [hcalls]
        show 0 + s2.takenFor rs + s2.ev.ring.pending.length = _
        rw [hfresh, hlen2]
        exact Nat.zero_add _
    subst hrs
    refine ⟨_, how, ?_⟩
    rw [how.batchWork, hbg.batchWork hreach]
    show 4 * s2.ev.ring.pending.length + 1 < _
    omega

/-! ### A run -/

/-- The stages of a batch that has the ring for itself. -/
def Staged (s s₀ : State) (x : CoroId) (q : RequestQueue) : Prop :=
  s = s₀ ∨ (∃ l, Own s x q l) ∨ Over s x q

end State

variable {s₀ s s' : State} {c : Choice} {x : CoroId} {q : RequestQueue} {k : ℕ}

/-- A step goes on with the stage or to the next one, no work is added, and where the batch ends nothing of it is
left. -/
theorem staged_step (hreach : Reachable s) (hbg : s₀.Begins x q) (hst : s.Staged s₀ x q) (hund : s.Undisturbed x c)
    (hs : State.step s c = .ok s') : s'.Staged s₀ x q ∧ s'.batchWork x ≤ s.batchWork x ∧
      (s'.batch x ≠ s.batch x → s'.batchWork x < s.batchWork x) ∧
      (s'.batch x = none → ∀ l ∈ s.batch x, s'.Emptied l) := by
  have hover : s'.Over x q → s'.batch x = none ∧ s'.batchWork x = 0 := by
    intro hov
    have hnone := State.batch_of_finished hov.finished
    exact ⟨hnone, by rw [State.batchWork, hnone]⟩
  rcases hst with rfl | ⟨l, how⟩ | hov
  · obtain ⟨l, how, hlt⟩ := hbg.step hreach hund hs
    refine ⟨.inr (.inl ⟨l, how⟩), hlt.le, fun _ => hlt, fun hnone => ?_⟩
    cases hnone.symm.trans how.mem_batch
  · rcases how.step hreach hund hs with ⟨how', heq⟩ | ⟨l', how', hlt⟩ | ⟨hov, hclear⟩
    · refine ⟨.inr (.inl ⟨l, how'⟩), heq.le, fun hne => absurd ?_ hne, fun hnone => ?_⟩
      · rw [how'.mem_batch, how.mem_batch]
      · cases hnone.symm.trans how'.mem_batch
    · refine ⟨.inr (.inl ⟨l', how'⟩), hlt.le, fun _ => hlt, fun hnone => ?_⟩
      cases hnone.symm.trans how'.mem_batch
    · -- a batch under way has work left
      have hpos : 0 < s.batchWork x := by
        rw [how.batchWork]
        unfold BatchLocals.work
        split
        · omega
        · split <;> omega
        · omega
        · omega
      rw [(hover hov).2, how.mem_batch]
      refine ⟨.inr (.inr hov), hpos.le, fun _ => hpos, fun _ l' hl' => ?_⟩
      obtain rfl : l = l' := Option.some.inj hl'
      exact hclear
  · have hov' := hov.step hreach hs
    obtain ⟨hnone', hzero⟩ := hover hov'
    refine ⟨.inr (.inr hov'), ?_, fun hne => absurd ?_ hne, fun _ l hl => ?_⟩
    · rw [hzero]
      exact Nat.zero_le _
    · rw [hnone', State.batch_of_finished hov.finished]
    · rw [State.batch_of_finished hov.finished] at hl
      cases hl

/-- **A batch that has the ring for itself ends.**  It makes at most four moves a request and two more; while it is
under way each of its requests is answered, in flight or pending, and one is in flight where it waits; where it ends
nothing is pending and none of its requests is in flight; and once it is over it has returned 0, after one
completion of each request and a call of its handler for each, in their order. -/
theorem batch_ends (h₀ : Reachable s₀) (hbg : s₀.Begins x q)
    (h : RunCount State.step (State.Undisturbed x) (State.MovesBatch x) s₀ k s) :
    k ≤ 4 * q.length + 2 ∧
    (∀ l ∈ s.batch x, l.pc ≠ .begin → (s.calls x).length + s.takenFor l.reqData + s.ev.ring.pending.length = q.length ∧
      ∀ i, l.pc = .await i → 0 < s.takenFor l.reqData) ∧
    (∀ c s', s.Undisturbed x c → State.step s c = .ok s' → s'.batch x = none → ∀ l ∈ s.batch x, s'.Emptied l) ∧
    (s.batch x = none → .returned x (some 0) ∈ s.trace ∧ (s.completionsOf x).length = q.length ∧
      List.Forall₂ (s.CallFor x) (s.calls x) (s.completionsOf x)) := by
  have hJ : ∀ t, Run State.step (State.Undisturbed x) s₀ t → Reachable t ∧ t.Staged s₀ x q := fun t ht => by
    induction ht with
    | refl => exact ⟨h₀, .inl rfl⟩
    | tail _ hund hs ih => exact ⟨ih.1.step hs, (staged_step ih.1 hbg ih.2 hund hs).1⟩
  refine ⟨?_, ?_⟩
  · have hwork : k + s.batchWork x ≤ s₀.batchWork x := by
      refine h.measure_of (State.batchWork x) hJ (fun s c s' ht hund hmoves hs => ?_) fun s c s' ht hund _ hs => ?_
      · obtain ⟨u, hu, hne⟩ := hmoves
        rw [hs] at hu
        obtain rfl : s' = u := Option.some.inj hu
        exact (staged_step ht.1 hbg ht.2 hund hs).2.2.1 hne
      · exact (staged_step ht.1 hbg ht.2 hund hs).2.1
    rw [hbg.batchWork h₀] at hwork
    omega
  · obtain ⟨hreach, hst⟩ := hJ s h.run
    refine ⟨?_, fun c s' hund hs => (staged_step hreach hbg hst hund hs).2.2.2, ?_⟩
    · rcases hst with rfl | ⟨l, how⟩ | hov
      · rw [hbg.mem_batch h₀]
        intro l hl hpc
        obtain rfl : ({} : BatchLocals) = l := Option.some.inj hl
        exact absurd rfl hpc
      · rw [how.mem_batch]
        intro l' hl' _
        obtain rfl : l = l' := Option.some.inj hl'
        refine ⟨how.total, fun i hi => ?_⟩
        have hlt := how.waits i hi
        have hsub := how.submitted
        simp only [BatchLocals.answered, hi] at hsub
        omega
      · rw [State.batch_of_finished hov.finished]
        exact fun l hl => by cases hl
    · intro hnone
      rcases hst with rfl | ⟨l, how⟩ | hov
      · cases hnone.symm.trans (hbg.mem_batch h₀)
      · cases hnone.symm.trans how.mem_batch
      · obtain ⟨l, hb⟩ := hov.body
        have horder := State.inOrder hreach x (.inl ⟨q, l, hb⟩)
        exact ⟨hov.returned, by rw [← horder.length_eq, hov.calls], horder⟩

/-- Two requests of which each round takes one: it ends after its ten moves. -/
theorem batch_ends_two : ∃ (s₀ s : State) (k : ℕ), s₀.Begins 1 [.write ⟨4, 200, 4⟩, .read ⟨3, 100, 8⟩] ∧
    s.batch 1 = none ∧ RunCount State.step (State.Undisturbed 1) (State.MovesBatch 1) s₀ k s ∧ k ≤ 10 ∧
    .returned 1 (some 0) ∈ s.trace ∧
    (s.completionsOf 1).length = 2 := by
  have he : (exec State.step (fun _ _ => True) (init 4) [.user (.submitAndWait [.write ⟨4, 200, 4⟩, .read ⟨3, 100, 8⟩]),
      .user (.startTask 0)]).map (fun s => decide (s.stack = [.run 1, .taskStart (.var 0) 1, .main] ∧ (s.coros 1).body =
        .submitAndWait [.write ⟨4, 200, 4⟩, .read ⟨3, 100, 8⟩] {} ∧ s.ev.ring.pending = [] ∧ s.ev.ring.entries = 4 ∧
        s.shouldRestrictUsage = false ∧
        (exec State.step (State.Undisturbed 1) s [.sub 0, .sub 1, .tau, .tau, .user .start,
          .message 0, .cqe 0 4 0, .user (.handlerReturn false), .sub 1, .tau, .tau, .tau, .message 0, .cqe 0 8 0,
          .user (.handlerReturn false), .tau]).any fun t => t.batch 1 = none)) = some true := by decide
  obtain ⟨s₀, h₀, hp⟩ := Reach.of_exec (.up 4) he
  obtain ⟨hst, hb, hpend, hent, hlive, hend⟩ := of_decide_eq_true hp
  obtain ⟨s, hs, hnone⟩ := (Option.any_eq_true ..).mp hend
  have hbg : s₀.Begins 1 [.write ⟨4, 200, 4⟩, .read ⟨3, 100, 8⟩] :=
    ⟨⟨_, hst⟩, hb, hpend, by rw [hent]; decide, by rw [hent]; decide, hlive⟩
  obtain ⟨k, hk⟩ := (Run.of_exec hs).count (State.MovesBatch 1)
  obtain ⟨h1, -, -, h2⟩ := batch_ends h₀ hbg hk
  have hnone' := of_decide_eq_true hnone
  exact ⟨s₀, s, k, hbg, hnone', hk, h1, (h2 hnone').1, (h2 hnone').2.1⟩

end EvManager
