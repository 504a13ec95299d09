import EvManager.Counter

/-!
# Requests that cannot be taken

What the operations tell their caller when there is no entry to be had, the manager is past LIVING, or
`io_uring_submit` takes nothing.
-/

namespace EvManager

open Lib ErrorProcessing

namespace State

/-! ### Operations that are awaited -/

/-- `co_await` of the operation `p` by the running coroutine `h` returns at once, with an error, and leaves
the ring alone. -/
def RefusedWithError (h : CoroId) (p : ParameterPack) (s : State) : Prop :=
  ∃ s' r resp, s.coroStep h (.awaitOp p) = .ok s' ∧ (s'.coros h).place = .running ∧
    s'.trace = .ioReturned h r resp :: s.trace ∧ isThereAnError resp.error = true ∧ s'.ev.ring = s.ev.ring

/-- Past LIVING the awaitable is made with a null `EventManager*`, which its constructor goes through. -/
theorem ioOp_restricted {ctx : Option CoroId} {p : ParameterPack} {s : State}
    (hres : s.shouldRestrictUsage = true) : s.ioOp ctx p = .error (.undefined .nullManager) := by
  unfold ioOp
  rw [if_pos hres]
  rfl

/-- **Past LIVING no awaited operation is refused with an error**: each of them goes through a null
pointer. -/
theorem not_refusedWithError {s : State} {h : CoroId} {p : ParameterPack}
    (hlife : LivingState.living.rank < s.ev.managerLifeState.rank) :
    s.coroStep h (.awaitOp p) = .error (.undefined .nullManager) ∧ ¬ s.RefusedWithError h p := by
  have hop : s.coroStep h (.awaitOp p) = .error (.undefined .nullManager) := by
    have hio : s.ioOp (some h) p = .error (.undefined .nullManager) :=
      ioOp_restricted (by simpa [shouldRestrictUsage] using hlife)
    simp only [coroStep, hio]
    rfl
  refine ⟨hop, fun hr => ?_⟩
  obtain ⟨s', r, resp, hs, -⟩ := hr
  rw [hop] at hs
  cases hs

theorem not_refusedWithError_initFailed :
    initFailed.coroStep 1 (.awaitOp (.read {})) = .error (.undefined .nullManager) ∧
      ¬ initFailed.RefusedWithError 1 (.read {}) :=
  not_refusedWithError (by decide)

/-- A coroutine that reads from a manager whose ring could not be set up. -/
theorem refusedWithError_fails : ¬ ∀ (s : State) (h : CoroId) (rest : List Activation) (p : ParameterPack),
    Reachable s → s.stack = .run h :: rest → (s.coros h).body = .user →
    LivingState.living.rank < s.ev.managerLifeState.rank → s.RefusedWithError h p := by
  intro hall
  have he : (exec step (fun _ _ => True) initFailed [.user .call, .user (.startTask 0)]).map (fun s =>
      decide (s.stack.head? = some (.run 1) ∧ (s.coros 1).body = .user ∧
        LivingState.living.rank < s.ev.managerLifeState.rank)) = some true := by decide
  obtain ⟨s, hreach, hs⟩ := Reach.of_exec .failed he
  obtain ⟨hst, hb, hl⟩ := of_decide_eq_true hs
  obtain ⟨rest, hst⟩ : ∃ rest, s.stack = .run 1 :: rest := by
    cases hst' : s.stack with
    | nil => simp [hst'] at hst
    | cons a rest =>
      rw [hst', List.head?_cons, Option.some.injEq] at hst
      exact ⟨rest, by rw [hst]⟩
  exact (not_refusedWithError hl).2 (hall s 1 rest (.read {}) hreach hst hb hl)

/-! ### Operations that are not awaited -/

/-- From `s` to `s'` a request for a poller was taken in: there is a new record on the heap, it was not
deleted, and an entry with its address waits in the ring or is in flight. -/
def TakenIn (s s' : State) : Prop :=
  ∃ r, s.nextReq ≤ r ∧ r < s'.nextReq ∧ (s'.reqs r).live = true ∧ (s'.reqs r).home = .heap ∧
    (s'.reqs r).data.handle = none ∧
    ∃ x ∈ s'.ev.ring.pending ++ s'.ev.ring.inFlight, x.sqe.userData = some r

theorem not_takenIn_self (s : State) : ¬ s.TakenIn s := by
  rintro ⟨r, hle, hlt, -⟩
  omega

/-- The cast to the enum keeps the low byte. -/
theorem cast_neg_eq_unknownError (ret : ℤ) : Errnos.cast (-ret) = Errnos.unknownError ↔ 256 ∣ ret := by
  unfold Errnos.cast Errnos.unknownError
  rw [← UInt8.toNat_inj]
  simp [UInt8.ofInt]
  omega

/-- Without an entry an `_na` call does nothing and returns the code for no error. -/
theorem naOp_unavailable {s : State} (p : ParameterPack) (ret : ℤ) (ha : ¬ s.SqeAvailable)
    (hup : s.ev.ringUp = true ∨ s.shouldRestrictUsage = true) :
    s.naOp p ret = .ok (Errnos.unknownError, s) := by
  have hq : s.getUringSqe (.request p s.nextReq) = .ok (none, s) := by
    unfold getUringSqe ioUringGetSqe
    by_cases hres : s.shouldRestrictUsage = true
    · rw [if_pos hres]
    · have hfull : s.ev.ring.getSqe (Slot.hand (.request p s.nextReq)) = none := by
        rw [Uring.getSqe_eq_none, ← Uring.length_pending]
        by_contra hlt
        exact ha ⟨by simpa using hres, by omega⟩
      rw [if_neg hres, if_pos (hup.resolve_right hres), hfull]
  unfold naOp getSqeAndReqData
  rw [hq]
  rfl

/-- With an entry the request is entered and a submit decides. -/
theorem naOp_available {s : State} (p : ParameterPack) {ret : ℤ} (hup : s.ev.ringUp = true)
    (ha : s.SqeAvailable) (hlo : -2 ^ 31 ≤ ret) (hhi : ret ≤ s.ev.ring.pending.length + 1) :
    ∃ e s', s.naOp p ret = .ok (e, s') := by
  have hsome : (s.ev.ring.getSqe (Slot.hand (.request p s.nextReq))).isSome = true := by
    rw [Option.isSome_iff_ne_none]
    intro hnone
    have hfull := Uring.getSqe_eq_none.mp hnone
    have hroom := ha.2
    rw [Uring.length_pending] at hroom
    omega
  obtain ⟨⟨j, ring⟩, hr⟩ := Option.isSome_iff_exists.mp hsome
  have hq : s.getUringSqe (.request p s.nextReq) = .ok (some j, s.setRing ring) := by
    unfold getUringSqe ioUringGetSqe
    rw [if_neg (by simp [ha.1]), if_pos hup, hr]
  have hlen : ring.pending.length = s.ev.ring.pending.length + 1 := by
    rw [(Uring.getSqe_pending hr).1]
    simp
  have hsub : ∀ t : State, t.ev.ringUp = s.ev.ringUp → t.ev.ring.pending.length = ring.pending.length →
      t.submitQueuedEntries ret = .ok (t.modEv fun ev => { ev with
        ring := ev.ring.submit ret.toNat, inFlightRequests := ev.inFlightRequests + ret.toNat }) :=
    fun t htup htlen => submitQueuedEntries_eq (htup.trans hup) hlo (by rw [htlen, hlen]; push_cast; exact hhi)
  unfold naOp getSqeAndReqData
  rw [hq]
  simp only [bind, Except.bind, pure, Except.pure, newReq, submitRequest]
  rw [hsub]
  · simp only
    split <;> exact ⟨_, _, rfl⟩
  · rfl
  · simp [writeSqe, setRing, modReq, modEv]

/-- What an `_na` call that got no entry, failed to submit or submitted has to do with its code. -/
theorem errnos_iff_of_naOp {s s' : State} {p : ParameterPack} {ret : ℤ} {e : Errnos}
    (hs : s.naOp p ret = .ok (e, s')) :
    (e = Errnos.unknownError ↔ s.TakenIn s') ↔ s.SqeAvailable ∧ (1 ≤ ret ∨ ¬ 256 ∣ ret) := by
  rcases naOp_ok hs with ⟨hna, rfl, rfl⟩ | ⟨ha, j, ring, s2, hr, h2, hcase⟩
  · simp [hna, not_takenIn_self]
  · obtain ⟨-, -, -, rfl⟩ := submitQueuedEntries_ok h2
    rcases hcase with ⟨hret, rfl, hs'⟩ | ⟨hret, rfl, hs'⟩
    · have hnot : ¬ s.TakenIn s' := by
        rintro ⟨r, hle, hlt, hlive, -⟩
        rw [hs'] at hlt hlive
        obtain rfl : r = s.nextReq := by simp only at hlt; omega
        simp at hlive
      rw [cast_neg_eq_unknownError]
      constructor
      · intro h
        exact ⟨ha, .inr fun hd => hnot (h.mp hd)⟩
      · rintro ⟨-, h⟩
        exact ⟨fun hd => absurd hd (h.resolve_left (by omega)), fun h => absurd h hnot⟩
    · have htaken : s.TakenIn s' := by
        -- the entry is either taken at once or still pending
        have hm : naSlot p s.nextReq (s.ev.ring.sqes j) ∈ ring.pending := by
          simp [(Uring.getSqe_pending hr).1]
        rw [← List.take_append_drop ret.toNat ring.pending, List.mem_append] at hm
        subst hs'
        refine ⟨s.nextReq, le_rfl, Nat.lt_succ_self _, ?_, ?_, ?_, naSlot p s.nextReq (s.ev.ring.sqes j), ?_, rfl⟩
        · simp [naRequest, Request.allocated]
        · simp [naRequest, Request.allocated]
        · simp [naRequest]
        · simp only [setRing, modEv, Uring.submit_pending, Uring.submit_inFlight, List.mem_append]
          tauto
      exact ⟨fun _ => ⟨ha, .inl hret⟩, fun _ => ⟨fun _ => htaken, fun _ => rfl⟩⟩

/-- **When the code an `_na` call returns is right**: whatever state it is called in, it returns, and its code
says whether the request was taken in exactly when it got an entry and the submit either took something or
failed with a number whose low byte is not zero. -/
theorem naOp_errnos_iff {s : State} (p : ParameterPack) {ret : ℤ} (h : Reachable s) (hlo : -2 ^ 31 ≤ ret)
    (hhi : ret ≤ s.ev.ring.pending.length + 1) :
    ∃ e s', s.naOp p ret = .ok (e, s') ∧
      ((e = Errnos.unknownError ↔ s.TakenIn s') ↔ s.SqeAvailable ∧ (1 ≤ ret ∨ ¬ 256 ∣ ret)) := by
  -- the ring is up unless the manager is DEAD, and then there is no entry
  have hup : s.ev.ringUp = true ∨ s.shouldRestrictUsage = true := by
    cases hu : s.ev.ringUp with
    | true => exact .inl rfl
    | false => exact .inr (by simp [shouldRestrictUsage, h.counted.ringUp.mp hu, LivingState.rank])
  have hex : ∃ e s', s.naOp p ret = .ok (e, s') := by
    by_cases ha : s.SqeAvailable
    · exact naOp_available p (hup.resolve_right (by simp [ha.1])) ha hlo hhi
    · exact ⟨_, _, naOp_unavailable p ret ha hup⟩
  obtain ⟨e, s', hs⟩ := hex
  exact ⟨e, s', hs, errnos_iff_of_naOp hs⟩

theorem naOp_errnos_iff_init : ∃ e s', (init 4).naOp (.read {}) 1 = .ok (e, s') ∧
    ((e = Errnos.unknownError ↔ (init 4).TakenIn s') ↔
      (init 4).SqeAvailable ∧ ((1 : ℤ) ≤ 1 ∨ ¬ (256 : ℤ) ∣ 1)) :=
  naOp_errnos_iff (.read {}) ⟨_, .up 4, .refl⟩ (by decide) (by decide)

/-- An `_na` call on a ring of one entry that an awaitable holds. -/
theorem naOp_errnos_fails : ¬ ∀ (s s' : State) (p : ParameterPack) (ret : ℤ) (e : Errnos),
    Reachable s → s.naOp p ret = .ok (e, s') → (e = Errnos.unknownError ↔ s.TakenIn s') := by
  intro hall
  have he : (exec step (fun _ _ => True) (init 1) [.user (.io (.read {}))]).map (fun s =>
      decide (s.ev.ringUp = true ∧ ¬ s.SqeAvailable)) = some true := by decide
  obtain ⟨s, hreach, hs⟩ := Reach.of_exec (.up 1) he
  obtain ⟨hup, ha⟩ := of_decide_eq_true hs
  exact not_takenIn_self s
    ((hall s s (.read {}) 1 _ hreach (naOp_unavailable _ 1 ha (.inl hup))).mp rfl)

end State

end EvManager
