import EvManager.Counter

/-!
# What a step does to the ring

`Prepares`: entries are handed out or written, none is taken.  **`step_ring`** lists the steps by what they do to the
ring: they prepare entries, or submit with entries prepared before and after it, or take a completion off, or mark one
seen.
-/

namespace EvManager

open Lib State

/-- Entries are handed out or written, and none is taken; past LIVING, which `res` tells, none is handed out. -/
structure Prepares (res : Bool) (r r' : Uring Slot) : Prop where
  khead : r'.khead = r.khead
  sqeHead : r'.sqeHead = r.sqeHead
  sqeTail : r.sqeTail ≤ r'.sqeTail
  same : res = true → r'.sqeTail = r.sqeTail

namespace Prepares

variable {res : Bool} {r r' r'' : Uring Slot} {s s' : State}

theorem refl (r : Uring Slot) : Prepares res r r := ⟨rfl, rfl, le_rfl, fun _ => rfl⟩

theorem of_eq (h : r' = r) : Prepares res r r' := by
  rw [h]
  exact refl r

theorem trans (h : Prepares res r r') (h' : Prepares res r' r'') : Prepares res r r'' :=
  ⟨h'.khead.trans h.khead, h'.sqeHead.trans h.sqeHead, h.sqeTail.trans h'.sqeTail,
    fun hr => (h'.same hr).trans (h.same hr)⟩

theorem write (j : ℕ) (f : Slot → Slot) : Prepares res r (r.write j f) := ⟨rfl, rfl, le_rfl, fun _ => rfl⟩

theorem getSqe {mark : Slot → Slot} {j : ℕ} (hres : res = false) (hr : r.getSqe mark = some (j, r')) :
    Prepares res r r' := by
  unfold Uring.getSqe at hr
  split at hr <;> cases hr
  refine ⟨rfl, rfl, Nat.le_succ _, fun h => ?_⟩
  rw [hres] at h
  cases h

theorem getUringSqe {p : Purpose} {x : Option ℕ} (hs : s.getUringSqe p = .ok (x, s')) :
    Prepares s.shouldRestrictUsage s.ev.ring s'.ev.ring := by
  rcases getUringSqe_ok hs with ⟨-, -, rfl⟩ | ⟨j, ring, -, ha, -, hr, rfl⟩
  · exact refl _
  · exact getSqe ha.1 hr

theorem ioOp {ctx : Option CoroId} {p : ParameterPack} {r : ReqId} (hs : s.ioOp ctx p = .ok (r, s')) :
    Prepares s.shouldRestrictUsage s.ev.ring s'.ev.ring := by
  obtain ⟨-, -, sqe, s1, h1, rfl⟩ := ioOp_ok hs
  have h2 := getUringSqe h1
  cases ctx <;> exact h2

theorem awaitIo {h : CoroId} {r : ReqId} (hs : s.awaitIo h r = .ok s') : Prepares res s.ev.ring s'.ev.ring := by
  rcases awaitIo_ok hs with ⟨-, ⟨-, rfl⟩ | ⟨j, -, -, -, rfl⟩⟩
  · exact refl _
  · exact ⟨rfl, rfl, le_rfl, fun _ => rfl⟩

theorem processRequests {h : CoroId} {l : List (ParameterPack × ReqId)} :
    ∀ {s s' : State}, s.processRequests h l = .ok s' → Prepares s.shouldRestrictUsage s.ev.ring s'.ev.ring := by
  induction l with
  | nil =>
    intro s s' hs
    cases hs
    exact refl _
  | cons x l ih =>
    intro s s' hs
    obtain ⟨req, r⟩ := x
    obtain ⟨⟨b, s1⟩, h1, h2⟩ := bind_ok.mp hs
    rcases processSingleGenericRequest_ok h1 with ⟨-, -, rfl⟩ | ⟨-, ha, -, j, ring, hr, rfl⟩
    · exact ih h2
    · exact (getSqe ha.1 hr).trans (ih h2)

end Prepares

/-! ### The loop and the ring -/

section Loop

variable {s s' : State}

theorem ring_awaitMessage {base : Addr} (hs : s.awaitMessage base = .ok s') : s'.ev.ring = s.ev.ring ∧
    s'.seen = s.seen := by
  unfold State.awaitMessage at hs
  simp only at hs
  split at hs
  · have h1 := Uncounted.eventHandler hs
    exact ⟨h1.ring, h1.seen⟩
  · cases hs
    exact ⟨rfl, rfl⟩

theorem ring_awaitCqe {i : ℕ} {res : ℤ} {base : Addr} (hs : s.awaitCqe i res base = .ok s') :
    s'.ev.ring = s.ev.ring.reap i ∧ s'.seen = s.seen := by
  unfold State.awaitCqe at hs
  split at hs
  · split at hs
    · have h1 := Uncounted.eventHandler hs
      refine ⟨h1.ring.trans ?_, h1.seen.trans ?_⟩ <;> split <;> rfl
    · cases hs
  · cases hs

theorem ring_awaitSeen (hs : s.awaitSeen = .ok s') : s'.ev.ring = s.ev.ring ∧ s'.seen = s.seen + 1 := by
  unfold State.awaitSeen at hs
  split at hs
  · simp only at hs
    split at hs
    · have h1 := Quiet.resume hs
      exact ⟨h1.ring, h1.seen⟩
    · cases hs
    · cases hs
      exact ⟨rfl, rfl⟩
  · cases hs

end Loop

/-- What a step does to the ring and to the number of completions marked seen. -/
inductive RingStep (s : State) : Choice → State → Prop
  | prepare {c : Choice} {s' : State} : Prepares s.shouldRestrictUsage s.ev.ring s'.ev.ring → s'.seen = s.seen →
      RingStep s c s'
  | submit {c : Choice} {ret : ℤ} {r : Uring Slot} {s' : State} : c.ret = some ret →
      (r = s.ev.ring ∧ (∀ p ret, c ≠ .user (.na p ret)) ∨ (∃ p, c = .user (.na p ret)) ∧
        r.sqeTail = s.ev.ring.sqeTail + 1 ∧ s.SqeAvailable) →
      Prepares s.shouldRestrictUsage s.ev.ring r → ret ≤ r.pending.length →
      Prepares s.shouldRestrictUsage (r.submit ret.toNat) s'.ev.ring → s'.seen = s.seen → RingStep s c s'
  | reap {c : Choice} {s' : State} {i : ℕ} {rest : List Activation} : s.stack = .awaitWait :: rest →
      s'.ev.ring = s.ev.ring.reap i → s'.seen = s.seen → RingStep s c s'
  | seen {s' : State} {rest : List Activation} : s.stack = .awaitSeen :: rest → s'.ev.ring = s.ev.ring →
      s'.seen = s.seen + 1 → RingStep s .tau s'
  | cancel {s' : State} {h : CoroId} {rest : List Activation} : s.stack = .run h :: rest →
      (s.coros h).body = .killInternal .cancel → Prepares false s.ev.ring s'.ev.ring → s'.seen = s.seen →
      RingStep s .tau s'

/-- **What a step does to the ring.** -/
theorem step_ring {s s' : State} {c : Choice} (hs : State.step s c = .ok s') : RingStep s c s' := by
  cases step_effect hs with
  | quiet hq => exact .prepare (.of_eq hq.ring) hq.seen
  | io h1 => exact .prepare (.ioOp h1) (SameCounts.ioOp h1).seen
  | awaitIo hst h1 => exact .prepare (.awaitIo h1) (SameCounts.awaitIo hst h1).seen
  | awaitOp hst h1 h2 =>
    refine .prepare ((Prepares.ioOp h1).trans (.awaitIo h2)) ?_
    exact ((SameCounts.awaitIo ((ioOp_stack h1).trans hst) h2).seen).trans (SameCounts.ioOp h1).seen
  | na h1 =>
    rcases naOp_ok h1 with ⟨-, -, rfl⟩ | ⟨ha, j, ring, s2, hr, h2, hcase⟩
    · exact .prepare (.refl _) rfl
    · obtain ⟨-, -, hle, rfl⟩ := submitQueuedEntries_ok h2
      have htail : ring.sqeTail = s.ev.ring.sqeTail + 1 := by
        unfold Uring.getSqe at hr
        split at hr <;> cases hr
        rfl
      refine .submit rfl (.inr ⟨⟨_, rfl⟩, htail, ha⟩) (.getSqe ha.1 hr) hle ?_ ?_ <;>
        rcases hcase with ⟨-, -, rfl⟩ | ⟨-, -, rfl⟩
      · exact .refl _
      · exact .refl _
      · rfl
      · rfl
  | submit hc hna hq h1 hq' =>
    obtain ⟨-, -, hle, rfl⟩ := submitQueuedEntries_ok h1
    rw [hq.ring] at hle
    refine .submit hc (.inl ⟨rfl, hna⟩) (.refl _) hle (.of_eq (hq'.ring.trans ?_)) (hq'.seen.trans hq.seen)
    simp only [modEv, hq.ring]
  | rawSqe h1 => exact .prepare (.getUringSqe h1) (SameCounts.getUringSqe h1).seen
  | start | leave | dying => exact .prepare (.refl _) rfl
  | message _ h1 => exact .prepare (.of_eq (ring_awaitMessage h1).1) (ring_awaitMessage h1).2
  | cqe hst h1 => exact .reap hst (ring_awaitCqe h1).1 (ring_awaitCqe h1).2
  | seen hst h1 => exact .seen hst (ring_awaitSeen h1).1 (ring_awaitSeen h1).2
  | handlerReturn _ h1 =>
    have h2 := Uncounted.eventHandlerReturn h1
    exact .prepare (.of_eq h2.ring) h2.seen
  | @cancel h rest j s1 hst hb h1 =>
    obtain ⟨ring, -, hr, rfl⟩ := ioUringGetSqe_some h1
    exact .cancel hst hb ((Prepares.getSqe rfl hr).trans (.write ..)) rfl
  | dead hst hb h0 h1 =>
    have h2 := Quiet.finish (by exact hst) h1
    exact .prepare (.of_eq h2.ring) h2.seen
  | batch hst _ _ h1 =>
    unfold submitAndWaitBegin at h1
    obtain ⟨s2, h2, h3⟩ := bind_ok.mp h1
    obtain ⟨-, -, hle, rfl⟩ := submitQueuedEntries_ok h2
    split at h3
    · have h4 := Quiet.finish (by exact hst) h3
      exact .submit rfl (.inl ⟨rfl, by simp⟩) (.refl _) hle (.of_eq h4.ring) h4.seen
    · obtain ⟨s3, h4, h5⟩ := bind_ok.mp h3
      cases h5
      exact .submit rfl (.inl ⟨rfl, by simp⟩) (.refl _) hle (.processRequests h4) (SameCounts.processRequests h4).seen
  | poll _ _ _ _ hq => exact .prepare (.of_eq hq.ring) hq.seen
  | register _ h1 =>
    have h2 := Uncounted.registerCoroReturn h1
    exact .prepare (.of_eq h2.ring) h2.seen

/-- The counter is lowered by the end of `await_message` only. -/
theorem inFlight_le_of_step {s s' : State} {c : Choice} (h : Reachable s) (h' : Reachable s')
    (hs : State.step s c = .ok s') (htop : ∀ rest, s.stack ≠ .awaitSeen :: rest) :
    s.ev.inFlightRequests ≤ s'.ev.inFlightRequests := by
  have htaken := h.counted.taken
  have htaken' := h'.counted.taken
  unfold State.taken at htaken htaken'
  cases step_ring hs with
  | prepare hp hseen | cancel _ _ hp hseen =>
    have := hp.khead
    omega
  | submit _ _ hp _ hp' hseen =>
    have h1 := hp.khead
    have h2 := hp'.khead
    rw [Uring.submit_khead] at h2
    omega
  | reap hst hr hseen =>
    rw [hr, Uring.reap_khead] at htaken'
    omega
  | seen hst => exact absurd hst (htop _)

end EvManager
