import EvManager.Completions
import EvManager.Entries
import EvManager.IssueOrder

/-!
# Exactly once

A request that has got an entry is pending, in flight, parked for a poll or delivered: as long as the kernel takes
no entry that is not written, and `user_data` is null in the entries that the user fills, it is in exactly one of
these places, once (**`exactly_once`**), and requests are taken in the order in which they were made
(**`issued_in_order`**).
-/

namespace EvManager

open Lib State

/-- Which of the requests in flight completes. -/
def Choice.completing : Choice → Option ℕ
  | .cqe i _ _ => some i
  | _ => none

namespace State

variable {s s' : State} {c : Choice} {r : ReqId}

/-- The kernel takes written entries only, and an entry of `get_uring_sqe` completes with null `user_data`. -/
def Careful (s : State) (c : Choice) : Prop :=
  s.TakesWritten c ∧ ∀ i ∈ c.completing, ∀ x ∈ s.ev.ring.inFlight[i]?, x.purpose = some .raw → x.sqe.userData = none

instance (s : State) (c : Choice) : Decidable (s.Careful c) := by
  unfold Careful
  infer_instance

/-- How often the request is pending, in flight, parked or delivered. -/
def places (s : State) (r : ReqId) : ℕ :=
  s.issued.count r + s.parked.countP (·.1 = r) + s.deliveries.countP (·.1 = r)

/-- How often the request is in the ring or has completed. -/
def known (s : State) (r : ReqId) : ℕ := s.issued.count r + s.completions.countP (·.1 = r)

theorem places_eq (h : Reachable s) : s.places r = s.known r := by
  rw [places, known, (completions_perm h).countP_eq, List.countP_append]
  omega

/-- What is taken off completes with the record that was in its entry. -/
theorem completions_awaitCqe {i : ℕ} {res : ℤ} {base : Addr} (hs : s.awaitCqe i res base = .ok s') :
    ∃ x, s.ev.ring.inFlight[i]? = some x ∧ s'.completions.countP (·.1 = r) =
      s.completions.countP (·.1 = r) + if x.sqe.userData = some r then 1 else 0 := by
  unfold State.awaitCqe at hs
  split at hs
  · split at hs
    · rename_i x hx
      refine ⟨x, hx, ?_⟩
      cases hu : x.sqe.userData with
      | none =>
        rw [hu] at hs
        cases hs
        rfl
      | some r' =>
        simp only [hu] at hs
        have hc : s'.completions = (r', res) :: s.completions := (eventHandler_dispatches hs).1
        rw [hc, List.countP_cons]
        simp
    · cases hs
  · cases hs

theorem issued_reap {i : ℕ} {x : Slot} (hx : s.ev.ring.inFlight[i]? = some x) (hs : s'.ev.ring = s.ev.ring.reap i) :
    s'.issued.count r + (if Purpose.record x.purpose = some r then 1 else 0) = s.issued.count r := by
  have hcount : ∀ u : State, u.issued.count r = u.ev.ring.inFlight.countP
    (fun x => Purpose.record x.purpose == some r) +
      u.ev.ring.pending.countP (fun x => Purpose.record x.purpose == some r) := fun u => by
    rw [issued_append, List.count_append, List.count_filterMap, List.count_filterMap, queue, flight, List.countP_map,
      List.countP_map]
    rfl
  obtain ⟨hi, rfl⟩ := List.getElem?_eq_some_iff.mp hx
  rw [hcount, hcount, hs, Uring.reap_pending, Uring.reap_inFlight, ← (List.getElem_cons_eraseIdx_perm hi).countP_eq,
    List.countP_cons]
  simp only [beq_iff_eq]
  omega

theorem record_of_faithful {x : Slot} (hx : x.Faithful) (hraw : x.purpose = some .raw → x.sqe.userData = none) :
    x.sqe.userData = Purpose.record x.purpose := by
  unfold Slot.Faithful at hx
  split at hx
  · rename_i p r hp
    rw [hx.2, hp]
    rfl
  · rename_i hp
    rw [hx, hp]
    rfl
  · rename_i hp
    rw [hraw hp, hp]
    rfl
  · exact hx.elim

/-- **A step keeps a request that was made where it is, or moves it on**, and one that it makes is in the ring once
at most. -/
theorem known_step (h : Reach Careful s) (hP : s.Careful c) (hs : State.step s c = .ok s') :
    (r < s.nextReq → s'.known r = s.known r) ∧
      (s.nextReq ≤ r → s.known r = 0 → s'.known r ≤ if r < s'.nextReq then 1 else 0) := by
  have hreach := h.reachable
  by_cases htop : ∃ rest, s.stack = .awaitWait :: rest
  · -- what leaves the ring completes
    obtain ⟨rest, hst⟩ := htop
    have hsame : s'.known r = s.known r := by
      unfold State.step at hs
      rw [hst] at hs
      cases c with
      | cqe i res base =>
        obtain ⟨x, hx, hcount⟩ := completions_awaitCqe (r := r) hs
        have hiss := issued_reap (r := r) hx (ring_awaitCqe hs).1
        have hf := (h.mono fun _ _ hc => hc.1).prepared.inFlight x (List.mem_of_getElem? hx)
        have hdata := record_of_faithful hf (hP.2 i rfl x hx)
        rw [hdata] at hcount
        unfold known
        omega
      | waitErr => cases hs
      | _ => cases hs
    rw [hsame]
    exact ⟨fun _ => rfl, fun _ h0 => by rw [h0]; exact Nat.zero_le _⟩
  · -- nothing completes, and what is handed out is new
    have hcomp : s'.completions = s.completions := by
      cases step_dispatches hs with
      | nothing hu => exact hu.completions
      | comes hst => exact absurd ⟨_, hst⟩ htop
      | unparks _ hc => exact hc
    cases step_issues hreach hs with
    | reaps hst => exact absurd ⟨_, hst⟩ htop
    | @moves n a b hq hf hnew =>
      obtain ⟨hsort, hrange⟩ := hnew.sorted
      have hknown : s'.known r = s.known r + ((a ++ b).filterMap Purpose.record).count r := by
        rw [known, known, issued_moves hq hf, hcomp, List.count_append]
        omega
      generalize (a ++ b).filterMap Purpose.record = new at hsort hrange hknown
      refine ⟨fun hlt => ?_, fun _ h0 => ?_⟩
      · rw [hknown, List.count_eq_zero_of_not_mem fun hm => absurd (hrange r hm).1 (not_le.mpr hlt), Nat.add_zero]
      · rw [hknown, h0, Nat.zero_add]
        by_cases hm : r ∈ new
        · rw [if_pos (hrange r hm).2]
          exact List.nodup_iff_count_le_one.mp (hsort.imp ne_of_lt) r
        · rw [List.count_eq_zero_of_not_mem hm]
          exact Nat.zero_le _

theorem known_le (h : Reach Careful s) (r : ReqId) : s.known r ≤ if r < s.nextReq then 1 else 0 := by
  refine h.inv_of (I := fun s => s.known r ≤ if r < s.nextReq then 1 else 0) (J := fun s => Reach Careful s)
    (fun s hs => hs)
    (fun s hi => ?_) fun s c s' h hle hP hs => ?_
  · have h0 : s.known r = 0 := by
      cases hi <;>
        simp [known, issued, queue, flight, State.completions, State.init, initFailed, blank, Uring.init, Uring.pending]
    exact h0.trans_le (Nat.zero_le _)
  · obtain ⟨hold, hnew⟩ := known_step (r := r) h hP hs
    by_cases hlt : r < s.nextReq
    · rw [if_pos hlt] at hle
      rw [hold hlt, if_pos (hlt.trans_le (Lasting.step hs).nextReq)]
      exact hle
    · rw [if_neg hlt] at hle
      exact hnew (not_lt.mp hlt) (Nat.le_zero.mp hle)

theorem places_le_one (h : Reach Careful s) (r : ReqId) : s.places r ≤ 1 := by
  have hle := known_le h r
  rw [places_eq h.reachable]
  split at hle <;> omega

end State

/-- **Exactly once.**  In every run in which the kernel takes written entries only and the entries that the user
fills complete with null `user_data`, each request is at most once in one of four places: pending, in flight, parked
for a poll, delivered.  And a request that was in the ring once is, from then on, in exactly one of them: it is not
lost, and it is not delivered twice. -/
theorem exactly_once {s₁ s : State} (h₁ : Reach State.Careful s₁) (h : Run State.step State.Careful s₁ s) (r : ReqId) :
    s.places r ≤ 1 ∧ (r ∈ s₁.issued → s.places r = 1) := by
  have hrun : Reach State.Careful s ∧ s₁.nextReq ≤ s.nextReq ∧ (r < s₁.nextReq → s.known r = s₁.known r) := by
    induction h with
    | refl => exact ⟨h₁, le_rfl, fun _ => rfl⟩
    | tail _ hP hs ih =>
      obtain ⟨hreach, hle, heq⟩ := ih
      refine ⟨hreach.step hP hs, hle.trans (Lasting.step hs).nextReq, fun hlt => ?_⟩
      rw [(State.known_step hreach hP hs).1 (hlt.trans_le hle), heq hlt]
  obtain ⟨hreach, -, heq⟩ := hrun
  refine ⟨State.places_le_one hreach r, fun hr => ?_⟩
  have hlt : r < s₁.nextReq := (State.ordered_of_reachable h₁.reachable).2 r hr
  have hpos : 0 < s₁.issued.count r := List.count_pos_iff.mpr hr
  have hle := State.places_le_one h₁ r
  rw [State.places_eq h₁.reachable] at hle
  rw [State.places_eq hreach.reachable, heq hlt]
  unfold State.known at hle ⊢
  omega

/-- A `_na` request completes and is parked, and a coroutine that polls is delivered it. -/
theorem exactly_once_polled : ∃ s₁ s : State, s₁.issued = [0] ∧ s.issued = [] ∧ s.deliveries = [(0, 4)] ∧
    s.places 0 = 1 := by
  have he : ((exec State.step State.Careful (init 4) [.user (.na (.read ⟨3, 100, 8⟩) 1)]).bind fun s₁ =>
      (exec State.step State.Careful s₁
        [.user .poll, .user (.startTask 0), .tau, .tau, .user .start, .message 0, .cqe 0 4 0, .tau,
        .message 0]).map fun s => decide (s₁.issued = [0] ∧ s.issued = [] ∧ s.deliveries = [(0, 4)])) = some true := by
          decide
  obtain ⟨s₁, h1, he⟩ := Option.bind_eq_some_iff.mp he
  obtain ⟨s, hr, hs⟩ := Run.exists_of_exec he
  obtain ⟨hi, hi', hd⟩ := of_decide_eq_true hs
  exact ⟨s₁, s, hi, hi', hd, (exactly_once ⟨init 4, .up 4, Run.of_exec h1⟩ hr 0).2
    (by rw [hi]; exact List.mem_cons_self)⟩

/-! ### In which order requests are taken -/

/-- An entry in flight holds the record it was handed out for, and so does one that is pending unless its awaitable
was not awaited yet. -/
theorem State.Prepared.holds {s : State} (h : s.Prepared) {x : Slot} {r : ReqId}
    (hr : Purpose.record x.purpose = some r) :
    (x ∈ s.ev.ring.inFlight → x.written = true ∧ x.sqe.userData = some r) ∧
    (x ∈ s.ev.ring.pending → x.written = true ∧ x.sqe.userData = some r ∨ x.written = false ∧ s.Unawaited r) := by
  have hfaithful : x.Faithful → x.written = true ∧ x.sqe.userData = some r := fun hx => by
    unfold Purpose.record at hr
    split at hr
    · rename_i p r' hp
      unfold Slot.Faithful at hx
      rw [hp] at hx
      exact ⟨hx.1, by rw [hx.2, ← hr]; rfl⟩
    · cases hr
  refine ⟨fun hx => hfaithful (h.inFlight x hx), fun hx => ?_⟩
  obtain ⟨k, j, hk, rfl⟩ := Uring.mem_pending.mp hx
  rcases h.pending k j hk with hf | ⟨r', hw⟩
  · exact .inl (hfaithful hf)
  · obtain rfl : r' = r := by
      rw [hw.purpose] at hr
      exact Option.some.inj hr
    exact .inr ⟨hw.written, hw.unawaited⟩

/-- **Requests reach the kernel in the order in which they were made.**  In every run in which the kernel takes
written entries only and the entries that the user fills complete with null `user_data`, the requests in flight and
then those pending are in that order, each with one entry, and the entry holds the address of the record of its
request, unless this is an awaitable that was not awaited yet; and of the requests made before some state of the run
the pending ones are the last of those that were pending there. -/
theorem issued_in_order {s₁ s : State} (h₁ : Reach State.Careful s₁) (h : Run State.step State.Careful s₁ s) :
    s.issued.Pairwise (· < ·) ∧ s.queued.filter (· < s₁.nextReq) <:+ s₁.queued ∧
    ∀ x r, Purpose.record x.purpose = some r → (x ∈ s.ev.ring.inFlight → x.written = true ∧ x.sqe.userData = some r) ∧
      (x ∈ s.ev.ring.pending → x.written = true ∧ x.sqe.userData = some r ∨ x.written = false ∧ s.Unawaited r) := by
  obtain ⟨s₀, hi, h₀⟩ := h₁
  have hreach : Reach State.Careful s := ⟨s₀, hi, h₀.trans h⟩
  have hprep : s.Prepared := (hreach.mono fun _ _ hc => hc.1).prepared
  obtain ⟨-, hsuf⟩ := State.queued_run (Reach.reachable ⟨s₀, hi, h₀⟩) (h.mono fun _ _ _ => trivial)
  exact ⟨(State.ordered_of_reachable hreach.reachable).1, hsuf, fun x r hr => hprep.holds hr⟩

/-- Two requests whose submissions fail are made, and then a third one, with which the first is taken. -/
theorem issued_in_order_three : ∃ s₁ s : State, s₁.queued = [0, 1] ∧ s.issued = [0, 1, 2] ∧ s.issued.Pairwise (· < ·) ∧
    s.queued.filter (· < s₁.nextReq) <:+ s₁.queued := by
  have he : ((exec State.step State.Careful (init 4)
    [.user .call, .user (.startTask 0), .user (.awaitOp (.read ⟨3, 100, 8⟩)),
      .sub (-11), .user (.na (.write ⟨4, 200, 4⟩) 0)]).bind fun s₁ =>
      (exec State.step State.Careful s₁ [.user (.na (.close ⟨3⟩) 1)]).map fun s =>
        decide (s₁.queued = [0, 1] ∧ s.issued = [0, 1, 2])) = some true := by decide
  obtain ⟨s₁, h1, he⟩ := Option.bind_eq_some_iff.mp he
  obtain ⟨s, hr, hs⟩ := Run.exists_of_exec he
  obtain ⟨hq, hi⟩ := of_decide_eq_true hs
  obtain ⟨hord, hsuf, -⟩ := issued_in_order ⟨init 4, .up 4, Run.of_exec h1⟩ hr
  exact ⟨s₁, s, hq, hi, hord, hsuf⟩

end EvManager
