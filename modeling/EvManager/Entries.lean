import EvManager.Drain
import EvManager.Leaks

/-!
# What the kernel takes

An awaitable is given its slot where it is made and writes it where it is awaited; all other entries are written
where they are handed out.  **`entries_faithful`**: as long as the kernel takes no entry of an awaitable that is
still to be awaited, and the slot of the cancel request holds null `user_data`, each entry it takes holds what it
was handed out for and nothing else.
-/

namespace EvManager

open Lib State

/-- Since it was handed out the entry has been given what it is to hold: the operation, the parameters and the
record of its request, or the cancel request with null `user_data`.  An entry of `get_uring_sqe` is the caller's to
fill. -/
def Slot.Faithful (x : Slot) : Prop :=
  match x.purpose with
  | some (.request p r) => x.written = true ∧ x.sqe = ioUringSqeSetData (some r) (prepareSqringOp p {})
  | some .cancel => x.sqe = ioUringPrepCancel 0 cancelFlags {}
  | some .raw => True
  | none => False

instance (x : Slot) : Decidable x.Faithful := by
  unfold Slot.Faithful
  split <;> infer_instance

/-- The record is part of an awaitable. -/
def Home.ofAwaitable : Home → Bool
  | .awaitable _ => true
  | _ => false

namespace State

variable {s s' s'' : State} {r : ReqId} {j : ℕ}

/-- The record is of an awaitable that was not awaited yet. -/
def Unawaited (s : State) (r : ReqId) : Prop :=
  r < s.nextReq ∧ (s.reqs r).home.ofAwaitable = true ∧ (s.reqs r).data.handle = none

instance (s : State) (r : ReqId) : Decidable (s.Unawaited r) := by unfold Unawaited; infer_instance

/-- How many of the entries that are pending the kernel may take in the step. -/
def taking (s : State) : Choice → ℕ
  | .sub ret | .user (.submitQueuedEntries ret) => ret.toNat
  | .user (.na _ ret) => if s.SqeAvailable then ret.toNat else 0
  | _ => 0

/-- The kernel takes no entry of an awaitable that was not awaited yet. -/
def TakesAwaited (s : State) (c : Choice) : Prop :=
  ∀ x ∈ s.ev.ring.pending.take (s.taking c), ∀ r ∈ x.record, ¬ s.Unawaited r

/-- The slot that `kill_internal` is about to get for the cancel request holds null `user_data`. -/
def CancelsClean (s : State) : Prop :=
  s.killPc = some .cancel → s.ev.ring.pending.length < s.ev.ring.entries →
    (s.ev.ring.sqes (s.ev.ring.slot s.ev.ring.sqeTail)).sqe.userData = none

/-- The kernel takes no entry of an awaitable that was not awaited yet, and the cancel request gets a slot without
`user_data`. -/
def TakesWritten (s : State) (c : Choice) : Prop := s.TakesAwaited c ∧ s.CancelsClean

instance (s : State) (c : Choice) : Decidable (s.TakesWritten c) := by
  unfold TakesWritten TakesAwaited CancelsClean
  infer_instance

/-! ### The awaitables that are still to be awaited -/

/-- Between `s` and `s'` no awaitable is made and none awaited. -/
structure SameAwaits (s s' : State) : Prop where
  unawaited : ∀ r, s'.Unawaited r ↔ s.Unawaited r
  sqe : ∀ r, s.Unawaited r → (s'.reqs r).sqe = (s.reqs r).sqe
  pack : ∀ r, s.Unawaited r → (s'.reqs r).data.specificData = (s.reqs r).data.specificData

namespace SameAwaits

theorem trans (h : SameAwaits s s') (h' : SameAwaits s' s'') : SameAwaits s s'' :=
  ⟨fun r => (h'.unawaited r).trans (h.unawaited r),
    fun r hr => (h'.sqe r ((h.unawaited r).mpr hr)).trans (h.sqe r hr),
    fun r hr => (h'.pack r ((h.unawaited r).mpr hr)).trans (h.pack r hr)⟩

theorem symm (h : SameAwaits s s') : SameAwaits s' s :=
  ⟨fun r => (h.unawaited r).symm, fun r hr => (h.sqe r ((h.unawaited r).mp hr)).symm,
    fun r hr => (h.pack r ((h.unawaited r).mp hr)).symm⟩

theorem of_quiet (h : Quiet s s') : SameAwaits s s' := by
  refine ⟨fun r => ?_, fun r _ => h.sqe r, fun r _ => by rw [h.data]⟩
  unfold Unawaited
  rw [h.nextReq, h.home, h.data]

theorem of_reqs (hn : s.nextReq ≤ s'.nextReq) (hreqs : ∀ r, r < s.nextReq → s'.reqs r = s.reqs r)
    (hnew : ∀ r, s.nextReq ≤ r → r < s'.nextReq → (s'.reqs r).home.ofAwaitable = false) : SameAwaits s s' := by
  refine ⟨fun r => ⟨?_, ?_⟩, fun r hr => by rw [hreqs r hr.1], fun r hr => by rw [hreqs r hr.1]⟩
  · rintro ⟨hlt, hh, hd⟩
    by_cases hr : r < s.nextReq
    · rw [hreqs r hr] at hh hd
      exact ⟨hr, hh, hd⟩
    · rw [hnew r (not_lt.mp hr) hlt] at hh
      cases hh
  · rintro ⟨hlt, hh, hd⟩
    refine ⟨hlt.trans_le hn, ?_, ?_⟩ <;> rw [hreqs r hlt]
    · exact hh
    · exact hd

theorem of_eq (hn : s'.nextReq = s.nextReq) (hreqs : s'.reqs = s.reqs) : SameAwaits s s' :=
  of_reqs hn.ge (fun r _ => by rw [hreqs]) fun r h1 h2 => absurd h2 (not_lt.mpr (hn ▸ h1))

theorem modReq {x : ReqId} (hx : (s.reqs x).home.ofAwaitable = false) {f : Request → Request}
    (hf : ∀ q, (f q).home = q.home) : SameAwaits s (s.modReq x f) := by
  have hne : ∀ r, s.Unawaited r → r ≠ x := by
    rintro r hr rfl
    rw [hr.2.1] at hx
    cases hx
  refine ⟨fun r => ?_, fun r hr => ?_, fun r hr => ?_⟩
  · by_cases hr : r = x
    · subst hr
      unfold Unawaited
      simp [State.modReq, hf, hx]
    · unfold Unawaited
      simp [State.modReq, hr]
  · simp [State.modReq, hne r hr]
  · simp [State.modReq, hne r hr]

theorem submit {ret : ℤ} (hs : s.submitQueuedEntries ret = .ok s') : SameAwaits s s' := by
  obtain ⟨-, -, -, rfl⟩ := submitQueuedEntries_ok hs
  exact of_eq rfl rfl

theorem queue {h : CoroId} {req : ParameterPack} {y : ReqId} (hy : (s.reqs y).home = .vector h) (ring : Uring Slot) :
    SameAwaits s ((s.setRing ring).modReq y fun q => { q with data := q.data.queue h req }) := by
  have h0 : SameAwaits s (s.setRing ring) := of_eq rfl rfl
  refine h0.trans (modReq (f := fun q => { q with data := q.data.queue h req }) ?_ fun _ => rfl)
  rw [show (s.setRing ring).reqs = s.reqs from rfl, hy]
  rfl

theorem newVector (h : CoroId) (n : ℕ) : SameAwaits s (s.newVector h n).2 := by
  refine of_reqs (Nat.le_add_right _ _) (fun r hr => ?_) fun r h1 h2 => ?_
  · refine if_neg fun hm => ?_
    exact absurd hr (not_lt.mpr (List.mem_range'_1.mp hm).1)
  · have hm : r ∈ List.range' s.nextReq n := List.mem_range'_1.mpr ⟨h1, h2⟩
    show (if r ∈ List.range' s.nextReq n then _ else s.reqs r).home.ofAwaitable = false
    rw [if_pos hm]
    rfl

theorem eventHandler {res : ℤ} {x : Option ReqId} {base : Addr} (hs : s.eventHandler res x base = .ok s') :
    SameAwaits s s' := by
  unfold State.eventHandler at hs
  split at hs
  · cases hs
    exact of_eq rfl rfl
  · simp only at hs
    split at hs
    · split at hs
      · cases hs
        exact of_eq rfl rfl
      · obtain ⟨pack, -, hs⟩ := bind_ok.mp hs
        refine trans ?_ (of_quiet (.resume hs))
        exact of_eq rfl rfl
    · cases hs

theorem awaitMessage (hr : Records s) {base : Addr} (hs : s.awaitMessage base = .ok s') : SameAwaits s s' := by
  unfold State.awaitMessage at hs
  simp only at hs
  split at hs
  · rename_i res x ready p hready hpoll
    refine trans ?_ (eventHandler hs)
    have hh : (s.reqs x).home = .heap := (hr.ready (res, x) (by rw [hready]; exact List.mem_cons_self)).2
    have h0 : SameAwaits s ((s.push .awaitWait).modEv fun ev => { ev with readyRequestsStore := ready }) :=
      of_eq rfl rfl
    refine h0.trans (modReq (f := fun q => { q with data := { q.data with handle := some p } }) ?_ fun _ => rfl)
    rw [show ((s.push .awaitWait).modEv _).reqs = s.reqs from rfl, hh]
    rfl
  · cases hs
    exact of_eq rfl rfl

theorem awaitCqe {i : ℕ} {res : ℤ} {base : Addr} (hs : s.awaitCqe i res base = .ok s') : SameAwaits s s' := by
  unfold State.awaitCqe at hs
  split at hs
  · split at hs
    · refine trans ?_ (eventHandler hs)
      split <;> exact of_eq rfl rfl
    · cases hs
  · cases hs

theorem awaitSeen (hs : s.awaitSeen = .ok s') : SameAwaits s s' := by
  unfold State.awaitSeen at hs
  split at hs
  · simp only at hs
    split at hs
    · refine trans ?_ (of_quiet (.resume hs))
      exact of_eq rfl rfl
    · cases hs
    · cases hs
      exact of_eq rfl rfl
  · cases hs

theorem eventHandlerReturn {x : ReqId} {h : CoroId} (hr : Records s) (hs : s.pop.eventHandlerReturn x h = .ok s') :
    SameAwaits s s' := by
  obtain ⟨-, -, hn, -, -, -, ⟨hd, -, hreqs, -⟩ | ⟨-, hreqs, -⟩⟩ := eventHandlerReturn_ok hs
  · have hh : (s.reqs x).home = .heap := hr.dynamic x hd
    refine trans (modReq (x := x) (by rw [hh]; rfl) (f := fun q => { q with live := false }) fun _ => rfl) (of_eq hn ?_)
    rw [hreqs]
    rfl
  · exact of_eq hn hreqs

theorem registerCoroReturn {v : VarId} {idx : ℕ} {grow : Bool} (hs : s.registerCoroReturn v idx grow = .ok s') :
    SameAwaits s s' := by
  unfold State.registerCoroReturn at hs
  obtain ⟨s1, h1, hs⟩ := bind_ok.mp hs
  obtain ⟨e, -, hs⟩ := bind_ok.mp hs
  obtain ⟨coros, heq, -⟩ := insertTask_eq idx e s1
  rw [heq] at hs
  cases hs
  exact (of_quiet (.makeRoom h1)).trans (of_eq rfl rfl)

end SameAwaits

/-! ### What the slots hold -/

/-- The slot was handed out for the awaitable, and not written since. -/
structure WaitsIn (s : State) (r : ReqId) (j : ℕ) : Prop where
  unawaited : s.Unawaited r
  sqe : (s.reqs r).sqe = some j
  purpose : (s.ev.ring.sqes j).purpose = some (.request (s.reqs r).data.specificData r)
  written : (s.ev.ring.sqes j).written = false

/-- What is in flight is as it should be, and so is what is pending but for the entries of the awaitables that are
still to be awaited, which keep their slots. -/
structure Prepared (s : State) : Prop where
  inFlight : ∀ x ∈ s.ev.ring.inFlight, x.Faithful
  pending : ∀ k j, s.ev.ring.Holds k j → (s.ev.ring.sqes j).Faithful ∨ ∃ r, s.WaitsIn r j
  waiting : ∀ r j, s.Unawaited r → (s.reqs r).sqe = some j → (∃ k, s.ev.ring.Holds k j) ∧ s.WaitsIn r j

namespace WaitsIn

theorem same (hw : s.WaitsIn r j) (h : SameAwaits s s') (hj : s'.ev.ring.sqes j = s.ev.ring.sqes j) : s'.WaitsIn r j :=
  ⟨(h.unawaited r).mpr hw.unawaited, (h.sqe r hw.unawaited).trans hw.sqe,
    by rw [hj, hw.purpose, h.pack r hw.unawaited], by rw [hj, hw.written]⟩

end WaitsIn

namespace Prepared

theorem same (hp : Prepared s) (h : SameAwaits s s') (hr : s'.ev.ring = s.ev.ring) : Prepared s' := by
  refine ⟨fun x hx => hp.inFlight x (hr ▸ hx), fun k j hk => ?_, fun r j hu hsqe => ?_⟩
  · rw [hr] at hk ⊢
    exact (hp.pending k j hk).imp_right fun ⟨r, hw⟩ => ⟨r, hw.same h (by rw [hr])⟩
  · have hu' := (h.unawaited r).mp hu
    obtain ⟨hk, hw⟩ := hp.waiting r j hu' ((h.sqe r hu').symm.trans hsqe)
    exact ⟨hr ▸ hk, hw.same h (by rw [hr])⟩

/-- A slot is handed out for something else than an awaitable, and written at once. -/
theorem getSqe (hp : Prepared s) (h : SameAwaits s s') {mark : Slot → Slot} {i : ℕ} {ring : Uring Slot}
    (hring : s.ev.ring.getSqe mark = some (i, ring)) (hr : s'.ev.ring = ring)
    (hm : (mark (s.ev.ring.sqes i)).Faithful) :
    Prepared s' := by
  have hold : ∀ k j, s.ev.ring.Holds k j → s'.ev.ring.sqes j = s.ev.ring.sqes j := fun k j hk => by
    rw [hr, Uring.getSqe_sqes hring, Function.update_of_ne (hk.ne_of_getSqe hring)]
  refine ⟨fun x hx => hp.inFlight x ?_, fun k j hk => ?_, fun r j hu hsqe => ?_⟩
  · rwa [hr, Uring.getSqe_inFlight hring] at hx
  · rw [hr, Uring.holds_getSqe hring] at hk
    rcases hk with hk | ⟨-, rfl⟩
    · rw [hold k j hk]
      exact (hp.pending k j hk).imp_right fun ⟨r, hw⟩ => ⟨r, hw.same h (hold k j hk)⟩
    · left
      rwa [hr, Uring.getSqe_sqes hring, Function.update_self]
  · have hu' := (h.unawaited r).mp hu
    obtain ⟨⟨k, hk⟩, hw⟩ := hp.waiting r j hu' ((h.sqe r hu').symm.trans hsqe)
    exact ⟨⟨k, by rw [hr]; exact (Uring.holds_getSqe hring).mpr (.inl hk)⟩, hw.same h (hold k j hk)⟩

theorem submit (hp : Prepared s) {n : ℕ} (h : SameAwaits s s') (hr : s'.ev.ring = s.ev.ring.submit n)
    (hn : ∀ k j r, k < n → s.ev.ring.Holds k j → ¬ s.WaitsIn r j) : Prepared s' := by
  refine ⟨fun x hx => ?_, fun k j hk => ?_, fun r j hu hsqe => ?_⟩
  · rw [hr, Uring.submit_inFlight, List.mem_append] at hx
    rcases hx with hx | hx
    · exact hp.inFlight x hx
    · obtain ⟨k, j, hlt, hk, rfl⟩ := Uring.mem_take_pending.mp hx
      exact (hp.pending k j hk).resolve_right fun ⟨r, hw⟩ => hn k j r hlt hk hw
  · rw [hr, Uring.holds_submit] at hk
    rw [hr, Uring.submit_sqes]
    exact (hp.pending _ j hk).imp_right fun ⟨r, hw⟩ => ⟨r, hw.same h (by rw [hr]; rfl)⟩
  · have hu' := (h.unawaited r).mp hu
    obtain ⟨⟨k, hk⟩, hw⟩ := hp.waiting r j hu' ((h.sqe r hu').symm.trans hsqe)
    refine ⟨⟨k - n, ?_⟩, hw.same h (by rw [hr]; rfl)⟩
    have hkn : n ≤ k := not_lt.mp fun hlt => hn k j r hlt hk hw
    have hk1 := hk.1
    rw [hr, Uring.holds_submit, show k - n + min n (s.ev.ring.sqeTail - s.ev.ring.khead) = k by omega]
    exact hk

theorem reap (hp : Prepared s) (h : SameAwaits s s') {i : ℕ} (hr : s'.ev.ring = s.ev.ring.reap i) : Prepared s' := by
  have h1 : Prepared (s.setRing (s.ev.ring.reap i)) :=
    ⟨fun x hx => hp.inFlight x (List.mem_of_mem_eraseIdx hx),
      fun k j hk => (hp.pending k j hk).imp_right fun ⟨r, hw⟩ => ⟨r, hw.same (.of_eq rfl rfl) rfl⟩,
      fun r j hu hsqe => (hp.waiting r j hu hsqe).imp_right fun hw => hw.same (.of_eq rfl rfl) rfl⟩
  have h0 : SameAwaits (s.setRing (s.ev.ring.reap i)) s := .of_eq rfl rfl
  exact h1.same (h0.trans h) hr

theorem of_quiet (hp : Prepared s) (h : Quiet s s') : Prepared s' := hp.same (.of_quiet h) h.ring

theorem ioOp (hp : Prepared s) {ctx : Option CoroId} {p : ParameterPack} (hs : s.ioOp ctx p = .ok (r, s')) :
    Prepared s' := by
  obtain ⟨-, hr0, sqe, s1, h1, rfl⟩ := ioOp_ok hs
  have hn1 : s1.nextReq = s.nextReq ∧ s1.reqs = s.reqs := by
    rcases getUringSqe_ok h1 with ⟨-, -, rfl⟩ | ⟨j, ring, -, -, -, -, rfl⟩ <;> exact ⟨rfl, rfl⟩
  have hreqs : ((s1.newReq (.awaitable ctx p sqe)).2.ownReq ctx r).reqs =
      Function.update s.reqs s.nextReq (.awaitable ctx p sqe) := by
    rw [← hn1.1, ← hn1.2]
    cases ctx <;> rfl
  have hnext : ((s1.newReq (.awaitable ctx p sqe)).2.ownReq ctx r).nextReq = s.nextReq + 1 := by
    rw [← hn1.1]
    cases ctx <;> rfl
  have hring : ((s1.newReq (.awaitable ctx p sqe)).2.ownReq ctx r).ev.ring = s1.ev.ring := by cases ctx <;> rfl
  generalize (s1.newReq (.awaitable ctx p sqe)).2.ownReq ctx r = u at hreqs hnext hring
  have hold : ∀ x, x ≠ s.nextReq → u.reqs x = s.reqs x := fun x hx => by rw [hreqs, Function.update_of_ne hx]
  have hnew : u.reqs s.nextReq = .awaitable ctx p sqe := by rw [hreqs, Function.update_self]
  have hua : ∀ x, u.Unawaited x → x ≠ s.nextReq → s.Unawaited x := fun x hu hx => by
    have hlt := hu.1
    rw [hnext] at hlt
    refine ⟨lt_of_le_of_ne (Nat.lt_succ_iff.mp hlt) hx, ?_, ?_⟩
    · rw [← hold x hx]
      exact hu.2.1
    · rw [← hold x hx]
      exact hu.2.2
  have hau : ∀ x, s.Unawaited x → u.Unawaited x := fun x hu => by
    refine ⟨hu.1.trans (hnext ▸ Nat.lt_succ_self _), ?_, ?_⟩ <;> rw [hold x (Nat.ne_of_lt hu.1)]
    · exact hu.2.1
    · exact hu.2.2
  have hwait : ∀ x j, s.WaitsIn x j → u.ev.ring.sqes j = s.ev.ring.sqes j → u.WaitsIn x j := fun x j hw hj => by
    have hx := hold x (Nat.ne_of_lt hw.unawaited.1)
    exact ⟨hau x hw.unawaited, by rw [hx, hw.sqe], by rw [hj, hw.purpose, hx], by rw [hj, hw.written]⟩
  rcases getUringSqe_ok h1 with ⟨rfl, -, rfl⟩ | ⟨i, ring, rfl, -, -, hr, rfl⟩
  · refine ⟨fun x hx => hp.inFlight x (hring ▸ hx), fun k j hk => ?_, fun x j hu hsqe => ?_⟩
    · rw [hring] at hk ⊢
      exact (hp.pending k j hk).imp_right fun ⟨x, hw⟩ => ⟨x, hwait x j hw (by rw [hring])⟩
    · have hx : x ≠ s1.nextReq := by
        rintro rfl
        rw [hnew] at hsqe
        cases hsqe
      obtain ⟨hk, hw⟩ := hp.waiting x j (hua x hu hx) (by rw [← hold x hx, hsqe])
      exact ⟨hring ▸ hk, hwait x j hw (by rw [hring])⟩
  · have hring' : u.ev.ring = ring := hring
    have hsl : ∀ k j, s.ev.ring.Holds k j → u.ev.ring.sqes j = s.ev.ring.sqes j := fun k j hk => by
      rw [hring', Uring.getSqe_sqes hr, Function.update_of_ne (hk.ne_of_getSqe hr)]
    have hfresh : u.WaitsIn s.nextReq i := by
      have hi : u.ev.ring.sqes i = (s.ev.ring.sqes i).hand (.request p r) := by
        rw [hring', Uring.getSqe_sqes hr, Function.update_self]
      refine ⟨⟨by rw [hnext]; exact Nat.lt_succ_self _, ?_, ?_⟩, ?_, ?_, ?_⟩
      · rw [hnew]
        rfl
      · rw [hnew]
        rfl
      · rw [hnew]
        rfl
      · rw [hnew, hi, hr0]
        rfl
      · rw [hi]
        rfl
    refine ⟨fun x hx => hp.inFlight x ?_, fun k j hk => ?_, fun x j hu hsqe => ?_⟩
    · rwa [hring', Uring.getSqe_inFlight hr] at hx
    · rw [hring', Uring.holds_getSqe hr] at hk
      rcases hk with hk | ⟨-, rfl⟩
      · rw [hsl k j hk]
        exact (hp.pending k j hk).imp_right fun ⟨x, hw⟩ => ⟨x, hwait x j hw (hsl k j hk)⟩
      · exact .inr ⟨_, hfresh⟩
    · by_cases hx : x = s.nextReq
      · subst hx
        obtain rfl : i = j := by
          rw [hnew] at hsqe
          exact Option.some.inj hsqe
        exact ⟨⟨_, by rw [hring']; exact (Uring.holds_getSqe hr).mpr (.inr ⟨rfl, rfl⟩)⟩, hfresh⟩
      · obtain ⟨⟨k, hk⟩, hw⟩ := hp.waiting x j (hua x hu hx) (by rw [← hold x hx, hsqe])
        exact ⟨⟨k, by rw [hring']; exact (Uring.holds_getSqe hr).mpr (.inl hk)⟩, hwait x j hw (hsl k j hk)⟩

theorem write (hp : Prepared s) (hu : s.Unawaited r) {i : ℕ} (hsqe : (s.reqs r).sqe = some i) {q : Request}
    (hq : q.data.handle ≠ none) (hn : s'.nextReq = s.nextReq) (hreqs : s'.reqs = Function.update s.reqs r q)
    (hring : s'.ev.ring = s.ev.ring.write i fun x =>
      (x.prep (prepareSqringOp (s.reqs r).data.specificData)).setData (some r)) : Prepared s' := by
  obtain ⟨-, hw⟩ := hp.waiting r i hu hsqe
  have hold : ∀ x, x ≠ r → s'.reqs x = s.reqs x := fun x hx => by rw [hreqs, Function.update_of_ne hx]
  have hsl : ∀ j, j ≠ i → s'.ev.ring.sqes j = s.ev.ring.sqes j := fun j hj => by
    rw [hring, Uring.write_sqes, Function.update_of_ne hj]
  have hhold : ∀ k j, s'.ev.ring.Holds k j ↔ s.ev.ring.Holds k j := fun k j => by rw [hring]; exact Uring.holds_write
  have hne : ∀ x, s'.Unawaited x → x ≠ r := by
    rintro x hx rfl
    have h1 := hx.2.2
    rw [hreqs, Function.update_self] at h1
    exact hq h1
  have hua : ∀ x, x ≠ r → (s'.Unawaited x ↔ s.Unawaited x) := fun x hx => by
    unfold Unawaited
    rw [hn, hold x hx]
  have hwait : ∀ x j, x ≠ r → j ≠ i → s.WaitsIn x j → s'.WaitsIn x j := fun x j hx hj hw =>
    ⟨(hua x hx).mpr hw.unawaited, by rw [hold x hx, hw.sqe], by rw [hsl j hj, hw.purpose, hold x hx],
      by rw [hsl j hj, hw.written]⟩
  refine ⟨fun x hx => hp.inFlight x ?_, fun k j hk => ?_, fun x j hx hsx => ?_⟩
  · rwa [hring] at hx
  · by_cases hj : j = i
    · left
      subst hj
      rw [hring, Uring.write_sqes, Function.update_self]
      unfold Slot.Faithful
      simp only [Slot.setData, Slot.prep, hw.purpose]
      exact ⟨trivial, ioUringSqeSetData_prepareSqringOp _ _ _ _⟩
    · rw [hsl j hj]
      rcases hp.pending k j ((hhold k j).mp hk) with hf | ⟨x, hwx⟩
      · exact .inl hf
      · refine .inr ⟨x, hwait x j ?_ hj hwx⟩
        rintro rfl
        exact hj (Option.some.inj (hwx.sqe.symm.trans hsqe))
  · have hxr := hne x hx
    have hx' := (hua x hxr).mp hx
    have hsx' : (s.reqs x).sqe = some j := by rw [← hold x hxr, hsx]
    obtain ⟨⟨k, hk⟩, hwx⟩ := hp.waiting x j hx' hsx'
    have hj : j ≠ i := by
      rintro rfl
      have h1 := hwx.purpose.symm.trans hw.purpose
      simp only [Option.some.injEq, Purpose.request.injEq] at h1
      exact hxr h1.2
    exact ⟨⟨k, (hhold k j).mpr hk⟩, hwait x j hxr hj hwx⟩

theorem awaitIo (hp : Prepared s) {h : CoroId} (hlt : r < s.nextReq) (hs : s.awaitIo h r = .ok s') : Prepared s' := by
  obtain ⟨⟨-, -, hh, hd⟩, ⟨-, rfl⟩ | ⟨i, -, -, hsqe, rfl⟩⟩ := awaitIo_ok hs
  · exact hp.of_quiet (.ioReturn h r s)
  · have hu : s.Unawaited r := ⟨hlt, by rw [hh]; rfl, hd⟩
    exact hp.write hu hsqe (q := { s.reqs r with data := (s.reqs r).data.await h (s.coros h).promise })
      (by simp [RequestData.await]) rfl rfl rfl

theorem faithful_naSlot (p : ParameterPack) (r : ReqId) (x : Slot) : (naSlot p r x).Faithful := by
  unfold Slot.Faithful
  simp only [naSlot, Slot.setData, Slot.prep, Slot.hand, prepNa_eq]
  exact ⟨trivial, ioUringSqeSetData_prepareSqringOp _ _ _ _⟩

theorem faithful_queuedSlot (p : ParameterPack) (r : ReqId) (x : Slot) : (queuedSlot p r x).Faithful := by
  unfold Slot.Faithful
  simp only [queuedSlot, Slot.setData, Slot.prep, Slot.hand, prepGenericRequest_eq]
  exact ⟨trivial, ioUringSqeSetData_prepareSqringOp _ _ _ _⟩

theorem processRequests {h : CoroId} {l : List (ParameterPack × ReqId)} : ∀ {s s' : State}, Prepared s →
    (∀ x ∈ l, (s.reqs x.2).home = .vector h) → s.processRequests h l = .ok s' → Prepared s' := by
  induction l with
  | nil =>
    intro s s' hp _ hs
    cases hs
    exact hp
  | cons x l ih =>
    intro s s' hp hl hs
    obtain ⟨req, y⟩ := x
    obtain ⟨⟨b, s1⟩, h1, h2⟩ := bind_ok.mp hs
    rcases processSingleGenericRequest_ok h1 with ⟨-, -, rfl⟩ | ⟨-, -, -, j, ring, hr, rfl⟩
    · exact ih hp (fun z hz => hl z (List.mem_cons_of_mem _ hz)) h2
    · have hy : (s.reqs y).home = .vector h := hl (req, y) List.mem_cons_self
      refine ih (hp.getSqe (.queue hy ring) hr rfl (faithful_queuedSlot ..)) (fun z hz => ?_) h2
      have hz' := hl z (List.mem_cons_of_mem _ hz)
      by_cases hzy : z.2 = y
      · simp [State.modReq, State.setRing, State.modEv, hzy, hy]
      · simpa [State.modReq, State.setRing, State.modEv, hzy] using hz'

/-- The entries that the step takes are not of awaitables that wait to be written. -/
theorem not_waitsIn_of_taken {c : Choice} (hc : s.TakesAwaited c) {k : ℕ} (hk : s.ev.ring.Holds k j)
    (hlt : k < s.taking c) :
    ¬ s.WaitsIn r j := by
  intro hw
  refine hc _ (Uring.mem_take_pending.mpr ⟨k, j, hlt, hk, rfl⟩) r ?_ hw.unawaited
  unfold Slot.record
  rw [hw.purpose]
  rfl

theorem naOp (hp : Prepared s) {p : ParameterPack} {ret : ℤ} {e : Errnos} (hc : s.TakesAwaited (.user (.na p ret)))
    (hs : s.naOp p ret = .ok (e, s')) : Prepared s' := by
  rcases naOp_ok hs with ⟨-, -, rfl⟩ | ⟨ha, i, ring, s2, hring, h2, hcase⟩
  · exact hp
  · have h1 : Prepared (s.setRing ring) := hp.getSqe (.of_eq rfl rfl) hring rfl (faithful_naSlot ..)
    have h3 : SameAwaits s2 s' := by
      have hn2 : s2.nextReq = s.nextReq := (Settled.submit h2).nextReq
      have hcond : s'.nextReq = s2.nextReq + 1 ∧ (∀ x, x ≠ s.nextReq → s'.reqs x = s2.reqs x) ∧
          (s'.reqs s.nextReq).home = .heap := by
        rcases hcase with ⟨-, -, rfl⟩ | ⟨-, -, rfl⟩
        · exact ⟨by rw [hn2], fun x hx => Function.update_of_ne hx _ _, by simp [naRequest, Request.allocated]⟩
        · exact ⟨by rw [hn2], fun x hx => Function.update_of_ne hx _ _, by simp [naRequest, Request.allocated]⟩
      obtain ⟨hn, hold, hnew⟩ := hcond
      refine .of_reqs (hn ▸ Nat.le_succ _) (fun x hx => hold x ?_) fun x h1 h2 => ?_
      · rw [hn2] at hx
        exact Nat.ne_of_lt hx
      · obtain rfl : x = s.nextReq := hn2 ▸ Nat.le_antisymm (Nat.lt_succ_iff.mp (h2.trans_le hn.le)) h1
        rw [hnew]
        rfl
    have hr2 : s'.ev.ring = s2.ev.ring := by rcases hcase with ⟨-, -, rfl⟩ | ⟨-, -, rfl⟩ <;> rfl
    obtain ⟨-, -, -, hs2⟩ := submitQueuedEntries_ok h2
    refine (h1.submit (n := ret.toNat) (.submit h2) (by rw [hs2]; rfl) fun k j r hlt hk hw => ?_).same h3 hr2
    have hk' : ring.Holds k j := hk
    rcases (Uring.holds_getSqe hring).mp hk' with hk' | ⟨-, rfl⟩
    · refine not_waitsIn_of_taken (r := r) hc hk' (by simpa [taking, ha] using hlt) (hw.same (.of_eq rfl rfl) ?_)
      show s.ev.ring.sqes j = ring.sqes j
      rw [Uring.getSqe_sqes hring, Function.update_of_ne (hk'.ne_of_getSqe hring)]
    · have h4 : (ring.sqes j).written = false := hw.written
      rw [Uring.getSqe_sqes hring, Function.update_self] at h4
      cases h4

/-- The cancel request is put in a slot without `user_data`. -/
theorem cancel (hp : Prepared s) {h : CoroId} {rest : List Activation} (hst : s.stack = .run h :: rest)
    (hb : (s.coros h).body = .killInternal .cancel) (hc : s.CancelsClean) {s1 : State}
    (hs : s.ioUringGetSqe .cancel = .ok (some j, s1)) :
    Prepared ((s1.writeSqe j (Slot.prep (ioUringPrepCancel 0 cancelFlags))).setBody h
      (.killInternal (.flushCancel 0))) := by
  obtain ⟨ring, -, hring, rfl⟩ := ioUringGetSqe_some hs
  have hw := Uring.getSqe_write (Slot.prep (ioUringPrepCancel 0 cancelFlags)) hring
  refine hp.getSqe (.of_eq rfl rfl) hw rfl ?_
  have hroom : s.ev.ring.pending.length < s.ev.ring.entries := by
    rw [Uring.length_pending]
    by_contra hfull
    rw [Uring.getSqe_eq_none.mpr (by omega)] at hring
    cases hring
  have hu := hc (killPc_eq hst hb) hroom
  rw [← (Uring.getSqe_pending hring).2] at hu
  show ioUringPrepCancel 0 cancelFlags (s.ev.ring.sqes j).sqe = _
  simp [ioUringPrepCancel, ioUringPrepRw, hu]

theorem batch (hp : Prepared s) {h : CoroId} {rest : List Activation} (hst : s.stack = .run h :: rest)
    {q : RequestQueue}
    {ret : ℤ} (hc : s.TakesAwaited (.sub ret)) (hs : s.submitAndWaitBegin h q ret = .ok s') : Prepared s' := by
  unfold State.submitAndWaitBegin at hs
  obtain ⟨s1, h1, h2⟩ := bind_ok.mp hs
  have hp1 : Prepared s1 := by
    have hsame := SameAwaits.submit h1
    obtain ⟨-, -, -, rfl⟩ := submitQueuedEntries_ok h1
    exact hp.submit (n := ret.toNat) hsame rfl fun k j r hlt hk => not_waitsIn_of_taken hc hk hlt
  split at h2
  · exact hp1.of_quiet (.finish (by rw [(submitQueuedEntries_stack h1).1]; exact hst) h2)
  · obtain ⟨s2, h3, h4⟩ := bind_ok.mp h2
    cases h4
    have hp2 : Prepared (s1.newVector h q.length).2 := hp1.same (.newVector h q.length) rfl
    refine (hp2.processRequests (fun x hx => ?_) h3).same (.of_eq rfl rfl) rfl
    exact congrArg Request.home (if_pos (List.of_mem_zip hx).2)

theorem init (hi : State.Initial s) : Prepared s := by
  have hn : s.nextReq = 0 := by cases hi <;> rfl
  have hf : s.ev.ring.inFlight = [] := by cases hi <;> rfl
  have hk : s.ev.ring.sqeTail - s.ev.ring.khead = 0 := by cases hi <;> rfl
  refine ⟨fun x hx => ?_, fun k j hj => ?_, fun r j hu => ?_⟩
  · rw [hf] at hx
    cases hx
  · exact absurd hj.1 (by omega)
  · have h1 := hu.1
    rw [hn] at h1
    exact absurd h1 (Nat.not_lt_zero r)

/-- **What a step keeps.** -/
theorem step (hp : Prepared s) {c : Choice} (hreach : Reachable s) (hc : s.TakesWritten c)
    (hs : State.step s c = .ok s') :
    Prepared s' := by
  have hrec : ∀ {a rest}, s.stack = a :: rest → (∀ x r, a ≠ .ioSubmit x r) → Records s :=
    fun hst ha => (hreach.sound.coherent hst ha).records
  cases step_effect hs with
  | quiet hq => exact hp.of_quiet hq
  | io h1 => exact hp.ioOp h1
  | awaitIo _ h1 => exact hp.awaitIo (hreach.sound.records.lt_nextReq (awaitIo_ok h1).1.2.1) h1
  | awaitOp _ h1 h2 =>
    refine (hp.ioOp h1).awaitIo ?_ h2
    rw [(ioOp_ok h1).2.1, (ledger_ioOp h1).1]
    exact Nat.lt_succ_self _
  | na h1 => exact hp.naOp hc.1 h1
  | @submit _ ret s1 s2 _ hret hna hq h1 hq' =>
    have htake : s.taking c = ret.toNat := by
      cases c with
      | sub => cases hret; rfl
      | user a =>
        cases a with
        | submitQueuedEntries => cases hret; rfl
        | na p ret' => exact absurd rfl (hna p ret')
        | _ => cases hret
      | _ => cases hret
    have hp1 := hp.of_quiet hq
    have hsame := SameAwaits.submit h1
    obtain ⟨-, -, -, rfl⟩ := submitQueuedEntries_ok h1
    refine (hp1.submit (n := ret.toNat) hsame rfl fun k j r hlt hk hw => ?_).of_quiet hq'
    rw [hq.ring] at hk
    exact not_waitsIn_of_taken hc.1 hk (htake ▸ hlt) (hw.same (SameAwaits.of_quiet hq).symm (by rw [hq.ring]))
  | rawSqe h1 =>
    rcases getUringSqe_ok h1 with ⟨-, -, rfl⟩ | ⟨i, ring, -, -, -, hr, rfl⟩
    · exact hp
    · exact hp.getSqe (.of_eq rfl rfl) hr rfl trivial
  | start | leave | dying => exact hp.same (.of_eq rfl rfl) rfl
  | message hst h1 => exact hp.same (.awaitMessage (hrec hst (by simp)) h1) (ring_awaitMessage h1).1
  | cqe _ h1 => exact hp.reap (.awaitCqe h1) (ring_awaitCqe h1).1
  | seen _ h1 => exact hp.same (.awaitSeen h1) (ring_awaitSeen h1).1
  | handlerReturn hst h1 =>
    exact hp.same (.eventHandlerReturn (hrec hst (by simp)) h1) ((Uncounted.eventHandlerReturn h1).ring.trans rfl)
  | cancel hst hb h1 => exact hp.cancel hst hb hc.2 h1
  | dead hst _ _ h1 =>
    have h2 : Prepared (s.modEv fun ev => { ev with managerLifeState := .dead, ringUp := false }) :=
      hp.same (.of_eq rfl rfl) rfl
    exact h2.of_quiet (.finish (by exact hst) h1)
  | batch hst _ _ h1 => exact hp.batch hst hc.1 h1
  | poll _ _ _ _ hq => exact (hp.of_quiet hq).same (.of_eq rfl rfl) rfl
  | register _ h1 =>
    have h2 : Prepared s.pop := hp.same (.of_eq rfl rfl) rfl
    exact h2.same (.registerCoroReturn h1) ((Uncounted.registerCoroReturn h1).ring)

end Prepared

end State

theorem Reach.prepared {s : State} (h : Reach State.TakesWritten s) : s.Prepared :=
  h.inv_of (J := fun s => Reachable s) (fun _ hs => hs.reachable) (fun _ hi => .init hi) fun _ _ _ hreach hp hc hs =>
    hp.step hreach hc hs

/-- **Every entry the kernel has taken** holds what it was handed out for, if the kernel never takes the entry of an
awaitable that is still to be awaited and the cancel request gets a slot without `user_data`. -/
theorem entries_faithful {s : State} (h : Reach State.TakesWritten s) : ∀ x ∈ s.ev.ring.inFlight, x.Faithful :=
  h.prepared.inFlight

/-- A read is made, awaited later and taken, and after it a write that is not awaited. -/
theorem entries_faithful_two : ∃ s : State, s.ev.ring.inFlight.length = 2 ∧ ∀ x ∈ s.ev.ring.inFlight, x.Faithful := by
  have he : (exec State.step State.TakesWritten (init 1)
    [.user .call, .user (.startTask 0), .user (.io (.read ⟨3, 100, 8⟩)),
      .user (.awaitIo 0), .sub 1, .tau, .user (.na (.write ⟨4, 200, 8⟩) 1)]).map
      (fun s => decide (s.ev.ring.inFlight.length = 2)) = some true := by decide
  obtain ⟨s, hreach, hs⟩ := Reach.of_exec (.up 1) he
  exact ⟨s, of_decide_eq_true hs, entries_faithful hreach⟩

/-- An awaitable is made, and a write that is not awaited is submitted before the awaitable is awaited. -/
theorem entries_faithful_fails : ¬ ∀ s : State, Reachable s → ∀ x ∈ s.ev.ring.inFlight, x.Faithful := by
  intro hall
  have he : (exec State.step (fun _ _ => True) (init 4)
    [.user (.io (.read ⟨3, 100, 8⟩)), .user (.na (.write ⟨4, 200, 8⟩) 2)]).map
      (fun s => s.ev.ring.inFlight.any fun x => decide ¬ x.Faithful) = some true := by decide
  obtain ⟨s, hreach, hs⟩ := Reach.of_exec (.up 4) he
  obtain ⟨x, hx, hf⟩ := List.any_eq_true.mp hs
  exact of_decide_eq_true hf (hall s hreach x hx)

end EvManager
