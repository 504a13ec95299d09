import Mathlib.Data.List.Nodup
import Mathlib.Data.Nat.ModEq
import Mathlib.Tactic.Common

/-!
# A submission ring with recycled slots

The user side of an io_uring instance, over any type `α` of entries.  The slots are recycled: position
`i` of the stream of entries lives in slot `i % entries`, and a slot that is handed out still holds what
its earlier occupant left there.  Three positions cut the stream: before `khead` the kernel has taken the
entries, from `khead` on they are *pending*, `sqeHead` is how far `io_uring_submit` has published them,
and `sqeTail` is the next position `io_uring_get_sqe` hands out.  A submit publishes everything and the
kernel then takes any number of the oldest pending entries; what it took and has not completed is the
list `inFlight`.

A ring carries the proofs that its positions are in order and that no more than `entries` are pending, so
a ring out of bounds cannot be built.
-/

namespace EvManager.Lib

structure Uring (α : Type) where
  entries : ℕ
  sqes : ℕ → α
  khead : ℕ
  sqeHead : ℕ
  sqeTail : ℕ
  inFlight : List α
  khead_le : khead ≤ sqeHead
  sqeHead_le : sqeHead ≤ sqeTail
  room : sqeTail - khead ≤ entries

namespace Uring

variable {α β : Type}

/-- A ring that was just set up, every slot holding `z`. -/
def init (entries : ℕ) (z : α) : Uring α where
  entries := entries
  sqes _ := z
  khead := 0
  sqeHead := 0
  sqeTail := 0
  inFlight := []
  khead_le := le_rfl
  sqeHead_le := le_rfl
  room := by simp

/-- The slot of a position of the stream. -/
def slot (r : Uring α) (i : ℕ) : ℕ := i % r.entries

/-- The pending entries, oldest first. -/
def pending (r : Uring α) : List α :=
  (List.range' r.khead (r.sqeTail - r.khead)).map fun i => r.sqes (r.slot i)

/-- How many entries `io_uring_submit` has not published yet: `sqe_tail - sqe_head`. -/
def unpublished (r : Uring α) : ℕ := r.sqeTail - r.sqeHead

/-- `io_uring_get_sqe`: the next slot and the ring that has handed it out, or `none` when the ring is
full.  The slot keeps its content but for what `mark` notes in it. -/
def getSqe (mark : α → α) (r : Uring α) : Option (ℕ × Uring α) :=
  if h : r.sqeTail - r.khead < r.entries then
    some (r.slot r.sqeTail,
      { r with
        sqes := Function.update r.sqes (r.slot r.sqeTail) (mark (r.sqes (r.slot r.sqeTail)))
        sqeTail := r.sqeTail + 1
        sqeHead_le := Nat.le_succ_of_le r.sqeHead_le
        room := by have := r.khead_le; have := r.sqeHead_le; omega })
  else none

/-- A write through the pointer to slot `j`. -/
def write (j : ℕ) (f : α → α) (r : Uring α) : Uring α :=
  { r with sqes := Function.update r.sqes j (f (r.sqes j)) }

/-- `io_uring_submit`, the kernel taking the `k` oldest pending entries (all of them if there are fewer). -/
def submit (k : ℕ) (r : Uring α) : Uring α :=
  { r with
    khead := r.khead + min k (r.sqeTail - r.khead)
    sqeHead := r.sqeTail
    inFlight := r.inFlight ++ r.pending.take k
    khead_le := by have := r.khead_le; have := r.sqeHead_le; omega
    sqeHead_le := le_rfl
    room := by have := r.room; omega }

/-- The completion of the `i`-th entry in flight is handed over. -/
def reap (i : ℕ) (r : Uring α) : Uring α := { r with inFlight := r.inFlight.eraseIdx i }

/-! ### Small facts -/

section Basic

variable (r : Uring α)

@[simp] theorem pending_init (n : ℕ) (z : α) : (init n z).pending = [] := by simp [pending, init]

theorem khead_le_tail : r.khead ≤ r.sqeTail := r.khead_le.trans r.sqeHead_le

@[simp] theorem length_pending : r.pending.length = r.sqeTail - r.khead := by simp [pending]

@[simp] theorem submit_pending (k : ℕ) : (r.submit k).pending = r.pending.drop k := by
  have hk := r.khead_le_tail
  have hp : (r.submit k).pending = (List.range' (r.khead + min k (r.sqeTail - r.khead))
      (r.sqeTail - (r.khead + min k (r.sqeTail - r.khead)))).map fun i => r.sqes (r.slot i) := rfl
  rw [hp, pending, ← List.map_drop, List.drop_range', Nat.mul_one]
  congr 1
  rcases Nat.le_total k (r.sqeTail - r.khead) with h | h
  · rw [Nat.min_eq_left h]
    congr 1
    omega
  · rw [Nat.min_eq_right h]
    simp [show r.sqeTail - r.khead - k = 0 by omega,
      show r.sqeTail - (r.khead + (r.sqeTail - r.khead)) = 0 by omega]

@[simp] theorem submit_inFlight (k : ℕ) : (r.submit k).inFlight = r.inFlight ++ r.pending.take k := rfl

@[simp] theorem submit_sqes (k : ℕ) : (r.submit k).sqes = r.sqes := rfl

@[simp] theorem submit_entries (k : ℕ) : (r.submit k).entries = r.entries := rfl

@[simp] theorem submit_unpublished (k : ℕ) : (r.submit k).unpublished = 0 := by
  simp [unpublished, submit]

@[simp] theorem submit_khead (k : ℕ) :
    (r.submit k).khead = r.khead + min k (r.sqeTail - r.khead) := rfl

@[simp] theorem submit_sqeTail (k : ℕ) : (r.submit k).sqeTail = r.sqeTail := rfl

@[simp] theorem write_khead (j : ℕ) (f : α → α) : (r.write j f).khead = r.khead := rfl

@[simp] theorem write_sqeTail (j : ℕ) (f : α → α) : (r.write j f).sqeTail = r.sqeTail := rfl

@[simp] theorem write_slot (j : ℕ) (f : α → α) (i : ℕ) : (r.write j f).slot i = r.slot i := rfl

@[simp] theorem write_sqes (j : ℕ) (f : α → α) :
    (r.write j f).sqes = Function.update r.sqes j (f (r.sqes j)) := rfl

@[simp] theorem write_inFlight (j : ℕ) (f : α → α) : (r.write j f).inFlight = r.inFlight := rfl

@[simp] theorem write_entries (j : ℕ) (f : α → α) : (r.write j f).entries = r.entries := rfl

@[simp] theorem write_unpublished (j : ℕ) (f : α → α) : (r.write j f).unpublished = r.unpublished := rfl

@[simp] theorem reap_pending (i : ℕ) : (r.reap i).pending = r.pending := rfl

@[simp] theorem reap_inFlight (i : ℕ) : (r.reap i).inFlight = r.inFlight.eraseIdx i := rfl

@[simp] theorem reap_khead (i : ℕ) : (r.reap i).khead = r.khead := rfl

@[simp] theorem reap_sqes (i : ℕ) : (r.reap i).sqes = r.sqes := rfl

end Basic

/-! ### Handing out a slot -/

section GetSqe

variable {r r' : Uring α} {mark : α → α} {j : ℕ}

theorem getSqe_eq_none : getSqe mark r = none ↔ r.entries ≤ r.sqeTail - r.khead := by
  unfold getSqe
  split <;> simp <;> omega

/-- Two pending positions are in different slots. -/
theorem slot_inj {i k : ℕ} (r : Uring α) (hi : r.khead ≤ i) (hk : r.khead ≤ k)
    (hi' : i < r.khead + r.entries) (hk' : k < r.khead + r.entries)
    (h : r.slot i = r.slot k) : i = k := by
  unfold slot at h
  have hmod : (i - r.khead) % r.entries = (k - r.khead) % r.entries := by
    have hd : i ≡ k [MOD r.entries] := h
    have hi2 : i = r.khead + (i - r.khead) := by omega
    have hk2 : k = r.khead + (k - r.khead) := by omega
    rw [hi2, hk2] at hd
    exact Nat.ModEq.add_left_cancel' r.khead hd
  rw [Nat.mod_eq_of_lt (by omega), Nat.mod_eq_of_lt (by omega)] at hmod
  omega

/-- **What handing out a slot does to the pending entries**: the slot, with what was left in it, becomes
the newest one. -/
theorem getSqe_pending (h : getSqe mark r = some (j, r')) :
    r'.pending = r.pending ++ [mark (r.sqes j)] ∧ j = r.slot r.sqeTail := by
  unfold getSqe at h
  split at h
  · rename_i hroom
    simp only [Option.some.injEq, Prod.mk.injEq] at h
    obtain ⟨rfl, rfl⟩ := h
    refine ⟨?_, rfl⟩
    have hk := r.khead_le_tail
    have hlen : r.sqeTail + 1 - r.khead = (r.sqeTail - r.khead) + 1 := by omega
    unfold pending slot
    simp only
    rw [hlen, List.range'_concat, List.map_append]
    congr 1
    · refine List.map_congr_left fun i hi => ?_
      rw [List.mem_range'_1] at hi
      refine Function.update_of_ne (fun hs => ?_) _ _
      have := slot_inj r hi.1 (le_trans hk le_rfl) (by omega) (by omega) hs
      omega
    · simp [show r.khead + (r.sqeTail - r.khead) = r.sqeTail by omega]
  · cases h

theorem getSqe_inFlight (h : getSqe mark r = some (j, r')) : r'.inFlight = r.inFlight := by
  unfold getSqe at h
  split at h
  · simp only [Option.some.injEq, Prod.mk.injEq] at h
    obtain ⟨-, rfl⟩ := h
    rfl
  · cases h

theorem getSqe_khead (h : getSqe mark r = some (j, r')) : r'.khead = r.khead := by
  unfold getSqe at h
  split at h
  · simp only [Option.some.injEq, Prod.mk.injEq] at h
    obtain ⟨-, rfl⟩ := h
    rfl
  · cases h

theorem getSqe_entries (h : getSqe mark r = some (j, r')) : r'.entries = r.entries := by
  unfold getSqe at h
  split at h
  · simp only [Option.some.injEq, Prod.mk.injEq] at h
    obtain ⟨-, rfl⟩ := h
    rfl
  · cases h

theorem getSqe_unpublished (h : getSqe mark r = some (j, r')) : r'.unpublished = r.unpublished + 1 := by
  unfold getSqe at h
  split at h
  · simp only [Option.some.injEq, Prod.mk.injEq] at h
    obtain ⟨-, rfl⟩ := h
    have := r.sqeHead_le
    simp only [unpublished]
    omega
  · cases h

theorem getSqe_sqes (h : getSqe mark r = some (j, r')) :
    r'.sqes = Function.update r.sqes j (mark (r.sqes j)) := by
  unfold getSqe at h
  split at h
  · simp only [Option.some.injEq, Prod.mk.injEq] at h
    obtain ⟨rfl, rfl⟩ := h
    rfl
  · cases h

/-- A slot that is handed out and written at once is handed out as written. -/
theorem getSqe_write (f : α → α) (h : getSqe mark r = some (j, r')) :
    getSqe (f ∘ mark) r = some (j, r'.write j f) := by
  unfold getSqe at h ⊢
  split at h
  · rename_i hroom
    simp only [Option.some.injEq, Prod.mk.injEq] at h
    obtain ⟨rfl, rfl⟩ := h
    simp [hroom, write]
  · cases h

end GetSqe

/-! ### What a ring holds -/

/-- Some slot holds `x`, or it is in flight. -/
def Has (r : Uring α) (x : α) : Prop := (∃ j, r.sqes j = x) ∨ x ∈ r.inFlight

section Has

variable {r r' : Uring α} {x : α}

theorem has_of_mem_pending (h : x ∈ r.pending) : r.Has x := by
  obtain ⟨i, -, hi⟩ := List.mem_map.mp h
  exact .inl ⟨_, hi⟩

theorem has_submit {k : ℕ} (h : (r.submit k).Has x) : r.Has x := by
  rcases h with hj | hm
  · exact .inl hj
  · rcases List.mem_append.mp hm with hm | hm
    · exact .inr hm
    · exact has_of_mem_pending (List.mem_of_mem_take hm)

theorem has_reap {i : ℕ} (h : (r.reap i).Has x) : r.Has x :=
  h.imp id fun hm => List.mem_of_mem_eraseIdx hm

theorem has_write {j : ℕ} {f : α → α} (h : (r.write j f).Has x) : r.Has x ∨ x = f (r.sqes j) := by
  rcases h with ⟨k, hk⟩ | hm
  · by_cases hkj : k = j
    · subst hkj
      exact .inr (by simpa using hk.symm)
    · exact .inl (.inl ⟨k, by simpa [hkj] using hk⟩)
  · exact .inl (.inr hm)

theorem has_getSqe {mark : α → α} {j : ℕ} (hr : getSqe mark r = some (j, r')) (h : r'.Has x) :
    r.Has x ∨ x = mark (r.sqes j) := by
  rcases h with ⟨k, hk⟩ | hm
  · rw [getSqe_sqes hr] at hk
    by_cases hkj : k = j
    · subst hkj
      exact .inr (by simpa using hk.symm)
    · exact .inl (.inl ⟨k, by simpa [hkj] using hk⟩)
  · rw [getSqe_inFlight hr] at hm
    exact .inl (.inr hm)

theorem has_init {n : ℕ} {z : α} (h : (init n z).Has x) : x = z := by
  rcases h with ⟨j, hj⟩ | hm
  · exact hj.symm
  · cases hm

end Has

/-! ### Writing a slot -/

/-- The position `k` of the pending list is held by slot `j`. -/
def Holds (r : Uring α) (k j : ℕ) : Prop := k < r.sqeTail - r.khead ∧ r.slot (r.khead + k) = j

theorem getElem_pending (r : Uring α) (k : ℕ) (h : k < r.pending.length) :
    r.pending[k] = r.sqes (r.slot (r.khead + k)) := by
  simp [pending]

/-- **A write through a slot pointer**: it changes the pending entry the slot holds, or none at all when
the slot holds no pending entry. -/
theorem write_pending (r : Uring α) (j : ℕ) (f : α → α) :
    (∃ k, r.Holds k j ∧ (r.write j f).pending = r.pending.set k (f (r.sqes j))) ∨
      ((∀ k, ¬ r.Holds k j) ∧ (r.write j f).pending = r.pending) := by
  have hroom := r.room
  by_cases hex : ∃ k, r.Holds k j
  · obtain ⟨k, hk, hj⟩ := hex
    refine Or.inl ⟨k, ⟨hk, hj⟩, List.ext_getElem (by simp) fun m hm _ => ?_⟩
    rw [getElem_pending, List.getElem_set]
    simp only [length_pending, write_sqeTail, write_khead] at hm
    simp only [write_sqes, write_slot, write_khead]
    by_cases hmk : k = m
    · subst hmk
      simp [hj]
    · have hne : r.slot (r.khead + m) ≠ j := fun e => hmk (by
        have := slot_inj r (i := r.khead + m) (k := r.khead + k) (by omega) (by omega) (by omega)
          (by omega) (e.trans hj.symm)
        omega)
      rw [if_neg hmk, getElem_pending, Function.update_of_ne hne]
  · push Not at hex
    refine Or.inr ⟨hex, List.ext_getElem (by simp) fun m hm _ => ?_⟩
    simp only [length_pending, write_sqeTail, write_khead] at hm
    have hne : r.slot (r.khead + m) ≠ j := fun e => hex m ⟨hm, e⟩
    rw [getElem_pending, getElem_pending]
    simp only [write_sqes, write_slot, write_khead, Function.update_of_ne hne]

/-- A write does not show where only what it keeps is looked at. -/
theorem map_write_pending (r : Uring α) (j : ℕ) {f : α → α} {g : α → β} (hg : ∀ x, g (f x) = g x) :
    (r.write j f).pending.map g = r.pending.map g := by
  unfold pending
  rw [List.map_map, List.map_map]
  refine List.map_congr_left fun i _ => ?_
  show g (Function.update r.sqes j (f (r.sqes j)) (r.slot i)) = g (r.sqes (r.slot i))
  by_cases hi : r.slot i = j
  · rw [hi, Function.update_self, hg]
  · rw [Function.update_of_ne hi]

/-- A write counts where it makes an entry one that is counted. -/
theorem countP_write_le (r : Uring α) (j : ℕ) {f : α → α} {p : α → Bool} (hf : ∀ x, p (f x) = true → p x = true) :
    (r.write j f).pending.countP p ≤ r.pending.countP p := by
  unfold pending
  rw [List.countP_map, List.countP_map]
  refine List.countP_mono_left fun i _ hi => ?_
  by_cases hij : r.slot i = j
  · subst hij
    exact hf _ (by simpa using hi)
  · simpa [hij] using hi

/-- A write into a slot that is not counted, of what is not counted, does not show. -/
theorem countP_write_eq (r : Uring α) (j : ℕ) {f : α → α} {p : α → Bool} (h0 : p (r.sqes j) = false)
    (h1 : p (f (r.sqes j)) = false) : (r.write j f).pending.countP p = r.pending.countP p := by
  unfold pending
  rw [List.countP_map, List.countP_map]
  refine List.countP_congr fun i _ => ?_
  by_cases hij : r.slot i = j
  · subst hij
    simp [h0, h1]
  · simp [hij]

/-- No two pending positions are held by one slot. -/
theorem Holds.inj {r : Uring α} {k m j : ℕ} (hk : r.Holds k j) (hm : r.Holds m j) : k = m := by
  have hroom := r.room
  have := slot_inj r (i := r.khead + k) (k := r.khead + m) (by omega) (by omega)
    (by have := hk.1; omega) (by have := hm.1; omega) (hk.2.trans hm.2.symm)
  omega

/-! ### Which slots hold pending entries -/

section Held

variable {r r' : Uring α} {k i j : ℕ}

theorem mem_pending {x : α} : x ∈ r.pending ↔ ∃ k j, r.Holds k j ∧ r.sqes j = x := by
  constructor
  · intro hx
    obtain ⟨k, hk, rfl⟩ := List.mem_iff_getElem.mp hx
    exact ⟨k, _, ⟨by simpa using hk, rfl⟩, (getElem_pending r k hk).symm⟩
  · rintro ⟨k, j, ⟨hk, rfl⟩, rfl⟩
    exact List.mem_iff_getElem.mpr ⟨k, by simpa using hk, getElem_pending r k (by simpa using hk)⟩

theorem mem_take_pending {x : α} {n : ℕ} : x ∈ r.pending.take n ↔ ∃ k j, k < n ∧ r.Holds k j ∧ r.sqes j = x := by
  constructor
  · intro hx
    obtain ⟨k, hk, rfl⟩ := List.mem_iff_getElem.mp hx
    rw [List.length_take] at hk
    have hk' : k < r.pending.length := by omega
    refine ⟨k, _, by omega, ⟨by simpa using hk', rfl⟩, ?_⟩
    rw [List.getElem_take, getElem_pending r k hk']
  · rintro ⟨k, j, hn, ⟨hk, rfl⟩, rfl⟩
    have hk' : k < r.pending.length := by simpa using hk
    refine List.mem_iff_getElem.mpr ⟨k, by rw [List.length_take]; omega, ?_⟩
    rw [List.getElem_take, getElem_pending r k hk']

/-- A write leaves every pending entry where it is. -/
theorem holds_write {f : α → α} : (r.write i f).Holds k j ↔ r.Holds k j := Iff.rfl

/-- What is pending after a submit was pending before it, further back. -/
theorem holds_submit {n : ℕ} : (r.submit n).Holds k j ↔ r.Holds (k + min n (r.sqeTail - r.khead)) j := by
  have hk := r.khead_le_tail
  have hs : (r.submit n).slot ((r.submit n).khead + k) = r.slot (r.khead + (k + min n (r.sqeTail - r.khead))) := by
    show r.slot (r.khead + min n (r.sqeTail - r.khead) + k) = _
    congr 1
    omega
  unfold Holds
  rw [hs, submit_sqeTail, submit_khead]
  refine and_congr_left fun _ => ?_
  omega

/-- The slot that is handed out holds the newest pending entry and held none before. -/
theorem holds_getSqe {mark : α → α} (h : getSqe mark r = some (j, r')) :
    r'.Holds k i ↔ r.Holds k i ∨ k = r.sqeTail - r.khead ∧ i = j := by
  unfold getSqe at h
  split at h
  · rename_i hroom
    simp only [Option.some.injEq, Prod.mk.injEq] at h
    obtain ⟨rfl, rfl⟩ := h
    have hk := r.khead_le_tail
    show k < r.sqeTail + 1 - r.khead ∧ r.slot (r.khead + k) = i ↔ _
    constructor
    · rintro ⟨hlt, hi⟩
      by_cases hlast : k = r.sqeTail - r.khead
      · refine .inr ⟨hlast, ?_⟩
        rw [← hi, hlast, show r.khead + (r.sqeTail - r.khead) = r.sqeTail by omega]
      · exact .inl ⟨by omega, hi⟩
    · rintro (⟨hlt, hi⟩ | ⟨rfl, rfl⟩)
      · exact ⟨by omega, hi⟩
      · refine ⟨by omega, ?_⟩
        rw [show r.khead + (r.sqeTail - r.khead) = r.sqeTail by omega]
  · cases h

/-- A slot that holds a pending entry is not handed out. -/
theorem Holds.ne_of_getSqe {mark : α → α} (hk : r.Holds k i) (h : getSqe mark r = some (j, r')) : i ≠ j := by
  rintro rfl
  have h1 : r'.Holds k i := (holds_getSqe h).mpr (.inl hk)
  have h2 : r'.Holds (r.sqeTail - r.khead) i := (holds_getSqe h).mpr (.inr ⟨rfl, rfl⟩)
  have h3 := h1.inj h2
  have h4 := hk.1
  omega

end Held

end Uring

end EvManager.Lib
