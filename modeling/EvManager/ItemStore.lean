import Mathlib.Data.Finset.Basic
import Mathlib.Data.List.Basic

/-!
# The item store

`ItemStore<T>` of `event_loop/event_manager.hpp`: a vector of items and the set of the indices that were
freed.  Which freed index an insert reuses is up to `unordered_set::begin`, so it is a parameter.
-/

namespace EvManager

structure ItemStore (α : Type) where
  items : List α := []
  freedIdxs : Finset ℕ := ∅

namespace ItemStore

variable {α : Type}

/-- The index `insert` selects; `pick` is the element `*_freed_idxs.begin()`, when there is one. -/
def selectedIdx (pick : ℕ) (st : ItemStore α) : ℕ :=
  if st.freedIdxs = ∅ then st.items.length else pick

/-- The store after `insert` of `item`. -/
def insert (pick : ℕ) (item : α) (st : ItemStore α) : ItemStore α :=
  if st.freedIdxs = ∅ then { st with items := st.items ++ [item] }
  else { items := st.items.set pick item, freedIdxs := st.freedIdxs.erase pick }

/-- `operator[]`, `none` past the end of the vector. -/
def get? (st : ItemStore α) (idx : ℕ) : Option α := st.items[idx]?

def erase (idx : ℕ) (st : ItemStore α) : ItemStore α :=
  { st with freedIdxs := Insert.insert idx st.freedIdxs }

variable (st : ItemStore α) (pick idx i : ℕ) (item : α)

@[simp] theorem get?_erase : (st.erase idx).get? i = st.get? i := rfl

@[simp] theorem mem_freedIdxs_erase : i ∈ (st.erase idx).freedIdxs ↔ i = idx ∨ i ∈ st.freedIdxs := by
  simp [erase]

/-- An index that is still free after an insert was free before and is not the one selected. -/
theorem mem_freedIdxs_insert (h : i ∈ (st.insert pick item).freedIdxs) :
    i ∈ st.freedIdxs ∧ i ≠ st.selectedIdx pick := by
  unfold insert at h
  split at h
  · rename_i he
    simp [he] at h
  · rename_i he
    simp only [Finset.mem_erase] at h
    simp only [selectedIdx, if_neg he]
    exact ⟨h.2, h.1⟩

/-- An index that was free and is not the one selected is free after an insert. -/
theorem mem_freedIdxs_insert_of_ne (h : i ∈ st.freedIdxs) (hne : i ≠ st.selectedIdx pick) :
    i ∈ (st.insert pick item).freedIdxs := by
  unfold insert
  split
  · exact h
  · rename_i he
    rw [selectedIdx, if_neg he] at hne
    exact Finset.mem_erase.mpr ⟨hne, h⟩

/-- The vector grows only when no index is free. -/
theorem length_insert : (st.insert pick item).items.length = st.items.length ∨
    (st.insert pick item).freedIdxs = ∅ := by
  unfold insert
  split
  · rename_i he
    exact .inr he
  · exact .inl (List.length_set ..)

theorem lt_of_lt_insert (h : i < (st.insert pick item).items.length) (hne : i ≠ st.selectedIdx pick) :
    i < st.items.length := by
  unfold insert at h
  unfold selectedIdx at hne
  split at h
  · rename_i he
    rw [if_pos he] at hne
    rw [List.length_append, List.length_singleton] at h
    omega
  · rwa [List.length_set] at h

theorem get?_insert_of_ne (h : i ≠ st.selectedIdx pick) : (st.insert pick item).get? i = st.get? i := by
  unfold insert get?
  unfold selectedIdx at h
  split
  · rename_i he
    rw [if_pos he] at h
    rcases Nat.lt_or_ge i st.items.length with hi | hi
    · rw [List.getElem?_append_left hi]
    · rw [List.getElem?_eq_none hi, List.getElem?_eq_none (by simp; omega)]
  · rename_i he
    rw [if_neg he] at h
    rw [List.getElem?_set_ne (Ne.symm h)]

/-- The item is found at the selected index, when that is in the vector or one past its end. -/
theorem get?_insert_self (h : st.freedIdxs = ∅ ∨ pick < st.items.length) :
    (st.insert pick item).get? (st.selectedIdx pick) = some item := by
  unfold insert get? selectedIdx
  split
  · simp
  · rename_i he
    have hlt : pick < st.items.length := h.resolve_left he
    simp [hlt]

end ItemStore

end EvManager
