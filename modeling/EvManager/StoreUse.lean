import EvManager.ItemStore
import EvManager.Lib.Run
import Mathlib.Order.Bounds.Basic
import Mathlib.Data.Finset.Card
import Mathlib.Data.Finset.Range

/-!
# The item store in use

An index is live from the insert that returns it to the erase that names it.  **`store_laws`**: as long as only live
indices are erased, an `ItemStore` is an allocator of indices: the live and the freed ones make up the vector, an insert
disturbs no live entry, and the vector is as long as the largest number of indices that were live at once.
-/

namespace EvManager

open Lib

/-- What is done to a store; `pick` is what `*_freed_idxs.begin()` is, where there is something. -/
inductive StoreOp (α : Type)
  | insert (pick : ℕ) (item : α)
  | erase (idx : ℕ)

/-- A store with what its client knows of it: the indices that are live, and the item inserted last at each index. -/
structure StoreUse (α : Type) where
  store : ItemStore α := {}
  live : Finset ℕ := ∅
  last : ℕ → Option α := fun _ => none

namespace StoreUse

variable {α : Type}

/-- An insert may reuse any freed index, and an erase names a live one. -/
def step (u : StoreUse α) : StoreOp α → Except Unit (StoreUse α)
  | .insert pick item =>
    if u.store.freedIdxs = ∅ ∨ pick ∈ u.store.freedIdxs then
      .ok { store := u.store.insert pick item
            live := Insert.insert (u.store.selectedIdx pick) u.live
            last := Function.update u.last (u.store.selectedIdx pick) (some item) }
    else .error ()
  | .erase idx =>
    if idx ∈ u.live then .ok { u with store := u.store.erase idx, live := u.live.erase idx } else .error ()

/-- What becomes of a new store. -/
def after (ops : List (StoreOp α)) : Option (StoreUse α) := exec step (fun _ _ => True) {} ops

/-- The live and the freed indices make up the vector, and the vector has the items. -/
structure Tidy (u : StoreUse α) : Prop where
  disjoint : Disjoint u.live u.store.freedIdxs
  range : u.live ∪ u.store.freedIdxs = Finset.range u.store.items.length
  items : ∀ i ∈ u.live, ∃ item, u.last i = some item ∧ u.store.get? i = some item

variable {u v : StoreUse α} {pick : ℕ} {item : α}

theorem step_insert (hs : u.step (.insert pick item) = .ok v) : (u.store.freedIdxs = ∅ ∨ pick ∈ u.store.freedIdxs) ∧
    v = { store := u.store.insert pick item
          live := Insert.insert (u.store.selectedIdx pick) u.live
          last := Function.update u.last (u.store.selectedIdx pick) (some item) } := by
  simp only [step] at hs
  split at hs
  · rename_i hpick
    exact ⟨hpick, (Except.ok.inj hs).symm⟩
  · cases hs

theorem step_erase {idx : ℕ} (hs : u.step (.erase idx) = .ok v) :
    idx ∈ u.live ∧ v = { u with store := u.store.erase idx, live := u.live.erase idx } := by
  simp only [step] at hs
  split at hs
  · rename_i hidx
    exact ⟨hidx, (Except.ok.inj hs).symm⟩
  · cases hs

namespace Tidy

theorem empty : Tidy ({} : StoreUse α) :=
  ⟨Finset.disjoint_empty_left _, rfl, fun i hi => absurd hi (Finset.notMem_empty i)⟩

theorem mem_range (h : u.Tidy) {i : ℕ} : i < u.store.items.length ↔ i ∈ u.live ∨ i ∈ u.store.freedIdxs := by
  rw [← Finset.mem_range, ← h.range, Finset.mem_union]

theorem card_le (h : u.Tidy) : u.live.card ≤ u.store.items.length := by
  rw [← Finset.card_range u.store.items.length, ← h.range]
  exact Finset.card_le_card Finset.subset_union_left

theorem card_eq (h : u.Tidy) (hfree : u.store.freedIdxs = ∅) : u.live.card = u.store.items.length := by
  rw [← Finset.card_range u.store.items.length, ← h.range, hfree, Finset.union_empty]

/-- The index an insert returns is past the end of the vector or was freed. -/
theorem selectedIdx_cases (hpick : u.store.freedIdxs = ∅ ∨ pick ∈ u.store.freedIdxs) :
    u.store.freedIdxs = ∅ ∧ u.store.selectedIdx pick = u.store.items.length ∨
      pick ∈ u.store.freedIdxs ∧ u.store.selectedIdx pick = pick := by
  by_cases he : u.store.freedIdxs = ∅
  · exact .inl ⟨he, if_pos he⟩
  · exact .inr ⟨hpick.resolve_left he, if_neg he⟩

theorem selectedIdx_notMem (h : u.Tidy) (hpick : u.store.freedIdxs = ∅ ∨ pick ∈ u.store.freedIdxs) :
    u.store.selectedIdx pick ∉ u.live := by
  intro hlive
  rcases selectedIdx_cases hpick with ⟨-, hsel⟩ | ⟨hfree, hsel⟩ <;> rw [hsel] at hlive
  · exact lt_irrefl _ (h.mem_range.mpr (.inl hlive))
  · exact Finset.disjoint_left.mp h.disjoint hlive hfree

theorem insert (h : u.Tidy) (hs : u.step (.insert pick item) = .ok v) : v.Tidy := by
  obtain ⟨hpick, rfl⟩ := step_insert hs
  have hsel := h.selectedIdx_notMem hpick
  refine ⟨?_, ?_, fun i hi => ?_⟩
  · rw [Finset.disjoint_left]
    intro i hi hfree
    obtain ⟨hfree', hne⟩ := ItemStore.mem_freedIdxs_insert _ _ _ _ hfree
    rcases Finset.mem_insert.mp hi with hi | hi
    · exact hne hi
    · exact Finset.disjoint_left.mp h.disjoint hi hfree'
  · rcases selectedIdx_cases hpick with ⟨he, heq⟩ | ⟨hmem, heq⟩
    · have hlive : u.live = Finset.range u.store.items.length := by rw [← h.range, he, Finset.union_empty]
      simp only [heq, ItemStore.insert, if_pos he]
      rw [hlive, he, Finset.union_empty, List.length_append, List.length_singleton, ← Finset.range_add_one]
    · have hne : u.store.freedIdxs ≠ ∅ := Finset.ne_empty_of_mem hmem
      simp only [heq, ItemStore.insert, if_neg hne, List.length_set]
      rw [← h.range, Finset.insert_union, Finset.erase_eq, ← Finset.union_insert, Finset.insert_sdiff_self_of_mem hmem]
  · by_cases hsi : i = u.store.selectedIdx pick
    · subst hsi
      refine ⟨item, Function.update_self .., ItemStore.get?_insert_self _ _ _ (hpick.imp_right fun hm => ?_)⟩
      exact h.mem_range.mpr (.inr hm)
    · obtain ⟨x, hlast, hget⟩ := h.items i ((Finset.mem_insert.mp hi).resolve_left hsi)
      exact ⟨x, (Function.update_of_ne hsi ..).trans hlast, (ItemStore.get?_insert_of_ne _ _ _ _ hsi).trans hget⟩

theorem erase (h : u.Tidy) {idx : ℕ} (hs : u.step (.erase idx) = .ok v) : v.Tidy := by
  obtain ⟨hidx, rfl⟩ := step_erase hs
  refine ⟨?_, ?_, fun i hi => h.items i (Finset.mem_of_mem_erase hi)⟩
  · rw [Finset.disjoint_left]
    intro i hi hfree
    rcases (ItemStore.mem_freedIdxs_erase _ _ _).mp hfree with rfl | hfree
    · exact Finset.notMem_erase i _ hi
    · exact Finset.disjoint_left.mp h.disjoint (Finset.mem_of_mem_erase hi) hfree
  · show u.live.erase idx ∪ Insert.insert idx u.store.freedIdxs = Finset.range u.store.items.length
    rw [Finset.union_insert, ← Finset.insert_union, Finset.insert_erase hidx, h.range]

/-- **Every operation keeps the store tidy.** -/
theorem step (h : u.Tidy) {op : StoreOp α} (hs : u.step op = .ok v) : v.Tidy := by
  cases op with
  | insert pick item => exact h.insert hs
  | erase idx => exact h.erase hs

theorem length_step (h : u.Tidy) {op : StoreOp α} (hs : u.step op = .ok v) :
    v.store.items.length = u.store.items.length ∨
      v.live.card = v.store.items.length ∧ u.store.items.length ≤ v.store.items.length := by
  have hv := h.step hs
  cases op with
  | insert pick item =>
    obtain ⟨hpick, rfl⟩ := step_insert hs
    rcases ItemStore.length_insert u.store pick item with hlen | hfree
    · exact .inl hlen
    · refine .inr ⟨hv.card_eq hfree, ?_⟩
      simp only [ItemStore.insert]
      split <;> simp
  | erase idx =>
    obtain ⟨-, rfl⟩ := step_erase hs
    exact .inl rfl

end Tidy

/-! ### Sequences of operations -/

theorem after_append_singleton {ops : List (StoreOp α)} {op : StoreOp α} (h : after (ops ++ [op]) = some v) :
    ∃ u, after ops = some u ∧ u.step op = .ok v := by
  rw [after, exec_append] at h
  obtain ⟨u, hu, hv⟩ := Option.bind_eq_some_iff.mp h
  refine ⟨u, hu, ?_⟩
  simp only [exec, if_true] at hv
  split at hv
  · rename_i w hw
    rw [hw, Option.some.inj hv]
  · cases hv

/-- The numbers of indices that were live at once. -/
def counts (ops : List (StoreOp α)) : Set ℕ := {n | ∃ pre w, pre <+: ops ∧ after pre = some w ∧ n = w.live.card}

theorem counts_append_singleton {ops : List (StoreOp α)} {op : StoreOp α} (h : after (ops ++ [op]) = some v) {n : ℕ} :
    n ∈ counts (ops ++ [op]) ↔ n ∈ counts ops ∨ n = v.live.card := by
  constructor
  · rintro ⟨pre, w, hpre, hw, rfl⟩
    rcases List.prefix_concat_iff.mp hpre with rfl | hpre
    · rw [h] at hw
      exact .inr (congrArg (fun u => u.live.card) (Option.some.inj hw).symm)
    · exact .inl ⟨pre, w, hpre, hw, rfl⟩
  · rintro (⟨pre, w, hpre, hw, rfl⟩ | rfl)
    · exact ⟨pre, w, hpre.trans (List.prefix_append ..), hw, rfl⟩
    · exact ⟨_, v, List.prefix_rfl, h, rfl⟩

/-- A store that is used is tidy, and its vector is as long as it ever had to be. -/
theorem tidy_after (ops : List (StoreOp α)) : ∀ u, after ops = some u →
    u.Tidy ∧ IsGreatest (counts ops) u.store.items.length := by
  induction ops using List.reverseRecOn with
  | nil =>
    intro u hu
    obtain rfl : {} = u := Option.some.inj hu
    refine ⟨.empty, ⟨[], {}, List.prefix_rfl, rfl, rfl⟩, ?_⟩
    rintro n ⟨pre, w, hpre, hw, rfl⟩
    rw [List.prefix_nil.mp hpre] at hw
    rw [← Option.some.inj hw]
    exact le_rfl
  | append_singleton ops op ih =>
    intro v hv
    obtain ⟨u, hu, hs⟩ := after_append_singleton hv
    obtain ⟨htidy, hmem, hmax⟩ := ih u hu
    have htidy' := htidy.step hs
    have hle : u.store.items.length ≤ v.store.items.length := by
      rcases htidy.length_step hs with hlen | ⟨-, hlen⟩
      · exact hlen.ge
      · exact hlen
    refine ⟨htidy', ?_, fun n hn => ?_⟩
    · rw [counts_append_singleton hv]
      rcases htidy.length_step hs with hlen | ⟨hcard, -⟩
      · exact .inl (hlen ▸ hmem)
      · exact .inr hcard.symm
    · rcases (counts_append_singleton hv).mp hn with hn | rfl
      · exact (hmax hn).trans hle
      · exact htidy'.card_le

end StoreUse

open StoreUse

/-- **The item store allocates indices**, whichever freed index an insert reuses and as long as only live indices
are erased: the live and the freed indices partition those of the vector; an insert returns an index that is not
live and leaves the live entries as they are; at a live index is the item inserted last there; and the vector is as
long as the largest number of indices that were live at the same time. -/
theorem store_laws {α : Type} {ops : List (StoreOp α)} {u : StoreUse α} (h : after ops = some u) :
    (Disjoint u.live u.store.freedIdxs ∧ u.live ∪ u.store.freedIdxs = Finset.range u.store.items.length) ∧
    (∀ pick item v, u.step (.insert pick item) = .ok v → u.store.selectedIdx pick ∉ u.live ∧
      ∀ i ∈ u.live, v.store.get? i = u.store.get? i) ∧
    (∀ i ∈ u.live, ∃ item, u.last i = some item ∧ u.store.get? i = some item) ∧
    IsGreatest {n | ∃ pre w, pre <+: ops ∧ after pre = some w ∧ n = w.live.card} u.store.items.length := by
  obtain ⟨htidy, hpeak⟩ := tidy_after ops u h
  refine ⟨⟨htidy.disjoint, htidy.range⟩, fun pick item v hs => ?_, htidy.items, hpeak⟩
  obtain ⟨hpick, rfl⟩ := step_insert hs
  have hsel := htidy.selectedIdx_notMem hpick
  exact ⟨hsel, fun i hi => ItemStore.get?_insert_of_ne _ _ _ _ fun heq => hsel (heq ▸ hi)⟩

/-- Of two entries the first is erased and its index used again. -/
theorem store_laws_reuse : ∃ u : StoreUse ℕ, u.store.items = [30, 20] ∧ u.live = {0, 1} ∧ u.store.get? 0 = some 30 ∧
    IsGreatest {n | ∃ pre w, pre <+: [.insert 0 10, .insert 0 20, .erase 0, .insert 0 30] ∧ after pre = some w ∧
      n = w.live.card} 2 := by
  have he : (after [.insert 0 10, .insert 0 20, .erase 0, .insert 0 30]).map (fun u =>
      decide (u.store.items = [30, 20] ∧ u.live = {0, 1} ∧ u.last 0 = some 30)) = some true := by decide
  obtain ⟨u, hu, hd⟩ := Option.map_eq_some_iff.mp he
  obtain ⟨hitems, hlive, hlast⟩ := of_decide_eq_true hd
  obtain ⟨-, -, hget, hpeak⟩ := store_laws hu
  obtain ⟨item, h0, h1⟩ := hget 0 (by rw [hlive]; decide)
  rw [hlast] at h0
  rw [hitems] at hpeak
  exact ⟨u, hitems, hlive, h1.trans h0.symm, hpeak⟩

end EvManager
