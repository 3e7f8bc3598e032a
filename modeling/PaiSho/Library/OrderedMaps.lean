import Mathlib.Order.Compare
import Mathlib.Data.List.Sort
import Std.Data.ExtTreeMap
import Std.Data.ExtTreeSet

/-!
# Lookup laws for ordered maps and sets

The extensional tree containers of the standard library, with their membership
and lookup laws stated through equality of keys instead of comparison results.
-/

set_option autoImplicit false

namespace Library.OrderedMaps
open Std (ExtTreeMap ExtTreeSet TransCmp LawfulEqCmp)

/-- The law the containers ask for, named for every linear order. -/
instance transOrd {α : Type*} [LinearOrder α] : TransCmp (compare : α → α → Ordering) :=
  inferInstance

section Set
variable {α : Type*} [LinearOrder α] (t : ExtTreeSet α)

theorem mem_set_insert (k a : α) : a ∈ t.insert k ↔ a = k ∨ a ∈ t := by
  rw [ExtTreeSet.mem_insert, compare_eq_iff_eq, eq_comm]

theorem mem_set_erase (k a : α) : a ∈ t.erase k ↔ a ≠ k ∧ a ∈ t := by
  rw [ExtTreeSet.mem_erase, ne_eq, compare_eq_iff_eq, eq_comm]

theorem set_isEmpty (t : ExtTreeSet α) : t.isEmpty = true ↔ ∀ a, a ∉ t := by
  constructor
  · intro h a
    rw [ExtTreeSet.isEmpty_iff.mp h]
    exact ExtTreeSet.not_mem_empty
  · intro h
    rw [ExtTreeSet.isEmpty_iff]
    exact ExtTreeSet.ext_mem (fun a => by simp [h a])

theorem set_toList_nodup : t.toList.Nodup := by
  refine ExtTreeSet.distinct_toList.imp ?_
  rintro a b h rfl
  simp at h

end Set

section Map
variable {α β : Type*} {cmp : α → α → Ordering} [TransCmp cmp] [LawfulEqCmp cmp]
variable (m : ExtTreeMap α β cmp)

theorem mem_map_insert (k a : α) (v : β) : a ∈ m.insert k v ↔ a = k ∨ a ∈ m := by
  rw [ExtTreeMap.mem_insert, LawfulEqCmp.compare_eq_iff_eq, eq_comm]

theorem mem_map_erase (k a : α) : a ∈ m.erase k ↔ a ≠ k ∧ a ∈ m := by
  rw [ExtTreeMap.mem_erase, ne_eq, LawfulEqCmp.compare_eq_iff_eq, eq_comm]

theorem lookup_insert [DecidableEq α] (k a : α) (v : β) :
    (m.insert k v)[a]? = if a = k then some v else m[a]? := by
  rw [ExtTreeMap.getElem?_insert]
  by_cases h : a = k
  · simp [h]
  · simp [h, Ne.symm h]

theorem lookup_erase [DecidableEq α] (k a : α) :
    (m.erase k)[a]? = if a = k then none else m[a]? := by
  rw [ExtTreeMap.getElem?_erase]
  by_cases h : a = k
  · simp [h]
  · simp [h, Ne.symm h]

theorem lookup_alter [DecidableEq α] (k a : α) (f : Option β → Option β) :
    (m.alter k f)[a]? = if a = k then f m[k]? else m[a]? := by
  rw [ExtTreeMap.getElem?_alter]
  by_cases h : a = k
  · simp [h]
  · simp [h, Ne.symm h]

theorem lookup_filter (f : α → β → Bool) (a : α) :
    (m.filter f)[a]? = m[a]?.filter (f a) :=
  ExtTreeMap.getElem?_filter'

theorem lookup_filterMap {γ : Type*} (f : α → β → Option γ) (a : α) :
    (m.filterMap f)[a]? = m[a]?.bind (f a) :=
  ExtTreeMap.getElem?_filterMap'

end Map

section Sorted
variable {α β : Type*} [LinearOrder α]

theorem insertionSort_ascending (l : List α) (hl : l.Nodup) :
    (l.insertionSort (· ≤ ·)).Pairwise (· < ·) := by
  have hs := List.pairwise_insertionSort (· ≤ ·) l
  have hn : (l.insertionSort (· ≤ ·)).Nodup := (List.perm_insertionSort _ l).nodup_iff.mpr hl
  exact hs.and hn |>.imp (fun h => lt_of_le_of_ne h.1 h.2)

theorem ascending_ext (l l' : List α) (hl : l.Pairwise (· < ·)) (hl' : l'.Pairwise (· < ·))
    (h : ∀ a, a ∈ l ↔ a ∈ l') : l = l' := by
  have hp : l.Perm l' := (List.perm_ext_iff_of_nodup hl.nodup hl'.nodup).mpr h
  exact hp.eq_of_pairwise (fun a b _ _ hab hba => absurd hba (lt_asymm hab)) hl hl'

theorem insertionSort_perm (l l' : List α) (h : l.Perm l') :
    l.insertionSort (· ≤ ·) = l'.insertionSort (· ≤ ·) := by
  have hp := (List.perm_insertionSort (· ≤ ·) l).trans
    (h.trans (List.perm_insertionSort (· ≤ ·) l').symm)
  exact hp.eq_of_pairwise (fun a b _ _ hab hba => le_antisymm hab hba)
    (List.pairwise_insertionSort _ l) (List.pairwise_insertionSort _ l')

end Sorted

end Library.OrderedMaps
