import Mathlib.Data.List.Perm.Basic
import MorphLex.Order.Ascending

/-!
Equality of lists in ascending order. Such a list is the one way to write the set of
its members, and sorting forgets the order in which they came.
-/

namespace MorphLex.Ascending

variable {Item : Type} (cmp : Item → Item → Ordering) [Std.TransCmp cmp]

/-- A list in ascending order is determined by its members. -/
theorem eq_of_mem_iff {first second : List Item}
    (ascends : first.Pairwise fun lower upper => cmp lower upper = .lt)
    (others : second.Pairwise fun lower upper => cmp lower upper = .lt)
    (same : ∀ item, item ∈ first ↔ item ∈ second) : first = second := by
  have distinct {items : List Item}
    (ordered : items.Pairwise fun lower upper => cmp lower upper = .lt) : items.Nodup := by
    apply ordered.imp
    intro lower upper below equal
    rw [equal, @Std.ReflCmp.compare_self _ cmp _ upper] at below
    exact nomatch below
  apply List.Perm.eq_of_pairwise _ ascends others
  · exact (List.perm_ext_iff_of_nodup (distinct ascends) (distinct others)).mpr same
  · intro lower upper _ _ below above
    rw [@Std.OrientedCmp.eq_swap _ cmp _ lower upper, above] at below
    exact nomatch below

/-- Sorting forgets the order of items that the comparison tells apart. -/
theorem sort_eq_of_perm {items others : List Item}
    (apart : ∀ first ∈ items, ∀ second ∈ items, cmp first second = .eq → first = second)
    (permuted : items.Perm others) :
    (items.mergeSort fun first second => (cmp first second).isLE) =
      others.mergeSort fun first second => (cmp first second).isLE := by
  apply List.Perm.eq_of_pairwise _ (pairwise_sort cmp items) (pairwise_sort cmp others)
  · exact (List.mergeSort_perm _ _).trans (permuted.trans (List.mergeSort_perm _ _).symm)
  · intro first second here there below above
    rw [@Std.OrientedCmp.eq_swap _ cmp _ second first] at above
    apply apart first (List.mem_mergeSort.mp here) second
      (permuted.mem_iff.mpr (List.mem_mergeSort.mp there))
    cases order : cmp first second with
    | eq => rfl
    | lt => simp [order] at above
    | gt => simp [order] at below

end MorphLex.Ascending
