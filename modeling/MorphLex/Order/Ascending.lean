/-!
Sorting into strictly ascending order. Symbol sets, alphabets and the arcs of a
merged state are all lists in this form. Main statements: nothing is gained or
lost (`mem_of_list`), and neighbours strictly ascend (`pairwise_of_list`).
-/

namespace MorphLex.Ascending

variable {α : Type _}

/-- Leaves the last of each run of neighbours that compare equal. -/
def dropRepeats (cmp : α → α → Ordering) : List α → List α
  | first :: second :: rest =>
      if cmp first second = .eq then dropRepeats cmp (second :: rest)
      else first :: dropRepeats cmp (second :: rest)
  | rest => rest

def ofList (cmp : α → α → Ordering) (items : List α) : List α :=
  dropRepeats cmp (items.mergeSort fun first second => (cmp first second).isLE)

theorem mem_drop_repeats (cmp : α → α → Ordering) [Std.LawfulEqCmp cmp] (items : List α)
    (item : α) : item ∈ dropRepeats cmp items ↔ item ∈ items := by
  induction items using dropRepeats.induct cmp with
  | case1 first second rest same ih =>
      have equal : first = second := Std.LawfulEqCmp.eq_of_compare same
      rw [dropRepeats, if_pos same, ih]
      simp [equal]
  | case2 first second rest differ ih =>
      rw [dropRepeats, if_neg differ, List.mem_cons, ih]
      simp
  | case3 rest => rw [dropRepeats]; assumption

theorem mem_of_list (cmp : α → α → Ordering) [Std.LawfulEqCmp cmp] (items : List α) (item : α) :
    item ∈ ofList cmp items ↔ item ∈ items := by
  rw [ofList, mem_drop_repeats, List.mem_mergeSort]

theorem drop_repeats_subset (cmp : α → α → Ordering) (items : List α) :
    ∀ item ∈ dropRepeats cmp items, item ∈ items := by
  induction items using dropRepeats.induct cmp with
  | case1 first second rest same ih =>
      intro item member
      rw [dropRepeats, if_pos same] at member
      exact List.mem_cons_of_mem _ (ih item member)
  | case2 first second rest differ ih =>
      intro item member
      rw [dropRepeats, if_neg differ] at member
      rcases List.mem_cons.mp member with rfl | later
      · exact List.mem_cons_self
      · exact List.mem_cons_of_mem _ (ih item later)
  | case3 rest => intro item member; rwa [dropRepeats] at member; assumption

theorem pairwise_drop_repeats (cmp : α → α → Ordering) [Std.TransCmp cmp] (items : List α)
    (sorted : items.Pairwise fun first second => (cmp first second).isLE) :
    (dropRepeats cmp items).Pairwise fun first second => cmp first second = .lt := by
  induction items using dropRepeats.induct cmp with
  | case1 first second rest same ih =>
      rw [dropRepeats, if_pos same]
      exact ih (List.pairwise_cons.mp sorted).2
  | case2 first second rest differ ih =>
      rw [dropRepeats, if_neg differ, List.pairwise_cons]
      have tail := (List.pairwise_cons.mp sorted).2
      have below : cmp first second = .lt := by
        have le := (List.pairwise_cons.mp sorted).1 second List.mem_cons_self
        cases order : cmp first second <;> simp_all
      refine ⟨fun item member => ?_, ih tail⟩
      rcases List.mem_cons.mp (drop_repeats_subset cmp _ item member) with rfl | later
      · exact below
      · exact Std.TransCmp.lt_of_lt_of_isLE below ((List.pairwise_cons.mp tail).1 item later)
  | case3 rest short =>
      rw [dropRepeats]
      · match rest, short with
        | [], _ => exact List.Pairwise.nil
        | [_], _ => simp
        | _ :: _ :: _, short => exact absurd rfl (short _ _ _)
      · exact short

theorem length_drop_repeats_le (cmp : α → α → Ordering) (items : List α) :
    (dropRepeats cmp items).length ≤ items.length := by
  induction items using dropRepeats.induct cmp with
  | case1 first second rest same ih =>
      rw [dropRepeats, if_pos same]
      exact Nat.le_succ_of_le ih
  | case2 first second rest differ ih =>
      rw [dropRepeats, if_neg differ]
      exact Nat.succ_le_succ ih
  | case3 rest short =>
      have unchanged : dropRepeats cmp rest = rest := by
        rw [dropRepeats]
        exact short
      exact Nat.le_of_eq (congrArg List.length unchanged)

theorem length_of_list_le (cmp : α → α → Ordering) (items : List α) :
    (ofList cmp items).length ≤ items.length := by
  rw [ofList, ← List.length_mergeSort items]
  exact length_drop_repeats_le cmp _

theorem pairwise_sort (cmp : α → α → Ordering) [Std.TransCmp cmp] (items : List α) :
    (items.mergeSort fun first second => (cmp first second).isLE).Pairwise fun first second =>
      (cmp first second).isLE := by
  let le (first second : α) : Bool := (cmp first second).isLE
  have trans (first second third : α) (lower : le first second = true)
    (upper : le second third = true) :
      le first third = true := Std.TransCmp.isLE_trans lower upper
  have total (first second : α) : (le first second || le second first) = true := by
    have swapped : cmp second first = (cmp first second).swap := Std.OrientedCmp.eq_swap
    simp only [le, swapped]
    cases cmp first second <;> rfl
  exact List.pairwise_mergeSort trans total items

theorem pairwise_of_list (cmp : α → α → Ordering) [Std.TransCmp cmp] (items : List α) :
    (ofList cmp items).Pairwise fun first second => cmp first second = .lt :=
  pairwise_drop_repeats cmp _ (pairwise_sort cmp items)

end MorphLex.Ascending
