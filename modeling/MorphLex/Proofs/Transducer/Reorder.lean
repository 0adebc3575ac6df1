import Mathlib.Data.List.Perm.Basic
import MorphLex.Proofs.Transducer.Trim

/-!
Transducers that differ in the order of their arcs, and in what a view of the weights
does not show, or in how often an arc is repeated. Which states are useful depends on
none of this, so trimming keeps both likenesses.
-/

namespace MorphLex

variable {Value : Type} {view : Weight → Value}

/-- An arc with its weight as the view shows it. -/
def Arc.seen (view : Weight → Value) (arc : Arc) : Symbol × Symbol × StateId × Value :=
  (arc.input, arc.output, arc.target, view arc.weight)

namespace Transducer

open Reach

/-- The same states are final, and arcs lead from the same states to the same states. -/
structure SameShape (t u : Transducer) : Prop where
  size : t.size = u.size
  ends : ∀ state, t.isFinal state = u.isFinal state
  leads : ∀ state target, (∃ arc ∈ t.arcs state, arc.target = target) ↔
    ∃ arc ∈ u.arcs state, arc.target = target

variable {t u : Transducer}

namespace SameShape

theorem symm (alike : SameShape t u) : SameShape u t where
  size := alike.size.symm
  ends state := (alike.ends state).symm
  leads state target := (alike.leads state target).symm

theorem accessible_of (alike : SameShape t u) {state : StateId}
    (reached : t.accessible.getD state false = true) : u.accessible.getD state false = true := by
  have met := (marked_closure_iff _ _ _ state).mp reached
  rw [alike.size] at met
  refine (marked_closure_iff _ _ _ state).mpr
    (met.mono (fun node _ successor arrow => ?_) fun _ listed => listed)
  obtain ⟨arc, leaves, enters⟩ := List.mem_map.mp arrow
  obtain ⟨other, departs, same⟩ :=
    (alike.leads node successor).mp ⟨arc, Array.mem_toList_iff.mp leaves, enters⟩
  exact List.mem_map.mpr ⟨other, Array.mem_toList_iff.mpr departs, same⟩

theorem coaccessible_of (alike : SameShape t u) {state : StateId}
    (ahead : t.coaccessible.getD state false = true) : u.coaccessible.getD state false = true := by
  have met := (marked_closure_iff _ _ _ state).mp ahead
  rw [alike.size] at met
  refine (marked_closure_iff _ _ _ state).mpr
    (met.mono (fun node inside source arrow => ?_) fun seed listed => ?_)
  · have enters := (mem_predecessors_iff t (alike.size ▸ inside) source).mp arrow
    exact (mem_predecessors_iff u inside source).mpr ((alike.leads source node).mp enters)
  · obtain ⟨⟨final, weight⟩, ends, rfl⟩ := List.mem_map.mp listed
    have stays := alike.ends final
    rw [isFinal, (mem_finals_iff t final weight).mp ends, isFinal] at stays
    obtain ⟨other, same⟩ := Option.isSome_iff_exists.mp stays.symm
    exact List.mem_map.mpr ⟨(final, other), (mem_finals_iff u final other).mpr same, rfl⟩

theorem accessible (alike : SameShape t u) (state : StateId) :
    t.accessible.getD state false = u.accessible.getD state false :=
  Bool.eq_iff_iff.mpr ⟨alike.accessible_of, alike.symm.accessible_of⟩

theorem coaccessible (alike : SameShape t u) (state : StateId) :
    t.coaccessible.getD state false = u.coaccessible.getD state false :=
  Bool.eq_iff_iff.mpr ⟨alike.coaccessible_of, alike.symm.coaccessible_of⟩

theorem useful (alike : SameShape t u) : t.useful = u.useful := by
  rw [Transducer.useful, Transducer.useful, alike.size]
  apply List.map_congr_left
  intro state _
  rw [alike.accessible, alike.coaccessible]

end SameShape

/-- The states have the same final weights and, in some order, the same arcs, as far as the
view of the weights shows. -/
structure Rearranged (view : Weight → Value) (t u : Transducer) : Prop where
  size : t.size = u.size
  final : ∀ state, (t.final? state).map view = (u.final? state).map view
  arcs : ∀ state,
    ((t.arcs state).toList.map (Arc.seen view)).Perm ((u.arcs state).toList.map (Arc.seen view))

namespace Rearranged

theorem symm (alike : Rearranged view t u) : Rearranged view u t where
  size := alike.size.symm
  final state := (alike.final state).symm
  arcs state := (alike.arcs state).symm

theorem exists_arc (alike : Rearranged view t u) {state : StateId} {arc : Arc}
    (leaves : arc ∈ t.arcs state) : ∃ other ∈ u.arcs state, other.seen view = arc.seen view := by
  have listed := List.mem_map_of_mem (f := Arc.seen view) (Array.mem_toList_iff.mpr leaves)
  obtain ⟨other, departs, same⟩ := List.mem_map.mp ((alike.arcs state).mem_iff.mp listed)
  exact ⟨other, Array.mem_toList_iff.mp departs, same⟩

theorem is_final (alike : Rearranged view t u) (state : StateId) :
    t.isFinal state = u.isFinal state := by
  rw [isFinal, isFinal, ← Option.isSome_map (f := view), alike.final state, Option.isSome_map]

theorem leads_of (alike : Rearranged view t u) {state target : StateId}
    (leads : ∃ arc ∈ t.arcs state, arc.target = target) :
    ∃ arc ∈ u.arcs state, arc.target = target := by
  obtain ⟨arc, leaves, enters⟩ := leads
  obtain ⟨other, departs, same⟩ := alike.exists_arc leaves
  have target : other.target = arc.target := congrArg (fun seen => seen.2.2.1) same
  exact ⟨other, departs, target.trans enters⟩

theorem same_shape (alike : Rearranged view t u) : SameShape t u where
  size := alike.size
  ends := alike.is_final
  leads _ _ := ⟨alike.leads_of, alike.symm.leads_of⟩

/-- The arcs of a kept state, with the numbers of their targets. -/
theorem arcs_trim {state number : StateId} (kept : t.Kept state number) :
    (t.trim.arcs number).toList.map (Arc.seen view) =
      if t.coaccessible.getD state false = true then
        ((t.arcs state).toList.map (Arc.seen view)).filterMap fun seen =>
          ((renumberFrom 0 t.useful).toArray.getD seen.2.2.1 none).map fun target =>
            (seen.1, seen.2.1, target, seen.2.2.2)
      else [] := by
  rw [arcs_eq, (states_trim t).2 state number kept, arcs_eq, Array.getElem?_eq_getElem kept.lt_size,
    Option.map_some, Option.getD_some, Option.getD_some, trimState]
  split
  · rw [Array.toList_filterMap, List.map_filterMap, List.filterMap_map]
    apply List.filterMap_congr
    intro arc _
    simp [Arc.seen, Function.comp_def]
  · rfl

protected theorem trim (alike : Rearranged view t u) : Rearranged view t.trim u.trim := by
  have size : t.trim.size = u.trim.size := by
    rw [(states_trim t).1, (states_trim u).1, alike.same_shape.useful]
  have same {state number : StateId} (kept : t.Kept state number) : u.Kept state number := by
    rwa [Kept, alike.same_shape.useful] at kept
  refine ⟨size, fun number => ?_, fun number => ?_⟩
  · by_cases inside : number < t.trim.size
    · obtain ⟨state, kept⟩ := exists_kept_of_lt inside
      rw [kept.final, (same kept).final, alike.final]
    · have outside := Nat.le_of_not_lt inside
      rw [final_of_size_le _ _ outside, final_of_size_le _ _ (size ▸ outside)]
  · by_cases inside : number < t.trim.size
    · obtain ⟨state, kept⟩ := exists_kept_of_lt inside
      rw [arcs_trim kept, arcs_trim (same kept), alike.same_shape.coaccessible,
        alike.same_shape.useful]
      split
      · exact (alike.arcs state).filterMap _
      · exact .refl _
    · have outside := Nat.le_of_not_lt inside
      rw [arcs_of_size_le _ _ outside, arcs_of_size_le _ _ (size ▸ outside)]

end Rearranged

/-- The states have the same final weights and the same arcs, in any order and each any number
of times. -/
structure Repeats (t u : Transducer) : Prop where
  size : t.size = u.size
  final : ∀ state, t.final? state = u.final? state
  arcs : ∀ state arc, arc ∈ t.arcs state ↔ arc ∈ u.arcs state

namespace Repeats

theorem same_shape (alike : Repeats t u) : SameShape t u where
  size := alike.size
  ends state := by rw [isFinal, isFinal, alike.final state]
  leads state target := by simp only [alike.arcs state]

protected theorem trim (alike : Repeats t u) : Repeats t.trim u.trim := by
  have useful := alike.same_shape.useful
  have size : t.trim.size = u.trim.size := by rw [(states_trim t).1, (states_trim u).1, useful]
  have same (state number : StateId) : t.Kept state number ↔ u.Kept state number := by
    rw [Kept, Kept, useful]
  refine ⟨size, fun number => ?_, fun number arc => ?_⟩
  · by_cases inside : number < t.trim.size
    · obtain ⟨state, kept⟩ := exists_kept_of_lt inside
      rw [kept.final, ((same state number).mp kept).final, alike.final]
    · have outside := Nat.le_of_not_lt inside
      rw [final_of_size_le _ _ outside, final_of_size_le _ _ (size ▸ outside)]
  · by_cases inside : number < t.trim.size
    · obtain ⟨state, kept⟩ := exists_kept_of_lt inside
      rw [kept.mem_arcs_iff, ((same state number).mp kept).mem_arcs_iff,
        alike.same_shape.coaccessible]
      simp only [alike.arcs, same]
    · have outside := Nat.le_of_not_lt inside
      rw [arcs_of_size_le _ _ outside, arcs_of_size_le _ _ (size ▸ outside)]

end Repeats

end Transducer

end MorphLex
