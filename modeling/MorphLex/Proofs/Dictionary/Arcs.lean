import MorphLex.Proofs.Dictionary.Path
import MorphLex.Proofs.Transducer.EachArc

/-!
The arcs of an entry. They stand for its pairs, or belong to copies; a loop is added only
for a repeating pair of a separable dictionary.
-/

namespace MorphLex.Dictionary

open Transducer

variable {property : StateId → Arc → Prop} {t : Transducer} {source : StateId}

/-- Arcs that are added for the part have the property. A pair of two epsilons adds none. -/
def Part.Fits (mode : Mode) (property : StateId → Arc → Prop) : Part → Prop
  | .pairs labels =>
      ∀ label ∈ labels, (label.1.isEpsilon && label.2.isEpsilon) = false → ∀ source target,
      (target = source → mode = .separable ∧ (repeats label.1 && repeats label.2) = true) →
        property source { input := label.1, output := label.2, target, weight := 0.0 }
  | .inner transducer => transducer.Portable property

theorem each_with_position (each : t.EachArc property) {arc : Arc} {loops : Bool}
    (new : property source arc) (loop : loops = true → property t.size arc) :
    (t.withPosition source arc loops).EachArc property := by
  have entered := each.add_state.add_arc new
  unfold withPosition
  split
  · next looping => exact entered.add_arc (loop looping)
  · exact entered

theorem Part.add_pairs_each {mode : Mode} (labels : List (Symbol × Symbol))
    (fits : (Part.pairs labels).Fits mode property) (each : t.EachArc property)
    (inside : source < t.size) : (addPairs mode t source labels).1.EachArc property := by
  induction labels generalizing t source with
  | nil => exact each
  | cons label rest ih =>
      obtain ⟨input, output⟩ := label
      obtain ⟨first, others⟩ := List.forall_mem_cons.mp fits
      by_cases absent : (input.isEpsilon && output.isEpsilon) = true
      · rw [addPairs, if_pos absent]
        exact ih others each inside
      · rw [add_pairs_cons mode t source absent]
        have arc := first (Bool.not_eq_true _ ▸ absent)
        have within (arc : Arc) (loops : Bool) :
            t.size < (t.withPosition source arc loops).size := by
          rw [size_with_position]
          exact Nat.lt_succ_self _
        refine ih others (each_with_position each ?_ fun loops => ?_) (within _ _)
        · exact arc source t.size fun same => absurd same (Nat.ne_of_gt inside)
        · have repeating : mode = .separable ∧ (repeats input && repeats output) = true := by
            simpa [and_assoc] using loops
          exact arc t.size t.size fun _ => repeating

theorem Part.add_to_each {mode : Mode} (part : Part) (fits : part.Fits mode property)
    (each : t.EachArc property) (inside : source < t.size) :
    (part.addTo mode t source).1.EachArc property := by
  cases part with
  | pairs labels => exact add_pairs_each labels fits each inside
  | inner transducer =>
      have within : t.size < t.addState.size := by simp
      exact each.add_state.splice fits (Nat.lt_trans inside within) within

theorem Entry.add_parts_each {mode : Mode} (parts : List Part) (sound : ∀ part ∈ parts, part.Sound)
    (fits : ∀ part ∈ parts, part.Fits mode property) (formed : t.WellFormed)
    (each : t.EachArc property) (inside : source < t.size) :
    (addParts mode t source parts).1.EachArc property := by
  induction parts generalizing t source with
  | nil => exact each
  | cons part rest ih =>
      rw [List.forall_mem_cons] at sound fits
      have branch := part.add_to_branch mode sound.1 formed inside
      rw [addParts]
      exact ih sound.2 fits.2 (branch.growth.well_formed formed)
        (part.add_to_each fits.1 each inside)
        (branch.target_lt inside)

theorem Entry.add_to_each {mode : Mode} (entry : Entry) (sound : ∀ part ∈ entry.parts, part.Sound)
    (fits : ∀ part ∈ entry.parts, part.Fits mode property) (formed : t.WellFormed)
    (each : t.EachArc property) : (entry.addTo mode t).EachArc property :=
  (add_parts_each entry.parts sound fits formed each formed.1).set_final _ _

/-- Only the last state of an entry gets a final weight, the weight of the entry. -/
theorem Entry.final_add_to (mode : Mode) (entry : Entry) (sound : ∀ part ∈ entry.parts, part.Sound)
    (formed : t.WellFormed) {state : StateId} {weight : Weight}
    (ends : (entry.addTo mode t).final? state = some weight) :
    t.final? state = some weight ∨ weight = entry.weight := by
  have branch := add_parts_branch mode entry.parts sound formed formed.1
  rw [addTo, final_set_final _ _ _ (branch.target_lt formed.1)] at ends
  split at ends
  · exact .inr (Option.some.inj ends).symm
  · rw [branch.growth.final] at ends
    exact .inl ends

end MorphLex.Dictionary
