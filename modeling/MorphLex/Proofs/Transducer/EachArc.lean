import MorphLex.Proofs.Transducer.Splice

/-!
Properties of all arcs. A property of arcs, which may depend on the state that an arc
leaves, is kept by every operation that adds states and arcs as soon as the new arcs have
it. What is copied has to have it under whatever numbers its states get.
-/

namespace MorphLex.Transducer

/-- A number that is no state gets no arc, and no final weight. -/
theorem modify_outside {t : Transducer} {source : StateId} (outside : ¬source < t.size)
    (change : State → State) : (⟨t.states.modify source change⟩ : Transducer) = t := by
  have beyond : ¬source < t.states.size := outside
  rw [Array.modify, Array.modifyM, dif_neg beyond]
  rfl

/-- Every arc has the property, at the state that it leaves. -/
def EachArc (property : StateId → Arc → Prop) (t : Transducer) : Prop :=
  ∀ state, ∀ arc ∈ t.arcs state, property state arc

/-- Wherever a copy is spliced in, all arcs of the copy and around it have the property. -/
structure Portable (property : StateId → Arc → Prop) (t : Transducer) : Prop where
  enters : ∀ source target, target ≠ source → property source (Arc.silent target 0.0)
  copies : ∀ offset state, ∀ arc ∈ t.arcs state,
    property (state + offset) { arc with target := arc.target + offset }
  leaves : ∀ state weight, t.final? state = some weight →
    ∀ source target, target ≠ source → property source (Arc.silent target weight)

namespace EachArc

variable {property : StateId → Arc → Prop} {t other : Transducer}

theorem initial : EachArc property .initial := by
  intro state arc leaves
  simp at leaves

theorem add_state (each : t.EachArc property) : t.addState.EachArc property := by
  intro state arc leaves
  rw [arcs_add_state] at leaves
  exact each state arc leaves

theorem add_arc (each : t.EachArc property) {source : StateId} {arc : Arc}
    (new : property source arc) : (t.addArc source arc).EachArc property := by
  by_cases inside : source < t.size
  · intro state other leaves
    rcases (mem_arcs_add_arc t source arc inside state other).mp leaves with old | ⟨rfl, rfl⟩
    · exact each state other old
    · exact new
  · rw [addArc, modify_outside inside]
    exact each

theorem set_final (each : t.EachArc property) (last : StateId) (weight : Weight) :
    (t.setFinal last weight).EachArc property := by
  intro state arc leaves
  rw [arcs_set_final] at leaves
  exact each state arc leaves

theorem append_copy (each : t.EachArc property) (portable : other.Portable property) :
    (t.appendCopy other).EachArc property := by
  intro state arc leaves
  rcases (mem_arcs_append_copy t other state arc).mp leaves with
      old | ⟨inner, rfl, original, before, rfl⟩
  · exact each state arc old
  · exact portable.copies t.size inner original before

theorem join_finals (each : t.EachArc property) (target offset : StateId)
    {finals : List (StateId × Weight)}
    (new : ∀ final ∈ finals, property (final.1 + offset) (Arc.silent target final.2)) :
    (joinFinals target offset t finals).EachArc property := by
  induction finals generalizing t with
  | nil => exact each
  | cons final finals ih =>
      rw [List.forall_mem_cons] at new
      exact ih (each.add_arc new.1) new.2

/-- The end of the copy is an old state, and the copy lies behind all of them. -/
theorem splice (each : t.EachArc property) (portable : other.Portable property)
    {source target : StateId} (entered : source < t.size) (left : target < t.size) :
    (t.splice source target other).EachArc property := by
  have entering := portable.enters source t.size (Nat.ne_of_gt entered)
  apply join_finals ((each.append_copy portable).add_arc entering)
  intro final member
  have behind : target < final.1 + t.size := Nat.lt_of_lt_of_le left (Nat.le_add_left _ _)
  have ends := (mem_finals_iff other final.1 final.2).mp member
  exact portable.leaves final.1 final.2 ends _ _ (Nat.ne_of_lt behind)

end EachArc

end MorphLex.Transducer
