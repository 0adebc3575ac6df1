import MorphLex.Proofs.Pattern.Construction
import MorphLex.Proofs.Transducer.EachArc

/-!
The arcs of a pattern. Each one is silent and without weight, or copies a character, and
none leads from a state to itself: an atom is entered at a state of its own and left at
another one, so that not even the arcs of its quantifier are loops.
-/

namespace MorphLex

open Transducer

namespace Transducer.EachArc

variable {property : StateId → Arc → Prop} {t : Transducer}

theorem add_choice (each : t.EachArc property) {source : StateId} (characters : List Char)
    (new : ∀ character ∈ characters,
      property source (Arc.identity (Symbol.ofChar character) t.size)) :
    (t.addChoice source characters).EachArc property := by
  apply add_choice_induction (motive := fun larger => larger.EachArc property)
  · exact each.add_state
  · intro larger before character listed
    exact before.add_arc (new character listed)

end Transducer.EachArc

namespace Pattern

/-- Arcs of these kinds have the property, unless they are loops. -/
structure Plain (property : StateId → Arc → Prop) : Prop where
  silent : ∀ source target, target ≠ source → property source (Arc.silent target 0.0)
  copy : ∀ (character : Char) source target, target ≠ source →
    property source (Arc.identity (Symbol.ofChar character) target)

variable {property : StateId → Arc → Prop}

theorem Quantifier.link_each {t : Transducer} (plain : Plain property) (each : t.EachArc property)
    {entry exit : StateId} (apart : exit ≠ entry) (quantifier : Quantifier) :
    (quantifier.link t entry exit).EachArc property := by
  have back := plain.silent exit entry apart.symm
  have forth := plain.silent entry exit apart
  cases quantifier with
  | once => exact each
  | oneOrMore => exact each.add_arc back
  | zeroOrMore => exact (each.add_arc back).add_arc forth
  | atMostOnce => exact each.add_arc forth

mutual

theorem Atom.build_each (plain : Plain property) (alphabet : CharSet) {t : Transducer}
    (formed : t.WellFormed) (each : t.EachArc property) {entry : StateId} (inside : entry < t.size)
    (atom : Atom) : (atom.build alphabet t entry).1.EachArc property := by
  cases atom with
  | literal character | oneOf cls =>
      exact each.add_choice _ fun character _ =>
        plain.copy character entry t.size (Nat.ne_of_gt inside)
  | nested group =>
      rw [Atom.build]
      exact group.build_each plain alphabet formed each inside

theorem Sequence.build_each (plain : Plain property) (alphabet : CharSet) {t : Transducer}
    (formed : t.WellFormed) (each : t.EachArc property) {source : StateId}
    (inside : source < t.size) (sequence : Sequence) :
    (sequence.build alphabet t source).1.EachArc property := by
  cases sequence with
  | empty => exact each
  | cons atom quantifier rest =>
      rw [Sequence.build]
      have entered := each.add_state.add_arc (plain.silent source t.size (Nat.ne_of_gt inside))
      have size : (t.addState.addSilent source t.size).size = t.size + 1 := by simp
      have within : t.size < (t.addState.addSilent source t.size).size := size ▸ Nat.lt_succ_self _
      have formedEntered := (Branch.of_silent formed inside).growth.well_formed formed
      have built := atom.build_stub alphabet _ t.size formedEntered within
      have turned := atom.build_each plain alphabet formedEntered entered within
      have linked :=
        Quantifier.link_branch quantifier formed inside built.branch (size ▸ built.new) built.ends
      have apart : (atom.build alphabet (t.addState.addSilent source t.size) t.size).2 ≠ t.size :=
        Nat.ne_of_gt (Nat.lt_of_lt_of_le within built.new)
      exact rest.build_each plain alphabet (linked.growth.well_formed formed)
        (quantifier.link_each plain turned apart) (linked.target_lt inside)

theorem Group.build_each (plain : Plain property) (alphabet : CharSet) {t : Transducer}
    (formed : t.WellFormed) (each : t.EachArc property) {source : StateId}
    (inside : source < t.size) (group : Group) :
    (group.build alphabet t source).1.EachArc property := by
  cases group with
  | only sequence =>
      rw [Group.build]
      have lastInside := (sequence.build_branch alphabet t source formed inside).target_lt inside
      have built := sequence.build_each plain alphabet formed each inside
      exact built.add_state.add_arc (plain.silent _ _ (Nat.ne_of_gt lastInside))
  | either sequence others =>
      rw [Group.build]
      have branch := sequence.build_branch alphabet t source formed inside
      have first := Stub.of_sequence formed inside branch
      have lastInside := branch.target_lt inside
      have built := sequence.build_each plain alphabet formed each inside
      exact others.build_into_each plain alphabet (first.branch.growth.well_formed formed)
        (built.add_state.add_arc (plain.silent _ _ (Nat.ne_of_gt lastInside)))
        (Nat.lt_of_lt_of_le inside first.branch.growth.size_le) (first.branch.target_lt inside)
        (Nat.ne_of_gt (Nat.lt_of_lt_of_le inside first.new))

theorem Group.build_into_each (plain : Plain property) (alphabet : CharSet) {t : Transducer}
    (formed : t.WellFormed) (each : t.EachArc property) {source target : StateId}
    (inside : source < t.size) (targetInside : target < t.size) (apart : target ≠ source)
    (group : Group) : (group.buildInto alphabet t source target).EachArc property := by
  cases group with
  | only sequence =>
      rw [Group.buildInto]
      have branch := sequence.build_branch alphabet t source formed inside
      have built := sequence.build_each plain alphabet formed each inside
      exact built.add_arc (plain.silent _ _ (branch.ne_target targetInside apart))
  | either sequence others =>
      rw [Group.buildInto]
      have branch := sequence.build_branch alphabet t source formed inside
      have built := sequence.build_each plain alphabet formed each inside
      have added := built.add_arc (plain.silent _ _ (branch.ne_target targetInside apart))
      have grownTarget := Nat.lt_of_lt_of_le targetInside branch.growth.size_le
      have grown :=
        (Extension.of_add_silent _ (branch.target_lt inside) (Nat.zero_le _)
          grownTarget).well_formed
        (branch.growth.well_formed formed)
      refine others.build_into_each plain alphabet grown added ?_ ?_ apart
      · rw [size_add_silent]
        exact Nat.lt_of_lt_of_le inside branch.growth.size_le
      · rw [size_add_silent]
        exact grownTarget

end

theorem Group.transducer_each (plain : Plain property) (alphabet : CharSet) (group : Group) :
    (group.transducer alphabet).EachArc property :=
  (group.build_each plain alphabet well_formed_initial .initial (by decide)).set_final _ _

theorem Group.final_transducer (alphabet : CharSet) (group : Group) {state : StateId}
    {weight : Weight} (ends : (group.transducer alphabet).final? state = some weight) :
    weight = 0.0 := by
  have branch := (group.build_stub alphabet .initial 0 well_formed_initial (by decide)).branch
  have inside := branch.target_lt (by decide)
  rw [Group.transducer, final_set_final _ _ _ inside] at ends
  split at ends
  · exact (Option.some.inj ends).symm
  · rw [branch.growth.final, final_initial] at ends
    exact nomatch ends

end Pattern

end MorphLex
