import Mathlib.Data.List.Infix
import MorphLex.Proofs.Transducer.EachArc

/-!
Transducers that only grow. Old states keep their numbers and their arcs in their order;
further arcs come behind them. With one state as the exception, no old state gets an arc
or changes its final weight.
-/

namespace MorphLex.Transducer

/-- The larger transducer has the old states, and only `source` may have got further arcs,
behind its old ones, or another final weight. -/
structure Prolongs (t larger : Transducer) (source : StateId) : Prop where
  size_le : t.size ≤ larger.size
  arcs : ∀ state < t.size, (t.arcs state).toList <+: (larger.arcs state).toList
  same : ∀ state < t.size, state ≠ source →
    larger.arcs state = t.arcs state ∧ larger.final? state = t.final? state

namespace Prolongs

variable {t middle larger : Transducer} {source entry : StateId}

theorem refl (t : Transducer) (source : StateId) : Prolongs t t source where
  size_le := Nat.le_refl _
  arcs _ _ := List.prefix_refl _
  same _ _ _ := ⟨rfl, rfl⟩

/-- Growth at the source, or at a state that was not there before. -/
theorem trans (first : Prolongs t middle source) (second : Prolongs middle larger entry)
    (fresh : entry = source ∨ t.size ≤ entry) : Prolongs t larger source where
  size_le := Nat.le_trans first.size_le second.size_le
  arcs state inside :=
    (first.arcs state inside).trans (second.arcs state (Nat.lt_of_lt_of_le inside first.size_le))
  same state inside other := by
    have apart : state ≠ entry := by
      rcases fresh with rfl | behind
      · exact other
      · exact Nat.ne_of_lt (Nat.lt_of_lt_of_le inside behind)
    obtain ⟨arcs, final⟩ := first.same state inside other
    obtain ⟨arcsLater, finalLater⟩ :=
      second.same state (Nat.lt_of_lt_of_le inside first.size_le) apart
    exact ⟨arcsLater.trans arcs, finalLater.trans final⟩

theorem add_state (t : Transducer) (source : StateId) : Prolongs t t.addState source where
  size_le := by simp
  arcs state _ := by rw [arcs_add_state]
  same state _ _ := ⟨arcs_add_state t state, final_add_state t state⟩

theorem add_arc (t : Transducer) (source : StateId) (arc : Arc) :
    Prolongs t (t.addArc source arc) source := by
  by_cases inside : source < t.size
  · refine ⟨by simp, fun state _ => ?_, fun state _ other => ⟨?_, final_add_arc t source arc state⟩⟩
    · rw [arcs_add_arc t source arc inside]
      split
      · rw [Array.toList_push]
        exact List.prefix_append _ _
      · exact List.prefix_refl _
    · rw [arcs_add_arc t source arc inside, if_neg other]
  · rw [addArc, modify_outside inside]
    exact refl t source

theorem set_final (t : Transducer) (source : StateId) (weight : Weight) :
    Prolongs t (t.setFinal source weight) source := by
  by_cases inside : source < t.size
  · refine ⟨by simp, fun state _ => ?_, fun state _ other => ⟨arcs_set_final t source weight state,
      ?_⟩⟩
    · rw [arcs_set_final]
    · rw [final_set_final t source weight inside, if_neg other]
  · rw [setFinal, modify_outside inside]
    exact refl t source

theorem append_copy (t other : Transducer) (source : StateId) :
    Prolongs t (t.appendCopy other) source where
  size_le := by simp
  arcs state inside := by rw [arcs_append_copy_old t other inside]
  same state inside _ := ⟨arcs_append_copy_old t other inside, final_append_copy t other state⟩

/-- The states of a copy are new, and the arcs to its end leave them. -/
theorem join_finals (target : StateId) (finals : List (StateId × Weight))
    (prolonged : Prolongs t middle source) :
    Prolongs t (joinFinals target t.size middle finals) source := by
  induction finals generalizing middle with
  | nil => exact prolonged
  | cons final rest ih =>
      exact ih (prolonged.trans (add_arc middle (final.1 + t.size) _) (.inr (Nat.le_add_left _ _)))

theorem splice (t : Transducer) (source target : StateId) (other : Transducer) :
    Prolongs t (t.splice source target other) source := by
  apply join_finals
  exact (append_copy t other source).trans (add_arc _ source _) (.inl rfl)

end Prolongs

end MorphLex.Transducer
