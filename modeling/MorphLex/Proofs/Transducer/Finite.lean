import MorphLex.Proofs.Transducer.EachArc
import MorphLex.Proofs.Transducer.Merge

/-!
Transducers whose weights are all finite. Trimming and merging keep them finite: they
give no state or arc a weight that was not there before, up to the sign of a zero.
-/

namespace MorphLex

theorem Weight.finite_zero : (0.0 : Weight).isFinite = true := by decide

theorem Weight.finite_plain {weight : Weight} (finite : weight.isFinite = true) :
    weight.plain.isFinite = true := by
  rw [plain]
  split
  · exact finite_zero
  · exact finite

namespace Transducer

/-- Every arc and every final state has a finite weight. -/
structure FiniteWeights (t : Transducer) : Prop where
  arcs : ∀ state, ∀ arc ∈ t.arcs state, arc.weight.isFinite = true
  final : ∀ state weight, t.final? state = some weight → weight.isFinite = true

namespace FiniteWeights

variable {t : Transducer}

theorem initial : FiniteWeights .initial where
  arcs := EachArc.initial
  final state weight ends := by simp at ends

/-- Around a copy lie arcs of its final weights, and one of no weight. -/
theorem portable (finite : t.FiniteWeights) :
    t.Portable fun _ arc => arc.weight.isFinite = true where
  enters _ _ _ := Weight.finite_zero
  copies _ state arc leaves := finite.arcs state arc leaves
  leaves state weight ends _ _ _ := finite.final state weight ends

theorem trim (finite : t.FiniteWeights) : t.trim.FiniteWeights where
  arcs number arc leaves := by
    obtain ⟨state, kept⟩ := exists_kept_of_lt (lt_size_of_mem_arcs leaves)
    obtain ⟨_, original, before, _, _, rfl⟩ := (kept.mem_arcs_iff arc).mp leaves
    exact finite.arcs state original before
  final number weight ends := by
    obtain ⟨state, kept⟩ := exists_kept_of_lt (lt_size_of_final ends)
    exact finite.final state weight (kept.final.symm.trans ends)

theorem quotient (finite : t.FiniteWeights) {blocks : Partition} (numbered : t.Numbered blocks) :
    (t.quotient blocks).FiniteWeights where
  arcs block arc leaves := by
    have below := (lt_size_of_mem_arcs leaves).trans_eq (size_quotient numbered)
    obtain ⟨first, _, _, _, arcs⟩ := exists_representative numbered below
    obtain ⟨original, before, _, rfl⟩ := (arcs arc).mp leaves
    exact Weight.finite_plain (finite.arcs first original before)
  final block weight ends := by
    have below := (lt_size_of_final ends).trans_eq (size_quotient numbered)
    obtain ⟨first, _, _, final, _⟩ := exists_representative numbered below
    exact finite.final first weight (final.symm.trans ends)

theorem minimize (finite : t.FiniteWeights) (formed : t.WellFormed) : t.minimize.FiniteWeights :=
  finite.trim.quotient (stable_minimize (well_formed_trim formed)).numbered

end FiniteWeights

end Transducer

end MorphLex
