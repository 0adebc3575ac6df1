import MorphLex.Transducer.Basic

/-!
Growing a transducer behind what there is. A state keeps its arcs in their order, and every
arc that is added is known by where it begins and ends, also one that was there before.
-/

namespace MorphLex.Transducer

/-- Each state keeps its arcs in front of those that are added. These leave `source` or a
new state and enter states from `bound` on. -/
structure Appends (t larger : Transducer) (source : StateId) (bound : Nat) : Prop where
  size_le : t.size ≤ larger.size
  arcs : ∀ state, ∃ added : List Arc, (larger.arcs state).toList = (t.arcs state).toList ++ added ∧
    ∀ arc ∈ added, (state = source ∨ t.size ≤ state) ∧ bound ≤ arc.target ∧ arc.target < larger.size
  final : ∀ state, larger.final? state = t.final? state

namespace Appends

variable {t middle larger : Transducer} {source entry : StateId} {bound : Nat}

theorem refl (t : Transducer) (source : StateId) (bound : Nat) : Appends t t source bound where
  size_le := Nat.le_refl _
  arcs _ := ⟨[], (List.append_nil _).symm, fun _ listed => nomatch listed⟩
  final _ := rfl

/-- Growth at the source, or at a state that was not there before. -/
theorem trans {later : Nat} (first : Appends t middle source bound)
    (second : Appends middle larger entry later) (fresh : entry = source ∨ t.size ≤ entry)
    (le : bound ≤ later) : Appends t larger source bound where
  size_le := Nat.le_trans first.size_le second.size_le
  final state := (second.final state).trans (first.final state)
  arcs state := by
    obtain ⟨added, same, leads⟩ := first.arcs state
    obtain ⟨more, sameLater, leadsLater⟩ := second.arcs state
    refine ⟨added ++ more, by rw [sameLater, same, List.append_assoc], fun arc listed => ?_⟩
    rcases List.mem_append.mp listed with before | after
    · obtain ⟨origin, above, inside⟩ := leads arc before
      exact ⟨origin, above, Nat.lt_of_lt_of_le inside second.size_le⟩
    · obtain ⟨origin, above, inside⟩ := leadsLater arc after
      refine ⟨?_, Nat.le_trans le above, inside⟩
      rcases origin with rfl | behind
      · exact fresh
      · exact .inr (Nat.le_trans first.size_le behind)

theorem weaken (grown : Appends t larger source bound) {smaller : Nat} (le : smaller ≤ bound) :
    Appends t larger source smaller :=
  (Appends.refl t source smaller).trans grown (.inl rfl) le

theorem add_state (grown : Appends t middle source bound) :
    Appends t middle.addState source bound where
  size_le := by
    rw [size_add_state]
    exact Nat.le_succ_of_le grown.size_le
  final state := by rw [final_add_state, grown.final]
  arcs state := by
    obtain ⟨added, same, leads⟩ := grown.arcs state
    refine ⟨added, by rw [arcs_add_state, same], fun arc listed => ?_⟩
    obtain ⟨origin, above, inside⟩ := leads arc listed
    rw [size_add_state]
    exact ⟨origin, above, Nat.lt_succ_of_lt inside⟩

/-- One more arc, from the source or from a new state. -/
theorem add_arc (grown : Appends t middle source bound) {state : StateId} {arc : Arc}
    (origin : state = source ∨ t.size ≤ state) (present : state < middle.size)
    (above : bound ≤ arc.target) (inside : arc.target < middle.size) :
    Appends t (middle.addArc state arc) source bound where
  size_le := by
    rw [size_add_arc]
    exact grown.size_le
  final other := by rw [final_add_arc, grown.final]
  arcs other := by
    obtain ⟨added, same, leads⟩ := grown.arcs other
    rw [size_add_arc, arcs_add_arc middle state arc present]
    by_cases here : other = state
    · refine ⟨added ++ [arc], ?_, fun listed member => ?_⟩
      · rw [if_pos here, Array.toList_push, same, List.append_assoc]
      · rcases List.mem_append.mp member with before | last
        · exact leads listed before
        · obtain rfl := List.mem_singleton.mp last
          exact ⟨here ▸ origin, above, inside⟩
    · exact ⟨added, by rw [if_neg here, same], leads⟩

/-- An old state other than the source has the arcs that it had. -/
theorem arcs_old (grown : Appends t larger source bound) {state : StateId} (inside : state < t.size)
    (other : state ≠ source) : larger.arcs state = t.arcs state := by
  obtain ⟨added, same, leads⟩ := grown.arcs state
  have none : added = [] := by
    apply List.eq_nil_iff_forall_not_mem.mpr
    intro arc listed
    rcases (leads arc listed).1 with atSource | behind
    · exact other atSource
    · exact absurd inside (Nat.not_lt.mpr behind)
  rw [none, List.append_nil] at same
  exact Array.toList_inj.mp same

end Appends

end MorphLex.Transducer
