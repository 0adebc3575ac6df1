import MorphLex.Proofs.Transducer.Run

/-!
Growing a transducer at one state. New arcs leave that state or new states only,
and none enters a state below a bound. When the bound is the old size, the new
states are a branch that cannot be left: old walks stay what they were, and a walk
into the branch crosses over exactly once.
-/

namespace MorphLex.Transducer

/-- The larger transducer keeps all arcs and final weights. Further arcs leave
`source` or a new state, and enter states from `bound` on. -/
structure Extension (t larger : Transducer) (source : StateId) (bound : Nat) : Prop where
  size_le : t.size ≤ larger.size
  kept : ∀ (state : StateId) (arc : Arc), arc ∈ t.arcs state → arc ∈ larger.arcs state
  added : ∀ (state : StateId) (arc : Arc), arc ∈ larger.arcs state →
    arc ∈ t.arcs state ∨
    ((state = source ∨ t.size ≤ state) ∧ bound ≤ arc.target ∧ arc.target < larger.size)
  final : ∀ state, larger.final? state = t.final? state

namespace Extension

variable {t middle larger : Transducer} {source : StateId} {bound : Nat}

theorem refl (t : Transducer) (source : StateId) (bound : Nat) : Extension t t source bound where
  size_le := Nat.le_refl _
  kept _ _ leaves := leaves
  added _ _ leaves := .inl leaves
  final _ := rfl

theorem trans {entry : StateId} {later : Nat} (first : Extension t middle source bound)
    (second : Extension middle larger entry later) (fresh : entry = source ∨ t.size ≤ entry)
    (le : bound ≤ later) : Extension t larger source bound where
  size_le := Nat.le_trans first.size_le second.size_le
  kept state arc leaves := second.kept state arc (first.kept state arc leaves)
  final state := (second.final state).trans (first.final state)
  added state arc leaves := by
    rcases second.added state arc leaves with old | ⟨origin, above, inside⟩
    · rcases first.added state arc old with older | ⟨origin, above, inside⟩
      · exact .inl older
      · exact .inr ⟨origin, above, Nat.lt_of_lt_of_le inside second.size_le⟩
    · refine .inr ⟨?_, Nat.le_trans le above, inside⟩
      rcases origin with rfl | behind
      · exact fresh
      · exact .inr (Nat.le_trans first.size_le behind)

theorem weaken (grown : Extension t larger source bound) {smaller : Nat} (le : smaller ≤ bound) :
    Extension t larger source smaller :=
  (Extension.refl t source smaller).trans grown (.inl rfl) le

theorem well_formed (grown : Extension t larger source bound) (formed : t.WellFormed) :
    larger.WellFormed := by
  rw [well_formed_iff]
  refine ⟨Nat.lt_of_lt_of_le formed.1 grown.size_le, fun state arc leaves => ?_⟩
  rcases grown.added state arc leaves with old | ⟨_, _, inside⟩
  · exact Nat.lt_of_lt_of_le (formed.target_lt old) grown.size_le
  · exact inside

theorem of_add_state (t : Transducer) (source : StateId) (bound : Nat) :
    Extension t t.addState source bound where
  size_le := by simp
  kept state arc leaves := by rwa [arcs_add_state]
  added state arc leaves := by
    rw [arcs_add_state] at leaves
    exact .inl leaves
  final := final_add_state t

theorem of_add_arc (t : Transducer) (source : StateId) (arc : Arc) (inside : source < t.size)
    (above : bound ≤ arc.target) (target : arc.target < t.size) :
    Extension t (t.addArc source arc) source bound where
  size_le := by simp
  kept state other leaves := (mem_arcs_add_arc t source arc inside state other).mpr (.inl leaves)
  added state other leaves := by
    rcases (mem_arcs_add_arc t source arc inside state other).mp leaves with old | ⟨rfl, rfl⟩
    · exact .inl old
    · exact .inr ⟨.inl rfl, above, by simpa using target⟩
  final := final_add_arc t source arc

/-- An old state other than the source has no new arcs. -/
theorem arcs_old (grown : Extension t larger source bound) {state : StateId}
    (inside : state < t.size) (other : state ≠ source) (arc : Arc) :
    arc ∈ larger.arcs state ↔ arc ∈ t.arcs state := by
  constructor
  · intro leaves
    rcases grown.added state arc leaves with old | ⟨origin, _, _⟩
    · exact old
    · rcases origin with same | behind
      · exact absurd same other
      · exact absurd inside (Nat.not_lt.mpr behind)
  · exact grown.kept state arc

theorem ends_old (grown : Extension t larger source bound) {state : StateId}
    (inside : state < t.size) (other : state ≠ source) (ends : t.arcs state = #[]) :
    larger.arcs state = #[] := by
  rw [Array.eq_empty_iff_forall_not_mem] at ends ⊢
  intro arc leaves
  exact ends arc ((grown.arcs_old inside other arc).mp leaves)

section Fresh

variable (grown : Extension t larger source t.size)

include grown

theorem target_of_new {state : StateId} (new : t.size ≤ state) {arc : Arc}
    (leaves : arc ∈ larger.arcs state) :
    t.size ≤ arc.target := by
  rcases grown.added state arc leaves with old | ⟨_, above, _⟩
  · exact absurd (lt_size_of_mem_arcs old) (Nat.not_lt.mpr new)
  · exact above

/-- New states are never left. -/
theorem walk_of_new {state target : StateId} {trace : Trace} (new : t.size ≤ state)
    (walk : larger.Walk bound target state trace) :
    t.size ≤ target ∧ larger.Walk t.size target state trace := by
  induction walk with
  | stay => exact ⟨new, .stay⟩
  | step leaves _ _ ih =>
      have above := grown.target_of_new new leaves
      obtain ⟨inside, later⟩ := ih above
      exact ⟨inside, .step leaves above later⟩

theorem walk_old_iff {state target : StateId} {trace : Trace} (old : target < t.size) :
    larger.Walk bound target state trace ↔ t.Walk bound target state trace := by
  constructor
  · intro walk
    induction walk with
    | stay => exact .stay
    | step leaves above later ih =>
        rcases grown.added _ _ leaves with before | ⟨_, behind, _⟩
        · exact .step before above ih
        · have inside := (grown.walk_of_new behind later).1
          exact absurd old (Nat.not_lt.mpr inside)
  · exact Walk.transport grown.kept

/-- The last arc that leaves the old states leaves the source. -/
theorem walk_cross_iff (bounded : bound ≤ t.size) {state target : StateId} {trace : Trace}
    (old : state < t.size) (formed : t.WellFormed) (new : t.size ≤ target) :
    larger.Walk bound target state trace ↔ ∃ front back, t.Walk bound source state front ∧
      larger.Walk t.size target source back ∧ trace = front * back := by
  constructor
  · intro walk
    induction walk with
    | stay => exact absurd old (Nat.not_lt.mpr new)
    | step leaves above later ih =>
        rcases grown.added _ _ leaves with before | ⟨origin, behind, _⟩
        · obtain ⟨front, back, start, rest, rfl⟩ := ih (formed.target_lt before)
          exact ⟨_, back, .step before above start, rest, (mul_assoc _ _ _).symm⟩
        -- The first arc into the new states: from here on the walk stays among them.
        · have same := origin.resolve_right (Nat.not_le.mpr old)
          subst same
          exact ⟨1, _, .stay, .step leaves behind (grown.walk_of_new behind later).2,
            (one_mul _).symm⟩
  · rintro ⟨front, back, start, rest, rfl⟩
    exact (start.transport grown.kept).trans (rest.lower bounded)

end Fresh

end Extension

end MorphLex.Transducer
