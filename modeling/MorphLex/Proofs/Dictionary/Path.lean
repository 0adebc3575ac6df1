import Mathlib.Algebra.GroupWithZero.Nat
import MorphLex.Proofs.Dictionary.Meaning
import MorphLex.Proofs.Transducer.Splice

/-!
The path of an entry. Every part is a branch from where the part before it ends,
and its states are new, so the loops and copies of one part open no way into
another. An entry that adds no state at all makes the start final.
-/

open scoped Pointwise

namespace MorphLex

namespace Transducer

section Position

variable {t : Transducer} {source : StateId}

/-- A new state behind an arc, with the same arc as a loop where it may repeat. -/
def withPosition (t : Transducer) (source : StateId) (arc : Arc) (loops : Bool) : Transducer :=
  if loops then (t.addState.addArc source arc).addArc t.size arc else t.addState.addArc source arc

theorem size_with_position (t : Transducer) (source : StateId) (arc : Arc) (loops : Bool) :
    (t.withPosition source arc loops).size = t.size + 1 := by
  unfold withPosition
  split <;> simp

theorem mem_arcs_with_position (inside : source < t.size) (arc : Arc) (loops : Bool)
    (state : StateId) (other : Arc) :
    other ∈ (t.withPosition source arc loops).arcs state ↔ other ∈ t.arcs state ∨
      (state = source ∧ other = arc) ∨ (loops = true ∧ state = t.size ∧ other = arc) := by
  have within : source < t.addState.size := by
    rw [size_add_state]
    exact Nat.lt_succ_of_lt inside
  have newInside : t.size < (t.addState.addArc source arc).size := by
    rw [size_add_arc, size_add_state]
    exact Nat.lt_succ_self _
  unfold withPosition
  split
  · next looping =>
    rw [mem_arcs_add_arc _ _ _ newInside, mem_arcs_add_arc _ _ _ within, arcs_add_state, or_assoc]
    simp [looping]
  · next straight =>
    rw [mem_arcs_add_arc _ _ _ within, arcs_add_state]
    simp [straight]

theorem Extension.of_position (inside : source < t.size) {arc : Arc} (target : arc.target = t.size)
    (loops : Bool) :
    Extension t (t.withPosition source arc loops) source t.size where
  size_le := by
    rw [size_with_position]
    exact Nat.le_succ _
  kept state other leaves := (mem_arcs_with_position inside arc loops state other).mpr (.inl leaves)
  final state := by
    unfold withPosition
    split <;> simp
  added state other leaves := by
    have below : arc.target < (t.withPosition source arc loops).size := by
      rw [target, size_with_position]
      exact Nat.lt_succ_self _
    rcases (mem_arcs_with_position inside arc loops state other).mp leaves with
      old | ⟨rfl, rfl⟩ | ⟨_, rfl, rfl⟩
    · exact .inl old
    · exact .inr ⟨.inl rfl, Nat.le_of_eq target.symm, below⟩
    · exact .inr ⟨.inr (Nat.le_refl _), Nat.le_of_eq target.symm, below⟩

/-- Only the loop leaves the new state. -/
theorem turns_of_walk_position (inside : source < t.size) {arc : Arc} (target : arc.target = t.size)
    {loops : Bool} {state : StateId} {trace : Trace} (new : state = t.size)
    (walk : (t.withPosition source arc loops).Walk t.size t.size state trace) :
    ∃ further, (further = 0 ∨ loops = true) ∧ trace = Trace.ofArc arc ^ further := by
  induction walk with
  | stay => exact ⟨0, .inl rfl, (pow_zero _).symm⟩
  | @step state other rest leaves above later ih =>
      rcases (mem_arcs_with_position inside arc loops state other).mp leaves with
        old | ⟨same, _⟩ | ⟨looping, _, rfl⟩
      · exact absurd (lt_size_of_mem_arcs old) (Nat.not_lt.mpr (Nat.le_of_eq new.symm))
      · exact absurd inside (Nat.not_lt.mpr (Nat.le_of_eq (new.symm.trans same)))
      · obtain ⟨further, _, rfl⟩ := ih target
        exact ⟨further + 1, .inr looping, (pow_succ' _ _).symm⟩

theorem walk_of_turns_position (inside : source < t.size) {arc : Arc} (target : arc.target = t.size)
    {loops : Bool} (further : Nat) (allowed : further = 0 ∨ loops = true) :
    (t.withPosition source arc loops).Walk t.size t.size t.size (Trace.ofArc arc ^ further) := by
  induction further with
  | zero => exact .stay
  | succ further ih =>
      have looping := allowed.resolve_left (Nat.succ_ne_zero further)
      have leaves : arc ∈ (t.withPosition source arc loops).arcs t.size :=
        (mem_arcs_with_position inside arc loops _ _).mpr (.inr (.inr ⟨looping, rfl, rfl⟩))
      have turn := Walk.single leaves (Nat.le_of_eq target.symm)
      rw [target] at turn
      rw [pow_succ']
      exact turn.trans (ih (.inr looping))

theorem Branch.of_position (formed : t.WellFormed) (inside : source < t.size) {arc : Arc}
    (target : arc.target = t.size) (loops : Bool) :
    Branch t source (t.withPosition source arc loops) t.size
      (Dictionary.turns (loops = true) (Trace.ofArc arc)) where
  growth := .of_position inside target loops
  ending := by
    refine .inr ⟨Nat.le_refl _, ?_⟩
    rw [size_with_position]
    exact Nat.lt_succ_self _
  traces := by
    have enters : arc ∈ (t.withPosition source arc loops).arcs source :=
      (mem_arcs_with_position inside arc loops _ _).mpr (.inr (.inl ⟨rfl, rfl⟩))
    ext trace
    constructor
    · intro walk
      rcases walk.first_arc with ⟨same, _⟩ | ⟨other, leaves, above, later, rest, rfl⟩
      · exact absurd inside (Nat.not_lt.mpr (Nat.le_of_eq same))
      · rcases (mem_arcs_with_position inside arc loops source other).mp leaves with
          old | ⟨_, rfl⟩ | ⟨_, same, _⟩
        · exact absurd (formed.target_lt old) (Nat.not_lt.mpr above)
        · obtain ⟨further, allowed, rfl⟩ := turns_of_walk_position inside target target rest
          exact ⟨further, allowed, (pow_succ' _ _).symm⟩
        · exact absurd inside (Nat.not_lt.mpr (Nat.le_of_eq same.symm))
    · rintro ⟨further, allowed, rfl⟩
      have first := Walk.single enters (Nat.le_of_eq target.symm)
      rw [target] at first
      rw [pow_succ']
      exact first.trans (walk_of_turns_position inside target further allowed)

end Position

end Transducer

namespace Dictionary

open Transducer

theorem turns_one (repeating : Prop) : turns repeating 1 = 1 := by
  ext trace
  rw [Set.mem_one]
  constructor
  · rintro ⟨further, _, rfl⟩
    exact one_pow _
  · rintro rfl
    exact ⟨0, .inl rfl, (one_pow _).symm⟩

namespace Part

def traces (mode : Mode) : Part → Set Trace
  | .pairs labels => (labels.map mode.opposed).prod
  | .inner transducer => transducer.traces

/-- The transducer of a part may be copied. -/
def Sound : Part → Prop
  | .pairs _ => True
  | .inner transducer => transducer.WellFormed

def states : Part → Nat
  | .pairs labels => labels.countP fun label => !(label.1.isEpsilon && label.2.isEpsilon)
  | .inner transducer => transducer.size + 1

variable {t : Transducer} {source : StateId}

theorem opposed_eq (mode : Mode) (input output : Symbol) :
    mode.opposed (input, output) =
      turns ((mode = .separable && repeats input && repeats output) = true)
        (Trace.ofPair input output) := by
  unfold Mode.opposed repeats
  simp [and_assoc]

theorem opposed_epsilon (mode : Mode) {input output : Symbol}
    (absent : (input.isEpsilon && output.isEpsilon) = true) : mode.opposed (input, output) = 1 := by
  rw [Bool.and_eq_true] at absent
  have silent : Trace.ofPair input output = 1 := by
    rw [Trace.ofPair, if_pos absent.1, if_pos absent.2]
    rfl
  rw [opposed_eq, silent, turns_one]

theorem add_pairs_cons (mode : Mode) (t : Transducer) (source : StateId) {input output : Symbol}
    (present : ¬(input.isEpsilon && output.isEpsilon) = true) (rest : List (Symbol × Symbol)) :
    addPairs mode t source ((input, output) :: rest) =
      addPairs mode (t.withPosition source { input, output, target := t.size, weight := 0.0 }
        (mode = .separable && repeats input && repeats output)) t.size rest := by
  rw [addPairs, if_neg present]
  rfl

theorem size_add_pairs (mode : Mode) (t : Transducer) (source : StateId)
    (labels : List (Symbol × Symbol)) :
    (addPairs mode t source labels).1.size = t.size + (Part.pairs labels).states := by
  induction labels generalizing t source with
  | nil => rfl
  | cons label rest ih =>
      obtain ⟨input, output⟩ := label
      by_cases absent : (input.isEpsilon && output.isEpsilon) = true
      · rw [addPairs, if_pos absent, ih, states, states, List.countP_cons_of_neg (by simp [absent])]
      · rw [add_pairs_cons mode t source absent, ih, size_with_position, states, states,
          List.countP_cons_of_pos (by simp [absent])]
        exact Nat.add_right_comm _ _ _

theorem add_pairs_branch (mode : Mode) (labels : List (Symbol × Symbol)) (formed : t.WellFormed)
    (inside : source < t.size) :
    Branch t source (addPairs mode t source labels).1 (addPairs mode t source labels).2
      (labels.map mode.opposed).prod := by
  induction labels generalizing t source with
  | nil => exact .refl inside
  | cons label rest ih =>
      obtain ⟨input, output⟩ := label
      rw [List.map_cons, List.prod_cons]
      by_cases absent : (input.isEpsilon && output.isEpsilon) = true
      · rw [addPairs, if_pos absent, opposed_epsilon mode absent, one_mul]
        exact ih formed inside
      · have spelled (target : StateId) :
            Trace.ofArc { input, output, target, weight := 0.0 } = Trace.ofPair input output := by
          rw [Trace.ofArc, Trace.of_weight_zero, mul_one]
        have target : ({ input, output, target := t.size, weight := 0.0 } : Arc).target = t.size :=
          rfl
        have first :=
          Branch.of_position formed inside target
            (mode = .separable && repeats input && repeats output)
        rw [spelled, ← opposed_eq] at first
        rw [add_pairs_cons mode t source absent]
        exact first.trans inside formed
          (ih (first.growth.well_formed formed) (first.target_lt inside))

theorem add_to_branch (mode : Mode) (part : Part) (sound : part.Sound) (formed : t.WellFormed)
    (inside : source < t.size) :
    Branch t source (part.addTo mode t source).1 (part.addTo mode t source).2
      (part.traces mode) := by
  cases part with
  | pairs labels => exact add_pairs_branch mode labels formed inside
  | inner transducer => exact .of_splice formed inside sound

theorem size_add_to (mode : Mode) (t : Transducer) (source : StateId) (part : Part) :
    (part.addTo mode t source).1.size = t.size + part.states := by
  cases part with
  | pairs labels => exact size_add_pairs mode t source labels
  | inner transducer =>
      rw [addTo, size_splice, size_add_state, states, Nat.add_assoc, Nat.add_comm 1]

end Part

namespace Entry

variable {t : Transducer} {source : StateId}

def traces (mode : Mode) (entry : Entry) : Set Trace :=
  (entry.parts.map (Part.traces mode)).prod * {Trace.ofWeight entry.weight}

def states (entry : Entry) : Nat := (entry.parts.map Part.states).sum

theorem add_parts_branch (mode : Mode) (parts : List Part) (sound : ∀ part ∈ parts, part.Sound)
    (formed : t.WellFormed) (inside : source < t.size) :
    Branch t source (addParts mode t source parts).1 (addParts mode t source parts).2
      (parts.map (Part.traces mode)).prod := by
  induction parts generalizing t source with
  | nil => exact .refl inside
  | cons part rest ih =>
      rw [List.forall_mem_cons] at sound
      have first := part.add_to_branch mode sound.1 formed inside
      rw [List.map_cons, List.prod_cons, addParts]
      exact first.trans inside formed
        (ih sound.2 (first.growth.well_formed formed) (first.target_lt inside))

theorem size_add_parts (mode : Mode) (t : Transducer) (source : StateId) (parts : List Part) :
    (addParts mode t source parts).1.size = t.size + (parts.map Part.states).sum := by
  induction parts generalizing t source with
  | nil => rfl
  | cons part rest ih =>
      rw [addParts, ih, Part.size_add_to, List.map_cons, List.sum_cons, Nat.add_assoc]

/-- The start becomes final only by an entry that adds no state. -/
theorem final_start_add_to (mode : Mode) (entry : Entry) (sound : ∀ part ∈ entry.parts, part.Sound)
    (formed : t.WellFormed) (growing : entry.states ≠ 0) :
    (entry.addTo mode t).final? 0 = t.final? 0 := by
  have branch := add_parts_branch mode entry.parts sound formed formed.1
  have inside := branch.target_lt formed.1
  rw [addTo, final_set_final _ _ _ inside]
  rcases branch.ending with ⟨same, _⟩ | ⟨new, _⟩
  · have size := size_add_parts mode t 0 entry.parts
    rw [same] at size
    exact absurd (Nat.left_eq_add.mp size) growing
  · rw [if_neg (Nat.ne_of_lt (Nat.lt_of_lt_of_le formed.1 new))]
    exact branch.growth.final 0

theorem add_to_rooted (mode : Mode) (entry : Entry) (sound : ∀ part ∈ entry.parts, part.Sound)
    (rooted : t.Rooted) : (entry.addTo mode t).Rooted := by
  have branch := add_parts_branch mode entry.parts sound rooted.formed rooted.formed.1
  exact (branch.rooted rooted).set_final _ _

/-- An entry adds its traces to a paradigm. One without a path needs a start that
is not final yet. -/
theorem traces_add_to (mode : Mode) (entry : Entry) (sound : ∀ part ∈ entry.parts, part.Sound)
    (rooted : t.Rooted) (unused : entry.states = 0 → t.final? 0 = none) :
    (entry.addTo mode t).traces = t.traces ∪ entry.traces mode := by
  have branch := add_parts_branch mode entry.parts sound rooted.formed rooted.formed.1
  have notFinal : t.final? (addParts mode t 0 entry.parts).2 = none := by
    rcases branch.ending with ⟨same, start⟩ | ⟨new, _⟩
    · have size := size_add_parts mode t 0 entry.parts
      rw [same] at size
      rw [start]
      exact unused (Nat.left_eq_add.mp size)
    · exact final_of_size_le t _ new
  exact branch.traces_set_final rooted notFinal entry.weight

end Entry

end Dictionary

end MorphLex
