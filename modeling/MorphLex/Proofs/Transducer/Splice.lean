import MorphLex.Proofs.Transducer.Branch
import MorphLex.Transducer.Splice

/-!
A spliced copy as a branch. The copy is entered by one silent arc at its start and
left by silent arcs at its final states, each of which bears the final weight; so
between the two ends lie exactly the traces of the transducer that was copied.
-/

namespace MorphLex.Transducer

section Arcs

theorem arcs_append_copy_old (t other : Transducer) {state : StateId} (inside : state < t.size) :
    (t.appendCopy other).arcs state = t.arcs state := by
  have inside : state < t.states.size := inside
  rw [arcs_eq, arcs_eq, appendCopy, Array.getElem?_append_left inside]

theorem arcs_append_copy_new (t other : Transducer) (inner : StateId) :
    (t.appendCopy other).arcs (inner + t.size) =
      (other.arcs inner).map fun arc => { arc with target := arc.target + t.size } := by
  have beyond : t.states.size ≤ inner + t.size := Nat.le_add_left t.size inner
  have position : inner + t.size - t.states.size = inner := Nat.add_sub_cancel inner t.size
  rw [arcs_eq, arcs_eq, appendCopy, Array.getElem?_append_right beyond, position,
    Array.getElem?_map]
  cases other.states[inner]? <;> simp [State.shifted]

theorem final_append_copy (t other : Transducer) (state : StateId) :
    (t.appendCopy other).final? state = t.final? state := by
  rw [final_eq, final_eq, appendCopy]
  by_cases inside : state < t.states.size
  · rw [Array.getElem?_append_left inside]
  · have beyond := Nat.le_of_not_lt inside
    rw [Array.getElem?_append_right beyond, Array.getElem?_eq_none beyond, Array.getElem?_map]
    cases other.states[state - t.states.size]? <;> simp [State.shifted]

/-- Old arcs and the arcs of the copy, each `t.size` further. -/
theorem mem_arcs_append_copy (t other : Transducer) (state : StateId) (arc : Arc) :
    arc ∈ (t.appendCopy other).arcs state ↔ arc ∈ t.arcs state ∨
      ∃ inner, state = inner + t.size ∧
      ∃ old ∈ other.arcs inner, arc = { old with target := old.target + t.size } := by
  by_cases inside : state < t.size
  · rw [arcs_append_copy_old t other inside]
    constructor
    · exact .inl
    · rintro (old | ⟨inner, rfl, _⟩)
      · exact old
      · exact absurd inside (Nat.not_lt.mpr (Nat.le_add_left _ _))
  · have beyond := Nat.le_of_not_lt inside
    obtain ⟨inner, rfl⟩ : ∃ inner, state = inner + t.size :=
      ⟨state - t.size, (Nat.sub_add_cancel beyond).symm⟩
    rw [arcs_append_copy_new, arcs_of_size_le t _ beyond, Array.mem_map]
    constructor
    · rintro ⟨old, leaves, rfl⟩
      exact .inr ⟨inner, rfl, old, leaves, rfl⟩
    · rintro (none | ⟨_, same, old, leaves, rfl⟩)
      · simp at none
      · obtain rfl := Nat.add_right_cancel same
        exact ⟨old, leaves, rfl⟩

theorem mem_arcs_join_finals (target offset : Nat) (t : Transducer)
    (finals : List (StateId × Weight)) (inside : ∀ final ∈ finals, final.1 + offset < t.size)
    (state : StateId) (arc : Arc) :
    arc ∈ (joinFinals target offset t finals).arcs state ↔ arc ∈ t.arcs state ∨
      ∃ inner weight, (inner, weight) ∈ finals ∧ state = inner + offset ∧
      arc = Arc.silent target weight := by
  induction finals generalizing t with
  | nil => simp [joinFinals]
  | cons final rest ih =>
      rw [List.forall_mem_cons] at inside
      have later : ∀ other ∈ rest,
        other.1 + offset < (t.addArc (final.1 + offset) (Arc.silent target final.2)).size := by
        simpa using inside.2
      rw [joinFinals, List.foldl_cons, ← joinFinals, ih _ later,
        mem_arcs_add_arc _ _ _ inside.1, or_assoc]
      refine or_congr_right ⟨?_, ?_⟩
      · rintro (⟨rfl, rfl⟩ | ⟨inner, weight, member, same, rfl⟩)
        · exact ⟨final.1, final.2, List.mem_cons_self, rfl, rfl⟩
        · exact ⟨inner, weight, List.mem_cons_of_mem _ member, same, rfl⟩
      · rintro ⟨inner, weight, member, same, rfl⟩
        rcases List.mem_cons.mp member with rfl | member
        · exact .inl ⟨same, rfl⟩
        · exact .inr ⟨inner, weight, member, same, rfl⟩

theorem final_join_finals (target offset : Nat) (t : Transducer) (finals : List (StateId × Weight))
    (state : StateId) :
    (joinFinals target offset t finals).final? state = t.final? state := by
  induction finals generalizing t with
  | nil => rfl
  | cons final rest ih => rw [joinFinals, List.foldl_cons, ← joinFinals, ih, final_add_arc]

theorem finals_inside (t other : Transducer) (source : StateId) : ∀ final ∈ other.finals,
    final.1 + t.size < ((t.appendCopy other).addArc source (Arc.silent t.size 0.0)).size := by
  rintro ⟨inner, weight⟩ member
  have within := lt_size_of_final ((mem_finals_iff other inner weight).mp member)
  rw [size_add_arc, size_append_copy, Nat.add_comm t.size]
  exact Nat.add_lt_add_right within _

theorem mem_arcs_splice (t : Transducer) {source : StateId} (target : StateId) (other : Transducer)
    (inside : source < t.size) (state : StateId) (arc : Arc) :
    arc ∈ (t.splice source target other).arcs state ↔ arc ∈ t.arcs state ∨
      (state = source ∧ arc = Arc.silent t.size 0.0) ∨
      (∃ inner, state = inner + t.size ∧
        ∃ old ∈ other.arcs inner, arc = { old with target := old.target + t.size }) ∨
      ∃ inner weight, other.final? inner = some weight ∧ state = inner + t.size ∧
      arc = Arc.silent target weight := by
  have sourceInside : source < (t.appendCopy other).size := by
    rw [size_append_copy]
    exact Nat.lt_of_lt_of_le inside (Nat.le_add_right _ _)
  rw [splice, mem_arcs_join_finals _ _ _ _ (finals_inside t other source),
    mem_arcs_add_arc _ _ _ sourceInside, mem_arcs_append_copy]
  simp only [mem_finals_iff]
  rw [or_assoc, or_assoc]
  exact or_congr_right or_left_comm

theorem final_splice (t : Transducer) (source target : StateId) (other : Transducer)
    (state : StateId) :
    (t.splice source target other).final? state = t.final? state := by
  rw [splice, final_join_finals, final_add_arc, final_append_copy]

end Arcs

section Between

variable {t other : Transducer} {source : StateId}

theorem mem_arcs_insert (other : Transducer) (inside : source < t.size) (state : StateId)
    (arc : Arc) :
    arc ∈ (t.addState.splice source t.size other).arcs state ↔ arc ∈ t.arcs state ∨
      (state = source ∧ arc = Arc.silent (t.size + 1) 0.0) ∨
      (∃ inner, state = inner + (t.size + 1) ∧
        ∃ old ∈ other.arcs inner, arc = { old with target := old.target + (t.size + 1) }) ∨
      ∃ inner weight, other.final? inner = some weight ∧ state = inner + (t.size + 1) ∧
        arc = Arc.silent t.size weight := by
  have within : source < t.addState.size := by
    rw [size_add_state]
    exact Nat.lt_succ_of_lt inside
  rw [mem_arcs_splice _ _ _ within, arcs_add_state, size_add_state]

theorem Extension.of_splice (formed : other.WellFormed) (inside : source < t.size) :
    Extension t (t.addState.splice source t.size other) source t.size where
  size_le := by
    rw [size_splice, size_add_state, Nat.add_assoc]
    exact Nat.le_add_right _ _
  kept state arc leaves := (mem_arcs_insert other inside state arc).mpr (.inl leaves)
  final state := by rw [final_splice, final_add_state]
  added state arc leaves := by
    have size : (t.addState.splice source t.size other).size = other.size + (t.size + 1) := by
      rw [size_splice, size_add_state, Nat.add_comm]
    have positive : 0 < other.size := formed.1
    rcases (mem_arcs_insert other inside state arc).mp leaves with
      old | ⟨rfl, rfl⟩ | ⟨inner, rfl, old, onward, rfl⟩ | ⟨inner, weight, _, rfl, rfl⟩
    · exact .inl old
    · refine .inr ⟨.inl rfl, Nat.le_succ _, ?_⟩
      rw [size]
      exact Nat.lt_add_of_pos_left positive
    · refine .inr ⟨.inr ?_, ?_, ?_⟩
      · exact Nat.le_trans (Nat.le_succ _) (Nat.le_add_left _ _)
      · exact Nat.le_trans (Nat.le_succ _) (Nat.le_add_left _ _)
      · rw [size]
        exact Nat.add_lt_add_right (formed.target_lt onward) _
    · refine .inr ⟨.inr ?_, Nat.le_refl _, ?_⟩
      · exact Nat.le_trans (Nat.le_succ _) (Nat.le_add_left _ _)
      · rw [size]
        exact Nat.lt_of_lt_of_le (Nat.lt_succ_self _) (Nat.le_add_left _ _)

theorem arcs_insert_end (other : Transducer) (inside : source < t.size) :
    (t.addState.splice source t.size other).arcs t.size = #[] := by
  have apart (inner : StateId) : t.size ≠ inner + (t.size + 1) :=
    Nat.ne_of_lt (Nat.lt_of_lt_of_le (Nat.lt_succ_self _) (Nat.le_add_left _ _))
  rw [Array.eq_empty_iff_forall_not_mem]
  intro arc leaves
  rcases (mem_arcs_insert other inside t.size arc).mp leaves with
    old | ⟨same, _⟩ | ⟨inner, same, _⟩ | ⟨inner, _, _, same, _⟩
  · exact absurd (lt_size_of_mem_arcs old) (Nat.lt_irrefl _)
  · exact absurd inside (Nat.not_lt.mpr (Nat.le_of_eq same))
  · exact apart inner same
  · exact apart inner same

theorem lt_copied (t : Transducer) (inner : StateId) : t.size < inner + (t.size + 1) :=
  Nat.lt_of_lt_of_le (Nat.lt_succ_self _) (Nat.le_add_left _ _)

/-- A walk from the copy to its end stays in the copy until it takes the arc of a final state. -/
theorem exists_walk_of_insert (inside : source < t.size) {inner : StateId} {trace : Trace}
    (walk : (t.addState.splice source t.size other).Walk t.size t.size
      (inner + (t.size + 1)) trace) :
    ∃ last weight front, other.final? last = some weight ∧ other.Walk 0 last inner front ∧
      trace = front * Trace.ofWeight weight := by
  generalize start : inner + (t.size + 1) = state at walk
  induction walk generalizing inner with
  | stay => exact absurd start (Nat.ne_of_gt (lt_copied t inner))
  | @step state arc rest leaves above later ih =>
      subst start
      rcases (mem_arcs_insert other inside _ arc).mp leaves with
        old | ⟨same, _⟩ | ⟨copied, same, old, onward, rfl⟩ | ⟨copied, weight, final, same, rfl⟩
      · exact absurd (lt_size_of_mem_arcs old) (Nat.not_lt.mpr (Nat.le_of_lt (lt_copied t inner)))
      · exact absurd inside (Nat.not_lt.mpr (same ▸ Nat.le_of_lt (lt_copied t inner)))
      · obtain rfl := Nat.add_right_cancel same
        obtain ⟨last, weight, front, final, walk, rfl⟩ := ih rfl
        exact ⟨last, weight, _, final, .step onward (Nat.zero_le _) walk, (mul_assoc _ _ _).symm⟩
      · obtain rfl := Nat.add_right_cancel same
        refine ⟨inner, weight, 1, final, .stay, ?_⟩
        rw [Trace.of_arc_silent, one_mul]
        rcases later.first_arc with ⟨_, rfl⟩ | ⟨next, onward, _⟩
        · rw [mul_one]
        · rw [show (Arc.silent t.size weight).target = t.size from rfl,
            arcs_insert_end other inside] at onward
          simp at onward

theorem walk_insert (inside : source < t.size) {inner last : StateId} {front : Trace}
    {weight : Weight} (final : other.final? last = some weight)
    (walk : other.Walk 0 last inner front) :
    (t.addState.splice source t.size other).Walk t.size t.size (inner + (t.size + 1))
      (front * Trace.ofWeight weight) := by
  induction walk with
  | stay =>
      have leaves : Arc.silent t.size weight ∈
          (t.addState.splice source t.size other).arcs (last + (t.size + 1)) :=
        (mem_arcs_insert other inside _ _).mpr (.inr (.inr (.inr ⟨last, weight, final, rfl, rfl⟩)))
      have step := Walk.single leaves (Nat.le_refl t.size)
      rwa [Trace.of_arc_silent, ← one_mul (Trace.ofWeight weight)] at step
  | @step state arc rest leaves _ _ ih =>
      have copied : { arc with target := arc.target + (t.size + 1) } ∈
          (t.addState.splice source t.size other).arcs (state + (t.size + 1)) :=
        (mem_arcs_insert other inside _ _).mpr (.inr (.inr (.inl ⟨state, rfl, arc, leaves, rfl⟩)))
      have step := Walk.step copied (Nat.le_of_lt (lt_copied t arc.target)) ih
      rw [mul_assoc]
      exact step

/-- From a state of the copy to its end: a walk of the transducer that was copied to
a final state, and the final weight. -/
theorem walk_insert_iff (other : Transducer) (inside : source < t.size) (inner : StateId)
    (trace : Trace) :
    (t.addState.splice source t.size other).Walk t.size t.size (inner + (t.size + 1)) trace ↔
      ∃ last weight front, other.final? last = some weight ∧ other.Walk 0 last inner front ∧
        trace = front * Trace.ofWeight weight := by
  constructor
  · exact exists_walk_of_insert inside
  · rintro ⟨last, weight, front, final, walk, rfl⟩
    exact walk_insert inside final walk

theorem Branch.of_splice (formed : t.WellFormed) (inside : source < t.size)
    (otherFormed : other.WellFormed) :
    Branch t source (t.addState.splice source t.size other) t.size other.traces where
  growth := .of_splice otherFormed inside
  ending := by
    refine .inr ⟨Nat.le_refl _, ?_⟩
    rw [size_splice, size_add_state]
    exact Nat.lt_of_lt_of_le (Nat.lt_succ_self _) (Nat.le_add_right _ _)
  traces := by
    have enters :
        Arc.silent (t.size + 1) 0.0 ∈ (t.addState.splice source t.size other).arcs source :=
      (mem_arcs_insert other inside _ _).mpr (.inr (.inl ⟨rfl, rfl⟩))
    have silent : Trace.ofArc (Arc.silent (t.size + 1) 0.0) = 1 := by
      rw [Trace.of_arc_silent, Trace.of_weight_zero]
    have copied (trace : Trace) := walk_insert_iff other inside 0 trace
    rw [Nat.zero_add] at copied
    ext trace
    rw [mem_traces_iff, ← copied]
    constructor
    · intro walk
      rcases walk.first_arc with ⟨same, _⟩ | ⟨arc, leaves, above, later, rest, rfl⟩
      · exact absurd inside (Nat.not_lt.mpr (Nat.le_of_eq same))
      · rcases (mem_arcs_insert other inside _ arc).mp leaves with
          old | ⟨_, rfl⟩ | ⟨inner, same, _⟩ | ⟨inner, _, _, same, _⟩
        · exact absurd (formed.target_lt old) (Nat.not_lt.mpr above)
        · rw [silent, one_mul]
          exact rest
        · exact absurd inside
            (Nat.not_lt.mpr (same ▸ Nat.le_trans (Nat.le_succ _) (Nat.le_add_left _ inner)))
        · exact absurd inside
            (Nat.not_lt.mpr (same ▸ Nat.le_trans (Nat.le_succ _) (Nat.le_add_left _ inner)))
    · intro walk
      have step := Walk.step enters (Nat.le_succ t.size) walk
      rwa [silent, one_mul] at step

end Between

end MorphLex.Transducer
