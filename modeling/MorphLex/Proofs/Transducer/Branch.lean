import MorphLex.Proofs.Transducer.Growth

/-!
Branches: a transducer grown from a source state to a target, with the traces that
lead along the new states from the one to the other. Branches are put one behind
the other, and a branch at the start whose last state becomes final adds exactly
its own traces.
-/

open scoped Pointwise

namespace MorphLex.Transducer

theorem Walk.target_above {t : Transducer} {bound : Nat} {source target : StateId} {trace : Trace}
    (walk : t.Walk bound target source trace) : (target = source ∧ trace = 1) ∨ bound ≤ target := by
  induction walk with
  | stay => exact .inl ⟨rfl, rfl⟩
  | step _ above _ ih =>
      rcases ih with ⟨rfl, _⟩ | higher
      · exact .inr above
      · exact .inr higher

/-- A state below the bound is not entered again. -/
theorem between_self (t : Transducer) {bound : Nat} {state : StateId} (below : state < bound) :
    t.between bound state state = 1 := by
  ext trace
  rw [Set.mem_one]
  constructor
  · intro walk
    rcases walk.target_above with ⟨_, same⟩ | above
    · exact same
    · exact absurd below (Nat.not_lt.mpr above)
  · rintro rfl
    exact .stay

/-- The larger transducer leads from `source` to `target` along new states, with
exactly these traces; or it is the old one, and the target is the source. -/
structure Branch (t : Transducer) (source : StateId) (larger : Transducer) (target : StateId)
    (spelled : Set Trace) : Prop where
  growth : Extension t larger source t.size
  ending : (larger = t ∧ target = source) ∨ (t.size ≤ target ∧ target < larger.size)
  traces : larger.between t.size source target = spelled

namespace Branch

variable {t middle larger : Transducer} {source joint target : StateId} {first second : Set Trace}

theorem refl (inside : source < t.size) : Branch t source t source 1 where
  growth := .refl t source t.size
  ending := .inl ⟨rfl, rfl⟩
  traces := between_self t inside

theorem target_lt (branch : Branch t source larger target first) (inside : source < t.size) :
    target < larger.size := by
  rcases branch.ending with ⟨rfl, rfl⟩ | ⟨_, lt⟩
  · exact inside
  · exact lt

/-- An old state is the end of a branch only if the branch begins there. -/
theorem ne_target (branch : Branch t source larger target first) {state : StateId}
    (inside : state < t.size) (apart : state ≠ source) : state ≠ target := by
  rcases branch.ending with ⟨_, rfl⟩ | ⟨new, _⟩
  · exact apart
  · exact Nat.ne_of_lt (Nat.lt_of_lt_of_le inside new)

/-- Where one branch ends, the next one may begin. -/
theorem trans (inside : source < t.size) (formed : t.WellFormed)
    (front : Branch t source middle joint first) (back : Branch middle joint larger target second) :
    Branch t source larger target (first * second) := by
  have jointInside := front.target_lt inside
  rcases front.ending with ⟨rfl, rfl⟩ | ⟨jointNew, _⟩
  · have none : first = 1 := front.traces.symm.trans (between_self _ inside)
    rwa [none, one_mul]
  · rcases back.ending with ⟨rfl, rfl⟩ | ⟨targetNew, targetInside⟩
    · have none : second = 1 := back.traces.symm.trans (between_self _ jointInside)
      rwa [none, mul_one]
    · refine ⟨front.growth.trans back.growth (.inr jointNew) front.growth.size_le,
        .inr ⟨Nat.le_trans front.growth.size_le targetNew, targetInside⟩, ?_⟩
      ext trace
      have crossing : larger.Walk t.size target source trace ↔ _ :=
        back.growth.walk_cross_iff front.growth.size_le
          (Nat.lt_of_lt_of_le inside front.growth.size_le)
          (front.growth.well_formed formed) targetNew
      rw [← front.traces, ← back.traces, Set.mem_mul]
      refine crossing.trans ⟨?_, ?_⟩
      · rintro ⟨front, back, start, rest, rfl⟩
        exact ⟨front, start, back, rest, rfl⟩
      · rintro ⟨front, start, back, rest, rfl⟩
        exact ⟨front, back, start, rest, rfl⟩

/-- Arcs back to old states between the bound and the source would not help. -/
theorem between_below (branch : Branch t source larger target first) (formed : t.WellFormed)
    {bound : Nat} (below : source < bound) (bounded : bound ≤ t.size) :
    larger.between bound source target = first := by
  have inside := Nat.lt_of_lt_of_le below bounded
  rcases branch.ending with ⟨rfl, rfl⟩ | ⟨new, _⟩
  · rw [← branch.traces, between_self _ below, between_self _ inside]
  · ext trace
    rw [← branch.traces]
    refine (branch.growth.walk_cross_iff bounded inside formed new).trans ⟨?_, fun walk => ?_⟩
    · rintro ⟨front, back, idle, rest, rfl⟩
      have none : front ∈ t.between bound source source := idle
      rw [between_self t below, Set.mem_one] at none
      rwa [none, one_mul]
    · exact ⟨1, trace, .stay, walk, (one_mul _).symm⟩

theorem of_leaf (formed : t.WellFormed) (inside : source < t.size)
    (growth : Extension t larger source t.size) (size : larger.size = t.size + 1)
    (ends : larger.arcs t.size = #[]) :
    Branch t source larger t.size { trace | ∃ arc ∈ larger.arcs source, arc ∉ t.arcs source ∧
      trace = Trace.ofArc arc } where
  growth := growth
  ending := .inr ⟨Nat.le_refl _, by rw [size]; exact Nat.lt_succ_self _⟩
  traces := by
    ext trace
    constructor
    · intro walk
      rcases walk.first_arc with ⟨same, _⟩ | ⟨arc, leaves, above, later, rest, rfl⟩
      · exact absurd inside (Nat.not_lt.mpr (Nat.le_of_eq same))
      · refine ⟨arc, leaves, fun old => absurd (formed.target_lt old) (Nat.not_lt.mpr above), ?_⟩
        have below := (growth.well_formed formed).target_lt leaves
        have reached : arc.target = t.size :=
          Nat.le_antisymm (Nat.le_of_lt_succ (below.trans_eq size)) above
        rcases rest.first_arc with ⟨_, none⟩ | ⟨next, onward, _⟩
        · rw [none, mul_one]
        · rw [reached, ends] at onward
          simp at onward
    · rintro ⟨arc, leaves, new, rfl⟩
      rcases growth.added source arc leaves with old | ⟨_, above, below⟩
      · exact absurd old new
      · have reached : arc.target = t.size :=
          Nat.le_antisymm (Nat.le_of_lt_succ (below.trans_eq size)) above
        have walk := Walk.single leaves above
        rwa [reached] at walk

end Branch

theorem walk_set_final (t : Transducer) (state : StateId) (weight : Weight) (bound : Nat)
    (source target : StateId) (trace : Trace) :
    (t.setFinal state weight).Walk bound target source trace ↔
      t.Walk bound target source trace := by
  constructor
  · exact Walk.transport fun state arc leaves => by rwa [arcs_set_final] at leaves
  · exact Walk.transport fun state arc leaves => by rwa [arcs_set_final]

def StartApart (t : Transducer) : Prop := ∀ state, ∀ arc ∈ t.arcs state, arc.target ≠ 0

theorem start_apart_initial : StartApart .initial := by
  intro state arc leaves
  simp at leaves

theorem well_formed_initial : WellFormed .initial := by
  rw [well_formed_iff]
  exact ⟨by decide, fun state arc leaves => by simp at leaves⟩

theorem traces_initial : traces .initial = ∅ := by
  ext trace
  rw [mem_traces_iff]
  simp

theorem Extension.start_apart {t larger : Transducer} {source : StateId} {bound : Nat}
    (grown : Extension t larger source bound) (apart : t.StartApart) (positive : 0 < bound) :
    larger.StartApart := by
  intro state arc leaves
  rcases grown.added state arc leaves with old | ⟨_, above, _⟩
  · exact apart state arc old
  · exact Nat.ne_of_gt (Nat.lt_of_lt_of_le positive above)

theorem StartApart.walk_above {t : Transducer} (apart : t.StartApart) {bound : Nat}
    {source target : StateId} {trace : Trace} (walk : t.Walk bound target source trace) :
    t.Walk 1 target source trace := by
  induction walk with
  | stay => exact .stay
  | step leaves _ _ ih => exact .step leaves (Nat.pos_of_ne_zero (apart _ _ leaves)) ih

theorem StartApart.between_start {t : Transducer} (apart : t.StartApart) : t.between 0 0 0 = 1 := by
  have idle : t.between 1 0 0 = 1 := between_self t Nat.zero_lt_one
  rw [← idle]
  ext trace
  exact ⟨apart.walk_above, fun walk => Walk.lower walk (Nat.zero_le 1)⟩

/-- Every arc leads to a state, and none back to the start. -/
structure Rooted (t : Transducer) : Prop where
  formed : t.WellFormed
  apart : t.StartApart

theorem rooted_initial : Rooted .initial := ⟨well_formed_initial, start_apart_initial⟩

theorem Rooted.set_final {t : Transducer} (rooted : t.Rooted) (state : StateId) (weight : Weight) :
    (t.setFinal state weight).Rooted := by
  refine ⟨?_, fun source arc leaves => ?_⟩
  · rw [well_formed_iff, size_set_final]
    refine ⟨rooted.formed.1, fun source arc leaves => ?_⟩
    rw [arcs_set_final] at leaves
    exact rooted.formed.target_lt leaves
  · rw [arcs_set_final] at leaves
    exact rooted.apart source arc leaves

theorem Branch.rooted {t larger : Transducer} {source last : StateId} {spelled : Set Trace}
    (branch : Branch t source larger last spelled) (rooted : t.Rooted) : larger.Rooted :=
  ⟨branch.growth.well_formed rooted.formed, branch.growth.start_apart rooted.apart rooted.formed.1⟩

/-- On the way to the end of a branch at the start, nothing else can be done. -/
theorem Branch.between_start {t larger : Transducer} {last : StateId} {spelled : Set Trace}
    (branch : Branch t 0 larger last spelled) (rooted : t.Rooted) :
    larger.between 0 0 last = spelled := by
  rw [← branch.traces]
  rcases branch.ending with ⟨rfl, rfl⟩ | ⟨new, _⟩
  · rw [rooted.apart.between_start, between_self _ rooted.formed.1]
  · ext front
    refine (branch.growth.walk_cross_iff (Nat.zero_le _) rooted.formed.1 rooted.formed new).trans
      ⟨?_, fun walk => ?_⟩
    · rintro ⟨start, back, idle, rest, rfl⟩
      have none : start ∈ t.between 0 0 0 := idle
      rw [rooted.apart.between_start, Set.mem_one] at none
      rwa [none, one_mul]
    · exact ⟨1, front, .stay, walk, (one_mul _).symm⟩

/-- The traces of the accepting runs that end in one of these states. -/
def tracesTo (t : Transducer) (ends : Set StateId) : Set Trace :=
  { trace | ∃ last ∈ ends, ∃ weight front, t.final? last = some weight ∧ t.Walk 0 last 0 front ∧
    trace = front * Trace.ofWeight weight }

theorem traces_eq (t : Transducer) : t.traces = t.tracesTo Set.univ := by
  ext trace
  rw [mem_traces_iff]
  constructor
  · rintro ⟨last, run⟩
    exact ⟨last, trivial, run⟩
  · rintro ⟨last, _, run⟩
    exact ⟨last, run⟩

/-- No run ends in a state that is not final. -/
theorem traces_to_diff {t : Transducer} {last : StateId} (notFinal : t.final? last = none)
    (ends : Set StateId) : t.tracesTo (ends \ {last}) = t.tracesTo ends := by
  ext trace
  constructor
  · rintro ⟨state, ⟨inside, _⟩, run⟩
    exact ⟨state, inside, run⟩
  · rintro ⟨state, inside, weight, front, final, run⟩
    refine ⟨state, ⟨inside, ?_⟩, weight, front, final, run⟩
    rintro rfl
    exact nomatch notFinal.symm.trans final

/-- When the last state of a branch at the start becomes final, its own traces there are
replaced by those of the branch, and no others change. -/
theorem Branch.traces_to_set_final {t larger : Transducer} {last : StateId} {spelled : Set Trace}
    (branch : Branch t 0 larger last spelled) (rooted : t.Rooted) (weight : Weight)
    (ends : Set StateId) :
    (larger.setFinal last weight).tracesTo ends =
      t.tracesTo (ends \ {last}) ∪
        { trace | last ∈ ends ∧ trace ∈ spelled * {Trace.ofWeight weight} } := by
  have inside : last < larger.size := branch.target_lt rooted.formed.1
  ext trace
  rw [Set.mem_union, Set.mem_ofPred_eq, Set.mem_mul, ← branch.between_start rooted]
  constructor
  · rintro ⟨state, among, final, front, final_weight, walk, rfl⟩
    rw [walk_set_final] at walk
    rw [final_set_final larger last weight inside] at final_weight
    split at final_weight
    · next same =>
      subst same
      obtain rfl := Option.some.inj final_weight
      exact .inr ⟨among, front, walk, _, rfl, rfl⟩
    · next other =>
      rw [branch.growth.final] at final_weight
      have before := (branch.growth.walk_old_iff (lt_size_of_final final_weight)).mp walk
      exact .inl ⟨state, ⟨among, other⟩, final, front, final_weight, before, rfl⟩
  · rintro (⟨state, ⟨among, other⟩, final, front, final_weight, walk, rfl⟩ | ⟨among, front, walk,
      _, rfl, rfl⟩)
    · have other : state ≠ last := other
      refine ⟨state, among, final, front, ?_,
        (walk_set_final ..).mpr (walk.transport branch.growth.kept), rfl⟩
      rw [final_set_final larger last weight inside, if_neg other, branch.growth.final,
        final_weight]
    · exact ⟨last, among, weight,
        front, by
          rw [final_set_final larger last weight inside, if_pos rfl],
            (walk_set_final ..).mpr walk, rfl⟩

/-- When the last state of a branch at the start becomes final, the traces of the
branch are added. -/
theorem Branch.traces_set_final {t larger : Transducer} {last : StateId} {spelled : Set Trace}
    (branch : Branch t 0 larger last spelled) (rooted : t.Rooted)
    (notFinal : t.final? last = none) (weight : Weight) :
    (larger.setFinal last weight).traces = t.traces ∪ spelled * {Trace.ofWeight weight} := by
  rw [traces_eq, branch.traces_to_set_final rooted, traces_to_diff notFinal, ← traces_eq]
  congr 1
  ext trace
  exact and_iff_right trivial

end MorphLex.Transducer
