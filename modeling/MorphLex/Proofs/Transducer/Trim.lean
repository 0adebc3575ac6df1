import MorphLex.Proofs.Graph.Reach
import MorphLex.Proofs.Transducer.Simulation
import MorphLex.Transducer.Trim

/-!
Trimming keeps the accepting paths. A state that is kept gets a number, and its
arcs and final weight reappear under it; the arcs that are lost lead to states
from which no final state is reached.
-/

namespace MorphLex.Transducer

open Reach

variable {t : Transducer}

section Predecessors

theorem size_sources (source : StateId) (arcs : List Arc) (sources : Array (List StateId)) :
    (arcs.foldl (fun sources arc => sources.modify arc.target (source :: ·)) sources).size =
      sources.size := by
  induction arcs generalizing sources with
  | nil => rfl
  | cons arc arcs ih => rw [List.foldl_cons, ih, Array.size_modify]

theorem mem_sources_iff (source : StateId) (arcs : List Arc) (sources : Array (List StateId))
    {target : StateId} (inside : target < sources.size) (state : StateId) :
    state ∈ (arcs.foldl (fun sources arc => sources.modify arc.target (source :: ·)) sources).getD
      target [] ↔
      state ∈ sources.getD target [] ∨ (state = source ∧ ∃ arc ∈ arcs, arc.target = target) := by
  induction arcs generalizing sources with
  | nil => simp
  | cons arc arcs ih =>
      rw [List.foldl_cons, ih _ (by rwa [Array.size_modify])]
      have added : state ∈ (sources.modify arc.target (source :: ·)).getD target [] ↔
          state ∈ sources.getD target [] ∨ (state = source ∧ arc.target = target) := by
        rw [Array.getD_eq_getD_getElem?, Array.getElem?_modify, Array.getD_eq_getD_getElem?,
          Array.getElem?_eq_getElem inside]
        by_cases same : arc.target = target
        · simp [same, or_comm]
        · simp [same]
      simp only [added, List.mem_cons, exists_eq_or_imp]
      tauto

theorem mem_all_sources_iff (states : List State) (offset : Nat) (sources : Array (List StateId))
    {target : StateId} (inside : target < sources.size) (state : Nat) :
    state ∈ ((states.zipIdx offset).foldl (fun sources (state, source) =>
        state.arcs.toList.foldl
          (fun sources arc => sources.modify arc.target (source :: ·)) sources)
        sources).getD target [] ↔
      state ∈ sources.getD target [] ∨
        ∃ place value, states[place]? = some value ∧ state = offset + place ∧
          ∃ arc ∈ value.arcs, arc.target = target := by
  induction states generalizing offset sources with
  | nil => simp
  | cons first states ih =>
      rw [List.zipIdx_cons, List.foldl_cons, ih _ _ (by rwa [size_sources]),
        mem_sources_iff _ _ _ inside]
      constructor
      · rintro ((before | ⟨rfl, arc, leaves, enters⟩) | ⟨place, value, found, same, enters⟩)
        · exact .inl before
        · exact .inr ⟨0, first, rfl, rfl, arc, Array.mem_toList_iff.mp leaves, enters⟩
        · exact .inr ⟨place + 1, value, by simpa using found, by omega, enters⟩
      · rintro (before | ⟨place, value, found, same, arc, leaves, enters⟩)
        · exact .inl (.inl before)
        · cases place with
          | zero =>
              obtain rfl := Option.some.inj found
              exact .inl (.inr ⟨same, arc, Array.mem_toList_iff.mpr leaves, enters⟩)
          | succ place =>
              exact .inr ⟨place, value, by simpa using found, by omega, arc, leaves, enters⟩

theorem mem_predecessors_iff (t : Transducer) {target : StateId} (inside : target < t.size)
    (state : StateId) :
    state ∈ t.predecessors.getD target [] ↔ ∃ arc ∈ t.arcs state, arc.target = target := by
  have blank : (Array.replicate t.size ([] : List StateId)).getD target [] = [] := by
    rw [Array.getD_eq_getD_getElem?, Array.getElem?_replicate, if_pos inside]
    rfl
  simp only [predecessors, ← Array.foldl_toList]
  rw [mem_all_sources_iff _ _ _ (by rwa [Array.size_replicate]), blank]
  constructor
  · rintro (impossible | ⟨place, value, found, rfl, enters⟩)
    · simp at impossible
    · rw [Array.getElem?_toList] at found
      rw [Nat.zero_add, arcs_eq, found]
      exact enters
  · rintro ⟨arc, leaves, enters⟩
    have present : state < t.states.size := lt_size_of_mem_arcs leaves
    rw [arcs_eq, Array.getElem?_eq_getElem present] at leaves
    refine .inr ⟨state, t.states[state], ?_, (Nat.zero_add state).symm, arc, leaves, enters⟩
    rw [Array.getElem?_toList, Array.getElem?_eq_getElem present]

end Predecessors

section Marks

theorem accessible_start (positive : 0 < t.size) : t.accessible.getD 0 false = true :=
  (marked_closure_iff _ _ _ 0).mpr (.seed List.mem_cons_self positive)

theorem accessible_target (formed : t.WellFormed) {state : StateId} {arc : Arc}
    (leaves : arc ∈ t.arcs state) (marked : t.accessible.getD state false = true) :
    t.accessible.getD arc.target false = true := by
  have met := (marked_closure_iff _ _ _ state).mp marked
  refine (marked_closure_iff _ _ _ arc.target).mpr (.step met ?_ (formed.target_lt leaves))
  exact List.mem_map_of_mem (Array.mem_toList_iff.mpr leaves)

theorem coaccessible_final {state : StateId} {weight : Weight}
    (ends : t.final? state = some weight) : t.coaccessible.getD state false = true := by
  refine (marked_closure_iff _ _ _ state).mpr (.seed ?_ (lt_size_of_final ends))
  exact List.mem_map.mpr ⟨(state, weight), (mem_finals_iff t state weight).mpr ends, rfl⟩

theorem coaccessible_source (formed : t.WellFormed) {state : StateId} {arc : Arc}
    (leaves : arc ∈ t.arcs state) (marked : t.coaccessible.getD arc.target false = true) :
    t.coaccessible.getD state false = true := by
  have met := (marked_closure_iff _ _ _ arc.target).mp marked
  refine (marked_closure_iff _ _ _ state).mpr (.step met ?_ (lt_size_of_mem_arcs leaves))
  exact (mem_predecessors_iff t (formed.target_lt leaves) state).mpr ⟨arc, leaves, rfl⟩

/-- A state that is marked as leading to a final state is final, or has an arc to such a state. -/
theorem coaccessible_cases {state : StateId} (marked : t.coaccessible.getD state false = true) :
    (∃ weight, t.final? state = some weight) ∨
      ∃ arc ∈ t.arcs state, t.coaccessible.getD arc.target false = true := by
  cases (marked_closure_iff _ _ _ state).mp marked with
  | seed listed inside =>
      obtain ⟨⟨found, weight⟩, final, rfl⟩ := List.mem_map.mp listed
      exact .inl ⟨weight, (mem_finals_iff t found weight).mp final⟩
  | @step node _ before arrow inside =>
      have within : node < t.size := by cases before <;> assumption
      obtain ⟨arc, leaves, rfl⟩ := (mem_predecessors_iff t within state).mp arrow
      exact .inr ⟨arc, leaves, (marked_closure_iff _ _ _ arc.target).mpr before⟩

theorem Productive.coaccessible (formed : t.WellFormed) {state : StateId}
    (productive : t.Productive state) : t.coaccessible.getD state false = true := by
  obtain ⟨path, last, weight, run, ends⟩ := productive
  induction run with
  | stay state => exact coaccessible_final ends
  | step leaves _ ih => exact coaccessible_source formed leaves (ih ends)

end Marks

section Numbers

/-- Marked places are numbered one behind the other. -/
theorem renumber_eq_some_iff (next : StateId) (marks : List Bool) (place number : Nat) :
    (renumberFrom next marks)[place]? = some (some number) ↔
      marks[place]? = some true ∧ number = next + (marks.take place).count true := by
  induction marks generalizing next place with
  | nil => simp [renumberFrom]
  | cons mark marks ih =>
      cases place with
      | zero =>
          cases mark with
          | true => simp [renumberFrom, eq_comm]
          | false => simp [renumberFrom]
      | succ place =>
          cases mark with
          | true =>
              rw [renumberFrom, List.getElem?_cons_succ, ih, List.getElem?_cons_succ,
                List.take_succ_cons, List.count_cons_self]
              simp only [Nat.add_assoc, Nat.add_comm 1]
          | false =>
              rw [renumberFrom, List.getElem?_cons_succ, ih, List.getElem?_cons_succ,
                List.take_succ_cons, List.count_cons_of_ne (by decide)]

theorem is_some_renumber (next : StateId) (marks : List Bool) (place : Nat) :
    ((renumberFrom next marks)[place]?.getD none).isSome = marks[place]?.getD false := by
  induction marks generalizing next place with
  | nil => rfl
  | cons mark marks ih =>
      cases place with
      | zero => cases mark <;> rfl
      | succ place => cases mark <;> simp only [renumberFrom, List.getElem?_cons_succ, ih]

/-- Below the number of marks every number is that of a marked place. -/
theorem exists_marked_of_lt_count {marks : List Bool} {number : Nat}
    (below : number < marks.count true) :
    ∃ place : Nat, marks[place]? = some true ∧ (marks.take place).count true = number := by
  induction marks generalizing number with
  | nil => simp at below
  | cons mark marks ih =>
      cases mark with
      | true =>
          cases number with
          | zero => exact ⟨0, rfl, rfl⟩
          | succ number =>
              rw [List.count_cons_self] at below
              obtain ⟨place, marked, counted⟩ := ih (Nat.lt_of_succ_lt_succ below)
              exact ⟨place + 1, marked, by rw [List.take_succ_cons, List.count_cons_self, counted]⟩
      | false =>
          rw [List.count_cons_of_ne (by decide)] at below
          obtain ⟨place, marked, counted⟩ := ih below
          exact ⟨place + 1,
            marked, by rw [List.take_succ_cons, List.count_cons_of_ne (by decide), counted]⟩

theorem get_elem_kept {Item Result : Type} (build : Item → Nat → Result)
    (numbers : Array (Option StateId)) (items : List Item) (marks : List Bool) (offset : Nat)
    (lengths : items.length = marks.length)
    (numbered : ∀ place, (numbers.getD (offset + place) none).isSome = marks[place]?.getD false) :
    let kept := (items.zipIdx offset).filterMap fun (item, number) =>
      (numbers.getD number none).map fun _ => build item number
    kept.length = marks.count true ∧ ∀ place, marks[place]? = some true →
      kept[(marks.take place).count true]? = items[place]?.map fun item =>
        build item (offset + place) := by
  induction items generalizing marks offset with
  | nil =>
      obtain rfl : marks = [] := List.length_eq_zero_iff.mp lengths.symm
      exact ⟨rfl, fun place impossible => by simp at impossible⟩
  | cons item items ih =>
      cases marks with
      | nil => simp at lengths
      | cons mark marks =>
          obtain ⟨length, places⟩ := ih marks (offset + 1) (by simpa using lengths) fun place => by
            rw [Nat.add_assoc, Nat.add_comm 1 place, numbered (place + 1), List.getElem?_cons_succ]
          have head : (numbers.getD offset none).isSome = mark := numbered 0
          simp only [List.zipIdx_cons, List.filterMap_cons]
          cases entry : numbers.getD offset none with
          | some number =>
              obtain rfl : true = mark := by rw [← head, entry]; rfl
              simp only [Option.map_some]
              refine ⟨by rw [List.length_cons, length, List.count_cons_self],
                fun place marked => ?_⟩
              cases place with
              | zero => rfl
              | succ place =>
                  rw [List.take_succ_cons, List.count_cons_self, List.getElem?_cons_succ,
                    List.getElem?_cons_succ, places place marked, Nat.add_assoc, Nat.add_comm 1]
          | none =>
              obtain rfl : false = mark := by rw [← head, entry]; rfl
              simp only [Option.map_none]
              refine ⟨by rw [length, List.count_cons_of_ne (by decide)], fun place marked => ?_⟩
              cases place with
              | zero => simp at marked
              | succ place =>
                  rw [List.take_succ_cons, List.count_cons_of_ne (by decide),
                    List.getElem?_cons_succ, places place marked, Nat.add_assoc, Nat.add_comm 1]

end Numbers

/-- Trimming keeps the state under that number. -/
def Kept (t : Transducer) (state number : StateId) : Prop :=
  (renumberFrom 0 t.useful)[state]? = some (some number)

theorem length_useful (t : Transducer) : t.useful.length = t.size := by
  rw [useful, List.length_map, List.length_range]

theorem useful_iff (t : Transducer) (state : StateId) :
    t.useful[state]? = some true ↔ state < t.size ∧
      (state = 0 ∨
        (t.accessible.getD state false = true ∧ t.coaccessible.getD state false = true)) := by
  rw [useful, List.getElem?_map]
  by_cases inside : state < t.size
  · rw [List.getElem?_range inside]
    simp [inside]
  · rw [List.getElem?_eq_none (by rw [List.length_range]; exact Nat.le_of_not_lt inside)]
    simp [inside]

theorem kept_iff (t : Transducer) (state number : StateId) :
    t.Kept state number ↔
      t.useful[state]? = some true ∧ number = (t.useful.take state).count true := by
  rw [Kept, renumber_eq_some_iff, Nat.zero_add]

theorem kept_of_useful {state : StateId} (marked : t.useful[state]? = some true) :
    ∃ number, t.Kept state number :=
  ⟨_, (kept_iff t state _).mpr ⟨marked, rfl⟩⟩

theorem kept_start (positive : 0 < t.size) : t.Kept 0 0 :=
  (kept_iff t 0 0).mpr ⟨(useful_iff t 0).mpr ⟨positive, .inl rfl⟩, rfl⟩

theorem numbers_getD_eq_some_iff (t : Transducer) (state number : StateId) :
    (renumberFrom 0 t.useful).toArray.getD state none = some number ↔ t.Kept state number := by
  rw [Array.getD_eq_getD_getElem?, List.getElem?_toArray, Kept]
  cases (renumberFrom 0 t.useful)[state]? <;> simp

theorem states_trim (t : Transducer) :
    t.trim.size = t.useful.count true ∧ ∀ state number, t.Kept state number →
      t.trim.states[number]? = t.states[state]?.map fun value =>
        trimState (renumberFrom 0 t.useful).toArray value (t.coaccessible.getD state false) := by
  obtain ⟨length, places⟩ := get_elem_kept (fun value number =>
      trimState (renumberFrom 0 t.useful).toArray value (t.coaccessible.getD number false))
    (renumberFrom 0 t.useful).toArray t.states.toList t.useful 0
    (by rw [length_useful, size, Array.length_toList])
    (fun place => by
      rw [Nat.zero_add, Array.getD_eq_getD_getElem?, List.getElem?_toArray]
      exact is_some_renumber 0 t.useful place)
  refine ⟨by rw [size, trim, List.size_toArray]; exact length, fun state number kept => ?_⟩
  obtain ⟨marked, rfl⟩ := (kept_iff t state number).mp kept
  rw [trim, List.getElem?_toArray, places state marked, Nat.zero_add, Array.getElem?_toList]

theorem Kept.lt_size {state number : StateId} (kept : t.Kept state number) : state < t.size :=
  ((useful_iff t state).mp ((kept_iff t state number).mp kept).1).1

theorem exists_kept_of_lt {number : StateId} (inside : number < t.trim.size) :
    ∃ state, t.Kept state number := by
  rw [(states_trim t).1] at inside
  obtain ⟨state, marked, counted⟩ := exists_marked_of_lt_count inside
  exact ⟨state, (kept_iff t state number).mpr ⟨marked, counted.symm⟩⟩

theorem Kept.number_lt {state number : StateId} (kept : t.Kept state number) :
    number < t.trim.size := by
  have found := (states_trim t).2 state number kept
  rw [Array.getElem?_eq_getElem kept.lt_size, Option.map_some] at found
  exact (Array.getElem?_eq_some_iff.mp found).1

theorem Kept.final {state number : StateId} (kept : t.Kept state number) :
    t.trim.final? number = t.final? state := by
  rw [final_eq, (states_trim t).2 state number kept, final_eq]
  cases t.states[state]? <;> rfl

theorem Kept.mem_arcs_iff {state number : StateId} (kept : t.Kept state number) (arc : Arc) :
    arc ∈ t.trim.arcs number ↔ t.coaccessible.getD state false = true ∧
      ∃ original ∈ t.arcs state, ∃ target, t.Kept original.target target ∧
      arc = { original with target } := by
  rw [arcs_eq, (states_trim t).2 state number kept, arcs_eq, Array.getElem?_eq_getElem kept.lt_size,
    Option.map_some, Option.getD_some, Option.getD_some, trimState]
  by_cases live : t.coaccessible.getD state false = true
  · simp only [live, if_true, Array.mem_filterMap, Option.map_eq_some_iff,
      numbers_getD_eq_some_iff, true_and]
    constructor
    · rintro ⟨original, leaves, target, found, rfl⟩
      exact ⟨original, leaves, target, found, rfl⟩
    · rintro ⟨original, leaves, target, found, rfl⟩
      exact ⟨original, leaves, target, found, rfl⟩
  · simp [live]

/-- Apart from the start, a kept state is final or has an arc. -/
theorem Kept.leads_on (formed : t.WellFormed) {state number : StateId}
    (kept : t.Kept state number) :
    number = 0 ∨ (∃ weight, t.trim.final? number = some weight) ∨
      ∃ arc, arc ∈ t.trim.arcs number := by
  obtain ⟨useful, rfl⟩ := (kept_iff t state number).mp kept
  obtain ⟨-, rfl | ⟨reached, ahead⟩⟩ := (useful_iff t state).mp useful
  · exact .inl rfl
  · refine .inr ?_
    rcases coaccessible_cases ahead with ⟨weight, ends⟩ | ⟨arc, leaves, onward⟩
    · exact .inl ⟨weight, by rw [kept.final, ends]⟩
    · obtain ⟨target, found⟩ := kept_of_useful ((useful_iff t arc.target).mpr
        ⟨formed.target_lt leaves, .inr ⟨accessible_target formed leaves reached, onward⟩⟩)
      exact .inr ⟨_, (kept.mem_arcs_iff _).mpr ⟨ahead, arc, leaves, target, found, rfl⟩⟩

theorem well_formed_trim (formed : t.WellFormed) : t.trim.WellFormed := by
  rw [well_formed_iff]
  refine ⟨(kept_start formed.1).number_lt, fun number arc leaves => ?_⟩
  obtain ⟨state, kept⟩ := exists_kept_of_lt (lt_size_of_mem_arcs leaves)
  obtain ⟨-, original, -, target, found, rfl⟩ := (kept.mem_arcs_iff arc).mp leaves
  exact found.number_lt

theorem labels_retarget (original : Arc) (target : StateId) :
    labels [{ original with target }] = labels [original] := rfl

theorem Kept.reached (formed : t.WellFormed) {state number : StateId} (kept : t.Kept state number) :
    t.accessible.getD state false = true := by
  obtain ⟨-, rfl | ⟨marked, -⟩⟩ := (useful_iff t state).mp ((kept_iff t state number).mp kept).1
  · exact accessible_start formed.1
  · exact marked

/-- A kept state is reached, so that each arc to a state that leads on is kept with it. -/
theorem simulates_trim (formed : t.WellFormed) : t.Simulates t.trim t.Kept where
  start := kept_start formed.1
  step := by
    intro state number arc kept leaves productive
    have reached := kept.reached formed
    have ahead := productive.coaccessible formed
    obtain ⟨target, found⟩ := kept_of_useful ((useful_iff t arc.target).mpr
      ⟨formed.target_lt leaves, .inr ⟨accessible_target formed leaves reached, ahead⟩⟩)
    have answer :=
      (kept.mem_arcs_iff _).mpr ⟨coaccessible_source formed leaves ahead, arc, leaves,
        target, found, rfl⟩
    exact ⟨_, target, .step answer (.stay target), labels_retarget arc target, found⟩
  final := by
    intro state number weight kept ends
    exact ⟨weight, by rw [kept.final, ends], rfl⟩

theorem trim_simulates (formed : t.WellFormed) :
    t.trim.Simulates t fun number state => t.Kept state number where
  start := kept_start formed.1
  step := by
    intro number state arc kept leaves _
    obtain ⟨-, original, origin, target, found, rfl⟩ := (kept.mem_arcs_iff arc).mp leaves
    exact ⟨[original], original.target, .step origin (.stay _),
      labels_retarget original target, found⟩
  final := by
    intro number state weight kept ends
    exact ⟨weight, by rw [← kept.final, ends], rfl⟩

section Again

theorem Kept.unique {state number other : StateId} (kept : t.Kept state number)
    (again : t.Kept state other) : number = other :=
  Option.some.inj (Option.some.inj (Eq.trans (Eq.symm kept) again))

/-- The arcs on the way to a useful state are kept, and so is the way. -/
theorem Kept.accessible (formed : t.WellFormed) {state number : StateId}
    (kept : t.Kept state number) (reached : t.accessible.getD state false = true)
    (ahead : t.coaccessible.getD state false = true) :
    t.trim.accessible.getD number false = true := by
  have met := (marked_closure_iff _ _ _ state).mp reached
  induction met generalizing number with
  | seed listed inside =>
      obtain rfl := List.mem_singleton.mp listed
      obtain rfl := kept.unique (kept_start formed.1)
      exact accessible_start (kept_start formed.1).number_lt
  | @step node successor before arrow inside ih =>
      obtain ⟨arc, leaves, rfl⟩ := List.mem_map.mp arrow
      rw [Array.mem_toList_iff] at leaves
      have onward := coaccessible_source formed leaves ahead
      have found := (marked_closure_iff _ _ _ node).mpr before
      obtain ⟨source, origin⟩ := kept_of_useful ((useful_iff t node).mpr
        ⟨lt_size_of_mem_arcs leaves, .inr ⟨found, onward⟩⟩)
      have answer := (origin.mem_arcs_iff _).mpr ⟨onward, arc, leaves, number, kept, rfl⟩
      exact accessible_target (well_formed_trim formed) answer (ih origin found onward)

theorem Kept.coaccessible (formed : t.WellFormed) {state number : StateId}
    (kept : t.Kept state number) (reached : t.accessible.getD state false = true)
    (ahead : t.coaccessible.getD state false = true) :
    t.trim.coaccessible.getD number false = true := by
  have met := (marked_closure_iff _ _ _ state).mp ahead
  induction met generalizing number with
  | seed listed inside =>
      obtain ⟨⟨state, weight⟩, final, rfl⟩ := List.mem_map.mp listed
      exact coaccessible_final (by rw [kept.final]; exact (mem_finals_iff t state weight).mp final)
  | @step node state before arrow inside ih =>
      have within : node < t.size := by cases before <;> assumption
      obtain ⟨arc, leaves, rfl⟩ := (mem_predecessors_iff t within state).mp arrow
      have onward := (marked_closure_iff _ _ _ arc.target).mpr before
      have found := accessible_target formed leaves reached
      obtain ⟨target, place⟩ :=
        kept_of_useful ((useful_iff t arc.target).mpr ⟨within, .inr ⟨found, onward⟩⟩)
      have answer := (kept.mem_arcs_iff _).mpr ⟨ahead, arc, leaves, target, place, rfl⟩
      exact coaccessible_source (well_formed_trim formed) answer (ih place found onward)

/-- Every state of a trimmed transducer is useful. -/
theorem useful_trim (formed : t.WellFormed) : t.trim.useful = List.replicate t.trim.size true := by
  apply List.ext_getElem?
  intro number
  rw [List.getElem?_replicate]
  split
  · next inside =>
    obtain ⟨state, kept⟩ := exists_kept_of_lt inside
    rw [useful_iff]
    refine ⟨inside, ?_⟩
    obtain ⟨marked, rfl⟩ := (kept_iff t state number).mp kept
    obtain ⟨-, rfl | ⟨reached, ahead⟩⟩ := (useful_iff t state).mp marked
    · exact .inl rfl
    · exact .inr ⟨kept.accessible formed reached ahead, kept.coaccessible formed reached ahead⟩
  · next outside =>
    rw [List.getElem?_eq_none_iff, length_useful]
    exact Nat.le_of_not_lt outside

/-- When every state is useful, each keeps its number. -/
theorem kept_iff_of_useful (useful : t.useful = List.replicate t.size true)
    (state number : StateId) : t.Kept state number ↔ state < t.size ∧ number = state := by
  rw [kept_iff, useful, List.getElem?_replicate, List.take_replicate, List.count_replicate_self]
  constructor
  · rintro ⟨marked, rfl⟩
    have inside : state < t.size := by
      by_contra outside
      simp [outside] at marked
    exact ⟨inside, Nat.min_eq_left inside.le⟩
  · rintro ⟨inside, rfl⟩
    exact ⟨if_pos inside, (Nat.min_eq_left inside.le).symm⟩

/-- Trimming finds nothing to do when every state is useful, and a start that leads nowhere has
no arcs. -/
theorem trim_of_useful (formed : t.WellFormed) (useful : t.useful = List.replicate t.size true)
    (bare : ∀ state, ¬t.coaccessible.getD state false = true → t.arcs state = #[]) :
    t.trim = t := by
  have size : t.trim.size = t.size := by
    rw [(states_trim t).1, useful, List.count_replicate_self]
  have states : t.trim.states = t.states := by
    apply Array.ext size
    intro number insideTrim inside
    have kept : t.Kept number number := (kept_iff_of_useful useful number number).mpr ⟨inside, rfl⟩
    have found := (states_trim t).2 number number kept
    rw [Array.getElem?_eq_getElem insideTrim, Array.getElem?_eq_getElem inside, Option.map_some,
      Option.some.injEq] at found
    rw [found, trimState]
    have arcs : t.states[number].arcs = t.arcs number := by
      rw [arcs_eq, Array.getElem?_eq_getElem inside, Option.getD_some]
    have same : (if t.coaccessible.getD number false = true then
        t.states[number].arcs.filterMap fun arc =>
          ((renumberFrom 0 t.useful).toArray.getD arc.target none).map fun target =>
            { arc with target }
        else #[]) = t.states[number].arcs := by
      split
      · apply Array.toList_inj.mp
        rw [Array.toList_filterMap, List.filterMap_eq_map_iff_forall_eq_some.mpr, List.map_id]
        intro arc member
        rw [Array.mem_toList_iff, arcs] at member
        have target := formed.target_lt member
        rw [(numbers_getD_eq_some_iff _ _ _).mpr
          ((kept_iff_of_useful useful _ _).mpr ⟨target, rfl⟩)]
        rfl
      · next dead => rw [arcs, bare number dead]
    rw [same]
  exact congrArg Transducer.mk states

/-- A state that leads nowhere has lost its arcs. -/
theorem arcs_trim_of_dead (formed : t.WellFormed) {number : StateId}
    (dead : ¬t.trim.coaccessible.getD number false = true) : t.trim.arcs number = #[] := by
  rw [Array.eq_empty_iff_forall_not_mem]
  intro arc leaves
  obtain ⟨state, kept⟩ := exists_kept_of_lt (lt_size_of_mem_arcs leaves)
  obtain ⟨ahead, original, departs, target, found, rfl⟩ := (kept.mem_arcs_iff arc).mp leaves
  apply dead
  exact kept.coaccessible formed (kept.reached formed) ahead

/-- Trimming finds nothing to do in a trimmed transducer. -/
theorem trim_trim (formed : t.WellFormed) : t.trim.trim = t.trim :=
  trim_of_useful (well_formed_trim formed) (useful_trim formed) fun _ => arcs_trim_of_dead formed

end Again

end MorphLex.Transducer
