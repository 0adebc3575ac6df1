import MorphLex.Proofs.Transducer.Reorder
import MorphLex.Proofs.Transducer.Symbols
import MorphLex.Proofs.Transducer.Useful

/-!
What trimming leaves of weights and symbols. It keeps those of the states and arcs that lie on
an accepting path, in their order, and never looks at any others: transducers that differ
in these alone are trimmed to the same one.
-/

namespace MorphLex

/-- The final weight of a state, then the weights of its arcs. -/
def State.weights (state : State) : List Weight :=
  state.final.toList ++ state.arcs.toList.map Arc.weight

namespace Transducer

/-- All weights, state by state. -/
def weights (t : Transducer) : List Weight := t.states.toList.flatMap State.weights

open Classical in
/-- The weights of a state that count on accepting paths. -/
noncomputable def usefulWeightsAt (t : Transducer) (state : StateId) : List Weight :=
  if t.Traversed state then
    (t.final? state).toList ++
      ((t.arcs state).toList.filter fun arc => t.Productive arc.target).map Arc.weight
  else []

/-- The weights that count on accepting paths, state by state, the final weight of a state
before those of its arcs. -/
noncomputable def usefulWeights (t : Transducer) : List Weight :=
  (List.range t.size).flatMap t.usefulWeightsAt

/-- The symbols on accepting paths, without epsilon. -/
def usefulSymbols (t : Transducer) : Set Symbol :=
  { symbol | symbol ≠ Symbol.epsilon ∧ ∃ state, t.Traversed state ∧
    ∃ arc ∈ t.arcs state, t.Productive arc.target ∧ (symbol = arc.input ∨ symbol = arc.output) }

/-- The same states are final and the same arcs lead to the same states. Weights and symbols are
the same on accepting paths, and may differ elsewhere. -/
structure SameOnPaths (t u : Transducer) : Prop where
  size : t.size = u.size
  ends : ∀ state, t.isFinal state = u.isFinal state
  final : ∀ state, t.Traversed state → t.final? state = u.final? state
  arcs : ∀ state, List.Forall₂ (fun arc other => arc.target = other.target ∧
    (t.Traversed state → t.Productive arc.target → arc = other))
      (t.arcs state).toList (u.arcs state).toList

variable {t u : Transducer}

section Traversed

theorem traversed_target {state : StateId} (traversed : t.Traversed state) {arc : Arc}
    (leaves : arc ∈ t.arcs state) (productive : t.Productive arc.target) :
    t.Traversed arc.target := by
  obtain ⟨⟨path, run⟩, -⟩ := traversed
  exact ⟨⟨path ++ [arc], run.append (.step leaves (.stay _))⟩, productive⟩

theorem Traversed.start {state : StateId} (traversed : t.Traversed state) : t.Traversed 0 := by
  obtain ⟨⟨path, run⟩, onward, last, weight, runOn, ends⟩ := traversed
  exact ⟨⟨[], .stay 0⟩, path ++ onward, last, weight, run.append runOn, ends⟩

theorem exists_accepted_iff : (∃ path weight, t.Accepts path weight) ↔ t.Traversed 0 := by
  constructor
  · rintro ⟨path, weight, last, run, ends⟩
    exact ⟨⟨[], .stay 0⟩, path, last, weight, run, ends⟩
  · rintro ⟨-, path, last, weight, run, ends⟩
    exact ⟨path, weight, last, run, ends⟩

variable (formed : t.WellFormed)

include formed

/-- Of the arcs of a state on an accepting path, those to kept states are those that lead on. -/
theorem target_survives_iff {state : StateId} (traversed : t.Traversed state) {arc : Arc}
    (leaves : arc ∈ t.arcs state) : arc.target ∈ t.survivors ↔ t.Productive arc.target := by
  rw [mem_survivors_iff formed]
  constructor
  · rintro (start | ⟨-, productive⟩)
    · rw [start]
      exact traversed.start.2
    · exact productive
  · exact fun productive => .inr (traversed_target traversed leaves productive)

theorem traversed_of_ahead {state number : StateId} (kept : t.Kept state number)
    (ahead : t.coaccessible.getD state false = true) : t.Traversed state :=
  ⟨(accessible_iff formed state).mp (kept.reached formed), (coaccessible_iff formed state).mp ahead⟩

/-- A start that lies on no accepting path keeps neither a final weight nor an arc. -/
theorem bare_of_not_traversed {state number : StateId} (kept : t.Kept state number)
    (idle : ¬t.Traversed state) : t.trim.final? number = none ∧ t.trim.arcs number = #[] := by
  constructor
  · rw [kept.final, Option.eq_none_iff_forall_ne_some]
    intro weight ends
    exact idle ⟨(accessible_iff formed state).mp (kept.reached formed), [], state, weight,
      .stay state, ends⟩
  · rw [Array.eq_empty_iff_forall_not_mem]
    intro arc leaves
    exact idle (traversed_of_ahead formed kept ((kept.mem_arcs_iff arc).mp leaves).1)

end Traversed

section Weights

theorem flat_map_filter {Item Other : Type} {keeps : Item → Bool} {spell : Item → List Other}
    {items : List Item} (lost : ∀ item ∈ items, keeps item = false → spell item = []) :
    (items.filter keeps).flatMap spell = items.flatMap spell := by
  induction items with
  | nil => rfl
  | cons item items ih =>
      rw [List.forall_mem_cons] at lost
      rw [List.flatMap_cons, ← ih lost.2]
      cases passes : keeps item with
      | true => rw [List.filter_cons_of_pos passes, List.flatMap_cons]
      | false => rw [List.filter_cons_of_neg (by simp [passes]), lost.1 passes, List.nil_append]

theorem weights_eq (t : Transducer) : t.weights =
    (List.range t.size).flatMap fun state =>
      (t.final? state).toList ++ (t.arcs state).toList.map Arc.weight := by
  have states : t.states.toList = (List.range t.size).map fun state => t.states.getD state {} := by
    apply List.ext_getElem
    · rw [List.length_map, List.length_range, Array.length_toList, size]
    · intro state inside _
      simp at inside
      simp [inside]
  rw [weights, states, List.flatMap_map]
  rfl

theorem mem_weights_of_final {state : StateId} {weight : Weight}
    (ends : t.final? state = some weight) : weight ∈ t.weights := by
  rw [weights_eq, List.mem_flatMap]
  exact ⟨state, List.mem_range.mpr (lt_size_of_final ends), List.mem_append_left _ (by simp [ends])⟩

theorem mem_weights_of_arc {state : StateId} {arc : Arc} (leaves : arc ∈ t.arcs state) :
    arc.weight ∈ t.weights := by
  rw [weights_eq, List.mem_flatMap]
  refine ⟨state, List.mem_range.mpr (lt_size_of_mem_arcs leaves), List.mem_append_right _ ?_⟩
  exact List.mem_map_of_mem (Array.mem_toList_iff.mpr leaves)

theorem traversed_of_useful_weight {weight : Weight} (useful : weight ∈ t.usefulWeights) :
    t.Traversed 0 := by
  obtain ⟨state, -, listed⟩ := List.mem_flatMap.mp useful
  rw [usefulWeightsAt] at listed
  split at listed
  · next traversed => exact traversed.start
  · simp at listed

variable (formed : t.WellFormed)

include formed

open Classical in
theorem weights_of_kept {state number : StateId} (kept : t.Kept state number) :
    (t.trim.final? number).toList ++ (t.trim.arcs number).toList.map Arc.weight =
      t.usefulWeightsAt state := by
  rw [usefulWeightsAt]
  split
  · next traversed =>
    have ahead := (coaccessible_iff formed state).mpr traversed.2
    have same : (t.arcs state).toList.filter (fun arc => arc.target ∈ t.survivors) =
        (t.arcs state).toList.filter fun arc => t.Productive arc.target := by
      apply List.filter_congr
      intro arc leaves
      simp only [target_survives_iff formed traversed (Array.mem_toList_iff.mp leaves)]
    rw [kept.final, kept.arcs ahead, Array.toList_map, Array.toList_filter, List.map_map, ← same]
    rfl
  · next idle =>
    obtain ⟨final, arcs⟩ := bare_of_not_traversed formed kept idle
    rw [final, arcs]
    rfl

/-- The weights that trimming leaves are those on accepting paths, in their order. -/
theorem weights_trim : t.trim.weights = t.usefulWeights := by
  rw [weights_eq, usefulWeights, size_trim]
  have numbered : (List.range t.survivors.length).map (fun number =>
      (t.trim.final? number).toList ++ (t.trim.arcs number).toList.map Arc.weight) =
        t.survivors.map t.usefulWeightsAt := by
    apply List.ext_getElem
    · simp
    · intro number inside _
      simp at inside
      have kept :=
        (kept_iff_survivor t t.survivors[number] number).mpr (List.getElem?_eq_getElem inside)
      simp [weights_of_kept formed kept]
  have lost : ∀ state ∈ List.range t.size, t.useful.getD state false = false →
    t.usefulWeightsAt state = [] := by
    intro state inside unmarked
    rw [usefulWeightsAt, if_neg]
    intro traversed
    have listed := (mem_survivors_iff formed state).mpr (.inr traversed)
    rw [survivors, List.mem_filter, unmarked] at listed
    exact Bool.false_ne_true listed.2
  rw [List.flatMap_def, numbered, ← List.flatMap_def, survivors, flat_map_filter lost]

/-- The symbols that trimming leaves are those on accepting paths. -/
theorem used_symbols_trim : t.trim.usedSymbols = t.usefulSymbols := by
  ext symbol
  constructor
  · rintro ⟨plain, number, arc, leaves, shown⟩
    obtain ⟨state, kept⟩ := exists_kept_of_lt (lt_size_of_mem_arcs leaves)
    obtain ⟨ahead, original, departs, target, found, rfl⟩ := (kept.mem_arcs_iff arc).mp leaves
    have traversed := traversed_of_ahead formed kept ahead
    exact ⟨plain, state, traversed, original, departs,
      (target_survives_iff formed traversed departs).mp (mem_survivors_of_kept found), shown⟩
  · rintro ⟨plain, state, traversed, arc, leaves, productive, shown⟩
    obtain ⟨number, found⟩ :=
      List.mem_iff_getElem?.mp ((mem_survivors_iff formed state).mpr (.inr traversed))
    have kept := (kept_iff_survivor t state number).mpr found
    obtain ⟨ahead, target, there⟩ := kept.next formed leaves productive
    exact ⟨plain, number, _,
      (kept.mem_arcs_iff _).mpr ⟨ahead, arc, leaves, target, there, rfl⟩, shown⟩

end Weights

section Same

theorem eq_of_views (size : t.size = u.size)
    (same : ∀ state < t.size, t.final? state = u.final? state ∧ t.arcs state = u.arcs state) :
    t = u := by
  apply congrArg Transducer.mk
  apply Array.ext size
  intro state inside insideToo
  obtain ⟨ends, leaves⟩ := same state inside
  rw [final_eq, final_eq, Array.getElem?_eq_getElem inside,
    Array.getElem?_eq_getElem insideToo] at ends
  rw [arcs_eq, arcs_eq, Array.getElem?_eq_getElem inside,
    Array.getElem?_eq_getElem insideToo] at leaves
  exact congrArg₂ State.mk leaves ends

namespace SameOnPaths

theorem same_shape (alike : SameOnPaths t u) : SameShape t u where
  size := alike.size
  ends := alike.ends
  leads state target := by
    have targets : (t.arcs state).toList.map Arc.target = (u.arcs state).toList.map Arc.target := by
      rw [← List.forall₂_eq_eq_eq, List.forall₂_map_left_iff, List.forall₂_map_right_iff]
      exact (alike.arcs state).imp fun _ _ paired => paired.1
    have listed (t : Transducer) : (∃ arc ∈ t.arcs state, arc.target = target) ↔
      target ∈ (t.arcs state).toList.map Arc.target := by
      simp only [List.mem_map, Array.mem_toList_iff]
    rw [listed, listed, targets]

theorem filter_arcs (alike : SameOnPaths t u) (formed : t.WellFormed) {state : StateId}
    (traversed : t.Traversed state) :
    (t.arcs state).toList.filter (fun arc => arc.target ∈ t.survivors) =
      (u.arcs state).toList.filter fun arc => arc.target ∈ t.survivors := by
  have each := (List.forall₂_and_left _ _).mpr ⟨fun arc listed => listed, alike.arcs state⟩
  have paired : List.Forall₂
    (fun arc other => arc.target = other.target ∧ (arc.target ∈ t.survivors → arc = other))
      (t.arcs state).toList (u.arcs state).toList := by
    apply each.imp
    rintro arc other ⟨leaves, target, same⟩
    exact ⟨target, fun listed =>
      same traversed
        ((target_survives_iff formed traversed (Array.mem_toList_iff.mp leaves)).mp listed)⟩
  generalize (t.arcs state).toList = arcs at paired
  generalize (u.arcs state).toList = others at paired
  induction paired with
  | nil => rfl
  | @cons arc other arcs others here _ ih =>
      rw [List.filter_cons, List.filter_cons, ih, ← here.1]
      by_cases listed : arc.target ∈ t.survivors
      · rw [here.2 listed]
      · simp [listed]

/-- Trimming does not look at what is different. -/
protected theorem trim (alike : SameOnPaths t u) (formed : t.WellFormed) : t.trim = u.trim := by
  have useful := alike.same_shape.useful
  have survivors : t.survivors = u.survivors := by
    rw [Transducer.survivors, Transducer.survivors, useful, alike.size]
  have size : t.trim.size = u.trim.size := by rw [size_trim, size_trim, survivors]
  have same {state number : StateId} (kept : t.Kept state number) : u.Kept state number := by
    rwa [Kept, ← useful]
  refine eq_of_views size fun number inside => ?_
  obtain ⟨state, kept⟩ := exists_kept_of_lt inside
  by_cases traversed : t.Traversed state
  · have ahead := (coaccessible_iff formed state).mpr traversed.2
    refine ⟨by rw [kept.final, (same kept).final, alike.final state traversed], ?_⟩
    rw [kept.arcs ahead, (same kept).arcs (alike.same_shape.coaccessible state ▸ ahead),
      ← survivors]
    apply Array.toList_inj.mp
    rw [Array.toList_map, Array.toList_filter, alike.filter_arcs formed traversed, Array.toList_map,
      Array.toList_filter]
  · obtain ⟨final, arcs⟩ := bare_of_not_traversed formed kept traversed
    have ends := alike.ends state
    rw [isFinal, ← kept.final, final, isFinal, ← (same kept).final] at ends
    have idle : u.trim.arcs number = #[] := by
      rw [Array.eq_empty_iff_forall_not_mem]
      intro arc leaves
      have ahead := (((same kept).mem_arcs_iff arc).mp leaves).1
      rw [← alike.same_shape.coaccessible] at ahead
      exact traversed (traversed_of_ahead formed kept ahead)
    rw [final, arcs, idle, Option.isSome_eq_false_iff.mp ends.symm |> Option.isNone_iff_eq_none.mp]
    exact ⟨rfl, rfl⟩

end SameOnPaths

end Same

end Transducer

end MorphLex
