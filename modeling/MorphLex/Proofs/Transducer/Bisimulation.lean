import MorphLex.Proofs.Order.Ascending
import MorphLex.Proofs.Transducer.Merge

/-!
Merging leaves nothing to merge. States that a bisimulation relates stay in one block
through all rounds, and what it relates in the merged transducer is equal.

A round leaves out the arcs that are idle in its blocks, and a later round may take up
again what an earlier one has left out. So the rounds are compared with the partition
that they end with: an arc that is idle there has been idle in every round before.
-/

namespace MorphLex

/-- The arcs read, write and cost the same; a zero of either sign is zero. -/
structure Arc.Matches (first second : Arc) : Prop where
  input : first.input = second.input
  output : first.output = second.output
  weight : first.weight.plain = second.weight.plain

namespace Transducer

/-- Related states are final with the same weight or both not final, and each arc of one
is matched by an arc of the other into a related state. -/
structure Bisimulation (t : Transducer) (related : StateId → StateId → Prop) : Prop where
  final : ∀ first second, related first second →
    (t.final? first).map Weight.plain = (t.final? second).map Weight.plain
  forth : ∀ first second, related first second → ∀ arc ∈ t.arcs first,
    ∃ answer ∈ t.arcs second, arc.Matches answer ∧ related arc.target answer.target
  back : ∀ first second, related first second → ∀ arc ∈ t.arcs second,
    ∃ answer ∈ t.arcs first, arc.Matches answer ∧ related answer.target arc.target

/-- The state of the minimized transducer that a trimmed state is merged into. -/
def representative (t : Transducer) (state : StateId) : StateId :=
  (t.trim.refineAll t.trim.size t.trim.initialPartition).getD state 0

/-- Every state of `small` stands for states of `t`, and has their final weight and their
arcs. A silent arc of no weight between states that are merged is left out. -/
structure Represents (small t : Transducer) (into : StateId → StateId) : Prop where
  start : into 0 = 0
  inside : ∀ state < t.size, into state < small.size
  onto : ∀ block < small.size, ∃ state < t.size, into state = block
  final : ∀ state < t.size,
    (small.final? (into state)).map Weight.plain = (t.final? state).map Weight.plain
  arcs : ∀ state < t.size, ∀ arc, arc ∈ small.arcs (into state) ↔ ∃ original ∈ t.arcs state,
    ¬(into original.target = into state ∧ original.isSilent = true ∧
      (original.weight == 0.0) = true) ∧
      arc = { original with target := into original.target, weight := original.weight.plain }

variable {t : Transducer} {blocks : Partition} {related : StateId → StateId → Prop}

theorem Alike.arc_eq {first second : Arc} (alike : Alike blocks first second) :
    { first with target := blocks.getD first.target 0, weight := first.weight.plain } =
      { second with target := blocks.getD second.target 0, weight := second.weight.plain } := by
  rw [alike.input, alike.output, alike.weight, alike.block]

theorem Stable.represents (stable : t.Stable blocks) (formed : t.WellFormed) :
    (t.quotient blocks).Represents t fun state => blocks.getD state 0 where
  start := (stable.numbered.start formed.1).2
  inside state inside := by
    rw [size_quotient stable.numbered]
    exact stable.numbered.lt_count inside
  onto block below := by
    rw [size_quotient stable.numbered] at below
    exact (stable.numbered.mem_iff block).mp below
  final state inside := by
    obtain ⟨first, within, together, final, -⟩ :=
      exists_representative stable.numbered (stable.numbered.lt_count inside)
    rw [final]
    exact stable.finals first state within inside together
  arcs state inside arc := by
    obtain ⟨first, within, together, -, arcs⟩ :=
      exists_representative stable.numbered (stable.numbered.lt_count inside)
    rw [arcs]
    constructor
    · rintro ⟨original, leaves, busy, rfl⟩
      obtain ⟨answer, departs, answerBusy, alike⟩ :=
        stable.answers first state within inside together original leaves busy
      exact ⟨answer, departs, answerBusy, alike.arc_eq⟩
    · rintro ⟨original, leaves, busy, rfl⟩
      obtain ⟨answer, departs, answerBusy, alike⟩ :=
        stable.answers state first inside within together.symm original leaves busy
      exact ⟨answer, departs, answerBusy, alike.arc_eq⟩

theorem minimize_represents (formed : t.WellFormed) :
    t.minimize.Represents t.trim t.representative := by
  have trimmed := well_formed_trim formed
  exact (stable_minimize trimmed).represents trimmed

/-- Related states match each other's arcs, those that are idle in the blocks excepted. -/
structure MatchesBusy (t : Transducer) (blocks : Partition) (related : StateId → StateId → Prop) :
    Prop where
  inside : ∀ first second, related first second → first < t.size ∧ second < t.size
  final : ∀ first second, related first second →
    (t.final? first).map Weight.plain = (t.final? second).map Weight.plain
  forth : ∀ first second, related first second → ∀ arc ∈ t.arcs first, ¬Idle blocks first arc →
    ∃ answer ∈ t.arcs second, arc.Matches answer ∧ related arc.target answer.target
  back : ∀ first second, related first second → ∀ arc ∈ t.arcs second, ¬Idle blocks second arc →
    ∃ answer ∈ t.arcs first, arc.Matches answer ∧ related answer.target arc.target

theorem Bisimulation.matches_busy (bisimulation : t.Bisimulation related) (formed : t.WellFormed)
    (blocks : Partition) :
    t.MatchesBusy blocks fun first second =>
      related first second ∧ first < t.size ∧ second < t.size where
  inside first second both := both.2
  final first second both := bisimulation.final first second both.1
  forth first second both arc leaves _ := by
    obtain ⟨answer, departs, same, onward⟩ := bisimulation.forth first second both.1 arc leaves
    exact ⟨answer, departs, same, onward, formed.target_lt leaves, formed.target_lt departs⟩
  back first second both arc leaves _ := by
    obtain ⟨answer, departs, same, onward⟩ := bisimulation.back first second both.1 arc leaves
    exact ⟨answer, departs, same, onward, formed.target_lt departs, formed.target_lt leaves⟩

/-- States are related when the states that they are merged into are. -/
theorem Stable.matches_busy (stable : t.Stable blocks) (formed : t.WellFormed)
    (bisimulation : (t.quotient blocks).Bisimulation related) :
    t.MatchesBusy blocks fun first second =>
      related (blocks.getD first 0) (blocks.getD second 0) ∧ first < t.size ∧ second < t.size := by
  have represents := stable.represents formed
  refine ⟨fun first second both => both.2, ?_, ?_, ?_⟩
  · rintro first second ⟨both, insideFirst, insideSecond⟩
    rw [← represents.final first insideFirst, ← represents.final second insideSecond]
    exact bisimulation.final _ _ both
  · rintro first second ⟨both, insideFirst, insideSecond⟩ arc leaves busy
    have merged := (represents.arcs first insideFirst _).mpr ⟨arc, leaves, busy, rfl⟩
    obtain ⟨found, departs, same, onward⟩ := bisimulation.forth _ _ both _ merged
    obtain ⟨answer, original, -, rfl⟩ := (represents.arcs second insideSecond found).mp departs
    refine ⟨answer, original, ⟨same.input, same.output, ?_⟩, onward, formed.target_lt leaves,
      formed.target_lt original⟩
    simpa using same.weight
  · rintro first second ⟨both, insideFirst, insideSecond⟩ arc leaves busy
    have merged := (represents.arcs second insideSecond _).mpr ⟨arc, leaves, busy, rfl⟩
    obtain ⟨found, departs, same, onward⟩ := bisimulation.back _ _ both _ merged
    obtain ⟨answer, original, -, rfl⟩ := (represents.arcs first insideFirst found).mp departs
    refine ⟨answer, original, ⟨same.input, same.output, ?_⟩, onward, formed.target_lt original,
      formed.target_lt leaves⟩
    simpa using same.weight

/-- A busy arc is matched by a busy one, since the two have the same label and lead from
one block into another. -/
theorem mem_steps_of_matches {first second : StateId} {arc answer : Arc}
    (insideSecond : second < t.states.size) (departs : answer ∈ t.arcs second)
    (same : arc.Matches answer) (together : blocks.getD first 0 = blocks.getD second 0)
    (targets : blocks.getD arc.target 0 = blocks.getD answer.target 0)
    (busy : ¬Idle blocks first arc) :
    { input := arc.input, output := arc.output, weight := arc.weight.key,
      block := blocks.getD arc.target 0 } ∈
      steps blocks (blocks.getD second 0) t.states[second] := by
  rw [mem_steps_iff]
  refine ⟨answer, (states_getElem insideSecond answer).mpr departs,
    fun idle => busy ⟨?_, ?_, ?_⟩, ?_⟩
  · rw [targets, idle.1, together]
  · rw [Arc.isSilent, same.input, same.output]
    exact idle.2.1
  · rw [← Weight.plain_eq_zero_iff, same.weight, Weight.plain_eq_zero_iff]
    exact idle.2.2
  · rw [same.input, same.output, targets, (Weight.key_eq_iff _ _).mpr same.weight]

/-- The steps of a state are determined by which there are. -/
theorem steps_eq_of_mem_iff {others : Partition} {block number : Nat} {first second : State}
    (same : ∀ step, step ∈ steps blocks block first ↔ step ∈ steps others number second) :
    steps blocks block first = steps others number second :=
  Ascending.eq_of_mem_iff Step.compare (Ascending.pairwise_of_list _ _)
    (Ascending.pairwise_of_list _ _) same

theorem Idle.of_refines {final : Partition} (finer : t.Refines final blocks) {state : StateId}
    {arc : Arc} (inside : state < t.size) (target : arc.target < t.size)
    (idle : Idle final state arc) : Idle blocks state arc :=
  ⟨finer _ _ target inside idle.1, idle.2⟩

/-- A round keeps related states together, when it comes before the partition whose idle
arcs are excepted. -/
theorem MatchesBusy.refine {final : Partition} (matching : t.MatchesBusy final related)
    (formed : t.WellFormed) (finer : t.Refines final blocks)
    (together : ∀ first second, related first second → blocks.getD first 0 = blocks.getD second 0) :
    ∀ first second, related first second →
      (t.refine blocks).getD first 0 = (t.refine blocks).getD second 0 := by
  intro first second both
  obtain ⟨insideFirst, insideSecond⟩ := matching.inside first second both
  refine ((refine_spec t blocks).2 first second insideFirst insideSecond).mpr
    ⟨together first second both, ?_⟩
  apply steps_eq_of_mem_iff
  intro step
  constructor
  · intro listed
    obtain ⟨arc, leaves, busy, rfl⟩ := (mem_steps_iff blocks _ _ _).mp listed
    have leaves := (states_getElem insideFirst arc).mp leaves
    obtain ⟨answer, departs, same, onward⟩ := matching.forth first second both arc leaves
      fun idle => busy (idle.of_refines finer insideFirst (formed.target_lt leaves))
    exact mem_steps_of_matches insideSecond departs same (together _ _ both)
      (together _ _ onward) busy
  · intro listed
    obtain ⟨arc, leaves, busy, rfl⟩ := (mem_steps_iff blocks _ _ _).mp listed
    have leaves := (states_getElem insideSecond arc).mp leaves
    obtain ⟨answer, departs, same, onward⟩ := matching.back first second both arc leaves
      fun idle => busy (idle.of_refines finer insideSecond (formed.target_lt leaves))
    exact mem_steps_of_matches insideFirst departs same (together _ _ both).symm
      (together _ _ onward).symm busy

theorem refines_refine_all (t : Transducer) (rounds : Nat) (blocks : Partition) :
    t.Refines (t.refineAll rounds blocks) blocks := by
  induction rounds generalizing blocks with
  | zero => exact fun _ _ _ _ together => together
  | succ rounds ih =>
      have finer := refines_refine t blocks
      rw [refineAll]
      split
      · exact finer
      · exact (ih (t.refine blocks)).trans finer

theorem MatchesBusy.refine_all (rounds : Nat)
    (matching : t.MatchesBusy (t.refineAll rounds blocks) related) (formed : t.WellFormed)
    (together : ∀ first second, related first second → blocks.getD first 0 = blocks.getD second 0) :
    ∀ first second, related first second →
      (t.refineAll rounds blocks).getD first 0 = (t.refineAll rounds blocks).getD second 0 := by
  induction rounds generalizing blocks with
  | zero => exact together
  | succ rounds ih =>
      have after := matching.refine formed (refines_refine_all t _ blocks) together
      rw [refineAll] at matching ⊢
      split
      · exact after
      · next counts =>
        rw [if_neg counts] at matching
        exact ih matching after

/-- States that match each other up to what the final blocks leave out are merged. -/
theorem MatchesBusy.merged (formed : t.WellFormed)
    (matching : t.MatchesBusy (t.refineAll t.size t.initialPartition) related)
    {first second : StateId} (both : related first second) :
    (t.refineAll t.size t.initialPartition).getD first 0 =
      (t.refineAll t.size t.initialPartition).getD second 0 := by
  apply matching.refine_all t.size formed _ first second both
  intro first second both
  obtain ⟨insideFirst, insideSecond⟩ := matching.inside first second both
  exact ((initial_spec t).2 first second insideFirst insideSecond).mpr
    (matching.final first second both)

/-- Each state of the minimized transducer stands for states of the trimmed one. Those that
a bisimulation relates have the same representative, and no bisimulation relates two
representatives. -/
theorem minimize_merges_bisimilar (formed : t.WellFormed) :
    t.minimize.Represents t.trim t.representative ∧
      (∀ related, t.trim.Bisimulation related → ∀ first second, first < t.trim.size →
        second < t.trim.size →
        related first second → t.representative first = t.representative second) ∧
      ∀ related, t.minimize.Bisimulation related → ∀ first second, first < t.minimize.size →
        second < t.minimize.size → related first second → first = second := by
  have trimmed := well_formed_trim formed
  have represents := minimize_represents formed
  refine ⟨represents, ?_, ?_⟩
  · intro related bisimulation first second insideFirst insideSecond both
    exact (bisimulation.matches_busy trimmed _).merged trimmed ⟨both, insideFirst, insideSecond⟩
  · intro related bisimulation first second insideFirst insideSecond both
    obtain ⟨state, within, rfl⟩ := represents.onto first insideFirst
    obtain ⟨other, withinOther, rfl⟩ := represents.onto second insideSecond
    exact ((stable_minimize trimmed).matches_busy trimmed bisimulation).merged trimmed ⟨both,
      within, withinOther⟩

/-- Two states with the same arcs, and with idle arcs to each other. -/
def twins : Transducer := ⟨#[
  { arcs := #[Arc.identity "a" 1, Arc.identity "a" 2] },
  { arcs := #[Arc.silent 2 0.0, ⟨"b", "c", 0, 0.5⟩], final := some 0.0 },
  { arcs := #[⟨"b", "c", 0, 0.5⟩, Arc.silent 1 (-0.0)], final := some (-0.0) }]⟩

def twinned (first second : StateId) : Prop :=
  first = second ∨ (first = 1 ∧ second = 2) ∨ (first = 2 ∧ second = 1)

theorem twins_bisimulation : twins.Bisimulation twinned := by
  have forth : ∀ first second, twinned first second → ∀ arc ∈ twins.arcs first,
      ∃ answer ∈ twins.arcs second, arc.Matches answer ∧ twinned arc.target answer.target := by
    rintro first second (rfl | ⟨rfl, rfl⟩ | ⟨rfl, rfl⟩) arc leaves
    · exact ⟨arc, leaves, ⟨rfl, rfl, rfl⟩, .inl rfl⟩
    · have leaves : arc = Arc.silent 2 0.0 ∨ arc = ⟨"b", "c", 0, 0.5⟩ := by
        simpa [twins, arcs] using leaves
      rcases leaves with rfl | rfl
      · exact ⟨Arc.silent 1
          (-0.0), by simp [twins, arcs], ⟨rfl, rfl, by decide⟩, .inr (.inr ⟨rfl, rfl⟩)⟩
      · exact ⟨⟨"b", "c", 0, 0.5⟩, by simp [twins, arcs], ⟨rfl, rfl, rfl⟩, .inl rfl⟩
    · have leaves : arc = ⟨"b", "c", 0, 0.5⟩ ∨ arc = Arc.silent 1 (-0.0) := by
        simpa [twins, arcs] using leaves
      rcases leaves with rfl | rfl
      · exact ⟨⟨"b", "c", 0, 0.5⟩, by simp [twins, arcs], ⟨rfl, rfl, rfl⟩, .inl rfl⟩
      · exact ⟨Arc.silent 2
          0.0, by simp [twins, arcs], ⟨rfl, rfl, by decide⟩, .inr (.inl ⟨rfl, rfl⟩)⟩
  have symm {first second : StateId} (both : twinned first second) : twinned second first := by
    rcases both with rfl | ⟨rfl, rfl⟩ | ⟨rfl, rfl⟩
    · exact .inl rfl
    · exact .inr (.inr ⟨rfl, rfl⟩)
    · exact .inr (.inl ⟨rfl, rfl⟩)
  refine ⟨?_, forth, ?_⟩
  · rintro first second (rfl | ⟨rfl, rfl⟩ | ⟨rfl, rfl⟩)
    · rfl
    · decide
    · decide
  · intro first second both arc leaves
    obtain ⟨answer, departs, same, onward⟩ := forth second first (symm both) arc leaves
    exact ⟨answer, departs, same, symm onward⟩

theorem minimize_merges_bisimilar_of_twins :
    twins.WellFormed ∧ twins.trim = twins ∧ twins.representative 1 = twins.representative 2 ∧
      twins.minimize.Represents twins twins.representative ∧
      ∀ related, twins.minimize.Bisimulation related → ∀ first second, first < twins.minimize.size →
        second < twins.minimize.size → related first second → first = second := by
  have formed : twins.WellFormed := by
    simp [twins, WellFormed, size, Arc.identity, Arc.silent]
  have trimmed : twins.trim = twins := by decide +kernel
  obtain ⟨represents, merges, apart⟩ := minimize_merges_bisimilar formed
  rw [trimmed] at represents merges
  exact ⟨formed, trimmed,
    merges _ twins_bisimulation 1 2 (by decide) (by decide) (.inr (.inl ⟨rfl, rfl⟩)),
    represents, apart⟩

end Transducer

end MorphLex
