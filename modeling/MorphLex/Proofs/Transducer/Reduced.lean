import MorphLex.Proofs.Transducer.Bisimulation
import MorphLex.Proofs.Transducer.Reorder
import MorphLex.Proofs.Transducer.Useful

/-!
A minimized transducer is its own minimization. All its states are useful, and its rounds
end with every state in a block of its own: a coarser end would have been an end for the
transducer that it was merged from. Blocks are numbered as their states come and the arcs
of a merged state are in order, so nothing moves. The order of the arcs that came in, and
arcs that came twice, leave no trace.
-/

namespace MorphLex

/-- The first number that is used up is the next one, as long as none comes twice. -/
theorem Grows.eq_range {next : Nat} {numbers : List Nat} (grows : Grows next numbers)
    (fresh : ∀ number ∈ numbers, next ≤ number) (distinct : numbers.Nodup) :
    numbers = List.range' next numbers.length := by
  induction numbers generalizing next with
  | nil => rfl
  | cons first rest ih =>
      obtain ⟨small, grows⟩ := grows
      obtain ⟨new, distinct⟩ := List.nodup_cons.mp distinct
      obtain rfl : first = next := Nat.le_antisymm small (fresh first List.mem_cons_self)
      rw [Nat.max_eq_right (Nat.le_succ first)] at grows
      have later : ∀ number ∈ rest, first + 1 ≤ number := by
        intro number listed
        refine Nat.lt_of_le_of_ne (fresh number (List.mem_cons_of_mem _ listed)) ?_
        rintro rfl
        exact new listed
      rw [List.length_cons, List.range'_succ, ← ih grows later distinct]

namespace Transducer

variable {t u small : Transducer} {blocks outer : Partition}

/-- Both are states, and they are in one block. -/
def Together (t : Transducer) (blocks : Partition) (first second : StateId) : Prop :=
  blocks.getD first 0 = blocks.getD second 0 ∧ first < t.size ∧ second < t.size

/-- The blocks of blocks that a partition of the merged states makes. -/
def Partition.through (blocks outer : Partition) : Partition :=
  blocks.map fun block => outer.getD block 0

section Rounds

/-- Blocks that match each other's busy arcs are never split. -/
theorem refines_refine_all_of_matches {final : Partition} (formed : t.WellFormed)
    (matching : t.MatchesBusy final (t.Together final)) (rounds : Nat)
    (finer : t.Refines final blocks) : t.Refines final (t.refineAll rounds blocks) := by
  induction rounds generalizing blocks with
  | zero => exact finer
  | succ rounds ih =>
      have after : t.Refines final (t.refine blocks) := by
        intro first second insideFirst insideSecond together
        refine matching.refine formed finer ?_ first second ⟨together, insideFirst, insideSecond⟩
        intro first second both
        exact finer first second both.2.1 both.2.2 both.1
      rw [refineAll]
      split
      · exact after
      · exact ih after

theorem refines_minimal_of_matches {final : Partition} (formed : t.WellFormed)
    (matching : t.MatchesBusy final (t.Together final)) (rounds : Nat) :
    t.Refines final (t.refineAll rounds t.initialPartition) := by
  apply refines_refine_all_of_matches formed matching rounds
  intro first second insideFirst insideSecond together
  exact ((initial_spec t).2 first second insideFirst insideSecond).mpr
    (matching.final first second ⟨together, insideFirst, insideSecond⟩)

theorem Numbered.getD_through (numbered : t.Numbered blocks) (outer : Partition) {state : StateId}
    (inside : state < t.size) :
    (blocks.through outer).getD state 0 = outer.getD (blocks.getD state 0) 0 := by
  have present : state < blocks.size := numbered.size_eq ▸ inside
  simp only [Partition.through, Array.getD_eq_getD_getElem?, Array.getElem?_map,
    Array.getElem?_eq_getElem present, Option.map_some, Option.getD_some]

variable (stable : t.Stable blocks) (formed : t.WellFormed)
    (coarser : (t.quotient blocks).Stable outer)

include stable formed coarser

theorem Stable.answers_through {first second : StateId}
    (together : t.Together (blocks.through outer) first second) {arc : Arc}
    (leaves : arc ∈ t.arcs first) (busy : ¬Idle (blocks.through outer) first arc) :
    ∃ answer ∈ t.arcs second, arc.Matches answer ∧
      t.Together (blocks.through outer) arc.target answer.target := by
  have represents := stable.represents formed
  obtain ⟨together, insideFirst, insideSecond⟩ := together
  have insideTarget := formed.target_lt leaves
  rw [stable.numbered.getD_through outer insideFirst,
    stable.numbered.getD_through outer insideSecond] at together
  rw [Idle, stable.numbered.getD_through outer insideTarget,
    stable.numbered.getD_through outer insideFirst] at busy
  have merged := (represents.arcs first insideFirst _).mpr
    ⟨arc, leaves, fun idle => busy ⟨by rw [idle.1], idle.2⟩, rfl⟩
  obtain ⟨found, departs, -, alike⟩ := coarser.answers _ _ (represents.inside first insideFirst)
    (represents.inside second insideSecond) together _ merged fun idle => busy ⟨idle.1, idle.2.1, by
      rw [← Weight.plain_eq_zero_iff, ← Weight.plain_plain, Weight.plain_eq_zero_iff]
      exact idle.2.2⟩
  obtain ⟨answer, original, -, rfl⟩ := (represents.arcs second insideSecond found).mp departs
  refine ⟨answer, original, ⟨alike.input, alike.output, by simpa using alike.weight⟩, ?_,
    insideTarget, formed.target_lt original⟩
  rw [stable.numbered.getD_through outer insideTarget,
    stable.numbered.getD_through outer (formed.target_lt original)]
  exact alike.block

/-- Merging the merged states again would have been a way to merge the states at once. -/
theorem Stable.matches_through :
    t.MatchesBusy (blocks.through outer) (t.Together (blocks.through outer)) where
  inside first second both := both.2
  final first second both := by
    have represents := stable.represents formed
    obtain ⟨together, insideFirst, insideSecond⟩ := both
    rw [stable.numbered.getD_through outer insideFirst,
      stable.numbered.getD_through outer insideSecond] at together
    rw [← represents.final first insideFirst, ← represents.final second insideSecond]
    exact coarser.finals _ _ (represents.inside first insideFirst)
      (represents.inside second insideSecond) together
  forth first second both arc leaves busy := stable.answers_through formed coarser both leaves busy
  back first second both arc leaves busy := by
    obtain ⟨answer, departs, same, onward⟩ := stable.answers_through formed coarser
      ⟨both.1.symm, both.2.2, both.2.1⟩ leaves busy
    exact ⟨answer, departs, same, onward.1.symm, onward.2.2, onward.2.1⟩

end Rounds

/-- When the rounds have come to an end, no two of the merged states can be merged. -/
theorem eq_of_merged_again (formed : t.WellFormed)
    (coarser : (t.quotient (t.refineAll t.size t.initialPartition)).Stable outer)
    {first second : StateId}
    (insideFirst : first < (t.quotient (t.refineAll t.size t.initialPartition)).size)
    (insideSecond : second < (t.quotient (t.refineAll t.size t.initialPartition)).size)
    (together : outer.getD first 0 = outer.getD second 0) : first = second := by
  have stable := stable_minimize formed
  have represents := stable.represents formed
  obtain ⟨state, within, rfl⟩ := represents.onto first insideFirst
  obtain ⟨other, withinOther, rfl⟩ := represents.onto second insideSecond
  refine refines_minimal_of_matches formed (stable.matches_through formed coarser) t.size state
    other within withinOther ?_
  rw [stable.numbered.getD_through outer within, stable.numbered.getD_through outer withinOther]
  exact together

section Alone

variable (numbered : t.Numbered blocks)
  (alone : ∀ first second, first < t.size → second < t.size →
    blocks.getD first 0 = blocks.getD second 0 → first = second)

include numbered alone

/-- Blocks of one state each are numbered like the states. -/
theorem Numbered.getD_of_alone {state : StateId} (inside : state < t.size) :
    blocks.getD state 0 = state := by
  have distinct : blocks.toList.Nodup := by
    rw [List.nodup_iff_injective_getElem]
    rintro ⟨first, below⟩ ⟨second, belowToo⟩ same
    have insideFirst : first < t.size := numbered.size_eq ▸ below
    have insideSecond : second < t.size := numbered.size_eq ▸ belowToo
    have equal : first = second := alone first second insideFirst insideSecond <| by
      rw [(numbered.getD_eq insideFirst).2, (numbered.getD_eq insideSecond).2]
      exact same
    exact Fin.ext equal
  obtain ⟨present, read⟩ := numbered.getD_eq inside
  have listed := numbered.grows.eq_range (fun _ _ => Nat.zero_le _) distinct
  rw [read, List.getElem_of_eq listed, List.getElem_range', Nat.one_mul, Nat.zero_add]

theorem Numbered.count_of_alone : blocks.count = t.size := by
  refine Nat.le_antisymm numbered.count_le ?_
  by_contra more
  obtain ⟨state, inside, same⟩ : ∃ state < t.size, state = blocks.count :=
    ⟨_, Nat.lt_of_not_le more, rfl⟩
  have below := numbered.lt_count inside
  rw [numbered.getD_of_alone alone inside, same] at below
  exact Nat.lt_irrefl _ below

end Alone

theorem key_of_key_key (weight : Weight) : (Weight.ofKey weight.key).key = weight.key := by
  rw [Weight.of_key_key, Weight.key_eq_iff, Weight.plain_plain]

theorem key_is_zero_iff (weight : Weight) :
    (Weight.ofKey weight.key == 0.0) = true ↔ (weight == 0.0) = true := by
  rw [Weight.of_key_key, ← Weight.plain_eq_zero_iff, Weight.plain_plain, Weight.plain_eq_zero_iff]

/-- The arcs that are made from steps have these steps. -/
theorem steps_of_merged {block : Nat} {value : State} (final : Option Weight)
    (read : ∀ step ∈ steps blocks block value, outer.getD step.block 0 = step.block) :
    steps outer block { arcs := ((steps blocks block value).map Step.toArc).toArray, final } =
      steps blocks block value := by
  apply steps_eq_of_mem_iff
  have again (step : Step) (listed : step ∈ steps blocks block value) :
      ({ input := step.toArc.input, output := step.toArc.output, weight := step.toArc.weight.key,
         block := outer.getD step.toArc.target 0 } : Step) = step := by
    obtain ⟨arc, -, -, rfl⟩ := (mem_steps_iff blocks _ _ _).mp listed
    simp only [Step.toArc, key_of_key_key, read _ listed]
  intro step
  rw [mem_steps_iff]
  constructor
  · rintro ⟨arc, leaves, -, rfl⟩
    obtain ⟨step, listed, rfl⟩ := List.mem_map.mp (List.mem_toArray.mp leaves)
    rwa [again step listed]
  · intro listed
    refine ⟨step.toArc, List.mem_toArray.mpr (List.mem_map_of_mem listed), ?_,
      (again step listed).symm⟩
    rintro ⟨stays, silent, zero⟩
    obtain ⟨arc, -, busy, rfl⟩ := (mem_steps_iff blocks _ _ _).mp listed
    rw [Step.toArc, read _ listed] at stays
    exact busy ⟨stays, silent, (key_is_zero_iff _).mp zero⟩

/-- When each of the merged states is a block of its own, merging them changes nothing. -/
theorem quotient_of_alone (formed : t.WellFormed) (numbered : t.Numbered blocks)
    (again : (t.quotient blocks).Numbered outer)
    (alone : ∀ first second, first < (t.quotient blocks).size → second < (t.quotient blocks).size →
      outer.getD first 0 = outer.getD second 0 → first = second) :
    (t.quotient blocks).quotient outer = t.quotient blocks := by
  have size : ((t.quotient blocks).quotient outer).size = (t.quotient blocks).size := by
    rw [size_quotient again, again.count_of_alone alone]
  apply congrArg Transducer.mk
  apply Array.ext size
  intro number insideAgain inside
  obtain ⟨place, merged, found, listed, placed⟩ :=
    (built_quotient again).from_state number (Nat.zero_le _) insideAgain
  obtain ⟨origin, value, stands, -, made⟩ :=
    (built_quotient numbered).from_state number (Nat.zero_le _) inside
  obtain rfl : number = place := by
    rw [Array.getElem?_toList] at found
    have within : place < (t.quotient blocks).size := (Array.getElem?_eq_some_iff.mp found).1
    rw [← again.getD_of_alone alone within, (again.getD_eq within).2]
    exact (List.getElem?_eq_some_iff.mp listed).2.symm
  rw [Array.getElem?_toList, made, Option.some.injEq] at found
  subst found
  rw [steps_of_merged] at placed
  · rw [Array.getElem?_eq_getElem insideAgain] at placed
    rw [Array.getElem?_eq_getElem inside] at made
    exact (Option.some.inj placed).trans (Option.some.inj made).symm
  · intro step member
    obtain ⟨arc, leaves, -, rfl⟩ := (mem_steps_iff blocks _ _ _).mp member
    rw [Array.getElem?_toList] at stands
    obtain ⟨within, rfl⟩ := Array.getElem?_eq_some_iff.mp stands
    apply again.getD_of_alone alone
    rw [size_quotient numbered]
    exact numbered.lt_count (formed.target_lt ((states_getElem within arc).mp leaves))

section Useful

variable {into : StateId → StateId}

theorem Represents.well_formed (represents : small.Represents t into) (formed : t.WellFormed) :
    small.WellFormed := by
  rw [well_formed_iff]
  refine ⟨Nat.zero_lt_of_lt (represents.inside 0 formed.1), ?_⟩
  intro block arc leaves
  obtain ⟨state, inside, rfl⟩ := represents.onto block (lt_size_of_mem_arcs leaves)
  obtain ⟨original, departs, -, rfl⟩ := (represents.arcs state inside arc).mp leaves
  exact represents.inside _ (formed.target_lt departs)

/-- A run goes on between the merged states, without the arcs that are left out. -/
theorem Represents.run (represents : small.Represents t into) {first last : StateId}
    {path : List Arc} (run : t.Run first path last) :
    ∃ answer, small.Run (into first) answer (into last) := by
  induction run with
  | stay state => exact ⟨[], .stay _⟩
  | @step source arc path last leaves _ ih =>
      obtain ⟨answer, later⟩ := ih
      by_cases idle : into arc.target = into source ∧ arc.isSilent = true ∧
        (arc.weight == 0.0) = true
      · rw [idle.1] at later
        exact ⟨answer, later⟩
      · exact ⟨_,
          .step ((represents.arcs source (lt_size_of_mem_arcs leaves) _).mpr ⟨arc, leaves, idle,
            rfl⟩) later⟩

theorem Represents.productive (represents : small.Represents t into) {state : StateId}
    (productive : t.Productive state) : small.Productive (into state) := by
  obtain ⟨path, last, weight, run, ends⟩ := productive
  obtain ⟨answer, merged⟩ := represents.run run
  have same := represents.final last (lt_size_of_final ends)
  obtain ⟨final, found, -⟩ := final_of_plain_eq same.symm ends
  exact ⟨answer, into last, final, merged, found⟩

variable (formed : t.WellFormed)

include formed

theorem useful_minimize : t.minimize.useful = List.replicate t.minimize.size true := by
  have trimmed := well_formed_trim formed
  have represents := minimize_represents formed
  have merged := represents.well_formed trimmed
  apply List.ext_getElem?
  intro block
  rw [List.getElem?_replicate]
  split
  · next inside =>
    obtain ⟨state, within, rfl⟩ := represents.onto block inside
    rw [useful_iff]
    refine ⟨inside, ?_⟩
    have marked : t.trim.useful[state]? = some true := by
      rw [useful_trim formed, List.getElem?_replicate, if_pos within]
    obtain ⟨-, rfl | ⟨reached, ahead⟩⟩ := (useful_iff t.trim state).mp marked
    · exact .inl represents.start
    · obtain ⟨path, run⟩ := (accessible_iff trimmed state).mp reached
      obtain ⟨answer, found⟩ := represents.run run
      rw [represents.start] at found
      exact .inr ⟨(accessible_iff merged _).mpr ⟨answer, found⟩,
        (coaccessible_iff merged _).mpr
          (represents.productive ((coaccessible_iff trimmed state).mp ahead))⟩
  · next outside =>
    rw [List.getElem?_eq_none_iff, length_useful]
    exact Nat.le_of_not_lt outside

theorem trim_minimize : t.minimize.trim = t.minimize := by
  have trimmed := well_formed_trim formed
  have represents := minimize_represents formed
  have merged := represents.well_formed trimmed
  refine trim_of_useful merged (useful_minimize formed) fun block dead => ?_
  rw [Array.eq_empty_iff_forall_not_mem]
  intro arc leaves
  obtain ⟨state, inside, rfl⟩ := represents.onto block (lt_size_of_mem_arcs leaves)
  obtain ⟨original, departs, -⟩ := (represents.arcs state inside arc).mp leaves
  have ahead : t.trim.coaccessible.getD state false = true := by
    by_contra lost
    rw [arcs_trim_of_dead formed lost] at departs
    exact Array.not_mem_empty _ departs
  exact dead
    ((coaccessible_iff merged _).mpr
      (represents.productive ((coaccessible_iff trimmed state).mp ahead)))

theorem minimize_minimize : t.minimize.minimize = t.minimize := by
  have trimmed := well_formed_trim formed
  have stable := stable_minimize trimmed
  have again := stable_minimize ((minimize_represents formed).well_formed trimmed)
  rw [show t.minimize.minimize =
    t.minimize.trim.quotient
      (t.minimize.trim.refineAll t.minimize.trim.size t.minimize.trim.initialPartition) from rfl,
    trim_minimize formed]
  exact quotient_of_alone trimmed stable.numbered again.numbered fun _ _ =>
    eq_of_merged_again trimmed again

end Useful

namespace Repeats

theorem steps_eq {first second : State} (same : ∀ arc, arc ∈ first.arcs ↔ arc ∈ second.arcs)
    (blocks : Partition) (block : Nat) : steps blocks block first = steps blocks block second := by
  apply steps_eq_of_mem_iff
  intro step
  simp only [mem_steps_iff, same]

/-- What is made of each state with its number is the same, if it depends on the final weight
and on which arcs there are. -/
theorem map_states {Result : Type} (alike : Repeats t u) {make : State × Nat → Result}
    (blind : ∀ first second number, first.final = second.final →
      (∀ arc, arc ∈ first.arcs ↔ arc ∈ second.arcs) →
      make (first, number) = make (second, number)) :
    t.states.toList.zipIdx.map make = u.states.toList.zipIdx.map make := by
  have size : t.states.size = u.states.size := alike.size
  apply List.ext_getElem (by simpa using size)
  intro number inside insideToo
  have here : number < t.states.size := by simpa using inside
  have there : number < u.states.size := size ▸ here
  rw [List.getElem_map, List.getElem_map, List.getElem_zipIdx, List.getElem_zipIdx,
    Array.getElem_toList, Array.getElem_toList]
  apply blind
  · have final := alike.final number
    rwa [final_eq, final_eq, Array.getElem?_eq_getElem here,
      Array.getElem?_eq_getElem there] at final
  · intro arc
    rw [states_getElem here, states_getElem there]
    exact alike.arcs number arc

theorem initial_partition (alike : Repeats t u) : t.initialPartition = u.initialPartition := by
  have finals : t.states.toList.zipIdx.map ((fun state => state.final.map Weight.key) ∘ Prod.fst) =
      u.states.toList.zipIdx.map ((fun state => state.final.map Weight.key) ∘ Prod.fst) :=
    alike.map_states fun first second _ final _ => by simp only [Function.comp_apply, final]
  rw [← List.map_map, ← List.map_map, List.zipIdx_map_fst, List.zipIdx_map_fst] at finals
  rw [Transducer.initialPartition, finals, Transducer.initialPartition]

theorem refine_eq (alike : Repeats t u) (blocks : Partition) :
    t.refine blocks = u.refine blocks := by
  rw [refine, refine, alike.map_states]
  intro first second number _ same
  simp only [steps_eq same]

theorem refine_all (alike : Repeats t u) (rounds : Nat) (blocks : Partition) :
    t.refineAll rounds blocks = u.refineAll rounds blocks := by
  induction rounds generalizing blocks with
  | zero => rfl
  | succ rounds ih => rw [refineAll, refineAll, alike.refine_eq, ih]

theorem quotient_eq (alike : Repeats t u) (blocks : Partition) :
    t.quotient blocks = u.quotient blocks := by
  -- What is pushed for a state does not depend on what has been pushed before.
  have listing (v : Transducer) : v.quotient blocks =
      ⟨(v.states.toList.zipIdx.map fun pair => (blocks.getD pair.2 0,
          ({ arcs := ((steps blocks (blocks.getD pair.2 0) pair.1).map Step.toArc).toArray,
             final := pair.1.final } : State))).foldl
        (fun merged made => if made.1 = merged.size then merged.push made.2 else merged) #[]⟩ := by
    rw [List.foldl_map]
    rfl
  rw [listing, listing, alike.map_states]
  intro first second number final same
  simp only [steps_eq same, final]

protected theorem minimize (alike : Repeats t u) : t.minimize = u.minimize := by
  rw [Transducer.minimize, Transducer.minimize, alike.trim.initial_partition, alike.trim.size,
    alike.trim.refine_all, alike.trim.quotient_eq]

end Repeats

/-- Minimizing again changes nothing, and neither the order of the arcs nor their repetition
changes what minimizing makes. -/
theorem minimize_idempotent_and_order_blind (formed : t.WellFormed) :
    t.minimize.minimize = t.minimize ∧ ∀ u : Transducer, u.Repeats t → u.minimize = t.minimize :=
  ⟨minimize_minimize formed, fun _ alike => alike.minimize⟩

/-- The twins with their arcs in another order, some of them twice. -/
def twinsReordered : Transducer := ⟨#[
  { arcs := #[Arc.identity "a" 2, Arc.identity "a" 1, Arc.identity "a" 2] },
  { arcs := #[⟨"b", "c", 0, 0.5⟩, Arc.silent 2 0.0], final := some 0.0 },
  { arcs := #[Arc.silent 1 (-0.0), Arc.silent 1 (-0.0), ⟨"b", "c", 0, 0.5⟩],
    final := some (-0.0) }]⟩

theorem twins_reordered_repeats : twinsReordered.Repeats twins where
  size := rfl
  final state := by
    match state with
    | 0 | 1 | 2 => rfl
    | state + 3 => rfl
  arcs state arc := by
    match state with
    | 0 | 1 | 2 => simp [twinsReordered, twins, arcs]; tauto
    | state + 3 => rfl

theorem minimize_idempotent_and_order_blind_of_twins :
    twins.WellFormed ∧ twinsReordered.Repeats twins ∧ twinsReordered ≠ twins ∧
      twins.minimize.minimize = twins.minimize ∧ twinsReordered.minimize = twins.minimize := by
  have formed : twins.WellFormed := by
    simp [twins, WellFormed, size, Arc.identity, Arc.silent]
  obtain ⟨again, blind⟩ := minimize_idempotent_and_order_blind formed
  exact ⟨formed, twins_reordered_repeats, by decide, again, blind _ twins_reordered_repeats⟩

end Transducer

end MorphLex
