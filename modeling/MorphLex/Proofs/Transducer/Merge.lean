import MorphLex.Proofs.Transducer.Blocks
import MorphLex.Proofs.Transducer.Trim

/-!
Merging keeps the weighted words. The arcs that a round leaves out depend on the
blocks of that round, so nothing is said of the rounds in between: the last
partition is stable, and a stable partition and its quotient simulate each other.
-/

namespace MorphLex

instance : Std.LawfulEqCmp Step.compare where
  eq_of_compare := by
    intro first second same
    simp only [Step.compare, compareLex_eq_eq, compareOn, Std.LawfulEqCmp.compare_eq_iff_eq] at same
    obtain ⟨input, output, weight, block⟩ := same
    cases first
    cases second
    simp_all

namespace Transducer

variable {t : Transducer} {blocks : Partition}

/-- The arc stays in the block of its state and changes nothing. -/
def Idle (blocks : Partition) (state : StateId) (arc : Arc) : Prop :=
  blocks.getD arc.target 0 = blocks.getD state 0 ∧ arc.isSilent = true ∧ (arc.weight == 0.0) = true

structure Alike (blocks : Partition) (first second : Arc) : Prop where
  input : first.input = second.input
  output : first.output = second.output
  weight : first.weight.plain = second.weight.plain
  block : blocks.getD first.target 0 = blocks.getD second.target 0

/-- Every arc of the first state that is not idle has an arc of the second like it. -/
def Answers (t : Transducer) (blocks : Partition) (first second : StateId) : Prop :=
  ∀ arc ∈ t.arcs first, ¬Idle blocks first arc →
    ∃ answer ∈ t.arcs second, ¬Idle blocks second answer ∧ Alike blocks arc answer

/-- States of one block are final with the same weight and have the same arcs into the blocks. -/
structure Stable (t : Transducer) (blocks : Partition) : Prop where
  numbered : t.Numbered blocks
  finals : ∀ first second, first < t.size → second < t.size →
    blocks.getD first 0 = blocks.getD second 0 →
    (t.final? first).map Weight.plain = (t.final? second).map Weight.plain
  answers : ∀ first second, first < t.size → second < t.size →
    blocks.getD first 0 = blocks.getD second 0 →
    t.Answers blocks first second

theorem mem_steps_iff (blocks : Partition) (block : Nat) (state : State) (step : Step) :
    step ∈ steps blocks block state ↔ ∃ arc ∈ state.arcs,
      ¬(blocks.getD arc.target 0 = block ∧ arc.isSilent = true ∧ (arc.weight == 0.0) = true) ∧
        step = { input := arc.input, output := arc.output, weight := arc.weight.key,
                 block := blocks.getD arc.target 0 } := by
  rw [steps, Ascending.mem_of_list, List.mem_map]
  simp only [List.mem_filter, Array.mem_toList_iff, Bool.not_eq_true', Bool.and_eq_false_iff,
    beq_eq_false_iff_ne]
  constructor
  · rintro ⟨arc, ⟨leaves, kept⟩, rfl⟩
    exact ⟨arc, leaves, fun idle => by simp_all, rfl⟩
  · rintro ⟨arc, leaves, kept, rfl⟩
    refine ⟨arc, ⟨leaves, ?_⟩, rfl⟩
    by_contra idle
    simp only [not_or, Bool.not_eq_false, Decidable.not_not] at idle
    exact kept ⟨idle.1.1, idle.1.2, idle.2⟩

theorem states_getElem {state : Nat} (inside : state < t.states.size) (arc : Arc) :
    arc ∈ (t.states[state]).arcs ↔ arc ∈ t.arcs state := by
  rw [arcs_eq, Array.getElem?_eq_getElem inside, Option.getD_some]

theorem answers_of_steps_eq {first second : Nat} (insideFirst : first < t.states.size)
    (insideSecond : second < t.states.size)
    (same : steps blocks (blocks.getD first 0) t.states[first] =
      steps blocks (blocks.getD second 0) t.states[second]) : t.Answers blocks first second := by
  intro arc leaves busy
  have listed :=
    (mem_steps_iff blocks _ _ _).mpr ⟨arc, (states_getElem insideFirst arc).mpr leaves, busy, rfl⟩
  rw [same] at listed
  obtain ⟨answer, departs, answerBusy, equal⟩ := (mem_steps_iff blocks _ _ _).mp listed
  obtain ⟨input, output, weight, block⟩ := Step.mk.inj equal
  exact ⟨answer, (states_getElem insideSecond answer).mp departs, answerBusy, input, output,
    (Weight.key_eq_iff _ _).mp weight, block⟩

theorem refine_spec (t : Transducer) (blocks : Partition) :
    t.Numbered (t.refine blocks) ∧
      ∀ (first second : Nat) (insideFirst : first < t.states.size)
        (insideSecond : second < t.states.size),
        (t.refine blocks).getD first 0 = (t.refine blocks).getD second 0 ↔
          blocks.getD first 0 = blocks.getD second 0 ∧
            steps blocks (blocks.getD first 0) t.states[first] =
              steps blocks (blocks.getD second 0) t.states[second] := by
  let keys := t.states.toList.zipIdx.map fun pair =>
    (blocks.getD pair.2 0, steps blocks (blocks.getD pair.2 0) pair.1)
  have listing : t.refine blocks = (numberByFirst keys).toArray := rfl
  have length : keys.length = t.size := by
    rw [List.length_map, List.length_zipIdx, Array.length_toList, size]
  have numbering := numbered_by_first keys length
  refine ⟨numbering.1, fun first second insideFirst insideSecond => ?_⟩
  rw [listing, numbering.2 first second (length ▸ insideFirst) (length ▸ insideSecond)]
  simp only [keys, List.getElem_map, List.getElem_zipIdx, Array.getElem_toList, Nat.zero_add,
    Prod.mk.injEq]

theorem initial_spec (t : Transducer) :
    t.Numbered t.initialPartition ∧ ∀ first second, first < t.size → second < t.size →
      (t.initialPartition.getD first 0 = t.initialPartition.getD second 0 ↔
        (t.final? first).map Weight.plain = (t.final? second).map Weight.plain) := by
  let keys := t.states.toList.map fun state => state.final.map Weight.key
  have length : keys.length = t.size := by
    rw [List.length_map, Array.length_toList, size]
  have numbering := numbered_by_first keys length
  refine ⟨numbering.1, fun first second insideFirst insideSecond => ?_⟩
  have presentFirst : first < t.states.size := insideFirst
  have presentSecond : second < t.states.size := insideSecond
  rw [initialPartition, numbering.2 first second (length ▸ insideFirst) (length ▸ insideSecond),
    final_eq, final_eq, Array.getElem?_eq_getElem presentFirst,
    Array.getElem?_eq_getElem presentSecond]
  simp only [keys, List.getElem_map, Array.getElem_toList, Option.getD_some]
  cases t.states[first].final <;> cases t.states[second].final <;> simp [Weight.key_eq_iff]

theorem refines_refine (t : Transducer) (blocks : Partition) :
    t.Refines (t.refine blocks) blocks := by
  intro first second insideFirst insideSecond together
  exact (((refine_spec t blocks).2 first second insideFirst insideSecond).mp together).1

/-- A round that adds no block has reached a stable partition. -/
theorem stable_refine (formed : t.WellFormed) (numbered : t.Numbered blocks)
    (fine : t.Refines blocks t.initialPartition) (counts : (t.refine blocks).count = blocks.count) :
    t.Stable (t.refine blocks) := by
  obtain ⟨refined, same⟩ := refine_spec t blocks
  have finer := refines_refine t blocks
  have coarser := finer.symm refined numbered counts
  refine ⟨refined, ?_, ?_⟩
  · intro first second insideFirst insideSecond together
    exact ((initial_spec t).2 first second insideFirst insideSecond).mp
      (finer.trans fine first second insideFirst insideSecond together)
  · intro first second insideFirst insideSecond together arc leaves busy
    -- The steps were taken between the coarser blocks; as both partitions separate the same
    -- states, an arc is idle in the one exactly if it is idle in the other.
    have busyBefore : ¬Idle blocks first arc := fun idle =>
      busy ⟨coarser _ _ (formed.target_lt leaves) insideFirst idle.1, idle.2⟩
    obtain ⟨answer, departs, answerBusy, alike⟩ := answers_of_steps_eq insideFirst insideSecond
      ((same first second insideFirst insideSecond).mp together).2 arc leaves busyBefore
    refine ⟨answer, departs, fun idle => answerBusy ⟨?_, idle.2⟩, alike.input, alike.output,
      alike.weight, ?_⟩
    · exact finer _ _ (formed.target_lt departs) insideSecond idle.1
    · exact coarser _ _ (formed.target_lt leaves) (formed.target_lt departs) alike.block

theorem stable_refine_all (formed : t.WellFormed) (rounds : Nat) (numbered : t.Numbered blocks)
    (fine : t.Refines blocks t.initialPartition) (enough : t.size < blocks.count + rounds) :
    t.Stable (t.refineAll rounds blocks) := by
  induction rounds generalizing blocks with
  | zero => exact absurd numbered.count_le (Nat.not_le_of_lt enough)
  | succ rounds ih =>
      have refined := (refine_spec t blocks).1
      have finer := refines_refine t blocks
      rw [refineAll]
      split
      · next counts => exact stable_refine formed numbered fine counts
      · next counts =>
        have more := finer.count_le refined numbered
        exact ih refined (finer.trans fine) (by omega)

/-- The result has what was merged before and behind it, for each further number, the
state that is built from a state with that number. -/
structure Built (build : Nat → State → State) (states : List State) (numbers : List Nat)
    (merged result : Array State) : Prop where
  kept : ∀ block < merged.size, result[block]? = merged[block]?
  size : result.size = numbers.foldl (fun count block => max count (block + 1)) merged.size
  from_state : ∀ block, merged.size ≤ block → block < result.size →
    ∃ (place : Nat) (value : State), states[place]? = some value ∧ numbers[place]? = some block ∧
      result[block]? = some (build block value)

section Quotient

variable {build : Nat → State → State} {states : List State} {numbers : List Nat}
    {merged result : Array State}
  {state : State} {number : Nat}

theorem Built.nil : Built build [] [] merged merged where
  kept := fun _ _ => rfl
  size := rfl
  from_state := fun _ above below => absurd below (Nat.not_lt.mpr above)

theorem Built.push (new : number = merged.size)
    (built : Built build states numbers (merged.push (build number state)) result) :
    Built build (state :: states) (number :: numbers) merged result where
  kept := by
    intro block below
    rw [built.kept block (by rw [Array.size_push]; omega), Array.getElem?_push_lt below,
      Array.getElem?_eq_getElem below]
  size := by
    rw [built.size, List.foldl_cons, Array.size_push, new, Nat.max_eq_right (Nat.le_succ _)]
  from_state := by
    intro block above below
    by_cases same : block = merged.size
    · refine ⟨0, state, rfl, by rw [same, ← new]; rfl, ?_⟩
      rw [built.kept block (by rw [Array.size_push]; omega), same, Array.getElem?_push_size, new]
    · obtain ⟨place, value, found, listed, placed⟩ :=
        built.from_state block (by rw [Array.size_push]; omega) below
      exact ⟨place + 1, value, found, listed, placed⟩

theorem Built.skip (old : number < merged.size) (built : Built build states numbers merged result) :
    Built build (state :: states) (number :: numbers) merged result where
  kept := built.kept
  size := by
    rw [built.size, List.foldl_cons, Nat.max_eq_left old]
  from_state := by
    intro block above below
    obtain ⟨place, value, found, listed, placed⟩ := built.from_state block above below
    exact ⟨place + 1, value, found, listed, placed⟩

theorem quotient_fold (blocks : Partition) (build : Nat → State → State) (states : List State)
    (numbers : List Nat)
    (offset : Nat) (merged : Array State) (lengths : numbers.length = states.length)
    (grows : Grows merged.size numbers)
    (read : ∀ place (inside : place < numbers.length),
      blocks.getD (offset + place) 0 = numbers[place]) :
    Built build states numbers merged ((states.zipIdx offset).foldl (fun merged (state, number) =>
      let block := blocks.getD number 0
      if block = merged.size then merged.push (build block state) else merged) merged) := by
  induction states generalizing numbers offset merged with
  | nil =>
      obtain rfl : numbers = [] := List.length_eq_zero_iff.mp lengths
      exact .nil
  | cons state states ih =>
      cases numbers with
      | nil => simp at lengths
      | cons first numbers =>
          obtain ⟨small, grows⟩ := grows
          have here : blocks.getD offset 0 = first := read 0 (Nat.zero_lt_succ _)
          have later (place : Nat) (inside : place < numbers.length) :
              blocks.getD (offset + 1 + place) 0 = numbers[place] := by
            rw [Nat.add_assoc, Nat.add_comm 1]
            exact read (place + 1) (Nat.succ_lt_succ inside)
          have shorter : numbers.length = states.length := Nat.succ.inj lengths
          simp only [List.zipIdx_cons, List.foldl_cons, here]
          split
          · next new =>
            refine .push new (ih numbers (offset + 1) _ shorter ?_ later)
            rw [new, Nat.max_eq_right (Nat.le_succ _)] at grows
            rwa [Array.size_push]
          · next old =>
            have met : first < merged.size := by omega
            rw [Nat.max_eq_left met] at grows
            exact .skip met (ih numbers (offset + 1) merged shorter grows later)

end Quotient

theorem built_quotient (numbered : t.Numbered blocks) :
    Built (fun block state =>
      { arcs := ((steps blocks block state).map Step.toArc).toArray, final := state.final })
      t.states.toList blocks.toList #[] (t.quotient blocks).states := by
  have lengths : blocks.toList.length = t.states.toList.length := numbered.size_eq
  exact quotient_fold blocks _ t.states.toList blocks.toList 0 #[] lengths numbered.grows
    (fun place inside => by
    rw [Nat.zero_add]
    exact (numbered.getD_eq (numbered.size_eq ▸ inside)).2)

theorem size_quotient (numbered : t.Numbered blocks) : (t.quotient blocks).size = blocks.count := by
  rw [size, (built_quotient numbered).size, Partition.count, ← Array.foldl_toList, Array.size_empty]

/-- The state of a block has the steps of one of the states in it. -/
theorem exists_representative (numbered : t.Numbered blocks) {block : Nat}
    (below : block < blocks.count) :
    ∃ first, first < t.size ∧ blocks.getD first 0 = block ∧
      (t.quotient blocks).final? block = t.final? first ∧
      ∀ arc, arc ∈ (t.quotient blocks).arcs block ↔
        ∃ original ∈ t.arcs first, ¬Idle blocks first original ∧
        arc = { original with
          target := blocks.getD original.target 0
          weight := original.weight.plain } := by
  obtain ⟨first, value, found, number, placed⟩ :=
    (built_quotient numbered).from_state block (Nat.zero_le _)
    (Nat.lt_of_lt_of_eq below (size_quotient numbered).symm)
  rw [Array.getElem?_toList] at found
  obtain ⟨inside, rfl⟩ := Array.getElem?_eq_some_iff.mp found
  have here : blocks.getD first 0 = block := by
    rw [(numbered.getD_eq inside).2]
    exact (List.getElem?_eq_some_iff.mp number).2
  subst here
  refine ⟨first, inside, rfl, ?_, fun arc => ?_⟩
  · rw [final_eq, placed, final_eq, found]
    rfl
  · rw [arcs_eq, placed, Option.getD_some, List.mem_toArray, List.mem_map]
    constructor
    · rintro ⟨step, listed, rfl⟩
      obtain ⟨original, leaves, busy, rfl⟩ := (mem_steps_iff _ _ _ _).mp listed
      refine ⟨original, (states_getElem inside original).mp leaves, busy, ?_⟩
      rw [Step.toArc, Weight.of_key_key]
    · rintro ⟨original, leaves, busy, rfl⟩
      refine ⟨_, (mem_steps_iff _ _ _ _).mpr ⟨original, (states_getElem inside original).mpr leaves,
        busy, rfl⟩, ?_⟩
      rw [Step.toArc, Weight.of_key_key]

theorem labels_alike {first second : Arc} (input : first.input = second.input)
    (output : first.output = second.output)
    (weight : first.weight.plain = second.weight.plain) : labels [first] = labels [second] := by
  have zero : (first.weight == 0.0) = (second.weight == 0.0) := by
    rw [Bool.eq_iff_iff, ← Weight.plain_eq_zero_iff, ← Weight.plain_eq_zero_iff, weight]
  have label : first.label? = second.label? := by
    rw [Arc.label?, Arc.label?, Arc.isSilent, Arc.isSilent, input, output, zero, weight]
  rw [labels, labels, List.filterMap_cons, List.filterMap_cons, label]

theorem labels_idle {state : StateId} {arc : Arc} (idle : Idle blocks state arc) :
    labels [arc] = [] := by
  have label : arc.label? = none := if_pos (by rw [idle.2.1, idle.2.2, Bool.and_self])
  rw [labels, List.filterMap_cons, label, List.filterMap_nil]

def Belongs (t : Transducer) (blocks : Partition) (state block : StateId) : Prop :=
  state < t.size ∧ blocks.getD state 0 = block

theorem Numbered.start (numbered : t.Numbered blocks) (positive : 0 < t.size) :
    t.Belongs blocks 0 0 := by
  obtain ⟨present, same⟩ := numbered.getD_eq positive
  exact ⟨positive, same.trans (numbered.grows.head present)⟩

theorem final_of_plain_eq {first second : Option Weight} {weight : Weight}
    (same : first.map Weight.plain = second.map Weight.plain) (ends : first = some weight) :
    ∃ answer, second = some answer ∧ answer.plain = weight.plain := by
  rw [ends, Option.map_some] at same
  exact Option.map_eq_some_iff.mp same.symm

/-- An idle arc is answered by staying in the block. -/
theorem Stable.simulates_quotient (stable : t.Stable blocks) (formed : t.WellFormed) :
    t.Simulates (t.quotient blocks) (t.Belongs blocks) where
  start := stable.numbered.start formed.1
  step := by
    rintro state block arc ⟨inside, rfl⟩ leaves -
    have target : t.Belongs blocks arc.target (blocks.getD arc.target 0) :=
      ⟨formed.target_lt leaves, rfl⟩
    by_cases idle : Idle blocks state arc
    · refine ⟨[], _, .stay _, (labels_idle idle).symm, ?_⟩
      exact idle.1 ▸ target
    · obtain ⟨first, within, together, -, arcs⟩ :=
        exists_representative stable.numbered (stable.numbered.lt_count inside)
      obtain ⟨answer, departs, busy, alike⟩ :=
        stable.answers state first inside within together.symm arc leaves idle
      have merged := (arcs _).mpr ⟨answer, departs, busy, rfl⟩
      refine ⟨_, _, .step merged (.stay _), ?_, ?_⟩
      · exact labels_alike alike.input.symm alike.output.symm (by simp [alike.weight])
      · exact alike.block ▸ target
  final := by
    rintro state block weight ⟨inside, rfl⟩ ends
    obtain ⟨first, within, together, final, -⟩ :=
      exists_representative stable.numbered (stable.numbered.lt_count inside)
    rw [final]
    exact final_of_plain_eq (stable.finals state first inside within together.symm) ends

theorem Stable.quotient_simulates (stable : t.Stable blocks) (formed : t.WellFormed) :
    (t.quotient blocks).Simulates t fun block state => t.Belongs blocks state block where
  start := stable.numbered.start formed.1
  step := by
    rintro block state arc ⟨inside, rfl⟩ leaves -
    obtain ⟨first, within, together, -, arcs⟩ :=
      exists_representative stable.numbered (stable.numbered.lt_count inside)
    obtain ⟨original, departs, busy, rfl⟩ := (arcs arc).mp leaves
    obtain ⟨answer, leaves, -, alike⟩ :=
      stable.answers first state within inside together original departs busy
    refine ⟨[answer], answer.target, .step leaves (.stay _), ?_, formed.target_lt leaves,
      alike.block.symm⟩
    exact labels_alike alike.input.symm alike.output.symm (by simp [alike.weight])
  final := by
    rintro block state weight ⟨inside, rfl⟩ ends
    obtain ⟨first, within, together, final, -⟩ :=
      exists_representative stable.numbered (stable.numbered.lt_count inside)
    rw [final] at ends
    exact final_of_plain_eq (stable.finals first state within inside together) ends

theorem stable_minimize (formed : t.WellFormed) :
    t.Stable (t.refineAll t.size t.initialPartition) := by
  have numbered := (initial_spec t).1
  apply stable_refine_all formed t.size numbered (fun _ _ _ _ together => together)
  have some := numbered.lt_count formed.1
  omega

theorem minimize_answers (formed : t.WellFormed) :
    (∀ path weight, t.Accepts path weight → ∃ answer final, t.minimize.Accepts answer final ∧
      labels answer = labels path ∧ final.plain = weight.plain) ∧
    ∀ path weight, t.minimize.Accepts path weight → ∃ answer final, t.Accepts answer final ∧
      labels answer = labels path ∧ final.plain = weight.plain := by
  have trimmed := well_formed_trim formed
  have stable := stable_minimize trimmed
  constructor
  · intro path weight accepted
    obtain ⟨between, middle, kept, shown, ends⟩ := (simulates_trim formed).accepts accepted
    obtain ⟨answer, final, merged, same, equal⟩ := (stable.simulates_quotient trimmed).accepts kept
    exact ⟨answer, final, merged, same.trans shown, equal.trans ends⟩
  · intro path weight accepted
    obtain ⟨between, middle, split, shown, ends⟩ :=
      (stable.quotient_simulates trimmed).accepts accepted
    obtain ⟨answer, final, original, same, equal⟩ := (trim_simulates formed).accepts split
    exact ⟨answer, final, original, same.trans shown, equal.trans ends⟩

/-- Minimizing keeps the weighted relation: the label sequences with their final
weights, and with them every pair of strings and what it costs. -/
theorem minimize_preserves_relation (formed : t.WellFormed) :
    (∀ sequence final,
      (∃ path weight, t.Accepts path weight ∧ labels path = sequence ∧ weight.plain = final) ↔
      ∃ path weight, t.minimize.Accepts path weight ∧ labels path = sequence ∧
      weight.plain = final) ∧
    ∀ input output total,
      (∃ path weight, t.Accepts path weight ∧ (Trace.ofPath path).input = input ∧
        (Trace.ofPath path).output = output ∧ (cost path weight).plain = total) ↔
      ∃ path weight, t.minimize.Accepts path weight ∧ (Trace.ofPath path).input = input ∧
        (Trace.ofPath path).output = output ∧ (cost path weight).plain = total := by
  obtain ⟨forth, back⟩ := minimize_answers formed
  have observed {path answer : List Arc} {weight final : Weight}
    (same : labels answer = labels path)
      (equal : final.plain = weight.plain) :
      (Trace.ofPath answer).input = (Trace.ofPath path).input ∧
        (Trace.ofPath answer).output = (Trace.ofPath path).output ∧
        (cost answer final).plain = (cost path weight).plain := by
    rw [(symbols_of_path answer).1, (symbols_of_path answer).2, plain_cost, same, equal,
      (symbols_of_path path).1, (symbols_of_path path).2, plain_cost]
    exact ⟨rfl, rfl, rfl⟩
  refine ⟨fun sequence final => ⟨?_, ?_⟩, fun input output total => ⟨?_, ?_⟩⟩
  · rintro ⟨path, weight, accepted, rfl, rfl⟩
    exact forth path weight accepted
  · rintro ⟨path, weight, accepted, rfl, rfl⟩
    exact back path weight accepted
  · rintro ⟨path, weight, accepted, rfl, rfl, rfl⟩
    obtain ⟨answer, final, answered, same, equal⟩ := forth path weight accepted
    exact ⟨answer, final, answered, observed same equal⟩
  · rintro ⟨path, weight, accepted, rfl, rfl, rfl⟩
    obtain ⟨answer, final, answered, same, equal⟩ := back path weight accepted
    exact ⟨answer, final, answered, observed same equal⟩

/-- Two final states with a silent arc between them, one of them with a negative zero. -/
theorem minimize_preserves_relation_of_two_ends :
    ∃ t : Transducer, t.WellFormed ∧ t.arcs 1 = #[Arc.silent 2 0.0, ⟨"a", "b", 0, 0.5⟩] ∧
      t.final? 2 = some (-0.0) ∧
      (∀ sequence final,
        (∃ path weight, t.Accepts path weight ∧ labels path = sequence ∧ weight.plain = final) ↔
        ∃ path weight, t.minimize.Accepts path weight ∧ labels path = sequence ∧
        weight.plain = final) ∧
      ∀ input output total,
        (∃ path weight, t.Accepts path weight ∧ (Trace.ofPath path).input = input ∧
          (Trace.ofPath path).output = output ∧ (cost path weight).plain = total) ↔
        ∃ path weight, t.minimize.Accepts path weight ∧ (Trace.ofPath path).input = input ∧
          (Trace.ofPath path).output = output ∧ (cost path weight).plain = total := by
  let ends : Transducer := ⟨#[
    { arcs := #[Arc.identity "a" 1, Arc.identity "a" 2] },
    { arcs := #[Arc.silent 2 0.0, ⟨"a", "b", 0, 0.5⟩], final := some 0.0 },
    { arcs := #[⟨"a", "b", 0, 0.5⟩], final := some (-0.0) }]⟩
  have formed : ends.WellFormed := by
    simp [ends, WellFormed, size, Arc.identity, Arc.silent]
  exact ⟨ends, formed, rfl, rfl, minimize_preserves_relation formed⟩

end Transducer

end MorphLex
