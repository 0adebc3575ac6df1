import MorphLex.Proofs.Transducer.Merge

/-!
The rounds of merging, one by one. After every round the blocks are numbered in the order of
their first states, so that the partition is determined by which states it separates. A
round that adds no block therefore leaves the partition as it was, number by number, and the
steps that it compared are the steps between the very blocks that it returns.
-/

namespace MorphLex

/-- Numbers that grow go on growing from the count of those before. -/
theorem grows_append_iff (next : Nat) (front back : List Nat) :
    Grows next (front ++ back) ↔ Grows next front ∧
      Grows (front.foldl (fun count block => max count (block + 1)) next) back := by
  induction front generalizing next with
  | nil => simp [Grows]
  | cons first rest ih => rw [List.cons_append, Grows, Grows, ih, List.foldl_cons, and_assoc]

namespace Transducer

variable {t : Transducer} {blocks finer : Partition}

/-- The blocks of the states before this one. -/
def Partition.met (blocks : Partition) (state : StateId) : Finset Nat :=
  (Finset.range state).image fun earlier => blocks.getD earlier 0

/-- The numbers are those below the count, and the first state of a block has as its number
how many blocks there are before it. -/
structure NumberedByFirst (t : Transducer) (blocks : Partition) : Prop where
  size_eq : blocks.size = t.size
  all : blocks.met t.size = Finset.range blocks.count
  count_eq : blocks.count = (blocks.met t.size).card
  fresh : ∀ state < t.size, blocks.getD state 0 ∉ blocks.met state →
    blocks.getD state 0 = (blocks.met state).card

/-- The partition that a number of rounds make of the first one. -/
def partitionAfter (t : Transducer) : Nat → Partition
  | 0 => t.initialPartition
  | rounds + 1 => t.refine (t.partitionAfter rounds)

/-- The steps of a state between the blocks, by which a round tells it from others. -/
def signature (t : Transducer) (blocks : Partition) (state : StateId) : List Step :=
  steps blocks (blocks.getD state 0) (t.states.getD state {})

section Order

theorem Numbered.mem_met_iff (numbered : t.Numbered blocks) {state : StateId}
    (within : state ≤ t.size) (block : Nat) :
    block ∈ blocks.met state ↔ block ∈ blocks.toList.take state := by
  rw [Partition.met, Finset.mem_image, List.mem_take_iff_getElem]
  constructor
  · rintro ⟨earlier, before, rfl⟩
    have before := Finset.mem_range.mp before
    obtain ⟨present, read⟩ := numbered.getD_eq (Nat.lt_of_lt_of_le before within)
    exact ⟨earlier, Nat.lt_min.mpr ⟨before, present⟩, read.symm⟩
  · rintro ⟨earlier, before, rfl⟩
    have before := (Nat.lt_min.mp before).1
    refine ⟨earlier, Finset.mem_range.mpr before, ?_⟩
    exact (numbered.getD_eq (Nat.lt_of_lt_of_le before within)).2

/-- The blocks met so far have the least numbers. -/
theorem Numbered.met_eq (numbered : t.Numbered blocks) {state : StateId} (within : state ≤ t.size) :
    blocks.met state =
      Finset.range
        ((blocks.toList.take state).foldl (fun count block => max count (block + 1)) 0) := by
  have grows := numbered.grows
  rw [← List.take_append_drop state blocks.toList, grows_append_iff] at grows
  ext block
  rw [numbered.mem_met_iff within, Finset.mem_range]
  exact grows.1.mem_iff block (Nat.zero_le _)

theorem Numbered.le_card_met (numbered : t.Numbered blocks) {state : StateId}
    (inside : state < t.size) : blocks.getD state 0 ≤ (blocks.met state).card := by
  obtain ⟨present, read⟩ := numbered.getD_eq inside
  have grows := numbered.grows
  rw [← List.take_append_drop state blocks.toList, grows_append_iff,
    List.drop_eq_getElem_cons present] at grows
  rw [numbered.met_eq (Nat.le_of_lt inside), Finset.card_range, read]
  exact grows.2.1

theorem Numbered.by_first (numbered : t.Numbered blocks) : t.NumberedByFirst blocks := by
  have all : blocks.met t.size = Finset.range blocks.count := by
    rw [numbered.met_eq (Nat.le_refl _), Partition.count, ← Array.foldl_toList]
    rw [List.take_of_length_le (Nat.le_of_eq numbered.size_eq)]
  refine ⟨numbered.size_eq, all, by rw [all, Finset.card_range], fun state inside new => ?_⟩
  apply Nat.le_antisymm (numbered.le_card_met inside)
  rw [numbered.met_eq (Nat.le_of_lt inside), Finset.mem_range, Nat.not_lt] at new
  rw [numbered.met_eq (Nat.le_of_lt inside), Finset.card_range]
  exact new

theorem NumberedByFirst.start (numbered : t.NumberedByFirst blocks) (positive : 0 < t.size) :
    blocks.getD 0 0 = 0 :=
  numbered.fresh 0 positive (Finset.notMem_empty _)

/-- Which states are separated decides the numbers. -/
theorem NumberedByFirst.eq_of_refines (fine : t.NumberedByFirst finer)
    (coarse : t.NumberedByFirst blocks) (forth : t.Refines finer blocks)
    (back : t.Refines blocks finer) : finer = blocks := by
  have same (state : StateId) (inside : state < t.size) :
      finer.getD state 0 = blocks.getD state 0 := by
    induction state using Nat.strong_induction_on with
    | _ state ih =>
      -- With the same blocks before it, a state has an old block in both partitions or in neither.
      have before : finer.met state = blocks.met state := by
        apply Finset.image_congr
        intro earlier member
        have member := Finset.mem_range.mp (Finset.mem_coe.mp member)
        exact ih earlier member (Nat.lt_trans member inside)
      by_cases met : finer.getD state 0 ∈ finer.met state
      · obtain ⟨earlier, member, together⟩ := Finset.mem_image.mp met
        have member := Finset.mem_range.mp member
        have insideEarlier := Nat.lt_trans member inside
        rw [← together, ih earlier member insideEarlier]
        exact forth earlier state insideEarlier inside together
      · have new : blocks.getD state 0 ∉ blocks.met state := by
          intro metBefore
          obtain ⟨earlier, member, together⟩ := Finset.mem_image.mp metBefore
          have insideEarlier := Nat.lt_trans (Finset.mem_range.mp member) inside
          exact met (Finset.mem_image.mpr ⟨earlier, member,
            back earlier state insideEarlier inside together⟩)
        rw [fine.fresh state inside met, coarse.fresh state inside new, before]
  apply Array.ext (fine.size_eq.trans coarse.size_eq.symm)
  intro state present presentToo
  have equal := same state (fine.size_eq ▸ present)
  rwa [← Array.getElem_eq_getD (h := present), ← Array.getElem_eq_getD (h := presentToo)] at equal

end Order

section Rounds

theorem numbered_after (t : Transducer) (rounds : Nat) : t.Numbered (t.partitionAfter rounds) := by
  cases rounds with
  | zero => exact (initial_spec t).1
  | succ rounds => exact (refine_spec t _).1

theorem refines_after (t : Transducer) (rounds : Nat) :
    t.Refines (t.partitionAfter (rounds + 1)) (t.partitionAfter rounds) :=
  refines_refine t _

theorem refines_initial_after (t : Transducer) (rounds : Nat) :
    t.Refines (t.partitionAfter rounds) t.initialPartition := by
  induction rounds with
  | zero => exact fun _ _ _ _ together => together
  | succ rounds ih => exact (refines_after t rounds).trans ih

theorem count_after_le (t : Transducer) (rounds : Nat) :
    (t.partitionAfter rounds).count ≤ (t.partitionAfter (rounds + 1)).count :=
  (refines_after t rounds).count_le (numbered_after t _) (numbered_after t _)

/-- Every round that changes the count adds a block at least. -/
theorem rounds_le_count {rounds : Nat}
    (grows : ∀ earlier < rounds,
      (t.partitionAfter (earlier + 1)).count ≠ (t.partitionAfter earlier).count) :
    t.initialPartition.count + rounds ≤ (t.partitionAfter rounds).count := by
  induction rounds with
  | zero => exact Nat.le_refl _
  | succ rounds ih =>
      have before := ih fun earlier below => grows earlier (Nat.lt_succ_of_lt below)
      have more := grows rounds (Nat.lt_succ_self _)
      have kept := count_after_le t rounds
      omega

theorem rounds_lt_size (positive : 0 < t.size) (rounds : Nat)
    (grows : ∀ earlier < rounds,
      (t.partitionAfter (earlier + 1)).count ≠ (t.partitionAfter earlier).count) :
    rounds < t.size := by
  have first := (initial_spec t).1.lt_count positive
  have least := rounds_le_count grows
  have most := (numbered_after t rounds).count_le
  omega

/-- Some round adds no block, and the first such round comes soon enough. -/
theorem exists_last_round (positive : 0 < t.size) :
    ∃ before < t.size, (t.partitionAfter (before + 1)).count = (t.partitionAfter before).count ∧
      ∀ earlier < before,
        (t.partitionAfter (earlier + 1)).count ≠ (t.partitionAfter earlier).count := by
  have ends :
      ∃ rounds, (t.partitionAfter (rounds + 1)).count = (t.partitionAfter rounds).count := by
    by_contra never
    rw [not_exists] at never
    exact Nat.lt_irrefl _ (rounds_lt_size positive t.size fun earlier _ => never earlier)
  refine ⟨Nat.find ends, ?_, Nat.find_spec ends, fun earlier below => Nat.find_min ends below⟩
  exact rounds_lt_size positive _ fun earlier below => Nat.find_min ends below

/-- A round that adds no block changes nothing, not even a number. -/
theorem partition_after_eq {rounds : Nat}
    (same : (t.partitionAfter (rounds + 1)).count = (t.partitionAfter rounds).count) :
    t.partitionAfter (rounds + 1) = t.partitionAfter rounds := by
  have fine := numbered_after t (rounds + 1)
  have coarse := numbered_after t rounds
  have forth := refines_after t rounds
  exact fine.by_first.eq_of_refines coarse.by_first forth (forth.symm fine coarse same)

/-- The rounds that are run are these, as long as there is one more to run. -/
theorem refine_all_after {last start : Nat} (fuel : Nat) (reached : start ≤ last)
    (enough : last < start + fuel)
    (same : (t.partitionAfter (last + 1)).count = (t.partitionAfter last).count)
    (grows : ∀ earlier < last,
      (t.partitionAfter (earlier + 1)).count ≠ (t.partitionAfter earlier).count) :
    t.refineAll fuel (t.partitionAfter start) = t.partitionAfter (last + 1) := by
  induction fuel generalizing start with
  | zero => exact absurd enough (Nat.not_lt.mpr reached)
  | succ fuel ih =>
      have next : t.refine (t.partitionAfter start) = t.partitionAfter (start + 1) := rfl
      rw [refineAll, next]
      by_cases ends : start = last
      · subst ends
        exact if_pos same
      · have below : start < last := Nat.lt_of_le_of_ne reached ends
        rw [if_neg (grows start below)]
        exact ih below (by omega)

/-- The steps are the arcs that are not idle, seen between the blocks. -/
theorem mem_signature_iff (t : Transducer) (blocks : Partition) (state : StateId) (step : Step) :
    step ∈ t.signature blocks state ↔ ∃ arc ∈ t.arcs state, ¬Idle blocks state arc ∧
      step = { input := arc.input, output := arc.output, weight := arc.weight.key,
               block := blocks.getD arc.target 0 } := by
  have arcs : (t.states.getD state {}).arcs = t.arcs state := by
    rw [arcs_eq, Array.getD_eq_getD_getElem?]
  rw [signature, mem_steps_iff, arcs]
  rfl

theorem final_of_together {rounds : Nat} {first second : StateId} (insideFirst : first < t.size)
    (insideSecond : second < t.size)
    (together : (t.partitionAfter rounds).getD first 0 = (t.partitionAfter rounds).getD second 0) :
    (t.final? first).map Weight.plain = (t.final? second).map Weight.plain := by
  apply ((initial_spec t).2 first second insideFirst insideSecond).mp
  exact refines_initial_after t rounds first second insideFirst insideSecond together

theorem signature_of_together {rounds : Nat} {first second : StateId} (insideFirst : first < t.size)
    (insideSecond : second < t.size)
    (together : (t.partitionAfter (rounds + 1)).getD first 0 =
      (t.partitionAfter (rounds + 1)).getD second 0) :
    t.signature (t.partitionAfter rounds) first = t.signature (t.partitionAfter rounds) second := by
  have read {state : StateId} (inside : state < t.states.size) :
      t.states.getD state {} = t.states[state] := (Array.getElem_eq_getD _).symm
  rw [signature, signature, read insideFirst, read insideSecond]
  exact (((refine_spec t (t.partitionAfter rounds)).2 first second insideFirst insideSecond).mp
    together).2

end Rounds

/-- After every round the blocks are numbered from zero on, in the order of their first
states, and are parts of the blocks before. The rounds end with the first one that adds no
block, at most as many as there are states; it changes nothing, and so the states of a block
have equal final weights and equal steps between these same blocks. The steps of a state are
its arcs, without the idle ones. -/
theorem rounds_end_stable (positive : 0 < t.size) :
    (∀ rounds, t.NumberedByFirst (t.partitionAfter rounds) ∧
      (t.partitionAfter rounds).getD 0 0 = 0 ∧
      t.Refines (t.partitionAfter (rounds + 1)) (t.partitionAfter rounds)) ∧
    ∃ before, before + 1 ≤ t.size ∧
      (∀ earlier < before,
        (t.partitionAfter (earlier + 1)).count ≠ (t.partitionAfter earlier).count) ∧
      (t.partitionAfter (before + 1)).count = (t.partitionAfter before).count ∧
      t.partitionAfter (before + 1) = t.partitionAfter before ∧
      (∀ fuel, before + 1 ≤ fuel →
        t.refineAll fuel t.initialPartition = t.partitionAfter (before + 1)) ∧
      (∀ whole : Transducer, whole.trim = t →
        whole.minimize = t.quotient (t.partitionAfter (before + 1))) ∧
      (∀ state step, step ∈ t.signature (t.partitionAfter (before + 1)) state ↔
        ∃ arc ∈ t.arcs state, ¬Idle (t.partitionAfter (before + 1)) state arc ∧
          step = { input := arc.input, output := arc.output, weight := arc.weight.key,
                   block := (t.partitionAfter (before + 1)).getD arc.target 0 }) ∧
      ∀ first second, first < t.size → second < t.size →
        (t.partitionAfter (before + 1)).getD first 0 =
          (t.partitionAfter (before + 1)).getD second 0 →
        (t.final? first).map Weight.plain = (t.final? second).map Weight.plain ∧
          t.signature (t.partitionAfter (before + 1)) first =
            t.signature (t.partitionAfter (before + 1)) second := by
  constructor
  · intro rounds
    have numbered := (numbered_after t rounds).by_first
    exact ⟨numbered, numbered.start positive, refines_after t rounds⟩
  · obtain ⟨before, enough, same, grows⟩ := exists_last_round positive
    have unchanged := partition_after_eq same
    have run (fuel : Nat) (more : before + 1 ≤ fuel) :
        t.refineAll fuel t.initialPartition = t.partitionAfter (before + 1) :=
      refine_all_after fuel (Nat.zero_le _) (by omega) same grows
    refine ⟨before, enough, grows, same, unchanged, run, ?_, mem_signature_iff t _, ?_⟩
    · rintro whole rfl
      rw [minimize, run _ enough]
    · intro first second insideFirst insideSecond together
      refine ⟨final_of_together insideFirst insideSecond together, ?_⟩
      -- The steps that the last round compared, between the blocks that it left as they were.
      have compared := signature_of_together insideFirst insideSecond together
      rwa [← unchanged] at compared

/-- Three states in a row. The first two are in one block at first, and a round separates them. -/
def chain : Transducer := ⟨#[
  { arcs := #[Arc.identity "a" 1] },
  { arcs := #[Arc.identity "a" 2] },
  { final := some 0.5 }]⟩

theorem rounds_end_stable_of_chain :
    0 < chain.size ∧ chain.trim = chain ∧
      (∀ rounds, chain.NumberedByFirst (chain.partitionAfter rounds) ∧
        (chain.partitionAfter rounds).getD 0 0 = 0 ∧
        chain.Refines (chain.partitionAfter (rounds + 1)) (chain.partitionAfter rounds)) ∧
      ∃ before, before + 1 ≤ 3 ∧
        chain.minimize = chain.quotient (chain.partitionAfter (before + 1)) ∧
        chain.partitionAfter (before + 1) = chain.partitionAfter before ∧
        ∀ first second, first < 3 → second < 3 →
          (chain.partitionAfter (before + 1)).getD first 0 =
            (chain.partitionAfter (before + 1)).getD second 0 →
          (chain.final? first).map Weight.plain = (chain.final? second).map Weight.plain ∧
            chain.signature (chain.partitionAfter (before + 1)) first =
              chain.signature (chain.partitionAfter (before + 1)) second := by
  have positive : 0 < chain.size := by decide
  have trimmed : chain.trim = chain := by decide +kernel
  obtain ⟨rounds, before, enough, -, -, unchanged, -, minimized, -, stable⟩ :=
    rounds_end_stable positive
  exact ⟨positive, trimmed, rounds, before, enough, minimized chain trimmed, unchanged, stable⟩

end Transducer

end MorphLex
