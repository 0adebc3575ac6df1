import Mathlib.Data.Finset.Card
import MorphLex.Transducer.Merge

/-!
Partitions into numbered blocks. Blocks are numbered in the order of their first
states, so that their count is one more than the greatest number. A refinement
with as many blocks as before separates nothing, and the number of states bounds
the rounds until that happens.
-/

namespace MorphLex

section Numbering

variable {Key : Type _} [BEq Key] [Hashable Key]

/-- Different keys have different numbers, all below the size. -/
structure Dense (numbers : Std.HashMap Key Nat) : Prop where
  lt_size : ∀ (key : Key) (number : Nat), numbers[key]? = some number → number < numbers.size
  apart : ∀ (first second : Key) (number : Nat), numbers[first]? = some number →
    numbers[second]? = some number →
    first = second

/-- Each number is one met before or the next new one. -/
def Grows (next : Nat) : List Nat → Prop
  | [] => True
  | number :: rest => number ≤ next ∧ Grows (max next (number + 1)) rest

variable [LawfulBEq Key] [LawfulHashable Key]

theorem not_mem_of_unnumbered {numbers : Std.HashMap Key Nat} {key : Key}
    (new : numbers[key]? = none) : key ∉ numbers := by
  intro member
  rw [Std.HashMap.getElem?_eq_some_getElem member] at new
  cases new

theorem size_insert_new {numbers : Std.HashMap Key Nat} {key : Key} (new : numbers[key]? = none)
    (number : Nat) :
    (numbers.insert key number).size = numbers.size + 1 := by
  rw [Std.HashMap.size_insert, if_neg (not_mem_of_unnumbered new)]

theorem Dense.insert {numbers : Std.HashMap Key Nat} (dense : Dense numbers) {key : Key}
    (new : numbers[key]? = none) : Dense (numbers.insert key numbers.size) := by
  constructor
  · intro other number found
    rw [Std.HashMap.getElem?_insert] at found
    rw [size_insert_new new]
    split at found
    · obtain rfl := Option.some.inj found
      exact Nat.lt_succ_self _
    · exact Nat.lt_succ_of_lt (dense.lt_size other number found)
  · intro first second number foundFirst foundSecond
    rw [Std.HashMap.getElem?_insert] at foundFirst foundSecond
    split at foundFirst
    · next isFirst =>
      obtain rfl := eq_of_beq isFirst
      split at foundSecond
      · next isSecond => exact eq_of_beq isSecond
      · obtain rfl := Option.some.inj foundFirst
        exact absurd (dense.lt_size second _ foundSecond) (Nat.lt_irrefl _)
    · split at foundSecond
      · obtain rfl := Option.some.inj foundSecond
        exact absurd (dense.lt_size first _ foundFirst) (Nat.lt_irrefl _)
      · exact dense.apart first second number foundFirst foundSecond

theorem grows_number_from (numbers : Std.HashMap Key Nat) (dense : Dense numbers)
    (keys : List Key) : Grows numbers.size (numberFrom numbers keys) := by
  induction keys generalizing numbers with
  | nil => trivial
  | cons key rest ih =>
      rw [numberFrom]
      cases known : numbers[key]? with
      | some number =>
          have below := dense.lt_size key number known
          exact ⟨Nat.le_of_lt below, by rw [Nat.max_eq_left below]; exact ih numbers dense⟩
      | none =>
          have grows := ih _ (dense.insert known)
          rw [size_insert_new known] at grows
          exact ⟨Nat.le_refl _, by rwa [Nat.max_eq_right (Nat.le_succ _)]⟩

/-- An assignment behind the numbers that are given out: it keeps the numbers known
before and tells all keys apart. -/
structure Assigns (numbers : Std.HashMap Key Nat) (keys : List Key) (assign : Key → Nat) :
    Prop where
  same : numberFrom numbers keys = keys.map assign
  kept : ∀ (key : Key) (number : Nat), numbers[key]? = some number → assign key = number
  apart : ∀ first second, (first ∈ numbers ∨ first ∈ keys) → (second ∈ numbers ∨ second ∈ keys) →
    assign first = assign second → first = second

variable {numbers : Std.HashMap Key Nat} {key : Key} {rest : List Key} {assign : Key → Nat}

theorem Dense.assigns (dense : Dense numbers) :
    Assigns numbers [] fun key => numbers[key]?.getD 0 where
  same := rfl
  kept := fun key number found => by simp only [found, Option.getD_some]
  apart := by
    intro first second listedFirst listedSecond same
    have memFirst : first ∈ numbers := by simpa using listedFirst
    have memSecond : second ∈ numbers := by simpa using listedSecond
    simp only [Std.HashMap.getElem?_eq_some_getElem memFirst,
      Std.HashMap.getElem?_eq_some_getElem memSecond, Option.getD_some] at same
    exact dense.apart first second _ (Std.HashMap.getElem?_eq_some_getElem memFirst)
      (same ▸ Std.HashMap.getElem?_eq_some_getElem memSecond)

theorem Assigns.cons_known {number : Nat} (assigns : Assigns numbers rest assign)
    (known : numbers[key]? = some number) : Assigns numbers (key :: rest) assign where
  same := by
    rw [numberFrom, known, List.map_cons, assigns.kept key number known, ← assigns.same]
  kept := assigns.kept
  apart := by
    have member : key ∈ numbers := Std.HashMap.mem_iff_isSome_getElem?.mpr (by rw [known]; rfl)
    have listed (other : Key) (before : other ∈ numbers ∨ other ∈ key :: rest) :
        other ∈ numbers ∨ other ∈ rest := by
      rcases before with before | listed
      · exact .inl before
      · rcases List.mem_cons.mp listed with rfl | later
        · exact .inl member
        · exact .inr later
    intro first second listedFirst listedSecond
    exact assigns.apart first second (listed first listedFirst) (listed second listedSecond)

theorem Assigns.cons_new (assigns : Assigns (numbers.insert key numbers.size) rest assign)
    (new : numbers[key]? = none) : Assigns numbers (key :: rest) assign where
  same := by
    have given : assign key = numbers.size :=
      assigns.kept key _ (by rw [Std.HashMap.getElem?_insert_self])
    rw [numberFrom, new, List.map_cons, given, ← assigns.same]
  kept := by
    intro other number found
    apply assigns.kept
    rw [Std.HashMap.getElem?_insert]
    split
    · next isKey =>
      rw [← eq_of_beq isKey, new] at found
      simp at found
    · exact found
  apart := by
    have listed (other : Key) (before : other ∈ numbers ∨ other ∈ key :: rest) :
        other ∈ numbers.insert key numbers.size ∨ other ∈ rest := by
      rw [Std.HashMap.mem_insert]
      rcases before with before | listed
      · exact .inl (.inr before)
      · rcases List.mem_cons.mp listed with rfl | later
        · exact .inl (.inl (beq_self_eq_true _))
        · exact .inr later
    intro first second listedFirst listedSecond
    exact assigns.apart first second (listed first listedFirst) (listed second listedSecond)

theorem exists_assigns (numbers : Std.HashMap Key Nat) (dense : Dense numbers) (keys : List Key) :
    ∃ assign, Assigns numbers keys assign := by
  induction keys generalizing numbers with
  | nil => exact ⟨_, dense.assigns⟩
  | cons key rest ih =>
      cases known : numbers[key]? with
      | some number =>
          obtain ⟨assign, assigns⟩ := ih numbers dense
          exact ⟨assign, assigns.cons_known known⟩
      | none =>
          obtain ⟨assign, assigns⟩ := ih _ (dense.insert known)
          exact ⟨assign, assigns.cons_new known⟩

theorem number_by_first_spec (keys : List Key) :
    Grows 0 (numberByFirst keys) ∧ ∃ assign : Key → Nat, numberByFirst keys = keys.map assign ∧
      ∀ first ∈ keys, ∀ second ∈ keys, assign first = assign second → first = second := by
  have dense : Dense (∅ : Std.HashMap Key Nat) := by
    constructor <;> simp
  have grows := grows_number_from ∅ dense keys
  rw [Std.HashMap.size_empty] at grows
  obtain ⟨assign, assigns⟩ := exists_assigns ∅ dense keys
  exact ⟨grows, assign, assigns.same,
    fun first listedFirst second listedSecond =>
      assigns.apart first second (.inr listedFirst) (.inr listedSecond)⟩

/-- Numbers that grow use up all numbers below their count. -/
theorem Grows.mem_iff {next : Nat} {numbers : List Nat} (grows : Grows next numbers) (number : Nat)
    (new : next ≤ number) :
    number ∈ numbers ↔ number < numbers.foldl (fun count block => max count (block + 1)) next := by
  induction numbers generalizing next with
  | nil => simp [new]
  | cons first rest ih =>
      obtain ⟨small, grows⟩ := grows
      rw [List.foldl_cons, List.mem_cons]
      -- A number that is not yet given out can only be met as the next new one.
      by_cases same : number = first
      · have equal : number = next := Nat.le_antisymm (same ▸ small) new
        have monotone (start : Nat) (numbers : List Nat) :
            start ≤ numbers.foldl (fun count block => max count (block + 1)) start := by
          induction numbers generalizing start with
          | nil => exact Nat.le_refl _
          | cons first rest ih => exact Nat.le_trans (Nat.le_max_left _ _) (ih _)
        have reached := monotone (max next (first + 1)) rest
        exact iff_of_true (.inl same) (by omega)
      · rw [← ih grows (by omega)]
        simp [same]

theorem Grows.head {numbers : List Nat} (grows : Grows 0 numbers) (present : 0 < numbers.length) :
    numbers[0] = 0 := by
  cases numbers with
  | nil => simp at present
  | cons first rest => exact Nat.le_zero.mp grows.1

end Numbering

namespace Transducer

/-- Every state has a block, and blocks are numbered in the order of their first states. -/
structure Numbered (t : Transducer) (blocks : Partition) : Prop where
  size_eq : blocks.size = t.size
  grows : Grows 0 blocks.toList

def Refines (t : Transducer) (finer blocks : Partition) : Prop :=
  ∀ first second, first < t.size → second < t.size → finer.getD first 0 = finer.getD second 0 →
    blocks.getD first 0 = blocks.getD second 0

variable {t : Transducer} {blocks finer : Partition}

theorem Refines.trans {middle : Partition} (first : t.Refines finer middle)
    (second : t.Refines middle blocks) :
    t.Refines finer blocks :=
  fun left right insideLeft insideRight together =>
    second left right insideLeft insideRight (first left right insideLeft insideRight together)

theorem Numbered.getD_eq (numbered : t.Numbered blocks) {state : Nat} (inside : state < t.size) :
    ∃ present : state < blocks.toList.length, blocks.getD state 0 = blocks.toList[state] := by
  have present : state < blocks.size := numbered.size_eq ▸ inside
  exact ⟨present, (Array.getElem_eq_getD 0).symm⟩

theorem Numbered.mem_iff (numbered : t.Numbered blocks) (block : Nat) :
    block < blocks.count ↔ ∃ state < t.size, blocks.getD state 0 = block := by
  rw [Partition.count, ← Array.foldl_toList, ← numbered.grows.mem_iff block (Nat.zero_le _),
    List.mem_iff_getElem]
  constructor
  · rintro ⟨state, present, rfl⟩
    have inside : state < t.size := numbered.size_eq ▸ present
    exact ⟨state, inside, (numbered.getD_eq inside).2⟩
  · rintro ⟨state, inside, rfl⟩
    obtain ⟨present, same⟩ := numbered.getD_eq inside
    exact ⟨state, present, same.symm⟩

theorem Numbered.lt_count (numbered : t.Numbered blocks) {state : Nat} (inside : state < t.size) :
    blocks.getD state 0 < blocks.count :=
  (numbered.mem_iff _).mpr ⟨state, inside, rfl⟩

theorem Numbered.count_le (numbered : t.Numbered blocks) : blocks.count ≤ t.size := by
  have covered :
      Set.SurjOn (fun state => blocks.getD state 0) (Finset.range t.size)
        (Finset.range blocks.count) := by
    intro block below
    obtain ⟨state, inside, same⟩ := (numbered.mem_iff block).mp (Finset.mem_range.mp below)
    exact ⟨state, Finset.mem_coe.mpr (Finset.mem_range.mpr inside), same⟩
  have cards := Finset.card_le_card_of_surjOn _ covered
  rwa [Finset.card_range, Finset.card_range] at cards

/-- Blocks of a refinement map onto the blocks that they are parts of. -/
theorem Refines.exists_onto (refines : t.Refines finer blocks) (fine : t.Numbered finer)
    (coarse : t.Numbered blocks) :
    ∃ whole : Nat → Nat, (∀ state < t.size, whole (finer.getD state 0) = blocks.getD state 0) ∧
      Set.MapsTo whole (Finset.range finer.count) (Finset.range blocks.count) ∧
      Set.SurjOn whole (Finset.range finer.count) (Finset.range blocks.count) := by
  have pick (block : Nat) :
      ∃ state, block < finer.count → state < t.size ∧ finer.getD state 0 = block := by
    by_cases below : block < finer.count
    · obtain ⟨state, inside, same⟩ := (fine.mem_iff block).mp below
      exact ⟨state, fun _ => ⟨inside, same⟩⟩
    · exact ⟨0, fun impossible => absurd impossible below⟩
  choose member chosen using pick
  have whole (state : Nat) (inside : state < t.size) :
      blocks.getD (member (finer.getD state 0)) 0 = blocks.getD state 0 := by
    obtain ⟨within, same⟩ := chosen _ (fine.lt_count inside)
    exact refines _ _ within inside same
  refine ⟨fun block => blocks.getD (member block) 0, whole, ?_, ?_⟩
  · intro block below
    exact Finset.mem_coe.mpr (Finset.mem_range.mpr
      (coarse.lt_count (chosen block (Finset.mem_range.mp (Finset.mem_coe.mp below))).1))
  · intro block below
    obtain ⟨state, inside, same⟩ :=
      (coarse.mem_iff block).mp (Finset.mem_range.mp (Finset.mem_coe.mp below))
    exact ⟨finer.getD state 0, Finset.mem_coe.mpr (Finset.mem_range.mpr (fine.lt_count inside)),
      (whole state inside).trans same⟩

theorem Refines.count_le (refines : t.Refines finer blocks) (fine : t.Numbered finer)
    (coarse : t.Numbered blocks) :
    blocks.count ≤ finer.count := by
  obtain ⟨whole, -, -, onto⟩ := refines.exists_onto fine coarse
  have cards := Finset.card_le_card_of_surjOn whole onto
  rwa [Finset.card_range, Finset.card_range] at cards

/-- A refinement with the same number of blocks separates nothing. -/
theorem Refines.symm (refines : t.Refines finer blocks) (fine : t.Numbered finer)
    (coarse : t.Numbered blocks) (counts : finer.count = blocks.count) :
    t.Refines blocks finer := by
  obtain ⟨whole, same, below, onto⟩ := refines.exists_onto fine coarse
  have injective := Finset.injOn_of_surjOn_of_card_le whole below onto (by rw [counts])
  intro first second insideFirst insideSecond together
  apply injective (Finset.mem_coe.mpr (Finset.mem_range.mpr (fine.lt_count insideFirst)))
    (Finset.mem_coe.mpr (Finset.mem_range.mpr (fine.lt_count insideSecond)))
  rw [same first insideFirst, same second insideSecond, together]

theorem numbered_by_first {Key : Type _} [BEq Key] [Hashable Key] [LawfulBEq Key]
    [LawfulHashable Key] (keys : List Key) (length : keys.length = t.size) :
    t.Numbered (numberByFirst keys).toArray ∧ ∀ first second (insideFirst : first < keys.length)
      (insideSecond : second < keys.length),
      (numberByFirst keys).toArray.getD first 0 = (numberByFirst keys).toArray.getD second 0 ↔
        keys[first] = keys[second] := by
  obtain ⟨grows, assign, same, injective⟩ := number_by_first_spec keys
  have read (place : Nat) (inside : place < keys.length) :
      (numberByFirst keys).toArray.getD place 0 = assign keys[place] := by
    rw [Array.getD_eq_getD_getElem?, List.getElem?_toArray, same, List.getElem?_map,
      List.getElem?_eq_getElem inside]
    rfl
  refine ⟨⟨by rw [same]; simpa using length, by simpa using grows⟩,
    fun first second insideFirst insideSecond => ?_⟩
  rw [read first insideFirst, read second insideSecond]
  exact ⟨injective _ (List.getElem_mem _) _ (List.getElem_mem _), fun equal => by rw [equal]⟩

end Transducer

end MorphLex
