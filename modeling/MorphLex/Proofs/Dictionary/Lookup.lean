import MorphLex.Proofs.Dictionary.Proper
import MorphLex.Proofs.Search.Reduction

/-!
Looking up words in a compiled dictionary before and after its reduction. A text is
split by the symbols of the transducer that it is looked up in, so that the answers
stay the same as long as trimming loses no symbol that the text is split by.
-/

namespace MorphLex.Dictionary.Compiler

open Reported Result Transducer

/-- Reducing keeps the answers of every lookup that meets no limit: trimmed and minimized,
a transducer always answers alike, and the unreduced one does so wherever it splits the
text as the trimmed one does. The root of a compiled dictionary is such a transducer. -/
theorem reduction_keeps_answers :
    (∀ (t : Transducer) (text : String), t.WellFormed → t.FiniteWeights →
      (t.trim.WithinLimits (t.trim.splitInput text) →
        t.minimize.WithinLimits (t.minimize.splitInput text) →
        SameAnswers (t.trim.lookup text) (t.minimize.lookup text)) ∧
      (t.splitInput text = t.trim.splitInput text → t.WithinLimits (t.splitInput text) →
        (t.trim.WithinLimits (t.trim.splitInput text) →
          SameAnswers (t.lookup text) (t.trim.lookup text)) ∧
        (t.minimize.WithinLimits (t.minimize.splitInput text) →
          SameAnswers (t.lookup text) (t.minimize.lookup text)))) ∧
    ∀ (options : Options) (documents : List Xml.Element) (compiler : Compiler) (text : String),
      (documents.foldlM compile { options }).outcome.2 = .ok compiler →
      compiler.root.splitInput text = compiler.root.trim.splitInput text →
      compiler.root.WithinLimits (compiler.root.splitInput text) →
      compiler.root.minimize.WithinLimits (compiler.root.minimize.splitInput text) →
      SameAnswers (compiler.root.lookup text) (compiler.root.minimize.lookup text) := by
  constructor
  · intro t text formed finite
    constructor
    · exact lookup_trim_minimize formed finite
    · intro split within
      exact ⟨lookup_trim formed finite split within, lookup_minimize formed finite split within⟩
  · intro options documents compiler text compiled split within limits
    have proper := (compile_all_proper Registry.proper_empty (yields_of_outcome compiled)).root
    exact lookup_minimize proper.rooted.formed proper.finite split within limits

/-- A tag that no entry ends behind, and a text that looks like it. -/
def lostTagDocument : Xml.Element :=
  ⟨"dictionary", [], 1, [
    .element ⟨"pardefs", [], 2, [.element ⟨"pardef", [("n", "none")], 2, []⟩]⟩,
    .element ⟨"section", [], 3, [
      .element ⟨"e", [], 4, [
        .element ⟨"i", [], 4, [.element ⟨"s", [("n", "x")], 4, []⟩]⟩,
        .element ⟨"par", [("n", "none")], 4, []⟩]⟩,
      .element ⟨"e", [], 5, [.element ⟨"i", [], 5, [.text "<x>"]⟩]⟩,
      .element ⟨"e", [], 6, [.element ⟨"i", [], 6, [.text "a"]⟩]⟩]⟩]⟩

def lostTagRoot : Transducer := ⟨#[
  { arcs := #[Arc.identity "<x>" 1, Arc.identity "<" 4, Arc.identity "a" 7] },
  { arcs := #[Arc.silent 3 0.0] }, { final := some 0.0 }, {},
  { arcs := #[Arc.identity "x" 5] }, { arcs := #[Arc.identity ">" 6] }, { final := some 0.0 },
    { final := some 0.0 }]⟩

def lostTagTrimmed : Transducer := ⟨#[
  { arcs := #[Arc.identity "<" 1, Arc.identity "a" 4] },
  { arcs := #[Arc.identity "x" 2] }, { arcs := #[Arc.identity ">" 3] }, { final := some 0.0 },
    { final := some 0.0 }]⟩

def lostTagMinimized : Transducer := ⟨#[
  { arcs := #[Arc.identity "<" 1, Arc.identity "a" 3] },
  { arcs := #[Arc.identity "x" 2] }, { arcs := #[Arc.identity ">" 3] }, { final := some 0.0 }]⟩

theorem trim_lost_tag : lostTagRoot.trim = lostTagTrimmed := by decide

theorem minimize_lost_tag : lostTagRoot.minimize = lostTagMinimized := by
  have zero : Weight.ofKey (Weight.key 0.0) = 0.0 := by decide
  have order : compare "<" "a" = .lt := by decide
  have first : lostTagTrimmed.initialPartition = #[0, 0, 0, 1, 1] := by
    simp [initialPartition, lostTagTrimmed, numberByFirst, numberFrom, Std.HashMap.size_insert]
  have rounds : lostTagTrimmed.refine #[0, 0, 0, 1, 1] = #[0, 1, 2, 3, 3] ∧
      lostTagTrimmed.refine #[0, 1, 2, 3, 3] = #[0, 1, 2, 3, 3] := by
    simp [refine, lostTagTrimmed, numberByFirst, numberFrom, Std.HashMap.size_insert, steps,
      Arc.identity, Arc.isSilent, Symbol.isEpsilon, Symbol.epsilon, Ascending.ofList,
        List.mergeSort, Ascending.dropRepeats,
      Step.compare, compareLex, compareOn, order]
  have size : lostTagTrimmed.size = 5 := rfl
  rw [minimize, trim_lost_tag, size, first, refineAll, rounds.1, if_neg (by decide), refineAll,
    rounds.2, if_pos rfl]
  simp [quotient, lostTagTrimmed, lostTagMinimized, steps, Arc.identity, Arc.isSilent,
    Symbol.isEpsilon, Symbol.epsilon, Ascending.ofList, List.mergeSort, Ascending.dropRepeats,
    Step.compare, compareLex, compareOn, order, Step.toArc, zero]

theorem symbols_lost_tag : lostTagRoot.symbols = ["<", "<x>", ">", "a", "x"] ∧
    lostTagTrimmed.symbols = ["<", ">", "a", "x"] := by
  constructor
  · apply Ascending.eq_of_mem_iff compare (ascending_symbols _) (by decide)
    intro symbol
    rw [symbols, Symbol.ascending, Ascending.mem_of_list]
    simp [lostTagRoot, Arc.identity, Arc.silent, Symbol.isEpsilon, Symbol.epsilon]
    grind
  · apply Ascending.eq_of_mem_iff compare (ascending_symbols _) (by decide)
    intro symbol
    rw [symbols, Symbol.ascending, Ascending.mem_of_list]
    simp [lostTagTrimmed, Arc.identity, Symbol.isEpsilon, Symbol.epsilon]
    grind

theorem split_lost_tag :
    lostTagRoot.splitInput "<x>" = ["<x>"] ∧ lostTagTrimmed.splitInput "<x>" = ["<", "x", ">"] ∧
    lostTagRoot.splitInput "a" = ["a"] ∧ lostTagTrimmed.splitInput "a" = ["a"] := by
  rw [splitInput, splitInput, splitInput, splitInput, symbols_lost_tag.1, symbols_lost_tag.2]
  have tags : ["<", "<x>", ">", "a", "x"].filter Symbol.isMultichar = ["<x>"] := by decide
  have none : ["<", ">", "a", "x"].filter Symbol.isMultichar = [] := by decide
  rw [tags, none, Symbol.split, Symbol.split, Symbol.split, Symbol.split, List.mergeSort_singleton,
    List.mergeSort_nil]
  decide

theorem compile_lost_tag : ∃ compiler,
    ([lostTagDocument].foldlM compile { options := {} }).outcome.2 = .ok compiler ∧
    compiler.root = lostTagRoot := by
  have built : ([lostTagDocument].foldlM compile { options := {} }).outcome.2.toOption.map root =
    some lostTagRoot := by
    decide +kernel
  obtain ⟨compiler, compiled, same⟩ := Option.map_eq_some_iff.mp built
  exact ⟨compiler, to_option_eq_some_iff.mp compiled, same⟩

theorem lost_tag_proper : lostTagRoot.Proper := by
  obtain ⟨compiler, compiled, same⟩ := compile_lost_tag
  rw [← same]
  exact (compile_all_proper Registry.proper_empty (yields_of_outcome compiled)).root

theorem limits_lost_tag (input : List Symbol) : lostTagRoot.WithinLimits input ∧
    lostTagRoot.trim.WithinLimits input ∧ lostTagRoot.minimize.WithinLimits input := by
  let root (state : StateId) : Nat := #[7, 2, 1, 1, 3, 2, 1, 1].getD state 0
  let trimmed (state : StateId) : Nat := #[5, 3, 2, 1, 1].getD state 0
  have formed := lost_tag_proper.rooted.formed
  constructor
  · have ranked : lostTagRoot.Ranked root root := ⟨by decide, by decide⟩
    exact ranked.within_limits formed (by decide) (by decide) input
  constructor
  · have ranked : lostTagRoot.trim.Ranked trimmed trimmed := by
      rw [trim_lost_tag]
      exact ⟨by decide, by decide⟩
    exact ranked.within_limits (well_formed_trim formed) (by decide) (by decide) input
  · have ranked : lostTagRoot.minimize.Ranked trimmed trimmed := by
      rw [minimize_lost_tag]
      exact ⟨by decide, by decide⟩
    have merged : lostTagRoot.minimize.WellFormed := by
      rw [minimize_lost_tag]
      simp [lostTagMinimized, WellFormed, size, Arc.identity]
    exact ranked.within_limits merged (by decide) (by decide) input

/-- A text without tags has its answer in all three. -/
theorem reduction_keeps_answers_of_lost_tag :
    SameAnswers (lostTagRoot.trim.lookup "a") (lostTagRoot.minimize.lookup "a") ∧
      SameAnswers (lostTagRoot.lookup "a") (lostTagRoot.trim.lookup "a") ∧
      SameAnswers (lostTagRoot.lookup "a") (lostTagRoot.minimize.lookup "a") ∧
      ∃ compiler, ([lostTagDocument].foldlM compile { options := {} }).outcome.2 = .ok compiler ∧
        (∃ total, (compiler.root.lookup "a")["a"]? = some total) ∧
        SameAnswers (compiler.root.lookup "a") (compiler.root.minimize.lookup "a") := by
  have proper := lost_tag_proper
  have alike : lostTagRoot.splitInput "a" = lostTagRoot.trim.splitInput "a" := by
    rw [trim_lost_tag, split_lost_tag.2.2.1, split_lost_tag.2.2.2]
  have limits (input : List Symbol) := limits_lost_tag input
  obtain ⟨reduced, whole⟩ :=
    reduction_keeps_answers.1 lostTagRoot "a" proper.rooted.formed proper.finite
  obtain ⟨trimmed, minimized⟩ := whole alike (limits _).1
  obtain ⟨compiler, compiled, same⟩ := compile_lost_tag
  refine ⟨reduced (limits _).2.1 (limits _).2.2, trimmed (limits _).2.1, minimized (limits _).2.2,
    compiler, compiled, ?_⟩
  have answers := reduction_keeps_answers.2 {} [lostTagDocument] compiler "a" compiled
  rw [same] at answers ⊢
  have leaves : Arc.identity "a" 7 ∈ lostTagRoot.arcs 0 := by simp [lostTagRoot, arcs, Arc.identity]
  have reads : lostTagRoot.Transduces ["a"] "a" (cost [Arc.identity "a" 7] 0.0) :=
    ⟨_, 0.0, ⟨7, .step leaves (.stay 7), rfl⟩, by decide, by decide, rfl⟩
  obtain ⟨total, found, _⟩ :=
    ((limits ["a"]).1.summable proper.finite Search.sound_start).finds reads
  rw [← split_lost_tag.2.2.1] at found
  exact ⟨⟨total, found⟩, answers alike (limits _).1 (limits _).2.2⟩

/-- The unreduced root reads the text as the tag, and has no answer; reduced, it reads the
three characters. -/
theorem reduction_changes_answers_of_lost_tag :
    ∃ compiler, ([lostTagDocument].foldlM compile { options := {} }).outcome.2 = .ok compiler ∧
      compiler.root.WellFormed ∧ compiler.root.FiniteWeights ∧
      compiler.root.WithinLimits (compiler.root.splitInput "<x>") ∧
      compiler.root.trim.WithinLimits (compiler.root.trim.splitInput "<x>") ∧
      compiler.root.minimize.WithinLimits (compiler.root.minimize.splitInput "<x>") ∧
      ¬SameAnswers (compiler.root.lookup "<x>") (compiler.root.trim.lookup "<x>") ∧
      ¬SameAnswers (compiler.root.lookup "<x>") (compiler.root.minimize.lookup "<x>") := by
  obtain ⟨compiler, compiled, same⟩ := compile_lost_tag
  have proper := lost_tag_proper
  have limits (input : List Symbol) := limits_lost_tag input
  have silent : (lostTagRoot.lookup "<x>")["<x>"]? = none := by
    have zero : (0.0 : Weight) + 0.0 = 0.0 := by decide
    have steps : Search.maxSteps = 99997 + 3 := rfl
    rw [lookup, split_lost_tag.1, lookupSymbols, steps]
    simp [Search.run, Search.start, Search.expand, Search.follow?, Search.visit, Search.maxOutput,
      lostTagRoot, arcs, final?, Symbol.isEpsilon, Symbol.epsilon, Arc.identity, Arc.silent, zero]
  have answered : ∃ total, (lostTagRoot.trim.lookup "<x>")["<x>"]? = some total := by
    have reads : lostTagRoot.trim.Transduces ["<", "x", ">"] "<x>"
        (cost [Arc.identity "<" 1, Arc.identity "x" 2, Arc.identity ">" 3] 0.0) := by
      rw [trim_lost_tag]
      have opens : Arc.identity "<" 1 ∈ lostTagTrimmed.arcs 0 := by
        simp [lostTagTrimmed, arcs, Arc.identity]
      have names : Arc.identity "x" 2 ∈ lostTagTrimmed.arcs 1 := by
        simp [lostTagTrimmed, arcs, Arc.identity]
      have closes : Arc.identity ">" 3 ∈ lostTagTrimmed.arcs 2 := by
        simp [lostTagTrimmed, arcs, Arc.identity]
      exact ⟨_, 0.0,
        ⟨3, .step opens (.step names (.step closes (.stay 3))), rfl⟩, by decide, by decide, rfl⟩
    obtain ⟨total, found, _⟩ :=
      ((limits ["<", "x", ">"]).2.1.summable proper.finite.trim Search.sound_start).finds reads
    rw [← split_lost_tag.2.1, ← trim_lost_tag] at found
    exact ⟨total, found⟩
  have changed : ¬SameAnswers (lostTagRoot.lookup "<x>") (lostTagRoot.trim.lookup "<x>") := by
    intro alike
    obtain ⟨total, found⟩ := answered
    have both := alike "<x>"
    rw [silent, found] at both
    simp at both
  have reduced : SameAnswers (lostTagRoot.trim.lookup "<x>") (lostTagRoot.minimize.lookup "<x>") :=
    lookup_trim_minimize proper.rooted.formed proper.finite (limits _).2.1 (limits _).2.2
  refine ⟨compiler, compiled, ?_⟩
  rw [same]
  refine ⟨proper.rooted.formed, proper.finite, (limits _).1, (limits _).2.1, (limits _).2.2,
    changed, ?_⟩
  intro alike
  exact changed fun output => (alike output).trans (reduced output).symm

end MorphLex.Dictionary.Compiler
