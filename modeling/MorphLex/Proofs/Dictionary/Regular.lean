import MorphLex.Proofs.Dictionary.Proper

/-!
The shape that compiled transducers share. Whatever the compiler builds a transducer from
(symbol pairs, copies of paradigms, patterns), its arcs bear epsilon, single characters or
texts in angle brackets, only silent arcs have a weight, and an arc from a state to itself
comes from a repeating pair of a separable dictionary.
-/

namespace MorphLex

theorem Symbol.Written.ne_empty {symbol : Symbol} (written : symbol.Written) : symbol ≠ "" := by
  intro empty
  have characters := congrArg String.toList empty
  cases written with
  | character character => simp at characters
  | bracketed name => simp at characters

/-- Epsilon, a single character, or a text in angle brackets. -/
def Symbol.IsLabel (symbol : Symbol) : Prop := symbol = epsilon ∨ symbol.Written

theorem Symbol.IsLabel.ne_empty {symbol : Symbol} (label : symbol.IsLabel) : symbol ≠ "" := by
  rcases label with rfl | written
  · decide
  · exact written.ne_empty

/-- No literal is taken for epsilon, and a label that is not epsilon is a literal. -/
theorem Symbol.IsLabel.written_iff {symbol : Symbol} (label : symbol.IsLabel) :
    symbol.Written ↔ symbol.isEpsilon = false := by
  constructor
  · exact Written.is_epsilon
  · intro present
    rcases label with rfl | written
    · simp [isEpsilon] at present
    · exact written

/-- An arc as the compiler adds it. A loop is an arc that repeats a wildcard. -/
structure Arc.Regular (looping : Prop) (source : StateId) (arc : Arc) : Prop where
  input : arc.input.IsLabel
  output : arc.output.IsLabel
  weighed : arc.weight ≠ 0.0 → arc.isSilent = true
  loop : arc.target = source →
    looping ∧ (arc.input.isWildcard = true ∨ arc.input.isEpsilon = true) ∧
    (arc.output.isWildcard = true ∨ arc.output.isEpsilon = true) ∧
    (arc.input.isWildcard = true ∨ arc.output.isWildcard = true)

namespace Arc.Regular

variable {looping : Prop} {source target : StateId}

theorem silent (apart : target ≠ source) (weight : Weight) :
    (Arc.silent target weight).Regular looping source where
  input := .inl rfl
  output := .inl rfl
  weighed _ := by simp [isSilent, Arc.silent, Symbol.isEpsilon]
  loop same := absurd same apart

theorem copy (character : Char) (apart : target ≠ source) :
    (Arc.identity (Symbol.ofChar character) target).Regular looping source where
  input := .inr (.character character)
  output := .inr (.character character)
  weighed weight := absurd rfl weight
  loop same := absurd same apart

theorem renumber {arc : Arc} (regular : arc.Regular looping source) (offset : Nat) :
    { arc with target := arc.target + offset }.Regular looping (source + offset) where
  input := regular.input
  output := regular.output
  weighed := regular.weighed
  loop same := regular.loop (Nat.add_right_cancel same)

end Arc.Regular

namespace Transducer

/-- What holds of a transducer that the compiler has built, with loops only if some
dictionary is separable. -/
structure Regular (looping : Prop) (t : Transducer) : Prop where
  formed : t.WellFormed
  apart : t.StartApart
  finite : t.FiniteWeights
  arcs : t.EachArc (Arc.Regular looping)

theorem EachArc.portable {looping : Prop} {t : Transducer}
    (each : t.EachArc (Arc.Regular looping)) : t.Portable (Arc.Regular looping) where
  enters _ _ apart := .silent apart 0.0
  copies offset state arc leaves := (each state arc leaves).renumber offset
  leaves _ weight _ _ _ apart := .silent apart weight

end Transducer

namespace Dictionary

open Reported Transducer

section Parts

variable {looping : Prop} {mode : Mode}

/-- A pair of labels may repeat in a separable dictionary only. -/
theorem Part.fits_of_labels {labels : List (Symbol × Symbol)}
    (separable : mode = .separable → looping)
    (sides : ∀ label ∈ labels, label.1.IsLabel ∧ label.2.IsLabel) :
    (Part.pairs labels).Fits mode (Arc.Regular looping) := by
  rintro ⟨input, output⟩ member present source target repeating
  obtain ⟨left, right⟩ := sides _ member
  refine ⟨left, right, fun weight => absurd rfl weight, fun same => ?_⟩
  obtain ⟨isSeparable, both⟩ := repeating same
  simp only [repeats, Bool.and_eq_true, Bool.or_eq_true] at both
  refine ⟨separable isSeparable, both.1, both.2, ?_⟩
  rcases both with ⟨wild | absent, other⟩
  · exact .inl wild
  · rcases other with wild | absentToo
    · exact .inr wild
    · simp [absent, absentToo] at present

theorem Part.mem_align {left right : List Symbol} {label : Symbol × Symbol}
    (member : label ∈ align left right) :
    (label.1 = Symbol.epsilon ∨ label.1 ∈ left) ∧ (label.2 = Symbol.epsilon ∨ label.2 ∈ right) := by
  induction left generalizing right with
  | nil =>
      obtain ⟨symbol, listed, rfl⟩ := List.mem_map.mp member
      exact ⟨.inl rfl, .inr listed⟩
  | cons first left ih =>
      cases right with
      | nil =>
          obtain ⟨symbol, listed, rfl⟩ := List.mem_map.mp member
          exact ⟨.inr listed, .inl rfl⟩
      | cons second right =>
          rcases List.mem_cons.mp member with rfl | later
          · exact ⟨.inr List.mem_cons_self, .inr List.mem_cons_self⟩
          · exact (ih later).imp (.imp_right (.tail first)) (.imp_right (.tail second))

theorem Part.copies_fit {symbols : List Symbol} (separable : mode = .separable → looping)
    (written : ∀ symbol ∈ symbols, symbol.Written) :
    (Part.pairs (symbols.map fun symbol => (symbol, symbol))).Fits mode (Arc.Regular looping) := by
  apply fits_of_labels separable
  intro label member
  obtain ⟨symbol, listed, rfl⟩ := List.mem_map.mp member
  exact ⟨.inr (written symbol listed), .inr (written symbol listed)⟩

theorem Part.align_fits {left right : List Symbol} (separable : mode = .separable → looping)
    (leftWritten : ∀ symbol ∈ left, symbol.Written)
    (rightWritten : ∀ symbol ∈ right, symbol.Written) :
    (Part.pairs (align left right)).Fits mode (Arc.Regular looping) := by
  apply fits_of_labels separable
  intro label member
  exact (mem_align member).imp (.imp_right (leftWritten _)) (.imp_right (rightWritten _))

end Parts

namespace Scope

variable {scope : Scope} {element : Xml.Element} {looping : Prop}

theorem Reads.fits {part : Part} (reads : scope.Reads element part)
    (separable : scope.mode = .separable → looping)
    (paradigms : ∀ (name : String) (paradigm : Transducer),
      scope.registry.paradigms[name]? = some paradigm →
      paradigm.EachArc (Arc.Regular looping)) : part.Fits scope.mode (Arc.Regular looping) := by
  cases reads with
  | invariant symbols _ content =>
      exact Part.copies_fit separable (Spelling.content_written _ _ _ content)
  | group symbols _ content =>
      have written : ∀ symbol ∈ "#" :: symbols, Symbol.Written symbol :=
        Spelling.markup_written scope.spelling "" symbols .group
          (Spelling.content_written _ _ _ content)
      exact Part.copies_fit separable written
  | sides left right _ content =>
      exact Part.align_fits separable (Spelling.content_written _ _ _ content.1)
        (Spelling.content_written _ _ _ content.2)
  | reference paradigm _ known => exact (paradigms _ paradigm known).portable
  | pattern group =>
      have plain : Pattern.Plain (Arc.Regular looping) :=
        ⟨fun _ _ apart => .silent apart 0.0, fun character _ _ apart => .copy character apart⟩
      exact (group.transducer_each plain scope.alphabet).portable

end Scope

namespace Compiler

variable {compiler next result : Compiler} {looping : Prop}

/-- The root and every paradigm are regular, and loops are allowed where the mode adds them. -/
structure Regular (looping : Prop) (compiler : Compiler) : Prop where
  mode : compiler.mode = .separable → looping
  proper : compiler.registry.Proper
  root : compiler.root.EachArc (Arc.Regular looping)
  paradigms : ∀ (name : String) (paradigm : Transducer),
    compiler.registry.paradigms[name]? = some paradigm →
    paradigm.EachArc (Arc.Regular looping)

theorem regular_new (options : Options) (looping : Prop) : Regular looping { options } where
  mode standard := nomatch standard
  proper := Registry.proper_empty
  root := EachArc.initial
  paradigms name paradigm known := by simp at known

theorem Regular.read_entries (regular : compiler.Regular looping) {name : String}
    {t built : Transducer} {entries : List Xml.Element} (before : t.Proper)
    (each : t.EachArc (Arc.Regular looping))
    (done : (compiler.readEntries name t entries).Yields built) :
    built.EachArc (Arc.Regular looping) := by
  have kept : built.Proper ∧ built.EachArc (Arc.Regular looping) := by
    apply done.fold (fun _ built => built.Proper ∧ built.EachArc (Arc.Regular looping)) _
      ⟨before, each⟩
    intro element _ before after holds step
    obtain ⟨_, step⟩ := Yields.past step
    refine ⟨(compiler.scope name).add_entry_proper regular.proper holds.1 step, ?_⟩
    rcases Scope.add_entry_yields_iff.mp step with ⟨_, _, rfl⟩ | ⟨_, entry, read, rfl⟩
    · exact holds.2
    · have fits := Scope.entry_each read fun _ _ reads => reads.fits regular.mode regular.paradigms
      exact entry.add_to_each (Scope.entry_sound read regular.proper.copyable) fits
        holds.1.rooted.formed holds.2
  exact kept.2

/-- Only the opening of a separable document makes pairs repeat. -/
theorem Reads.regular {item : Item} (reads : compiler.Reads item next)
    (regular : compiler.Regular looping)
    (opened : ∀ document, item = .opening document →
      Mode.ofType (document.attr "type") = .separable → looping) : next.Regular looping := by
  have proper := reads.proper regular.proper
  cases reads with
  | opening document name => exact ⟨opened document rfl, proper, regular.root, regular.paradigms⟩
  | alphabet element text => exact ⟨regular.mode, proper, regular.root, regular.paradigms⟩
  | paradigm element paradigm _ _ new built =>
      refine ⟨regular.mode, proper, ?_, fun name known listed => ?_⟩
      · rw [root, Registry.root_define]
        exact regular.root
      · rw [Registry.find_define new] at listed
        split at listed
        · exact Option.some.inj listed ▸ regular.read_entries proper_initial EachArc.initial built
        · exact regular.paradigms name known listed
  | entries element root built =>
      exact ⟨regular.mode, proper, regular.read_entries regular.proper.root regular.root built,
        regular.paradigms⟩

theorem read_items_regular {items : List Item} (regular : compiler.Regular looping)
    (opened : ∀ document, Item.opening document ∈ items →
      Mode.ofType (document.attr "type") = .separable → looping)
    (done : (items.foldlM readItem compiler).Yields result) : result.Regular looping := by
  induction items generalizing compiler with
  | nil => exact Yields.pure done ▸ regular
  | cons item rest ih =>
      rw [List.foldlM_cons] at done
      obtain ⟨next, first, later⟩ := done.bind
      have step := (reads_of_yields first).regular regular fun document same =>
        opened document (same ▸ .head rest)
      exact ih step (fun document member => opened document (.tail item member)) later

theorem mem_of_opening {documents : List Xml.Element} {document : Xml.Element}
    (member : Item.opening document ∈ documents.flatMap Item.ofDocument) :
    document ∈ documents := by
  obtain ⟨other, listed, inside⟩ := List.mem_flatMap.mp member
  rcases List.mem_cons.mp inside with same | later
  · obtain rfl := Item.opening.inj same
    exact listed
  · obtain ⟨child, _, item⟩ := List.mem_flatMap.mp later
    unfold Item.ofChild at item
    split at item <;> simp at item

/-- Compiled transducers keep their shape. After documents that compile without a fault, the
root and every paradigm are regular, where only a separable document brings loops. No label
is empty, and none that is a literal is taken for epsilon; nor is a symbol that inline
markup spells. -/
theorem compiled_regular {options : Options} {documents : List Xml.Element}
    (compiled : (documents.foldlM compile { options }).outcome.2 = .ok result) :
    (∀ t, (t = result.root ∨ ∃ name : String, result.registry.paradigms[name]? = some t) →
      t.Regular (∃ document ∈ documents, Mode.ofType (document.attr "type") = .separable) ∧
      (∀ state, ∀ arc ∈ t.arcs state, ∀ label ∈ [arc.input, arc.output],
        label ≠ "" ∧ (label.Written ↔ label.isEpsilon = false)) ∧
      ((∀ document ∈ documents, Mode.ofType (document.attr "type") = .standard) →
        ∀ state, ∀ arc ∈ t.arcs state, arc.target ≠ state)) ∧
    ∀ (spelling : Spelling) (nodes : List Xml.Node) (symbols : List Symbol),
      spelling.content nodes = .ok symbols →
      ∀ symbol ∈ symbols, symbol.Written ∧ symbol ≠ "" ∧ symbol.isEpsilon = false := by
  constructor
  · have run := yields_of_outcome compiled
    rw [compile_all_eq] at run
    have opened (document : Xml.Element)
      (member : Item.opening document ∈ documents.flatMap Item.ofDocument)
        (separable : Mode.ofType (document.attr "type") = .separable) :
        ∃ document ∈ documents, Mode.ofType (document.attr "type") = .separable :=
      ⟨document, mem_of_opening member, separable⟩
    have regular := read_items_regular (regular_new options _) opened run
    intro t known
    have whole :
        t.Regular (∃ document ∈ documents, Mode.ofType (document.attr "type") = .separable) := by
      rcases known with rfl | ⟨name, known⟩
      · have proper := regular.proper.root
        exact ⟨proper.rooted.formed, proper.rooted.apart, proper.finite, regular.root⟩
      · have proper := regular.proper.paradigms name t known
        exact ⟨proper.rooted.formed, proper.rooted.apart, proper.finite,
          regular.paradigms name t known⟩
    refine ⟨whole, fun state arc leaves label side => ?_, fun standard state arc leaves same => ?_⟩
    · have isLabel : label.IsLabel := by
        rcases List.mem_pair.mp side with rfl | rfl
        · exact (whole.arcs state arc leaves).input
        · exact (whole.arcs state arc leaves).output
      exact ⟨isLabel.ne_empty, isLabel.written_iff⟩
    · obtain ⟨⟨document, member, separable⟩, _⟩ := (whole.arcs state arc leaves).loop same
      exact nomatch (standard document member).symm.trans separable
  · intro spelling nodes symbols read symbol member
    have written := Spelling.content_written spelling nodes symbols read symbol member
    exact ⟨written, written.ne_empty, written.is_epsilon⟩

/-- A paradigm with a wildcard and a weight, and a section that copies it. -/
def loopingDocument : Xml.Element :=
  ⟨"dictionary", [("type", "separable")], 1, [
    .element ⟨"pardefs", [], 2, [.element ⟨"pardef", [("n", "any")], 2, [
      .element ⟨"e", [("w", "2")], 2, [.element ⟨"i", [], 2, [.element ⟨"w", [], 2, []⟩]⟩]⟩]⟩]⟩,
    .element ⟨"section", [], 3, [.element ⟨"e", [], 3, [
      .element ⟨"par", [("n", "any")], 3, []⟩, .element ⟨"i", [], 3, [.text "a"]⟩]⟩]⟩]⟩

/-- Its root has a loop, at the copy of the state behind the wildcard. -/
theorem compiled_regular_of_loop :
    ∃ result, ([loopingDocument].foldlM compile { options := {} }).outcome.2 = .ok result ∧
      result.root.Regular
        (∃ document ∈ [loopingDocument], Mode.ofType (document.attr "type") = .separable) ∧
      ((result.root.arcs 3).any fun arc => arc.target == 3) = true := by
  have loops : (([loopingDocument].foldlM compile { options := {} }).outcome.2.map fun result =>
      (result.root.arcs 3).any fun arc => arc.target == 3) = .ok true := by
    decide +kernel
  obtain ⟨result, compiled, loop⟩ := Result.exists_ok_of_map loops
  exact ⟨result, compiled, ((compiled_regular compiled).1 result.root (.inl rfl)).1, loop⟩

end Compiler

end Dictionary

end MorphLex
