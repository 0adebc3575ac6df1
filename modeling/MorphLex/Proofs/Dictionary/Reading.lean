import MorphLex.Proofs.Dictionary.Path
import MorphLex.Proofs.Dictionary.Registry
import MorphLex.Proofs.Dictionary.Spelling
import MorphLex.Proofs.Pattern.Construction

/-!
Reading an entry. When the parts of an entry are read without a fault, they are
what their elements mean, and the entry takes no state exactly if it is without a
path.
-/

open scoped Pointwise

namespace MorphLex.Dictionary

open Result Transducer

/-- The paradigms are known under their names, and can be copied. -/
structure Registry.Represents (registry : Registry) (paradigms : String → Option (Set Trace)) :
    Prop where
  traces : ∀ name : String, registry.paradigms[name]?.map Transducer.traces = paradigms name
  rooted : ∀ (name : String) (paradigm : Transducer), registry.paradigms[name]? = some paradigm →
    paradigm.Rooted

/-- Every paradigm can be copied. -/
def Registry.Copyable (registry : Registry) : Prop :=
  ∀ (name : String) (paradigm : Transducer), registry.paradigms[name]? = some paradigm →
    paradigm.WellFormed

theorem Registry.Represents.copyable {registry : Registry} {paradigms : String → Option (Set Trace)}
    (represents : registry.Represents paradigms) : registry.Copyable :=
  fun name paradigm known => (represents.rooted name paradigm known).formed

section Weights

theorem own_weight_eq (options : Options) (entry : Xml.Element) :
    options.ownWeight entry = if (options.weightText entry).isEmpty then 0.0
      else (Numeral.float? (Text.trim (options.weightText entry).toList)).getD 0.0 := by
  unfold Options.ownWeight Options.weightText Options.weightAttributes
  cases common : (entry.attr "w").isEmpty with
  | false => cases options.direction <;> simp [common]
  | true =>
      cases options.direction with
      | leftToRight => cases own : (entry.attr "wl").isEmpty <;> simp [common, own]
      | rightToLeft => cases own : (entry.attr "wr").isEmpty <;> simp [common, own]

theorem entry_weight_eq {options : Options} {entry : Xml.Element} {weight : Weight}
    (read : options.entryWeight entry = .ok weight) : weight = options.ownWeight entry := by
  rw [own_weight_eq]
  simp only [Options.entryWeight] at read
  split at read
  · next absent =>
    rw [if_pos absent]
    exact (Except.ok.inj read).symm
  · next given =>
    rw [if_neg given]
    split at read
    · next found number =>
      split at read
      · rw [number]
        exact (Except.ok.inj read).symm
      · exact nomatch read
    · exact nomatch read

end Weights

section Symbols

theorem opposed_self (mode : Mode) (symbol : Symbol) :
    mode.opposed (symbol, symbol) = mode.shared symbol := by
  unfold Mode.opposed Mode.shared
  cases absent : symbol.isEpsilon with
  | true =>
      have silent : Trace.ofPair symbol symbol = 1 := by
        rw [Trace.ofPair, if_pos absent]
        rfl
      rw [silent, turns_one, turns_one]
  | false => simp

theorem traces_copies (mode : Mode) (symbols : List Symbol) :
    (Part.pairs (symbols.map fun symbol => (symbol, symbol))).traces mode =
    (symbols.map mode.shared).prod := by
  rw [Part.traces, List.map_map]
  congr 2
  funext symbol
  exact opposed_self mode symbol

theorem align_eq_padded (left right : List Symbol) : Part.align left right = padded left right := by
  induction left generalizing right with
  | nil =>
      rw [Part.align, padded]
      apply List.ext_getElem
      · simp
      · intro position inside _
        rw [List.length_map] at inside
        simp [inside]
  | cons first left ih =>
      cases right with
      | nil =>
          rw [Part.align.eq_2 _ (by simp), padded]
          apply List.ext_getElem
          · simp
          · intro position inside _
            rw [List.length_map] at inside
            rw [List.getElem_map, List.getElem_map, List.getElem_range, List.getD_eq_getElem?_getD,
              List.getElem?_eq_getElem inside, List.getD_nil]
            rfl
      | cons second right =>
          rw [Part.align, ih, padded, padded, List.length_cons, List.length_cons, Nat.succ_max_succ,
            List.range_succ_eq_map]
          simp

theorem states_pairs_eq_zero_iff (labels : List (Symbol × Symbol)) :
    (Part.pairs labels).states = 0 ↔
      ∀ label ∈ labels, label.1.isEpsilon = true ∧ label.2.isEpsilon = true := by
  simp [Part.states, List.countP_eq_zero]

theorem states_copies_eq_zero_iff {symbols : List Symbol}
    (written : ∀ symbol ∈ symbols, symbol.Written) :
    (Part.pairs (symbols.map fun symbol => (symbol, symbol))).states = 0 ↔ symbols = [] := by
  rw [states_pairs_eq_zero_iff]
  cases symbols with
  | nil => simp
  | cons first rest =>
      have present := (written first List.mem_cons_self).is_epsilon
      simp [present]

theorem states_align_eq_zero_iff {left right : List Symbol}
    (leftWritten : ∀ symbol ∈ left, symbol.Written)
    (rightWritten : ∀ symbol ∈ right, symbol.Written) :
    (Part.pairs (Part.align left right)).states = 0 ↔ left = [] ∧ right = [] := by
  rw [states_pairs_eq_zero_iff]
  cases left with
  | nil =>
      cases right with
      | nil => simp [Part.align]
      | cons second right =>
          have present := (rightWritten second List.mem_cons_self).is_epsilon
          simp [Part.align, present]
  | cons first left =>
      have present := (leftWritten first List.mem_cons_self).is_epsilon
      cases right <;> simp [Part.align, present]

theorem gather_of_read_sides {scope : Scope} {sides : List Xml.Element} {left right : List Symbol}
    (read : scope.readSides sides = .ok (left, right)) :
    scope.spelling.content (gather "l" Xml.Element.children sides) = .ok left ∧
      scope.spelling.content (gather "r" Xml.Element.children sides) = .ok right := by
  induction sides generalizing left right with
  | nil =>
      obtain ⟨rfl, rfl⟩ := Prod.mk.inj (Except.ok.inj read)
      exact ⟨rfl, rfl⟩
  | cons side rest ih =>
      rw [Scope.readSides] at read
      rw [gather_cons, gather_cons]
      split at read
      · next isLeft =>
        obtain ⟨symbols, first, read⟩ := bind_eq_ok_iff.mp read
        obtain ⟨⟨others, opposite⟩, later, same⟩ := bind_eq_ok_iff.mp read
        obtain ⟨rfl, rfl⟩ := Prod.mk.inj (pure_eq_ok_iff.mp same)
        obtain ⟨lefts, rights⟩ := ih later
        have notRight : ¬(side.name == "r") = true := by
          rw [eq_of_beq isLeft]
          decide
        rw [if_pos isLeft, if_neg notRight]
        refine ⟨?_, rights⟩
        rw [Spelling.content_append, first, ok_bind, lefts]
        rfl
      · next notLeft =>
        split at read
        · next isRight =>
          obtain ⟨symbols, first, read⟩ := bind_eq_ok_iff.mp read
          obtain ⟨⟨opposite, others⟩, later, same⟩ := bind_eq_ok_iff.mp read
          obtain ⟨rfl, rfl⟩ := Prod.mk.inj (pure_eq_ok_iff.mp same)
          obtain ⟨lefts, rights⟩ := ih later
          rw [if_neg notLeft, if_pos isRight]
          refine ⟨lefts, ?_⟩
          rw [Spelling.content_append, first, ok_bind, rights]
          rfl
        · exact absurd read throw_ne_ok

end Symbols

namespace Scope

variable {scope : Scope}

/-- All that an element of an entry can be read as. -/
inductive Reads (scope : Scope) (element : Xml.Element) : Part → Prop
  | invariant (symbols : List Symbol) (name : element.name = "i")
      (content : scope.spelling.content element.children = .ok symbols) :
      Reads scope element (.pairs (symbols.map fun symbol => (symbol, symbol)))
  | group (symbols : List Symbol) (name : element.name = "ig")
      (content : scope.spelling.content element.children = .ok symbols) :
      Reads scope element (.pairs (("#" :: symbols).map fun symbol => (symbol, symbol)))
  | sides (left right : List Symbol) (name : element.name = "p")
      (content : scope.options.Sides scope.mode element left right) :
      Reads scope element (.pairs (Part.align left right))
  | reference (paradigm : Transducer) (name : element.name = "par")
      (known : scope.registry.paradigms[element.attr "n"]? = some paradigm) :
        Reads scope element (.inner paradigm)
  | pattern (group : Pattern.Group) (name : element.name = "re")
      (parsed : Pattern.parse scope.alphabet (String.ofList element.characters) = .ok group) :
      Reads scope element (.inner (group.transducer scope.alphabet))

theorem read_reference_eq_ok_iff {element : Xml.Element} {part : Part} :
    scope.readReference element = .ok part ↔
    element.attr "n" ≠ "" ∧ element.attr "n" ≠ scope.name ∧
      ∃ paradigm, scope.registry.paradigms[element.attr "n"]? = some paradigm ∧
      part = .inner paradigm := by
  simp only [readReference]
  split
  · next unnamed => simp [String.isEmpty_iff.mp unnamed]
  · next named =>
    have named : element.attr "n" ≠ "" := fun empty => named (String.isEmpty_iff.mpr empty)
    split
    · next self => simp [eq_of_beq self]
    · next other =>
      rw [scope.registry.get_eq_of_named named]
      have other : element.attr "n" ≠ scope.name := by simpa using other
      cases scope.registry.paradigms[element.attr "n"]? with
      | none => simp
      | some paradigm => simp [named, other, eq_comm]

theorem reads_of_read_reference {element : Xml.Element} {part : Part} (name : element.name = "par")
    (read : scope.readReference element = .ok part) : scope.Reads element part := by
  obtain ⟨_, _, paradigm, known, rfl⟩ := read_reference_eq_ok_iff.mp read
  exact .reference paradigm name known

theorem reads_of_read_pattern {element : Xml.Element} {part : Part} (name : element.name = "re")
    (read : scope.readPattern element = .ok part) : scope.Reads element part := by
  simp only [readPattern] at read
  split at read
  · exact nomatch read
  · split at read
    · next transducer compiled =>
      obtain rfl := Except.ok.inj read
      obtain ⟨group, parsed, same⟩ := bind_eq_ok_iff.mp compiled
      obtain rfl := pure_eq_ok_iff.mp same
      exact .pattern group name parsed
    · exact nomatch read

theorem reads_of_read_part {element : Xml.Element} {part : Part}
    (read : scope.readPart element = .ok part) : scope.Reads element part := by
  unfold readPart at read
  split at read
  · next name =>
    obtain ⟨symbols, content, same⟩ := bind_eq_ok_iff.mp read
    obtain rfl := pure_eq_ok_iff.mp same
    exact .invariant symbols name content
  · next name =>
    obtain ⟨symbols, content, same⟩ := bind_eq_ok_iff.mp read
    obtain rfl := pure_eq_ok_iff.mp same
    exact .group symbols name content
  · next name =>
    obtain ⟨⟨left, right⟩, sides, same⟩ := bind_eq_ok_iff.mp read
    obtain rfl := pure_eq_ok_iff.mp same
    exact .sides left right name (gather_of_read_sides sides)
  · next name =>
    exact reads_of_read_reference name read
  · next name =>
    exact reads_of_read_pattern name read
  · exact nomatch read

theorem exists_ok {Error Value : Type} {outcome : Except Error Value} {value : Value}
    (read : outcome = .ok value) (spelled : Value → Set Trace) :
    { trace | ∃ other, outcome = .ok other ∧ trace ∈ spelled other } = spelled value := by
  ext trace
  constructor
  · rintro ⟨other, again, member⟩
    obtain rfl := Except.ok.inj (read.symm.trans again)
    exact member
  · exact fun member => ⟨value, read, member⟩

namespace Reads

variable {meaning : Meaning} {element : Xml.Element} {part : Part}

theorem sound (reads : scope.Reads element part) (copyable : scope.registry.Copyable) :
    part.Sound := by
  cases reads with
  | invariant | group | sides => exact trivial
  | reference paradigm _ known => exact copyable _ paradigm known
  | pattern group => exact (group.transducer_rooted scope.alphabet).formed

theorem traces (reads : scope.Reads element part)
    (represents : scope.registry.Represents meaning.paradigms)
    (alphabet : scope.alphabet = meaning.alphabet) :
    part.traces scope.mode = meaning.part scope.options scope.mode element := by
  cases reads with
  | invariant symbols name content =>
      simp only [Meaning.part, name]
      exact (traces_copies _ _).trans
        (exists_ok content fun symbols => (symbols.map scope.mode.shared).prod).symm
  | group symbols name content =>
      simp only [Meaning.part, name]
      exact (traces_copies _ _).trans
        (exists_ok content fun symbols => (("#" :: symbols).map scope.mode.shared).prod).symm
  | sides left right name content =>
      simp only [Meaning.part, name]
      rw [Part.traces, align_eq_padded]
      ext trace
      constructor
      · exact fun member => ⟨left, right, content, member⟩
      · rintro ⟨otherLeft, otherRight, ⟨leftAgain, rightAgain⟩, member⟩
        obtain rfl := Except.ok.inj (content.1.symm.trans leftAgain)
        obtain rfl := Except.ok.inj (content.2.symm.trans rightAgain)
        exact member
  | reference paradigm name known =>
      simp only [Meaning.part, name]
      rw [← represents.traces, known]
      rfl
  | pattern group name parsed =>
      simp only [Meaning.part, name]
      rw [alphabet] at parsed ⊢
      rw [Part.traces, group.traces_transducer]
      exact (exists_ok parsed fun group => Trace.copies (group.language meaning.alphabet)).symm

theorem states_eq_zero_iff (reads : scope.Reads element part) :
    part.states = 0 ↔ scope.options.Blank scope.mode element := by
  cases reads with
  | invariant symbols name content =>
      have read : (scope.options.spelling scope.mode).content element.children = .ok symbols :=
        content
      rw [states_copies_eq_zero_iff (Spelling.content_written _ _ _ content)]
      simp [Options.Blank, name, read]
  | group symbols name content =>
      have written : ∀ symbol ∈ "#" :: symbols, Symbol.Written symbol :=
        Spelling.markup_written scope.spelling "" symbols .group
          (Spelling.content_written _ _ _ content)
      rw [states_copies_eq_zero_iff written]
      simp [Options.Blank, name]
  | sides left right name content =>
      rw [states_align_eq_zero_iff (Spelling.content_written _ _ _ content.1)
        (Spelling.content_written _ _ _ content.2)]
      simp [Options.Blank, Options.Sides, name, content.1, content.2]
  | reference paradigm name known => simp [Part.states, Options.Blank, name]
  | pattern group name parsed => simp [Part.states, Options.Blank, name]

end Reads

section Entries

variable {meaning : Meaning} {element : Xml.Element} {entry : Entry}

theorem entry_reads (read : scope.readEntry element = .ok entry) :
    List.Forall₂ scope.Reads element.elements entry.parts ∧
      entry.weight = scope.options.ownWeight element := by
  obtain ⟨weight, given, read⟩ := bind_eq_ok_iff.mp read
  obtain ⟨parts, each, same⟩ := bind_eq_ok_iff.mp read
  obtain rfl := pure_eq_ok_iff.mp same
  exact ⟨(map_eq_ok_iff.mp each).imp fun _ _ => reads_of_read_part, entry_weight_eq given⟩

/-- What holds of all that an element can be read as holds of the parts of an entry. -/
theorem entry_each {property : Part → Prop} (read : scope.readEntry element = .ok entry)
    (holds : ∀ inner part, scope.Reads inner part → property part) :
    ∀ part ∈ entry.parts, property part := by
  have reads := (entry_reads read).1
  generalize element.elements = elements, entry.parts = parts at reads ⊢
  induction reads with
  | nil => simp
  | cons first _ ih => exact List.forall_mem_cons.mpr ⟨holds _ _ first, ih⟩

theorem entry_sound (read : scope.readEntry element = .ok entry)
    (copyable : scope.registry.Copyable) : ∀ part ∈ entry.parts, part.Sound :=
  entry_each read fun _ _ reads => reads.sound copyable

theorem entry_traces (read : scope.readEntry element = .ok entry)
    (represents : scope.registry.Represents meaning.paradigms)
    (alphabet : scope.alphabet = meaning.alphabet) :
    entry.traces scope.mode = meaning.entry scope.options scope.mode element := by
  obtain ⟨reads, weight⟩ := entry_reads read
  rw [Entry.traces, Meaning.entry, weight]
  congr 2
  generalize element.elements = elements, entry.parts = parts at reads ⊢
  induction reads with
  | nil => rfl
  | cons first _ ih => rw [List.map_cons, List.map_cons, first.traces represents alphabet, ih]

/-- An entry takes no state exactly if it is without a path. -/
theorem entry_states_eq_zero_iff (read : scope.readEntry element = .ok entry) :
    entry.states = 0 ↔ scope.options.Pathless scope.mode element := by
  have reads := (entry_reads read).1
  rw [Entry.states, Options.Pathless]
  generalize element.elements = elements, entry.parts = parts at reads ⊢
  induction reads with
  | nil => simp
  | cons first _ ih =>
      rw [List.map_cons, List.sum_cons, Nat.add_eq_zero_iff, List.forall_mem_cons,
        first.states_eq_zero_iff]
      exact and_congr_right fun _ => ih

end Entries

end Scope

end MorphLex.Dictionary
