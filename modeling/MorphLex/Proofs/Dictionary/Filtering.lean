import MorphLex.Proofs.Dictionary.Appending
import MorphLex.Proofs.Dictionary.Lines

/-!
Options act through the entries that they leave out and the weights that they read. Two runs
under options that agree on this come to the same, and an entry that is left out might as
well not stand in the document, whatever it holds.
-/

namespace MorphLex

namespace Xml

/-- The node, with another element in its place if it is one. -/
def Node.mapElement (change : Element → Element) : Node → Node
  | .element inner => .element (change inner)
  | other => other

namespace Element

def mapElements (change : Element → Element) (element : Element) : Element :=
  { element with children := element.children.map (Node.mapElement change) }

/-- The element without those of its element children. -/
def without (drops : Element → Bool) (element : Element) : Element :=
  { element with children := element.children.filter fun node => !node.element?.any drops }

/-- The elements that stand where entries do, in the paradigms and the sections of a document. -/
def entries (document : Element) : List Element :=
  document.elements.flatMap fun child => match child.name with
    | "pardefs" => child.elements.flatMap elements
    | "section" => child.elements
    | _ => []

def childWithout (drops : Element → Bool) (child : Element) : Element :=
  match child.name with
  | "pardefs" => child.mapElements (without drops)
  | "section" => child.without drops
  | _ => child

/-- The document without those of its entries. -/
def withoutEntries (drops : Element → Bool) (document : Element) : Element :=
  document.mapElements (childWithout drops)

section Shape

variable (drops : Element → Bool) (change : Element → Element) (element : Element)

@[simp] theorem name_map_elements : (element.mapElements change).name = element.name := rfl

@[simp] theorem attr_map_elements (name : String) :
    (element.mapElements change).attr name = element.attr name := rfl

@[simp] theorem elements_map_elements :
    (element.mapElements change).elements = element.elements.map change := by
  rw [elements, elements, mapElements, List.filterMap_map, List.map_filterMap]
  apply List.filterMap_congr
  intro node _
  cases node <;> rfl

@[simp] theorem name_without : (element.without drops).name = element.name := rfl

@[simp] theorem attr_without (name : String) :
    (element.without drops).attr name = element.attr name := rfl

@[simp] theorem line_without : (element.without drops).line = element.line := rfl

@[simp] theorem elements_without :
    (element.without drops).elements = element.elements.filter fun inner => !drops inner := by
  rw [elements, elements, without, List.filter_filterMap, List.filterMap_filter]
  apply List.filterMap_congr
  intro node _
  cases node with
  | element inner => cases dropped : drops inner <;> simp [Node.element?, dropped, Option.filter]
  | text | comment | instruction => rfl

@[simp] theorem name_child_without : (element.childWithout drops).name = element.name := by
  unfold childWithout
  split <;> rfl

end Shape

theorem map_elements_id {change : Element → Element} (element : Element)
    (same : ∀ inner : Element, change inner = inner) : element.mapElements change = element := by
  have nodes : Node.mapElement change = id := by
    funext node
    cases node with
    | element inner => exact congrArg Node.element (same inner)
    | text | comment | instruction => rfl
  obtain ⟨name, attributes, line, children⟩ := element
  rw [mapElements, nodes, List.map_id]

theorem without_nothing (element : Element) : element.without (fun _ => false) = element := by
  have all : element.children.filter (fun node => !node.element?.any fun _ => false) =
    element.children := by
    rw [List.filter_eq_self]
    intro node _
    simp
  obtain ⟨name, attributes, line, children⟩ := element
  rw [without, all]

theorem without_no_entries (document : Element) :
    document.withoutEntries (fun _ => false) = document := by
  apply map_elements_id
  intro child
  unfold childWithout
  split
  · exact map_elements_id child without_nothing
  · exact child.without_nothing
  · rfl

end Element

mutual

theorem Node.relined_id (node : Node) : node.relined id = node := by
  cases node with
  | element inner => rw [Node.relined, Element.relined_id inner]
  | text | comment | instruction => rw [Node.relined]

theorem Element.relined_id (element : Element) : element.relined id = element := by
  obtain ⟨name, attributes, line, children⟩ := element
  rw [Element.relined, relined_content_id children, id]

theorem relined_content_id (nodes : List Node) : relinedContent id nodes = nodes := by
  cases nodes with
  | nil => rw [relinedContent]
  | cons node rest => rw [relinedContent, Node.relined_id node, relined_content_id rest]

end

end Xml

namespace Dictionary

open Reported Result

namespace Options

/-- Either both options leave the entry out, or they read the same weight for it. -/
structure AgreeOn (first second : Options) (entry : Xml.Element) : Prop where
  skip : (first.skipReason? entry).isSome = (second.skipReason? entry).isSome
  weight : first.skipReason? entry = none → first.entryWeight entry = second.entryWeight entry

theorem AgreeOn.refl (options : Options) (entry : Xml.Element) : options.AgreeOn options entry :=
  ⟨rfl, fun _ => rfl⟩

/-- An entry that is left out. -/
def skips (options : Options) (entry : Xml.Element) : Bool :=
  entry.name == "e" && (options.skipReason? entry).isSome

end Options

section Entries

variable {other : Options} (move : Nat → Nat)

theorem Scope.add_entry_reflects (scope : Scope)
    (keeps : other.keepBoundaries = scope.options.keepBoundaries) {entry : Xml.Element}
    (agree : scope.options.AgreeOn other entry) (t : Transducer) :
    Reflects (scope.addEntry t entry) ((scope.under other).addEntry t (entry.relined move)) id
      (Fault.relined move) := by
  have skip : ((scope.under other).options.skipReason? (entry.relined move)).isSome =
      (scope.options.skipReason? entry).isSome := by
    rw [Options.skip_reason_relined]
    exact agree.skip.symm
  unfold addEntry
  cases skipped : scope.options.skipReason? entry with
  | some reason =>
      obtain ⟨reasonToo, skippedToo⟩ :=
        Option.isSome_iff_exists.mp (skip.trans (by rw [skipped]; rfl))
      rw [skippedToo]
      exact Reflects.reported (reflects_pure rfl)
  | none =>
      have keptToo := Option.isSome_eq_false_iff.mp (skip.trans (by rw [skipped]; rfl))
      rw [Option.isNone_iff_eq_none.mp keptToo]
      have read := scope.read_entry_under move keeps entry (agree.weight skipped)
      refine Reflects.bind (reflects_silently id ?_) fun entered _ => reflects_pure rfl
      rw [read]
      cases scope.readEntry entry <;> rfl

theorem Compiler.read_entries_reflects (compiler : Compiler)
    (keeps : other.keepBoundaries = compiler.options.keepBoundaries) {drops : Xml.Element → Bool}
    (skipped : ∀ entry, drops entry = true → compiler.options.skips entry = true) (name : String)
    (t : Transducer) {element : Xml.Element}
    (agree : ∀ entry ∈ element.elements, entry.name = "e" → compiler.options.AgreeOn other entry) :
    Reflects (compiler.readEntries name t element.elements)
      ({ compiler with options := other }.readEntries name t
        ((element.without drops).relined move).elements) id
      (Fault.relined move) := by
  have remaining : ((element.without drops).relined move).elements =
      element.elements.filterMap fun entry =>
        if drops entry then none else some (entry.relined move) := by
    rw [Xml.Element.elements_relined, Xml.Element.elements_without, ← List.filterMap_eq_filter,
      List.map_filterMap]
    apply List.filterMap_congr
    intro entry _
    cases dropped : drops entry <;> simp [Option.guard, dropped]
  rw [remaining]
  unfold readEntries
  refine Reflects.fold id _ (fun _ => True) (fun _ _ _ _ _ => trivial)
    (fun entry member t _ => ?_) trivial
  cases dropped : drops entry with
  | true =>
      obtain ⟨isEntry, left⟩ := Bool.and_eq_true_iff.mp (skipped entry dropped)
      obtain ⟨reason, left⟩ := Option.isSome_iff_exists.mp left
      have passes : (entry.name != "e") = false := by simpa using isEntry
      have leaves : (compiler.scope name).options.skipReason? entry = some reason := left
      simp only [if_true, passes, Scope.addEntry, leaves]
      exact Reflects.reported_first (reflects_pure rfl)
  | false =>
      simp only [Bool.false_eq_true, if_false, Xml.Element.name_relined, Xml.Element.line_relined]
      refine Reflects.past rfl fun isEntry => ?_
      exact (compiler.scope name).add_entry_reflects move keeps
        (agree entry member (by simpa using isEntry)) t

end Entries

/-- What becomes of an item when entries are dropped and lines are moved. -/
def Item.without (drops : Xml.Element → Bool) (move : Nat → Nat) : Item → Item
  | .opening document => .opening ((document.withoutEntries drops).relined move)
  | .alphabet element => .alphabet (element.relined move)
  | .paradigm element => .paradigm ((element.without drops).relined move)
  | .entries element => .entries ((element.without drops).relined move)
  | .unknown element => .unknown (element.relined move)

theorem Item.of_document_without (drops : Xml.Element → Bool) (move : Nat → Nat)
    (document : Xml.Element) :
    ofDocument ((document.withoutEntries drops).relined move) =
      (ofDocument document).map (Item.without drops move) := by
  have child (child : Xml.Element) :
      ofChild ((child.childWithout drops).relined move) =
        (ofChild child).map (Item.without drops move) := by
    unfold ofChild
    rw [Xml.Element.name_relined, Xml.Element.name_child_without]
    split
    · next name => simp [Item.without, Xml.Element.childWithout, name]
    · rfl
    · next name => simp [Item.without, Xml.Element.childWithout, name]
    · next name => simp [Item.without, Xml.Element.childWithout, name]
    · next notAlphabet notSymbols notDefinitions notSection =>
      simp [Item.without, Xml.Element.childWithout]
  rw [ofDocument, ofDocument, List.map_cons, List.map_flatMap, Xml.Element.elements_relined,
    List.flatMap_map, Xml.Element.withoutEntries, Xml.Element.elements_map_elements,
    List.flatMap_map]
  simp only [child]
  rfl

/-- The entries of a document are those of its items. -/
theorem Item.mem_entries {document : Xml.Element} {item : Item}
    (member : item ∈ ofDocument document) {name : String} {entries : List Xml.Element}
    (builds : item.builds? = some (name, entries)) :
    ∀ entry ∈ entries, entry ∈ document.entries := by
  intro entry listed
  rcases List.mem_cons.mp member with rfl | member
  · exact nomatch builds
  · obtain ⟨child, stands, part⟩ := List.mem_flatMap.mp member
    refine List.mem_flatMap.mpr ⟨child, stands, ?_⟩
    unfold ofChild at part
    split at part
    · rw [List.mem_singleton.mp part] at builds
      exact nomatch builds
    · exact absurd part List.not_mem_nil
    · next name =>
      obtain ⟨paradigm, defined, rfl⟩ := List.mem_map.mp part
      obtain ⟨-, rfl⟩ := Prod.mk.inj (Option.some.inj builds)
      simp only [name]
      exact List.mem_flatMap.mpr ⟨paradigm, defined, listed⟩
    · next name =>
      rw [List.mem_singleton.mp part] at builds
      obtain ⟨-, rfl⟩ := Prod.mk.inj (Option.some.inj builds)
      simp only [name]
      exact listed
    · rw [List.mem_singleton.mp part] at builds
      exact nomatch builds

namespace Compiler

variable {other : Options} {drops : Xml.Element → Bool} (move : Nat → Nat)

/-- The same state under other options. -/
def under (compiler : Compiler) (other : Options) : Compiler := { compiler with options := other }

theorem read_item_reflects (compiler : Compiler)
    (keeps : other.keepBoundaries = compiler.options.keepBoundaries)
    (skipped : ∀ entry, drops entry = true → compiler.options.skips entry = true) {item : Item}
    (agree : ∀ name entries, item.builds? = some (name, entries) →
      ∀ entry ∈ entries, entry.name = "e" → compiler.options.AgreeOn other entry) :
    Reflects (compiler.readItem item) ((compiler.under other).readItem (item.without drops move))
      (fun result => result.under other) (Fault.relined move) := by
  cases item with
  | opening document =>
      simp only [readItem, Item.without, Xml.Element.name_relined, Xml.Element.attr_relined,
        Xml.Element.withoutEntries, Xml.Element.name_map_elements, Xml.Element.attr_map_elements]
      refine Reflects.past rfl fun _ => ?_
      exact Reflects.reported (reflects_pure rfl)
  | alphabet element =>
      simp only [readItem, Item.without, readAlphabet, Xml.Element.elements_relined,
        Xml.Element.characters_relined]
      cases element.elements with
      | nil => exact reflects_pure rfl
      | cons child rest =>
          simp only [List.map_cons, Xml.Element.name_relined, Xml.Element.line_relined]
          exact reflects_throw rfl
  | paradigm element =>
      have read := compiler.read_entries_reflects move keeps skipped (element.attr "n") .initial
        (agree _ _ rfl)
      simp only [readItem, Item.without, readParadigm, Xml.Element.name_relined,
        Xml.Element.attr_relined, Xml.Element.line_relined, Xml.Element.name_without,
        Xml.Element.attr_without, Xml.Element.line_without]
      refine Reflects.past rfl fun _ => ?_
      refine Reflects.past rfl fun _ => ?_
      refine Reflects.past rfl fun _ => ?_
      exact read.bind fun paradigm _ => Reflects.reported (reflects_pure rfl)
  | entries element =>
      have read :=
        compiler.read_entries_reflects move keeps skipped Registry.rootName compiler.registry.root
          (agree _ _ rfl)
      simp only [readItem, Item.without, readSection, Xml.Element.attr_relined,
        Xml.Element.line_relined, Xml.Element.attr_without]
      refine Reflects.after ?_
      exact read.bind fun root _ => Reflects.reported (reflects_pure rfl)
  | unknown element =>
      simp only [readItem, Item.without, Xml.Element.name_relined, Xml.Element.line_relined]
      exact reflects_throw rfl

/-- Under options that agree on the entries, a document without some entries that are left out
comes to the same, at the other lines. -/
theorem compile_reflects (compiler : Compiler)
    (keeps : other.keepBoundaries = compiler.options.keepBoundaries)
    (skipped : ∀ entry, drops entry = true → compiler.options.skips entry = true)
    {document : Xml.Element}
    (agree : ∀ entry ∈ document.entries, entry.name = "e" → compiler.options.AgreeOn other entry) :
    Reflects (compiler.compile document)
      ((compiler.under other).compile ((document.withoutEntries drops).relined move))
      (fun result => result.under other) (Fault.relined move) := by
  rw [compile_eq, compile_eq, Item.of_document_without, ← List.filterMap_eq_map]
  refine Reflects.fold (fun result : Compiler => result.under other) _
    (fun result => result.options = compiler.options) ?_ (fun item member result same => ?_) rfl
  · intro item before after same yields
    exact (reads_of_yields yields).appends.options.trans same
  · apply read_item_reflects move result (by rw [same]; exact keeps) (by rw [same]; exact skipped)
    intro name entries builds entry listed
    rw [same]
    exact agree entry (Item.mem_entries member builds entry listed)

end Compiler

/-- The tree with all line numbers taken away. -/
def unlined (element : Xml.Element) : Xml.Element := element.relined fun _ => 0

def Fault.unlined (fault : Fault) : Fault := fault.relined fun _ => 0

namespace Compiler

variable (compiler : Compiler) (document : Xml.Element)

/-- A compilation keeps its options. -/
theorem map_under_options :
    ((compiler.compile document).outcome.2.map fun result => result.under compiler.options) =
      (compiler.compile document).outcome.2 := by
  cases done : (compiler.compile document).outcome.2 with
  | error fault => rfl
  | ok result =>
      have yields := yields_of_outcome done
      rw [compile_eq] at yields
      have kept : result.options = compiler.options := (read_items_append yields).options
      rw [← kept]
      rfl

/-- Entries that are left out leave nothing behind, and no line number decides anything. -/
theorem compile_without_skipped :
    (compiler.compile (unlined (document.withoutEntries compiler.options.skips))).outcome.2 =
      (compiler.compile document).outcome.2.mapError Fault.unlined := by
  have reflects : Reflects (compiler.compile document)
      ((compiler.under compiler.options).compile
        (unlined (document.withoutEntries compiler.options.skips)))
      (fun result => result.under compiler.options) Fault.unlined :=
    compiler.compile_reflects (fun _ => 0) rfl (fun _ skipped => skipped) fun entry _ _ =>
      .refl compiler.options entry
  have outcome := reflects.outcome
  rw [map_under_options] at outcome
  exact outcome

theorem compile_unlined :
    (compiler.compile (unlined document)).outcome.2 =
      (compiler.compile document).outcome.2.mapError Fault.unlined := by
  have reflects : Reflects (compiler.compile document)
      ((compiler.under compiler.options).compile (unlined (document.withoutEntries fun _ => false)))
      (fun result => result.under compiler.options) Fault.unlined :=
    compiler.compile_reflects (fun _ => 0) rfl (fun _ none => absurd none Bool.false_ne_true)
      fun entry _ _ => .refl compiler.options entry
  have outcome := reflects.outcome
  rw [map_under_options, Xml.Element.without_no_entries] at outcome
  exact outcome

/-- Options act through the entries alone. Two choices of options that keep the same boundaries,
and on each entry agree whether it is left out and otherwise on its weight, come to the same
fault or the same compiler but for the options themselves. The document without the entries
that are left out, whatever its line numbers are, comes to the same compiler as well, or to
the same fault at another line. -/
theorem options_act_by_entries :
    (∀ other : Options, other.keepBoundaries = compiler.options.keepBoundaries →
      (∀ entry ∈ document.entries, entry.name = "e" → compiler.options.AgreeOn other entry) →
      ((compiler.under other).compile document).outcome.2 =
        (compiler.compile document).outcome.2.map fun result => result.under other) ∧
    ∀ pruned : Xml.Element,
      unlined pruned = unlined (document.withoutEntries compiler.options.skips) →
      (compiler.compile pruned).outcome.2.mapError Fault.unlined =
        (compiler.compile document).outcome.2.mapError Fault.unlined := by
  constructor
  · intro other keeps agree
    have reflects : Reflects (compiler.compile document)
        ((compiler.under other).compile ((document.withoutEntries fun _ => false).relined id))
        (fun result => result.under other) (Fault.relined id) :=
      compiler.compile_reflects id keeps (fun _ none => absurd none Bool.false_ne_true) agree
    have outcome := reflects.outcome
    rwa [Xml.Element.without_no_entries, Xml.Element.relined_id, Fault.relined_id,
      map_error_id] at outcome
  · intro pruned same
    calc (compiler.compile pruned).outcome.2.mapError Fault.unlined
      _ = (compiler.compile (unlined pruned)).outcome.2 := (compiler.compile_unlined pruned).symm
      _ = (compiler.compile
          (unlined (document.withoutEntries compiler.options.skips))).outcome.2 := by rw [same]
      _ = (compiler.compile document).outcome.2.mapError Fault.unlined :=
        compiler.compile_without_skipped document

/-- An entry that both directions keep, one of them as the chosen alternative, and one that both
leave out and that could not be read. -/
def alternativeDocument : Xml.Element :=
  ⟨"dictionary", [], 1, [.element ⟨"section", [], 2, [
    .element ⟨"e", [("w", "2"), ("alt", "x")], 3, [.element ⟨"i", [], 3, [.text "a"]⟩]⟩,
    .element ⟨"e", [("i", "yes"), ("w", "?")], 4, [.element ⟨"q", [], 5, []⟩]⟩]⟩]⟩

theorem options_act_by_entries_of_alternative :
    let other : Options := { direction := .rightToLeft, alternative := some "x" }
    let pruned : Xml.Element :=
      ⟨"dictionary", [], 7, [.element ⟨"section", [], 7, [
        .element ⟨"e", [("w", "2"), ("alt", "x")], 8, [.element ⟨"i", [], 9, [.text "a"]⟩]⟩]⟩]⟩
    (∃ result, (compile { options := {} } alternativeDocument).outcome.2 = .ok result ∧
      (compile { options := other } alternativeDocument).outcome.2 = .ok (result.under other)) ∧
    (compile { options := {} } pruned).outcome.2.mapError Fault.unlined =
      (compile { options := {} } alternativeDocument).outcome.2.mapError Fault.unlined := by
  intro other pruned
  have succeeds : (compile { options := {} } alternativeDocument).outcome.2.isOk = true := by
    decide +kernel
  obtain ⟨result, compiled⟩ := exists_ok_of_is_ok succeeds
  obtain ⟨alike, without⟩ := options_act_by_entries { options := {} } alternativeDocument
  have agree :
      ∀ entry ∈ alternativeDocument.entries, entry.name = "e" → Options.AgreeOn {} other entry := by
    have entries :
        alternativeDocument.entries =
          [⟨"e", [("w", "2"), ("alt", "x")], 3, [.element ⟨"i", [], 3, [.text "a"]⟩]⟩,
            ⟨"e", [("i", "yes"), ("w", "?")], 4, [.element ⟨"q", [], 5, []⟩]⟩] := rfl
    rw [entries]
    intro entry member _
    rcases List.mem_pair.mp member with rfl | rfl
    · exact ⟨by decide, fun _ => by decide +kernel⟩
    · exact ⟨by decide, fun kept => absurd kept (by decide)⟩
  refine ⟨⟨result, compiled, ?_⟩, without pruned rfl⟩
  exact (alike other rfl agree).trans (by rw [compiled]; rfl)

end Compiler

end Dictionary

end MorphLex
