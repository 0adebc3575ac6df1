import MorphLex.Proofs.Dictionary.Items
import MorphLex.Proofs.Dictionary.Proper
import MorphLex.Proofs.Transducer.Prolong

/-!
Compilation only appends. From one item to the next, names and characters are added and
none is taken away, a paradigm stays what it was defined as, and the root keeps its
states and arcs: a section adds arcs and a final weight to the start, and to no other
state that was there before. What a reference resolves to has been defined by an earlier
item.
-/

namespace MorphLex.Dictionary

open Reported Result Transducer

section Paths

/-- A path that begins at the source and ends there or in a new state. -/
structure Path (t : Transducer) (source : StateId) (built : Transducer × StateId) : Prop where
  prolongs : Prolongs t built.1 source
  ending : built.2 = source ∨ t.size ≤ built.2

theorem Path.refl (t : Transducer) (source : StateId) : Path t source (t, source) :=
  ⟨.refl t source, .inl rfl⟩

theorem Path.trans {t : Transducer} {source : StateId} {middle built : Transducer × StateId}
    (first : Path t source middle) (second : Path middle.1 middle.2 built) :
    Path t source built where
  prolongs := first.prolongs.trans second.prolongs first.ending
  ending := by
    rcases second.ending with same | new
    · rw [same]
      exact first.ending
    · exact .inr (Nat.le_trans first.prolongs.size_le new)

theorem prolongs_with_position (t : Transducer) (source : StateId) (arc : Arc) (loops : Bool) :
    Prolongs t (t.withPosition source arc loops) source := by
  have behind : Prolongs t (t.addState.addArc source arc) source :=
    (Prolongs.add_state t source).trans (.add_arc _ source arc) (.inl rfl)
  unfold withPosition
  split
  · exact behind.trans (.add_arc _ t.size arc) (.inr (Nat.le_refl _))
  · exact behind

theorem Part.add_pairs_path (mode : Mode) (t : Transducer) (source : StateId)
    (labels : List (Symbol × Symbol)) : Path t source (addPairs mode t source labels) := by
  induction labels generalizing t source with
  | nil => exact .refl t source
  | cons label rest ih =>
      obtain ⟨input, output⟩ := label
      by_cases absent : (input.isEpsilon && output.isEpsilon) = true
      · rw [addPairs, if_pos absent]
        exact ih t source
      · rw [add_pairs_cons mode t source absent]
        have first :
            Path t source (t.withPosition source { input, output, target := t.size, weight := 0.0 }
            (mode = .separable && repeats input && repeats output), t.size) :=
          ⟨prolongs_with_position t source _ _, .inr (Nat.le_refl _)⟩
        exact first.trans (ih _ _)

theorem Part.add_to_path (mode : Mode) (t : Transducer) (source : StateId) (part : Part) :
    Path t source (part.addTo mode t source) := by
  cases part with
  | pairs labels => exact add_pairs_path mode t source labels
  | inner transducer =>
      refine ⟨?_, .inr (Nat.le_refl _)⟩
      exact (Prolongs.add_state t source).trans (.splice _ source t.size transducer) (.inl rfl)

theorem Entry.add_parts_path (mode : Mode) (t : Transducer) (source : StateId) (parts : List Part) :
    Path t source (addParts mode t source parts) := by
  induction parts generalizing t source with
  | nil => exact .refl t source
  | cons part rest ih => exact (part.add_to_path mode t source).trans (ih _ _)

theorem Entry.add_to_prolongs (mode : Mode) (t : Transducer) (entry : Entry) :
    Prolongs t (entry.addTo mode t) 0 := by
  have path := add_parts_path mode t 0 entry.parts
  exact path.prolongs.trans (.set_final _ _ entry.weight) path.ending

end Paths

namespace Compiler

variable {compiler next result : Compiler} {item : Item}

theorem read_entries_prolongs {name : String} {t built : Transducer} {entries : List Xml.Element}
    (done : (compiler.readEntries name t entries).Yields built) : Prolongs t built 0 := by
  apply done.fold (fun _ built => Prolongs t built 0) _ (.refl t 0)
  intro entry _ before after prolonged step
  obtain ⟨_, step⟩ := Yields.past step
  rcases Scope.add_entry_yields_iff.mp step with ⟨_, _, rfl⟩ | ⟨_, entry, _, rfl⟩
  · exact prolonged
  · exact prolonged.trans (entry.add_to_prolongs compiler.mode before) (.inl rfl)

/-- Whatever the earlier compiler knows, the later one knows as well. -/
structure AppendsTo (earlier later : Compiler) : Prop where
  options : later.options = earlier.options
  alphabet : ∀ character ∈ earlier.alphabet, character ∈ later.alphabet
  names : ∀ name ∈ earlier.registry.names, name ∈ later.registry.names
  paradigms : ∀ (name : String) (paradigm : Transducer),
    earlier.registry.paradigms[name]? = some paradigm →
    later.registry.paradigms[name]? = some paradigm
  root : Prolongs earlier.root later.root 0

theorem AppendsTo.refl (compiler : Compiler) : AppendsTo compiler compiler where
  options := rfl
  alphabet _ known := known
  names _ known := known
  paradigms _ _ known := known
  root := .refl _ 0

theorem AppendsTo.trans {earlier between later : Compiler} (first : AppendsTo earlier between)
    (second : AppendsTo between later) : AppendsTo earlier later where
  options := second.options.trans first.options
  alphabet character known := second.alphabet character (first.alphabet character known)
  names name known := second.names name (first.names name known)
  paradigms name paradigm known :=
    second.paradigms name paradigm (first.paradigms name paradigm known)
  root := first.root.trans second.root (.inl rfl)

/-- A name that is taken is not defined again. -/
theorem appends_define {name : String} (new : compiler.registry.contains name = false)
    (paradigm : Transducer) :
    compiler.AppendsTo { compiler with registry := compiler.registry.define name paradigm } := by
  have kept (other : String) (known : Transducer)
    (found : compiler.registry.paradigms[other]? = some known) :
      (compiler.registry.define name paradigm).paradigms[other]? = some known := by
    rw [Registry.find_define new]
    split
    · next same =>
      subst same
      rw [Registry.contains, Std.TreeMap.contains_eq_isSome_getElem?, found] at new
      simp at new
    · exact found
  refine ⟨rfl, fun _ known => known, fun other known => ?_, kept, ?_⟩
  · obtain ⟨paradigm, found⟩ := (Registry.mem_names_iff _ other).mp known
    exact (Registry.mem_names_iff _ other).mpr ⟨paradigm, kept other paradigm found⟩
  · have same : (compiler.registry.define name paradigm).root = compiler.registry.root :=
      Registry.root_define _ name paradigm
    unfold root
    rw [same]
    exact .refl _ 0

theorem Reads.appends (reads : compiler.Reads item next) : compiler.AppendsTo next := by
  cases reads with
  | opening document name =>
      exact ⟨rfl, fun _ known => known, fun _ known => known, fun _ _ known => known, .refl _ 0⟩
  | alphabet element text =>
      exact ⟨rfl, fun character known => (CharSet.mem_insert_all _ _ _).mpr (.inl known),
        fun _ known => known, fun _ _ known => known, .refl _ 0⟩
  | paradigm element paradigm name named new built => exact appends_define new paradigm
  | entries element root built =>
      exact ⟨rfl, fun _ known => known, fun _ known => known, fun _ _ known => known,
        read_entries_prolongs built⟩

theorem read_items_append {items : List Item}
    (done : (items.foldlM readItem compiler).Yields result) : compiler.AppendsTo result := by
  apply done.fold (fun _ built => compiler.AppendsTo built) _ (.refl compiler)
  intro item _ before after appended step
  exact appended.trans (reads_of_yields step).appends

/-- A paradigm that is known after some items was known before, or one of them defines it. -/
theorem read_items_known {items : List Item} (done : (items.foldlM readItem compiler).Yields result)
    {name : String} (known : name ∈ result.registry.names) :
    name ∈ compiler.registry.names ∨ ∃ element, Item.paradigm element ∈ items ∧
      element.attr "n" = name := by
  induction items generalizing compiler with
  | nil =>
      obtain rfl := Yields.pure done
      exact .inl known
  | cons item rest ih =>
      rw [List.foldlM_cons] at done
      obtain ⟨next, first, later⟩ := done.bind
      rcases ih later with before | ⟨element, member, named⟩
      · cases reads_of_yields first with
        | opening | alphabet | entries => exact .inl before
        | paradigm element paradigm _ _ new =>
            rw [Registry.mem_names_iff] at before
            simp only [Registry.find_define new] at before
            split at before
            · next same => exact .inr ⟨element, List.mem_cons_self, same.symm⟩
            · exact .inl ((Registry.mem_names_iff _ _).mpr before)
      · exact .inr ⟨element, List.mem_cons_of_mem _ member, named⟩

/-- A new compiler is in this state behind the items. -/
def Reaches (options : Options) (items : List Item) (compiler : Compiler) : Prop :=
  (items.foldlM readItem { options }).outcome.2 = .ok compiler

/-- The reference names another paradigm than the one that is built. Its definition is one of
the items before, and what it resolves to stays known under the name. -/
structure Resolved (front : List Item) (compiler : Compiler) (name : String)
    (reference : Xml.Element) (result : Compiler) : Prop where
  named : reference.attr "n" ≠ Registry.rootName
  other : reference.attr "n" ≠ name
  defined : ∃ element, Item.paradigm element ∈ front ∧ element.attr "n" = reference.attr "n"
  resolves : ∃ paradigm, (compiler.scope name).readReference reference = .ok (.inner paradigm) ∧
    compiler.registry.paradigms[reference.attr "n"]? = some paradigm ∧
    result.registry.paradigms[reference.attr "n"]? = some paradigm

theorem exists_reaches {options : Options} {front back : List Item}
    (reached : Reaches options (front ++ back) result) :
    ∃ compiler, Reaches options front compiler ∧ (back.foldlM readItem compiler).Yields result := by
  rw [Reaches, List.foldlM_append] at reached
  exact exists_outcome_of_bind reached

/-- Every reference in an entry that is kept has been read. -/
theorem read_entries_reference {name : String} {t built : Transducer} {entries : List Xml.Element}
    (done : (compiler.readEntries name t entries).Yields built) {entry reference : Xml.Element}
    (member : entry ∈ entries) (kept : compiler.options.skipReason? entry = none)
    (part : reference ∈ entry.elements) (isReference : reference.name = "par") :
    ∃ part, (compiler.scope name).readReference reference = .ok part := by
  obtain ⟨before, after, step⟩ := done.fold_mem entry member
  obtain ⟨_, step⟩ := Yields.past step
  rcases Scope.add_entry_yields_iff.mp step with ⟨_, skipped, _⟩ | ⟨_, entered, read, _⟩
  · exact nomatch kept.symm.trans skipped
  · obtain ⟨weight, _, read⟩ := bind_eq_ok_iff.mp read
    obtain ⟨parts, each, _⟩ := bind_eq_ok_iff.mp read
    obtain ⟨value, read⟩ := each_of_map_ok each reference part
    simp only [Scope.readPart, isReference] at read
    exact ⟨value, read⟩

/-- Compiling documents only appends. At any two points between items the later compiler knows
all that the earlier one did, and has every state and arc of its root in its place; of the
old states only the start has further arcs or another final weight. Every reference of a
kept entry resolves to a paradigm that an item before has defined. -/
theorem compilation_appends {options : Options} {documents : List Xml.Element}
    (compiled : (documents.foldlM compile { options }).outcome.2 = .ok result) :
    Reaches options (documents.flatMap Item.ofDocument) result ∧
      (∀ front middle back, documents.flatMap Item.ofDocument = front ++ middle ++ back →
        ∃ earlier later, Reaches options front earlier ∧ Reaches options (front ++ middle) later ∧
          earlier.AppendsTo later) ∧
      ∀ front item back name entries, documents.flatMap Item.ofDocument = front ++ item :: back →
        item.builds? = some (name, entries) → ∃ compiler, Reaches options front compiler ∧
          ∀ entry ∈ entries, options.skipReason? entry = none → ∀ reference ∈ entry.elements,
            reference.name = "par" → Resolved front compiler name reference result := by
  rw [compile_all_eq] at compiled
  have whole : Reaches options (documents.flatMap Item.ofDocument) result := compiled
  refine ⟨whole, ?_, ?_⟩
  · intro front middle back split
    rw [split] at whole
    obtain ⟨later, reachedLater, _⟩ := exists_reaches whole
    obtain ⟨earlier, reached, between⟩ := exists_reaches reachedLater
    exact ⟨earlier, later, reached, reachedLater, read_items_append between⟩
  · intro front item back name entries split builds
    rw [split] at whole
    obtain ⟨compiler, reached, remaining⟩ := exists_reaches whole
    refine ⟨compiler, reached, fun entry member kept reference part isReference => ?_⟩
    rw [List.foldlM_cons] at remaining
    obtain ⟨next, first, later⟩ := remaining.bind
    have front_read := yields_of_outcome reached
    have options_eq : compiler.options = options := (read_items_append front_read).options
    have read : ∃ part, (compiler.scope name).readReference reference = .ok part := by
      cases reads_of_yields first with
      | opening | alphabet => exact nomatch builds
      | paradigm element paradigm _ _ _ built =>
          obtain ⟨rfl, rfl⟩ := Prod.mk.inj (Option.some.inj builds)
          exact read_entries_reference built member (options_eq ▸ kept) part isReference
      | entries element root built =>
          obtain ⟨rfl, rfl⟩ := Prod.mk.inj (Option.some.inj builds)
          exact read_entries_reference built member (options_eq ▸ kept) part isReference
    obtain ⟨value, read⟩ := read
    obtain ⟨named, other, paradigm, known, rfl⟩ := Scope.read_reference_eq_ok_iff.mp read
    have listed := (Registry.mem_names_iff _ _).mpr ⟨paradigm, known⟩
    refine ⟨named, other, ?_, paradigm, read, known, ?_⟩
    · exact (read_items_known front_read listed).resolve_left (by simp [Registry.names])
    · exact (reads_of_yields first).appends.trans (read_items_append later) |>.paradigms _
        paradigm known

/-- A paradigm of its own, a section that refers to it, and a document after it whose first
section makes the start final. -/
def firstDocument : Xml.Element :=
  ⟨"dictionary", [], 1, [
    .element ⟨"pardefs", [], 2, [.element ⟨"pardef", [("n", "s")], 3, [
      .element ⟨"e", [], 3, [.element ⟨"i", [], 3, [.text "s"]⟩]⟩]⟩]⟩,
    .element ⟨"section", [], 4, [.element ⟨"e", [], 4, [
      .element ⟨"i", [], 4, [.text "a"]⟩, .element ⟨"par", [("n", "s")], 4, []⟩]⟩]⟩]⟩

def secondDocument : Xml.Element :=
  ⟨"dictionary", [], 1, [
    .element ⟨"section", [], 2, [.element ⟨"e", [("w", "2")], 2, []⟩]⟩,
    .element ⟨"section", [], 3, [.element ⟨"e", [], 3, [
      .element ⟨"i", [], 3, [.text "b"]⟩, .element ⟨"par", [("n", "s")], 3, []⟩]⟩]⟩]⟩

/-- Between the ends of the first section and of the last one, and for the reference in the
last section. -/
theorem compilation_appends_of_two_documents :
    let items := [firstDocument, secondDocument].flatMap Item.ofDocument
    let reference : Xml.Element := ⟨"par", [("n", "s")], 3, []⟩
    ∃ result, ([firstDocument, secondDocument].foldlM compile { options := {} }).outcome.2 =
      .ok result ∧
      (∃ earlier later, Reaches {} (items.take 3) earlier ∧ Reaches {} items later ∧
        earlier.AppendsTo later) ∧
      ∃ compiler, Reaches {} (items.take 5) compiler ∧
        Resolved (items.take 5) compiler Registry.rootName reference result := by
  intro items reference
  have succeeds :
      ([firstDocument, secondDocument].foldlM compile { options := {} }).outcome.2.isOk = true := by
    decide +kernel
  obtain ⟨result, compiled⟩ := exists_ok_of_is_ok succeeds
  obtain ⟨_, between, resolved⟩ := compilation_appends compiled
  refine ⟨result, compiled, between (items.take 3) (items.drop 3) [] rfl, ?_⟩
  obtain ⟨compiler, reached, each⟩ := resolved (items.take 5) _ [] _ _ rfl rfl
  exact ⟨compiler, reached, each _ List.mem_cons_self (by decide) reference (.tail _ (.head _)) rfl⟩

end Compiler

end MorphLex.Dictionary
