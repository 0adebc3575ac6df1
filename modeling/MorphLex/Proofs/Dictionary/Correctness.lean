import MorphLex.Proofs.Dictionary.Items
import MorphLex.Proofs.Dictionary.Reading

/-!
A compiled dictionary spells what the document means. Each entry adds its traces to
the paradigm it is read into, and a start that a path-less entry has made final is
not overwritten, since no other entry is without a path. So what has been built and
what the rest of the document means add up to the whole after every step.
-/

namespace MorphLex.Dictionary

open Reported Transducer

variable {options : Options} {mode : Mode} {meaning : Meaning}

namespace Meaning

theorem entries_nil (options : Options) (mode : Mode) (meaning : Meaning) :
    meaning.entries options mode [] = ∅ := by
  ext trace
  simp [entries]

theorem entries_cons (options : Options) (mode : Mode) (meaning : Meaning) (element : Xml.Element)
    (rest : List Xml.Element) :
    meaning.entries options mode (element :: rest) =
      meaning.entries options mode [element] ∪ meaning.entries options mode rest := by
  ext trace
  simp [entries]

theorem entries_skipped {element : Xml.Element} {reason : SkipReason}
    (skipped : options.skipReason? element = some reason) (meaning : Meaning) :
    meaning.entries options mode [element] = ∅ := by
  ext trace
  simp [entries, skipped]

theorem entries_kept {element : Xml.Element} (kept : options.skipReason? element = none)
    (meaning : Meaning) :
    meaning.entries options mode [element] = meaning.entry options mode element := by
  ext trace
  simp [entries, kept]

end Meaning

/-- There is room for the entries that are without a path: at most one, and none when
the start is final already. -/
structure Room (options : Options) (mode : Mode) (t : Transducer) (entries : List Xml.Element) :
    Prop where
  one : options.OneIdle mode entries
  free : ∀ entry ∈ entries, options.Idle mode entry → t.final? 0 = none

theorem Room.of_initial {entries : List Xml.Element} (one : options.OneIdle mode entries) :
    Room options mode .initial entries :=
  ⟨one, fun _ _ _ => final_initial 0⟩

section Entries

variable {t result : Transducer} {element : Xml.Element} {rest : List Xml.Element}

/-- What one entry does: it adds its traces if it is not left out, and leaves room for
the rest. -/
theorem add_entry_adds (scope : Scope) (represents : scope.registry.Represents meaning.paradigms)
    (alphabet : scope.alphabet = meaning.alphabet)
    (rooted : t.Rooted) (room : Room scope.options scope.mode t (element :: rest))
    (done : (scope.addEntry t element).Yields result) :
    result.Rooted ∧ Room scope.options scope.mode result rest ∧
      result.traces = t.traces ∪ meaning.entries scope.options scope.mode [element] := by
  obtain ⟨apart, one⟩ := List.pairwise_cons.mp room.one
  unfold Scope.addEntry at done
  split at done
  · next reason skipped =>
    have done := Yields.reported done
    obtain rfl := Yields.pure done
    refine ⟨rooted, ⟨one, fun entry member => room.free entry (List.mem_cons_of_mem _ member)⟩, ?_⟩
    rw [Meaning.entries_skipped skipped, Set.union_empty]
  · next kept =>
    obtain ⟨entry, read, done⟩ := done.bind
    obtain rfl := Yields.pure done
    have read := read.silently
    have sound := Scope.entry_sound read represents.copyable
    have idle : entry.states = 0 → scope.options.Idle scope.mode element := fun none =>
      ⟨kept, (Scope.entry_states_eq_zero_iff read).mp none⟩
    refine ⟨entry.add_to_rooted scope.mode sound rooted,
      ⟨one, fun other member idleOther => ?_⟩, ?_⟩
    -- Of two entries only one is without a path, so that the start stays free for a later one.
    · have growing : entry.states ≠ 0 := fun none => apart other member ⟨idle none, idleOther⟩
      rw [entry.final_start_add_to scope.mode sound rooted.formed growing]
      exact room.free other (List.mem_cons_of_mem _ member) idleOther
    · rw [entry.traces_add_to scope.mode sound rooted fun none =>
        room.free element List.mem_cons_self (idle none),
        Scope.entry_traces read represents alphabet, Meaning.entries_kept kept]

/-- The entries of a paradigm or a section add their traces to it, and leave room for
those of later sections. -/
theorem read_entries_adds {compiler : Compiler} {name : String} {entries : List Xml.Element}
    (represents : compiler.registry.Represents meaning.paradigms)
    (alphabet : compiler.alphabet = meaning.alphabet)
    (rooted : t.Rooted) (room : Room compiler.options compiler.mode t (entries ++ rest))
    (done : (compiler.readEntries name t entries).Yields result) :
    result.Rooted ∧ Room compiler.options compiler.mode result rest ∧
      result.traces = t.traces ∪ meaning.entries compiler.options compiler.mode entries := by
  have kept := done.fold
    (fun remaining built => built.Rooted ∧
      Room compiler.options compiler.mode built (remaining ++ rest) ∧
      built.traces ∪ meaning.entries compiler.options compiler.mode remaining =
        t.traces ∪ meaning.entries compiler.options compiler.mode entries)
    ?_ ⟨rooted, room, rfl⟩
  · obtain ⟨rooted, room, traces⟩ := kept
    rw [Meaning.entries_nil, Set.union_empty] at traces
    exact ⟨rooted, room, traces⟩
  · rintro element remaining before after ⟨rooted, room, traces⟩ step
    obtain ⟨_, step⟩ := Yields.past step
    obtain ⟨rootedAfter, roomAfter, added⟩ :=
      add_entry_adds (compiler.scope name) represents alphabet rooted room step
    refine ⟨rootedAfter, roomAfter, ?_⟩
    rw [← traces, Meaning.entries_cons, ← Set.union_assoc]
    exact congrArg (· ∪ meaning.entries compiler.options compiler.mode remaining) added

end Entries

theorem Registry.define_represents {registry : Registry} {paradigms : String → Option (Set Trace)}
    {name : String}
    {paradigm : Transducer} (represents : registry.Represents paradigms) (rooted : paradigm.Rooted)
    (new : registry.contains name = false) :
    (registry.define name paradigm).Represents
      (Function.update paradigms name (some paradigm.traces)) := by
  constructor
  · intro other
    rw [find_define new, Function.update_apply]
    split
    · rfl
    · exact represents.traces other
  · intro other known listed
    rw [find_define new] at listed
    split at listed
    · obtain rfl := Option.some.inj listed
      exact rooted
    · exact represents.rooted other known listed

namespace Compiler

/-- The compiler has built what the part of the document that it has read means. -/
structure Means (compiler : Compiler) (options : Options) (mode : Mode) (meaning : Meaning) :
    Prop where
  options : compiler.options = options
  mode : compiler.mode = mode
  alphabet : compiler.alphabet = meaning.alphabet
  represents : compiler.registry.Represents meaning.paradigms
  rooted : compiler.registry.root.Rooted
  root : compiler.registry.root.traces = meaning.root

variable {compiler result : Compiler} {element : Xml.Element}

theorem means_fresh (options : Options) (mode : Mode) :
    Means { options, mode } options mode {} where
  options := rfl
  mode := rfl
  alphabet := rfl
  represents := ⟨fun name => by simp, fun name paradigm known => by simp at known⟩
  rooted := rooted_initial
  root := traces_initial

theorem read_alphabet_means (means : compiler.Means options mode meaning)
    (name : element.name = "alphabet") (done : (compiler.readAlphabet element).Yields result) :
    result.Means options mode (meaning.child options mode element) ∧
      result.registry = compiler.registry := by
  simp only [Meaning.child, name]
  have reads : compiler.Reads (.alphabet element) result := reads_of_yields done
  cases reads with
  | alphabet =>
      refine ⟨⟨means.options, means.mode, ?_, means.represents, means.rooted, means.root⟩, rfl⟩
      rw [means.alphabet]

theorem read_paradigm_means (means : compiler.Means options mode meaning)
    (one : options.OneIdle mode element.elements)
    (done : (compiler.readParadigm element).Yields result) :
    result.Means options mode (meaning.paradigm options mode element) ∧
      result.registry.root = compiler.registry.root := by
  obtain ⟨rfl, rfl⟩ := And.intro means.options means.mode
  have reads : compiler.Reads (.paradigm element) result := reads_of_yields done
  cases reads with
  | paradigm _ paradigm _ _ new built =>
      have room : Room compiler.options compiler.mode .initial (element.elements ++ []) :=
        .of_initial (by rwa [List.append_nil])
      obtain ⟨rooted, _, traces⟩ :=
        read_entries_adds means.represents means.alphabet rooted_initial room built
      rw [traces_initial, Set.empty_union] at traces
      have sameRoot := compiler.registry.root_define (element.attr "n") paradigm
      refine ⟨⟨rfl, rfl, means.alphabet, ?_, ?_, ?_⟩, sameRoot⟩
      · rw [Meaning.paradigm, ← traces]
        exact Registry.define_represents means.represents rooted new
      · exact sameRoot ▸ means.rooted
      · exact (congrArg Transducer.traces sameRoot).trans means.root

theorem read_section_means {rest : List Xml.Element} (means : compiler.Means options mode meaning)
    (name : element.name = "section")
    (room : Room options mode compiler.registry.root (element.elements ++ rest))
    (done : (compiler.readSection element).Yields result) :
    result.Means options mode (meaning.child options mode element) ∧
      Room options mode result.registry.root rest := by
  obtain ⟨rfl, rfl⟩ := And.intro means.options means.mode
  have reads : compiler.Reads (.entries element) result := reads_of_yields done
  cases reads with
  | entries _ root built =>
      obtain ⟨rooted, room, traces⟩ :=
        read_entries_adds means.represents means.alphabet means.rooted room built
      simp only [Meaning.child, name]
      refine ⟨⟨rfl, rfl, means.alphabet, ⟨means.represents.traces, means.represents.rooted⟩,
        rooted, ?_⟩, room⟩
      rw [← means.root]
      exact traces

theorem read_paradigms_means {elements : List Xml.Element}
    (means : compiler.Means options mode meaning)
    (one : ∀ paradigm ∈ elements, options.OneIdle mode paradigm.elements)
    (done : (elements.foldlM readParadigm compiler).Yields result) :
    result.Means options mode (elements.foldl (Meaning.paradigm options mode) meaning) ∧
      result.registry.root = compiler.registry.root := by
  have kept := done.fold
    (fun remaining built => (∀ paradigm ∈ remaining, options.OneIdle mode paradigm.elements) ∧
      built.registry.root = compiler.registry.root ∧ ∃ sofar, built.Means options mode sofar ∧
        remaining.foldl (Meaning.paradigm options mode) sofar =
          elements.foldl (Meaning.paradigm options mode) meaning)
    ?_ ⟨one, rfl, meaning, means, rfl⟩
  · obtain ⟨_, same, sofar, means, rfl⟩ := kept
    exact ⟨means, same⟩
  · rintro element remaining before after ⟨one, same, sofar, means, whole⟩ step
    rw [List.forall_mem_cons] at one
    obtain ⟨meansAfter, sameAfter⟩ := read_paradigm_means means one.1 step
    exact ⟨one.2, sameAfter.trans same, _, meansAfter, whole⟩

theorem read_child_means {rest : List Xml.Element} (means : compiler.Means options mode meaning)
    (room : Room options mode compiler.registry.root
      (gather "section" Xml.Element.elements (element :: rest)))
    (one : ∀ paradigm ∈ gather "pardefs" Xml.Element.elements (element :: rest),
      options.OneIdle mode paradigm.elements)
    (done : (compiler.readChild element).Yields result) :
    result.Means options mode (meaning.child options mode element) ∧
      Room options mode result.registry.root (gather "section" Xml.Element.elements rest) := by
  rw [gather_cons] at room one
  unfold readChild at done
  split at done
  · next name =>
    rw [if_neg (by simp [name])] at room
    obtain ⟨means, same⟩ := read_alphabet_means means name done
    rw [same]
    exact ⟨means, room⟩
  · next name =>
    rw [if_neg (by simp [name])] at room
    obtain rfl := Yields.pure done
    simp only [Meaning.child, name]
    exact ⟨means, room⟩
  · next name =>
    rw [if_neg (by simp [name])] at room
    rw [if_pos (by simp [name])] at one
    simp only [Meaning.child, name]
    obtain ⟨means, same⟩ := read_paradigms_means means
      (fun paradigm member => one paradigm (List.mem_append_left _ member)) done
    rw [same]
    exact ⟨means, room⟩
  · next name =>
    rw [if_pos (by simp [name])] at room
    exact read_section_means means name room done
  · exact absurd done not_yields_throw

/-- When a document compiles, and neither the root nor a paradigm has more than one entry
without a path, then the root and each paradigm spell exactly what the document means. -/
theorem compile_spells_meaning {options : Options} {document : Xml.Element} {compiler : Compiler}
    (compiled : (compile { options } document).outcome.2 = .ok compiler)
    (root : options.OneIdle (Mode.ofType (document.attr "type"))
      (gather "section" Xml.Element.elements document.elements))
    (paradigms : ∀ paradigm ∈ gather "pardefs" Xml.Element.elements document.elements,
      options.OneIdle (Mode.ofType (document.attr "type")) paradigm.elements) :
    compiler.root.traces = (Meaning.ofDocument options document).root ∧
      ∀ name : String, compiler.registry.paradigms[name]?.map Transducer.traces =
        (Meaning.ofDocument options document).paradigms name := by
  have done := yields_of_outcome compiled
  unfold compile at done
  obtain ⟨_, done⟩ := Yields.past done
  have done := Yields.reported done
  -- The compiler stands for what has been read; the children that remain lead on from there
  -- to the meaning of the whole document.
  have kept := done.fold
    (fun remaining built =>
      Room options (Mode.ofType (document.attr "type")) built.registry.root
        (gather "section" Xml.Element.elements remaining) ∧
      (∀ paradigm ∈ gather "pardefs" Xml.Element.elements remaining,
        options.OneIdle (Mode.ofType (document.attr "type")) paradigm.elements) ∧
      ∃ sofar, built.Means options (Mode.ofType (document.attr "type")) sofar ∧
        remaining.foldl (Meaning.child options (Mode.ofType (document.attr "type"))) sofar =
          Meaning.ofDocument options document)
    ?_ ⟨.of_initial root, paradigms, {}, means_fresh options _, rfl⟩
  · obtain ⟨_, _, sofar, means, rfl⟩ := kept
    exact ⟨means.root, means.represents.traces⟩
  · rintro child remaining before after ⟨room, one, sofar, means, whole⟩ step
    obtain ⟨meansAfter, roomAfter⟩ := read_child_means means room one step
    refine ⟨roomAfter, fun paradigm member => one paradigm ?_, _, meansAfter, whole⟩
    rw [gather_cons]
    split
    · exact List.mem_append_right _ member
    · exact member

/-- A paradigm with an entry without a path and a wildcard that is dropped. -/
def separableDocument : Xml.Element :=
  ⟨"dictionary", [("type", "separable")], 1, [
    .element ⟨"alphabet", [], 2, [.text "ab"]⟩,
    .element ⟨"pardefs", [], 3, [
      .element ⟨"pardef", [("n", "end")], 4, [
        .element ⟨"e", [("w", "1.5")], 5, [.element ⟨"i", [], 5, []⟩]⟩,
        .element ⟨"e", [], 6, [
          .element ⟨"p", [], 6, [
            .element ⟨"l", [], 6, [.text "b", .element ⟨"w", [], 6, []⟩]⟩,
            .element ⟨"r", [], 6, [.text "a"]⟩]⟩]⟩]⟩]⟩,
    .element ⟨"section", [], 9, [
      .element ⟨"e", [("i", "yes")], 10, []⟩,
      .element ⟨"e", [("wl", "2")], 11, [
        .element ⟨"i", [], 11, [.text "a"]⟩,
        .element ⟨"par", [("n", "end")], 11, []⟩]⟩]⟩]⟩

theorem compile_spells_meaning_of_separable :
    ∃ compiler, (compile { options := {} } separableDocument).outcome.2 = .ok compiler ∧
      compiler.root.traces = (Meaning.ofDocument {} separableDocument).root ∧
      ∀ name : String, compiler.registry.paradigms[name]?.map Transducer.traces =
        (Meaning.ofDocument {} separableDocument).paradigms name := by
  have succeeds : (compile { options := {} } separableDocument).outcome.2.isOk = true := by
    decide +kernel
  cases compiled : (compile { options := {} } separableDocument).outcome.2 with
  | error fault =>
      rw [compiled] at succeeds
      exact nomatch succeeds
  | ok compiler => exact ⟨compiler, rfl, compile_spells_meaning compiled (by decide) (by decide)⟩

end Compiler

end MorphLex.Dictionary
