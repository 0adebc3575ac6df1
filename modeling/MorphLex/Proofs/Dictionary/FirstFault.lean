import MorphLex.Proofs.Dictionary.Proper
import MorphLex.Proofs.Dictionary.Validity

/-!
A compilation goes through a document tag by tag. Whatever a reading function looks at, it
comes to what the tags come to: it goes on with what is known behind them, or it ends in the
fault of the first one that is faulty. So a document compiles exactly if it is valid, and
otherwise the first fault is reported.
-/

namespace MorphLex.Dictionary

open Reported Result

namespace Known

variable (known : Known) (options : Options)

/-- The start tag of an element, what is looked at inside, and its end tag. -/
theorem through_element (place : Place) (element : Xml.Element) :
    known.through (elementVisits options place element) =
    match place.fault? known element with
    | some fault => .error fault
    | none =>
        ((Visit.opening place element).enter known).through (insideVisits options place element) >>=
        fun later => later.through [.closing place element] := by
  rw [element_visits_eq, through_cons, ← through_append]
  rfl

variable {known options}

theorem through_of_fault {place : Place} {element : Xml.Element} {fault : Fault}
    (faulty : place.fault? known element = some fault) :
    known.through (elementVisits options place element) = .error fault := by
  rw [through_element, faulty]

theorem bind_end {seen : Except Fault Known} {visit : Visit}
    (ends : ∀ later : Known, later.through [visit] = .ok later) :
    (seen >>= fun later => later.through [visit]) = seen := by
  simp only [ends]
  cases seen <;> rfl

/-- Between tags that say nothing new lies what is looked at inside. -/
theorem through_of_clear {place : Place} {element : Xml.Element}
    (clear : place.fault? known element = none)
    (starts : (Visit.opening place element).enter known = known)
    (ends : ∀ later : Known, later.through [.closing place element] = .ok later) :
    known.through (elementVisits options place element) =
      known.through (insideVisits options place element) := by
  rw [through_element, clear, starts]
  exact bind_end ends

variable (known)

theorem options_through {visits : List Visit} {later : Known}
    (done : known.through visits = .ok later) : later.options = known.options := by
  rw [through] at done
  split at done
  · exact nomatch done
  · exact Except.ok.inj done ▸ known.options_after visits

/-- The options stay the same, so that the tags of all elements are known beforehand. -/
theorem fold_through (place : Place) (elements : List Xml.Element) :
    elements.foldlM
      (fun known element => known.through (elementVisits known.options place element)) known =
      known.through (elements.flatMap (elementVisits known.options place)) := by
  induction elements generalizing known with
  | nil => rfl
  | cons element rest ih =>
      rw [List.foldlM_cons, List.flatMap_cons, through_append]
      cases done : known.through (elementVisits known.options place element) with
      | error fault => rfl
      | ok later =>
          have same := known.options_through done
          exact (ih later).trans (by rw [same]; rfl)

theorem comes_fold {Value : Type} {step : Value → Xml.Element → Reported Value}
    {view : Value → Known} {place : Place}
    (each : ∀ value element,
      (step value element).Comes view
        ((view value).through (elementVisits (view value).options place element)))
    (elements : List Xml.Element) (start : Value) : Comes (elements.foldlM step start) view
      ((view start).through (elements.flatMap (elementVisits (view start).options place))) := by
  rw [← fold_through]
  exact Comes.fold each elements start

end Known

theorem Markup.of_name_eq_none_iff (mode : Mode) (name : String) :
    Markup.ofName? mode name = none ↔ mode.allows name = false := by
  unfold Markup.ofName?
  split <;> simp_all [Mode.allows]

theorem Markup.of_name_eq_group_iff (mode : Mode) (name : String) :
    Markup.ofName? mode name = some .group ↔ name = "g" := by
  unfold Markup.ofName?
  split <;> simp_all

section Content

variable (spelling : Spelling) (known : Known)

mutual

theorem node_through (same : known.mode = spelling.mode) (options : Options) (node : Xml.Node) :
    (spelling.node node).map (fun _ => known) =
      known.through (nodeVisits options .markup node) := by
  cases node with
  | element inner =>
      rw [Spelling.node, nodeVisits]
      exact element_through same options inner
  | text | comment | instruction =>
      rw [Spelling.node, nodeVisits]
      rfl

/-- Only a group has content that is looked at. -/
theorem element_through (same : known.mode = spelling.mode) (options : Options)
    (element : Xml.Element) :
    (spelling.element element).map (fun _ => known) =
      known.through (elementVisits options .markup element) := by
  obtain ⟨name, attributes, line, children⟩ := element
  rw [Spelling.element]
  cases found : Markup.ofName? spelling.mode name with
  | none =>
      have refused : known.mode.allows name = false := by rwa [same, ← Markup.of_name_eq_none_iff]
      have faulty : Place.markup.fault? known ⟨name, attributes, line, children⟩ =
          some (.unexpectedElement name line) := by
        simp [Place.fault?, misplaced?, refused]
      rw [Known.through_of_fault faulty]
      rfl
  | some markup =>
      have allowed : known.mode.allows name = true := by
        rw [same, ← Bool.not_eq_false, ← Markup.of_name_eq_none_iff, found]
        simp
      have clear : Place.markup.fault? known ⟨name, attributes, line, children⟩ = none := by
        simp [Place.fault?, misplaced?, allowed]
      have isGroup := Markup.of_name_eq_group_iff spelling.mode name
      rw [found] at isGroup
      rw [Known.through_of_clear clear rfl fun _ => rfl]
      by_cases group : markup = .group
      · obtain rfl := group
        have inside :
            Place.markup.inside? options ⟨name, attributes, line, children⟩ = some .markup :=
          if_pos (isGroup.mp rfl)
        rw [inside_visits_of_some inside]
        exact (map_return ..).trans (content_through same options children)
      · have inside : Place.markup.inside? options ⟨name, attributes, line, children⟩ = none :=
          if_neg fun isG => group (Option.some.inj (isGroup.mpr isG))
        rw [inside_visits_of_none inside]
        cases markup with
        | group => exact absurd rfl group
        | tilde | blank | join | boundary | tag | anyTag | anyChar => rfl

theorem content_through (same : known.mode = spelling.mode) (options : Options)
    (nodes : List Xml.Node) :
    (spelling.content nodes).map (fun _ => known) =
      known.through (contentVisits options .markup nodes) := by
  cases nodes with
  | nil =>
      rw [Spelling.content, contentVisits]
      rfl
  | cons node rest =>
      rw [Spelling.content, contentVisits, Known.through_append]
      refine map_bind (node_through same options node) fun front => ?_
      rw [map_return]
      exact content_through same options rest

end

end Content

/-- What is known where an entry is read. -/
def Scope.known (scope : Scope) : Known :=
  { options := scope.options, mode := scope.mode, alphabet := scope.alphabet,
    names := scope.registry.names.toFinset }

namespace Scope

variable (scope : Scope)

theorem read_sides_through (sides : List Xml.Element) :
    (scope.readSides sides).map (fun _ => scope.known) =
    scope.known.through (sides.flatMap (elementVisits scope.options .side)) := by
  induction sides with
  | nil => rfl
  | cons side rest ih =>
      rw [readSides, List.flatMap_cons, Known.through_append]
      have content := content_through scope.spelling scope.known rfl scope.options side.children
      split
      · next isLeft =>
        have clear : Place.side.fault? scope.known side = none := by
          simp [Place.fault?, misplaced?, eq_of_beq isLeft]
        rw [Known.through_of_clear clear rfl fun _ => rfl]
        refine map_bind content fun symbols => ?_
        exact (map_return ..).trans ih
      · next notLeft =>
        split
        · next isRight =>
          have clear : Place.side.fault? scope.known side = none := by
            simp [Place.fault?, misplaced?, eq_of_beq isRight]
          rw [Known.through_of_clear clear rfl fun _ => rfl]
          refine map_bind content fun symbols => ?_
          exact (map_return ..).trans ih
        · next notRight =>
          have faulty : Place.side.fault? scope.known side =
            some (.unexpectedElement side.name side.line) := by
            have misplaced : side.name ∉ ["l", "r"] := by simpa using And.intro notLeft notRight
            simp [Place.fault?, misplaced?, misplaced]
          rw [Known.through_of_fault faulty]
          rfl

theorem mem_known_iff (name : String) :
    name ∈ scope.known.names ↔ ∃ paradigm, scope.registry.paradigms[name]? = some paradigm := by
  rw [known, List.mem_toFinset, Registry.mem_names_iff]

theorem read_reference_through (element : Xml.Element) (isReference : element.name = "par") :
    (scope.readReference element).map (fun _ => scope.known) =
      scope.known.through (elementVisits scope.options (.part scope.name) element) := by
  have ends (later : Known) : later.through [.closing (.part scope.name) element] = .ok later := by
    simp [Known.through_cons, Visit.fault?, isReference, Visit.enter]
  have inside : (Place.part scope.name).inside? scope.options element = none := by
    simp [Place.inside?, isReference]
  have fault : (Place.part scope.name).fault? scope.known element =
      if element.attr "n" = "" then some (.unnamedReference element.line)
      else if element.attr "n" = scope.name then
        some (.selfReference (element.attr "n") element.line)
      else if element.attr "n" ∈ scope.known.names then none
      else some (.undefinedParadigm (element.attr "n") element.line) := by
    simp [Place.fault?, misplaced?, isReference]
  simp only [readReference]
  split
  · next unnamed =>
    rw [Known.through_of_fault (fault.trans (if_pos (String.isEmpty_iff.mp unnamed)))]
    rfl
  · next named =>
    rw [String.isEmpty_iff] at named
    rw [if_neg named] at fault
    split
    · next self =>
      rw [Known.through_of_fault (fault.trans (if_pos (eq_of_beq self)))]
      rfl
    · next other =>
      rw [beq_iff_eq] at other
      rw [if_neg other] at fault
      rw [scope.registry.get_eq_of_named named]
      cases known : scope.registry.paradigms[element.attr "n"]? with
      | some paradigm =>
          have listed := (scope.mem_known_iff (element.attr "n")).mpr ⟨paradigm, known⟩
          rw [Known.through_of_clear (fault.trans (if_pos listed)) rfl ends,
            inside_visits_of_none inside]
          rfl
      | none =>
          have unlisted : element.attr "n" ∉ scope.known.names := by simp [mem_known_iff, known]
          rw [Known.through_of_fault (fault.trans (if_neg unlisted))]
          rfl

/-- An element inside a pattern is met before the pattern is judged. -/
theorem read_pattern_through (element : Xml.Element) (isPattern : element.name = "re") :
    (scope.readPattern element).map (fun _ => scope.known) =
      scope.known.through (elementVisits scope.options (.part scope.name) element) := by
  have clear : (Place.part scope.name).fault? scope.known element = none := by
    simp [Place.fault?, misplaced?, isPattern]
  have inside : (Place.part scope.name).inside? scope.options element = some .nowhere := by
    simp [Place.inside?, isPattern]
  have starts : (Visit.opening (.part scope.name) element).enter scope.known = scope.known := rfl
  rw [Known.through_element, clear, inside_visits_of_some inside, starts, children_visits_eq,
    readPattern]
  cases element.elements with
  | cons child rest =>
      have misplaced :
          Place.nowhere.fault? scope.known child =
            some (.unexpectedElement child.name child.line) := rfl
      rw [List.flatMap_cons, Known.through_append, Known.through_of_fault misplaced]
      rfl
  | nil =>
      have judged : (Visit.closing (.part scope.name) element).fault? scope.known =
        scope.known.patternFault? element :=
        if_pos isPattern
      have alphabet : scope.known.alphabet = scope.alphabet := rfl
      change _ = scope.known.through [.closing (.part scope.name) element]
      rw [Known.through_cons, judged, Known.patternFault?, alphabet]
      cases Pattern.compile scope.alphabet (String.ofList element.characters) <;> rfl

/-- These parts are judged by what they contain. -/
theorem through_container {element : Xml.Element} (name : element.name ∈ ["i", "ig", "p"]) :
    scope.known.through (elementVisits scope.options (.part scope.name) element) =
      scope.known.through (insideVisits scope.options (.part scope.name) element) := by
  have clear : (Place.part scope.name).fault? scope.known element = none := by
    simp only [List.mem_cons, List.not_mem_nil, or_false] at name
    rcases name with name | name | name <;> simp [Place.fault?, misplaced?, name]
  have notPattern : element.name ≠ "re" := by
    intro isPattern
    simp [isPattern] at name
  refine Known.through_of_clear clear rfl fun later => ?_
  simp [Known.through_cons, Visit.fault?, notPattern, Visit.enter]

theorem read_invariant_through {element : Xml.Element}
    (name : element.name = "i" ∨ element.name = "ig") (front : List Symbol) :
    (scope.readInvariant element front).map (fun _ => scope.known) =
      scope.known.through (elementVisits scope.options (.part scope.name) element) := by
  have inside : (Place.part scope.name).inside? scope.options element = some .markup := by
    rcases name with name | name <;> simp [Place.inside?, name]
  rw [scope.through_container (by simp only [List.mem_cons]; tauto), inside_visits_of_some inside]
  exact (map_return ..).trans
    (content_through scope.spelling scope.known rfl scope.options element.children)

theorem read_part_through (element : Xml.Element) :
    (scope.readPart element).map (fun _ => scope.known) =
    scope.known.through (elementVisits scope.options (.part scope.name) element) := by
  unfold readPart
  split
  · next name => exact scope.read_invariant_through (.inl name) []
  · next name => exact scope.read_invariant_through (.inr name) _
  · next name =>
    have inside : (Place.part scope.name).inside? scope.options element = some .side := by
      simp [Place.inside?, name]
    rw [scope.through_container (by simp [name]), inside_visits_of_some inside, children_visits_eq]
    exact (map_return ..).trans (scope.read_sides_through element.elements)
  · next name => exact scope.read_reference_through element name
  · next name => exact scope.read_pattern_through element name
  · next notInvariant notGroup notPair notReference notPattern =>
    have faulty : (Place.part scope.name).fault? scope.known element =
        some (.unexpectedElement element.name element.line) := by
      have misplaced : element.name ∉ ["i", "ig", "p", "par", "re"] := by simp_all
      simp [Place.fault?, misplaced?, misplaced]
    rw [Known.through_of_fault faulty]
    rfl

theorem map_parts_through (parts : List Xml.Element) :
    (parts.mapM scope.readPart).map (fun _ => scope.known) =
    scope.known.through (parts.flatMap (elementVisits scope.options (.part scope.name))) := by
  induction parts with
  | nil => rfl
  | cons part rest ih =>
      rw [List.mapM_cons, List.flatMap_cons, Known.through_append]
      refine map_bind (scope.read_part_through part) fun first => ?_
      rw [map_return]
      exact ih

theorem entry_weight_map (options : Options) (element : Xml.Element) :
    (options.entryWeight element).map (fun _ => scope.known) = if options.weighs element =
      true then .ok scope.known
      else .error (.invalidWeight (options.weightText element) element.line) := by
  simp only [Options.entryWeight, Options.weighs, ← String.isEmpty_iff]
  cases (options.weightText element).isEmpty with
  | true => rfl
  | false =>
      cases Numeral.float? (Text.trim (options.weightText element).toList) with
      | none => rfl
      | some weight => cases finite : weight.isFinite <;> simp [finite, Except.map]

/-- The weight of an entry is read before its parts, if the entry is not left out. -/
theorem add_entry_comes (t : Transducer) {element : Xml.Element} (isEntry : element.name = "e") :
    (scope.addEntry t element).Comes (fun _ => scope.known)
      (scope.known.through (elementVisits scope.options (.entry scope.name) element)) := by
  have fault : (Place.entry scope.name).fault? scope.known element =
      if scope.options.skipReason? element ≠ none ∨ scope.options.weighs element = true then none
      else some (.invalidWeight (scope.options.weightText element) element.line) := by
    rw [Place.fault?, misplaced?, if_pos (decide_eq_true isEntry), Option.none_or]
    rfl
  unfold addEntry
  cases skipped : scope.options.skipReason? element with
  | some reason =>
      have inside : (Place.entry scope.name).inside? scope.options element = none := by
        simp [Place.inside?, skipped]
      have clear := fault.trans (if_pos (.inl (by simp [skipped])))
      rw [Known.through_of_clear clear rfl fun _ => rfl, inside_visits_of_none inside]
      exact Comes.reported (comes_pure t _)
  | none =>
      have inside :
          (Place.entry scope.name).inside? scope.options element = some (.part scope.name) := by
        simp [Place.inside?, skipped]
      have weighed := scope.entry_weight_map scope.options element
      have read : (scope.readEntry element).map (fun _ => scope.known) =
          scope.known.through (elementVisits scope.options (.entry scope.name) element) := by
        unfold readEntry
        by_cases valid : scope.options.weighs element = true
        · rw [if_pos valid] at weighed
          rw [Known.through_of_clear (fault.trans (if_pos (.inr valid))) rfl fun _ => rfl,
            inside_visits_of_some inside, children_visits_eq]
          change _ = Except.ok scope.known >>= fun later : Known =>
            later.through
              (element.elements.flatMap (elementVisits scope.options (.part scope.name)))
          exact map_bind weighed fun weight =>
            (map_return ..).trans (scope.map_parts_through element.elements)
        · rw [if_neg valid] at weighed
          have refused :
              ¬(scope.options.skipReason? element ≠ none ∨
                scope.options.weighs element = true) := by
            simp [skipped, valid]
          rw [Known.through_of_fault (fault.trans (if_neg refused))]
          change _ = Except.error _ >>= fun later : Known =>
            (element.elements.mapM scope.readPart).map fun _ => later
          exact map_bind weighed fun weight => map_return ..
      refine Comes.change ?_
      exact comes_silently read

end Scope

/-- What is known between two tags of a document. -/
def Compiler.known (compiler : Compiler) : Known :=
  { options := compiler.options, mode := compiler.mode, alphabet := compiler.alphabet
    names := compiler.registry.names.toFinset }

namespace Compiler

variable (compiler : Compiler)

theorem entry_step_comes (name : String) (t : Transducer) (entry : Xml.Element) :
    Comes (do
      if entry.name != "e" then throw (.unexpectedElement entry.name entry.line)
      (compiler.scope name).addEntry t entry) (fun _ => compiler.known)
      (compiler.known.through (elementVisits compiler.options (.entry name) entry)) := by
  refine comes_past (fun other => Known.through_of_fault ?_) fun same => ?_
  · have other : ¬entry.name = "e" := by simpa using other
    simp [Place.fault?, misplaced?, other]
  · exact (compiler.scope name).add_entry_comes t (by simpa using same)

theorem read_entries_comes (name : String) (t : Transducer) (entries : List Xml.Element) :
    (compiler.readEntries name t entries).Comes (fun _ => compiler.known)
      (compiler.known.through
        (entries.flatMap (elementVisits compiler.options (.entry name)))) := by
  exact Known.comes_fold (fun t entry => compiler.entry_step_comes name t entry) entries t

theorem known_define {name : String} (new : compiler.registry.contains name = false)
    (paradigm : Transducer) :
    ({ compiler with registry := compiler.registry.define name paradigm } : Compiler).known =
      { compiler.known with names := insert name compiler.known.names } := by
  have names : (compiler.registry.define name paradigm).names.toFinset =
    insert name compiler.registry.names.toFinset := by
    ext other
    rw [List.mem_toFinset, Registry.mem_names_iff, Registry.find_define new, Finset.mem_insert,
      List.mem_toFinset, Registry.mem_names_iff]
    split
    · next same => simp [same]
    · next different => simp [different]
  rw [known, known, names]

/-- A paradigm is known when its definition ends. -/
theorem read_paradigm_comes (element : Xml.Element) : (compiler.readParadigm element).Comes known
    (compiler.known.through (elementVisits compiler.options .definition element)) := by
  unfold readParadigm
  refine comes_past (fun other => Known.through_of_fault ?_) fun same => ?_
  · have other : ¬element.name = "pardef" := by simpa using other
    simp [Place.fault?, misplaced?, other]
  have same : element.name = "pardef" := by simpa using same
  refine comes_past (fun unnamed => Known.through_of_fault ?_) fun named => ?_
  · simp [Place.fault?, misplaced?, same, String.isEmpty_iff.mp unnamed]
  have named : element.attr "n" ≠ "" := by simpa using named
  have listed : element.attr "n" ∈ compiler.known.names ↔
    compiler.registry.contains (element.attr "n") = true := by
    rw [compiler.registry.contains_iff named, known, List.mem_toFinset]
  refine comes_past (fun taken => Known.through_of_fault ?_) fun new => ?_
  · simp [Place.fault?, misplaced?, same, named, listed.mpr taken]
  have unlisted : element.attr "n" ∉ compiler.known.names := by simp [listed, new]
  have clear : Place.definition.fault? compiler.known element = none := by
    simp [Place.fault?, misplaced?, same, named, unlisted]
  have inside :
      Place.definition.inside? compiler.options element = some (.entry (element.attr "n")) := rfl
  rw [Known.through_element, clear, inside_visits_of_some inside, children_visits_eq]
  refine (compiler.read_entries_comes _ _ _).bind fun paradigm => Comes.reported ?_
  have learned :
      ({ compiler with registry := compiler.registry.define (element.attr "n") paradigm } :
        Compiler).known =
      compiler.known.define element :=
    compiler.known_define new paradigm
  change Comes _ _ (.ok (compiler.known.define element))
  rw [← learned]
  exact comes_pure _ _

theorem read_alphabet_comes (element : Xml.Element) (name : element.name = "alphabet") :
    (compiler.readAlphabet element).Comes known
      (compiler.known.through (elementVisits compiler.options .child element)) := by
  have clear : Place.child.fault? compiler.known element = none := by
    simp [Place.fault?, misplaced?, name]
  have inside : Place.child.inside? compiler.options element = some .nowhere := by
    simp [Place.inside?, name]
  rw [Known.through_element, clear, inside_visits_of_some inside, children_visits_eq, readAlphabet]
  cases element.elements with
  | cons child rest =>
      have misplaced :
          Place.nowhere.fault? compiler.known child =
            some (.unexpectedElement child.name child.line) := rfl
      have starts : (Visit.opening .child element).enter compiler.known = compiler.known := rfl
      rw [List.flatMap_cons, Known.through_append, starts, Known.through_of_fault misplaced]
      exact comes_throw _ _
  | nil =>
      have learned : (Visit.closing .child element).enter compiler.known =
        compiler.known.addLetters element := if_pos name
      change Comes _ _ (.ok ((Visit.closing .child element).enter compiler.known))
      rw [learned]
      exact comes_pure _ _

theorem through_child_end {child : Xml.Element} (other : child.name ≠ "alphabet") (later : Known) :
    later.through [.closing .child child] = .ok later := by
  simp [Known.through_cons, Visit.fault?, Visit.enter, other]

theorem read_section_comes (element : Xml.Element) (name : element.name = "section") :
    (compiler.readSection element).Comes known
      (compiler.known.through (elementVisits compiler.options .child element)) := by
  have clear : Place.child.fault? compiler.known element = none := by
    simp [Place.fault?, misplaced?, name]
  have inside : Place.child.inside? compiler.options element = some (.entry Registry.rootName) := by
    simp [Place.inside?, name]
  rw [Known.through_element, clear, inside_visits_of_some inside, children_visits_eq]
  unfold readSection
  refine Comes.after ?_
  refine (compiler.read_entries_comes _ _ _).bind fun root => Comes.reported ?_
  rw [through_child_end (by simp [name])]
  exact comes_pure _ _

theorem read_child_comes (child : Xml.Element) :
    (compiler.readChild child).Comes known
      (compiler.known.through (elementVisits compiler.options .child child)) := by
  unfold readChild
  split
  · next name => exact compiler.read_alphabet_comes child name
  · next name =>
    have clear : Place.child.fault? compiler.known child = none := by
      simp [Place.fault?, misplaced?, name]
    have inside : Place.child.inside? compiler.options child = none := by simp [Place.inside?, name]
    rw [Known.through_of_clear clear rfl (through_child_end (by simp [name])),
      inside_visits_of_none inside]
    exact comes_pure _ _
  · next name =>
    have clear : Place.child.fault? compiler.known child = none := by
      simp [Place.fault?, misplaced?, name]
    have inside : Place.child.inside? compiler.options child = some .definition := by
      simp [Place.inside?, name]
    rw [Known.through_of_clear clear rfl (through_child_end (by simp [name])),
      inside_visits_of_some inside, children_visits_eq]
    exact Known.comes_fold read_paradigm_comes child.elements compiler
  · next name => exact compiler.read_section_comes child name
  · next notAlphabet notSymbols notDefinitions notSection =>
    have faulty : Place.child.fault? compiler.known child =
      some (.unexpectedElement child.name child.line) := by
      have misplaced : child.name ∉ ["alphabet", "sdefs", "pardefs", "section"] := by simp_all
      simp [Place.fault?, misplaced?, misplaced]
    rw [Known.through_of_fault faulty]
    exact comes_throw _ _

theorem compile_comes (root : Xml.Element) :
    (compiler.compile root).Comes known
      (compiler.known.through (elementVisits compiler.options .document root)) := by
  unfold compile
  refine comes_past (fun other => Known.through_of_fault ?_) fun same => Comes.reported ?_
  · have other : ¬root.name = "dictionary" := by simpa using other
    simp [Place.fault?, other]
  have clear : Place.document.fault? compiler.known root = none := by
    simpa [Place.fault?] using same
  have inside : Place.document.inside? compiler.options root = some .child := rfl
  have started : (Visit.opening .document root).enter compiler.known = compiler.known.start root :=
    rfl
  rw [Known.through_element, clear, inside_visits_of_some inside, started, children_visits_eq]
  change Comes _ _
    ((compiler.known.start root).through _ >>= fun later => later.through [.closing .document root])
  rw [Known.bind_end fun _ => rfl]
  let opened : Compiler := { compiler with mode := Mode.ofType (root.attr "type") }
  exact Known.comes_fold read_child_comes root.elements opened

/-- A document compiles exactly if it is valid. If it is not, the fault that is reported is
that of the first faulty tag, judged by what is known from earlier documents and from the
tags before it. -/
theorem compile_reports_first_fault (root : Xml.Element) :
    ((∃ result, (compiler.compile root).outcome.2 = .ok result) ↔
      compiler.known.DocumentValid root) ∧
    ∀ fault, (compiler.compile root).outcome.2 = .error fault ↔
      ∃ front visit back, elementVisits compiler.options .document root = front ++ visit :: back ∧
        compiler.known.firstFault? front = none ∧
        visit.fault? (compiler.known.after front) = some fault := by
  have seen := (compiler.compile_comes root).outcome
  constructor
  · rw [← exists_map_eq_ok_iff known, seen, Known.exists_through_iff]
    exact compiler.known.document_valid_iff root
  · intro fault
    rw [← map_eq_error_iff known, seen, Known.through_eq_error_iff]
    exact compiler.known.first_fault_eq_some_iff _ fault

end Compiler

end MorphLex.Dictionary
