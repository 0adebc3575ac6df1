import MorphLex.Proofs.Dictionary.Filtering

/-!
How what is said is divided among documents. A document brings alphabets, paradigms and
entries one after the other; which of them share a document, a list of definitions or a
section decides nothing, since an entry is read against what was known before its section
and never against the root that it is added to.
-/

namespace MorphLex.Dictionary

open Reported Result

/-- What documents say, one thing after the other. -/
inductive Content where
  | alphabet (element : Xml.Element)
  | paradigm (element : Xml.Element)
  | entry (element : Xml.Element)

namespace Content

/-- What a child of a document says: each paradigm of a list, each entry of a section. -/
def ofChild (child : Xml.Element) : List Content :=
  match child.name with
  | "alphabet" => [.alphabet child]
  | "pardefs" => child.elements.map .paradigm
  | "section" => child.elements.map .entry
  | _ => []

def ofDocument (document : Xml.Element) : List Content := document.elements.flatMap ofChild

/-- The content at other lines. -/
def relined (move : Nat → Nat) : Content → Content
  | .alphabet element => .alphabet (element.relined move)
  | .paradigm element => .paradigm (element.relined move)
  | .entry element => .entry (element.relined move)

/-- The content, wherever it stands. -/
def unlined (content : Content) : Content := content.relined fun _ => 0

/-- The content as it is read by itself: an entry makes a section of its own. -/
def item : Content → Item
  | .alphabet element => .alphabet element
  | .paradigm element => .paradigm element
  | .entry element => .entries ⟨"section", [], element.line, [.element element]⟩

@[simp] theorem relined_id (content : Content) : content.relined id = content := by
  cases content <;> simp only [relined, Xml.Element.relined_id]

theorem item_relined (move : Nat → Nat) (content : Content) :
    (content.relined move).item = content.item.without (fun _ => false) move := by
  cases content with
  | alphabet element => rfl
  | paradigm element => simp only [relined, item, Item.without, Xml.Element.without_nothing]
  | entry element =>
      simp only [relined, item, Item.without, Xml.Element.without_nothing, Xml.Element.relined,
        Xml.relinedContent, Xml.Node.relined, Xml.Element.line_relined]

end Content

namespace Scope

variable (scope : Scope) (root : Transducer)

/-- The same scope beside another root. -/
def beside (root : Transducer) : Scope := { scope with registry := { scope.registry with root } }

theorem read_sides_beside (sides : List Xml.Element) :
    (scope.beside root).readSides sides = scope.readSides sides := by
  induction sides with
  | nil => rfl
  | cons side rest ih =>
      rw [readSides, readSides, ih]
      rfl

/-- A reference has a name, and the root has none. -/
theorem read_reference_beside (element : Xml.Element) :
    (scope.beside root).readReference element = scope.readReference element := by
  unfold readReference
  cases unnamed : (element.attr "n").isEmpty with
  | true => simp only [unnamed, if_true]
  | false =>
      have named : element.attr "n" ≠ Registry.rootName := by
        intro same
        rw [same] at unnamed
        exact absurd unnamed (by decide)
      have found : (scope.beside root).registry.get? (element.attr "n") =
        scope.registry.get? (element.attr "n") := by
        rw [Registry.get_eq_of_named _ named, Registry.get_eq_of_named _ named]
        rfl
      simp only [found]
      rfl

theorem read_part_beside (element : Xml.Element) :
    (scope.beside root).readPart element = scope.readPart element := by
  unfold readPart
  split
  · rfl
  · rfl
  · rw [read_sides_beside]
  · exact scope.read_reference_beside root element
  · rfl
  · rfl

theorem add_entry_beside (t : Transducer) (element : Xml.Element) :
    (scope.beside root).addEntry t element = scope.addEntry t element := by
  have parts : (scope.beside root).readPart = scope.readPart := funext (scope.read_part_beside root)
  unfold addEntry readEntry
  rw [parts]
  rfl

end Scope

namespace Compiler

variable (compiler : Compiler)

/-- The same state with another root. -/
def rooted (root : Transducer) : Compiler :=
  { compiler with registry := { compiler.registry with root } }

theorem read_entries_rooted (root : Transducer) (name : String) (t : Transducer)
    (entries : List Xml.Element) :
    (compiler.rooted root).readEntries name t entries = compiler.readEntries name t entries := by
  have scope : (compiler.rooted root).scope name = (compiler.scope name).beside root := rfl
  unfold readEntries
  simp only [scope, Scope.add_entry_beside]

def readContent (content : Content) : Reported Compiler := compiler.readItem content.item

theorem read_entry_content (t : Transducer) (entry : Xml.Element) :
    (compiler.rooted t).readContent (.entry entry) = (do
      let root ← compiler.readEntries Registry.rootName t [entry]
      Reported.report (.compiledSection "" root.size root.arcCount)
      return compiler.rooted root) := by
  rw [← compiler.read_entries_rooted t]
  rfl

/-- What reading an entry comes to does not depend on what was reported before. -/
theorem read_entry_steady (t : Transducer) (entry : Xml.Element) :
    Reflects (compiler.readEntries Registry.rootName t [entry])
      (compiler.readEntries Registry.rootName t [entry]) id id := by
  let alone : Xml.Element := ⟨"section", [], 0, [.element entry]⟩
  have same : Reflects (compiler.readEntries Registry.rootName t alone.elements)
      (compiler.readEntries Registry.rootName t
        ((alone.without fun _ => false).relined id).elements) id (Fault.relined id) :=
    compiler.read_entries_reflects id rfl (fun _ none => absurd none Bool.false_ne_true)
      Registry.rootName t
      fun entry _ _ => .refl compiler.options entry
  rwa [Xml.Element.without_nothing, Xml.Element.relined_id, Fault.relined_id] at same

theorem entry_reflects (t : Transducer) (entry : Xml.Element) :
    Reflects (compiler.readEntries Registry.rootName t [entry])
      ((compiler.rooted t).readContent (.entry entry))
      compiler.rooted id := by
  have single : Reflects (compiler.readEntries Registry.rootName t [entry] >>= pure)
      (compiler.readEntries Registry.rootName t [entry] >>= fun root => do
        Reported.report (.compiledSection "" root.size root.arcCount)
        return compiler.rooted root) compiler.rooted id :=
    (compiler.read_entry_steady t entry).bind fun root _ => fun _ _ => rfl
  rwa [bind_pure, ← read_entry_content] at single

theorem read_entries_cons (name : String) (t : Transducer) (entry : Xml.Element)
    (rest : List Xml.Element) :
    compiler.readEntries name t (entry :: rest) =
      compiler.readEntries name t [entry] >>= fun t => compiler.readEntries name t rest := by
  simp only [readEntries, List.foldlM_cons, List.foldlM_nil, bind_pure]

theorem entries_reflect (entries : List Xml.Element) (t : Transducer) :
    Reflects (compiler.readEntries Registry.rootName t entries)
      ((entries.map Content.entry).foldlM readContent (compiler.rooted t)) compiler.rooted id := by
  induction entries generalizing t with
  | nil => exact reflects_pure rfl
  | cons entry rest ih =>
      -- What the rest is added to is the root of the compiler on the one side alone.
      rw [read_entries_cons, List.map_cons, List.foldlM_cons]
      exact (compiler.entry_reflects t entry).bind fun root _ => ih root

/-- The entries of a section are read as if each had a section of its own. -/
theorem read_section_reflects (element : Xml.Element) :
    Reflects (compiler.readSection element)
      ((element.elements.map Content.entry).foldlM readContent compiler) id id := by
  have whole : Reflects (do
        let root ← compiler.readEntries Registry.rootName compiler.registry.root element.elements
        Reported.report (.compiledSection (element.attr "id") root.size root.arcCount)
        return compiler.rooted root)
      ((element.elements.map Content.entry).foldlM readContent compiler >>= pure) id id :=
    (compiler.entries_reflect element.elements compiler.registry.root).bind fun root _ =>
      Reflects.reported_first (reflects_pure rfl)
  rw [bind_pure] at whole
  exact Reflects.after_first whole

variable {compiler}

theorem read_content_kept {content : Content} {next : Compiler}
    (done : (compiler.readContent content).Yields next) :
    next.options = compiler.options ∧ next.mode = compiler.mode := by
  have reads := reads_of_yields done
  refine ⟨reads.appends.options, ?_⟩
  cases content <;> cases reads <;> rfl

variable (compiler)

/-- Content at other lines comes to the same, or to the same fault at its line. -/
theorem read_content_reflects (move : Nat → Nat) (content : Content) :
    Reflects (compiler.readContent content) (compiler.readContent (content.relined move)) id
      (Fault.relined move) := by
  have same : Reflects (compiler.readItem content.item)
      ((compiler.under compiler.options).readItem (content.item.without (fun _ => false) move))
      (fun result => result.under compiler.options) (Fault.relined move) :=
    compiler.read_item_reflects move rfl (fun _ none => absurd none Bool.false_ne_true)
      fun _ _ _ entry _ _ => .refl compiler.options entry
  rw [← Content.item_relined] at same
  refine Reflects.seen same fun next done => ?_
  rw [under, ← (read_content_kept done).1]
  rfl

theorem contents_reflect (move : Nat → Nat) (contents : List Content) :
    Reflects (contents.foldlM readContent compiler)
      ((contents.map (Content.relined move)).foldlM readContent compiler) id
      (Fault.relined move) := by
  rw [← List.filterMap_eq_map]
  exact Reflects.fold id _ (fun _ => True) (fun _ _ _ _ _ => trivial)
    (fun content _ value _ => value.read_content_reflects move content) trivial

theorem contents_steady (contents : List Content) :
    Reflects (contents.foldlM readContent compiler)
      (contents.foldlM readContent compiler) id id := by
  have same := compiler.contents_reflect id contents
  rwa [Fault.relined_id, List.map_congr_left fun content _ => content.relined_id,
    List.map_id'] at same

theorem read_child_reflects {child : Xml.Element}
    (known : child.name ∈ ["alphabet", "sdefs", "pardefs", "section"]) :
    Reflects (compiler.readChild child)
      ((Content.ofChild child).foldlM readContent compiler) id id := by
  have steady := compiler.contents_steady (Content.ofChild child)
  have names : child.name = "alphabet" ∨ child.name = "sdefs" ∨ child.name = "pardefs" ∨
    child.name = "section" := by
    simpa using known
  rcases names with name | name | name | name
  · simp only [readChild, Content.ofChild, name, List.foldlM_cons, List.foldlM_nil,
      bind_pure] at steady ⊢
    exact steady
  · simp only [readChild, Content.ofChild, name]
    exact reflects_pure rfl
  · simp only [readChild, Content.ofChild, name, List.foldlM_map] at steady ⊢
    exact steady
  · simp only [readChild, Content.ofChild, name]
    exact compiler.read_section_reflects child

/-- The same state in another mode. -/
def within (mode : Mode) : Compiler := { compiler with mode }

theorem compile_reflects_contents {document : Xml.Element} (name : document.name = "dictionary")
    (known : ∀ child ∈ document.elements,
      child.name ∈ ["alphabet", "sdefs", "pardefs", "section"]) :
    Reflects (compiler.compile document)
      ((Content.ofDocument document).foldlM readContent
        (compiler.within (Mode.ofType (document.attr "type")))) id id := by
  rw [Content.ofDocument, fold_flat_map]
  unfold compile
  simp only [name, bne_self_eq_false]
  exact Reflects.reported_first
    (Reflects.fold_same id
      (fun child member value => value.read_child_reflects (known child member)) _)

variable {compiler}

theorem contents_kept {contents : List Content} {result : Compiler}
    (done : (contents.foldlM readContent compiler).Yields result) : result.mode = compiler.mode :=
  Yields.fold (fun _ later => later.mode = compiler.mode)
    (fun _ _ _ _ same read => (read_content_kept read).2.trans same) done rfl

end Compiler

/-- Documents of one type that together say these things in this order, each of them in a
document, a list of definitions or a section of its own or together with others. -/
structure Groups (mode : Mode) (contents : List Content) (documents : List Xml.Element) : Prop where
  names : ∀ document ∈ documents, document.name = "dictionary"
  types : ∀ document ∈ documents, Mode.ofType (document.attr "type") = mode
  children : ∀ document ∈ documents, ∀ child ∈ document.elements,
    child.name ∈ ["alphabet", "sdefs", "pardefs", "section"]
  order : (documents.flatMap Content.ofDocument).map Content.unlined = contents.map Content.unlined

namespace Compiler

theorem documents_reflect_contents (compiler : Compiler) {mode : Mode} {contents : List Content}
    {documents : List Xml.Element} (groups : Groups mode contents documents) :
    Reflects (documents.foldlM compile compiler)
      ((documents.flatMap Content.ofDocument).foldlM readContent (compiler.within mode))
        (fun result => result.within mode)
      id := by
  rw [fold_flat_map]
  refine Reflects.fold_same (fun result : Compiler => result.within mode)
    (fun document member value => ?_) compiler
  have reads :=
    value.compile_reflects_contents (groups.names document member) (groups.children document member)
  rw [groups.types document member] at reads
  refine Reflects.seen reads fun result done => ?_
  have kept : result.mode = mode := contents_kept (reads.yields done)
  rw [within, ← kept]
  rfl

/-- The documents come to what their contents come to in this order, at no lines. -/
theorem outcome_of_grouped (compiler : Compiler) {mode : Mode} {contents : List Content}
    {documents : List Xml.Element} (groups : Groups mode contents documents) :
    ((documents.foldlM compile compiler).outcome.2.map fun result => result.within mode).mapError
      Fault.unlined =
      ((contents.map Content.unlined).foldlM readContent (compiler.within mode)).outcome.2 := by
  have whole := (compiler.documents_reflect_contents groups).outcome
  have lines :=
    ((compiler.within mode).contents_reflect (fun _ => 0)
      (documents.flatMap Content.ofDocument)).outcome
  have order : (documents.flatMap Content.ofDocument).map (Content.relined fun _ => 0) =
    contents.map Content.unlined :=
    groups.order
  rw [map_error_id] at whole
  rw [order, whole] at lines
  rw [lines]
  cases (documents.foldlM compile compiler).outcome.2 <;> rfl

/-- Only the order of what documents say matters. However the same alphabets, paradigms and
entries are grouped, one compiler comes to the same fault but for its line, or to the same
alphabet, the same paradigms and the same root. -/
theorem grouping_decides_nothing (compiler : Compiler) (mode : Mode) (contents : List Content)
    (first second : List Xml.Element) (groups : Groups mode contents first)
    (other : Groups mode contents second) :
    (∃ fault otherFault, (first.foldlM compile compiler).outcome.2 = .error fault ∧
      (second.foldlM compile compiler).outcome.2 = .error otherFault ∧
      fault.unlined = otherFault.unlined) ∨
    ∃ result otherResult, (first.foldlM compile compiler).outcome.2 = .ok result ∧
      (second.foldlM compile compiler).outcome.2 = .ok otherResult ∧
      result.alphabet = otherResult.alphabet ∧
      result.registry.paradigms = otherResult.registry.paradigms ∧
      result.root = otherResult.root := by
  have same := (compiler.outcome_of_grouped groups).trans (compiler.outcome_of_grouped other).symm
  cases done : (first.foldlM compile compiler).outcome.2 with
  | error fault =>
      cases doneToo : (second.foldlM compile compiler).outcome.2 with
      | error otherFault =>
          rw [done, doneToo] at same
          exact .inl ⟨fault, otherFault, rfl, rfl, Except.error.inj same⟩
      | ok otherResult =>
          rw [done, doneToo] at same
          exact nomatch same
  | ok result =>
      cases doneToo : (second.foldlM compile compiler).outcome.2 with
      | error otherFault =>
          rw [done, doneToo] at same
          exact nomatch same
      | ok otherResult =>
          rw [done, doneToo] at same
          have alike : result.within mode = otherResult.within mode := Except.ok.inj same
          exact .inr ⟨result, otherResult, rfl, rfl, congrArg (·.alphabet) alike,
            congrArg (·.registry.paradigms) alike, congrArg (·.registry.root) alike⟩

/-- A paradigm, an entry that refers to it and another one, from some line on. -/
def suffixParadigm (line : Nat) : Xml.Element :=
  ⟨"pardef", [("n", "s")], line,
    [.element ⟨"e", [], line + 1, [.element ⟨"i", [], line + 1, [.text "s"]⟩]⟩]⟩

def suffixedEntry (line : Nat) : Xml.Element :=
  ⟨"e", [], line, [.element ⟨"i", [], line, [.text "a"]⟩, .element ⟨"par", [("n", "s")], line, []⟩]⟩

def plainEntry (line : Nat) : Xml.Element :=
  ⟨"e", [("w", "2")], line, [.element ⟨"i", [], line, [.text "b"]⟩]⟩

def lettersOf (line : Nat) : Xml.Element := ⟨"alphabet", [], line, [.text "ab"]⟩

/-- All of it in one document. -/
def togetherDocument : Xml.Element :=
  ⟨"dictionary", [], 1, [
    .element (lettersOf 2), .element ⟨"pardefs", [], 3, [.element (suffixParadigm 4)]⟩,
    .element ⟨"section", [], 6, [.element (suffixedEntry 7), .element (plainEntry 8)]⟩]⟩

/-- The same in two documents, with a section that is empty. -/
def apartDocuments : List Xml.Element :=
  [⟨"dictionary", [], 1, [
    .element (lettersOf 2), .comment, .element ⟨"sdefs", [], 3, []⟩,
    .element ⟨"pardefs", [], 4, [.element (suffixParadigm 5)]⟩, .element ⟨"section", [], 7, []⟩,
    .element ⟨"section", [("type", "inconditional")], 8, [.element (suffixedEntry 9)]⟩]⟩,
  ⟨"dictionary", [], 1, [.element ⟨"section", [], 2, [.element (plainEntry 3)]⟩]⟩]

theorem grouping_decides_nothing_of_apart :
    ∃ result otherResult,
      ([togetherDocument].foldlM compile { options := {} }).outcome.2 = .ok result ∧
      (apartDocuments.foldlM compile { options := {} }).outcome.2 = .ok otherResult ∧
      result.alphabet = otherResult.alphabet ∧
      result.registry.paradigms = otherResult.registry.paradigms ∧
      result.root = otherResult.root := by
  have together : Groups .standard
      [.alphabet (lettersOf 0), .paradigm (suffixParadigm 0), .entry (suffixedEntry 0),
        .entry (plainEntry 0)]
      [togetherDocument] := ⟨by decide, by decide, by decide, rfl⟩
  have apart : Groups .standard
      [.alphabet (lettersOf 0), .paradigm (suffixParadigm 0), .entry (suffixedEntry 0),
        .entry (plainEntry 0)]
      apartDocuments := ⟨by decide, by decide, by decide, rfl⟩
  have succeeds : ([togetherDocument].foldlM compile { options := {} }).outcome.2.isOk = true := by
    decide +kernel
  obtain ⟨fault, -, failed, -⟩ | alike :=
    grouping_decides_nothing { options := {} } .standard _ _ _ together apart
  · rw [failed] at succeeds
    exact nomatch succeeds
  · exact alike

end Compiler

end MorphLex.Dictionary
