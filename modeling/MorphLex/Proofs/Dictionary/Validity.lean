import MorphLex.Proofs.Dictionary.Visits

/-!
Valid dictionaries. What a document has to be is told from the root down, where a paradigm
and a pattern depend on the definitions and the alphabets before them. A document is valid
exactly when none of its tags is faulty.
-/

namespace MorphLex.Dictionary

mutual

def NodeAllowed (mode : Mode) : Xml.Node → Prop
  | .element inner => ElementAllowed mode inner
  | .text _ => True
  | .comment => True
  | .instruction => True

/-- Markup that may be used, also inside of groups. -/
def ElementAllowed (mode : Mode) : Xml.Element → Prop
  | ⟨name, _, _, children⟩ => mode.allows name = true ∧ (name = "g" → ContentAllowed mode children)

def ContentAllowed (mode : Mode) : List Xml.Node → Prop
  | [] => True
  | first :: rest => NodeAllowed mode first ∧ ContentAllowed mode rest

end

namespace Known

/-- An element of an entry of this paradigm. -/
def PartValid (known : Known) (paradigm : String) (part : Xml.Element) : Prop :=
  match part.name with
  | "i" => ContentAllowed known.mode part.children
  | "ig" => ContentAllowed known.mode part.children
  | "p" => ∀ side ∈ part.elements, (side.name = "l" ∨ side.name = "r") ∧
    ContentAllowed known.mode side.children
  | "par" => part.attr "n" ≠ "" ∧ part.attr "n" ≠ paradigm ∧ part.attr "n" ∈ known.names
  | "re" => part.elements = [] ∧
    ∃ t, Pattern.compile known.alphabet (String.ofList part.characters) = .ok t
  | _ => False

/-- An entry that is left out may contain anything. -/
def EntryValid (known : Known) (paradigm : String) (entry : Xml.Element) : Prop :=
  entry.name = "e" ∧ (known.options.skipReason? entry = none →
    known.options.weighs entry = true ∧ ∀ part ∈ entry.elements, known.PartValid paradigm part)

def ParadigmValid (known : Known) (paradigm : Xml.Element) : Prop :=
  paradigm.name = "pardef" ∧ paradigm.attr "n" ≠ "" ∧ paradigm.attr "n" ∉ known.names ∧
    ∀ entry ∈ paradigm.elements, known.EntryValid (paradigm.attr "n") entry

/-- Each element is valid together with what the ones before it have added. -/
def InTurn (valid : Known → Xml.Element → Prop) (add : Known → Xml.Element → Known)
    (known : Known) :
    List Xml.Element → Prop
  | [] => True
  | element :: rest => valid known element ∧ InTurn valid add (add known element) rest

def ChildValid (known : Known) (child : Xml.Element) : Prop :=
  match child.name with
  | "alphabet" => child.elements = []
  | "sdefs" => True
  | "pardefs" => InTurn ParadigmValid define known child.elements
  | "section" => ∀ entry ∈ child.elements, known.EntryValid Registry.rootName entry
  | _ => False

/-- What is known behind a child of the root. -/
def addChild (known : Known) (child : Xml.Element) : Known :=
  match child.name with
  | "alphabet" => known.addLetters child
  | "pardefs" => child.elements.foldl define known
  | _ => known

def DocumentValid (known : Known) (document : Xml.Element) : Prop :=
  document.name = "dictionary" ∧ InTurn ChildValid addChild (known.start document) document.elements

end Known

/-- Inside of an entry nothing is learned. -/
def Place.Inner : Place → Prop
  | .document => False
  | .child => False
  | .definition => False
  | _ => True

theorem Place.Inner.of_inside {place next : Place} {options : Options} {element : Xml.Element}
    (inner : place.Inner) (inside : place.inside? options element = some next) : next.Inner := by
  cases place with
  | document | child | definition => exact inner.elim
  | entry | markup =>
      simp only [inside?] at inside
      split at inside
      · exact Option.some.inj inside ▸ trivial
      · exact nomatch inside
  | part =>
      simp only [inside?] at inside
      split at inside
      all_goals first | exact Option.some.inj inside ▸ trivial | exact nomatch inside
  | side => exact Option.some.inj inside ▸ trivial
  | nowhere => exact nomatch inside

theorem Place.Inner.enter_opening {place : Place} (inner : place.Inner) (known : Known)
    (element : Xml.Element) : (Visit.opening place element).enter known = known := by
  cases place <;> first | rfl | exact inner.elim

theorem Place.Inner.enter_closing {place : Place} (inner : place.Inner) (known : Known)
    (element : Xml.Element) : (Visit.closing place element).enter known = known := by
  cases place <;> first | rfl | exact inner.elim

namespace Known

variable (known : Known) (options : Options)

section After

theorem after_element (place : Place) (element : Xml.Element) :
    known.after (elementVisits options place element) =
    (Visit.closing place element).enter
      (((Visit.opening place element).enter known).after (insideVisits options place element)) := by
  rw [element_visits_eq]
  exact after_append _ _ _

mutual

theorem after_inner_node {place : Place} (inner : place.Inner) (node : Xml.Node) :
    known.after (nodeVisits options place node) = known := by
  cases node with
  | element inside =>
      rw [nodeVisits]
      exact after_inner inner inside
  | text | comment | instruction => rw [nodeVisits]; rfl

theorem after_inner {place : Place} (inner : place.Inner) (element : Xml.Element) :
    known.after (elementVisits options place element) = known := by
  obtain ⟨name, attributes, line, children⟩ := element
  rw [after_element, inner.enter_opening, inner.enter_closing, insideVisits]
  cases inside : place.inside? options ⟨name, attributes, line, children⟩ with
  | none => rfl
  | some next => exact after_inner_content (inner.of_inside inside) children

theorem after_inner_content {place : Place} (inner : place.Inner) (nodes : List Xml.Node) :
    known.after (contentVisits options place nodes) = known := by
  cases nodes with
  | nil => rw [contentVisits]; rfl
  | cons node rest =>
      rw [contentVisits, after_append, after_inner_node inner node]
      exact after_inner_content inner rest

end

theorem after_define (paradigm : Xml.Element) :
    known.after (elementVisits options .definition paradigm) = known.define paradigm := by
  have entries : (Place.entry (paradigm.attr "n")).Inner := trivial
  rw [after_element]
  exact congrArg (fun known : Known => known.define paradigm)
    (after_inner_content known options entries paradigm.children)

/-- What several elements add is added by one after the other. -/
theorem after_elements {place : Place} {add : Known → Xml.Element → Known}
    (each : ∀ (known : Known) element,
      known.after (elementVisits options place element) = add known element)
    (elements : List Xml.Element) :
    known.after (elements.flatMap (elementVisits options place)) = elements.foldl add known := by
  induction elements generalizing known with
  | nil => rfl
  | cons element rest ih => rw [List.flatMap_cons, after_append, each, ih, List.foldl_cons]

theorem after_child (child : Xml.Element) :
    known.after (elementVisits options .child child) = known.addChild child := by
  have starts : (Visit.opening .child child).enter known = known := rfl
  have ends (other : child.name ≠ "alphabet") (later : Known) :
      (Visit.closing .child child).enter later = later :=
    if_neg other
  rw [after_element, starts, addChild]
  split
  · next name =>
    have nowhere : Place.nowhere.Inner := trivial
    have inside : Place.child.inside? options child = some .nowhere := by simp [Place.inside?, name]
    have learned : (Visit.closing .child child).enter known = known.addLetters child := if_pos name
    rw [inside_visits_of_some inside, after_inner_content known options nowhere, learned]
  · next name =>
    have inside : Place.child.inside? options child = some .definition := by
      simp [Place.inside?, name]
    rw [ends (by simp [name]), inside_visits_of_some inside, children_visits_eq]
    exact after_elements known options (fun known => known.after_define options) child.elements
  · next notAlphabet notDefinitions =>
    have entries : (Place.entry Registry.rootName).Inner := trivial
    rw [ends notAlphabet, insideVisits]
    simp only [Place.inside?]
    split
    · next name => exact absurd name notAlphabet
    · next name => exact absurd name notDefinitions
    · exact after_inner_content known options entries child.children
    · rfl

end After

section Clear

theorem first_fault_element_eq_none_iff (place : Place) (element : Xml.Element) :
    known.firstFault? (elementVisits options place element) = none ↔
      place.fault? known element = none ∧
      ((Visit.opening place element).enter known).firstFault? (insideVisits options place element) =
        none ∧
      (Visit.closing place element).fault?
        (((Visit.opening place element).enter known).after (insideVisits options place element)) =
          none := by
  rw [element_visits_eq, first_fault_cons_eq_none_iff, first_fault_append_eq_none_iff,
    first_fault_cons_eq_none_iff]
  exact and_congr_right' (and_congr_right' (and_iff_left rfl))

/-- Inside of an entry, all tags are judged by what is known at the first one. -/
theorem first_fault_inner_eq_none_iff {place : Place} (inner : place.Inner)
    (element : Xml.Element) :
    known.firstFault? (elementVisits options place element) = none ↔
      place.fault? known element = none ∧
      (∀ next, place.inside? options element = some next →
        known.firstFault? (contentVisits options next element.children) = none) ∧
      (Visit.closing place element).fault? known = none := by
  rw [first_fault_element_eq_none_iff, inner.enter_opening, insideVisits]
  cases inside : place.inside? options element with
  | none => simp [firstFault?, after]
  | some next =>
      have same := after_inner_content known options (inner.of_inside inside) element.children
      simp [same]

theorem first_fault_elements_eq_none_iff {place : Place} (inner : place.Inner)
    (elements : List Xml.Element) :
    known.firstFault? (elements.flatMap (elementVisits options place)) = none ↔
      ∀ element ∈ elements, known.firstFault? (elementVisits options place element) = none := by
  induction elements with
  | nil => simp [firstFault?]
  | cons element rest ih =>
      rw [List.flatMap_cons, first_fault_append_eq_none_iff, after_inner known options inner, ih,
        List.forall_mem_cons]

theorem misplaced_eq_none_iff (element : Xml.Element) (belongs : Bool) :
    misplaced? element belongs = none ↔ belongs = true := by
  cases belongs <;> simp [misplaced?]

mutual

theorem node_allowed_iff (node : Xml.Node) :
    known.firstFault? (nodeVisits options .markup node) = none ↔ NodeAllowed known.mode node := by
  cases node with
  | element inner =>
      rw [nodeVisits, NodeAllowed]
      exact element_allowed_iff inner
  | text | comment | instruction => simp [nodeVisits, NodeAllowed, firstFault?]

theorem element_allowed_iff (element : Xml.Element) :
    known.firstFault? (elementVisits options .markup element) = none ↔
      ElementAllowed known.mode element := by
  obtain ⟨name, attributes, line, children⟩ := element
  have markup : Place.markup.Inner := trivial
  rw [first_fault_inner_eq_none_iff known options markup, ElementAllowed,
    ← content_allowed_iff children]
  simp [Place.fault?, misplaced_eq_none_iff, Place.inside?, Visit.fault?]

theorem content_allowed_iff (nodes : List Xml.Node) :
    known.firstFault? (contentVisits options .markup nodes) = none ↔
      ContentAllowed known.mode nodes := by
  cases nodes with
  | nil => simp [contentVisits, ContentAllowed, firstFault?]
  | cons node rest =>
      have markup : Place.markup.Inner := trivial
      rw [contentVisits, ContentAllowed, first_fault_append_eq_none_iff,
        after_inner_node known options markup, node_allowed_iff node, content_allowed_iff rest]

end

theorem side_valid_iff (side : Xml.Element) :
    known.firstFault? (elementVisits options .side side) = none ↔
    (side.name = "l" ∨ side.name = "r") ∧ ContentAllowed known.mode side.children := by
  have inner : Place.side.Inner := trivial
  rw [first_fault_inner_eq_none_iff known options inner, ← content_allowed_iff known options]
  simp [Place.fault?, misplaced_eq_none_iff, Place.inside?, Visit.fault?]

/-- Where nothing belongs, there is no element. -/
theorem nowhere_valid_iff (elements : List Xml.Element) :
    known.firstFault? (elements.flatMap (elementVisits options .nowhere)) = none ↔
      elements = [] := by
  have nowhere : Place.nowhere.Inner := trivial
  rw [first_fault_elements_eq_none_iff known options nowhere, List.eq_nil_iff_forall_not_mem]
  refine forall₂_congr fun element _ => ?_
  simp [first_fault_inner_eq_none_iff known options nowhere, Place.fault?, misplaced_eq_none_iff]

/-- Where nothing else is known of a part, its name decides. -/
theorem part_valid_iff (paradigm : String) (part : Xml.Element) :
    known.firstFault? (elementVisits options (.part paradigm) part) = none ↔
      known.PartValid paradigm part := by
  have inner : (Place.part paradigm).Inner := trivial
  have content := content_allowed_iff known options part.children
  rw [first_fault_inner_eq_none_iff known options inner, PartValid]
  split
  · next name => simp [Place.fault?, misplaced_eq_none_iff, Place.inside?, Visit.fault?,
      name, content]
  · next name => simp [Place.fault?, misplaced_eq_none_iff, Place.inside?, Visit.fault?,
      name, content]
  · next name =>
    have side : Place.side.Inner := trivial
    have sides := first_fault_elements_eq_none_iff known options side part.elements
    simp only [side_valid_iff] at sides
    rw [← children_visits_eq] at sides
    simp [Place.fault?, misplaced_eq_none_iff, Place.inside?, Visit.fault?, name, sides]
  · next name =>
    simp only [Place.fault?, misplaced?, Place.inside?, Visit.fault?, name]
    by_cases named : part.attr "n" = ""
    · simp [named]
    · by_cases self : part.attr "n" = paradigm
      · rw [self] at named
        simp [self, named]
      · by_cases listed : part.attr "n" ∈ known.names <;> simp [named, self, listed]
  · next name =>
    have nowhere := nowhere_valid_iff known options part.elements
    rw [← children_visits_eq] at nowhere
    simp only [Place.fault?, misplaced?, Place.inside?, Visit.fault?, patternFault?, name]
    cases Pattern.compile known.alphabet (String.ofList part.characters) <;> simp [nowhere]
  · next notInvariant notGroup notPair notReference notPattern =>
    have misplaced : part.name ∉ ["i", "ig", "p", "par", "re"] := by simp_all
    simp [Place.fault?, misplaced?, misplaced]

theorem entry_valid_iff (paradigm : String) (entry : Xml.Element) :
    known.firstFault? (elementVisits known.options (.entry paradigm) entry) = none ↔
      known.EntryValid paradigm entry := by
  have inner : (Place.entry paradigm).Inner := trivial
  have part : (Place.part paradigm).Inner := trivial
  have parts := first_fault_elements_eq_none_iff known known.options part entry.elements
  simp only [part_valid_iff] at parts
  rw [← children_visits_eq] at parts
  rw [first_fault_inner_eq_none_iff known known.options inner, EntryValid]
  by_cases kept : known.options.skipReason? entry = none
  · simp [Place.fault?, misplaced_eq_none_iff, Place.inside?, Visit.fault?, kept, parts, and_assoc]
  · simp [Place.fault?, misplaced_eq_none_iff, Place.inside?, Visit.fault?, kept]

theorem entries_valid_iff (paradigm : String) (entries : List Xml.Element) :
    known.firstFault? (entries.flatMap (elementVisits known.options (.entry paradigm))) = none ↔
      ∀ entry ∈ entries, known.EntryValid paradigm entry := by
  have inner : (Place.entry paradigm).Inner := trivial
  rw [first_fault_elements_eq_none_iff known known.options inner]
  exact forall₂_congr fun entry _ => known.entry_valid_iff paradigm entry

theorem paradigm_valid_iff (paradigm : Xml.Element) :
    known.firstFault? (elementVisits known.options .definition paradigm) = none ↔
      known.ParadigmValid paradigm := by
  have starts : (Visit.opening .definition paradigm).enter known = known := rfl
  have inside :
      Place.definition.inside? known.options paradigm = some (.entry (paradigm.attr "n")) := rfl
  rw [first_fault_element_eq_none_iff, starts, inside_visits_of_some inside, children_visits_eq,
    entries_valid_iff, ParadigmValid]
  simp only [Place.fault?, misplaced?, Visit.fault?]
  by_cases named : paradigm.attr "n" = ""
  · simp [named]
  · by_cases listed : paradigm.attr "n" ∈ known.names <;> simp [named, listed]

/-- Elements that are valid in turn have no faulty tag. -/
theorem in_turn_iff {place : Place} {valid : Known → Xml.Element → Prop}
    {add : Known → Xml.Element → Known}
    (each : ∀ (known : Known) element,
      known.firstFault? (elementVisits known.options place element) = none ↔ valid known element)
    (learned : ∀ (known : Known) element,
      known.after (elementVisits known.options place element) = add known element)
    (elements : List Xml.Element) :
    known.firstFault? (elements.flatMap (elementVisits known.options place)) = none ↔
      InTurn valid add known elements := by
  induction elements generalizing known with
  | nil => simp [firstFault?, InTurn]
  | cons element rest ih =>
      have same : (add known element).options = known.options :=
        learned known element ▸ known.options_after _
      rw [List.flatMap_cons, first_fault_append_eq_none_iff, each, learned, InTurn, ← ih, same]

theorem child_valid_iff (child : Xml.Element) :
    known.firstFault? (elementVisits known.options .child child) = none ↔
      known.ChildValid child := by
  have starts : (Visit.opening .child child).enter known = known := rfl
  have ends (later : Known) : (Visit.closing .child child).fault? later = none := rfl
  rw [first_fault_element_eq_none_iff, starts, ends, ChildValid, insideVisits]
  split
  · next name =>
    simp [Place.fault?, misplaced_eq_none_iff, Place.inside?, name, children_visits_eq,
      nowhere_valid_iff]
  · next name => simp [Place.fault?, misplaced_eq_none_iff, Place.inside?, name, firstFault?]
  · next name =>
    have definitions :=
      known.in_turn_iff paradigm_valid_iff (fun known => known.after_define known.options)
        child.elements
    simp [Place.fault?, misplaced_eq_none_iff, Place.inside?, name, children_visits_eq, definitions]
  · next name =>
    simp [Place.fault?, misplaced_eq_none_iff, Place.inside?, name, children_visits_eq,
      entries_valid_iff]
  · next notAlphabet notSymbols notDefinitions notSection =>
    have misplaced : child.name ∉ ["alphabet", "sdefs", "pardefs", "section"] := by simp_all
    simp [Place.fault?, misplaced?, misplaced]

/-- A document is valid exactly when none of its tags is faulty. -/
theorem document_valid_iff (document : Xml.Element) :
    known.firstFault? (elementVisits known.options .document document) = none ↔
      known.DocumentValid document := by
  have starts : (Visit.opening .document document).enter known = known.start document := rfl
  have ends (later : Known) : (Visit.closing .document document).fault? later = none := rfl
  have inside : Place.document.inside? known.options document = some .child := rfl
  have children :=
    (known.start document).in_turn_iff child_valid_iff
      (fun known => known.after_child known.options)
    document.elements
  have name : Place.document.fault? known document = none ↔ document.name = "dictionary" := by
    simp [Place.fault?]
  rw [first_fault_element_eq_none_iff, starts, ends, inside_visits_of_some inside,
    children_visits_eq, DocumentValid, name]
  exact and_congr_right' ((and_iff_left rfl).trans children)

end Clear

end Known

end MorphLex.Dictionary
