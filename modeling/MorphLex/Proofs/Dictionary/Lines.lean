import MorphLex.Dictionary.Compiler
import MorphLex.Proofs.Result

/-!
What line numbers and options are to the reading of an entry. Lines are passed on to faults
and decide nothing, so that a tree with other line numbers is read the same and fails the
same, at the other lines. The parts of an entry are read the same under all options that
keep the same boundaries.
-/

namespace MorphLex

namespace Xml

mutual

def Node.relined (move : Nat → Nat) : Node → Node
  | .element inner => .element (inner.relined move)
  | .text content => .text content
  | .comment => .comment
  | .instruction => .instruction

/-- The tree with other line numbers. -/
def Element.relined (move : Nat → Nat) : Element → Element
  | ⟨name, attributes, line, children⟩ =>
      ⟨name, attributes, move line, relinedContent move children⟩

def relinedContent (move : Nat → Nat) : List Node → List Node
  | [] => []
  | node :: rest => node.relined move :: relinedContent move rest

end

variable (move : Nat → Nat)

theorem relined_content_eq (nodes : List Node) :
    relinedContent move nodes = nodes.map (Node.relined move) := by
  induction nodes with
  | nil => rfl
  | cons node rest ih => rw [relinedContent, ih, List.map_cons]

namespace Element

variable (element : Element)

@[simp] theorem name_relined : (element.relined move).name = element.name := by
  obtain ⟨name, attributes, line, children⟩ := element
  rw [relined]

@[simp] theorem line_relined : (element.relined move).line = move element.line := by
  obtain ⟨name, attributes, line, children⟩ := element
  rw [relined]

@[simp] theorem attr_relined (name : String) :
    (element.relined move).attr name = element.attr name := by
  obtain ⟨_, attributes, line, children⟩ := element
  rw [relined, attr, attr]

@[simp] theorem children_relined :
    (element.relined move).children = relinedContent move element.children := by
  obtain ⟨name, attributes, line, children⟩ := element
  rw [relined]

@[simp] theorem elements_relined :
    (element.relined move).elements = element.elements.map (relined move) := by
  rw [elements, elements, children_relined, relined_content_eq, List.filterMap_map,
    List.map_filterMap]
  apply List.filterMap_congr
  intro node _
  cases node <;> simp [Node.relined, Node.element?]

@[simp] theorem characters_relined : (element.relined move).characters = element.characters := by
  rw [characters, characters, children_relined, relined_content_eq, List.flatMap_map]
  congr 1
  funext node
  cases node <;> simp [Node.relined, Node.characters]

end Element

end Xml

namespace Dictionary

open Result

/-- The fault at another line. -/
def Fault.relined (move : Nat → Nat) : Fault → Fault
  | .unexpectedElement name line => .unexpectedElement name (move line)
  | .unnamedParadigm line => .unnamedParadigm (move line)
  | .duplicateParadigm name line => .duplicateParadigm name (move line)
  | .unnamedReference line => .unnamedReference (move line)
  | .selfReference name line => .selfReference name (move line)
  | .undefinedParadigm name line => .undefinedParadigm name (move line)
  | .invalidWeight value line => .invalidWeight value (move line)
  | .pattern fault line => .pattern fault (move line)
  | fault => fault

@[simp] theorem Fault.relined_id : Fault.relined id = id := by
  funext fault
  cases fault <;> rfl

section Content

variable (spelling : Spelling) (move : Nat → Nat)

mutual

theorem node_relined (node : Xml.Node) :
    spelling.node (node.relined move) = (spelling.node node).mapError (Fault.relined move) := by
  cases node with
  | element inner =>
      rw [Xml.Node.relined, Spelling.node, Spelling.node]
      exact element_relined inner
  | text | comment | instruction =>
      rw [Xml.Node.relined, Spelling.node]
      rfl

theorem element_relined (element : Xml.Element) :
    spelling.element (element.relined move) =
      (spelling.element element).mapError (Fault.relined move) := by
  obtain ⟨name, attributes, line, children⟩ := element
  rw [Xml.Element.relined, Spelling.element, Spelling.element]
  cases Markup.ofName? spelling.mode name with
  | none => rfl
  | some markup =>
      cases markup with
      | group =>
          simp only [map_error_bind, content_relined children]
          rfl
      | tilde | blank | join | boundary | tag | anyTag | anyChar => rfl

theorem content_relined (nodes : List Xml.Node) :
    spelling.content (Xml.relinedContent move nodes) =
      (spelling.content nodes).mapError (Fault.relined move) := by
  cases nodes with
  | nil =>
      rw [Xml.relinedContent, Spelling.content]
      rfl
  | cons node rest =>
      rw [Xml.relinedContent, Spelling.content, Spelling.content, node_relined node,
        content_relined rest]
      simp only [map_error_bind]
      rfl

end

end Content

namespace Options

variable (options : Options) (move : Nat → Nat) (entry : Xml.Element)

@[simp] theorem skip_reason_relined :
    options.skipReason? (entry.relined move) = options.skipReason? entry := by
  simp only [skipReason?, Xml.Element.attr_relined]

theorem weight_text_relined :
    options.weightText (entry.relined move) = options.weightText entry := by
  simp only [weightText, Xml.Element.attr_relined]

theorem entry_weight_relined :
    options.entryWeight (entry.relined move) =
      (options.entryWeight entry).mapError (Fault.relined move) := by
  simp only [entryWeight, weight_text_relined, Xml.Element.line_relined]
  split
  · rfl
  · cases Numeral.float? (Text.trim (options.weightText entry).toList) with
    | none => rfl
    | some weight =>
        cases finite : weight.isFinite <;> simp [finite, Except.mapError, Fault.relined]

end Options

namespace Scope

variable (scope : Scope) {other : Options} (move : Nat → Nat)

/-- The same scope under other options. -/
def under (other : Options) : Scope := { scope with options := other }

theorem spelling_under (keeps : other.keepBoundaries = scope.options.keepBoundaries) :
    (scope.under other).spelling = scope.spelling := by
  simp only [spelling, under, keeps]

theorem read_sides_under (keeps : other.keepBoundaries = scope.options.keepBoundaries)
    (sides : List Xml.Element) :
    (scope.under other).readSides (sides.map (Xml.Element.relined move)) =
      (scope.readSides sides).mapError (Fault.relined move) := by
  induction sides with
  | nil => rfl
  | cons side rest ih =>
      simp only [List.map_cons, readSides, Xml.Element.name_relined, Xml.Element.line_relined,
        Xml.Element.children_relined, spelling_under scope keeps, content_relined, ih]
      split
      · simp only [map_error_bind]
        rfl
      · split
        · simp only [map_error_bind]
          rfl
        · rfl

theorem read_reference_under (element : Xml.Element) :
    (scope.under other).readReference (element.relined move) =
      (scope.readReference element).mapError (Fault.relined move) := by
  simp only [readReference, under, Xml.Element.attr_relined, Xml.Element.line_relined]
  split
  · rfl
  · split
    · rfl
    · cases scope.registry.get? (element.attr "n") <;> rfl

theorem read_pattern_under (element : Xml.Element) :
    (scope.under other).readPattern (element.relined move) =
      (scope.readPattern element).mapError (Fault.relined move) := by
  simp only [readPattern, under, Xml.Element.elements_relined, Xml.Element.characters_relined,
    Xml.Element.line_relined]
  cases element.elements with
  | nil =>
      simp only [List.map_nil]
      cases Pattern.compile scope.alphabet (String.ofList element.characters) <;> rfl
  | cons child rest =>
      simp only [List.map_cons, Xml.Element.name_relined, Xml.Element.line_relined]; rfl

theorem read_invariant_under (keeps : other.keepBoundaries = scope.options.keepBoundaries)
    (element : Xml.Element) (front : List Symbol) :
    (scope.under other).readInvariant (element.relined move) front =
      (scope.readInvariant element front).mapError (Fault.relined move) := by
  simp only [readInvariant, Xml.Element.children_relined, spelling_under scope keeps,
    content_relined, map_error_bind]
  rfl

/-- A part is read the same, and at fault the same, at the other line. -/
theorem read_part_under (keeps : other.keepBoundaries = scope.options.keepBoundaries)
    (element : Xml.Element) :
    (scope.under other).readPart (element.relined move) =
      (scope.readPart element).mapError (Fault.relined move) := by
  unfold readPart
  rw [Xml.Element.name_relined]
  split
  · exact scope.read_invariant_under move keeps element []
  · exact scope.read_invariant_under move keeps element _
  · rw [Xml.Element.elements_relined, read_sides_under scope move keeps, map_error_bind]
    rfl
  · exact scope.read_reference_under move element
  · exact scope.read_pattern_under move element
  · rw [Xml.Element.line_relined]
    rfl

/-- An entry is read the same where it weighs the same. -/
theorem read_entry_under (keeps : other.keepBoundaries = scope.options.keepBoundaries)
    (element : Xml.Element)
    (weighs : scope.options.entryWeight element = other.entryWeight element) :
    (scope.under other).readEntry (element.relined move) =
      (scope.readEntry element).mapError (Fault.relined move) := by
  have weight : (scope.under other).options.entryWeight (element.relined move) =
      (scope.options.entryWeight element).mapError (Fault.relined move) := by
    rw [weighs]
    exact other.entry_weight_relined move element
  have parts : (element.elements.map (Xml.Element.relined move)).mapM (scope.under other).readPart =
      (element.elements.mapM scope.readPart).mapError (Fault.relined move) := by
    rw [map_error_map_list, List.mapM_map]
    exact congrArg (List.mapM · element.elements)
      (funext fun part => scope.read_part_under move keeps part)
  unfold readEntry
  rw [Xml.Element.elements_relined, weight, parts]
  simp only [map_error_bind]
  rfl

end Scope

end Dictionary

end MorphLex
