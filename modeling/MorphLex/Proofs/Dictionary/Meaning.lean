import Mathlib.Logic.Function.Basic
import MorphLex.Dictionary.Compiler
import MorphLex.Proofs.Pattern.Language

/-!
What a dictionary means, told without states and arcs: each part of an entry is a
set of traces, an entry concatenates its parts and its weight, a paradigm unites
its entries and the root those of all sections. A document is read child by child,
because a pattern sees the alphabet read so far and a reference the paradigms
defined so far.
-/

open scoped Pointwise

namespace MorphLex.Dictionary

/-- A trace that stands once, or any positive number of times where it may repeat. -/
def turns (repeating : Prop) (once : Trace) : Set Trace :=
  { trace | ∃ further, (further = 0 ∨ repeating) ∧ trace = once ^ (further + 1) }

namespace Mode

/-- A symbol that stands on both sides; wildcards of a separable dictionary repeat. -/
def shared (mode : Mode) (symbol : Symbol) : Set Trace :=
  turns (mode = .separable ∧ symbol.isWildcard = true) (Trace.ofPair symbol symbol)

/-- Two symbols across from each other. In a separable dictionary they repeat when
each of them is a wildcard or absent. -/
def opposed (mode : Mode) (symbols : Symbol × Symbol) : Set Trace :=
  turns (mode = .separable ∧ (symbols.1.isWildcard = true ∨ symbols.1.isEpsilon = true) ∧
    (symbols.2.isWildcard = true ∨ symbols.2.isEpsilon = true)) (Trace.ofPair symbols.1 symbols.2)

end Mode

/-- Two sides position by position, where the shorter one is filled up with epsilon. -/
def padded (left right : List Symbol) : List (Symbol × Symbol) :=
  (List.range (max left.length right.length)).map fun position =>
    (left.getD position Symbol.epsilon, right.getD position Symbol.epsilon)

/-- What the elements of that name contain, one behind the other. -/
def gather {Item : Type} (name : String) (inside : Xml.Element → List Item)
    (elements : List Xml.Element) : List Item :=
  (elements.filter fun element => element.name == name).flatMap inside

theorem gather_cons {Item : Type} (name : String) (inside : Xml.Element → List Item)
    (element : Xml.Element) (rest : List Xml.Element) :
    gather name inside (element :: rest) =
      if element.name == name then
        inside element ++ gather name inside rest else gather name inside rest := by
  rw [gather, List.filter_cons]
  split <;> rfl

namespace Options

def spelling (options : Options) (mode : Mode) : Spelling :=
  { mode, keepBoundaries := options.keepBoundaries }

/-- The attributes that may give the weight of an entry, the first one first. -/
def weightAttributes (options : Options) : List String :=
  match options.direction with
  | .leftToRight => ["w", "wl"]
  | .rightToLeft => ["w", "wr"]

/-- What the first attribute that is not empty says, else 0. -/
def ownWeight (options : Options) (entry : Xml.Element) : Weight :=
  match (options.weightAttributes.map entry.attr).filter fun value => !value.isEmpty with
  | [] => 0.0
  | value :: _ => (Numeral.float? (Text.trim value.toList)).getD 0.0

def Sides (options : Options) (mode : Mode) (pair : Xml.Element) (left right : List Symbol) :
    Prop :=
  (options.spelling mode).content (gather "l" Xml.Element.children pair.elements) = .ok left ∧
    (options.spelling mode).content (gather "r" Xml.Element.children pair.elements) = .ok right

def Blank (options : Options) (mode : Mode) (part : Xml.Element) : Prop :=
  (part.name = "i" ∧ (options.spelling mode).content part.children = .ok []) ∨
    (part.name = "p" ∧ options.Sides mode part [] [])

/-- An entry of blank parts takes no state. -/
def Pathless (options : Options) (mode : Mode) (entry : Xml.Element) : Prop :=
  ∀ part ∈ entry.elements, options.Blank mode part

def Idle (options : Options) (mode : Mode) (entry : Xml.Element) : Prop :=
  options.skipReason? entry = none ∧ options.Pathless mode entry

def OneIdle (options : Options) (mode : Mode) (entries : List Xml.Element) : Prop :=
  entries.Pairwise fun first second => ¬(options.Idle mode first ∧ options.Idle mode second)

instance (options : Options) (mode : Mode) (pair : Xml.Element) (left right : List Symbol) :
    Decidable (options.Sides mode pair left right) :=
  inferInstanceAs (Decidable (_ ∧ _))

instance (options : Options) (mode : Mode) (part : Xml.Element) :
    Decidable (options.Blank mode part) :=
  inferInstanceAs (Decidable (_ ∨ _))

instance (options : Options) (mode : Mode) (entry : Xml.Element) :
    Decidable (options.Pathless mode entry) :=
  inferInstanceAs (Decidable (∀ part ∈ entry.elements, options.Blank mode part))

instance (options : Options) (mode : Mode) (entry : Xml.Element) :
    Decidable (options.Idle mode entry) :=
  inferInstanceAs (Decidable (_ ∧ _))

instance (options : Options) (mode : Mode) (entries : List Xml.Element) :
    Decidable (options.OneIdle mode entries) :=
  inferInstanceAs (Decidable (entries.Pairwise _))

end Options

/-- What has been read so far: the alphabet, and the traces of the root and of the
paradigms by name. -/
structure Meaning where
  alphabet : CharSet := .empty
  root : Set Trace := ∅
  paradigms : String → Option (Set Trace) := fun _ => none

namespace Meaning

variable (options : Options) (mode : Mode)

def part (meaning : Meaning) (element : Xml.Element) : Set Trace :=
  match element.name with
  | "i" => { trace | ∃ symbols, (options.spelling mode).content element.children = .ok symbols ∧
      trace ∈ (symbols.map mode.shared).prod }
  | "ig" => { trace | ∃ symbols, (options.spelling mode).content element.children = .ok symbols ∧
      trace ∈ (("#" :: symbols).map mode.shared).prod }
  | "p" => { trace | ∃ left right, options.Sides mode element left right ∧
      trace ∈ ((padded left right).map mode.opposed).prod }
  | "par" => (meaning.paradigms (element.attr "n")).getD ∅
  | "re" =>
      { trace | ∃ pattern,
        Pattern.parse meaning.alphabet (String.ofList element.characters) = .ok pattern ∧
      trace ∈ Trace.copies (pattern.language meaning.alphabet) }
  | _ => ∅

def entry (meaning : Meaning) (element : Xml.Element) : Set Trace :=
  (element.elements.map (meaning.part options mode)).prod *
    {Trace.ofWeight (options.ownWeight element)}

def entries (meaning : Meaning) (elements : List Xml.Element) : Set Trace :=
  { trace | ∃ element ∈ elements, options.skipReason? element = none ∧
      trace ∈ meaning.entry options mode element }

def paradigm (meaning : Meaning) (element : Xml.Element) : Meaning :=
  { meaning with
    paradigms := Function.update meaning.paradigms (element.attr "n")
      (some (meaning.entries options mode element.elements)) }

def child (meaning : Meaning) (element : Xml.Element) : Meaning :=
  match element.name with
  | "alphabet" =>
      { meaning with
        alphabet :=
          meaning.alphabet.insertAll
            (element.characters.filter fun character => !Text.isBlank character) }
  | "pardefs" => element.elements.foldl (paradigm options mode) meaning
  | "section" =>
      { meaning with root := meaning.root ∪ meaning.entries options mode element.elements }
  | _ => meaning

def ofDocument (options : Options) (document : Xml.Element) : Meaning :=
  document.elements.foldl (child options (Mode.ofType (document.attr "type"))) {}

end Meaning

end MorphLex.Dictionary
