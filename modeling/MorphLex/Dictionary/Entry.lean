import MorphLex.Dictionary.Event
import MorphLex.Dictionary.Markup
import MorphLex.Dictionary.Registry
import MorphLex.Pattern.Build
import MorphLex.Text.Blank
import MorphLex.Transducer.Splice

/-!
Entries of paradigms and sections. An entry is read into parts first, each a run
of symbol pairs or a transducer; then its parts are added as one path from the
start of the paradigm to a final state.
-/

namespace MorphLex.Dictionary

/-- What one element of an entry contributes to its path. -/
inductive Part where
  | pairs (labels : List (Symbol × Symbol))
  | inner (transducer : Transducer)

structure Entry where
  weight : Weight
  parts : List Part

/-- What an entry is read against: the name of the paradigm it belongs to, and
what the compilation knows so far. -/
structure Scope where
  options : Options
  mode : Mode
  alphabet : CharSet
  registry : Registry
  name : String

namespace Part

/-- Two sides position by position, the shorter one filled up with epsilon. -/
def align : List Symbol → List Symbol → List (Symbol × Symbol)
  | [], right => right.map (Symbol.epsilon, ·)
  | left, [] => left.map (·, Symbol.epsilon)
  | first :: left, second :: right => (first, second) :: align left right

/-- Sides that a separable dictionary lets repeat. -/
def repeats (symbol : Symbol) : Bool := symbol.isWildcard || symbol.isEpsilon

/-- Adds a new state behind an arc for each pair. A pair of two epsilons adds
nothing; a repeating pair of a separable dictionary gets a loop. -/
def addPairs (mode : Mode) (t : Transducer) (source : StateId) :
    List (Symbol × Symbol) → Transducer × StateId
  | [] => (t, source)
  | (input, output) :: rest =>
      if input.isEpsilon && output.isEpsilon then addPairs mode t source rest
      else
        let target := t.size
        let arc : Arc := { input, output, target, weight := 0.0 }
        let t := t.addState.addArc source arc
        let t :=
          if mode = .separable && repeats input && repeats output then t.addArc target arc else t
        addPairs mode t target rest

def addTo (mode : Mode) (t : Transducer) (source : StateId) : Part → Transducer × StateId
  | .pairs labels => addPairs mode t source labels
  | .inner transducer =>
      let target := t.size
      (t.addState.splice source target transducer, target)

end Part

namespace Entry

def addParts (mode : Mode) (t : Transducer) (source : StateId) : List Part → Transducer × StateId
  | [] => (t, source)
  | part :: rest =>
      let (t, target) := part.addTo mode t source
      addParts mode t target rest

/-- Adds the path of an entry from state 0; its last state becomes final. -/
def addTo (mode : Mode) (t : Transducer) (entry : Entry) : Transducer :=
  let (t, last) := addParts mode t 0 entry.parts
  t.setFinal last entry.weight

end Entry

namespace Options

/-- Whether an entry names another choice than the one made. -/
def mismatches (choice : Option String) (value : String) : Bool :=
  !value.isEmpty && value != choice.getD ""

def skipReason? (options : Options) (entry : Xml.Element) : Option SkipReason :=
  if entry.attr "r" == options.direction.opposite.restriction then some .otherDirection
  else if entry.attr "i" == "yes" then some .ignored
  else match options.direction with
    | .rightToLeft =>
        if mismatches options.alternative (entry.attr "alt") then some .alternative
        else if mismatches options.variant (entry.attr "v") then some .variant
        else if mismatches options.leftVariant (entry.attr "vl") then some .leftVariant
        else none
    | .leftToRight =>
        if mismatches options.rightVariant (entry.attr "vr") then some .rightVariant else none

/-- The text of the weight of an entry: the common one, else the one of this
direction. -/
def weightText (options : Options) (entry : Xml.Element) : String :=
  let common := entry.attr "w"
  if !common.isEmpty then common
  else match options.direction with
    | .leftToRight => entry.attr "wl"
    | .rightToLeft => entry.attr "wr"

/-- The weight of an entry, 0 where none is given. It must be a finite number. -/
def entryWeight (options : Options) (entry : Xml.Element) : Except Fault Weight :=
  let value := options.weightText entry
  if value.isEmpty then .ok 0.0
  else match Numeral.float? (Text.trim value.toList) with
    | some weight =>
        if weight.isFinite then .ok weight else .error (.invalidWeight value entry.line)
    | none => .error (.invalidWeight value entry.line)

end Options

namespace Scope

def spelling (scope : Scope) : Spelling :=
  { mode := scope.mode, keepBoundaries := scope.options.keepBoundaries }

def readInvariant (scope : Scope) (element : Xml.Element) (front : List Symbol) :
    Except Fault Part := do
  let symbols ← scope.spelling.content element.children
  return .pairs ((front ++ symbols).map fun symbol => (symbol, symbol))

/-- The symbols of the left and of the right sides among some elements. -/
def readSides (scope : Scope) : List Xml.Element → Except Fault (List Symbol × List Symbol)
  | [] => .ok ([], [])
  | side :: rest => do
      if side.name == "l" then
        let symbols ← scope.spelling.content side.children
        let (left, right) ← readSides scope rest
        return (symbols ++ left, right)
      else if side.name == "r" then
        let symbols ← scope.spelling.content side.children
        let (left, right) ← readSides scope rest
        return (left, symbols ++ right)
      else throw (.unexpectedElement side.name side.line)

/-- A paradigm defined before, other than the one being built. -/
def readReference (scope : Scope) (element : Xml.Element) : Except Fault Part :=
  let name := element.attr "n"
  if name.isEmpty then .error (.unnamedReference element.line)
  else if name == scope.name then .error (.selfReference name element.line)
  else match scope.registry.get? name with
    | some paradigm => .ok (.inner paradigm)
    | none => .error (.undefinedParadigm name element.line)

/-- A pattern, which is text alone. -/
def readPattern (scope : Scope) (element : Xml.Element) : Except Fault Part :=
  match element.elements with
  | child :: _ => .error (.unexpectedElement child.name child.line)
  | [] =>
      match Pattern.compile scope.alphabet (String.ofList element.characters) with
      | .ok transducer => .ok (.inner transducer)
      | .error fault => .error (.pattern fault element.line)

def readPart (scope : Scope) (element : Xml.Element) : Except Fault Part :=
  match element.name with
  | "i" => scope.readInvariant element []
  | "ig" => scope.readInvariant element [Spelling.groupSymbol]
  | "p" => do
      let (left, right) ← scope.readSides element.elements
      return .pairs (Part.align left right)
  | "par" => scope.readReference element
  | "re" => scope.readPattern element
  | name => .error (.unexpectedElement name element.line)

def readEntry (scope : Scope) (element : Xml.Element) : Except Fault Entry := do
  let weight ← scope.options.entryWeight element
  let parts ← element.elements.mapM scope.readPart
  return { weight, parts }

/-- Adds an entry to a paradigm, or reports why it is left out. -/
def addEntry (scope : Scope) (t : Transducer) (element : Xml.Element) : Reported Transducer := do
  match scope.options.skipReason? element with
  | some reason =>
      Reported.report (.skipped element.line scope.name reason)
      return t
  | none =>
      let entry ← Reported.silently (scope.readEntry element)
      return entry.addTo scope.mode t

end Scope

end MorphLex.Dictionary
