import MorphLex.CharSet

/-!
Patterns: the small regular expressions of dictionary entries. A group is one
or more alternatives; an alternative is a sequence of atoms, each with at most
one quantifier.
-/

namespace MorphLex

structure CharRange where
  low : Char
  high : Char
deriving DecidableEq

namespace CharRange

def single (character : Char) : CharRange := ⟨character, character⟩

def contains (range : CharRange) (character : Char) : Bool :=
  range.low ≤ character && character ≤ range.high

/-- The members in order. Surrogate code points are no characters. -/
def toList (range : CharRange) : List Char :=
  (List.range' range.low.toNat (range.high.toNat + 1 - range.low.toNat)).filterMap fun code =>
    if code.isValidChar then some (Char.ofNat code) else none

end CharRange

/-- A bracketed class: the listed characters, or all others of the alphabet. -/
structure CharClass where
  negated : Bool
  ranges : List CharRange
deriving DecidableEq

namespace CharClass

def lists (cls : CharClass) (character : Char) : Bool := cls.ranges.any (·.contains character)

def members (alphabet : CharSet) (cls : CharClass) : CharSet :=
  if cls.negated then alphabet.filter fun character => !cls.lists character
  else CharSet.ofList (cls.ranges.flatMap CharRange.toList)

end CharClass

namespace Pattern

inductive Quantifier where
  | once
  | oneOrMore
  | zeroOrMore
  | atMostOnce
deriving DecidableEq

mutual

inductive Atom where
  | literal (character : Char)
  | oneOf (cls : CharClass)
  | nested (group : Group)

inductive Sequence where
  | empty
  | cons (atom : Atom) (quantifier : Quantifier) (rest : Sequence)

inductive Group where
  | only (sequence : Sequence)
  | either (sequence : Sequence) (others : Group)

end

/-- Why a text is no pattern. Offsets count characters. -/
inductive Fault where
  | mismatchedBracket (offset : Nat)
  | unterminatedGroup
  | unterminatedClass
  | unexpectedQuantifier (character : Char) (offset : Nat)
  | trailingEscape
  | invalidRange (low high : Char)
  | danglingDash (offset : Nat)
  | emptyClass
deriving DecidableEq

def Fault.message : Fault → String
  | .mismatchedBracket offset => s!"mismatched bracket at offset {offset}"
  | .unterminatedGroup => "unterminated group"
  | .unterminatedClass => "unterminated character class"
  | .unexpectedQuantifier character offset =>
      s!"unexpected quantifier '{character}' at offset {offset}"
  | .trailingEscape => "trailing backslash"
  | .invalidRange low high => s!"invalid range {low}-{high}"
  | .danglingDash offset => s!"misplaced '-' in character class at offset {offset}"
  | .emptyClass => "character class matches nothing"

end Pattern

end MorphLex
