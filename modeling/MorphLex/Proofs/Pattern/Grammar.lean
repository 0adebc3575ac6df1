import MorphLex.Pattern.Basic

/-!
The texts that spell a pattern. Each constructor of the syntax has its own shape of
text; where a character could begin something else it must be escaped.
-/

namespace MorphLex

namespace CharClass

def Spelled (character : Char) (text : List Char) : Prop :=
  text = ['\\', character] ∨ (character ∉ [']', '-', '\\'] ∧ text = [character])

/-- Members one behind the other: single characters, and ranges with a dash. The
ends of a range are told apart from each other. -/
inductive Members : List CharRange → List Char → Prop
  | none : Members [] []
  | single {character : Char} {ranges : List CharRange} {text later : List Char}
      (item : Spelled character text) (rest : Members ranges later) :
      Members (.single character :: ranges) (text ++ later)
  | range {low high : Char} {ranges : List CharRange} {text ending later : List Char}
      (first : Spelled low text) (last : Spelled high ending) (ascends : low < high)
        (rest : Members ranges later) :
      Members (.single low :: ⟨low, high⟩ :: ranges) (text ++ '-' :: ending ++ later)

def SpelledBy (cls : CharClass) (text : List Char) : Prop :=
  if cls.negated then ∃ members, text = '^' :: members ∧ Members cls.ranges members
  else text.head? ≠ some '^' ∧ Members cls.ranges text

end CharClass

namespace Pattern

/-- The characters that stand for themselves behind a backslash only. -/
def reserved : List Char := ['(', ')', '[', ']', '|', '+', '*', '?', '\\']

def Quantifier.text : Quantifier → List Char
  | .once => []
  | .oneOrMore => ['+']
  | .zeroOrMore => ['*']
  | .atMostOnce => ['?']

mutual

def Atom.SpelledBy (alphabet : CharSet) : Atom → List Char → Prop
  | .literal character, text =>
      text = ['\\', character] ∨ (character ∉ reserved ∧ text = [character])
  | .oneOf cls, text =>
      ∃ inner, text = '[' :: inner ++ [']'] ∧ cls.SpelledBy inner ∧
        ∃ character, character ∈ cls.members alphabet
  | .nested group, text => ∃ inner, text = '(' :: inner ++ [')'] ∧ group.SpelledBy alphabet inner

def Sequence.SpelledBy (alphabet : CharSet) : Sequence → List Char → Prop
  | .empty, text => text = []
  | .cons atom quantifier rest, text =>
      ∃ front back, text = front ++ quantifier.text ++ back ∧ atom.SpelledBy alphabet front ∧
        rest.SpelledBy alphabet back

def Group.SpelledBy (alphabet : CharSet) : Group → List Char → Prop
  | .only sequence, text => sequence.SpelledBy alphabet text
  | .either sequence others, text =>
      ∃ front back, text = front ++ '|' :: back ∧ sequence.SpelledBy alphabet front ∧
        others.SpelledBy alphabet back

end

end Pattern

end MorphLex
