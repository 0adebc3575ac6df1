import MorphLex.Pattern.Basic

/-!
Reading a pattern from its text, left to right with one character of lookahead.
Each reader returns what it read and the rest of the text, which its type bounds
in length, so that reading ends. The first fault met is the one reported.
-/

namespace MorphLex.Pattern

/-- A value and the text after it, at most `bound` characters. -/
structure Taken (Value : Type) (bound : Nat) where
  value : Value
  rest : List Char
  le : rest.length ≤ bound

namespace Taken

def widen {Value : Type} {bound larger : Nat} (taken : Taken Value bound) (le : bound ≤ larger) :
    Taken Value larger :=
  ⟨taken.value, taken.rest, Nat.le_trans taken.le le⟩

def map {Value Result : Type} {bound : Nat} (convert : Value → Result) (taken : Taken Value bound) :
    Taken Result bound :=
  ⟨convert taken.value, taken.rest, taken.le⟩

end Taken

/-- The end of a range in a class, after its dash: an escaped character, or any
one but a closing bracket or another dash. -/
def rangeEnd (size : Nat) : (input : List Char) → Except Fault (Taken Char input.length)
  | [] => .error .unterminatedClass
  | first :: rest =>
      if first = '\\' then
        match rest with
        | [] => .error .trailingEscape
        | second :: rest => .ok ⟨second, rest, Nat.le_add_right rest.length 2⟩
      else if first = ']' ∨ first = '-' then .error (.danglingDash (size - (rest.length + 2)))
      else .ok ⟨first, rest, Nat.le_succ rest.length⟩

/-- The members of a class up to its closing bracket. `start` is the character
just read, if a dash may extend it to a range. -/
def classMembers (size : Nat) (start : Option Char) :
    (input : List Char) → Except Fault (Taken (List CharRange) input.length)
  | [] => .error .unterminatedClass
  | first :: rest =>
      if first = ']' then .ok ⟨[], rest, by simp⟩
      else if first = '-' then
        match start with
        | none => .error (.danglingDash (size - (rest.length + 1)))
        | some low => do
            let high ← rangeEnd size rest
            if high.value ≤ low then throw (.invalidRange low high.value)
            let later ← classMembers size none high.rest
            return ⟨⟨low, high.value⟩ :: later.value, later.rest, by
              have := later.le; have := high.le; simp only [List.length_cons]; omega⟩
      else if first = '\\' then
        match rest with
        | [] => .error .trailingEscape
        | second :: rest => do
            let later ← classMembers size (some second) rest
            return ⟨.single second :: later.value, later.rest, by
              have := later.le; simp only [List.length_cons]; omega⟩
      else do
        let later ← classMembers size (some first) rest
        return ⟨.single first :: later.value, later.rest, by
          have := later.le; simp only [List.length_cons]; omega⟩
termination_by input => input.length
decreasing_by
  all_goals simp only [List.length_cons]
  · have := high.le; omega
  · omega
  · omega

/-- A class after its opening bracket. A class must stand for some character. -/
def charClass (size : Nat) (alphabet : CharSet) (input : List Char) :
    Except Fault (Taken CharClass input.length) := do
  let taken ← show Except Fault (Taken CharClass input.length) from
    match input with
    | '^' :: rest => do
        let ranges ← classMembers size none rest
        return (ranges.map fun ranges => ⟨true, ranges⟩).widen (by simp)
    | input => do
        let ranges ← classMembers size none input
        return ranges.map fun ranges => ⟨false, ranges⟩
  if (taken.value.members alphabet).isEmpty then throw .emptyClass
  return taken

def quantifier (input : List Char) : Taken Quantifier input.length :=
  match input with
  | [] => ⟨.once, [], by simp⟩
  | first :: rest =>
      if first = '+' then ⟨.oneOrMore, rest, by simp⟩
      else if first = '*' then ⟨.zeroOrMore, rest, by simp⟩
      else if first = '?' then ⟨.atMostOnce, rest, by simp⟩
      else ⟨.once, first :: rest, by simp⟩

mutual

/-- Alternatives up to the end of the text, or for a nested group up to its
closing bracket. -/
def group (size : Nat) (alphabet : CharSet) (nested : Bool) (input : List Char) :
    Except Fault (Taken Group input.length) := do
  let first ← sequence size alphabet input
  match rest : first.rest with
  | [] =>
      if nested then throw .unterminatedGroup
      return ⟨.only first.value, [], by simp⟩
  | next :: later =>
      have shorter : later.length < input.length := by
        have := first.le; rw [rest, List.length_cons] at this; omega
      if next = '|' then
        let others ← group size alphabet nested later
        return ⟨.either first.value others.value, others.rest, by have := others.le; omega⟩
      else if next = ')' ∧ nested then
        return ⟨.only first.value, later, by omega⟩
      else throw (.mismatchedBracket (size - (later.length + 1)))
termination_by (input.length, 2)

def sequence (size : Nat) (alphabet : CharSet) (input : List Char) :
    Except Fault (Taken Sequence input.length) :=
  match input with
  | [] => .ok ⟨.empty, [], by simp⟩
  | first :: rest =>
      if first = '|' ∨ first = ')' then .ok ⟨.empty, first :: rest, by simp⟩
      else do
        let atom ← atom size alphabet first rest
        have shorter : (quantifier atom.rest).rest.length ≤ rest.length :=
          Nat.le_trans (quantifier atom.rest).le atom.le
        let later ← sequence size alphabet (quantifier atom.rest).rest
        return ⟨.cons atom.value (quantifier atom.rest).value later.value, later.rest, by
          have := later.le; simp only [List.length_cons]; omega⟩
termination_by (input.length, 1)
decreasing_by
  all_goals simp_wf
  all_goals omega

def atom (size : Nat) (alphabet : CharSet) (first : Char) (rest : List Char) :
    Except Fault (Taken Atom rest.length) :=
  if first = '+' ∨ first = '*' ∨ first = '?' then
    .error (.unexpectedQuantifier first (size - (rest.length + 1)))
  else if first = ']' then .error (.mismatchedBracket (size - (rest.length + 1)))
  else if first = '(' then do
    let inner ← group size alphabet true rest
    return inner.map .nested
  else if first = '[' then do
    let cls ← charClass size alphabet rest
    return cls.map .oneOf
  else if first = '\\' then
    match rest with
    | [] => .error .trailingEscape
    | second :: rest => .ok ⟨.literal second, rest, by simp⟩
  else .ok ⟨.literal first, rest, by simp⟩
termination_by (rest.length, 3)

end

def parse (alphabet : CharSet) (text : String) : Except Fault Group := do
  let characters := text.toList
  let whole ← group characters.length alphabet false characters
  return whole.value

end MorphLex.Pattern
