import MorphLex.Order.Ascending

/-!
Symbols on the arcs of a transducer. A symbol is the reserved epsilon, a single
character, or a longer token such as a tag in angle brackets.
-/

namespace MorphLex

abbrev Symbol := String

namespace Symbol

/-- Consumes or produces nothing. -/
def epsilon : Symbol := "@_EPSILON_SYMBOL_@"

/-- Stands for any single character in a separable dictionary. -/
def anyChar : Symbol := "<ANY_CHAR>"

/-- Stands for any tag in a separable dictionary. -/
def anyTag : Symbol := "<ANY_TAG>"

def isEpsilon (symbol : Symbol) : Bool := symbol == epsilon

def isWildcard (symbol : Symbol) : Bool := symbol == anyChar || symbol == anyTag

/-- More than one character long, and not the reserved epsilon. -/
def isMultichar (symbol : Symbol) : Bool :=
  !symbol.isEpsilon && (symbol.toList.drop 1 != [])

def ascending (symbols : List Symbol) : List Symbol := Ascending.ofList compare symbols

def ofChar (character : Char) : Symbol := String.singleton character

@[simp] theorem to_list_of_char (character : Char) : (ofChar character).toList = [character] := by
  simp [ofChar]

@[simp] theorem is_epsilon_of_char (character : Char) : (ofChar character).isEpsilon = false := by
  rw [isEpsilon, beq_eq_false_iff_ne]
  intro same
  have lengths := congrArg (fun symbol => symbol.toList.length) same
  simp [epsilon] at lengths

end Symbol

end MorphLex
