/-!
What a compilation can choose: the side read as input, the kind of dictionary,
and the variants whose entries are kept.
-/

namespace MorphLex.Dictionary

/-- The side of the dictionary read as input: left to right, or right to left. -/
inductive Direction where
  | leftToRight
  | rightToLeft
deriving DecidableEq, Inhabited

namespace Direction

def text : Direction → String
  | .leftToRight => "lr"
  | .rightToLeft => "rl"

def ofText? : String → Option Direction
  | "lr" => some .leftToRight
  | "rl" => some .rightToLeft
  | _ => none

/-- The value of the attribute that restricts an entry to a direction. -/
def restriction : Direction → String
  | .leftToRight => "LR"
  | .rightToLeft => "RL"

def opposite : Direction → Direction
  | .leftToRight => .rightToLeft
  | .rightToLeft => .leftToRight

end Direction

/-- Separable dictionaries know wildcards and a join marker of their own. -/
inductive Mode where
  | standard
  | separable
deriving DecidableEq, Inhabited

namespace Mode

def ofType : String → Mode
  | "separable" => .separable
  | "sequential" => .separable
  | _ => .standard

def text : Mode → String
  | .standard => "Standard"
  | .separable => "Separable"

end Mode

/-- An entry that names an alternative or a variant is kept only when the same
one is chosen here; choosing none chooses the empty one. -/
structure Options where
  direction : Direction := .leftToRight
  alternative : Option String := none
  variant : Option String := none
  leftVariant : Option String := none
  rightVariant : Option String := none
  keepBoundaries : Bool := false
deriving DecidableEq, Inhabited

end MorphLex.Dictionary
