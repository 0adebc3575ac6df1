import MorphLex.Weight

/-!
Everything that can be wrong with a VFST file, or keep a transducer from being
written as one.
-/

namespace MorphLex.Vfst

inductive SymbolFault where
  | unterminated
  | namedEpsilon
  | notText (index : Nat)
  | blank (index : Nat)
deriving DecidableEq

inductive TableFault where
  | missingOverflow (slot : Nat)
  | runPastEnd (slot : Nat)
  | noRunAt (slot : Nat)
  | unknownInput (index : Nat)
  | unknownOutput (index : Nat)
deriving DecidableEq

inductive Fault where
  | badMagic
  | tooShort (expected actual : Nat)
  | unweighted
  | symbols (fault : SymbolFault)
  | table (fault : TableFault)
  | tooManySymbols (count : Nat)
  | weightOutOfRange (weight : Weight)
  | acceptsNothing
deriving DecidableEq

def SymbolFault.message : SymbolFault → String
  | .unterminated => "unterminated symbol string"
  | .namedEpsilon => "symbol 0 must be the empty epsilon string"
  | .notText index => s!"invalid UTF-8 in symbol {index}"
  | .blank index => s!"empty symbol {index}"

def TableFault.message : TableFault → String
  | .missingOverflow slot => s!"overflow cell of state at slot {slot} is missing"
  | .runPastEnd slot => s!"state at slot {slot} runs past the end of the table"
  | .noRunAt slot => s!"arc targets slot {slot} which does not start a state"
  | .unknownInput index => s!"unknown input symbol {index}"
  | .unknownOutput index => s!"unknown output symbol {index}"

def Fault.message : Fault → String
  | .badMagic => "invalid magic number in VFST header"
  | .tooShort expected actual =>
      s!"file too short: expected at least {expected} bytes, got {actual}"
  | .unweighted => "type mismatch: expected weighted=true, got weighted=false"
  | .symbols fault => "invalid symbol table: " ++ fault.message
  | .table fault => "invalid transition table: " ++ fault.message
  | .tooManySymbols count => s!"too many symbols for a VFST symbol table: {count}"
  | .weightOutOfRange weight => s!"weight {weight.text} does not fit in a 16-bit VFST weight"
  | .acceptsNothing => "transducer accepts nothing and cannot be written"

end MorphLex.Vfst
