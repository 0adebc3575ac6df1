import MorphLex.Pattern.Basic

/-!
The faults of a dictionary. Each one ends the compilation.
-/

namespace MorphLex.Dictionary

inductive Fault where
  | malformed
  | wrongRoot (name : String)
  | unknownDirection (text : String)
  | unexpectedElement (name : String) (line : Nat)
  | unnamedParadigm (line : Nat)
  | duplicateParadigm (name : String) (line : Nat)
  | unnamedReference (line : Nat)
  | selfReference (name : String) (line : Nat)
  | undefinedParadigm (name : String) (line : Nat)
  | invalidWeight (value : String) (line : Nat)
  | pattern (fault : Pattern.Fault) (line : Nat)
deriving DecidableEq

def Fault.message : Fault → String
  | .malformed => "could not parse XML:"
  | .wrongRoot name => s!"root element is <{name}>, expected <dictionary>"
  | .unknownDirection text => s!"unknown compilation direction '{text}'"
  | .unexpectedElement name line => s!"unexpected element <{name}> on line {line}"
  | .unnamedParadigm line => s!"unnamed pardef on line {line}"
  | .duplicateParadigm name line => s!"redefinition of pardef {name} on line {line}"
  | .unnamedReference line => s!"missing paradigm name on line {line}"
  | .selfReference name line => s!"paradigm {name} refers to itself on line {line}"
  | .undefinedParadigm name line => s!"reference to undefined paradigm {name} on line {line}"
  | .invalidWeight value line => s!"invalid weight '{value}' on line {line}"
  | .pattern fault line => s!"invalid regular expression on line {line}: " ++ fault.message

end MorphLex.Dictionary
