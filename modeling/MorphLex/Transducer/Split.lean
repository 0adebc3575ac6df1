import MorphLex.Transducer.Basic

/-!
Splitting an input text into the symbols of a transducer: at each position the
longest multi-character symbol that begins there, else the single character.
-/

namespace MorphLex

namespace Symbol

/-- Emits a symbol where `skip` is zero, then passes over its other characters. -/
def splitFrom (tokens : List (List Char)) (skip : Nat) : List Char → List Symbol
  | [] => []
  | first :: rest =>
      match skip with
      | skip + 1 => splitFrom tokens skip rest
      | 0 =>
          match tokens.find? fun token => token.isPrefixOf (first :: rest) with
          | some token => String.ofList token :: splitFrom tokens (token.length - 1) rest
          | none => ofChar first :: splitFrom tokens 0 rest

/-- Splits a text by a set of tokens, longer ones (in bytes) tried first. -/
def split (tokens : List Symbol) (text : String) : List Symbol :=
  let ordered := tokens.mergeSort fun first second => second.utf8ByteSize ≤ first.utf8ByteSize
  splitFrom (ordered.map String.toList) 0 text.toList

end Symbol

namespace Transducer

def splitInput (t : Transducer) (text : String) : List Symbol :=
  Symbol.split (t.symbols.filter Symbol.isMultichar) text

end Transducer

end MorphLex
