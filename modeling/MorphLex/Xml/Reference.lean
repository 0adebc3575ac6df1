import MorphLex.Number.Power
import MorphLex.Xml.Letters

/-!
References in text and attribute values, and the line ends and spaces that a
reader sees in their place.
-/

namespace MorphLex.Xml

/-- A character as written, a character that a reference names, or the name of
an entity to be replaced. -/
inductive Piece where
  | plain (character : Char)
  | referenced (character : Char)
  | entity (name : String)
deriving DecidableEq

namespace Piece

open scoped Power

def digit? (base : Nat) (character : Char) : Option Nat :=
  let value :=
    if character.isDigit then character.toNat - '0'.toNat
    else if 'a' ≤ character ∧ character ≤ 'f' then character.toNat - 'a'.toNat + 10
    else if 'A' ≤ character ∧ character ≤ 'F' then character.toNat - 'A'.toNat + 10
    else base
  if value < base then some value else none

def number? (base : Nat) (digits : List Char) : Option Nat :=
  if digits.isEmpty then none
  else digits.foldlM (fun total character => (digit? base character).map (base * total + ·)) 0

/-- The character with a code point below 2 ^ 32; one that is no character reads
as the replacement character. It must be allowed in a document. -/
def ofCode? (code : Nat) : Option Piece :=
  if 2 ^ (32 : Nat) ≤ code then none
  else
    let character := if code.isValidChar then Char.ofNat code else '\uFFFD'
    if isAllowed character then some (.referenced character) else none

/-- What stands between the ampersand and the semicolon of a reference. -/
def ofReference? : List Char → Option Piece
  | '#' :: 'x' :: digits => (number? 16 digits).bind ofCode?
  | '#' :: digits => (number? 10 digits).bind ofCode?
  | name =>
      match String.ofList name with
      | "quot" => some (.referenced '"')
      | "amp" => some (.referenced '&')
      | "apos" => some (.referenced '\'')
      | "lt" => some (.referenced '<')
      | "gt" => some (.referenced '>')
      | text => if isName name then some (.entity text) else none

/-- Takes a text apart. The first `skip` characters belong to the reference in
front of them. A lone ampersand makes the text ill-formed. -/
def listFrom (skip : Nat) : List Char → Option (List Piece)
  | [] => some []
  | first :: rest =>
      match skip with
      | skip + 1 => listFrom skip rest
      | 0 =>
          if first = '&' then do
            let inner := rest.takeWhile (· != ';')
            if (rest.drop inner.length).isEmpty then none
            let piece ← ofReference? inner
            return piece :: (← listFrom (inner.length + 1) rest)
          else do return .plain first :: (← listFrom 0 rest)

def list? (text : List Char) : Option (List Piece) := listFrom 0 text

/-- Inside an entity a referenced character counts as written. -/
def flatten : Piece → Piece
  | .referenced character => .plain character
  | piece => piece

/-- The characters of a run of text. A carriage return, or one with the line
feed behind it, is a line feed; but next to a reference it stays as it is. An
entity behind the run (`final` unset) counts as a reference. -/
def lines (final afterReference : Bool) : List Piece → List Char
  | [] => []
  | .entity _ :: rest => lines final true rest
  | .referenced character :: rest => character :: lines final true rest
  | .plain character :: rest =>
      if character = '\r' then
        match rest with
        | [] => [if final && !afterReference then '\n' else '\r']
        | .plain next :: later =>
            if next = '\n' then lines final false (.plain next :: later)
            else '\n' :: lines final false (.plain next :: later)
        | rest => '\r' :: lines final false rest
      else character :: lines final false rest

/-- The character that a value shows for one as written: a space for each kind
of white space. -/
def valueCharacter (character : Char) : Char :=
  if character == '\t' || character == '\n' || character == '\r' then ' ' else character

end Piece

end MorphLex.Xml
