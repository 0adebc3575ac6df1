import MorphLex.Dictionary.Fault
import MorphLex.Dictionary.Options
import MorphLex.Symbol
import MorphLex.Xml.Node

/-!
Inline markup of entries as symbols. Text gives one symbol for each character,
each tag a symbol of its own, and a group a boundary before its content.
-/

namespace MorphLex.Dictionary

inductive Markup where
  | tilde
  | blank
  | group
  | join
  | boundary
  | tag
  | anyTag
  | anyChar
deriving DecidableEq

namespace Markup

/-- The tag that an element name stands for; the wildcards in a separable
dictionary only. -/
def ofName? (mode : Mode) : String → Option Markup
  | "a" => some .tilde
  | "b" => some .blank
  | "g" => some .group
  | "j" => some .join
  | "m" => some .boundary
  | "s" => some .tag
  | "t" => if mode = .separable then some .anyTag else none
  | "w" => if mode = .separable then some .anyChar else none
  | _ => none

end Markup

structure Spelling where
  mode : Mode
  keepBoundaries : Bool
deriving DecidableEq

namespace Spelling

def groupSymbol : Symbol := "#"

def markup (spelling : Spelling) (name : String) (inner : List Symbol) : Markup → List Symbol
  | .tilde => ["~"]
  | .blank => [" "]
  | .group => groupSymbol :: inner
  | .join => match spelling.mode with
      | .standard => ["+"]
      | .separable => ["<$>"]
  | .boundary => if spelling.keepBoundaries then [">"] else []
  | .tag => ["<" ++ name ++ ">"]
  | .anyTag => [Symbol.anyTag]
  | .anyChar => [Symbol.anyChar]

mutual

/-- The symbols of a text or a tag. Only groups are looked into. -/
def node (spelling : Spelling) : Xml.Node → Except Fault (List Symbol)
  | .element inner => spelling.element inner
  | .text content => .ok (content.toList.map Symbol.ofChar)
  | .comment => .ok []
  | .instruction => .ok []

def element (spelling : Spelling) : Xml.Element → Except Fault (List Symbol)
  | ⟨name, attributes, line, children⟩ =>
      match Markup.ofName? spelling.mode name with
      | none => .error (.unexpectedElement name line)
      | some .group => do return spelling.markup "" (← spelling.content children) .group
      | some markup => .ok (spelling.markup ((attributes.lookup "n").getD "") [] markup)

def content (spelling : Spelling) : List Xml.Node → Except Fault (List Symbol)
  | [] => .ok []
  | first :: rest => do
      let front ← spelling.node first
      return front ++ (← spelling.content rest)

end

end Spelling

end MorphLex.Dictionary
