/-!
XML trees, as far as a dictionary looks at them: local names of elements,
attributes without a prefix, the line of each start tag, and content in order.
-/

namespace MorphLex.Xml

mutual

/-- A piece of content. What comments and processing instructions say is not kept. -/
inductive Node where
  | element (element : Element)
  | text (content : String)
  | comment
  | instruction

structure Element where
  name : String
  attributes : List (String × String)
  line : Nat
  children : List Node

end

instance : Inhabited Element := ⟨⟨"", [], 1, []⟩⟩

namespace Node

def element? : Node → Option Element
  | .element inner => some inner
  | _ => none

def characters : Node → List Char
  | .text content => content.toList
  | _ => []

end Node

namespace Element

/-- The value of an attribute; an absent one is empty. -/
def attr (element : Element) (name : String) : String := (element.attributes.lookup name).getD ""

/-- The element children; text, comments and instructions are passed over. -/
def elements (element : Element) : List Element := element.children.filterMap Node.element?

def characters (element : Element) : List Char := element.children.flatMap Node.characters

end Element

end MorphLex.Xml
