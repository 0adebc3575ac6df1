import MorphLex.Xml.Node
import MorphLex.Xml.Reference
import MorphLex.Xml.Source

/-!
A tree under construction: the elements still open, the start tag being read,
the namespaces in force, and the entities that references stand for.
-/

namespace MorphLex.Xml

/-- A declared entity: its value as written, and the line where the value begins. -/
structure Entity where
  name : String
  value : List Char
  line : Nat

namespace Entity

/-- Entities may be nested this deep. -/
def maxDepth : Nat := 10

/-- References that may be met before the outermost entity ends. -/
def maxReferences : Nat := 255

/-- The entity of a name; of two declarations the first one holds. -/
def find? (entities : List Entity) (name : String) : Option Entity :=
  entities.find? fun entity => entity.name == name

/-- Counts a reference, unless it stands outside of all entities. -/
def countReference (inside : Bool) (references : Nat) : Option Nat :=
  if !inside then some references
  else if references < maxReferences then some (references + 1)
  else none

/-- The characters that the pieces of an attribute value stand for, and the
references counted so far. White space as written becomes spaces, a carriage
return in front of a line feed nothing. Within an entity a less-than sign may
stand as written, but no reference may name it. -/
def spellValue (expand : String → Nat → Option (List Char × Nat)) (inside : Bool) :
    Nat → List Piece → Option (List Char × Nat)
  | references, [] => some ([], references)
  | references, .plain character :: rest =>
      (spellValue expand inside references rest).map fun (back, references) =>
        if character = '\r' && rest.head? = some (.plain '\n') then (back, references)
        else (Piece.valueCharacter character :: back, references)
  | references, .referenced character :: rest =>
      if inside && character = '<' then none
      else (spellValue expand inside references rest).map fun (back, references) =>
        ((if inside then Piece.valueCharacter character else character) :: back, references)
  | references, .entity name :: rest => do
      let (front, references) ← expand name references
      let (back, references) ← spellValue expand inside references rest
      return (front ++ back, references)

/-- The characters of an attribute value. `depth` bounds the nesting of entities
and `inside` is set within one; the count of references starts again behind an
outermost entity. -/
def valueCharacters (entities : List Entity) :
    (depth : Nat) → (inside : Bool) → Nat → List Char → Option (List Char × Nat)
  | 0, inside, references, text => do
      spellValue (fun _ _ => none) inside references (← Piece.list? text)
  | depth + 1, inside, references, text => do
      let expand (name : String) (references : Nat) : Option (List Char × Nat) := do
        let entity ← find? entities name
        let references ← countReference inside references
        let (value, references) ← valueCharacters entities depth true references entity.value
        return (value, if inside then references else 0)
      spellValue expand inside references (← Piece.list? text)

end Entity

/-- An element whose end tag is still to come. Its children are collected last
one first; namespaces are pairs of a prefix and what it stands for. -/
structure OpenElement where
  tag : QualifiedName
  attributes : List (String × String)
  line : Nat
  namespaces : List (String × String)
  children : List Node

/-- The open elements, innermost first, and the nodes outside of them; the
namespaces and attributes of a start tag that has not ended; and the references
met within entities. -/
structure Draft where
  opened : List OpenElement := []
  outside : List Node := []
  declared : List (String × String) := []
  written : List (QualifiedName × String) := []
  references : Nat := 0

/-- The namespace of the prefix `xml`, which needs no declaration. -/
def xmlNamespace : String := "http://www.w3.org/XML/1998/namespace"

/-- The namespace of declarations, which cannot be declared. -/
def declarationNamespace : String := "http://www.w3.org/2000/xmlns/"

/-- The namespace and local name of an attribute; without a prefix it has no
namespace. None for a prefix that is not declared. -/
def QualifiedName.expand? (namespaces : List (String × String)) (name : QualifiedName) :
    Option (Option String × String) :=
  if name.scope.isEmpty then some (none, name.name)
  else if name.scope == "xml" then some (some xmlNamespace, name.name)
  else (namespaces.lookup name.scope).map fun space => (some space, name.name)

namespace Draft

def add (draft : Draft) (node : Node) : Draft :=
  match draft.opened with
  | [] => { draft with outside := node :: draft.outside }
  | inner :: outer =>
      { draft with opened := { inner with children := node :: inner.children } :: outer }

def addText (draft : Draft) (characters : List Char) : Draft :=
  if characters.isEmpty then draft else draft.add (.text (String.ofList characters))

def namespaces (draft : Draft) : List (String × String) :=
  match draft.opened with
  | [] => draft.declared
  | inner :: _ => draft.declared ++ inner.namespaces

/-- Adds an attribute to the start tag being read, or the namespace it declares. -/
def addAttribute (draft : Draft) (name : QualifiedName) (value : String) : Option Draft :=
  if name.scope == "xmlns" then
    if value == declarationNamespace || (name.name == "xml") != (value == xmlNamespace) then none
    else if (draft.declared.lookup name.name).isSome then none
    else if value == xmlNamespace then some draft
    else some { draft with declared := (name.name, value) :: draft.declared }
  else if name.name == "xmlns" then
    if value == xmlNamespace || value == declarationNamespace then none else some draft
  else some { draft with written := draft.written ++ [(name, value)] }

def addAttributes (draft : Draft) (entities : List Entity) (depth : Nat) (inside : Bool)
    (attributes : List (QualifiedName × List Char)) : Option Draft :=
  attributes.foldlM (fun draft (name, text) => do
    let (value, references) ← Entity.valueCharacters entities depth inside draft.references text
    { draft with references }.addAttribute name (String.ofList value)) draft

/-- Ends the tag being read; returns its attributes without a prefix. Prefixes
have to be declared and no attribute may occur twice. -/
def endTag (draft : Draft) : Option (Draft × List (String × String)) := do
  let expanded ← draft.written.mapM fun (name, _) => name.expand? draft.namespaces
  if expanded.eraseDups.length < expanded.length then none
  let attributes :=
    (draft.written.filter fun (name, _) => name.scope.isEmpty).map fun (name, value) =>
    (name.name, value)
  return ({ draft with declared := [], written := [] }, attributes)

def start (draft : Draft) (line : Nat) (tag : QualifiedName) : Option Draft := do
  let namespaces := draft.namespaces
  let (draft, attributes) ← draft.endTag
  if !tag.scope.isEmpty && (namespaces.lookup tag.scope).isNone then none
  return { draft with opened := { tag, attributes, line, namespaces, children := [] } ::
    draft.opened }

def finish (draft : Draft) : Option Draft :=
  match draft.opened with
  | [] => none
  | inner :: outer =>
      some ({ draft with opened := outer }.add (.element
        { name := inner.tag.name, attributes := inner.attributes, line := inner.line
          children := inner.children.reverse }))

/-- Ends the innermost element by an end tag, which has to spell the same name. -/
def close (draft : Draft) (tag : QualifiedName) : Option Draft := do
  let (draft, _) ← draft.endTag
  let inner ← draft.opened.head?
  if inner.tag = tag then draft.finish else none

end Draft

end MorphLex.Xml
