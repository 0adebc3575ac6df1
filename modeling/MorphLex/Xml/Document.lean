import MorphLex.Xml.Draft

/-!
Reading a document: an optional declaration, an optional document type with
entities, and one root element. Names have to match, prefixes to be declared and
references to be defined; the answer for anything else is none.
-/

namespace MorphLex.Xml

namespace Reader

/-- The XML declaration: a version, then optionally an encoding and whether the
document stands alone. -/
def declaration : Reader Unit := do
  expect "<?xml"
  skipSpaces
  require (← startsWith "version")
  setting
  separate
  if ← startsWith "encoding" then
    setting
    separate
  if ← startsWith "standalone" then setting
  skipSpaces
  expect "?>"
where
  setting : Reader Unit := do
    let _ ← qualifiedName
    let _ ← attributeValue
  separate : Reader Unit := do
    if !(← startsWith "?>") then requireSpaces

/-- The identifiers of something outside of the document; false if there are none. -/
def externalId : Reader Bool := do
  if ← startsWith "SYSTEM" then
    expect "SYSTEM"
    requireSpaces
    let _ ← quoted
    return true
  else if ← startsWith "PUBLIC" then
    expect "PUBLIC"
    requireSpaces
    let _ ← quoted
    requireSpaces
    let _ ← quoted
    return true
  else return false

/-- An entity declaration. What lies outside of the document is not kept. -/
def entity : Reader (Option Entity) := do
  expect "<!ENTITY"
  requireSpaces
  let general := !(← startsWith "%")
  if !general then
    expect "%"
    requireSpaces
  let name ← name
  requireSpaces
  let found ← match ← peek? with
    | some '"' | some '\'' => do
        let mark ← quote
        let line := (← get).line
        let value ← takeWhile (· != mark)
        expect (String.singleton mark)
        pure (some { name, value, line : Entity })
    | _ => do
        require (← externalId)
        if general then
          skipSpaces
          if ← startsWith "NDATA" then
            expect "NDATA"
            requireSpaces
            let _ ← Reader.name
        pure none
  skipSpaces
  expect ">"
  return found

def declarations : Nat → List Entity → Reader (List Entity)
  | 0, _ => fail
  | fuel + 1, entities => do
      skipSpaces
      if ← startsWith "<!ENTITY" then
        declarations fuel (entities ++ (← entity).toList)
      else if ← startsWith "<!--" then
        comment
        declarations fuel entities
      else if ← startsWith "<?" then
        instruction
        declarations fuel entities
      else if (← startsWith "<!ELEMENT") || (← startsWith "<!ATTLIST") ||
        (← startsWith "<!NOTATION") then
        let _ ← readUntil ">"
        declarations fuel entities
      else
        expect "]"
        skipSpaces
        expect ">"
        return entities

def doctype (fuel : Nat) : Reader (List Entity) := do
  expect "<!DOCTYPE"
  requireSpaces
  let _ ← name
  skipSpaces
  let _ ← externalId
  skipSpaces
  if ← startsWith "[" then
    expect "["
    declarations fuel []
  else
    expect ">"
    return []

/-- How a tag ends: with an end tag to follow, without one, or not at all before
the text does. -/
inductive TagEnd where
  | opened
  | closed
  | cut
deriving DecidableEq

def attributes :
    Nat → List (QualifiedName × List Char) → Reader (List (QualifiedName × List Char) × TagEnd)
  | 0, found => return (found, .cut)
  | fuel + 1, found => do
      match ← peek? with
      | none => return (found, .cut)
      | some first =>
          skipSpaces
          if ← startsWith "/" then
            expect "/>"
            return (found, .closed)
          else if ← startsWith ">" then
            expect ">"
            return (found, .opened)
          else
            require (isSpace first)
            let name ← qualifiedName
            let value ← attributeValue
            attributes fuel (found ++ [(name, value)])

/-- The text of a section in which markup is not recognised. -/
def literalSection : Reader (List Char) := do
  expect "<![CDATA["
  let text ← readUntil "]]>"
  require (text.all isAllowed)
  return Piece.lines true false (text.map Piece.plain)

/-- Text up to the next tag, in pieces. The end mark of a literal section must
not occur in it. -/
def text (inside : Bool) : Reader (List Piece) := do
  let characters ← takeWhile (· != '<')
  require (characters.all isAllowed && (splitAt? "]]>".toList characters).isNone)
  let pieces ← StateT.lift (Piece.list? characters)
  return if inside then pieces.map Piece.flatten else pieces

/-- Adds the pieces of a text; `run` holds those since the last entity, last one
first. Every run has line ends of its own. -/
def addPieces (entities : List Entity) (expand : Entity → Draft → Option Draft) :
    (run : List Piece) → Draft → List Piece → Option Draft
  | run, draft, [] => some (draft.addText (Piece.lines true false run.reverse))
  | run, draft, .entity name :: rest => do
      let entity ← Entity.find? entities name
      let draft ← expand entity (draft.addText (Piece.lines false false run.reverse))
      addPieces entities expand [] draft rest
  | run, draft, piece :: rest => addPieces entities expand (piece :: run) draft rest

/-- What content is read with: the declared entities, how to put one in place of
a reference, and how deep entities may still be nested. -/
structure Content where
  entities : List Entity
  expand : Entity → Draft → Option Draft
  depth : Nat
  inside : Bool

/-- A start tag. Answers whether content follows. -/
def startTag (content : Content) (fuel : Nat) (draft : Draft) : Reader (Draft × Bool) := do
  let line := (← get).line
  expect "<"
  let tag ← qualifiedName
  require (tag.scope != "xmlns")
  let (written, ending) ← attributes fuel []
  let draft ← StateT.lift
    (draft.addAttributes content.entities content.depth content.inside written)
  match ending with
  | .cut => return (draft, false)
  | .closed => return (← StateT.lift do (← draft.start line tag).finish, false)
  | .opened => return (← StateT.lift (draft.start line tag), true)

def endTag (draft : Draft) : Reader Draft := do
  expect "</"
  let tag ← qualifiedName
  skipSpaces
  expect ">"
  StateT.lift (draft.close tag)

/-- Content up to the end tag that ends the outermost of `levels` elements, or
up to the end of the text. An end tag must not come before all start tags of an
entity; `tagged` tells that there was one. -/
def content (content : Content) : Nat → (levels : Nat) → (tagged : Bool) → Draft → Reader Draft
  | 0, _, _, draft => return draft
  | _, 0, _, draft => return draft
  | fuel + 1, levels + 1, tagged, draft => do
      if ← atEnd then return draft
      else if ← startsWith "<!--" then
        comment
        Reader.content content fuel (levels + 1) tagged (draft.add .comment)
      else if ← startsWith "<![CDATA[" then
        let text ← literalSection
        Reader.content content fuel (levels + 1) tagged (draft.addText text)
      else if ← startsWith "<!" then fail
      else if ← startsWith "<?" then
        instruction
        Reader.content content fuel (levels + 1) tagged (draft.add .instruction)
      else if ← startsWith "</" then
        require tagged
        Reader.content content fuel levels tagged (← endTag draft)
      else if ← startsWith "<" then
        let (draft, opened) ← startTag content fuel draft
        Reader.content content fuel (if opened then levels + 2 else levels + 1) true draft
      else
        let pieces ← text content.inside
        let draft ← StateT.lift (addPieces content.entities content.expand [] draft pieces)
        Reader.content content fuel (levels + 1) tagged draft

/-- Puts the value of an entity in place of a reference. It is read as content
of its own; references count until the outermost entity ends. -/
def expandEntity (entities : List Entity) :
    (depth : Nat) → (inside : Bool) → Entity → Draft → Option Draft
  | 0, _, _, _ => none
  | depth + 1, inside, entity, draft => do
      let references ← Entity.countReference inside draft.references
      let inner : Content :=
        { entities, expand := expandEntity entities depth true, depth, inside := true }
      let (draft, _) ←
        (Reader.content inner (entity.value.length + 1) 1 false { draft with references }).run
        { rest := entity.value, line := entity.line }
      return if inside then draft else { draft with references := 0 }

/-- A whole document. All elements have to be closed and nothing may follow. -/
def document : Reader Element := do
  let fuel := (← get).rest.length + 1
  if ← startsWith "\uFEFF" then expect "\uFEFF"
  if ← startsWith "<?xml " then declaration
  misc fuel
  skipSpaces
  let entities ← if ← startsWith "<!DOCTYPE" then doctype fuel else pure []
  misc fuel
  skipSpaces
  let outer : Content :=
    { entities, expand := expandEntity entities Entity.maxDepth false, depth := Entity.maxDepth,
      inside := false }
  let draft ← if ← startsWith "<" then do
      let (draft, opened) ← startTag outer fuel {}
      if opened then Reader.content outer fuel 1 true draft else pure draft
    else pure {}
  misc fuel
  require ((← atEnd) && draft.opened.isEmpty)
  StateT.lift (draft.outside.reverse.findSome? Node.element?)

end Reader

def parse (text : String) : Option Element :=
  (Reader.document.run { rest := text.toList, line := 1 }).map Prod.fst

end MorphLex.Xml
