import MorphLex.Xml.Letters

/-!
The text of a document being read, with the line of the next character, and the
small lexical units that everything else is made of. A reader that fails has
met a text that is not well-formed.
-/

namespace MorphLex.Xml

/-- What is still to be read. Lines are counted from 1 and end with a line feed. -/
structure Source where
  rest : List Char
  line : Nat

abbrev Reader := StateT Source Option

/-- A name as written: the part before the colon, empty if there is none, and
the local part. -/
structure QualifiedName where
  scope : String
  name : String
deriving DecidableEq

/-- Splits a text at the first place where a mark begins; the mark is dropped. -/
def splitAt? (mark : List Char) : List Char → Option (List Char × List Char)
  | [] => none
  | first :: rest =>
      if mark.isPrefixOf (first :: rest) then some ([], (first :: rest).drop mark.length)
      else (splitAt? mark rest).map fun (front, back) => (first :: front, back)

namespace Source

def behind (source : Source) (front rest : List Char) : Source :=
  { rest, line := source.line + front.count '\n' }

end Source

namespace Reader

def fail {Value : Type} : Reader Value := fun _ => none

def require (condition : Bool) : Reader Unit := if condition then pure () else fail

def peek? : Reader (Option Char) := return (← get).rest.head?

def atEnd : Reader Bool := return (← get).rest.isEmpty

def startsWith (mark : String) : Reader Bool := return mark.toList.isPrefixOf (← get).rest

def takeWhile (keep : Char → Bool) : Reader (List Char) := fun source =>
  let front := source.rest.takeWhile keep
  some (front, source.behind front (source.rest.dropWhile keep))

def expect (mark : String) : Reader Unit := fun source =>
  let characters := mark.toList
  if characters.isPrefixOf source.rest then
    some ((), source.behind characters (source.rest.drop characters.length))
  else none

def readUntil (mark : String) : Reader (List Char) := fun source =>
  (splitAt? mark.toList source.rest).map fun (front, rest) =>
    (front, source.behind (front ++ mark.toList) rest)

def skipSpaces : Reader Unit := do
  let _ ← takeWhile isSpace

def requireSpaces : Reader Unit := do
  let spaces ← takeWhile isSpace
  require !spaces.isEmpty

def name : Reader String := do
  let characters ← takeWhile isNameCharacter
  require (isName characters)
  return String.ofList characters

/-- A name with at most one colon; both parts have to be names. -/
def qualifiedName : Reader QualifiedName := do
  let characters ← takeWhile isNameCharacter
  let front := characters.takeWhile (· != ':')
  match characters.dropWhile (· != ':') with
  | [] =>
      require (isName front)
      return { scope := "", name := String.ofList front }
  | _ :: back =>
      require (isName back && !back.contains ':')
      require (front.isEmpty || isName front)
      return { scope := String.ofList front, name := String.ofList back }

def quote : Reader Char := do
  match ← peek? with
  | some '"' => expect "\""; return '"'
  | some '\'' => expect "'"; return '\''
  | _ => fail

/-- A quoted text, in which anything may stand but the quotation mark. -/
def quoted : Reader (List Char) := do
  let mark ← quote
  let characters ← takeWhile (· != mark)
  expect (String.singleton mark)
  return characters

/-- An equals sign and the value of an attribute, references not resolved. -/
def attributeValue : Reader (List Char) := do
  skipSpaces
  expect "="
  skipSpaces
  let mark ← quote
  let characters ← takeWhile fun character => character != mark && character != '<'
  require (characters.all isAllowed)
  expect (String.singleton mark)
  return characters

/-- A comment: no two hyphens inside, and none at its end. -/
def comment : Reader Unit := do
  expect "<!--"
  let text ← readUntil "-->"
  require (text.all isAllowed)
  require ((splitAt? ['-', '-'] text).isNone && text.getLast? != some '-')

/-- A processing instruction. The XML declaration is none. -/
def instruction : Reader Unit := do
  require !(← startsWith "<?xml ")
  expect "<?"
  let _ ← name
  let text ← readUntil "?>"
  require (text.all isAllowed)

def misc : Nat → Reader Unit
  | 0 => pure ()
  | fuel + 1 => do
      skipSpaces
      if ← startsWith "<!--" then
        comment
        misc fuel
      else if ← startsWith "<?" then
        instruction
        misc fuel

end Reader

end MorphLex.Xml
