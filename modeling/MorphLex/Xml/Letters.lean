/-!
The character classes of XML 1.0: characters a document may contain, white
space, and the characters of names.
-/

namespace MorphLex.Xml

def isSpace (character : Char) : Bool :=
  character == ' ' || character == '\t' || character == '\n' || character == '\r'

/-- Characters that a document may contain: no other control characters below
the space, and not the last two code points of the first plane. -/
def isAllowed (character : Char) : Bool :=
  if character.toNat < 0x20 then isSpace character
  else character.toNat != 0xFFFE && character.toNat != 0xFFFF

/-- Code points beyond ASCII that may begin a name, as closed ranges. -/
def nameStartRanges : List (Nat × Nat) :=
  [(0xC0, 0xD6), (0xD8, 0xF6), (0xF8, 0x2FF), (0x370, 0x37D), (0x37F, 0x1FFF), (0x200C, 0x200D),
   (0x2070, 0x218F), (0x2C00, 0x2FEF), (0x3001, 0xD7FF), (0xF900, 0xFDCF), (0xFDF0, 0xFFFD),
   (0x10000, 0xEFFFF)]

def nameInnerRanges : List (Nat × Nat) := [(0xB7, 0xB7), (0x300, 0x36F), (0x203F, 0x2040)]

def inRanges (ranges : List (Nat × Nat)) (character : Char) : Bool :=
  ranges.any fun (low, high) => low ≤ character.toNat && character.toNat ≤ high

def isNameStart (character : Char) : Bool :=
  character.isAlpha || character == ':' || character == '_' || inRanges nameStartRanges character

def isNameCharacter (character : Char) : Bool :=
  isNameStart character || character.isDigit || character == '-' || character == '.' ||
    inRanges nameInnerRanges character

def isName : List Char → Bool
  | [] => false
  | first :: rest => isNameStart first && rest.all isNameCharacter

end MorphLex.Xml
