import Std.Data.HashMap
import MorphLex.Bytes.LittleEndian
import MorphLex.Transducer.Basic
import MorphLex.Vfst.Fault

/-!
The symbol table of a VFST file: a 16-bit count and that many texts, each ended
by a zero byte. Text 0 is empty and stands for epsilon.
-/

namespace MorphLex.Vfst

/-- The texts by index; the empty text at index 0 is epsilon. -/
structure SymbolTable where
  strings : Array String
deriving DecidableEq

namespace SymbolTable

/-- Epsilon, the single characters of a transducer, then its longer symbols,
both in code point order. -/
def ofTransducer (t : Transducer) : SymbolTable :=
  let symbols := t.symbols
  let singles := symbols.filter fun symbol => !Symbol.isMultichar symbol
  ⟨("" :: singles ++ symbols.filter Symbol.isMultichar).toArray⟩

def size (table : SymbolTable) : Nat := table.strings.size

/-- The index of the first longer symbol; the size if there is none. -/
def firstMultichar (table : SymbolTable) : Nat := table.strings.findIdx Symbol.isMultichar

/-- The index of every symbol. Where a text occurs twice the later index holds,
also for a text that spells epsilon. -/
def index (table : SymbolTable) : Std.HashMap Symbol Nat :=
  (table.strings.toList.zipIdx.drop 1).foldl
    (fun index (symbol, number) => index.insert symbol number)
    ((∅ : Std.HashMap Symbol Nat).insert Symbol.epsilon 0)

def indexOf? (table : SymbolTable) (symbol : Symbol) : Option Nat := table.index[symbol]?

def symbol? (table : SymbolTable) (index : Nat) : Option Symbol :=
  if index = 0 then some Symbol.epsilon else table.strings[index]?

def maxSize : Nat := 65535

def encodeStrings (strings : List String) : List UInt8 :=
  strings.flatMap fun text => text.toByteArray.toList ++ [0]

def encode (table : SymbolTable) : Except Fault (List UInt8) :=
  if maxSize < table.size then .error (.tooManySymbols table.size)
  else .ok (Bytes.littleEndian 2 table.size ++ encodeStrings table.strings.toList)

/-- The text of one entry: text 0 is empty, and no other is. -/
def stringOf (index : Nat) (bytes : List UInt8) : Except Fault String :=
  if index = 0 then
    if bytes.isEmpty then .ok "" else .error (.symbols .namedEpsilon)
  else match String.fromUTF8? ⟨bytes.toArray⟩ with
    | none => .error (.symbols (.notText index))
    | some text => if text.isEmpty then .error (.symbols (.blank index)) else .ok text

/-- Reads `count` texts, the first with the given index, and the bytes after them. -/
def decodeStrings : Nat → Nat → List UInt8 → Except Fault (List String × List UInt8)
  | 0, _, bytes => .ok ([], bytes)
  | count + 1, index, bytes =>
      match bytes.dropWhile (· != 0) with
      | [] => .error (.symbols .unterminated)
      | _ :: rest => do
          let text ← stringOf index (bytes.takeWhile (· != 0))
          let (texts, rest) ← decodeStrings count (index + 1) rest
          return (text :: texts, rest)

/-- Reads the table at an offset and returns the offset after it. -/
def decode (bytes : List UInt8) (offset : Nat) : Except Fault (SymbolTable × Nat) :=
  match Bytes.split? 2 (bytes.drop offset) with
  | none => .error (.tooShort (offset + 2) bytes.length)
  | some (count, rest) => do
      let (strings, rest) ← decodeStrings (Bytes.value count) 0 rest
      return (⟨strings.toArray⟩, bytes.length - rest.length)

end SymbolTable

end MorphLex.Vfst
