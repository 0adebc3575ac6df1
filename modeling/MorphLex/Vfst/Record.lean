import MorphLex.Bytes.LittleEndian

/-!
Records of the transition table, 16 bytes each. Every state owns a run of them;
the first record of a run tells how many follow.
-/

namespace MorphLex.Vfst

/-- A transition, a final marker or an overflow cell. `more` counts the further
records of the run and has a meaning on its first record only. -/
structure Record where
  input : UInt32
  output : UInt32
  target : UInt32
  weight : Int16
  more : UInt8
deriving DecidableEq, Inhabited

namespace Record

def size : Nat := 16

/-- The input index that marks a record as the final weight of its state. -/
def finalInput : UInt32 := 0xFFFFFFFF

def overflowMark : UInt8 := 255

/-- The most further records that `more` can count. -/
def maxInline : Nat := 254

def arc (input output target : UInt32) (weight : Int16) : Record :=
  { input, output, target, weight, more := 0 }

def finalMarker (weight : Int16) : Record := arc finalInput 0 0 weight

/-- The second record of a long run: its first field counts the further records. -/
def overflowCell (count : UInt32) : Record := arc count 0 0 0

def isFinalMarker (record : Record) : Bool := record.input == finalInput

def compareArcs : Record → Record → Ordering :=
  compareLex (compareOn Record.input) <| compareLex (compareOn Record.output) <|
    compareLex (compareOn Record.target) (compareOn Record.weight)

/-- Four fields, lowest byte first, then `more` and a reserved byte. -/
def encode (record : Record) : List UInt8 :=
  Bytes.littleEndian 4 record.input.toNat ++ Bytes.littleEndian 4 record.output.toNat ++
    Bytes.littleEndian 4 record.target.toNat ++ Bytes.littleEndian 2 record.weight.toUInt16.toNat ++
    [record.more, 0]

def ofBytes (bytes : List UInt8) : Record where
  input := UInt32.ofNat (Bytes.value (bytes.take 4))
  output := UInt32.ofNat (Bytes.value ((bytes.drop 4).take 4))
  target := UInt32.ofNat (Bytes.value ((bytes.drop 8).take 4))
  weight := (UInt16.ofNat (Bytes.value ((bytes.drop 12).take 2))).toInt16
  more := (bytes.drop 14).headD 0

/-- The records that `count` times 16 bytes spell; fewer if the bytes run out. -/
def decodeMany : Nat → List UInt8 → List Record
  | 0, _ => []
  | count + 1, bytes =>
      match Bytes.split? size bytes with
      | some (front, rest) => ofBytes front :: decodeMany count rest
      | none => []

/-- A whole table; a rest shorter than a record is left aside. -/
def decodeTable (bytes : List UInt8) : Array Record :=
  (decodeMany (bytes.length / size) bytes).toArray

/-- The offset of the last record of the run that begins at a slot, in 32-bit
arithmetic. A long run counts the overflow cell too. -/
def lastOffset (table : Array Record) (slot : Nat) : UInt32 :=
  let head := table.getD slot default
  if head.more = overflowMark then (table.getD (slot + 1) default).input + 1
  else head.more.toUInt32

theorem length_encode (record : Record) : record.encode.length = size := by
  simp [encode, size]

theorem of_bytes_encode (record : Record) : ofBytes record.encode = record := by
  obtain ⟨input, output, target, weight, more⟩ := record
  have drop_four (number : Nat) (rest : List UInt8) :
      (Bytes.littleEndian 4 number ++ rest).drop 4 = rest := List.drop_left' (by simp)
  have take_four (number : Nat) (rest : List UInt8) :
      (Bytes.littleEndian 4 number ++ rest).take 4 = Bytes.littleEndian 4 number :=
        List.take_left' (by simp)
  have drop_two (number : Nat) (rest : List UInt8) :
      (Bytes.littleEndian 2 number ++ rest).drop 2 = rest := List.drop_left' (by simp)
  have take_two (number : Nat) (rest : List UInt8) :
      (Bytes.littleEndian 2 number ++ rest).take 2 = Bytes.littleEndian 2 number :=
        List.take_left' (by simp)
  simp only [ofBytes, encode, List.append_assoc]
  rw [show (14 : Nat) = 4 + (4 + (4 + 2)) by rfl, show (12 : Nat) = 4 + (4 + 4) by rfl,
    show (8 : Nat) = 4 + 4 by rfl]
  simp only [← List.drop_drop, drop_four, take_four, drop_two, take_two, Bytes.value_little_endian]
  simp

end Record

end MorphLex.Vfst
