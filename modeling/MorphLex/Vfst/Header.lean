import MorphLex.Bytes.LittleEndian
import MorphLex.Vfst.Fault

/-!
The 16 bytes in front of the symbol table: two cookies, the weighted flag, and
reserved zeros.
-/

namespace MorphLex.Vfst

structure Header where
  weighted : Bool
deriving DecidableEq

namespace Header

def size : Nat := 16

/-- The cookies 0x00013A6E and 0x000351FA, lowest byte first. -/
def magic : List UInt8 := [0x6E, 0x3A, 0x01, 0x00, 0xFA, 0x51, 0x03, 0x00]

def encode (header : Header) : List UInt8 :=
  magic ++ [if header.weighted then 1 else 0] ++ List.replicate 7 0

/-- Reads the header at the front; the flag is set by the byte 1 alone, and the
reserved bytes may hold anything. -/
def decode (bytes : List UInt8) : Except Fault Header :=
  if bytes.length < size then .error (.tooShort size bytes.length)
  else if bytes.take magic.length ≠ magic then .error .badMagic
  else .ok { weighted := bytes[magic.length]? == some 1 }

theorem length_encode (header : Header) : header.encode.length = size := by
  simp [encode, magic, size]

theorem decode_encode (header : Header) (rest : List UInt8) :
    decode (header.encode ++ rest) = .ok header := by
  obtain ⟨weighted⟩ := header
  cases weighted <;> simp [decode, encode, magic, size]

end Header

end MorphLex.Vfst
