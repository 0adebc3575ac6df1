import MorphLex.Number.Power

/-!
Little-endian numbers of a fixed width, and splitting off a fixed count of
bytes. Main statement: reading what was written gives the number back, reduced
to the width (`value_little_endian`).
-/

namespace MorphLex.Bytes

open scoped Power

def littleEndian : Nat → Nat → List UInt8
  | 0, _ => []
  | width + 1, number => UInt8.ofNat (number % 256) :: littleEndian width (number / 256)

def value : List UInt8 → Nat
  | [] => 0
  | byte :: rest => byte.toNat + 256 * value rest

def split? : Nat → List UInt8 → Option (List UInt8 × List UInt8)
  | 0, rest => some ([], rest)
  | _ + 1, [] => none
  | count + 1, byte :: rest => (split? count rest).map fun (front, rest) => (byte :: front, rest)

/-- Zeros that fill up to the next multiple of `unit`. -/
def padding (unit length : Nat) : List UInt8 := List.replicate ((unit - length % unit) % unit) 0

@[simp] theorem length_little_endian (width number : Nat) :
    (littleEndian width number).length = width := by
  induction width generalizing number with
  | zero => rfl
  | succ width ih => simp [littleEndian, ih]

theorem value_little_endian (width number : Nat) :
    value (littleEndian width number) = number % 256 ^ width := by
  induction width generalizing number with
  | zero => simp [littleEndian, value, Nat.mod_one]
  | succ width ih =>
      have byte : (UInt8.ofNat (number % 256)).toNat = number % 256 := by simp
      rw [littleEndian, value, ih, byte, Nat.pow_succ, Nat.mul_comm (256 ^ width) 256, Nat.mod_mul]

theorem value_lt (bytes : List UInt8) : value bytes < 256 ^ bytes.length := by
  induction bytes with
  | nil => decide
  | cons byte rest ih =>
      have bound := byte.toNat_lt
      rw [value, List.length_cons, Nat.pow_succ]
      omega

theorem little_endian_value (bytes : List UInt8) :
    littleEndian bytes.length (value bytes) = bytes := by
  induction bytes with
  | nil => rfl
  | cons byte rest ih =>
      have bound : byte.toNat < 256 := byte.toNat_lt
      have low : (byte.toNat + 256 * value rest) % 256 = byte.toNat := by omega
      have high : (byte.toNat + 256 * value rest) / 256 = value rest := by omega
      rw [List.length_cons, value, littleEndian, low, high, ih, UInt8.ofNat_toNat]

theorem split_append (front rest : List UInt8) :
    split? front.length (front ++ rest) = some (front, rest) := by
  induction front with
  | nil => rfl
  | cons byte front ih => simp [split?, ih]

theorem split_eq_some_iff {count : Nat} {bytes front rest : List UInt8} :
    split? count bytes = some (front, rest) ↔ front.length = count ∧ bytes = front ++ rest := by
  constructor
  · intro split
    induction count generalizing bytes front with
    | zero =>
        obtain ⟨rfl, rfl⟩ := Prod.mk.inj (Option.some.inj split)
        exact ⟨rfl, rfl⟩
    | succ count ih =>
        cases bytes with
        | nil => cases split
        | cons byte bytes =>
            obtain ⟨⟨front, rest⟩, later, same⟩ := Option.map_eq_some_iff.mp split
            obtain ⟨rfl, rfl⟩ := Prod.mk.inj same
            obtain ⟨length, rfl⟩ := ih later
            exact ⟨by rw [List.length_cons, length], rfl⟩
  · rintro ⟨rfl, rfl⟩
    exact split_append front rest

end MorphLex.Bytes
