import Mathlib
import MorphLex.Weight

/-!
Adding zero to a weight changes it only if it is the negative zero. Weights are
compared and merged by their keys, which is to say with the negative zero read as
zero.
-/

open Float.Model Float.Model.UnpackedFloat

namespace MorphLex.Weight

theorem pack_unpack (model : Float.Model) : Float.Model.pack model.unpack = model := by
  obtain ⟨bits, valid⟩ := model
  simp only [Float.Model.pack, Float.Model.unpack]
  congr 1
  rw [pack_unpack_of_valid valid]

theorem beq_zero_iff (weight : Weight) : (weight == 0.0) = true ↔ weight = 0.0 ∨ weight = -0.0 := by
  rw [Float.beq_iff_ne_nan_and_eq]
  constructor
  · rintro ⟨_, _, zero | ⟨_, signed⟩ | ⟨negative, _⟩⟩
    · exact .inl zero
    · exact absurd signed (by decide)
    · exact .inr negative
  · rintro (rfl | rfl)
    · exact ⟨by decide, by decide, .inl rfl⟩
    · exact ⟨by decide, by decide, .inr (.inr ⟨rfl, rfl⟩)⟩

theorem unpack_of_zero {weight : Weight} (zero : (weight == 0.0) = true) :
    ∃ sign, weight.toModel.unpack = .zero sign := by
  rcases (beq_zero_iff weight).mp zero with rfl | rfl
  · exact ⟨.positive, rfl⟩
  · exact ⟨.negative, rfl⟩

theorem unpack_of_nonzero {weight : Weight} (nonzero : ¬(weight == 0.0) = true) (sign : Sign) :
    weight.toModel.unpack ≠ .zero sign := by
  intro shape
  apply nonzero
  rw [beq_zero_iff]
  obtain ⟨model⟩ := weight
  rw [← pack_unpack model]
  simp only at shape
  rw [shape]
  cases sign with
  | negative => exact .inr rfl
  | positive => exact .inl rfl

/-- A zero of either sign is neutral for every other weight. -/
theorem add_zero_of_nonzero {weight zero : Weight} (nonzero : ¬(weight == 0.0) = true)
    (isZero : (zero == 0.0) = true) :
    weight + zero = weight ∧ zero + weight = weight := by
  obtain ⟨sign, shape⟩ := unpack_of_zero isZero
  have apart := unpack_of_nonzero nonzero
  have right :
      UnpackedFloat.add .binary64 weight.toModel.unpack (.zero sign) = weight.toModel.unpack := by
    cases unpacked : weight.toModel.unpack with
    | zero side => exact absurd unpacked (apart side)
    | infinity sign => rfl
    | notANumber => rfl
    | finite sign => rfl
  have left :
      UnpackedFloat.add .binary64 (.zero sign) weight.toModel.unpack = weight.toModel.unpack := by
    cases unpacked : weight.toModel.unpack with
    | zero side => exact absurd unpacked (apart side)
    | infinity sign => rfl
    | notANumber => rfl
    | finite sign => rfl
  have sum (first second : Weight) : first + second =
      ⟨Float.Model.pack (UnpackedFloat.add .binary64 first.toModel.unpack second.toModel.unpack)⟩ :=
        rfl
  rw [sum, sum, shape, right, left, pack_unpack]
  exact ⟨rfl, rfl⟩

/-- The weight with negative zero read as zero. -/
def plain (weight : Weight) : Weight := if weight == 0.0 then 0.0 else weight

theorem add_zero_eq_plain (weight : Weight) : weight + 0.0 = weight.plain := by
  rw [plain]
  split
  · next zero => rcases (beq_zero_iff weight).mp zero with rfl | rfl <;> decide
  · next nonzero => exact (add_zero_of_nonzero nonzero (by decide)).1

theorem of_key_key (weight : Weight) : ofKey weight.key = weight.plain := by
  rw [ofKey, key, Float.ofBits_toBits, add_zero_eq_plain]

theorem key_eq_iff (first second : Weight) :
    first.key = second.key ↔ first.plain = second.plain := by
  rw [key, key, Float.toBits_inj, add_zero_eq_plain, add_zero_eq_plain]

theorem plain_eq_zero_iff (weight : Weight) : weight.plain = 0.0 ↔ (weight == 0.0) = true := by
  rw [plain]
  split
  · next zero => exact iff_of_true rfl zero
  · next nonzero =>
    apply iff_of_false _ nonzero
    rintro rfl
    exact nonzero (by decide)

@[simp] theorem plain_zero : plain 0.0 = 0.0 := by decide

theorem plain_of_zero {weight : Weight} (zero : (weight == 0.0) = true) : weight.plain = 0.0 :=
  if_pos zero

theorem plain_of_nonzero {weight : Weight} (nonzero : ¬(weight == 0.0) = true) :
    weight.plain = weight := if_neg nonzero

@[simp] theorem plain_plain (weight : Weight) : weight.plain.plain = weight.plain := by
  by_cases zero : (weight == 0.0) = true
  · rw [plain_of_zero zero, plain_zero]
  · rw [plain_of_nonzero zero, plain_of_nonzero zero]

/-- The sign of a zero is of no account in a sum. -/
theorem plain_add (first second : Weight) :
    (first + second).plain = (first.plain + second.plain).plain := by
  by_cases firstZero : (first == 0.0) = true
  · rw [plain_of_zero firstZero]
    by_cases secondZero : (second == 0.0) = true
    · rw [plain_of_zero secondZero]
      rcases (beq_zero_iff first).mp firstZero with rfl | rfl <;>
        rcases (beq_zero_iff second).mp secondZero with rfl | rfl <;> decide
    · rw [plain_of_nonzero secondZero, (add_zero_of_nonzero secondZero firstZero).2,
        (add_zero_of_nonzero secondZero (by decide)).2]
  · rw [plain_of_nonzero firstZero]
    by_cases secondZero : (second == 0.0) = true
    · rw [plain_of_zero secondZero, (add_zero_of_nonzero firstZero secondZero).1,
        (add_zero_of_nonzero firstZero (by decide)).1]
    · rw [plain_of_nonzero secondZero]

end MorphLex.Weight
