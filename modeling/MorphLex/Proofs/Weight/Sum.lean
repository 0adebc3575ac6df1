import MorphLex.Proofs.Weight.Order

/-!
Sums of weights. A sum is the exact one rounded to the nearest weight, a half going
to the even neighbour; rounding keeps the order, and so does adding the same weight
on both sides.
-/

open Float.Model Float.Model.UnpackedFloat

namespace MorphLex.Weight

/-- The number over the power of two, rounded to a whole one, a half to the even. -/
def nearest (number shift : Nat) : Nat :=
  if 2 * (number % 2 ^ shift) < 2 ^ shift then number / 2 ^ shift
  else if 2 * (number % 2 ^ shift) = 2 ^ shift then number / 2 ^ shift + number / 2 ^ shift % 2
  else number / 2 ^ shift + 1

theorem nearest_mono {number larger : Nat} (shift : Nat) (le : number ≤ larger) :
    nearest number shift ≤ nearest larger shift := by
  have quotients : number / 2 ^ shift ≤ larger / 2 ^ shift := Nat.div_le_div_right le
  have division := Nat.div_add_mod number (2 ^ shift)
  have other := Nat.div_add_mod larger (2 ^ shift)
  unfold nearest
  rcases Nat.eq_or_lt_of_le quotients with same | less
  · have rests : number % 2 ^ shift ≤ larger % 2 ^ shift := by rw [same] at division; omega
    rw [same]
    grind
  · grind

theorem nearest_mul_two_pow (number shift power : Nat) :
    nearest (number * 2 ^ power) (shift + power) = nearest number shift := by
  have scale : 0 < 2 ^ power := Nat.two_pow_pos power
  rw [nearest, nearest, pow_add, Nat.mul_div_mul_right _ _ scale, Nat.mul_mod_mul_right,
    ← Nat.mul_assoc]
  simp only [Nat.mul_lt_mul_right scale, Nat.mul_left_inj scale.ne']

theorem nearest_zero (number : Nat) : nearest number 0 = number := by
  simp [nearest, Nat.mod_one]

theorem nearest_exact (number power : Nat) : nearest (number * 2 ^ power) power = number := by
  have exactly := nearest_mul_two_pow number 0 power
  rwa [Nat.zero_add, nearest_zero] at exactly

/-- A number rounded to 53 binary digits. -/
def shortened (number : Nat) : Nat := nearest number (number.log2 - 52) * 2 ^ (number.log2 - 52)

theorem nearest_two_pow {power shift : Nat} (le : shift ≤ power) :
    nearest (2 ^ power) shift = 2 ^ (power - shift) := by
  have exactly := nearest_exact (2 ^ (power - shift)) shift
  rwa [← pow_add, Nat.sub_add_cancel le] at exactly

theorem shortened_le_two_pow (number : Nat) : shortened number ≤ 2 ^ (number.log2 + 1) := by
  have le : nearest number (number.log2 - 52) ≤ 2 ^ (number.log2 + 1 - (number.log2 - 52)) := by
    rw [← nearest_two_pow (by omega)]
    exact nearest_mono _ Nat.lt_log2_self.le
  calc shortened number ≤ 2 ^ (number.log2 + 1 - (number.log2 - 52)) * 2 ^ (number.log2 - 52) :=
        Nat.mul_le_mul_right _ le
    _ = 2 ^ (number.log2 + 1) := by rw [← pow_add, Nat.sub_add_cancel (by omega)]

theorem two_pow_le_shortened {number : Nat} (nonzero : number ≠ 0) :
    2 ^ number.log2 ≤ shortened number := by
  have le : 2 ^ (number.log2 - (number.log2 - 52)) ≤ nearest number (number.log2 - 52) := by
    rw [← nearest_two_pow (Nat.sub_le _ _)]
    exact nearest_mono _ (Nat.log2_self_le nonzero)
  calc 2 ^ number.log2 = 2 ^ (number.log2 - (number.log2 - 52)) * 2 ^ (number.log2 - 52) := by
        rw [← pow_add, Nat.sub_add_cancel (Nat.sub_le _ _)]
    _ ≤ shortened number := Nat.mul_le_mul_right _ le

theorem shortened_zero : shortened 0 = 0 := by decide

theorem shortened_mono {number larger : Nat} (le : number ≤ larger) :
    shortened number ≤ shortened larger := by
  rcases Nat.eq_zero_or_pos number with rfl | positive
  · rw [shortened_zero]
    exact Nat.zero_le _
  have nonzero : larger ≠ 0 := by omega
  have logs : number.log2 ≤ larger.log2 := by
    rw [Nat.le_log2 nonzero]
    exact Nat.le_trans (Nat.log2_self_le positive.ne') le
  rcases Nat.eq_or_lt_of_le (Nat.sub_le_sub_right logs 52) with same | less
  · rw [shortened, shortened, same]
    exact Nat.mul_le_mul_right _ (nearest_mono _ le)
  · -- Between the two lies a power of two, which no rounding crosses.
    have below := shortened_le_two_pow number
    have above := two_pow_le_shortened nonzero
    have between : 2 ^ (number.log2 + 1) ≤ 2 ^ larger.log2 :=
      Nat.pow_le_pow_right (by decide) (by omega)
    exact Nat.le_trans below (Nat.le_trans between above)

/-- What shifting has left of a number: the quotient, and of the rest whether it is at
least a half, and whether it is other than nothing and a half. -/
structure Shifted (number shift : Nat) (extended : ExtendedMantissa) : Prop where
  quotient : extended.mantissa = number / 2 ^ shift
  half : extended.roundBit = decide (2 ^ shift ≤ 2 * (number % 2 ^ shift))
  between : extended.stickyBit = decide (2 * (number % 2 ^ shift) % 2 ^ shift ≠ 0)

theorem Shifted.step {number shift : Nat} {extended : ExtendedMantissa}
    (shifted : Shifted number shift extended) :
    Shifted number (shift + 1) extended.shiftRightOne := by
  have split :
      number % 2 ^ (shift + 1) = 2 ^ shift * (number / 2 ^ shift % 2) + number % 2 ^ shift := by
    rw [pow_succ, Nat.mod_mul, Nat.add_comm]
  have rest : number % 2 ^ shift < 2 ^ shift := Nat.mod_lt _ (Nat.two_pow_pos shift)
  have double : 2 ^ (shift + 1) = 2 * 2 ^ shift := by rw [pow_succ, Nat.mul_comm]
  refine ⟨?_, ?_, ?_⟩
  · show extended.mantissa / 2 = _
    rw [shifted.quotient, Nat.div_div_eq_div_mul, ← pow_succ]
  · show (extended.mantissa % 2 != 0) = _
    rw [shifted.quotient, split, double]
    rcases Nat.mod_two_eq_zero_or_one (number / 2 ^ shift) with even | odd
    · rw [even]
      simp
      omega
    · rw [odd]
      simp
  · show (extended.roundBit || extended.stickyBit) = _
    rw [shifted.half, shifted.between, split, double, Nat.mul_mod_mul_left, Nat.mul_add_mod,
      Nat.mod_eq_of_lt rest, ← Bool.decide_or]
    apply decide_eq_decide.mpr
    rcases Nat.lt_or_ge (2 * (number % 2 ^ shift)) (2 ^ shift) with less | atLeast
    · rw [Nat.mod_eq_of_lt less]
      omega
    · omega

theorem shifted_shift_right (number shift : Nat) :
    Shifted number shift (ExtendedMantissa.ofMantissaAndAccuracy number .exact >>> shift) := by
  induction shift with
  | zero =>
      refine ⟨?_, ?_, ?_⟩
      · exact (Nat.div_one number).symm
      · simp [Nat.mod_one]
        rfl
      · simp [Nat.mod_one]
        rfl
  | succ shift ih => exact ih.step

theorem Shifted.rounded_mantissa {number shift : Nat} {extended : ExtendedMantissa}
    (shifted : Shifted number shift extended) :
    extended.roundedMantissa = nearest number shift := by
  obtain ⟨mantissa, half, between⟩ := extended
  obtain ⟨rfl, rfl, rfl⟩ := shifted
  have rest : number % 2 ^ shift < 2 ^ shift := Nat.mod_lt _ (Nat.two_pow_pos shift)
  unfold nearest
  rcases Nat.lt_trichotomy (2 * (number % 2 ^ shift)) (2 ^ shift) with less | half | more
  · rw [if_pos less, Nat.mod_eq_of_lt less, decide_eq_false (Nat.not_le.mpr less)]
    cases decide (2 * (number % 2 ^ shift) ≠ 0) <;> rfl
  · rw [half, if_neg (Nat.lt_irrefl _), if_pos rfl, Nat.mod_self, decide_eq_true (Nat.le_refl _)]
    rfl
  · have beyond : 2 * (number % 2 ^ shift) % 2 ^ shift ≠ 0 := by
      rw [Nat.mod_eq_sub_mod more.le, Nat.mod_eq_of_lt (by omega)]
      omega
    rw [if_neg more.not_gt, if_neg more.ne', decide_eq_true more.le, decide_eq_true beyond]
    rfl

section Rounding

variable {mantissa : Nat} {exponent : Int}

theorem log2_mul_two_pow (positive : 0 < mantissa) (power : Nat) :
    (mantissa * 2 ^ power).log2 = mantissa.log2 + power := by
  have scale : 0 < 2 ^ power := Nat.two_pow_pos power
  rw [Nat.log2_eq_iff (Nat.mul_pos positive scale).ne', pow_add, Nat.add_right_comm, pow_add]
  exact ⟨Nat.mul_le_mul_right _ (Nat.log2_self_le positive.ne'),
    Nat.mul_lt_mul_of_pos_right Nat.lt_log2_self scale⟩

/-- The exponent that a number is rounded to depends on its magnitude only. -/
theorem target_exponent_eq (positive : 0 < mantissa) (above : -1074 ≤ exponent) :
    Format.binary64.targetExponent (totalExponent mantissa exponent) =
      ((magnitude mantissa exponent).log2 - 52 : Nat) - 1074 := by
  rw [magnitude, log2_mul_two_pow positive]
  show max ((mantissa.log2 : Int) + 1 + exponent - 53) (-1074) = _
  omega

theorem magnitude_shift {least : Int} (floor : -1074 ≤ least) (le : least ≤ exponent) :
    magnitude (mantissa <<< (exponent - least).toNat) least = magnitude mantissa exponent := by
  rw [magnitude, magnitude, Nat.shiftLeft_eq, Nat.mul_assoc, ← pow_add]
  congr 2
  omega

/-- Lowering the exponent keeps the magnitude. -/
theorem decrease_exponent_spec (positive : 0 < mantissa) (above : -1074 ≤ exponent) {target : Int}
    (floor : -1074 ≤ target) :
    ∃ lowered lower, decreaseExponent mantissa exponent target = (lowered, lower) ∧ 0 < lowered ∧
      -1074 ≤ lower ∧ lower ≤ target ∧ magnitude lowered lower = magnitude mantissa exponent := by
  refine ⟨_, _, rfl, ?_, ?_, ?_, ?_⟩
  · rw [Nat.shiftLeft_eq]
    exact Nat.mul_pos positive (Nat.two_pow_pos _)
  · omega
  · omega
  · rw [magnitude, magnitude, Nat.shiftLeft_eq, Nat.mul_assoc, ← pow_add]
    congr 2
    omega

/-- A rounded mantissa takes at most one digit too many. -/
theorem nearest_bounds {number : Nat} (positive : 0 < number) :
    0 < nearest number (number.log2 - 52) ∧ nearest number (number.log2 - 52) ≤ 2 ^ 53 ∧
      (2 ^ 52 ≤ nearest number (number.log2 - 52) ∨ number.log2 - 52 = 0) := by
  have upper : number ≤ 2 ^ 53 * 2 ^ (number.log2 - 52) := by
    rw [← pow_add]
    exact Nat.le_trans Nat.lt_log2_self.le (Nat.pow_le_pow_right (by decide) (by omega))
  have bounded := nearest_mono (number.log2 - 52) upper
  rw [nearest_exact] at bounded
  rcases Nat.eq_zero_or_pos (number.log2 - 52) with none | some
  · rw [none, nearest_zero] at bounded ⊢
    exact ⟨positive, bounded, .inr rfl⟩
  · have lower : 2 ^ 52 * 2 ^ (number.log2 - 52) ≤ number := by
      rw [← pow_add, Nat.add_sub_cancel' (by omega)]
      exact Nat.log2_self_le positive.ne'
    have filled := nearest_mono (number.log2 - 52) lower
    rw [nearest_exact] at filled
    exact ⟨Nat.lt_of_lt_of_le (Nat.two_pow_pos 52) filled, bounded, .inl filled⟩

/-- Shifting a rounded mantissa drops nothing but a carry. -/
theorem shift_carry (positive : 0 < mantissa) (bounded : mantissa ≤ 2 ^ 53) {power : Nat}
    (filled : 2 ^ 52 ≤ mantissa ∨ power = 0) :
    ∃ extended last,
      shiftToTargetExponent .binary64 mantissa (power - 1074) .exact = (extended, last) ∧
      Canonical extended.mantissa last ∧
      magnitude extended.mantissa last = mantissa * 2 ^ power := by
  have above : -1074 ≤ (power : Int) - 1074 := by omega
  have size : magnitude mantissa (power - 1074) = mantissa * 2 ^ power := by
    rw [magnitude, Int.sub_add_cancel, Int.toNat_natCast]
  unfold shiftToTargetExponent shiftToExponent
  dsimp only
  rw [target_exponent_eq positive above, size, log2_mul_two_pow positive]
  refine ⟨_, _, rfl, ?_⟩
  rw [(shifted_shift_right _ _).quotient]
  rcases Nat.eq_or_lt_of_le bounded with rfl | narrow
  · have one : ((((2 ^ 53).log2 + power - 52 : Nat) : Int) - 1074 - (power - 1074)).toNat = 1 := by
      rw [Nat.log2_two_pow]
      omega
    rw [one]
    refine ⟨⟨by decide, by omega, .inl (by decide)⟩, ?_⟩
    rw [magnitude,
      show (power : Int) - 1074 + (1 : Nat) + 1074 = ((power + 1 : Nat) : Int) by
        push_cast; ring, Int.toNat_natCast, pow_succ]
    omega
  · have least : mantissa.log2 + power - 52 = power := by
      have upper : mantissa.log2 < 53 := (Nat.log2_lt positive.ne').mpr narrow
      rcases filled with wide | none
      · have lower : 52 ≤ mantissa.log2 := (Nat.le_log2 positive.ne').mpr wide
        omega
      · omega
    rw [least, Int.sub_self, Int.toNat_zero, pow_zero, Nat.div_one, Int.natCast_zero, Int.add_zero]
    exact ⟨⟨narrow, above, filled.imp_right fun none => by omega⟩, size⟩

theorem round_with_accuracy_spec (sign : Sign) (positive : 0 < mantissa) (above : -1074 ≤ exponent)
    (below : exponent ≤ Format.binary64.targetExponent (totalExponent mantissa exponent)) :
    ∃ final last above,
      roundWithAccuracy .binary64 sign mantissa exponent .exact = .finite sign final last above ∧
      Canonical final last ∧ magnitude final last = shortened (magnitude mantissa exponent) := by
  obtain ⟨some, bounded, filled⟩ := nearest_bounds (magnitude_pos positive exponent)
  obtain ⟨extended, last, shifts, form, size⟩ := shift_carry some bounded filled
  have target := target_exponent_eq positive above
  rw [target] at below
  have reached : shiftToTargetExponent .binary64 mantissa exponent .exact =
      (ExtendedMantissa.ofMantissaAndAccuracy mantissa .exact >>>
        ((magnitude mantissa exponent).log2 - 52 - (exponent + 1074).toNat),
        (((magnitude mantissa exponent).log2 - 52 : Nat) : Int) - 1074) := by
    unfold shiftToTargetExponent shiftToExponent
    dsimp only
    rw [target]
    congr 2
    · omega
    · omega
  have rounds :
      nearest mantissa ((magnitude mantissa exponent).log2 - 52 - (exponent + 1074).toNat) =
      nearest (magnitude mantissa exponent) ((magnitude mantissa exponent).log2 - 52) := by
    rw [← nearest_mul_two_pow mantissa _ (exponent + 1074).toNat, Nat.sub_add_cancel (by omega)]
    rfl
  have nonzero : extended.mantissa ≠ 0 := by
    intro none
    rw [none, magnitude, Nat.zero_mul] at size
    exact absurd size.symm (Nat.mul_pos some (Nat.two_pow_pos _)).ne'
  refine ⟨extended.mantissa, last, Nat.pos_of_ne_zero nonzero, ?_, form, size⟩
  unfold roundWithAccuracy
  rw [reached]
  dsimp only
  rw [(shifted_shift_right _ _).rounded_mantissa, rounds, shifts]
  exact dif_neg nonzero

theorem round_spec (sign : Sign) (positive : 0 < mantissa) (above : -1074 ≤ exponent) :
    ∃ final last above,
      UnpackedFloat.round .binary64 sign mantissa exponent = .finite sign final last above ∧
      Canonical final last ∧ magnitude final last = shortened (magnitude mantissa exponent) := by
  have floor : -1074 ≤ Format.binary64.targetExponent (totalExponent mantissa exponent) := by
    rw [target_exponent_eq positive above]
    omega
  obtain ⟨lowered, lower, spelled, some, bottom, reached, same⟩ :=
    decrease_exponent_spec positive above floor
  unfold UnpackedFloat.round
  dsimp only
  rw [spelled, ← same]
  apply round_with_accuracy_spec sign some bottom
  rw [target_exponent_eq some bottom, same, ← target_exponent_eq positive above]
  exact reached

end Rounding

/-- What becomes of a rounded magnitude: beyond the finite weights it is infinite. -/
def capped (number : Nat) : Nat := if number < ceiling then number else 2 * ceiling

theorem capped_mono {number larger : Nat} (le : number ≤ larger) :
    capped number ≤ capped larger := by
  unfold capped
  grind

/-- The value that a sum of that exact value gets. -/
def settled : Int → Int
  | .ofNat number => capped (shortened number)
  | .negSucc number => -capped (shortened (number + 1))

theorem settled_mono {value larger : Int} (le : value ≤ larger) :
    settled value ≤ settled larger := by
  cases value with
  | ofNat number =>
      cases larger with
      | ofNat more => exact Int.ofNat_le.mpr (capped_mono (shortened_mono (Int.ofNat_le.mp le)))
      | negSucc more =>
          exact absurd (Int.le_trans (Int.natCast_nonneg number) le)
            (Int.not_le.mpr (Int.negSucc_lt_zero more))
  | negSucc number =>
      cases larger with
      | ofNat more => simp only [settled]; omega
      | negSucc more =>
          have fewer : more + 1 ≤ number + 1 := by omega
          exact Int.neg_le_neg (Int.ofNat_le.mpr (capped_mono (shortened_mono fewer)))

theorem settled_apply (sign : Sign) (number : Nat) :
    settled (sign.apply number) = sign.apply (capped (shortened number)) := by
  cases sign with
  | positive => rfl
  | negative =>
      cases number with
      | zero => simp [Sign.apply, settled, shortened_zero, capped, ceiling_pos]
      | succ number => rfl

theorem unpack_pack_zero (sign : Sign) : (Float.Model.pack (.zero sign)).unpack = .zero sign := by
  cases sign <;> rfl

theorem unpack_pack_infinity (sign : Sign) :
    (Float.Model.pack (.infinity sign)).unpack = .infinity sign := by
  cases sign <;> rfl

theorem unpack_packed_infinity (sign : Sign) :
    UnpackedFloat.unpack .binary64 (packedInfinity .binary64 sign) = .infinity sign := by
  cases sign <;> rfl

theorem unpack_normal (sign : Sign) {mantissa : Nat} {exponent : Int} (positive : 0 < mantissa)
    (filled : 2 ^ 52 ≤ mantissa) (narrow : mantissa < 2 ^ 53) (above : -1074 ≤ exponent)
    (finite : exponent ≤ 971) :
    UnpackedFloat.unpack .binary64
      (packComponents .binary64 sign (BitVec.ofNat 11 (exponent + 1075).toNat)
      (BitVec.ofNat 52 mantissa)) = .finite sign mantissa exponent positive := by
  have field : (BitVec.ofNat 11 (exponent + 1075).toNat).toNat = (exponent + 1075).toNat := by
    rw [BitVec.toNat_ofNat, Nat.mod_eq_of_lt (by omega)]
  have notLast : BitVec.ofNat 11 (exponent + 1075).toNat ≠ -1#11 := by
    intro same
    rw [same] at field
    have last : (-1#11).toNat = 2047 := by decide
    omega
  have notLeast : BitVec.ofNat 11 (exponent + 1075).toNat ≠ 0#11 := by
    intro same
    rw [same] at field
    have least : (0#11).toNat = 0 := by decide
    omega
  have whole : (1#1 ++ BitVec.ofNat 52 mantissa).toNat = mantissa := by
    rw [to_nat_one_append, BitVec.toNat_ofNat]
    omega
  have scale : ((BitVec.ofNat 11 (exponent + 1075).toNat).toNat : Int) -
      ((Format.binary64.exponentBias : Int) + (Format.binary64.mantissaBitsWithoutImplicit : Int)) =
        exponent := by
    rw [field]
    show _ - ((1023 : Int) + 52) = _
    omega
  unfold UnpackedFloat.unpack
  simp only [unpackExponent_packComponents, unpackMantissa_packComponents,
    unpackSign_packComponents, Sign.ofBitVec_toBitVec, if_neg notLast, if_neg notLeast,
    whole, scale]

theorem unpack_subnormal (sign : Sign) {mantissa : Nat} (positive : 0 < mantissa)
    (narrow : mantissa < 2 ^ 52) :
    UnpackedFloat.unpack .binary64 (packComponents .binary64 sign 0#11 (BitVec.ofNat 52 mantissa)) =
      .finite sign mantissa (-1074) positive := by
  have field : (BitVec.ofNat 52 mantissa).toNat = mantissa := by
    rw [BitVec.toNat_ofNat, Nat.mod_eq_of_lt narrow]
  have some : BitVec.ofNat 52 mantissa ≠ 0#52 := by
    intro same
    rw [same] at field
    exact absurd field.symm positive.ne'
  have scale : ((0#11).toNat : Int) -
      ((Format.binary64.exponentBias : Int) + (Format.binary64.mantissaBitsWithoutImplicit : Int)) +
        1 = -1074 := by
    decide
  unfold UnpackedFloat.unpack
  simp only [unpackExponent_packComponents, unpackMantissa_packComponents,
    unpackSign_packComponents, Sign.ofBitVec_toBitVec, dif_neg some, field, scale]
  rfl

/-- Packing keeps a canonical number, and makes one beyond the finite weights infinite. -/
theorem unpack_pack (sign : Sign) {mantissa : Nat} {exponent : Int} (positive : 0 < mantissa)
    (form : Canonical mantissa exponent) :
    (Float.Model.pack (.finite sign mantissa exponent positive)).unpack =
      if exponent ≤ 971 then .finite sign mantissa exponent positive else .infinity sign := by
  obtain ⟨narrow, above, wide⟩ := form
  have bias : (exponent + (Format.binary64.exponentBias : Int) + (52 : Nat)).toNat =
    (exponent + 1075).toNat := by
    show (exponent + 1023 + 52).toNat = _
    rw [Int.add_assoc]
    rfl
  have packed : UnpackedFloat.pack .binary64 (.finite sign mantissa exponent positive) =
      if 2 ^ 11 ≤ (exponent + 1075).toNat + 1 then packedInfinity .binary64 sign
      else if mantissa.log2 + 1 = 53 then
        packComponents .binary64 sign (BitVec.ofNat 11 (exponent + 1075).toNat)
          (BitVec.ofNat 52 mantissa)
      else packComponents .binary64 sign 0#11 (BitVec.ofNat 52 mantissa) := by
    rw [← bias]
    rfl
  show UnpackedFloat.unpack .binary64
    (UnpackedFloat.pack .binary64 (.finite sign mantissa exponent positive)) = _
  rw [packed]
  by_cases finite : exponent ≤ 971
  · rw [if_pos finite, if_neg (by omega)]
    by_cases filled : 2 ^ 52 ≤ mantissa
    · rw [if_pos (congrArg Nat.succ ((Nat.log2_eq_iff positive.ne').mpr ⟨filled, narrow⟩))]
      exact unpack_normal sign positive filled narrow above finite
    · have least := wide.resolve_left filled
      have shorter : mantissa.log2 < 52 := (Nat.log2_lt positive.ne').mpr (Nat.lt_of_not_le filled)
      subst least
      rw [if_neg (by omega)]
      exact unpack_subnormal sign positive (Nat.lt_of_not_le filled)
  · rw [if_neg finite, if_pos (by omega), unpack_packed_infinity]

theorem Canonical.ceiling_le_magnitude {mantissa : Nat} {exponent : Int}
    (form : Canonical mantissa exponent) (beyond : 972 ≤ exponent) :
    ceiling ≤ magnitude mantissa exponent := by
  rcases Int.le_iff_eq_or_lt.mp beyond with rfl | more
  · exact Nat.mul_le_mul_right _ (form.wide.resolve_right (by decide))
  · exact (canonical_ceiling.magnitude_lt form more).le

theorem units_pack (sign : Sign) {mantissa : Nat} {exponent : Int} (positive : 0 < mantissa)
    (form : Canonical mantissa exponent) :
    units (Float.Model.pack (.finite sign mantissa exponent positive)).unpack =
      sign.apply (capped (magnitude mantissa exponent)) := by
  rw [unpack_pack sign positive form, capped]
  split
  · next finite => rw [units, if_pos (form.magnitude_lt_ceiling finite)]
  · next infinite =>
    have beyond := form.ceiling_le_magnitude (by omega)
    rw [if_neg (Nat.not_lt.mpr beyond)]
    rfl

theorem units_round (sign : Sign) {mantissa : Nat} {exponent : Int} (positive : 0 < mantissa)
    (above : -1074 ≤ exponent) :
    units (Float.Model.pack (UnpackedFloat.round .binary64 sign mantissa exponent)).unpack =
      settled (sign.apply (magnitude mantissa exponent)) := by
  obtain ⟨final, last, some, rounds, form, size⟩ := round_spec sign positive above
  rw [rounds, units_pack sign some form, size, settled_apply]

theorem settled_zero : settled 0 = 0 := by
  have none := settled_apply .positive 0
  rwa [shortened_zero, capped, if_pos ceiling_pos] at none

theorem units_normalize (mantissa : Int) {exponent : Int} (above : -1074 ≤ exponent) :
    units
      (Float.Model.pack (UnpackedFloat.normalize .binary64 mantissa exponent .positive)).unpack =
      settled (mantissa * 2 ^ (exponent + 1074).toNat) := by
  unfold UnpackedFloat.normalize
  rcases Int.lt_trichotomy mantissa 0 with negative | rfl | positive
  · rw [compare_lt_iff_lt.mpr negative]
    dsimp only
    rw [units_round .negative (by omega) above, Sign.apply, magnitude]
    push_cast
    rw [Int.toNat_of_nonneg (by omega), Int.neg_mul, Int.neg_neg]
  · rw [Int.zero_mul, settled_zero, compare_eq_iff_eq.mpr rfl]
    dsimp only
    rw [unpack_pack_zero]
    rfl
  · rw [compare_gt_iff_gt.mpr positive]
    dsimp only
    rw [units_round .positive (by omega) above, Sign.apply, magnitude]
    push_cast
    rw [Int.toNat_of_nonneg positive.le]

theorem apply_mul (sign : Sign) (number : Nat) (factor : Int) :
    sign.apply number * factor = sign.apply (number * factor) := by
  cases sign with
  | positive => rfl
  | negative => exact Int.neg_mul _ _

theorem units_add_finite (sign other : Sign) {mantissa further : Nat} {exponent next : Int}
    (positive : 0 < mantissa) (more : 0 < further) (form : Canonical mantissa exponent)
    (others : Canonical further next) :
    units (Float.Model.pack (UnpackedFloat.add .binary64 (.finite sign mantissa exponent positive)
      (.finite other further next more))).unpack =
      settled (sign.apply (magnitude mantissa exponent) +
        other.apply (magnitude further next)) := by
  have floor : -1074 ≤ min exponent next := le_min form.above others.above
  unfold UnpackedFloat.add
  dsimp only [decreaseExponent]
  rw [units_normalize _ floor, Int.add_mul, apply_mul, apply_mul,
    ← magnitude_shift floor (Int.min_le_left _ _), ← magnitude_shift floor (Int.min_le_right _ _),
    magnitude, magnitude]
  push_cast
  rfl

theorem Canonical.shortened_magnitude {mantissa : Nat} {exponent : Int}
    (form : Canonical mantissa exponent) (positive : 0 < mantissa) :
    shortened (magnitude mantissa exponent) = magnitude mantissa exponent := by
  have digits : (magnitude mantissa exponent).log2 - 52 = (exponent + 1074).toNat := by
    have narrow : mantissa.log2 < 53 := (Nat.log2_lt positive.ne').mpr form.narrow
    rw [magnitude, log2_mul_two_pow positive]
    rcases form.wide with filled | least
    · have wide : 52 ≤ mantissa.log2 := (Nat.le_log2 positive.ne').mpr filled
      omega
    · omega
  rw [shortened, digits, magnitude, nearest_exact]

theorem capped_beyond {number : Nat} (beyond : ceiling ≤ number) :
    capped (shortened number) = 2 * ceiling := by
  have reached := shortened_mono beyond
  rw [ceiling, canonical_ceiling.shortened_magnitude (by decide)] at reached
  exact if_neg (Nat.not_lt.mpr reached)

/-- A weight is itself the nearest to its value. -/
theorem settled_units {unpacked : UnpackedFloat} (stored : Stored unpacked) :
    settled (units unpacked) = units unpacked := by
  cases unpacked with
  | notANumber => exact settled_zero
  | zero sign => exact settled_zero
  | infinity sign =>
      rw [units, settled_apply, capped_beyond (by omega)]
  | finite sign mantissa exponent positive =>
      rw [units, settled_apply, stored.1.shortened_magnitude positive, capped,
        if_pos (stored.1.magnitude_lt_ceiling stored.2)]

theorem settled_beyond (sign : Sign) {value : Int} (beyond : (ceiling : Int) ≤ sign.apply value) :
    settled value = sign.apply ((2 * ceiling : Nat) : Int) := by
  have least := ceiling_pos
  obtain ⟨number, natural⟩ := Int.eq_ofNat_of_zero_le (show 0 ≤ sign.apply value by omega)
  have same : value = sign.apply number := by
    rw [← natural]
    cases sign with
    | positive => rfl
    | negative => exact (Int.neg_neg value).symm
  rw [same, settled_apply, capped_beyond (by omega)]

/-- An infinite weight stays what it is, whatever finite weight is added. -/
theorem settled_infinite (sign : Sign) {unpacked : UnpackedFloat} (stored : Stored unpacked)
    (apart : unpacked ≠ .infinity (-sign)) :
    settled (units (.infinity sign) + units unpacked) = units (.infinity sign) := by
  have least := ceiling_pos
  apply settled_beyond
  cases unpacked with
  | notANumber => cases sign <;> simp only [units, Sign.apply] <;> omega
  | zero other => cases sign <;> simp only [units, Sign.apply] <;> omega
  | infinity other =>
      cases sign <;> cases other <;>
        first | exact absurd rfl apart | (simp only [units, Sign.apply]; omega)
  | finite other further next more =>
      have below := stored.1.magnitude_lt_ceiling stored.2
      cases sign <;> cases other <;> simp only [units, Sign.apply] <;> omega

theorem units_add (model other : Float.Model)
    (number : UnpackedFloat.add .binary64 model.unpack other.unpack ≠ .notANumber) :
    units (Float.Model.pack (UnpackedFloat.add .binary64 model.unpack other.unpack)).unpack =
      settled (units model.unpack + units other.unpack) := by
  have stored := stored_unpack model
  have others := stored_unpack other
  have kept := congrArg (fun model => units model.unpack) (pack_unpack model)
  have keeps := congrArg (fun model => units model.unpack) (pack_unpack other)
  generalize model.unpack = first at *
  generalize other.unpack = second at *
  cases first with
  | notANumber => exact absurd rfl number
  | zero sign =>
      have none : units (.zero sign) + units second = units second := Int.zero_add _
      rw [none, settled_units others, ← keeps]
      cases second with
      | zero further => cases sign <;> cases further <;> rfl
      | notANumber => rfl
      | infinity further => rfl
      | finite further mantissa exponent positive => rfl
  | infinity sign =>
      have apart : second ≠ .infinity (-sign) := by
        rintro rfl
        apply number
        cases sign <;> rfl
      rw [settled_infinite sign others apart]
      cases second with
      | notANumber => exact absurd rfl number
      | zero further => exact congrArg units (unpack_pack_infinity sign)
      | infinity further =>
          have same : further = sign := by
            cases sign <;> cases further <;> first | rfl | exact absurd rfl apart
          subst same
          cases further <;> exact congrArg units (unpack_pack_infinity _)
      | finite further mantissa exponent positive =>
          exact congrArg units (unpack_pack_infinity sign)
  | finite sign mantissa exponent positive =>
      cases second with
      | notANumber => exact absurd rfl number
      | zero further =>
          have none : units (.finite sign mantissa exponent positive) + units (.zero further) =
            units (.finite sign mantissa exponent positive) := Int.add_zero _
          rw [none, settled_units stored, ← kept]
          rfl
      | infinity further =>
          rw [Int.add_comm, settled_infinite further stored (by simp)]
          exact congrArg units (unpack_pack_infinity further)
      | finite other further next more =>
          exact units_add_finite sign other positive more stored.1 others.1

variable {first second third : Weight}

theorem add_eq (first second : Weight) : (first + second).toModel.unpack =
    (Float.Model.pack
      (UnpackedFloat.add .binary64 first.toModel.unpack second.toModel.unpack)).unpack := rfl

/-- A sum is no number when one of its parts is none. -/
theorem is_number_of_add (number : (first + second).IsNumber) :
    first.IsNumber ∧ second.IsNumber := by
  rw [is_number_iff, add_eq] at number
  rw [is_number_iff, is_number_iff]
  constructor
  · intro nan
    apply number
    rw [nan]
    exact unpack_packedNaN
  · intro nan
    apply number
    rw [nan]
    cases first.toModel.unpack <;> exact unpack_packedNaN

theorem count_add (number : (first + second).IsNumber) :
    (first + second).count = settled (first.count + second.count) := by
  apply units_add
  intro nan
  rw [is_number_iff, add_eq, nan] at number
  exact number unpack_packedNaN

/-- Adding the same weight on both sides keeps the order. -/
theorem add_le_add_right (le : first ≤ second) (number : (first + third).IsNumber)
    (another : (second + third).IsNumber) : first + third ≤ second + third := by
  obtain ⟨_, _, lower⟩ := le_iff_count.mp le
  rw [le_iff_count, count_add number, count_add another]
  exact ⟨number, another, settled_mono (Int.add_le_add_right lower _)⟩

theorem normalize_ne_nan (mantissa : Int) {exponent : Int} (above : -1074 ≤ exponent) :
    (Float.Model.pack (UnpackedFloat.normalize .binary64 mantissa exponent .positive)).unpack ≠
      .notANumber := by
  have rounds (sign : Sign) {mantissa : Nat} (positive : 0 < mantissa) :
      (Float.Model.pack (UnpackedFloat.round .binary64 sign mantissa exponent)).unpack ≠
        .notANumber := by
    obtain ⟨final, last, some, same, form, _⟩ := round_spec sign positive above
    rw [same, unpack_pack sign some form]
    split <;> simp
  unfold UnpackedFloat.normalize
  rcases Int.lt_trichotomy mantissa 0 with negative | rfl | positive
  · rw [compare_lt_iff_lt.mpr negative]
    exact rounds .negative (by omega)
  · rw [compare_eq_iff_eq.mpr rfl]
    dsimp only
    rw [unpack_pack_zero]
    simp
  · rw [compare_gt_iff_gt.mpr positive]
    exact rounds .positive (by omega)

/-- Adding a finite weight gives a number. -/
theorem is_number_add_finite (number : first.IsNumber) (finite : second.isFinite = true) :
    (first + second).IsNumber := by
  have stored := stored_unpack first.toModel
  have others := stored_unpack second.toModel
  have kept := congrArg Float.Model.unpack (pack_unpack first.toModel)
  have keeps := congrArg Float.Model.unpack (pack_unpack second.toModel)
  replace finite : UnpackedFloat.isFinite second.toModel.unpack = true := finite
  rw [is_number_iff] at number ⊢
  rw [add_eq]
  generalize first.toModel.unpack = left at *
  generalize second.toModel.unpack = right at *
  have infinite (sign : Sign) : (Float.Model.pack (.infinity sign)).unpack ≠ .notANumber := by
    rw [unpack_pack_infinity]
    simp
  have zeros (sign : Sign) : (Float.Model.pack (.zero sign)).unpack ≠ .notANumber := by
    rw [unpack_pack_zero]
    simp
  cases right with
  | notANumber => simp [UnpackedFloat.isFinite] at finite
  | infinity sign => simp [UnpackedFloat.isFinite] at finite
  | zero sign =>
      cases left with
      | notANumber => exact absurd rfl number
      | zero other => cases sign <;> cases other <;> exact zeros _
      | infinity other => exact infinite other
      | finite other mantissa exponent positive => exact kept.symm ▸ number
  | finite sign mantissa exponent positive =>
      cases left with
      | notANumber => exact absurd rfl number
      | zero other =>
          have same : (Float.Model.pack (.finite sign mantissa exponent positive)).unpack ≠
            .notANumber := by
            rw [keeps]
            simp
          exact same
      | infinity other => exact infinite other
      | finite other further next more =>
          exact normalize_ne_nan _ (le_min stored.1.above others.1.above)

end MorphLex.Weight
