import MorphLex.Proofs.Weight.Rounding
import MorphLex.Proofs.Weight.Sum

/-!
The exact value of a weight. The bits of a weight spell a sign, a mantissa and an exponent,
and the weight is that many times the smallest positive one. A 16-bit number is a weight
whose value is the number, so that it is written as itself.
-/

open Float.Model Float.Model.UnpackedFloat

namespace MorphLex

def Binary64.ofUnpacked : UnpackedFloat → Binary64
  | .notANumber => .nan
  | .infinity sign => .infinite (sign == .negative)
  | .zero sign => .finite (sign == .negative) 0 (-1074)
  | .finite sign mantissa exponent _ => .finite (sign == .negative) mantissa exponent

section Bits

variable (bits : BitVec 64)

theorem unpack_mantissa_to_nat : (@unpackMantissa .binary64 bits).toNat = bits.toNat % 2 ^ 52 := by
  simp [unpackMantissa, BitVec.extractLsb]

theorem unpack_exponent_to_nat :
    (@unpackExponent .binary64 bits).toNat = bits.toNat / 2 ^ 52 % 2 ^ 11 := by
  simp [unpackExponent, BitVec.extractLsb, Nat.shiftRight_eq_div_pow]

theorem unpack_sign_to_nat : (@unpackSign .binary64 bits).toNat = bits.toNat / 2 ^ 63 := by
  have below := bits.isLt
  simp only [unpackSign, BitVec.extractLsb, BitVec.toNat_cast, BitVec.extractLsb'_toNat,
    Nat.shiftRight_eq_div_pow]
  show bits.toNat / 2 ^ 63 % 2 ^ 1 = _
  omega

theorem unpack_sign_eq :
    (Sign.ofBitVec (@unpackSign .binary64 bits) == .negative) = (bits.toNat / 2 ^ 63 == 1) := by
  rw [← unpack_sign_to_nat, Sign.ofBitVec]
  generalize @unpackSign .binary64 bits = sign
  revert sign
  decide

end Bits

theorem Binary64.of_float_eq (weight : Weight) :
    ofFloat weight = ofUnpacked weight.toModel.unpack := by
  have bits : weight.toBits.toNat = weight.toModel.toBits.toBitVec.toNat := rfl
  have scale :
      ((Format.binary64.exponentBias : Int) + (Format.binary64.mantissaBitsWithoutImplicit : Int)) =
        1075 := by
    decide
  unfold ofFloat Float.Model.unpack UnpackedFloat.unpack
  dsimp only
  rw [bits, scale, ← unpack_sign_eq, ← unpack_exponent_to_nat, ← unpack_mantissa_to_nat]
  have filled := Weight.to_nat_one_append (@unpackMantissa .binary64 weight.toModel.toBits.toBitVec)
  have last : (@unpackExponent .binary64 weight.toModel.toBits.toBitVec).toNat = 2047 ↔
      @unpackExponent .binary64 weight.toModel.toBits.toBitVec = -1#11 :=
        BitVec.toNat_inj (y := -1#11)
  have least : (@unpackExponent .binary64 weight.toModel.toBits.toBitVec).toNat = 0 ↔
      @unpackExponent .binary64 weight.toModel.toBits.toBitVec = 0#11 :=
        BitVec.toNat_inj (y := 0#11)
  have blank : (@unpackMantissa .binary64 weight.toModel.toBits.toBitVec).toNat = 0 ↔
      @unpackMantissa .binary64 weight.toModel.toBits.toBitVec = 0#52 :=
        BitVec.toNat_inj (y := 0#52)
  by_cases special : @unpackExponent .binary64 weight.toModel.toBits.toBitVec = -1#11
  · rw [if_pos (last.mpr special), if_pos special]
    by_cases infinite : @unpackMantissa .binary64 weight.toModel.toBits.toBitVec = 0#52
    · rw [if_pos (blank.mpr infinite), if_pos infinite, ofUnpacked]
    · rw [if_neg (mt blank.mp infinite), if_neg infinite, ofUnpacked]
  · rw [if_neg (mt last.mp special), if_neg special]
    by_cases small : @unpackExponent .binary64 weight.toModel.toBits.toBitVec = 0#11
    · rw [if_pos (least.mpr small), if_pos small]
      by_cases none : @unpackMantissa .binary64 weight.toModel.toBits.toBitVec = 0#52
      · rw [dif_pos none, ofUnpacked, blank.mpr none]
      · rw [dif_neg none, ofUnpacked, least.mpr small]
        rfl
    · rw [if_neg (mt least.mp small), if_neg small, ofUnpacked, filled, Nat.add_comm]

namespace Weight

/-- A finite weight is as much as the smallest positive one that many times. -/
theorem exact_eq_count {weight : Weight} (finite : weight.isFinite = true) :
    weight.exact = weight.count / 2 ^ 1074 := by
  have stored := stored_unpack weight.toModel
  replace finite : UnpackedFloat.isFinite weight.toModel.unpack = true := finite
  rw [exact, count, Binary64.of_float_eq]
  cases value : weight.toModel.unpack with
  | notANumber => simp [value, UnpackedFloat.isFinite] at finite
  | infinity sign => simp [value, UnpackedFloat.isFinite] at finite
  | zero sign => simp [Binary64.ofUnpacked, units]
  | finite sign mantissa exponent positive =>
      rw [value] at stored
      have above := stored.1.above
      have power : (2 : ℚ) ^ exponent = 2 ^ (exponent + 1074).toNat / 2 ^ 1074 := by
        rw [eq_div_iff (by positivity), ← zpow_natCast, ← zpow_natCast, ← zpow_add₀ (by norm_num)]
        congr 1
        omega
      simp only [Binary64.ofUnpacked, units, magnitude, power]
      cases sign <;> simp [Sign.apply, mul_div_assoc, neg_div]

/-- A finite weight is a sign, a mantissa and an exponent. -/
theorem exists_parts {weight : Weight} (finite : weight.isFinite = true) :
    ∃ negative mantissa exponent,
    Binary64.ofFloat weight = .finite negative mantissa exponent ∧ Canonical mantissa exponent ∧
    exponent ≤ 971 := by
  have stored := stored_unpack weight.toModel
  replace finite : UnpackedFloat.isFinite weight.toModel.unpack = true := finite
  rw [Binary64.of_float_eq]
  cases value : weight.toModel.unpack with
  | notANumber => simp [value, UnpackedFloat.isFinite] at finite
  | infinity sign => simp [value, UnpackedFloat.isFinite] at finite
  | zero sign => exact ⟨_, _, _, rfl, ⟨by decide, by decide, .inr rfl⟩, by decide⟩
  | finite sign mantissa exponent positive =>
      rw [value] at stored
      exact ⟨_, _, _, rfl, stored⟩

theorem exists_round {weight : Weight} (finite : weight.isFinite = true) :
    ∃ whole, round? weight = some whole := by
  obtain ⟨negative, mantissa, exponent, parts, _, _⟩ := exists_parts finite
  rw [round?, parts]
  exact ⟨_, rfl⟩

theorem round_away_int (whole : Int) : roundAway whole = whole := by
  rw [roundAway]
  split
  · rw [Int.floor_intCast_add]
    norm_num
  · rw [sub_eq_add_neg, ← Int.cast_neg, Int.floor_add_intCast]
    norm_num

section Whole

variable {weight : Weight} {number : Nat}

/-- A whole number of at most 53 binary digits is kept when it is rounded. -/
theorem shortened_whole (small : number < 2 ^ 53) :
    shortened (magnitude number 0) = magnitude number 0 := by
  rcases Nat.eq_zero_or_pos number with rfl | positive
  · rw [magnitude, Nat.zero_mul, shortened_zero]
  · have narrow : number.log2 < 53 := (Nat.log2_lt positive.ne').mpr small
    have wide := Nat.log2_self_le positive.ne'
    have filled : number * 2 ^ (52 - number.log2) < 2 ^ 53 := by
      calc number * 2 ^ (52 - number.log2) < 2 ^ (number.log2 + 1) * 2 ^ (52 - number.log2) :=
            Nat.mul_lt_mul_of_pos_right Nat.lt_log2_self (Nat.two_pow_pos _)
        _ = 2 ^ 53 := by rw [← pow_add, show number.log2 + 1 + (52 - number.log2) = 53 by omega]
    have least : 2 ^ 52 ≤ number * 2 ^ (52 - number.log2) := by
      calc 2 ^ 52 = 2 ^ number.log2 * 2 ^ (52 - number.log2) := by
            rw [← pow_add, show number.log2 + (52 - number.log2) = 52 by omega]
        _ ≤ number * 2 ^ (52 - number.log2) := Nat.mul_le_mul_right _ wide
    have form : Canonical (number * 2 ^ (52 - number.log2)) (number.log2 - 52) :=
      ⟨filled, by omega, .inl least⟩
    have same :
        magnitude (number * 2 ^ (52 - number.log2)) (number.log2 - 52) = magnitude number 0 := by
      rw [magnitude, magnitude, Nat.mul_assoc, ← pow_add]
      congr 2
      omega
    rw [← same]
    exact form.shortened_magnitude (Nat.mul_pos positive (Nat.two_pow_pos _))

theorem whole_lt_ceiling (small : number < 2 ^ 53) : magnitude number 0 < ceiling := by
  calc magnitude number 0 < magnitude (2 ^ 53) 0 := magnitude_lt_magnitude small
    _ = magnitude (2 ^ 52) 1 := by
      rw [magnitude, magnitude, show (0 + 1074 : Int).toNat = 1074 by rfl,
        show (1 + 1074 : Int).toNat = 1074 + 1 by
          rfl, pow_succ 2 1074, pow_succ 2 52, Nat.mul_right_comm, Nat.mul_assoc]
    _ ≤ ceiling := Nat.mul_le_mul_left _ (Nat.pow_le_pow_right (by decide) (by decide))

theorem settled_whole (small : number < 2 ^ 53) :
    settled (magnitude number 0) = magnitude number 0 := by
  have settles := settled_apply .positive (magnitude number 0)
  rwa [shortened_whole small, capped, if_pos (whole_lt_ceiling small)] at settles

theorem count_to_float (small : number < 2 ^ 53) :
    count number.toUInt64.toFloat = magnitude number 0 := by
  have same : number.toUInt64.toNat = number := by
    rw [Nat.toUInt64, UInt64.toNat_ofNat_of_lt']
    exact Nat.lt_trans small (by decide)
  have shape : number.toUInt64.toFloat.toModel =
      Float.Model.pack (UnpackedFloat.normalize .binary64 number.toUInt64.toNat 0 .positive) := rfl
  rw [count, shape, same, units_normalize _ (by decide), ← settled_whole small, magnitude,
    Nat.cast_mul, Nat.cast_pow, Nat.cast_ofNat]

/-- Multiplying with one changes no weight that is large enough. -/
theorem units_mul_one (sign : Sign) {mantissa : Nat} {exponent : Int} (positive : 0 < mantissa)
    (form : Canonical mantissa exponent) (finite : exponent ≤ 971) (large : -1022 ≤ exponent) :
    units (Float.Model.pack (UnpackedFloat.mul .binary64 (.finite sign mantissa exponent positive)
      (.finite .positive (2 ^ 52) (-52) (by decide)))).unpack =
        sign.apply (magnitude mantissa exponent) := by
  have same : magnitude (mantissa * 2 ^ 52) (exponent + -52) = magnitude mantissa exponent := by
    rw [magnitude, magnitude, Nat.mul_assoc, ← pow_add]
    congr 2
    omega
  have longer : 0 < mantissa * 2 ^ 52 := Nat.mul_pos positive (Nat.two_pow_pos _)
  have above : -1074 ≤ exponent + -52 := by omega
  have filled : 52 ≤ mantissa.log2 :=
    (Nat.le_log2 positive.ne').mpr (form.wide.resolve_right (by omega))
  obtain ⟨final, last, some, rounds, kept, size⟩ :=
    round_with_accuracy_spec (sign * .positive) longer
    above (by
      rw [target_exponent_eq longer above, magnitude, log2_mul_two_pow longer,
        log2_mul_two_pow positive]
      omega)
  have product : UnpackedFloat.mul .binary64 (.finite sign mantissa exponent positive)
      (.finite .positive (2 ^ 52) (-52) (by decide)) = .finite (sign * .positive) final last some :=
        rounds
  rw [product, units_pack _ some kept, size, same, form.shortened_magnitude positive, capped,
    if_pos (form.magnitude_lt_ceiling finite)]
  cases sign <;> rfl

/-- Between nothing and the infinite ones there are only finite values. -/
theorem exists_finite_of_units {value : UnpackedFloat} {amount : Nat}
    (amounts : units value = amount) (positive : 0 < amount) (bounded : amount < ceiling) :
    ∃ mantissa exponent above, value = .finite .positive mantissa exponent above ∧
      magnitude mantissa exponent = amount := by
  cases value with
  | notANumber =>
      have none : (0 : Int) = amount := amounts
      omega
  | infinity sign =>
      cases sign with
      | positive =>
          have beyond : ((2 * ceiling : Nat) : Int) = amount := amounts
          omega
      | negative =>
          have below : -((2 * ceiling : Nat) : Int) = amount := amounts
          omega
  | zero sign =>
      have none : (0 : Int) = amount := amounts
      omega
  | finite sign mantissa exponent above =>
      cases sign with
      | positive => exact ⟨mantissa, exponent, above, rfl, Int.ofNat_inj.mp amounts⟩
      | negative =>
          have below : -(magnitude mantissa exponent : Int) = amount := amounts
          omega

theorem count_of_nat (small : number < 2 ^ 53) :
    count (Float.ofNat number) = magnitude number 0 := by
  have power : (Float.exactlyRepresentablePowersOfTen[0]).toModel.unpack =
    .finite .positive (2 ^ 52) (-52) (by decide) := rfl
  have product :
      Float.ofNat number = number.toUInt64.toFloat * Float.exactlyRepresentablePowersOfTen[0] :=
    dif_pos ⟨small, Nat.zero_le 22⟩
  have factor := count_to_float small
  have stored := stored_unpack number.toUInt64.toFloat.toModel
  rw [product]
  show units (Float.Model.pack (UnpackedFloat.mul .binary64 number.toUInt64.toFloat.toModel.unpack
    (Float.exactlyRepresentablePowersOfTen[0]).toModel.unpack)).unpack = _
  rw [power]
  rcases Nat.eq_zero_or_pos number with rfl | positive
  · rw [magnitude, Nat.zero_mul]
    rfl
  · obtain ⟨mantissa, exponent, above, value, size⟩ :=
      exists_finite_of_units factor (magnitude_pos positive 0) (whole_lt_ceiling small)
    rw [value] at stored ⊢
    -- A whole number is no less than one, which has the exponent -52.
    have large : -1022 ≤ exponent := by
      by_contra low
      have one : Canonical (2 ^ 52) (-52) := ⟨by decide, by decide, .inl (Nat.le_refl _)⟩
      have less := stored.1.magnitude_lt one (by omega)
      have same : magnitude (2 ^ 52) (-52) = magnitude 1 0 := by
        rw [magnitude, magnitude, Nat.one_mul, ← pow_add]
        congr 1
      have least : magnitude 1 0 ≤ magnitude number 0 := Nat.mul_le_mul_right _ positive
      omega
    rw [units_mul_one .positive above stored.1 stored.2 large, size]
    rfl

theorem count_neg (weight : Weight) : count weight.neg = -weight.count := by
  have stored := stored_unpack weight.toModel
  show units (Float.Model.pack (UnpackedFloat.neg weight.toModel.unpack)).unpack = _
  rw [count]
  cases value : weight.toModel.unpack with
  | notANumber => rfl
  | infinity sign =>
      rw [UnpackedFloat.neg, unpack_pack_infinity]
      cases sign with
      | positive => rfl
      | negative => exact (Int.neg_neg _).symm
  | zero sign =>
      rw [UnpackedFloat.neg, unpack_pack_zero]
      rfl
  | finite sign mantissa exponent above =>
      rw [value] at stored
      rw [UnpackedFloat.neg, unpack_pack _ above stored.1, if_pos stored.2]
      cases sign with
      | positive => rfl
      | negative => exact (Int.neg_neg _).symm

theorem is_finite_of_count (nonzero : weight.count ≠ 0) (bounded : weight.count.natAbs < ceiling) :
    weight.isFinite = true := by
  show UnpackedFloat.isFinite weight.toModel.unpack = true
  rw [count] at nonzero bounded
  cases value : weight.toModel.unpack with
  | notANumber => exact absurd (by rw [value, units]) nonzero
  | infinity sign =>
      have whole : (units (.infinity sign)).natAbs = 2 * ceiling := by
        cases sign with
        | positive => exact Int.natAbs_natCast _
        | negative => exact (Int.natAbs_neg _).trans (Int.natAbs_natCast _)
      rw [value, whole] at bounded
      omega
  | zero sign => rfl
  | finite sign mantissa exponent above => rfl

/-- A weight that counts as a whole number is one. -/
theorem exact_of_count (sign : Sign) (positive : 0 < number) (small : number < 2 ^ 53)
    (counts : weight.count = sign.apply (magnitude number 0 : Int)) :
    weight.isFinite = true ∧ weight.exact = (sign.apply (number : Int) : Int) := by
  have size : weight.count.natAbs = magnitude number 0 := by
    rw [counts]
    cases sign with
    | positive => exact Int.natAbs_natCast _
    | negative => exact (Int.natAbs_neg _).trans (Int.natAbs_natCast _)
  have nonzero := magnitude_pos positive 0
  have bounded := whole_lt_ceiling small
  have finite : weight.isFinite = true := is_finite_of_count (by omega) (by omega)
  have unit : ((magnitude number 0 : Nat) : ℚ) / 2 ^ 1074 = number := by
    rw [magnitude, Nat.cast_mul, Nat.cast_pow, Nat.cast_ofNat,
      show (0 + 1074 : Int).toNat = 1074 by rfl, mul_div_cancel_right₀ _ (by positivity)]
  refine ⟨finite, ?_⟩
  rw [exact_eq_count finite, counts]
  cases sign with
  | positive =>
      show ((magnitude number 0 : Int) : ℚ) / 2 ^ 1074 = ((number : Int) : ℚ)
      rw [Int.cast_natCast, unit, Int.cast_natCast]
  | negative =>
      show ((-(magnitude number 0 : Int) : Int) : ℚ) / 2 ^ 1074 = ((-(number : Int) : Int) : ℚ)
      rw [Int.cast_neg, Int.cast_natCast, neg_div, unit, Int.cast_neg, Int.cast_natCast]

end Whole

/-- Every 16-bit number is a weight with that value. -/
theorem exact_of_int16 (number : Int16) :
    (ofInt16 number).isFinite = true ∧ (ofInt16 number).exact = number.toInt := by
  have lower := number.le_toInt
  have upper := number.toInt_lt
  rw [ofInt16]
  generalize number.toInt = whole at lower upper
  cases whole with
  | ofNat amount =>
      have small : amount < 2 ^ 53 := by
        simp only [Int.ofNat_eq_natCast] at upper
        omega
      rcases Nat.eq_zero_or_pos amount with rfl | positive
      · refine ⟨rfl, ?_⟩
        show exact (Float.ofNat 0) = _
        rw [exact_eq_count rfl, count_of_nat (by decide), magnitude, Nat.zero_mul]
        simp
      · exact exact_of_count .positive positive small (count_of_nat small)
  | negSucc amount =>
      have small : amount + 1 < 2 ^ 53 := by omega
      exact exact_of_count .negative (Nat.succ_pos amount) small (by
        show count (Float.ofNat (amount + 1)).neg = _
        rw [count_neg, count_of_nat small]
        rfl)

/-- A 16-bit number is written as itself. -/
theorem to_int16_of_int16 (number : Int16) : (ofInt16 number).toInt16? = some number := by
  obtain ⟨finite, value⟩ := exact_of_int16 number
  obtain ⟨whole, rounds⟩ := exists_round finite
  obtain rfl : whole = number.toInt := by rw [round_eq_round_away rounds, value, round_away_int]
  have lower := number.le_toInt
  have upper := number.toInt_lt
  rw [toInt16?, rounds, Option.bind_some, if_pos (by omega), Int16.ofInt_toInt]

section Misfit

variable (weight : Weight)

/-- The weight is not a number, or infinite, or rounded to no 16-bit number. -/
def Misfit : Prop :=
  weight.isNaN = true ∨ weight.isInf = true ∨ roundAway weight.exact < -32768 ∨
    32767 < roundAway weight.exact

theorem round_eq_none_iff : round? weight = none ↔ weight.isNaN = true ∨ weight.isInf = true := by
  show round? weight = none ↔
    UnpackedFloat.isNaN weight.toModel.unpack = true ∨
    UnpackedFloat.isInf weight.toModel.unpack = true
  rw [round?, Binary64.of_float_eq]
  cases weight.toModel.unpack with
  | notANumber => exact iff_of_true rfl (.inl rfl)
  | infinity sign => exact iff_of_true rfl (.inr rfl)
  | zero sign =>
      refine iff_of_false (Option.some_ne_none _) ?_
      rintro (special | special) <;> exact Bool.false_ne_true special
  | finite sign mantissa exponent positive =>
      refine iff_of_false (Option.some_ne_none _) ?_
      rintro (special | special) <;> exact Bool.false_ne_true special

theorem to_int16_eq_none_iff : weight.toInt16? = none ↔ weight.Misfit := by
  rw [toInt16?, Misfit, ← or_assoc, ← round_eq_none_iff]
  cases rounds : round? weight with
  | none => simp
  | some whole =>
      obtain rfl := round_eq_round_away rounds
      rw [Option.bind_some, ite_eq_right_iff]
      simp only [reduceCtorEq, imp_false, false_or]
      omega

end Misfit

end Weight

end MorphLex
