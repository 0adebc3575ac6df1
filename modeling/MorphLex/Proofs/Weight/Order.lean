import MorphLex.Proofs.Weight.Zero

/-!
The order of the weights is the order of whole numbers. A finite weight is a whole
number of the smallest positive one, and the infinite ones lie beyond all of these.
-/

open Float.Model Float.Model.UnpackedFloat

namespace MorphLex.Weight

/-- How often a mantissa with that exponent holds the smallest positive weight. -/
def magnitude (mantissa : Nat) (exponent : Int) : Nat := mantissa * 2 ^ (exponent + 1074).toNat

theorem magnitude_lt_magnitude {mantissa other : Nat} {exponent : Int} (less : mantissa < other) :
    magnitude mantissa exponent < magnitude other exponent :=
  Nat.mul_lt_mul_of_pos_right less (Nat.two_pow_pos _)

/-- The one mantissa and exponent that a magnitude is written with. -/
structure Canonical (mantissa : Nat) (exponent : Int) : Prop where
  narrow : mantissa < 2 ^ 53
  above : -1074 ≤ exponent
  wide : 2 ^ 52 ≤ mantissa ∨ exponent = -1074

namespace Canonical

variable {mantissa other : Nat} {exponent further : Int}

theorem magnitude_lt (form : Canonical mantissa exponent) (others : Canonical other further)
    (lower : exponent < further) : magnitude mantissa exponent < magnitude other further := by
  have raised : (exponent + 1074).toNat + 1 ≤ (further + 1074).toNat := by
    have := form.above
    omega
  have filled : 2 ^ 52 ≤ other := others.wide.resolve_right (by have := form.above; omega)
  calc magnitude mantissa exponent < 2 ^ 53 * 2 ^ (exponent + 1074).toNat :=
        Nat.mul_lt_mul_of_pos_right form.narrow (Nat.two_pow_pos _)
    _ = 2 ^ 52 * 2 ^ ((exponent + 1074).toNat + 1) := by rw [pow_succ]; omega
    _ ≤ 2 ^ 52 * 2 ^ (further + 1074).toNat :=
      Nat.mul_le_mul_left _ (Nat.pow_le_pow_right (by decide) raised)
    _ ≤ magnitude other further := Nat.mul_le_mul_right _ filled

theorem compare_magnitude (form : Canonical mantissa exponent) (others : Canonical other further) :
    (compare exponent further).then (compare mantissa other) =
      compare (magnitude mantissa exponent) (magnitude other further) := by
  rcases lt_trichotomy exponent further with lower | rfl | higher
  · rw [compare_lt_iff_lt.mpr lower, compare_lt_iff_lt.mpr (form.magnitude_lt others lower)]
    rfl
  · rw [compare_eq_iff_eq.mpr rfl]
    rcases lt_trichotomy mantissa other with less | rfl | more
    · rw [compare_lt_iff_lt.mpr less, compare_lt_iff_lt.mpr (magnitude_lt_magnitude less)]
      rfl
    · rw [compare_eq_iff_eq.mpr rfl, compare_eq_iff_eq.mpr rfl]
      rfl
    · rw [compare_gt_iff_gt.mpr more, compare_gt_iff_gt.mpr (magnitude_lt_magnitude more)]
      rfl
  · rw [compare_gt_iff_gt.mpr higher, compare_gt_iff_gt.mpr (others.magnitude_lt form higher)]
    rfl

end Canonical

/-- The least magnitude that is no longer a finite weight. -/
def ceiling : Nat := magnitude (2 ^ 52) 972

theorem canonical_ceiling : Canonical (2 ^ 52) 972 := ⟨by decide, by decide, .inl (Nat.le_refl _)⟩

theorem Canonical.magnitude_lt_ceiling {mantissa : Nat} {exponent : Int}
    (form : Canonical mantissa exponent) (finite : exponent ≤ 971) :
    magnitude mantissa exponent < ceiling :=
  form.magnitude_lt canonical_ceiling (by omega)

/-- What is stored of a weight: a finite one is canonical and within the bounds. -/
def Stored : UnpackedFloat → Prop
  | .finite _ mantissa exponent _ => Canonical mantissa exponent ∧ exponent ≤ 971
  | _ => True

theorem to_nat_one_append (mantissa : BitVec 52) :
    (1#1 ++ mantissa).toNat = 2 ^ 52 + mantissa.toNat := by
  have below := mantissa.isLt
  rw [BitVec.toNat_append, ← Nat.shiftLeft_add_eq_or_of_lt below]
  rfl

theorem stored_unpack (model : Float.Model) : Stored model.unpack := by
  have scale :
      ((Format.binary64.exponentBias : Int) + (Format.binary64.mantissaBitsWithoutImplicit : Int)) =
        1075 := by
    decide
  unfold Float.Model.unpack UnpackedFloat.unpack
  dsimp only
  rw [scale]
  have narrow : (@unpackMantissa .binary64 model.toBits.toBitVec).toNat < 2 ^ 52 := BitVec.isLt _
  have filled := to_nat_one_append (@unpackMantissa .binary64 model.toBits.toBitVec)
  generalize @unpackExponent .binary64 model.toBits.toBitVec = exponent
  have bounded : exponent.toNat < 2048 := exponent.isLt
  split
  · split
    · trivial
    · trivial
  · next finite =>
    have finite : exponent.toNat ≠ 2047 := fun same => finite (BitVec.eq_of_toNat_eq same)
    split
    · next least =>
      split
      · trivial
      · subst least
        exact ⟨⟨Nat.lt_trans narrow (by decide), by decide, .inr (by decide)⟩, by decide⟩
    · next normal =>
      have normal : exponent.toNat ≠ 0 := fun same => normal (BitVec.eq_of_toNat_eq same)
      exact ⟨⟨by omega, by omega, .inl (by omega)⟩, by omega⟩

/-- The weight as a whole number of the smallest positive one; a weight that is no
number has none, and is given none. -/
def units : UnpackedFloat → Int
  | .infinity sign => sign.apply ((2 * ceiling : Nat) : Int)
  | .notANumber => 0
  | .zero _ => 0
  | .finite sign mantissa exponent _ => sign.apply (magnitude mantissa exponent)

theorem magnitude_pos {mantissa : Nat} (positive : 0 < mantissa) (exponent : Int) :
    0 < magnitude mantissa exponent :=
  Nat.mul_pos positive (Nat.two_pow_pos _)

theorem ceiling_pos : 0 < ceiling := magnitude_pos (by decide) 972

theorem compare_sign (first second : Sign) :
    compare first second = compare (first.apply 1) (second.apply 1) := by
  cases first <;> cases second <;> rfl

theorem compare_eq_units {first second : UnpackedFloat} (stored : Stored first)
    (others : Stored second) (number : first ≠ .notANumber) (another : second ≠ .notANumber) :
    first.compare second = some (compare (units first) (units second)) := by
  have beyond := ceiling_pos
  cases first with
  | notANumber => exact absurd rfl number
  | infinity sign =>
      cases second with
      | notANumber => exact absurd rfl another
      | infinity other =>
          rw [UnpackedFloat.compare, compare_sign]
          cases sign <;> cases other <;>
            simp only [units, Sign.apply, Int.compare_eq_ite_lt] <;> grind
      | zero other =>
          cases sign <;>
            simp only [UnpackedFloat.compare, units, Sign.apply, Int.compare_eq_ite_lt] <;> grind
      | finite other further next more =>
          have below := others.1.magnitude_lt_ceiling others.2
          cases sign <;> cases other <;>
            simp only [UnpackedFloat.compare, units, Sign.apply, Int.compare_eq_ite_lt] <;> grind
  | zero sign =>
      cases second with
      | notANumber => exact absurd rfl another
      | infinity other =>
          cases other <;>
            simp only [UnpackedFloat.compare, units, Sign.apply, Int.compare_eq_ite_lt] <;> grind
      | zero other => rfl
      | finite other further next more =>
          have positive := magnitude_pos more next
          cases other <;>
            simp only [UnpackedFloat.compare, units, Sign.apply, Int.compare_eq_ite_lt] <;> grind
  | finite sign mantissa exponent above =>
      have positive := magnitude_pos above exponent
      cases second with
      | notANumber => exact absurd rfl another
      | infinity other =>
          have below := stored.1.magnitude_lt_ceiling stored.2
          cases sign <;> cases other <;>
            simp only [UnpackedFloat.compare, units, Sign.apply, Int.compare_eq_ite_lt] <;> grind
      | zero other =>
          cases sign <;>
            simp only [UnpackedFloat.compare, units, Sign.apply, Int.compare_eq_ite_lt] <;> grind
      | finite other further next more =>
          have others_positive := magnitude_pos more next
          have order := stored.1.compare_magnitude others.1
          rw [Nat.compare_eq_ite_lt (magnitude mantissa exponent)] at order
          cases sign <;> cases other <;>
            simp only [UnpackedFloat.compare, units, Sign.apply, order] <;>
            simp only [Int.compare_eq_ite_lt] <;> grind [Ordering.swap]

/-- The weight can be compared with others. -/
def IsNumber (weight : Weight) : Prop := weight.isNaN = false

instance (weight : Weight) : Decidable weight.IsNumber :=
  inferInstanceAs (Decidable (weight.isNaN = false))

/-- How often a weight holds the smallest positive one. -/
def count (weight : Weight) : Int := units weight.toModel.unpack

variable {first second third : Weight}

theorem is_number_iff (weight : Weight) :
    weight.IsNumber ↔ weight.toModel.unpack ≠ .notANumber := by
  show UnpackedFloat.isNaN weight.toModel.unpack = false ↔ _
  rw [← Bool.not_eq_true, isNaN_iff]

theorem compare_eq_some (number : first.IsNumber) (another : second.IsNumber) :
    first.toModel.unpack.compare second.toModel.unpack = some (compare first.count second.count) :=
  compare_eq_units (stored_unpack _) (stored_unpack _) ((is_number_iff _).mp number)
    ((is_number_iff _).mp another)

theorem compare_eq_none (absent : ¬(first.IsNumber ∧ second.IsNumber)) :
    first.toModel.unpack.compare second.toModel.unpack = none := by
  rw [is_number_iff, is_number_iff, not_and_or, not_not, not_not] at absent
  rcases absent with nan | nan
  · rw [nan]
    rfl
  · rw [nan]
    cases first.toModel.unpack <;> rfl

theorem le_iff_count :
    first ≤ second ↔ first.IsNumber ∧ second.IsNumber ∧ first.count ≤ second.count := by
  show decide ((first.toModel.unpack.compare second.toModel.unpack).any (·.isLE) = true) = true ↔ _
  rw [decide_eq_true_iff]
  by_cases numbers : first.IsNumber ∧ second.IsNumber
  · rw [compare_eq_some numbers.1 numbers.2, Option.any_some, Std.isLE_compare]
    exact ⟨fun le => ⟨numbers.1, numbers.2, le⟩, fun both => both.2.2⟩
  · rw [compare_eq_none numbers]
    exact ⟨fun none => absurd none (by simp), fun both => absurd ⟨both.1, both.2.1⟩ numbers⟩

theorem lt_iff_count :
    first < second ↔ first.IsNumber ∧ second.IsNumber ∧ first.count < second.count := by
  show decide ((first.toModel.unpack.compare second.toModel.unpack == some .lt) = true) = true ↔ _
  rw [decide_eq_true_iff]
  by_cases numbers : first.IsNumber ∧ second.IsNumber
  · rw [compare_eq_some numbers.1 numbers.2, beq_iff_eq, Option.some.injEq, compare_lt_iff_lt]
    exact ⟨fun less => ⟨numbers.1, numbers.2, less⟩, fun both => both.2.2⟩
  · rw [compare_eq_none numbers]
    exact ⟨fun none => absurd none (by simp), fun both => absurd ⟨both.1, both.2.1⟩ numbers⟩

theorem le_refl (number : first.IsNumber) : first ≤ first :=
  le_iff_count.mpr ⟨number, number, Int.le_refl _⟩

theorem le_trans (lower : first ≤ second) (upper : second ≤ third) : first ≤ third := by
  obtain ⟨number, _, front⟩ := le_iff_count.mp lower
  obtain ⟨_, another, back⟩ := le_iff_count.mp upper
  exact le_iff_count.mpr ⟨number, another, Int.le_trans front back⟩

/-- Of two weights that are numbers, one is at most the other. -/
theorem le_total (number : first.IsNumber) (another : second.IsNumber) :
    first ≤ second ∨ second ≤ first := by
  rcases Int.le_total first.count second.count with le | ge
  · exact .inl (le_iff_count.mpr ⟨number, another, le⟩)
  · exact .inr (le_iff_count.mpr ⟨another, number, ge⟩)

theorem le_of_lt (less : first < second) : first ≤ second := by
  obtain ⟨number, another, below⟩ := lt_iff_count.mp less
  exact le_iff_count.mpr ⟨number, another, Int.le_of_lt below⟩

theorem not_lt_iff_le (number : first.IsNumber) (another : second.IsNumber) :
    ¬first < second ↔ second ≤ first := by
  rw [lt_iff_count, le_iff_count]
  simp only [number, another, true_and, Int.not_lt]

/-- The sign of a zero is of no account for the order. -/
theorem plain_same_place (weight : Weight) :
    (weight.plain.IsNumber ↔ weight.IsNumber) ∧ weight.plain.count = weight.count := by
  by_cases zero : (weight == 0.0) = true
  · rw [plain_of_zero zero]
    rcases (beq_zero_iff weight).mp zero with rfl | rfl
    · exact ⟨Iff.rfl, rfl⟩
    · exact ⟨by decide, by decide⟩
  · rw [plain_of_nonzero zero]
    exact ⟨Iff.rfl, rfl⟩

theorem le_of_le_of_plain_eq (le : first ≤ second) (same : second.plain = third.plain) :
    first ≤ third := by
  obtain ⟨number, another, below⟩ := le_iff_count.mp le
  rw [← (plain_same_place second).1, same, (plain_same_place third).1] at another
  rw [← (plain_same_place second).2, same, (plain_same_place third).2] at below
  exact le_iff_count.mpr ⟨number, another, below⟩

/-- Equal weights differ in the sign of a zero at most. -/
theorem plain_eq_of_count_eq (number : first.IsNumber) (another : second.IsNumber)
    (same : first.count = second.count) : first.plain = second.plain := by
  have equal : (first == second) = true := by
    show (first.toModel.unpack.compare second.toModel.unpack == some .eq) = true
    rw [compare_eq_some number another, same, compare_eq_iff_eq.mpr rfl]
    rfl
  rcases Float.beq_iff_ne_nan_and_eq.mp equal with ⟨_, _, rfl | ⟨rfl, rfl⟩ | ⟨rfl, rfl⟩⟩
  · rfl
  · decide
  · decide

theorem plain_eq_of_le_of_le (lower : first ≤ second) (upper : second ≤ first) :
    first.plain = second.plain := by
  obtain ⟨number, another, front⟩ := le_iff_count.mp lower
  exact plain_eq_of_count_eq number another (Int.le_antisymm front (le_iff_count.mp upper).2.2)

end MorphLex.Weight
