import Mathlib.Algebra.Field.Rat
import Mathlib.Tactic.FieldSimp
import Mathlib.Tactic.Linarith
import Mathlib.Tactic.Positivity
import MorphLex.Proofs.Number.Shortest

/-!
The positional text of a decimal. Its digits before and behind the point spell the value
of the decimal, so two decimals with the same text have the same value.
-/

namespace MorphLex.Decimal

/-- The value of digits with at most one mark between them, which is the decimal point. -/
def spelled (characters : List Char) : ℚ :=
  let fraction := (characters.dropWhile Char.isDigit).drop 1
  Nat.ofDigitChars 10 (characters.takeWhile Char.isDigit) 0 + Nat.ofDigitChars 10 fraction 0 /
    10 ^ fraction.length

section Digits

variable {digits whole fraction : List Char}

theorem spelled_whole (plain : ∀ digit ∈ digits, digit.isDigit = true) :
    spelled digits = Nat.ofDigitChars 10 digits 0 := by
  rw [spelled, List.takeWhile_eq_self_iff.mpr plain, List.dropWhile_eq_nil_iff.mpr plain]
  simp

theorem spelled_point (plain : ∀ digit ∈ whole, digit.isDigit = true) :
    spelled (whole ++ '.' :: fraction) =
      Nat.ofDigitChars 10 whole 0 + Nat.ofDigitChars 10 fraction 0 / 10 ^ fraction.length := by
  rw [spelled, List.takeWhile_append_of_pos plain, List.dropWhile_append_of_pos plain,
    List.takeWhile_cons_of_neg (by decide), List.dropWhile_cons_of_neg (by decide), List.append_nil]
  rfl

theorem of_digit_chars_lt (plain : ∀ digit ∈ digits, digit.isDigit = true) :
    Nat.ofDigitChars 10 digits 0 < 10 ^ digits.length := by
  induction digits with
  | nil => exact Nat.one_pos
  | cons digit rest hypothesis =>
      have least := hypothesis fun digit member => plain digit (List.mem_cons_of_mem _ member)
      have small : digit.toNat - '0'.toNat ≤ 9 := by
        have shape := plain digit List.mem_cons_self
        simp only [Char.isDigit, Bool.and_eq_true, decide_eq_true_iff] at shape
        have most : digit.toNat ≤ '9'.toNat := shape.2
        exact Nat.sub_le_sub_right most '0'.toNat
      rw [Nat.ofDigitChars_cons, Nat.ofDigitChars_eq_ofDigitChars_zero, List.length_cons, pow_succ]
      nlinarith

/-- The digits behind a leading one are those of the rest, filled up with zeros. -/
theorem padded_spec {size rest : Nat} (positive : 0 < size) (below : rest < 10 ^ size) :
    (Nat.toDigits 10 (10 ^ size + rest)).tail.length = size ∧
      Nat.ofDigitChars 10 (Nat.toDigits 10 (10 ^ size + rest)).tail 0 = rest := by
  have whole := Nat.ofDigitChars_ten_toDigits (n := 10 ^ size + rest)
  have upper :=
    (Nat.length_toDigits_le_iff (b := 10) (n := 10 ^ size + rest) (by decide)
      (Nat.succ_pos size)).mpr
    (by rw [pow_succ]; omega)
  have lower :=
    (not_congr (Nat.length_toDigits_le_iff (b := 10) (n := 10 ^ size + rest) (by decide)
      positive)).mpr
    (by omega)
  have plain (digit : Char) (member : digit ∈ Nat.toDigits 10 (10 ^ size + rest)) :
      digit.isDigit = true :=
    Nat.isDigit_of_mem_toDigits (by decide) (by decide) member
  generalize Nat.toDigits 10 (10 ^ size + rest) = digits at *
  cases digits with
  | nil => simp at lower
  | cons first others =>
      have length : others.length = size := by
        rw [List.length_cons] at upper lower
        omega
      refine ⟨length, ?_⟩
      have small :=
        of_digit_chars_lt fun digit member => plain digit (List.mem_cons_of_mem _ member)
      rw [Nat.ofDigitChars_cons, Nat.ofDigitChars_eq_ofDigitChars_zero] at whole
      have parts := congrArg (· % 10 ^ size) whole
      rw [length] at small
      simpa [length, Nat.mod_eq_of_lt small, Nat.mod_eq_of_lt below] using parts

theorem exists_zeros (fraction : List Char) :
    ∃ count, fraction = (fraction.reverse.dropWhile (· == '0')).reverse ++
      List.replicate count '0' := by
  have zeros : fraction.reverse.takeWhile (· == '0') =
      List.replicate (fraction.reverse.takeWhile (· == '0')).length '0' :=
    List.eq_replicate_of_mem fun digit member => by simpa using List.mem_takeWhile_imp member
  refine ⟨(fraction.reverse.takeWhile (· == '0')).length, ?_⟩
  conv_lhs => rw [← List.reverse_reverse fraction,
    ← List.takeWhile_append_dropWhile (p := (· == '0')) (l := fraction.reverse),
    List.reverse_append, zeros, List.reverse_replicate]

/-- Zeros at the end of a fraction change nothing. -/
theorem fraction_of_zeros (kept : List Char) (count : Nat) :
    (Nat.ofDigitChars 10 (kept ++ List.replicate count '0') 0 : ℚ) /
      10 ^ (kept ++ List.replicate count '0').length =
      Nat.ofDigitChars 10 kept 0 / 10 ^ kept.length := by
  rw [Nat.ofDigitChars_append, Nat.ofDigitChars_replicate_zero, List.length_append,
    List.length_replicate, pow_add]
  push_cast
  field_simp

end Digits

theorem to_list_to_string (number : Nat) : (toString number).toList = Nat.toDigits 10 number :=
  Nat.toList_repr

theorem digits_plain (number : Nat) : ∀ digit ∈ (toString number).toList, digit.isDigit = true := by
  intro digit member
  rw [to_list_to_string] at member
  exact Nat.isDigit_of_mem_toDigits (by decide) (by decide) member

theorem spelled_digits (number : Nat) : spelled (toString number).toList = number := by
  rw [spelled_whole (digits_plain number), to_list_to_string, Nat.ofDigitChars_ten_toDigits]

/-- The digits behind the point, without the zeros at their end, stand for what the whole
digits leave over. -/
theorem fraction_spec {size : Nat} (positive : 0 < size) (digits : Nat) {fraction : List Char}
    (shape :
      ((Nat.toDigits 10 (10 ^ size + digits % 10 ^ size)).tail.reverse.dropWhile
        (· == '0')).reverse = fraction) :
    (∀ digit ∈ fraction, digit.isDigit = true) ∧
      (digits : ℚ) / 10 ^ size =
        (digits / 10 ^ size : Nat) + Nat.ofDigitChars 10 fraction 0 / 10 ^ fraction.length := by
  obtain ⟨length, amount⟩ :=
    padded_spec positive (Nat.mod_lt digits (Nat.pow_pos (n := size) (by decide : 0 < 10)))
  have plain (digit : Char)
    (member : digit ∈ (Nat.toDigits 10 (10 ^ size + digits % 10 ^ size)).tail) :
      digit.isDigit = true :=
        Nat.isDigit_of_mem_toDigits (by decide) (by decide) (List.mem_of_mem_tail member)
  generalize (Nat.toDigits 10 (10 ^ size + digits % 10 ^ size)).tail = padded at *
  obtain ⟨count, parts⟩ := exists_zeros padded
  rw [shape] at parts
  constructor
  · intro digit member
    apply plain
    rw [parts]
    exact List.mem_append_left _ member
  · have same := fraction_of_zeros fraction count
    rw [← parts, length, amount] at same
    have division := congrArg (Nat.cast (R := ℚ)) (Nat.div_add_mod digits (10 ^ size))
    rw [← same]
    push_cast at division ⊢
    field_simp
    linarith

/-- What the text is: whole digits, or whole digits and a fraction that is not empty. -/
theorem text_cases (number : Decimal) :
    (∃ whole : Nat, number.text = toString whole ∧ number.value = whole) ∨
    ∃ (whole : Nat) (fraction : List Char),
      number.text.toList = (toString whole).toList ++ '.' :: fraction ∧
      (∀ digit ∈ fraction, digit.isDigit = true) ∧
      number.value = whole + Nat.ofDigitChars 10 fraction 0 / 10 ^ fraction.length := by
  obtain ⟨digits, exponent⟩ := number
  simp only [text, value]
  split
  · next positive =>
      refine .inl ⟨_, rfl, ?_⟩
      lift exponent to Nat using positive
      simp
  · next negative =>
      have power : (digits : ℚ) * 10 ^ exponent = digits / 10 ^ (-exponent).toNat := by
        rw [zpow_eq_div (by norm_num), show exponent.toNat = 0 by omega, pow_zero, mul_one_div]
      rw [power]
      generalize shape :
        ((Nat.toDigits 10
          (10 ^ (-exponent).toNat + digits % 10 ^ (-exponent).toNat)).tail.reverse.dropWhile
        (· == '0')).reverse = fraction
      obtain ⟨plain, parts⟩ := fraction_spec (by omega) digits shape
      cases fraction with
      | nil => exact .inl ⟨_, rfl, by simpa using parts⟩
      | cons digit others => exact .inr ⟨_, digit :: others, by simp, plain, parts⟩

/-- A decimal's text spells its value. -/
theorem spelled_text (number : Decimal) : spelled number.text.toList = number.value := by
  obtain ⟨whole, text, value⟩ | ⟨whole, fraction, text, _, value⟩ := text_cases number
  · rw [text, value, spelled_digits]
  · rw [text, value, spelled_point (digits_plain whole), to_list_to_string,
      Nat.ofDigitChars_ten_toDigits]

theorem text_characters (number : Decimal) :
    ∀ character ∈ number.text.toList, character.isDigit = true ∨ character = '.' := by
  obtain ⟨whole, text, _⟩ | ⟨whole, fraction, text, plain, _⟩ := text_cases number
  · rw [text]
    exact fun character member => .inl (digits_plain whole character member)
  · rw [text]
    intro character member
    rcases List.mem_append.mp member with before | behind
    · exact .inl (digits_plain whole character before)
    · rcases List.mem_cons.mp behind with point | among
      · exact .inr point
      · exact .inl (plain character among)

end MorphLex.Decimal
