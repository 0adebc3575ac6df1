import MorphLex.Proofs.Number.Positional
import MorphLex.Proofs.Weight.Exact

/-!
The texts of finite weights. A finite weight is written as the shortest decimal that rounds
to it, so its text belongs to no other finite weight; the text has digits, a point and a
minus sign in it, and nothing else.
-/

open Float.Model Float.Model.UnpackedFloat

namespace MorphLex

theorem eq_of_negative {sign other : Sign} (agree : (sign == .negative) = (other == .negative)) :
    sign = other := by
  cases sign with
  | positive =>
      cases other with
      | positive => rfl
      | negative => exact absurd agree Bool.false_ne_true
  | negative =>
      cases other with
      | positive => exact absurd agree.symm Bool.false_ne_true
      | negative => rfl

theorem Binary64.of_unpacked_injective {first second : UnpackedFloat}
    (same : ofUnpacked first = ofUnpacked second) : first = second := by
  cases first <;> cases second <;> simp only [ofUnpacked, reduceCtorEq, Binary64.finite.injEq,
    Binary64.infinite.injEq] at same
  case infinity.infinity sign other => rw [eq_of_negative same]
  case notANumber.notANumber => rfl
  case zero.zero sign other => rw [eq_of_negative same.1]
  case zero.finite positive => omega
  case finite.zero positive _ => omega
  case finite.finite sign mantissa exponent positive other further place also =>
    obtain ⟨signs, rfl, rfl⟩ := same
    rw [eq_of_negative signs]

namespace Weight

variable {weight first second : Weight}

theorem of_float_injective (same : Binary64.ofFloat first = Binary64.ofFloat second) :
    first = second := by
  rw [Binary64.of_float_eq, Binary64.of_float_eq] at same
  have models := congrArg Float.Model.pack (Binary64.of_unpacked_injective same)
  rw [pack_unpack, pack_unpack] at models
  obtain ⟨model⟩ := first
  obtain ⟨other⟩ := second
  exact congrArg Float.ofModel models

theorem text_of_parts {negative : Bool} {mantissa : Nat} {exponent : Int}
    (parts : Binary64.ofFloat weight = .finite negative mantissa exponent) :
    weight.text.toList =
      (if negative then ['-'] else []) ++ (Decimal.shortest mantissa exponent).text.toList := by
  rw [text, parts, String.toList_append]
  cases negative <;> rfl

/-- A finite weight is written with digits, a point and a minus sign. -/
theorem text_characters (finite : weight.isFinite = true) : ∀ character ∈ weight.text.toList,
    character.isDigit = true ∨ character = '.' ∨ character = '-' := by
  obtain ⟨negative, mantissa, exponent, parts, _, _⟩ := exists_parts finite
  intro character member
  rw [text_of_parts parts] at member
  rcases List.mem_append.mp member with sign | among
  · cases negative with
    | true => exact .inr (.inr (List.mem_singleton.mp sign))
    | false => exact absurd sign List.not_mem_nil
  · rcases Decimal.text_characters _ character among with digit | point
    · exact .inl digit
    · exact .inr (.inl point)

/-- A minus sign is told from the digits behind it. -/
theorem sign_split {negative other : Bool} {mantissa further : Nat} {exponent place : Int}
    (same : (if negative then ['-'] else []) ++ (Decimal.shortest mantissa exponent).text.toList =
      (if other then ['-'] else []) ++ (Decimal.shortest further place).text.toList) :
    negative = other ∧
      (Decimal.shortest mantissa exponent).text.toList =
        (Decimal.shortest further place).text.toList := by
  have unsigned (number : Decimal) {rest : List Char} (starts : '-' :: rest = number.text.toList) :
      False :=
    (Decimal.text_characters number '-' (starts ▸ List.mem_cons_self)).elim (by decide) (by decide)
  cases negative with
  | true =>
      cases other with
      | true => exact ⟨rfl, List.tail_eq_of_cons_eq same⟩
      | false => exact (unsigned _ same).elim
  | false =>
      cases other with
      | true => exact (unsigned _ same.symm).elim
      | false => exact ⟨rfl, same⟩

/-- Different finite weights have different texts. -/
theorem text_injective (finite : first.isFinite = true) (others : second.isFinite = true)
    (same : first.text = second.text) : first = second := by
  obtain ⟨negative, mantissa, exponent, parts, form, bounded⟩ := exists_parts finite
  obtain ⟨other, further, place, pieces, shape, limited⟩ := exists_parts others
  have characters := congrArg String.toList same
  rw [text_of_parts parts, text_of_parts pieces] at characters
  obtain ⟨rfl, decimals⟩ := sign_split characters
  have values :
      (Decimal.shortest mantissa exponent).value = (Decimal.shortest further place).value := by
    rw [← Decimal.spelled_text, decimals, Decimal.spelled_text]
  obtain ⟨rfl, rfl⟩ := Decimal.shortest_value_injective form bounded shape limited values
  exact of_float_injective (parts.trans pieces.symm)

end Weight

end MorphLex
