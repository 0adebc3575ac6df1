import Mathlib.Computability.Language
import MorphLex.Pattern.Basic
import MorphLex.Proofs.Transducer.Run

/-!
The words of a pattern. Sequences concatenate, alternatives unite, a quantifier
repeats the atom in front of it, and a class stands for each of its characters.
The copying traces of a word read and write it, without weight.
-/

open scoped Pointwise

namespace MorphLex

namespace CharRange

theorem mem_to_list_iff (range : CharRange) (character : Char) :
    character ∈ range.toList ↔ range.low ≤ character ∧ character ≤ range.high := by
  rw [toList, List.mem_filterMap, Char.le_def, Char.le_def, UInt32.le_iff_toNat_le,
    UInt32.le_iff_toNat_le]
  have bound (lower upper code : Nat) :
      code ∈ List.range' lower (upper + 1 - lower) ↔ lower ≤ code ∧ code ≤ upper := by
    rw [List.mem_range'_1]
    omega
  constructor
  · rintro ⟨code, inside, decoded⟩
    split at decoded
    · next valid =>
      obtain rfl := Option.some.inj decoded
      have same : (Char.ofNat code).toNat = code := by
        rw [Char.ofNat, dif_pos valid]
        rfl
      rw [bound] at inside
      rw [← same] at inside
      exact inside
    · exact absurd decoded (by simp)
  · intro inside
    have valid : character.toNat.isValidChar := character.valid
    exact ⟨character.toNat, (bound _ _ _).mpr inside, by rw [if_pos valid, Char.ofNat_toNat]⟩

end CharRange

namespace CharClass

def Lists (cls : CharClass) (character : Char) : Prop :=
  ∃ range ∈ cls.ranges, range.low ≤ character ∧ character ≤ range.high

/-- What the class stands for: what it lists, or else the rest of the alphabet. -/
def Matches (alphabet : CharSet) (cls : CharClass) (character : Char) : Prop :=
  if cls.negated then character ∈ alphabet ∧ ¬cls.Lists character else cls.Lists character

theorem lists_iff (cls : CharClass) (character : Char) :
    cls.lists character = true ↔ cls.Lists character := by
  simp [lists, Lists, CharRange.contains]

theorem mem_members_iff (alphabet : CharSet) (cls : CharClass) (character : Char) :
    character ∈ cls.members alphabet ↔ cls.Matches alphabet character := by
  unfold members Matches
  split
  · rw [CharSet.mem_filter, ← lists_iff]
    simp
  · rw [CharSet.mem_of_list, List.mem_flatMap]
    simp only [CharRange.mem_to_list_iff]
    rfl

end CharClass

namespace Pattern

def Quantifier.Allows : Quantifier → Nat → Prop
  | .once, count => count = 1
  | .oneOrMore, count => 1 ≤ count
  | .zeroOrMore, _ => True
  | .atMostOnce, count => count ≤ 1

def Quantifier.language (quantifier : Quantifier) (words : Language Char) : Language Char :=
  { word | ∃ count, quantifier.Allows count ∧ word ∈ words ^ count }

mutual

def Atom.language (alphabet : CharSet) : Atom → Language Char
  | .literal character => {[character]}
  | .oneOf cls => { word | ∃ character, cls.Matches alphabet character ∧ word = [character] }
  | .nested group => group.language alphabet

def Sequence.language (alphabet : CharSet) : Sequence → Language Char
  | .empty => 1
  | .cons atom quantifier rest =>
      quantifier.language (atom.language alphabet) * rest.language alphabet

def Group.language (alphabet : CharSet) : Group → Language Char
  | .only sequence => sequence.language alphabet
  | .either sequence others => sequence.language alphabet + others.language alphabet

end

end Pattern

namespace Trace

def copy (word : List Char) : Trace := ⟨word.map Symbol.ofChar, word.map Symbol.ofChar, []⟩

def copies (words : Language Char) : Set Trace := { trace | ∃ word ∈ words, trace = copy word }

theorem copy_append (front back : List Char) : copy (front ++ back) = copy front * copy back := by
  ext1 <;> simp [copy]

theorem copies_one : copies 1 = 1 := by
  ext trace
  rw [Set.mem_one]
  constructor
  · rintro ⟨word, rfl, rfl⟩
    rfl
  · rintro rfl
    exact ⟨[], rfl, rfl⟩

theorem copies_mul (first second : Language Char) :
    copies (first * second) = copies first * copies second := by
  ext trace
  rw [Set.mem_mul]
  constructor
  · rintro ⟨_, ⟨front, inFirst, back, inSecond, rfl⟩, rfl⟩
    exact ⟨_, ⟨front, inFirst, rfl⟩, _, ⟨back, inSecond, rfl⟩, (copy_append front back).symm⟩
  · rintro ⟨_, ⟨front, inFirst, rfl⟩, _, ⟨back, inSecond, rfl⟩, rfl⟩
    exact ⟨front ++ back, ⟨front, inFirst, back, inSecond, rfl⟩, (copy_append front back).symm⟩

theorem copies_add (first second : Language Char) :
    copies (first + second) = copies first ∪ copies second := by
  ext trace
  constructor
  · rintro ⟨word, inFirst | inSecond, rfl⟩
    · exact .inl ⟨word, inFirst, rfl⟩
    · exact .inr ⟨word, inSecond, rfl⟩
  · rintro (⟨word, member, rfl⟩ | ⟨word, member, rfl⟩)
    · exact ⟨word, .inl member, rfl⟩
    · exact ⟨word, .inr member, rfl⟩

theorem copies_pow (words : Language Char) (count : Nat) :
    copies (words ^ count) = copies words ^ count := by
  induction count with
  | zero => rw [pow_zero, pow_zero, copies_one]
  | succ count ih => rw [pow_succ, pow_succ, copies_mul, ih]

theorem mem_copies_quantified_iff (quantifier : Pattern.Quantifier) (words : Language Char)
    (trace : Trace) :
    trace ∈ copies (quantifier.language words) ↔
      ∃ count, quantifier.Allows count ∧ trace ∈ copies words ^ count := by
  simp only [← copies_pow]
  constructor
  · rintro ⟨word, ⟨count, allowed, member⟩, rfl⟩
    exact ⟨count, allowed, word, member, rfl⟩
  · rintro ⟨count, allowed, word, member, rfl⟩
    exact ⟨word, ⟨count, allowed, member⟩, rfl⟩

end Trace

end MorphLex
