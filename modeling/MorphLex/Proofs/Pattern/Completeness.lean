import MorphLex.Pattern.Build
import MorphLex.Proofs.Pattern.Reading

/-!
Every text that spells a pattern is read, and read as that pattern. Each reader is
given a text of its shape with something behind it, and stops where that begins.
-/

namespace MorphLex.Pattern

open Result

/-- The outcome is this value, with this text left over. -/
def Takes {Value : Type} {bound : Nat} (outcome : Except Fault (Taken Value bound)) (value : Value)
    (rest : List Char) : Prop :=
  ∃ le, outcome = .ok ⟨value, rest, le⟩

theorem range_end_takes (size : Nat) {character : Char} {text : List Char} (rest : List Char)
    (spelled : CharClass.Spelled character text) :
    Takes (rangeEnd size (text ++ rest)) character rest := by
  rcases spelled with rfl | ⟨usual, rfl⟩
  · exact ⟨Nat.le_add_right rest.length 2, by simp [rangeEnd]⟩
  · simp only [List.mem_cons, List.not_mem_nil, or_false, not_or] at usual
    exact ⟨Nat.le_succ rest.length, by simp [rangeEnd, usual]⟩

theorem class_members_takes_item (size : Nat) (start : Option Char) {character : Char}
    {item tail rest : List Char} {ranges : List CharRange}
    (spelled : CharClass.Spelled character item)
    (later : Takes (classMembers size (some character) tail) ranges rest) :
    Takes (classMembers size start (item ++ tail)) (.single character :: ranges) rest := by
  obtain ⟨le, read⟩ := later
  rcases spelled with rfl | ⟨usual, rfl⟩
  · refine ⟨Nat.le_trans le (Nat.le_add_right tail.length 2), ?_⟩
    show classMembers size start ('\\' :: character :: tail) = _
    unfold classMembers
    dsimp only
    rw [if_neg (by decide), if_neg (by decide), if_pos rfl, read]
    rfl
  · refine ⟨Nat.le_trans le (Nat.le_succ tail.length), ?_⟩
    simp only [List.mem_cons, List.not_mem_nil, or_false, not_or] at usual
    show classMembers size start (character :: tail) = _
    unfold classMembers
    dsimp only
    rw [if_neg usual.1, if_neg usual.2.1, if_neg usual.2.2, read]
    rfl

theorem class_members_takes_range (size : Nat) {low high : Char} {ending tail rest : List Char}
    {ranges : List CharRange} (last : CharClass.Spelled high ending) (ascends : low < high)
    (later : Takes (classMembers size none tail) ranges rest) :
    Takes (classMembers size (some low) ('-' :: (ending ++ tail)))
      (⟨low, high⟩ :: ranges) rest := by
  obtain ⟨le, read⟩ := later
  obtain ⟨shorter, ended⟩ := range_end_takes size tail last
  refine ⟨Nat.le_trans le (Nat.le_trans shorter (Nat.le_succ _)), ?_⟩
  unfold classMembers
  dsimp only
  rw [if_neg (by decide), if_pos rfl]
  simp [ended, read, Char.not_le.mpr ascends, bind, Except.bind, pure, Except.pure]

theorem class_members_takes (size : Nat) {ranges : List CharRange} {text : List Char}
    (members : CharClass.Members ranges text) (start : Option Char) (rest : List Char) :
    Takes (classMembers size start (text ++ ']' :: rest)) ranges rest := by
  induction members generalizing start with
  | none =>
      refine ⟨Nat.le_succ rest.length, ?_⟩
      show classMembers size start (']' :: rest) = _
      unfold classMembers
      rfl
  | single item _ ih =>
      rw [List.append_assoc]
      exact class_members_takes_item size start item (ih _)
  | range first last ascends _ ih =>
      rw [List.append_assoc, List.append_assoc, List.cons_append]
      exact class_members_takes_item size start first
        (class_members_takes_range size last ascends (ih none))

theorem char_class_takes (size : Nat) {alphabet : CharSet} {cls : CharClass} {text : List Char}
    (spelled : cls.SpelledBy text) (inhabited : ∃ character, character ∈ cls.members alphabet)
    (rest : List Char) : Takes (charClass size alphabet (text ++ ']' :: rest)) cls rest := by
  have nonempty : ¬(cls.members alphabet).isEmpty = true := by
    obtain ⟨character, member⟩ := inhabited
    rw [CharSet.isEmpty, List.isEmpty_iff]
    exact List.ne_nil_of_mem member
  obtain ⟨negated, ranges⟩ := cls
  cases negated with
  | true =>
      obtain ⟨members, rfl, listed⟩ := spelled
      obtain ⟨le, read⟩ := class_members_takes size listed none rest
      refine ⟨Nat.le_trans le (Nat.le_succ _), ?_⟩
      simp [charClass, read, nonempty, Taken.map, Taken.widen, bind, Except.bind, pure, Except.pure]
  | false =>
      obtain ⟨noCaret, listed⟩ := spelled
      obtain ⟨le, read⟩ := class_members_takes size listed none rest
      refine ⟨le, ?_⟩
      have first : (text ++ ']' :: rest).head? ≠ some '^' := by
        cases text with
        | nil => simp
        | cons first text => exact noCaret
      generalize text ++ ']' :: rest = input at first le read
      unfold charClass
      dsimp only
      split
      · exact absurd rfl first
      · simp [read, nonempty, Taken.map, bind, Except.bind, pure, Except.pure]

theorem quantifier_takes (quantity : Quantifier) {rest : List Char}
    (bare : ∀ first ∈ rest.head?, first ∉ ['+', '*', '?']) :
    ∃ le, quantifier (quantity.text ++ rest) = ⟨quantity, rest, le⟩ := by
  cases quantity with
  | oneOrMore => exact ⟨Nat.le_succ _, rfl⟩
  | zeroOrMore => exact ⟨Nat.le_succ _, rfl⟩
  | atMostOnce => exact ⟨Nat.le_succ _, rfl⟩
  | once =>
      refine ⟨Nat.le_refl _, ?_⟩
      cases rest with
      | nil => rfl
      | cons first rest =>
          have other := bare first rfl
          simp only [List.mem_cons, List.not_mem_nil, or_false, not_or] at other
          simp [quantifier, Quantifier.text, other]

section Readers

variable {alphabet : CharSet}

/-- An atom begins with no character that would be read as part of what stands
before it. -/
theorem Atom.SpelledBy.begins {atom : Atom} {text : List Char}
    (spelled : atom.SpelledBy alphabet text) :
    ∃ first later, text = first :: later ∧ first ∉ ['+', '*', '?', '|', ')'] := by
  cases atom with
  | literal character =>
      rcases spelled with rfl | ⟨usual, rfl⟩
      · exact ⟨'\\', [character], rfl, by decide⟩
      · refine ⟨character, [], rfl, fun member => usual ?_⟩
        simp only [reserved, List.mem_cons, List.not_mem_nil, or_false] at member ⊢
        tauto
  | oneOf cls =>
      obtain ⟨inner, rfl, _⟩ := spelled
      exact ⟨'[', inner ++ [']'], rfl, by decide⟩
  | nested group =>
      obtain ⟨inner, rfl, _⟩ := spelled
      exact ⟨'(', inner ++ [')'], rfl, by decide⟩

/-- What may stand behind a sequence. -/
def Ends (rest : List Char) : Prop :=
  ∀ first ∈ rest.head?, first = '|' ∨ first = ')'

theorem Sequence.SpelledBy.bare {sequence : Sequence} {text rest : List Char}
    (spelled : sequence.SpelledBy alphabet text) (ends : Ends rest) :
    ∀ first ∈ (text ++ rest).head?, first ∉ ['+', '*', '?'] := by
  intro first member
  cases sequence with
  | empty =>
      obtain rfl : text = [] := spelled
      rcases ends first member with rfl | rfl
      · decide
      · decide
  | cons atom quantity later =>
      obtain ⟨front, back, rfl, begins, _⟩ := spelled
      obtain ⟨initial, tail, rfl, other⟩ := begins.begins
      obtain rfl : initial = first := by simpa using member
      intro quantified
      apply other
      simp only [List.mem_cons, List.not_mem_nil, or_false] at quantified ⊢
      tauto

/-- How the text of a group ends, given what is left over behind it. -/
def closing (nested : Bool) (rest : List Char) : List Char :=
  if nested then ')' :: rest else []

theorem ends_closing (nested : Bool) (rest : List Char) : Ends (closing nested rest) := by
  cases nested with
  | true => simp [Ends, closing]
  | false => simp [Ends, closing]

theorem group_takes_closing (size : Nat) (nested : Bool) {pattern : Sequence}
    {input rest : List Char}
    (front : Takes (sequence size alphabet input) pattern (closing nested rest)) :
    Takes (group size alphabet nested input) (.only pattern) (if nested then rest else []) := by
  obtain ⟨le, read⟩ := front
  cases nested with
  | true =>
      have shorter : rest.length < input.length := le
      refine ⟨Nat.le_of_lt shorter, ?_⟩
      unfold group
      simp [read, closing, bind, Except.bind, pure, Except.pure]
  | false =>
      refine ⟨Nat.zero_le _, ?_⟩
      unfold group
      simp [read, closing, bind, Except.bind, pure, Except.pure]

theorem group_takes_bar (size : Nat) (nested : Bool) {pattern : Sequence} {others : Group}
    {input later rest : List Char}
    (front : Takes (sequence size alphabet input) pattern ('|' :: later))
    (back : Takes (group size alphabet nested later) others rest) :
    Takes (group size alphabet nested input) (.either pattern others) rest := by
  obtain ⟨le, read⟩ := front
  obtain ⟨shorter, further⟩ := back
  refine ⟨Nat.le_trans shorter (Nat.le_of_succ_le le), ?_⟩
  unfold group
  simp [read, further, bind, Except.bind, pure, Except.pure]

theorem sequence_takes_cons (size : Nat) {first : Char} {front back rest : List Char}
    {pattern : Atom} {quantity : Quantifier} {later : Sequence}
    (begins : first ∉ ['+', '*', '?', '|', ')'])
    (bare : ∀ next ∈ back.head?, next ∉ ['+', '*', '?'])
    (head : Takes (atom size alphabet first front) pattern (quantity.text ++ back))
    (tail : Takes (sequence size alphabet back) later rest) :
    Takes (sequence size alphabet (first :: front)) (.cons pattern quantity later) rest := by
  obtain ⟨_, stops⟩ := quantifier_takes quantity bare
  rw [show back = (quantifier (quantity.text ++ back)).rest by rw [stops]] at tail
  obtain ⟨le, read⟩ := head
  obtain ⟨shorter, further⟩ := tail
  simp only [List.mem_cons, List.not_mem_nil, or_false, not_or] at begins
  have behind : rest.length ≤ front.length :=
    Nat.le_trans shorter (Nat.le_trans (quantifier _).le le)
  refine ⟨Nat.le_succ_of_le behind, ?_⟩
  unfold sequence
  dsimp only
  rw [if_neg (not_or.mpr begins.2.2.2)]
  exact bind_eq_ok_iff.mpr ⟨_, read,
    bind_eq_ok_iff.mpr ⟨_, further, pure_eq_ok_iff.mpr (by simp [stops])⟩⟩

mutual

theorem atom_takes (size : Nat) (pattern : Atom) {first : Char} {text : List Char}
    (rest : List Char) (spelled : pattern.SpelledBy alphabet (first :: text)) :
    Takes (atom size alphabet first (text ++ rest)) pattern rest :=
  match pattern with
  | .literal character => by
      rcases spelled with same | ⟨usual, same⟩
      · obtain ⟨rfl, rfl⟩ := List.cons.inj same
        refine ⟨Nat.le_succ rest.length, ?_⟩
        simp [atom]
      · obtain ⟨rfl, rfl⟩ := List.cons.inj same
        refine ⟨Nat.le_refl rest.length, ?_⟩
        simp only [reserved, List.mem_cons, List.not_mem_nil, or_false, not_or] at usual
        unfold atom
        simp [usual]
  | .oneOf cls => by
      obtain ⟨inner, same, inside, inhabited⟩ := spelled
      obtain ⟨rfl, tail⟩ := List.cons.inj same
      rw [show text = inner ++ [']'] from tail, List.append_assoc]
      obtain ⟨le, read⟩ := char_class_takes size inside inhabited rest
      refine ⟨le, ?_⟩
      unfold atom
      simp [read, Taken.map, bind, Except.bind, pure, Except.pure]
  | .nested inside => by
      obtain ⟨inner, same, within⟩ := spelled
      obtain ⟨rfl, tail⟩ := List.cons.inj same
      rw [show text = inner ++ [')'] from tail, List.append_assoc]
      obtain ⟨le, read⟩ : Takes (group size alphabet true (inner ++ ')' :: rest)) inside rest :=
        group_takes size inside true rest within
      refine ⟨le, ?_⟩
      unfold atom
      simp [read, Taken.map, bind, Except.bind, pure, Except.pure]

theorem sequence_takes (size : Nat) (pattern : Sequence) {text rest : List Char} (ends : Ends rest)
    (spelled : pattern.SpelledBy alphabet text) :
    Takes (sequence size alphabet (text ++ rest)) pattern rest :=
  match pattern with
  | .empty => by
      obtain rfl : text = [] := spelled
      refine ⟨Nat.le_refl rest.length, ?_⟩
      unfold sequence
      cases rest with
      | nil => rfl
      | cons first rest => exact if_pos (ends first rfl)
  | .cons pattern quantity later => by
      obtain ⟨front, back, rfl, head, tail⟩ := spelled
      obtain ⟨first, text, rfl, begins⟩ := head.begins
      have read := atom_takes size pattern (quantity.text ++ (back ++ rest)) head
      have further := sequence_takes size later ends tail
      rw [List.append_assoc, List.append_assoc, List.cons_append]
      exact sequence_takes_cons size begins (tail.bare ends) read further

theorem group_takes (size : Nat) (pattern : Group) (nested : Bool) {text : List Char}
    (rest : List Char) (spelled : pattern.SpelledBy alphabet text) :
    Takes (group size alphabet nested (text ++ closing nested rest)) pattern
      (if nested then rest else []) :=
  match pattern with
  | .only pattern =>
      group_takes_closing size nested
        (sequence_takes size pattern (ends_closing nested rest) spelled)
  | .either pattern others => by
      obtain ⟨front, back, rfl, head, tail⟩ := spelled
      have later := group_takes size others nested rest tail
      have ends : Ends ('|' :: (back ++ closing nested rest)) := by simp [Ends]
      rw [List.append_assoc]
      exact group_takes_bar size nested (sequence_takes size pattern ends head) later

end

/-- A text is read as a pattern when it spells it, and so spells at most one. -/
theorem parse_eq_ok_iff {text : String} {pattern : Group} :
    parse alphabet text = .ok pattern ↔ pattern.SpelledBy alphabet text.toList := by
  constructor
  · exact parse_spelled
  · intro spelled
    have whole := group_takes text.toList.length pattern false [] spelled
    rw [show closing false [] = [] from rfl, List.append_nil] at whole
    obtain ⟨le, read⟩ := whole
    exact bind_eq_ok_iff.mpr ⟨_, read, rfl⟩

end Readers

/-- A text compiles just when the whole of it is spelled by the grammar, and every
other text is a fault. -/
theorem compile_succeeds_iff_spelled (alphabet : CharSet) (text : String) :
    ((∃ t, compile alphabet text = .ok t) ↔
      ∃ pattern : Group, pattern.SpelledBy alphabet text.toList) ∧
    ((∃ fault, compile alphabet text = .error fault) ↔
      ¬∃ pattern : Group, pattern.SpelledBy alphabet text.toList) := by
  have succeeds : (∃ t, compile alphabet text = .ok t) ↔ ∃ pattern :
      Group, pattern.SpelledBy alphabet text.toList := by
    constructor
    · rintro ⟨t, compiled⟩
      obtain ⟨pattern, read, _⟩ := bind_eq_ok_iff.mp compiled
      exact ⟨pattern, parse_eq_ok_iff.mp read⟩
    · rintro ⟨pattern, spelled⟩
      exact ⟨pattern.transducer alphabet,
        bind_eq_ok_iff.mpr ⟨pattern, parse_eq_ok_iff.mpr spelled, rfl⟩⟩
  refine ⟨succeeds, ?_⟩
  rw [← succeeds]
  cases compile alphabet text with
  | ok t => simp
  | error fault => simp

end MorphLex.Pattern
