import MorphLex.Pattern.Parse
import MorphLex.Proofs.Pattern.Grammar
import MorphLex.Proofs.Result

/-!
What is read spells what was read: each reader takes a text of its own shape off the
front and leaves the rest.
-/

namespace MorphLex.Pattern

open Result

theorem range_end_spelled {size : Nat} {input : List Char} {taken : Taken Char input.length}
    (read : rangeEnd size input = .ok taken) :
    ∃ text, input = text ++ taken.rest ∧ CharClass.Spelled taken.value text := by
  cases input with
  | nil => simp [rangeEnd] at read
  | cons first rest =>
      unfold rangeEnd at read
      dsimp only at read
      split at read
      · next escape =>
        cases rest with
        | nil => simp at read
        | cons second rest =>
            obtain rfl := Except.ok.inj read
            exact ⟨['\\', second], by simp [escape], .inl rfl⟩
      · next plain =>
        split at read
        · exact absurd read (by simp)
        · next usual =>
          obtain rfl := Except.ok.inj read
          refine ⟨[first], rfl, .inr ⟨?_, rfl⟩⟩
          simp only [List.mem_cons, List.not_mem_nil, or_false, not_or]
          exact ⟨fun same => usual (.inl same), fun same => usual (.inr same), plain⟩

/-- What follows in a class a character that may begin a range. -/
def MembersAfter (start : Option Char) (ranges : List CharRange) (text : List Char) : Prop :=
  CharClass.Members ranges text ∨ ∃ low high later ending rest, start = some low ∧
    ranges = ⟨low, high⟩ :: later ∧ text = '-' :: ending ++ rest ∧ CharClass.Spelled high ending ∧
    low < high ∧ CharClass.Members later rest

theorem MembersAfter.members {ranges : List CharRange} {text : List Char}
    (after : MembersAfter none ranges text) :
    CharClass.Members ranges text :=
  after.resolve_right (by simp)

theorem MembersAfter.single {character : Char} {ranges : List CharRange} {text later : List Char}
    (item : CharClass.Spelled character text) (rest : MembersAfter (some character) ranges later) :
    CharClass.Members (.single character :: ranges) (text ++ later) := by
  rcases rest with
      members | ⟨low, high, further, ending, rest, same, rfl, rfl, last, ascends, members⟩
  · exact .single item members
  · obtain rfl := Option.some.inj same
    have range := CharClass.Members.range item last ascends members
    simpa using range

/-- What may stand in front of the text of a class: its closing bracket, a dash with
the end of a range, or a character in one of its two spellings. -/
theorem class_members_cases {size : Nat} {start : Option Char} {first : Char} {rest : List Char}
    {taken : Taken (List CharRange) (first :: rest).length}
    (read : classMembers size start (first :: rest) = .ok taken) :
    (first = ']' ∧ taken.value = [] ∧ taken.rest = rest) ∨
    (∃ low high later, first = '-' ∧ start = some low ∧ rangeEnd size rest = .ok high ∧
      low < high.value ∧
      classMembers size none high.rest = .ok later ∧
      taken.value = ⟨low, high.value⟩ :: later.value ∧
      taken.rest = later.rest) ∨
    ∃ character item tail later, CharClass.Spelled character item ∧ first :: rest = item ++ tail ∧
      tail.length < (first :: rest).length ∧ classMembers size (some character) tail = .ok later ∧
      taken.value = .single character :: later.value ∧ taken.rest = later.rest := by
  unfold classMembers at read
  split at read
  · next closing =>
    obtain rfl := Except.ok.inj read
    exact .inl ⟨closing, rfl, rfl⟩
  · next notClosing =>
    refine .inr ?_
    split at read
    · next dash =>
      cases start with
      | none => simp at read
      | some low =>
          obtain ⟨high, last, read⟩ := bind_eq_ok_iff.mp read
          split at read
          · obtain ⟨_, thrown, _⟩ := bind_eq_ok_iff.mp read
            exact absurd thrown throw_ne_ok
          · next ascends =>
            obtain ⟨later, further, read⟩ := bind_eq_ok_iff.mp read
            obtain rfl := pure_eq_ok_iff.mp read
            exact .inl ⟨low, high, later, dash, rfl, last, Char.not_le.mp ascends,
              further, rfl, rfl⟩
    · next notDash =>
      refine .inr ?_
      split at read
      · next escape =>
        cases rest with
        | nil => simp at read
        | cons second tail =>
            obtain ⟨later, further, read⟩ := bind_eq_ok_iff.mp read
            obtain rfl := pure_eq_ok_iff.mp read
            refine ⟨second, ['\\', second], tail, later,
              .inl rfl, by rw [escape]; rfl, ?_, further, rfl, rfl⟩
            exact Nat.lt_succ_of_lt (Nat.lt_succ_self _)
      · next usual =>
        obtain ⟨later, further, read⟩ := bind_eq_ok_iff.mp read
        obtain rfl := pure_eq_ok_iff.mp read
        have plain : first ∉ [']', '-', '\\'] := by simp [notClosing, notDash, usual]
        exact ⟨first, [first], rest, later, .inr ⟨plain, rfl⟩, rfl, Nat.lt_succ_self _,
          further, rfl, rfl⟩

theorem class_members_spelled (size bound : Nat) {start : Option Char} {input : List Char}
    {taken : Taken (List CharRange) input.length} (short : input.length < bound)
    (read : classMembers size start input = .ok taken) :
    ∃ text, input = text ++ ']' :: taken.rest ∧ MembersAfter start taken.value text := by
  induction bound generalizing start input with
  | zero => exact absurd short (Nat.not_lt_zero _)
  | succ bound ih =>
    cases input with
    | nil => simp [classMembers] at read
    | cons first rest =>
        rcases class_members_cases read with ⟨rfl, value, remains⟩ |
          ⟨low, high, later, rfl, rfl, last, ascends, further, value, remains⟩ |
          ⟨character, item, tail, later, spelled, division, shorter, further, value, remains⟩
        · rw [value, remains]
          exact ⟨[], rfl, .inl .none⟩
        · obtain ⟨ending, division, item⟩ := range_end_spelled last
          have shorter : high.rest.length < bound :=
            Nat.lt_of_le_of_lt high.le (Nat.lt_of_succ_lt_succ short)
          obtain ⟨text, same, members⟩ := ih shorter further
          rw [value, remains]
          refine ⟨'-' :: ending ++ text, ?_,
            .inr ⟨low, high.value, later.value, ending, text, rfl, rfl, rfl, item, ascends,
              members.members⟩⟩
          rw [List.cons_append, List.cons_append, List.append_assoc]
          exact congrArg ('-' :: ·) (division.trans (congrArg (ending ++ ·) same))
        · obtain ⟨text, same, members⟩ :=
            ih (Nat.lt_of_lt_of_le shorter (Nat.le_of_lt_succ short)) further
          rw [value, remains]
          refine ⟨item ++ text, ?_, .inl (members.single spelled)⟩
          rw [List.append_assoc]
          exact division.trans (congrArg (item ++ ·) same)

theorem char_class_spelled {size : Nat} {alphabet : CharSet} {input : List Char}
    {taken : Taken CharClass input.length} (read : charClass size alphabet input = .ok taken) :
    ∃ text, input = text ++ ']' :: taken.rest ∧ taken.value.SpelledBy text ∧
      ∃ character, character ∈ taken.value.members alphabet := by
  unfold charClass at read
  obtain ⟨cls, shape, read⟩ := bind_eq_ok_iff.mp read
  split at read
  · exact absurd read throw_ne_ok
  · next inhabited =>
    obtain rfl := pure_eq_ok_iff.mp read
    have some : ∃ character, character ∈ cls.value.members alphabet := by
      rw [CharSet.isEmpty, List.isEmpty_iff] at inhabited
      exact List.exists_mem_of_ne_nil _ inhabited
    suffices spelled : ∃ text, input = text ++ ']' :: cls.rest ∧ cls.value.SpelledBy text by
      obtain ⟨text, same, spelled⟩ := spelled
      exact ⟨text, same, spelled, some⟩
    dsimp only at shape
    split at shape
    · next rest =>
      obtain ⟨members, listing, shape⟩ := bind_eq_ok_iff.mp shape
      obtain rfl := pure_eq_ok_iff.mp shape
      obtain ⟨text, same, listed⟩ := class_members_spelled size _ (Nat.lt_succ_self _) listing
      exact ⟨'^' :: text, congrArg ('^' :: ·) same, text, rfl, listed.members⟩
    · next input noCaret =>
      obtain ⟨members, listing, shape⟩ := bind_eq_ok_iff.mp shape
      obtain rfl := pure_eq_ok_iff.mp shape
      obtain ⟨text, same, listed⟩ := class_members_spelled size _ (Nat.lt_succ_self _) listing
      refine ⟨text, same, fun caret => ?_, listed.members⟩
      cases text with
      | nil => simp at caret
      | cons first text =>
          obtain rfl : first = '^' := by simpa using caret
          exact noCaret _ same

theorem quantifier_spelled (input : List Char) :
    input = (quantifier input).value.text ++ (quantifier input).rest := by
  unfold quantifier
  cases input with
  | nil => rfl
  | cons first rest =>
      dsimp only
      split
      · next same => rw [same]; rfl
      · split
        · next same => rw [same]; rfl
        · split
          · next same => rw [same]; rfl
          · rfl

section Readers

variable (size : Nat) (alphabet : CharSet)

def SequencesSpelled (bound : Nat) : Prop :=
  ∀ (input : List Char) (taken : Taken Sequence input.length), input.length < bound →
    sequence size alphabet input = .ok taken →
      ∃ text, input = text ++ taken.rest ∧ taken.value.SpelledBy alphabet text

/-- A nested group ends with its bracket, the whole pattern with the text. -/
def GroupsSpelled (bound : Nat) : Prop :=
  ∀ (nested : Bool) (input : List Char) (taken : Taken Group input.length), input.length < bound →
    group size alphabet nested input = .ok taken →
      ∃ text, input = text ++ (if nested then ')' :: taken.rest else []) ∧
      taken.value.SpelledBy alphabet text

def AtomsSpelled (bound : Nat) : Prop :=
  ∀ (first : Char) (rest : List Char) (taken : Taken Atom rest.length), rest.length < bound →
    first ≠ '|' → first ≠ ')' → atom size alphabet first rest = .ok taken →
      ∃ text, first :: rest = text ++ taken.rest ∧ taken.value.SpelledBy alphabet text

variable {size : Nat} {alphabet : CharSet} {bound : Nat}

theorem sequences_step (atoms : AtomsSpelled size alphabet bound)
    (sequences : SequencesSpelled size alphabet bound) :
    SequencesSpelled size alphabet (bound + 1) := by
  intro input taken short read
  unfold sequence at read
  cases input with
  | nil =>
      obtain rfl := Except.ok.inj read
      exact ⟨[], rfl, rfl⟩
  | cons first rest =>
      rw [List.length_cons] at short
      dsimp only at read
      split at read
      · obtain rfl := Except.ok.inj read
        exact ⟨[], rfl, rfl⟩
      · next begins =>
        rw [not_or] at begins
        obtain ⟨front, reading, read⟩ := bind_eq_ok_iff.mp read
        obtain ⟨later, further, read⟩ := bind_eq_ok_iff.mp read
        obtain rfl := pure_eq_ok_iff.mp read
        obtain ⟨text, same, spelled⟩ := atoms first rest front (by omega) begins.1 begins.2 reading
        have shorter := (quantifier front.rest).le
        have behind := front.le
        obtain ⟨back, remaining, spelledBack⟩ := sequences _ later (by omega) further
        refine ⟨text ++ (quantifier front.rest).value.text ++ back, same.trans ?_, text, back, rfl,
          spelled, spelledBack⟩
        rw [List.append_assoc, List.append_assoc]
        exact congrArg (text ++ ·) ((quantifier_spelled front.rest).trans
          (congrArg ((quantifier front.rest).value.text ++ ·) remaining))

theorem groups_step (sequences : SequencesSpelled size alphabet (bound + 1))
    (groups : GroupsSpelled size alphabet bound) :
    GroupsSpelled size alphabet (bound + 1) := by
  intro nested input taken short read
  unfold group at read
  obtain ⟨first, reading, read⟩ := bind_eq_ok_iff.mp read
  obtain ⟨text, same, spelled⟩ := sequences input first short reading
  split at read
  · next ending =>
    split at read
    · obtain ⟨_, thrown, _⟩ := bind_eq_ok_iff.mp read
      exact absurd thrown throw_ne_ok
    · next top =>
      obtain rfl := pure_eq_ok_iff.mp read
      refine ⟨text, ?_, spelled⟩
      rw [if_neg top, List.append_nil]
      rwa [ending, List.append_nil] at same
  · next next later ending =>
    have whole : input = text ++ next :: later := same.trans (congrArg (text ++ ·) ending)
    have behind := first.le
    rw [ending, List.length_cons] at behind
    split at read
    · next bar =>
      obtain ⟨others, further, read⟩ := bind_eq_ok_iff.mp read
      obtain rfl := pure_eq_ok_iff.mp read
      obtain ⟨back, remaining, spelledBack⟩ := groups nested later others (by omega) further
      refine ⟨text ++ '|' :: back, whole.trans ?_, text, back, rfl, spelled, spelledBack⟩
      subst bar
      rw [List.append_assoc]
      exact congrArg (text ++ '|' :: ·) remaining
    · split at read
      · next closing =>
        obtain rfl := pure_eq_ok_iff.mp read
        obtain ⟨rfl, nesting⟩ := closing
        refine ⟨text, whole.trans ?_, spelled⟩
        rw [if_pos nesting]
      · exact absurd read throw_ne_ok

theorem atoms_step (groups : GroupsSpelled size alphabet (bound + 1)) :
    AtomsSpelled size alphabet (bound + 1) := by
  intro first rest taken short notBar notClosing read
  unfold atom at read
  split at read
  · exact absurd read (by simp)
  · next notQuantifier =>
    split at read
    · exact absurd read (by simp)
    · next notBracket =>
      split at read
      · next opening =>
        obtain ⟨inner, reading, read⟩ := bind_eq_ok_iff.mp read
        obtain rfl := pure_eq_ok_iff.mp read
        obtain ⟨text, same, spelled⟩ := groups true rest inner short reading
        refine ⟨'(' :: text ++ [')'], ?_, text, rfl, spelled⟩
        rw [opening]
        simpa [Taken.map] using same
      · next notOpening =>
        split at read
        · next opening =>
          obtain ⟨cls, reading, read⟩ := bind_eq_ok_iff.mp read
          obtain rfl := pure_eq_ok_iff.mp read
          obtain ⟨text, same, spelled, inhabited⟩ := char_class_spelled reading
          refine ⟨'[' :: text ++ [']'], ?_, text, rfl, spelled, inhabited⟩
          rw [opening]
          simpa [Taken.map] using same
        · next notClass =>
          split at read
          · next escape =>
            cases rest with
            | nil => simp at read
            | cons second rest =>
                obtain rfl := Except.ok.inj read
                exact ⟨['\\', second], by rw [escape]; rfl, .inl rfl⟩
          · next notEscape =>
            obtain rfl := Except.ok.inj read
            refine ⟨[first], rfl, .inr ⟨?_, rfl⟩⟩
            simp only [reserved, List.mem_cons, List.not_mem_nil, or_false, not_or]
            simp only [not_or] at notQuantifier
            exact ⟨notOpening, notClosing, notClass, notBracket, notBar, notQuantifier.1,
              notQuantifier.2.1, notQuantifier.2.2, notEscape⟩

theorem readers_spelled (bound : Nat) :
    SequencesSpelled size alphabet bound ∧ GroupsSpelled size alphabet bound ∧
      AtomsSpelled size alphabet bound := by
  induction bound with
  | zero =>
      exact ⟨fun _ _ short => absurd short (Nat.not_lt_zero _),
        fun _ _ _ short => absurd short (Nat.not_lt_zero _),
        fun _ _ _ short => absurd short (Nat.not_lt_zero _)⟩
  | succ bound ih =>
      -- A sequence is shorter than the text only behind its first atom, a group behind its first
      -- sequence: the longer sequences come first, then the groups, then the atoms.
      obtain ⟨sequences, groups, atoms⟩ := ih
      have longer := sequences_step atoms sequences
      have nested := groups_step longer groups
      exact ⟨longer, nested, atoms_step nested⟩

/-- The whole text spells the pattern that is read from it. -/
theorem parse_spelled {text : String} {pattern : Group} (read : parse alphabet text = .ok pattern) :
    pattern.SpelledBy alphabet text.toList := by
  obtain ⟨whole, reading, read⟩ := bind_eq_ok_iff.mp read
  obtain rfl := pure_eq_ok_iff.mp read
  obtain ⟨consumed, same, spelled⟩ :=
    (readers_spelled (text.toList.length + 1)).2.1 false text.toList whole
      (Nat.lt_succ_self _) reading
  rw [if_neg (by simp), List.append_nil] at same
  exact same ▸ spelled

end Readers

end MorphLex.Pattern
