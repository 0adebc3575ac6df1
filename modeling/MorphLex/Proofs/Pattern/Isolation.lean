import MorphLex.Proofs.Pattern.Construction
import MorphLex.Proofs.Pattern.Reading
import MorphLex.Proofs.Transducer.Appended

/-!
The parts of a pattern keep to themselves. Whatever is built for a part lies behind what
there is: it begins at a given state, ends in a new one, and its arcs lead to new states
only, so that the arcs of a quantifier never lead into another part. The text is read
forward, each segment from behind its first character on.
-/

namespace MorphLex

open Transducer

namespace Transducer.Appends

variable {t middle : Transducer} {source : StateId} {bound : Nat}

/-- A choice from the source, to one more state. -/
theorem of_choice (inside : source < t.size) (characters : List Char) :
    Appends t (t.addChoice source characters) source t.size := by
  have grown : Appends t (t.addChoice source characters) source t.size ∧
      (t.addChoice source characters).size = t.size + 1 := by
    apply add_choice_induction
      (motive := fun larger => Appends t larger source t.size ∧ larger.size = t.size + 1)
    · exact ⟨(Appends.refl t source t.size).add_state, size_add_state t⟩
    · rintro larger ⟨before, size⟩ character _
      refine ⟨before.add_arc (.inl rfl) ?_ (Nat.le_refl _) ?_, by rw [size_add_arc, size]⟩
      · exact Nat.lt_of_lt_of_le inside before.size_le
      · exact size ▸ Nat.lt_succ_self t.size
  exact grown.1

/-- The arcs of a quantifier, between two states that may get further arcs. -/
theorem link (grown : Appends t middle source bound) {entry exit : StateId}
    (quantifier : Pattern.Quantifier)
    (entryOrigin : entry = source ∨ t.size ≤ entry) (exitOrigin : exit = source ∨ t.size ≤ exit)
    (entryAbove : bound ≤ entry) (exitAbove : bound ≤ exit)
    (entryInside : entry < middle.size) (exitInside : exit < middle.size) :
    Appends t (quantifier.link middle entry exit) source bound := by
  have back : Appends t (middle.addSilent exit entry) source bound :=
    grown.add_arc exitOrigin exitInside entryAbove entryInside
  cases quantifier with
  | once => exact grown
  | oneOrMore => exact back
  | zeroOrMore =>
      apply back.add_arc entryOrigin
      · rwa [size_add_silent]
      · exact exitAbove
      · rwa [size_add_silent]
  | atMostOnce => exact grown.add_arc entryOrigin entryInside exitAbove exitInside

/-- A new state that is entered from the source. -/
theorem of_silent (inside : source < t.size) :
    Appends t (t.addState.addSilent source t.size) source t.size := by
  apply (Appends.refl t source t.size).add_state.add_arc (.inl rfl)
  · rw [size_add_state]
    exact Nat.lt_succ_of_lt inside
  · exact Nat.le_refl _
  · rw [size_add_state]
    exact Nat.lt_succ_self _

end Transducer.Appends

namespace Pattern

/-- What is built from the source on ends in a new state and leads to new states only. -/
structure Isolated (t : Transducer) (source : StateId) (built : Transducer × StateId) : Prop where
  appends : Appends t built.1 source t.size
  new : t.size ≤ built.2
  inside : built.2 < built.1.size

/-- The same of a sequence, which may be empty and end where it begins. -/
structure Continued (t : Transducer) (source : StateId) (built : Transducer × StateId) : Prop where
  appends : Appends t built.1 source t.size
  ending : built.2 = source ∨ t.size ≤ built.2
  inside : built.2 < built.1.size

/-- An atom behind a new entry state, with the arcs of its quantifier. -/
def Atom.buildSegment (alphabet : CharSet) (t : Transducer) (source : StateId) (atom : Atom)
    (quantifier : Quantifier) : Transducer × StateId :=
  let entry := t.size
  let (grown, exit) := atom.build alphabet (t.addState.addSilent source entry) entry
  (quantifier.link grown entry exit, exit)

section Build

variable {t : Transducer} {source : StateId} {built further : Transducer × StateId}

theorem Isolated.of_choice (inside : source < t.size) (characters : List Char) :
    Isolated t source (t.addChoice source characters, t.size) where
  appends := .of_choice inside characters
  new := Nat.le_refl _
  inside := by
    rw [size_add_choice]
    exact Nat.lt_succ_self _

section Segment

variable {grown : Transducer × StateId} (inside : source < t.size)
  (atom : Isolated (t.addState.addSilent source t.size) t.size grown)

include atom

/-- The quantifier of an atom leads back to its entry at most. -/
theorem Isolated.link_behind (quantifier : Quantifier) :
    Appends (t.addState.addSilent source t.size) (quantifier.link grown.1 t.size grown.2) t.size
      t.size := by
  have size : (t.addState.addSilent source t.size).size = t.size + 1 := by simp
  have behind : t.size + 1 ≤ grown.2 := size ▸ atom.new
  have exitAbove : t.size ≤ grown.2 := Nat.le_of_succ_le behind
  have above : t.size ≤ (t.addState.addSilent source t.size).size := size ▸ Nat.le_succ _
  apply (atom.appends.weaken above).link quantifier (.inl rfl) (.inr atom.new)
    (Nat.le_refl _) exitAbove
  · exact Nat.lt_trans behind atom.inside
  · exact atom.inside

include inside

theorem Isolated.segment (quantifier : Quantifier) :
    Isolated t source (quantifier.link grown.1 t.size grown.2, grown.2) where
  appends :=
    (Appends.of_silent inside).trans (atom.link_behind quantifier) (.inr (Nat.le_refl _))
      (Nat.le_refl _)
  new := by
    have entered := (Appends.of_silent inside).size_le
    exact Nat.le_trans entered atom.new
  inside := by
    rw [Quantifier.size_link]
    exact atom.inside

/-- Of all that a segment adds, the source gets the arc to the entry alone. -/
theorem Isolated.arcs_segment (quantifier : Quantifier) :
    (quantifier.link grown.1 t.size grown.2).arcs source =
      (t.arcs source).push (Arc.silent t.size 0.0) := by
  have within : source < t.addState.size := by
    rw [size_add_state]
    exact Nat.lt_succ_of_lt inside
  have entered : source < (t.addState.addSilent source t.size).size := by rwa [size_add_silent]
  rw [(atom.link_behind quantifier).arcs_old entered (Nat.ne_of_lt inside), addSilent,
    arcs_add_arc _ _ _ within, if_pos rfl, arcs_add_state]

end Segment

theorem Continued.refl (inside : source < t.size) : Continued t source (t, source) where
  appends := .refl t source t.size
  ending := .inl rfl
  inside := inside

/-- What goes on at the end of an isolated part goes on behind it. -/
theorem Isolated.continued (first : Isolated t source built)
    (later : Continued built.1 built.2 further) : Continued t source further where
  appends := first.appends.trans later.appends (.inr first.new) first.appends.size_le
  ending := by
    rcases later.ending with same | behind
    · exact .inr (same ▸ first.new)
    · exact .inr (Nat.le_trans first.appends.size_le behind)
  inside := later.inside

/-- The first alternative, with the end state that is added behind it. -/
theorem Continued.isolated (sequence : Continued t source built) :
    Isolated t source (built.1.addState.addSilent built.2 built.1.size, built.1.size) where
  appends := by
    apply sequence.appends.add_state.add_arc sequence.ending
    · rw [size_add_state]
      exact Nat.lt_succ_of_lt sequence.inside
    · exact sequence.appends.size_le
    · rw [size_add_state]
      exact Nat.lt_succ_self _
  new := sequence.appends.size_le
  inside := by
    rw [size_add_silent, size_add_state]
    exact Nat.lt_succ_self _

/-- One more alternative, into an end state that stands there already. -/
theorem Continued.into {target : StateId} {bound : Nat} (sequence : Continued t source built)
    (bounded : bound ≤ target) (within : target < t.size) :
    Appends t (built.1.addSilent built.2 target) source bound := by
  have above : bound ≤ t.size := Nat.le_of_lt (Nat.lt_of_le_of_lt bounded within)
  apply (sequence.appends.weaken above).add_arc sequence.ending sequence.inside bounded
  exact Nat.lt_of_lt_of_le within sequence.appends.size_le

mutual

theorem Atom.build_isolated (alphabet : CharSet) (t : Transducer) (entry : StateId) (atom : Atom)
    (inside : entry < t.size) : Isolated t entry (atom.build alphabet t entry) := by
  cases atom with
  | literal character => exact .of_choice inside _
  | oneOf cls => exact .of_choice inside _
  | nested group =>
      rw [Atom.build]
      exact group.build_isolated alphabet t entry inside

theorem Sequence.build_continued (alphabet : CharSet) (t : Transducer) (source : StateId)
    (sequence : Sequence) (inside : source < t.size) :
    Continued t source (sequence.build alphabet t source) := by
  cases sequence with
  | empty => exact .refl inside
  | cons atom quantifier rest =>
      rw [Sequence.build]
      have entry : t.size < (t.addState.addSilent source t.size).size := by simp
      have first := (atom.build_isolated alphabet _ t.size entry).segment inside quantifier
      exact first.continued (rest.build_continued alphabet _ _ first.inside)

theorem Group.build_isolated (alphabet : CharSet) (t : Transducer) (source : StateId)
    (group : Group) (inside : source < t.size) :
    Isolated t source (group.build alphabet t source) := by
  cases group with
  | only sequence =>
      rw [Group.build]
      exact (sequence.build_continued alphabet t source inside).isolated
  | either sequence others =>
      rw [Group.build]
      have first := (sequence.build_continued alphabet t source inside).isolated
      have sourceInside := Nat.lt_of_lt_of_le inside first.appends.size_le
      have further :=
        others.build_into_appends alphabet _ source _ sourceInside first.new first.inside
      refine ⟨first.appends.trans further (.inl rfl) (Nat.le_refl _), first.new, ?_⟩
      exact Nat.lt_of_lt_of_le first.inside further.size_le

/-- Further alternatives lead into the end state of the first one. It is not new to them, so
that a bound below it takes the place of the size. -/
theorem Group.build_into_appends (alphabet : CharSet) (t : Transducer) (source target : StateId)
    (group : Group) (inside : source < t.size) {bound : Nat} (bounded : bound ≤ target)
    (within : target < t.size) :
    Appends t (group.buildInto alphabet t source target) source bound := by
  cases group with
  | only sequence =>
      rw [Group.buildInto]
      exact (sequence.build_continued alphabet t source inside).into bounded within
  | either sequence others =>
      rw [Group.buildInto]
      have first := (sequence.build_continued alphabet t source inside).into bounded within
      have sourceInside := Nat.lt_of_lt_of_le inside first.size_le
      have targetInside := Nat.lt_of_lt_of_le within first.size_le
      have further :=
        others.build_into_appends alphabet _ source target sourceInside bounded targetInside
      exact first.trans further (.inl rfl) (Nat.le_refl _)

end

end Build

section Read

variable (size : Nat) (alphabet : CharSet) (t : Transducer) (source : StateId)

/-- Reads an atom that begins with `first`, and its quantifier, and builds them after the
source: the grown transducer, the exit of the atom, and the text behind it. -/
def readSegment (first : Char) (rest : List Char) :
    Except Fault ((Transducer × StateId) × List Char) := do
  let atom ← atom size alphabet first rest
  let quantified := quantifier atom.rest
  return (atom.value.buildSegment alphabet t source quantified.value, quantified.rest)

def readSequence (input : List Char) : Except Fault ((Transducer × StateId) × List Char) := do
  let taken ← sequence size alphabet input
  return (taken.value.build alphabet t source, taken.rest)

/-- Reads alternatives and builds them after the source, up to a common end state. -/
def readGroup (nested : Bool) (input : List Char) :
    Except Fault ((Transducer × StateId) × List Char) := do
  let taken ← group size alphabet nested input
  return (taken.value.build alphabet t source, taken.rest)

variable {size alphabet t source}

/-- A pattern is compiled by reading and building one group at the start. -/
theorem compile_eq_read_group (text : String) :
    compile alphabet text = (do
      let (built, _) ← readGroup text.toList.length alphabet .initial 0 false text.toList
      return built.1.setFinal built.2 0.0) := by
  rw [compile, parse, readGroup, bind_assoc, bind_assoc]
  rfl

/-- A sequence is read and built segment by segment, each at the exit of the one before. -/
theorem read_sequence_cons {first : Char} {rest : List Char}
    (begins : ¬(first = '|' ∨ first = ')')) :
    readSequence size alphabet t source (first :: rest) = (do
      let (built, left) ← readSegment size alphabet t source first rest
      readSequence size alphabet built.1 built.2 left) := by
  rw [readSegment, readSequence, sequence]
  dsimp only
  rw [if_neg begins]
  cases atom size alphabet first rest with
  | error fault => rfl
  | ok atom =>
      simp only [readSequence, bind, Except.bind, pure, Except.pure]
      cases sequence size alphabet (quantifier atom.rest).rest with
      | error fault => rfl
      | ok later => rfl

/-- What is left behind an atom is left of the text behind its first character. -/
theorem atom_forward {first : Char} {rest : List Char} {taken : Taken Atom rest.length}
    (read : atom size alphabet first rest = .ok taken) : taken.rest <:+ rest := by
  by_cases begins : first = '|' ∨ first = ')'
  · have literal : atom size alphabet first rest = .ok ⟨.literal first, rest, Nat.le_refl _⟩ := by
      unfold atom
      rcases begins with rfl | rfl <;> rfl
    obtain rfl := Except.ok.inj (literal.symm.trans read)
    exact List.suffix_refl rest
  · rw [not_or] at begins
    obtain ⟨text, same, -⟩ :=
      (readers_spelled (rest.length + 1)).2.2 first rest taken (Nat.lt_succ_self _)
      begins.1 begins.2 read
    cases text with
    | nil =>
        have shorter := taken.le
        rw [← show first :: rest = taken.rest from same] at shorter
        exact absurd shorter (Nat.not_succ_le_self _)
    | cons character text => exact ⟨text, (List.cons.inj same).2.symm⟩

theorem group_forward (bound : Nat) {nested : Bool} {input : List Char}
    {taken : Taken Group input.length} (short : input.length < bound)
    (read : group size alphabet nested input = .ok taken) : taken.rest <:+ input := by
  induction bound generalizing input with
  | zero => exact absurd short (Nat.not_lt_zero _)
  | succ bound ih =>
      unfold group at read
      obtain ⟨first, reading, read⟩ := Result.bind_eq_ok_iff.mp read
      obtain ⟨text, same, -⟩ := (readers_spelled (bound + 1)).1 input first short reading
      split at read
      · next ending =>
        split at read
        · obtain ⟨_, thrown, _⟩ := Result.bind_eq_ok_iff.mp read
          exact absurd thrown Result.throw_ne_ok
        · obtain rfl := Result.pure_eq_ok_iff.mp read
          exact List.nil_suffix
      · next next later ending =>
        have behind : later <:+ input :=
          ⟨text ++ [next], by rw [same, ending, List.append_assoc]; rfl⟩
        split at read
        · obtain ⟨others, further, read⟩ := Result.bind_eq_ok_iff.mp read
          obtain rfl := Result.pure_eq_ok_iff.mp read
          have shorter := first.le
          rw [ending, List.length_cons] at shorter
          exact (ih (by omega) further).trans behind
        · split at read
          · obtain rfl := Result.pure_eq_ok_iff.mp read
            exact behind
          · exact absurd read Result.throw_ne_ok

theorem segment_forward {first : Char} {rest left : List Char} {built : Transducer × StateId}
    (read : readSegment size alphabet t source first rest = .ok (built, left)) : left <:+ rest := by
  obtain ⟨atom, reading, read⟩ := Result.bind_eq_ok_iff.mp read
  obtain ⟨-, rfl⟩ := Prod.mk.inj (Result.pure_eq_ok_iff.mp read)
  apply List.IsSuffix.trans _ (atom_forward reading)
  exact ⟨_, (quantifier_spelled atom.rest).symm⟩

/-- A segment and a group are built apart from what there is: they end in a new state, each
arc that they add leads from the source or a new state to a new one, and all other arcs
stay. The source gets no arc of a segment but the one to its entry, and a segment is read
past its first character. -/
theorem parts_isolated (inside : source < t.size) :
    (∀ first rest built left, readSegment size alphabet t source first rest = .ok (built, left) →
      left <:+ rest ∧ left.length < (first :: rest).length ∧ Isolated t source built ∧
        built.1.arcs source = (t.arcs source).push (Arc.silent t.size 0.0) ∧
        ∀ state < t.size, state ≠ source → built.1.arcs state = t.arcs state) ∧
    ∀ nested input built left, readGroup size alphabet t source nested input = .ok (built, left) →
      left <:+ input ∧ Isolated t source built ∧
        ∀ state < t.size, state ≠ source → built.1.arcs state = t.arcs state := by
  constructor
  · intro first rest built left read
    have forward := segment_forward read
    obtain ⟨atom, -, read⟩ := Result.bind_eq_ok_iff.mp read
    obtain ⟨rfl, -⟩ := Prod.mk.inj (Result.pure_eq_ok_iff.mp read)
    have entry : t.size < (t.addState.addSilent source t.size).size := by simp
    have entered := atom.value.build_isolated alphabet _ t.size entry
    have isolated := entered.segment inside (quantifier atom.rest).value
    refine ⟨forward, Nat.lt_succ_of_le forward.length_le, isolated,
      entered.arcs_segment inside _, ?_⟩
    exact fun state old other => isolated.appends.arcs_old old other
  · intro nested input built left read
    obtain ⟨taken, reading, read⟩ := Result.bind_eq_ok_iff.mp read
    obtain ⟨rfl, rfl⟩ := Prod.mk.inj (Result.pure_eq_ok_iff.mp read)
    have isolated := taken.value.build_isolated alphabet t source inside
    refine ⟨group_forward _ (Nat.lt_succ_self _) reading, isolated, ?_⟩
    exact fun state old other => isolated.appends.arcs_old old other

/-- A repeated group behind a state that has an arc back. -/
theorem parts_isolated_of_repetition :
    ∃ t : Transducer, t.size = 2 ∧ t.arcs 0 = #[Arc.identity "x" 1] ∧
      t.arcs 1 = #[Arc.silent 0 0.0] ∧
      (∃ built, readSegment 7 CharSet.empty t 1 '(' "a|b)+c".toList = .ok (built, ['c']) ∧
        Isolated t 1 built ∧
        built.1.arcs 1 = #[Arc.silent 0 0.0, Arc.silent 2 0.0] ∧
        built.1.arcs 0 = #[Arc.identity "x" 1]) ∧
      ∃ built, readGroup 7 CharSet.empty t 1 true "a|b)+c".toList = .ok (built, ['+', 'c']) ∧
        Isolated t 1 built ∧
        built.1.arcs 0 = #[Arc.identity "x" 1] := by
  let looped : Transducer := ⟨#[{ arcs := #[Arc.identity "x" 1] }, { arcs := #[Arc.silent 0 0.0] }]⟩
  have inside : 1 < looped.size := by decide
  obtain ⟨taken, reading, remains⟩ :
      ∃ taken, group 7 CharSet.empty true "a|b)+c".toList = .ok taken ∧
      taken.rest = ['+', 'c'] := by
    simp [group, sequence, atom, quantifier, bind, Except.bind, pure, Except.pure]
  have whole : readGroup 7 CharSet.empty looped 1 true "a|b)+c".toList =
      .ok (taken.value.build CharSet.empty looped 1, ['+', 'c']) := by
    rw [readGroup, reading, ← remains]
    rfl
  have segment : readSegment 7 CharSet.empty looped 1 '(' "a|b)+c".toList =
      .ok ((Atom.nested taken.value).buildSegment CharSet.empty looped 1 .oneOrMore, ['c']) := by
    rw [readSegment]
    unfold atom
    rw [reading]
    show Except.ok
      ((Atom.nested taken.value).buildSegment CharSet.empty looped 1 (quantifier taken.rest).value,
      (quantifier taken.rest).rest) = _
    rw [remains]
    rfl
  obtain ⟨-, -, isolated, source, others⟩ := (parts_isolated inside).1 _ _ _ _ segment
  obtain ⟨-, isolatedWhole, othersWhole⟩ := (parts_isolated inside).2 _ _ _ _ whole
  have kept := others 0 (by decide) (by decide)
  have keptWhole := othersWhole 0 (by decide) (by decide)
  exact ⟨looped, rfl, rfl, rfl, ⟨_, segment, isolated, source, kept⟩, _, whole,
    isolatedWhole, keptWhole⟩

end Read

end Pattern

end MorphLex
