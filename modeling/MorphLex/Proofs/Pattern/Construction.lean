import MorphLex.Proofs.Pattern.Repetition

/-!
The transducer of a pattern copies exactly its words. Every part of a pattern is a
branch from its source to its end, which no arc leaves until the next part begins
there; further alternatives end in the end state of the first one.
-/

open scoped Pointwise

namespace MorphLex

namespace Transducer

/-- What holds with the end state, and is kept by each arc to it, holds of the choice. -/
theorem add_choice_induction {motive : Transducer → Prop} (t : Transducer) (source : StateId)
    (characters : List Char) (start : motive t.addState)
    (step : ∀ larger, motive larger → ∀ character ∈ characters,
      motive (larger.addArc source (Arc.identity (Symbol.ofChar character) t.size))) :
    motive (t.addChoice source characters) :=
  List.foldlRecOn characters _ start step

theorem size_add_choice (t : Transducer) (source : StateId) (characters : List Char) :
    (t.addChoice source characters).size = t.size + 1 := by
  apply add_choice_induction (motive := fun larger => larger.size = t.size + 1)
  · exact size_add_state t
  · intro larger size character _
    rw [size_add_arc, size]

theorem mem_arcs_add_choice (t : Transducer) {source : StateId} (characters : List Char)
    (inside : source < t.size) (state : StateId) (arc : Arc) :
    arc ∈ (t.addChoice source characters).arcs state ↔ arc ∈ t.arcs state ∨
      (state = source ∧
        ∃ character ∈ characters, arc = Arc.identity (Symbol.ofChar character) t.size) := by
  have members (larger : Transducer) (within : source < larger.size) (target : StateId) :
      arc ∈
        (characters.foldl
          (fun t character => t.addArc source (Arc.identity (Symbol.ofChar character) target))
        larger).arcs state ↔ arc ∈ larger.arcs state ∨
          (state = source ∧
            ∃ character ∈ characters, arc = Arc.identity (Symbol.ofChar character) target) := by
    induction characters generalizing larger with
    | nil => simp
    | cons first rest ih =>
        rw [List.foldl_cons, ih _ (by rwa [size_add_arc]), mem_arcs_add_arc _ _ _ within]
        simp only [List.mem_cons, exists_eq_or_imp]
        tauto
  rw [addChoice, members _ (by rw [size_add_state]; exact Nat.lt_succ_of_lt inside), arcs_add_state]

theorem final_add_choice (t : Transducer) (source : StateId) (characters : List Char)
    (state : StateId) :
    (t.addChoice source characters).final? state = t.final? state := by
  apply add_choice_induction (motive := fun larger => larger.final? state = t.final? state)
  · exact final_add_state t state
  · intro larger final character _
    rw [final_add_arc, final]

theorem arcs_add_choice_end (t : Transducer) {source : StateId} (characters : List Char)
    (inside : source < t.size) :
    (t.addChoice source characters).arcs t.size = #[] := by
  rw [Array.eq_empty_iff_forall_not_mem]
  intro arc leaves
  rcases (mem_arcs_add_choice t characters inside _ _).mp leaves with old | ⟨same, _⟩
  · rw [arcs_of_size_le t _ (Nat.le_refl _)] at old
    simp at old
  · exact absurd inside (Nat.not_lt.mpr (Nat.le_of_eq same))

theorem Branch.of_choice {t : Transducer} {source : StateId} (formed : t.WellFormed)
    (inside : source < t.size) (characters : List Char) :
    Branch t source (t.addChoice source characters) t.size
      (Trace.copies { word | ∃ character ∈ characters, word = [character] }) := by
  have size := size_add_choice t source characters
  have growth : Extension t (t.addChoice source characters) source t.size := by
    refine ⟨by rw [size]; exact Nat.le_succ _, fun state arc leaves => ?_,
      fun state arc leaves => ?_, final_add_choice t source characters⟩
    · exact (mem_arcs_add_choice t characters inside state arc).mpr (.inl leaves)
    · rcases (mem_arcs_add_choice t characters inside state arc).mp leaves with
          old | ⟨same, _, _, rfl⟩
      · exact .inl old
      · exact .inr ⟨.inl same, Nat.le_refl _, by rw [size]; exact Nat.lt_succ_self _⟩
  have copied (character : Char) :
      Trace.ofArc (Arc.identity (Symbol.ofChar character) t.size) = Trace.copy [character] := by
    rw [Trace.ofArc, Arc.identity, Trace.of_weight_zero, mul_one]
    simp [Trace.ofPair, Trace.copy]
  have leaf := Branch.of_leaf formed inside growth size (arcs_add_choice_end t characters inside)
  refine ⟨growth, leaf.ending, leaf.traces.trans ?_⟩
  ext trace
  constructor
  · rintro ⟨arc, leaves, new, rfl⟩
    obtain ⟨_, character, member, rfl⟩ :=
      ((mem_arcs_add_choice t characters inside _ _).mp leaves).resolve_left new
    exact ⟨[character], ⟨character, member, rfl⟩, copied character⟩
  · rintro ⟨_, ⟨character, member, rfl⟩, rfl⟩
    refine ⟨_,
      (mem_arcs_add_choice t characters inside _ _).mpr (.inr ⟨rfl, character, member, rfl⟩),
      fun old => ?_, (copied character).symm⟩
    exact absurd (formed.target_lt old) (Nat.lt_irrefl _)

/-- An arc to a state that none leaves can only be the last one of a walk. -/
theorem between_add_silent_end {t : Transducer} {source target : StateId} (inside : source < t.size)
    (ends : t.arcs target = #[]) (other : target ≠ source) {bound : Nat} (above : bound ≤ target)
    (state : StateId) :
    (t.addSilent source target).between bound state target =
      t.between bound state target ∪ t.between bound state source := by
  ext trace
  constructor
  · intro walk
    induction walk with
    | stay => exact .inl .stay
    | @step state arc trace leaves higher later ih =>
        rcases (mem_arcs_add_silent t target inside state arc).mp leaves with old | ⟨rfl, rfl⟩
        · rcases ih with reached | reached
          · exact .inl (Walk.step old higher reached)
          · exact .inr (Walk.step old higher reached)
        · rw [of_arc_silent_zero, one_mul]
          rcases later.first_arc with ⟨_, rfl⟩ | ⟨next, onward, _⟩
          · exact .inr .stay
          · rcases (mem_arcs_add_silent t target inside _ next).mp onward with older | ⟨same, _⟩
            · rw [show (Arc.silent target 0.0).target = target from rfl, ends] at older
              simp at older
            · exact absurd same other
  · have kept (state : StateId) (arc : Arc) (leaves : arc ∈ t.arcs state) :
        arc ∈ (t.addSilent source target).arcs state :=
      (mem_arcs_add_silent t target inside state arc).mpr (.inl leaves)
    rintro (walk | walk)
    · exact Walk.transport kept walk
    · have last :=
        (mem_arcs_add_silent t target inside source (Arc.silent target 0.0)).mpr (.inr ⟨rfl, rfl⟩)
      have whole := (Walk.transport kept walk).trans (Walk.single last above)
      rwa [of_arc_silent_zero, mul_one] at whole

end Transducer

namespace Pattern

open Transducer

/-- A branch to a state of its own that no arc leaves. -/
structure Stub (t : Transducer) (source : StateId) (built : Transducer × StateId)
    (words : Language Char) : Prop where
  branch : Branch t source built.1 built.2 (Trace.copies words)
  new : t.size ≤ built.2
  ends : built.1.arcs built.2 = #[]

theorem Stub.of_sequence {t middle : Transducer} {source last : StateId} {words : Language Char}
    (formed : t.WellFormed) (inside : source < t.size)
    (branch : Branch t source middle last (Trace.copies words)) :
    Stub t source (middle.addState.addSilent last middle.size, middle.size) words := by
  have lastInside := branch.target_lt inside
  refine ⟨?_, branch.growth.size_le, arcs_add_silent_end middle lastInside⟩
  have whole := branch.trans inside formed
    (Branch.of_silent (branch.growth.well_formed formed) lastInside)
  rwa [mul_one] at whole

/-- One more alternative into an end state that stands between the bound and the
new states. -/
theorem alternative_into {t middle : Transducer} {source last target : StateId}
    {words : Language Char} (formed : t.WellFormed) {bound : Nat} (below : source < bound)
    (bounded : bound ≤ target) (inside : target < t.size) (ends : t.arcs target = #[])
    (branch : Branch t source middle last (Trace.copies words)) :
    Extension t (middle.addSilent last target) source bound ∧
      (middle.addSilent last target).between bound source target =
        t.between bound source target ∪ Trace.copies words := by
  have above : bound ≤ t.size := Nat.le_of_lt (Nat.lt_of_le_of_lt bounded inside)
  have sourceInside := Nat.lt_of_lt_of_le below above
  have lastInside := branch.target_lt sourceInside
  have apart : target ≠ source := Nat.ne_of_gt (Nat.lt_of_lt_of_le below bounded)
  have origin : last = source ∨ t.size ≤ last := branch.ending.imp And.right And.left
  have targetInside : target < middle.size := Nat.lt_of_lt_of_le inside branch.growth.size_le
  have different : target ≠ last := branch.ne_target inside apart
  constructor
  · exact (branch.growth.weaken above).trans
      (.of_add_silent middle lastInside bounded targetInside) origin
      (Nat.le_refl _)
  · rw [between_add_silent_end lastInside (branch.growth.ends_old inside apart ends)
      different bounded, branch.between_below formed below above]
    congr 1
    ext trace
    exact branch.growth.walk_old_iff inside

mutual

theorem Atom.build_stub (alphabet : CharSet) (t : Transducer) (entry : StateId) (atom : Atom)
    (formed : t.WellFormed) (inside : entry < t.size) :
    Stub t entry (atom.build alphabet t entry) (atom.language alphabet) := by
  cases atom with
  | literal character =>
      have words :
          ({[character]} : Language Char) = { word | ∃ listed ∈ [character], word = [listed] } := by
        ext word
        constructor
        · exact fun same => ⟨character, List.mem_singleton_self character, same⟩
        · rintro ⟨listed, member, rfl⟩
          obtain rfl := List.mem_singleton.mp member
          rfl
      rw [Atom.build, Atom.language, words]
      exact ⟨.of_choice formed inside [character], Nat.le_refl _, arcs_add_choice_end t _ inside⟩
  | oneOf cls =>
      have words : ({ word | ∃ character, cls.Matches alphabet character ∧ word = [character] } :
        Language Char) =
          { word | ∃ character ∈ (cls.members alphabet).toList, word = [character] } := by
        ext word
        exact exists_congr fun character =>
          and_congr_left' (CharClass.mem_members_iff alphabet cls character).symm
      rw [Atom.build, Atom.language, words]
      exact ⟨.of_choice formed inside _, Nat.le_refl _, arcs_add_choice_end t _ inside⟩
  | nested group =>
      rw [Atom.build, Atom.language]
      exact group.build_stub alphabet t entry formed inside

theorem Sequence.build_branch (alphabet : CharSet) (t : Transducer) (source : StateId)
    (sequence : Sequence) (formed : t.WellFormed) (inside : source < t.size) :
    Branch t source (sequence.build alphabet t source).1 (sequence.build alphabet t source).2
      (Trace.copies (sequence.language alphabet)) := by
  cases sequence with
  | empty =>
      rw [Sequence.build, Sequence.language, Trace.copies_one]
      exact .refl inside
  | cons atom quantifier rest =>
      rw [Sequence.build, Sequence.language, Trace.copies_mul]
      have entered := (Branch.of_silent formed inside).growth.well_formed formed
      have size : (t.addState.addSilent source t.size).size = t.size + 1 := by simp
      have built :=
        atom.build_stub alphabet (t.addState.addSilent source t.size) t.size entered (by simp)
      have turned :=
        Quantifier.link_branch quantifier formed inside built.branch (size ▸ built.new) built.ends
      have turns : { trace | ∃ count, quantifier.Allows count ∧
          trace ∈ Trace.copies (atom.language alphabet) ^ count } =
          Trace.copies (quantifier.language (atom.language alphabet)) := by
        ext trace
        exact (Trace.mem_copies_quantified_iff quantifier _ trace).symm
      rw [turns] at turned
      have formedAfter := turned.growth.well_formed formed
      exact turned.trans inside formed
        (rest.build_branch alphabet _ _ formedAfter (turned.target_lt inside))

theorem Group.build_stub (alphabet : CharSet) (t : Transducer) (source : StateId) (group : Group)
    (formed : t.WellFormed) (inside : source < t.size) :
    Stub t source (group.build alphabet t source) (group.language alphabet) := by
  cases group with
  | only sequence =>
      rw [Group.build, Group.language]
      exact .of_sequence formed inside (sequence.build_branch alphabet t source formed inside)
  | either sequence others =>
      rw [Group.build, Group.language]
      have first :=
        Stub.of_sequence formed inside (sequence.build_branch alphabet t source formed inside)
      have formedFirst := first.branch.growth.well_formed formed
      have exitInside := first.branch.target_lt inside
      have apart := Nat.ne_of_gt (Nat.lt_of_lt_of_le inside first.new)
      obtain ⟨growth, between⟩ :=
        others.build_into_between alphabet _ source _ formedFirst inside first.new
        exitInside first.ends
      refine ⟨⟨first.branch.growth.trans growth (.inl rfl) (Nat.le_refl _),
        .inr ⟨first.new, Nat.lt_of_lt_of_le exitInside growth.size_le⟩, ?_⟩, first.new,
        growth.ends_old exitInside apart first.ends⟩
      rw [Trace.copies_add, ← first.branch.traces]
      exact between

theorem Group.build_into_between (alphabet : CharSet) (t : Transducer) (source target : StateId)
    (group : Group)
    (formed : t.WellFormed) {bound : Nat} (below : source < bound) (bounded : bound ≤ target)
    (inside : target < t.size) (ends : t.arcs target = #[]) :
    Extension t (group.buildInto alphabet t source target) source bound ∧
      (group.buildInto alphabet t source target).between bound source target =
        t.between bound source target ∪ Trace.copies (group.language alphabet) := by
  cases group with
  | only sequence =>
      have inner := Nat.lt_of_lt_of_le below (Nat.le_of_lt (Nat.lt_of_le_of_lt bounded inside))
      rw [Group.buildInto, Group.language]
      exact alternative_into formed below bounded inside ends
        (sequence.build_branch alphabet t source formed inner)
  | either sequence others =>
      have inner := Nat.lt_of_lt_of_le below (Nat.le_of_lt (Nat.lt_of_le_of_lt bounded inside))
      have apart : target ≠ source := Nat.ne_of_gt (Nat.lt_of_lt_of_le below bounded)
      rw [Group.buildInto, Group.language, Trace.copies_add]
      obtain ⟨growth, first⟩ := alternative_into formed below bounded inside ends
        (sequence.build_branch alphabet t source formed inner)
      obtain ⟨further, rest⟩ :=
        others.build_into_between alphabet _ source target (growth.well_formed formed) below
        bounded (Nat.lt_of_lt_of_le inside growth.size_le) (growth.ends_old inside apart ends)
      refine ⟨growth.trans further (.inl rfl) (Nat.le_refl _), ?_⟩
      rw [← Set.union_assoc, ← first]
      exact rest

end

theorem Group.transducer_rooted (alphabet : CharSet) (group : Group) :
    (group.transducer alphabet).Rooted := by
  have built := group.build_stub alphabet .initial 0 well_formed_initial (by decide)
  exact (built.branch.rooted rooted_initial).set_final _ _

theorem Group.traces_transducer (alphabet : CharSet) (group : Group) :
    (group.transducer alphabet).traces = Trace.copies (group.language alphabet) := by
  have built := group.build_stub alphabet .initial 0 well_formed_initial (by decide)
  have traces := built.branch.traces_set_final rooted_initial (final_initial _) 0.0
  rw [traces_initial, Set.empty_union, Trace.of_weight_zero, Set.singleton_one, mul_one] at traces
  exact traces

end Pattern

end MorphLex
