import MorphLex.Proofs.Transducer.Simulation
import MorphLex.Proofs.Transducer.Splice

/-!
Splicing between any two states. The old part of the transducer is kept but for the
arc that enters the copy, and what paths between old states show is what paths of the
old transducer show that may jump from the one state to the other: each jump stands for
an accepting path of the copied transducer. Jumps may follow each other in any order,
also where the two states are the same or lie on a cycle.
-/

namespace MorphLex

/-- What an arc shows with its weight as it is: nothing if it is silent and without weight. -/
def Arc.mark? (arc : Arc) : Option Label :=
  if arc.isSilent && arc.weight == 0.0 then none
  else some { input := arc.input, output := arc.output, weight := arc.weight }

/-- What a final weight shows on the way out, as the label of epsilon on both sides. -/
def Label.ofFinal (weight : Weight) : List Label :=
  if weight == 0.0 then [] else [{ input := Symbol.epsilon, output := Symbol.epsilon, weight }]

namespace Transducer

def marks (path : List Arc) : List Label := path.filterMap Arc.mark?

theorem marks_cons (arc : Arc) (path : List Arc) :
    marks (arc :: path) = marks [arc] ++ marks path :=
  List.filterMap_append (l := [arc])

theorem marks_append (front back : List Arc) : marks (front ++ back) = marks front ++ marks back :=
  List.filterMap_append

theorem marks_silent (target : StateId) (weight : Weight) :
    marks [Arc.silent target weight] = Label.ofFinal weight := by
  have silent : (Arc.silent target weight).isSilent = true := by
    simp [Arc.isSilent, Arc.silent, Symbol.isEpsilon]
  rw [marks, List.filterMap_cons, List.filterMap_nil, Arc.mark?, silent, Bool.true_and,
    Label.ofFinal]
  by_cases free : (weight == 0.0) = true
  · simp only [Arc.silent, free, if_true]
  · simp only [Arc.silent, free, if_false, Bool.false_eq_true]

theorem of_final_zero : Label.ofFinal 0.0 = [] := if_pos (by decide)

/-- Paths of `t` that may jump from `source` to `target`, with what they show. A jump shows
what an accepting path of `other` shows, and its final weight. -/
inductive Journey (t other : Transducer) (source target : StateId) :
    StateId → List Label → StateId → Prop
  | stay (state : StateId) : Journey t other source target state [] state
  | walk {state last : StateId} {arc : Arc} {later : List Label} (leaves : arc ∈ t.arcs state)
      (onward : Journey t other source target arc.target later last) :
      Journey t other source target state (marks [arc] ++ later) last
  | jump {last : StateId} {path : List Arc} {weight : Weight} {later : List Label}
      (accepted : other.Accepts path weight)
        (onward : Journey t other source target target later last) :
      Journey t other source target source (marks path ++ Label.ofFinal weight ++ later) last

variable {t other : Transducer} {source target : StateId}

section Old

/-- No state of the copy has an old number. -/
theorem copied_not_old (t : Transducer) (inner : StateId) : ¬inner + t.size < t.size :=
  Nat.not_lt.mpr (Nat.le_add_left _ _)

theorem arcs_join_finals_old (target offset : Nat) (t : Transducer)
    (finals : List (StateId × Weight)) (inside : ∀ final ∈ finals, final.1 + offset < t.size)
    {state : StateId} (old : state < offset) :
    (joinFinals target offset t finals).arcs state = t.arcs state := by
  induction finals generalizing t with
  | nil => rfl
  | cons final rest ih =>
      rw [List.forall_mem_cons] at inside
      have later : ∀ other ∈ rest,
        other.1 + offset < (t.addArc (final.1 + offset) (Arc.silent target final.2)).size := by
        simpa using inside.2
      have apart : state ≠ final.1 + offset :=
        Nat.ne_of_lt (Nat.lt_of_lt_of_le old (Nat.le_add_left _ _))
      rw [joinFinals, List.foldl_cons, ← joinFinals, ih _ later, arcs_add_arc _ _ _ inside.1,
        if_neg apart]

/-- Old states keep their arcs; the source has one more, behind the others. -/
theorem arcs_splice_old (target : StateId) (other : Transducer) (inside : source < t.size)
    {state : StateId} (old : state < t.size) :
    (t.splice source target other).arcs state =
      if state = source then (t.arcs state).push (Arc.silent t.size 0.0) else t.arcs state := by
  have sourceInside : source < (t.appendCopy other).size := by
    rw [size_append_copy]
    exact Nat.lt_of_lt_of_le inside (Nat.le_add_right _ _)
  rw [splice, arcs_join_finals_old _ _ _ _ (finals_inside t other source) old,
    arcs_add_arc _ _ _ sourceInside, arcs_append_copy_old t other old]

theorem well_formed_splice (formed : t.WellFormed) (otherFormed : other.WellFormed)
    (inside : source < t.size) (within : target < t.size) :
    (t.splice source target other).WellFormed := by
  rw [well_formed_iff, size_splice]
  refine ⟨Nat.lt_of_lt_of_le formed.1 (Nat.le_add_right _ _), fun state arc leaves => ?_⟩
  have positive : 0 < other.size := otherFormed.1
  rcases (mem_arcs_splice t target other inside state arc).mp leaves with
    old | ⟨-, rfl⟩ | ⟨inner, -, old, onward, rfl⟩ | ⟨inner, weight, -, -, rfl⟩
  · exact Nat.lt_of_lt_of_le (formed.target_lt old) (Nat.le_add_right _ _)
  · exact Nat.lt_add_of_pos_right positive
  · rw [Nat.add_comm t.size]
    exact Nat.add_lt_add_right (otherFormed.target_lt onward) _
  · exact Nat.lt_of_lt_of_le within (Nat.le_add_right _ _)

end Old

section Journeys

/-- A path of the other transducer, in the copy of it. -/
theorem exists_copied_run (target : StateId) (inside : source < t.size) {first last : StateId}
    {path : List Arc} (run : other.Run first path last) :
    ∃ copied, (t.splice source target other).Run (first + t.size) copied (last + t.size) ∧
      marks copied = marks path := by
  induction run with
  | stay state => exact ⟨[], .stay _, rfl⟩
  | @step state arc path last leaves _ ih =>
      obtain ⟨copied, later, same⟩ := ih
      have copy : { arc with target := arc.target + t.size } ∈
        (t.splice source target other).arcs (state + t.size) :=
        (mem_arcs_splice t target other inside _ _).mpr
          (.inr (.inr (.inl ⟨state, rfl, arc, leaves, rfl⟩)))
      refine ⟨_ :: copied, .step copy later, ?_⟩
      rw [marks_cons, same, marks_cons arc]
      rfl

theorem Journey.exists_run (inside : source < t.size) {first last : StateId} {shown : List Label}
    (journey : Journey t other source target first shown last) :
    ∃ path, (t.splice source target other).Run first path last ∧ marks path = shown := by
  induction journey with
  | stay state => exact ⟨[], .stay state, rfl⟩
  | @walk state last arc later leaves _ ih =>
      obtain ⟨path, run, same⟩ := ih
      have kept := (mem_arcs_splice t target other inside state arc).mpr (.inl leaves)
      exact ⟨arc :: path, .step kept run, by rw [marks_cons, same]⟩
  | @jump last path weight later accepted _ ih =>
      obtain ⟨ending, through, final⟩ := accepted
      obtain ⟨back, onward, same⟩ := ih
      obtain ⟨copied, passes, alike⟩ := exists_copied_run target inside through
      have enters : Arc.silent t.size 0.0 ∈ (t.splice source target other).arcs source :=
        (mem_arcs_splice t target other inside _ _).mpr (.inr (.inl ⟨rfl, rfl⟩))
      have exits :
          Arc.silent target weight ∈ (t.splice source target other).arcs (ending + t.size) :=
        (mem_arcs_splice t target other inside _ _).mpr
          (.inr (.inr (.inr ⟨ending, weight, final, rfl, rfl⟩)))
      rw [Nat.zero_add] at passes
      refine ⟨Arc.silent t.size 0.0 :: (copied ++ Arc.silent target weight :: back),
        .step enters (passes.append (.step exits onward)), ?_⟩
      rw [marks_cons, marks_silent, of_final_zero, List.nil_append, marks_append,
        marks_cons (Arc.silent target weight), marks_silent, alike, same, List.append_assoc]

/-- From an old state a path to an old state is a journey. From a state of the copy it
first completes an accepting path of the other transducer, and leaves to the target. -/
theorem journey_of_run (formed : t.WellFormed) (inside : source < t.size) (within : target < t.size)
    {first last : StateId} {path : List Arc}
    (run : (t.splice source target other).Run first path last) (old : last < t.size) :
    (first < t.size → Journey t other source target first (marks path) last) ∧
      ∀ inner, first = inner + t.size → ∃ front ending weight later, other.Run inner front ending ∧
        other.final? ending = some weight ∧ Journey t other source target target later last ∧
        marks path = marks front ++ Label.ofFinal weight ++ later := by
  -- Both at once: the copy is entered from old states and left to old states only.
  induction run with
  | stay state =>
      refine ⟨fun _ => .stay state, fun inner copied => ?_⟩
      exact absurd (copied ▸ old) (copied_not_old t inner)
  | @step state arc path last leaves _ ih =>
      obtain ⟨fromOld, fromCopy⟩ := ih old
      have cases := (mem_arcs_splice t target other inside state arc).mp leaves
      constructor
      · intro before
        rcases cases with kept | ⟨rfl, rfl⟩ | ⟨inner, rfl, -⟩ | ⟨inner, -, -, rfl, -⟩
        · rw [marks_cons]
          exact .walk kept (fromOld (formed.target_lt kept))
        · obtain ⟨front, ending, weight, later, through, final, onward, same⟩ :=
            fromCopy 0 (Nat.zero_add _).symm
          rw [marks_cons, marks_silent, of_final_zero, List.nil_append, same]
          exact .jump ⟨ending, through, final⟩ onward
        · exact absurd before (copied_not_old t inner)
        · exact absurd before (copied_not_old t inner)
      · rintro inner rfl
        rcases cases with
            kept | ⟨rfl, -⟩ | ⟨copied, same, original, departs, rfl⟩ | ⟨copied, weight,
              final, same, rfl⟩
        · exact absurd (lt_size_of_mem_arcs kept) (copied_not_old t inner)
        · exact absurd inside (copied_not_old t inner)
        · obtain rfl := Nat.add_right_cancel same
          obtain ⟨front, ending, weight, later, through, final, onward, spelled⟩ :=
            fromCopy original.target rfl
          refine ⟨original :: front, ending, weight, later, .step departs through,
            final, onward, ?_⟩
          rw [marks_cons, spelled, marks_cons original, List.append_assoc, List.append_assoc,
            List.append_assoc]
          rfl
        · obtain rfl := Nat.add_right_cancel same
          refine ⟨[], inner, weight, marks path, .stay inner, final, fromOld within, ?_⟩
          rw [marks_cons, marks_silent]
          rfl

end Journeys

/-- Splicing is exact and framed. Old states keep their numbers, final weights and arcs, but for
one more arc into the copy behind those of the source; no new state is final. Between old states
the paths show what journeys show: old arcs, and jumps from the source to the target. -/
theorem splice_exact_and_framed (formed : t.WellFormed) (otherFormed : other.WellFormed)
    (inside : source < t.size) (within : target < t.size) :
    (t.splice source target other).WellFormed ∧
      (t.splice source target other).size = t.size + other.size ∧
      (∀ state < t.size, (t.splice source target other).final? state = t.final? state ∧
        (t.splice source target other).arcs state =
          if state = source then (t.arcs state).push (Arc.silent t.size 0.0) else t.arcs state) ∧
      (∀ state, t.size ≤ state → (t.splice source target other).final? state = none) ∧
      ∀ first last shown, first < t.size → last < t.size →
        ((∃ path, (t.splice source target other).Run first path last ∧ marks path = shown) ↔
          Journey t other source target first shown last) := by
  refine ⟨well_formed_splice formed otherFormed inside within, size_splice _ _ _ _, ?_, ?_, ?_⟩
  · intro state old
    exact ⟨final_splice _ _ _ _ _, arcs_splice_old target other inside old⟩
  · intro state new
    rw [final_splice, final_of_size_le t state new]
  · intro first last shown before after
    constructor
    · rintro ⟨path, run, rfl⟩
      exact (journey_of_run formed inside within run after).1 before
    · exact Journey.exists_run inside

/-- Two states on a cycle. -/
def cycle : Transducer := ⟨#[{ arcs := #[Arc.identity "a" 1] }, { arcs := #[Arc.identity "b" 0] }]⟩

/-- The start is final and has an arc to itself. -/
def turn : Transducer := ⟨#[{ arcs := #[⟨"c", "d", 0, 1.0⟩], final := some 2.0 }]⟩

/-- Source and target are one state, and the copy is passed twice before the cycle is closed. -/
theorem splice_exact_and_framed_at_one_state :
    cycle.WellFormed ∧ turn.WellFormed ∧ 1 < cycle.size ∧
      (cycle.splice 1 1 turn).arcs 1 = #[Arc.identity "b" 0, Arc.silent 2 0.0] ∧
      (cycle.splice 1 1 turn).final? 2 = none ∧
      ∃ path, (cycle.splice 1 1 turn).Run 0 path 0 ∧
        marks path = [⟨"a", "a", 0.0⟩, ⟨"c", "d", 1.0⟩, ⟨Symbol.epsilon, Symbol.epsilon, 2.0⟩,
          ⟨Symbol.epsilon, Symbol.epsilon, 2.0⟩, ⟨"b", "b", 0.0⟩] := by
  have formed : cycle.WellFormed := by
    simp [cycle, WellFormed, size, Arc.identity]
  have otherFormed : turn.WellFormed := by
    simp [turn, WellFormed, size]
  have inside : 1 < cycle.size := by decide
  obtain ⟨-, -, old, new, paths⟩ := splice_exact_and_framed formed otherFormed inside inside
  have around : turn.Accepts [⟨"c", "d", 0, 1.0⟩] 2.0 :=
    ⟨0, .step (by simp [turn, arcs]) (.stay 0), rfl⟩
  have still : turn.Accepts [] 2.0 := ⟨0, .stay 0, rfl⟩
  have journey : Journey cycle turn 1 1 0 _ 0 :=
    .walk (by simp [cycle, arcs] : Arc.identity "a" 1 ∈ cycle.arcs 0) (.jump around (.jump still
      (.walk (by simp [cycle, arcs] : Arc.identity "b" 0 ∈ cycle.arcs 1) (.stay 0))))
  refine ⟨formed, otherFormed, inside, (old 1 inside).2, new 2 (by decide), ?_⟩
  obtain ⟨path, run, same⟩ := (paths 0 0 _ (by decide) (by decide)).mpr journey
  exact ⟨path, run, same.trans (by decide)⟩

end Transducer

end MorphLex
