import MorphLex.Pattern.Build
import MorphLex.Proofs.Pattern.Language
import MorphLex.Proofs.Transducer.Branch

/-!
Quantifiers. The entry state of an atom is entered by one silent arc, so the arcs
back from its exit and past it repeat or skip this atom alone: between entry and
exit lie exactly the allowed numbers of turns.
-/

open scoped Pointwise

namespace MorphLex

namespace Transducer

theorem Extension.of_add_silent (t : Transducer) {source target : StateId} {bound : Nat}
    (inside : source < t.size) (above : bound ≤ target) (below : target < t.size) :
    Extension t (t.addSilent source target) source bound :=
  .of_add_arc t source _ inside above below

theorem mem_arcs_add_silent (t : Transducer) {source : StateId} (target : StateId)
    (inside : source < t.size) (state : StateId) (arc : Arc) :
    arc ∈ (t.addSilent source target).arcs state ↔
      arc ∈ t.arcs state ∨ (state = source ∧ arc = Arc.silent target 0.0) :=
  mem_arcs_add_arc t source _ inside state arc

@[simp] theorem size_add_silent (t : Transducer) (source target : StateId) :
    (t.addSilent source target).size = t.size :=
  size_add_arc t source _

theorem of_arc_silent_zero (target : StateId) : Trace.ofArc (Arc.silent target 0.0) = 1 := by
  rw [Trace.of_arc_silent, Trace.of_weight_zero]

theorem arcs_add_silent_end (t : Transducer) {source : StateId} (inside : source < t.size) :
    (t.addState.addSilent source t.size).arcs t.size = #[] := by
  rw [Array.eq_empty_iff_forall_not_mem]
  intro arc leaves
  have within : source < t.addState.size := by rw [size_add_state]; exact Nat.lt_succ_of_lt inside
  rcases (mem_arcs_add_silent _ _ within _ _).mp leaves with old | ⟨same, _⟩
  · rw [arcs_add_state, arcs_of_size_le t _ (Nat.le_refl _)] at old
    simp at old
  · exact absurd inside (Nat.not_lt.mpr (Nat.le_of_eq same))

theorem Branch.of_silent {t : Transducer} {source : StateId} (formed : t.WellFormed)
    (inside : source < t.size) :
    Branch t source (t.addState.addSilent source t.size) t.size 1 := by
  have within : source < t.addState.size := by rw [size_add_state]; exact Nat.lt_succ_of_lt inside
  have growth : Extension t (t.addState.addSilent source t.size) source t.size :=
    (Extension.of_add_state t source t.size).trans
      (.of_add_silent t.addState within (Nat.le_refl _) (by simp)) (.inl rfl) (Nat.le_refl _)
  have leaf := Branch.of_leaf formed inside growth (by simp) (arcs_add_silent_end t inside)
  refine ⟨growth, leaf.ending, leaf.traces.trans ?_⟩
  ext trace
  rw [Set.mem_one]
  constructor
  · rintro ⟨arc, leaves, new, rfl⟩
    rcases (mem_arcs_add_silent _ _ within _ _).mp leaves with old | ⟨_, rfl⟩
    · rw [arcs_add_state] at old
      exact absurd old new
    · exact of_arc_silent_zero _
  · rintro rfl
    refine ⟨Arc.silent t.size 0.0, (mem_arcs_add_silent _ _ within _ _).mpr (.inr ⟨rfl, rfl⟩),
      fun old => ?_, (of_arc_silent_zero _).symm⟩
    exact absurd (formed.target_lt old) (Nat.lt_irrefl _)

end Transducer

namespace Pattern

open Transducer

namespace Quantifier

def repeats : Quantifier → Bool
  | .oneOrMore | .zeroOrMore => true
  | .once | .atMostOnce => false

def omits : Quantifier → Bool
  | .zeroOrMore | .atMostOnce => true
  | .once | .oneOrMore => false

theorem allows_iff (quantifier : Quantifier) (count : Nat) :
    quantifier.Allows count ↔ (count = 0 → quantifier.omits = true) ∧
      (1 < count → quantifier.repeats = true) := by
  cases quantifier <;> simp only [Allows, omits, repeats] <;> simp <;> omega

variable {t : Transducer} {entry exit : StateId}

@[simp] theorem size_link (quantifier : Quantifier) :
    (quantifier.link t entry exit).size = t.size := by
  cases quantifier <;> simp [link]

theorem mem_arcs_link (entryInside : entry < t.size) (exitInside : exit < t.size)
    (quantifier : Quantifier) (state : StateId) (arc : Arc) :
    arc ∈ (quantifier.link t entry exit).arcs state ↔ arc ∈ t.arcs state ∨
      (quantifier.repeats = true ∧ state = exit ∧ arc = Arc.silent entry 0.0) ∨
      (quantifier.omits = true ∧ state = entry ∧ arc = Arc.silent exit 0.0) := by
  cases quantifier with
  | once => simp [link, repeats, omits]
  | oneOrMore => simp [link, repeats, omits, mem_arcs_add_silent _ _ exitInside]
  | zeroOrMore =>
      have within : entry < (t.addSilent exit entry).size := by rwa [size_add_silent]
      simp [link, repeats, omits, mem_arcs_add_silent _ _ within,
        mem_arcs_add_silent _ _ exitInside, or_assoc]
  | atMostOnce => simp [link, repeats, omits, mem_arcs_add_silent _ _ entryInside]

section Turns

variable {middle : Transducer} {source : StateId} {turn : Set Trace}

/-- An atom behind a new entry state, which is entered from the source, and with an exit
that no arc leaves. -/
structure Wrapped (t : Transducer) (source : StateId) (middle : Transducer) (exit : StateId)
    (turn : Set Trace) : Prop where
  inside : source < t.size
  growth : Extension (t.addState.addSilent source t.size) middle t.size (t.size + 1)
  spelled : middle.between (t.size + 1) t.size exit = turn
  new : t.size + 1 ≤ exit
  exit_lt : exit < middle.size
  ends : middle.arcs exit = #[]

namespace Wrapped

theorem entry_lt (atom : Wrapped t source middle exit turn) :
    t.size < middle.size := Nat.lt_trans atom.new atom.exit_lt

theorem source_lt (atom : Wrapped t source middle exit turn) : source < t.addState.size := by
  rw [size_add_state]
  exact Nat.lt_succ_of_lt atom.inside

/-- The atom has no arcs back to its entry or past it. -/
theorem target_new (atom : Wrapped t source middle exit turn) {state : StateId} {arc : Arc}
    (fresh : t.size ≤ state) (leaves : arc ∈ middle.arcs state) : t.size + 1 ≤ arc.target := by
  rcases atom.growth.added state arc leaves with old | ⟨_, above, _⟩
  · rcases (mem_arcs_add_silent _ _ atom.source_lt _ _).mp old with older | ⟨same, _⟩
    · rw [arcs_add_state, arcs_of_size_le t state fresh] at older
      simp at older
    · exact absurd atom.inside (Nat.not_lt.mpr (same ▸ fresh))
  · exact above

theorem mem_arcs_iff (atom : Wrapped t source middle exit turn) (quantifier : Quantifier)
    (state : StateId) (arc : Arc) :
    arc ∈ (quantifier.link middle t.size exit).arcs state ↔ arc ∈ middle.arcs state ∨
      (quantifier.repeats = true ∧ state = exit ∧ arc = Arc.silent t.size 0.0) ∨
      (quantifier.omits = true ∧ state = t.size ∧ arc = Arc.silent exit 0.0) :=
  mem_arcs_link atom.entry_lt atom.exit_lt quantifier state arc

/-- What remains of a walk from some state of the atom: to the exit, or past the
atom from its entry, and then some turns more. -/
theorem turns_of_walk (atom : Wrapped t source middle exit turn) (quantifier : Quantifier)
    {state : StateId} {trace : Trace} (fresh : t.size ≤ state)
    (walk : (quantifier.link middle t.size exit).Walk t.size exit state trace) :
    ∃ front back count, (front ∈ middle.between (t.size + 1) state exit ∨
      (quantifier.omits = true ∧ state = t.size ∧ front = 1)) ∧
      (count = 0 ∨ quantifier.repeats = true) ∧ back ∈ turn ^ count ∧ trace = front * back := by
  -- From the end of the walk: `front` is what is left of the turn at hand, `back` the later turns.
  induction walk with
  | stay => exact ⟨1, 1, 0, .inl .stay, .inl rfl, rfl, (one_mul 1).symm⟩
  | @step state arc rest leaves above later ih =>
      obtain ⟨front, back, count, start, turns, member, rfl⟩ := ih above
      rcases (atom.mem_arcs_iff quantifier state arc).mp leaves with
        old | ⟨repeated, atExit, rfl⟩ | ⟨omitted, atEntry, rfl⟩
      · have higher := atom.target_new fresh old
        rcases start with onward | ⟨_, same, _⟩
        · exact ⟨_, back, count, .inl (Walk.step old higher onward), turns, member,
            (mul_assoc _ _ _).symm⟩
        · exact absurd higher (Nat.not_le.mpr (Nat.lt_succ_of_le (Nat.le_of_eq same)))
      · rw [of_arc_silent_zero, one_mul]
        subst atExit
        rcases start with onward | ⟨_, _, rfl⟩
        · refine ⟨1, front * back, count + 1, .inl .stay, .inr repeated, ?_, (one_mul _).symm⟩
          rw [pow_succ']
          exact Set.mul_mem_mul (atom.spelled ▸ onward) member
        · exact ⟨1, back, count, .inl .stay, turns, member, rfl⟩
      · rw [of_arc_silent_zero, one_mul]
        rcases start with onward | ⟨_, same, _⟩
        · refine ⟨1, back, count, .inr ⟨omitted, atEntry, rfl⟩, turns, member, ?_⟩
          rcases Walk.first_arc onward with ⟨_, rfl⟩ | ⟨next, leaves, _⟩
          · rfl
          · have next := atom.ends ▸ leaves
            simp at next
        · exact absurd atom.new (Nat.not_le.mpr (Nat.lt_succ_of_le (Nat.le_of_eq same)))

theorem walk_of_turns (atom : Wrapped t source middle exit turn) (quantifier : Quantifier)
    (count : Nat) (repeated : count = 0 ∨ quantifier.repeats = true) {trace : Trace}
    (member : trace ∈ turn ^ (count + 1)) :
    (quantifier.link middle t.size exit).Walk t.size exit t.size trace := by
  have once {trace : Trace} (member : trace ∈ turn) :
      (quantifier.link middle t.size exit).Walk t.size exit t.size trace := by
    have walk : middle.Walk (t.size + 1) exit t.size trace := by
      rw [← atom.spelled] at member; exact member
    exact (walk.lower (Nat.le_succ _)).transport fun state arc leaves =>
      (atom.mem_arcs_iff quantifier state arc).mpr (.inl leaves)
  induction count generalizing trace with
  | zero =>
      rw [zero_add, pow_one] at member
      exact once member
  | succ count ih =>
      have loops : quantifier.repeats = true := repeated.resolve_left (Nat.succ_ne_zero count)
      rw [pow_succ', Set.mem_mul] at member
      obtain ⟨first, inTurn, rest, inTurns, rfl⟩ := member
      have back : Arc.silent t.size 0.0 ∈ (quantifier.link middle t.size exit).arcs exit :=
        (atom.mem_arcs_iff quantifier _ _).mpr (.inr (.inl ⟨loops, rfl, rfl⟩))
      have again := (Walk.single back (Nat.le_refl _)).trans (ih (.inr loops) inTurns)
      rw [of_arc_silent_zero, one_mul] at again
      exact (once inTurn).trans again

theorem enters_entry (atom : Wrapped t source middle exit turn) (formed : t.WellFormed)
    (quantifier : Quantifier)
    {arc : Arc} (leaves : arc ∈ (quantifier.link middle t.size exit).arcs source)
    (above : t.size ≤ arc.target) :
    arc = Arc.silent t.size 0.0 := by
  rcases (atom.mem_arcs_iff quantifier source arc).mp leaves with
      old | ⟨_, atExit, _⟩ | ⟨_, atEntry, _⟩
  · have within : source < (t.addState.addSilent source t.size).size := by
      rw [size_add_silent]
      exact atom.source_lt
    rw [atom.growth.arcs_old within (Nat.ne_of_lt atom.inside),
      mem_arcs_add_silent _ _ atom.source_lt] at old
    rcases old with older | ⟨_, same⟩
    · rw [arcs_add_state] at older
      exact absurd (formed.target_lt older) (Nat.not_lt.mpr above)
    · exact same
  · exact absurd atom.inside (Nat.not_lt.mpr (atExit ▸ Nat.le_of_succ_le atom.new))
  · exact absurd atom.inside (Nat.not_lt.mpr (Nat.le_of_eq atEntry.symm))

theorem entered (atom : Wrapped t source middle exit turn) (quantifier : Quantifier) :
    Arc.silent t.size 0.0 ∈ (quantifier.link middle t.size exit).arcs source := by
  refine (atom.mem_arcs_iff quantifier _ _).mpr (.inl (atom.growth.kept _ _ ?_))
  exact (mem_arcs_add_silent _ _ atom.source_lt _ _).mpr (.inr ⟨rfl, rfl⟩)

theorem extension (atom : Wrapped t source middle exit turn) (formed : t.WellFormed)
    (quantifier : Quantifier) :
    Extension t (quantifier.link middle t.size exit) source t.size := by
  have base := (Branch.of_silent formed atom.inside).growth.trans atom.growth (.inr (Nat.le_refl _))
    (Nat.le_succ _)
  have above : t.size ≤ exit := Nat.le_of_succ_le atom.new
  refine ⟨by rw [size_link]; exact base.size_le, fun state arc leaves => ?_,
    fun state arc leaves => ?_, ?_⟩
  · exact (atom.mem_arcs_iff quantifier state arc).mpr (.inl (base.kept state arc leaves))
  · rw [size_link]
    rcases (atom.mem_arcs_iff quantifier state arc).mp leaves with
        old | ⟨_, rfl, rfl⟩ | ⟨_, rfl, rfl⟩
    · exact base.added state arc old
    · exact .inr ⟨.inr above, Nat.le_refl _, atom.entry_lt⟩
    · exact .inr ⟨.inr (Nat.le_refl _), above, atom.exit_lt⟩
  · intro state
    rw [← base.final state]
    cases quantifier <;> simp [link, addSilent]

theorem allowed_of_walk (atom : Wrapped t source middle exit turn) (formed : t.WellFormed)
    (quantifier : Quantifier)
    {trace : Trace} (walk : (quantifier.link middle t.size exit).Walk t.size exit source trace) :
    ∃ count, quantifier.Allows count ∧ trace ∈ turn ^ count := by
  obtain ⟨arc, leaves, higher, later, rest, rfl⟩ :=
    walk.first_arc.resolve_left fun same =>
      absurd atom.inside (Nat.not_lt.mpr (same.1 ▸ Nat.le_of_succ_le atom.new))
  obtain rfl := atom.enters_entry formed quantifier leaves higher
  obtain ⟨front, back, count, start, turns, member, rfl⟩ :=
    atom.turns_of_walk quantifier (Nat.le_refl _) rest
  rw [of_arc_silent_zero, one_mul]
  rcases start with onward | ⟨omitted, _, rfl⟩
  · refine ⟨count + 1,
      (allows_iff quantifier _).mpr ⟨by omega, fun many => turns.resolve_left (by omega)⟩, ?_⟩
    rw [pow_succ']
    exact Set.mul_mem_mul (atom.spelled ▸ onward) member
  · rw [one_mul]
    exact ⟨count,
      (allows_iff quantifier _).mpr ⟨fun _ => omitted, fun many => turns.resolve_left (by omega)⟩,
      member⟩

theorem walk_of_allowed (atom : Wrapped t source middle exit turn) (quantifier : Quantifier)
    {count : Nat} (allowed : quantifier.Allows count) {trace : Trace}
    (member : trace ∈ turn ^ count) :
    (quantifier.link middle t.size exit).Walk t.size exit source trace := by
  obtain ⟨omitted, repeated⟩ := (allows_iff quantifier count).mp allowed
  have turns : (quantifier.link middle t.size exit).Walk t.size exit t.size trace := by
    cases count with
    | zero =>
        rw [pow_zero, Set.mem_one] at member
        have past : Arc.silent exit 0.0 ∈ (quantifier.link middle t.size exit).arcs t.size :=
          (atom.mem_arcs_iff quantifier _ _).mpr (.inr (.inr ⟨omitted rfl, rfl, rfl⟩))
        have walk := Walk.single past (Nat.le_of_succ_le atom.new)
        rwa [of_arc_silent_zero, ← member] at walk
    | succ count =>
        refine atom.walk_of_turns quantifier count ?_ member
        by_cases single : count = 0
        · exact .inl single
        · exact .inr (repeated (by omega))
  have walk := (Walk.single (atom.entered quantifier) (Nat.le_refl _)).trans turns
  rwa [of_arc_silent_zero, one_mul] at walk

end Wrapped

/-- An atom between a new entry and its exit, under a quantifier. -/
theorem link_branch (quantifier : Quantifier) (formed : t.WellFormed) (inside : source < t.size)
    (atom : Branch (t.addState.addSilent source t.size) t.size middle exit turn)
    (new : t.size + 1 ≤ exit) (ends : middle.arcs exit = #[]) :
    Branch t source (quantifier.link middle t.size exit) exit
      { trace | ∃ count, quantifier.Allows count ∧ trace ∈ turn ^ count } := by
  have size : (t.addState.addSilent source t.size).size = t.size + 1 := by simp
  have wrapped : Wrapped t source middle exit turn :=
    ⟨inside, size ▸ atom.growth, size ▸ atom.traces, new, atom.target_lt (by simp), ends⟩
  refine ⟨wrapped.extension formed quantifier, .inr ⟨Nat.le_of_succ_le new, ?_⟩, ?_⟩
  · rw [size_link]
    exact wrapped.exit_lt
  · ext trace
    constructor
    · exact wrapped.allowed_of_walk formed quantifier
    · rintro ⟨count, allowed, member⟩
      exact wrapped.walk_of_allowed quantifier allowed member

end Turns

end Quantifier

end Pattern

end MorphLex
