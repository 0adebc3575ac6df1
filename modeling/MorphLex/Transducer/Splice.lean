import MorphLex.Transducer.Basic

/-!
Splicing one transducer into another. A copy of the inserted transducer lies
between two states, reached and left by silent arcs only.
-/

namespace MorphLex

namespace State

/-- The state as it is copied: arcs lead `offset` further, and it is not final. -/
def shifted (offset : Nat) (state : State) : State :=
  { arcs := state.arcs.map fun arc => { arc with target := arc.target + offset } }

end State

namespace Transducer

def appendCopy (t other : Transducer) : Transducer :=
  ⟨t.states ++ other.states.map (State.shifted t.size)⟩

/-- Silent arcs from final states of a copy that begins at `offset` to `target`,
each with the final weight. -/
def joinFinals (target offset : Nat) (t : Transducer) (finals : List (StateId × Weight)) :
    Transducer :=
  finals.foldl (fun t (state, weight) => t.addArc (state + offset) (Arc.silent target weight)) t

/-- A copy of `other` between `source` and `target`: a silent arc of no weight
enters its start, and one leaves each of its final states with the final weight. -/
def splice (t : Transducer) (source target : StateId) (other : Transducer) : Transducer :=
  joinFinals target t.size ((t.appendCopy other).addArc source (Arc.silent t.size 0.0)) other.finals

@[simp] theorem size_append_copy (t other : Transducer) :
    (t.appendCopy other).size = t.size + other.size := by
  simp [size, appendCopy]

@[simp] theorem size_join_finals (target offset : Nat) (t : Transducer)
    (finals : List (StateId × Weight)) : (joinFinals target offset t finals).size = t.size := by
  induction finals generalizing t with
  | nil => rfl
  | cons final rest ih =>
      simpa [joinFinals] using ih (t.addArc (final.1 + offset) (Arc.silent target final.2))

@[simp] theorem size_splice (t : Transducer) (source target : StateId) (other : Transducer) :
    (t.splice source target other).size = t.size + other.size := by
  simp [splice]

end Transducer

end MorphLex
