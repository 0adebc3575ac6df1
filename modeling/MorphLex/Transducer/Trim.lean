import MorphLex.Graph.Reach
import MorphLex.Transducer.Basic

/-!
Trimming: only states on some path from the start to a final state are useful.
The start is kept in any case; the others keep their order.
-/

namespace MorphLex.Transducer

def successors (t : Transducer) (state : StateId) : List StateId :=
  (t.arcs state).toList.map Arc.target

/-- For every state the sources of the arcs that lead to it. -/
def predecessors (t : Transducer) : Array (List StateId) :=
  t.states.toList.zipIdx.foldl (fun sources (state, source) =>
    state.arcs.foldl (fun sources arc => sources.modify arc.target (source :: ·)) sources)
    (Array.replicate t.size [])

def accessible (t : Transducer) : Array Bool := Reach.closure t.size t.successors [0]

def coaccessible (t : Transducer) : Array Bool :=
  let sources := t.predecessors
  Reach.closure t.size (fun state => sources.getD state []) (t.finals.map Prod.fst)

/-- Marks the start and every useful state. -/
def useful (t : Transducer) : List Bool :=
  let accessible := t.accessible
  let coaccessible := t.coaccessible
  (List.range t.size).map fun state =>
    state = 0 || (accessible.getD state false && coaccessible.getD state false)

/-- Consecutive numbers from `next` for the marked entries. -/
def renumberFrom (next : StateId) : List Bool → List (Option StateId)
  | [] => []
  | true :: rest => some next :: renumberFrom (next + 1) rest
  | false :: rest => none :: renumberFrom next rest

/-- A kept state: its arcs into kept states, unless it leads nowhere. -/
def trimState (numbers : Array (Option StateId)) (state : State) (live : Bool) : State :=
  { final := state.final
    arcs := if live then
        state.arcs.filterMap fun arc =>
          (numbers.getD arc.target none).map fun target => { arc with target }
      else #[] }

/-- The start and the useful states, with the arcs between them. -/
def trim (t : Transducer) : Transducer :=
  let numbers := (renumberFrom 0 t.useful).toArray
  let live := t.coaccessible
  ⟨(t.states.toList.zipIdx.filterMap fun (state, number) =>
    (numbers.getD number none).map fun _ =>
      trimState numbers state (live.getD number false)).toArray⟩

end MorphLex.Transducer
