import MorphLex.Symbol
import MorphLex.Weight

/-!
Weighted transducers with numbered states. State 0 is the start. States and
arcs are only ever added; arcs keep the order in which they were added.
-/

namespace MorphLex

abbrev StateId := Nat

/-- A transition that consumes `input`, produces `output` and costs `weight`. -/
structure Arc where
  input : Symbol
  output : Symbol
  target : StateId
  weight : Weight
deriving DecidableEq, Inhabited

namespace Arc

def isSilent (arc : Arc) : Bool := arc.input.isEpsilon && arc.output.isEpsilon

def silent (target : StateId) (weight : Weight) : Arc :=
  { input := Symbol.epsilon, output := Symbol.epsilon, target, weight }

/-- Copies a symbol from input to output at no cost. -/
def identity (symbol : Symbol) (target : StateId) : Arc :=
  { input := symbol, output := symbol, target, weight := 0.0 }

end Arc

structure State where
  arcs : Array Arc := #[]
  final : Option Weight := none
deriving DecidableEq, Inhabited

structure Transducer where
  states : Array State
deriving DecidableEq

namespace Transducer

def initial : Transducer := ⟨#[{}]⟩

instance : Inhabited Transducer := ⟨initial⟩

def size (t : Transducer) : Nat := t.states.size

def arcCount (t : Transducer) : Nat := t.states.foldl (fun count state => count + state.arcs.size) 0

/-- The arcs that leave a state, none for a number that is no state. -/
def arcs (t : Transducer) (state : StateId) : Array Arc := (t.states.getD state {}).arcs

def final? (t : Transducer) (state : StateId) : Option Weight := (t.states.getD state {}).final

def isFinal (t : Transducer) (state : StateId) : Bool := (t.final? state).isSome

def finals (t : Transducer) : List (StateId × Weight) :=
  t.states.toList.zipIdx.filterMap fun (state, number) => state.final.map fun weight =>
    (number, weight)

/-- Adds a state without arcs; its number is the old size. -/
def addState (t : Transducer) : Transducer := ⟨t.states.push {}⟩

def addArc (t : Transducer) (source : StateId) (arc : Arc) : Transducer :=
  ⟨t.states.modify source fun state => { state with arcs := state.arcs.push arc }⟩

/-- Makes a state final, replacing any weight it had. -/
def setFinal (t : Transducer) (state : StateId) (weight : Weight) : Transducer :=
  ⟨t.states.modify state fun old => { old with final := some weight }⟩

def symbols (t : Transducer) : List Symbol :=
  let labels := t.states.toList.flatMap fun state =>
    state.arcs.toList.flatMap fun arc => [arc.input, arc.output]
  Symbol.ascending (labels.filter fun symbol => !symbol.isEpsilon)

/-- There is a start state, and every arc leads to a state. -/
def WellFormed (t : Transducer) : Prop :=
  0 < t.size ∧ ∀ state ∈ t.states, ∀ arc ∈ state.arcs, arc.target < t.size

theorem arcs_eq (t : Transducer) (state : StateId) :
    t.arcs state = (t.states[state]?.getD {}).arcs := by
  rw [arcs, Array.getD_eq_getD_getElem?]

theorem final_eq (t : Transducer) (state : StateId) :
    t.final? state = (t.states[state]?.getD {}).final := by
  rw [final?, Array.getD_eq_getD_getElem?]

theorem arcs_of_size_le (t : Transducer) (state : StateId) (outside : t.size ≤ state) :
    t.arcs state = #[] := by
  rw [arcs_eq, Array.getElem?_eq_none outside]
  rfl

theorem final_of_size_le (t : Transducer) (state : StateId) (outside : t.size ≤ state) :
    t.final? state = none := by
  rw [final_eq, Array.getElem?_eq_none outside]
  rfl

theorem lt_size_of_mem_arcs {t : Transducer} {state : StateId} {arc : Arc}
    (member : arc ∈ t.arcs state) : state < t.size := by
  by_cases inside : state < t.size
  · exact inside
  · rw [arcs_of_size_le t state (Nat.le_of_not_lt inside)] at member
    simp at member

theorem lt_size_of_final {t : Transducer} {state : StateId} {weight : Weight}
    (final : t.final? state = some weight) : state < t.size := by
  by_cases inside : state < t.size
  · exact inside
  · rw [final_of_size_le t state (Nat.le_of_not_lt inside)] at final
    simp at final

theorem WellFormed.target_lt {t : Transducer} (formed : t.WellFormed) {state : StateId} {arc : Arc}
    (member : arc ∈ t.arcs state) : arc.target < t.size := by
  have inside : state < t.states.size := lt_size_of_mem_arcs member
  rw [arcs_eq, Array.getElem?_eq_getElem inside] at member
  exact formed.2 _ (Array.getElem_mem inside) arc member

theorem well_formed_iff (t : Transducer) :
    t.WellFormed ↔ 0 < t.size ∧ ∀ state, ∀ arc ∈ t.arcs state, arc.target < t.size := by
  constructor
  · intro formed
    exact ⟨formed.1, fun state arc member => formed.target_lt member⟩
  · rintro ⟨positive, targets⟩
    refine ⟨positive, fun state member arc leaves => ?_⟩
    obtain ⟨number, inside, rfl⟩ := Array.mem_iff_getElem.mp member
    apply targets number arc
    rw [arcs_eq, Array.getElem?_eq_getElem inside]
    exact leaves

@[simp] theorem size_initial : initial.size = 1 := rfl

@[simp] theorem arcs_initial (state : StateId) : initial.arcs state = #[] := by
  rw [arcs_eq]
  cases state <;> rfl

@[simp] theorem final_initial (state : StateId) : initial.final? state = none := by
  rw [final_eq]
  cases state <;> rfl

@[simp] theorem size_add_state (t : Transducer) : t.addState.size = t.size + 1 := by
  simp [size, addState]

@[simp] theorem size_add_arc (t : Transducer) (source : StateId) (arc : Arc) :
    (t.addArc source arc).size = t.size := by
  simp [size, addArc]

@[simp] theorem size_set_final (t : Transducer) (state : StateId) (weight : Weight) :
    (t.setFinal state weight).size = t.size := by
  simp [size, setFinal]

/-- The new state has no arcs, like every number that is no state. -/
@[simp] theorem arcs_add_state (t : Transducer) (state : StateId) :
    t.addState.arcs state = t.arcs state := by
  simp only [arcs_eq, addState, Array.getElem?_push]
  split
  · next new => simp [new]
  · rfl

@[simp] theorem final_add_state (t : Transducer) (state : StateId) :
    t.addState.final? state = t.final? state := by
  simp only [final_eq, addState, Array.getElem?_push]
  split
  · next new => simp [new]
  · rfl

theorem arcs_add_arc (t : Transducer) (source : StateId) (arc : Arc) (inside : source < t.size)
    (state : StateId) :
    (t.addArc source arc).arcs state = if state = source then (t.arcs state).push arc else
      t.arcs state := by
  have inside : source < t.states.size := inside
  simp only [arcs_eq, addArc, Array.getElem?_modify]
  by_cases same : state = source
  · subst same
    simp [inside]
  · simp [same, Ne.symm same]

@[simp] theorem final_add_arc (t : Transducer) (source : StateId) (arc : Arc) (state : StateId) :
    (t.addArc source arc).final? state = t.final? state := by
  simp only [final_eq, addArc, Array.getElem?_modify]
  by_cases same : source = state
  · subst same
    cases t.states[source]? <;> simp
  · simp [same]

@[simp] theorem arcs_set_final (t : Transducer) (source : StateId) (weight : Weight)
    (state : StateId) :
    (t.setFinal source weight).arcs state = t.arcs state := by
  simp only [arcs_eq, setFinal, Array.getElem?_modify]
  by_cases same : source = state
  · subst same
    cases t.states[source]? <;> simp
  · simp [same]

theorem final_set_final (t : Transducer) (source : StateId) (weight : Weight)
    (inside : source < t.size) (state : StateId) :
    (t.setFinal source weight).final? state = if state = source then some weight else
      t.final? state := by
  have inside : source < t.states.size := inside
  simp only [final_eq, setFinal, Array.getElem?_modify]
  by_cases same : state = source
  · subst same
    simp [inside]
  · simp [same, Ne.symm same]

theorem mem_arcs_add_arc (t : Transducer) (source : StateId) (new : Arc) (inside : source < t.size)
    (state : StateId) (arc : Arc) :
    arc ∈ (t.addArc source new).arcs state ↔ arc ∈ t.arcs state ∨ (state = source ∧ arc = new) := by
  rw [arcs_add_arc t source new inside]
  split
  · next same => simp [same]
  · next other => simp [other]

end Transducer

end MorphLex
