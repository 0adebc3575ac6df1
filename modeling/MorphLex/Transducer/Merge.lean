import Std.Data.HashMap
import MorphLex.Transducer.Trim

/-!
Merging states that behave alike. States start out in blocks of equal final
weight; a block is split while two of its states have different arcs into the
blocks. Every block becomes one state.
-/

namespace MorphLex

/-- Numbers the keys by first occurrence: a key met before gets its old number,
a new one the count of numbers given out. -/
def numberFrom {Key : Type _} [BEq Key] [Hashable Key] (numbers : Std.HashMap Key Nat) :
    List Key → List Nat
  | [] => []
  | key :: rest =>
      match numbers[key]? with
      | some number => number :: numberFrom numbers rest
      | none => numbers.size :: numberFrom (numbers.insert key numbers.size) rest

def numberByFirst {Key : Type _} [BEq Key] [Hashable Key] (keys : List Key) : List Nat :=
  numberFrom ∅ keys

/-- An arc seen between blocks: its labels, the key of its weight and the block
it leads to. -/
structure Step where
  input : Symbol
  output : Symbol
  weight : UInt64
  block : Nat
deriving DecidableEq, Hashable

namespace Step

/-- By input, output, weight key and block, in this order. -/
def compare : Step → Step → Ordering :=
  compareLex (compareOn Step.input) <| compareLex (compareOn Step.output) <|
    compareLex (compareOn Step.weight) (compareOn Step.block)

instance : Std.TransCmp compare := by unfold compare; infer_instance

def toArc (step : Step) : Arc :=
  { input := step.input, output := step.output, target := step.block,
    weight := Weight.ofKey step.weight }

end Step

namespace Transducer

abbrev Partition := Array Nat

def Partition.count (blocks : Partition) : Nat :=
  blocks.foldl (fun count block => max count (block + 1)) 0

/-- The arcs of a state in a block, as steps in ascending order, each once. A
silent arc of no weight that stays in the block changes nothing and is left out. -/
def steps (blocks : Partition) (block : Nat) (state : State) : List Step :=
  let kept := state.arcs.toList.filter fun arc =>
    !(blocks.getD arc.target 0 == block && arc.isSilent && arc.weight == 0.0)
  Ascending.ofList Step.compare <| kept.map fun arc =>
    { input := arc.input, output := arc.output, weight := arc.weight.key,
      block := blocks.getD arc.target 0 }

/-- States of equal final weight share a block. -/
def initialPartition (t : Transducer) : Partition :=
  (numberByFirst (t.states.toList.map fun state => state.final.map Weight.key)).toArray

/-- States of one block stay together when they have the same steps. -/
def refine (t : Transducer) (blocks : Partition) : Partition :=
  let signatures := t.states.toList.zipIdx.map fun (state, number) =>
    let block := blocks.getD number 0
    (block, steps blocks block state)
  (numberByFirst signatures).toArray

/-- Refines until the number of blocks stays the same. Every other round adds
a block, so as many rounds as there are states suffice. -/
def refineAll (t : Transducer) : Nat → Partition → Partition
  | 0, blocks => blocks
  | rounds + 1, blocks =>
      let refined := t.refine blocks
      if refined.count = blocks.count then refined else refineAll t rounds refined

/-- One state for each block, taken from the first state in it. -/
def quotient (t : Transducer) (blocks : Partition) : Transducer :=
  ⟨t.states.toList.zipIdx.foldl (fun merged (state, number) =>
    let block := blocks.getD number 0
    if block = merged.size then
      merged.push
        { arcs := ((steps blocks block state).map Step.toArc).toArray, final := state.final }
    else merged) #[]⟩

/-- Trims, then merges the states that no input, output or weight tells apart.
Weighted words stay the same. -/
def minimize (t : Transducer) : Transducer :=
  let trimmed := t.trim
  trimmed.quotient (trimmed.refineAll trimmed.size trimmed.initialPartition)

end Transducer

end MorphLex
