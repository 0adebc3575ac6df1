import Std.Data.HashMap
import Std.Data.TreeMap.Basic
import MorphLex.Transducer.Split

/-!
Looking up an input: the outputs of its accepting paths, each with the smallest
weight. The search walks depth first and expands a place (state, position,
output) again only when it is reached with a smaller weight. Two limits keep it
finite where silent cycles produce output.
-/

namespace MorphLex

namespace Search

/-- Nodes expanded before the search gives up. -/
def maxSteps : Nat := 100000

/-- Symbols that one output may have; a longer output is not followed. -/
def maxOutput : Nat := 256

/-- What decides how a search goes on: state, input symbols read, output text. -/
abbrev Place := StateId × Nat × String

/-- A place on the stack, with the symbols written and the weight so far. -/
structure Node where
  place : Place
  written : Nat
  weight : Weight

end Search

/-- The smallest weight each place was reached with, the nodes still to expand
(the next one first), and the outputs found. -/
structure Search where
  best : Std.HashMap Search.Place Weight
  pending : List Search.Node
  found : Std.TreeMap String Weight

namespace Search

def start : Search where
  best := (∅ : Std.HashMap Place Weight).insert (0, 0, "") 0.0
  pending := [{ place := (0, 0, ""), written := 0, weight := 0.0 }]
  found := ∅

/-- The smaller of two weights; a weight that is a number beats one that is not. -/
def smaller (old new : Weight) : Weight :=
  if new < old || old.isNaN then new else old

def accept (search : Search) (output : String) (total : Weight) : Search :=
  let total := match search.found[output]? with
    | some old => smaller old total
    | none => total
  { search with found := search.found.insert output total }

/-- The node that an arc leads to, if it reads the input and keeps the output
within its limit. -/
def follow? (input : Array Symbol) (node : Node) (arc : Arc) : Option Node :=
  let (_, position, output) := node.place
  let position? :=
    if arc.input.isEpsilon then some position
    else if input[position]? = some arc.input then some (position + 1)
    else none
  position?.bind fun position =>
    let weight := node.weight + arc.weight
    if arc.output.isEpsilon then
      some { place := (arc.target, position, output), written := node.written, weight }
    else if maxOutput ≤ node.written then none
    else
      some
        { place := (arc.target, position, output ++ arc.output), written := node.written + 1,
          weight }

/-- Puts a node on the stack unless its place was reached at most as dearly. -/
def visit (search : Search) (node : Node) : Search :=
  match search.best[node.place]? with
  | some weight =>
      if weight ≤ node.weight then search
      else { search with
        best := search.best.insert node.place node.weight
        pending := node :: search.pending }
  | none => { search with
      best := search.best.insert node.place node.weight
      pending := node :: search.pending }

def expand (t : Transducer) (input : Array Symbol) (search : Search) (node : Node) : Search :=
  let (state, position, output) := node.place
  let search :=
    if position = input.size then
      match t.final? state with
      | some weight => search.accept output (node.weight + weight)
      | none => search
    else search
  (t.arcs state).toList.foldl (fun search arc =>
    match follow? input node arc with
    | some next => search.visit next
    | none => search) search

/-- Expands the node on top until none is left or the steps are used up. -/
def run (t : Transducer) (input : Array Symbol) : Nat → Search → Search
  | 0, search => search
  | steps + 1, search =>
      match search.pending with
      | [] => search
      | node :: rest => run t input steps (expand t input { search with pending := rest } node)

end Search

namespace Transducer

def lookupSymbols (t : Transducer) (input : List Symbol) : Std.TreeMap String Weight :=
  (Search.run t input.toArray Search.maxSteps Search.start).found

def lookup (t : Transducer) (text : String) : Std.TreeMap String Weight :=
  t.lookupSymbols (t.splitInput text)

def accepts (t : Transducer) (text : String) : Bool := !(t.lookup text).isEmpty

end Transducer

end MorphLex
