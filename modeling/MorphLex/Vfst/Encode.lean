import MorphLex.Transducer.Trim
import MorphLex.Vfst.Header
import MorphLex.Vfst.Record
import MorphLex.Vfst.SymbolTable

/-!
Writing a transducer as a VFST file: header, symbol table, zeros up to a
multiple of 16, then the records of each state of the trimmed transducer, its
final marker first and its arcs in ascending order.
-/

namespace MorphLex.Vfst

/-- The slots that a run of records takes, its overflow cell included. -/
def slotCount (records : Nat) : Nat :=
  if Record.maxInline < records - 1 then records + 1 else records

/-- The records of a state: one for each arc, and one more if it is final. -/
def recordCount (state : State) : Nat := state.arcs.size + if state.final.isSome then 1 else 0

def runStartsFrom (slot : Nat) : List State → List Nat
  | [] => []
  | state :: rest => slot :: runStartsFrom (slot + slotCount (recordCount state)) rest

def runStarts (t : Transducer) : Array Nat := (runStartsFrom 0 t.states.toList).toArray

def encodeWeight (weight : Weight) : Except Fault Int16 :=
  match weight.toInt16? with
  | some number => .ok number
  | none => .error (.weightOutOfRange weight)

/-- The record of an arc. Every symbol of the transducer is in its table, so the
index of a symbol is always found. -/
def encodeArc (index : Std.HashMap Symbol Nat) (starts : Array Nat) (arc : Arc) :
    Except Fault Record := do
  let weight ← encodeWeight arc.weight
  return Record.arc (.ofNat (index.getD arc.input 0)) (.ofNat (index.getD arc.output 0))
    (.ofNat (starts.getD arc.target 0)) weight

/-- Puts the count of further records on the first one, or into a second record
when there are too many. -/
def linkRun : List Record → List Record
  | [] => []
  | head :: rest =>
      if Record.maxInline < rest.length then
        { head with more := Record.overflowMark } ::
          Record.overflowCell (.ofNat rest.length) :: rest
      else { head with more := .ofNat rest.length } :: rest

def encodeFinal : Option Weight → Except Fault (List Record)
  | some weight => do return [Record.finalMarker (← encodeWeight weight)]
  | none => .ok []

def encodeState (index : Std.HashMap Symbol Nat) (starts : Array Nat) (state : State) :
    Except Fault (List Record) := do
  let marker ← encodeFinal state.final
  let arcs ← state.arcs.toList.mapM (encodeArc index starts)
  return linkRun
    (marker ++ arcs.mergeSort fun first second => (Record.compareArcs first second).isLE)

/-- The bytes of the file. A transducer without an accepting path cannot be
written, nor one with a useful weight that does not fit or too many symbols. -/
def encode (t : Transducer) : Except Fault (List UInt8) := do
  let t := t.trim
  if (t.arcs 0).isEmpty && !t.isFinal 0 then throw .acceptsNothing
  let symbols := SymbolTable.ofTransducer t
  let index := symbols.index
  let starts := runStarts t
  let runs ← t.states.toList.mapM (encodeState index starts)
  let front := ({ weighted := true } : Header).encode ++ (← symbols.encode)
  return front ++ Bytes.padding Record.size front.length ++ runs.flatten.flatMap Record.encode

end MorphLex.Vfst
