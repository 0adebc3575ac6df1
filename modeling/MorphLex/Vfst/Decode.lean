import MorphLex.Vfst.Header
import MorphLex.Vfst.Record
import MorphLex.Vfst.SymbolTable

/-!
Loading a transducer from a VFST file. A first pass finds the runs of records,
one for each state; a second turns their records into arcs and final weights.
-/

namespace MorphLex.Vfst

/-- The records of one state: the slot of the first, and how far the last lies
behind it. Slots are kept in 32 bits, as the records keep them. -/
structure Run where
  head : UInt32
  last : UInt32
deriving DecidableEq

def runsFrom (table : Array Record) (slot : Nat) : Except Fault (List Run) :=
  if inside : slot < table.size then
    if table[slot].more = Record.overflowMark ∧ table.size ≤ slot + 1 then
      .error (.table (.missingOverflow slot))
    else
      let head := UInt32.ofNat slot
      let last := Record.lastOffset table head.toNat
      if table.size ≤ slot + last.toNat then .error (.table (.runPastEnd slot))
      else do
        let later ← runsFrom table (slot + last.toNat + 1)
        return { head, last } :: later
  else .ok []
termination_by table.size - slot

/-- The state of each slot that starts a run; a later run stands for an earlier one
whose slot is the same in 32 bits. -/
def runIndex (runs : List Run) : Std.HashMap UInt32 StateId :=
  runs.zipIdx.foldl (fun index (run, state) => index.insert run.head state) ∅

def addRecord (symbols : SymbolTable) (index : Std.HashMap UInt32 StateId) (state : State)
    (record : Record) : Except Fault State :=
  if record.isFinalMarker then .ok { state with final := some (Weight.ofInt16 record.weight) }
  else
    match index[record.target]?, symbols.symbol? record.input.toNat,
        symbols.symbol? record.output.toNat with
    | none, _, _ => .error (.table (.noRunAt record.target.toNat))
    | some _, none, _ => .error (.table (.unknownInput record.input.toNat))
    | some _, some _, none => .error (.table (.unknownOutput record.output.toNat))
    | some target, some input, some output =>
        .ok { state with
          arcs := state.arcs.push
            { input, output, target, weight := Weight.ofInt16 record.weight } }

/-- The records of a run, without the overflow cell of a long one. -/
def runRecords (table : Array Record) (run : Run) : List Record :=
  let offsets := List.range (run.last.toNat + 1)
  (offsets.filter fun offset => !(offset == 1 && 255 ≤ run.last.toNat)).map fun offset =>
    table.getD (run.head + .ofNat offset).toNat default

def decodeRun (table : Array Record) (symbols : SymbolTable) (index : Std.HashMap UInt32 StateId)
    (run : Run) : Except Fault State :=
  (runRecords table run).foldlM (addRecord symbols index) {}

/-- The transducer in a file; its states are numbered in the order of their runs. -/
def decode (bytes : List UInt8) : Except Fault Transducer := do
  let header ← Header.decode bytes
  if !header.weighted then throw .unweighted
  let (symbols, symbolEnd) ← SymbolTable.decode bytes Header.size
  let offset := symbolEnd + (Bytes.padding Record.size symbolEnd).length
  if bytes.length < offset then throw (.tooShort offset bytes.length)
  let table := Record.decodeTable (bytes.drop offset)
  if table.isEmpty then throw (.tooShort (offset + Record.size) bytes.length)
  let runs ← runsFrom table 0
  let states ← runs.mapM (decodeRun table symbols (runIndex runs))
  return ⟨states.toArray⟩

end MorphLex.Vfst
