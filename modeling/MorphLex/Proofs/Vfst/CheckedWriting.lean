import MorphLex.Proofs.Vfst.RoundTrip

/-!
Writing with every lookup checked. A label must be listed in the symbol table, the target of
an arc must have a slot, and a state must have a record before the others are counted.
Main statement: none of this ever goes wrong, so that the writer fails with the faults of
the encoder alone (`write_eq_encode`).
-/

namespace MorphLex.Vfst

/-- How writing can end without a file: with a fault that is reported, at a label that is not in
the symbol table, at a state without a slot, or at one without a record to count from. -/
inductive Breakdown where
  | fault (fault : Fault)
  | unlisted (symbol : Symbol)
  | unplaced (state : StateId)
  | uncounted
deriving DecidableEq

namespace Checked

def require {Item : Type} (breakdown : Breakdown) : Option Item → Except Breakdown Item
  | some item => .ok item
  | none => .error breakdown

def writeArc (symbols : SymbolTable) (starts : Array Nat) (arc : Arc) :
    Except Breakdown Record := do
  let input ← require (.unlisted arc.input) (symbols.indexOf? arc.input)
  let output ← require (.unlisted arc.output) (symbols.indexOf? arc.output)
  let start ← require (.unplaced arc.target) starts[arc.target]?
  let weight ← (encodeWeight arc.weight).mapError .fault
  return Record.arc (.ofNat input) (.ofNat output) (.ofNat start) weight

/-- The number of records behind the first. -/
def further (records : List Record) : Except Breakdown Nat :=
  if 1 ≤ records.length then .ok (records.length - 1) else .error .uncounted

def writeCount (records : List Record) : Except Breakdown (List Record) := do
  let more ← further records
  let head ← require .uncounted records.head?
  if Record.maxInline < more then
    return { head with more := Record.overflowMark } :: Record.overflowCell (.ofNat more) ::
      records.tail
  else return { head with more := .ofNat more } :: records.tail

def writeState (symbols : SymbolTable) (starts : Array Nat) (state : State) :
    Except Breakdown (List Record) := do
  let marker ← (encodeFinal state.final).mapError .fault
  let arcs ← state.arcs.toList.mapM (writeArc symbols starts)
  writeCount (marker ++ arcs.mergeSort fun first second => (Record.compareArcs first second).isLE)

def write (t : Transducer) : Except Breakdown (List UInt8) := do
  let t := t.trim
  if (t.arcs 0).isEmpty && !t.isFinal 0 then throw (.fault .acceptsNothing)
  let symbols := SymbolTable.ofTransducer t
  let runs ← t.states.toList.mapM (writeState symbols (runStarts t))
  let table ← symbols.encode.mapError .fault
  let front := ({ weighted := true } : Header).encode ++ table
  return front ++ Bytes.padding Record.size front.length ++ runs.flatten.flatMap Record.encode

section Parts

variable {t : Transducer}

theorem write_count_eq {records : List Record} (some : records ≠ []) :
    writeCount records = .ok (linkRun records) := by
  obtain ⟨head, rest, rfl⟩ := List.exists_cons_of_ne_nil some
  have present : 1 ≤ (head :: rest).length := Nat.le_add_left 1 rest.length
  rw [writeCount, further, if_pos present, linkRun]
  show (if Record.maxInline < rest.length then _ else _) = _
  split <;> rfl

/-- Every label is listed, and every target has a slot. -/
theorem write_arc_eq (formed : t.WellFormed) {state : StateId} {arc : Arc}
    (leaves : arc ∈ t.arcs state) :
    writeArc (SymbolTable.ofTransducer t) (runStarts t) arc =
      (encodeArc (SymbolTable.ofTransducer t).index (runStarts t) arc).mapError .fault := by
  obtain ⟨input, read⟩ := SymbolTable.exists_index t leaves (.inl rfl)
  obtain ⟨output, written⟩ := SymbolTable.exists_index t leaves (.inr rfl)
  have inside : arc.target < (runStarts t).size := by
    rw [runStarts, List.size_toArray, length_run_starts]
    exact formed.target_lt leaves
  rw [writeArc, read, written, Array.getElem?_eq_getElem inside, encodeArc, Result.map_error_bind]
  simp only [require, Result.ok_bind, Std.HashMap.getD_eq_getD_getElem?,
    ← Array.getElem_eq_getD (h := inside)]
  rw [SymbolTable.indexOf?] at read written
  rw [read, written]
  rfl

theorem write_state_eq (formed : t.WellFormed) {state : State} (listed : state ∈ t.states.toList)
    (some : 0 < recordCount state) :
    writeState (SymbolTable.ofTransducer t) (runStarts t) state =
      (encodeState (SymbolTable.ofTransducer t).index (runStarts t) state).mapError .fault := by
  obtain ⟨number, inside, rfl⟩ := Array.mem_iff_getElem.mp (Array.mem_toList_iff.mp listed)
  have arcs :
      t.states[number].arcs.toList.mapM (writeArc (SymbolTable.ofTransducer t) (runStarts t)) =
      (t.states[number].arcs.toList.mapM
        (encodeArc (SymbolTable.ofTransducer t).index (runStarts t))).mapError .fault := by
    rw [Result.map_error_map_list]
    apply Result.map_congr
    intro arc listed
    have leaves : arc ∈ t.arcs number := by
      rw [Transducer.arcs_eq, Array.getElem?_eq_getElem inside]
      exact Array.mem_toList_iff.mp listed
    exact write_arc_eq formed leaves
  rw [writeState, encodeState, arcs]
  cases marked : encodeFinal t.states[number].final with
  | error fault => rfl
  | ok marker =>
      cases written :
        t.states[number].arcs.toList.mapM
          (encodeArc (SymbolTable.ofTransducer t).index (runStarts t)) with
      | error fault => rfl
      | ok records =>
          have length := length_group marked (Result.map_eq_ok_iff.mp written)
          have full : marker ++
            records.mergeSort (fun first second => (Record.compareArcs first second).isLE) ≠
            [] := by
            rw [← List.length_pos_iff, length]
            exact some
          simp only [Except.mapError, bind, Except.bind, write_count_eq full, pure, Except.pure]

end Parts

/-- Nothing but a fault of the encoder keeps the writer from writing: no label is missing from the
table, no target is without a slot, and no state is without a record. -/
theorem write_eq_encode {t : Transducer} (formed : t.WellFormed) :
    write t = (encode t).mapError .fault := by
  rw [write, encode]
  simp only
  by_cases bare : ((t.trim.arcs 0).isEmpty && !t.trim.isFinal 0) = true
  · rw [if_pos bare, if_pos bare]
    rfl
  · rw [if_neg bare, if_neg bare]
    have runs : t.trim.states.toList.mapM
      (writeState (SymbolTable.ofTransducer t.trim) (runStarts t.trim)) =
        (t.trim.states.toList.mapM
          (encodeState (SymbolTable.ofTransducer t.trim).index (runStarts t.trim))).mapError
            .fault := by
      rw [Result.map_error_map_list]
      apply Result.map_congr
      intro state listed
      exact write_state_eq (Transducer.well_formed_trim formed) listed
        (record_count_pos formed bare state listed)
    rw [runs]
    simp only [Result.map_error_bind]
    rfl

end Checked

end MorphLex.Vfst
