import MorphLex.Proofs.Vfst.Soundness

/-!
What the reader makes of overflow cells that no writer has made. The first pass takes the
mark on the first record for a cell, the second one takes the length of the run for it, so
the two part when a cell counts fewer records than would have needed one. Such a cell is
read like any other record. A count that is as great as it can be wraps to a run of one.
-/

namespace MorphLex.Vfst

/-- The records that are read of the run are those in the slots. -/
def ReadsSlots (table : Array Record) (run : Run) (slots : List Nat) : Prop :=
  List.Forall₂ (fun slot record => table[slot]? = some record) slots (runRecords table run)

/-- The final weight that the last marker gives. -/
def finalOf (records : List Record) : Option Weight :=
  (records.filter Record.isFinalMarker).getLast?.map fun record => Weight.ofInt16 record.weight

/-- What the count in an overflow cell makes of a run. -/
structure CountedBy (table : Array Record) (run : Run) (count : Nat) : Prop where
  slots : count + 1 < 2 ^ 32 →
    run.slots = run.head.toNat :: (run.head.toNat + 1) :: List.range' (run.head.toNat + 2) count
  skipped : 254 ≤ count → count + 1 < 2 ^ 32 →
    ReadsSlots table run (run.head.toNat :: List.range' (run.head.toNat + 2) count)
  read : count < 254 → ReadsSlots table run run.slots
  wrapped : count + 1 = 2 ^ 32 →
    run.slots = [run.head.toNat] ∧ ReadsSlots table run [run.head.toNat]

/-- What its first record makes of a run: the count of further records that it holds itself,
or the mark of a cell behind it. -/
structure ToldBy (table : Array Record) (run : Run) (first : Record) : Prop where
  begins : table[run.head.toNat]? = some first
  inline : first.more ≠ Record.overflowMark →
    run.slots = List.range' run.head.toNat (first.more.toNat + 1) ∧ ReadsSlots table run run.slots
  cell : first.more = Record.overflowMark →
    ∃ cell, table[run.head.toNat + 1]? = some cell ∧ CountedBy table run cell.input.toNat

variable {bytes : List UInt8} {symbols : SymbolTable} {table : Array Record}
    {slot : Nat} {run : Run}
  {runs later : List Run}

section Finding

/-- A mark on the last record of a table is not accepted. -/
theorem cell_inside (found : runsFrom table slot = .ok (run :: later))
    (marked : (table.getD slot default).more = Record.overflowMark) : slot + 1 < table.size := by
  rw [runsFrom] at found
  split at found
  · next inside =>
    have here : table[slot] = table.getD slot default := Array.getElem_eq_getD default
    split at found
    · cases found
    · next present =>
      rw [here, not_and, Nat.not_le] at present
      exact present marked
  · cases found

theorem run_measured (small : table.size ≤ 2 ^ 32) (found : runsFrom table slot = .ok runs)
    (listed : run ∈ runs) :
    run.last = Record.lastOffset table run.head.toNat ∧
      ((table.getD run.head.toNat default).more = Record.overflowMark →
        run.head.toNat + 1 < table.size) := by
  induction runs generalizing slot with
  | nil => simp at listed
  | cons first later ih =>
      obtain ⟨start, -, next⟩ := runs_from_cons found
      rcases List.mem_cons.mp listed with rfl | behind
      · have head : run.head = .ofNat slot := congrArg Run.head start
        have last : run.last = Record.lastOffset table (UInt32.ofNat slot).toNat :=
          congrArg Run.last start
        refine ⟨by rw [last, head], ?_⟩
        rw [head_of_cons small found]
        exact cell_inside found
      · exact ih next behind

end Finding

section Reading

variable (small : table.size ≤ 2 ^ 32) (inside : run.head.toNat + run.last.toNat < table.size)

include small inside

theorem reads_slots_of_offsets {offsets : List Nat}
    (below : ∀ offset ∈ offsets, offset ≤ run.last.toNat)
    (records : runRecords table run =
      offsets.map fun offset => table.getD (run.head + .ofNat offset).toNat default) :
    ReadsSlots table run (offsets.map (run.head.toNat + ·)) := by
  rw [ReadsSlots, records, List.forall₂_map_left_iff, List.forall₂_map_right_iff, List.forall₂_same]
  intro offset listed
  have present := below offset listed
  rw [to_nat_add_offset (by omega), Array.getElem?_eq_getElem (by omega),
    Array.getElem_eq_getD default]

/-- Of a run without more records than a first record can count, every slot is read. -/
theorem reads_all (few : run.last.toNat < 255) : ReadsSlots table run run.slots := by
  have short : decide (255 ≤ run.last.toNat) = false := decide_eq_false (Nat.not_le.mpr few)
  have whole : run.slots = (List.range (run.last.toNat + 1)).map (run.head.toNat + ·) :=
    List.range'_eq_map_range
  rw [whole]
  apply reads_slots_of_offsets small inside
  · intro offset listed
    exact Nat.le_of_lt_succ (List.mem_range.mp listed)
  · rw [runRecords]
    simp [short]

/-- Of a longer run the second slot is left out, whatever stands there. -/
theorem reads_without_second {count : Nat} (last : run.last.toNat = count + 1)
    (many : 254 ≤ count) :
    ReadsSlots table run (run.head.toNat :: List.range' (run.head.toNat + 2) count) := by
  have long : decide (255 ≤ run.last.toNat) = true := decide_eq_true (by omega)
  have whole : run.head.toNat :: List.range' (run.head.toNat + 2) count =
      (0 :: (List.range count).map (· + 2)).map (run.head.toNat + ·) := by
    rw [List.map_cons, List.map_map, List.range'_eq_map_range]
    simp [Function.comp_def, Nat.add_assoc, Nat.add_comm 2]
  rw [whole]
  apply reads_slots_of_offsets small inside
  · intro offset listed
    rcases List.mem_cons.mp listed with rfl | further
    · exact Nat.zero_le _
    · obtain ⟨number, below, rfl⟩ := List.mem_map.mp further
      have bound := List.mem_range.mp below
      omega
  · rw [runRecords, last]
    rw [last] at long
    simp only [long, Bool.and_true, offsets_without_cell]

theorem counted_of_last {count : UInt32} (last : run.last = count + 1) :
    CountedBy table run count.toNat := by
  have one : (1 : UInt32).toNat = 1 := rfl
  have measured (fits : count.toNat + 1 < 2 ^ 32) : run.last.toNat = count.toNat + 1 := by
    rw [last, UInt32.toNat_add, one, Nat.mod_eq_of_lt fits]
  refine ⟨fun fits => ?_, fun many fits => ?_, fun few => ?_, fun full => ?_⟩
  · rw [Run.slots, measured fits]
    rfl
  · exact reads_without_second small inside (measured fits) many
  · have length := measured (by omega)
    exact reads_all small inside (by omega)
  · have none : run.last.toNat = 0 := by
      rw [last, UInt32.toNat_add, one, full]
      rfl
    have alone : run.slots = [run.head.toNat] := by
      rw [Run.slots, none]
      rfl
    exact ⟨alone, alone ▸ reads_all small inside (by omega)⟩

end Reading

theorem told_of_run (small : table.size ≤ 2 ^ 32) (found : runsFrom table slot = .ok runs)
    (listed : run ∈ runs) : ∃ first, ToldBy table run first := by
  have inside := (run_inside small found listed).2
  obtain ⟨last, cell⟩ := run_measured small found listed
  have present : run.head.toNat < table.size := by omega
  have first : table.getD run.head.toNat default = table[run.head.toNat] :=
    (Array.getElem_eq_getD default).symm
  rw [first] at cell
  rw [Record.lastOffset, first] at last
  refine ⟨table[run.head.toNat], Array.getElem?_eq_getElem present, fun unmarked => ?_,
    fun marked => ?_⟩
  · rw [if_neg unmarked] at last
    have length : run.last.toNat = table[run.head.toNat].more.toNat := by
      rw [last, UInt8.toNat_toUInt32]
    have bound : table[run.head.toNat].more.toNat ≠ 255 :=
      fun full => unmarked (UInt8.toNat_inj.mp full)
    have most := UInt8.toNat_lt table[run.head.toNat].more
    exact ⟨by rw [Run.slots, length], reads_all small inside (by omega)⟩
  · rw [if_pos marked] at last
    have behind := Array.getElem?_eq_getElem (cell marked)
    rw [Array.getD_eq_getD_getElem?, behind, Option.getD_some] at last
    exact ⟨_, behind, counted_of_last small inside last⟩

section Finals

variable {index : Std.HashMap UInt32 StateId} {state after : State} {record : Record}
    {records : List Record}

theorem final_add_record (added : addRecord symbols index state record = .ok after) :
    after.final = if record.isFinalMarker then some (Weight.ofInt16 record.weight) else
      state.final := by
  rw [addRecord] at added
  split at added
  · next marker =>
    obtain rfl := Except.ok.inj added
    rw [if_pos marker]
  · next plain =>
    rw [if_neg plain]
    split at added
    · cases added
    · cases added
    · cases added
    · obtain rfl := Except.ok.inj added
      rfl

theorem final_of_cons (record : Record) (records : List Record) (before : Option Weight) :
    (finalOf (record :: records)).or before =
      (finalOf records).or
        (if record.isFinalMarker then some (Weight.ofInt16 record.weight) else before) := by
  rw [finalOf, finalOf]
  cases marker : record.isFinalMarker with
  | false => rw [List.filter_cons_of_neg (by simp [marker]), if_neg Bool.false_ne_true]
  | true =>
      rw [List.filter_cons_of_pos marker, List.getLast?_cons, if_pos rfl]
      cases (records.filter Record.isFinalMarker).getLast? <;> rfl

/-- The last marker decides. -/
theorem final_of_records (read : records.foldlM (addRecord symbols index) state = .ok after) :
    after.final = (finalOf records).or state.final := by
  induction records generalizing state with
  | nil =>
      obtain rfl := Result.pure_eq_ok_iff.mp read
      rfl
  | cons record records ih =>
      rw [List.foldlM_cons] at read
      obtain ⟨next, added, read⟩ := Result.bind_eq_ok_iff.mp read
      rw [ih read, final_of_cons, final_add_record added]

end Finals

/-- Every run of a file that is read is what its first record, or the cell behind that, tells,
as long as the slots of the table fit into 32 bits. The reader takes each record of it for an
arc or a final weight, but leaves out the second slot of a run with a cell that counts 254
records or more. A cell that counts fewer is read like a record, and one with the greatest
count of all leaves a run of one record. -/
theorem decode_reads_told_runs {t : Transducer} (read : decode bytes = .ok t) :
    ∃ symbols table runs, Parsed bytes symbols table runs ∧ t.size = runs.length ∧
      ∀ state run, runs[state]? = some run →
        (table.size ≤ 2 ^ 32 → ∃ first, ToldBy table run first) ∧
        List.Forall₂ (ArcOf symbols runs) (arcRecords table run) (t.arcs state).toList ∧
        t.final? state = finalOf (runRecords table run) := by
  obtain ⟨symbols, table, runs, parsed⟩ := exists_parsed read
  obtain ⟨count, each⟩ := parsed.decoded read
  refine ⟨symbols, table, runs, parsed, count, fun state run place => ?_⟩
  obtain ⟨decoded, here, arcs, final⟩ := each state run place
  refine ⟨fun small => told_of_run small parsed.runs (List.mem_of_getElem? place), ?_, ?_⟩
  · rw [arcs]
    exact arcs_of_run here
  · rw [final, final_of_records here]
    exact Option.or_none

section ShortCell

/-- A first record with the mark, a cell that counts one record more, and that record. -/
def cellTable : List Record :=
  [{ Record.arc 1 1 0 0 with more := Record.overflowMark }, Record.overflowCell 1,
    Record.finalMarker 0]

/-- A file with these records, and with epsilon and one letter as symbols. -/
def cellFile : List UInt8 :=
  let front := ({ weighted := true } : Header).encode ++ [2, 0, 0, 97, 0]
  front ++ Bytes.padding Record.size front.length ++ cellTable.flatMap Record.encode

theorem runs_cell_table : runsFrom cellTable.toArray 0 = .ok [{ head := 0, last := 2 }] := by
  rw [runs_from_step _ _ 2 (by decide) (by decide) (by decide) (by decide),
    runs_from_end (by decide)]
  rfl

theorem encode_letter_table :
    SymbolTable.encode ⟨("" :: ["a"]).toArray⟩ = .ok [2, 0, 0, 97, 0] := by
  have texts : SymbolTable.encodeStrings ["", "a"] = [0, 97, 0] := by
    simp only [SymbolTable.encodeStrings, List.flatMap_cons, List.flatMap_nil, byte_array_to_list]
    decide
  rw [SymbolTable.encode, if_neg (by decide)]
  exact congrArg (fun texts => Except.ok (Bytes.littleEndian 2 2 ++ texts)) texts

/-- One state with a final weight, one arc from the first record, and one from the cell. -/
def cellState : State :=
  { arcs := #[⟨"a", "a", 0, 0.0⟩, ⟨"a", Symbol.epsilon, 0, 0.0⟩], final := some 0.0 }

theorem decode_run_cell_table :
    decodeRun cellTable.toArray ⟨("" :: ["a"]).toArray⟩ (runIndex [{ head := 0, last := 2 }])
      { head := 0, last := 2 } =
      .ok cellState := by
  have index : (runIndex [{ head := 0, last := 2 }])[(0 : UInt32)]? = some 0 := by simp [runIndex]
  have records : runRecords cellTable.toArray { head := 0, last := 2 } = cellTable := by decide
  have zero : Weight.ofInt16 0 = 0.0 := by decide
  rw [decodeRun, records]
  simp only [cellTable, List.foldlM_cons, List.foldlM_nil, bind, Except.bind, addRecord,
    Record.isFinalMarker, Record.arc, Record.overflowCell, Record.finalMarker, Record.finalInput,
    SymbolTable.symbol?]
  simp [index, zero, cellState, pure, Except.pure]

theorem parsed_cell_file :
    Parsed cellFile ⟨("" :: ["a"]).toArray⟩ cellTable.toArray [{ head := 0, last := 2 }] := by
  have writable : ∀ text ∈ ["a"], SymbolTable.Writable text := by
    simp [SymbolTable.Writable]
  exact ⟨opened_of_parts writable encode_letter_table cellTable (by decide), runs_cell_table⟩

theorem decode_cell_file : decode cellFile = .ok ⟨#[cellState]⟩ := by
  rw [parsed_cell_file.decode_eq, parsed_cell_file.runs, Result.ok_bind, List.mapM_cons,
    decode_run_cell_table]
  rfl

theorem decode_reads_told_runs_of_cell_file :
    decode cellFile = .ok ⟨#[cellState]⟩ ∧
      ∃ symbols table run first, Parsed cellFile symbols table [run] ∧
      table.size = 3 ∧ ToldBy table run first ∧
      List.Forall₂ (ArcOf symbols [run]) (arcRecords table run) cellState.arcs.toList ∧
      finalOf (runRecords table run) = some 0.0 := by
  obtain ⟨symbols, table, runs, parsed, count, each⟩ := decode_reads_told_runs decode_cell_file
  obtain ⟨run, rfl⟩ := List.length_eq_one_iff.mp count.symm
  obtain ⟨told, arcs, final⟩ := each 0 run rfl
  have three : table.size = 3 := by rw [(parsed.toOpened.unique parsed_cell_file.toOpened).2]; rfl
  obtain ⟨first, told⟩ := told (by rw [three]; decide)
  exact ⟨decode_cell_file, symbols, table, run, first, parsed, three, told, arcs, final.symm⟩

/-- The cell counts one record, which is the final marker, but there are two arcs: the reader
takes the count in the cell for a symbol, and its zeros for epsilon, for the slot of the
first run and for a weight. -/
theorem decode_reads_short_cell :
    cellTable.head?.map Record.more = some Record.overflowMark ∧
      cellTable[1]? = some (Record.overflowCell 1) ∧
      runsFrom cellTable.toArray 0 = .ok [{ head := 0, last := 2 }] ∧
      Record.overflowCell 1 ∈ arcRecords cellTable.toArray { head := 0, last := 2 } ∧
      decode cellFile = .ok
        ⟨#[{ arcs := #[⟨"a", "a", 0, 0.0⟩, ⟨"a", Symbol.epsilon, 0, 0.0⟩], final := some 0.0 }]⟩ :=
  ⟨by decide, by decide, runs_cell_table, by decide, decode_cell_file⟩

end ShortCell

end MorphLex.Vfst
