import MorphLex.Proofs.Vfst.Checked
import MorphLex.Proofs.Vfst.RoundTrip

/-!
What a transducer says that was read from arbitrary bytes. Its states are the runs of the
table, and its arcs are the records of the runs, read with the strings of the symbol
table and with the starts of the runs as targets.
-/

namespace MorphLex.Vfst

/-- A file with its symbols and its table, and the runs of the table. -/
structure Parsed (bytes : List UInt8) (symbols : SymbolTable) (table : Array Record)
    (runs : List Run) : Prop
    extends Opened bytes symbols table where
  runs : runsFrom table 0 = .ok runs

/-- The symbol that an index stands for: epsilon for 0 in any table, and a string of the
table for every other. -/
def Spells (symbols : SymbolTable) (index : UInt32) (symbol : Symbol) : Prop :=
  if index = 0 then symbol = Symbol.epsilon else symbols.strings[index.toNat]? = some symbol

/-- The arc that a record is read as. -/
structure ArcOf (symbols : SymbolTable) (runs : List Run) (record : Record) (arc : Arc) : Prop where
  input : Spells symbols record.input arc.input
  output : Spells symbols record.output arc.output
  target : ∃ run, runs[arc.target]? = some run ∧ run.head = record.target
  weight : arc.weight = Weight.ofInt16 record.weight

/-- No symbol of the table has the index. -/
def Unknown (symbols : SymbolTable) (index : UInt32) : Prop :=
  index ≠ 0 ∧ symbols.size ≤ index.toNat

/-- The records of a run that stand for arcs. -/
def arcRecords (table : Array Record) (run : Run) : List Record :=
  (runRecords table run).filter fun record => !record.isFinalMarker

variable {bytes : List UInt8} {symbols : SymbolTable} {table : Array Record} {runs : List Run}

section Parsing

/-- A transducer comes from a file with all its parts. -/
theorem exists_parsed {t : Transducer} (read : decode bytes = .ok t) :
    ∃ symbols table runs, Parsed bytes symbols table runs := by
  rw [Vfst.decode_eq] at read
  obtain ⟨header, headed, read⟩ := Result.bind_eq_ok_iff.mp read
  split at read
  · exact nomatch read
  · next weighted =>
    obtain ⟨⟨symbols, symbolEnd⟩, front, read⟩ := Result.bind_eq_ok_iff.mp read
    simp only at read
    split at read
    · exact nomatch read
    · next inside =>
      split at read
      · exact nomatch read
      · next some =>
        obtain ⟨runs, found, -⟩ := Result.bind_eq_ok_iff.mp read
        have flag : header = { weighted := true } := by
          cases header
          simpa using weighted
        exact ⟨symbols, _, runs, ⟨flag ▸ headed, ⟨symbolEnd, front, Nat.le_of_not_lt inside, rfl⟩,
          Bool.eq_false_iff.mpr some⟩, found⟩

end Parsing

section Records

theorem symbol_eq_some_iff (symbols : SymbolTable) (index : UInt32) (symbol : Symbol) :
    symbols.symbol? index.toNat = some symbol ↔ Spells symbols index symbol := by
  have zero : index.toNat = 0 ↔ index = 0 := UInt32.toNat_inj (b := 0)
  rw [SymbolTable.symbol?, Spells]
  by_cases least : index = 0
  · rw [if_pos (zero.mpr least), if_pos least, Option.some.injEq, eq_comm]
  · rw [if_neg (mt zero.mp least), if_neg least]

theorem symbol_of_unknown {index : UInt32} (unknown : Unknown symbols index) :
    symbols.symbol? index.toNat = none := by
  have zero : index.toNat = 0 ↔ index = 0 := UInt32.toNat_inj (b := 0)
  rw [SymbolTable.symbol?, if_neg (mt zero.mp unknown.1)]
  exact Array.getElem?_eq_none unknown.2

/-- A record is read as a final weight or as an arc. -/
theorem add_record_cases {state after : State} {record : Record}
    (added : addRecord symbols (runIndex runs) state record = .ok after) :
    (record.isFinalMarker = true ∧ after.arcs = state.arcs) ∨
      (record.isFinalMarker = false ∧ ∃ arc, ArcOf symbols runs record arc ∧
        after.arcs = state.arcs.push arc) := by
  rw [addRecord] at added
  split at added
  · next marker =>
    obtain rfl := Except.ok.inj added
    exact .inl ⟨marker, rfl⟩
  · next plain =>
    split at added
    · cases added
    · cases added
    · cases added
    · next target input output leads reads writes =>
      obtain rfl := Except.ok.inj added
      have spelled := (symbol_eq_some_iff _ _ _).mp reads
      have written := (symbol_eq_some_iff _ _ _).mp writes
      have start := exists_run_of_index leads
      exact .inr ⟨Bool.eq_false_iff.mpr plain, _, ⟨spelled, written, start, rfl⟩, rfl⟩

/-- Each further record that is no final marker gives one further arc. -/
theorem arcs_of_records {records : List Record} {state after : State}
    (read : records.foldlM (addRecord symbols (runIndex runs)) state = .ok after) :
    ∃ arcs, after.arcs.toList = state.arcs.toList ++ arcs ∧
      List.Forall₂ (ArcOf symbols runs)
        (records.filter fun record => !record.isFinalMarker) arcs := by
  induction records generalizing state with
  | nil =>
      obtain rfl := Result.pure_eq_ok_iff.mp read
      exact ⟨[], (List.append_nil _).symm, .nil⟩
  | cons record records ih =>
      rw [List.foldlM_cons] at read
      obtain ⟨next, added, read⟩ := Result.bind_eq_ok_iff.mp read
      obtain ⟨arcs, behind, later⟩ := ih read
      rcases add_record_cases added with ⟨marker, same⟩ | ⟨plain, arc, first, pushed⟩
      · refine ⟨arcs, by rw [behind, same], ?_⟩
        rwa [List.filter_cons_of_neg (by simp [marker])]
      · refine ⟨arc :: arcs, by rw [behind, pushed, Array.toList_push, List.append_assoc]; rfl, ?_⟩
        rw [List.filter_cons_of_pos (by simp [plain])]
        exact .cons first later

theorem arcs_of_run {run : Run} {state : State}
    (read : decodeRun table symbols (runIndex runs) run = .ok state) :
    List.Forall₂ (ArcOf symbols runs) (arcRecords table run) state.arcs.toList := by
  obtain ⟨arcs, all, each⟩ := arcs_of_records read
  rw [all]
  exact each

end Records

section States

/-- The states are the runs, each decoded by itself. -/
theorem Parsed.decoded (parsed : Parsed bytes symbols table runs) {t : Transducer}
    (read : decode bytes = .ok t) :
    t.size = runs.length ∧ ∀ state run, runs[state]? = some run →
      ∃ decoded, decodeRun table symbols (runIndex runs) run = .ok decoded ∧
        t.arcs state = decoded.arcs ∧
        t.final? state = decoded.final := by
  rw [parsed.decode_eq, parsed.runs, Result.ok_bind] at read
  obtain ⟨states, decoded, read⟩ := Result.bind_eq_ok_iff.mp read
  obtain rfl := Result.pure_eq_ok_iff.mp read
  have each := Result.map_eq_ok_iff.mp decoded
  refine ⟨each.length_eq.symm, fun state run place => ?_⟩
  obtain ⟨inside, rfl⟩ := List.getElem?_eq_some_iff.mp place
  have within : state < states.length := each.length_eq ▸ inside
  refine ⟨states[state], (List.forall₂_iff_get.mp each).2 state inside within, ?_, ?_⟩
  · rw [Transducer.arcs_eq, List.getElem?_toArray, List.getElem?_eq_getElem within,
      Option.getD_some]
  · rw [Transducer.final_eq, List.getElem?_toArray, List.getElem?_eq_getElem within,
      Option.getD_some]

/-- The states are the runs, one for each, and their arcs are the records of the runs. -/
theorem Parsed.states (parsed : Parsed bytes symbols table runs) {t : Transducer}
    (read : decode bytes = .ok t) :
    t.size = runs.length ∧ ∀ state run, runs[state]? = some run →
      List.Forall₂ (ArcOf symbols runs) (arcRecords table run) (t.arcs state).toList := by
  obtain ⟨count, each⟩ := parsed.decoded read
  refine ⟨count, fun state run place => ?_⟩
  obtain ⟨decoded, here, arcs, -⟩ := each state run place
  rw [arcs]
  exact arcs_of_run here

/-- An arc that leads nowhere, or has an unknown symbol, is not read. -/
theorem Parsed.fails (parsed : Parsed bytes symbols table runs) {run : Run} (listed : run ∈ runs)
    {record : Record}
    (shown : record ∈ arcRecords table run)
    (wrong : (∀ other ∈ runs, other.head ≠ record.target) ∨ Unknown symbols record.input ∨
      Unknown symbols record.output) : ∃ fault, decode bytes = .error fault := by
  cases read : decode bytes with
  | error fault => exact ⟨fault, rfl⟩
  | ok t =>
      obtain ⟨state, place⟩ := List.mem_iff_getElem?.mp listed
      obtain ⟨arc, -, spelled⟩ :=
        Result.exists_paired ((parsed.states read).2 state run place) shown
      have known {index : UInt32} {symbol : Symbol} (spells : Spells symbols index symbol) :
          ¬Unknown symbols index := by
        intro unknown
        have none := symbol_of_unknown unknown
        rw [(symbol_eq_some_iff _ _ _).mpr spells] at none
        exact nomatch none
      rcases wrong with dangling | unknown | unknown
      · obtain ⟨other, leads, start⟩ := spelled.target
        exact absurd start (dangling other (List.mem_of_getElem? leads))
      · exact absurd unknown (known spelled.input)
      · exact absurd unknown (known spelled.output)

end States

/-- Loading never leaves the bytes or the table, and what it gives is what is decoded. As long
as the slots of the table fit into 32 bits, the runs fill it one behind the other, each state
is one of them, and its arcs are its records. With an arc that leads nowhere, or that has an
index past the symbols which is not that of epsilon, there is no transducer. -/
theorem load_sound (bytes : List UInt8) :
    Checked.load bytes ≠ .error .outside ∧ Checked.load bytes = (decode bytes).mapError .fault ∧
    (∀ t, Checked.load bytes = .ok t → ∃ symbols table runs, Parsed bytes symbols table runs ∧
      (table.size ≤ 2 ^ 32 →
        runs.flatMap Run.slots = List.range table.size ∧ t.size = runs.length ∧
        ∀ state run, runs[state]? = some run →
          (∀ record ∈ runRecords table run, ∃ slot ∈ run.slots, table[slot]? = some record) ∧
          List.Forall₂ (ArcOf symbols runs) (arcRecords table run) (t.arcs state).toList)) ∧
    ∀ symbols table runs, Parsed bytes symbols table runs →
      ∀ run ∈ runs, ∀ record ∈ arcRecords table run,
        ((∀ other ∈ runs, other.head ≠ record.target) ∨ Unknown symbols record.input ∨
          Unknown symbols record.output) → ∃ fault, Checked.load bytes = .error (.fault fault) := by
  refine ⟨Checked.load_ne_outside bytes, Checked.load_eq_decode bytes, fun t loaded => ?_,
    fun symbols table runs parsed run listed record shown wrong => ?_⟩
  · have read := Checked.load_eq_ok_iff.mp loaded
    obtain ⟨symbols, table, runs, parsed⟩ := exists_parsed read
    refine ⟨symbols, table, runs, parsed, fun small => ?_⟩
    obtain ⟨count, arcs⟩ := parsed.states read
    refine ⟨?_, count, fun state run place => ⟨fun record shown => ?_, arcs state run place⟩⟩
    · rw [runs_partition small (Nat.zero_le _) parsed.runs, List.range_eq_range']
      rfl
    · have inside := run_inside small parsed.runs (List.mem_of_getElem? place)
      exact exists_slot_of_record small inside.2 shown
  · obtain ⟨fault, fails⟩ := parsed.fails listed shown wrong
    exact ⟨fault, by rw [Checked.load_eq_decode, fails, Except.mapError]⟩

/-- A file of two states, which are the runs of its table of four slots. -/
theorem load_sound_of_loop :
    ∃ bytes t symbols table runs, encode loop = .ok bytes ∧ Checked.load bytes = .ok t ∧
      Parsed bytes symbols table runs ∧ table.size = 4 ∧
      runs.flatMap Run.slots = List.range table.size ∧ t.size = 2 ∧ runs.length = 2 := by
  obtain ⟨bytes, written⟩ := exists_encode_loop
  obtain ⟨states, read, stored⟩ :=
    exists_stored well_formed_loop writable_loop (by rw [trim_loop]; decide) written
  obtain ⟨groups, opened, total, -⟩ := exists_opened well_formed_loop writable_loop written
  have loaded := Checked.load_eq_ok_iff.mpr read
  obtain ⟨-, -, sound, -⟩ := load_sound bytes
  obtain ⟨symbols, table, runs, parsed, whole⟩ := sound _ loaded
  have four : table.size = 4 := by
    rw [(parsed.toOpened.unique opened).2, List.size_toArray, total, trim_loop]
    decide
  obtain ⟨partition, count, -⟩ := whole (by rw [four]; decide)
  have size : states.length = 2 := by
    rw [← stored.length_eq, trim_loop]
    rfl
  exact ⟨bytes, _, symbols, table, runs, written, loaded, parsed, four, partition, size,
    count.symm.trans size⟩

section Edges

/-- A file without symbols, not even epsilon, and with a record of zeros. -/
def bareFile : List UInt8 := ({ weighted := true } : Header).encode ++ List.replicate 32 0

theorem parsed_bare_file :
    Parsed bareFile ⟨#[]⟩ #[Record.arc 0 0 0 0] [{ head := 0, last := 0 }] := by
  refine ⟨⟨by decide, ⟨18, by decide, by decide, by decide⟩, by decide⟩, ?_⟩
  rw [runs_from_step _ _ 0 (by decide) (by decide) (by decide) (by decide),
    runs_from_end (by decide)]
  rfl

/-- A record of zeros is read as a silent arc to the state whose run starts in slot 0. -/
theorem decode_zero_record (symbols : SymbolTable) (table : Array Record)
    {index : Std.HashMap UInt32 StateId} {target : StateId}
    (first : table[0]? = some (Record.arc 0 0 0 0)) (leads : index[(0 : UInt32)]? = some target) :
    decodeRun table symbols index { head := 0, last := 0 } =
      .ok { arcs := #[⟨Symbol.epsilon, Symbol.epsilon, target, 0.0⟩] } := by
  have weight : Weight.ofInt16 0 = 0.0 := by decide
  have records : runRecords table { head := 0, last := 0 } = [table.getD 0 default] := rfl
  rw [decodeRun, records, Array.getD_eq_getD_getElem?, first, Option.getD_some, List.foldlM_cons,
    addRecord, if_neg (by decide)]
  simp [Record.arc, leads, weight, SymbolTable.symbol?, bind, Except.bind, pure, Except.pure]

theorem load_bare_file :
    Checked.load bareFile = .ok ⟨#[{ arcs := #[⟨Symbol.epsilon, Symbol.epsilon, 0, 0.0⟩] }]⟩ := by
  have leads : (runIndex [{ head := 0, last := 0 }])[(0 : UInt32)]? = some 0 := by simp [runIndex]
  have read := decode_zero_record ⟨#[]⟩ #[Record.arc 0 0 0 0] rfl leads
  rw [Checked.load_eq_ok_iff, parsed_bare_file.decode_eq, parsed_bare_file.runs, Result.ok_bind,
    List.mapM_cons, read]
  rfl

/-- An arc, and then a run of markers with a cell that counts all behind it but the last. -/
def farTable (count : Nat) : List Record :=
  Record.arc 0 0 0 0 :: { Record.finalMarker 0 with more := Record.overflowMark } ::
    Record.overflowCell (.ofNat count) :: List.replicate (count + 1) (Record.finalMarker 0)

/-- A file with these records, and with epsilon as the only symbol. -/
def farFile (count : Nat) : List UInt8 :=
  let front := ({ weighted := true } : Header).encode ++ [1, 0, 0]
  front ++ Bytes.padding Record.size front.length ++ (farTable count).flatMap Record.encode

/-- The run behind the long one begins in slot 2 ^ 32, which is taken for slot 0. -/
def farRuns (count : Nat) : List Run :=
  [{ head := 0, last := 0 }, { head := 1, last := .ofNat (count + 1) }, { head := 0, last := 0 }]

/-- The state of the first run and the one of the last, which are read from the same record. -/
def farState : State := { arcs := #[⟨Symbol.epsilon, Symbol.epsilon, 2, 0.0⟩] }

theorem size_far_table (count : Nat) : (farTable count).toArray.size = count + 4 := by
  simp [farTable]

theorem marker_of_far_table {count slot : Nat} (behind : 3 ≤ slot) (inside : slot < count + 4) :
    (farTable count).toArray[slot]? = some (Record.finalMarker 0) := by
  obtain ⟨place, rfl⟩ := Nat.exists_eq_add_of_le' behind
  rw [List.getElem?_toArray, farTable, List.getElem?_cons_succ, List.getElem?_cons_succ,
    List.getElem?_cons_succ, List.getElem?_replicate, if_pos (by omega)]

/-- Records that are all final markers are read as some state, whatever stands in them. -/
theorem markers_read (symbols : SymbolTable) (index : Std.HashMap UInt32 StateId)
    {records : List Record} (markers : ∀ record ∈ records, record.isFinalMarker = true)
    (state : State) : ∃ after, records.foldlM (addRecord symbols index) state = .ok after := by
  induction records generalizing state with
  | nil => exact ⟨state, rfl⟩
  | cons record records ih =>
      rw [List.forall_mem_cons] at markers
      rw [List.foldlM_cons, addRecord, if_pos markers.1]
      exact ih markers.2 _

section Far

variable {count : Nat} (large : count + 3 = 2 ^ 32)

include large

theorem length_far_run : (UInt32.ofNat (count + 1)).toNat = count + 1 :=
  UInt32.toNat_ofNat_of_lt' (by simp only [UInt32.size]; omega)

theorem runs_far_table : runsFrom (farTable count).toArray 0 = .ok (farRuns count) := by
  have size := size_far_table count
  have none : (0 : UInt32).toNat = 0 := rfl
  have many := length_far_run large
  have cut : UInt32.ofNat (count + 3) = 0 := by
    rw [large]
    rfl
  have unmarked :
      ((farTable count).toArray.getD (count + 3) default).more ≠ Record.overflowMark := by
    rw [Array.getD_eq_getD_getElem?, marker_of_far_table (by omega) (by omega)]
    decide
  have first :=
    runs_from_step (farTable count).toArray 0 0 (by omega) (fun _ => by omega) rfl (by omega)
  have second := runs_from_step (farTable count).toArray 1 (.ofNat (count + 1)) (by omega)
    (fun _ => by omega) (UInt32.ofNat_add count 1).symm (by omega)
  have third := runs_from_step (farTable count).toArray (count + 3) 0 (by omega)
    (fun marked => absurd marked unmarked) (by rw [cut]; rfl) (by omega)
  rw [none] at first third
  rw [many, show 1 + (count + 1) + 1 = count + 3 by omega] at second
  rw [first, second, third, runs_from_end (by omega), cut]
  rfl

theorem parsed_far_file :
    Parsed (farFile count) ⟨#[""]⟩ (farTable count).toArray (farRuns count) := by
  have encoded : SymbolTable.encode ⟨("" :: []).toArray⟩ = .ok [1, 0, 0] := by
    have texts : SymbolTable.encodeStrings [""] = [0] := by
      simp only [SymbolTable.encodeStrings, List.flatMap_cons, List.flatMap_nil, byte_array_to_list]
      decide
    rw [SymbolTable.encode, if_neg (by decide)]
    exact congrArg (fun texts => Except.ok (Bytes.littleEndian 2 1 ++ texts)) texts
  have opened := opened_of_parts (by simp) encoded (farTable count) (List.cons_ne_nil _ _)
  exact ⟨opened, runs_far_table large⟩

theorem markers_of_far_run :
    ∀ record ∈ runRecords (farTable count).toArray { head := 1, last := .ofNat (count + 1) },
      record.isFinalMarker = true := by
  intro record listed
  obtain ⟨offset, member, rfl⟩ := List.mem_map.mp listed
  obtain ⟨below, kept⟩ := List.mem_filter.mp member
  have below := List.mem_range.mp below
  simp only [length_far_run large] at below kept
  have one : (1 : UInt32).toNat = 1 := rfl
  have place : (1 + UInt32.ofNat offset).toNat = 1 + offset := to_nat_add_offset (by omega)
  simp only [place, Array.getD_eq_getD_getElem?]
  rcases Nat.eq_zero_or_pos offset with rfl | behind
  · rfl
  · have cell : offset ≠ 1 := by
      rintro rfl
      simp at kept
      omega
    rw [marker_of_far_table (by omega) (by omega), Option.getD_some]
    rfl

theorem load_far_file :
    ∃ long, Checked.load (farFile count) = .ok ⟨#[farState, long, farState]⟩ := by
  have parsed := parsed_far_file large
  have leads : (runIndex (farRuns count))[(0 : UInt32)]? = some 2 := by simp [farRuns, runIndex]
  have short := decode_zero_record ⟨#[""]⟩ (farTable count).toArray rfl leads
  obtain ⟨long, read⟩ :=
    markers_read ⟨#[""]⟩ (runIndex (farRuns count)) (markers_of_far_run large) {}
  refine ⟨long, ?_⟩
  have states :
      (farRuns count).mapM (decodeRun (farTable count).toArray ⟨#[""]⟩ (runIndex (farRuns count))) =
      .ok [farState, long, farState] :=
    Result.map_eq_ok_iff.mpr (.cons short (.cons read (.cons short .nil)))
  rw [Checked.load_eq_ok_iff, parsed.decode_eq, parsed.runs, Result.ok_bind, states]
  rfl

end Far

/-- An index of 0 is past the symbols where there are none, but the record is loaded, for 0 is
always epsilon. And where there is one slot more than 32 bits can tell apart, the last run is
taken for the first: the runs overlap, the arc in slot 0 leads to the last state, and that has
this arc too, although the only record in its own slot is a final marker. -/
theorem load_takes_empty_and_far_tables :
    (∃ symbols table run, Parsed bareFile symbols table [run] ∧
      (∃ record ∈ arcRecords table run, symbols.size ≤ record.input.toNat) ∧
      Checked.load bareFile = .ok ⟨#[{ arcs := #[⟨Symbol.epsilon, Symbol.epsilon, 0, 0.0⟩] }]⟩) ∧
    ∃ symbols table runs long, Parsed (farFile (2 ^ 32 - 3)) symbols table runs ∧
      table.size = 2 ^ 32 + 1 ∧ table[2 ^ 32]? = some (Record.finalMarker 0) ∧
      runs.map Run.head = [0, 1, 0] ∧ runs.flatMap Run.slots ≠ List.range table.size ∧
      Checked.load (farFile (2 ^ 32 - 3)) = .ok ⟨#[farState, long, farState]⟩ := by
  constructor
  · exact ⟨_, _, _, parsed_bare_file, ⟨Record.arc 0 0 0 0, by decide, by decide⟩, load_bare_file⟩
  · have large : 2 ^ 32 - 3 + 3 = 2 ^ 32 := by decide
    obtain ⟨long, loaded⟩ := load_far_file large
    have marker : (farTable (2 ^ 32 - 3)).toArray[2 ^ 32]? = some (Record.finalMarker 0) :=
      marker_of_far_table (by decide) (by decide)
    refine ⟨_, _, _, long, parsed_far_file large, size_far_table _, marker, rfl, ?_, loaded⟩
    intro partition
    have distinct : (List.range (farTable (2 ^ 32 - 3)).toArray.size).Nodup := List.nodup_range
    rw [← partition, farRuns, List.flatMap_cons] at distinct
    apply (List.nodup_cons.mp distinct).1
    exact List.mem_flatMap.mpr ⟨{ head := 0, last := 0 }, by simp, by decide⟩

end Edges

end MorphLex.Vfst
