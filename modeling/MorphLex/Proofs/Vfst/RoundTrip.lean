import Mathlib.Data.List.Perm.Basic
import MorphLex.Proofs.Transducer.Trim
import MorphLex.Proofs.Vfst.FaultOrder
import MorphLex.Proofs.Vfst.Runs
import MorphLex.Proofs.Weight.Rounding

/-!
What is written is read back. The records of a state hold its final weight and its
arcs, with weights rounded to whole numbers; sorting only changes the order of the
arcs, and numbers of states stay as trimming gave them.
-/

namespace MorphLex

def Arc.rounded (arc : Arc) : Arc := { arc with weight := arc.weight.rounded }

namespace Vfst

/-- The slots of the table that a transducer takes. -/
def slots (t : Transducer) : Nat :=
  (t.states.toList.map fun state => slotCount (recordCount state)).sum

section Records

variable {symbols : SymbolTable} {starts : Array Nat} {index : Std.HashMap UInt32 StateId}

/-- The tables of the writer and those of the reader agree on an arc. -/
structure Resolves (symbols : SymbolTable) (starts : Array Nat) (index : Std.HashMap UInt32 StateId)
    (arc : Arc) : Prop where
  input_lt : symbols.index.getD arc.input 0 < symbols.size
  input : symbols.symbol? (symbols.index.getD arc.input 0) = some arc.input
  output_lt : symbols.index.getD arc.output 0 < symbols.size
  output : symbols.symbol? (symbols.index.getD arc.output 0) = some arc.output
  target_lt : starts.getD arc.target 0 < 2 ^ 32
  target : index[UInt32.ofNat (starts.getD arc.target 0)]? = some arc.target

structure Reads (symbols : SymbolTable) (index : Std.HashMap UInt32 StateId) (record : Record)
    (arc : Arc) : Prop where
  plain : record.isFinalMarker = false
  input : symbols.symbol? record.input.toNat = some arc.input
  output : symbols.symbol? record.output.toNat = some arc.output
  target : index[record.target]? = some arc.target
  weight : Weight.ofInt16 record.weight = arc.weight

theorem encode_weight_spec {weight : Weight} {number : Int16}
    (written : encodeWeight weight = .ok number) : Weight.ofInt16 number = weight.rounded := by
  rw [encodeWeight] at written
  split at written
  · next fits =>
    obtain rfl := Except.ok.inj written
    exact Weight.of_int16_eq_rounded fits
  · simp at written

/-- The fields of a record hold the numbers of the arc. -/
structure HoldsArc (symbols : SymbolTable) (starts : Array Nat) (arc : Arc) (record : Record) :
    Prop where
  plain : record.isFinalMarker = false
  input : record.input.toNat = symbols.index.getD arc.input 0
  output : record.output.toNat = symbols.index.getD arc.output 0
  target : record.target.toNat = starts.getD arc.target 0
  weight : Weight.ofInt16 record.weight = arc.weight.rounded
  more : record.more = 0

theorem holds_encode_arc {arc : Arc} {record : Record} (few : symbols.size ≤ SymbolTable.maxSize)
    (inputLt : symbols.index.getD arc.input 0 < symbols.size)
    (outputLt : symbols.index.getD arc.output 0 < symbols.size)
    (targetLt : starts.getD arc.target 0 < 2 ^ 32)
    (written : encodeArc symbols.index starts arc = .ok record) :
    HoldsArc symbols starts arc record := by
  obtain ⟨weight, rounds, written⟩ := Result.bind_eq_ok_iff.mp written
  obtain rfl := Result.pure_eq_ok_iff.mp written
  have most : SymbolTable.maxSize = 65535 := rfl
  have input :
      (UInt32.ofNat (symbols.index.getD arc.input 0)).toNat = symbols.index.getD arc.input 0 :=
    UInt32.toNat_ofNat_of_lt' (by simp only [UInt32.size]; omega)
  refine ⟨?_, input, UInt32.toNat_ofNat_of_lt' (by simp only [UInt32.size]; omega),
    UInt32.toNat_ofNat_of_lt' targetLt, encode_weight_spec rounds, rfl⟩
  rw [Record.isFinalMarker, beq_eq_false_iff_ne]
  intro marker
  have numbers := congrArg UInt32.toNat marker
  simp only [Record.arc, input] at numbers
  have last : Record.finalInput.toNat = 4294967295 := rfl
  omega

theorem reads_encode_arc {arc : Arc} {record : Record} (few : symbols.size ≤ SymbolTable.maxSize)
    (resolves : Resolves symbols starts index arc)
    (written : encodeArc symbols.index starts arc = .ok record) :
    Reads symbols index record arc.rounded := by
  have holds := holds_encode_arc few resolves.input_lt resolves.output_lt resolves.target_lt written
  refine ⟨holds.plain, ?_, ?_, ?_, holds.weight⟩
  · rw [holds.input]
    exact resolves.input
  · rw [holds.output]
    exact resolves.output
  · rw [← UInt32.ofNat_toNat (x := record.target), holds.target]
    exact resolves.target

theorem Reads.add_record {record : Record} {arc : Arc} (reads : Reads symbols index record arc)
    (state : State) :
    addRecord symbols index state record = .ok { state with arcs := state.arcs.push arc } := by
  rw [addRecord, if_neg (by rw [reads.plain]; exact Bool.false_ne_true), reads.target, reads.input,
    reads.output]
  simp only [reads.weight]

theorem add_records {records : List Record} {arcs : List Arc}
    (reads : List.Forall₂ (Reads symbols index) records arcs)
    (state : State) :
    records.foldlM (addRecord symbols index) state =
      .ok { state with arcs := state.arcs ++ arcs.toArray } := by
  induction reads generalizing state with
  | nil => simp [pure, Except.pure]
  | cons first _ ih =>
      rw [List.foldlM_cons, first.add_record]
      simp only [bind, Except.bind, ih]
      simp

/-- The count on the first record is nothing to the arcs. -/
theorem reads_relink {records : List Record} {arcs : List Arc} (more : UInt8)
    (reads : List.Forall₂ (Reads symbols index) records arcs) :
    List.Forall₂ (Reads symbols index) (relink more records) arcs := by
  cases reads with
  | nil => exact .nil
  | cons first rest =>
      exact .cons ⟨first.plain, first.input, first.output, first.target, first.weight⟩ rest

/-- A state as the file keeps it. -/
structure Stored (state decoded : State) : Prop where
  final : decoded.final = state.final.map Weight.rounded
  arcs : decoded.arcs.toList.Perm (state.arcs.toList.map Arc.rounded)

/-- The reader makes this state of the group, whatever count stands on its first record. -/
def ReadAs (symbols : SymbolTable) (index : Std.HashMap UInt32 StateId) (state : State)
    (group : List Record) : Prop :=
  ∀ more, ∃ decoded, (relink more group).foldlM (addRecord symbols index) {} = .ok decoded ∧
    Stored state decoded

/-- The records of a state. They are read as the state once the reader knows what its arcs
point to. -/
structure RecordsOf (symbols : SymbolTable) (starts : Array Nat) (state : State)
    (group : List Record) : Prop where
  length : group.length = recordCount state
  read : ∀ index, (∀ arc ∈ state.arcs, Resolves symbols starts index arc) →
    ReadAs symbols index state group

theorem RecordsOf.ne_nil {state : State} {group : List Record}
    (records : RecordsOf symbols starts state group)
    (some : 0 < recordCount state) : group ≠ [] := by
  rw [← List.length_pos_iff, records.length]
  exact some

theorem encode_final_spec {final : Option Weight} {marker : List Record}
    (written : encodeFinal final = .ok marker) :
    (final = none ∧ marker = []) ∨ ∃ weight number, final = some weight ∧
      Weight.ofInt16 number = weight.rounded ∧ marker = [Record.finalMarker number] := by
  cases final with
  | none => exact .inl ⟨rfl, (Except.ok.inj written).symm⟩
  | some weight =>
      obtain ⟨number, rounds, written⟩ := Result.bind_eq_ok_iff.mp written
      exact .inr ⟨weight, number, rfl, encode_weight_spec rounds,
        (Result.pure_eq_ok_iff.mp written).symm⟩

theorem add_final_marker (number : Int16) (more : UInt8) (state : State) :
    addRecord symbols index state { Record.finalMarker number with more } =
      .ok { state with final := some (Weight.ofInt16 number) } := by
  rw [addRecord, if_pos (by rfl)]
  rfl

/-- The final marker stands in front, and the records of the arcs behind it are sorted. -/
theorem encode_state_eq_ok_iff {symbolIndex : Std.HashMap Symbol Nat} {state : State}
    {run : List Record} :
    encodeState symbolIndex starts state = .ok run ↔
      ∃ marker records, encodeFinal state.final = .ok marker ∧
      List.Forall₂ (fun arc record => encodeArc symbolIndex starts arc = .ok record)
        state.arcs.toList records ∧
      linkRun (marker ++ records.mergeSort fun first second =>
        (Record.compareArcs first second).isLE) = run := by
  simp only [encodeState, Result.bind_eq_ok_iff, Result.pure_eq_ok_iff, Result.map_eq_ok_iff,
    exists_and_left]

/-- There is a record for the final weight and one for each arc. -/
theorem length_group {symbolIndex : Std.HashMap Symbol Nat} {state : State}
    {marker records : List Record}
    (marked : encodeFinal state.final = .ok marker)
    (written : List.Forall₂ (fun arc record => encodeArc symbolIndex starts arc = .ok record)
      state.arcs.toList records) :
    (marker ++ records.mergeSort fun first second =>
      (Record.compareArcs first second).isLE).length = recordCount state := by
  rw [List.length_append, List.length_mergeSort, ← written.length_eq, recordCount,
    Array.length_toList, Nat.add_comm]
  rcases encode_final_spec marked with ⟨none, rfl⟩ | ⟨weight, number, some, -, rfl⟩
  · rw [none]
    rfl
  · rw [some]
    rfl

theorem encode_state_spec {state : State} {run : List Record}
    (few : symbols.size ≤ SymbolTable.maxSize)
    (written : encodeState symbols.index starts state = .ok run) :
    ∃ group, run = linkRun group ∧ RecordsOf symbols starts state group := by
  obtain ⟨marker, records, marked, each, rfl⟩ := encode_state_eq_ok_iff.mp written
  have sorted :=
    List.mergeSort_perm records fun first second => (Record.compareArcs first second).isLE
  have final := encode_final_spec marked
  refine ⟨_, rfl, length_group marked each, fun index resolves more => ?_⟩
  have reads : List.Forall₂ (Reads symbols index) records (state.arcs.toList.map Arc.rounded) := by
    have resolved := (List.forall₂_and_left state.arcs.toList records).mpr
      ⟨fun arc member => resolves arc (Array.mem_toList_iff.mp member), each⟩
    rw [List.forall₂_map_right_iff]
    exact (resolved.imp fun arc record found => reads_encode_arc few found.1 found.2).flip
  obtain ⟨arcs, sortedReads, permuted⟩ := List.perm_comp_forall₂ sorted reads
  rcases final with ⟨none, rfl⟩ | ⟨weight, number, some, rounds, rfl⟩
  · refine ⟨_, add_records (reads_relink more sortedReads) {}, by rw [none]; rfl, ?_⟩
    simpa using permuted
  · refine ⟨{ final := Option.some (Weight.ofInt16 number), arcs := arcs.toArray }, ?_, ?_, ?_⟩
    · rw [List.singleton_append, relink, List.foldlM_cons, add_final_marker]
      simp only [bind, Except.bind, add_records sortedReads]
      simp
    · rw [some, Option.map_some, rounds]
    · simpa using permuted

end Records

theorem record_count_eq (t : Transducer) {number : Nat} (inside : number < t.states.size) :
    recordCount t.states[number] =
      (t.arcs number).size + if (t.final? number).isSome then 1 else 0 := by
  rw [recordCount, Transducer.arcs_eq, Transducer.final_eq, Array.getElem?_eq_getElem inside,
    Option.getD_some]

/-- Every state of a trimmed transducer that accepts something has a record. -/
theorem record_count_pos {t : Transducer} (formed : t.WellFormed)
    (accepts : ¬((t.trim.arcs 0).isEmpty && !t.trim.isFinal 0) = true) :
    ∀ state ∈ t.trim.states.toList, 0 < recordCount state := by
  intro state member
  obtain ⟨number, inside, rfl⟩ := Array.mem_iff_getElem.mp (Array.mem_toList_iff.mp member)
  rw [record_count_eq _ inside]
  obtain ⟨origin, kept⟩ := Transducer.exists_kept_of_lt inside
  rcases kept.leads_on formed with rfl | ⟨weight, ends⟩ | ⟨arc, leaves⟩
  · by_contra none
    apply accepts
    have bare : (t.trim.arcs 0).size = 0 := by omega
    have ends : (t.trim.final? 0).isSome = false := by
      cases final : (t.trim.final? 0).isSome with
      | false => rfl
      | true => simp [final] at none
    rw [Transducer.isFinal, ends, Array.isEmpty_iff_size_eq_zero.mpr bare]
    rfl
  · rw [ends, Option.isSome_some, if_pos rfl]
    omega
  · have some := Array.size_pos_of_mem leaves
    omega

theorem symbols_trim {t : Transducer} {symbol : Symbol} (listed : symbol ∈ t.trim.symbols) :
    symbol ∈ t.symbols := by
  obtain ⟨plain, number, arc, leaves, shown⟩ := (mem_symbols_iff _ _).mp listed
  obtain ⟨state, kept⟩ := Transducer.exists_kept_of_lt (Transducer.lt_size_of_mem_arcs leaves)
  obtain ⟨-, original, departs, target, -, rfl⟩ := (kept.mem_arcs_iff arc).mp leaves
  exact (mem_symbols_iff _ _).mpr ⟨plain, state, original, departs, shown⟩

theorem symbol_table_writable {t : Transducer}
    (writable : ∀ symbol ∈ t.symbols, SymbolTable.Writable symbol) :
    ∃ texts, SymbolTable.ofTransducer t = ⟨("" :: texts).toArray⟩ ∧
      ∀ text ∈ texts, SymbolTable.Writable text := by
  obtain ⟨texts, same, listed⟩ := SymbolTable.texts_of_transducer t
  exact ⟨texts, same, fun text member => writable text (listed.mem_iff.mp member)⟩

section Assembly

variable {t : Transducer} {symbols : SymbolTable} {states : List State}

theorem exists_groups (few : symbols.size ≤ SymbolTable.maxSize) {starts : Array Nat}
    {runs : List (List Record)}
    (written : List.Forall₂ (fun state run => encodeState symbols.index starts state = .ok run)
      states runs) :
    ∃ groups, runs = groups.map linkRun ∧
      List.Forall₂ (RecordsOf symbols starts) states groups := by
  induction written with
  | nil => exact ⟨[], rfl, .nil⟩
  | cons first _ ih =>
      obtain ⟨group, rfl, records⟩ := encode_state_spec few first
      obtain ⟨groups, rfl, others⟩ := ih
      exact ⟨group :: groups, rfl, .cons records others⟩

theorem counts_of_records {starts : Array Nat} {groups : List (List Record)}
    (some : ∀ state ∈ states, 0 < recordCount state)
    (records : List.Forall₂ (RecordsOf symbols starts) states groups) :
    List.Forall₂ (fun group state => group ≠ [] ∧ group.length = recordCount state) groups
      states := by
  have paired := (List.forall₂_and_left states groups).mpr ⟨some, records⟩
  exact (paired.imp fun state group found => ⟨found.2.ne_nil found.1, found.2.length⟩).flip

/-- Each run takes the slots that are counted for its state. -/
def TakeCounted (states : List State) (runs : List (List Record)) : Prop :=
  List.Forall₂ (fun state run => run.length = slotCount (recordCount state)) states runs

theorem take_counted {groups : List (List Record)}
    (counts : List.Forall₂ (fun group state => group ≠ [] ∧ group.length = recordCount state)
      groups states) : TakeCounted states (groups.map linkRun) := by
  rw [TakeCounted, List.forall₂_map_right_iff]
  exact (counts.imp fun group state found => by
    show (linkRun group).length = _
    rw [length_link_run group found.1, found.2]).flip

theorem length_table {runs : List (List Record)} (counted : TakeCounted states runs) :
    runs.flatten.length = (states.map fun state => slotCount (recordCount state)).sum := by
  induction counted with
  | nil => rfl
  | cons first _ ih =>
      rw [List.flatten_cons, List.length_append, first, ih, List.map_cons, List.sum_cons]

theorem decode_runs {table : Array Record} {index : Std.HashMap UInt32 StateId}
    {groups : List (List Record)}
    {runs : List Run}
    (specs : List.Forall₂ (fun state group => group ≠ [] ∧ ReadAs symbols index state group)
        states groups)
    (placed : List.Forall₂ (Placed table) groups runs) :
    ∃ decoded, runs.mapM (decodeRun table symbols index) = .ok decoded ∧
      List.Forall₂ Stored states decoded := by
  simp only [Result.map_eq_ok_iff]
  induction specs generalizing runs with
  | nil =>
      cases placed
      exact ⟨[], .nil, .nil⟩
  | @cons state group _ _ first _ ih =>
      cases placed with
      | @cons _ run _ _ here later =>
          obtain ⟨rest, read, stored⟩ := ih later
          obtain ⟨more, same⟩ := run_records_of_placed first.1 here
          obtain ⟨decoded, folded, kept⟩ := first.2 more
          exact ⟨decoded :: rest, .cons (by rw [decodeRun, same, folded]) read, .cons kept stored⟩

/-- What the tables of the writer say of an arc the runs confirm. -/
theorem resolves_of_runs {runs : List Run} (formed : t.WellFormed) (small : slots t < 2 ^ 32)
    (some : ∀ state ∈ t.states.toList, 0 < recordCount state)
    (starts : (runs.map fun run => run.head.toNat) = runStartsFrom 0 t.states.toList)
    {state : StateId} {arc : Arc} (leaves : arc ∈ t.arcs state) :
    Resolves (SymbolTable.ofTransducer t) (runStarts t) (runIndex runs) arc := by
  obtain ⟨bounds, ascending⟩ := run_starts_spec 0 t.states.toList some
  have input := SymbolTable.symbol_of_transducer_index t leaves (.inl rfl)
  have output := SymbolTable.symbol_of_transducer_index t leaves (.inr rfl)
  have count : runs.length = t.size := by
    rw [← List.length_map (fun run : Run => run.head.toNat), starts, length_run_starts,
      Array.length_toList]
    rfl
  have inside : arc.target < runs.length := Nat.lt_of_lt_of_eq (formed.target_lt leaves) count.symm
  have start : (runStarts t).getD arc.target 0 = runs[arc.target].head.toNat := by
    rw [runStarts, ← starts, Array.getD_eq_getD_getElem?, List.getElem?_toArray, List.getElem?_map,
      List.getElem?_eq_getElem inside]
    rfl
  have found := run_index_spec (distinct_heads (starts ▸ ascending)) inside
  have bound := (bounds runs[arc.target].head.toNat
    (starts ▸ List.mem_map_of_mem (List.getElem_mem inside))).2
  refine ⟨input.1, input.2, output.1, output.2, ?_, ?_⟩
  · rw [start]
    have total : slots t = (t.states.toList.map fun state => slotCount (recordCount state)).sum :=
      rfl
    omega
  · rw [start, UInt32.ofNat_toNat]
    exact found

/-- The groups of all states are read as the states, for the arcs point to runs that exist. -/
theorem groups_read {groups : List (List Record)} {runs : List Run} (formed : t.WellFormed)
    (small : slots t < 2 ^ 32) (some : ∀ state ∈ t.states.toList, 0 < recordCount state)
    (records : List.Forall₂ (RecordsOf (SymbolTable.ofTransducer t) (runStarts t))
      t.states.toList groups)
    (starts : (runs.map fun run => run.head.toNat) = runStartsFrom 0 t.states.toList) :
    List.Forall₂ (fun state group => group ≠ [] ∧
      ReadAs (SymbolTable.ofTransducer t) (runIndex runs) state group)
      t.states.toList groups := by
  have paired :=
    (List.forall₂_and_left t.states.toList groups).mpr ⟨fun state member => member, records⟩
  refine paired.imp fun state group found =>
    ⟨found.2.ne_nil (some state found.1), found.2.read _ fun arc leaves => ?_⟩
  obtain ⟨number, inside, rfl⟩ := Array.mem_iff_getElem.mp (Array.mem_toList_iff.mp found.1)
  have departs : arc ∈ t.arcs number := by
    rw [Transducer.arcs_eq, Array.getElem?_eq_getElem inside]
    exact leaves
  exact resolves_of_runs formed small some starts departs

theorem table_ne_nil {groups : List (List Record)} (formed : t.WellFormed)
    (some : ∀ state ∈ t.states.toList, 0 < recordCount state)
    (counts : List.Forall₂ (fun group state => group ≠ [] ∧ group.length = recordCount state) groups
      t.states.toList) : (groups.map linkRun).flatten ≠ [] := by
  have positive : 0 < t.states.size := formed.1
  have start : t.states[0] ∈ t.states.toList := Array.mem_toList_iff.mpr (Array.getElem_mem _)
  have record := Nat.lt_of_lt_of_le (some _ start) (le_slot_count _)
  rw [← List.length_pos_iff, length_table (take_counted counts)]
  exact List.sum_pos_iff_exists_pos_nat.mpr ⟨_, List.mem_map_of_mem start, record⟩

/-- States that are stored one by one are those of a transducer that has the same numbers. -/
theorem transducer_of_stored {decoded : List State}
    (stored : List.Forall₂ Stored t.states.toList decoded) (state : StateId) :
    (⟨decoded.toArray⟩ : Transducer).final? state = (t.final? state).map Weight.rounded ∧
      ((⟨decoded.toArray⟩ : Transducer).arcs state).toList.Perm
        ((t.arcs state).toList.map Arc.rounded) := by
  rw [Transducer.final_eq, Transducer.final_eq, Transducer.arcs_eq, Transducer.arcs_eq,
    List.getElem?_toArray, ← Array.getElem?_toList]
  cases place : t.states.toList[state]? with
  | none =>
      have outside := List.getElem?_eq_none_iff.mp place
      rw [List.getElem?_eq_none (stored.length_eq ▸ outside)]
      exact ⟨rfl, .refl _⟩
  | some value =>
      obtain ⟨inside, rfl⟩ := List.getElem?_eq_some_iff.mp place
      have within : state < decoded.length := stored.length_eq ▸ inside
      have kept := (List.forall₂_iff_get.mp stored).2 state inside within
      rw [List.getElem?_eq_getElem within]
      exact ⟨kept.final, kept.arcs⟩

end Assembly

theorem opened_of_parts {texts : List String} (writable : ∀ text ∈ texts, SymbolTable.Writable text)
    {table : List UInt8} (encoded : SymbolTable.encode ⟨("" :: texts).toArray⟩ = .ok table)
    (records : List Record) (some : records ≠ []) :
    let front := ({ weighted := true } : Header).encode ++ table
    Opened (front ++ Bytes.padding Record.size front.length ++ records.flatMap Record.encode)
      ⟨("" :: texts).toArray⟩ records.toArray := by
  intro front
  refine ⟨?_, ⟨front.length, ?_, ?_, ?_⟩, by simpa using some⟩
  · rw [List.append_assoc, List.append_assoc]
    exact Header.decode_encode _ _
  · have read := SymbolTable.decode_encode writable encoded ({ weighted := true } : Header).encode
      (Bytes.padding Record.size front.length ++ records.flatMap Record.encode)
    rw [Header.length_encode] at read
    rw [List.append_assoc, read, List.length_append, Header.length_encode]
  · rw [← List.length_append]
    exact (List.sublist_append_left _ _).length_le
  · rw [← List.length_append, List.drop_left, Record.decode_table_encode]

/-- The header, the symbol table, zeros up to a record, and the runs of the states. -/
theorem encode_eq_ok_iff {t : Transducer} {bytes : List UInt8} :
    encode t = .ok bytes ↔ ¬((t.trim.arcs 0).isEmpty && !t.trim.isFinal 0) = true ∧ ∃ runs table,
      List.Forall₂ (fun state run =>
        encodeState (SymbolTable.ofTransducer t.trim).index (runStarts t.trim) state = .ok run)
        t.trim.states.toList runs ∧
      (SymbolTable.ofTransducer t.trim).encode = .ok table ∧
      ({ weighted := true } : Header).encode ++ table ++
          Bytes.padding Record.size (({ weighted := true } : Header).encode ++ table).length ++
        runs.flatten.flatMap Record.encode = bytes := by
  rw [encode]
  simp only
  by_cases bare : ((t.trim.arcs 0).isEmpty && !t.trim.isFinal 0) = true
  · rw [if_pos bare]
    exact iff_of_false Result.throw_ne_ok fun accepts => accepts.1 bare
  · rw [if_neg bare]
    simp only [bare, Bool.false_eq_true, not_false_eq_true, true_and, Result.bind_eq_ok_iff,
      Result.pure_eq_ok_iff, Result.map_eq_ok_iff, exists_and_left]

/-- What is written opens as the symbols and as the records of the states. -/
theorem exists_opened {t : Transducer} {bytes : List UInt8} (formed : t.WellFormed)
    (writable : ∀ symbol ∈ t.symbols, symbol ≠ "" ∧ '\x00' ∉ symbol.toList)
    (written : encode t = .ok bytes) :
    ∃ groups, Opened bytes (SymbolTable.ofTransducer t.trim) (groups.map linkRun).flatten.toArray ∧
      (groups.map linkRun).flatten.length = slots t.trim ∧
      (∀ state ∈ t.trim.states.toList, 0 < recordCount state) ∧
      List.Forall₂ (RecordsOf (SymbolTable.ofTransducer t.trim) (runStarts t.trim))
        t.trim.states.toList groups := by
  obtain ⟨accepts, runs, table, listed, encoded, rfl⟩ := encode_eq_ok_iff.mp written
  obtain ⟨texts, same, clean⟩ :=
    symbol_table_writable fun symbol listed => writable symbol (symbols_trim listed)
  have counted := record_count_pos formed accepts
  obtain ⟨groups, rfl, records⟩ := exists_groups (SymbolTable.size_le_of_encode encoded) listed
  have counts := counts_of_records counted records
  have total : (groups.map linkRun).flatten.length = slots t.trim :=
    length_table (take_counted counts)
  have some := table_ne_nil (Transducer.well_formed_trim formed) counted counts
  refine ⟨groups, ?_, total, counted, records⟩
  rw [same] at encoded ⊢
  exact opened_of_parts clean encoded _ some

/-- What is written is read back as the states that the file keeps. -/
theorem exists_stored {t : Transducer} {bytes : List UInt8} (formed : t.WellFormed)
    (writable : ∀ symbol ∈ t.symbols, symbol ≠ "" ∧ '\x00' ∉ symbol.toList)
    (small : slots t.trim < 2 ^ 32) (written : encode t = .ok bytes) :
    ∃ decoded, decode bytes = .ok ⟨decoded.toArray⟩ ∧
      List.Forall₂ Stored t.trim.states.toList decoded := by
  obtain ⟨groups, opened, total, counted, records⟩ := exists_opened formed writable written
  -- The reader counts off the runs without knowing where the writer began them.
  obtain ⟨found, read, placed, starts⟩ := runs_from_spec (groups.map linkRun).flatten.toArray
    (by rw [List.size_toArray, total]; exact small) (counts_of_records counted records) [] rfl
  have trimmed := Transducer.well_formed_trim formed
  obtain ⟨decoded, states, stored⟩ :=
    decode_runs (groups_read trimmed small counted records starts) placed
  refine ⟨decoded, ?_, stored⟩
  rw [opened.decode_eq, show runsFrom (groups.map linkRun).flatten.toArray 0 = .ok found from read]
  simp only [bind, Except.bind, states, pure, Except.pure]

/-- Reading back what was written gives the trimmed transducer, state for state, with
its weights rounded and the arcs of each state in some order. -/
theorem decode_undoes_encode {t : Transducer} {bytes : List UInt8} (formed : t.WellFormed)
    (writable : ∀ symbol ∈ t.symbols, symbol ≠ "" ∧ '\x00' ∉ symbol.toList)
    (small : slots t.trim < 2 ^ 32) (written : encode t = .ok bytes) :
    ∃ u, decode bytes = .ok u ∧ u.size = t.trim.size ∧ ∀ state,
      u.final? state = (t.trim.final? state).map Weight.rounded ∧
        (u.arcs state).toList.Perm ((t.trim.arcs state).toList.map Arc.rounded) := by
  obtain ⟨decoded, read, stored⟩ := exists_stored formed writable small written
  exact ⟨_, read, stored.length_eq.symm, transducer_of_stored stored⟩

section Loop

/-- A half on an arc, and a state that is both final and left. -/
def loop : Transducer := ⟨#[
  { arcs := #[⟨"a", "b", 1, 0.0⟩] },
  { arcs := #[⟨"<n>", "b", 1, 0.5⟩, ⟨"a", Symbol.epsilon, 0, -2.5⟩], final := some 1.25 }]⟩

theorem well_formed_loop : loop.WellFormed := by
  simp [loop, Transducer.WellFormed, Transducer.size]

theorem writable_loop : ∀ symbol ∈ loop.symbols, symbol ≠ "" ∧ '\x00' ∉ symbol.toList := by
  intro symbol listed
  rw [Transducer.symbols, Symbol.ascending, Ascending.mem_of_list] at listed
  revert symbol
  decide

theorem trim_loop : loop.trim = loop := by decide

theorem exists_encode_loop : ∃ bytes, encode loop = .ok bytes := by
  have few : loop.trim.symbols.length < SymbolTable.maxSize := by
    rw [trim_loop, Transducer.symbols]
    exact Nat.lt_of_le_of_lt (Ascending.length_of_list_le compare _) (by decide)
  have fits : ∀ weight ∈ loop.trim.weights, Fits weight := by
    rw [trim_loop]
    simp only [fits_iff_ne_none]
    decide +kernel
  exact exists_encode_iff_full.mpr ⟨by decide, fits, few⟩

/-- Halves on arcs and a quarter in a final weight, none of which the file can keep. -/
theorem decode_undoes_encode_of_loop :
    ∃ t bytes u, t.arcs 1 = #[⟨"<n>", "b", 1, 0.5⟩, ⟨"a", Symbol.epsilon, 0, -2.5⟩] ∧
      t.final? 1 = some 1.25 ∧
      encode t = .ok bytes ∧ decode bytes = .ok u ∧ u.size = t.trim.size ∧ ∀ state,
        u.final? state = (t.trim.final? state).map Weight.rounded ∧
          (u.arcs state).toList.Perm ((t.trim.arcs state).toList.map Arc.rounded) := by
  obtain ⟨bytes, written⟩ := exists_encode_loop
  obtain ⟨u, read, same⟩ :=
    decode_undoes_encode well_formed_loop writable_loop (by rw [trim_loop]; decide) written
  exact ⟨loop, bytes, u, rfl, rfl, written, read, same⟩

end Loop

end Vfst

end MorphLex
