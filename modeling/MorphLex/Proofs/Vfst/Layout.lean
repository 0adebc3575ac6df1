import MorphLex.Proofs.Vfst.Canonical
import MorphLex.Proofs.Vfst.Soundness

/-!
The layout of a written file, as another program that walks the table relies on it. The
slots in which the runs begin are counted before there are any records, but each run
begins in the slot that was counted for it. The reader would read a table without sorted
records just as well, so none of this follows from reading back what was written.
-/

namespace MorphLex.Vfst

/-- A record in its 16 bytes: four numbers with the lowest byte first, the count of further
records, and a byte that is kept free. -/
structure Record.InBytes (record : Record) (bytes : List UInt8) : Prop where
  length : bytes.length = 16
  input : Bytes.value (bytes.take 4) = record.input.toNat
  output : Bytes.value ((bytes.drop 4).take 4) = record.output.toNat
  target : Bytes.value ((bytes.drop 8).take 4) = record.target.toNat
  weight : Bytes.value ((bytes.drop 12).take 2) = record.weight.toUInt16.toNat
  more : bytes[14]? = some record.more
  free : bytes[15]? = some 0

theorem Record.in_bytes_encode (record : Record) : record.InBytes record.encode := by
  have four (number : UInt32) : Bytes.value (Bytes.littleEndian 4 number.toNat) = number.toNat := by
    rw [Bytes.value_little_endian]
    exact Nat.mod_eq_of_lt number.toNat_lt
  have two : Bytes.value (Bytes.littleEndian 2 record.weight.toUInt16.toNat) =
    record.weight.toUInt16.toNat := by
    rw [Bytes.value_little_endian]
    exact Nat.mod_eq_of_lt record.weight.toUInt16.toNat_lt
  exact ⟨length_encode record, four record.input, four record.output, four record.target,
    two, rfl, rfl⟩

/-- The slot in which the run of a state begins, when the runs stand one behind the other. -/
def startOf (runs : List (List Record)) (state : StateId) : Nat := (runs.take state).flatten.length

/-- The record that stands for an arc. -/
structure RecordOf (symbols : SymbolTable) (runs : List (List Record)) (arc : Arc)
    (record : Record) : Prop where
  plain : record.isFinalMarker = false
  input_lt : record.input.toNat < symbols.size
  input : Spells symbols record.input arc.input
  silent : record.input = 0 ↔ arc.input.isEpsilon = true
  output_lt : record.output.toNat < symbols.size
  output : Spells symbols record.output arc.output
  target_lt : arc.target < runs.length
  target : record.target.toNat = startOf runs arc.target
  weight : Weight.ofInt16 record.weight = arc.weight.rounded

/-- A final marker for a final weight, and nothing where there is none. -/
def MarkerOf : Option Weight → List Record → Prop
  | none, marker => marker = []
  | some weight, marker => ∃ record, marker = [record] ∧ record.isFinalMarker = true ∧
      Weight.ofInt16 record.weight = weight.rounded

/-- The records of a state: the final marker, then the arcs with ascending inputs, epsilon first. -/
structure HoldsState (symbols : SymbolTable) (runs : List (List Record)) (state : State)
    (marker records : List Record) : Prop where
  final : MarkerOf state.final marker
  sorted : (records.map Record.input).Pairwise (· ≤ ·)
  arcs : ∃ arcs, arcs.Perm state.arcs.toList ∧ List.Forall₂ (RecordOf symbols runs) arcs records ∧
    arcs.Pairwise fun first second => second.input.isEpsilon = true → first.input.isEpsilon = true

/-- A run of which the first record counts the others, if these are no more than 254. Otherwise
it holds 255, and a cell behind it counts the others. -/
structure Linked (head : Record) (rest run : List Record) : Prop where
  uncounted : ∀ record ∈ rest, record.more = 0
  inline : rest.length ≤ 254 → head.more.toNat = rest.length ∧ run = head :: rest
  overflow : 254 < rest.length → head.more.toNat = 255 ∧
    ∃ count : UInt32, count.toNat = rest.length ∧ run = head :: Record.overflowCell count :: rest

/-- The run holds the records of the state and the count of them. -/
def LaidOut (symbols : SymbolTable) (runs : List (List Record)) (state : State)
    (run : List Record) : Prop :=
  ∃ marker records head rest, HoldsState symbols runs state marker records ∧
    marker ++ records = head :: rest ∧
    Linked head rest run

section Starts

variable {states : List State} {runs : List (List Record)}

/-- The slots counted in advance are those in which the runs begin. -/
theorem run_starts_eq (counted : TakeCounted states runs) (slot : Nat) {number : Nat}
    (inside : number < states.length) :
    (runStartsFrom slot states)[number]? = some (slot + startOf runs number) := by
  induction counted generalizing slot number with
  | nil => exact absurd inside (Nat.not_lt_zero _)
  | cons first _ ih =>
      cases number with
      | zero => rfl
      | succ number =>
          rw [runStartsFrom, List.getElem?_cons_succ, ih _ (Nat.lt_of_succ_lt_succ inside), startOf,
            startOf, List.take_succ_cons, List.flatten_cons, List.length_append, first,
            Nat.add_assoc]

theorem start_le_length (runs : List (List Record)) (state : StateId) :
    startOf runs state ≤ runs.flatten.length := by
  have whole := congrArg List.flatten (List.take_append_drop state runs)
  rw [List.flatten_append] at whole
  rw [← whole, List.length_append]
  exact Nat.le_add_right _ _

end Starts

section Records

variable {t : Transducer} {runs : List (List Record)} {symbols : SymbolTable}

theorem record_of_arc (formed : t.WellFormed)
    (few : (SymbolTable.ofTransducer t).size ≤ SymbolTable.maxSize) (small : slots t < 2 ^ 32)
    (counted : TakeCounted t.states.toList runs) {state : StateId} {arc : Arc}
    (leaves : arc ∈ t.arcs state) {record : Record}
    (written : encodeArc (SymbolTable.ofTransducer t).index (runStarts t) arc = .ok record) :
    RecordOf (SymbolTable.ofTransducer t) runs arc record := by
  have input := SymbolTable.symbol_of_transducer_index t leaves (.inl rfl)
  have output := SymbolTable.symbol_of_transducer_index t leaves (.inr rfl)
  have inside : arc.target < t.states.toList.length := formed.target_lt leaves
  have start : (runStarts t).getD arc.target 0 = startOf runs arc.target := by
    rw [runStarts, Array.getD_eq_getD_getElem?, List.getElem?_toArray,
      run_starts_eq counted 0 inside, Option.getD_some, Nat.zero_add]
  have total : runs.flatten.length = slots t := length_table counted
  have bound := start_le_length runs arc.target
  have holds := holds_encode_arc few input.1 output.1 (by omega) written
  refine ⟨holds.plain, ?_, ?_, ?_, ?_, ?_, counted.length_eq ▸ inside, ?_, holds.weight⟩
  · rw [holds.input]
    exact input.1
  · rw [← symbol_eq_some_iff, holds.input]
    exact input.2
  · rw [← SymbolTable.index_eq_zero_iff t leaves (.inl rfl), ← holds.input]
    exact UInt32.toNat_inj.symm
  · rw [holds.output]
    exact output.1
  · rw [← symbol_eq_some_iff, holds.output]
    exact output.2
  · rw [holds.target, start]

theorem marker_of_encode {final : Option Weight} {marker : List Record}
    (written : encodeFinal final = .ok marker) : MarkerOf final marker := by
  rcases encode_final_spec written with ⟨rfl, rfl⟩ | ⟨weight, number, rfl, rounds, rfl⟩
  · rfl
  · exact ⟨_, rfl, rfl, rounds⟩

/-- The comparison looks at the inputs first. -/
theorem input_le_of_compare {first second : Record}
    (below : (Record.compareArcs first second).isLE = true) : first.input ≤ second.input := by
  rw [Record.compareArcs, compareLex, Ordering.isLE_then_iff_and] at below
  exact Std.isLE_compare.mp below.1

/-- Epsilon has the least index, so no other input stands before it. -/
theorem epsilon_first {arcs : List Arc} {records : List Record}
    (each : List.Forall₂ (RecordOf symbols runs) arcs records)
    (sorted : (records.map Record.input).Pairwise (· ≤ ·)) :
    arcs.Pairwise fun first second => second.input.isEpsilon = true →
      first.input.isEpsilon = true := by
  induction each with
  | nil => exact .nil
  | @cons arc record arcs records here later ih =>
      rw [List.map_cons, List.pairwise_cons, List.forall_mem_map] at sorted
      refine .cons (fun other listed silent => ?_) (ih sorted.2)
      obtain ⟨record, present, spelled⟩ := Result.exists_paired later listed
      have below := sorted.1 record present
      rw [spelled.silent.mpr silent] at below
      exact here.silent.mp (UInt32.le_zero_iff.mp below)

theorem holds_of_encode (formed : t.WellFormed)
    (few : (SymbolTable.ofTransducer t).size ≤ SymbolTable.maxSize)
    (small : slots t < 2 ^ 32) (counted : TakeCounted t.states.toList runs) {state : State}
    (listed : state ∈ t.states.toList)
    {marker records : List Record} (marked : encodeFinal state.final = .ok marker)
    (written : List.Forall₂
      (fun arc record =>
        encodeArc (SymbolTable.ofTransducer t).index (runStarts t) arc = .ok record)
      state.arcs.toList records) :
    HoldsState (SymbolTable.ofTransducer t) runs state marker
      (records.mergeSort fun first second => (Record.compareArcs first second).isLE) := by
  obtain ⟨number, inside, rfl⟩ := Array.mem_iff_getElem.mp (Array.mem_toList_iff.mp listed)
  have each : List.Forall₂ (RecordOf (SymbolTable.ofTransducer t) runs) t.states[number].arcs.toList
    records := by
    have leaving :=
      (List.forall₂_and_left t.states[number].arcs.toList records).mpr
        ⟨fun arc listed => listed, written⟩
    apply leaving.imp
    rintro arc record ⟨listed, written⟩
    have leaves : arc ∈ t.arcs number := by
      rw [Transducer.arcs_eq, Array.getElem?_eq_getElem inside]
      exact Array.mem_toList_iff.mp listed
    exact record_of_arc formed few small counted leaves written
  have sorted := (Ascending.pairwise_sort Record.compareArcs records).imp input_le_of_compare
  rw [← List.pairwise_map] at sorted
  obtain ⟨arcs, others, permuted⟩ :=
    List.perm_comp_forall₂ (List.mergeSort_perm records _) each.flip
  exact ⟨marker_of_encode marked, sorted, arcs, permuted, others.flip,
    epsilon_first others.flip sorted⟩

theorem more_of_encode {index : Std.HashMap Symbol Nat} {starts : Array Nat} {final : Option Weight}
    {arcs : List Arc}
    {marker records : List Record} (marked : encodeFinal final = .ok marker)
    (written : List.Forall₂ (fun arc record => encodeArc index starts arc = .ok record)
      arcs records) : ∀ record ∈ marker ++ records, record.more = 0 := by
  intro record listed
  rcases List.mem_append.mp listed with final | arc
  · rcases encode_final_spec marked with ⟨-, rfl⟩ | ⟨weight, number, -, -, rfl⟩
    · simp at final
    · obtain rfl := List.mem_singleton.mp final
      rfl
  · obtain ⟨_, -, written⟩ := Result.exists_paired written.flip arc
    exact more_of_record (encode_arc_eq_ok_iff.mp written)

end Records

section Linking

variable {symbols : SymbolTable} {runs : List (List Record)} {state : State}
    {marker records rest : List Record} {head : Record}

/-- The count on the first record is nothing to what the records hold. -/
theorem HoldsState.recount (holds : HoldsState symbols runs state marker records)
    (group : marker ++ records = head :: rest) (more : UInt8) :
    ∃ marker records, HoldsState symbols runs state marker records ∧
      marker ++ records = { head with more } :: rest := by
  obtain ⟨final, sorted, arcs, permuted, each, silent⟩ := holds
  cases marker with
  | nil =>
      obtain rfl : records = head :: rest := group
      refine ⟨[], { head with more } :: rest, ⟨final, sorted, arcs, permuted, ?_, silent⟩, rfl⟩
      cases each with
      | cons first later =>
          exact .cons ⟨first.plain, first.input_lt, first.input, first.silent, first.output_lt,
            first.output, first.target_lt, first.target, first.weight⟩ later
  | cons record others =>
      obtain ⟨rfl, rfl⟩ := List.cons.inj group
      refine ⟨{ record with more } :: others, records,
        ⟨?_, sorted, arcs, permuted, each, silent⟩, rfl⟩
      cases weight : state.final with
      | none =>
          rw [weight] at final
          exact nomatch final
      | some value =>
          rw [weight] at final
          obtain ⟨found, alone, marks, rounds⟩ := final
          obtain ⟨rfl, rfl⟩ := List.cons.inj alone
          exact ⟨_, rfl, marks, rounds⟩

theorem linked_link_run (small : rest.length < 2 ^ 32)
    (uncounted : ∀ record ∈ rest, record.more = 0) :
    ∃ more, Linked { head with more } rest (linkRun (head :: rest)) := by
  have most : Record.maxInline = 254 := rfl
  by_cases long : Record.maxInline < rest.length
  · refine ⟨Record.overflowMark, uncounted,
      fun short => by omega, fun _ => ⟨rfl, .ofNat rest.length, ?_, link_run_long long⟩⟩
    exact UInt32.toNat_ofNat_of_lt' small
  · refine ⟨.ofNat rest.length, uncounted, fun short => ⟨?_, link_run_short long⟩,
      fun many => by omega⟩
    exact UInt8.toNat_ofNat_of_lt' (by simp only [UInt8.size]; omega)

theorem HoldsState.laid_out (holds : HoldsState symbols runs state marker records)
    (uncounted : ∀ record ∈ marker ++ records, record.more = 0)
    (some : linkRun (marker ++ records) ≠ [])
    (small : (linkRun (marker ++ records)).length < 2 ^ 32) :
    LaidOut symbols runs state (linkRun (marker ++ records)) := by
  cases group : marker ++ records with
  | nil =>
      rw [group] at some
      exact absurd rfl some
  | cons head rest =>
      rw [group] at uncounted small
      have fewer : rest.length < (linkRun (head :: rest)).length := by
        rw [length_link_run _ (List.cons_ne_nil _ _)]
        exact le_slot_count (rest.length + 1)
      obtain ⟨more, linked⟩ := linked_link_run (fewer.trans small) fun record listed =>
        uncounted record (List.mem_cons_of_mem _ listed)
      obtain ⟨marker, records, holds, whole⟩ := holds.recount group more
      exact ⟨marker, records, _, rest, holds, whole, linked⟩

end Linking

section Assembly

variable {t : Transducer} {runs : List (List Record)}

/-- Zeros up to a multiple of 16, and never a whole record of them. -/
theorem exists_padding (length : Nat) :
    ∃ zeros, Bytes.padding Record.size length = List.replicate zeros 0 ∧ (length + zeros) % 16 = 0 ∧
      zeros < 16 := by
  have unit : Record.size = 16 := rfl
  refine ⟨_, rfl, ?_, Nat.mod_lt _ (by decide)⟩
  rw [unit]
  omega

theorem laid_out_of_encode (formed : t.WellFormed)
    (few : (SymbolTable.ofTransducer t).size ≤ SymbolTable.maxSize)
    (small : slots t < 2 ^ 32) (some : ∀ state ∈ t.states.toList, 0 < recordCount state)
    (counted : TakeCounted t.states.toList runs)
    (listed : List.Forall₂ (fun state run =>
      encodeState (SymbolTable.ofTransducer t).index (runStarts t) state =
        .ok run) t.states.toList runs) :
    List.Forall₂ (LaidOut (SymbolTable.ofTransducer t) runs) t.states.toList runs := by
  have each := counted.mp (fun state run => And.intro) listed
  refine ((List.forall₂_and_left _ _).mpr ⟨fun state member => member, each⟩).imp ?_
  rintro state run ⟨member, length, written⟩
  obtain ⟨marker, records, marked, arcs, rfl⟩ := encode_state_eq_ok_iff.mp written
  have holds := holds_of_encode formed few small counted member marked arcs
  have sorted :=
    List.mergeSort_perm records fun first second => (Record.compareArcs first second).isLE
  refine holds.laid_out (fun record listed => ?_) ?_ ?_
  · exact more_of_encode marked arcs record ((sorted.append_left marker).mem_iff.mp listed)
  · rw [← List.length_pos_iff, length]
    exact Nat.lt_of_lt_of_le (some state member) (le_slot_count _)
  · rw [length]
    exact Nat.lt_of_le_of_lt (List.le_sum_of_mem (List.mem_map.mpr ⟨state, member, rfl⟩)) small

end Assembly

/-- The writer puts the runs of the states one behind the other, behind the header, the symbol
table and zeros up to a multiple of 16 bytes, each record in 16 bytes that hold its fields.
Each run holds the records of its state and the count of them, and each arc points to the slot
in which the run of its target begins. -/
theorem encode_lays_out_runs {t : Transducer} {data : List UInt8} (formed : t.WellFormed)
    (small : slots t.trim < 2 ^ 32) (written : encode t = .ok data) :
    ∃ table zeros pieces runs, (SymbolTable.ofTransducer t.trim).encode = .ok table ∧
      data = ({ weighted := true } : Header).encode ++ table ++ List.replicate zeros 0 ++
        pieces.flatten ∧
      (Header.size + table.length + zeros) % 16 = 0 ∧ zeros < 16 ∧
      List.Forall₂ Record.InBytes runs.flatten pieces ∧
      Record.decodeTable (data.drop (Header.size + table.length + zeros)) = runs.flatten.toArray ∧
      runs.flatten.length = slots t.trim ∧
      data.length = Header.size + table.length + zeros + 16 * slots t.trim ∧
      List.Forall₂ (LaidOut (SymbolTable.ofTransducer t.trim) runs) t.trim.states.toList runs := by
  obtain ⟨accepts, runs, table, listed, encoded, rfl⟩ := encode_eq_ok_iff.mp written
  have few := SymbolTable.size_le_of_encode encoded
  have some := record_count_pos formed accepts
  have counted : TakeCounted t.trim.states.toList runs := by
    obtain ⟨groups, rfl, records⟩ := exists_groups few listed
    exact take_counted (counts_of_records some records)
  have total : runs.flatten.length = slots t.trim := length_table counted
  have length :
      (({ weighted := true } : Header).encode ++ table).length = Header.size + table.length := by
    rw [List.length_append, Header.length_encode]
  obtain ⟨zeros, padded, multiple, fewer⟩ := exists_padding (Header.size + table.length)
  have front : (({ weighted := true } : Header).encode ++ table ++ List.replicate zeros 0).length =
      Header.size + table.length + zeros := by
    rw [List.length_append, length, List.length_replicate]
  have laid := laid_out_of_encode (Transducer.well_formed_trim formed) few small some counted listed
  rw [length, padded]
  refine ⟨table, zeros, runs.flatten.map Record.encode, runs,
    encoded, by rw [List.flatMap_def], multiple, fewer, ?_, ?_, total, ?_, laid⟩
  · rw [List.forall₂_map_right_iff, List.forall₂_same]
    exact fun record _ => record.in_bytes_encode
  · rw [← front, List.drop_left, Record.decode_table_encode]
  · rw [List.length_append, front, Record.length_flat_map_encode, total, Nat.mul_comm]
    rfl

/-- Two runs in four slots, the second of them with a final marker in front. -/
theorem encode_lays_out_runs_of_loop :
    ∃ data table first second zeros pieces, encode loop = .ok data ∧ slots loop = 4 ∧
      data = ({ weighted := true } : Header).encode ++ table ++ List.replicate zeros 0 ++
        pieces.flatten ∧
      List.Forall₂ Record.InBytes (first ++ second) pieces ∧
      LaidOut (SymbolTable.ofTransducer loop) [first, second] ⟨#[⟨"a", "b", 1, 0.0⟩], none⟩ first ∧
      LaidOut (SymbolTable.ofTransducer loop) [first, second]
        ⟨#[⟨"<n>", "b", 1, 0.5⟩, ⟨"a", Symbol.epsilon, 0, -2.5⟩], some 1.25⟩ second := by
  obtain ⟨data, written⟩ := exists_encode_loop
  obtain ⟨table, zeros, pieces, runs, -, parts, -, -, fields, -, -, -, laid⟩ :=
    encode_lays_out_runs well_formed_loop (by rw [trim_loop]; decide) written
  rw [trim_loop] at laid
  obtain ⟨first, _, here, later, rfl⟩ := List.forall₂_cons_left_iff.mp laid
  obtain ⟨second, _, there, none, rfl⟩ := List.forall₂_cons_left_iff.mp later
  obtain rfl := List.forall₂_nil_left_iff.mp none
  have both : [first, second].flatten = first ++ second := by simp
  exact ⟨data, table, first, second, zeros, pieces,
    written, by decide, parts, both ▸ fields, here, there⟩

end MorphLex.Vfst
