import Mathlib.Algebra.GroupWithZero.Nat
import Mathlib.Data.List.Forall2
import MorphLex.Proofs.Vfst.SymbolTable
import MorphLex.Vfst.Decode
import MorphLex.Vfst.Encode

/-!
The reader finds the runs of records where the writer has put them. A run takes as
many slots as the writer counts for it, its first record or its overflow cell tells
where it ends, and every start of a run leads to the number of its state.
-/

namespace MorphLex.Vfst

section Codec

theorem Record.decode_many_encode (records : List Record) :
    decodeMany records.length (records.flatMap encode) = records := by
  induction records with
  | nil => rfl
  | cons record records ih =>
      have split : Bytes.split? Record.size (record.encode ++ records.flatMap encode) =
          some (record.encode, records.flatMap encode) := by
        have split := Bytes.split_append record.encode (records.flatMap encode)
        rwa [Record.length_encode] at split
      rw [List.length_cons, List.flatMap_cons, decodeMany, split]
      simp only [Record.of_bytes_encode, ih]

theorem Record.length_flat_map_encode (records : List Record) :
    (records.flatMap encode).length = records.length * size := by
  rw [List.length_flatMap]
  simp [Record.length_encode]

theorem Record.decode_table_encode (records : List Record) :
    decodeTable (records.flatMap encode) = records.toArray := by
  rw [decodeTable, length_flat_map_encode, Nat.mul_div_cancel _ (by decide), decode_many_encode]

end Codec

section Links

def relink (more : UInt8) : List Record → List Record
  | [] => []
  | head :: rest => { head with more } :: rest

theorem link_run_long {head : Record} {rest : List Record} (long : Record.maxInline < rest.length) :
    linkRun (head :: rest) =
      { head with more := Record.overflowMark } ::
        Record.overflowCell (.ofNat rest.length) :: rest :=
  if_pos long

theorem link_run_short {head : Record} {rest : List Record}
    (short : ¬Record.maxInline < rest.length) :
    linkRun (head :: rest) = { head with more := .ofNat rest.length } :: rest :=
  if_neg short

theorem length_link_run (group : List Record) (some : group ≠ []) :
    (linkRun group).length = slotCount group.length := by
  cases group with
  | nil => exact absurd rfl some
  | cons head rest =>
      rw [linkRun, slotCount, List.length_cons, Nat.add_sub_cancel]
      split <;> rfl

/-- The run of a group of records lies in the table, in slots of 32 bits. -/
structure Placed (table : Array Record) (group : List Record) (run : Run) : Prop where
  slots : ∀ offset (inside : offset < (linkRun group).length),
    table[run.head.toNat + offset]? = (linkRun group)[offset]
  last : run.last.toNat + 1 = (linkRun group).length
  small : run.head.toNat + (linkRun group).length ≤ 2 ^ 32

variable {table : Array Record} {group : List Record} {slot : Nat}

/-- The offset of the last record, from the first record or from the overflow cell. -/
theorem last_offset_of_placed (some : group ≠ []) (small : (linkRun group).length < 2 ^ 32)
    (slots : ∀ offset (inside : offset < (linkRun group).length),
      table[slot + offset]? = (linkRun group)[offset]) :
    (Record.lastOffset table slot).toNat + 1 = (linkRun group).length ∧
      ((table.getD slot default).more = Record.overflowMark → 1 < (linkRun group).length) := by
  cases group with
  | nil => exact absurd rfl some
  | cons head rest =>
      by_cases long : Record.maxInline < rest.length
      · rw [link_run_long long] at small slots ⊢
        have first := slots 0 (by simp)
        have second := slots 1 (by simp)
        simp only [Nat.add_zero, List.getElem_cons_zero, List.getElem_cons_succ] at first second
        simp only [List.length_cons] at small ⊢
        rw [Record.lastOffset]
        simp only [Array.getD_eq_getD_getElem?, first, second, Option.getD_some, if_true,
          Record.overflowCell, Record.arc]
        have one : (1 : UInt32).toNat = 1 := rfl
        refine ⟨?_, fun _ => by omega⟩
        rw [UInt32.toNat_add, UInt32.toNat_ofNat', one]
        omega
      · rw [link_run_short long] at small slots ⊢
        have first := slots 0 (by simp)
        simp only [Nat.add_zero, List.getElem_cons_zero] at first
        have few : rest.length ≤ 254 := Nat.le_of_not_lt long
        have count : (UInt8.ofNat rest.length).toNat = rest.length := by
          rw [UInt8.toNat_ofNat', Nat.mod_eq_of_lt (by omega)]
        have inline : UInt8.ofNat rest.length ≠ Record.overflowMark := by
          intro full
          have numbers : rest.length = 255 := count.symm.trans (congrArg UInt8.toNat full)
          omega
        rw [Record.lastOffset]
        simp only [Array.getD_eq_getD_getElem?, first, Option.getD_some, inline, if_false,
          List.length_cons]
        exact ⟨by simp [count], fun impossible => impossible.elim⟩

/-- Within 32 bits a record lies as far behind the slot as its offset says. -/
theorem to_nat_add_offset {head : UInt32} {offset : Nat} (small : head.toNat + offset < 2 ^ 32) :
    (head + .ofNat offset).toNat = head.toNat + offset := by
  rw [UInt32.toNat_add, UInt32.toNat_ofNat']
  omega

/-- The second offset of a long run is that of its overflow cell. -/
theorem offsets_without_cell (count : Nat) :
    (List.range (count + 2)).filter (fun offset => !(offset == 1)) =
      0 :: (List.range count).map (· + 2) := by
  have others : (List.range count).filter ((fun offset => !(offset == 1)) ∘ (Nat.succ ∘ Nat.succ)) =
    List.range count := by
    rw [List.filter_eq_self]
    intro offset _
    simp
  rw [List.range_succ_eq_map, List.range_succ_eq_map, List.map_cons, List.map_map,
    List.filter_cons_of_pos (by decide), List.filter_cons_of_neg (by decide),
    List.filter_map, others]
  rfl

theorem Placed.getD_eq {run : Run} (placed : Placed table group run) {offset : Nat}
    (inside : offset < (linkRun group).length) :
    table.getD (run.head + .ofNat offset).toNat default = (linkRun group)[offset] := by
  have small := placed.small
  rw [to_nat_add_offset (by omega), Array.getD_eq_getD_getElem?, placed.slots offset inside,
    Option.getD_some]

/-- The reader leaves the overflow cell of a long run out. -/
theorem run_records_long {run : Run} {head : Record} {rest : List Record}
    (placed : Placed table (head :: rest) run)
    (long : Record.maxInline < rest.length) :
    runRecords table run = relink Record.overflowMark (head :: rest) := by
  have linked := (link_run_long long : linkRun (head :: rest) = _)
  have length : (linkRun (head :: rest)).length = rest.length + 2 := by rw [linked]; rfl
  have last := placed.last
  have most : Record.maxInline = 254 := rfl
  have many : decide (255 ≤ run.last.toNat) = true := decide_eq_true (by omega)
  rw [runRecords, last]
  simp only [many, Bool.and_true]
  rw [length, offsets_without_cell, List.map_cons, List.map_map, relink]
  have first := placed.getD_eq (show 0 < (linkRun (head :: rest)).length by omega)
  simp only [linked, List.getElem_cons_zero] at first
  rw [first]
  congr 1
  apply List.ext_getElem
  · simp
  · intro offset insideRange inside
    have here := placed.getD_eq (show offset + 2 < (linkRun (head :: rest)).length by omega)
    simp only [linked, List.getElem_cons_succ] at here
    simp only [List.getElem_map, List.getElem_range, Function.comp_apply]
    exact here

theorem run_records_short {run : Run} {head : Record} {rest : List Record}
    (placed : Placed table (head :: rest) run)
    (short : ¬Record.maxInline < rest.length) :
    runRecords table run = relink (.ofNat rest.length) (head :: rest) := by
  have linked := (link_run_short short : linkRun (head :: rest) = _)
  have length : (linkRun (head :: rest)).length = rest.length + 1 := by rw [linked]; rfl
  have last := placed.last
  have most : Record.maxInline = 254 := rfl
  have few : decide (255 ≤ run.last.toNat) = false := decide_eq_false (by omega)
  have all (offset : Nat) : (!(offset == 1 && false)) = true := by simp
  rw [runRecords, last]
  simp only [few, all, List.filter_true]
  rw [relink, ← linked]
  apply List.ext_getElem
  · simp
  · intro offset insideRange inside
    rw [List.getElem_map, List.getElem_range]
    exact placed.getD_eq inside

theorem run_records_of_placed {run : Run} (some : group ≠ []) (placed : Placed table group run) :
    ∃ more, runRecords table run = relink more group := by
  cases group with
  | nil => exact absurd rfl some
  | cons head rest =>
      by_cases long : Record.maxInline < rest.length
      · exact ⟨_, run_records_long placed long⟩
      · exact ⟨_, run_records_short placed long⟩

end Links

section Runs

theorem le_slot_count (records : Nat) : records ≤ slotCount records := by
  rw [slotCount]
  split
  · exact Nat.le_succ records
  · exact Nat.le_refl records

/-- One step of the first pass. -/
theorem runs_from_step (table : Array Record) (slot : Nat) (last : UInt32)
    (inside : slot < table.size)
    (cell : (table.getD slot default).more = Record.overflowMark → slot + 1 < table.size)
    (measured : Record.lastOffset table (UInt32.ofNat slot).toNat = last)
    (within : slot + last.toNat < table.size) :
    runsFrom table slot = do
      let later ← runsFrom table (slot + last.toNat + 1)
      return { head := .ofNat slot, last } :: later := by
  rw [← Array.getElem_eq_getD (h := inside)] at cell
  have present : ¬(table[slot].more = Record.overflowMark ∧ table.size ≤ slot + 1) :=
    fun missing => Nat.not_lt.mpr missing.2 (cell missing.1)
  rw [runsFrom, dif_pos inside, if_neg present]
  simp only [measured]
  rw [if_neg (Nat.not_le.mpr within)]

theorem runs_from_end {table : Array Record} {slot : Nat} (past : table.size ≤ slot) :
    runsFrom table slot = .ok [] := by
  rw [runsFrom, dif_neg (Nat.not_lt.mpr past)]

/-- From the end of one run to the end of the table. -/
theorem runs_from_spec (table : Array Record) (small : table.size < 2 ^ 32)
    {groups : List (List Record)}
    {states : List State}
    (counts : List.Forall₂ (fun group state => group ≠ [] ∧ group.length = recordCount state)
        groups states)
    (front : List Record) (shape : table.toList = front ++ (groups.map linkRun).flatten) :
    ∃ runs, runsFrom table front.length = .ok runs ∧ List.Forall₂ (Placed table) groups runs ∧
      (runs.map fun run => run.head.toNat) = runStartsFrom front.length states := by
  -- On the groups still ahead; `front` is the part of the table that has been read.
  induction counts generalizing front with
  | nil =>
      have size : table.size = front.length := by
        rw [← Array.length_toList, shape]
        simp
      exact ⟨[], runs_from_end (Nat.le_of_eq size), .nil, rfl⟩
  | @cons group state groups states count counts ih =>
      obtain ⟨some, count⟩ := count
      have length := length_link_run group some
      have positive : 0 < (linkRun group).length := by
        rw [length]
        exact Nat.lt_of_lt_of_le (List.length_pos_iff.mpr some) (le_slot_count _)
      have whole : table.toList = front ++ (linkRun group ++ (groups.map linkRun).flatten) := shape
      have size : table.size =
        front.length + ((linkRun group).length + (groups.map linkRun).flatten.length) := by
        rw [← Array.length_toList, whole, List.length_append, List.length_append]
      have slots (offset : Nat) (inside : offset < (linkRun group).length) :
          table[front.length + offset]? = (linkRun group)[offset] := by
        rw [← Array.getElem?_toList, whole, List.getElem?_append_right (Nat.le_add_right _ _),
          Nat.add_sub_cancel_left, List.getElem?_append_left inside,
          List.getElem?_eq_getElem inside]
      obtain ⟨last, cell⟩ := last_offset_of_placed some (by omega) slots
      have present : front.length < table.size := by omega
      have start : (UInt32.ofNat front.length).toNat = front.length :=
        UInt32.toNat_ofNat_of_lt' (present.trans small)
      obtain ⟨runs, later, placed, starts⟩ :=
        ih (front ++ linkRun group) (by rw [whole, List.append_assoc])
      have next : front.length + (Record.lastOffset table front.length).toNat + 1 =
          (front ++ linkRun group).length := by
        rw [List.length_append]
        omega
      have step :=
        runs_from_step table _ _ present (fun overflow => by have two := cell overflow; omega)
        (congrArg (Record.lastOffset table) start) (by omega)
      refine ⟨{ head := .ofNat front.length, last := Record.lastOffset table front.length } :: runs,
        ?_, ?_, ?_⟩
      · rw [step, next, later]
        rfl
      · exact .cons ⟨by rwa [start], last, by rw [start]; omega⟩ placed
      · rw [List.map_cons, starts, runStartsFrom, List.length_append, length, count, start]

theorem run_starts_spec (slot : Nat) (states : List State)
    (some : ∀ state ∈ states, 0 < recordCount state) :
    (∀ start ∈ runStartsFrom slot states,
      slot ≤ start ∧ start < slot + (states.map fun state => slotCount (recordCount state)).sum) ∧
      (runStartsFrom slot states).Pairwise (· < ·) := by
  induction states generalizing slot with
  | nil => simp [runStartsFrom]
  | cons state states ih =>
      have positive :=
        Nat.lt_of_lt_of_le (some state List.mem_cons_self) (le_slot_count (recordCount state))
      obtain ⟨bounds, ascending⟩ := ih (slot + slotCount (recordCount state)) fun other member =>
        some other (List.mem_cons_of_mem _ member)
      rw [runStartsFrom, List.map_cons, List.sum_cons, List.pairwise_cons, List.forall_mem_cons]
      refine ⟨⟨⟨Nat.le_refl _, by omega⟩, fun start member => ?_⟩,
        fun start member => ?_, ascending⟩
      · have bound := bounds start member
        omega
      · have bound := bounds start member
        omega

theorem length_run_starts (slot : Nat) (states : List State) :
    (runStartsFrom slot states).length = states.length := by
  induction states generalizing slot with
  | nil => rfl
  | cons state states ih => rw [runStartsFrom, List.length_cons, List.length_cons, ih]

theorem run_index_eq (runs : List Run) :
    runIndex runs = (runs.zipIdx.map fun pair => (pair.1.head, pair.2)).foldl
      (fun index entry => index.insert entry.1 entry.2) ∅ := by
  rw [runIndex, List.foldl_map]

/-- What the index knows of a slot is the number of a run that starts there. -/
theorem exists_run_of_index {runs : List Run} {slot : UInt32} {number : Nat}
    (leads : (runIndex runs)[slot]? = some number) :
    ∃ run, runs[number]? = some run ∧ run.head = slot := by
  rw [run_index_eq] at leads
  rcases inserted_entry _ ∅ _ leads with impossible | listed
  · simp at impossible
  · obtain ⟨⟨run, place⟩, member, same⟩ := List.mem_map.mp listed
    obtain ⟨rfl, rfl⟩ := Prod.mk.inj same
    exact ⟨run, List.mem_zipIdx_iff_getElem?.mp member, rfl⟩

theorem exists_index_of_run {runs : List Run} {run : Run} (listed : run ∈ runs) :
    ∃ number, (runIndex runs)[run.head]? = some number := by
  rw [run_index_eq]
  obtain ⟨place, inside, rfl⟩ := List.mem_iff_getElem.mp listed
  exact exists_inserted _ ∅ _ (.inr ⟨place, List.mem_map.mpr
    ⟨(runs[place], place),
      List.mem_zipIdx_iff_getElem?.mpr (List.getElem?_eq_getElem inside), rfl⟩⟩)

theorem distinct_heads {runs : List Run}
    (ascending : (runs.map fun run => run.head.toNat).Pairwise (· < ·)) :
    (runs.map Run.head).Nodup := by
  rw [List.Nodup, List.pairwise_map]
  exact (List.pairwise_map.mp ascending).imp fun before same =>
    Nat.ne_of_lt before (congrArg _ same)

/-- The start of a run leads to the number of its state. -/
theorem run_index_spec {runs : List Run} (distinct : (runs.map Run.head).Nodup) {number : Nat}
    (inside : number < runs.length) : (runIndex runs)[runs[number].head]? = some number := by
  obtain ⟨state, leads⟩ := exists_index_of_run (List.getElem_mem inside)
  obtain ⟨run, read, same⟩ := exists_run_of_index leads
  obtain ⟨within, rfl⟩ := List.getElem?_eq_some_iff.mp read
  have heads : (runs.map Run.head)[state]? = (runs.map Run.head)[number]? := by
    rw [List.getElem?_map, List.getElem?_map, List.getElem?_eq_getElem within,
      List.getElem?_eq_getElem inside]
    exact congrArg some same
  obtain rfl : state = number := (List.getElem?_inj (by simpa using within) distinct).mp heads
  exact leads

end Runs

end MorphLex.Vfst
