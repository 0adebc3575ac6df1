import MorphLex.Proofs.Vfst.Table

/-!
The runs that the reader finds in a table, whatever bytes it was made of. The reader goes
through the table run by run, and keeps the slot of each in 32 bits. As long as no slot
loses digits by that, the runs fill the table, and every slot belongs to one of them.
-/

namespace MorphLex.Vfst

/-- The slots of a run, its overflow cell included. -/
def Run.slots (run : Run) : List Nat := List.range' run.head.toNat (run.last.toNat + 1)

variable {table : Array Record} {slot : Nat} {run : Run} {runs later : List Run}

theorem runs_from_nil (found : runsFrom table slot = .ok []) : table.size ≤ slot := by
  rw [runsFrom] at found
  split at found
  · split at found
    · cases found
    · simp only at found
      split at found
      · cases found
      · obtain ⟨later, -, whole⟩ := Result.bind_eq_ok_iff.mp found
        cases Result.pure_eq_ok_iff.mp whole
  · next outside => exact Nat.le_of_not_lt outside

/-- A run starts where the one before it has ended, and ends within the table. -/
theorem runs_from_cons (found : runsFrom table slot = .ok (run :: later)) :
    run = { head := .ofNat slot, last := Record.lastOffset table (UInt32.ofNat slot).toNat } ∧
      slot + run.last.toNat < table.size ∧
      runsFrom table (slot + run.last.toNat + 1) = .ok later := by
  rw [runsFrom] at found
  split at found
  · split at found
    · cases found
    · simp only at found
      split at found
      · cases found
      · next inside =>
        obtain ⟨rest, next, whole⟩ := Result.bind_eq_ok_iff.mp found
        obtain ⟨rfl, rfl⟩ := List.cons.inj (Result.pure_eq_ok_iff.mp whole)
        exact ⟨rfl, Nat.lt_of_not_le inside, next⟩
  · cases found

/-- Where a run was found, before its slot was cut down to 32 bits. -/
theorem exists_start (found : runsFrom table slot = .ok runs) (listed : run ∈ runs) :
    ∃ start, slot ≤ start ∧ run.head = .ofNat start ∧ start + run.last.toNat < table.size := by
  induction runs generalizing slot with
  | nil => simp at listed
  | cons first later ih =>
      obtain ⟨start, inside, next⟩ := runs_from_cons found
      rcases List.mem_cons.mp listed with rfl | behind
      · exact ⟨slot, Nat.le_refl slot, congrArg Run.head start, inside⟩
      · obtain ⟨place, further, head, within⟩ := ih next behind
        exact ⟨place, by omega, head, within⟩

section Small

variable (small : table.size ≤ 2 ^ 32)

include small

/-- No digits are lost. -/
theorem head_of_cons (found : runsFrom table slot = .ok (run :: later)) :
    run.head.toNat = slot := by
  obtain ⟨start, inside, -⟩ := runs_from_cons found
  rw [congrArg Run.head start]
  exact UInt32.toNat_ofNat_of_lt' (by simp only [UInt32.size]; omega)

/-- Without gap or overlap the runs take up the rest of the table. -/
theorem runs_partition (within : slot ≤ table.size) (found : runsFrom table slot = .ok runs) :
    runs.flatMap Run.slots = List.range' slot (table.size - slot) := by
  induction runs generalizing slot with
  | nil =>
      have ended := runs_from_nil found
      rw [Nat.sub_eq_zero_of_le ended]
      rfl
  | cons run later ih =>
      obtain ⟨-, inside, next⟩ := runs_from_cons found
      have behind : slot + run.last.toNat + 1 ≤ table.size := inside
      rw [List.flatMap_cons, ih behind next, Run.slots, head_of_cons small found, Nat.add_assoc,
        List.range'_append_1]
      congr 1
      omega

theorem run_inside (found : runsFrom table slot = .ok runs) (listed : run ∈ runs) :
    slot ≤ run.head.toNat ∧ run.head.toNat + run.last.toNat < table.size := by
  obtain ⟨start, behind, head, inside⟩ := exists_start found listed
  have same : run.head.toNat = start := by
    rw [head]
    exact UInt32.toNat_ofNat_of_lt' (by simp only [UInt32.size]; omega)
  rw [same]
  exact ⟨behind, inside⟩

/-- The records that are read of a run lie in its slots. -/
theorem exists_slot_of_record (inside : run.head.toNat + run.last.toNat < table.size)
    {record : Record} (listed : record ∈ runRecords table run) :
    ∃ slot ∈ run.slots, table[slot]? = some record := by
  obtain ⟨offset, member, rfl⟩ := List.mem_map.mp listed
  have bound := List.mem_range.mp (List.mem_filter.mp member).1
  refine ⟨run.head.toNat + offset, ?_, ?_⟩
  · rw [Run.slots, List.mem_range'_1]
    omega
  · rw [to_nat_add_offset (by omega), Array.getElem?_eq_getElem (by omega),
      Array.getElem_eq_getD default]

end Small

/-- Decoding, one step behind the other. -/
theorem decode_eq (bytes : List UInt8) : decode bytes = do
    let header ← Header.decode bytes
    if !header.weighted then .error .unweighted
    else do
      let (symbols, symbolEnd) ← SymbolTable.decode bytes Header.size
      let offset := symbolEnd + (Bytes.padding Record.size symbolEnd).length
      if bytes.length < offset then .error (.tooShort offset bytes.length)
      else if (Record.decodeTable (bytes.drop offset)).isEmpty then
        .error (.tooShort (offset + Record.size) bytes.length)
      else do
        let runs ← runsFrom (Record.decodeTable (bytes.drop offset)) 0
        let states ← runs.mapM
          (decodeRun (Record.decodeTable (bytes.drop offset)) symbols (runIndex runs))
        return ⟨states.toArray⟩ := rfl

/-- A file up to its table: the header, the symbols, and the records. -/
structure Opened (bytes : List UInt8) (symbols : SymbolTable) (table : Array Record) : Prop where
  header : Header.decode bytes = .ok { weighted := true }
  front : ∃ symbolEnd, SymbolTable.decode bytes Header.size = .ok (symbols, symbolEnd) ∧
    symbolEnd + (Bytes.padding Record.size symbolEnd).length ≤ bytes.length ∧
    table = Record.decodeTable
      (bytes.drop (symbolEnd + (Bytes.padding Record.size symbolEnd).length))
  full : table.isEmpty = false

theorem Opened.unique {bytes : List UInt8} {symbols others : SymbolTable} {another : Array Record}
    (opened : Opened bytes symbols table) (again : Opened bytes others another) :
    symbols = others ∧ table = another := by
  obtain ⟨symbolEnd, front, -, rfl⟩ := opened.front
  obtain ⟨otherEnd, same, -, rfl⟩ := again.front
  obtain ⟨rfl, rfl⟩ := Prod.mk.inj (Except.ok.inj (front.symm.trans same))
  exact ⟨rfl, rfl⟩

theorem Opened.decode_eq {bytes : List UInt8} {symbols : SymbolTable}
    (opened : Opened bytes symbols table) :
    decode bytes = do
      let runs ← runsFrom table 0
      let states ← runs.mapM (decodeRun table symbols (runIndex runs))
      return ⟨states.toArray⟩ := by
  obtain ⟨symbolEnd, front, inside, rfl⟩ := opened.front
  rw [Vfst.decode_eq, opened.header]
  simp only [bind, Except.bind, front, Bool.not_true, Bool.false_eq_true, if_false,
    Nat.not_lt.mpr inside, opened.full]

end MorphLex.Vfst
