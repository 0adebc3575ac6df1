import MorphLex.Proofs.Vfst.Runs

/-!
Loading with every access checked. Bytes and records are taken by their index, and parts
of the input by their bounds. Main statements: what is loaded is what is decoded
(`load_eq_decode`), so that no access goes outside (`load_ne_outside`), for any bytes.
-/

namespace MorphLex.Vfst

/-- How loading can end without a transducer: with a fault that is reported, or at an
access outside the bytes or the records. -/
inductive Halt where
  | fault (fault : Fault)
  | outside
deriving DecidableEq

namespace Checked

variable {Item Value Other : Type}

def demand : Option Item → Except Halt Item
  | some item => .ok item
  | none => .error .outside

/-- The bytes from `start` up to `stop`. -/
def slice (bytes : List UInt8) (start stop : Nat) : Except Halt (List UInt8) :=
  if start ≤ stop ∧ stop ≤ bytes.length then .ok ((bytes.take stop).drop start) else .error .outside

def header (bytes : List UInt8) : Except Halt Header :=
  if bytes.length < Header.size then .error (.fault (.tooShort Header.size bytes.length))
  else do
    let front ← slice bytes 0 Header.size
    let cookies ← slice front 0 Header.magic.length
    if cookies ≠ Header.magic then .error (.fault .badMagic)
    else do
      let flag ← demand front[Header.magic.length]?
      return { weighted := flag == 1 }

/-- The place of the next zero byte, or the end of the bytes. -/
def scan (bytes : List UInt8) (place : Nat) : Except Halt Nat :=
  if place < bytes.length then do
    let byte ← demand bytes[place]?
    if byte = 0 then return place else scan bytes (place + 1)
  else .ok place
termination_by bytes.length - place

/-- Reads `count` texts, the first with the given index, and returns the place behind them. -/
def texts (bytes : List UInt8) : Nat → Nat → Nat → Except Halt (List String × Nat)
  | 0, _, place => .ok ([], place)
  | count + 1, index, place => do
      let stop ← scan bytes place
      if bytes.length ≤ stop then .error (.fault (.symbols .unterminated))
      else do
        let content ← slice bytes place stop
        let text ← (SymbolTable.stringOf index content).mapError .fault
        let (later, behind) ← texts bytes count (index + 1) (stop + 1)
        return (text :: later, behind)

def symbolTable (bytes : List UInt8) (offset : Nat) : Except Halt (SymbolTable × Nat) :=
  if bytes.length < offset + 2 then .error (.fault (.tooShort (offset + 2) bytes.length))
  else do
    let low ← demand bytes[offset]?
    let high ← demand bytes[offset + 1]?
    let (texts, place) ← texts bytes (Bytes.value [low, high]) 0 (offset + 2)
    return (⟨texts.toArray⟩, place)

/-- The offset of the last record of the run at a slot of 32 bits. -/
def lastOffset (table : Array Record) (slot : UInt32) : Except Halt UInt32 := do
  let head ← demand table[slot.toNat]?
  if head.more = Record.overflowMark then do
    let cell ← demand table[slot.toNat + 1]?
    return cell.input + 1
  else return head.more.toUInt32

def runsFrom (table : Array Record) (slot : Nat) : Except Halt (List Run) :=
  if slot < table.size then do
    let head ← demand table[slot]?
    if head.more = Record.overflowMark ∧ table.size ≤ slot + 1 then
      .error (.fault (.table (.missingOverflow slot)))
    else do
      let last ← lastOffset table (.ofNat slot)
      if table.size ≤ slot + last.toNat then .error (.fault (.table (.runPastEnd slot)))
      else do
        let later ← runsFrom table (slot + last.toNat + 1)
        return { head := .ofNat slot, last } :: later
  else .ok []
termination_by table.size - slot

/-- Goes through the offsets of a run; the slot of a record is a 32-bit sum. -/
def decodeRun (table : Array Record) (symbols : SymbolTable) (index : Std.HashMap UInt32 StateId)
    (run : Run) : Except Halt State :=
  (List.range (run.last.toNat + 1)).foldlM (fun state offset =>
    if offset = 1 ∧ 255 ≤ run.last.toNat then return state
    else do
      let record ← demand table[(run.head + .ofNat offset).toNat]?
      (addRecord symbols index state record).mapError .fault) {}

def records (bytes : List UInt8) (offset : Nat) : Except Halt (Array Record) :=
  if bytes.length < offset then .error (.fault (.tooShort offset bytes.length))
  else do
    let rest ← slice bytes offset bytes.length
    let count := rest.length / Record.size
    if count = 0 then .error (.fault (.tooShort (offset + Record.size) bytes.length))
    else do
      let whole ← slice rest 0 (count * Record.size)
      return (Record.decodeMany count whole).toArray

def load (bytes : List UInt8) : Except Halt Transducer := do
  let header ← header bytes
  if !header.weighted then .error (.fault .unweighted)
  else do
    let (symbols, symbolEnd) ← symbolTable bytes Header.size
    let table ← records bytes (symbolEnd + (Bytes.padding Record.size symbolEnd).length)
    let runs ← runsFrom table 0
    let states ← runs.mapM (decodeRun table symbols (runIndex runs))
    return ⟨states.toArray⟩

theorem fold_congr {action other : Other → Value → Except Halt Other} {values : List Value}
    (each : ∀ state, ∀ value ∈ values, action state value = other state value) (state : Other) :
    values.foldlM action state = values.foldlM other state := by
  induction values generalizing state with
  | nil => rfl
  | cons value values ih =>
      rw [List.foldlM_cons, List.foldlM_cons, each state value List.mem_cons_self]
      congr 1
      funext next
      exact ih (fun state value listed => each state value (List.mem_cons_of_mem _ listed)) next

open Result

section Front

variable {bytes : List UInt8}

theorem slice_eq {start stop : Nat} (ordered : start ≤ stop) (inside : stop ≤ bytes.length) :
    slice bytes start stop = .ok ((bytes.take stop).drop start) := if_pos ⟨ordered, inside⟩

theorem demand_byte {place : Nat} (inside : place < bytes.length) :
    demand bytes[place]? = .ok bytes[place] := by
  rw [List.getElem?_eq_getElem inside, demand]

theorem header_eq (bytes : List UInt8) : header bytes = (Header.decode bytes).mapError .fault := by
  rw [header, Header.decode]
  split
  · rfl
  · next enough =>
    have enough : Header.size ≤ bytes.length := Nat.le_of_not_lt enough
    have length : (bytes.take Header.size).length = Header.size := List.length_take_of_le enough
    have flag : Header.magic.length < bytes.length := Nat.lt_of_lt_of_le (by decide) enough
    have cookies :
        (bytes.take Header.size).take Header.magic.length = bytes.take Header.magic.length := by
      rw [List.take_take]
      rfl
    rw [slice_eq (Nat.zero_le _) enough, List.drop_zero, ok_bind,
      slice_eq (Nat.zero_le _) (by rw [length]; decide), List.drop_zero, ok_bind, cookies,
      List.getElem?_take_of_lt (by decide), demand_byte flag]
    split
    · rfl
    · rw [List.getElem?_eq_getElem flag]
      simp [ok_bind, pure, Except.pure, Except.mapError]

/-- Scanning ends at the first zero byte, if there is one. -/
theorem scan_eq {place : Nat} (inside : place ≤ bytes.length) :
    scan bytes place = .ok (place + ((bytes.drop place).takeWhile (· != 0)).length) := by
  fun_induction scan bytes place with
  | case1 place present ih =>
      rw [demand_byte present, ok_bind, List.drop_eq_getElem_cons present]
      split
      · next zero =>
        rw [List.takeWhile_cons_of_neg (by simp [zero])]
        rfl
      · next nonzero =>
        rw [ih present, List.takeWhile_cons_of_pos (by simpa using nonzero), List.length_cons]
        congr 1
        omega
  | case2 place outside =>
      rw [List.drop_eq_nil_of_le (Nat.le_of_not_lt outside)]
      rfl

/-- The texts are those that stand behind the place, and so is the place behind them. -/
theorem texts_eq (count index : Nat) {place : Nat} (inside : place ≤ bytes.length) :
    texts bytes count index place =
      ((SymbolTable.decodeStrings count index (bytes.drop place)).map fun found =>
        (found.1, bytes.length - found.2.length)).mapError .fault := by
  induction count generalizing index place with
  | zero =>
      have length : bytes.length - (bytes.drop place).length = place := by
        rw [List.length_drop]
        omega
      rw [texts, SymbolTable.decodeStrings, Except.map, Except.mapError, length]
  | succ count ih =>
      have parts := List.takeWhile_append_dropWhile (p := (· != 0)) (l := bytes.drop place)
      rw [texts, SymbolTable.decodeStrings, scan_eq inside, ok_bind]
      cases beyond : (bytes.drop place).dropWhile (· != 0) with
      | nil =>
          rw [beyond, List.append_nil] at parts
          rw [if_pos (by rw [parts, List.length_drop]; omega)]
          rfl
      | cons zero rest =>
          rw [beyond] at parts
          have lengths := congrArg List.length parts
          rw [List.length_append, List.length_cons, List.length_drop] at lengths
          generalize (bytes.drop place).takeWhile (· != 0) = front at parts lengths ⊢
          have behind : rest = bytes.drop (place + front.length + 1) := by
            rw [Nat.add_assoc, ← List.drop_drop, ← parts, ← List.drop_drop, List.drop_left,
              List.drop_one, List.tail_cons]
          have content : (bytes.take (place + front.length)).drop place = front := by
            rw [List.drop_take, Nat.add_sub_cancel_left, ← parts, List.take_left]
          rw [if_neg (by omega), slice_eq (by omega) (by omega), ok_bind, content,
            ih (index + 1) (by omega), behind]
          cases SymbolTable.stringOf index front with
          | error fault => rfl
          | ok text =>
              cases later : SymbolTable.decodeStrings count (index + 1)
                (bytes.drop (place + front.length + 1)) with
              | error fault => simp only [Except.mapError, Except.map, bind, Except.bind, later]
              | ok found => simp only [Except.mapError, Except.map, bind, Except.bind, later, pure,
                Except.pure]

theorem symbol_table_eq (bytes : List UInt8) (offset : Nat) :
    symbolTable bytes offset = (SymbolTable.decode bytes offset).mapError .fault := by
  rw [symbolTable, SymbolTable.decode]
  split
  · next short =>
    have few : (bytes.drop offset).length < 2 := by
      rw [List.length_drop]
      omega
    have none : Bytes.split? 2 (bytes.drop offset) = none := by
      generalize bytes.drop offset = rest at few ⊢
      rcases rest with _ | ⟨first, _ | ⟨second, rest⟩⟩
      · rfl
      · rfl
      · rw [List.length_cons, List.length_cons] at few
        omega
    rw [none]
    rfl
  · next enough =>
    have low : offset < bytes.length := by omega
    have high : offset + 1 < bytes.length := by omega
    have split : Bytes.split? 2 (bytes.drop offset) =
      some ([bytes[offset], bytes[offset + 1]], bytes.drop (offset + 2)) := by
      rw [List.drop_eq_getElem_cons low, List.drop_eq_getElem_cons high]
      rfl
    rw [demand_byte low, ok_bind, demand_byte high, ok_bind, texts_eq _ _ (by omega), split]
    simp only
    cases SymbolTable.decodeStrings (Bytes.value [bytes[offset], bytes[offset + 1]]) 0
      (bytes.drop (offset + 2)) <;> rfl

end Front

section Table

theorem split_eq (count : Nat) {bytes : List UInt8} (enough : count ≤ bytes.length) :
    Bytes.split? count bytes = some (bytes.take count, bytes.drop count) :=
  Bytes.split_eq_some_iff.mpr ⟨List.length_take_of_le enough,
    (List.take_append_drop count bytes).symm⟩

/-- What stands behind the records is not looked at. -/
theorem decode_many_take (count : Nat) {bytes : List UInt8}
    (enough : count * Record.size ≤ bytes.length) :
    Record.decodeMany count (bytes.take (count * Record.size)) = Record.decodeMany count bytes ∧
      (Record.decodeMany count bytes).length = count := by
  induction count generalizing bytes with
  | zero => exact ⟨rfl, rfl⟩
  | succ count ih =>
      have size : (count + 1) * Record.size = Record.size + count * Record.size := by
        rw [Nat.add_mul, Nat.one_mul, Nat.add_comm]
      rw [size] at enough ⊢
      have first : Record.size ≤ bytes.length := by omega
      obtain ⟨same, length⟩ := @ih (bytes.drop Record.size) (by rw [List.length_drop]; omega)
      rw [Record.decodeMany, Record.decodeMany, split_eq _ first,
        split_eq _ (by rw [List.length_take]; omega), List.take_take,
        Nat.min_eq_left (Nat.le_add_right _ _), List.drop_take, Nat.add_sub_cancel_left]
      exact ⟨congrArg _ same, congrArg Nat.succ length⟩

theorem records_eq (bytes : List UInt8) (offset : Nat) :
    records bytes offset =
      if bytes.length < offset then .error (.fault (.tooShort offset bytes.length))
      else if (Record.decodeTable (bytes.drop offset)).isEmpty then
        .error (.fault (.tooShort (offset + Record.size) bytes.length))
      else .ok (Record.decodeTable (bytes.drop offset)) := by
  rw [records]
  split
  · rfl
  · next enough =>
    have whole : bytes.take bytes.length = bytes := List.take_length
    rw [slice_eq (Nat.le_of_not_lt enough) (Nat.le_refl _), ok_bind, whole, Record.decodeTable]
    generalize bytes.drop offset = rest
    have fits : rest.length / Record.size * Record.size ≤ rest.length := Nat.div_mul_le_self _ _
    obtain ⟨same, length⟩ := decode_many_take _ fits
    have empty : (Record.decodeMany (rest.length / Record.size) rest).toArray.isEmpty = true ↔
        rest.length / Record.size = 0 := by
      rw [List.isEmpty_toArray, List.isEmpty_iff_length_eq_zero, length]
    simp only [empty]
    split
    · rfl
    · rw [slice_eq (Nat.zero_le _) fits, ok_bind, List.drop_zero, same]
      rfl

end Table

section Runs

variable {table : Array Record} {slot : Nat}

theorem demand_record (inside : slot < table.size) : demand table[slot]? = .ok table[slot] := by
  rw [Array.getElem?_eq_getElem inside, demand]

theorem last_offset_eq (inside : slot < table.size)
    (cell : table[slot].more = Record.overflowMark → slot + 1 < table.size) :
    lastOffset table (.ofNat slot) = .ok (Record.lastOffset table (UInt32.ofNat slot).toNat) := by
  have remainder : (UInt32.ofNat slot).toNat = slot % 2 ^ 32 := UInt32.toNat_ofNat'
  have bound : (UInt32.ofNat slot).toNat ≤ slot := remainder ▸ Nat.mod_le _ _
  have within := Nat.lt_of_le_of_lt bound inside
  rw [lastOffset, demand_record within, ok_bind, Record.lastOffset]
  simp only [← Array.getElem_eq_getD (h := within)]
  split
  · next long =>
    -- A slot that loses digits leaves so many behind it that the next one is there.
    have next : (UInt32.ofNat slot).toNat + 1 < table.size := by
      rcases Nat.lt_or_ge slot (2 ^ 32) with small | large
      · have same := remainder.trans (Nat.mod_eq_of_lt small)
        simp only [same] at long ⊢
        exact cell long
      · have below := Nat.mod_lt slot (show 0 < 2 ^ 32 by decide)
        omega
    rw [demand_record next, ok_bind, ← Array.getElem_eq_getD (h := next)]
    rfl
  · rfl

/-- The first pass is that of the decoder. -/
theorem runs_from_eq (table : Array Record) (slot : Nat) :
    runsFrom table slot = (Vfst.runsFrom table slot).mapError .fault := by
  fun_induction Vfst.runsFrom table slot with
  | case1 slot inside missing =>
      rw [runsFrom, if_pos inside, demand_record inside, ok_bind, if_pos missing]
      rfl
  | case2 slot inside present head last past =>
      have cell := fun long => Nat.lt_of_not_le fun ends => present ⟨long, ends⟩
      rw [runsFrom, if_pos inside, demand_record inside, ok_bind, if_neg present,
        last_offset_eq inside cell, ok_bind, if_pos past]
      rfl
  | case3 slot inside present head last within ih =>
      have cell := fun long => Nat.lt_of_not_le fun ends => present ⟨long, ends⟩
      rw [runsFrom, if_pos inside, demand_record inside, ok_bind, if_neg present,
        last_offset_eq inside cell, ok_bind, if_neg within, ih, Result.map_error_bind]
      rfl
  | case4 slot outside =>
      rw [runsFrom, if_neg outside]
      rfl

end Runs

/-- The second pass is that of the decoder, for runs that the first has found. -/
theorem decode_run_eq {table : Array Record} {symbols : SymbolTable}
    {index : Std.HashMap UInt32 StateId} {slot : Nat} {runs : List Run} {run : Run}
    (found : Vfst.runsFrom table slot = .ok runs) (listed : run ∈ runs) :
    decodeRun table symbols index run =
      (Vfst.decodeRun table symbols index run).mapError .fault := by
  obtain ⟨start, -, head, inside⟩ := exists_start found listed
  rw [decodeRun, Vfst.decodeRun, runRecords, Result.map_error_fold, List.foldlM_map,
    List.foldlM_filter]
  apply fold_congr
  intro state offset listed
  have bound := List.mem_range.mp listed
  -- The sum of a slot and an offset can only get smaller by being cut down.
  have within : (run.head + .ofNat offset).toNat < table.size := by
    rw [head, UInt32.toNat_add, UInt32.toNat_ofNat', UInt32.toNat_ofNat']
    omega
  rw [demand_record within, ok_bind, ← Array.getElem_eq_getD (h := within)]
  by_cases cell : offset = 1 ∧ 255 ≤ run.last.toNat
  · simp [cell]
  · rw [if_neg cell, if_pos]
    simpa [Decidable.imp_iff_not_or] using cell

/-- What is loaded is what is decoded. -/
theorem load_eq_decode (bytes : List UInt8) : load bytes = (decode bytes).mapError .fault := by
  rw [load, decode_eq, Result.map_error_bind, header_eq]
  congr 1
  funext header
  split
  · rfl
  · rw [symbol_table_eq, Result.map_error_bind]
    congr 1
    funext found
    obtain ⟨symbols, symbolEnd⟩ := found
    simp only
    rw [records_eq]
    generalize symbolEnd + (Bytes.padding Record.size symbolEnd).length = offset
    by_cases short : bytes.length < offset
    · rw [if_pos short, if_pos short]
      rfl
    rw [if_neg short, if_neg short]
    generalize Record.decodeTable (bytes.drop offset) = table
    by_cases empty : table.isEmpty = true
    · rw [if_pos empty, if_pos empty]
      rfl
    rw [if_neg empty, if_neg empty, ok_bind, runs_from_eq, Result.map_error_bind]
    cases found : Vfst.runsFrom table 0 with
    | error fault => rfl
    | ok runs =>
        have states : runs.mapM (decodeRun table symbols (runIndex runs)) =
            (runs.mapM (Vfst.decodeRun table symbols (runIndex runs))).mapError .fault := by
          rw [Result.map_error_map_list]
          exact Result.map_congr fun run listed => decode_run_eq found listed
        rw [Except.mapError, ok_bind, states, ok_bind, Result.map_error_bind]
        rfl

theorem load_eq_ok_iff {bytes : List UInt8} {t : Transducer} :
    load bytes = .ok t ↔ decode bytes = .ok t := by
  rw [load_eq_decode, Result.map_error_eq_ok_iff]

/-- Whatever the bytes are, no access goes outside them or outside the records. -/
theorem load_ne_outside (bytes : List UInt8) : load bytes ≠ .error .outside := by
  rw [load_eq_decode]
  cases decode bytes <;> exact nofun

end Checked

end MorphLex.Vfst
