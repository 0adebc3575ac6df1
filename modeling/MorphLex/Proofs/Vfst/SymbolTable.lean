import Mathlib.Data.List.Forall2
import MorphLex.Proofs.Result
import MorphLex.Proofs.Transducer.Symbols
import MorphLex.Vfst.SymbolTable

/-!
The symbol table is read back as it was written, and indices and symbols find each
other. A text is written with its bytes and a zero behind them, so it must not
hold a zero itself.
-/

namespace MorphLex

section Bytes

theorem byte_array_to_list (bytes : ByteArray) : bytes.toList = bytes.data.toList := by
  have loop (place : Nat) (front : List UInt8) :
      ByteArray.toList.loop bytes place front = front.reverse ++ bytes.data.toList.drop place := by
    fun_induction ByteArray.toList.loop bytes place front with
    | case1 place front inside ih =>
        have present : place < bytes.data.toList.length := inside
        rw [ih, List.reverse_cons, List.append_assoc, List.singleton_append,
          List.drop_eq_getElem_cons present]
        simp [ByteArray.get!, getElem!_pos bytes.data place inside]
    | case2 place front outside =>
        rw [List.drop_eq_nil_of_le (Nat.le_of_not_lt outside), List.append_nil]
  rw [ByteArray.toList, loop]
  rfl

theorem from_utf8_to_byte_array (text : String) :
    String.fromUTF8? ⟨text.toByteArray.toList.toArray⟩ = some text := by
  rw [byte_array_to_list, Array.toArray_toList, String.fromUTF8?, dif_pos text.isValidUTF8]
  rfl

/-- Only the zero character has a zero byte. -/
theorem zero_mem_utf8_char {character : Char} (zero : 0 ∈ String.utf8EncodeChar character) :
    character = '\x00' := by
  have byte {number : Nat} (same : 0 = UInt8.ofNat number) : number % 256 = 0 := by
    have numbers := congrArg UInt8.toNat same
    simpa using numbers.symm
  have code : character.val.toNat = 0 := by
    rw [String.utf8EncodeChar] at zero
    split at zero
    · have first := byte (List.mem_singleton.mp zero)
      omega
    · split at zero
      · simp only [List.mem_cons, List.not_mem_nil, or_false] at zero
        rcases zero with same | same <;> have bits := byte same <;> omega
      · split at zero
        · simp only [List.mem_cons, List.not_mem_nil, or_false] at zero
          rcases zero with same | same | same <;> have bits := byte same <;> omega
        · simp only [List.mem_cons, List.not_mem_nil, or_false] at zero
          rcases zero with same | same | same | same <;> have bits := byte same <;> omega
  apply Char.ext
  apply UInt32.toNat_inj.mp
  exact code

theorem zero_not_mem_bytes {text : String} (plain : '\x00' ∉ text.toList) :
    0 ∉ text.toByteArray.toList := by
  rw [byte_array_to_list, ← String.utf8Encode_toList, List.utf8Encode, List.toList_data_toByteArray,
    List.mem_flatMap]
  rintro ⟨character, member, zero⟩
  exact plain (zero_mem_utf8_char zero ▸ member)

end Bytes

section Insertion

variable {Key Value : Type} [BEq Key] [Hashable Key] [LawfulBEq Key]
variable (entries : List (Key × Value)) (index : Std.HashMap Key Value) (key : Key)

theorem inserted_entry {value : Value}
    (found : (entries.foldl (fun index entry => index.insert entry.1 entry.2) index)[key]? =
      some value) : index[key]? = some value ∨ (key, value) ∈ entries := by
  induction entries generalizing index with
  | nil => exact .inl found
  | cons entry entries ih =>
      rcases ih _ found with before | listed
      · rw [Std.HashMap.getElem?_insert] at before
        split at before
        · next same =>
          obtain rfl := eq_of_beq same
          obtain rfl := Option.some.inj before
          exact .inr List.mem_cons_self
        · exact .inl before
      · exact .inr (List.mem_cons_of_mem _ listed)

theorem exists_inserted
    (known : (∃ value, index[key]? = some value) ∨ ∃ value, (key, value) ∈ entries) :
    ∃ value, (entries.foldl (fun index entry => index.insert entry.1 entry.2) index)[key]? =
      some value := by
  induction entries generalizing index with
  | nil =>
      rcases known with before | ⟨value, listed⟩
      · exact before
      · simp at listed
  | cons entry entries ih =>
      apply ih
      rcases known with ⟨value, before⟩ | ⟨value, listed⟩
      · by_cases same : entry.1 = key
        · exact .inl ⟨entry.2, by rw [← same, Std.HashMap.getElem?_insert_self]⟩
        · exact .inl
            ⟨value, by rw [Std.HashMap.getElem?_insert, if_neg (by simpa using same), before]⟩
      · rcases List.mem_cons.mp listed with rfl | later
        · exact .inl ⟨value, by rw [Std.HashMap.getElem?_insert_self]⟩
        · exact .inr ⟨value, later⟩

end Insertion

namespace Vfst.SymbolTable

/-- Texts that can stand behind epsilon. -/
def Writable (text : String) : Prop := text ≠ "" ∧ '\x00' ∉ text.toList

theorem take_until_zero (bytes rest : List UInt8) (plain : 0 ∉ bytes) :
    (bytes ++ 0 :: rest).takeWhile (· != 0) = bytes ∧ (bytes ++ 0 :: rest).dropWhile
    (· != 0) = 0 :: rest := by
  have nonzero : ∀ byte ∈ bytes, (byte != 0) = true := by
    intro byte member
    rw [bne_iff_ne]
    rintro rfl
    exact plain member
  rw [List.takeWhile_append_of_pos nonzero, List.dropWhile_append_of_pos nonzero]
  simp

theorem string_of_bytes {text : String} (writable : Writable text) {index : Nat}
    (behind : 0 < index) : stringOf index text.toByteArray.toList = .ok text := by
  have full : text.isEmpty = false := by
    rw [Bool.eq_false_iff, Ne, String.isEmpty_iff]
    exact writable.1
  rw [stringOf, if_neg (Nat.ne_of_gt behind), from_utf8_to_byte_array]
  simp [full]

theorem decode_strings_encode (texts : List String) (index : Nat) (behind : 0 < index)
    (writable : ∀ text ∈ texts, Writable text) (rest : List UInt8) :
    decodeStrings texts.length index (encodeStrings texts ++ rest) = .ok (texts, rest) := by
  induction texts generalizing index with
  | nil => rfl
  | cons text texts ih =>
      have first := writable text List.mem_cons_self
      obtain ⟨taken, left⟩ := take_until_zero text.toByteArray.toList (encodeStrings texts ++ rest)
        (zero_not_mem_bytes first.2)
      have shape : encodeStrings (text :: texts) ++ rest =
          text.toByteArray.toList ++ 0 :: (encodeStrings texts ++ rest) := by
        simp [encodeStrings]
      rw [shape, List.length_cons, decodeStrings, left]
      simp only [taken, string_of_bytes first behind]
      have later := ih (index + 1) (Nat.lt_succ_of_lt behind) fun text member =>
        writable text (List.mem_cons_of_mem _ member)
      simp [later, bind, Except.bind, pure, Except.pure]

/-- A table that can be written is read back, with the offset behind it. -/
theorem decode_encode {texts : List String} (writable : ∀ text ∈ texts, Writable text)
    {written : List UInt8} (encoded : encode ⟨("" :: texts).toArray⟩ = .ok written)
    (front rest : List UInt8) :
    decode (front ++ written ++ rest) front.length =
      .ok (⟨("" :: texts).toArray⟩, front.length + written.length) := by
  rw [encode] at encoded
  split at encoded
  · simp at encoded
  · next few =>
    obtain rfl := Except.ok.inj encoded
    have count : Bytes.value (Bytes.littleEndian 2 (texts.length + 1)) = texts.length + 1 := by
      rw [Bytes.value_little_endian, Nat.mod_eq_of_lt]
      simp only [SymbolTable.size, List.size_toArray, List.length_cons, maxSize] at few
      omega
    have split (rest : List UInt8) :
        Bytes.split? 2 (Bytes.littleEndian 2 (texts.length + 1) ++ rest) =
        some (Bytes.littleEndian 2 (texts.length + 1), rest) := by
      have split := Bytes.split_append (Bytes.littleEndian 2 (texts.length + 1)) rest
      rwa [Bytes.length_little_endian] at split
    have strings : decodeStrings (texts.length + 1) 0 (encodeStrings ("" :: texts) ++ rest) =
        .ok ("" :: texts, rest) := by
      have shape : encodeStrings ("" :: texts) ++ rest = 0 :: (encodeStrings texts ++ rest) := by
        simp [encodeStrings]
      have later := decode_strings_encode texts 1 Nat.one_pos writable rest
      rw [shape, decodeStrings]
      simp [stringOf, later, bind, Except.bind, pure, Except.pure]
    rw [decode, List.append_assoc, List.drop_left]
    simp only [SymbolTable.size, List.size_toArray, List.length_cons, List.append_assoc, split,
      count, strings, bind, Except.bind, pure, Except.pure, List.length_append]
    congr 2
    omega

section Index

variable {texts : List String} {symbol : Symbol}

theorem index_eq_fold (texts : List String) : (⟨("" :: texts).toArray⟩ : SymbolTable).index =
    (texts.zipIdx 1).foldl (fun index entry => index.insert entry.1 entry.2)
      ((∅ : Std.HashMap Symbol Nat).insert Symbol.epsilon 0) := rfl

/-- What the index knows of a symbol is a place where the symbol stands. -/
theorem symbol_of_found {number : Nat}
    (found : (⟨("" :: texts).toArray⟩ : SymbolTable).index[symbol]? = some number) :
    number < texts.length + 1 ∧
      (⟨("" :: texts).toArray⟩ : SymbolTable).symbol? number = some symbol := by
  rw [index_eq_fold] at found
  rcases inserted_entry _ _ _ found with start | listed
  · rw [Std.HashMap.getElem?_insert] at start
    split at start
    · next same =>
      obtain rfl := eq_of_beq same
      obtain rfl := Option.some.inj start
      exact ⟨Nat.zero_lt_succ _, rfl⟩
    · simp at start
  · obtain ⟨behind, place⟩ := List.mem_zipIdx_iff_le_and_getElem?_sub.mp listed
    obtain ⟨inside, same⟩ := List.getElem?_eq_some_iff.mp place
    simp only at behind inside same
    refine ⟨by omega, ?_⟩
    obtain ⟨earlier, rfl⟩ : ∃ earlier, number = earlier + 1 := ⟨number - 1, by omega⟩
    rw [symbol?, if_neg (Nat.succ_ne_zero _)]
    simpa using place

theorem exists_found (known : symbol = Symbol.epsilon ∨ symbol ∈ texts) :
    ∃ number, (⟨("" :: texts).toArray⟩ : SymbolTable).index[symbol]? = some number := by
  rw [index_eq_fold]
  apply exists_inserted
  rcases known with rfl | member
  · exact .inl ⟨0, by rw [Std.HashMap.getElem?_insert_self]⟩
  · obtain ⟨place, inside, rfl⟩ := List.mem_iff_getElem.mp member
    exact .inr ⟨place + 1, List.mem_zipIdx_iff_le_and_getElem?_sub.mpr
      ⟨Nat.le_add_left 1 place, List.getElem?_eq_getElem inside⟩⟩

/-- Where no text occurs twice and none spells epsilon, symbols and indices determine each other. -/
theorem index_of_eq_some_iff (distinct : texts.Nodup) (plain : Symbol.epsilon ∉ texts)
    (symbol : Symbol) (number : Nat) :
    (⟨("" :: texts).toArray⟩ : SymbolTable).indexOf? symbol = some number ↔
      (⟨("" :: texts).toArray⟩ : SymbolTable).symbol? number = some symbol := by
  have text_of {place : Nat} {symbol : Symbol}
      (spelled : (⟨("" :: texts).toArray⟩ : SymbolTable).symbol? (place + 1) = some symbol) :
      texts[place]? = some symbol := by
    rw [symbol?, if_neg (Nat.succ_ne_zero _)] at spelled
    simpa using spelled
  refine ⟨fun found => (symbol_of_found found).2, fun spelled => ?_⟩
  have known : symbol = Symbol.epsilon ∨ symbol ∈ texts := by
    cases number with
    | zero => exact .inl (Option.some.inj spelled).symm
    | succ place => exact .inr (List.mem_of_getElem? (text_of spelled))
  obtain ⟨other, found⟩ := exists_found known
  have same := (symbol_of_found found).2
  -- Both numbers are places of the symbol, and it has only one.
  suffices other = number by rwa [indexOf?, ← this]
  cases number with
  | zero =>
      obtain rfl := Option.some.inj spelled
      cases other with
      | zero => rfl
      | succ place => exact absurd (List.mem_of_getElem? (text_of same)) plain
  | succ place =>
      cases other with
      | zero =>
          obtain rfl := Option.some.inj same
          exact absurd (List.mem_of_getElem? (text_of spelled)) plain
      | succ other =>
          have inside := (List.getElem?_eq_some_iff.mp (text_of same)).1
          exact congrArg (· + 1)
            ((List.getElem?_inj inside distinct).mp ((text_of same).trans (text_of spelled).symm))

end Index

theorem size_le_of_encode {table : SymbolTable} {bytes : List UInt8}
    (written : table.encode = .ok bytes) : table.size ≤ maxSize := by
  rw [encode] at written
  split at written
  · simp at written
  · next most => exact Nat.le_of_not_lt most

theorem size_of_transducer (t : Transducer) : (ofTransducer t).size = t.symbols.length + 1 := by
  have parts := List.length_eq_length_filter_add (l := t.symbols) Symbol.isMultichar
  simp only [ofTransducer, SymbolTable.size, List.size_toArray, List.cons_append, List.length_cons,
    List.length_append]
  omega

/-- Behind epsilon, the table of a transducer holds its symbols. -/
theorem texts_of_transducer (t : Transducer) :
    ∃ texts, ofTransducer t = ⟨("" :: texts).toArray⟩ ∧ texts.Perm t.symbols := by
  refine ⟨_, rfl, List.perm_append_comm.trans ?_⟩
  exact List.filter_append_perm Symbol.isMultichar t.symbols

section Labels

variable (t : Transducer) {state : StateId} {arc : Arc} (leaves : arc ∈ t.arcs state)
    {symbol : Symbol}
  (shown : symbol = arc.input ∨ symbol = arc.output)

include leaves shown

/-- Every label of the transducer is found in its table. -/
theorem exists_index : ∃ number, (ofTransducer t).indexOf? symbol = some number := by
  obtain ⟨texts, same, listed⟩ := texts_of_transducer t
  rw [same]
  apply exists_found
  by_cases silent : symbol.isEpsilon = true
  · exact .inl (eq_of_beq silent)
  · exact .inr (listed.mem_iff.mpr
      ((mem_symbols_iff t symbol).mpr ⟨Bool.eq_false_iff.mpr silent, state, arc, leaves, shown⟩))

theorem symbol_of_transducer_index :
    (ofTransducer t).index.getD symbol 0 < (ofTransducer t).size ∧
      (ofTransducer t).symbol? ((ofTransducer t).index.getD symbol 0) = some symbol := by
  obtain ⟨texts, same, -⟩ := texts_of_transducer t
  obtain ⟨number, found⟩ := exists_index t leaves shown
  rw [same, indexOf?] at found
  rw [same, Std.HashMap.getD_eq_getD_getElem?, found, Option.getD_some]
  exact symbol_of_found found

/-- Index 0 is that of epsilon alone, for no text of the table spells epsilon. -/
theorem index_eq_zero_iff : (ofTransducer t).index.getD symbol 0 = 0 ↔ symbol.isEpsilon = true := by
  have spelled := (symbol_of_transducer_index t leaves shown).2
  constructor
  · intro least
    rw [least] at spelled
    obtain rfl := Option.some.inj spelled
    exact beq_self_eq_true _
  · intro silent
    by_contra behind
    obtain ⟨texts, same, listed⟩ := texts_of_transducer t
    obtain ⟨place, number⟩ := Nat.exists_eq_succ_of_ne_zero behind
    rw [symbol?, if_neg behind, number, same, List.getElem?_toArray,
      List.getElem?_cons_succ] at spelled
    have plain :=
      ((mem_symbols_iff t symbol).mp (listed.mem_iff.mp (List.mem_of_getElem? spelled))).1
    rw [silent] at plain
    exact nomatch plain

end Labels

end Vfst.SymbolTable

end MorphLex
