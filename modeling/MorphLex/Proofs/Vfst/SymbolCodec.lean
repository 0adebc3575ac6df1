import Mathlib.Data.Set.Image
import MorphLex.Proofs.Vfst.SymbolTable

/-!
Symbol tables and their bytes. The table of a transducer lists the characters before the
longer symbols, each in ascending order, and in it symbols and indices determine each other.
What is written is read back wherever it stands, and what is read was written like this.
-/

namespace MorphLex

namespace Vfst.SymbolTable

open Result

section Reading

theorem bytes_of_string {index : Nat} {bytes : List UInt8} {text : String}
    (read : stringOf index bytes = .ok text) : text.toByteArray.toList = bytes := by
  rw [stringOf] at read
  split at read
  · split at read
    · next bare =>
      obtain rfl := Except.ok.inj read
      rw [List.isEmpty_iff.mp bare, byte_array_to_list]
      rfl
    · cases read
  · split at read
    · cases read
    · next spelled valid =>
      split at read
      · cases read
      · obtain rfl := Except.ok.inj read
        rw [String.fromUTF8?] at valid
        split at valid
        · obtain rfl := Option.some.inj valid
          rw [byte_array_to_list]
          rfl
        · cases valid

/-- The texts that are read have the bytes up to the place behind them. -/
theorem encode_strings_of_decode {count index : Nat} {bytes rest : List UInt8} {texts : List String}
    (read : decodeStrings count index bytes = .ok (texts, rest)) :
    texts.length = count ∧ bytes = encodeStrings texts ++ rest := by
  induction count generalizing index bytes texts with
  | zero =>
      obtain ⟨rfl, rfl⟩ := Prod.mk.inj (Except.ok.inj read)
      exact ⟨rfl, rfl⟩
  | succ count ih =>
      have parts := List.takeWhile_append_dropWhile (p := (· != 0)) (l := bytes)
      rw [decodeStrings] at read
      split at read
      · cases read
      · next zero behind found =>
        obtain ⟨text, first, read⟩ := bind_eq_ok_iff.mp read
        obtain ⟨⟨later, rest⟩, remaining, same⟩ := bind_eq_ok_iff.mp read
        obtain ⟨rfl, rfl⟩ := Prod.mk.inj (pure_eq_ok_iff.mp same)
        obtain ⟨length, rfl⟩ := ih remaining
        have ends : zero = 0 := by
          have stops :=
            List.head_dropWhile_not (· != 0) (l := bytes)
              (by rw [found]; exact List.cons_ne_nil _ _)
          simpa [found] using stops
        refine ⟨by rw [List.length_cons, length], ?_⟩
        rw [← parts, found, ends, ← bytes_of_string first]
        simp [encodeStrings]

/-- Writing the table that was read gives the bytes that it was read from. -/
theorem encode_of_decode {bytes : List UInt8} {offset last : Nat} {table : SymbolTable}
    (read : decode bytes offset = .ok (table, last)) :
    offset ≤ last ∧ last ≤ bytes.length ∧
      table.encode = .ok ((bytes.drop offset).take (last - offset)) := by
  rw [decode] at read
  split at read
  · cases read
  · next count behind split =>
    obtain ⟨⟨texts, rest⟩, strings, same⟩ := bind_eq_ok_iff.mp read
    obtain ⟨rfl, rfl⟩ := Prod.mk.inj (pure_eq_ok_iff.mp same)
    obtain ⟨two, shown⟩ := Bytes.split_eq_some_iff.mp split
    obtain ⟨length, rfl⟩ := encode_strings_of_decode strings
    have bound := Bytes.value_lt count
    have lengths := congrArg List.length shown
    simp only [List.length_drop, List.length_append, two] at lengths
    rw [two] at bound
    have most : maxSize = 65535 := rfl
    have written : (⟨texts.toArray⟩ : SymbolTable).encode = .ok (count ++ encodeStrings texts) := by
      rw [encode, SymbolTable.size, List.size_toArray, length, if_neg (by omega)]
      have digits := Bytes.little_endian_value count
      rw [two] at digits
      rw [digits]
    refine ⟨by omega, by omega, ?_⟩
    have extent : bytes.length - rest.length - offset = (count ++ encodeStrings texts).length := by
      rw [List.length_append, two]
      omega
    rw [written, shown, extent, ← List.append_assoc, List.take_left]

end Reading

section Listing

/-- The table lists epsilon, the characters in ascending order, then the longer symbols in
ascending order, and it knows where these begin. -/
structure Listing (t : Transducer) (table : SymbolTable) (letters : List Char)
    (longer : List Symbol) : Prop where
  strings : table.strings.toList = "" :: (letters.map Symbol.ofChar ++ longer)
  letters_ascend : letters.Pairwise (· < ·)
  longer_ascend : longer.Pairwise (· < ·)
  long : ∀ symbol ∈ longer, 1 < symbol.toList.length
  complete : ∀ symbol, symbol ∈ letters.map Symbol.ofChar ++ longer ↔ symbol ∈ t.usedSymbols
  first_multichar : table.firstMultichar = letters.length + 1

theorem of_char_lt_iff (first second : Char) :
    Symbol.ofChar first < Symbol.ofChar second ↔ first < second := by
  rw [String.lt_iff, Symbol.to_list_of_char, Symbol.to_list_of_char, List.cons_lt_cons_iff]
  simp

theorem first_multichar_eq {letters : List Char} {longer : List Symbol}
    (long : ∀ symbol ∈ longer, symbol.isMultichar = true) :
    (⟨("" :: (letters.map Symbol.ofChar ++ longer)).toArray⟩ : SymbolTable).firstMultichar =
      letters.length + 1 := by
  have single (character : Char) : (Symbol.ofChar character).isMultichar = false := by
    simp [Symbol.isMultichar]
  have bare : Symbol.isMultichar "" = false := by decide
  rw [firstMultichar, List.findIdx_toArray, List.findIdx_cons, bare, cond_false]
  induction letters with
  | nil =>
      cases longer with
      | nil => rfl
      | cons symbol longer => simp [List.findIdx_cons, long symbol List.mem_cons_self]
  | cons character letters ih =>
      rw [List.map_cons, List.cons_append, List.findIdx_cons, single, cond_false, ih,
        List.length_cons]

theorem exists_listing {t : Transducer} (some : ∀ symbol ∈ t.usedSymbols, symbol ≠ "") :
    ∃ letters longer, Listing t (ofTransducer t) letters longer := by
  have long_iff {symbol : Symbol} (listed : symbol ∈ t.symbols) :
      symbol.isMultichar = true ↔ 1 < symbol.toList.length :=
    Symbol.is_multichar_iff ((t.mem_symbols_iff_used symbol).mp listed).1
  obtain ⟨letters, same⟩ : t.symbols.filter (fun symbol => !Symbol.isMultichar symbol) ∈
    Set.range (List.map Symbol.ofChar) := by
    rw [Set.range_list_map]
    intro symbol member
    obtain ⟨listed, short⟩ := List.mem_filter.mp member
    rw [Bool.not_eq_true', ← Bool.not_eq_true, long_iff listed] at short
    have full : symbol.toList ≠ [] := fun bare =>
      some symbol ((t.mem_symbols_iff_used symbol).mp listed) (String.toList_eq_nil_iff.mp bare)
    have positive := List.length_pos_iff.mpr full
    obtain ⟨character, alone⟩ := List.length_eq_one_iff.mp (show symbol.toList.length = 1 by omega)
    exact ⟨character, by rw [← String.toList_inj, Symbol.to_list_of_char, alone]⟩
  have table : ofTransducer t =
    ⟨("" :: (letters.map Symbol.ofChar ++ t.symbols.filter Symbol.isMultichar)).toArray⟩ := by
    rw [same]
    rfl
  refine ⟨letters,
    t.symbols.filter Symbol.isMultichar, by rw [table], ?_, t.sorted_symbols.filter _, ?_, ?_, ?_⟩
  · have sorted := t.sorted_symbols.filter fun symbol => !Symbol.isMultichar symbol
    rw [← same, List.pairwise_map] at sorted
    exact sorted.imp (of_char_lt_iff _ _).mp
  · intro symbol member
    obtain ⟨listed, long⟩ := List.mem_filter.mp member
    exact (long_iff listed).mp long
  · intro symbol
    rw [same, ← t.mem_symbols_iff_used, List.mem_append, List.mem_filter, List.mem_filter]
    cases Symbol.isMultichar symbol <;> simp
  · rw [table]
    exact first_multichar_eq fun symbol member => (List.mem_filter.mp member).2

end Listing

/-- The table of a transducer is in order, symbols and indices find each other in it, and it is
read back as it was written from wherever it stands. Any bytes that are read as a table are
those that are written for the table. -/
theorem symbol_table_inverse :
    (∀ t : Transducer, (∀ symbol ∈ t.usedSymbols, symbol ≠ "" ∧ '\x00' ∉ symbol.toList) →
      t.usedSymbols.ncard ≤ 65534 →
      (∃ letters longer, Listing t (ofTransducer t) letters longer) ∧
      (∀ symbol number, (ofTransducer t).indexOf? symbol = some number ↔
        (ofTransducer t).symbol? number = some symbol) ∧
      ∃ written, (ofTransducer t).encode = .ok written ∧ ∀ front rest,
        decode (front ++ written ++ rest) front.length =
          .ok (ofTransducer t, (front ++ written).length)) ∧
    ∀ bytes offset table last, decode bytes offset = .ok (table, last) →
      offset ≤ last ∧ last ≤ bytes.length ∧
      table.encode = .ok ((bytes.drop offset).take (last - offset)) := by
  refine ⟨fun t writable few => ?_, fun bytes offset table last read => encode_of_decode read⟩
  obtain ⟨texts, same, listed⟩ := texts_of_transducer t
  have used {text : String} (member : text ∈ texts) : text ∈ t.usedSymbols :=
    (t.mem_symbols_iff_used text).mp (listed.mem_iff.mp member)
  have fits : ¬maxSize < (ofTransducer t).size := by
    rw [size_of_transducer, ← t.ncard_used_symbols, show maxSize = 65535 by rfl]
    omega
  have encoded : (ofTransducer t).encode =
      .ok (Bytes.littleEndian 2 (ofTransducer t).size ++
        encodeStrings (ofTransducer t).strings.toList) := if_neg fits
  refine ⟨exists_listing fun symbol member => (writable symbol member).1, ?_, _, encoded,
    fun front rest => ?_⟩
  · rw [same]
    exact index_of_eq_some_iff (listed.nodup_iff.mpr t.nodup_symbols) fun member =>
      (used member).1 rfl
  · rw [List.length_append]
    rw [same] at encoded ⊢
    exact decode_encode (fun text member => writable text (used member)) encoded front rest

/-- A character of two bytes, another letter and a tag. -/
def tagged : Transducer :=
  ⟨#[{ arcs := #[⟨"<n>", "b", 0, 0.0⟩, ⟨"ä", Symbol.epsilon, 0, 0.0⟩], final := some 0.0 }]⟩

theorem symbol_table_inverse_of_tagged :
    (∃ letters longer, Listing tagged (ofTransducer tagged) letters longer) ∧
      (ofTransducer tagged).indexOf? Symbol.epsilon = some 0 ∧
        ∃ written, (ofTransducer tagged).encode = .ok written ∧
        decode ([7] ++ written ++ [0, 9]) 1 = .ok (ofTransducer tagged, ([7] ++ written).length) ∧
        (ofTransducer tagged).encode =
          .ok ((([7] ++ written ++ [0, 9]).drop 1).take (([7] ++ written).length - 1)) := by
  have writable : ∀ symbol ∈ tagged.usedSymbols, symbol ≠ "" ∧ '\x00' ∉ symbol.toList := by
    intro symbol used
    rw [← tagged.mem_symbols_iff_used, Transducer.symbols, Symbol.ascending,
      Ascending.mem_of_list] at used
    revert symbol
    decide
  have few : tagged.usedSymbols.ncard ≤ 65534 := by
    rw [tagged.ncard_used_symbols, Transducer.symbols]
    exact Nat.le_trans (Ascending.length_of_list_le compare _) (by decide)
  obtain ⟨listing, inverse, written, encoded, read⟩ := symbol_table_inverse.1 tagged writable few
  have read := read [7] [0, 9]
  exact ⟨listing, (inverse _ 0).mpr rfl, written, encoded, read,
    (symbol_table_inverse.2 _ _ _ _ read).2.2⟩

end Vfst.SymbolTable

end MorphLex
