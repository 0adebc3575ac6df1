import MorphLex.Proofs.Order.Ascending
import MorphLex.Proofs.Transducer.Reorder
import MorphLex.Proofs.Vfst.RoundTrip
import MorphLex.Proofs.Weight.Exact

/-!
The bytes of a file are canonical. Of a trimmed transducer the writer uses the size, the
rounded weights, and the arcs of each state up to their order, for it sorts the records.
All of this is the same in the transducer that is read back.
-/

namespace MorphLex.Vfst

section Records

variable {index : Std.HashMap Symbol Nat} {starts : Array Nat}

instance : Std.TransCmp Record.compareArcs := by
  unfold Record.compareArcs
  infer_instance

/-- The record of an arc, from what the file keeps of the arc. -/
def record? (index : Std.HashMap Symbol Nat) (starts : Array Nat)
    (seen : Symbol × Symbol × StateId × Option Int16) : Option Record :=
  seen.2.2.2.map fun number =>
    Record.arc (.ofNat (index.getD seen.1 0)) (.ofNat (index.getD seen.2.1 0))
      (.ofNat (starts.getD seen.2.2.1 0)) number

theorem more_of_record {seen : Symbol × Symbol × StateId × Option Int16} {record : Record}
    (found : record? index starts seen = some record) : record.more = 0 := by
  obtain ⟨number, -, rfl⟩ := Option.map_eq_some_iff.mp found
  rfl

theorem encode_weight_eq_ok_iff {weight : Weight} {number : Int16} :
    encodeWeight weight = .ok number ↔ weight.toInt16? = some number := by
  rw [encodeWeight]
  split
  · next value fits => rw [fits, Except.ok.injEq, Option.some.injEq]
  · next wide => simp [wide]

theorem encode_arc_eq_ok_iff {arc : Arc} {record : Record} :
    encodeArc index starts arc = .ok record ↔
      record? index starts (arc.seen Weight.toInt16?) = some record := by
  rw [encodeArc, Result.bind_eq_ok_iff, record?, Option.map_eq_some_iff]
  simp only [encode_weight_eq_ok_iff, Result.pure_eq_ok_iff, Arc.seen]

theorem encode_final_alike {final other : Option Weight} {marker : List Record}
    (alike : final.map Weight.toInt16? = other.map Weight.toInt16?)
    (written : encodeFinal final = .ok marker) : encodeFinal other = .ok marker := by
  cases final with
  | none =>
      obtain rfl : other = none := Option.map_eq_none_iff.mp alike.symm
      exact written
  | some weight =>
      obtain ⟨weightToo, rfl, same⟩ := Option.map_eq_some_iff.mp alike.symm
      obtain ⟨number, fits, written⟩ := Result.bind_eq_ok_iff.mp written
      exact Result.bind_eq_ok_iff.mpr ⟨number,
        encode_weight_eq_ok_iff.mpr (same.trans (encode_weight_eq_ok_iff.mp fits)), written⟩

/-- The records of arcs have nothing that the comparison does not see. -/
theorem eq_of_compare_arcs {first second : Record} (plain : first.more = 0)
    (plainToo : second.more = 0) (same : Record.compareArcs first second = .eq) :
    first = second := by
  obtain ⟨input, output, target, weight, more⟩ := first
  obtain ⟨inputToo, outputToo, targetToo, weightToo, moreToo⟩ := second
  simp [Record.compareArcs, compareLex, compareOn, Ordering.then_eq_eq] at same
  simp_all

/-- The same rounded weights, and the same arcs in some order. -/
structure StateAlike (state other : State) : Prop where
  final : state.final.map Weight.toInt16? = other.final.map Weight.toInt16?
  arcs : (state.arcs.toList.map (Arc.seen Weight.toInt16?)).Perm
    (other.arcs.toList.map (Arc.seen Weight.toInt16?))

theorem StateAlike.record_count {state other : State} (alike : StateAlike state other) :
    recordCount state = recordCount other := by
  have arcs := alike.arcs.length_eq
  rw [List.length_map, List.length_map, Array.length_toList, Array.length_toList] at arcs
  rw [recordCount, recordCount, arcs, ← Option.isSome_map (f := Weight.toInt16?), alike.final,
    Option.isSome_map]

/-- The sorted records of a state are those of any state alike. -/
theorem StateAlike.encode_state {state other : State} {run : List Record}
    (alike : StateAlike state other) (written : encodeState index starts state = .ok run) :
    encodeState index starts other = .ok run := by
  obtain ⟨marker, records, marked, listed, rfl⟩ := encode_state_eq_ok_iff.mp written
  have each : List.Forall₂ (fun seen record => record? index starts seen = some record)
      (state.arcs.toList.map (Arc.seen Weight.toInt16?)) records := by
    rw [List.forall₂_map_left_iff]
    exact listed.imp fun arc record => encode_arc_eq_ok_iff.mp
  obtain ⟨others, eachOther, permuted⟩ := List.perm_comp_forall₂ alike.arcs.symm each
  have plain : ∀ record ∈ others, record.more = 0 := by
    intro record listed
    obtain ⟨seen, -, found⟩ := Result.exists_paired eachOther.flip listed
    exact more_of_record found
  rw [List.forall₂_map_left_iff] at eachOther
  have sorted := Ascending.sort_eq_of_perm Record.compareArcs (fun first here second there =>
    eq_of_compare_arcs (plain first here) (plain second there)) permuted
  exact encode_state_eq_ok_iff.mpr ⟨marker, others, encode_final_alike alike.final marked,
    eachOther.imp fun arc record => encode_arc_eq_ok_iff.mpr, by rw [sorted]⟩

theorem encode_states_alike {states others : List State} {runs : List (List Record)}
    (alike : List.Forall₂ StateAlike states others)
    (written : List.Forall₂ (fun state run => encodeState index starts state = .ok run)
      states runs) :
    List.Forall₂ (fun state run => encodeState index starts state = .ok run) others runs := by
  induction alike generalizing runs with
  | nil => exact written
  | cons first _ ih =>
      cases written with
      | cons here later => exact .cons (first.encode_state here) (ih later)

theorem run_starts_alike {states others : List State}
    (alike : List.Forall₂ StateAlike states others) (slot : Nat) :
    runStartsFrom slot states = runStartsFrom slot others := by
  induction alike generalizing slot with
  | nil => rfl
  | cons first _ ih => rw [runStartsFrom, runStartsFrom, first.record_count, ih]

end Records

section Rearranged

open Transducer

variable {t u : Transducer} {data : List UInt8}

theorem symbols_alike (alike : Rearranged Weight.toInt16? t u) : t.symbols = u.symbols := by
  have shown {t u : Transducer} (alike : Rearranged Weight.toInt16? t u) {symbol : Symbol}
    (listed : symbol ∈ t.symbols) :
      symbol ∈ u.symbols := by
    obtain ⟨plain, state, arc, leaves, shown⟩ := (mem_symbols_iff _ _).mp listed
    obtain ⟨other, departs, same⟩ := alike.exists_arc leaves
    have input : other.input = arc.input := congrArg (fun seen => seen.1) same
    have output : other.output = arc.output := congrArg (fun seen => seen.2.1) same
    exact (mem_symbols_iff _ _).mpr ⟨plain, state, other,
      departs, by rw [input, output]; exact shown⟩
  exact Ascending.eq_of_mem_iff compare (Ascending.pairwise_of_list compare _)
    (Ascending.pairwise_of_list compare _)
    fun symbol => ⟨shown alike, shown alike.symm⟩

theorem states_alike (alike : Rearranged Weight.toInt16? t u) :
    List.Forall₂ StateAlike t.states.toList u.states.toList := by
  rw [List.forall₂_iff_get]
  refine ⟨alike.size, fun number inside insideToo => ?_⟩
  have final := alike.final number
  have arcs := alike.arcs number
  have here : t.states[number]? = some (t.states.toList.get ⟨number, inside⟩) := by simp
  have there : u.states[number]? = some (u.states.toList.get ⟨number, insideToo⟩) := by simp
  rw [final_eq, final_eq, here, there] at final
  rw [arcs_eq, arcs_eq, here, there] at arcs
  exact ⟨final, arcs⟩

/-- Transducers that are alike when they are trimmed have the same file. -/
theorem encode_alike (alike : Rearranged Weight.toInt16? t.trim u.trim)
    (written : encode t = .ok data) : encode u = .ok data := by
  have bare : (t.trim.arcs 0).isEmpty = (u.trim.arcs 0).isEmpty := by
    have lengths := (alike.arcs 0).length_eq
    rw [List.length_map, List.length_map, Array.length_toList, Array.length_toList] at lengths
    simp only [Array.isEmpty, lengths]
  have symbols : SymbolTable.ofTransducer t.trim = SymbolTable.ofTransducer u.trim := by
    rw [SymbolTable.ofTransducer, SymbolTable.ofTransducer, symbols_alike alike]
  have starts : runStarts t.trim = runStarts u.trim :=
    congrArg List.toArray (run_starts_alike (states_alike alike) 0)
  obtain ⟨accepts, runs, table, listed, encoded, rfl⟩ := encode_eq_ok_iff.mp written
  rw [bare, alike.is_final] at accepts
  rw [symbols, starts] at listed
  rw [symbols] at encoded
  exact encode_eq_ok_iff.mpr ⟨accepts, runs, table, encode_states_alike (states_alike alike) listed,
    encoded, rfl⟩

theorem to_int16_rounded {weight : Weight} (fits : Fits weight) :
    weight.rounded.toInt16? = weight.toInt16? := by
  obtain ⟨number, fits⟩ := fits
  rw [← Weight.of_int16_eq_rounded fits, Weight.to_int16_of_int16, fits]

/-- The file keeps all that is written of the trimmed transducer. -/
theorem alike_of_stored (written : encode t = .ok data) {decoded : List State}
    (stored : List.Forall₂ Stored t.trim.states.toList decoded) :
    Rearranged Weight.toInt16? t.trim ⟨decoded.toArray⟩ := by
  have fits := (exists_encode_iff_full.mp ⟨data, written⟩).2.1
  refine ⟨stored.length_eq, fun state => ?_, fun state => ?_⟩
  · rw [(transducer_of_stored stored state).1, Option.map_map]
    apply Option.map_congr
    intro weight ends
    exact (to_int16_rounded (fits weight (mem_weights_of_final ends))).symm
  · have same : (t.trim.arcs state).toList.map (Arc.seen Weight.toInt16?) =
        ((t.trim.arcs state).toList.map Arc.rounded).map (Arc.seen Weight.toInt16?) := by
      rw [List.map_map]
      apply List.map_congr_left
      intro arc leaves
      simp only [Function.comp_apply, Arc.seen, Arc.rounded,
        to_int16_rounded (fits arc.weight (mem_weights_of_arc (Array.mem_toList_iff.mp leaves)))]
    rw [same]
    exact ((transducer_of_stored stored state).2.map _).symm

end Rearranged

/-- Writing what was read back gives the same bytes, and the order of the arcs is of no account. -/
theorem encode_canonical {t : Transducer} {data : List UInt8} (formed : t.WellFormed)
    (writable : ∀ symbol ∈ t.symbols, symbol ≠ "" ∧ '\x00' ∉ symbol.toList)
    (small : slots t.trim < 2 ^ 32) (written : encode t = .ok data) :
    (∃ u, decode data = .ok u ∧ encode u = .ok data) ∧
      ∀ u : Transducer, u.size = t.size →
        (∀ state, u.final? state = t.final? state ∧
          (u.arcs state).toList.Perm (t.arcs state).toList) →
        encode u = .ok data := by
  constructor
  · obtain ⟨decoded, read, stored⟩ := exists_stored formed writable small written
    have alike := (alike_of_stored written stored).trim
    rw [Transducer.trim_trim formed] at alike
    exact ⟨_, read, encode_alike alike written⟩
  · intro u size same
    have alike : Transducer.Rearranged Weight.toInt16? t u :=
      ⟨size.symm, fun state => by rw [(same state).1], fun state => ((same state).2.map _).symm⟩
    exact encode_alike alike.trim written

/-- With halves on the arcs, and with two arcs in the other order. -/
theorem encode_canonical_of_loop :
    ∃ data, encode loop = .ok data ∧ (∃ u, decode data = .ok u ∧ encode u = .ok data) ∧
      encode ⟨#[
        { arcs := #[⟨"a", "b", 1, 0.0⟩] },
        { arcs := #[⟨"a", Symbol.epsilon, 0, -2.5⟩, ⟨"<n>", "b", 1, 0.5⟩], final := some 1.25 }]⟩ =
          .ok data := by
  obtain ⟨data, written⟩ := exists_encode_loop
  obtain ⟨again, reordered⟩ :=
    encode_canonical well_formed_loop writable_loop (by rw [trim_loop]; decide) written
  refine ⟨data, written, again, reordered _ rfl fun state => ?_⟩
  match state with
  | 0 => exact ⟨rfl, .refl _⟩
  | 1 => exact ⟨rfl, .swap _ _ _⟩
  | state + 2 => exact ⟨rfl, .refl _⟩

end MorphLex.Vfst
