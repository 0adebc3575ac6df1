import MorphLex.Proofs.Transducer.Paths
import MorphLex.Proofs.Vfst.SymbolTable
import MorphLex.Vfst.Encode

/-!
The order in which writing meets its faults. The encoder looks whether anything is accepted,
then goes through the weights of the trimmed transducer, then counts its symbols. Each part
fails for its weights alone, so the first weight that does not fit makes the fault.
-/

namespace MorphLex.Vfst

open Result

def Fits (weight : Weight) : Prop := ∃ number, weight.toInt16? = some number

/-- The fault that a weight gives rise to. -/
def misfit? (weight : Weight) : Option Fault :=
  if weight.toInt16? = none then some (.weightOutOfRange weight) else none

section Weights

variable {weight : Weight}

theorem fits_iff_ne_none : Fits weight ↔ weight.toInt16? ≠ none := Option.ne_none_iff_exists'.symm

theorem misfit_eq_none_iff : misfit? weight = none ↔ Fits weight := by
  rw [fits_iff_ne_none, misfit?]
  simp

theorem misfit_eq_some_iff {fault : Fault} :
    misfit? weight = some fault ↔ ¬Fits weight ∧ fault = .weightOutOfRange weight := by
  rw [fits_iff_ne_none, not_not, misfit?, Option.ite_none_right_eq_some, Option.some.injEq,
    eq_comm (b := fault)]

theorem fault_encode_weight (weight : Weight) : fault? (encodeWeight weight) = misfit? weight := by
  rw [encodeWeight, misfit?]
  cases weight.toInt16? <;> rfl

theorem fault_encode_final (final : Option Weight) :
    fault? (encodeFinal final) = final.toList.findSome? misfit? := by
  cases final with
  | none => rfl
  | some weight =>
      rw [encodeFinal, fault_bind_pure, fault_encode_weight, Option.toList_some,
        List.findSome?_singleton]

end Weights

section States

variable (index : Std.HashMap Symbol Nat) (starts : Array Nat)

theorem fault_encode_arc (arc : Arc) :
    fault? (encodeArc index starts arc) = misfit? arc.weight := by
  rw [encodeArc, fault_bind_pure, fault_encode_weight]

theorem fault_encode_state (state : State) :
    fault? (encodeState index starts state) = state.weights.findSome? misfit? := by
  rw [encodeState, fault_bind fun _ => fault_bind_pure _ _, fault_map_list, fault_encode_final,
    State.weights, List.findSome?_append, List.findSome?_map]
  simp only [fault_encode_arc]
  rfl

theorem fault_encode_states (states : List State) :
    fault? (states.mapM (encodeState index starts)) =
      (states.flatMap State.weights).findSome? misfit? := by
  rw [fault_map_list]
  induction states with
  | nil => rfl
  | cons state states ih =>
      rw [List.findSome?_cons, List.flatMap_cons, List.findSome?_append, ← ih, fault_encode_state]
      cases state.weights.findSome? misfit? <;> rfl

end States

theorem fault_encode_table (table : SymbolTable) :
    fault? table.encode =
      if SymbolTable.maxSize < table.size then some (.tooManySymbols table.size) else none := by
  rw [SymbolTable.encode]
  split <;> rfl

section Whole

variable {t : Transducer}

theorem fault_of_bare (bare : ((t.trim.arcs 0).isEmpty && !t.trim.isFinal 0) = true) :
    fault? (encode t) = some .acceptsNothing := by
  rw [encode]
  simp only
  rw [if_pos bare]
  rfl

/-- The weights come before the symbols. -/
theorem fault_of_full (full : ¬((t.trim.arcs 0).isEmpty && !t.trim.isFinal 0) = true) :
    fault? (encode t) =
    (t.trim.weights.findSome? misfit?).or (fault? (SymbolTable.ofTransducer t.trim).encode) := by
  rw [encode]
  simp only
  rw [if_neg full, Transducer.weights, ← fault_encode_states]
  exact fault_bind fun _ => fault_bind_pure _ _

theorem exists_encode_iff_full : (∃ data, encode t = .ok data) ↔
    ¬((t.trim.arcs 0).isEmpty && !t.trim.isFinal 0) = true ∧
      (∀ weight ∈ t.trim.weights, Fits weight) ∧
      t.trim.symbols.length < SymbolTable.maxSize := by
  rw [← fault_eq_none_iff]
  by_cases bare : ((t.trim.arcs 0).isEmpty && !t.trim.isFinal 0) = true
  · rw [fault_of_bare bare]
    exact iff_of_false (Option.some_ne_none _) fun written => written.1 bare
  · rw [fault_of_full bare, Option.or_eq_none_iff, List.findSome?_eq_none_iff, fault_encode_table,
      SymbolTable.size_of_transducer]
    simp only [misfit_eq_none_iff, ite_eq_right_iff, reduceCtorEq, imp_false, Nat.not_lt,
      Nat.succ_le_iff]
    exact (and_iff_right bare).symm

end Whole

end MorphLex.Vfst
