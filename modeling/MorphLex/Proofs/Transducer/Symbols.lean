import Mathlib.Data.Set.Card
import MorphLex.Proofs.Order.Ascending
import MorphLex.Transducer.Basic

/-!
The symbols of a transducer. They are listed in ascending order, so that the list has each
symbol that an arc reads or writes exactly once; epsilon is not among them.
-/

namespace MorphLex

theorem Symbol.is_multichar_iff {symbol : Symbol} (plain : symbol ≠ epsilon) :
    symbol.isMultichar = true ↔ 1 < symbol.toList.length := by
  have written : symbol.isEpsilon = false := beq_eq_false_iff_ne.mpr plain
  rw [isMultichar, written, Bool.not_false, Bool.true_and, bne_iff_ne, Ne,
    List.drop_eq_nil_iff, Nat.not_le]

namespace Transducer

/-- The symbols that arcs read or write, without epsilon. -/
def usedSymbols (t : Transducer) : Set Symbol :=
  { symbol | symbol ≠ Symbol.epsilon ∧
    ∃ state, ∃ arc ∈ t.arcs state, symbol = arc.input ∨ symbol = arc.output }

end Transducer

theorem mem_symbols_iff (t : Transducer) (symbol : Symbol) :
    symbol ∈ t.symbols ↔ symbol.isEpsilon = false ∧
      ∃ state, ∃ arc ∈ t.arcs state, symbol = arc.input ∨ symbol = arc.output := by
  rw [Transducer.symbols, Symbol.ascending, Ascending.mem_of_list, List.mem_filter,
    List.mem_flatMap]
  simp only [List.mem_flatMap, Array.mem_toList_iff, List.mem_cons, List.not_mem_nil, or_false,
    Bool.not_eq_true']
  constructor
  · rintro ⟨⟨state, member, shown⟩, plain⟩
    obtain ⟨number, inside, rfl⟩ := Array.mem_iff_getElem.mp member
    refine ⟨plain, number, ?_⟩
    rw [Transducer.arcs_eq, Array.getElem?_eq_getElem inside]
    exact shown
  · rintro ⟨plain, number, arc, leaves, shown⟩
    have inside : number < t.states.size := Transducer.lt_size_of_mem_arcs leaves
    rw [Transducer.arcs_eq, Array.getElem?_eq_getElem inside] at leaves
    exact ⟨⟨t.states[number], Array.getElem_mem inside, arc, leaves, shown⟩, plain⟩

namespace Transducer

variable (t : Transducer)

theorem mem_symbols_iff_used (symbol : Symbol) : symbol ∈ t.symbols ↔ symbol ∈ t.usedSymbols := by
  rw [mem_symbols_iff, Symbol.isEpsilon, beq_eq_false_iff_ne]
  rfl

theorem ascending_symbols : t.symbols.Pairwise fun lower upper => compare lower upper = .lt :=
  Ascending.pairwise_of_list compare _

theorem sorted_symbols : t.symbols.Pairwise (· < ·) :=
  t.ascending_symbols.imp compareOfLessAndEq_eq_lt.mp

theorem nodup_symbols : t.symbols.Nodup := by
  apply t.sorted_symbols.imp
  rintro lower _ below rfl
  exact String.lt_irrefl lower below

theorem ncard_used_symbols : t.usedSymbols.ncard = t.symbols.length := by
  have same : t.usedSymbols = t.symbols.toFinset := by
    ext symbol
    rw [List.coe_toFinset]
    exact (t.mem_symbols_iff_used symbol).symm
  rw [same, Set.ncard_coe_finset, List.toFinset_card_of_nodup t.nodup_symbols]

end Transducer

end MorphLex
