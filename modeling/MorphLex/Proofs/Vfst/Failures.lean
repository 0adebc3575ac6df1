import MorphLex.Proofs.Transducer.Paths
import MorphLex.Proofs.Vfst.CheckedWriting
import MorphLex.Proofs.Weight.Exact

/-!
When a transducer cannot be written. All that trimming leaves lies on accepting paths, so each
fault of the encoder is told by these paths alone, and what lies off them is of no account.
Main statement: `encode_fails_exactly`.
-/

namespace MorphLex.Vfst

open Result

theorem fits_iff {weight : Weight} : Fits weight ↔ ¬weight.Misfit := by
  rw [fits_iff_ne_none, Ne, Weight.to_int16_eq_none_iff]

/-- What keeps a transducer from being written: it accepts nothing, or a weight on its accepting
paths does not fit, the first such in the order of states and arcs, or all weights fit and
there are more symbols on these paths than the table has room for beside epsilon. -/
inductive Prevents (t : Transducer) : Fault → Prop
  | nothing (rejects : ¬∃ path weight, t.Accepts path weight) : Prevents t .acceptsNothing
  | weight {before after : List Weight} {weight : Weight}
    (listed : t.usefulWeights = before ++ weight :: after)
      (misfit : weight.Misfit) (first : ∀ earlier ∈ before, ¬earlier.Misfit) :
        Prevents t (.weightOutOfRange weight)
  | symbols (accepts : ∃ path weight, t.Accepts path weight)
    (fit : ∀ weight ∈ t.usefulWeights, ¬weight.Misfit)
      (many : 65534 < t.usefulSymbols.ncard) :
        Prevents t (.tooManySymbols (t.usefulSymbols.ncard + 1))

section Faults

variable {t : Transducer} (formed : t.WellFormed)

include formed

theorem bare_iff :
    ((t.trim.arcs 0).isEmpty && !t.trim.isFinal 0) = true ↔
      ¬∃ path weight, t.Accepts path weight := by
  rw [← Transducer.trim_start_idle_iff formed, Bool.and_eq_true, Array.isEmpty_iff,
    Bool.not_eq_true', Transducer.isFinal, Option.isSome_eq_false_iff, Option.isNone_iff_eq_none]

theorem length_symbols_trim : t.trim.symbols.length = t.usefulSymbols.ncard := by
  rw [← Transducer.ncard_used_symbols, Transducer.used_symbols_trim formed]

/-- The faults of weights and symbols are those on accepting paths. -/
theorem fault_of_accepting (accepts : ∃ path weight, t.Accepts path weight) :
    fault? (encode t) =
      (t.usefulWeights.findSome? misfit?).or
        (if 65534 < t.usefulSymbols.ncard then
          some (.tooManySymbols (t.usefulSymbols.ncard + 1)) else none) := by
  have most : SymbolTable.maxSize = 65534 + 1 := rfl
  rw [fault_of_full (mt (bare_iff formed).mp (not_not_intro accepts)),
    Transducer.weights_trim formed, fault_encode_table, SymbolTable.size_of_transducer,
    length_symbols_trim formed, most]
  simp only [Nat.add_lt_add_iff_right]

theorem encode_eq_error_iff (fault : Fault) : encode t = .error fault ↔ Prevents t fault := by
  rw [← fault_eq_some_iff]
  by_cases accepts : ∃ path weight, t.Accepts path weight
  · rw [fault_of_accepting formed accepts, Option.or_eq_some_iff, List.findSome?_eq_some_iff,
      List.findSome?_eq_none_iff]
    simp only [misfit_eq_some_iff, misfit_eq_none_iff, fits_iff, not_not,
      Option.ite_none_right_eq_some, Option.some.injEq]
    constructor
    · rintro (⟨before, weight, after, listed, ⟨misfit, rfl⟩, first⟩ | ⟨fit, many, rfl⟩)
      · exact .weight listed misfit first
      · exact .symbols accepts fit many
    · rintro (rejects | ⟨listed, misfit, first⟩ | ⟨-, fit, many⟩)
      · exact absurd accepts rejects
      · exact .inl ⟨_, _, _, listed, ⟨misfit, rfl⟩, first⟩
      · exact .inr ⟨fit, many, rfl⟩
  · rw [fault_of_bare ((bare_iff formed).mpr accepts), Option.some.injEq]
    constructor
    · rintro rfl
      exact .nothing accepts
    · rintro (rejects | ⟨listed, -, -⟩ | ⟨accepted, -, -⟩)
      · rfl
      · have useful := listed ▸ List.mem_append_right _ List.mem_cons_self
        exact absurd
          (Transducer.exists_accepted_iff.mpr (Transducer.traversed_of_useful_weight useful))
          accepts
      · exact absurd accepted accepts

theorem exists_encode_iff : (∃ data, encode t = .ok data) ↔ (∃ path weight, t.Accepts path weight) ∧
    (∀ weight ∈ t.usefulWeights, ¬weight.Misfit) ∧ t.usefulSymbols.ncard ≤ 65534 := by
  have most : SymbolTable.maxSize = 65534 + 1 := rfl
  rw [exists_encode_iff_full, bare_iff formed, not_not, Transducer.weights_trim formed,
    length_symbols_trim formed, most, Nat.lt_succ_iff]
  simp only [fits_iff]

end Faults

/-- Writing fails exactly when it must. Each fault is the first thing that prevents it on the
accepting paths, and without such a thing there are bytes. With every lookup and every count
checked nothing else can go wrong, and weights and symbols off the accepting paths do not matter. -/
theorem encode_fails_exactly {t : Transducer} (formed : t.WellFormed) :
    (∀ fault, encode t = .error fault ↔ Prevents t fault) ∧
    ((∃ data, encode t = .ok data) ↔ (∃ path weight, t.Accepts path weight) ∧
      (∀ weight ∈ t.usefulWeights, ¬weight.Misfit) ∧ t.usefulSymbols.ncard ≤ 65534) ∧
    Checked.write t = (encode t).mapError .fault ∧
    ∀ u, t.SameOnPaths u → encode u = encode t := by
  refine ⟨encode_eq_error_iff formed, exists_encode_iff formed, Checked.write_eq_encode formed,
    fun u alike => ?_⟩
  rw [encode, encode, alike.trim formed]

section DeadEnd

/-- Two weights out of range on the accepting paths, and a dead end. -/
def strained (symbol : Symbol) (weight : Weight) : Transducer := ⟨#[
  { arcs := #[⟨"x", symbol, 2, weight⟩, ⟨"a", "a", 1, 0.5⟩] },
  { arcs := #[⟨"b", "b", 1, 70000.0⟩], final := some 40000.0 },
  { arcs := #[⟨symbol, symbol, 2, weight⟩] }]⟩

/-- The weight that is reported is the final one, and the dead end may hold anything. -/
theorem encode_fails_exactly_of_dead_end :
    (strained "y" (0.0 / 0.0)).WellFormed ∧
      Prevents (strained "y" (0.0 / 0.0)) (.weightOutOfRange 40000.0) ∧
      Checked.write (strained "y" (0.0 / 0.0)) = .error (.fault (.weightOutOfRange 40000.0)) ∧
      encode (strained "z" 1.0) = encode (strained "y" (0.0 / 0.0)) := by
  have formed : (strained "y" (0.0 / 0.0)).WellFormed := by
    simp [strained, Transducer.WellFormed, Transducer.size]
  have dead : ¬(strained "y" (0.0 / 0.0)).Productive 2 := by
    rw [← Transducer.coaccessible_iff formed]
    decide
  have alike : (strained "y" (0.0 / 0.0)).SameOnPaths (strained "z" 1.0) := by
    refine ⟨rfl, fun state => ?_, fun state _ => ?_, fun state => ?_⟩
    · rcases state with _ | _ | _ | state <;> rfl
    · rcases state with _ | _ | _ | state <;> rfl
    · rcases state with _ | _ | _ | state
      · exact .cons ⟨rfl, fun _ productive => absurd productive dead⟩
          (.cons ⟨rfl, fun _ _ => rfl⟩ .nil)
      · exact .cons ⟨rfl, fun _ _ => rfl⟩ .nil
      · exact .cons ⟨rfl, fun _ productive => absurd productive dead⟩ .nil
      · exact .nil
  have fails : encode (strained "y" (0.0 / 0.0)) = .error (.weightOutOfRange 40000.0) := by
    decide +kernel
  obtain ⟨faults, -, checked, same⟩ := encode_fails_exactly formed
  exact ⟨formed, (faults _).mp fails, by rw [checked, fails]; rfl, same _ alike⟩

end DeadEnd

end MorphLex.Vfst
