import MorphLex.Proofs.Order.Ascending
import MorphLex.Proofs.Search.Limits
import MorphLex.Proofs.Transducer.Finite
import MorphLex.Proofs.Vfst.SymbolTable

/-!
Looking up in a reduced transducer. Transducers with the same accepting paths, up to
what is silent and without weight, find the same outputs at the same weights, when
the weights are finite and the searches come to their ends. Merging loses no symbol,
so that a text is split alike before and behind it; trimming may lose symbols.
-/

namespace MorphLex

namespace Transducer

variable {t first second third : Transducer} {input : List Symbol}

section Symbols

/-- Only silent arcs are left out, and their labels are no symbols. -/
theorem symbols_quotient {blocks : Partition} (stable : t.Stable blocks) :
    (t.quotient blocks).symbols = t.symbols := by
  apply Ascending.eq_of_mem_iff compare (ascending_symbols _) (ascending_symbols t)
  intro symbol
  rw [mem_symbols_iff, mem_symbols_iff]
  constructor
  · rintro ⟨plain, block, arc, leaves, shown⟩
    have below := (lt_size_of_mem_arcs leaves).trans_eq (size_quotient stable.numbered)
    obtain ⟨first, _, _, _, arcs⟩ := exists_representative stable.numbered below
    obtain ⟨original, before, _, rfl⟩ := (arcs arc).mp leaves
    exact ⟨plain, first, original, before, shown⟩
  · rintro ⟨plain, state, arc, leaves, shown⟩
    have busy : ¬Idle blocks state arc := by
      intro idle
      have silent := Bool.and_eq_true_iff.mp idle.2.1
      rcases shown with rfl | rfl
      · rw [silent.1] at plain
        exact nomatch plain
      · rw [silent.2] at plain
        exact nomatch plain
    have inside := lt_size_of_mem_arcs leaves
    obtain ⟨first, within, together, _, arcs⟩ :=
      exists_representative stable.numbered (stable.numbered.lt_count inside)
    obtain ⟨answer, departs, answers, alike⟩ :=
      stable.answers state first inside within together.symm arc leaves busy
    refine ⟨plain, _, _, (arcs _).mpr ⟨answer, departs, answers, rfl⟩, ?_⟩
    rw [← alike.input, ← alike.output]
    exact shown

theorem split_input_minimize (formed : t.WellFormed) (text : String) :
    t.minimize.splitInput text = t.trim.splitInput text := by
  rw [splitInput, splitInput, minimize,
    symbols_quotient (stable_minimize (well_formed_trim formed))]

end Symbols

section Mirrors

/-- Every accepting path has an answer with the same labels and the same final weight. -/
def Mirrors (t larger : Transducer) : Prop :=
  ∀ path weight, t.Accepts path weight →
    ∃ answer final, larger.Accepts answer final ∧ labels answer = labels path ∧
    final.plain = weight.plain

theorem Mirrors.trans (front : first.Mirrors second) (back : second.Mirrors third) :
    first.Mirrors third := by
  intro path weight accepted
  obtain ⟨between, middle, met, shown, ends⟩ := front path weight accepted
  obtain ⟨answer, final, answered, same, equal⟩ := back between middle met
  exact ⟨answer, final, answered, same.trans shown, equal.trans ends⟩

theorem mirrors_trim (formed : t.WellFormed) : t.Mirrors t.trim ∧ t.trim.Mirrors t :=
  ⟨fun _ _ => (simulates_trim formed).accepts, fun _ _ => (trim_simulates formed).accepts⟩

theorem mirrors_minimize (formed : t.WellFormed) : t.Mirrors t.minimize ∧ t.minimize.Mirrors t :=
  minimize_answers formed

/-- Labels tell what is read, written and paid. -/
theorem Transduces.mirrored (mirrors : first.Mirrors second) {output : String} {total : Weight}
    (transduces : first.Transduces input output total) :
    ∃ other, second.Transduces input output other ∧ other.plain = total.plain := by
  obtain ⟨path, weight, accepted, reads, writes, costs⟩ := transduces
  obtain ⟨answer, final, answered, same, equal⟩ := mirrors path weight accepted
  refine ⟨cost answer final, ⟨answer, final, answered, ?_, ?_, rfl⟩, ?_⟩
  · rw [(symbols_of_path answer).1, same, ← (symbols_of_path path).1, reads]
  · rw [(symbols_of_path answer).2, same, ← (symbols_of_path path).2, writes]
  · rw [plain_cost, same, equal, ← plain_cost, costs]

end Mirrors

end Transducer

namespace Search

open Transducer

variable {t : Transducer} {input : List Symbol}

/-- Finite weights add up to a number along a path. -/
theorem Leads.is_number (finite : t.FiniteWeights) {place last : Place} {path : List Arc}
    (leads : Leads t input place path last) {weight : Weight} (number : weight.IsNumber) :
    (total weight path).IsNumber := by
  induction leads generalizing weight with
  | stay => exact number
  | step leaves _ _ ih => exact ih (Weight.is_number_add_finite number (finite.arcs _ _ leaves))

theorem Reached.summable (finite : t.FiniteWeights) {node : Node} (reached : Reached t input node) :
    Summable t input node := by
  obtain ⟨path, leads, costs⟩ := reached
  have number : node.weight.IsNumber := by
    rw [← costs]
    exact leads.is_number finite (by decide)
  constructor
  · intro arc leaves _ _
    exact Weight.is_number_add_finite number (finite.arcs _ _ leaves)
  · intro _ final ends
    exact Weight.is_number_add_finite number (finite.final _ _ ends)

theorem Completes.summable (finite : t.FiniteWeights) {steps : Nat} {search : Search}
    (completes : Completes t input (Uncut t input) steps search) (sound : Sound t input search) :
    Completes t input (fun node => Uncut t input node ∧ Summable t input node) steps search := by
  induction completes with
  | done empty => exact .done empty
  | step waiting good _ ih =>
      obtain ⟨reached, after⟩ := sound.next waiting
      exact .step waiting ⟨good, reached.summable finite⟩ (ih after)

end Search

/-- The same outputs at the same weights, up to the sign of a zero. -/
def SameAnswers (first second : Std.TreeMap String Weight) : Prop :=
  ∀ output : String, first[output]?.map Weight.plain = second[output]?.map Weight.plain

namespace Transducer

open Search

variable {t first second : Transducer} {input : List Symbol}

theorem Transduces.is_number (finite : t.FiniteWeights) {output : String} {total : Weight}
    (transduces : t.Transduces input output total) : total.IsNumber := by
  obtain ⟨path, last, final, leads, ends, rfl⟩ := transduces_iff.mp transduces
  exact Weight.is_number_add_finite (leads.is_number finite (by decide)) (finite.final _ _ ends)

/-- What the one finds, the other finds at no greater weight. -/
theorem lookup_at_most (finite : second.FiniteWeights) (mirrors : first.Mirrors second)
    (within : second.WithinLimits input) {output : String} {total : Weight}
    (found : (first.lookupSymbols input)[output]? = some total) :
    ∃ least, (second.lookupSymbols input)[output]? = some least ∧ least ≤ total := by
  obtain ⟨other, transduces, same⟩ := (lookup_transduces found).mirrored mirrors
  obtain ⟨least, listed, under⟩ := (within.summable finite sound_start).finds transduces
  exact ⟨least, listed, Weight.le_of_le_of_plain_eq (under (transduces.is_number finite)) same⟩

theorem same_answers (finite : first.FiniteWeights) (others : second.FiniteWeights)
    (forth : first.Mirrors second) (back : second.Mirrors first) (within : first.WithinLimits input)
    (limits : second.WithinLimits input) :
    SameAnswers (first.lookupSymbols input) (second.lookupSymbols input) := by
  intro output
  cases found : (first.lookupSymbols input)[output]? with
  | none =>
      cases again : (second.lookupSymbols input)[output]? with
      | none => rfl
      | some total =>
          obtain ⟨_, listed, _⟩ := lookup_at_most finite back within again
          exact nomatch found.symm.trans listed
  | some total =>
      obtain ⟨least, again, lower⟩ := lookup_at_most others forth limits found
      obtain ⟨most, listed, upper⟩ := lookup_at_most finite back within again
      obtain rfl := Option.some.inj (found.symm.trans listed)
      rw [again, Option.map_some, Option.map_some, Weight.plain_eq_of_le_of_le lower upper]

/-- Trimmed and minimized, the transducer answers alike: both split the text alike. -/
theorem lookup_trim_minimize (formed : t.WellFormed) (finite : t.FiniteWeights) {text : String}
    (within : t.trim.WithinLimits (t.trim.splitInput text))
    (limits : t.minimize.WithinLimits (t.minimize.splitInput text)) :
    SameAnswers (t.trim.lookup text) (t.minimize.lookup text) := by
  unfold lookup
  rw [split_input_minimize formed] at limits ⊢
  apply same_answers finite.trim (finite.minimize formed) _ _ within limits
  · exact (mirrors_trim formed).2.trans (mirrors_minimize formed).1
  · exact (mirrors_minimize formed).2.trans (mirrors_trim formed).1

theorem lookup_trim (formed : t.WellFormed) (finite : t.FiniteWeights) {text : String}
    (split : t.splitInput text = t.trim.splitInput text)
    (within : t.WithinLimits (t.splitInput text))
    (limits : t.trim.WithinLimits (t.trim.splitInput text)) :
    SameAnswers (t.lookup text) (t.trim.lookup text) := by
  unfold lookup
  rw [← split] at limits ⊢
  exact same_answers finite finite.trim (mirrors_trim formed).1 (mirrors_trim formed).2
    within limits

theorem lookup_minimize (formed : t.WellFormed) (finite : t.FiniteWeights) {text : String}
    (split : t.splitInput text = t.trim.splitInput text)
    (within : t.WithinLimits (t.splitInput text))
    (limits : t.minimize.WithinLimits (t.minimize.splitInput text)) :
    SameAnswers (t.lookup text) (t.minimize.lookup text) := by
  unfold lookup
  rw [split_input_minimize formed, ← split] at limits ⊢
  exact same_answers finite (finite.minimize formed) (mirrors_minimize formed).1
    (mirrors_minimize formed).2 within limits

end Transducer

end MorphLex
