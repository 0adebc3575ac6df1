import MorphLex.Proofs.Dictionary.Arcs
import MorphLex.Proofs.Dictionary.Items
import MorphLex.Proofs.Dictionary.Reading
import MorphLex.Proofs.Pattern.Arcs
import MorphLex.Proofs.Transducer.Finite

/-!
What a compilation keeps up, whatever it reads. The root and every paradigm have
arcs to states only, none of them back to the start, and finite weights: the weight
of an entry is refused unless it is finite, all others are zero.
-/

namespace MorphLex

namespace Transducer

/-- A transducer as the compiler builds it. -/
structure Proper (t : Transducer) : Prop where
  rooted : t.Rooted
  finite : t.FiniteWeights

theorem proper_initial : Proper .initial := ⟨rooted_initial, .initial⟩

end Transducer

theorem Pattern.Group.transducer_finite (alphabet : CharSet) (group : Group) :
    (group.transducer alphabet).FiniteWeights where
  arcs :=
    group.transducer_each ⟨fun _ _ _ => Weight.finite_zero,
      fun _ _ _ _ => Weight.finite_zero⟩ alphabet
  final _ _ ends := group.final_transducer alphabet ends ▸ Weight.finite_zero

namespace Dictionary

open Reported Result Transducer

section Paths

variable {t : Transducer}

/-- What a part copies has finite weights. -/
def Part.FiniteWeights : Part → Prop
  | .pairs _ => True
  | .inner transducer => transducer.FiniteWeights

theorem Part.FiniteWeights.fits {part : Part} (finite : part.FiniteWeights) (mode : Mode) :
    part.Fits mode fun _ arc => arc.weight.isFinite = true := by
  cases part with
  | pairs labels => exact fun _ _ _ _ _ _ => Weight.finite_zero
  | inner transducer => exact Transducer.FiniteWeights.portable finite

theorem Entry.add_to_finite (mode : Mode) (entry : Entry) (sound : ∀ part ∈ entry.parts, part.Sound)
    (formed : t.WellFormed) (finite : t.FiniteWeights)
    (each : ∀ part ∈ entry.parts, part.FiniteWeights) (weight : entry.weight.isFinite = true) :
    (entry.addTo mode t).FiniteWeights where
  arcs :=
    entry.add_to_each sound (fun part member => (each part member).fits mode) formed finite.arcs
  final state other ends := by
    rcases entry.final_add_to mode sound formed ends with old | rfl
    · exact finite.final state other old
    · exact weight

end Paths

theorem finite_of_entry_weight {options : Options} {element : Xml.Element} {weight : Weight}
    (read : options.entryWeight element = .ok weight) : weight.isFinite = true := by
  simp only [Options.entryWeight] at read
  split at read
  · rw [← Except.ok.inj read]
    exact Weight.finite_zero
  · split at read
    · split at read
      · next finite =>
        rw [← Except.ok.inj read]
        exact finite
      · cases read
    · cases read

/-- The root and every paradigm are proper. -/
structure Registry.Proper (registry : Registry) : Prop where
  root : registry.root.Proper
  paradigms : ∀ (name : String) (paradigm : Transducer), registry.paradigms[name]? = some paradigm →
    paradigm.Proper

theorem Registry.Proper.copyable {registry : Registry} (proper : registry.Proper) :
    registry.Copyable :=
  fun name paradigm known => (proper.paradigms name paradigm known).rooted.formed

theorem Registry.proper_empty : Registry.Proper {} := by
  constructor
  · exact proper_initial
  · intro name paradigm known
    simp at known

theorem Registry.Proper.define {registry : Registry} (proper : registry.Proper) (name : String)
    {paradigm : Transducer} (defined : paradigm.Proper) :
    (registry.define name paradigm).Proper := by
  constructor
  · rw [root_define]
    exact proper.root
  · intro other known listed
    cases taken : registry.contains name with
    | true =>
        rw [Registry.define, if_pos taken] at listed
        exact proper.paradigms other known listed
    | false =>
        rw [Registry.find_define taken] at listed
        split at listed
        · exact Option.some.inj listed ▸ defined
        · exact proper.paradigms other known listed

namespace Scope

variable {scope : Scope} {t result : Transducer} {element : Xml.Element}

theorem Reads.finite {part : Part} (reads : scope.Reads element part)
    (proper : scope.registry.Proper) : part.FiniteWeights := by
  cases reads with
  | invariant | group | sides => exact trivial
  | reference paradigm _ known => exact (proper.paradigms _ paradigm known).finite
  | pattern group => exact group.transducer_finite scope.alphabet

theorem entry_finite {entry : Entry} (read : scope.readEntry element = .ok entry)
    (proper : scope.registry.Proper) :
    entry.weight.isFinite = true ∧ ∀ part ∈ entry.parts, part.FiniteWeights := by
  obtain ⟨weight, given, later⟩ := bind_eq_ok_iff.mp read
  obtain ⟨parts, _, same⟩ := bind_eq_ok_iff.mp later
  refine ⟨?_, entry_each read fun _ _ reads => reads.finite proper⟩
  rw [← pure_eq_ok_iff.mp same]
  exact finite_of_entry_weight given

/-- An entry is left out, or it is read and its path is added. -/
theorem add_entry_yields_iff : (scope.addEntry t element).Yields result ↔
    (∃ reason, scope.options.skipReason? element = some reason ∧ result = t) ∨
      (scope.options.skipReason? element = none ∧
        ∃ entry, scope.readEntry element = .ok entry ∧ result = entry.addTo scope.mode t) := by
  unfold addEntry
  cases skipped : scope.options.skipReason? element with
  | some reason =>
      constructor
      · intro done
        have done := Yields.reported done
        exact .inl ⟨reason, rfl, (Yields.pure done).symm⟩
      · rintro (⟨_, _, rfl⟩ | ⟨kept, _⟩)
        · exact ⟨#[], _, rfl⟩
        · exact nomatch kept
  | none =>
      constructor
      · intro done
        obtain ⟨entry, read, done⟩ := Yields.bind done
        exact .inr ⟨rfl, entry, read.silently, (Yields.pure done).symm⟩
      · rintro (⟨_, kept, _⟩ | ⟨_, entry, read, rfl⟩)
        · exact nomatch kept
        · rw [read]
          exact ⟨#[], _, rfl⟩

theorem add_entry_proper (proper : scope.registry.Proper) (before : t.Proper)
    (done : (scope.addEntry t element).Yields result) : result.Proper := by
  rcases add_entry_yields_iff.mp done with ⟨_, _, rfl⟩ | ⟨_, entry, read, rfl⟩
  · exact before
  · obtain ⟨weight, each⟩ := entry_finite read proper
    have sound := entry_sound read proper.copyable
    constructor
    · exact entry.add_to_rooted scope.mode sound before.rooted
    · exact entry.add_to_finite scope.mode sound before.rooted.formed before.finite each weight

end Scope

namespace Compiler

variable {compiler result : Compiler} {element : Xml.Element}

theorem read_entries_proper {name : String} {t built : Transducer} {entries : List Xml.Element}
    (proper : compiler.registry.Proper) (before : t.Proper)
    (done : (compiler.readEntries name t entries).Yields built) : built.Proper := by
  apply done.fold (fun _ built => built.Proper) _ before
  intro entry _ before after holds step
  obtain ⟨_, step⟩ := Yields.past step
  exact (compiler.scope name).add_entry_proper proper holds step

theorem Reads.proper {item : Item} (reads : compiler.Reads item result)
    (proper : compiler.registry.Proper) : result.registry.Proper := by
  cases reads with
  | opening | alphabet => exact proper
  | paradigm element paradigm _ _ _ built =>
      exact proper.define _ (read_entries_proper proper proper_initial built)
  | entries element root built =>
      exact ⟨read_entries_proper proper proper.root built, proper.paradigms⟩

theorem read_items_proper {items : List Item} (proper : compiler.registry.Proper)
    (done : (items.foldlM readItem compiler).Yields result) : result.registry.Proper := by
  apply done.fold (fun _ built => built.registry.Proper) _ proper
  intro item _ before after holds step
  exact (reads_of_yields step).proper holds

theorem read_child_proper (proper : compiler.registry.Proper)
    (done : (compiler.readChild element).Yields result) : result.registry.Proper :=
  read_items_proper proper (read_child_eq compiler element ▸ done)

/-- Whatever documents a compiler is given, its root stays proper. -/
theorem compile_all_proper {documents : List Xml.Element} (proper : compiler.registry.Proper)
    (done : (documents.foldlM compile compiler).Yields result) : result.registry.Proper :=
  read_items_proper proper (compile_all_eq compiler documents ▸ done)

end Compiler

end Dictionary

end MorphLex
