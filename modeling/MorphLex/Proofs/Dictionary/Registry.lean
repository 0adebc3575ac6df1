import Std.Data.TreeMap.Lemmas
import MorphLex.Dictionary.Registry

/-!
Names and what they stand for. Every name but that of the root stands for the paradigm that
was first defined under it.
-/

namespace MorphLex.Dictionary.Registry

variable (registry : Registry)

theorem mem_names_iff (name : String) :
    name ∈ registry.names ↔ ∃ paradigm, registry.paradigms[name]? = some paradigm := by
  rw [names, Std.TreeMap.mem_keys, Std.TreeMap.mem_iff_isSome_getElem?, Option.isSome_iff_exists]

theorem contains_iff {name : String} (named : name ≠ rootName) :
    registry.contains name = true ↔ name ∈ registry.names := by
  rw [mem_names_iff, contains, Std.TreeMap.contains_eq_isSome_getElem?, ← Option.isSome_iff_exists,
    beq_false_of_ne named, Bool.false_or]

theorem get_eq_of_named {name : String} (named : name ≠ rootName) :
    registry.get? name = registry.paradigms[name]? := by
  rw [get?, if_neg (by simpa using named)]

variable {registry}

theorem find_define {name : String} (new : registry.contains name = false) (paradigm : Transducer)
    (other : String) :
    (registry.define name paradigm).paradigms[other]? =
      if other = name then some paradigm else registry.paradigms[other]? := by
  rw [define, if_neg (by simp [new]), Std.TreeMap.getElem?_insert]
  simp only [Std.LawfulEqCmp.compare_eq_iff_eq, eq_comm (a := other)]

end MorphLex.Dictionary.Registry
