import Std.Data.TreeMap.Basic
import MorphLex.Transducer.Basic

/-!
Compiled paradigms by name. The root, which sections compile into, always
exists and has the empty name; a named paradigm is defined once.
-/

namespace MorphLex.Dictionary

structure Registry where
  root : Transducer := .initial
  paradigms : Std.TreeMap String Transducer := ∅

namespace Registry

def rootName : String := ""

def contains (registry : Registry) (name : String) : Bool :=
  name == rootName || registry.paradigms.contains name

def get? (registry : Registry) (name : String) : Option Transducer :=
  if name == rootName then some registry.root else registry.paradigms[name]?

/-- Adds a paradigm, unless its name is taken. -/
def define (registry : Registry) (name : String) (paradigm : Transducer) : Registry :=
  if registry.contains name then registry
  else { registry with paradigms := registry.paradigms.insert name paradigm }

theorem root_define (registry : Registry) (name : String) (paradigm : Transducer) :
    (registry.define name paradigm).root = registry.root := by
  rw [define]
  split
  · rfl
  · rfl

def names (registry : Registry) : List String := registry.paradigms.keys

end Registry

end MorphLex.Dictionary
