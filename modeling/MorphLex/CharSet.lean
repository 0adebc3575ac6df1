import MorphLex.Order.Ascending

/-!
Finite sets of characters, kept as strictly ascending lists, so that equal sets
are equal values. The alphabet of a dictionary is one.
-/

namespace MorphLex

/-- A set of characters listed in code point order. -/
structure CharSet where
  toList : List Char
  ascending : toList.Pairwise fun first second => compare first second = .lt
deriving DecidableEq

namespace CharSet

def empty : CharSet := ⟨[], .nil⟩

instance : Inhabited CharSet := ⟨empty⟩

def ofList (characters : List Char) : CharSet :=
  ⟨Ascending.ofList compare characters, Ascending.pairwise_of_list compare characters⟩

instance : Membership Char CharSet := ⟨fun set character => character ∈ set.toList⟩

instance (character : Char) (set : CharSet) : Decidable (character ∈ set) :=
  inferInstanceAs (Decidable (character ∈ set.toList))

def insertAll (set : CharSet) (characters : List Char) : CharSet :=
  ofList (set.toList ++ characters)

def filter (set : CharSet) (keep : Char → Bool) : CharSet :=
  ⟨set.toList.filter keep, set.ascending.filter keep⟩

def isEmpty (set : CharSet) : Bool := set.toList.isEmpty

@[simp] theorem mem_of_list (character : Char) (characters : List Char) :
    character ∈ ofList characters ↔ character ∈ characters :=
  Ascending.mem_of_list compare characters character

@[simp] theorem mem_insert_all (character : Char) (set : CharSet) (characters : List Char) :
    character ∈ set.insertAll characters ↔ character ∈ set ∨ character ∈ characters := by
  rw [insertAll, mem_of_list, List.mem_append]
  rfl

@[simp] theorem mem_filter (character : Char) (set : CharSet) (keep : Char → Bool) :
    character ∈ set.filter keep ↔ character ∈ set ∧ keep character = true :=
  List.mem_filter

end CharSet

end MorphLex
