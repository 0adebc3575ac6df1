/-!
States that a search over the arrows of a finite graph meets. Nodes are the
numbers below `size`; every node enters the worklist at most once, so `size`
rounds empty it.
-/

namespace MorphLex.Reach

def discover (marks : Array Bool) (pending : List Nat) : List Nat → Array Bool × List Nat
  | [] => (marks, pending)
  | node :: rest =>
      if marks[node]? = some false then
        discover (marks.setIfInBounds node true) (node :: pending) rest
      else discover marks pending rest

/-- Takes one node from the worklist each round and follows its arrows. -/
def explore (next : Nat → List Nat) : Nat → Array Bool × List Nat → Array Bool
  | 0, (marks, _) => marks
  | _ + 1, (marks, []) => marks
  | rounds + 1, (marks, node :: pending) => explore next rounds (discover marks pending (next node))

/-- Marks exactly the nodes that arrows lead to from a seed, seeds included. -/
def closure (size : Nat) (next : Nat → List Nat) (seeds : List Nat) : Array Bool :=
  explore next size (discover (Array.replicate size false) [] seeds)

theorem size_discover (marks : Array Bool) (pending nodes : List Nat) :
    (discover marks pending nodes).1.size = marks.size := by
  induction nodes generalizing marks pending with
  | nil => rfl
  | cons node rest ih =>
      rw [discover]
      split
      · rw [ih, Array.size_setIfInBounds]
      · rw [ih]

theorem size_explore (next : Nat → List Nat) (rounds : Nat) (search : Array Bool × List Nat) :
    (explore next rounds search).size = search.1.size := by
  induction rounds generalizing search with
  | zero => rfl
  | succ rounds ih =>
      obtain ⟨marks, pending⟩ := search
      cases pending with
      | nil => rfl
      | cons node pending => rw [explore, ih, size_discover]

@[simp] theorem size_closure (size : Nat) (next : Nat → List Nat) (seeds : List Nat) :
    (closure size next seeds).size = size := by
  rw [closure, size_explore, size_discover, Array.size_replicate]

end MorphLex.Reach
