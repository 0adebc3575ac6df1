import MorphLex.Proofs.Search.Completeness

/-!
When a search stays within its limits. Each node on the stack answers for the nodes
that can still come from it: a load is given to every state, greater than the loads
of all that its arcs lead to together. Each expansion then makes the stack lighter,
so that the load of the start bounds the steps of every search.
-/

namespace MorphLex

namespace Transducer

/-- Every state has a load above those of its targets together, and a rank above that
of each target. -/
structure Ranked (t : Transducer) (load rank : StateId → Nat) : Prop where
  load : ∀ state < t.size, ((t.arcs state).toList.map fun arc => load arc.target).sum < load state
  rank : ∀ state < t.size, ∀ arc ∈ (t.arcs state).toList, rank arc.target < rank state

/-- The search for the input comes to its end within its steps, and follows every arc
that reads on: no output grows too long. -/
def WithinLimits (t : Transducer) (input : List Symbol) : Prop :=
  Search.Completes t input (Search.Uncut t input) Search.maxSteps Search.start

end Transducer

namespace Search

variable {t : Transducer} {input : List Symbol}

theorem pending_conclude (search : Search) (node : Node) :
    (conclude t input search node).pending = search.pending := by
  unfold conclude
  split
  · split
    · rfl
    · rfl
  · rfl

theorem pending_visit (search : Search) (node : Node) :
    (search.visit node).pending = search.pending ∨
      (search.visit node).pending = node :: search.pending := by
  unfold visit
  split
  · split
    · exact .inl rfl
    · exact .inr rfl
  · exact .inr rfl

/-- What an arc leads to lies at its target, with at most one more symbol written. -/
theorem follow_target {node next : Node} {arc : Arc} (fits : Fits node arc)
    (followed : follow? input.toArray node arc = some next) :
    next.place.1 = arc.target ∧ next.written ≤ node.written + 1 := by
  have leads := (advance_of_follow followed).1
  rw [follow_of_fits fits, leads] at followed
  rw [advance?, Option.map_eq_some_iff] at leads
  obtain ⟨position, _, place⟩ := leads
  constructor
  · rw [← place]
  · rw [← Option.some.inj followed]
    dsimp only
    split
    · exact Nat.le_succ _
    · exact Nat.le_refl _

/-- What the nodes on the stack answer for, together. -/
def owed (load : StateId → Nat) (nodes : List Node) : Nat :=
  (nodes.map fun node => load node.place.1).sum

theorem owed_pursue (load : StateId → Nat) {holds : Node → Prop} {node : Node} {arc : Arc}
    (search : Search) (fits : Fits node arc)
    (kept : ∀ next : Node, next.place.1 = arc.target → next.written ≤ node.written + 1 → holds next)
    (waiting : ∀ other ∈ search.pending, holds other) :
    owed load (pursue input node search arc).pending ≤ load arc.target + owed load search.pending ∧
      ∀ other ∈ (pursue input node search arc).pending, holds other := by
  unfold pursue
  split
  · next next followed =>
    obtain ⟨place, written⟩ := follow_target fits followed
    rcases pending_visit search next with same | pushed
    · rw [same]
      exact ⟨Nat.le_add_left _ _, waiting⟩
    · rw [pushed, List.forall_mem_cons, owed, List.map_cons, List.sum_cons, place]
      exact ⟨Nat.le_refl _, kept next place written, waiting⟩
  · exact ⟨Nat.le_add_left _ _, waiting⟩

theorem owed_along (load : StateId → Nat) {holds : Node → Prop} {node : Node} (arcs : List Arc)
    (search : Search)
    (fits : ∀ arc ∈ arcs, Fits node arc)
    (kept : ∀ arc ∈ arcs, ∀ next : Node, next.place.1 = arc.target →
      next.written ≤ node.written + 1 → holds next)
    (waiting : ∀ other ∈ search.pending, holds other) :
    owed load (arcs.foldl (pursue input node) search).pending ≤
        (arcs.map fun arc => load arc.target).sum + owed load search.pending ∧
      ∀ other ∈ (arcs.foldl (pursue input node) search).pending, holds other := by
  induction arcs generalizing search with
  | nil => exact ⟨Nat.le_add_left _ _, waiting⟩
  | cons arc arcs ih =>
      rw [List.forall_mem_cons] at fits kept
      obtain ⟨lighter, holding⟩ := owed_pursue load search fits.1 kept.1 waiting
      obtain ⟨total, after⟩ := ih (pursue input node search arc) fits.2 kept.2 holding
      constructor
      · rw [List.foldl_cons, List.map_cons, List.sum_cons]
        omega
      · exact after

end Search

open Search

namespace Transducer

variable {t : Transducer} {load rank : StateId → Nat}

/-- The node lies at a state, and what it can still write fits into its output. -/
def Roomy (t : Transducer) (rank : StateId → Nat) (node : Node) : Prop :=
  node.place.1 < t.size ∧ node.written + rank node.place.1 ≤ maxOutput

/-- Expanding a node follows every arc, and makes the stack lighter. -/
theorem Ranked.expand (ranked : t.Ranked load rank) (formed : t.WellFormed) {input : List Symbol}
    {search : Search} {node : Node} {rest : List Node} (stack : search.pending = node :: rest)
    (roomy : ∀ other ∈ search.pending, t.Roomy rank other) :
    Uncut t input node ∧
      owed load (expand t input.toArray { search with pending := rest } node).pending <
        owed load search.pending ∧
      ∀ other ∈ (expand t input.toArray { search with pending := rest } node).pending,
        t.Roomy rank other := by
  rw [stack, List.forall_mem_cons] at roomy
  obtain ⟨inside, room⟩ := roomy.1
  have lighter := ranked.load node.place.1 inside
  have lower := ranked.rank node.place.1 inside
  have fits : ∀ arc ∈ (t.arcs node.place.1).toList, Fits node arc := by
    intro arc member
    have below := lower arc member
    exact .inr (by omega)
  have kept : ∀ arc ∈ (t.arcs node.place.1).toList, ∀ next : Node,
      next.place.1 = arc.target → next.written ≤ node.written + 1 → t.Roomy rank next := by
    intro arc member next place written
    have below := lower arc member
    rw [Roomy, place]
    exact ⟨formed.target_lt (Array.mem_toList_iff.mp member), by omega⟩
  have popped : (conclude t input { search with pending := rest } node).pending = rest :=
    pending_conclude { search with pending := rest } node
  have waiting : ∀ other ∈ (conclude t input { search with pending := rest } node).pending,
    t.Roomy rank other := by
    rw [popped]
    exact roomy.2
  obtain ⟨total, after⟩ := owed_along load (t.arcs node.place.1).toList
    (conclude t input { search with pending := rest } node) fits kept waiting
  rw [popped] at total
  constructor
  · intro arc leaves _ _
    exact fits arc (Array.mem_toList_iff.mpr leaves)
  · rw [expand_eq, stack, owed, owed, List.map_cons, List.sum_cons]
    exact ⟨Nat.lt_of_le_of_lt total (Nat.add_lt_add_right lighter _), after⟩

/-- A transducer without cycles stays within the limits on every input, when its start has
a load of no more than the steps and a rank of no more than the output length. -/
theorem Ranked.within_limits (ranked : t.Ranked load rank) (formed : t.WellFormed)
    (few : load 0 ≤ maxSteps) (short : rank 0 ≤ maxOutput) (input : List Symbol) :
    t.WithinLimits input := by
  have runs (steps : Nat) (search : Search) (enough : owed load search.pending ≤ steps)
      (roomy : ∀ node ∈ search.pending, t.Roomy rank node) :
        Completes t input (Uncut t input) steps search := by
    induction steps generalizing search with
    | zero =>
        cases stack : search.pending with
        | nil => exact .done stack
        | cons node rest =>
            have lighter :=
              (@Ranked.expand t load rank ranked formed input search node rest stack roomy).2.1
            omega
    | succ steps ih =>
        cases stack : search.pending with
        | nil => exact .done stack
        | cons node rest =>
            obtain ⟨uncut, lighter, after⟩ := ranked.expand formed stack roomy
            exact .step stack uncut (ih _ (by omega) after)
  apply runs
  · exact few
  · intro node member
    obtain rfl := List.mem_singleton.mp member
    exact ⟨formed.1, by simpa using short⟩

end Transducer

end MorphLex
