import MorphLex.Graph.Reach

/-!
The search marks exactly the nodes that it can meet. Every node that is not yet
marked costs one round later, and so do the nodes on the worklist; their number
never grows, so the worklist is empty when the rounds are used up.
-/

namespace MorphLex.Reach

/-- The nodes below `size` that arrows through such nodes lead to from a seed. -/
inductive Met (size : Nat) (next : Nat → List Nat) (seeds : List Nat) : Nat → Prop
  | seed {node : Nat} (listed : node ∈ seeds) (inside : node < size) : Met size next seeds node
  | step {node successor : Nat} (before : Met size next seeds node) (arrow : successor ∈ next node)
      (inside : successor < size) : Met size next seeds successor

section Discover

variable (marks : Array Bool) (pending nodes : List Nat)

theorem marked_discover_iff (node : Nat) :
    (discover marks pending nodes).1[node]? = some true ↔
      marks[node]? = some true ∨ (node ∈ nodes ∧ node < marks.size) := by
  induction nodes generalizing marks pending with
  | nil => simp [discover]
  | cons first rest ih =>
      rw [discover]
      split
      · next unmarked =>
        have inside : first < marks.size := (Array.getElem?_eq_some_iff.mp unmarked).1
        rw [ih, Array.getElem?_setIfInBounds, Array.size_setIfInBounds, List.mem_cons]
        by_cases same : first = node
        · subst same
          simp [inside]
        · simp [same, Ne.symm same]
      · next met =>
        rw [ih, List.mem_cons]
        constructor
        · rintro (marked | ⟨listed, inside⟩)
          · exact .inl marked
          · exact .inr ⟨.inr listed, inside⟩
        · rintro (marked | ⟨rfl | listed, inside⟩)
          · exact .inl marked
          · rw [Array.getElem?_eq_getElem inside] at met ⊢
            exact .inl (by simpa using met)
          · exact .inr ⟨listed, inside⟩

theorem mem_pending_discover (node : Nat) :
    node ∈ (discover marks pending nodes).2 ↔ node ∈ pending ∨
      (marks[node]? = some false ∧ node ∈ nodes) := by
  induction nodes generalizing marks pending with
  | nil => simp [discover]
  | cons first rest ih =>
      rw [discover]
      split
      · next unmarked =>
        have inside : first < marks.size := (Array.getElem?_eq_some_iff.mp unmarked).1
        rw [ih, Array.getElem?_setIfInBounds, List.mem_cons, List.mem_cons]
        by_cases same : first = node
        · subst same
          rw [if_pos rfl, if_pos inside]
          simp [unmarked]
        · simp [same, Ne.symm same]
      · next met =>
        rw [ih, List.mem_cons]
        constructor
        · rintro (waiting | ⟨unmarked, listed⟩)
          · exact .inl waiting
          · exact .inr ⟨unmarked, .inr listed⟩
        · rintro (waiting | ⟨unmarked, rfl | listed⟩)
          · exact .inl waiting
          · exact absurd unmarked met
          · exact .inr ⟨unmarked, listed⟩

/-- The rounds that a search may still need. -/
def work (search : Array Bool × List Nat) : Nat := search.1.count false + search.2.length

theorem work_discover : work (discover marks pending nodes) = work (marks, pending) := by
  induction nodes generalizing marks pending with
  | nil => rfl
  | cons first rest ih =>
      rw [discover]
      split
      · next unmarked =>
        obtain ⟨inside, value⟩ := Array.getElem?_eq_some_iff.mp unmarked
        have counted : 0 < marks.count false :=
          Array.count_pos_iff.mpr (value ▸ Array.getElem_mem inside)
        rw [ih, work, work, Array.setIfInBounds, dif_pos inside, Array.count_set inside, value,
          List.length_cons]
        simp only [beq_self_eq_true, if_true, Bool.true_beq, Bool.false_eq_true, if_false]
        omega
      · exact ih marks pending

end Discover

/-- Marked nodes are met, and either wait on the worklist or have had their
arrows followed. -/
structure Progress (size : Nat) (next : Nat → List Nat) (seeds : List Nat) (marks : Array Bool)
    (pending : List Nat) : Prop where
  size_eq : marks.size = size
  met : ∀ node, marks[node]? = some true → Met size next seeds node
  waiting : ∀ node ∈ pending, marks[node]? = some true
  started : ∀ node ∈ seeds, node < size → marks[node]? = some true
  followed : ∀ node, marks[node]? = some true → node ∈ pending ∨
    ∀ successor ∈ next node, successor < size → marks[successor]? = some true

section Search

variable {size : Nat} {next : Nat → List Nat} {seeds : List Nat} {marks : Array Bool}
    {pending : List Nat}

theorem progress_start (size : Nat) (next : Nat → List Nat) (seeds : List Nat) :
    Progress size next seeds (discover (Array.replicate size false) [] seeds).1
      (discover (Array.replicate size false) [] seeds).2 := by
  have blank (node : Nat) : (Array.replicate size false)[node]? ≠ some true := by
    rw [Array.getElem?_replicate]
    split <;> simp
  have marked (node : Nat) : (discover (Array.replicate size false) [] seeds).1[node]? = some true ↔
      node ∈ seeds ∧ node < size := by
    rw [marked_discover_iff, Array.size_replicate]
    simp only [blank, false_or]
  constructor
  · rw [size_discover, Array.size_replicate]
  · intro node isMarked
    obtain ⟨listed, inside⟩ := (marked node).mp isMarked
    exact .seed listed inside
  · intro node waits
    obtain impossible | ⟨unmarked, listed⟩ := (mem_pending_discover _ _ _ node).mp waits
    · simp at impossible
    · rw [Array.getElem?_replicate] at unmarked
      split at unmarked
      · next inside => exact (marked node).mpr ⟨listed, inside⟩
      · simp at unmarked
  · intro node listed inside
    exact (marked node).mpr ⟨listed, inside⟩
  · intro node isMarked
    obtain ⟨listed, inside⟩ := (marked node).mp isMarked
    exact .inl
      ((mem_pending_discover _ _ _ node).mpr
        (.inr ⟨by rw [Array.getElem?_replicate, if_pos inside], listed⟩))

theorem Progress.follow {node : Nat} (progress : Progress size next seeds marks (node :: pending)) :
    Progress size next seeds (discover marks pending (next node)).1
      (discover marks pending (next node)).2 := by
  have here : Met size next seeds node :=
    progress.met node (progress.waiting node List.mem_cons_self)
  have kept (other : Nat) (before : marks[other]? = some true) :
      (discover marks pending (next node)).1[other]? = some true :=
    (marked_discover_iff _ _ _ other).mpr (.inl before)
  constructor
  · rw [size_discover, progress.size_eq]
  · intro other isMarked
    rcases (marked_discover_iff _ _ _ other).mp isMarked with before | ⟨arrow, inside⟩
    · exact progress.met other before
    · exact .step here arrow (progress.size_eq ▸ inside)
  · intro other waits
    rcases (mem_pending_discover _ _ _ other).mp waits with before | ⟨unmarked, arrow⟩
    · exact kept other (progress.waiting other (List.mem_cons_of_mem _ before))
    · exact (marked_discover_iff _ _ _ other).mpr
        (.inr ⟨arrow, (Array.getElem?_eq_some_iff.mp unmarked).1⟩)
  · intro other listed inside
    exact kept other (progress.started other listed inside)
  · intro other isMarked
    by_cases before : marks[other]? = some true
    · rcases progress.followed other before with waits | done
      · rcases List.mem_cons.mp waits with rfl | later
        · refine .inr fun successor arrow inside => ?_
          exact (marked_discover_iff _ _ _ successor).mpr (.inr ⟨arrow, progress.size_eq ▸ inside⟩)
        · exact .inl ((mem_pending_discover _ _ _ other).mpr (.inl later))
      · exact .inr fun successor arrow inside => kept successor (done successor arrow inside)
    · rcases (marked_discover_iff _ _ _ other).mp isMarked with impossible | ⟨arrow, inside⟩
      · exact absurd impossible before
      · have unmarked : marks[other]? = some false := by
          rw [Array.getElem?_eq_getElem inside] at before ⊢
          simpa using before
        exact .inl ((mem_pending_discover _ _ _ other).mpr (.inr ⟨unmarked, arrow⟩))

theorem Progress.finished (progress : Progress size next seeds marks []) (node : Nat) :
    marks[node]? = some true ↔ Met size next seeds node := by
  refine ⟨progress.met node, fun met => ?_⟩
  induction met with
  | seed listed inside => exact progress.started _ listed inside
  | step before arrow inside ih =>
      rcases progress.followed _ ih with impossible | done
      · simp at impossible
      · exact done _ arrow inside

theorem marked_explore_iff (rounds : Nat) (progress : Progress size next seeds marks pending)
    (enough : work (marks, pending) ≤ rounds) (node : Nat) :
    (explore next rounds (marks, pending))[node]? = some true ↔ Met size next seeds node := by
  induction rounds generalizing marks pending with
  | zero =>
      have empty : pending = [] := by
        simp only [work] at enough
        exact List.length_eq_zero_iff.mp (by omega)
      subst empty
      exact progress.finished node
  | succ rounds ih =>
      cases pending with
      | nil => exact progress.finished node
      | cons first pending =>
          rw [explore]
          -- Marking moves a node from the unmarked ones to the worklist, so only the round counts.
          apply ih progress.follow
          have kept : work (discover marks pending (next first)) = work (marks, pending) :=
            work_discover marks pending _
          simp only [work, List.length_cons] at enough kept ⊢
          omega

end Search

/-- The marks are those of the nodes that arrows lead to from a seed. -/
theorem marked_closure_iff (size : Nat) (next : Nat → List Nat) (seeds : List Nat) (node : Nat) :
    (closure size next seeds).getD node false = true ↔ Met size next seeds node := by
  have enough : work (discover (Array.replicate size false) [] seeds) ≤ size := by
    rw [work_discover]
    simp [work]
  have marked :
      (explore next size (discover (Array.replicate size false) [] seeds))[node]? = some true ↔
      Met size next seeds node :=
        marked_explore_iff size (progress_start size next seeds) enough node
  rw [closure, Array.getD_eq_getD_getElem?, ← marked]
  cases (explore next size (discover (Array.replicate size false) [] seeds))[node]? <;> simp

theorem Met.lt_size {size : Nat} {next : Nat → List Nat} {seeds : List Nat} {node : Nat}
    (met : Met size next seeds node) : node < size := by
  cases met <;> assumption

/-- More arrows and more seeds lead to no fewer nodes. -/
theorem Met.mono {size : Nat} {next further : Nat → List Nat} {seeds others : List Nat} {node : Nat}
    (arrows : ∀ node, node < size → ∀ successor ∈ next node, successor ∈ further node)
    (starts : ∀ seed ∈ seeds, seed ∈ others) (met : Met size next seeds node) :
    Met size further others node := by
  induction met with
  | seed listed inside => exact .seed (starts _ listed) inside
  | step before arrow inside ih => exact .step ih (arrows _ before.lt_size _ arrow) inside

end MorphLex.Reach
