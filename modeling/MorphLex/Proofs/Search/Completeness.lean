import MorphLex.Proofs.Search.Soundness
import MorphLex.Proofs.Weight.Sum

/-!
What is there is found, and at its smallest cost, by a search that comes to its end.
The table of the search never loses ground: every place in it is either still on the
stack with its weight, or settled, so that all that follows from it is in the table
and all that it answers is found, at no greater weight.
-/

namespace MorphLex

/-- At most as large as the other weight, if that is a number. -/
def Weight.Under (lower upper : Weight) : Prop := upper.IsNumber → lower ≤ upper

namespace Weight.Under

variable {lower middle upper : Weight}

theorem refl (weight : Weight) : weight.Under weight := le_refl

theorem trans (first : lower.Under middle) (second : middle.Under upper) : lower.Under upper := by
  intro number
  have above := second number
  exact le_trans (first (le_iff_count.mp above).1) above

theorem add (under : lower.Under upper) {weight : Weight} (number : (lower + weight).IsNumber) :
    (lower + weight).Under (upper + weight) := by
  intro another
  exact add_le_add_right (under (is_number_of_add another).1) number another

end Weight.Under

namespace Search

open Weight

theorem smaller_under (old new : Weight) :
    (smaller old new).Under old ∧ (smaller old new).Under new := by
  unfold smaller
  by_cases less : new < old
  · rw [if_pos (by simp [less])]
    exact ⟨fun _ => le_of_lt less, Under.refl new⟩
  · by_cases number : old.IsNumber
    · have nan : old.isNaN = false := number
      rw [if_neg
        (by simp only [less, nan, decide_false, Bool.or_self, Bool.false_eq_true,
          not_false_eq_true])]
      exact ⟨Under.refl old, fun another => (not_lt_iff_le another number).mp less⟩
    · have nan : old.isNaN = true := Bool.not_eq_false _ ▸ number
      rw [if_pos (by rw [nan, Bool.or_true])]
      exact ⟨fun number => absurd number ‹_›, Under.refl new⟩

/-- The place is in the table with at most that weight. -/
def Covers (search : Search) (place : Place) (weight : Weight) : Prop :=
  ∃ least, search.best[place]? = some least ∧ least.Under weight

/-- The output is found with at most that weight. -/
def Finds (search : Search) (output : String) (weight : Weight) : Prop :=
  ∃ least, search.found[output]? = some least ∧ least.Under weight

theorem Covers.mono {search : Search} {place : Place} {lower upper : Weight}
    (covers : search.Covers place lower) (under : lower.Under upper) :
    search.Covers place upper := by
  obtain ⟨least, listed, below⟩ := covers
  exact ⟨least, listed, below.trans under⟩

theorem Finds.mono {search : Search} {output : String} {lower upper : Weight}
    (finds : search.Finds output lower) (under : lower.Under upper) :
    search.Finds output upper := by
  obtain ⟨least, listed, below⟩ := finds
  exact ⟨least, listed, below.trans under⟩

/-- What a search has gained in some steps, and that it has lost nothing. A weight that
is new in the table is on the stack. -/
structure Gains (old new : Search) : Prop where
  covers : ∀ {place : Place} {weight : Weight}, old.Covers place weight → new.Covers place weight
  finds : ∀ {output : String} {weight : Weight}, old.Finds output weight → new.Finds output weight
  pending : ∀ node ∈ old.pending, node ∈ new.pending
  fresh : ∀ {place : Place} {weight : Weight}, new.best[place]? = some weight →
    old.best[place]? = some weight ∨ ∃ node ∈ new.pending, node.place = place ∧ node.weight = weight

namespace Gains

variable {first second third : Search}

theorem refl (search : Search) : Gains search search :=
  ⟨id, id, fun _ member => member, .inl⟩

theorem trans (front : Gains first second) (back : Gains second third) : Gains first third := by
  refine ⟨fun covers => back.covers (front.covers covers),
    fun finds => back.finds (front.finds finds),
    fun node member => back.pending node (front.pending node member), ?_⟩
  intro place weight listed
  rcases back.fresh listed with before | waiting
  · rcases front.fresh before with earlier | ⟨node, member, same⟩
    · exact .inl earlier
    · exact .inr ⟨node, back.pending node member, same⟩
  · exact .inr waiting

end Gains

theorem gains_accept (search : Search) (output : String) (total : Weight) :
    Gains search (search.accept output total) ∧
      (search.accept output total).Finds output total := by
  unfold accept
  cases before : search.found[output]? with
  | none =>
      refine ⟨⟨id, ?_, fun _ member => member, .inl⟩, total, by simp, Under.refl total⟩
      rintro other weight ⟨least, listed, below⟩
      refine ⟨least, ?_, below⟩
      rw [Std.TreeMap.getElem?_insert, if_neg]
      · exact listed
      · intro same
        obtain rfl := Std.LawfulEqCmp.eq_of_compare same
        rw [before] at listed
        exact absurd listed (by simp)
  | some old =>
      have under := smaller_under old total
      refine ⟨⟨id, ?_, fun _ member => member, .inl⟩, smaller old total, by simp, under.2⟩
      rintro other weight ⟨least, listed, below⟩
      by_cases same : compare output other = .eq
      · obtain rfl := Std.LawfulEqCmp.eq_of_compare same
        obtain rfl := Option.some.inj (before.symm.trans listed)
        exact ⟨smaller old total, by simp, under.1.trans below⟩
      · refine ⟨least, ?_, below⟩
        rw [Std.TreeMap.getElem?_insert, if_neg same]
        exact listed

theorem gains_push (search : Search) (node : Node)
    (lowers : ∀ weight, search.best[node.place]? = some weight → node.weight.Under weight) :
    let pushed :=
      { search with
        best := search.best.insert node.place node.weight
        pending := node :: search.pending }
    Gains search pushed ∧ pushed.Covers node.place node.weight := by
  refine ⟨⟨?_, id, fun _ member => List.mem_cons_of_mem _ member, ?_⟩,
    node.weight, by simp, Under.refl node.weight⟩
  · rintro place weight ⟨least, listed, below⟩
    by_cases same : node.place = place
    · subst same
      exact ⟨node.weight, by simp, (lowers least listed).trans below⟩
    · exact ⟨least, by simpa [Std.HashMap.getElem?_insert, same] using listed, below⟩
  · intro place weight listed
    by_cases same : node.place = place
    · subst same
      have equal : node.weight = weight := by simpa using listed
      exact .inr ⟨node, List.mem_cons_self, rfl, equal⟩
    · exact .inl (by simpa [Std.HashMap.getElem?_insert, same] using listed)

theorem gains_visit (search : Search) {node : Node} (number : node.weight.IsNumber) :
    Gains search (search.visit node) ∧ (search.visit node).Covers node.place node.weight := by
  unfold visit
  split
  · next weight listed =>
    split
    · next low => exact ⟨Gains.refl search, weight, listed, fun _ => low⟩
    · next high =>
      apply gains_push
      intro other again
      obtain rfl := Option.some.inj (listed.symm.trans again)
      exact fun another => (le_total number another).resolve_right high
  · next unlisted =>
    apply gains_push
    intro other listed
    rw [unlisted] at listed
    exact absurd listed (by simp)

variable {t : Transducer} {input : List Symbol}

/-- No arc of the node that reads on is left out for the length of its output. -/
def Uncut (t : Transducer) (input : List Symbol) (node : Node) : Prop :=
  ∀ arc ∈ t.arcs node.place.1, ∀ next, advance? input arc node.place = some next → Fits node arc

/-- The sums that arise at the node are numbers: with the weights of the arcs that read
on, and at the end of the input with the final weight. -/
def Summable (t : Transducer) (input : List Symbol) (node : Node) : Prop :=
  (∀ arc ∈ t.arcs node.place.1, ∀ next, advance? input arc node.place = some next →
    (node.weight + arc.weight).IsNumber) ∧
  (node.place.2.1 = input.length → ∀ final, t.final? node.place.1 = some final →
    (node.weight + final).IsNumber)

/-- What follows from the node, as far as its output has room for it, is in the table, and
all that it answers is found. -/
structure Followed (t : Transducer) (input : List Symbol) (search : Search) (node : Node) :
    Prop where
  along : ∀ arc ∈ t.arcs node.place.1, ∀ next, advance? input arc node.place = some next →
    Fits node arc →
    (node.weight + arc.weight).IsNumber ∧ search.Covers next (node.weight + arc.weight)
  final : node.place.2.1 = input.length → ∀ final, t.final? node.place.1 = some final →
    (node.weight + final).IsNumber ∧ search.Finds node.place.2.2 (node.weight + final)

theorem Followed.gains {old new : Search} {node : Node} (followed : Followed t input old node)
    (gains : Gains old new) : Followed t input new node := by
  refine ⟨?_, ?_⟩
  · intro arc leaves next advances fits
    have along := followed.along arc leaves next advances fits
    exact ⟨along.1, gains.covers along.2⟩
  · intro whole final ends
    have finals := followed.final whole final ends
    exact ⟨finals.1, gains.finds finals.2⟩

/-- All that follows from a place reached with that weight is in the table, and all that
it answers is found. -/
structure Settled (t : Transducer) (input : List Symbol) (search : Search) (place : Place)
    (weight : Weight) : Prop where
  along : ∀ arc ∈ t.arcs place.1, ∀ next, advance? input arc place = some next →
    (weight + arc.weight).IsNumber ∧ search.Covers next (weight + arc.weight)
  final : place.2.1 = input.length → ∀ final, t.final? place.1 = some final →
    (weight + final).IsNumber ∧ search.Finds place.2.2 (weight + final)

theorem Settled.gains {old new : Search} {place : Place} {weight : Weight}
    (settled : Settled t input old place weight) (gains : Gains old new) :
    Settled t input new place weight := by
  refine ⟨?_, ?_⟩
  · intro arc leaves next advances
    have along := settled.along arc leaves next advances
    exact ⟨along.1, gains.covers along.2⟩
  · intro whole final ends
    have finals := settled.final whole final ends
    exact ⟨finals.1, gains.finds finals.2⟩

/-- Every place in the table is on the stack with its weight, or settled. -/
def Kept (t : Transducer) (input : List Symbol) (search : Search) : Prop :=
  ∀ place weight, search.best[place]? = some weight →
    (∃ node ∈ search.pending, node.place = place ∧ node.weight = weight) ∨
    Settled t input search place weight

theorem gains_conclude (search : Search) (node : Node) :
    Gains search (conclude t input search node) ∧ (node.place.2.1 = input.length → ∀ final,
      t.final? node.place.1 = some final →
        (conclude t input search node).Finds node.place.2.2 (node.weight + final)) := by
  unfold conclude
  by_cases whole : node.place.2.1 = input.length
  · rw [if_pos whole]
    cases ends : t.final? node.place.1 with
    | none => exact ⟨Gains.refl search, fun _ final same => absurd same (by simp)⟩
    | some weight =>
        obtain ⟨gains, finds⟩ := gains_accept search node.place.2.2 (node.weight + weight)
        refine ⟨gains, ?_⟩
        intro _ final same
        obtain rfl := Option.some.inj same
        exact finds
  · rw [if_neg whole]
    exact ⟨Gains.refl search, fun same => absurd same whole⟩

theorem gains_pursue (search : Search) {node : Node} {arc : Arc}
    (sums : ∀ next, advance? input arc node.place = some next →
      (node.weight + arc.weight).IsNumber) :
    Gains search (pursue input node search arc) ∧
      ∀ next, advance? input arc node.place = some next →
      Fits node arc → (pursue input node search arc).Covers next (node.weight + arc.weight) := by
  unfold pursue
  cases followed : follow? input.toArray node arc with
  | none =>
      refine ⟨Gains.refl search, fun next advances fits => ?_⟩
      rw [follow_of_fits fits, advances] at followed
      exact absurd followed (by simp)
  | some found =>
      obtain ⟨advances, adds⟩ := advance_of_follow followed
      obtain ⟨gains, covers⟩ := @gains_visit search found (adds ▸ sums _ advances)
      refine ⟨gains, fun next same _ => ?_⟩
      obtain rfl := Option.some.inj (advances.symm.trans same)
      exact adds ▸ covers

theorem gains_along {node : Node} (arcs : List Arc) (search : Search)
    (sums : ∀ arc ∈ arcs, ∀ next, advance? input arc node.place = some next →
      (node.weight + arc.weight).IsNumber) :
    Gains search (arcs.foldl (pursue input node) search) ∧
      ∀ arc ∈ arcs, ∀ next, advance? input arc node.place = some next → Fits node arc →
        (arcs.foldl (pursue input node) search).Covers next (node.weight + arc.weight) := by
  induction arcs generalizing search with
  | nil => exact ⟨Gains.refl search, fun arc member => absurd member List.not_mem_nil⟩
  | cons first arcs ih =>
      rw [List.forall_mem_cons] at sums
      obtain ⟨gains, covers⟩ := gains_pursue search sums.1
      obtain ⟨later, others⟩ := ih (pursue input node search first) sums.2
      rw [List.foldl_cons, List.forall_mem_cons]
      exact ⟨gains.trans later,
        fun next advances fits => later.covers (covers next advances fits), others⟩

/-- Expanding a node follows it. -/
theorem gains_expand (search : Search) {node : Node} (summable : Summable t input node) :
    Gains search (expand t input.toArray search node) ∧
      Followed t input (expand t input.toArray search node) node := by
  rw [expand_eq]
  obtain ⟨gains, finds⟩ := @gains_conclude t input search node
  obtain ⟨later, covers⟩ := gains_along (t.arcs node.place.1).toList (conclude t input search node)
    (fun arc member => summable.1 arc (Array.mem_toList_iff.mp member))
  refine ⟨gains.trans later, ?_, ?_⟩
  · intro arc leaves next advances fits
    exact ⟨summable.1 arc leaves next advances,
      covers arc (Array.mem_toList_iff.mpr leaves) next advances fits⟩
  · intro whole final ends
    exact ⟨summable.2 whole final ends, later.finds (finds whole final ends)⟩

theorem Followed.settled {search : Search} {node : Node} (followed : Followed t input search node)
    (uncut : Uncut t input node) : Settled t input search node.place node.weight :=
  ⟨fun arc leaves next advances =>
    followed.along arc leaves next advances (uncut arc leaves next advances), followed.final⟩

theorem Kept.expand {search : Search} {node : Node} {rest : List Node} (kept : Kept t input search)
    (waiting : search.pending = node :: rest) (uncut : Uncut t input node)
    (summable : Summable t input node) :
    Kept t input (Search.expand t input.toArray { search with pending := rest } node) := by
  obtain ⟨gains, followed⟩ := gains_expand { search with pending := rest } summable
  intro place weight listed
  rcases gains.fresh listed with before | waits
  · rcases kept place weight before with ⟨other, member, same, equal⟩ | done
    · rw [waiting] at member
      rcases List.mem_cons.mp member with rfl | later
      · subst same equal
        exact .inr (followed.settled uncut)
      · exact .inl ⟨other, gains.pending other later, same, equal⟩
    · have popped : Settled t input { search with pending := rest } place weight :=
        ⟨done.along, done.final⟩
      exact .inr (popped.gains gains)
  · exact .inl waits

/-- Some number of expansions, at most `steps`, empties the stack, and each node that is
expanded is as said. -/
inductive Completes (t : Transducer) (input : List Symbol) (holds : Node → Prop) :
    Nat → Search → Prop
  | done {steps : Nat} {search : Search} (empty : search.pending = []) :
    Completes t input holds steps search
  | step {steps : Nat} {search : Search} {node : Node} {rest : List Node}
    (waiting : search.pending = node :: rest)
      (good : holds node)
      (later : Completes t input holds steps
        (expand t input.toArray { search with pending := rest } node)) :
      Completes t input holds (steps + 1) search

theorem run_of_empty {input : Array Symbol} {search : Search} (empty : search.pending = [])
    (steps : Nat) : run t input steps search = search := by
  cases steps with
  | zero => rfl
  | succ steps => rw [run, empty]

/-- What each expansion keeps, the whole search keeps, and nothing is left on the stack. -/
theorem Completes.keeps {holds : Node → Prop} (keeps : Search → Prop)
    (expanded : ∀ search node rest, search.pending = node :: rest → holds node → keeps search →
      keeps (expand t input.toArray { search with pending := rest } node))
    {steps : Nat} {search : Search} (completes : Completes t input holds steps search)
    (before : keeps search) :
    keeps (run t input.toArray steps search) ∧ (run t input.toArray steps search).pending = [] := by
  induction completes with
  | done empty =>
      rw [run_of_empty empty]
      exact ⟨before, empty⟩
  | step waiting good _ ih =>
      rw [run, waiting]
      exact ih (expanded _ _ _ waiting good before)

/-- When nothing is left on the stack, every place in the table is settled, and none that
was in it is lost. -/
theorem Completes.settled {steps : Nat} {search : Search}
    (completes : Completes t input (fun node => Uncut t input node ∧ Summable t input node)
      steps search)
    (kept : Kept t input search) :
    (∀ place weight, search.Covers place weight →
      (run t input.toArray steps search).Covers place weight) ∧
      ∀ place weight, (run t input.toArray steps search).best[place]? = some weight →
        Settled t input (run t input.toArray steps search) place weight := by
  obtain ⟨⟨after, covers⟩, empty⟩ := completes.keeps
    (fun later => Kept t input later ∧ ∀ place weight, search.Covers place weight →
      later.Covers place weight)
    (fun middle node rest waiting good before =>
      ⟨before.1.expand waiting good.1 good.2, fun place weight covered =>
      (gains_expand { middle with pending := rest } good.2).1.covers
        (before.2 place weight covered)⟩)
    ⟨kept, fun _ _ covered => covered⟩
  refine ⟨covers, fun place weight listed => (after place weight listed).resolve_left ?_⟩
  rintro ⟨node, member, _⟩
  rw [empty] at member
  exact absurd member List.not_mem_nil

theorem listed_at_start {place : Place} {weight : Weight}
    (listed : start.best[place]? = some weight) : (0, 0, "") = place ∧ 0.0 = weight := by
  by_cases first : ((0, 0, "") : Place) = place
  · subst first
    exact ⟨rfl, by simpa [start] using listed⟩
  · have none : start.best[place]? = none := by simp [start, first]
    rw [none] at listed
    exact absurd listed (by simp)

theorem kept_start : Kept t input start := by
  intro place weight listed
  obtain ⟨rfl, rfl⟩ := listed_at_start listed
  exact .inl ⟨_, List.mem_singleton.mpr rfl, rfl, rfl⟩

/-- From a place in the table everything that a path leads to is in the table. -/
theorem Leads.covered {search : Search}
    (settled : ∀ place weight, search.best[place]? = some weight →
      Settled t input search place weight)
    {place last : Place} {path : List Arc} (leads : Leads t input place path last) {weight : Weight}
    (covers : search.Covers place weight) : search.Covers last (Transducer.total weight path) := by
  induction leads generalizing weight with
  | stay => exact covers
  | step leaves advances _ ih =>
      obtain ⟨least, listed, below⟩ := covers
      obtain ⟨number, onward⟩ := (settled _ _ listed).along _ leaves _ advances
      exact ih (onward.mono (below.add number))

/-- A search that comes to its end finds the output of every accepting path. -/
theorem Completes.finds {steps : Nat}
    (completes : Completes t input (fun node => Uncut t input node ∧ Summable t input node)
      steps start)
    {output : String} {total : Weight} (transduces : t.Transduces input output total) :
    (run t input.toArray steps start).Finds output total := by
  obtain ⟨covers, settled⟩ := completes.settled kept_start
  obtain ⟨path, last, final, leads, ends, costs⟩ := transduces_iff.mp transduces
  have begins : start.Covers (0, 0, "") 0.0 := ⟨0.0, by simp [start], Under.refl 0.0⟩
  obtain ⟨least, listed, below⟩ := leads.covered settled (covers _ _ begins)
  obtain ⟨number, finds⟩ := (settled _ _ listed).final rfl final ends
  rw [← costs]
  exact finds.mono (below.add number)

end Search

open Search

/-- Every weight that is looked up is the cost of an accepting path with that input and
output. A search that comes to its end, without leaving out an arc or meeting a sum that
is no number, finds the outputs of all accepting paths, each at its smallest cost. -/
theorem Transducer.lookup_computes_relation (t : Transducer) (input : List Symbol) :
    (∀ output total, (t.lookupSymbols input)[output]? = some total →
      t.Transduces input output total) ∧
    (Completes t input (fun node => Uncut t input node ∧ Summable t input node) maxSteps start →
      (∀ output, (∃ total, (t.lookupSymbols input)[output]? = some total) ↔
        ∃ total, t.Transduces input output total) ∧
      ∀ output least total, (t.lookupSymbols input)[output]? = some least →
        t.Transduces input output total →
        total.IsNumber → least ≤ total) := by
  refine ⟨fun output total found => lookup_transduces found, ?_⟩
  intro completes
  refine ⟨?_, ?_⟩
  · intro output
    constructor
    · rintro ⟨total, found⟩
      exact ⟨total, lookup_transduces found⟩
    · rintro ⟨total, transduces⟩
      obtain ⟨least, found, _⟩ := completes.finds transduces
      exact ⟨least, found⟩
  · intro output least total found transduces
    obtain ⟨other, again, below⟩ := completes.finds transduces
    obtain rfl := Option.some.inj (found.symm.trans again)
    exact below

/-- A silent cycle, and two arcs of which the first is the dearer: its node is stale when
it is expanded. -/
theorem Transducer.lookup_computes_relation_of_stale_node :
    let t : Transducer := ⟨#[
      { arcs := #[Arc.silent 0 1.0, { input := "a", output := "x", target := 1, weight := 2.0 },
          { input := "a", output := "x", target := 1, weight := -1.0 }] },
      { final := some 0.5 }]⟩
    Completes t ["a"] (fun node => Uncut t ["a"] node ∧ Summable t ["a"] node) maxSteps start ∧
      (∀ output, (∃ total, (t.lookupSymbols ["a"])[output]? = some total) ↔
        ∃ total, t.Transduces ["a"] output total) ∧
      ∀ output least total, (t.lookupSymbols ["a"])[output]? = some least →
        t.Transduces ["a"] output total →
        total.IsNumber → least ≤ total := by
  intro t
  have cycle : (0.0 : Weight) + 1.0 = 1.0 ∧ (0.0 : Weight) ≤ 1.0 := by decide
  have sums : (0.0 : Weight) + 2.0 = 2.0 ∧ (0.0 : Weight) + -1.0 = -1.0 ∧
    ¬(2.0 : Weight) ≤ -1.0 := by decide
  have started :
      expand t #["a"] { start with pending := [] }
          { place := (0, 0, ""), written := 0, weight := 0.0 } =
      { best := (start.best.insert (1, 1, "x") 2.0).insert (1, 1, "x") (-1.0),
        pending := [{ place := (1, 1, "x"), written := 1, weight := -1.0 },
          { place := (1, 1, "x"), written := 1, weight := 2.0 }],
        found := ∅ } := by
    simp [expand, t, start, Transducer.arcs, follow?, visit, Symbol.isEpsilon,
      Symbol.epsilon, Arc.silent, maxOutput, cycle, sums]
  have ended (search : Search) (weight : Weight) :
      expand t #["a"] search { place := (1, 1, "x"), written := 1, weight } =
        search.accept "x" (weight + 0.5) := by
    simp [expand, t, Transducer.arcs, Transducer.final?]
  have short (node : Node) (few : node.written < maxOutput) : Uncut t ["a"] node :=
    fun _ _ _ _ => .inr few
  have begins : Summable t ["a"] { place := (0, 0, ""), written := 0, weight := 0.0 } := by
    refine ⟨?_, fun whole => absurd whole (by decide)⟩
    intro arc leaves _ _
    simp only [t, Transducer.arcs, Array.getD_eq_getD_getElem?, List.getElem?_toArray,
      List.getElem?_cons_zero, Option.getD_some, List.mem_toArray, List.mem_cons, List.not_mem_nil,
      or_false] at leaves
    rcases leaves with rfl | rfl | rfl
    · decide
    · decide
    · decide
  have finishes (weight : Weight) (number : (weight + 0.5).IsNumber) :
      Summable t ["a"] { place := (1, 1, "x"), written := 1, weight } := by
    refine ⟨fun arc leaves => absurd leaves (by simp [t, Transducer.arcs]), ?_⟩
    intro _ final ends
    obtain rfl : 0.5 = final := Option.some.inj ends
    exact number
  have completes :
      Completes t ["a"] (fun node => Uncut t ["a"] node ∧ Summable t ["a"] node)
        maxSteps start := by
    refine .step rfl ⟨short _ (by decide), begins⟩ ?_
    rw [started]
    refine .step rfl ⟨short _ (by decide), finishes _ (by decide)⟩ ?_
    rw [ended]
    refine .step rfl ⟨short _ (by decide), finishes _ (by decide)⟩ ?_
    rw [ended]
    exact .done rfl
  exact ⟨completes, (Transducer.lookup_computes_relation t ["a"]).2 completes⟩

end MorphLex
