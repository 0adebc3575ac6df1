import Mathlib.Data.Set.Function
import MorphLex.Proofs.Transducer.Trim

/-!
Trimming keeps exactly the useful states. Those are the states on a path from the start to
a final state; they stay in their order, next to the start, with the arcs between them. The
accepting paths of the two transducers correspond one to one. Arcs are told apart by their
places here, so that equal arcs at one state make different paths.
-/

namespace MorphLex

section Places

variable {Item : Type} {keeps : Item → Bool} {items : List Item}

/-- A kept item stands behind as many items as are kept before it. -/
theorem get_filter_of_kept {place : Nat} {item : Item} (found : items[place]? = some item)
    (kept : keeps item = true) :
    (items.filter keeps)[(items.take place).countP keeps]? = some item := by
  induction items generalizing place with
  | nil => simp at found
  | cons first rest ih =>
      cases place with
      | zero =>
          obtain rfl : first = item := by simpa using found
          rw [List.filter_cons_of_pos kept]
          rfl
      | succ place =>
          have later := ih (by simpa using found)
          rw [List.take_succ_cons, List.countP_cons, List.filter_cons]
          cases passes : keeps first with
          | true => simpa [passes] using later
          | false => simpa [passes] using later

theorem exists_place_of_filter {number : Nat} {item : Item}
    (found : (items.filter keeps)[number]? = some item) :
    ∃ place : Nat, items[place]? = some item ∧ keeps item = true ∧
      (items.take place).countP keeps = number := by
  induction items generalizing number with
  | nil => simp at found
  | cons first rest ih =>
      cases passes : keeps first with
      | true =>
          rw [List.filter_cons_of_pos passes] at found
          cases number with
          | zero =>
              obtain rfl : first = item := by simpa using found
              exact ⟨0, rfl, passes, rfl⟩
          | succ number =>
              obtain ⟨place, stands, kept, counted⟩ := ih (by simpa using found)
              exact ⟨place +
                1, by simpa using stands, kept, by
                  rw [List.take_succ_cons, List.countP_cons_of_pos passes, counted]⟩
      | false =>
          rw [List.filter_cons_of_neg (by simp [passes])] at found
          obtain ⟨place, stands, kept, counted⟩ := ih found
          refine ⟨place + 1, by simpa using stands, kept, ?_⟩
          rw [List.take_succ_cons, List.countP_cons_of_neg (by simp [passes]), counted]

theorem place_of_count_eq {first second : Nat} {item other : Item}
    (found : items[first]? = some item) (foundToo : items[second]? = some other)
    (kept : keeps item = true) (keptToo : keeps other = true)
    (same : (items.take first).countP keeps = (items.take second).countP keeps) :
    first = second := by
  induction items generalizing first second with
  | nil => simp at found
  | cons head rest ih =>
      cases first with
      | zero =>
          cases second with
          | zero => rfl
          | succ second =>
              obtain rfl : head = item := by simpa using found
              rw [List.take_succ_cons, List.countP_cons_of_pos kept] at same
              exact absurd same.symm (Nat.succ_ne_zero _)
      | succ first =>
          cases second with
          | zero =>
              obtain rfl : head = other := by simpa using foundToo
              rw [List.take_succ_cons, List.countP_cons_of_pos keptToo] at same
              exact absurd same (Nat.succ_ne_zero _)
          | succ second =>
              rw [List.take_succ_cons, List.take_succ_cons, List.countP_cons,
                List.countP_cons] at same
              exact congrArg (· + 1)
                (ih (by simpa using found) (by simpa using foundToo) (Nat.add_right_cancel same))

end Places

/-- The arc to the number of its target among the kept states. -/
def Arc.renumbered (kept : List StateId) (arc : Arc) : Arc :=
  { arc with target := kept.idxOf arc.target }

namespace Transducer

variable {t : Transducer}

/-- The state lies on a path from the start to a final state. -/
def Traversed (t : Transducer) (state : StateId) : Prop :=
  (∃ path, t.Run 0 path state) ∧ t.Productive state

section Marks

theorem accessible_of_run (formed : t.WellFormed) {first last : StateId} {path : List Arc}
    (run : t.Run first path last) (marked : t.accessible.getD first false = true) :
    t.accessible.getD last false = true := by
  induction run with
  | stay state => exact marked
  | step leaves _ ih => exact ih (accessible_target formed leaves marked)

theorem accessible_iff (formed : t.WellFormed) (state : StateId) :
    t.accessible.getD state false = true ↔ ∃ path, t.Run 0 path state := by
  constructor
  · intro marked
    induction (Reach.marked_closure_iff _ _ _ state).mp marked with
    | seed listed inside =>
        obtain rfl := List.mem_singleton.mp listed
        exact ⟨[], .stay 0⟩
    | @step node successor before arrow inside ih =>
        obtain ⟨path, run⟩ := ih ((Reach.marked_closure_iff _ _ _ node).mpr before)
        obtain ⟨arc, leaves, rfl⟩ := List.mem_map.mp arrow
        exact ⟨path ++ [arc], run.append (.step (Array.mem_toList_iff.mp leaves) (.stay _))⟩
  · rintro ⟨path, run⟩
    exact accessible_of_run formed run (accessible_start formed.1)

theorem coaccessible_iff (formed : t.WellFormed) (state : StateId) :
    t.coaccessible.getD state false = true ↔ t.Productive state := by
  constructor
  · intro marked
    induction (Reach.marked_closure_iff _ _ _ state).mp marked with
    | seed listed inside =>
        obtain ⟨⟨state, weight⟩, final, rfl⟩ := List.mem_map.mp listed
        exact ⟨[], state, weight, .stay state, (mem_finals_iff t state weight).mp final⟩
    | @step node state before arrow inside ih =>
        obtain ⟨arc, leaves, rfl⟩ := (mem_predecessors_iff t before.lt_size state).mp arrow
        obtain ⟨path, last, weight, run, ends⟩ :=
          ih ((Reach.marked_closure_iff _ _ _ arc.target).mpr before)
        exact ⟨arc :: path, last, weight, .step leaves run, ends⟩
  · exact Productive.coaccessible formed

theorem Productive.lt_size {state : StateId} (productive : t.Productive state) :
    state < t.size := by
  obtain ⟨path, last, weight, run, ends⟩ := productive
  cases run with
  | stay => exact lt_size_of_final ends
  | step leaves _ => exact lt_size_of_mem_arcs leaves

end Marks

section Kept

/-- The states that trimming keeps, in ascending order. -/
def survivors (t : Transducer) : List StateId :=
  (List.range t.size).filter fun state => t.useful.getD state false

theorem useful_eq_map (t : Transducer) :
    t.useful = (List.range t.size).map fun state => t.useful.getD state false := by
  apply List.ext_getElem?
  intro state
  rw [List.getElem?_map]
  by_cases inside : state < t.size
  · have present : state < t.useful.length := by rwa [length_useful]
    rw [List.getElem?_range inside, Option.map_some, List.getD_eq_getElem?_getD,
      List.getElem?_eq_getElem present, Option.getD_some]
  · have outside := Nat.le_of_not_lt inside
    rw [List.getElem?_eq_none (by rwa [length_useful]),
      List.getElem?_eq_none (by rwa [List.length_range])]
    rfl

theorem count_useful (t : Transducer) (state : StateId) :
    (t.useful.take state).count true =
      ((List.range t.size).take state).countP fun state => t.useful.getD state false := by
  conv_lhs => rw [useful_eq_map]
  rw [← List.map_take, List.count_eq_countP, List.countP_map]
  simp [Function.comp_def]

theorem kept_iff_survivor (t : Transducer) (state number : StateId) :
    t.Kept state number ↔ t.survivors[number]? = some state := by
  rw [kept_iff, count_useful, survivors]
  constructor
  · rintro ⟨marked, rfl⟩
    have inside := ((useful_iff t state).mp marked).1
    refine get_filter_of_kept (List.getElem?_range inside) ?_
    rw [List.getD_eq_getElem?_getD, marked]
    rfl
  · intro found
    obtain ⟨place, stands, marked, rfl⟩ := exists_place_of_filter found
    obtain ⟨within, value⟩ := List.getElem?_eq_some_iff.mp stands
    obtain rfl : place = state := by rwa [List.getElem_range] at value
    rw [List.getD_eq_getElem?_getD] at marked
    exact ⟨by cases entry : t.useful[place]? <;> simp_all, rfl⟩

theorem mem_survivors_iff (formed : t.WellFormed) (state : StateId) :
    state ∈ t.survivors ↔ state = 0 ∨ t.Traversed state := by
  have marked : t.useful.getD state false = true ↔ t.useful[state]? = some true := by
    rw [List.getD_eq_getElem?_getD]
    cases t.useful[state]? <;> simp
  rw [survivors, List.mem_filter, List.mem_range, marked, useful_iff, accessible_iff formed,
    coaccessible_iff formed]
  constructor
  · rintro ⟨_, _, kept⟩
    exact kept
  · intro kept
    have inside : state < t.size := by
      rcases kept with rfl | ⟨_, productive⟩
      · exact formed.1
      · exact productive.lt_size
    exact ⟨inside, inside, kept⟩

theorem ascending_survivors (t : Transducer) : t.survivors.Pairwise (· < ·) :=
  List.pairwise_lt_range.filter _

theorem idx_of_survivor {state number : StateId} (kept : t.Kept state number) :
    t.survivors.idxOf state = number := by
  obtain ⟨inside, found⟩ :=
    List.getElem?_eq_some_iff.mp ((kept_iff_survivor t state number).mp kept)
  have distinct : t.survivors.Nodup := (ascending_survivors t).imp Nat.ne_of_lt
  rw [← found]
  exact distinct.idxOf_getElem number inside

theorem mem_survivors_of_kept {state number : StateId} (kept : t.Kept state number) :
    state ∈ t.survivors :=
  List.mem_of_getElem? ((kept_iff_survivor t state number).mp kept)

theorem size_trim (t : Transducer) : t.trim.size = t.survivors.length := by
  have counted := count_useful t t.size
  rw [List.take_of_length_le (by rw [length_useful]),
    List.take_of_length_le (by rw [List.length_range])] at counted
  rw [(states_trim t).1, counted, List.countP_eq_length_filter, survivors]

/-- A state that leads on keeps its arcs to kept states, in their order. -/
theorem Kept.arcs {state number : StateId} (kept : t.Kept state number)
    (ahead : t.coaccessible.getD state false = true) :
    t.trim.arcs number =
      ((t.arcs state).filter fun arc => arc.target ∈ t.survivors).map
        (Arc.renumbered t.survivors) := by
  have number_eq (arc : Arc) : ((renumberFrom 0 t.useful).toArray.getD arc.target none).map
      (fun target => ({ arc with target } : Arc)) =
        if arc.target ∈ t.survivors then some (arc.renumbered t.survivors) else none := by
    cases entry : (renumberFrom 0 t.useful).toArray.getD arc.target none with
    | some target =>
        have found := (numbers_getD_eq_some_iff t _ _).mp entry
        rw [if_pos (mem_survivors_of_kept found), Arc.renumbered, idx_of_survivor found]
        rfl
    | none =>
        have lost : arc.target ∉ t.survivors := by
          intro listed
          obtain ⟨target, found⟩ := List.mem_iff_getElem?.mp listed
          rw [(numbers_getD_eq_some_iff t _ _).mpr ((kept_iff_survivor t _ _).mpr found)] at entry
          exact nomatch entry
        rw [if_neg lost]
        rfl
  rw [arcs_eq, (states_trim t).2 state number kept, arcs_eq, Array.getElem?_eq_getElem kept.lt_size,
    Option.map_some, Option.getD_some, Option.getD_some, trimState, if_pos ahead]
  apply Array.toList_inj.mp
  rw [Array.toList_filterMap, Array.toList_map, Array.toList_filter, ← List.filterMap_eq_map,
    ← List.filterMap_eq_filter, List.filterMap_filterMap]
  apply List.filterMap_congr
  intro arc _
  rw [number_eq]
  by_cases listed : arc.target ∈ t.survivors
  · simp [listed]
  · simp [listed, Option.guard]

/-- On the way to a final state the next state is kept as well. -/
theorem Kept.next (formed : t.WellFormed) {state number : StateId} (kept : t.Kept state number)
    {arc : Arc} (leaves : arc ∈ t.arcs state) (productive : t.Productive arc.target) :
    t.coaccessible.getD state false = true ∧ ∃ target, t.Kept arc.target target := by
  have ahead := productive.coaccessible formed
  have reached := accessible_target formed leaves (kept.reached formed)
  exact ⟨coaccessible_source formed leaves ahead,
    kept_of_useful ((useful_iff t arc.target).mpr ⟨formed.target_lt leaves, .inr ⟨reached, ahead⟩⟩)⟩

end Kept

/-- A run that tells equal arcs apart: every arc comes with its place at the state it leaves. -/
inductive Route (t : Transducer) : StateId → List (Nat × Arc) → StateId → Prop
  | stay (state : StateId) : Route t state [] state
  | step {source : StateId} {place : Nat} {arc : Arc} {route : List (Nat × Arc)} {last : StateId}
      (leaves : (t.arcs source)[place]? = some arc) (later : Route t arc.target route last) :
      Route t source ((place, arc) :: route) last

/-- The accepting routes with that final weight. -/
def routes (t : Transducer) (weight : Weight) : Set (List (Nat × Arc)) :=
  { route | ∃ last, t.Route 0 route last ∧ t.final? last = some weight }

def routeLabels (route : List (Nat × Arc)) : List Label :=
  route.map fun step => { input := step.2.input, output := step.2.output, weight := step.2.weight }

/-- A route in the trimmed transducer, where places count the kept arcs only. -/
def trimRoute (t : Transducer) : StateId → List (Nat × Arc) → List (Nat × Arc)
  | _, [] => []
  | source, (place, arc) :: route =>
      (((t.arcs source).toList.take place).countP fun other => other.target ∈ t.survivors,
        arc.renumbered t.survivors) :: trimRoute t arc.target route

section Routes

theorem Route.run {state last : StateId} {route : List (Nat × Arc)}
    (run : t.Route state route last) : t.Run state (route.map Prod.snd) last := by
  induction run with
  | stay state => exact .stay state
  | step leaves _ ih => exact .step (Array.mem_of_getElem? leaves) ih

theorem Route.productive {state last : StateId} {route : List (Nat × Arc)} {weight : Weight}
    (run : t.Route state route last) (ends : t.final? last = some weight) : t.Productive state :=
  ⟨_, last, weight, run.run, ends⟩

theorem labels_trim_route (state : StateId) (route : List (Nat × Arc)) :
    routeLabels (t.trimRoute state route) = routeLabels route := by
  induction route generalizing state with
  | nil => rfl
  | cons step route ih => exact congrArg (_ :: ·) (ih step.2.target)

theorem exists_route_of_trimmed {state number ending : StateId} {answer : List (Nat × Arc)}
    {weight : Weight} (run : t.trim.Route number answer ending)
    (ends : t.trim.final? ending = some weight) (kept : t.Kept state number) :
    ∃ route last, t.Route state route last ∧ t.final? last = some weight ∧
      t.trimRoute state route = answer := by
  induction run generalizing state with
  | stay number => exact ⟨[], state, .stay state, by rw [← kept.final, ends], rfl⟩
  | @step number place arc answer ending leaves _ ih =>
      have ahead := ((kept.mem_arcs_iff arc).mp (Array.mem_of_getElem? leaves)).1
      rw [kept.arcs ahead, Array.getElem?_map] at leaves
      obtain ⟨original, stands, rfl⟩ := Option.map_eq_some_iff.mp leaves
      rw [← Array.getElem?_toList, Array.toList_filter] at stands
      obtain ⟨origin, departs, listed, counted⟩ := exists_place_of_filter stands
      obtain ⟨target, found⟩ :=
        List.mem_iff_getElem?.mp (by simpa using listed : original.target ∈ t.survivors)
      have found := (kept_iff_survivor t _ _).mpr found
      rw [show (original.renumbered t.survivors).target = target from idx_of_survivor found] at ih
      obtain ⟨route, last, onward, final, rfl⟩ := ih ends found
      rw [Array.getElem?_toList] at departs
      exact ⟨(origin, original) :: route, last, .step departs onward,
        final, by rw [trimRoute, counted]⟩

variable (formed : t.WellFormed)

include formed

theorem Route.trimmed {state last number : StateId} {route : List (Nat × Arc)} {weight : Weight}
    (run : t.Route state route last) (ends : t.final? last = some weight)
    (kept : t.Kept state number) :
    ∃ ending, t.trim.Route number (t.trimRoute state route) ending ∧
      t.trim.final? ending = some weight := by
  induction run generalizing number with
  | stay state => exact ⟨number, .stay number, by rw [kept.final, ends]⟩
  | @step source place arc route last leaves later ih =>
      obtain ⟨ahead, target, found⟩ :=
        kept.next formed (Array.mem_of_getElem? leaves) (later.productive ends)
      obtain ⟨ending, onward, final⟩ := ih ends found
      refine ⟨ending, .step ?_ ?_, final⟩
      · rw [kept.arcs ahead, Array.getElem?_map, ← Array.getElem?_toList, Array.toList_filter,
          get_filter_of_kept (by rwa [Array.getElem?_toList])
            (by simpa using mem_survivors_of_kept found)]
        rfl
      · rw [show (arc.renumbered t.survivors).target = target from idx_of_survivor found]
        exact onward

theorem trim_route_injective {state number first second : StateId} {route other : List (Nat × Arc)}
    {weight : Weight} (run : t.Route state route first) (runToo : t.Route state other second)
    (ends : t.final? first = some weight) (endsToo : t.final? second = some weight)
    (kept : t.Kept state number) (same : t.trimRoute state route = t.trimRoute state other) :
    route = other := by
  induction run generalizing other number with
  | stay state =>
      cases runToo with
      | stay => rfl
      | step => exact nomatch same
  | @step source place arc route first leaves later ih =>
      cases runToo with
      | stay => exact nomatch same
      | @step _ placeToo arcToo rest _ leavesToo laterToo =>
          obtain ⟨heads, tails⟩ := List.cons.inj same
          obtain ⟨-, target, found⟩ :=
            kept.next formed (Array.mem_of_getElem? leaves) (later.productive ends)
          obtain ⟨-, targetToo, foundToo⟩ :=
            kept.next formed (Array.mem_of_getElem? leavesToo) (laterToo.productive endsToo)
          -- Both arcs are kept, so as many kept arcs before them make it one place.
          have here : (t.arcs source).toList[place]? = some arc := by rwa [Array.getElem?_toList]
          have hereToo : (t.arcs source).toList[placeToo]? = some arcToo := by
            rwa [Array.getElem?_toList]
          obtain rfl : place = placeToo := place_of_count_eq here hereToo
            (by simpa using mem_survivors_of_kept found)
              (by simpa using mem_survivors_of_kept foundToo)
            (congrArg Prod.fst heads)
          obtain rfl : arc = arcToo := Option.some.inj (leaves.symm.trans leavesToo)
          rw [ih laterToo ends found tails]

/-- Accepting routes and those of the trimmed transducer correspond one to one. -/
theorem bij_on_routes (weight : Weight) :
    Set.BijOn (t.trimRoute 0) (t.routes weight) (t.trim.routes weight) := by
  have start := kept_start formed.1
  refine ⟨?_, ?_, ?_⟩
  · rintro route ⟨last, run, ends⟩
    exact run.trimmed formed ends start
  · rintro route ⟨last, run, ends⟩ other ⟨lastToo, runToo, endsToo⟩ same
    exact trim_route_injective formed run runToo ends endsToo start same
  · rintro answer ⟨ending, run, ends⟩
    obtain ⟨route, last, found, final, same⟩ := exists_route_of_trimmed run ends start
    exact ⟨route, ⟨last, found, final⟩, same⟩

theorem trim_start_idle_iff :
    (t.trim.arcs 0 = #[] ∧ t.trim.final? 0 = none) ↔ ¬∃ path weight, t.Accepts path weight := by
  have start := kept_start formed.1
  constructor
  · rintro ⟨idle, unfinished⟩ ⟨path, weight, accepted⟩
    obtain ⟨answer, final, ⟨last, run, ends⟩, -⟩ := (simulates_trim formed).accepts accepted
    cases run with
    | stay => exact nomatch ends.symm.trans unfinished
    | step leaves _ =>
        rw [idle] at leaves
        exact Array.not_mem_empty _ leaves
  · intro none
    have dead : ¬t.Productive 0 := by
      rintro ⟨path, last, weight, run, ends⟩
      exact none ⟨path, weight, last, run, ends⟩
    constructor
    · rw [Array.eq_empty_iff_forall_not_mem]
      intro arc leaves
      exact dead ((coaccessible_iff formed 0).mp ((start.mem_arcs_iff arc).mp leaves).1)
    · rw [start.final, Option.eq_none_iff_forall_ne_some]
      intro weight ends
      exact dead ⟨[], 0, weight, .stay 0, ends⟩

end Routes

/-- The other transducer is this one on the kept states: a state is numbered by its place among
them, and has its final weight and, if it lies on an accepting path, its arcs to kept states. -/
structure RestrictsTo (t : Transducer) (kept : List StateId) (trimmed : Transducer) : Prop where
  size : trimmed.size = kept.length
  final : ∀ number state, kept[number]? = some state → trimmed.final? number = t.final? state
  arcs : ∀ number state, kept[number]? = some state → t.Traversed state →
    trimmed.arcs number =
      ((t.arcs state).filter fun arc => arc.target ∈ kept).map (Arc.renumbered kept)

/-- Trimming keeps the start and the states on accepting paths, and no others, in their order,
with their final weights and the arcs between them. The accepting paths of both correspond one
to one, with the same labels and weights. If there is none, the start is left without arcs and
not final, and only then. Trimming again changes nothing. -/
theorem trim_keeps_useful (formed : t.WellFormed) :
    (∃ kept : List StateId, kept.head? = some 0 ∧ kept.Pairwise (· < ·) ∧
      (∀ state, state ∈ kept ↔ state = 0 ∨ t.Traversed state) ∧ t.RestrictsTo kept t.trim) ∧
    (∃ renumber : List (Nat × Arc) → List (Nat × Arc),
      (∀ route, routeLabels (renumber route) = routeLabels route) ∧
      ∀ weight, Set.BijOn renumber (t.routes weight) (t.trim.routes weight)) ∧
    ((t.trim.arcs 0 = #[] ∧ t.trim.final? 0 = none) ↔ ¬∃ path weight, t.Accepts path weight) ∧
    t.trim.trim = t.trim := by
  have first : t.survivors.head? = some 0 := by
    rw [List.head?_eq_getElem?]
    exact (kept_iff_survivor t 0 0).mp (kept_start formed.1)
  refine ⟨⟨t.survivors, first, ascending_survivors t, mem_survivors_iff formed,
    size_trim t, ?_, ?_⟩, ⟨t.trimRoute 0, labels_trim_route 0, bij_on_routes formed⟩,
    trim_start_idle_iff formed, trim_trim formed⟩
  · intro number state listed
    exact ((kept_iff_survivor t state number).mpr listed).final
  · intro number state listed traversed
    exact ((kept_iff_survivor t state number).mpr listed).arcs
      ((coaccessible_iff formed state).mpr traversed.2)

/-- A dead end between useful states, one arc twice, and a last state that nothing leads to. -/
def deadEnd : Transducer := ⟨#[
  { arcs := #[Arc.identity "b" 1, Arc.identity "a" 2, Arc.identity "a" 2] },
  { arcs := #[Arc.identity "b" 1] },
  { arcs := #[Arc.identity "c" 1, Arc.identity "d" 0], final := some 1.0 },
  { arcs := #[Arc.identity "a" 2], final := some 0.0 }]⟩

theorem trim_keeps_useful_of_dead_end :
    deadEnd.WellFormed ∧
      deadEnd.trim = ⟨#[{ arcs := #[Arc.identity "a" 1, Arc.identity "a" 1] },
        { arcs := #[Arc.identity "d" 0], final := some 1.0 }]⟩ ∧
      (∃ kept : List StateId, kept.head? = some 0 ∧ kept.Pairwise (· < ·) ∧
        (∀ state, state ∈ kept ↔ state = 0 ∨ deadEnd.Traversed state) ∧
        deadEnd.RestrictsTo kept deadEnd.trim) ∧
      ∃ renumber, Set.BijOn renumber (deadEnd.routes 1.0) (deadEnd.trim.routes 1.0) := by
  have formed : deadEnd.WellFormed := by
    simp [deadEnd, WellFormed, size, Arc.identity]
  obtain ⟨kept, ⟨renumber, -, bijective⟩, -, -⟩ := trim_keeps_useful formed
  exact ⟨formed, by decide +kernel, kept, renumber, bijective 1.0⟩

end Transducer

end MorphLex
