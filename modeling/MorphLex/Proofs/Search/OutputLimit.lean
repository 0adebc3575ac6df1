import MorphLex.Proofs.Search.Limits

/-!
What the limit on the output leaves out. A search tells places apart by the text of their
output, while the limit counts symbols, and a place goes on with the count of the path that
was the first to get there at its cost. So nothing within the limit is lost, unless a longer
spelling of the same text has come first; and then something can be.
-/

namespace MorphLex

open Search

namespace Transducer

/-- How many symbols a path writes. -/
def written (path : List Arc) : Nat := (Trace.ofPath path).output.length

@[simp] theorem written_nil : written [] = 0 := rfl

theorem written_append (front back : List Arc) :
    written (front ++ back) = written front + written back := by
  simp [written, Trace.ofPath]

theorem written_cons (arc : Arc) (path : List Arc) :
    written (arc :: path) = written [arc] + written path :=
  written_append [arc] path

theorem written_single (arc : Arc) : written [arc] = if arc.output.isEpsilon then 0 else 1 := by
  cases silent : arc.output.isEpsilon <;>
    simp [written, Trace.ofArc, Trace.ofPair, Trace.ofWeight, silent]

/-- On its way the path meets another one, at most as dear, that has written more symbols
for the same text, so many that the rest of the path does not fit behind them. -/
def CrowdedOut (t : Transducer) (input : List Symbol) (path : List Arc) : Prop :=
  ∃ front back other place, path = front ++ back ∧ Leads t input (0, 0, "") front place ∧
    Leads t input (0, 0, "") other place ∧ (total 0.0 other).Under (total 0.0 front) ∧
    written front < written other ∧ written other ≤ maxOutput ∧
    maxOutput < written other + written back

end Transducer

open Transducer

namespace Search

variable {t : Transducer} {input : List Symbol}

/-- The node lies where the path leads, with its weight and as many symbols as it writes. -/
structure StandsFor (t : Transducer) (input : List Symbol) (node : Node) (path : List Arc) :
    Prop where
  leads : Leads t input (0, 0, "") path node.place
  weight : total 0.0 path = node.weight
  written : Transducer.written path = node.written
  room : node.written ≤ maxOutput

/-- A node that is followed has one more symbol, unless the arc writes none. -/
theorem written_of_follow {node next : Node} {arc : Arc}
    (followed : follow? input.toArray node arc = some next) :
    next.written = node.written + Transducer.written [arc] := by
  rw [follow_of_fits (fits_of_follow followed)] at followed
  obtain ⟨place, _, rfl⟩ := Option.map_eq_some_iff.mp followed
  rw [written_single]
  dsimp only
  split <;> rfl

theorem StandsFor.follow {node next : Node} {arc : Arc} {path : List Arc}
    (stands : StandsFor t input node path) (leaves : arc ∈ t.arcs node.place.1)
    (followed : follow? input.toArray node arc = some next) :
    StandsFor t input next (path ++ [arc]) := by
  obtain ⟨advances, adds⟩ := advance_of_follow followed
  have counts := written_of_follow followed
  refine ⟨stands.leads.append (.step leaves advances (.stay _)), ?_, ?_, ?_⟩
  · rw [total_append, stands.weight, adds]
    rfl
  · rw [written_append, stands.written, counts]
  · have room := stands.room
    rw [counts, written_single]
    split
    · exact room
    · next speaks => exact (fits_of_follow followed).resolve_left speaks

theorem mem_pending_pursue {search : Search} {node other : Node} {arc : Arc}
    (waits : other ∈ (pursue input node search arc).pending) :
    other ∈ search.pending ∨ follow? input.toArray node arc = some other := by
  unfold pursue at waits
  split at waits
  · next next followed =>
    rcases pending_visit search next with same | pushed
    · rw [same] at waits
      exact .inl waits
    · rw [pushed] at waits
      rcases List.mem_cons.mp waits with rfl | before
      · exact .inr followed
      · exact .inl before
  · exact .inl waits

/-- What waits after an expansion has waited before, or an arc leads to it. -/
theorem mem_pending_expand {search : Search} {node other : Node}
    (waits : other ∈ (expand t input.toArray search node).pending) :
    other ∈ search.pending ∨
      ∃ arc ∈ t.arcs node.place.1, follow? input.toArray node arc = some other := by
  have along (arcs : List Arc) (search : Search)
    (waits : other ∈ (arcs.foldl (pursue input node) search).pending) :
      other ∈ search.pending ∨ ∃ arc ∈ arcs, follow? input.toArray node arc = some other := by
    induction arcs generalizing search with
    | nil => exact .inl waits
    | cons first arcs ih =>
        rcases ih _ waits with before | ⟨arc, member, followed⟩
        · exact (mem_pending_pursue before).imp_right fun followed =>
            ⟨first, List.mem_cons_self, followed⟩
        · exact .inr ⟨arc, List.mem_cons_of_mem _ member, followed⟩
  rw [expand_eq] at waits
  rcases along _ _ waits with before | ⟨arc, member, followed⟩
  · rw [pending_conclude] at before
    exact .inl before
  · exact .inr ⟨arc, Array.mem_toList_iff.mp member, followed⟩

/-- Every node stands for a path. Behind each place of the table there is such a node with
its weight, on the stack or followed, and the start is in the table. -/
structure Backed (t : Transducer) (input : List Symbol) (search : Search) : Prop where
  pending : ∀ node ∈ search.pending, ∃ path, StandsFor t input node path
  table : ∀ place weight, search.best[place]? = some weight →
    ∃ node path, node.place = place ∧ node.weight = weight ∧
    StandsFor t input node path ∧ (node ∈ search.pending ∨ Followed t input search node)
  start : search.Covers (0, 0, "") 0.0

theorem Backed.expand {search : Search} {node : Node} {rest : List Node}
    (backed : Backed t input search) (waiting : search.pending = node :: rest)
    (summable : Summable t input node) :
    Backed t input (Search.expand t input.toArray { search with pending := rest } node) := by
  obtain ⟨gains, followed⟩ := gains_expand { search with pending := rest } summable
  have stands := backed.pending
  rw [waiting, List.forall_mem_cons] at stands
  have pending :
      ∀ other ∈ (Search.expand t input.toArray { search with pending := rest } node).pending,
      ∃ path, StandsFor t input other path := by
    intro other waits
    rcases mem_pending_expand waits with before | ⟨arc, leaves, led⟩
    · exact stands.2 other before
    · obtain ⟨path, here⟩ := stands.1
      exact ⟨path ++ [arc], here.follow leaves led⟩
  refine ⟨pending, fun place weight listed => ?_, gains.covers backed.start⟩
  rcases gains.fresh listed with before | ⟨other, member, same, equal⟩
  · obtain ⟨other, path, same, equal, here, state⟩ := backed.table place weight before
    refine ⟨other, path, same, equal, here, ?_⟩
    rcases state with member | done
    · rw [waiting] at member
      rcases List.mem_cons.mp member with rfl | later
      · exact .inr followed
      · exact .inl (gains.pending other later)
    · have popped : Followed t input { search with pending := rest } other :=
        ⟨done.along, done.final⟩
      exact .inr (popped.gains gains)
  · obtain ⟨path, here⟩ := pending other member
    exact ⟨other, path, same, equal, here, .inl member⟩

theorem backed_start : Backed t input start := by
  have first : StandsFor t input { place := (0, 0, ""), written := 0, weight := 0.0 } [] :=
    ⟨.stay _, rfl, rfl, Nat.zero_le _⟩
  refine ⟨?_, ?_, 0.0, by simp [start], Weight.Under.refl 0.0⟩
  · intro node member
    obtain rfl := List.mem_singleton.mp member
    exact ⟨[], first⟩
  · intro place weight listed
    obtain ⟨rfl, rfl⟩ := listed_at_start listed
    exact ⟨_, [], rfl, rfl, first, .inl (List.mem_singleton.mpr rfl)⟩

/-- When nothing waits any more, a path that is not crowded out has all its places in the
table. -/
theorem Backed.covers {search : Search} (backed : Backed t input search)
    (empty : search.pending = []) {path front back : List Arc} {place last : Place}
    (short : written path ≤ maxOutput) (free : ¬t.CrowdedOut input path)
    (split : path = front ++ back) (before : Leads t input (0, 0, "") front place)
    (after : Leads t input place back last) (covers : search.Covers place (total 0.0 front)) :
    search.Covers last (total 0.0 path) := by
  induction after generalizing front with
  | stay place =>
      rw [split, List.append_nil]
      exact covers
  | @step place next last arc back leaves advances later ih =>
      obtain ⟨least, listed, under⟩ := covers
      obtain ⟨node, other, rfl, rfl, stands, state⟩ := backed.table place least listed
      have followed : Followed t input search node := state.resolve_left (by simp [empty])
      have fits : Fits node arc := by
        by_cases silent : arc.output.isEpsilon = true
        · exact .inl silent
        · refine .inr ?_
          have speaks : written [arc] = 1 := by rw [written_single, if_neg silent]
          have rest := written_cons arc back
          have whole : written path = written front + written (arc :: back) := by
            rw [split, written_append]
          have counts := stands.written
          have room := stands.room
          by_contra full
          refine free ⟨front, arc :: back, other, node.place, split, before, stands.leads,
            ?_, ?_, ?_, ?_⟩
          · rw [stands.weight]
            exact under
          · omega
          · omega
          · omega
      obtain ⟨number, onward⟩ := followed.along arc leaves next advances fits
      have onSplit : path = (front ++ [arc]) ++ back := by
        rw [split, List.append_assoc]
        rfl
      refine ih onSplit (before.append (.step leaves advances (.stay _))) ?_
      rw [total_append]
      exact onward.mono (under.add number)

/-- A search that comes to its end finds what an accepting path writes within the limit, if
the path is not crowded out. -/
theorem Completes.finds_within_limit {steps : Nat}
    (completes : Completes t input (Summable t input) steps start) {path : List Arc}
    {final : Weight} (accepted : t.Accepts path final) (reads : (Trace.ofPath path).input = input)
    (short : written path ≤ maxOutput) (free : ¬t.CrowdedOut input path) :
    (run t input.toArray steps start).Finds (String.join (Trace.ofPath path).output)
      (cost path final) := by
  obtain ⟨backed, empty⟩ := completes.keeps (Backed t input)
    (fun _ _ _ waiting summable backed => backed.expand waiting summable) backed_start
  obtain ⟨last, run, ends⟩ := accepted
  have leads := leads_to_end_iff.mpr ⟨run, reads, rfl⟩
  obtain ⟨least, listed, under⟩ := backed.covers empty short free rfl (.stay _) leads backed.start
  obtain ⟨node, other, same, rfl, stands, state⟩ := backed.table _ least listed
  have followed : Followed t input _ node := state.resolve_left (by simp [empty])
  obtain ⟨number, finds⟩ := followed.final (by rw [same]) final (by rw [same]; exact ends)
  rw [same] at finds
  exact finds.mono (under.add number)

end Search

theorem length_join (texts : List String) :
    (String.join texts).length = (texts.map String.length).sum := by
  induction texts with
  | nil => rfl
  | cons text texts ih =>
      rw [String.join_cons, String.length_append, ih, List.map_cons, List.sum_cons]

namespace Transducer

variable {t : Transducer} {input : List Symbol}

theorem Run.output_of_arc {first last : StateId} {path : List Arc} (run : t.Run first path last)
    {symbol : Symbol} (listed : symbol ∈ (Trace.ofPath path).output) :
    ∃ state, ∃ arc ∈ t.arcs state, arc.output = symbol := by
  induction run with
  | stay => exact absurd listed List.not_mem_nil
  | @step source arc path last leaves _ ih =>
      rw [Trace.of_path_cons, Trace.output_mul, List.mem_append] at listed
      rcases listed with here | later
      · refine ⟨source, arc, leaves, ?_⟩
        cases silent : arc.output.isEpsilon <;> simp_all [Trace.ofArc, Trace.ofPair, Trace.ofWeight]
      · exact ih later

/-- Where no symbol is empty, no spelling has more symbols than the one in single characters. -/
theorem not_crowded_out_of_single (spelled : ∀ state, ∀ arc ∈ t.arcs state, arc.output ≠ "")
    {path : List Arc} (single : ∀ symbol ∈ (Trace.ofPath path).output, symbol.length = 1) :
    ¬t.CrowdedOut input path := by
  rintro ⟨front, back, other, ⟨state, position, text⟩, rfl, before, beside, -, more, -, -⟩
  obtain ⟨-, -, -, textFront⟩ := leads_iff.mp before
  obtain ⟨run, -, -, textOther⟩ := leads_iff.mp beside
  have lengths : ((Trace.ofPath front).output.map String.length).sum =
    ((Trace.ofPath other).output.map String.length).sum := by
    rw [String.empty_append] at textFront textOther
    rw [← length_join, ← length_join, ← textFront, ← textOther]
  have exact : ((Trace.ofPath front).output.map String.length).sum = written front := by
    have ones :
        (Trace.ofPath front).output.map String.length = List.replicate (written front) 1 := by
      rw [List.eq_replicate_iff, List.length_map]
      refine ⟨rfl, fun count listed => ?_⟩
      obtain ⟨symbol, member, rfl⟩ := List.mem_map.mp listed
      apply single
      simp only [Trace.ofPath, List.map_append, List.prod_append, Trace.output_mul]
      exact List.mem_append_left _ member
    rw [ones, List.sum_replicate, smul_eq_mul, Nat.mul_one]
  have most : written other ≤ ((Trace.ofPath other).output.map String.length).sum := by
    have counted := List.length_le_sum_of_one_le ((Trace.ofPath other).output.map String.length) ?_
    · rwa [List.length_map] at counted
    · intro count listed
      obtain ⟨symbol, member, rfl⟩ := List.mem_map.mp listed
      obtain ⟨source, arc, leaves, rfl⟩ := run.output_of_arc member
      exact Nat.pos_of_ne_zero fun none =>
        spelled source arc leaves (String.length_eq_zero_iff.mp none)
  omega

/-- The output is looked up with at most that weight. -/
def LooksUp (t : Transducer) (input : List Symbol) (output : String) (weight : Weight) : Prop :=
  ∃ least, (t.lookupSymbols input)[output]? = some least ∧ least.Under weight

/-- A search that comes to its end, without a sum that is no number, finds what an accepting
path writes within the limit, at no greater weight, if the path is not crowded out. Where no
symbol is empty, a path that writes single characters never is. -/
theorem lookup_finds_within_limit
    (completes : Completes t input (Summable t input) maxSteps start) :
    (∀ path final, t.Accepts path final → (Trace.ofPath path).input = input →
      written path ≤ maxOutput →
      ¬t.CrowdedOut input path →
        t.LooksUp input (String.join (Trace.ofPath path).output) (cost path final)) ∧
    ((∀ state, ∀ arc ∈ t.arcs state, arc.output ≠ "") → ∀ path final, t.Accepts path final →
      (Trace.ofPath path).input = input → written path ≤ maxOutput →
      (∀ symbol ∈ (Trace.ofPath path).output, symbol.length = 1) →
      t.LooksUp input (String.join (Trace.ofPath path).output) (cost path final)) := by
  refine ⟨fun path final accepted reads short free =>
    completes.finds_within_limit accepted reads short free, ?_⟩
  intro spelled path final accepted reads short single
  exact completes.finds_within_limit accepted reads short (not_crowded_out_of_single spelled single)

section Respelled

/-- So many letters. -/
def letters (count : Nat) : String := String.ofList (List.replicate count 'a')

/-- As many letters as an output may have symbols, in one symbol or each in its own, and
then one symbol more. -/
def respelled : Transducer := ⟨#[
  { arcs := #[⟨Symbol.epsilon, letters maxOutput, 3, 0.0⟩, Arc.silent 1 0.0] },
  { arcs := #[⟨Symbol.epsilon, "a", 1, 0.0⟩, ⟨Symbol.epsilon, "x", 2, 0.0⟩] },
  { final := some 0.0 },
  { arcs := #[Arc.silent 1 0.0] }]⟩

theorem letters_succ (count : Nat) : letters count ++ "a" = letters (count + 1) := by
  rw [letters, letters, List.replicate_succ', String.ofList_append]

theorem letters_eq_iff {first second : Nat} : letters first = letters second ↔ first = second := by
  refine ⟨fun same => ?_, fun same => congrArg letters same⟩
  have lengths := congrArg String.length same
  simpa [letters] using lengths

theorem letters_ne_epsilon (count : Nat) : letters count ≠ "@_EPSILON_SYMBOL_@" := by
  intro same
  have listed : '@' ∈ (letters count).toList := by rw [same]; decide
  simp [letters] at listed

/-- A search that will come to its end without having found the output. -/
structure Misses (t : Transducer) (input : List Symbol) (output : String) (steps : Nat)
    (search : Search) : Prop where
  completes : Completes t input (Summable t input) steps search
  lost : (run t input.toArray steps search).found[output]? = none

theorem Misses.done {output : String} {search : Search} (empty : search.pending = [])
    (lost : search.found[output]? = none) (steps : Nat) : Misses t input output steps search :=
  ⟨.done empty, by rwa [run_of_empty empty]⟩

theorem Misses.step {output : String} {steps : Nat} {search : Search} {node : Node}
    {rest : List Node}
    (waiting : search.pending = node :: rest) (summable : Summable t input node)
    (later : Misses t input output steps
      (expand t input.toArray { search with pending := rest } node)) :
    Misses t input output (steps + 1) search := by
  refine ⟨.step waiting summable later.completes, ?_⟩
  rw [run, waiting]
  exact later.lost

theorem free_respelled (state : StateId) :
    (∀ arc ∈ respelled.arcs state, arc.weight = 0.0) ∧
      ∀ final, respelled.final? state = some final → final = 0.0 := by
  rcases state with _ | _ | _ | _ | state
  · simp [respelled, Transducer.arcs, Transducer.final?, Arc.silent]
  · simp [respelled, Transducer.arcs, Transducer.final?]
  · simp [respelled, Transducer.arcs, Transducer.final?, eq_comm]
  · simp [respelled, Transducer.arcs, Transducer.final?, Arc.silent]
  · simp [respelled, Transducer.arcs, Transducer.final?]

theorem summable_respelled {node : Node} (free : node.weight = 0.0) :
    Summable respelled [] node := by
  have number : ((0.0 : Weight) + 0.0).IsNumber := by decide
  constructor
  · intro arc leaves _ _
    rwa [free, (free_respelled _).1 arc leaves]
  · intro _ final ends
    rwa [free, (free_respelled _).2 final ends]

theorem expand_start :
    expand respelled #[] { start with pending := [] }
        { place := (0, 0, ""), written := 0, weight := 0.0 } =
      { best := (start.best.insert (3, 0, letters maxOutput) 0.0).insert (1, 0, letters 0) 0.0
        pending := [{ place := (1, 0, letters 0), written := 0, weight := 0.0 },
          { place := (3, 0, letters maxOutput), written := 1, weight := 0.0 }]
        found := ∅ } := by
  have sums : (0.0 : Weight) + 0.0 = 0.0 := by decide
  have room : maxOutput ≠ 0 := by decide
  have empty : letters 0 = "" := rfl
  simp [expand, respelled, start, Transducer.arcs, Transducer.final?, follow?, visit, Arc.silent,
    Symbol.isEpsilon, Symbol.epsilon, sums, room, letters_ne_epsilon maxOutput, empty]

/-- A letter more, or the last symbol. -/
theorem expand_spelling (search : Search) {count : Nat} (room : count < maxOutput)
    (ahead : search.best[((1, 0, letters (count + 1)) : Place)]? = none)
    (new : search.best[((2, 0, letters count ++ "x") : Place)]? = none) :
    expand respelled #[] search
        { place := (1, 0, letters count), written := count, weight := 0.0 } =
      { best := (search.best.insert (1, 0, letters (count + 1)) 0.0).insert
          (2, 0, letters count ++ "x") 0.0
        pending := { place := (2, 0, letters count ++ "x"), written := count + 1, weight := 0.0 } ::
          { place := (1, 0, letters (count + 1)), written := count + 1, weight := 0.0 } ::
            search.pending
        found := search.found } := by
  have sums : (0.0 : Weight) + 0.0 = 0.0 := by decide
  have full : ¬maxOutput ≤ count := Nat.not_le.mpr room
  simp [expand, respelled, Transducer.arcs, Transducer.final?, follow?, visit, Symbol.isEpsilon,
    Symbol.epsilon, sums, letters_succ, full, Std.HashMap.getElem?_insert, ahead, new]

theorem expand_spelled (search : Search) (output : String) (count : Nat) :
    expand respelled #[] search { place := (2, 0, output), written := count, weight := 0.0 } =
      search.accept output 0.0 := by
  have sums : (0.0 : Weight) + 0.0 = 0.0 := by decide
  simp [expand, respelled, Transducer.arcs, Transducer.final?, sums]

/-- There is no room for the last symbol. -/
theorem expand_full (search : Search) (output : String) :
    expand respelled #[] search { place := (1, 0, output), written := maxOutput, weight := 0.0 } =
      search := by
  simp [expand, respelled, Transducer.arcs, Transducer.final?, follow?, Symbol.isEpsilon,
    Symbol.epsilon]

/-- The place has been reached by then. -/
theorem expand_late (search : Search) {output : String} (count : Nat)
    (before : search.best[((1, 0, output) : Place)]? = some 0.0) :
    expand respelled #[] search { place := (3, 0, output), written := count, weight := 0.0 } =
      search := by
  have sums : (0.0 : Weight) + 0.0 = 0.0 := by decide
  have least : (0.0 : Weight) ≤ 0.0 := by decide
  simp [expand, respelled, Transducer.arcs, Transducer.final?, follow?, visit, Arc.silent,
    Symbol.isEpsilon, Symbol.epsilon, sums, before, least]

/-- So many letters have been spelled, and the symbol that holds all of them is still waiting. -/
structure Spelling (count : Nat) (search : Search) : Prop where
  pending : search.pending = [{ place := (1, 0, letters count), written := count, weight := 0.0 },
    { place := (3, 0, letters maxOutput), written := 1, weight := 0.0 }]
  reached : search.best[((1, 0, letters count) : Place)]? = some 0.0
  ahead : ∀ further, count < further → search.best[((1, 0, letters further) : Place)]? = none
  ends : ∀ further, count ≤ further → search.best[((2, 0, letters further ++ "x") : Place)]? = none
  lost : search.found[letters maxOutput ++ "x"]? = none

theorem Spelling.next {count : Nat} {search : Search} (spelling : Spelling count search)
    (room : count < maxOutput) :
    Spelling (count + 1) (accept
      { best := (search.best.insert (1, 0, letters (count + 1)) 0.0).insert
          (2, 0, letters count ++ "x") 0.0
        pending := [{ place := (1, 0, letters (count + 1)), written := count + 1, weight := 0.0 },
          { place := (3, 0, letters maxOutput), written := 1, weight := 0.0 }]
        found := search.found } (letters count ++ "x") 0.0) where
  pending := rfl
  reached := by
    rw [accept, Std.HashMap.getElem?_insert, Std.HashMap.getElem?_insert_self]
    simp
  ahead further later := by
    have apart : count + 1 ≠ further := by omega
    simp [accept, Std.HashMap.getElem?_insert, letters_eq_iff, apart,
      spelling.ahead further (by omega)]
  ends further later := by
    have apart : count ≠ further := by omega
    simp [accept, Std.HashMap.getElem?_insert, letters_eq_iff, apart,
      spelling.ends further (by omega)]
  lost := by
    have apart : count ≠ maxOutput := by omega
    simp [accept, Std.TreeMap.getElem?_insert, letters_eq_iff, apart, spelling.lost]

theorem Spelling.misses {count remaining : Nat} (whole : count + remaining = maxOutput)
    {search : Search} (spelling : Spelling count search) (spare : Nat) :
    Misses respelled [] (letters maxOutput ++ "x") (spare + 2 * remaining + 2) search := by
  induction remaining generalizing count search with
  | zero =>
      obtain rfl : count = maxOutput := whole
      refine .step spelling.pending (summable_respelled rfl) ?_
      rw [expand_full]
      refine .step rfl (summable_respelled rfl) ?_
      rw [expand_late { search with pending := [] } 1 spelling.reached]
      refine .done rfl ?_ spare
      exact spelling.lost
  | succ remaining ih =>
      refine .step spelling.pending (summable_respelled rfl) ?_
      have room : count < maxOutput := by omega
      rw [expand_spelling]
      · refine .step rfl (summable_respelled rfl) ?_
        rw [expand_spelled]
        exact ih (by omega) (spelling.next room)
      · exact room
      · exact spelling.ahead _ (Nat.lt_succ_self _)
      · exact spelling.ends _ (Nat.le_refl _)

theorem spelling_start : Spelling 0
    { best := (start.best.insert (3, 0, letters maxOutput) 0.0).insert (1, 0, letters 0) 0.0
      pending := [{ place := (1, 0, letters 0), written := 0, weight := 0.0 },
        { place := (3, 0, letters maxOutput), written := 1, weight := 0.0 }]
      found := ∅ } where
  pending := rfl
  reached := by rw [Std.HashMap.getElem?_insert_self]
  ahead further later := by
    have apart : 0 ≠ further := by omega
    simp [start, letters_eq_iff, apart]
  ends further later := by simp [start]
  lost := by simp

theorem respelled_misses : Misses respelled [] (letters maxOutput ++ "x") maxSteps start := by
  have steps : maxSteps = 99485 + 2 * maxOutput + 2 + 1 := rfl
  rw [steps]
  refine .step rfl (summable_respelled rfl) ?_
  rw [expand_start]
  exact spelling_start.misses (Nat.zero_add _) 99485

/-- One symbol of many letters, and the last one. -/
def shortPath : List Arc :=
  [⟨Symbol.epsilon, letters maxOutput, 3, 0.0⟩, Arc.silent 1 0.0, ⟨Symbol.epsilon, "x", 2, 0.0⟩]

/-- So many letters one by one, and the last symbol. -/
def spelledPath (count : Nat) : List Arc :=
  List.replicate count ⟨Symbol.epsilon, "a", 1, 0.0⟩ ++ [⟨Symbol.epsilon, "x", 2, 0.0⟩]

def longPath (count : Nat) : List Arc := Arc.silent 1 0.0 :: spelledPath count

theorem of_arc_writing (output : Symbol) (target : StateId)
    (speaks : output ≠ "@_EPSILON_SYMBOL_@") :
    Trace.ofArc ⟨Symbol.epsilon, output, target, 0.0⟩ = ⟨[], [output], []⟩ := by
  have zero : ((0.0 : Weight) == 0.0) = true := by decide
  ext1 <;> simp [Trace.ofArc, Trace.ofPair, Trace.ofWeight, Symbol.isEpsilon, Symbol.epsilon,
    speaks, zero]

theorem trace_short_path : Trace.ofPath shortPath = ⟨[], [letters maxOutput, "x"], []⟩ := by
  rw [shortPath, Trace.of_path_cons, Trace.of_path_cons, Trace.of_path_cons, Trace.of_arc_silent,
    Trace.of_weight_zero, of_arc_writing _ _ (letters_ne_epsilon _), of_arc_writing _ _ (by decide)]
  rfl

theorem trace_spelled_path (count : Nat) :
    Trace.ofPath (spelledPath count) = ⟨[], List.replicate count "a" ++ ["x"], []⟩ := by
  induction count with
  | zero =>
      rw [spelledPath, List.replicate_zero, List.nil_append, Trace.of_path_cons,
        of_arc_writing _ _ (by decide)]
      rfl
  | succ count ih =>
      rw [spelledPath, List.replicate_succ, List.cons_append, Trace.of_path_cons,
        of_arc_writing _ _ (by decide), ← spelledPath, ih]
      rfl

theorem trace_long_path (count : Nat) :
    Trace.ofPath (longPath count) = ⟨[], List.replicate count "a" ++ ["x"], []⟩ := by
  rw [longPath, Trace.of_path_cons, Trace.of_arc_silent, Trace.of_weight_zero, one_mul,
    trace_spelled_path]

theorem join_letters (count : Nat) :
    String.join (List.replicate count "a" ++ ["x"]) = letters count ++ "x" := by
  have spelled : String.join (List.replicate count "a") = letters count := by
    induction count with
    | zero => rfl
    | succ count ih =>
        rw [List.replicate_succ', String.join_append, ih, ← letters_succ]
        simp [String.join]
  rw [String.join_append, spelled]
  simp [String.join]

theorem accepts_long_path (count : Nat) : respelled.Accepts (longPath count) 0.0 := by
  have spelled : respelled.Run 1 (spelledPath count) 2 := by
    induction count with
    | zero =>
        refine .step ?_ (.stay 2)
        simp [respelled, Transducer.arcs]
    | succ count ih =>
        refine .step ?_ ih
        simp [respelled, Transducer.arcs]
  refine ⟨2, .step ?_ spelled, rfl⟩
  simp [respelled, Transducer.arcs]

theorem cost_long_path (count : Nat) : cost (longPath count) 0.0 = 0.0 := by
  have sums : (0.0 : Weight) + 0.0 = 0.0 := by decide
  have spelled : total 0.0 (spelledPath count) = 0.0 := by
    induction count with
    | zero => exact sums
    | succ count ih =>
        rw [spelledPath, List.replicate_succ, List.cons_append, total, List.foldl_cons, sums]
        exact ih
  rw [cost, longPath, List.foldl_cons, Arc.silent, sums]
  exact (congrArg (· + 0.0) spelled).trans sums

/-- What is spelled letter by letter is found as far as the limit reaches. -/
theorem lookup_finds_within_limit_of_letters :
    Completes respelled [] (Summable respelled []) maxSteps start ∧
      respelled.Accepts (longPath 255) 0.0 ∧
      written (longPath 255) = maxOutput ∧ respelled.LooksUp [] (letters 255 ++ "x") 0.0 := by
  have speaks : letters maxOutput ≠ "" :=
    fun same => absurd ((@letters_eq_iff maxOutput 0).mp same) (by decide)
  have spelled : ∀ state, ∀ arc ∈ respelled.arcs state, arc.output ≠ "" := by
    rintro (_ | _ | _ | _ | state)
    · simpa [respelled, Transducer.arcs, Arc.silent, Symbol.epsilon] using speaks
    · simp [respelled, Transducer.arcs]
    · simp [respelled, Transducer.arcs]
    · simp [respelled, Transducer.arcs, Arc.silent, Symbol.epsilon]
    · exact fun _ leaves => absurd leaves (Array.not_mem_empty _)
  have count : written (longPath 255) = maxOutput := by
    rw [written, trace_long_path, List.length_append, List.length_replicate]
    rfl
  have reads : (Trace.ofPath (longPath 255)).input = [] := by rw [trace_long_path]
  have single : ∀ symbol ∈ (Trace.ofPath (longPath 255)).output, symbol.length = 1 := by
    intro symbol listed
    rw [trace_long_path, List.mem_append, List.mem_singleton] at listed
    rcases listed with letter | rfl
    · rw [(List.mem_replicate.mp letter).2]
      rfl
    · rfl
  have found := (lookup_finds_within_limit respelled_misses.completes).2 spelled (longPath 255) 0.0
    (accepts_long_path 255) reads
    count.le single
  rw [trace_long_path, join_letters, cost_long_path] at found
  exact ⟨respelled_misses.completes, accepts_long_path 255, count, found⟩

/-- An output of two symbols is not found, though the search comes to its end. -/
theorem lookup_loses_short_output :
    respelled.WellFormed ∧ Completes respelled [] (Summable respelled []) maxSteps start ∧
      respelled.Accepts shortPath 0.0 ∧ (Trace.ofPath shortPath).input = [] ∧
      written shortPath = 2 ∧
      String.join (Trace.ofPath shortPath).output = letters maxOutput ++ "x" ∧
      (respelled.lookupSymbols [])[letters maxOutput ++ "x"]? = none := by
  have formed : respelled.WellFormed := by
    simp [respelled, WellFormed, size, Arc.silent]
  have accepted : respelled.Accepts shortPath 0.0 := by
    refine ⟨2, .step ?_ (.step ?_ (.step ?_ (.stay 2))), rfl⟩
    · simp [respelled, Transducer.arcs]
    · simp [respelled, Transducer.arcs]
    · simp [respelled, Transducer.arcs, Arc.silent]
  have joined : String.join [letters maxOutput, "x"] = letters maxOutput ++ "x" := by
    simp [String.join]
  rw [written, trace_short_path]
  exact ⟨formed, respelled_misses.completes, accepted, rfl, rfl, joined, respelled_misses.lost⟩

end Respelled

end Transducer

end MorphLex
