import MorphLex.Proofs.Transducer.Run
import MorphLex.Transducer.Search

/-!
What a search finds is there. Every node that it puts on its stack is reached by a
path that reads the input up to the position of the node and writes its output, so
that every weight found is the cost of an accepting path, however the search ends.
-/

namespace MorphLex

namespace Transducer

/-- An accepting path reads the input, writes that text and costs that much. -/
def Transduces (t : Transducer) (input : List Symbol) (output : String) (total : Weight) : Prop :=
  ∃ path final, t.Accepts path final ∧ (Trace.ofPath path).input = input ∧
    String.join (Trace.ofPath path).output = output ∧ cost path final = total

/-- What the arcs of a path add to a weight. -/
def total (start : Weight) (path : List Arc) : Weight :=
  path.foldl (fun total arc => total + arc.weight) start

theorem total_append (start : Weight) (front back : List Arc) :
    total start (front ++ back) = total (total start front) back := List.foldl_append

end Transducer

namespace Search

/-- The place that an arc leads to, if it reads the input. -/
def advance? (input : List Symbol) (arc : Arc) (place : Place) : Option Place :=
  let (_, position, output) := place
  let position? :=
    if arc.input.isEpsilon then some position
    else if input[position]? = some arc.input then some (position + 1)
    else none
  position?.map fun position =>
    (arc.target, position, if arc.output.isEpsilon then output else output ++ arc.output)

/-- The arc writes nothing, or its symbol still fits into the output. -/
def Fits (node : Node) (arc : Arc) : Prop := arc.output.isEpsilon = true ∨ node.written < maxOutput

/-- A node is followed along an arc to the place where the arc leads. -/
theorem follow_of_fits {input : List Symbol} {node : Node} {arc : Arc} (fits : Fits node arc) :
    follow? input.toArray node arc = (advance? input arc node.place).map fun place =>
      { place, written := if arc.output.isEpsilon then node.written else node.written + 1,
        weight := node.weight + arc.weight } := by
  obtain ⟨⟨state, position, output⟩, written, weight⟩ := node
  rw [follow?, advance?, Option.map_map]
  dsimp only
  rw [List.getElem?_toArray]
  generalize (if arc.input.isEpsilon then some position
    else if input[position]? = some arc.input then some (position + 1) else none) = position?
  cases position? with
  | none => rfl
  | some position =>
      rcases fits with silent | room
      · simp [silent]
      · by_cases silent : arc.output.isEpsilon
        · simp [silent]
        · simp [silent, Nat.not_le.mpr room]

theorem fits_of_follow {input : List Symbol} {node next : Node} {arc : Arc}
    (followed : follow? input.toArray node arc = some next) : Fits node arc := by
  by_contra cut
  rw [Fits, not_or, Bool.not_eq_true, Nat.not_lt] at cut
  obtain ⟨position, _, written⟩ := Option.bind_eq_some_iff.mp followed
  simp [cut] at written

theorem advance_of_follow {input : List Symbol} {node next : Node} {arc : Arc}
    (followed : follow? input.toArray node arc = some next) :
    advance? input arc node.place = some next.place ∧ next.weight = node.weight + arc.weight := by
  rw [follow_of_fits (fits_of_follow followed)] at followed
  obtain ⟨place, advances, rfl⟩ := Option.map_eq_some_iff.mp followed
  exact ⟨advances, rfl⟩

theorem advance_eq_some_iff {input : List Symbol} {arc : Arc} {state position : Nat}
    {output : String} {next : Place} :
    advance? input arc (state, position, output) = some next ↔
      (Trace.ofArc arc).input <+: input.drop position ∧
        next = (arc.target, position + (Trace.ofArc arc).input.length,
          output ++ String.join (Trace.ofArc arc).output) := by
  have written : (if arc.output.isEpsilon then output else output ++ arc.output) =
      output ++ String.join (Trace.ofArc arc).output := by
    cases silent : arc.output.isEpsilon with
    | true => simp [Trace.ofArc, Trace.ofPair, Trace.ofWeight, silent]
    | false => simp [Trace.ofArc, Trace.ofPair, Trace.ofWeight, silent]
  rw [advance?, written]
  cases silent : arc.input.isEpsilon with
  | true =>
    have read : (Trace.ofArc arc).input = [] := by
      simp [Trace.ofArc, Trace.ofPair, Trace.ofWeight, silent]
    simp [read, eq_comm]
  | false =>
    have read : (Trace.ofArc arc).input = [arc.input] := by
      simp [Trace.ofArc, Trace.ofPair, Trace.ofWeight, silent]
    have there : [arc.input] <+: input.drop position ↔ input[position]? = some arc.input := by
      rw [List.cons_prefix_iff, ← List.head?_drop]
      constructor
      · rintro ⟨later, same, _⟩
        rw [same]
        rfl
      · intro head
        obtain ⟨later, same⟩ := List.head?_eq_some_iff.mp head
        exact ⟨later, same, List.nil_prefix⟩
    rw [read, there]
    by_cases found : input[position]? = some arc.input
    · simp [found, eq_comm]
    · simp [found]

/-- The path leads from place to place, reading the input. -/
inductive Leads (t : Transducer) (input : List Symbol) : Place → List Arc → Place → Prop
  | stay (place : Place) : Leads t input place [] place
  | step {place next last : Place} {arc : Arc} {path : List Arc} (leaves : arc ∈ t.arcs place.1)
      (advances : advance? input arc place = some next) (later : Leads t input next path last) :
      Leads t input place (arc :: path) last

variable {t : Transducer} {input : List Symbol}

theorem Leads.append {place middle last : Place} {front back : List Arc}
    (first : Leads t input place front middle) (second : Leads t input middle back last) :
    Leads t input place (front ++ back) last := by
  induction first with
  | stay => exact second
  | step leaves advances _ ih => exact .step leaves advances (ih second)

theorem append_prefix_drop_iff {front back : List Symbol} {position : Nat} :
    front ++ back <+: input.drop position ↔
      front <+: input.drop position ∧ back <+: input.drop (position + front.length) := by
  rw [← List.drop_drop]
  constructor
  · rintro ⟨rest, same⟩
    rw [← same, List.append_assoc, List.drop_left]
    exact ⟨List.prefix_append front _, List.prefix_append back rest⟩
  · rintro ⟨⟨rest, same⟩, later⟩
    rw [← same, List.drop_left] at later
    rw [← same]
    exact (List.prefix_append_right_inj front).mpr later

/-- A path leads on from a place when the input goes on with what it reads. -/
theorem leads_iff {state position last finish : Nat} {output text : String} {path : List Arc} :
    Leads t input (state, position, output) path (last, finish, text) ↔
      t.Run state path last ∧ (Trace.ofPath path).input <+: input.drop position ∧
        finish = position + (Trace.ofPath path).input.length ∧
        text = output ++ String.join (Trace.ofPath path).output := by
  induction path generalizing state position output with
  | nil =>
      constructor
      · rintro ⟨⟩
        exact ⟨.stay _, List.nil_prefix, rfl, String.append_empty.symm⟩
      · rintro ⟨⟨⟩, _, rfl, rfl⟩
        have same : output ++ String.join (Trace.ofPath []).output = output := String.append_empty
        rw [same]
        exact .stay _
  | cons arc path ih =>
      rw [Trace.of_path_cons, Trace.input_mul, Trace.output_mul, List.length_append,
        String.join_append]
      constructor
      · rintro (_ | ⟨leaves, advances, later⟩)
        obtain ⟨first, rfl⟩ := advance_eq_some_iff.mp advances
        obtain ⟨run, reads, rfl, rfl⟩ := ih.mp later
        exact ⟨.step leaves run, append_prefix_drop_iff.mpr ⟨first, reads⟩, Nat.add_assoc _ _ _,
          String.append_assoc⟩
      · rintro ⟨_ | ⟨leaves, run⟩, reads, rfl, rfl⟩
        obtain ⟨first, reads⟩ := append_prefix_drop_iff.mp reads
        exact .step leaves (advance_eq_some_iff.mpr ⟨first, rfl⟩)
          (ih.mpr ⟨run, reads, (Nat.add_assoc _ _ _).symm, String.append_assoc.symm⟩)

/-- A node lies where some path from the start leads, and carries its weight. -/
def Reached (t : Transducer) (input : List Symbol) (node : Node) : Prop :=
  ∃ path, Leads t input (0, 0, "") path node.place ∧ Transducer.total 0.0 path = node.weight

/-- All that is waiting is reached, and all that was found is transduced. -/
structure Sound (t : Transducer) (input : List Symbol) (search : Search) : Prop where
  pending : ∀ node ∈ search.pending, Reached t input node
  found : ∀ output total, search.found[output]? = some total → t.Transduces input output total

theorem leads_to_end_iff {last : Nat} {output : String} {path : List Arc} :
    Leads t input (0, 0, "") path (last, input.length, output) ↔
      t.Run 0 path last ∧ (Trace.ofPath path).input = input ∧
      String.join (Trace.ofPath path).output = output := by
  rw [leads_iff, List.drop_zero, Nat.zero_add, String.empty_append]
  constructor
  · rintro ⟨run, reads, whole, rfl⟩
    exact ⟨run, reads.eq_of_length whole.symm, rfl⟩
  · rintro ⟨run, rfl, rfl⟩
    exact ⟨run, List.prefix_refl _, rfl, rfl⟩

theorem transduces_iff {output : String} {total : Weight} :
    t.Transduces input output total ↔
      ∃ path last final, Leads t input (0, 0, "") path (last, input.length, output) ∧
      t.final? last = some final ∧ Transducer.total 0.0 path + final = total := by
  constructor
  · rintro ⟨path, final, ⟨last, run, ends⟩, reads, writes, costs⟩
    exact ⟨path, last, final, leads_to_end_iff.mpr ⟨run, reads, writes⟩, ends, costs⟩
  · rintro ⟨path, last, final, leads, ends, costs⟩
    obtain ⟨run, reads, writes⟩ := leads_to_end_iff.mp leads
    exact ⟨path, final, ⟨last, run, ends⟩, reads, writes, costs⟩

theorem Reached.follow {node next : Node} {arc : Arc} (reached : Reached t input node)
    (leaves : arc ∈ t.arcs node.place.1) (followed : follow? input.toArray node arc = some next) :
    Reached t input next := by
  obtain ⟨path, leads, weight⟩ := reached
  obtain ⟨advances, adds⟩ := advance_of_follow followed
  refine ⟨path ++ [arc], leads.append (.step leaves advances (.stay _)), ?_⟩
  rw [Transducer.total_append, weight, adds]
  rfl

theorem smaller_cases (old new : Weight) : smaller old new = old ∨ smaller old new = new := by
  unfold smaller
  split
  · exact .inr rfl
  · exact .inl rfl

theorem Sound.accept {search : Search} (sound : Sound t input search) {output : String}
    {total : Weight} (transduces : t.Transduces input output total) :
    Sound t input (search.accept output total) := by
  refine ⟨sound.pending, ?_⟩
  intro other weight found
  rw [Search.accept, Std.TreeMap.getElem?_insert] at found
  split at found
  · next same =>
    obtain rfl := Std.LawfulEqCmp.eq_of_compare same
    obtain rfl := Option.some.inj found
    cases before : search.found[output]? with
    | none => exact transduces
    | some old =>
        show t.Transduces input output (smaller old total)
        rcases smaller_cases old total with kept | replaced
        · rw [kept]
          exact sound.found output old before
        · rw [replaced]
          exact transduces
  · exact sound.found other weight found

theorem Sound.visit {search : Search} (sound : Sound t input search) {node : Node}
    (reached : Reached t input node) : Sound t input (search.visit node) := by
  have pushed : ∀ other ∈ node :: search.pending, Reached t input other := by
    intro other member
    rcases List.mem_cons.mp member with rfl | waiting
    · exact reached
    · exact sound.pending other waiting
  unfold Search.visit
  split
  · split
    · exact sound
    · exact ⟨pushed, sound.found⟩
  · exact ⟨pushed, sound.found⟩

/-- The part of an expansion that deals with the node itself. -/
def conclude (t : Transducer) (input : List Symbol) (search : Search) (node : Node) : Search :=
  if node.place.2.1 = input.length then
    match t.final? node.place.1 with
    | some weight => search.accept node.place.2.2 (node.weight + weight)
    | none => search
  else search

/-- The part of an expansion that deals with one arc. -/
def pursue (input : List Symbol) (node : Node) (search : Search) (arc : Arc) : Search :=
  match follow? input.toArray node arc with
  | some next => search.visit next
  | none => search

theorem expand_eq (t : Transducer) (input : List Symbol) (search : Search) (node : Node) :
    expand t input.toArray search node =
      (t.arcs node.place.1).toList.foldl (pursue input node) (conclude t input search node) :=
  rfl

theorem Sound.conclude {search : Search} (sound : Sound t input search) {node : Node}
    (reached : Reached t input node) : Sound t input (Search.conclude t input search node) := by
  unfold Search.conclude
  split
  · next whole =>
    split
    · next weight ends =>
      apply sound.accept
      obtain ⟨path, leads, costs⟩ := reached
      obtain ⟨⟨last, position, output⟩, written, total⟩ := node
      obtain rfl : position = input.length := whole
      rw [transduces_iff]
      exact ⟨path, last, weight, leads, ends, by rw [costs]⟩
    · exact sound
  · exact sound

theorem Sound.expand {search : Search} (sound : Sound t input search) {node : Node}
    (reached : Reached t input node) :
    Sound t input (Search.expand t input.toArray search node) := by
  have along (arcs : List Arc) (leave : ∀ arc ∈ arcs, arc ∈ t.arcs node.place.1) (search : Search)
      (sound : Sound t input search) : Sound t input (arcs.foldl (pursue input node) search) := by
    induction arcs generalizing search with
    | nil => exact sound
    | cons arc arcs ih =>
        rw [List.forall_mem_cons] at leave
        apply ih leave.2
        unfold pursue
        split
        · next next followed => exact sound.visit (reached.follow leave.1 followed)
        · exact sound
  rw [expand_eq]
  exact along _ (fun arc member => Array.mem_toList_iff.mp member) _ (sound.conclude reached)

/-- The node on top is reached, and what its expansion finds is there. -/
theorem Sound.next {search : Search} (sound : Sound t input search) {node : Node} {rest : List Node}
    (waiting : search.pending = node :: rest) : Reached t input node ∧
      Sound t input (Search.expand t input.toArray { search with pending := rest } node) := by
  have waits := sound.pending
  rw [waiting, List.forall_mem_cons] at waits
  have popped : Sound t input { search with pending := rest } := ⟨waits.2, sound.found⟩
  exact ⟨waits.1, popped.expand waits.1⟩

theorem Sound.run {search : Search} (sound : Sound t input search) (steps : Nat) :
    Sound t input (Search.run t input.toArray steps search) := by
  induction steps generalizing search with
  | zero => exact sound
  | succ steps ih =>
      rw [Search.run]
      split
      · exact sound
      · next node rest waiting => exact ih (sound.next waiting).2

theorem sound_start : Sound t input start := by
  refine ⟨?_, ?_⟩
  · intro node member
    obtain rfl := List.mem_singleton.mp member
    exact ⟨[], .stay _, rfl⟩
  · intro output total found
    rw [start, Std.TreeMap.getElem?_emptyc] at found
    exact absurd found (by simp)

end Search

/-- Every output that is looked up belongs to an accepting path of that cost. -/
theorem Transducer.lookup_transduces {t : Transducer} {input : List Symbol} {output : String}
    {total : Weight} (found : (t.lookupSymbols input)[output]? = some total) :
    t.Transduces input output total :=
  (Search.sound_start.run Search.maxSteps).found output total found

end MorphLex
