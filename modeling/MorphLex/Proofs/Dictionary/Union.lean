import MorphLex.Proofs.Dictionary.Proper
import MorphLex.Proofs.Weight.Order

/-!
Entries add up to a union. Whatever is read before and after it, an entry
contributes the weighted words of the transducer that is built from it alone, and
the smallest weight wins. The start has one final weight only, so that of the kept
entries without a path the last one replaces those before it.
-/

open scoped Pointwise

namespace MorphLex

section Costs

/-- The weights of a trace, added up in their order. -/
def Trace.charge (trace : Trace) : Weight :=
  trace.weights.foldl (fun total weight => (total + weight).plain) 0.0

theorem plain_add_weight (total weight : Weight) : (total + weight).plain =
    (Trace.ofWeight weight).weights.foldl (fun total weight => (total + weight).plain)
      total.plain := by
  rw [Trace.ofWeight, Weight.plain_add]
  dsimp only
  split
  · next zero =>
    rw [Weight.plain_of_zero zero, Weight.add_zero_eq_plain, Weight.plain_plain, Weight.plain_plain]
    rfl
  · next nonzero =>
    rw [Weight.plain_of_nonzero nonzero]
    rfl

/-- The weight is among them, and none of them is smaller. -/
def Weight.Least (weights : Set Weight) (least : Weight) : Prop :=
  least ∈ weights ∧ ∀ weight ∈ weights, weight.IsNumber → least ≤ weight

namespace Transducer

theorem plain_cost_eq_charge (path : List Arc) (final : Weight) :
    (cost path final).plain = (Trace.ofPath path * Trace.ofWeight final).charge := by
  have along (total : Weight) : (path.foldl (fun total arc => total + arc.weight) total).plain =
      (Trace.ofPath path).weights.foldl (fun total weight => (total + weight).plain)
        total.plain := by
    induction path generalizing total with
    | nil => rfl
    | cons arc path ih =>
        rw [List.foldl_cons, ih, Trace.of_path_cons, Trace.weights_mul, List.foldl_append,
          plain_add_weight]
        rfl
  rw [cost, plain_add_weight, along, Weight.plain_zero, Trace.charge, Trace.weights_mul,
    List.foldl_append]

/-- What the accepting paths with that input and output cost, up to the sign of a zero. -/
def costs (t : Transducer) (input output : List Symbol) : Set Weight :=
  { total | ∃ path final, t.Accepts path final ∧ (Trace.ofPath path).input = input ∧
    (Trace.ofPath path).output = output ∧ (cost path final).plain = total }

theorem mem_costs_iff {t : Transducer} {input output : List Symbol} {total : Weight} :
    total ∈ t.costs input output ↔
      ∃ trace ∈ t.traces, trace.input = input ∧ trace.output = output ∧ trace.charge = total := by
  constructor
  · rintro ⟨path, final, accepted, reads, writes, pays⟩
    refine ⟨_, ⟨path, final, accepted, rfl⟩, ?_, ?_,
      (plain_cost_eq_charge path final).symm.trans pays⟩
    · exact (List.append_nil _).trans reads
    · exact (List.append_nil _).trans writes
  · rintro ⟨_, ⟨path, final, accepted, rfl⟩, reads, writes, pays⟩
    refine ⟨path, final, accepted, ?_, ?_, (plain_cost_eq_charge path final).trans pays⟩
    · exact (List.append_nil _).symm.trans reads
    · exact (List.append_nil _).symm.trans writes

/-- The traces of the accepting runs that end elsewhere than at the start. -/
def crown (t : Transducer) : Set Trace := t.tracesTo {0}ᶜ

theorem crown_initial : crown .initial = ∅ := by
  ext trace
  simp [crown, tracesTo]

end Transducer

end Costs

namespace Dictionary

open Reported Transducer

section Entry

variable {t : Transducer} (mode : Mode) (entry : Entry)

namespace Entry

/-- An entry that takes no state ends at the start; any other ends in a new state. -/
theorem last_of_states (sound : ∀ part ∈ entry.parts, part.Sound) (rooted : t.Rooted) :
    (entry.states = 0 → addParts mode t 0 entry.parts = (t, 0)) ∧
      (entry.states ≠ 0 → t.size ≤ (addParts mode t 0 entry.parts).2) := by
  have size : (addParts mode t 0 entry.parts).1.size = t.size + entry.states :=
    size_add_parts mode t 0 entry.parts
  rcases (add_parts_branch mode entry.parts sound rooted.formed rooted.formed.1).ending with
      ⟨same, start⟩ | ⟨new, inside⟩
  · constructor
    · intro _
      exact Prod.ext same start
    · intro growing
      rw [same] at size
      exact absurd (Nat.left_eq_add.mp size) growing
  · constructor
    · intro idle
      rw [size, idle] at inside
      exact absurd inside (Nat.not_lt.mpr new)
    · exact fun _ => new

theorem traces_to_add_to (sound : ∀ part ∈ entry.parts, part.Sound) (rooted : t.Rooted)
    (ends : Set StateId) :
    (entry.addTo mode t).tracesTo ends = t.tracesTo (ends \ {(addParts mode t 0 entry.parts).2}) ∪
      { trace | (addParts mode t 0 entry.parts).2 ∈ ends ∧ trace ∈ entry.traces mode } :=
  (add_parts_branch mode entry.parts sound rooted.formed rooted.formed.1).traces_to_set_final rooted
    entry.weight ends

/-- An entry adds its traces. One without a path replaces what ended at the start before,
any other leaves that as it is. -/
theorem add_to_unites (sound : ∀ part ∈ entry.parts, part.Sound) (rooted : t.Rooted) :
    (entry.addTo mode t).traces =
      (if entry.states = 0 then t.crown else t.traces) ∪ entry.traces mode ∧
      (entry.addTo mode t).crown = if entry.states = 0 then t.crown else
        t.crown ∪ entry.traces mode := by
  have last := entry.last_of_states mode sound rooted
  rw [traces_eq (entry.addTo mode t), crown, crown, entry.traces_to_add_to mode sound rooted,
    entry.traces_to_add_to mode sound rooted]
  by_cases idle : entry.states = 0
  · rw [if_pos idle, if_pos idle, last.1 idle, ← Set.compl_eq_univ_sdiff, Set.sdiff_eq,
      Set.inter_self]
    constructor
    · congr 1
      ext trace
      exact and_iff_right trivial
    · ext trace
      constructor
      · intro member
        rcases member with before | ⟨other, _⟩
        · exact before
        · exact absurd rfl other
      · exact .inl
  · have new := last.2 idle
    have other : (addParts mode t 0 entry.parts).2 ≠ 0 :=
      Nat.ne_of_gt (Nat.lt_of_lt_of_le rooted.formed.1 new)
    have notFinal := final_of_size_le t _ new
    rw [if_neg idle, if_neg idle, traces_to_diff notFinal, traces_to_diff notFinal, ← traces_eq]
    constructor
    · congr 1
      ext trace
      exact and_iff_right trivial
    · congr 1
      ext trace
      exact and_iff_right other

theorem traces_of_idle (sound : ∀ part ∈ entry.parts, part.Sound) (idle : entry.states = 0) :
    entry.traces mode = {Trace.ofWeight entry.weight} := by
  have spelled :=
    (add_parts_branch mode entry.parts sound well_formed_initial well_formed_initial.1).traces
  rw [(entry.last_of_states mode sound rooted_initial).1 idle,
    between_self _ well_formed_initial.1] at spelled
  rw [traces, ← spelled, one_mul]

end Entry

end Entry

/-- An entry together with what it is read against. -/
structure Line where
  scope : Scope
  element : Xml.Element

namespace Line

/-- The line is kept, and is without a path. -/
def Idle (line : Line) : Prop := line.scope.options.Idle line.scope.mode line.element

instance (line : Line) : Decidable line.Idle :=
  inferInstanceAs (Decidable (line.scope.options.Idle line.scope.mode line.element))

/-- The transducer is built from this line alone. -/
def Alone (line : Line) (alone : Transducer) : Prop :=
  (line.scope.addEntry .initial line.element).Yields alone

/-- The traces of what is built from the line alone. -/
def traces (line : Line) : Set Trace := { trace | ∃ alone, line.Alone alone ∧ trace ∈ alone.traces }

/-- Of the kept lines without a path all but the last are struck out. -/
def standing : List Line → List Line
  | [] => []
  | line :: rest =>
      if line.Idle ∧ ∃ later ∈ rest, later.Idle then standing rest else line :: standing rest

/-- At most one line is kept that is without a path. -/
def OneIdle (lines : List Line) : Prop :=
  lines.Pairwise fun first second => ¬(first.Idle ∧ second.Idle)

instance (lines : List Line) : Decidable (OneIdle lines) :=
  inferInstanceAs (Decidable (lines.Pairwise _))

variable {line : Line} {lines others : List Line} {t next result : Transducer}

theorem traces_of_skipped {reason : SkipReason}
    (skipped : line.scope.options.skipReason? line.element = some reason) : line.traces = ∅ := by
  ext trace
  constructor
  · rintro ⟨alone, built, member⟩
    rcases Scope.add_entry_yields_iff.mp built with ⟨_, _, rfl⟩ | ⟨kept, _⟩
    · rwa [traces_initial] at member
    · exact nomatch kept.symm.trans skipped
  · exact False.elim

/-- Alone, a kept line has the traces of the entry that is read from it. -/
theorem traces_of_kept {entry : Entry} (copyable : line.scope.registry.Copyable)
    (kept : line.scope.options.skipReason? line.element = none)
    (reads : line.scope.readEntry line.element = .ok entry) :
    line.traces = entry.traces line.scope.mode := by
  have first :=
    (entry.add_to_unites line.scope.mode (Scope.entry_sound reads copyable) rooted_initial).1
  rw [crown_initial, traces_initial, ite_self, Set.empty_union] at first
  rw [← first]
  ext trace
  constructor
  · rintro ⟨alone, built, member⟩
    rcases Scope.add_entry_yields_iff.mp built with ⟨_, skipped, _⟩ | ⟨_, again, same, rfl⟩
    · exact nomatch kept.symm.trans skipped
    · obtain rfl := Except.ok.inj (same.symm.trans reads)
      exact member
  · intro member
    exact ⟨_, Scope.add_entry_yields_iff.mpr (.inr ⟨kept, entry, reads, rfl⟩), member⟩

/-- What one line does to what has been built before it. -/
theorem read_unites (copyable : line.scope.registry.Copyable) (rooted : t.Rooted)
    (read : (line.scope.addEntry t line.element).Yields next) :
    next.Rooted ∧ next.traces = (if line.Idle then t.crown else t.traces) ∪ line.traces ∧
      next.crown = (if line.Idle then t.crown else t.crown ∪ line.traces) := by
  rcases Scope.add_entry_yields_iff.mp read with ⟨reason, skipped, rfl⟩ | ⟨kept, entry, reads, rfl⟩
  · have busy : ¬line.Idle := by
      intro idle
      exact nomatch idle.1.symm.trans skipped
    rw [if_neg busy, if_neg busy, traces_of_skipped skipped, Set.union_empty, Set.union_empty]
    exact ⟨rooted, rfl, rfl⟩
  · have sound := Scope.entry_sound reads copyable
    have idle : line.Idle ↔ entry.states = 0 := by
      rw [Scope.entry_states_eq_zero_iff reads]
      exact and_iff_right kept
    simp only [idle, traces_of_kept copyable kept reads]
    exact ⟨entry.add_to_rooted line.scope.mode sound rooted,
      entry.add_to_unites line.scope.mode sound rooted⟩

/-- An idle line has a single trace, a weight alone. -/
theorem traces_of_idle (copyable : line.scope.registry.Copyable) (idle : line.Idle)
    (read : (line.scope.addEntry t line.element).Yields next) :
    ∃ weight, line.traces = {Trace.ofWeight weight} := by
  rcases Scope.add_entry_yields_iff.mp read with ⟨reason, skipped, _⟩ | ⟨kept, entry, reads, _⟩
  · exact nomatch idle.1.symm.trans skipped
  · refine ⟨entry.weight, ?_⟩
    rw [traces_of_kept copyable kept reads]
    apply entry.traces_of_idle line.scope.mode (Scope.entry_sound reads copyable)
    exact (Scope.entry_states_eq_zero_iff reads).mpr idle.2

theorem standing_eq (one : OneIdle lines) : standing lines = lines := by
  induction lines with
  | nil => rfl
  | cons line rest ih =>
      obtain ⟨apart, later⟩ := List.pairwise_cons.mp one
      have alone : ¬(line.Idle ∧ ∃ other ∈ rest, other.Idle) := by
        rintro ⟨idle, other, member, another⟩
        exact apart other member ⟨idle, another⟩
      rw [standing, if_neg alone, ih later]

theorem standing_subset (lines : List Line) : ∀ line ∈ standing lines, line ∈ lines := by
  induction lines with
  | nil => exact fun line member => member
  | cons first rest ih =>
      intro line member
      rw [standing] at member
      split at member
      · exact List.mem_cons_of_mem _ (ih line member)
      · rcases List.mem_cons.mp member with rfl | later
        · exact List.mem_cons_self
        · exact List.mem_cons_of_mem _ (ih line later)

/-- When some line is idle, one that is idle is left standing. -/
theorem exists_standing_idle (some : ∃ line ∈ lines, line.Idle) :
    ∃ line ∈ standing lines, line.Idle := by
  induction lines with
  | nil => exact absurd some (by simp)
  | cons first rest ih =>
      rw [standing]
      split
      · next struck => exact ih struck.2
      · next kept =>
        obtain ⟨line, member, idle⟩ := some
        rcases List.mem_cons.mp member with rfl | later
        · exact ⟨line, List.mem_cons_self, idle⟩
        · obtain ⟨other, stands, another⟩ := ih ⟨line, later, idle⟩
          exact ⟨other, List.mem_cons_of_mem _ stands, another⟩

theorem mem_standing (member : line ∈ lines) (busy : ¬line.Idle) : line ∈ standing lines := by
  induction lines with
  | nil => exact member
  | cons first rest ih =>
      rw [standing]
      split
      · next struck =>
        rcases List.mem_cons.mp member with rfl | later
        · exact absurd struck.1 busy
        · exact ih later
      · rcases List.mem_cons.mp member with rfl | later
        · exact List.mem_cons_self
        · exact List.mem_cons_of_mem _ (ih later)

/-- The lines are read one behind the other. -/
inductive Entered : Transducer → List Line → Transducer → Prop
  | done (t : Transducer) : Entered t [] t
  | line {t next result : Transducer} {line : Line} {rest : List Line}
      (read : (line.scope.addEntry t line.element).Yields next) (later : Entered next rest result) :
      Entered t (line :: rest) result

/-- What has been built are the traces of the lines that are left standing. -/
theorem Entered.traces_eq (entered : Entered t lines result)
    (copyable : ∀ line ∈ lines, line.scope.registry.Copyable) (rooted : t.Rooted) : result.traces =
      (if ∃ line ∈ lines, line.Idle then t.crown else t.traces) ∪
        { trace | ∃ line ∈ standing lines, trace ∈ line.traces } := by
  induction entered with
  | done t =>
      ext trace
      simp [standing]
  | @line t next result line rest read _ ih =>
      rw [List.forall_mem_cons] at copyable
      obtain ⟨rootedNext, traces, crown⟩ := read_unites copyable.1 rooted read
      rw [ih copyable.2 rootedNext, traces, crown, standing]
      have first (others : List Line) : { trace | ∃ other ∈ line :: others, trace ∈ other.traces } =
          line.traces ∪ { trace | ∃ other ∈ others, trace ∈ other.traces } := by
        ext trace
        simp
      by_cases idle : line.Idle
      · have some : ∃ other ∈ line :: rest, other.Idle := ⟨line, List.mem_cons_self, idle⟩
        rw [if_pos some, if_pos idle, if_pos idle]
        by_cases later : ∃ other ∈ rest, other.Idle
        · rw [if_pos later, if_pos ⟨idle, later⟩]
        · rw [if_neg later, if_neg fun both => later both.2, first, Set.union_assoc]
      · have same :
            (∃ other ∈ line :: rest, other.Idle) ↔ ∃ other ∈ rest, other.Idle := by simp [idle]
        have stands : ¬(line.Idle ∧ ∃ other ∈ rest, other.Idle) := fun both => idle both.1
        rw [if_neg idle, if_neg idle, if_neg stands, first, ← Set.union_assoc]
        simp only [same]
        split
        · rfl
        · rfl

theorem Entered.append {middle : Transducer} (front : Entered t lines middle)
    (back : Entered middle others result) : Entered t (lines ++ others) result := by
  induction front with
  | done t => exact back
  | line read _ ih => exact .line read (ih back)

/-- Whether a line can be read does not depend on what has been built. -/
theorem exists_next (read : (line.scope.addEntry t line.element).Yields next) (other : Transducer) :
    ∃ after, (line.scope.addEntry other line.element).Yields after := by
  rcases Scope.add_entry_yields_iff.mp read with ⟨reason, skipped, _⟩ | ⟨kept, entry, reads, _⟩
  · exact ⟨other, Scope.add_entry_yields_iff.mpr (.inl ⟨reason, skipped, rfl⟩)⟩
  · exact ⟨_, Scope.add_entry_yields_iff.mpr (.inr ⟨kept, entry, reads, rfl⟩)⟩

theorem Entered.exists_alone (entered : Entered t lines result) :
    ∀ line ∈ lines, ∃ alone, line.Alone alone := by
  induction entered with
  | done t => exact fun line member => absurd member List.not_mem_nil
  | line read _ ih => exact List.forall_mem_cons.mpr ⟨exists_next read .initial, ih⟩

theorem exists_entered (readable : ∀ line ∈ lines, ∃ alone, line.Alone alone) (t : Transducer) :
    ∃ result, Entered t lines result := by
  induction lines generalizing t with
  | nil => exact ⟨t, .done t⟩
  | cons line rest ih =>
      rw [List.forall_mem_cons] at readable
      obtain ⟨alone, first⟩ := readable.1
      obtain ⟨next, read⟩ := exists_next first t
      obtain ⟨result, later⟩ := ih readable.2 next
      exact ⟨result, .line read later⟩

/-- The pair of input and output costs that much in what is built from the line alone. -/
def Costs (line : Line) (input output : List Symbol) (total : Weight) : Prop :=
  ∃ alone, line.Alone alone ∧ total ∈ alone.costs input output

theorem costs_iff {input output : List Symbol} {total : Weight} : line.Costs input output total ↔
    ∃ trace ∈ line.traces, trace.input = input ∧ trace.output = output ∧ trace.charge = total := by
  constructor
  · rintro ⟨alone, built, member⟩
    obtain ⟨trace, inside, shown⟩ := mem_costs_iff.mp member
    exact ⟨trace, ⟨alone, built, inside⟩, shown⟩
  · rintro ⟨trace, ⟨alone, built, inside⟩, shown⟩
    exact ⟨alone, built, mem_costs_iff.mpr ⟨trace, inside, shown⟩⟩

theorem Entered.mem_costs_iff (entered : Entered .initial lines result)
    (copyable : ∀ line ∈ lines, line.scope.registry.Copyable) (input output : List Symbol)
    (total : Weight) :
    total ∈ result.costs input output ↔ ∃ line ∈ standing lines, line.Costs input output total := by
  rw [Transducer.mem_costs_iff, entered.traces_eq copyable rooted_initial, crown_initial,
    traces_initial, ite_self, Set.empty_union]
  simp only [costs_iff]
  constructor
  · rintro ⟨trace, ⟨line, stands, member⟩, shown⟩
    exact ⟨line, stands, trace, member, shown⟩
  · rintro ⟨line, stands, trace, member, shown⟩
    exact ⟨trace, ⟨line, stands, member⟩, shown⟩

/-- What a line has that is struck out, another line has that stands. -/
theorem exists_standing_costs (copyable : ∀ line ∈ lines, line.scope.registry.Copyable)
    (readable : ∀ line ∈ lines, ∃ alone, line.Alone alone) (member : line ∈ lines)
    {input output : List Symbol} {total : Weight} (costs : line.Costs input output total) :
    ∃ other ∈ standing lines, ∃ weight, other.Costs input output weight := by
  by_cases idle : line.Idle
  · obtain ⟨other, stands, another⟩ := exists_standing_idle ⟨line, member, idle⟩
    have inside := standing_subset lines other stands
    obtain ⟨alone, built⟩ := readable line member
    obtain ⟨beside, raised⟩ := readable other inside
    obtain ⟨weight, single⟩ := traces_of_idle (copyable line member) idle built
    obtain ⟨further, only⟩ := traces_of_idle (copyable other inside) another raised
    obtain ⟨trace, found, reads, writes, _⟩ := costs_iff.mp costs
    rw [single] at found
    obtain rfl := Set.mem_singleton_iff.mp found
    refine ⟨other, stands, (Trace.ofWeight further).charge,
      costs_iff.mpr ⟨Trace.ofWeight further, ?_, reads, writes, rfl⟩⟩
    rw [only]
    exact Set.mem_singleton _
  · exact ⟨line, mem_standing member idle, total, costs⟩

/-- What is built is the union of what is built from each line alone: every pair has all of
their weights, and the smallest of these wins. -/
structure Unites (lines : List Line) (built : Transducer) : Prop where
  alone : ∀ line ∈ lines, ∃ alone, line.Alone alone
  costs : ∀ input output total,
    total ∈ built.costs input output ↔ ∃ line ∈ lines, line.Costs input output total
  least : ∀ input output total, Weight.Least (built.costs input output) total ↔
    (∃ line ∈ lines, Weight.Least { weight | line.Costs input output weight } total) ∧
      ∀ line ∈ lines, ∀ weight, line.Costs input output weight → weight.IsNumber → total ≤ weight
  absent : ∀ input output, built.costs input output = ∅ ↔
    ∀ line ∈ lines, ∀ weight, ¬line.Costs input output weight

theorem Unites.of_costs (readable : ∀ line ∈ lines, ∃ alone, line.Alone alone)
    (costs : ∀ input output total,
      total ∈ result.costs input output ↔
        ∃ line ∈ lines, line.Costs input output total) : Unites lines result where
  alone := readable
  costs := costs
  least := by
    intro input output total
    constructor
    · rintro ⟨member, below⟩
      obtain ⟨line, inside, paid⟩ := (costs input output total).mp member
      have lower : ∀ other ∈ lines, ∀ weight, other.Costs input output weight → weight.IsNumber →
        total ≤ weight :=
        fun other inside weight paid =>
          below weight ((costs input output weight).mpr ⟨other, inside, paid⟩)
      exact ⟨⟨line, inside, paid, lower line inside⟩, lower⟩
    · rintro ⟨⟨line, inside, paid, _⟩, lower⟩
      constructor
      · exact (costs input output total).mpr ⟨line, inside, paid⟩
      · intro weight member
        obtain ⟨other, inside, pays⟩ := (costs input output weight).mp member
        exact lower other inside weight pays
  absent := by
    intro input output
    rw [Set.eq_empty_iff_forall_notMem]
    constructor
    · intro none line inside weight paid
      exact none weight ((costs input output weight).mpr ⟨line, inside, paid⟩)
    · intro none weight member
      obtain ⟨line, inside, paid⟩ := (costs input output weight).mp member
      exact none line inside weight paid

/-- The lines that are left standing unite. -/
theorem Entered.unites (entered : Entered .initial lines result)
    (copyable : ∀ line ∈ lines, line.scope.registry.Copyable) : Unites (standing lines) result := by
  apply Unites.of_costs
  · exact fun line stands => entered.exists_alone line (standing_subset lines line stands)
  · exact entered.mem_costs_iff copyable

/-- A pair is absent when all lines lack it, those that are struck out among them. -/
theorem Entered.absent (entered : Entered .initial lines result)
    (copyable : ∀ line ∈ lines, line.scope.registry.Copyable) (input output : List Symbol) :
    result.costs input output = ∅ ↔ ∀ line ∈ lines, ∀ weight, ¬line.Costs input output weight := by
  rw [(entered.unites copyable).absent]
  constructor
  · intro none line member weight paid
    obtain ⟨other, stands, further, pays⟩ :=
      exists_standing_costs copyable entered.exists_alone member paid
    exact none other stands further pays
  · exact fun none line stands => none line (standing_subset lines line stands)

/-- With at most one idle line, the order of the lines is of no account. -/
theorem Entered.permuted (entered : Entered .initial lines result)
    (copyable : ∀ line ∈ lines, line.scope.registry.Copyable) (one : OneIdle lines)
    (same : others.Perm lines) :
    ∃ rebuilt, Entered .initial others rebuilt ∧
      ∀ input output, rebuilt.costs input output = result.costs input output := by
  have readable : ∀ line ∈ others, ∃ alone, line.Alone alone :=
    fun line member => entered.exists_alone line (same.mem_iff.mp member)
  obtain ⟨rebuilt, again⟩ := exists_entered readable .initial
  have another : OneIdle others := same.symm.pairwise one fun apart both => apart both.symm
  refine ⟨rebuilt, again, ?_⟩
  intro input output
  ext total
  rw [again.mem_costs_iff (fun line member => copyable line (same.mem_iff.mp member)),
    entered.mem_costs_iff copyable, standing_eq one, standing_eq another]
  simp only [same.mem_iff]

end Line

end Dictionary

end MorphLex
