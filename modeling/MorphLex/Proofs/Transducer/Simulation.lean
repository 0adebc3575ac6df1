import MorphLex.Proofs.Transducer.Run
import MorphLex.Proofs.Weight.Zero

/-!
Simulations between transducers. What a path shows is the sequence of its labels:
arcs that are silent and without weight are left out, and negative zero is read as
zero. A simulation answers every arc that leads on to a final state by a path with
the same labels; then it answers every accepting path.
-/

namespace MorphLex

/-- What an arc shows of itself. -/
structure Label where
  input : Symbol
  output : Symbol
  weight : Weight
deriving DecidableEq

def Arc.label? (arc : Arc) : Option Label :=
  if arc.isSilent && arc.weight == 0.0 then none
  else some { input := arc.input, output := arc.output, weight := arc.weight.plain }

namespace Transducer

def labels (path : List Arc) : List Label := path.filterMap Arc.label?

@[simp] theorem labels_nil : labels [] = [] := rfl

theorem labels_append (front back : List Arc) :
    labels (front ++ back) = labels front ++ labels back :=
  List.filterMap_append

theorem labels_cons (arc : Arc) (path : List Arc) :
    labels (arc :: path) = labels [arc] ++ labels path :=
  labels_append [arc] path

/-- Every symbol that a path reads is in its labels, and so is every one that it writes. -/
theorem symbols_of_path (path : List Arc) :
    (Trace.ofPath path).input =
      ((labels path).map Label.input).filter (fun symbol => !symbol.isEpsilon) ∧
      (Trace.ofPath path).output =
        ((labels path).map Label.output).filter (fun symbol => !symbol.isEpsilon) := by
  induction path with
  | nil => exact ⟨rfl, rfl⟩
  | cons arc path ih =>
      rw [Trace.of_path_cons, labels_cons, Trace.input_mul, Trace.output_mul, ih.1, ih.2,
        List.map_append, List.map_append, List.filter_append, List.filter_append]
      have alone : (Trace.ofArc arc).input =
        ((labels [arc]).map Label.input).filter (fun symbol => !symbol.isEpsilon) ∧
          (Trace.ofArc arc).output =
            ((labels [arc]).map Label.output).filter (fun symbol => !symbol.isEpsilon) := by
        simp only [Trace.ofArc, Trace.ofPair, Trace.ofWeight, Trace.input_mul,
          Trace.output_mul, labels, List.filterMap_cons, List.filterMap_nil, Arc.label?]
        by_cases erased : (arc.isSilent && arc.weight == 0.0) = true
        · simp only [Bool.and_eq_true, Arc.isSilent] at erased
          simp [Arc.isSilent, erased]
        · rw [if_neg erased]
          constructor
          · cases read : arc.input.isEpsilon <;> simp [read]
          · cases written : arc.output.isEpsilon <;> simp [written]
      rw [alone.1, alone.2]
      exact ⟨rfl, rfl⟩

def charge (labels : List Label) (final : Weight) : Weight :=
  (labels.foldl (fun total label => (total + label.weight).plain) 0.0 + final).plain

theorem plain_cost (path : List Arc) (final : Weight) :
    (cost path final).plain = charge (labels path) final.plain := by
  have totals (total : Weight) :
      (path.foldl (fun total arc => total + arc.weight) total).plain =
        (labels path).foldl (fun total label => (total + label.weight).plain) total.plain := by
    induction path generalizing total with
    | nil => rfl
    | cons arc path ih =>
        rw [List.foldl_cons, ih, labels_cons, List.foldl_append]
        congr 1
        simp only [labels, List.filterMap_cons, List.filterMap_nil, Arc.label?]
        by_cases erased : (arc.isSilent && arc.weight == 0.0) = true
        · have free : (arc.weight == 0.0) = true := (Bool.and_eq_true_iff.mp erased).2
          rw [if_pos erased, Weight.plain_add, Weight.plain_of_zero free, Weight.add_zero_eq_plain]
          simp
        · rw [if_neg erased, Weight.plain_add]
          rfl
  have sum := totals 0.0
  rw [Weight.plain_zero] at sum
  rw [cost, Weight.plain_add, sum, charge]

def Productive (t : Transducer) (state : StateId) : Prop :=
  ∃ path last weight, t.Run state path last ∧ t.final? last = some weight

/-- `larger` answers every arc of `t` that leads on to a final state. -/
structure Simulates (t larger : Transducer) (related : StateId → StateId → Prop) : Prop where
  start : related 0 0
  step : ∀ {state other : StateId} {arc : Arc}, related state other → arc ∈ t.arcs state →
    t.Productive arc.target →
    ∃ path last, larger.Run other path last ∧ labels path = labels [arc] ∧ related arc.target last
  final : ∀ {state other : StateId} {weight : Weight}, related state other →
    t.final? state = some weight →
    ∃ answer, larger.final? other = some answer ∧ answer.plain = weight.plain

variable {t larger : Transducer} {related : StateId → StateId → Prop}

theorem Simulates.run (simulation : t.Simulates larger related) {state other last : StateId}
    {path : List Arc} {weight : Weight} (run : t.Run state path last)
    (ends : t.final? last = some weight) (start : related state other) :
    ∃ answer target, larger.Run other answer target ∧ labels answer = labels path ∧
      related last target := by
  induction run generalizing other with
  | stay state => exact ⟨[], other, .stay other, rfl, start⟩
  | @step state arc path last leaves later ih =>
      obtain ⟨front, middle, first, same, onward⟩ :=
        simulation.step start leaves ⟨path, last, weight, later, ends⟩
      obtain ⟨back, target, second, rest, reached⟩ := ih ends onward
      exact ⟨front ++ back, target,
        first.append second, by rw [labels_append, labels_cons arc, same, rest], reached⟩

/-- Every accepting path has an answer with the same labels and the same final weight. -/
theorem Simulates.accepts (simulation : t.Simulates larger related) {path : List Arc}
    {weight : Weight} (accepted : t.Accepts path weight) :
    ∃ answer final, larger.Accepts answer final ∧ labels answer = labels path ∧
      final.plain = weight.plain := by
  obtain ⟨last, run, ends⟩ := accepted
  obtain ⟨answer, target, answers, same, reached⟩ := simulation.run run ends simulation.start
  obtain ⟨final, ended, equal⟩ := simulation.final reached ends
  exact ⟨answer, final, ⟨target, answers, ended⟩, same, equal⟩

end Transducer

end MorphLex
