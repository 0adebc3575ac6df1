import Mathlib.Algebra.Group.Pointwise.Set.Basic
import MorphLex.Transducer.Basic

/-!
Runs of a transducer and what can be observed of them. A trace is what a run
reads, what it writes and the weights that it meets; epsilon and weights of zero
leave nothing in it. The traces of a transducer are those of its accepting runs,
the final weight last.
-/

namespace MorphLex

/-- The symbols read, the symbols written, and the weights met. -/
@[ext] structure Trace where
  input : List Symbol
  output : List Symbol
  weights : List Weight
deriving DecidableEq

namespace Trace

instance : One Trace := ⟨⟨[], [], []⟩⟩

instance : Mul Trace :=
  ⟨fun first second => ⟨first.input ++ second.input, first.output ++ second.output,
    first.weights ++ second.weights⟩⟩

@[simp] theorem input_one : (1 : Trace).input = [] := rfl
@[simp] theorem output_one : (1 : Trace).output = [] := rfl
@[simp] theorem weights_one : (1 : Trace).weights = [] := rfl

@[simp] theorem input_mul (first second : Trace) :
    (first * second).input = first.input ++ second.input := rfl

@[simp] theorem output_mul (first second : Trace) :
    (first * second).output = first.output ++ second.output := rfl

@[simp] theorem weights_mul (first second : Trace) :
    (first * second).weights = first.weights ++ second.weights := rfl

instance : Monoid Trace where
  mul_assoc first second third := by ext1 <;> simp
  one_mul trace := by ext1 <;> simp
  mul_one trace := by ext1 <;> simp

def ofPair (input output : Symbol) : Trace where
  input := if input.isEpsilon then [] else [input]
  output := if output.isEpsilon then [] else [output]
  weights := []

def ofWeight (weight : Weight) : Trace where
  input := []
  output := []
  weights := if weight == 0.0 then [] else [weight]

def ofArc (arc : Arc) : Trace := ofPair arc.input arc.output * ofWeight arc.weight

def ofPath (path : List Arc) : Trace := (path.map ofArc).prod

@[simp] theorem of_path_nil : ofPath [] = 1 := rfl

@[simp] theorem of_path_cons (arc : Arc) (path : List Arc) :
    ofPath (arc :: path) = ofArc arc * ofPath path := by
  simp [ofPath]

theorem of_weight_zero : ofWeight 0.0 = 1 := by
  rw [ofWeight, if_pos (by decide)]
  rfl

theorem of_pair_epsilon : ofPair Symbol.epsilon Symbol.epsilon = 1 := by
  simp [ofPair, Symbol.isEpsilon]
  rfl

theorem of_arc_silent (target : StateId) (weight : Weight) :
    ofArc (Arc.silent target weight) = ofWeight weight := by
  rw [ofArc, Arc.silent, of_pair_epsilon, one_mul]

end Trace

namespace Transducer

inductive Run (t : Transducer) : StateId → List Arc → StateId → Prop
  | stay (state : StateId) : Run t state [] state
  | step {source : StateId} {arc : Arc} {path : List Arc} {target : StateId}
      (leaves : arc ∈ t.arcs source) (later : Run t arc.target path target) :
        Run t source (arc :: path) target

/-- The path leads from the start to a final state of that weight. -/
def Accepts (t : Transducer) (path : List Arc) (weight : Weight) : Prop :=
  ∃ last, t.Run 0 path last ∧ t.final? last = some weight

/-- What a path costs: the weights in their order, the final one last. -/
def cost (path : List Arc) (final : Weight) : Weight :=
  path.foldl (fun total arc => total + arc.weight) 0.0 + final

/-- The traces of the accepting runs, each with the final weight last. -/
def traces (t : Transducer) : Set Trace :=
  { trace | ∃ path weight, t.Accepts path weight ∧
    trace = Trace.ofPath path * Trace.ofWeight weight }

/-- A run to `target` with that trace exists, on which no arc enters a state
numbered below `bound`. -/
inductive Walk (t : Transducer) (bound : Nat) (target : StateId) : StateId → Trace → Prop
  | stay : Walk t bound target target 1
  | step {source : StateId} {arc : Arc} {trace : Trace} (leaves : arc ∈ t.arcs source)
      (above : bound ≤ arc.target) (later : Walk t bound target arc.target trace) :
      Walk t bound target source (Trace.ofArc arc * trace)

def between (t : Transducer) (bound : Nat) (source target : StateId) : Set Trace :=
  { trace | t.Walk bound target source trace }

namespace Run

variable {t : Transducer}

theorem append {source middle target : StateId} {front back : List Arc}
    (first : t.Run source front middle) (second : t.Run middle back target) :
    t.Run source (front ++ back) target := by
  induction first with
  | stay state => exact second
  | step leaves _ ih => exact .step leaves (ih second)

theorem walk {source target : StateId} {path : List Arc} (run : t.Run source path target) :
    t.Walk 0 target source (Trace.ofPath path) := by
  induction run with
  | stay state => exact .stay
  | step leaves _ ih =>
      rw [Trace.of_path_cons]
      exact .step leaves (Nat.zero_le _) ih

end Run

namespace Walk

variable {t : Transducer} {bound : Nat} {source target : StateId} {trace : Trace}

theorem run (walk : t.Walk bound target source trace) :
    ∃ path, t.Run source path target ∧ Trace.ofPath path = trace := by
  induction walk with
  | stay => exact ⟨[], .stay _, rfl⟩
  | @step source arc trace leaves above later ih =>
      obtain ⟨path, run, same⟩ := ih
      exact ⟨arc :: path, .step leaves run, by rw [Trace.of_path_cons, same]⟩

theorem trans {middle : StateId} {first second : Trace} (front : t.Walk bound middle source first)
    (back : t.Walk bound target middle second) : t.Walk bound target source (first * second) := by
  induction front with
  | stay => rwa [one_mul]
  | step leaves above _ ih =>
      rw [mul_assoc]
      exact .step leaves above ih

theorem single {arc : Arc} (leaves : arc ∈ t.arcs source) (above : bound ≤ arc.target) :
    t.Walk bound arc.target source (Trace.ofArc arc) := by
  have step := Walk.step leaves above (Walk.stay (t := t))
  rwa [mul_one] at step

theorem lower {smaller : Nat} (walk : t.Walk bound target source trace) (le : smaller ≤ bound) :
    t.Walk smaller target source trace := by
  induction walk with
  | stay => exact .stay
  | step leaves above _ ih => exact .step leaves (Nat.le_trans le above) ih

theorem transport {larger : Transducer}
    (kept : ∀ (state : StateId) (arc : Arc), arc ∈ t.arcs state → arc ∈ larger.arcs state)
    (walk : t.Walk bound target source trace) : larger.Walk bound target source trace := by
  induction walk with
  | stay => exact .stay
  | step leaves above _ ih => exact .step (kept _ _ leaves) above ih

theorem first_arc (walk : t.Walk bound target source trace) :
    (target = source ∧ trace = 1) ∨ ∃ arc ∈ t.arcs source, bound ≤ arc.target ∧
      ∃ later, t.Walk bound target arc.target later ∧ trace = Trace.ofArc arc * later := by
  cases walk with
  | stay => exact .inl ⟨rfl, rfl⟩
  | step leaves above later => exact .inr ⟨_, leaves, above, _, later, rfl⟩

end Walk

theorem mem_finals_iff (t : Transducer) (state : StateId) (weight : Weight) :
    (state, weight) ∈ t.finals ↔ t.final? state = some weight := by
  rw [finals, List.mem_filterMap, final_eq]
  constructor
  · rintro ⟨⟨found, number⟩, listed, same⟩
    rw [List.mem_zipIdx_iff_getElem?, Array.getElem?_toList] at listed
    obtain ⟨final, isFinal, paired⟩ := Option.map_eq_some_iff.mp same
    obtain ⟨rfl, rfl⟩ := Prod.mk.inj paired
    simp only at listed
    rw [listed]
    exact isFinal
  · intro isFinal
    cases found : t.states[state]? with
    | none => simp [found] at isFinal
    | some value =>
        rw [found] at isFinal
        refine ⟨(value, state), ?_, Option.map_eq_some_iff.mpr ⟨weight, isFinal, rfl⟩⟩
        rw [List.mem_zipIdx_iff_getElem?, Array.getElem?_toList]
        exact found

theorem mem_traces_iff (t : Transducer) (trace : Trace) :
    trace ∈ t.traces ↔ ∃ last weight front, t.final? last = some weight ∧ t.Walk 0 last 0 front ∧
      trace = front * Trace.ofWeight weight := by
  constructor
  · rintro ⟨path, weight, ⟨last, run, final⟩, same⟩
    exact ⟨last, weight, _, final, run.walk, same⟩
  · rintro ⟨last, weight, front, final, walk, same⟩
    obtain ⟨path, run, spelled⟩ := walk.run
    exact ⟨path, weight, ⟨last, run, final⟩, by rw [same, spelled]⟩

end Transducer

end MorphLex
