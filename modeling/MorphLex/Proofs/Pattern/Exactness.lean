import MorphLex.Proofs.Pattern.Construction
import MorphLex.Proofs.Pattern.Reading
import MorphLex.Proofs.Weight.Zero

/-!
The transducer of a pattern copies exactly the words of the pattern that its text
spells, and no path of it has a cost.
-/

namespace MorphLex

namespace Trace

theorem weights_of_arc (arc : Arc) :
    (ofArc arc).weights = if arc.weight == 0.0 then [] else [arc.weight] := by
  simp [ofArc, ofPair, ofWeight]

theorem weights_of_path_eq_nil_iff (path : List Arc) :
    (ofPath path).weights = [] ↔ ∀ arc ∈ path, (arc.weight == 0.0) = true := by
  induction path with
  | nil => simp
  | cons arc path ih =>
      rw [of_path_cons, weights_mul, List.append_eq_nil_iff, ih, List.forall_mem_cons,
        weights_of_arc]
      by_cases zero : (arc.weight == 0.0) = true <;> simp [zero]

theorem weights_of_weight_eq_nil_iff (weight : Weight) :
    (ofWeight weight).weights = [] ↔ (weight == 0.0) = true := by
  rw [ofWeight]
  by_cases zero : (weight == 0.0) = true <;> simp [zero]

end Trace

theorem Weight.zero_add_of_zero {weight : Weight} (zero : (weight == 0.0) = true) :
    0.0 + weight = 0.0 := by
  rcases (Weight.beq_zero_iff weight).mp zero with rfl | rfl <;> decide

theorem Transducer.cost_eq_zero {path : List Arc} {final : Weight}
    (free : (Trace.ofPath path * Trace.ofWeight final).weights = []) : cost path final = 0.0 := by
  rw [Trace.weights_mul, List.append_eq_nil_iff, Trace.weights_of_path_eq_nil_iff,
    Trace.weights_of_weight_eq_nil_iff] at free
  obtain ⟨along, last⟩ := free
  have total : path.foldl (fun total arc => total + arc.weight) 0.0 = 0.0 := by
    induction path with
    | nil => rfl
    | cons arc path ih =>
        rw [List.forall_mem_cons] at along
        rw [List.foldl_cons, Weight.zero_add_of_zero along.1]
        exact ih along.2
  rw [cost, total, Weight.zero_add_of_zero last]

namespace Pattern

/-- The paths of the transducer of a pattern read and write the same word of the
pattern, for every word of it there is one, and none has a cost. -/
theorem Group.accepts_transducer (alphabet : CharSet) (group : Group) :
    (∀ input output, (∃ path final, (group.transducer alphabet).Accepts path final ∧
        (Trace.ofPath path).input = input ∧ (Trace.ofPath path).output = output) ↔
      input = output ∧ ∃ word ∈ group.language alphabet, input = word.map Symbol.ofChar) ∧
    ∀ path final, (group.transducer alphabet).Accepts path final →
      Transducer.cost path final = 0.0 := by
  have observed (path : List Arc) (final : Weight)
    (accepted : (group.transducer alphabet).Accepts path final) :
      ∃ word ∈ group.language alphabet,
        Trace.ofPath path * Trace.ofWeight final = Trace.copy word := by
    have member : Trace.ofPath path * Trace.ofWeight final ∈ (group.transducer alphabet).traces :=
      ⟨path, final, accepted, rfl⟩
    rwa [group.traces_transducer alphabet] at member
  have inputs (path : List Arc) (final : Weight) :
      (Trace.ofPath path * Trace.ofWeight final).input = (Trace.ofPath path).input :=
        List.append_nil _
  have outputs (path : List Arc) (final : Weight) :
      (Trace.ofPath path * Trace.ofWeight final).output = (Trace.ofPath path).output :=
        List.append_nil _
  constructor
  · intro input output
    constructor
    · rintro ⟨path, final, accepted, rfl, rfl⟩
      obtain ⟨word, member, same⟩ := observed path final accepted
      rw [← inputs path final, ← outputs path final, same]
      exact ⟨rfl, word, member, rfl⟩
    · rintro ⟨rfl, word, member, rfl⟩
      have copied : Trace.copy word ∈ (group.transducer alphabet).traces := by
        rw [group.traces_transducer alphabet]
        exact ⟨word, member, rfl⟩
      obtain ⟨path, final, accepted, same⟩ := copied
      refine ⟨path, final, accepted, ?_, ?_⟩
      · rw [← inputs path final, ← same, Trace.copy]
      · rw [← outputs path final, ← same, Trace.copy]
  · intro path final accepted
    obtain ⟨word, member, same⟩ := observed path final accepted
    apply Transducer.cost_eq_zero
    rw [same, Trace.copy]

/-- A text that compiles spells a pattern; its transducer copies exactly the words
of that pattern, and without cost. -/
theorem compile_exact {alphabet : CharSet} {text : String} {t : Transducer}
    (compiled : compile alphabet text = .ok t) :
    ∃ pattern, parse alphabet text = .ok pattern ∧ pattern.SpelledBy alphabet text.toList ∧
      (∀ input output, (∃ path final, t.Accepts path final ∧
          (Trace.ofPath path).input = input ∧ (Trace.ofPath path).output = output) ↔
        input = output ∧ ∃ word ∈ pattern.language alphabet, input = word.map Symbol.ofChar) ∧
      ∀ path final, t.Accepts path final → Transducer.cost path final = 0.0 := by
  obtain ⟨pattern, read, built⟩ := Result.bind_eq_ok_iff.mp compiled
  obtain rfl := Result.pure_eq_ok_iff.mp built
  exact ⟨pattern, read, parse_spelled read, pattern.accepts_transducer alphabet⟩

/-- An optional group of a repetition, an empty alternative and a class. -/
theorem compile_exact_nested_group :
    ∃ t, compile CharSet.empty "(a+||[x-z])?b" = .ok t ∧
      ∃ pattern, parse CharSet.empty "(a+||[x-z])?b" = .ok pattern ∧
        pattern.SpelledBy CharSet.empty "(a+||[x-z])?b".toList ∧
        (∀ input output, (∃ path final, t.Accepts path final ∧
            (Trace.ofPath path).input = input ∧ (Trace.ofPath path).output = output) ↔
          input = output ∧ ∃ word ∈ pattern.language CharSet.empty,
            input = word.map Symbol.ofChar) ∧
        ∀ path final, t.Accepts path final → Transducer.cost path final = 0.0 := by
  let cls : CharClass := ⟨false, [.single 'x', ⟨'x', 'z'⟩]⟩
  have inhabited : (cls.members CharSet.empty).isEmpty = false := by
    have member : 'x' ∈ cls.members CharSet.empty :=
      (CharClass.mem_members_iff _ _ _).mpr ⟨.single 'x', by simp [cls], by decide, by decide⟩
    rw [CharSet.isEmpty, Bool.eq_false_iff, Ne, List.isEmpty_iff]
    exact List.ne_nil_of_mem member
  have read : parse CharSet.empty "(a+||[x-z])?b" = .ok (.only
      (.cons
        (.nested (.either (.cons (.literal 'a') .oneOrMore .empty)
          (.either .empty (.only (.cons (.oneOf cls) .once .empty)))))
        .atMostOnce (.cons (.literal 'b') .once .empty))) := by
    simp [parse, group, sequence, atom, quantifier, charClass, classMembers, rangeEnd,
      Taken.map, bind, Except.bind, pure, Except.pure, inhabited, cls]
  have compiled : compile CharSet.empty "(a+||[x-z])?b" = .ok (Group.transducer CharSet.empty _) :=
    Result.bind_eq_ok_iff.mpr ⟨_, read, rfl⟩
  exact ⟨_, compiled, compile_exact compiled⟩

end Pattern

end MorphLex
