import Mathlib.Data.List.Forall2

/-!
Results that may be faults. A computation that succeeds has succeeded in each of
its steps.
-/

namespace MorphLex.Result

variable {Fault Value Other : Type}

theorem bind_eq_ok_iff {action : Except Fault Value} {next : Value → Except Fault Other}
    {result : Other} :
    (action >>= next) = .ok result ↔ ∃ value, action = .ok value ∧ next value = .ok result := by
  cases action with
  | error fault => simp [bind, Except.bind]
  | ok value => simp [bind, Except.bind]

theorem pure_eq_ok_iff {value result : Value} :
    (pure value : Except Fault Value) = .ok result ↔ value = result := by
  simp [pure, Except.pure]

theorem throw_ne_ok {fault : Fault} {result : Value} :
    (throw fault : Except Fault Value) ≠ .ok result := by
  simp [throw, throwThe, MonadExceptOf.throw]

theorem to_option_eq_some_iff {outcome : Except Fault Value} {value : Value} :
    outcome.toOption = some value ↔ outcome = .ok value := by
  cases outcome with
  | error fault => simp [Except.toOption]
  | ok result => simp [Except.toOption]

theorem exists_ok_of_is_ok {outcome : Except Fault Value} (succeeds : outcome.isOk = true) :
    ∃ value, outcome = .ok value := by
  cases outcome with
  | error fault => exact nomatch succeeds
  | ok value => exact ⟨value, rfl⟩

theorem map_eq_error_iff {View : Type} (view : Value → View) {outcome : Except Fault Value}
    {fault : Fault} : outcome.map view = .error fault ↔ outcome = .error fault := by
  cases outcome <;> simp [Except.map]

theorem exists_map_eq_ok_iff {View : Type} (view : Value → View) {outcome : Except Fault Value} :
    (∃ seen, outcome.map view = .ok seen) ↔ ∃ value, outcome = .ok value := by
  cases outcome <;> simp [Except.map]

theorem exists_ok_of_map {outcome : Except Fault Value} {view : Value → Other} {seen : Other}
    (viewed : outcome.map view = .ok seen) : ∃ value, outcome = .ok value ∧ view value = seen := by
  cases outcome with
  | error fault => exact nomatch viewed
  | ok value => exact ⟨value, rfl, Except.ok.inj viewed⟩

theorem map_eq_ok_iff {action : Value → Except Fault Other} {values : List Value}
    {results : List Other} :
    values.mapM action = .ok results ↔
      List.Forall₂ (fun value result => action value = .ok result) values results := by
  induction values generalizing results with
  | nil =>
      rw [List.mapM_nil, pure_eq_ok_iff, List.forall₂_nil_left_iff]
      exact eq_comm
  | cons value values ih =>
      rw [List.mapM_cons, bind_eq_ok_iff, List.forall₂_cons_left_iff]
      constructor
      · rintro ⟨first, done, remaining⟩
        obtain ⟨rest, later, remaining⟩ := bind_eq_ok_iff.mp remaining
        exact ⟨first, rest, done, ih.mp later, (pure_eq_ok_iff.mp remaining).symm⟩
      · rintro ⟨first, rest, done, later, rfl⟩
        exact ⟨first, done, bind_eq_ok_iff.mpr ⟨rest, ih.mpr later, rfl⟩⟩

theorem ok_bind (value : Value) (next : Value → Except Fault Other) :
    (.ok value >>= next) = next value := rfl

theorem map_congr {action other : Value → Except Fault Other} {values : List Value}
    (each : ∀ value ∈ values, action value = other value) :
    values.mapM action = values.mapM other := by
  induction values with
  | nil => rfl
  | cons value values ih =>
      rw [List.forall_mem_cons] at each
      rw [List.mapM_cons, List.mapM_cons, each.1, ih each.2]

/-- An item of a list has its counterpart in a list that is related to it item by item. -/
theorem exists_paired {Relates : Value → Other → Prop} {values : List Value} {others : List Other}
    (each : List.Forall₂ Relates values others) {value : Value} (listed : value ∈ values) :
    ∃ other ∈ others, Relates value other := by
  induction each with
  | nil => simp at listed
  | @cons first other _ _ here _ ih =>
      rcases List.mem_cons.mp listed with rfl | later
      · exact ⟨other, List.mem_cons_self, here⟩
      · obtain ⟨other, present, there⟩ := ih later
        exact ⟨other, List.mem_cons_of_mem _ present, there⟩

theorem each_of_map_ok {action : Value → Except Fault Other} {values : List Value}
    {results : List Other} (done : values.mapM action = .ok results) :
    ∀ value ∈ values, ∃ result, action value = .ok result := by
  intro value listed
  obtain ⟨result, -, found⟩ := exists_paired (map_eq_ok_iff.mp done) listed
  exact ⟨result, found⟩

theorem map_return {Seen : Type} (action : Except Fault Value) (change : Value → Other)
    (look : Other → Seen) :
    (action >>= fun value => pure (change value)).map look = action.map fun value =>
      look (change value) := by
  cases action <;> rfl

/-- Computations that are looked at step by step are looked at as a whole. -/
theorem map_bind {View Seen : Type} {action : Except Fault Value}
    {next : Value → Except Fault Other} {view : Value → View} {look : Other → Seen}
    {seen : Except Fault View} {after : View → Except Fault Seen} (first : action.map view = seen)
    (later : ∀ value, (next value).map look = after (view value)) :
    (action >>= next).map look = seen >>= after := by
  subst first
  cases action with
  | error fault => rfl
  | ok value => exact later value

section MapError

variable {Blurred : Type} (blur : Fault → Blurred)

theorem map_error_bind (action : Except Fault Value) (next : Value → Except Fault Other) :
    (action >>= next).mapError blur = action.mapError blur >>= fun value =>
      (next value).mapError blur := by
  cases action <;> rfl

theorem map_error_map_list (action : Value → Except Fault Other) (values : List Value) :
    (values.mapM action).mapError blur = values.mapM fun value => (action value).mapError blur := by
  induction values with
  | nil => rfl
  | cons value rest ih =>
      simp only [List.mapM_cons, map_error_bind, ← ih]
      rfl

theorem map_error_eq_ok_iff {outcome : Except Fault Value} {value : Value} :
    outcome.mapError blur = .ok value ↔ outcome = .ok value := by
  cases outcome <;> simp [Except.mapError]

theorem map_error_id (outcome : Except Fault Value) : outcome.mapError id = outcome := by
  cases outcome <;> rfl

theorem map_error_fold {State : Type} (action : State → Value → Except Fault State)
    (values : List Value) (state : State) :
    (values.foldlM action state).mapError blur =
      values.foldlM (fun state value => (action state value).mapError blur) state := by
  induction values generalizing state with
  | nil => rfl
  | cons value rest ih => simp only [List.foldlM_cons, map_error_bind, ih]

end MapError

section Faults

/-- The fault of a computation that does not succeed. -/
def fault? : Except Fault Value → Option Fault
  | .error fault => some fault
  | .ok _ => none

theorem fault_eq_some_iff {outcome : Except Fault Value} {fault : Fault} :
    fault? outcome = some fault ↔ outcome = .error fault := by
  cases outcome with
  | error found => simp [fault?]
  | ok value => simp [fault?]

theorem fault_eq_none_iff {outcome : Except Fault Value} :
    fault? outcome = none ↔ ∃ value, outcome = .ok value := by
  cases outcome with
  | error fault => simp [fault?]
  | ok value => simp [fault?]

/-- Where the second fault does not depend on the first step, the first fault of the two counts. -/
theorem fault_bind {action : Except Fault Value} {next : Value → Except Fault Other}
    {later : Option Fault} (constant : ∀ value, fault? (next value) = later) :
    fault? (action >>= next) = (fault? action).or later := by
  cases action with
  | error fault => rfl
  | ok value => exact constant value

theorem fault_bind_pure (action : Except Fault Value) (change : Value → Other) :
    fault? (action >>= fun value => pure (change value)) = fault? action := by
  cases action <;> rfl

theorem fault_map_list (action : Value → Except Fault Other) (values : List Value) :
    fault? (values.mapM action) = values.findSome? fun value => fault? (action value) := by
  induction values with
  | nil => rfl
  | cons value rest ih =>
      rw [List.mapM_cons, fault_bind fun _ => fault_bind_pure _ _, ih, List.findSome?_cons]
      cases fault? (action value) <;> rfl

end Faults

end MorphLex.Result
