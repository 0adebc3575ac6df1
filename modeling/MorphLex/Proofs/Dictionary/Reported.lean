import MorphLex.Dictionary.Event

/-!
What a reporting computation comes to, whatever has been reported before. One that
yields a value has yielded one in each of its steps; a fold carries a property of
its state and of the rest of the list along.
-/

namespace MorphLex.Dictionary.Reported

variable {Value Other : Type}

/-- The computation ends in this value, and not in a fault. -/
def Yields (action : Reported Value) (value : Value) : Prop :=
  ∃ before after, action.run.run before = (.ok value, after)

theorem yields_of_outcome {action : Reported Value} {value : Value}
    (done : action.outcome.2 = .ok value) : action.Yields value :=
  ⟨#[], (action.run.run #[]).2, Prod.ext done rfl⟩

/-- A computation from the beginning that yields a value begins with one that does. -/
theorem exists_outcome_of_bind {action : Reported Value} {next : Value → Reported Other}
    {result : Other} (done : (action >>= next).outcome.2 = .ok result) :
    ∃ value, action.outcome.2 = .ok value ∧ (next value).Yields result := by
  have run : ((action >>= next).run.run #[]).1 = .ok result := done
  rw [ExceptT.run_bind, StateT.run_bind] at run
  rcases first : action.run.run #[] with ⟨fault | value, between⟩
  · rw [first] at run
    exact nomatch run
  · rw [first] at run
    exact ⟨value, congrArg Prod.fst first, between, _, Prod.ext run rfl⟩

theorem Yields.bind {action : Reported Value} {next : Value → Reported Other} {result : Other}
    (done : (action >>= next).Yields result) :
    ∃ value, action.Yields value ∧ (next value).Yields result := by
  obtain ⟨before, after, run⟩ := done
  rw [ExceptT.run_bind, StateT.run_bind] at run
  rcases first : action.run.run before with ⟨fault | value, between⟩
  · rw [first] at run
    exact nomatch congrArg Prod.fst run
  · rw [first] at run
    exact ⟨value, ⟨before, between, first⟩, between, after, run⟩

theorem Yields.pure {value result : Value} (done : Yields (pure value) result) :
    value = result := by
  obtain ⟨before, after, run⟩ := done
  exact Except.ok.inj (congrArg Prod.fst run)

theorem not_yields_throw {fault : Fault} {result : Value} : ¬Yields (throw fault) result := by
  rintro ⟨before, after, run⟩
  exact nomatch congrArg Prod.fst run

theorem Yields.past {fails : Bool} {fault : Fault} {next : Unit → Reported Value} {result : Value}
    (done : Yields (if fails = true then throw fault >>= next else next ()) result) :
    fails = false ∧ (next ()).Yields result := by
  cases fails with
  | false => exact ⟨rfl, done⟩
  | true =>
      obtain ⟨_, thrown, _⟩ := Yields.bind done
      exact absurd thrown not_yields_throw

theorem Yields.reported {event : Event} {next : Unit → Reported Value} {result : Value}
    (done : Yields (report event >>= next) result) : (next ()).Yields result := by
  obtain ⟨_, _, done⟩ := done.bind
  exact done

theorem Yields.after {worth : Bool} {event : Event} {next : Unit → Reported Value} {result : Value}
    (done : Yields (if worth = true then report event >>= next else next ()) result) :
    (next ()).Yields result := by
  cases worth with
  | false => exact done
  | true => exact Yields.reported done

theorem Yields.silently {outcome : Except Fault Value} {result : Value}
    (done : (silently outcome).Yields result) :
    outcome = .ok result := by
  obtain ⟨before, after, run⟩ := done
  exact congrArg Prod.fst run

/-- A fold that yields a value has taken a step for each item. -/
theorem Yields.fold_mem {step : Value → Other → Reported Value} {items : List Other}
    {start result : Value} (done : (items.foldlM step start).Yields result) :
    ∀ item ∈ items, ∃ before after, (step before item).Yields after := by
  induction items generalizing start with
  | nil => exact fun item member => absurd member List.not_mem_nil
  | cons item rest ih =>
      rw [List.foldlM_cons] at done
      obtain ⟨next, first, later⟩ := done.bind
      exact List.forall_mem_cons.mpr ⟨⟨start, next, first⟩, ih later⟩

/-- A fold that yields a value has kept what each of its steps keeps. -/
theorem Yields.fold {step : Value → Other → Reported Value} (kept : List Other → Value → Prop)
    (keeps : ∀ item rest before after, kept (item :: rest) before →
      (step before item).Yields after → kept rest after)
    {items : List Other} {start result : Value} (done : (items.foldlM step start).Yields result)
    (holds : kept items start) : kept [] result := by
  induction items generalizing start with
  | nil =>
      obtain rfl := Yields.pure done
      exact holds
  | cons item rest ih =>
      rw [List.foldlM_cons] at done
      obtain ⟨next, first, later⟩ := done.bind
      exact ih later (keeps item rest start next holds first)

section Comes

variable {View Seen : Type}

/-- Seen by the view, the computation comes to this, whatever has been reported before. -/
def Comes (action : Reported Value) (view : Value → View) (seen : Except Fault View) : Prop :=
  ∀ before, (action.run.run before).1.map view = seen

theorem Comes.outcome {action : Reported Value} {view : Value → View} {seen : Except Fault View}
    (comes : action.Comes view seen) : action.outcome.2.map view = seen :=
  comes #[]

theorem comes_pure (value : Value) (view : Value → View) :
    Comes (pure value) view (.ok (view value)) :=
  fun _ => rfl

theorem comes_throw (fault : Fault) (view : Value → View) :
    Comes (throw fault) view (.error fault) :=
  fun _ => rfl

theorem comes_silently {result : Except Fault Value} {view : Value → View}
    {seen : Except Fault View} (same : result.map view = seen) :
    Comes (silently result) view seen :=
  fun _ => same

theorem Comes.bind {action : Reported Value} {next : Value → Reported Other} {view : Value → View}
    {look : Other → Seen} {seen : Except Fault View} {after : View → Except Fault Seen}
    (first : action.Comes view seen)
    (later : ∀ value, (next value).Comes look (after (view value))) :
    (action >>= next).Comes look (seen >>= after) := by
  intro before
  have done := first before
  rw [ExceptT.run_bind, StateT.run_bind]
  rcases run : action.run.run before with ⟨fault | value, between⟩
  · rw [run] at done
    rw [← done]
    rfl
  · rw [run] at done
    rw [← done]
    exact later value between

theorem Comes.change {action : Reported Value} {change : Value → Other} {look : Other → Seen}
    {seen : Except Fault Seen} (comes : action.Comes (fun value => look (change value)) seen) :
    (action >>= fun value => pure (change value)).Comes look seen := by
  intro before
  have done := comes before
  rw [ExceptT.run_bind, StateT.run_bind]
  rcases run : action.run.run before with ⟨fault | value, between⟩
  · rw [run] at done
    exact done
  · rw [run] at done
    exact done

/-- A test that ends in its fault, or goes on. -/
theorem comes_past {fails : Bool} {fault : Fault} {next : Unit → Reported Value}
    {view : Value → View} {seen : Except Fault View} (ends : fails = true → seen = .error fault)
    (goes : fails = false → (next ()).Comes view seen) :
    Comes (if fails = true then throw fault >>= next else next ()) view seen := by
  cases fails with
  | false => exact goes rfl
  | true =>
      rw [ends rfl]
      exact fun _ => rfl

theorem Comes.reported {event : Event} {next : Unit → Reported Value} {view : Value → View}
    {seen : Except Fault View} (comes : (next ()).Comes view seen) :
    Comes (report event >>= next) view seen :=
  fun before => comes (before.push event)

theorem Comes.after {worth : Bool} {event : Event} {next : Unit → Reported Value}
    {view : Value → View} {seen : Except Fault View} (comes : (next ()).Comes view seen) :
    Comes (if worth = true then report event >>= next else next ()) view seen := by
  cases worth with
  | false => exact comes
  | true => exact comes.reported

/-- A fold is seen as the fold of what its steps are seen as. -/
theorem Comes.fold {step : Value → Other → Reported Value} {view : Value → View}
    {see : View → Other → Except Fault View}
    (each : ∀ value item, (step value item).Comes view (see (view value) item)) (items : List Other)
    (start : Value) : Comes (items.foldlM step start) view (items.foldlM see (view start)) := by
  induction items generalizing start with
  | nil => exact comes_pure start view
  | cons item rest ih =>
      rw [List.foldlM_cons, List.foldlM_cons]
      exact (each start item).bind ih

end Comes

section Reflects

variable {Image Shown : Type}

/-- The second computation comes to what the first one comes to, seen through the views of values
and of faults, whatever either of them has reported before. -/
def Reflects (first : Reported Value) (second : Reported Image) (view : Value → Image)
    (blur : Fault → Fault) : Prop :=
  ∀ before beside, (second.run.run beside).1 = ((first.run.run before).1.map view).mapError blur

theorem Reflects.outcome {first : Reported Value} {second : Reported Image} {view : Value → Image}
    {blur : Fault → Fault} (reflects : Reflects first second view blur) :
    second.outcome.2 = (first.outcome.2.map view).mapError blur :=
  reflects #[] #[]

variable {view : Value → Image} {look : Other → Shown} {blur : Fault → Fault}

theorem Reflects.yields {first : Reported Value} {second : Reported Image}
    (reflects : Reflects first second view blur) {value : Value} (done : first.Yields value) :
    second.Yields (view value) := by
  obtain ⟨before, after, run⟩ := done
  have shown := reflects before #[]
  rw [run] at shown
  exact ⟨#[], _, Prod.ext shown rfl⟩

/-- Views that agree on what the first computation yields show the same. -/
theorem Reflects.seen {first : Reported Value} {second : Reported Image} {other : Value → Image}
    (reflects : Reflects first second view blur)
    (same : ∀ value, first.Yields value → view value = other value) :
    Reflects first second other blur := by
  intro before beside
  rw [reflects before beside]
  rcases run : first.run.run before with ⟨fault | value, after⟩
  · rfl
  · exact congrArg (fun image => (Except.ok image).mapError blur) (same value ⟨before, after, run⟩)

theorem reflects_pure {value : Value} {image : Image} (same : image = view value) :
    Reflects (pure value) (pure image) view blur := by
  rw [same]
  exact fun _ _ => rfl

theorem reflects_throw {fault shown : Fault} (same : shown = blur fault) :
    Reflects (throw fault : Reported Value) (throw shown) view blur := by
  rw [same]
  exact fun _ _ => rfl

theorem reflects_silently (view : Value → Image) {result : Except Fault Value}
    {shown : Except Fault Image} (same : shown = (result.map view).mapError blur) :
    Reflects (silently result) (silently shown) view blur :=
  fun _ _ => same

theorem Reflects.bind {first : Reported Value} {second : Reported Image}
    {next : Value → Reported Other} {follow : Image → Reported Shown}
    (reflects : Reflects first second view blur)
    (later : ∀ value, first.Yields value → Reflects (next value) (follow (view value)) look blur) :
    Reflects (first >>= next) (second >>= follow) look blur := by
  intro before beside
  have done := reflects before beside
  rw [ExceptT.run_bind, StateT.run_bind, ExceptT.run_bind, StateT.run_bind]
  rcases run : first.run.run before with ⟨fault | value, between⟩
  · rcases runToo : second.run.run beside with ⟨other, betweenToo⟩
    rw [run, runToo] at done
    obtain rfl : other = .error (blur fault) := done
    rfl
  · rcases runToo : second.run.run beside with ⟨other, betweenToo⟩
    rw [run, runToo] at done
    obtain rfl : other = .ok (view value) := done
    exact later value ⟨before, between, run⟩ between betweenToo

theorem Reflects.reported {event shown : Event} {next : Unit → Reported Value}
    {follow : Unit → Reported Image} (reflects : Reflects (next ()) (follow ()) view blur) :
    Reflects (report event >>= next) (report shown >>= follow) view blur :=
  fun before beside => reflects (before.push event) (beside.push shown)

/-- The first computation reports something more. -/
theorem Reflects.reported_first {event : Event} {next : Unit → Reported Value}
    {second : Reported Image} (reflects : Reflects (next ()) second view blur) :
    Reflects (report event >>= next) second view blur :=
  fun before beside => reflects (before.push event) beside

/-- The first computation may report something more. -/
theorem Reflects.after_first {worth : Bool} {event : Event} {next : Unit → Reported Value}
    {second : Reported Image} (reflects : Reflects (next ()) second view blur) :
    Reflects (if worth = true then report event >>= next else next ()) second view blur := by
  cases worth with
  | false => exact reflects
  | true => exact reflects.reported_first

theorem Reflects.after {worth worthToo : Bool} {event shown : Event} {next : Unit → Reported Value}
    {follow : Unit → Reported Image} (reflects : Reflects (next ()) (follow ()) view blur) :
    Reflects (if worth = true then report event >>= next else next ())
      (if worthToo = true then report shown >>= follow else follow ()) view blur := by
  cases worth <;> cases worthToo
  · exact reflects
  · exact fun before beside => reflects before (beside.push shown)
  · exact fun before beside => reflects (before.push event) beside
  · exact reflects.reported

/-- A test that ends both in its fault, or lets both go on. -/
theorem Reflects.past {fails : Bool} {fault shown : Fault} {next : Unit → Reported Value}
    {follow : Unit → Reported Image} (same : shown = blur fault)
    (goes : fails = false → Reflects (next ()) (follow ()) view blur) :
    Reflects (if fails = true then throw fault >>= next else next ())
      (if fails = true then throw shown >>= follow else follow ()) view blur := by
  rw [same]
  cases fails with
  | false => exact goes rfl
  | true => exact fun _ _ => rfl

/-- Folds over items and over what becomes of them. An item of which nothing becomes must not
matter; what each step keeps may be counted on. -/
theorem Reflects.fold {Item Piece : Type} (view : Value → Image)
    {step : Value → Item → Reported Value}
    {stepToo : Image → Piece → Reported Image} (become : Item → Option Piece) (kept : Value → Prop)
    {items : List Item}
    (keeps : ∀ item value next, kept value → (step value item).Yields next → kept next)
    (each : ∀ item ∈ items, ∀ value, kept value → match become item with
      | some piece => Reflects (step value item) (stepToo (view value) piece) view blur
      | none => Reflects (step value item) (pure (view value)) view blur)
    {start : Value} (holds : kept start) :
    Reflects (items.foldlM step start) ((items.filterMap become).foldlM stepToo (view start))
      view blur := by
  induction items generalizing start with
  | nil => exact reflects_pure rfl
  | cons item rest ih =>
      obtain ⟨first, others⟩ := List.forall_mem_cons.mp each
      have here := first start holds
      have later (next : Value) (yields : (step start item).Yields next) :=
        ih others (keeps item start next holds yields)
      rw [List.foldlM_cons]
      cases became : become item with
      | some piece =>
          rw [became] at here
          rw [List.filterMap_cons_some became, List.foldlM_cons]
          exact here.bind later
      | none =>
          rw [became] at here
          rw [List.filterMap_cons_none became]
          have joined : Reflects (step start item >>= fun value => rest.foldlM step value)
              (pure (view start) >>= fun image => (rest.filterMap become).foldlM stepToo image)
                view blur :=
            here.bind later
          rwa [pure_bind] at joined

/-- Folds over the same items. -/
theorem Reflects.fold_same {Item : Type} (view : Value → Image)
    {step : Value → Item → Reported Value}
    {stepToo : Image → Item → Reported Image} {items : List Item}
    (each : ∀ item ∈ items, ∀ value,
      Reflects (step value item) (stepToo (view value) item) view blur) (start : Value) :
    Reflects (items.foldlM step start) (items.foldlM stepToo (view start)) view blur := by
  have folds : Reflects (items.foldlM step start)
    ((items.filterMap some).foldlM stepToo (view start)) view blur :=
    Reflects.fold view some (fun _ => True) (fun _ _ _ _ _ => trivial)
      (fun item member value _ => each item member value)
      trivial
  rwa [List.filterMap_some] at folds

end Reflects

end MorphLex.Dictionary.Reported
