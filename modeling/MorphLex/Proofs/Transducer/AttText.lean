import MorphLex.Proofs.Dictionary.Regular
import MorphLex.Proofs.Transducer.Finite
import MorphLex.Proofs.Weight.Text
import MorphLex.Transducer.AttText

/-!
Reading the AT&T text. A line is told from what follows it by its columns, and an arc from
a final state by what ends the second column, as long as no symbol has a tab between its
angle brackets: only a symbol that is a tab is written by name.
-/

namespace MorphLex

namespace Symbol

/-- A label that keeps to its column: no tab stands between angle brackets. -/
structure FillsColumn (symbol : Symbol) : Prop where
  label : symbol.IsLabel
  tab : '\t' ∈ symbol.toList → symbol = "\t"

/-- The symbol that a column stands for. -/
def ofColumn (text : String) : Symbol :=
  if text = "@0@" then epsilon
  else if text = "@_SPACE_@" then " "
  else if text = "@_TAB_@" then "\t"
  else text

variable {symbol other : Symbol}

/-- The names of epsilon, space and tab are no labels. -/
theorem IsLabel.ne_name (label : symbol.IsLabel) :
    symbol ≠ "@0@" ∧ symbol ≠ "@_SPACE_@" ∧ symbol ≠ "@_TAB_@" := by
  rcases label with rfl | written
  · decide
  · have shape : symbol.toList.length = 1 ∨ symbol.toList.head? = some '<' := by
      cases written with
      | character character => exact .inl (by simp)
      | bracketed name => exact .inr (by simp)
    refine ⟨?_, ?_, ?_⟩ <;>
    · rintro rfl
      revert shape
      decide

theorem IsLabel.of_column_column (label : symbol.IsLabel) : ofColumn symbol.column = symbol := by
  obtain ⟨epsilon, space, tab⟩ := label.ne_name
  rw [column]
  split
  · next silent => exact (beq_iff_eq.mp silent).symm
  · split
    · next blank => exact (beq_iff_eq.mp blank).symm
    · split
      · next named => exact (beq_iff_eq.mp named).symm
      · rw [ofColumn, if_neg epsilon, if_neg space, if_neg tab]

theorem IsLabel.column_injective (label : symbol.IsLabel) (also : other.IsLabel)
    (same : symbol.column = other.column) : symbol = other := by
  rw [← label.of_column_column, same, also.of_column_column]

theorem FillsColumn.no_tab (fills : symbol.FillsColumn) : '\t' ∉ symbol.column.toList := by
  rw [column]
  split
  · decide
  · split
    · decide
    · split
      · decide
      · next other => exact fun member => other (beq_iff_eq.mpr (fills.tab member))

end Symbol

/-- Texts without a mark before the first mark of each are told apart by that mark. -/
theorem split_at_mark {isMark : Char → Bool} {before other rest more : List Char} {mark stop : Char}
    (clear : ∀ character ∈ before, isMark character = false)
    (free : ∀ character ∈ other, isMark character = false) (marks : isMark mark = true)
    (stops : isMark stop = true) (same : before ++ mark :: rest = other ++ stop :: more) :
    before = other ∧ mark = stop ∧ rest = more := by
  induction before generalizing other with
  | nil =>
      cases other with
      | nil => exact ⟨rfl, List.cons.inj same⟩
      | cons first others =>
          obtain ⟨rfl, _⟩ := List.cons.inj same
          exact absurd marks (by simp [free mark])
  | cons first others hypothesis =>
      cases other with
      | nil =>
          obtain ⟨rfl, _⟩ := List.cons.inj same
          exact absurd stops (by simp [clear first])
      | cons second further =>
          obtain ⟨rfl, tails⟩ := List.cons.inj same
          obtain ⟨rfl, ends⟩ :=
            hypothesis (fun character member => clear character (List.mem_cons_of_mem _ member))
            (fun character member => free character (List.mem_cons_of_mem _ member)) tails
          exact ⟨rfl, ends⟩

section Columns

variable {rest more : List Char}

/-- What ends a column. -/
def separates (character : Char) : Bool := character == '\t' || character == '\n'

/-- The characters of numbers and of finite weights end no column. -/
theorem not_separates {text : List Char}
    (numeric : ∀ character ∈ text, character.isDigit = true ∨ character = '.' ∨ character = '-') :
    ∀ character ∈ text, separates character = false := by
  intro character member
  have shape := numeric character member
  rw [separates, Bool.or_eq_false_iff, beq_eq_false_iff_ne, beq_eq_false_iff_ne]
  constructor <;>
  · rintro rfl
    exact absurd shape (by decide)

theorem separates_number (number : Nat) :
    ∀ character ∈ (toString number).toList, separates character = false :=
  not_separates fun character member => .inl (Decimal.digits_plain number character member)

theorem separates_weight {weight : Weight} (finite : weight.isFinite = true) :
    ∀ character ∈ weight.text.toList, separates character = false :=
  not_separates (Weight.text_characters finite)

theorem split_number {number other : Nat}
    (same : (toString number).toList ++ '\t' :: rest = (toString other).toList ++ '\t' :: more) :
    number = other ∧ rest = more := by
  obtain ⟨texts, _, rests⟩ :=
    split_at_mark (separates_number number) (separates_number other) rfl rfl same
  exact ⟨Nat.repr_inj.mp (String.toList_inj.mp texts), rests⟩

theorem split_weight {weight other : Weight} (finite : weight.isFinite = true)
    (also : other.isFinite = true)
    (same : weight.text.toList ++ '\n' :: rest = other.text.toList ++ '\n' :: more) :
    weight = other ∧ rest = more := by
  obtain ⟨texts, _, rests⟩ :=
    split_at_mark (separates_weight finite) (separates_weight also) rfl rfl same
  exact ⟨Weight.text_injective finite also (String.toList_inj.mp texts), rests⟩

/-- The second column of an arc ends in a tab, that of a final state in a new line. -/
theorem number_ne_weight (number : Nat) {weight : Weight} (finite : weight.isFinite = true) :
    (toString number).toList ++ '\t' :: rest ≠ weight.text.toList ++ '\n' :: more := by
  intro same
  obtain ⟨_, marks, _⟩ :=
    split_at_mark (separates_number number) (separates_weight finite) rfl rfl same
  exact absurd marks (by decide)

/-- The columns of symbols may have a new line in them, but no tab. -/
theorem split_symbol {symbol other : Symbol} (fills : symbol.FillsColumn) (also : other.FillsColumn)
    (same : symbol.column.toList ++ '\t' :: rest = other.column.toList ++ '\t' :: more) :
    symbol = other ∧ rest = more := by
  have clear {symbol : Symbol} (fills : symbol.FillsColumn) :
      ∀ character ∈ symbol.column.toList, (character == '\t') = false := by
    intro character member
    rw [beq_eq_false_iff_ne]
    rintro rfl
    exact fills.no_tab member
  obtain ⟨texts, _, rests⟩ := split_at_mark (clear fills) (clear also) rfl rfl same
  exact ⟨fills.label.column_injective also.label (String.toList_inj.mp texts), rests⟩

end Columns

namespace Transducer

/-- What a line tells. -/
inductive Line where
  | move (source : StateId) (arc : Arc)
  | final (state : StateId) (weight : Weight)

namespace Line

def text : Line → String
  | .move source arc => arcLine source arc
  | .final state weight => finalLine state weight

/-- The columns of the line can be read: its symbols keep to them, and the weight is finite. -/
def Readable : Line → Prop
  | .move _ arc => arc.input.FillsColumn ∧ arc.output.FillsColumn ∧ arc.weight.isFinite = true
  | .final _ weight => weight.isFinite = true

def leaving (state : StateId) : Line → Option Arc
  | .move source arc => if source = state then some arc else none
  | .final _ _ => none

def ending : Line → Option (StateId × Weight)
  | .move _ _ => none
  | .final state weight => some (state, weight)

theorem to_list_move (source : StateId) (arc : Arc) : (text (.move source arc)).toList =
    (toString source).toList ++ '\t' ::
      ((toString arc.target).toList ++ '\t' :: (arc.input.column.toList ++ '\t' ::
      (arc.output.column.toList ++ '\t' :: (arc.weight.text.toList ++ ['\n'])))) := by
  rw [text, arcLine, String.toList_append, String.toList_intercalate]
  simp

theorem to_list_final (state : StateId) (weight : Weight) : (text (.final state weight)).toList =
    (toString state).toList ++ '\t' :: (weight.text.toList ++ ['\n']) := by
  rw [text, finalLine, String.toList_append, String.toList_intercalate]
  simp

variable {first second : Line} {rest more : List Char}

/-- A readable line is told from what follows it. -/
theorem split (readable : first.Readable) (also : second.Readable)
    (same : first.text.toList ++ rest = second.text.toList ++ more) :
    first = second ∧ rest = more := by
  cases first with
  | move source arc =>
      obtain ⟨input, output, finite⟩ := readable
      cases second with
      | move other step =>
          obtain ⟨reads, writes, bounded⟩ := also
          simp only [to_list_move, List.append_assoc, List.cons_append, List.nil_append] at same
          obtain ⟨sources, behindSource⟩ := split_number same
          obtain ⟨targets, behindTarget⟩ := split_number behindSource
          obtain ⟨inputs, behindInput⟩ := split_symbol input reads behindTarget
          obtain ⟨outputs, behindOutput⟩ := split_symbol output writes behindInput
          obtain ⟨weights, ends⟩ := split_weight finite bounded behindOutput
          refine ⟨?_, ends⟩
          cases arc
          cases step
          simp_all only
      | final state weight =>
          simp only [to_list_move, to_list_final, List.append_assoc, List.cons_append,
            List.nil_append] at same
          exact absurd (split_number same).2 (number_ne_weight arc.target also)
  | final state weight =>
      cases second with
      | move source arc =>
          simp only [to_list_move, to_list_final, List.append_assoc, List.cons_append,
            List.nil_append] at same
          exact absurd (split_number same).2.symm (number_ne_weight arc.target readable)
      | final other cost =>
          simp only [to_list_final, List.append_assoc, List.cons_append, List.nil_append] at same
          obtain ⟨states, behindState⟩ := split_number same
          obtain ⟨weights, ends⟩ := split_weight readable also behindState
          exact ⟨by rw [states, weights], ends⟩

theorem text_ne_nil (line : Line) : line.text.toList ≠ [] := by
  cases line <;> simp [to_list_move, to_list_final]

/-- Readable lines behind one another are told apart. -/
theorem flat_map_injective {lines others : List Line} (readable : ∀ line ∈ lines, line.Readable)
    (also : ∀ line ∈ others, line.Readable)
    (same : lines.flatMap (·.text.toList) = others.flatMap (·.text.toList)) : lines = others := by
  induction lines generalizing others with
  | nil =>
      cases others with
      | nil => rfl
      | cons second further =>
          rw [List.flatMap_cons] at same
          exact absurd (List.append_eq_nil_iff.mp same.symm).1 (text_ne_nil second)
  | cons first behind hypothesis =>
      cases others with
      | nil =>
          rw [List.flatMap_cons] at same
          exact absurd (List.append_eq_nil_iff.mp same).1 (text_ne_nil first)
      | cons second further =>
          rw [List.flatMap_cons, List.flatMap_cons] at same
          obtain ⟨rfl, tails⟩ :=
            split (readable first List.mem_cons_self) (also second List.mem_cons_self) same
          rw [hypothesis (fun line member => readable line (List.mem_cons_of_mem _ member))
            (fun line member => also line (List.mem_cons_of_mem _ member)) tails]

end Line

/-- The lines of the text: the arcs state by state, then the final states. -/
def lines (t : Transducer) : List Line :=
  (t.states.toList.zipIdx.flatMap fun (state, source) => state.arcs.toList.map (.move source)) ++
    t.finals.map fun (state, weight) => .final state weight

theorem to_list_att_text (t : Transducer) : t.attText.toList = t.lines.flatMap (·.text.toList) := by
  have texts : t.attText = String.join (t.lines.map Line.text) := by
    simp only [attText, lines, List.map_append, List.map_flatMap, List.map_map]
    rfl
  rw [texts, String.toList_join, List.flatMap_map]

/-- Of all numbered items, those under one number. -/
theorem flat_map_zip_idx {Item Value : Type} (items : List Item) (values : Item → List Value)
    (number start : Nat) :
    ((items.zipIdx start).flatMap fun item =>
      if item.2 = start + number then values item.1 else []) =
      (items[number]?.map values).getD [] := by
  induction items generalizing number start with
  | nil => rfl
  | cons item items hypothesis =>
      rw [List.zipIdx_cons, List.flatMap_cons]
      cases number with
      | zero =>
          have later : (items.zipIdx (start + 1)).flatMap
              (fun item => if item.2 = start + 0 then values item.1 else []) = [] := by
            rw [List.flatMap_eq_nil_iff]
            rintro ⟨other, place⟩ member
            have behind := List.le_snd_of_mem_zipIdx member
            exact if_neg (by simp only at behind; omega)
          rw [later]
          simp
      | succ number =>
          have later := hypothesis number (start + 1)
          rw [Nat.add_right_comm, Nat.add_assoc] at later
          rw [later, if_neg (by omega), List.nil_append, List.getElem?_cons_succ]

theorem leaving_lines (t : Transducer) (state : StateId) :
    t.lines.filterMap (Line.leaving state) = (t.arcs state).toList := by
  have own (source : StateId) (arcs : List Arc) :
      (arcs.map (Line.move source)).filterMap (Line.leaving state) =
      if source = 0 + state then arcs else [] := by
    rw [List.filterMap_map, Nat.zero_add]
    split
    · next same => simp [Line.leaving, same]
    · next apart => simp [Function.comp_def, Line.leaving, apart]
  have none (finals : List (StateId × Weight)) :
      (finals.map fun (state, weight) => Line.final state weight).filterMap (Line.leaving state) =
        [] := by
    simp [Line.leaving]
  rw [lines, List.filterMap_append, none, List.append_nil, List.filterMap_flatMap]
  simp only [own]
  rw [flat_map_zip_idx t.states.toList (fun state => state.arcs.toList), arcs_eq,
    Array.getElem?_toList]
  cases t.states[state]? <;> rfl

theorem ending_lines (t : Transducer) : t.lines.filterMap Line.ending = t.finals := by
  rw [lines, List.filterMap_append, List.filterMap_flatMap]
  simp [Line.ending, Function.comp_def]

theorem readable_lines {t : Transducer} (finite : t.FiniteWeights)
    (fills : t.EachArc fun _ arc => arc.input.FillsColumn ∧ arc.output.FillsColumn) :
    ∀ line ∈ t.lines, line.Readable := by
  intro line member
  rcases List.mem_append.mp member with moves | ends
  · obtain ⟨⟨state, source⟩, listed, among⟩ := List.mem_flatMap.mp moves
    obtain ⟨arc, belongs, rfl⟩ := List.mem_map.mp among
    rw [List.mem_zipIdx_iff_getElem?, Array.getElem?_toList] at listed
    have leaves : arc ∈ t.arcs source := by
      rw [arcs_eq, listed]
      exact Array.mem_toList_iff.mp belongs
    exact ⟨(fills source arc leaves).1, (fills source arc leaves).2, finite.arcs source arc leaves⟩
  · obtain ⟨⟨state, weight⟩, final, rfl⟩ := List.mem_map.mp ends
    exact finite.final state weight ((mem_finals_iff t state weight).mp final)

section Single

/-- An arc from the start to a final state, without weights. -/
def single (input output : Symbol) : Transducer :=
  (initial.addState.setFinal 1 0.0).addArc 0 ⟨input, output, 1, 0.0⟩

variable (input output : Symbol)

theorem mem_arcs_single (state : StateId) (arc : Arc) :
    arc ∈ (single input output).arcs state ↔ state = 0 ∧ arc = ⟨input, output, 1, 0.0⟩ := by
  rw [single, mem_arcs_add_arc _ _ _ (by simp)]
  simp

theorem finite_single : (single input output).FiniteWeights where
  arcs state arc leaves := by
    obtain ⟨_, rfl⟩ := (mem_arcs_single input output state arc).mp leaves
    exact Weight.finite_zero
  final state weight ends := by
    rw [single, final_add_arc, final_set_final _ _ _ (by simp)] at ends
    split at ends
    · exact Option.some_inj.mp ends ▸ Weight.finite_zero
    · simp at ends

theorem each_arc_single {property : StateId → Arc → Prop}
    (holds : property 0 ⟨input, output, 1, 0.0⟩) : (single input output).EachArc property := by
  intro state arc leaves
  obtain ⟨rfl, rfl⟩ := (mem_arcs_single input output state arc).mp leaves
  exact holds

end Single

/-- The text tells the arcs and the final states, for finite weights and symbols that keep
to their columns. -/
theorem att_text_injective {t u : Transducer} (finite : t.FiniteWeights) (also : u.FiniteWeights)
    (fills : t.EachArc fun _ arc => arc.input.FillsColumn ∧ arc.output.FillsColumn)
    (keeps : u.EachArc fun _ arc => arc.input.FillsColumn ∧ arc.output.FillsColumn)
    (same : t.attText = u.attText) :
    (∀ state, t.arcs state = u.arcs state) ∧ ∀ state, t.final? state = u.final? state := by
  have characters := congrArg String.toList same
  rw [to_list_att_text, to_list_att_text] at characters
  have lines :=
    Line.flat_map_injective (readable_lines finite fills) (readable_lines also keeps) characters
  constructor
  · intro state
    rw [← Array.toList_inj, ← leaving_lines, lines, leaving_lines]
  · intro state
    have finals : t.finals = u.finals := by rw [← ending_lines, lines, ending_lines]
    ext weight
    rw [← mem_finals_iff, finals, mem_finals_iff]

/-- States without arcs that are not final leave no trace in the text, and a symbol that is
a tab keeps to its column. -/
theorem att_text_injective_of_tab :
    (single "\t" "<a b>").addState.attText = (single "\t" "<a b>").attText ∧
    (∀ state, (single "\t" "<a b>").addState.arcs state = (single "\t" "<a b>").arcs state) ∧
    ∀ state, (single "\t" "<a b>").addState.final? state = (single "\t" "<a b>").final? state := by
  have tab : Symbol.FillsColumn "\t" := ⟨.inr (.character '\t'), fun _ => rfl⟩
  have tag : Symbol.FillsColumn "<a b>" := ⟨.inr (.bracketed "a b"), by decide⟩
  have finite := finite_single "\t" "<a b>"
  have fills :
      (single "\t" "<a b>").EachArc fun _ arc => arc.input.FillsColumn ∧ arc.output.FillsColumn :=
    each_arc_single _ _ ⟨tab, tag⟩
  have text : (single "\t" "<a b>").addState.attText = (single "\t" "<a b>").attText := by decide
  refine ⟨text, att_text_injective ⟨?_, ?_⟩ finite fills.add_state fills text⟩
  · intro state arc leaves
    rw [arcs_add_state] at leaves
    exact finite.arcs state arc leaves
  · intro state weight ends
    rw [final_add_state] at ends
    exact finite.final state weight ends

/-- A tab between angle brackets is written as it is, and ends a column too early: the two
transducers have labels for symbols and finite weights. -/
theorem att_text_ambiguous :
    (single "<a>\t<b>" "<c>").FiniteWeights ∧ (single "<a>" "<b>\t<c>").FiniteWeights ∧
    ((single "<a>\t<b>" "<c>").EachArc fun _ arc => arc.input.IsLabel ∧ arc.output.IsLabel) ∧
    ((single "<a>" "<b>\t<c>").EachArc fun _ arc => arc.input.IsLabel ∧ arc.output.IsLabel) ∧
    (single "<a>\t<b>" "<c>").attText = "0\t1\t<a>\t<b>\t<c>\t0\n1\t0\n" ∧
    (single "<a>" "<b>\t<c>").attText = "0\t1\t<a>\t<b>\t<c>\t0\n1\t0\n" ∧
    (single "<a>\t<b>" "<c>").arcs 0 ≠ (single "<a>" "<b>\t<c>").arcs 0 := by
  refine ⟨finite_single _ _, finite_single _ _, each_arc_single _ _ ⟨?_, ?_⟩,
    each_arc_single _ _ ⟨?_, ?_⟩, by decide, by decide, by decide⟩
  · exact .inr (.bracketed "a>\t<b")
  · exact .inr (.bracketed "c")
  · exact .inr (.bracketed "a")
  · exact .inr (.bracketed "b>\t<c")

end Transducer

end MorphLex
