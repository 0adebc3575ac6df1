import Mathlib.Data.Finset.Insert
import MorphLex.Dictionary.Compiler
import MorphLex.Proofs.Result

/-!
Where a dictionary can be at fault. A document is gone through once, from its start tag to
its end tag. The place of an element says what it may be, and whether its children are
looked at; a fault is told at a tag, from the tag itself and from what the tags before it
have brought up. The first fault is that of the first faulty tag.
-/

namespace MorphLex.Dictionary

/-- Where an element stands, as far as that decides what it may be. -/
inductive Place where
  | document
  | child
  | definition
  | entry (paradigm : String)
  | part (paradigm : String)
  | side
  | markup
  | nowhere

/-- The start tag of an element with its attributes, or its end tag. -/
inductive Visit where
  | opening (place : Place) (element : Xml.Element)
  | closing (place : Place) (element : Xml.Element)

namespace Place

/-- Where the children of an element stand, if they are looked at. -/
def inside? (options : Options) (element : Xml.Element) : Place → Option Place
  | .document => some .child
  | .child => match element.name with
      | "alphabet" => some .nowhere
      | "pardefs" => some .definition
      | "section" => some (.entry Registry.rootName)
      | _ => none
  | .definition => some (.entry (element.attr "n"))
  | .entry paradigm => if options.skipReason? element = none then some (.part paradigm) else none
  | .part _ => match element.name with
      | "i" => some .markup
      | "ig" => some .markup
      | "p" => some .side
      | "re" => some .nowhere
      | _ => none
  | .side => some .markup
  | .markup => if element.name = "g" then some .markup else none
  | .nowhere => none

end Place

mutual

def nodeVisits (options : Options) (place : Place) : Xml.Node → List Visit
  | .element inner => elementVisits options place inner
  | .text _ => []
  | .comment => []
  | .instruction => []

/-- The tags of an element and of what is looked at inside, in the order of the document. -/
def elementVisits (options : Options) (place : Place) : Xml.Element → List Visit
  | ⟨name, attributes, line, children⟩ =>
      let inside := match place.inside? options ⟨name, attributes, line, children⟩ with
        | some inner => contentVisits options inner children
        | none => []
      .opening place ⟨name, attributes, line, children⟩ ::
        (inside ++ [.closing place ⟨name, attributes, line, children⟩])

def contentVisits (options : Options) (place : Place) : List Xml.Node → List Visit
  | [] => []
  | first :: rest => nodeVisits options place first ++ contentVisits options place rest

end

/-- The tags inside of an element, none if its children are not looked at. -/
def insideVisits (options : Options) (place : Place) (element : Xml.Element) : List Visit :=
  (place.inside? options element).elim [] fun inner => contentVisits options inner element.children

section Visits

variable (options : Options) (place : Place)

theorem element_visits_eq (element : Xml.Element) : elementVisits options place element =
    .opening place element :: (insideVisits options place element ++ [.closing place element]) := by
  obtain ⟨name, attributes, line, children⟩ := element
  rw [elementVisits, insideVisits]
  cases place.inside? options ⟨name, attributes, line, children⟩ <;> rfl

/-- Only elements have tags. -/
theorem content_visits_eq (nodes : List Xml.Node) :
    contentVisits options place nodes =
      (nodes.filterMap Xml.Node.element?).flatMap (elementVisits options place) := by
  induction nodes with
  | nil => rfl
  | cons node rest ih =>
      rw [contentVisits, ih]
      cases node with
      | element inner => rfl
      | text | comment | instruction => rfl

theorem children_visits_eq (element : Xml.Element) :
    contentVisits options place element.children =
      element.elements.flatMap (elementVisits options place) :=
  content_visits_eq options place element.children

variable {options place} {element : Xml.Element}

theorem inside_visits_of_some {inner : Place}
    (inside : place.inside? options element = some inner) :
    insideVisits options place element = contentVisits options inner element.children := by
  rw [insideVisits, inside, Option.elim_some]

theorem inside_visits_of_none (inside : place.inside? options element = none) :
    insideVisits options place element = [] := by
  rw [insideVisits, inside, Option.elim_none]

end Visits

/-- What a compilation goes by, and what it has learned from the tags before. -/
structure Known where
  options : Options
  mode : Mode
  alphabet : CharSet
  names : Finset String

namespace Known

/-- The type of a document decides which markup it may use. -/
def start (known : Known) (document : Xml.Element) : Known :=
  { known with mode := Mode.ofType (document.attr "type") }

def addLetters (known : Known) (element : Xml.Element) : Known :=
  { known with
    alphabet :=
      known.alphabet.insertAll
        (element.characters.filter fun character => !Text.isBlank character) }

def define (known : Known) (paradigm : Xml.Element) : Known :=
  { known with names := insert (paradigm.attr "n") known.names }

end Known

/-- Markup that a document of this kind may use. -/
def Mode.allows (mode : Mode) (name : String) : Bool :=
  name ∈ ["a", "b", "g", "j", "m", "s"] || (mode = .separable && name ∈ ["t", "w"])

/-- No weight is given, or a finite number. -/
def Options.weighs (options : Options) (entry : Xml.Element) : Bool :=
  options.weightText entry = "" ||
    (Numeral.float? (Text.trim (options.weightText entry).toList)).any Float.isFinite

/-- An element that does not belong where it stands. -/
def misplaced? (element : Xml.Element) (belongs : Bool) : Option Fault :=
  if belongs then none else some (.unexpectedElement element.name element.line)

namespace Place

/-- What is wrong with an element of a place, seen from its name and its attributes. -/
def fault? (known : Known) (element : Xml.Element) : Place → Option Fault
  | .document => if element.name = "dictionary" then none else some (.wrongRoot element.name)
  | .child => misplaced? element (element.name ∈ ["alphabet", "sdefs", "pardefs", "section"])
  | .definition =>
      (misplaced? element (element.name = "pardef")).or
        (if element.attr "n" = "" then some (.unnamedParadigm element.line)
        else if element.attr "n" ∈ known.names then
          some (.duplicateParadigm (element.attr "n") element.line)
        else none)
  | .entry _ =>
      (misplaced? element (element.name = "e")).or
        (if known.options.skipReason? element ≠ none ∨ known.options.weighs element = true then none
        else some (.invalidWeight (known.options.weightText element) element.line))
  | .part paradigm =>
      (misplaced? element (element.name ∈ ["i", "ig", "p", "par", "re"])).or
        (if element.name ≠ "par" then none
        else if element.attr "n" = "" then some (.unnamedReference element.line)
        else if element.attr "n" = paradigm then
          some (.selfReference (element.attr "n") element.line)
        else if element.attr "n" ∈ known.names then none
        else some (.undefinedParadigm (element.attr "n") element.line))
  | .side => misplaced? element (element.name ∈ ["l", "r"])
  | .markup => misplaced? element (known.mode.allows element.name)
  | .nowhere => misplaced? element false

end Place

def Known.patternFault? (known : Known) (element : Xml.Element) : Option Fault :=
  match Pattern.compile known.alphabet (String.ofList element.characters) with
  | .ok _ => none
  | .error fault => some (.pattern fault element.line)

namespace Visit

/-- A pattern is judged as a whole, at the end tag. -/
def fault? (known : Known) : Visit → Option Fault
  | .opening place element => place.fault? known element
  | .closing (.part _) element => if element.name = "re" then known.patternFault? element else none
  | .closing _ _ => none

/-- What is known behind a tag. Characters and paradigms are known when their element ends. -/
def enter (known : Known) : Visit → Known
  | .opening .document element => known.start element
  | .closing .child element => if element.name = "alphabet" then known.addLetters element else known
  | .closing .definition element => known.define element
  | _ => known

theorem options_enter (known : Known) (visit : Visit) :
    (visit.enter known).options = known.options := by
  unfold enter
  split
  · rfl
  · split <;> rfl
  · rfl
  · rfl

end Visit

namespace Known

def after (known : Known) (visits : List Visit) : Known := visits.foldl Visit.enter known

/-- The fault of the first tag that has one. -/
def firstFault? (known : Known) : List Visit → Option Fault
  | [] => none
  | visit :: rest => match visit.fault? known with
      | some fault => some fault
      | none => (visit.enter known).firstFault? rest

variable (known : Known)

theorem after_append (front back : List Visit) :
    known.after (front ++ back) = (known.after front).after back :=
  List.foldl_append

theorem first_fault_cons_eq_none_iff (visit : Visit) (rest : List Visit) :
    known.firstFault? (visit :: rest) = none ↔
      visit.fault? known = none ∧ (visit.enter known).firstFault? rest = none := by
  rw [firstFault?]
  cases visit.fault? known <;> simp

theorem first_fault_append_eq_none_iff (front back : List Visit) :
    known.firstFault? (front ++ back) = none ↔
      known.firstFault? front = none ∧ (known.after front).firstFault? back = none := by
  induction front generalizing known with
  | nil => exact ⟨fun clear => ⟨rfl, clear⟩, And.right⟩
  | cons visit rest ih =>
      rw [List.cons_append, first_fault_cons_eq_none_iff, first_fault_cons_eq_none_iff,
        ih, and_assoc]
      rfl

/-- All tags before the first faulty one are without a fault. -/
theorem first_fault_eq_some_iff (visits : List Visit) (fault : Fault) :
    known.firstFault? visits = some fault ↔ ∃ front visit back, visits = front ++ visit :: back ∧
      known.firstFault? front = none ∧ visit.fault? (known.after front) = some fault := by
  induction visits generalizing known with
  | nil => simp [firstFault?]
  | cons visit rest ih =>
      rw [firstFault?]
      cases found : visit.fault? known with
      | some first =>
          constructor
          · intro same
            exact ⟨[], visit, rest, rfl, rfl, found.trans same⟩
          · rintro ⟨front, other, back, split, clear, faulty⟩
            cases front with
            | nil =>
                obtain ⟨rfl, rfl⟩ := List.cons.inj split
                exact found.symm.trans faulty
            | cons before front =>
                obtain ⟨rfl, rfl⟩ := List.cons.inj split
                rw [first_fault_cons_eq_none_iff, found] at clear
                exact nomatch clear.1
      | none =>
          refine (ih _).trans ⟨?_, ?_⟩
          · rintro ⟨front, other, back, rfl, clear, faulty⟩
            exact ⟨visit :: front, other, back, rfl,
              (first_fault_cons_eq_none_iff _ _ _).mpr ⟨found, clear⟩, faulty⟩
          · rintro ⟨front, other, back, split, clear, faulty⟩
            cases front with
            | nil =>
                obtain ⟨rfl, rfl⟩ := List.cons.inj split
                exact nomatch found.symm.trans faulty
            | cons before front =>
                obtain ⟨rfl, rfl⟩ := List.cons.inj split
                exact ⟨front, other, back, rfl,
                  ((first_fault_cons_eq_none_iff _ _ _).mp clear).2, faulty⟩

/-- An element inside of a pattern is met before the end of the pattern, which is faulty too. -/
example (known : Known) :
    known.firstFault?
      (elementVisits {} (.part "") ⟨"re", [], 3, [.text "(", .element ⟨"b", [], 4, []⟩]⟩) =
      some (.unexpectedElement "b" 4) := by
  rfl

/-- Goes on to what is known behind the tags, or stops at the first fault. -/
def through (visits : List Visit) : Except Fault Known :=
  match known.firstFault? visits with
  | some fault => .error fault
  | none => .ok (known.after visits)

@[simp] theorem through_nil : known.through [] = .ok known := rfl

theorem through_cons (visit : Visit) (rest : List Visit) : known.through (visit :: rest) =
    match visit.fault? known with
    | some fault => .error fault
    | none => (visit.enter known).through rest := by
  rw [through, firstFault?]
  cases visit.fault? known <;> rfl

theorem through_append (front back : List Visit) :
    known.through (front ++ back) = known.through front >>= fun later => later.through back := by
  induction front generalizing known with
  | nil => rfl
  | cons visit rest ih =>
      rw [List.cons_append, through_cons, through_cons]
      cases visit.fault? known with
      | some fault => rfl
      | none => exact ih _

theorem exists_through_iff (visits : List Visit) :
    (∃ later, known.through visits = .ok later) ↔ known.firstFault? visits = none := by
  rw [through]
  cases known.firstFault? visits <;> simp

theorem through_eq_error_iff (visits : List Visit) (fault : Fault) :
    known.through visits = .error fault ↔ known.firstFault? visits = some fault := by
  rw [through]
  cases known.firstFault? visits <;> simp

theorem options_after (visits : List Visit) : (known.after visits).options = known.options := by
  induction visits generalizing known with
  | nil => rfl
  | cons visit rest ih => exact (ih _).trans (visit.options_enter known)

end Known

end MorphLex.Dictionary
