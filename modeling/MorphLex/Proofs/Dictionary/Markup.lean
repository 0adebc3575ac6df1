import MorphLex.Proofs.Dictionary.FirstFault
import MorphLex.Proofs.Dictionary.Spelling

/-!
Markup piece by piece. What a fragment shows is a list of characters and tags, and this list
does not depend on how the fragment is spelled. Spelling it means going through the list:
a tag that the mode does not know ends it, and every other piece has symbols of its own. So
what the modes and the boundaries change is seen at a single piece.
-/

namespace MorphLex.Dictionary

/-- A character of a text, or a tag. -/
inductive Piece where
  | letter (character : Char)
  | tag (element : Xml.Element)

mutual

def nodePieces : Xml.Node → List Piece
  | .element inner => elementPieces inner
  | .text content => content.toList.map .letter
  | .comment => []
  | .instruction => []

/-- The tag of an element, and the pieces inside if it is a group. -/
def elementPieces : Xml.Element → List Piece
  | ⟨name, attributes, line, children⟩ =>
      .tag ⟨name, attributes, line, children⟩ :: if name = "g" then contentPieces children else []

/-- What a fragment shows, in the order of the document. -/
def contentPieces : List Xml.Node → List Piece
  | [] => []
  | first :: rest => nodePieces first ++ contentPieces rest

end

namespace Piece

def element? : Piece → Option Xml.Element
  | .letter _ => none
  | .tag element => some element

/-- A tag of this name. -/
def isTag (name : String) : Piece → Bool
  | .letter _ => false
  | .tag element => element.name == name

/-- What is wrong with a piece in a dictionary of this mode. -/
def fault? (mode : Mode) : Piece → Option Fault
  | .letter _ => none
  | .tag element => misplaced? element (mode.allows element.name)

/-- The symbols of a piece alone, without those inside of a group. -/
def symbols (spelling : Spelling) : Piece → List Symbol
  | .letter character => [Symbol.ofChar character]
  | .tag element =>
      (Markup.ofName? spelling.mode element.name).elim [] (spelling.markup (element.attr "n") [])

end Piece

/-- The elements that are looked at, in the order of the document. -/
def shownElements (nodes : List Xml.Node) : List Xml.Element :=
  (contentPieces nodes).filterMap Piece.element?

/-- The fragment leads to the element directly, or over groups only. -/
inductive Shows : List Xml.Node → Xml.Element → Prop
  | child {nodes : List Xml.Node} {element : Xml.Element} (listed : .element element ∈ nodes) :
    Shows nodes element
  | inside {nodes : List Xml.Node} {group element : Xml.Element} (listed : .element group ∈ nodes)
      (opened : group.name = "g") (within : Shows group.children element) : Shows nodes element

/-- A change that does not touch the characters and tags: a comment or an instruction more, or
a text in two parts, in the fragment itself or inside of an element. -/
inductive Edit : List Xml.Node → List Xml.Node → Prop
  | comment (before after : List Xml.Node) : Edit (before ++ after) (before ++ .comment :: after)
  | instruction (before after : List Xml.Node) :
    Edit (before ++ after) (before ++ .instruction :: after)
  | split (before after : List Xml.Node) (first second : String) :
      Edit (before ++ .text (first ++ second) :: after)
        (before ++ .text first :: .text second :: after)
  | inside (before after : List Xml.Node) (element : Xml.Element) {changed : List Xml.Node}
      (edit : Edit element.children changed) :
      Edit (before ++ .element element :: after)
        (before ++ .element { element with children := changed } :: after)

namespace Spelling

open Result

/-- The symbols of all pieces, or the first fault. -/
def read (spelling : Spelling) (pieces : List Piece) : Except Fault (List Symbol) :=
  match pieces.findSome? (Piece.fault? spelling.mode) with
  | some fault => .error fault
  | none => .ok (pieces.flatMap (Piece.symbols spelling))

/-- The symbols of a fragment, each with the piece that it comes from. -/
def sources (spelling : Spelling) (nodes : List Xml.Node) : List (Piece × Symbol) :=
  (contentPieces nodes).flatMap fun piece => (piece.symbols spelling).map fun symbol =>
    (piece, symbol)

section Pieces

variable (spelling : Spelling)

theorem read_append (front back : List Piece) :
    spelling.read (front ++ back) = spelling.read front >>= fun first =>
      (spelling.read back).map (first ++ ·) := by
  rw [read, read, read, List.findSome?_append, List.flatMap_append]
  cases front.findSome? (Piece.fault? spelling.mode) with
  | some fault => rfl
  | none =>
      cases back.findSome? (Piece.fault? spelling.mode) with
      | some fault => rfl
      | none => rfl

theorem read_letters (characters : List Char) :
    spelling.read (characters.map .letter) = .ok (characters.map Symbol.ofChar) := by
  have faultless : (characters.map Piece.letter).findSome? (Piece.fault? spelling.mode) = none := by
    rw [List.findSome?_eq_none_iff, List.forall_mem_map]
    exact fun _ _ => rfl
  rw [read, faultless, List.flatMap_map, List.map_eq_flatMap]
  rfl

mutual

theorem node_eq_read (node : Xml.Node) : spelling.node node = spelling.read (nodePieces node) := by
  cases node with
  | element inner =>
      rw [Spelling.node, nodePieces]
      exact element_eq_read inner
  | text content => rw [Spelling.node, nodePieces, read_letters]
  | comment | instruction =>
      rw [Spelling.node, nodePieces]
      rfl

theorem element_eq_read (element : Xml.Element) :
    spelling.element element = spelling.read (elementPieces element) := by
  obtain ⟨name, attributes, line, children⟩ := element
  rw [Spelling.element, elementPieces, ← List.singleton_append, read_append]
  cases found : Markup.ofName? spelling.mode name with
  | none =>
      have refused := (Markup.of_name_eq_none_iff spelling.mode name).mp found
      simp [read, Piece.fault?, misplaced?, refused, bind, Except.bind]
  | some markup =>
      have allowed : spelling.mode.allows name = true := by
        rw [← Bool.not_eq_false, ← Markup.of_name_eq_none_iff, found]
        simp
      have isGroup := Markup.of_name_eq_group_iff spelling.mode name
      rw [found, Option.some.injEq] at isGroup
      have alone : spelling.read [.tag ⟨name, attributes, line, children⟩] =
          .ok (spelling.markup ((attributes.lookup "n").getD "") [] markup) := by
        simp [read, Piece.fault?, misplaced?, allowed, Piece.symbols, found, Xml.Element.attr]
      rw [alone]
      by_cases group : markup = .group
      · obtain rfl := group
        rw [if_pos (isGroup.mp rfl), content_eq_read children]
        cases spelling.read (contentPieces children) <;> rfl
      · rw [if_neg fun isG => group (isGroup.mpr isG)]
        cases markup with
        | group => exact absurd rfl group
        | tilde | blank | join | boundary | tag | anyTag | anyChar =>
            simp [read, bind, Except.bind, Except.map]

theorem content_eq_read (nodes : List Xml.Node) :
    spelling.content nodes = spelling.read (contentPieces nodes) := by
  cases nodes with
  | nil =>
      rw [Spelling.content, contentPieces]
      rfl
  | cons node rest =>
      rw [Spelling.content, contentPieces, read_append, node_eq_read node, content_eq_read rest]
      cases spelling.read (nodePieces node) with
      | error fault => rfl
      | ok front => cases spelling.read (contentPieces rest) <;> rfl

end

end Pieces

end Spelling

section Shown

theorem content_pieces_append (front back : List Xml.Node) :
    contentPieces (front ++ back) = contentPieces front ++ contentPieces back := by
  induction front with
  | nil => rfl
  | cons node rest ih => rw [List.cons_append, contentPieces, contentPieces, ih, List.append_assoc]

theorem shown_element (element : Xml.Element) : (elementPieces element).filterMap Piece.element? =
    element :: if element.name = "g" then shownElements element.children else [] := by
  obtain ⟨name, attributes, line, children⟩ := element
  rw [elementPieces, List.filterMap_cons, Piece.element?]
  by_cases opened : name = "g"
  · rw [if_pos opened, if_pos opened]
    rfl
  · rw [if_neg opened, if_neg opened, List.filterMap_nil]

theorem shown_cons (node : Xml.Node) (rest : List Xml.Node) :
    shownElements (node :: rest) =
      (nodePieces node).filterMap Piece.element? ++ shownElements rest := by
  rw [shownElements, contentPieces, List.filterMap_append]
  rfl

theorem shown_of_mem {nodes : List Xml.Node} {outer element : Xml.Element}
    (listed : .element outer ∈ nodes)
    (found : element ∈ (elementPieces outer).filterMap Piece.element?) :
    element ∈ shownElements nodes := by
  obtain ⟨before, after, rfl⟩ := List.append_of_mem listed
  rw [shownElements, content_pieces_append, List.filterMap_append, contentPieces,
    List.filterMap_append, nodePieces]
  exact List.mem_append_right _ (List.mem_append_left _ found)

theorem no_elements_of_letters (characters : List Char) :
    (characters.map Piece.letter).filterMap Piece.element? = [] := by
  rw [List.filterMap_eq_nil_iff, List.forall_mem_map]
  exact fun _ _ => rfl

mutual

theorem shows_of_mem_node (node : Xml.Node) (rest : List Xml.Node) {element : Xml.Element}
    (found : element ∈ (nodePieces node).filterMap Piece.element?) :
    Shows (node :: rest) element := by
  cases node with
  | element inner =>
      rw [nodePieces] at found
      exact shows_of_mem_element inner List.mem_cons_self found
  | text content =>
      rw [nodePieces, no_elements_of_letters] at found
      exact nomatch found
  | comment | instruction => exact nomatch found

theorem shows_of_mem_element (outer : Xml.Element) {nodes : List Xml.Node}
    (listed : .element outer ∈ nodes) {element : Xml.Element}
    (found : element ∈ (elementPieces outer).filterMap Piece.element?) : Shows nodes element := by
  obtain ⟨name, attributes, line, children⟩ := outer
  rw [shown_element] at found
  rcases List.mem_cons.mp found with rfl | within
  · exact .child listed
  · split at within
    · next opened => exact .inside listed opened (shows_of_mem children within)
    · exact nomatch within

theorem shows_of_mem (nodes : List Xml.Node) {element : Xml.Element}
    (found : element ∈ shownElements nodes) : Shows nodes element := by
  cases nodes with
  | nil => exact nomatch found
  | cons node rest =>
      rw [shown_cons] at found
      rcases List.mem_append.mp found with here | later
      · exact shows_of_mem_node node rest here
      · cases shows_of_mem rest later with
        | child listed => exact .child (List.mem_cons_of_mem _ listed)
        | inside listed opened within => exact .inside (List.mem_cons_of_mem _ listed) opened within

end

/-- The list of the elements that are looked at is complete. -/
theorem mem_shown_iff (nodes : List Xml.Node) (element : Xml.Element) :
    element ∈ shownElements nodes ↔ Shows nodes element := by
  constructor
  · exact shows_of_mem nodes
  · intro shows
    induction shows with
    | child listed =>
        apply shown_of_mem listed
        rw [shown_element]
        exact List.mem_cons_self
    | inside listed opened _ ih =>
        apply shown_of_mem listed
        rw [shown_element, if_pos opened]
        exact List.mem_cons_of_mem _ ih

end Shown

section Faults

theorem misplaced_eq_some_iff (element : Xml.Element) (belongs : Bool) (fault : Fault) :
    misplaced? element belongs = some fault ↔
      belongs = false ∧ fault = .unexpectedElement element.name element.line := by
  cases belongs <;> simp [misplaced?, eq_comm]

/-- Characters have no fault. -/
theorem first_fault_of_pieces (mode : Mode) (pieces : List Piece) :
    pieces.findSome? (Piece.fault? mode) =
    (pieces.filterMap Piece.element?).findSome? fun element =>
      misplaced? element (mode.allows element.name) := by
  induction pieces with
  | nil => rfl
  | cons piece rest ih =>
      cases piece with
      | letter character => exact ih
      | tag element =>
          rw [List.findSome?_cons, List.filterMap_cons, ih]
          rfl

namespace Spelling

variable (spelling : Spelling) (nodes : List Xml.Node)

/-- The fault is that of the first element that the mode does not know. -/
theorem content_eq_error_iff (fault : Fault) : spelling.content nodes = .error fault ↔
    ∃ before stray after, shownElements nodes = before ++ stray :: after ∧
      (∀ element ∈ before, spelling.mode.allows element.name = true) ∧
      spelling.mode.allows stray.name = false ∧
      fault = .unexpectedElement stray.name stray.line := by
  have failed : spelling.content nodes = .error fault ↔
      (contentPieces nodes).findSome? (Piece.fault? spelling.mode) = some fault := by
    rw [content_eq_read, read]
    cases (contentPieces nodes).findSome? (Piece.fault? spelling.mode) <;> simp
  rw [failed, first_fault_of_pieces, ← shownElements, List.findSome?_eq_some_iff]
  simp only [misplaced_eq_some_iff, Known.misplaced_eq_none_iff]
  constructor
  · rintro ⟨before, stray, after, listed, ⟨refused, told⟩, known⟩
    exact ⟨before, stray, after, listed, known, refused, told⟩
  · rintro ⟨before, stray, after, listed, known, refused, told⟩
    exact ⟨before, stray, after, listed, ⟨refused, told⟩, known⟩

variable {spelling nodes}

theorem content_eq_ok_iff (symbols : List Symbol) : spelling.content nodes = .ok symbols ↔
    (∀ element, Shows nodes element → spelling.mode.allows element.name = true) ∧
      symbols = (spelling.sources nodes).map Prod.snd := by
  have spelled :
      (spelling.sources nodes).map Prod.snd =
        (contentPieces nodes).flatMap (Piece.symbols spelling) := by
    rw [sources, List.map_flatMap]
    simp
  have clear : (contentPieces nodes).findSome? (Piece.fault? spelling.mode) = none ↔
      ∀ element, Shows nodes element → spelling.mode.allows element.name = true := by
    rw [first_fault_of_pieces, ← shownElements, List.findSome?_eq_none_iff]
    simp only [Known.misplaced_eq_none_iff, mem_shown_iff]
  rw [content_eq_read, read, spelled, ← clear]
  cases (contentPieces nodes).findSome? (Piece.fault? spelling.mode) <;> simp [eq_comm]

end Spelling

end Faults

section Modes

variable {mode : Mode} {keepBoundaries : Bool} {piece : Piece}

theorem Markup.of_name_eq_boundary_iff (mode : Mode) (name : String) :
    Markup.ofName? mode name = some .boundary ↔ name = "m" := by
  unfold Markup.ofName?
  split <;> simp_all

theorem Markup.of_name_eq_join_iff (mode : Mode) (name : String) :
    Markup.ofName? mode name = some .join ↔ name = "j" := by
  unfold Markup.ofName?
  split <;> simp_all

/-- A separable dictionary knows the markup of a standard one. -/
theorem Markup.of_name_separable {name : String} {markup : Markup}
    (known : Markup.ofName? .standard name = some markup) :
    Markup.ofName? .separable name = some markup := by
  unfold Markup.ofName? at known ⊢
  split at known <;> simp_all

/-- Only a join is spelled otherwise in a separable dictionary. -/
theorem Piece.symbols_separable (known : piece.fault? .standard = none) :
    piece.symbols ⟨.separable, keepBoundaries⟩ =
      (piece.symbols ⟨.standard, keepBoundaries⟩).map fun symbol =>
        if piece.isTag "j" then "<$>" else symbol := by
  cases piece with
  | letter character => rfl
  | tag element =>
      have allowed := (Known.misplaced_eq_none_iff _ _).mp known
      cases found : Markup.ofName? .standard element.name with
      | none => simp [(Markup.of_name_eq_none_iff _ _).mp found] at allowed
      | some markup =>
          have join := Markup.of_name_eq_join_iff .standard element.name
          rw [found, Option.some.injEq] at join
          simp only [Piece.symbols, found, Markup.of_name_separable found, Piece.isTag,
            Option.elim_some, beq_iff_eq, ← join]
          cases markup with
          | boundary => cases keepBoundaries <;> rfl
          | tilde | blank | group | join | tag | anyTag | anyChar => rfl

theorem Piece.symbols_join (join : piece.isTag "j" = true) :
    piece.symbols ⟨.standard, keepBoundaries⟩ = ["+"] := by
  cases piece with
  | letter character => exact nomatch join
  | tag element =>
      have found := (Markup.of_name_eq_join_iff .standard element.name).mpr (eq_of_beq join)
      rw [Piece.symbols, found]
      rfl

/-- Only morpheme boundaries depend on whether they are kept. -/
theorem Piece.symbols_without_boundaries :
    piece.symbols ⟨mode, false⟩ = if piece.isTag "m" then [] else piece.symbols ⟨mode, true⟩ := by
  cases piece with
  | letter character => rfl
  | tag element =>
      have boundary := Markup.of_name_eq_boundary_iff mode element.name
      simp only [Piece.symbols, Piece.isTag, beq_iff_eq, ← boundary]
      cases found : Markup.ofName? mode element.name with
      | none => rfl
      | some markup => cases markup <;> rfl

end Modes

namespace Spelling

section Sources

variable {nodes : List Xml.Node}

theorem sources_separable
    (known : ∀ element, Shows nodes element → Mode.standard.allows element.name = true)
    (keepBoundaries : Bool) :
    (sources ⟨.separable, keepBoundaries⟩ nodes).map Prod.snd =
      (sources ⟨.standard, keepBoundaries⟩ nodes).map fun (piece, symbol) =>
        if piece.isTag "j" then "<$>" else symbol := by
  rw [sources, sources, List.map_flatMap, List.map_flatMap]
  apply List.flatMap_congr
  intro piece listed
  have faultless : piece.fault? .standard = none := by
    cases piece with
    | letter character => rfl
    | tag element =>
        apply (Known.misplaced_eq_none_iff _ _).mpr
        exact known element
          ((mem_shown_iff nodes element).mp (List.mem_filterMap.mpr ⟨.tag element, listed, rfl⟩))
  rw [Piece.symbols_separable faultless, List.map_map, List.map_map, List.map_map]
  rfl

theorem sources_without_boundaries (mode : Mode) (nodes : List Xml.Node) :
    (sources ⟨mode, false⟩ nodes).map Prod.snd =
      ((sources ⟨mode, true⟩ nodes).filter fun source => !source.1.isTag "m").map Prod.snd := by
  rw [sources, sources, List.filter_flatMap, List.map_flatMap, List.map_flatMap]
  congr 1
  funext piece
  rw [Piece.symbols_without_boundaries]
  cases boundary : piece.isTag "m" <;> simp [List.filter_map, Function.comp_def, boundary]

end Sources

section Edits

variable (spelling : Spelling)

theorem element_of_content (element : Xml.Element) {changed : List Xml.Node}
    (same : spelling.content changed = spelling.content element.children) :
    spelling.element { element with children := changed } = spelling.element element := by
  obtain ⟨name, attributes, line, children⟩ := element
  simp only [Spelling.element, same]

theorem content_of_edit {nodes changed : List Xml.Node} (edit : Edit nodes changed) :
    spelling.content changed = spelling.content nodes := by
  induction edit with
  | comment before after | instruction before after =>
      rw [content_eq_read, content_eq_read, content_pieces_append, content_pieces_append]
      rfl
  | split before after first second =>
      have letters :
          nodePieces (.text (first ++ second)) =
            nodePieces (.text first) ++ nodePieces (.text second) := by
        simp only [nodePieces, String.toList_append, List.map_append]
      rw [content_eq_read, content_eq_read, content_pieces_append, content_pieces_append,
        contentPieces, contentPieces, contentPieces, letters, List.append_assoc]
  | inside before after element edit ih =>
      rw [content_append, content_append, Spelling.content, Spelling.content, Spelling.node,
        Spelling.node, spelling.element_of_content element ih]

end Edits

end Spelling

/-- A fragment is spelled exactly if the mode knows all elements that groups lead to, and
otherwise the first one that it does not know is reported. Every symbol is a single character
or a text in angle brackets. A separable dictionary spells what a standard one spells, with
its own symbol for each join, and to leave the morpheme boundaries out is to drop the symbols
that come from them. Comments, instructions and the limits of texts are nothing to it. -/
theorem markup_spelled_across_modes (nodes : List Xml.Node) :
    (∀ spelling : Spelling,
      ((∃ symbols, spelling.content nodes = .ok symbols) ↔
        ∀ element, Shows nodes element → spelling.mode.allows element.name = true) ∧
      (∀ fault, spelling.content nodes = .error fault ↔
        ∃ before stray after, shownElements nodes = before ++ stray :: after ∧
          (∀ element ∈ before, spelling.mode.allows element.name = true) ∧
          spelling.mode.allows stray.name = false ∧
          fault = .unexpectedElement stray.name stray.line) ∧
      ∀ symbols, spelling.content nodes = .ok symbols →
        symbols = (spelling.sources nodes).map Prod.snd ∧
        ∀ symbol ∈ symbols, symbol.Written ∧ symbol ≠ Symbol.epsilon) ∧
    (∀ keepBoundaries symbols, Spelling.content ⟨.standard, keepBoundaries⟩ nodes = .ok symbols →
      Spelling.content ⟨.separable, keepBoundaries⟩ nodes =
        .ok ((Spelling.sources ⟨.standard, keepBoundaries⟩ nodes).map fun (piece, symbol) =>
          if piece.isTag "j" then "<$>" else symbol)) ∧
    (∀ keepBoundaries, ∀ source ∈ Spelling.sources ⟨.standard, keepBoundaries⟩ nodes,
      source.1.isTag "j" = true → source.2 = "+") ∧
    (∀ mode, Spelling.content ⟨mode, false⟩ nodes =
      (Spelling.content ⟨mode, true⟩ nodes).map fun _ =>
      ((Spelling.sources ⟨mode, true⟩ nodes).filter fun source =>
        !source.1.isTag "m").map Prod.snd) ∧
    ∀ changed, Edit nodes changed →
      ∀ spelling : Spelling, spelling.content changed = spelling.content nodes := by
  refine ⟨fun spelling => ⟨?_, spelling.content_eq_error_iff nodes, fun symbols spelled => ?_⟩,
    ?_, ?_, ?_, ?_⟩
  · simp only [Spelling.content_eq_ok_iff, exists_and_left, exists_eq, and_true]
  · have written := spelling.content_written nodes symbols spelled
    refine ⟨((Spelling.content_eq_ok_iff symbols).mp spelled).2,
      fun symbol listed => ⟨written symbol listed, ?_⟩⟩
    have plain := (written symbol listed).is_epsilon
    rwa [Symbol.isEpsilon, beq_eq_false_iff_ne] at plain
  · intro keepBoundaries symbols spelled
    have known := ((Spelling.content_eq_ok_iff symbols).mp spelled).1
    have more (element : Xml.Element) (shows : Shows nodes element) :
        Mode.separable.allows element.name = true := by
      have allowed := known element shows
      simp [Mode.allows] at allowed ⊢
      exact .inl allowed
    exact (Spelling.content_eq_ok_iff _).mpr ⟨more,
      (Spelling.sources_separable known keepBoundaries).symm⟩
  · intro keepBoundaries source listed join
    obtain ⟨piece, -, symbol, own, rfl⟩ :
        ∃ piece ∈ contentPieces nodes, ∃ symbol ∈ piece.symbols ⟨.standard, keepBoundaries⟩,
        (piece, symbol) = source := by simpa [Spelling.sources] using listed
    rw [Piece.symbols_join join] at own
    exact List.mem_singleton.mp own
  · intro mode
    cases spelled : Spelling.content ⟨mode, true⟩ nodes with
    | error fault =>
        have first := (Spelling.content_eq_error_iff ⟨mode, true⟩ nodes fault).mp spelled
        exact (Spelling.content_eq_error_iff ⟨mode, false⟩ nodes fault).mpr first
    | ok symbols =>
        have known := ((Spelling.content_eq_ok_iff symbols).mp spelled).1
        exact (Spelling.content_eq_ok_iff _).mpr ⟨known,
          (Spelling.sources_without_boundaries mode nodes).symm⟩
  · exact fun changed edit spelling => spelling.content_of_edit edit

/-- A join beside a plus sign, and a boundary inside of a group. -/
def nestedGroup : List Xml.Node :=
  [.text "a+", .element ⟨"j", [], 1, []⟩,
    .element ⟨"g", [], 2,
      [.element ⟨"m", [], 2, []⟩, .text "bc", .element ⟨"s", [("n", "x")], 3, [.comment]⟩]⟩]

theorem markup_spelled_across_modes_of_nested_group :
    Spelling.content ⟨.standard, true⟩ nestedGroup =
      .ok ["a", "+", "+", "#", ">", "b", "c", "<x>"] ∧
      Spelling.content ⟨.separable, true⟩ nestedGroup =
        .ok ["a", "+", "<$>", "#", ">", "b", "c", "<x>"] ∧
      Spelling.content ⟨.standard, false⟩ nestedGroup = .ok ["a", "+", "+", "#", "b", "c", "<x>"] ∧
      Spelling.content ⟨.standard, true⟩
          [.text "a+", .element ⟨"j", [], 1, []⟩,
            .element ⟨"g", [], 2,
              [.element ⟨"m", [], 2, []⟩, .text "b", .text "c",
                .element ⟨"s", [("n", "x")], 3, [.comment]⟩]⟩] =
        Spelling.content ⟨.standard, true⟩ nestedGroup := by
  obtain ⟨-, modes, -, boundaries, edits⟩ := markup_spelled_across_modes nestedGroup
  have spelled :
      Spelling.content ⟨.standard, true⟩ nestedGroup =
        .ok ["a", "+", "+", "#", ">", "b", "c", "<x>"] := rfl
  have parts :
      Edit [.element ⟨"m", [], 2, []⟩, .text "bc", .element ⟨"s", [("n", "x")], 3, [.comment]⟩]
      [.element ⟨"m", [], 2, []⟩, .text "b", .text "c",
        .element ⟨"s", [("n", "x")], 3, [.comment]⟩] :=
    .split [.element ⟨"m", [], 2, []⟩] [.element ⟨"s", [("n", "x")], 3, [.comment]⟩] "b" "c"
  refine ⟨spelled, modes true _ spelled, ?_,
    edits _ (.inside [.text "a+", .element ⟨"j", [], 1, []⟩] [] _ parts) _⟩
  rw [boundaries, spelled]
  rfl

end MorphLex.Dictionary
