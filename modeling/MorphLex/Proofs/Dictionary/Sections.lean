import MorphLex.Proofs.Dictionary.Union

/-!
The lines of a compilation. A paradigm is read from the lines of its definition, and
the root from those of all sections of all documents in their order, each against
what had been read when its section began.
-/

namespace MorphLex.Dictionary

open Reported Result Transducer

namespace Compiler

variable {compiler next result : Compiler} {element : Xml.Element}

/-- Entries that are read in this state of the compiler, for a paradigm of that name. -/
def lines (compiler : Compiler) (name : String) (entries : List Xml.Element) : List Line :=
  entries.map fun element => { scope := compiler.scope name, element }

/-- What a child of a dictionary adds to the root. -/
def sectionLines (compiler : Compiler) (element : Xml.Element) : List Line :=
  if element.name = "section" then compiler.lines Registry.rootName element.elements else []

/-- The children of a dictionary are read, and these lines are read into the root. -/
inductive Gathers : Compiler → List Xml.Element → List Line → Compiler → Prop
  | done (compiler : Compiler) : Gathers compiler [] [] compiler
  | child {compiler next result : Compiler} {element : Xml.Element} {rest : List Xml.Element}
    {lines : List Line}
      (read : (compiler.readChild element).Yields next) (later : Gathers next rest lines result) :
      Gathers compiler (element :: rest) (compiler.sectionLines element ++ lines) result

/-- The same for documents, one behind the other. -/
inductive GathersAll : Compiler → List Xml.Element → List Line → Compiler → Prop
  | done (compiler : Compiler) : GathersAll compiler [] [] compiler
  | document {compiler next result : Compiler} {document : Xml.Element} {rest : List Xml.Element}
      {lines more : List Line}
      (read : Gathers { compiler with mode := Mode.ofType (document.attr "type") }
        document.elements lines next)
      (later : GathersAll next rest more result) :
        GathersAll compiler (document :: rest) (lines ++ more) result

theorem read_entries_entered {name : String} {t built : Transducer} {entries : List Xml.Element}
    (done : (compiler.readEntries name t entries).Yields built) :
    Line.Entered t (compiler.lines name entries) built := by
  unfold readEntries at done
  induction entries generalizing t with
  | nil =>
      obtain rfl := Yields.pure done
      exact .done t
  | cons entry rest ih =>
      rw [List.foldlM_cons] at done
      obtain ⟨next, first, later⟩ := done.bind
      obtain ⟨_, read⟩ := Yields.past first
      exact .line read (ih later)

theorem read_paradigms_root {elements : List Xml.Element}
    (done : (elements.foldlM readParadigm compiler).Yields result) :
    result.root = compiler.root := by
  apply done.fold (fun _ built => built.root = compiler.root) _ rfl
  intro paradigm _ before after same step
  have reads : before.Reads (.paradigm paradigm) after := reads_of_yields step
  cases reads with
  | paradigm _ built => exact (before.registry.root_define _ built).trans same

/-- Only sections change the root. -/
theorem read_child_entered (done : (compiler.readChild element).Yields next) :
    Line.Entered compiler.root (compiler.sectionLines element) next.root := by
  unfold readChild at done
  split at done
  · next name =>
    rw [sectionLines, if_neg (by simp [name])]
    have reads : compiler.Reads (.alphabet element) next := reads_of_yields done
    cases reads with
    | alphabet => exact .done _
  · next name =>
    rw [sectionLines, if_neg (by simp [name])]
    obtain rfl := Yields.pure done
    exact .done _
  · next name =>
    rw [sectionLines, if_neg (by simp [name]), read_paradigms_root done]
    exact .done _
  · next name =>
    rw [sectionLines, if_pos name]
    have reads : compiler.Reads (.entries element) next := reads_of_yields done
    cases reads with
    | entries _ root built => exact read_entries_entered built
  · exact absurd done not_yields_throw

theorem lines_copyable (proper : compiler.registry.Proper) (element : Xml.Element) :
    ∀ line ∈ compiler.sectionLines element, line.scope.registry.Copyable := by
  intro line member
  unfold sectionLines at member
  split at member
  · obtain ⟨entry, _, rfl⟩ := List.mem_map.mp member
    exact proper.copyable
  · exact absurd member List.not_mem_nil

theorem Gathers.entered {elements : List Xml.Element} {lines : List Line}
    (gathers : Gathers compiler elements lines result) (proper : compiler.registry.Proper) :
    Line.Entered compiler.root lines result.root ∧ (∀ line ∈ lines, line.scope.registry.Copyable) ∧
      result.registry.Proper := by
  induction gathers with
  | done compiler => exact ⟨.done _, fun line member => absurd member List.not_mem_nil, proper⟩
  | child read _ ih =>
      obtain ⟨later, copyable, last⟩ := ih (read_child_proper proper read)
      refine ⟨(read_child_entered read).append later, ?_, last⟩
      exact List.forall_mem_append.mpr ⟨lines_copyable proper _, copyable⟩

theorem GathersAll.entered {documents : List Xml.Element} {lines : List Line}
    (gathers : GathersAll compiler documents lines result) (proper : compiler.registry.Proper) :
    Line.Entered compiler.root lines result.root ∧
      ∀ line ∈ lines, line.scope.registry.Copyable := by
  induction gathers with
  | done compiler => exact ⟨.done _, fun line member => absurd member List.not_mem_nil⟩
  | document read _ ih =>
      obtain ⟨first, copyable, between⟩ := read.entered proper
      obtain ⟨later, others⟩ := ih between
      exact ⟨first.append later, List.forall_mem_append.mpr ⟨copyable, others⟩⟩

theorem exists_gathers {elements : List Xml.Element}
    (done : (elements.foldlM readChild compiler).Yields result) :
    ∃ lines, Gathers compiler elements lines result := by
  induction elements generalizing compiler with
  | nil =>
      obtain rfl := Yields.pure done
      exact ⟨[], .done compiler⟩
  | cons element rest ih =>
      rw [List.foldlM_cons] at done
      obtain ⟨next, read, later⟩ := done.bind
      obtain ⟨lines, gathers⟩ := ih later
      exact ⟨_, .child read gathers⟩

theorem exists_gathers_all {documents : List Xml.Element}
    (done : (documents.foldlM compile compiler).Yields result) :
    ∃ lines, GathersAll compiler documents lines result := by
  induction documents generalizing compiler with
  | nil =>
      obtain rfl := Yields.pure done
      exact ⟨[], .done compiler⟩
  | cons document rest ih =>
      rw [List.foldlM_cons] at done
      obtain ⟨next, read, later⟩ := done.bind
      unfold compile at read
      obtain ⟨_, read⟩ := Yields.past read
      obtain ⟨lines, first⟩ := exists_gathers (Yields.reported read)
      obtain ⟨more, others⟩ := ih later
      exact ⟨_, .document first others⟩

/-- What is read into a transducer that is empty at first: entries into a paradigm, or
documents into the root. -/
inductive Source where
  | paradigm (compiler : Compiler) (name : String) (entries : List Xml.Element)
  | root (options : Options) (documents : List Xml.Element)

/-- The source is read, and this is built. -/
def Source.Builds : Source → Transducer → Prop
  | .paradigm compiler name entries, built =>
      compiler.registry.Copyable ∧ (compiler.readEntries name .initial entries).Yields built
  | .root options documents, built =>
      ∃ compiler, (documents.foldlM compile { options }).outcome.2 = .ok compiler ∧
        compiler.root = built

/-- These are the lines of the source. -/
def Source.Holds : Source → List Line → Prop
  | .paradigm compiler name entries, lines => lines = compiler.lines name entries
  | .root options documents, lines => ∃ compiler, GathersAll { options } documents lines compiler

theorem Source.Builds.entered {source : Source} {built : Transducer}
    (builds : source.Builds built) :
    ∃ lines, source.Holds lines ∧ Line.Entered .initial lines built ∧
      ∀ line ∈ lines, line.scope.registry.Copyable := by
  cases source with
  | paradigm compiler name entries =>
      refine ⟨_, rfl, read_entries_entered builds.2, ?_⟩
      intro line member
      obtain ⟨entry, _, rfl⟩ := List.mem_map.mp member
      exact builds.1
  | root options documents =>
      obtain ⟨compiler, compiled, rfl⟩ := builds
      obtain ⟨lines, gathers⟩ := exists_gathers_all (yields_of_outcome compiled)
      exact ⟨lines, ⟨compiler, gathers⟩, gathers.entered Registry.proper_empty⟩

/-- The entries of a paradigm, and those of all sections in the root, add up to a union of
the ones that are left standing. These are all of them when at most one that is kept is
without a path, and then the order of the entries is of no account. -/
theorem entries_unite (source : Source) (built : Transducer) (builds : source.Builds built) :
    ∃ lines, source.Holds lines ∧ Line.Entered .initial lines built ∧
      Line.Unites (Line.standing lines) built ∧
      (∀ input output, built.costs input output = ∅ ↔
        ∀ line ∈ lines, ∀ weight, ¬line.Costs input output weight) ∧
      (Line.OneIdle lines → Line.Unites lines built ∧
        ∀ others : List Line, others.Perm lines → ∃ rebuilt, Line.Entered .initial others rebuilt ∧
          ∀ input output, rebuilt.costs input output = built.costs input output) := by
  obtain ⟨lines, holds, entered, copyable⟩ := builds.entered
  have unites := entered.unites copyable
  refine ⟨lines, holds, entered, unites, entered.absent copyable, ?_⟩
  intro one
  constructor
  · rwa [Line.standing_eq one] at unites
  · exact fun others same => entered.permuted copyable one same

/-- One entry without a path, and a word with two weights. -/
def weighedEntries : List Xml.Element :=
  [⟨"e", [("w", "1")], 2, []⟩,
    ⟨"e", [("w", "3")], 3, [.element ⟨"i", [], 3, [.text "a"]⟩]⟩,
    ⟨"e", [("w", "2")], 4, [.element ⟨"i", [], 4, [.text "a"]⟩]⟩]

def weighedDocument : Xml.Element :=
  ⟨"dictionary", [], 1, [.element ⟨"section", [], 1, weighedEntries.map .element⟩]⟩

theorem entries_unite_of_weighed :
    let fresh : Compiler := { options := {} }
    (∃ built, (fresh.readEntries "word" .initial weighedEntries).Yields built ∧
      Line.Unites (fresh.lines "word" weighedEntries) built ∧
      ∃ rebuilt, Line.Entered .initial (fresh.lines "word" weighedEntries).reverse rebuilt ∧
        ∀ input output, rebuilt.costs input output = built.costs input output) ∧
    ∃ compiler lines, ([weighedDocument].foldlM compile fresh).outcome.2 = .ok compiler ∧
      (Source.root {} [weighedDocument]).Holds lines ∧
      Line.Unites (Line.standing lines) compiler.root := by
  intro fresh
  constructor
  · have reads : (fresh.readEntries "word" .initial weighedEntries).outcome.2.isOk = true := by
      decide +kernel
    obtain ⟨built, read⟩ := exists_ok_of_is_ok reads
    have done := yields_of_outcome read
    have builds : (Source.paradigm fresh "word" weighedEntries).Builds built :=
      ⟨Registry.proper_empty.copyable, done⟩
    obtain ⟨_, rfl, _, _, _, ordered⟩ := entries_unite _ built builds
    obtain ⟨unites, permuted⟩ := ordered (by decide)
    exact ⟨built, done, unites, permuted _ (List.reverse_perm _)⟩
  · have succeeds : ([weighedDocument].foldlM compile fresh).outcome.2.isOk = true := by
      decide +kernel
    obtain ⟨compiler, compiled⟩ := exists_ok_of_is_ok succeeds
    obtain ⟨lines, holds, _, unites, _⟩ :=
      entries_unite (.root {} [weighedDocument]) compiler.root ⟨compiler, compiled, rfl⟩
    exact ⟨compiler, lines, compiled, holds, unites⟩

/-- A start that is final and has no arcs has the one cost. -/
theorem costs_of_start (weight : Weight) :
    (⟨#[{ final := some weight }]⟩ : Transducer).costs [] [] = {(0.0 + weight).plain} := by
  ext total
  constructor
  · rintro ⟨path, final, ⟨last, run, ends⟩, _, _, pays⟩
    cases run with
    | stay =>
        obtain rfl : weight = final := Option.some.inj ends
        exact pays.symm
    | step leaves => exact absurd leaves (by simp [arcs])
  · rintro rfl
    exact ⟨[], weight, ⟨0, .stay 0, rfl⟩, rfl, rfl, rfl⟩

/-- Of two entries without a path the later one decides, though the earlier one has the
smaller weight; in the other order the smaller weight stays. -/
theorem entries_overwrite :
    let fresh : Compiler := { options := {} }
    let small : Xml.Element := ⟨"e", [("w", "1")], 2, []⟩
    let large : Xml.Element := ⟨"e", [("w", "5")], 3, []⟩
    ∃ built rebuilt, (fresh.readEntries "word" .initial [small, large]).Yields built ∧
      (fresh.readEntries "word" .initial [large, small]).Yields rebuilt ∧
      Weight.Least (built.costs [] []) 5.0 ∧ Weight.Least (rebuilt.costs [] []) 1.0 ∧
      ¬Line.Unites (fresh.lines "word" [small, large]) built := by
  intro fresh small large
  have yields {action : Reported Transducer} {t : Transducer}
    (reads : action.outcome.2.toOption = some t) :
      action.Yields t := yields_of_outcome (to_option_eq_some_iff.mp reads)
  have costs (weight : Weight) (plain : (0.0 + weight).plain = weight) :
      Weight.Least ((⟨#[{ final := some weight }]⟩ : Transducer).costs [] []) weight := by
    rw [costs_of_start, plain]
    constructor
    · rfl
    · intro other same number
      obtain rfl := Set.mem_singleton_iff.mp same
      exact Weight.le_refl number
  have alone : ({ scope := fresh.scope "word", element := small } : Line).Costs [] [] 1.0 :=
    ⟨⟨#[{ final := some 1.0 }]⟩, yields (by decide +kernel), (costs 1.0 (by decide)).1⟩
  refine ⟨⟨#[{ final := some 5.0 }]⟩, ⟨#[{ final := some 1.0 }]⟩, yields (by decide +kernel),
    yields (by decide +kernel), costs 5.0 (by decide), costs 1.0 (by decide), ?_⟩
  intro unites
  obtain ⟨_, lower⟩ := (unites.least [] [] 5.0).mp (costs 5.0 (by decide))
  have below : (5.0 : Weight) ≤ 1.0 := lower _ List.mem_cons_self 1.0 alone (by decide)
  exact absurd below (by decide)

end Compiler

end MorphLex.Dictionary
