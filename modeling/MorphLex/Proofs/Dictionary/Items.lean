import MorphLex.Dictionary.Compiler
import MorphLex.Proofs.Dictionary.Reported

/-!
A compilation as one pass over items. Documents are taken apart into what is read at a
time: the opening of a document, an alphabet, a paradigm, a section. Between two items
the compiler is in a definite state, so that what happens over several documents can be
told from one item to the next.
-/

namespace MorphLex.Dictionary

inductive Item where
  | opening (document : Xml.Element)
  | alphabet (element : Xml.Element)
  | paradigm (element : Xml.Element)
  | entries (element : Xml.Element)
  | unknown (element : Xml.Element)

namespace Item

def ofChild (child : Xml.Element) : List Item :=
  match child.name with
  | "alphabet" => [.alphabet child]
  | "sdefs" => []
  | "pardefs" => child.elements.map .paradigm
  | "section" => [.entries child]
  | _ => [.unknown child]

def ofDocument (document : Xml.Element) : List Item :=
  .opening document :: document.elements.flatMap ofChild

/-- The paradigm that an item builds, with its entries. -/
def builds? : Item → Option (String × List Xml.Element)
  | .paradigm element => some (element.attr "n", element.elements)
  | .entries element => some (Registry.rootName, element.elements)
  | _ => none

end Item

namespace Compiler

open Reported

/-- A fold over parts that are put one behind the other folds part by part. -/
theorem fold_flat_map {Part Piece State : Type} (step : State → Piece → Reported State)
    (pieces : Part → List Piece) (parts : List Part) (start : State) :
    (parts.flatMap pieces).foldlM step start =
      parts.foldlM (fun state part => (pieces part).foldlM step state) start := by
  induction parts generalizing start with
  | nil => rfl
  | cons part rest ih =>
      rw [List.flatMap_cons, List.foldlM_append, List.foldlM_cons]
      exact bind_congr fun next => ih next

def readItem (compiler : Compiler) : Item → Reported Compiler
  | .opening document => do
      if document.name != "dictionary" then throw (.wrongRoot document.name)
      let compiler := { compiler with mode := Mode.ofType (document.attr "type") }
      Reported.report (.started compiler.mode compiler.options.direction)
      return compiler
  | .alphabet element => compiler.readAlphabet element
  | .paradigm element => compiler.readParadigm element
  | .entries element => compiler.readSection element
  | .unknown element => throw (.unexpectedElement element.name element.line)

theorem read_child_eq (compiler : Compiler) (child : Xml.Element) :
    compiler.readChild child = (Item.ofChild child).foldlM readItem compiler := by
  unfold readChild
  split
  · next name => simp [Item.ofChild, name, readItem]
  · next name => simp [Item.ofChild, name]
  · next name => simp [Item.ofChild, name, List.foldlM_map, readItem]
  · next name => simp [Item.ofChild, name, readItem]
  · simp [Item.ofChild, readItem]

theorem compile_eq (compiler : Compiler) (document : Xml.Element) :
    compiler.compile document = (Item.ofDocument document).foldlM readItem compiler := by
  rw [Item.ofDocument, List.foldlM_cons]
  unfold compile
  simp only [fold_flat_map, readItem, ← read_child_eq]
  cases document.name != "dictionary" with
  | true => rfl
  | false => rfl

/-- Whatever documents a compiler is given, it reads their items one behind the other. -/
theorem compile_all_eq (compiler : Compiler) (documents : List Xml.Element) :
    documents.foldlM compile compiler =
      (documents.flatMap Item.ofDocument).foldlM readItem compiler := by
  simp only [fold_flat_map, ← compile_eq]

/-- All that reading an item can come to when it succeeds. -/
inductive Reads (compiler : Compiler) : Item → Compiler → Prop
  | opening (document : Xml.Element) (name : document.name = "dictionary") :
      Reads compiler (.opening document)
        { compiler with mode := Mode.ofType (document.attr "type") }
  | alphabet (element : Xml.Element) (text : element.elements = []) :
      Reads compiler (.alphabet element) { compiler with
        alphabet := compiler.alphabet.insertAll
          (element.characters.filter fun character => !Text.isBlank character) }
  | paradigm (element : Xml.Element) (paradigm : Transducer) (name : element.name = "pardef")
      (named : element.attr "n" ≠ "") (new : compiler.registry.contains (element.attr "n") = false)
      (built : (compiler.readEntries (element.attr "n") .initial element.elements).Yields
        paradigm) :
      Reads compiler (.paradigm element)
        { compiler with registry := compiler.registry.define (element.attr "n") paradigm }
  | entries (element : Xml.Element) (root : Transducer)
      (built :
        (compiler.readEntries Registry.rootName compiler.registry.root element.elements).Yields
          root) :
      Reads compiler (.entries element)
        { compiler with registry := { compiler.registry with root } }

theorem reads_of_yields {compiler next : Compiler} {item : Item}
    (done : (compiler.readItem item).Yields next) : compiler.Reads item next := by
  cases item with
  | opening document =>
      rw [readItem] at done
      obtain ⟨name, done⟩ := Yields.past done
      have done := Yields.reported done
      obtain rfl := Yields.pure done
      exact .opening document (by simpa using name)
  | alphabet element =>
      rw [readItem, readAlphabet] at done
      split at done
      · exact absurd done not_yields_throw
      · next text =>
        obtain rfl := Yields.pure done
        exact .alphabet element text
  | paradigm element =>
      rw [readItem, readParadigm] at done
      obtain ⟨name, done⟩ := Yields.past done
      obtain ⟨named, done⟩ := Yields.past done
      obtain ⟨new, done⟩ := Yields.past done
      obtain ⟨paradigm, built, done⟩ := done.bind
      have done := Yields.reported done
      obtain rfl := Yields.pure done
      exact .paradigm element paradigm (by simpa using name) (by simpa using named) new built
  | entries element =>
      rw [readItem, readSection] at done
      obtain ⟨root, built, done⟩ := (Yields.after done).bind
      have done := Yields.reported done
      obtain rfl := Yields.pure done
      exact .entries element root built
  | unknown element =>
      rw [readItem] at done
      exact absurd done not_yields_throw

end Compiler

end MorphLex.Dictionary
