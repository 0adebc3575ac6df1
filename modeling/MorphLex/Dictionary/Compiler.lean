import MorphLex.Dictionary.Entry
import MorphLex.Xml.Document

/-!
Compiling dictionaries. One compiler may be given several documents; their
sections add to the same root, and paradigms stay defined.
-/

namespace MorphLex.Dictionary

structure Compiler where
  options : Options
  mode : Mode := .standard
  alphabet : CharSet := .empty
  registry : Registry := {}

namespace Compiler

/-- What the entries of a paradigm are read against. -/
def scope (compiler : Compiler) (name : String) : Scope :=
  { options := compiler.options, mode := compiler.mode, alphabet := compiler.alphabet
    registry := compiler.registry, name }

def readEntries (compiler : Compiler) (name : String) (t : Transducer)
    (entries : List Xml.Element) : Reported Transducer :=
  entries.foldlM (fun t entry => do
    if entry.name != "e" then throw (.unexpectedElement entry.name entry.line)
    (compiler.scope name).addEntry t entry) t

/-- Adds the characters of an alphabet element; white space is layout. -/
def readAlphabet (compiler : Compiler) (element : Xml.Element) : Reported Compiler :=
  match element.elements with
  | child :: _ => throw (.unexpectedElement child.name child.line)
  | [] =>
      let characters := element.characters.filter fun character => !Text.isBlank character
      return { compiler with alphabet := compiler.alphabet.insertAll characters }

def readParadigm (compiler : Compiler) (element : Xml.Element) : Reported Compiler := do
  if element.name != "pardef" then throw (.unexpectedElement element.name element.line)
  let name := element.attr "n"
  if name.isEmpty then throw (.unnamedParadigm element.line)
  if compiler.registry.contains name then throw (.duplicateParadigm name element.line)
  let paradigm ← compiler.readEntries name .initial element.elements
  Reported.report (.defined name paradigm.size paradigm.arcCount)
  return { compiler with registry := compiler.registry.define name paradigm }

/-- Extends the root by the entries of a section, whatever its type. -/
def readSection (compiler : Compiler) (element : Xml.Element) : Reported Compiler := do
  let name := element.attr "id"
  let type := element.attr "type"
  if !type.isEmpty && type != "standard" then
    Reported.report (.unsupportedSection type name element.line)
  let root ← compiler.readEntries Registry.rootName compiler.registry.root element.elements
  Reported.report (.compiledSection name root.size root.arcCount)
  return { compiler with registry := { compiler.registry with root } }

/-- Reads a child of the dictionary. Symbol definitions carry no information. -/
def readChild (compiler : Compiler) (element : Xml.Element) : Reported Compiler :=
  match element.name with
  | "alphabet" => compiler.readAlphabet element
  | "sdefs" => return compiler
  | "pardefs" => element.elements.foldlM readParadigm compiler
  | "section" => compiler.readSection element
  | name => throw (.unexpectedElement name element.line)

def compile (compiler : Compiler) (root : Xml.Element) : Reported Compiler := do
  if root.name != "dictionary" then throw (.wrongRoot root.name)
  let compiler := { compiler with mode := Mode.ofType (root.attr "type") }
  Reported.report (.started compiler.mode compiler.options.direction)
  root.elements.foldlM readChild compiler

def compileText (compiler : Compiler) (text : String) : Reported Compiler :=
  match Xml.parse text with
  | some root => compiler.compile root
  | none => throw .malformed

def root (compiler : Compiler) : Transducer := compiler.registry.root

end Compiler

end MorphLex.Dictionary
