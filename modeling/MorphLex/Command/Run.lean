import MorphLex.Command.Arguments
import MorphLex.Command.Files
import MorphLex.Dictionary.Compiler
import MorphLex.Transducer.AttText
import MorphLex.Transducer.Merge
import MorphLex.Vfst.Encode

/-!
Running the command: a dictionary is read and compiled, and only then the output
is opened and the transducer written to it. The same steps run on the machine
and on a directory that is a value.
-/

namespace MorphLex.Command

def Format.encode (format : Format) (t : Transducer) : Except Vfst.Fault (List UInt8) :=
  match format with
  | .vfst => Vfst.encode t
  | .att => .ok t.attText.toUTF8.toList

inductive Fault where
  | unreadable (path : String) (fault : PathFault)
  | dictionary (fault : Dictionary.Fault)
  | closed (fault : PathFault)
  | unwritable (fault : Vfst.Fault)
deriving DecidableEq

def Fault.message : Fault → String
  | .unreadable path fault => s!"failed to read {path}: " ++ fault.message
  | .dictionary fault => fault.message
  | .closed fault => "failed to write transducer: " ++ fault.message
  | .unwritable fault => "failed to write transducer: " ++ fault.message

/-- What a run needs from the place it runs in. -/
structure Host (m : Type → Type) where
  read : String → m (Except PathFault (List UInt8))
  write : String → List UInt8 → m (Except PathFault Unit)
  print : List UInt8 → m Unit
  report : Dictionary.Event → m Unit

namespace Arguments

/-- The transducer to be written, from the content of the input, with what the
compilation reports. -/
def compile (arguments : Arguments) (content : List UInt8) :
    Array Dictionary.Event × Except Fault Transducer :=
  match String.fromUTF8? ⟨content.toArray⟩ with
  | none => (#[], .error (.unreadable arguments.input .notText))
  | some text =>
      let (events, result) :=
        (({ options := arguments.options } : Dictionary.Compiler).compileText text).outcome
      (events, match result with
        | .error fault => .error (.dictionary fault)
        | .ok compiler =>
            .ok (if arguments.minimize then compiler.root.minimize else compiler.root))

/-- Opens the output, then writes the transducer; an output file is empty while
the bytes are not known. -/
def write {m : Type → Type} [Monad m] (arguments : Arguments) (host : Host m) (t : Transducer) :
    m (Except Fault Unit) := do
  match arguments.output with
  | none =>
      match arguments.format.encode t with
      | .error fault => return .error (.unwritable fault)
      | .ok bytes =>
          host.print bytes
          return .ok ()
  | some path =>
      match ← host.write path [] with
      | .error fault => return .error (.closed fault)
      | .ok () =>
          match arguments.format.encode t with
          | .error fault => return .error (.unwritable fault)
          | .ok bytes => return (← host.write path bytes).mapError .closed

def run {m : Type → Type} [Monad m] (arguments : Arguments) (host : Host m) :
    m (Except Fault Unit) := do
  match ← host.read arguments.input with
  | .error fault => return .error (.unreadable arguments.input fault)
  | .ok content =>
      let (events, result) := arguments.compile content
      events.forM host.report
      match result with
      | .error fault => return .error fault
      | .ok t => arguments.write host t

end Arguments

structure Desk where
  files : Files
  printed : List UInt8 := []

/-- Runs on a directory; reports are dropped. -/
def Desk.host : Host (StateM Desk) where
  read path := return (← get).files.read path
  write path content := do
    let desk ← get
    match desk.files.write path content with
    | .error fault => return .error fault
    | .ok files =>
        set { desk with files }
        return .ok ()
  print content := modify fun desk => { desk with printed := desk.printed ++ content }
  report _ := return ()

/-- How a run ends: its exit status, what it complains about, and what it leaves
behind. -/
structure Outcome where
  status : UInt32
  complaint : Option String
  desk : Desk

def run (words : List String) (files : Files) : Outcome :=
  match Arguments.parse words with
  | .error usage => { status := usage.status, complaint := some usage.message, desk := { files } }
  | .ok arguments =>
      let (result, desk) := (arguments.run Desk.host).run { files }
      match result with
      | .ok () => { status := 0, complaint := none, desk }
      | .error fault => { status := 1, complaint := some ("error: " ++ fault.message), desk }

end MorphLex.Command
