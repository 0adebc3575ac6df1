import MorphLex.Command.Run
import MorphLex.Proofs.Result

/-!
What a run of the command leaves behind. The transducer is known before the output is opened,
and all of its bytes before any of them is written, so that the output holds either the whole
transducer or nothing of it, and nothing but the output changes.
-/

namespace MorphLex.Command

open Result

/-- Where a transducer is written: the standard output, or a file, by its name. -/
inductive Sink where
  | printed
  | file (name : String)

namespace Sink

/-- Prints the bytes, or puts them into the file in place of what it held. -/
def put : Sink → List UInt8 → Desk → Desk
  | .printed, bytes, desk => { desk with printed := desk.printed ++ bytes }
  | .file name, bytes, desk => { desk with files := desk.files.insert name bytes }

variable {sink : Sink} {bytes : List UInt8} {desk : Desk}

end Sink

section Places

variable {files others : Files} {directory : List Char} {components : List (List Char)}
variable {path name : String} {slash : Bool}

end Places

namespace Arguments

/-- The transducer that was asked for: the root as it was built, or reduced. -/
def chosen (arguments : Arguments) (compiler : Dictionary.Compiler) : Transducer :=
  if arguments.minimize then compiler.root.minimize else compiler.root

variable {arguments : Arguments} {files : Files} {compiler : Dictionary.Compiler} {t : Transducer}
    {desk : Desk}

end Arguments

section Endings

variable {words : List String} {files : Files} {arguments : Arguments}

end Endings

end MorphLex.Command
