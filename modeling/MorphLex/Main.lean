import MorphLex.Command.Run

/-!
The command on this machine: paths are files, reports go to the standard error.
-/

namespace MorphLex.Command

/-- The fault that an error of the operating system stands for. -/
def PathFault.ofError : IO.Error → PathFault
  | .noFileOrDirectory .. => .notFound
  | .inappropriateType .. => .isDirectory
  | error => .other (toString error)

/-- Reports below debugging are never shown, those below a warning only on
request. -/
def shows (verbose : Bool) (severity : Dictionary.Severity) : Bool :=
  match severity with
  | .warn => true
  | .debug => verbose
  | .trace => false

def machine (verbose : Bool) : Host IO where
  read path := do
    try
      return .ok (← IO.FS.readBinFile path).toList
    catch error => return .error (.ofError error)
  write path content := do
    try
      IO.FS.writeBinFile path ⟨content.toArray⟩
      return .ok ()
    catch error => return .error (.ofError error)
  print content := do
    let stdout ← IO.getStdout
    stdout.write ⟨content.toArray⟩
    stdout.flush
  report event := do
    if shows verbose event.severity then
      IO.eprintln s!"{event.severity.text} {event.message}"

def serve (words : List String) : IO UInt32 := do
  match Arguments.parse words with
  | .error usage =>
      IO.eprintln usage.message
      return usage.status
  | .ok arguments =>
      match ← arguments.run (machine arguments.verbose) with
      | .ok () => return 0
      | .error fault =>
          IO.eprintln ("error: " ++ fault.message)
          return 1

end MorphLex.Command

def main (words : List String) : IO UInt32 := MorphLex.Command.serve words
