import MorphLex.Dictionary.Fault
import MorphLex.Dictionary.Options

/-!
What a compilation reports while it runs. The events before a fault are kept.
-/

namespace MorphLex.Dictionary

inductive SkipReason where
  | otherDirection
  | ignored
  | alternative
  | variant
  | leftVariant
  | rightVariant
deriving DecidableEq

def SkipReason.text : SkipReason → String
  | .otherDirection => "restricted to the other direction"
  | .ignored => "ignored"
  | .alternative => "alternative"
  | .variant => "variant"
  | .leftVariant => "left variant"
  | .rightVariant => "right variant"

inductive Severity where
  | trace
  | debug
  | warn
deriving DecidableEq

def Severity.text : Severity → String
  | .trace => "TRACE"
  | .debug => "DEBUG"
  | .warn => "WARN"

inductive Event where
  | started (mode : Mode) (direction : Direction)
  | skipped (line : Nat) (paradigm : String) (reason : SkipReason)
  | defined (paradigm : String) (states arcs : Nat)
  | unsupportedSection (type : String) (identifier : String) (line : Nat)
  | compiledSection (identifier : String) (states arcs : Nat)
deriving DecidableEq

inductive FieldValue where
  | number (value : Nat)
  | text (value : String)
deriving DecidableEq

namespace Event

def severity : Event → Severity
  | .started _ _ => .debug
  | .skipped _ _ _ => .trace
  | .defined _ _ _ => .debug
  | .unsupportedSection _ _ _ => .warn
  | .compiledSection _ _ _ => .debug

def message : Event → String
  | .started _ _ => "compiling dictionary"
  | .skipped _ _ _ => "skipping entry"
  | .defined _ _ _ => "defined paradigm"
  | .unsupportedSection type _ _ =>
      s!"section type '{type}' is not supported, compiling as standard"
  | .compiledSection _ _ _ => "compiled section"

def fields : Event → List (String × FieldValue)
  | .started mode direction => [("mode", .text mode.text), ("direction", .text direction.text)]
  | .skipped line paradigm reason =>
      [("line", .number line), ("paradigm", .text paradigm), ("reason", .text reason.text)]
  | .defined paradigm states arcs =>
      [("paradigm", .text paradigm), ("states", .number states), ("arcs", .number arcs)]
  | .unsupportedSection _ name line => [("section", .text name), ("line", .number line)]
  | .compiledSection name states arcs =>
      [("section", .text name), ("states", .number states), ("arcs", .number arcs)]

end Event

/-- A computation that reports events and may end in a fault. -/
abbrev Reported := ExceptT Fault (StateM (Array Event))

namespace Reported

def report (event : Event) : Reported Unit := modify (·.push event)

/-- A result that was reached without reporting anything. -/
def silently {Value : Type} (result : Except Fault Value) : Reported Value :=
  ExceptT.mk (pure result)

def outcome {Value : Type} (action : Reported Value) : Array Event × Except Fault Value :=
  let (result, events) := action.run.run #[]
  (events, result)

end Reported

end MorphLex.Dictionary
