import MorphLex.Dictionary.Options

/-!
The command line: options anywhere, a direction, and the path of a dictionary.
Words are taken from left to right and the first one at fault ends the reading.
-/

namespace MorphLex.Command

inductive Format where
  | vfst
  | att
deriving DecidableEq, Inhabited

def Format.ofText? : String → Option Format
  | "vfst" => some .vfst
  | "att" => some .att
  | _ => none

inductive Setting where
  | output
  | format
  | alternative
  | variant
  | leftVariant
  | rightVariant
  | keepBoundaries
  | keepStates
  | verbose
  | help
deriving DecidableEq

namespace Setting

def ofLetter? : Char → Option Setting
  | 'o' => some .output
  | 'f' => some .format
  | 'a' => some .alternative
  | 'l' => some .leftVariant
  | 'r' => some .rightVariant
  | 'm' => some .keepBoundaries
  | 'v' => some .verbose
  | 'h' => some .help
  | _ => none

def ofName? : String → Option Setting
  | "output" => some .output
  | "format" => some .format
  | "alt" => some .alternative
  | "var" => some .variant
  | "var-left" => some .leftVariant
  | "var-right" => some .rightVariant
  | "keep-boundaries" => some .keepBoundaries
  | "no-minimize" => some .keepStates
  | "verbose" => some .verbose
  | "help" => some .help
  | _ => none

def takesValue : Setting → Bool
  | .keepBoundaries | .keepStates | .verbose | .help => false
  | _ => true

/-- Values of variants may be anything, also empty. -/
def admits (value : String) : Setting → Bool
  | .output => !value.isEmpty
  | .format => (Format.ofText? value).isSome
  | _ => true

end Setting

inductive Usage where
  | help
  | unknownSetting (text : String)
  | repeated (setting : Setting)
  | missingValue (setting : Setting)
  | unexpectedValue (setting : Setting)
  | invalidValue (value : String)
  | unexpectedArgument (text : String)
  | missingArgument
deriving DecidableEq

/-- Asking for help is no fault. -/
def Usage.status : Usage → UInt32
  | .help => 0
  | _ => 2

def Usage.message : Usage → String
  | .help => "morphlex [OPTIONS] DIRECTION INPUT"
  | .unknownSetting text => s!"unknown option {text}"
  | .repeated _ => "an option is given twice"
  | .missingValue _ => "an option lacks its value"
  | .unexpectedValue _ => "an option without a value is given one"
  | .invalidValue value => s!"invalid value '{value}'"
  | .unexpectedArgument text => s!"unexpected argument '{text}'"
  | .missingArgument => "a direction and a dictionary are needed"

structure Arguments where
  options : Dictionary.Options
  input : String
  /-- Where to write; none for the standard output. -/
  output : Option String := none
  format : Format := .vfst
  minimize : Bool := true
  verbose : Bool := false
deriving DecidableEq, Inhabited

/-- What a part of the command line says: options with their values, empty for
those that take none, and the other words in order. -/
structure Given where
  settings : List (Setting × String) := []
  words : List String := []

namespace Given

def value? (given : Given) (setting : Setting) : Option String := given.settings.lookup setting

def has (given : Given) (setting : Setting) : Bool := (given.value? setting).isSome

def set (given : Given) (setting : Setting) (value : String) : Except Usage Given :=
  if setting = .help then .error .help
  else if given.has setting then .error (.repeated setting)
  else if setting.admits value then
    .ok { given with settings := (setting, value) :: given.settings }
  else .error (.invalidValue value)

/-- Adds a word that is no option: the direction, then the input. -/
def addWord (given : Given) (word : String) : Except Usage Given :=
  match given.words with
  | [] =>
      if (Dictionary.Direction.ofText? word).isSome then .ok { given with words := [word] }
      else .error (.invalidValue word)
  | [direction] =>
      if word.isEmpty then .error (.invalidValue word)
      else .ok { given with words := [direction, word] }
  | _ => .error (.unexpectedArgument word)

/-- Reads what follows two hyphens: a name, and a value behind an equals sign.
Returns the option that still waits for its value. -/
def addLong (given : Given) (text : List Char) : Except Usage (Given × Option Setting) := do
  let name := String.ofList (text.takeWhile (· != '='))
  let some setting := Setting.ofName? name | throw (.unknownSetting name)
  match text.dropWhile (· != '='), setting.takesValue with
  | [], true => return (given, some setting)
  | [], false => return (← given.set setting "", none)
  | _ :: value, true => return (← given.set setting (String.ofList value), none)
  | _ :: _, false => throw (.unexpectedValue setting)

/-- Reads the letters behind a single hyphen. What follows the first one that
takes a value is the value; an equals sign in front of it is dropped. -/
def addShort (given : Given) : List Char → Except Usage (Given × Option Setting)
  | [] => .ok (given, none)
  | letter :: rest =>
      match Setting.ofLetter? letter with
      | none => .error (.unknownSetting (String.singleton letter))
      | some setting =>
          if setting.takesValue then
            match rest with
            | [] => .ok (given, some setting)
            | '=' :: value => do return (← given.set setting (String.ofList value), none)
            | value => do return (← given.set setting (String.ofList value), none)
          else do (← given.set setting "").addShort rest

/-- Reads the words of the command line. A pending option takes the next word,
unless that is an option or the mark behind which there are none. -/
def read (given : Given) (pending : Option Setting) : List String → Except Usage Given
  | [] =>
      match pending with
      | none => .ok given
      | some setting => .error (.missingValue setting)
  | word :: rest =>
      match word.toList, pending with
      | '-' :: _ :: _, some setting => .error (.missingValue setting)
      | ['-', '-'], none => rest.foldlM addWord given
      | '-' :: '-' :: text, none => do
          let (given, pending) ← given.addLong text
          given.read pending rest
      | '-' :: letter :: letters, none => do
          let (given, pending) ← given.addShort (letter :: letters)
          given.read pending rest
      | _, some setting => do (← given.set setting word).read none rest
      | _, none => do (← given.addWord word).read none rest

end Given

def Arguments.parse (words : List String) : Except Usage Arguments := do
  let given ← ({} : Given).read none words
  match given.words with
  | [direction, input] =>
      let some direction := Dictionary.Direction.ofText? direction | throw (.invalidValue direction)
      return {
        options := {
          direction
          alternative := given.value? .alternative
          variant := given.value? .variant
          leftVariant := given.value? .leftVariant
          rightVariant := given.value? .rightVariant
          keepBoundaries := given.has .keepBoundaries }
        input
        output := given.value? .output
        format := ((given.value? .format).bind Format.ofText?).getD .vfst
        minimize := !given.has .keepStates
        verbose := given.has .verbose }
  | _ => throw .missingArgument

end MorphLex.Command
