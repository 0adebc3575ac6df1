import Std.Data.TreeMap.Basic

/-!
The files that a command can see: those of its working directory by name, and
those it leaves elsewhere by the path that leads there. Apart from the working
directory only the directories above it are known.
-/

namespace MorphLex.Command

inductive PathFault where
  | notFound
  | isDirectory
  | notDirectory
  | notText
  | other (text : String)
deriving DecidableEq

/-- The words of the operating system; `other` carries its own. -/
def PathFault.message : PathFault → String
  | .notFound => "No such file or directory (os error 2)"
  | .isDirectory => "Is a directory (os error 21)"
  | .notDirectory => "Not a directory (os error 20)"
  | .notText => "stream did not contain valid UTF-8"
  | .other text => text

/-- Files by name; the names of files elsewhere contain a slash. -/
abbrev Files := Std.TreeMap String (List UInt8)

namespace Files

/-- What a path means: a directory, a file (present or not, and whether the path
has a slash behind), or nothing, with the reason. -/
inductive Place where
  | directory
  | file (name : String) (slash : Bool)
  | nowhere (fault : PathFault)

/-- The directory around one, each given by the path that leads there. -/
def outer (directory : List Char) : List Char :=
  if directory = ['/'] then directory else directory ++ ['.', '.', '/']

/-- Follows the components of a path from a directory. Only the last one may be
the name of a file; empty ones behind it are slashes. -/
def walk (files : Files) (directory : List Char) : List (List Char) → Place
  | [] => .directory
  | component :: rest =>
      if component.isEmpty || component == ['.'] then walk files directory rest
      else if component == ['.', '.'] then walk files (outer directory) rest
      else
        let name := String.ofList (directory ++ component)
        if rest.all List.isEmpty then .file name !rest.isEmpty
        else .nowhere (if files.contains name then .notDirectory else .notFound)

def place (files : Files) (path : String) : Place :=
  files.walk (if path.toList.head? = some '/' then ['/'] else []) (path.toList.splitOn '/')

def read (files : Files) (path : String) : Except PathFault (List UInt8) :=
  match files.place path with
  | .directory => .error .isDirectory
  | .nowhere fault => .error fault
  | .file name slash =>
      match files[name]? with
      | none => .error .notFound
      | some content => if slash then .error .notDirectory else .ok content

def write (files : Files) (path : String) (content : List UInt8) : Except PathFault Files :=
  match files.place path with
  | .directory => .error .isDirectory
  | .nowhere fault => .error fault
  | .file name slash => if slash then .error .isDirectory else .ok (files.insert name content)

end Files

end MorphLex.Command
