/-
CommandHost/Settings/Load.lean

Settings from a file and the environment.

A file is read over the defaults, the environment overrules what it says, and
only then are the settings checked; so the environment can mend a file.
-/
import CommandHost.Settings.Document

namespace CommandHost

/-- Why a file could not be read. -/
inductive FileError where
  | missing (path : String)
  | directory (path : String)
  | other (path reason : String)
  deriving DecidableEq, Repr

def FileError.message : FileError → String
  | missing path => "open " ++ path ++ ": no such file or directory"
  | directory path => "read " ++ path ++ ": is a directory"
  | other path reason => "open " ++ path ++ ": " ++ reason

/-- Why there are no settings. -/
inductive LoadError where
  | unreadable (error : FileError)
  /-- The file is no text in its format, or an entry is not of the kind its setting holds. -/
  | undecodable (path : String)
  | invalid (error : Invalid)
  deriving DecidableEq, Repr

def LoadError.message : LoadError → String
  | unreadable e => "failed to read config file: " ++ e.message
  | undecodable path => "failed to parse config file " ++ path
  | invalid e => e.message

namespace Settings

/-- The settings of a file before the environment overrules them; without a file, the defaults. -/
def ofFile (file : Option (String × Except FileError String)) : Except LoadError Settings :=
  match file with
  | none => .ok {}
  | some (_, .error e) => .error (.unreadable e)
  | some (path, .ok text) =>
    match decode? (FileFormat.ofPath path) text with
    | some s => .ok s
    | none => .error (.undecodable path)

/-- The settings a file and the environment give. -/
def load (file : Option (String × Except FileError String)) (o : Overrides) :
    Except LoadError Settings := do
  let s ← ofFile file
  let s := s.overruled o
  match s.validate with
  | .ok _ => pure s
  | .error e => throw (.invalid e)

end Settings

end CommandHost
