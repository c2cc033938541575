/-
CommandHost/Settings/Format.lean

The two formats of settings files, and which of them a name or a path asks for.
-/
import CommandHost.Text.Case
import CommandHost.Text.Quoted

namespace CommandHost

/-- A format of settings files. -/
inductive FileFormat where
  | toml
  | yaml
  deriving DecidableEq, Repr

/-- The name of no format. -/
structure UnknownFormat where
  given : String
  deriving DecidableEq, Repr

def UnknownFormat.message (e : UnknownFormat) : String :=
  "unknown config format: " ++ Text.quoted e.given

namespace FileFormat

def name : FileFormat → String
  | toml => "toml"
  | yaml => "yaml"

/-- The format a name stands for, in any case; no name stands for TOML. -/
def parse (s : String) : Except UnknownFormat FileFormat :=
  match Text.lower s with
  | "toml" => .ok toml
  | "" => .ok toml
  | "yaml" => .ok yaml
  | "yml" => .ok yaml
  | _ => .error ⟨s⟩

/-- The last part of a path from its last dot on; nothing if that part has no dot. -/
def extension (path : String) : String :=
  let last := (path.toList.reverse.takeWhile (· != '/')).reverse
  let after := (last.reverse.takeWhile (· != '.')).reverse
  if last.contains '.' then String.ofList ('.' :: after) else ""

/-- The format of a file, by the extension of its path; TOML unless it says otherwise. -/
def ofPath (path : String) : FileFormat :=
  match Text.lower (extension path) with
  | ".yaml" => yaml
  | ".yml" => yaml
  | _ => toml

end FileFormat

end CommandHost
