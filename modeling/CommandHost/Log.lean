/-
CommandHost/Log.lean

Log entries and their lines.

An entry has a level, a message and fields.  A logger writes the entries from its
level on.  A field value is quoted when it is empty or holds a blank, `=`, `"` or
a character that is not printable; one of several lines stands below its key.
-/
import CommandHost.Text.Blank
import CommandHost.Text.Case
import CommandHost.Text.Quoted
import CommandHost.Text.Width

namespace CommandHost

/-! ### Levels -/

/-- How grave an entry is, from least to most. -/
inductive LogLevel where
  | debug
  | info
  | warn
  | error
  | fatal
  deriving DecidableEq, Repr

namespace LogLevel

def rank : LogLevel → Nat
  | debug => 0
  | info => 1
  | warn => 2
  | error => 3
  | fatal => 4

def name : LogLevel → String
  | debug => "debug"
  | info => "info"
  | warn => "warn"
  | error => "error"
  | fatal => "fatal"

/-- The mark at the start of a line. -/
def mark : LogLevel → String
  | debug => "DEBU"
  | info => "INFO"
  | warn => "WARN"
  | error => "ERRO"
  | fatal => "FATA"

/-- Reads the name of a level in any case. -/
def parse? (s : String) : Option LogLevel :=
  [debug, info, warn, error, fatal].find? fun l => l.name == Text.lower s

/-- The level a logger takes for a name; an unknown name stands for `warn`. -/
def ofName (s : String) : LogLevel := (parse? s).getD warn

end LogLevel

/-! ### Entries -/

/-- One logged event. -/
structure LogEntry where
  level : LogLevel
  message : String
  fields : List (String × String) := []
  deriving DecidableEq, Repr

namespace LogEntry

/-- Whether a field value has to stand in quotes. -/
def needsQuotes (s : String) : Bool :=
  s.toList.isEmpty ||
    s.toList.any fun c =>
      Text.isBlank c || c == '=' || c == '"' || c == '\uFFFD' || !Text.isPrintable c

/-- How a character stands in a field value: unprintable characters have their escape, and a
backslash stands for itself. -/
def fieldChar (c : Char) : List Char :=
  if c = '\\' ∨ c = '"' then [c]
  else if c.toNat = 0x7F then '\\' :: 'u' :: Text.hexDigits 4 0x7F
  else Text.quoteChar c

/-- A quoted field value; a quote in it has a backslash in front. -/
def quoteField (s : String) : String :=
  String.ofList ('"' :: s.toList.flatMap (fun c => if c = '"' then ['\\', '"'] else fieldChar c) ++
    ['"'])

/-- The lines of a field value, each behind a bar.  An empty last line is left out, and the last
line ends with a line end only if `more` fields follow. -/
def barred (more : Bool) : List String → String
  | [] => ""
  | [last] => if last = "" then "" else bar last ++ (if more then "\n" else "")
  | first :: rest => bar first ++ "\n" ++ barred more rest
where
  bar (s : String) : String := "  │ " ++ String.ofList (s.toList.flatMap fieldChar)

/-- A field behind what precedes it on the line.  A value of several lines stands below its key. -/
def fieldText (more : Bool) (f : String × String) : String :=
  if f.2.toList.contains '\n' then "\n  " ++ f.1 ++ "=\n" ++ barred more (f.2.splitOn "\n")
  else " " ++ f.1 ++ "=" ++ (if needsQuotes f.2 then quoteField f.2 else f.2)

/-- All fields, one behind the other. -/
def fieldsText : List (String × String) → String
  | [] => ""
  | f :: rest => fieldText (!rest.isEmpty) f ++ fieldsText rest

/-- A message behind what precedes it on the line: tabs take four columns, and an empty message
takes none. -/
def messageText (s : String) : String :=
  if s = "" then "" else String.ofList (' ' :: Text.expandTabs s.toList)

/-- The line of an entry, without line end. -/
def line (e : LogEntry) : String :=
  e.level.mark ++ messageText e.message ++ fieldsText e.fields

/-- Whether a logger at the given level writes the entry. -/
def isShown (e : LogEntry) (threshold : LogLevel) : Bool :=
  threshold.rank ≤ e.level.rank

end LogEntry

/-! ### The program's logger -/

/-- Entries of the program's own logger carry the place of the call and the program's label. -/
def LogEntry.labelledLine (e : LogEntry) (caller : String) : String :=
  e.level.mark ++ " " ++ caller ++ " INTERPCORE:" ++ messageText e.message ++
    fieldsText e.fields ++ "\n"

/-- What a logger at a level writes for an entry, with its component as the only field. -/
def LogLevel.write (threshold : LogLevel) (caller : String) (level : LogLevel) (message : String)
    (component : Option String) : String :=
  let e : LogEntry := ⟨level, message, (component.map fun c => ("component", c)).toList⟩
  if e.isShown threshold then e.labelledLine caller else ""

end CommandHost
