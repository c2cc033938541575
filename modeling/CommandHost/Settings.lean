/-
CommandHost/Settings.lean

The settings of the program: what each means, its default, and which values make
sense.

Settings are read from files and may be overruled by the environment before they
are checked; `validate` then reports the first setting, in the order of the
file, that does not make sense.
-/
import CommandHost.Log
import CommandHost.Policy

namespace CommandHost

/-- The settings, each with its default. -/
structure Settings where
  /-- From which level on log entries are written. -/
  level : String := "warn"
  noColor : Bool := false
  /-- Whether the resolution cache counts events. -/
  statistics : Bool := true
  /-- What touching a disposed context does. -/
  policy : String := "strict"
  /-- How many procedure calls may be nested. -/
  maxDepth : Int64 := 1000
  workers : Int64 := 4
  iterations : Int64 := 1000
  /-- How many iterations pass between redefinitions of commands. -/
  churn : Int64 := 100
  deriving DecidableEq, Repr

/-- The first setting that makes no sense. -/
inductive Invalid where
  | level (given : String)
  | policy (error : PolicyError)
  | maxDepth
  | workers
  | iterations
  | churn
  deriving DecidableEq, Repr

def Invalid.message (e : Invalid) : String :=
  "invalid config: " ++
    match e with
    | level s => "log.level " ++ Text.quoted s
    | policy e => "context.policy: " ++ e.message
    | maxDepth => "interpreter.max_depth must be positive"
    | workers => "workload.workers must be positive"
    | iterations => "workload.iterations must not be negative"
    | churn => "workload.churn must not be negative"

namespace Settings

/-- Checks every setting. -/
def validate (s : Settings) : Except Invalid Unit := do
  if (LogLevel.parse? s.level).isNone then throw (.level s.level)
  match Policy.parse s.policy with
  | .error e => throw (.policy e)
  | .ok _ => pure ()
  if s.maxDepth < 1 then throw .maxDepth
  if s.workers < 1 then throw .workers
  if s.iterations < 0 then throw .iterations
  if s.churn < 0 then throw .churn

/-- The policy the settings ask for; a name without policy asks for `strict`. -/
def chosenPolicy (s : Settings) : Policy := Policy.ofName s.policy

/-- The variables of the environment that overrule settings. -/
structure Overrides where
  level : Option String := none
  policy : Option String := none

/-- Overrules the settings; a variable that is empty overrules nothing. -/
def overruled (s : Settings) (o : Overrides) : Settings :=
  { s with
    level := (o.level.filter (· != "")).getD s.level
    policy := (o.policy.filter (· != "")).getD s.policy }

end Settings

end CommandHost
