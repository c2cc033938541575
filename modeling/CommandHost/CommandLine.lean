/-
CommandHost/CommandLine.lean

The commands of the program.

Both commands load the settings, let the flags overrule them, start logging and
choose the disposed policy.  `config` then writes the settings out; `run` sets an
interpreter up, puts a load on it and reports what it came to.  Everything the
program takes from its surroundings is an argument, and everything it leaves
behind is part of the outcome.
-/
import CommandHost.CommandLine.Request
import CommandHost.Evaluation
import CommandHost.Report.Lines
import CommandHost.Settings.Load

namespace CommandHost.CommandLine

/-! ### Outcomes -/

/-- What a command finds when it starts. -/
structure Surroundings where
  overrides : Settings.Overrides := {}
  /-- What reading the file at a path gives. -/
  file : String → Except FileError String
  policy : PolicyState := {}
  /-- The name of the interpreter a run sets up. -/
  interpreter : String

/-- Why a command failed. -/
inductive Failure where
  | usage (error : UsageError)
  | load (error : LoadError)
  | policy (error : PolicyError)
  | format (error : UnknownFormat)
  | run (error : Error)
  /-- A run that a fault or its bound ended. -/
  | stopped
  deriving DecidableEq, Repr

def Failure.message : Failure → String
  | usage e => e.message
  | load e => e.message
  | policy e => e.message
  | format e => e.message
  | run e => e.message
  | stopped => "run stopped"

/-- What a run came to. -/
structure RunReport where
  load : LoadReport
  /-- The number of cached resolutions and their counters, if the cache was used. -/
  cache : Option (Nat × Option Statistics)
  policy : Policy
  interpreter : String

/-- What a command shows. -/
inductive Output where
  | nothing
  | text (s : String)
  | report (r : RunReport)

/-- What a command leaves behind. -/
structure Outcome where
  output : Output := .nothing
  failure : Option Failure := none
  /-- The level of the program's logger. -/
  level : LogLevel := .info
  policy : PolicyState

/-! ### Reports -/

/-- The lines of the report on a run that took the given time. -/
def RunReport.lines (r : RunReport) (elapsed : String) : List String :=
  let l := r.load
  ["workload",
    Report.numberRow "workers" l.workers,
    Report.numberRow "calls" l.tally.calls.toInt,
    Report.numberRow "unknown" l.tally.unknown.toInt,
    Report.numberRow "churned" l.tally.churned.toInt,
    Report.numberRow "counter" l.counter.toInt,
    Report.row "elapsed" elapsed,
    "",
    match r.cache with
    | some (count, stats) => Report.cacheReport count stats false
    | none => "command cache unused",
    ""] ++
  (if 0 < l.contexts then
    [Report.warningLine (Number.intText l.contexts ++ " execution contexts still held after the run")]
  else []) ++
  [Report.successLine ("policy " ++ r.policy.name ++ ", interpreter " ++ r.interpreter)]

/-- What a command writes to its output, if its run took the given time. -/
def Outcome.stdout (o : Outcome) (elapsed : String) : String :=
  match o.output with
  | .nothing => ""
  | .text s => s
  | .report r => String.join ((r.lines elapsed).map (· ++ "\n"))

/-- What a command writes beside its output: why it failed, unless it was called wrongly. -/
def Outcome.stderr (o : Outcome) : String :=
  match o.failure with
  | none => ""
  | some (.usage _) => ""
  | some f => Report.errorLine f.message ++ "\n"

/-! ### Commands -/

/-- The settings a command works with, and the logger and policy they put in force. -/
structure Prepared where
  settings : Settings
  level : LogLevel
  policy : PolicyState

/-- Loads the settings, lets the flags overrule them, and puts them in force. -/
def prepare (s : Surroundings) (o : Options) : Except Outcome Prepared :=
  let file := if o.configFile = "" then none else some (o.configFile, s.file o.configFile)
  match Settings.load file s.overrides with
  | .error e => .error { failure := some (.load e), policy := s.policy }
  | .ok settings =>
    let settings := if o.verbose then { settings with level := "debug" } else settings
    let settings := if o.noColor then { settings with noColor := true } else settings
    let level := LogLevel.ofName settings.level
    match s.policy.choose settings.chosenPolicy with
    | .error e => .error { failure := some (.policy e), level, policy := s.policy }
    | .ok policy => .ok ⟨settings, level, policy⟩

/-- Writes the settings in the format the flags ask for. -/
def showSettings (p : Prepared) (o : Options) : Outcome :=
  match FileFormat.parse o.format with
  | .error e => { failure := some (.format e), level := p.level, policy := p.policy }
  | .ok f => { output := .text (p.settings.encode f), level := p.level, policy := p.policy }

/-- What became of the cache of an interpreter, if it was used. -/
def cacheUse (m : Machine) : Option (Nat × Option Statistics) :=
  if m.cache.haveCounts then some (m.cache.count, m.cache.stats) else none

/-- Puts a load on a new interpreter. -/
def runLoad (interpreter : String) (p : Prepared) : Outcome :=
  let s := p.settings
  let m := Machine.start
    { id := interpreter, statistics := s.statistics, maxDepth := s.maxDepth.toInt
      writer := .elsewhere, policy := p.policy, nativeThreads := true }
  let size : Load := { workers := s.workers.toInt, iterations := s.iterations.toInt
                       churn := s.churn.toInt }
  let (called, m) := m.perform (.load size)
  let base : Outcome := { level := p.level, policy := m.policy }
  match called.outcome with
  | .ok (.load r) =>
    { base with output := .report ⟨r, cacheUse m, m.policy.current, interpreter⟩ }
  | .error (.error e) => { base with failure := some (.run e) }
  | _ => { base with failure := some .stopped }

/-- Puts a load of the size the flags ask for on a new interpreter, if that size makes sense. -/
def run (interpreter : String) (p : Prepared) (o : Options) : Outcome :=
  let settings := { p.settings with
    workers := o.workers.getD p.settings.workers
    iterations := o.iterations.getD p.settings.iterations }
  match settings.validate with
  | .error e => { failure := some (.load (.invalid e)), level := p.level, policy := p.policy }
  | .ok _ => runLoad interpreter { p with settings }

/-- Carries out what a command line asks for. -/
def perform (s : Surroundings) (args : List String) : Outcome :=
  match Request.parse args with
  | .error e => { failure := some (.usage e), policy := s.policy }
  | .ok .help => { policy := s.policy }
  | .ok (.command c o) =>
    match prepare s o with
    | .error outcome => outcome
    | .ok p =>
      match c with
      | .config => showSettings p o
      | .run => run s.interpreter p o

end CommandHost.CommandLine
