/-
CommandHost/Main.lean

The program: it takes arguments, environment and file from the system, and writes
what the command shows.
-/
import CommandHost.CommandLine
import CommandHost.Text.Duration

namespace CommandHost.Terminal

/-- The variables of the environment that overrule settings. -/
def readVariables : IO Settings.Overrides := do
  return { level := ← IO.getEnv "INTERPCORE_LOG_LEVEL", policy := ← IO.getEnv "INTERPCORE_POLICY" }

/-- What reading a file gives. -/
def readText (path : String) : IO (Except FileError String) := do
  try
    return .ok (← IO.FS.readFile path)
  catch e =>
    match e with
    | .noFileOrDirectory .. => return .error (.missing path)
    | .inappropriateType .. => return .error (.directory path)
    | e => return .error (.other path (toString e))

/-- The path of the settings file a command line names. -/
def settingsPath (args : List String) : String :=
  match CommandLine.Request.parse args with
  | .ok (.command _ o) => o.configFile
  | _ => ""

/-- A random name: 32 hexadecimal digits in groups, of which one tells the kind of the name and one
its variant. -/
def randomName : IO String := do
  let mut digits := #[]
  for i in [0:32] do
    let d ← IO.rand 0 15
    let d := if i = 12 then 4 else if i = 16 then 8 + d % 4 else d
    digits := digits.push (Nat.digitChar d)
  let ds := digits.toList
  let groups := [ds.take 8, (ds.drop 8).take 4, (ds.drop 12).take 4, (ds.drop 16).take 4, ds.drop 20]
  return "-".intercalate (groups.map String.ofList)

/-- Carries out a command line and returns the program's exit code. -/
def execute (args : List String) : IO UInt32 := do
  let path := settingsPath args
  let content ← if path = "" then pure (.error (.missing path)) else readText path
  let surroundings : CommandLine.Surroundings :=
    { overrides := ← readVariables, file := fun _ => content, interpreter := ← randomName }
  let start ← IO.monoNanosNow
  let outcome := CommandLine.perform surroundings args
  let failed := outcome.failure.isSome
  let stop ← if failed then pure start else IO.monoNanosNow
  IO.print (outcome.stdout (Text.durationText ((stop - start) / 1000)))
  IO.eprint outcome.stderr
  return if failed then 1 else 0

end CommandHost.Terminal

def main (args : List String) : IO UInt32 := CommandHost.Terminal.execute args
