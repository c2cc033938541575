/-
CommandHost/LoadGenerator.lean

A generator of load on one interpreter.

Each worker runs its rounds on its own thread: it sets a variable, bumps a shared
counter through a procedure, squares a number and calls a name nobody defined.
Every so many rounds it redefines its command and renames it away and back, and the
first worker replaces the handler of unknown names.  The workers only meet in
atomic steps of the machine.
-/
import CommandHost.Dispatch

namespace CommandHost

namespace LoadGenerator

open Program Eval Dispatch

/-! ### Counting and logging -/

/-- Changes what a run has counted. -/
def count (run : Nat) (f : Tally → Tally) : Eval Unit :=
  modify fun m => { m with tallies := m.tallies.modify run f }

def log (level : LogLevel) (message : String) (fields : List (String × String)) : Eval Unit :=
  modify (·.logged ⟨level, message, ("component", "workload") :: fields⟩)

/-! ### Commands of the load -/

def squareName (worker : Nat) : String := "square" ++ Number.intText worker

/-- Adds its argument to the shared counter. -/
def bump : Command :=
  .procedure "bump" ["n"]
    [.invoke (.value (.text "incr")) [.value (.text "::counter"), .var "n"]]

/-- Defines the commands that the rounds call. -/
def setup (run workers : Nat) : Eval Unit := do
  define "bump" (some bump)
  (List.range workers).forM fun w => define (squareName w) (some .square)
  define Machine.unknownName (some (.tally run))

/-! ### Workers -/

/-- Invokes a command and counts the call. -/
def call (self : Runner) (run : Nat) (name : String) (args : List Value) : Eval Value :=
  handle (invokeHere self name args) fun
    | .ok v => do
      count run fun t => { t with calls := t.calls + 1 }
      return v
    | .error (.error e) =>
      fail (if e.isScript then .wrapped ("script error in " ++ name) e else e)
    | .error s => stop s

/-- The integer of a value; other values count as zero. -/
def intOf : Value → Int64
  | .int n => n
  | _ => 0

/-- Redefines a worker's command and renames it away and back; the first worker also replaces the
handler of unknown names. -/
def churn (run worker : Nat) : Eval Unit := do
  let name := squareName worker
  define name (some .square)
  rename name (name ++ "_tmp")
  rename (name ++ "_tmp") name
  count run fun t => { t with churned := t.churned + 3 }
  if worker = 0 then
    define Machine.unknownName (some (.tally run))
    count run fun t => { t with churned := t.churned + 1 }

/-- The fields that log entries of a worker carry. -/
def workerFields (worker : Nat) : Eval (List (String × String)) := do
  return [("worker", Number.intText worker), ("thread", Number.intText (← read (·.thread)))]

/-- One round of a worker. -/
def round (self : Runner) (run worker : Nat) (churnEvery : Int) (i : Nat) : Eval Unit := do
  let n := Int64.ofNat i
  let _ ← call self run "set" [.text ("w" ++ Number.intText worker), .int n]
  let _ ← call self run "bump" [.int 1]
  let v ← call self run (squareName worker) [.int n]
  if intOf v ≠ n * n then
    fail (.plain ("worker " ++ Number.intText worker ++ ": " ++ squareName worker ++ " " ++
      Number.intText i ++ " = " ++ v.toText))
  let _ ← call self run ("probe" ++ Number.intText worker) []
  if 0 < churnEvery ∧ i % churnEvery = churnEvery - 1 then
    churn run worker
    log .debug "commands churned" ((← workerFields worker) ++ [("iteration", Number.intText i)])

/-- The rounds from `i` on, `left` of them; a cancelled run stops before its next round. -/
def rounds (self : Runner) (run worker : Nat) (churnEvery : Int) (cancelled : Bool) :
    Nat → Nat → Eval Unit
  | _, 0 => done ()
  | i, left + 1 => do
    if cancelled then fail (.plain "context canceled")
    round self run worker churnEvery i
    rounds self run worker churnEvery cancelled (i + 1) left

/-- A worker: its rounds, and the release of its thread's context whatever happens. -/
def worker (self : Runner) (run : Nat) (size : Load) (cancelled : Bool) (w : Nat) : Eval Unit :=
  always (do let _ ← change (·.release)) do
    log .debug "worker started" (← workerFields w)
    rounds self run w size.churn cancelled 0 size.iterations.toNat
    log .debug "worker done" (← workerFields w)

/-- Runs a worker on the thread it belongs to. -/
def onThread (thread : ThreadId) (native : Bool) (w : Nat) (p : Eval Unit) : Eval Unit :=
  if native then do
    modify fun m => { m with thread := thread + 1 + w }
    always (modify fun m => { m with thread }) p
  else p

/-- Runs the given workers one after the other.  The first error cancels those that follow, and in
the end it is the error of all. -/
def runWorkers (self : Runner) (run : Nat) (size : Load) (thread : ThreadId) (native : Bool) :
    Option Error → List Nat → Eval Unit
  | first, [] =>
    match first with
    | none => done ()
    | some e => fail e
  | first, w :: ws =>
    handle (onThread thread native w
        (worker self run size (size.cancelled || first.isSome) w)) fun
      | .ok _ => runWorkers self run size thread native first ws
      | .error (.error e) => runWorkers self run size thread native (first.or (some e)) ws
      | .error s => stop s

/-! ### Runs -/

/-- Starts counting for a run, whose number comes out. -/
def enrol : Eval Nat := change fun m => (m.tallies.size, { m with tallies := m.tallies.push {} })

def announce (workers : Int) (size : Load) : Eval Unit :=
  log .info "starting workload" [("workers", Number.intText workers),
    ("iterations", Number.intText size.iterations), ("churn", Number.intText size.churn)]

/-- What a run has come to. -/
def report (run : Nat) (workers : Int) (m : Machine) : LoadReport :=
  let counter := ((m.frames.get? Machine.globalFrame).bind (·.get? "counter")).getD .empty
  { workers, tally := m.tallies[run]?.getD {}, contexts := m.contextCount
    counter := counter.toInt.toOption.getD 0 }

/-- Reports what a run has come to. -/
def finish (run : Nat) (workers : Int) : Eval LoadReport := do
  let result ← read (report run workers)
  log .info "workload finished"
    [("calls", Number.intText result.tally.calls.toInt), ("elapsed", "0s")]
  return result

/-- Runs the load and reports what it came to. -/
def run (self : Runner) (size : Load) : Eval LoadReport := do
  let workers := max 1 size.workers
  let n ← enrol
  handle (setup n workers.toNat) fun
    | .error (.error e) => fail (.wrapped "workload setup failed" e)
    | .error s => stop s
    | .ok _ => do
      announce workers size
      let thread ← read (·.thread)
      let native ← read (·.nativeThreads)
      runWorkers self n size thread native none (List.range workers.toNat)
      finish n workers

end LoadGenerator

end CommandHost
