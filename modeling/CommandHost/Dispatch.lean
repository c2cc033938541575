/-
CommandHost/Dispatch.lean

Invoking commands.

An invocation checks that the current thread owns the context, resolves the name
and executes what it resolves to.  Procedures, `uplevel` and scopes move the frame
slots of the context for the time of a body and put them back whatever the outcome.
A fault that a body raises travels up to the nearest invocation, which reports it
as an error.

How bodies are run and how names are resolved is a `Runner`, which all of this is a
function of; the evaluator of bodies is tied together in `CommandHost.Evaluation`.
-/
import CommandHost.Builtin

namespace CommandHost

/-- What dispatch is a function of. -/
structure Runner where
  /-- What a name resolves to; an unknown name is an error. -/
  resolve : String → Eval Resolution
  /-- Runs a body for a running command. -/
  body : Invocation → List Stmt → Eval Value

namespace Dispatch

open Program Eval

/-! ### Moving through frames -/

/-- The frame `level` frames above the current one; level 0 is the current frame itself, and the
outermost frame is the one that stands for the global one. -/
def frameAbove (inv : Invocation) (level : Int) : Eval (Option FrameId) := do
  let target := (← Invocation.levelOf (← inv.frame)) - level
  if level < 0 ∨ target < 0 then
    fail (inv.error .badLevel (Number.intText level))
  else
    let outermost ← readCurrentGlobal inv.context
    if 0 < target then
      match (← readStack inv.context).bind (·.atLevel? target) with
      | some f => return some f
      | none => fail (inv.error .badLevel (Number.intText level))
    else return outermost

/-- Moves a context to other frames. -/
def moveTo (id : ContextId) (current uplevel : Option FrameId) : Eval Unit := do
  writeFrame id .current current
  writeFrame id .uplevel uplevel

/-- Runs `p` with the current frame moved to another frame. -/
def inFrame (id : ContextId) (frame : Option FrameId) (p : Eval Value) : Eval Value := do
  let current ← readFrame id .current
  let before ← readFrame id .uplevel
  moveTo id frame frame
  always (moveTo id current before) p

/-- Runs `p` with the current frame moved up by `level` frames. -/
def uplevel (inv : Invocation) (level : Int) (p : Eval Value) : Eval Value := do
  inFrame inv.context (← frameAbove inv level) p

/-- Runs `p` with a scope frame standing in for the global frame. -/
def inScope (inv : Invocation) (scope : Option FrameId) (p : Eval Value) : Eval Value :=
  match scope with
  | none => misuse .noFrame
  | some f => do
    let before ← readFrame inv.context .scope
    writeFrame inv.context .scope (some f)
    always (writeFrame inv.context .scope before) p

/-! ### Calling procedures -/

/-- A pending return becomes the result. -/
def takeReturn (p : Eval Value) : Eval Value :=
  handle p fun
    | .error (.error e) =>
      match e.returned? with
      | some v => done v
      | none => fail e
    | outcome => ofExcept outcome

/-- Makes the frame of a procedure call, which binds the parameters. -/
def callFrame (inv : Invocation) (name : String) (params : List String) (args : List Value) :
    Eval FrameId :=
  if args.length ≠ params.length then
    Builtin.wrongArgs inv (" ".intercalate params)
  else do
    match ← readStack inv.context with
    | none => misuse .noFrame
    | some stack =>
      let maxDepth ← read (·.maxDepth)
      if maxDepth ≤ stack.depth then
        fail (inv.error .tooDeep ("limit " ++ Number.intText maxDepth))
      else allocFrame (.ofCall name (stack.depth + 1) params args)

/-- Moves a context into the frame of a procedure call. -/
def enterCall (id : ContextId) (frame : FrameId) : Eval Unit := do
  modifyStack id (·.push frame)
  writeFrame id .current (some frame)
  writeFrame id .procedure (some frame)

/-- Moves a context out of the frame of a procedure call, back to the frames it had before. -/
def leaveCall (id : ContextId) (frame : FrameId) (current procedure : Option FrameId) :
    Eval Unit := do
  modifyStack id (·.pop)
  modifyFrame frame (·.dispose)
  writeFrame id .current current
  writeFrame id .procedure procedure

/-- Runs `p` in the frame of a procedure call. -/
def inCall (id : ContextId) (frame : FrameId) (p : Eval Value) : Eval Value := do
  let current ← readFrame id .current
  let procedure ← readFrame id .procedure
  enterCall id frame
  always (leaveCall id frame current procedure) p

/-- Calls a procedure: `p` runs in a fresh frame that binds the parameters. -/
def callProcedure (inv : Invocation) (name : String) (params : List String) (args : List Value)
    (p : Eval Value) : Eval Value := do
  let frame ← callFrame inv name params args
  takeReturn (inCall inv.context frame p)

/-! ### Executing -/

/-- The square of the one argument. -/
def square (inv : Invocation) (args : List Value) : Eval Value :=
  match args with
  | [v] =>
    match v.toInt with
    | .ok n => done (.int (n * n))
    | .error e => fail (.plain e.message)
  | _ => fail (.wrapped inv.name (.bare .wrongArgs))

/-- Counts a call of an unknown name for a run of the load generator. -/
def countUnknown (run : Nat) : Eval Unit :=
  modify fun m =>
    { m with tallies := m.tallies.modify run fun t => { t with unknown := t.unknown + 1 } }

/-- Executes a command. -/
def execute (self : Runner) (command : Command) (inv : Invocation) (args : List Value) :
    Eval Value :=
  match command with
  | .builtin b => b.run inv args
  | .function body => self.body { inv with args } body
  | .procedure name params body =>
    callProcedure inv name params args (self.body { inv with args := [] } body)
  | .square => square inv args
  | .tally run => do
    countUnknown run
    return .empty

/-- Executes what a name resolved to; the handler of unknown names gets the name as its first
argument. -/
def executeResolved (self : Runner) (r : Resolution) (inv : Invocation) (args : List Value) :
    Eval Value :=
  match r with
  | .direct command => execute self command inv args
  | .unknown handler name => execute self handler inv (.text name :: args)

/-! ### Invoking -/

/-- A fault becomes an error of the invocation of `name`. -/
def reportFault (name : String) (p : Eval Value) : Eval Value :=
  handle p fun
    | .error (.fault a) => do
      logHere .error "disposed execution context used" [("command", name), ("op", a.name)]
      fail (.faulted a)
    | outcome => ofExcept outcome

/-- Invokes a command on a context. -/
def invoke (self : Runner) (id : Option ContextId) (name : String) (args : List Value) :
    Eval Value :=
  reportFault name do
    match id, ← read (·.canUse id) with
    | some context, true =>
      let r ← self.resolve name
      executeResolved self r { context, name } args
    | _, _ => misuse .wrongThread

/-- A return that escaped every procedure is an error. -/
def topLevel (p : Eval Value) : Eval Value :=
  handle p fun
    | .error (.error e) =>
      match e.returned? with
      | some _ => fail (.script "return" .notInProcedure "")
      | none => fail e
    | outcome => ofExcept outcome

/-- Invokes a command on the current thread's context. -/
def invokeHere (self : Runner) (name : String) (args : List Value) : Eval Value := do
  let id ← Eval.context
  topLevel (invoke self (some id) name args)

/-- Invokes a command on a given context, which has to belong to the current thread. -/
def invokeIn (self : Runner) (id : Option ContextId) (name : String) (args : List Value) :
    Eval Value := do
  if ← read (·.disposed) then misuse .interpreterDisposed
  else topLevel (invoke self id name args)

end Dispatch

end CommandHost
