/-
CommandHost/Evaluation.lean

The evaluator of bodies.

A body's value is the value of its last statement; an error stops it.  Bodies
nest: statements run bodies, and so do the commands they invoke.  The evaluator is
bounded by how deeply bodies may nest, and says so when that does not suffice
(`Stop.exhausted`), so it is total.
-/
import CommandHost.Host

namespace CommandHost

namespace Evaluation

open Program Eval

/-! ### Operands -/

/-- The value of an operand; `last` is the value of the statement before. -/
def operand (inv : Invocation) (last : Value) : Expr → Eval Value
  | .value v => done v
  | .var name => inv.getVar name
  | .arg i => done (if 0 ≤ i then inv.args[i.toNat]?.getD .empty else .empty)
  | .argCount => done (.int (Int64.ofNat inv.args.length))
  | .last => done last
  | .commandName => done (.text inv.name)

/-- The values of operands, from left to right. -/
def operands (inv : Invocation) (last : Value) : List Expr → Eval (List Value)
  | [] => done []
  | e :: es => do
    let v ← operand inv last e
    return v :: (← operands inv last es)

/-! ### Statements -/

/-- What the current frame looks like. -/
def viewFrame (inv : Invocation) : Eval FrameView := do
  let f ← inv.frame
  let g ← inv.globalFrame
  read fun m =>
    let frame := (m.frames.get? f).getD ⟨"", ⟨0⟩, 0, ∅, false⟩
    ⟨frame.name, frame.level, frame.flags, frame.bindings, frame.disposed, m.frameName g⟩

/-- Runs a statement; nested bodies are run by `self`. -/
def statement (self : Runner) (inv : Invocation) (last : Value) : Stmt → Eval Value
  | .value e => operand inv last e
  | .invoke name args => do
    let name ← operand inv last name
    let args ← operands inv last args
    Dispatch.invoke self (some inv.context) name.toText args
  | .get name => do inv.getVar (← operand inv last name).toText
  | .set name e => do
    let name ← operand inv last name
    let v ← operand inv last e
    inv.setVar name.toText v
    return v
  | .unset name => do
    inv.unsetVar (← operand inv last name).toText
    return .empty
  | .level => do return .int (Int64.ofInt (← inv.level))
  | .ret e => do fail (.returning (← operand inv last e))
  | .fail message => fail (.plain message)
  | .catchError body =>
    handle (self.body inv body) fun
      | .error (.error e) => done (.text e.message)
      | outcome => ofExcept outcome
  | .wrap label body =>
    handle (self.body inv body) fun
      | .error (.error e) => fail (.wrapped label e)
      | outcome => ofExcept outcome
  | .branch condition yes no => do
    match (← operand inv last condition).toBool with
    | .ok true => self.body inv yes
    | .ok false => self.body inv no
    | .error e => fail (.plain e.message)
  | .uplevel level body => Dispatch.uplevel inv level (self.body inv body)
  | .inScope scope body => do
    Dispatch.inScope inv (← read fun m => m.scopes.get? scope) (self.body inv body)
  | .note e => do
    let v ← operand inv last e
    note (.value v)
    return v
  | .noteFrame => do
    note (.frame (← viewFrame inv))
    return .empty
  | .host call =>
    handle (Host.perform self (some inv.context) call) fun
      | .error .exhausted => stop .exhausted
      | outcome => do
        note (.reply outcome)
        return last

/-- Runs statements one after the other. -/
def statements (self : Runner) (inv : Invocation) : Value → List Stmt → Eval Value
  | last, [] => done last
  | last, s :: rest => do
    let v ← statement self inv last s
    statements self inv v rest

/-- Runs bodies nested at most `depth` deep, with names resolved by `resolve`. -/
def runner (resolve : String → Eval Resolution) : Nat → Runner
  | 0 => ⟨resolve, fun _ _ => stop .exhausted⟩
  | depth + 1 => ⟨resolve, fun inv stmts => statements (runner resolve depth) inv .empty stmts⟩

/-- The evaluator: names are resolved through the cache. -/
def cached (depth : Nat) : Runner := runner Eval.resolve depth

end Evaluation

/-! ### Sessions -/

/-- How an interpreter is set up. -/
structure Setup where
  id : String
  statistics : Bool := false
  maxDepth : Int := 1000
  writer : Writer := .accepting
  policy : PolicyState := {}
  thread : ThreadId := 1
  nativeThreads : Bool := false

/-- What came of a call of the embedding program. -/
structure CallReport where
  outcome : Except Stop Reply
  output : String
  notes : Array Note
  log : Array LogEntry

namespace Machine

/-- A new interpreter with the builtin commands. -/
def start (s : Setup) : Machine :=
  let commands := Builtin.all.foldl (fun t b => t.insert b.name (Command.builtin b)) ∅
  { id := s.id, commands, cache := Cache.new s.statistics, maxDepth := s.maxDepth
    frames := ⟨#[⟨"::", .globalFrame, 0, ∅, false⟩]⟩, writer := s.writer, policy := s.policy
    thread := s.thread, nativeThreads := s.nativeThreads : Machine
  }.loggedHere .debug "interpreter created" [("commands", Number.intText commands.size)]

/-- How deeply bodies may nest. -/
def nestingLimit : Nat := 5000

/-- The machine with empty channels. -/
def silent (m : Machine) : Machine := { m with output := "", notes := #[], log := #[] }

/-- Carries out a call of the embedding program, with empty channels to begin with. -/
def performBy (self : Runner) (m : Machine) (call : HostCall) : CallReport × Machine :=
  let (outcome, m) := (Host.perform self none call).run m.silent
  (⟨outcome, m.output, m.notes, m.log⟩, m)

/-- Carries out a call of the embedding program by the evaluator. -/
def perform (m : Machine) (call : HostCall) : CallReport × Machine :=
  m.performBy (Evaluation.cached nestingLimit) call

end Machine

end CommandHost
