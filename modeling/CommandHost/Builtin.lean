/-
CommandHost/Builtin.lean

The commands every interpreter starts with.
-/
import CommandHost.Contexts
import CommandHost.Variables

namespace CommandHost

namespace Builtin

open Program Eval

/-- The command was invoked with the wrong number of arguments. -/
def wrongArgs {α : Type} (inv : Invocation) (usage : String) : Eval α :=
  fail (inv.error .wrongArgs
    ("should be " ++ Text.quoted (Text.trimmed (inv.name ++ " " ++ usage))))

/-- A number the command needs; a value that is none is an error of the script. -/
def number (inv : Invocation) (v : Value) : Except Error Int64 :=
  v.toInt.mapError fun e => inv.error .wrongArgs e.message

/-- Removes variables one after the other. -/
def unsetAll (inv : Invocation) : List Value → Eval Unit
  | [] => done ()
  | v :: vs => do
    inv.unsetVar v.toText
    unsetAll inv vs

/-- Adds a step to a variable; a missing variable counts as zero. -/
def add (inv : Invocation) (step : Int64) : Option Value → Except Error Value
  | none => .ok (.int step)
  | some old => (number inv old).map fun n => .int (n + step)

/-- Appends texts to a variable; a missing variable counts as empty. -/
def join (parts : List Value) (old : Option Value) : Value :=
  .text (((old.map (·.toText)).getD "") ++ String.join (parts.map (·.toText)))

/-- Writes a line: the writer is handed the text and the end of the line at once. -/
def writeLine (inv : Invocation) (s : String) : Eval Unit :=
  act fun m =>
    (match (m.writer.write (s ++ "\n")).refusal with
      | none => .ok ()
      | some reason => .error (.error (inv.error (.output reason) "")),
      m.handOver (s ++ "\n"))

/-- `info commands`, `info exists`, `info level`, `info cachecount`, `info cached`. -/
def inform (inv : Invocation) (topic : String) (rest : List Value) : Eval Value :=
  match topic with
  | "commands" => do
    return .text (" ".intercalate (← read fun m => m.commands.names))
  | "exists" =>
    match rest with
    | [name] =>
      handle (inv.getVar name.toText) fun
        | .ok _ => done (.bool true)
        | .error (.error _) => done (.bool false)
        | .error s => stop s
    | _ => wrongArgs inv "exists varName"
  | "level" => do return .int (Int64.ofInt (← inv.level))
  | "cachecount" => do return .int (Int64.ofNat (← read fun m => m.cache.count))
  | "cached" =>
    match rest with
    | [name] => do return .bool (← change (·.isCached name.toText))
    | _ => wrongArgs inv "cached name"
  | _ => fail (inv.error .wrongArgs ("unknown subcommand " ++ Text.quoted topic))

/-- Runs a builtin command. -/
def run (b : Builtin) (inv : Invocation) (args : List Value) : Eval Value :=
  match b with
  | set =>
    match args with
    | [name] => inv.getVar name.toText
    | [name, v] => do
      inv.setVar name.toText v
      return v
    | _ => wrongArgs inv "varName ?newValue?"
  | unset => do
    unsetAll inv args
    return .empty
  | incr =>
    match args with
    | [name] => inv.updateVar name.toText (add inv 1)
    | [name, step] => do
      let n ← ofError (number inv step)
      inv.updateVar name.toText (add inv n)
    | _ => wrongArgs inv "varName ?increment?"
  | append =>
    match args with
    | [] => wrongArgs inv "varName ?value ...?"
    | name :: parts => inv.updateVar name.toText fun old => .ok (join parts old)
  | puts =>
    match args with
    | [v] => do
      writeLine inv v.toText
      return .empty
    | _ => wrongArgs inv "string"
  | rename =>
    match args with
    | [old, new] => do
      Eval.rename old.toText new.toText
      return .empty
    | _ => wrongArgs inv "oldName newName"
  | ret =>
    match args with
    | [] => fail (.returning .empty)
    | [v] => fail (.returning v)
    | _ => wrongArgs inv "?value?"
  | info =>
    match args with
    | [] => wrongArgs inv "subcommand ?arg ...?"
    | topic :: rest => inform inv topic.toText rest

end Builtin

end CommandHost
