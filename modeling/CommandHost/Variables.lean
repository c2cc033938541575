/-
CommandHost/Variables.lean

Variables as a running command sees them.

A name that begins with `::` lives in the frame that stands for the global one,
every other name in the current frame.
-/
import CommandHost.Machine

namespace CommandHost

/-- What a running command sees: the context it runs on, the name it was invoked as, and its
arguments. -/
structure Invocation where
  context : ContextId
  name : String
  args : List Value := []

/-- The name behind a leading `::`. -/
def globalName? (name : String) : Option String :=
  match name.toList with
  | ':' :: ':' :: rest => some (String.ofList rest)
  | _ => none

namespace Invocation

open Program Eval

/-- A script error of the running command. -/
def error (inv : Invocation) (cause : ScriptCause) (detail : String) : Error :=
  .script inv.name cause detail

/-- A slot that has to hold a frame. -/
def required : Option FrameId → Eval FrameId
  | some f => done f
  | none => misuse .noFrame

/-- The current frame. -/
def frame (inv : Invocation) : Eval FrameId := do
  required (← readFrame inv.context .current)

/-- The frame that names beginning with `::` live in. -/
def globalFrame (inv : Invocation) : Eval FrameId := do
  required (← readCurrentGlobal inv.context)

/-- The frame a variable lives in, and its name there. -/
def home (inv : Invocation) (name : String) : Eval (FrameId × String) :=
  match globalName? name with
  | some inner => do return (← inv.globalFrame, inner)
  | none => do return (← inv.frame, name)

def getVar (inv : Invocation) (name : String) : Eval Value := do
  let (f, inner) ← inv.home name
  match ← read fun m => (m.frames.get? f).bind (·.get? inner) with
  | some v => return v
  | none => fail (inv.error .noSuchVariable ("can't read " ++ Text.quoted name))

def setVar (inv : Invocation) (name : String) (v : Value) : Eval Unit := do
  let (f, inner) ← inv.home name
  modifyFrame f (·.set inner v)

def unsetVar (inv : Invocation) (name : String) : Eval Unit := do
  let (f, inner) ← inv.home name
  act fun m =>
    match (m.frames.get? f).bind (·.unset? inner) with
    | some frame => (.ok (), { m with frames := m.frames.modify f fun _ => frame })
    | none =>
      (.error (.error (inv.error .noSuchVariable ("can't unset " ++ Text.quoted name))), m)

/-- Replaces the value of a variable by what `new` makes of it, in one atomic step. -/
def updateVar (inv : Invocation) (name : String) (new : Option Value → Except Error Value) :
    Eval Value := do
  let (f, inner) ← inv.home name
  act fun m =>
    match m.frames.get? f with
    | none => (.error (.error (.misuse .noFrame)), m)
    | some frame =>
      match frame.update inner new with
      | .ok (v, frame) => (.ok v, { m with frames := m.frames.modify f fun _ => frame })
      | .error e => (.error (.error e), m)

/-- The nesting depth of a frame. -/
def levelOf (f : FrameId) : Eval Int :=
  read fun m => ((m.frames.get? f).map (·.level)).getD 0

/-- The nesting depth of the current frame. -/
def level (inv : Invocation) : Eval Int := do
  levelOf (← inv.frame)

end Invocation

end CommandHost
