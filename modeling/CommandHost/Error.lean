/-
CommandHost/Error.lean

Errors of commands and of the embedding program.

An internal error means that the embedding program misused the interpreter, a
script error is one a script can observe and handle.  A pending return travels as
an error too, until the innermost procedure takes it.  The wording of all errors
is `Error.message`; the other functions look through wrapped errors.
-/
import CommandHost.Context
import CommandHost.Value

namespace CommandHost

/-- Misuse of the interpreter by the embedding program. -/
inductive Misuse where
  | wrongThread
  | noFrame
  | noContext
  | interpreterDisposed
  | noCommand
  deriving DecidableEq, Repr

/-- What went wrong in a script. -/
inductive ScriptCause where
  | unknownCommand
  | commandExists
  | noSuchVariable
  | wrongArgs
  | badLevel
  | tooDeep
  | notInProcedure
  /-- The output refused a text. -/
  | output (reason : String)
  deriving DecidableEq, Repr

/-- Why a command, or a call of the embedding program, failed. -/
inductive Error where
  | misuse (cause : Misuse)
  /-- A disposed context was touched under the strict policy. -/
  | faulted (accessor : Accessor)
  | script (command : String) (cause : ScriptCause) (detail : String)
  /-- A cause that a command reports by itself, outside of a script error. -/
  | bare (cause : ScriptCause)
  | plain (text : String)
  | wrapped (label : String) (inner : Error)
  /-- A return on its way to the innermost procedure. -/
  | returning (value : Value)
  deriving DecidableEq, Repr

namespace Misuse

def message : Misuse → String
  | wrongThread => "execution context used from a thread that does not own it"
  | noFrame => "no call frame in execution context"
  | noContext => "no execution context for this thread"
  | interpreterDisposed => "interpreter disposed"
  | noCommand => "nil command"

end Misuse

namespace ScriptCause

def message : ScriptCause → String
  | unknownCommand => "invalid command name"
  | commandExists => "command already exists"
  | noSuchVariable => "no such variable"
  | wrongArgs => "wrong # args"
  | badLevel => "bad level"
  | tooDeep => "too many nested evaluations"
  | notInProcedure => "return outside of a procedure"
  | output reason => reason

end ScriptCause

namespace Error

/-- The text of an error. -/
def message : Error → String
  | misuse c => "internal interpreter error: " ++ c.message
  | faulted a => "internal interpreter error: " ++ a.faultMessage
  | script command cause detail =>
    (if command = "" then "" else command ++ ": ") ++ cause.message ++
      (if detail = "" then "" else ": " ++ detail)
  | bare cause => cause.message
  | plain text => text
  | wrapped label inner => label ++ ": " ++ inner.message
  | returning _ => "return outside of a procedure"

/-- The error under all wrappings. -/
def root : Error → Error
  | wrapped _ inner => inner.root
  | e => e

/-- Whether the error is a script error. -/
def isScript (e : Error) : Bool :=
  match e.root with
  | script _ _ _ => true
  | _ => false

/-- Whether the error is an internal one. -/
def isInternal (e : Error) : Bool :=
  match e.root with
  | misuse _ => true
  | faulted _ => true
  | _ => false

/-- What went wrong in the script, if that is what the error reports. -/
def cause? (e : Error) : Option ScriptCause :=
  match e.root with
  | script _ cause _ => some cause
  | bare cause => some cause
  | _ => none

/-- The value of a pending return. -/
def returned? (e : Error) : Option Value :=
  match e.root with
  | returning v => some v
  | _ => none

end Error

/-- Why an evaluation stops without a value. -/
inductive Stop where
  | error (e : Error)
  /-- A disposed context was touched; the nearest invocation reports it. -/
  | fault (accessor : Accessor)
  /-- The bodies are nested more deeply than the evaluation allows. -/
  | exhausted
  deriving DecidableEq, Repr

end CommandHost
