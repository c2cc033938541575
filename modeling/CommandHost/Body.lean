/-
CommandHost/Body.lean

What commands are made of.

A body is a list of statements.  Statements read and write variables, invoke
commands, move through the call frames, and may call back into the interpreter as
the embedding program does (`HostCall`); so statements and such calls are defined
together.  A command is a builtin, a function or procedure with a body, or one of
the two commands of the load generator.
-/
import CommandHost.Thread
import CommandHost.Value

namespace CommandHost

/-- What a statement computes its operands from. -/
inductive Expr where
  | value (v : Value)
  /-- The value of a variable. -/
  | var (name : String)
  /-- An argument of the running function, empty when there is none at that place. -/
  | arg (index : Int)
  | argCount
  /-- The value of the statement before. -/
  | last
  /-- The name the running command was invoked as. -/
  | commandName
  deriving DecidableEq, Repr

/-- Refers to a context: the one of the running command, or one saved under a name. -/
inductive ContextRef where
  | running
  | saved (name : String)
  deriving DecidableEq, Repr

/-- The size of a generated load. -/
structure Load where
  workers : Int
  /-- Rounds per worker. -/
  iterations : Int
  /-- Rounds between redefinitions; none when not positive. -/
  churn : Int
  /-- Whether the run is cancelled before it starts. -/
  cancelled : Bool := false
  deriving DecidableEq, Repr

mutual

/-- A statement of a body. -/
inductive Stmt where
  | value (e : Expr)
  | invoke (name : Expr) (args : List Expr)
  | get (name : Expr)
  | set (name value : Expr)
  | unset (name : Expr)
  /-- The nesting depth of the current frame. -/
  | level
  /-- Ends the innermost procedure with a value. -/
  | ret (e : Expr)
  | fail (message : String)
  /-- The text of the body's error in place of the error. -/
  | catchError (body : List Stmt)
  /-- The body's error behind a label. -/
  | wrap (label : String) (body : List Stmt)
  | branch (condition : Expr) (yes no : List Stmt)
  | uplevel (level : Int) (body : List Stmt)
  | inScope (scope : String) (body : List Stmt)
  | note (e : Expr)
  /-- Notes what the current frame looks like. -/
  | noteFrame
  | host (call : HostCall)

/-- A call that the embedding program makes. -/
inductive HostCall where
  | invoke (name : String) (args : List Value)
  | invokeIn (context : ContextRef) (name : String) (args : List Value)
  | defineFunction (name : String) (body : List Stmt)
  | defineProcedure (name : String) (params : List String) (body : Option (List Stmt))
  | defineNothing (name : String)
  | setUnknown (body : Option (List Stmt))
  | delete (name : String)
  | rename (old new : String)
  | commands
  | cacheCount
  | cacheReport (zeros : Bool)
  | haveCacheCounts
  | clearCache
  | statistics
  | switchThread (id : ThreadId)
  | context (saveAs : Option String)
  | lookupContext (saveAs : Option String)
  | release
  | contextCount
  | dispose
  | isDisposed
  | outputCaptured
  | freeContext (context : ContextRef) (shared : Bool)
  | disposeContext (context : ContextRef)
  | contextStage (context : ContextRef)
  | slots (context : ContextRef)
  | globals
  | makeScope (name : String) (level : Int)
  | scopeVariables (name : String)
  | load (size : Load)

end

/-- The commands every interpreter starts with. -/
inductive Builtin where
  | set
  | unset
  | incr
  | append
  | puts
  | rename
  | ret
  | info
  deriving DecidableEq, Repr

namespace Builtin

def all : List Builtin := [set, unset, incr, append, puts, rename, ret, info]

def name : Builtin → String
  | set => "set"
  | unset => "unset"
  | incr => "incr"
  | append => "append"
  | puts => "puts"
  | rename => "rename"
  | ret => "return"
  | info => "info"

end Builtin

/-- Something a name can be invoked for. -/
inductive Command where
  | builtin (b : Builtin)
  | function (body : List Stmt)
  | procedure (name : String) (params : List String) (body : List Stmt)
  /-- Squares its one argument. -/
  | square
  /-- Counts its calls for a run of the load generator. -/
  | tally (run : Nat)

/-- What a name resolves to: a command of that name, or the handler of unknown names, which is told
the name. -/
inductive Resolution where
  | direct (command : Command)
  | unknown (handler : Command) (name : String)

end CommandHost
