/-
CommandHost/Context.lean

Execution contexts: what one thread's evaluation runs against.

A context holds a call stack and five frame slots.  It starts out active, becomes
detached when it is freed and ends disposed; freeing returns what has to be
released, in order, and empties the slots.  Under the strict policy every
accessor of a disposed context is a fault, named after the accessor.

Stack and frames are only held here, so their types are parameters.
-/
import CommandHost.Log
import CommandHost.Policy
import CommandHost.Thread

namespace CommandHost

/-! ### Slots and accessors -/

/-- The frame slots of a context. -/
inductive Slot where
  | uplevel
  | procedure
  | current
  | scope
  | global
  deriving DecidableEq, Repr

namespace Slot

/-- The slots in the order in which they are freed. -/
def all : List Slot := [uplevel, procedure, current, scope, global]

/-- The name of a slot in messages. -/
def name : Slot → String
  | uplevel => "UplevelFrame"
  | procedure => "ProcedureFrame"
  | current => "CurrentFrame"
  | scope => "GlobalScopeFrame"
  | global => "GlobalFrame"

end Slot

/-- The ways to touch a context. -/
inductive Accessor where
  | owner
  | stack
  | setStack
  | frame (slot : Slot)
  | setFrame (slot : Slot)
  | currentGlobal
  | trace
  | setTrace
  deriving DecidableEq, Repr

namespace Accessor

/-- The name of an accessor in messages. -/
def name : Accessor → String
  | owner => "Owner"
  | stack => "CallStack"
  | setStack => "SetCallStack"
  | frame slot => slot.name
  | setFrame slot => "Set" ++ slot.name
  | currentGlobal => "CurrentGlobalFrame"
  | trace => "TraceInfo"
  | setTrace => "SetTraceInfo"

/-- What touching a disposed context through the accessor is reported as. -/
def faultMessage (a : Accessor) : String :=
  "use of disposed execution context: " ++ a.name

end Accessor

/-! ### Contexts -/

/-- The stages of a context's life. -/
inductive Stage where
  | active
  | detached
  | disposed
  deriving DecidableEq, Repr

def Stage.name : Stage → String
  | .active => "active"
  | .detached => "detached"
  | .disposed => "disposed"

/-- The bundle of slots one thread's evaluation runs against. -/
structure Context (σ φ : Type) where
  /-- Whether the context still belongs to an interpreter. -/
  owned : Bool := false
  thread : ThreadId := 0
  disposed : Bool := false
  stack : Option σ := none
  global : Option φ := none
  scope : Option φ := none
  current : Option φ := none
  procedure : Option φ := none
  uplevel : Option φ := none
  trace : Option String := none
  deriving DecidableEq, Repr

/-- Something a context held and lets go of. -/
inductive Held (σ φ : Type) where
  | stack (s : σ)
  | frame (f : φ)
  deriving DecidableEq, Repr

namespace Context

variable {σ φ : Type}

def affinity (c : Context σ φ) : Affinity := ⟨c.thread, c.disposed⟩

def stage (c : Context σ φ) : Stage :=
  if c.disposed then .disposed else if c.thread = 0 then .detached else .active

/-! ### Slots, unchecked -/

/-- The frame in a slot. -/
def frame (c : Context σ φ) : Slot → Option φ
  | .uplevel => c.uplevel
  | .procedure => c.procedure
  | .current => c.current
  | .scope => c.scope
  | .global => c.global

/-- Puts a frame into a slot. -/
def setFrame (c : Context σ φ) (slot : Slot) (f : Option φ) : Context σ φ :=
  match slot with
  | .uplevel => { c with uplevel := f }
  | .procedure => { c with procedure := f }
  | .current => { c with current := f }
  | .scope => { c with scope := f }
  | .global => { c with global := f }

/-- The frame that stands for the global one: the scope frame when there is one. -/
def currentGlobal (c : Context σ φ) : Option φ := c.scope.or c.global

/-! ### Checked access -/

/-- Touching a disposed context is a fault under the strict policy. -/
def touch (c : Context σ φ) (policy : Policy) (a : Accessor) : Except Accessor Unit :=
  if c.disposed ∧ policy = .strict then .error a else .ok ()

def readOwner (c : Context σ φ) (policy : Policy) : Except Accessor Bool :=
  (c.touch policy .owner).map fun _ => c.owned

def readStack (c : Context σ φ) (policy : Policy) : Except Accessor (Option σ) :=
  (c.touch policy .stack).map fun _ => c.stack

def writeStack (c : Context σ φ) (policy : Policy) (s : Option σ) :
    Except Accessor (Context σ φ) :=
  (c.touch policy .setStack).map fun _ => { c with stack := s }

def readFrame (c : Context σ φ) (policy : Policy) (slot : Slot) : Except Accessor (Option φ) :=
  (c.touch policy (.frame slot)).map fun _ => c.frame slot

def writeFrame (c : Context σ φ) (policy : Policy) (slot : Slot) (f : Option φ) :
    Except Accessor (Context σ φ) :=
  (c.touch policy (.setFrame slot)).map fun _ => c.setFrame slot f

def readCurrentGlobal (c : Context σ φ) (policy : Policy) : Except Accessor (Option φ) :=
  (c.touch policy .currentGlobal).map fun _ => c.currentGlobal

def readTrace (c : Context σ φ) (policy : Policy) : Except Accessor (Option String) :=
  (c.touch policy .trace).map fun _ => c.trace

def writeTrace (c : Context σ φ) (policy : Policy) (t : Option String) :
    Except Accessor (Context σ φ) :=
  (c.touch policy .setTrace).map fun _ => { c with trace := t }

/-! ### Life cycle -/

/-- What the context holds, in the order in which it is released. -/
def held (c : Context σ φ) : List (Held σ φ) :=
  (c.stack.map .stack).toList ++ Slot.all.filterMap fun slot => (c.frame slot).map .frame

/-- Lets go of owner, thread, stack and frames; what has to be released comes first.  A disposed
context holds on to nothing that could be released. -/
def free (c : Context σ φ) : List (Held σ φ) × Context σ φ :=
  if c.disposed then ([], c)
  else (c.held, { disposed := false })

/-- Frees the context and retires it for good. -/
def dispose (c : Context σ φ) : List (Held σ φ) × Context σ φ :=
  if c.disposed then ([], c) else (c.held, { disposed := true })

/-- Retires a context nobody disposed; nothing is released. -/
def finalize (c : Context σ φ) : Context σ φ := { c with disposed := true }

/-! ### A context that may be missing -/

/-- A missing context counts as disposed. -/
def stageOf (c : Option (Context σ φ)) : Stage := (c.map (·.stage)).getD .disposed

/-- A missing context belongs to no thread. -/
def threadOf (c : Option (Context σ φ)) : ThreadId := (c.map (·.thread)).getD 0

/-! ### Log entries -/

/-- The entry logged when the context is freed. -/
def freeEntry (c : Context σ φ) (shared : Bool) : LogEntry :=
  ⟨.debug, "freeing execution context",
    [("global", if shared then "true" else "false"), ("thread", Number.intText c.thread),
     ("trace", c.trace.getD "")]⟩

/-- What freeing logs: nothing on a disposed context. -/
def freeLog (c : Context σ φ) (shared : Bool) : List LogEntry :=
  if c.disposed then [] else [c.freeEntry shared]

/-- The entry logged when a context is retired that nobody disposed. -/
def finalizeEntry (c : Context σ φ) : LogEntry :=
  ⟨.debug, "execution context finalized without Dispose", [("thread", Number.intText c.thread)]⟩

end Context

end CommandHost
