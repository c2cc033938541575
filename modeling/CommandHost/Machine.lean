/-
CommandHost/Machine.lean

The state that evaluations work on, and its atomic steps.

A machine is one interpreter with its surroundings: the command table and the
cache in front of it, the frames, one context per thread, the policy in force, the
current thread, and the channels that collect output, notes and log entries.
Evaluations are programs over machines (`Eval`).  This module has the steps that
touch a context or a frame; each is atomic and faults where the context does.
-/
import CommandHost.Body
import CommandHost.Cache
import CommandHost.Error
import CommandHost.Frame
import CommandHost.Program

namespace CommandHost

/-! ### Parts of the state -/

/-- Refers to a context of a machine. -/
structure ContextId where
  index : Nat
  deriving DecidableEq, Repr

/-- A context over the frames of a machine. -/
abbrev ThreadContext := Context CallStack FrameId

/-- What became of a text that was handed to a writer. -/
structure Written where
  /-- What of it shows in the output. -/
  shown : String
  /-- Why the writer refused it.  Part of the text may show nevertheless. -/
  refusal : Option String := none
  deriving DecidableEq, Repr

/-- Where the text of `puts` goes.  Writers belong to the embedding program: what one does with a text
may depend on all that it was handed before. -/
structure Writer where
  respond : List String → String → Written
  /-- The texts it was handed so far, the latest first. -/
  handed : List String := []
  /-- Whether the embedding program keeps what it shows. -/
  captured : Bool := true

namespace Writer

/-- Shows every text. -/
def accepting : Writer where
  respond _ s := { shown := s }

/-- Refuses every text as a whole. -/
def failing (reason : String) : Writer where
  respond _ _ := { shown := "", refusal := some reason }
  captured := false

/-- Takes every text out of sight. -/
def elsewhere : Writer where
  respond _ _ := { shown := "" }
  captured := false

/-- What becomes of the next text. -/
def write (w : Writer) (s : String) : Written := w.respond w.handed s

/-- The writer after it was handed a text. -/
def after (w : Writer) (s : String) : Writer := { w with handed := s :: w.handed }

end Writer

/-- What one run of the load generator has counted. -/
structure Tally where
  calls : Int64 := 0
  unknown : Int64 := 0
  churned : Int64 := 0
  deriving DecidableEq, Repr

/-- What a finished run of the load generator reports. -/
structure LoadReport where
  workers : Int
  tally : Tally
  counter : Int64
  contexts : Nat
  deriving DecidableEq, Repr

/-- What a frame looks like from a body. -/
structure FrameView where
  name : String
  level : Int
  flags : FrameFlags
  bindings : List (String × Value)
  disposed : Bool
  /-- The name of the frame that stands for the global one. -/
  globalName : String
  deriving DecidableEq, Repr

/-- What a context looks like from outside; frames are shown by name. -/
structure ContextView where
  owned : Bool
  /-- The outermost frame first. -/
  stack : Option (List String)
  global : Option String
  scope : Option String
  current : Option String
  procedure : Option String
  uplevel : Option String
  currentGlobal : Option String
  stage : Stage
  trace : Option String
  thread : ThreadId
  deriving DecidableEq, Repr

/-- What a call of the embedding program answers. -/
inductive Reply where
  | done
  | value (v : Value)
  | names (ns : List String)
  | count (n : Nat)
  | text (s : String)
  | flag (b : Bool)
  | counters (counts : Option (Array Int64))
  /-- A context, with the names it was saved under before. -/
  | context (savedAs : List String) (thread : ThreadId)
  | stage (s : Stage) (thread : ThreadId)
  | slots (view : ContextView)
  | globals (bindings : List (String × Value)) (disposed : Bool)
  | variables (bindings : List (String × Value))
  | load (report : LoadReport)
  deriving DecidableEq, Repr

/-- What a body notes down. -/
inductive Note where
  | value (v : Value)
  | frame (view : FrameView)
  | reply (outcome : Except Stop Reply)

/-! ### Machines -/

/-- One interpreter with its surroundings. -/
structure Machine where
  /-- The interpreter's name in log entries and reports. -/
  id : String
  commands : Table String Command := ∅
  cache : Cache Resolution
  frames : Frames
  contexts : Array ThreadContext := #[]
  byThread : Table ThreadId ContextId := ∅
  /-- The context handed out last. -/
  previous : Option ContextId := none
  maxDepth : Int
  disposed : Bool := false
  writer : Writer := .accepting
  policy : PolicyState := {}
  /-- The current thread. -/
  thread : ThreadId := 1
  /-- Whether workers run on threads of their own. -/
  nativeThreads : Bool := false
  tallies : Array Tally := #[]
  /-- Contexts the embedding program gave names. -/
  saved : Table String ContextId := ∅
  /-- Scope frames the embedding program made. -/
  scopes : Table String FrameId := ∅
  output : String := ""
  notes : Array Note := #[]
  log : Array LogEntry := #[]

/-- Programs over machines. -/
abbrev Eval := Program Stop Machine

namespace Machine

/-- The frame shared by every context. -/
def globalFrame : FrameId := ⟨0⟩

/-- The name of the handler of unknown commands. -/
def unknownName : String := "unknown"

/-- Adds an entry to the log. -/
def logged (m : Machine) (e : LogEntry) : Machine := { m with log := m.log.push e }

/-- Adds an entry of the interpreter itself to the log. -/
def loggedHere (m : Machine) (level : LogLevel) (message : String)
    (fields : List (String × String)) : Machine :=
  m.logged ⟨level, message,
    ("component", "interpreter") :: ("id", String.ofList (m.id.toList.take 8)) :: fields⟩

/-- The context with an id, if there is one. -/
def context? (m : Machine) (id : ContextId) : Option ThreadContext := m.contexts[id.index]?

/-- The context with an id; a missing one counts as disposed. -/
def context (m : Machine) (id : ContextId) : ThreadContext :=
  (m.context? id).getD { disposed := true }

/-- The policy for touching a context; a missing one is a fault under either policy. -/
def policyFor (m : Machine) (id : ContextId) : Policy :=
  if (m.context? id).isSome then m.policy.current else .strict

/-- Puts a context in the place of an id. -/
def setContext (m : Machine) (id : ContextId) (c : ThreadContext) : Machine :=
  { m with contexts := m.contexts.modify id.index fun _ => c }

/-- Hands a text to the writer; what it shows of the text is added to the output. -/
def handOver (m : Machine) (s : String) : Machine :=
  { m with output := m.output ++ (m.writer.write s).shown, writer := m.writer.after s }

/-- The name of a frame. -/
def frameName (m : Machine) (f : FrameId) : String :=
  ((m.frames.get? f).map (·.name)).getD ""

end Machine

/-! ### Evaluations -/

namespace Eval

open Program

/-- Fails with an error. -/
def fail {α : Type} (e : Error) : Eval α := stop (.error e)

/-- Fails because the embedding program misused the interpreter. -/
def misuse {α : Type} (cause : Misuse) : Eval α := fail (.misuse cause)

/-- Goes on with a value, or fails. -/
def ofError {α : Type} : Except Error α → Eval α
  | .ok a => done a
  | .error e => fail e

/-- Runs `p` and then `restore`, whatever the outcome of `p`.  A stop of `restore` takes the place
of that outcome.  An exhausted evaluation restores nothing. -/
def always {α : Type} (restore : Eval Unit) (p : Eval α) : Eval α :=
  handle p fun
    | .error .exhausted => stop .exhausted
    | outcome => handle restore fun
      | .ok _ => ofExcept outcome
      | .error s => stop s

/-- Reads something off a context; the context may fault. -/
def readContext {α : Type} (id : ContextId) (f : ThreadContext → Policy → Except Accessor α) :
    Eval α :=
  act fun m =>
    match f (m.context id) (m.policyFor id) with
    | .ok a => (.ok a, m)
    | .error a => (.error (.fault a), m)

/-- The call stack of a context. -/
def readStack (id : ContextId) : Eval (Option CallStack) := readContext id (·.readStack ·)

/-- The frame in a slot of a context. -/
def readFrame (id : ContextId) (slot : Slot) : Eval (Option FrameId) :=
  readContext id (·.readFrame · slot)

/-- The frame that stands for the global one in a context. -/
def readCurrentGlobal (id : ContextId) : Eval (Option FrameId) :=
  readContext id (·.readCurrentGlobal ·)

/-- Puts a frame into a slot of a context. -/
def writeFrame (id : ContextId) (slot : Slot) (f : Option FrameId) : Eval Unit :=
  act fun m =>
    match (m.context id).writeFrame (m.policyFor id) slot f with
    | .ok c => (.ok (), m.setContext id c)
    | .error a => (.error (.fault a), m)

/-- Changes the call stack of a context, if it has one; the context is not asked. -/
def modifyStack (id : ContextId) (f : CallStack → CallStack) : Eval Unit :=
  modify fun m => m.setContext id { m.context id with stack := (m.context id).stack.map f }

/-- Makes a frame. -/
def allocFrame (f : Frame) : Eval FrameId :=
  change fun m => ((m.frames.alloc f).1, { m with frames := (m.frames.alloc f).2 })

/-- Changes a frame. -/
def modifyFrame (id : FrameId) (f : Frame → Frame) : Eval Unit :=
  modify fun m => { m with frames := m.frames.modify id f }

/-- Adds to the notes. -/
def note (n : Note) : Eval Unit := modify fun m => { m with notes := m.notes.push n }

/-- Adds an entry of the interpreter itself to the log. -/
def logHere (level : LogLevel) (message : String) (fields : List (String × String)) : Eval Unit :=
  modify (·.loggedHere level message fields)

end Eval

end CommandHost
