/-
CommandHost/Contexts.lean

One context per thread.

A thread's context is made on first use and found again through the thread table;
the context handed out last is reused without a look at the table when the
current thread may use it.  Releasing a thread retires its context and leaves the
shared frames alone; disposing the interpreter retires all contexts and everything
they share.
-/
import CommandHost.Commands

namespace CommandHost

namespace Machine

/-! ### Freeing and disposing -/

/-- Releases something a context held. -/
def releaseHeld (shared : Bool) (frames : Frames) : Held CallStack FrameId → Frames
  | .stack s => frames.freeStack s shared
  | .frame f => frames.modify f (·.free shared)

/-- Puts a context in place after it let go of what it held. -/
private def afterRelease (m : Machine) (id : ContextId) (shared : Bool)
    (released : List (Held CallStack FrameId) × ThreadContext) : Machine :=
  { m.setContext id released.2 with
    frames := released.1.foldl (releaseHeld shared) m.frames
    log := m.log ++ ((m.context id).freeLog shared).toArray }

/-- Detaches a context. -/
def freeContext (m : Machine) (id : ContextId) (shared : Bool) : Machine :=
  m.afterRelease id shared (m.context id).free

/-- Retires a context for good. -/
def disposeContext (m : Machine) (id : ContextId) : Machine :=
  m.afterRelease id true (m.context id).dispose

/-! ### The thread table -/

/-- Whether the current thread may use a context. -/
def canUse (m : Machine) (id : Option ContextId) : Bool :=
  CommandHost.canUse (id.map fun i => (m.context i).affinity) m.thread

/-- A fresh context for the current thread. -/
def freshContext (m : Machine) : ThreadContext :=
  { owned := true, thread := m.thread, stack := some {}, global := some globalFrame,
    current := some globalFrame, trace := some ("thread-" ++ Number.intText m.thread) }

/-- Makes a context for the current thread. -/
def createContext (m : Machine) : ContextId × Machine :=
  let id : ContextId := ⟨m.contexts.size⟩
  (id, { m with
    contexts := m.contexts.push m.freshContext
    byThread := m.byThread.insert m.thread id
    previous := some id
    policy := m.policy.freeze
  }.loggedHere .debug "execution context created" [("thread", Number.intText m.thread)])

/-- The usable context the thread table has for the current thread.  A context without thread is
never revived. -/
def tableContext? (m : Machine) : Option ContextId :=
  (m.byThread.get? m.thread).filter fun id =>
    !(m.context id).disposed && (m.context id).thread != 0

/-- The current thread's context; with `create`, a missing one is made. -/
def acquire (m : Machine) (create : Bool) : Except Error ContextId × Machine :=
  if m.canUse m.previous then
    match m.previous with
    | some id => (.ok id, m)
    | none => (.error (.misuse .noContext), m)
  else
    match m.tableContext? with
    | some id => (.ok id, { m with previous := some id })
    | none =>
      if create then (.ok m.createContext.1, m.createContext.2)
      else (.error (.misuse .noContext), m)

/-- Acquiring a context leaves all but the contexts and their table alone.  The policy in force is the
same. -/
theorem acquire_snd (m : Machine) (create : Bool) :
    ∃ contexts byThread previous policy log,
      (m.acquire create).2 = { m with contexts, byThread, previous, policy, log } ∧
      policy.current = m.policy.current := by
  unfold acquire
  split
  · split <;> exact ⟨_, _, _, _, _, rfl, rfl⟩
  · split
    · exact ⟨_, _, _, _, _, rfl, rfl⟩
    · split <;> exact ⟨_, _, _, _, _, rfl, rfl⟩

/-- Retires the current thread's context; `false` when it has none. -/
def release (m : Machine) : Bool × Machine :=
  match m.byThread.get? m.thread with
  | none => (false, m)
  | some id =>
    let m := { m with
      byThread := m.byThread.erase m.thread
      previous := if m.previous = some id then none else m.previous }
    (true, ((m.freeContext id false).disposeContext id).loggedHere .debug
      "execution context released" [("thread", Number.intText m.thread)])

/-- How many threads hold a context. -/
def contextCount (m : Machine) : Nat := m.byThread.size

/-! ### Disposing the interpreter -/

/-- Retires every context and everything they share. -/
def purge (m : Machine) : Machine :=
  (m.byThread.entries.map Prod.snd).foldl
    (fun m id => (m.freeContext id true).disposeContext id)
    { m with byThread := ∅, previous := none }

/-- Retires the interpreter; a second time changes nothing. -/
def dispose (m : Machine) : Machine :=
  if m.disposed then m
  else
    let purged := { m with disposed := true }.purge
    { purged with
      frames := purged.frames.modify globalFrame (·.dispose)
      cache := purged.cache.clear
      commands := ∅
    }.loggedHere .info "interpreter disposed" [("contexts", Number.intText m.contextCount)]

end Machine

namespace Eval

/-- The current thread's context; a missing one is made, unless the interpreter is disposed. -/
def context : Eval ContextId :=
  ofChange fun m =>
    if m.disposed then (.error (.misuse .interpreterDisposed), m) else m.acquire true

end Eval

end CommandHost
