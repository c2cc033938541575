/-
CommandHost/Host.lean

Calls of the embedding program.

`perform` carries out one call; bodies make the same calls through their `host`
statements, with the context of the running command at hand.
-/
import CommandHost.LoadGenerator

namespace CommandHost

namespace Host

open Program Eval Dispatch

/-! ### Looking at the state -/

/-- The context a reference stands for. -/
def contextOf (running : Option ContextId) : ContextRef → Eval (Option ContextId)
  | .running => done running
  | .saved name => read fun m => m.saved.get? name

/-- What a context looks like; under the strict policy a disposed one cannot be looked at. -/
def view (id : ContextId) : Eval ContextView := do
  let name (f : Option FrameId) : Eval (Option String) := read fun m => f.map m.frameName
  let owned ← readContext id (·.readOwner ·)
  let stack ← readStack id
  let stack ← read fun m => stack.map fun s => s.frames.reverse.map m.frameName
  let global ← name (← readFrame id .global)
  let scope ← name (← readFrame id .scope)
  let current ← name (← readFrame id .current)
  let procedure ← name (← readFrame id .procedure)
  let uplevel ← name (← readFrame id .uplevel)
  let currentGlobal ← name (← readCurrentGlobal id)
  let trace ← readContext id (·.readTrace ·)
  let context ← read (·.context id)
  return { owned, stack, global, scope, current, procedure, uplevel, currentGlobal, trace
           stage := context.stage, thread := context.thread }

/-- The variables of a frame, in the order of their names. -/
def bindings (m : Machine) (f : FrameId) : List (String × Value) :=
  ((m.frames.get? f).map (·.bindings)).getD []

/-- Saves a context under a name, if one is given; the names it had before come out. -/
def save (id : ContextId) (saveAs : Option String) : Eval (List String) :=
  change fun m =>
    ((m.saved.entries.filterMap fun e => if e.2 = id then some e.1 else none).mergeSort
        (fun a b => decide (a ≤ b)),
      match saveAs with
      | some name => { m with saved := m.saved.insert name id }
      | none => m)

/-- Answers with a context. -/
def showContext (id : ContextId) (saveAs : Option String) : Eval Reply := do
  let names ← save id saveAs
  return .context names (← read fun m => (m.context id).thread)

/-! ### Calls -/

/-- Carries out a call of the embedding program, or of a body that runs on a context. -/
def perform (self : Runner) (running : Option ContextId) : HostCall → Eval Reply
  | .invoke name args => do return .value (← invokeHere self name args)
  | .invokeIn ref name args => do
    return .value (← invokeIn self (← contextOf running ref) name args)
  | .defineFunction name body => do
    define name (some (.function body))
    return .done
  | .defineProcedure name params body => do
    define name (body.map (.procedure name params))
    return .done
  | .defineNothing name => do
    define name none
    return .done
  | .setUnknown body => do
    define Machine.unknownName (body.map .function)
    return .done
  | .delete name => do
    delete name
    return .done
  | .rename old new => do
    rename old new
    return .done
  | .commands => do return .names (← read (·.commands.names))
  | .cacheCount => do return .count (← read (·.cache.count))
  | .cacheReport zeros => do return .text (← read (·.cache.report zeros))
  | .haveCacheCounts => do return .flag (← read (·.cache.haveCounts))
  | .clearCache => do
    modify (·.clearCache)
    return .done
  | .statistics => do return .counters (← read fun m => m.cache.stats.bind (·.counts))
  | .switchThread id => do
    modify fun m => { m with thread := id }
    return .done
  | .context saveAs => do showContext (← Eval.context) saveAs
  | .lookupContext saveAs => do showContext (← ofChange (·.acquire false)) saveAs
  | .release => do return .flag (← change (·.release))
  | .contextCount => do return .count (← read (·.contextCount))
  | .dispose => do
    modify (·.dispose)
    return .done
  | .isDisposed => do return .flag (← read (·.disposed))
  | .outputCaptured => do return .flag (← read (·.writer.captured))
  | .freeContext ref shared => do
    match ← contextOf running ref with
    | some id => modify (·.freeContext id shared)
    | none => pure ()
    return .done
  | .disposeContext ref => do
    match ← contextOf running ref with
    | some id => modify (·.disposeContext id)
    | none => pure ()
    return .done
  | .contextStage ref => do
    let context ← contextOf running ref
    let context ← read fun m => context.map m.context
    return .stage (Context.stageOf context) (Context.threadOf context)
  | .slots ref => do
    match ← contextOf running ref with
    | some id => return .slots (← view id)
    | none => stop (.fault .owner)
  | .globals => do
    read fun m => .globals (bindings m Machine.globalFrame)
      (((m.frames.get? Machine.globalFrame).map (·.disposed)).getD false)
  | .makeScope name level => do
    let f ← allocFrame ⟨name, .scopeFrame, level, ∅, false⟩
    modify fun m => { m with scopes := m.scopes.insert name f }
    return .done
  | .scopeVariables name =>
    read fun m => .variables (((m.scopes.get? name).map (bindings m)).getD [])
  | .load size => do return .load (← LoadGenerator.run self size)

end Host

end CommandHost
