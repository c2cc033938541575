/-
CommandHost/Thread.lean

Threads: ids, affinity and the registry.

An object belongs to one thread.  It may be used by the thread whose id it
carries, as long as it is not disposed.  A registry gives native threads small
ids in order of first appearance, starting at 1, so that 0 can stand for "no
thread"; it counts in 64 bits.
-/
import CommandHost.Table

namespace CommandHost

/-- The id of a thread; 0 stands for no thread. -/
abbrev ThreadId := Int

/-! ### Affinity -/

/-- What an affinity check sees of an object. -/
structure Affinity where
  thread : ThreadId
  disposed : Bool
  deriving DecidableEq, Repr

namespace Affinity

/-- Whether the current thread may use the object. -/
def canUse (a : Affinity) (current : ThreadId) : Bool :=
  !a.disposed && a.thread == current

/-- The object after it was disposed. -/
def dispose (a : Affinity) : Affinity := { a with disposed := true }

end Affinity

/-- Whether the current thread may use an object that may be missing. -/
def canUse (a : Option Affinity) (current : ThreadId) : Bool :=
  (a.map (·.canUse current)).getD false

/-! ### The registry -/

/-- The ids given to native threads so far, and the one given last. -/
structure Registry where
  ids : Table Int ThreadId := ∅
  next : Int64 := 0

namespace Registry

/-- How many native threads have an id. -/
def size (r : Registry) : Nat := r.ids.size

/-- The id of a native thread, a new one on its first appearance. -/
def lookup (r : Registry) (native : Int) : ThreadId × Registry :=
  match r.ids.get? native with
  | some id => (id, r)
  | none => ((r.next + 1).toInt, ⟨r.ids.insert native (r.next + 1).toInt, r.next + 1⟩)

/-- Whether a native thread may use an object that may be missing.  The thread is looked up only if
its id matters. -/
def canUse (r : Registry) (a : Option Affinity) (native : Int) : Bool × Registry :=
  if a.any (!·.disposed) then
    (CommandHost.canUse a (r.lookup native).1, (r.lookup native).2)
  else (false, r)

end Registry

end CommandHost
