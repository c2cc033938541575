/-
CommandHost/Cache.lean

A cache of resolved names.

An entry is what a name resolved to, or `none` for a name known to resolve to
nothing.  Every operation counts its event when the cache keeps statistics.  A
change that may alter how other names resolve drops the whole cache first.
-/
import CommandHost.Statistics
import CommandHost.Table

namespace CommandHost

/-- Resolved names, with event counters if they are kept. -/
structure Cache (α : Type) where
  entries : Table String (Option α) := ∅
  stats : Option Statistics := none

namespace Cache

variable {α : Type}

/-- An empty cache. -/
def new (statistics : Bool) : Cache α :=
  { stats := if statistics then some .zeroed else none }

/-- The number of cached names. -/
def count (c : Cache α) : Nat := c.entries.size

/-- Counts an event. -/
def record (c : Cache α) (e : Counter) : Cache α :=
  { c with stats := c.stats.map (·.increment e) }

/-- Drops every entry. -/
def clear (c : Cache α) : Cache α := { c with entries := ∅ }.record .clear

/-- Looks a name up.  With `usable`, an entry for a name that resolves to nothing does not count
as found. -/
def lookup (c : Cache α) (name : String) (usable : Bool) : Option (Option α) × Cache α :=
  match c.entries.get? name with
  | some entry =>
    if usable && entry.isNone then (none, c.record .notFound)
    else (some entry, c.record .found)
  | none => (none, c.record .notFound)

/-- Stores what a name resolves to.  With `invalidate`, everything else is dropped first. -/
def store (c : Cache α) (name : String) (entry : Option α) (invalidate : Bool) : Cache α :=
  if invalidate then
    { c.clear with entries := (c.clear).entries.insert name entry }.record .add
  else
    { c with entries := c.entries.insert name entry }.record
      (if c.entries.contains name then .change else .add)

/-- Moves a name: the old name is dropped (everything is, with `invalidate`) and the new one is
stored in any case. -/
def rename (c : Cache α) (old new : String) (entry : Option α) (invalidate : Bool) : Cache α :=
  let c :=
    if invalidate then c.clear
    else if c.entries.contains old then { c with entries := c.entries.erase old }.record .remove
    else c
  { c with entries := c.entries.insert new entry }.record .add

/-- Drops a name, or everything with `invalidate`; `false` when there was nothing to drop. -/
def remove (c : Cache α) (name : String) (invalidate : Bool) : Bool × Cache α :=
  if invalidate then (true, c.clear)
  else if c.entries.contains name then
    (true, { c with entries := c.entries.erase name }.record .remove)
  else (false, c)

/-- Whether there is an entry or a counted event. -/
def haveCounts (c : Cache α) : Bool :=
  0 < c.count || (c.stats.map (·.haveCounts)).getD false

/-- The number of entries and the counters in one line. -/
def report (c : Cache α) (zeros : Bool) : String :=
  let counters := (c.stats.map (·.text zeros)).getD ""
  "count " ++ Number.intText c.count ++ (if counters = "" then "" else " " ++ counters)

/-! ### Operations as data -/

/-- An operation on a cache. -/
inductive Op (α : Type) where
  | clear
  | lookup (name : String) (usable : Bool)
  | store (name : String) (entry : Option α) (invalidate : Bool)
  | rename (old new : String) (entry : Option α) (invalidate : Bool)
  | remove (name : String) (invalidate : Bool)

/-- What an operation answers. -/
inductive Reply (α : Type) where
  | done
  | entry (found : Option (Option α))
  | changed (yes : Bool)

def apply (c : Cache α) : Op α → Reply α × Cache α
  | .clear => (.done, c.clear)
  | .lookup name usable => (.entry (c.lookup name usable).1, (c.lookup name usable).2)
  | .store name entry invalidate => (.changed true, c.store name entry invalidate)
  | .rename old new entry invalidate => (.changed true, c.rename old new entry invalidate)
  | .remove name invalidate => (.changed (c.remove name invalidate).1, (c.remove name invalidate).2)

/-- Operates on a cache that may be absent; an absent one holds nothing and takes nothing. -/
def applyTo : Option (Cache α) → Op α → Reply α × Option (Cache α)
  | some c, op => ((c.apply op).1, some (c.apply op).2)
  | none, .clear => (.done, none)
  | none, .lookup _ _ => (.entry none, none)
  | none, _ => (.changed false, none)

end Cache

end CommandHost
