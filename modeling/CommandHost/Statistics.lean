/-
CommandHost/Statistics.lean

Event counters of a cache.

The counters form an array of 64-bit integers that wrap around; the first six are
named.  The array may be missing altogether (after a reset to nothing), and a
merged array may be longer than the named counters.
-/
import CommandHost.Number.Integer

namespace CommandHost

/-! ### Counters -/

/-- The events a cache counts, in the order of the array. -/
inductive Counter where
  | found
  | notFound
  | add
  | change
  | remove
  | clear
  deriving DecidableEq, Repr

namespace Counter

def all : List Counter := [found, notFound, add, change, remove, clear]

/-- The place of a counter in the array. -/
def index : Counter → Nat
  | found => 0
  | notFound => 1
  | add => 2
  | change => 3
  | remove => 4
  | clear => 5

def name : Counter → String
  | found => "found"
  | notFound => "notFound"
  | add => "add"
  | change => "change"
  | remove => "remove"
  | clear => "clear"

/-- How many counters a complete array holds. -/
def count : Nat := 6

/-- The name of the counter at a place; a place without a counter is named by its number. -/
def nameAt (i : Int) : String :=
  match all.find? (fun c => (c.index : Int) == i) with
  | some c => c.name
  | none => "count" ++ Number.intText i

end Counter

/-! ### Statistics -/

/-- The counter array, if there is one. -/
structure Statistics where
  counts : Option (Array Int64)
  deriving DecidableEq, Repr

namespace Statistics

/-- All counters at zero. -/
def zeroed : Statistics := ⟨some (Array.replicate Counter.count 0)⟩

/-- No array at all. -/
def blank : Statistics := ⟨none⟩

/-- The array; an absent one has no counters. -/
def values (s : Statistics) : Array Int64 := s.counts.getD #[]

/-- Whether the array has a counter at a place. -/
def has (s : Statistics) (i : Int) : Bool := 0 ≤ i && i < s.values.size

/-- Adds one to the counter at a place, if there is one. -/
def bump (s : Statistics) (i : Int) : Statistics :=
  if s.has i then ⟨s.counts.map fun a => a.modify i.toNat (· + 1)⟩ else s

def increment (s : Statistics) (c : Counter) : Statistics := s.bump c.index

/-- The counter at a place, zero when there is none. -/
def get (s : Statistics) (i : Int) : Int64 :=
  if 0 ≤ i then s.values[i.toNat]?.getD 0 else 0

/-- Whether any counter is not zero. -/
def haveCounts (s : Statistics) : Bool := s.values.any (· != 0)

/-- Sets every counter to zero. -/
def zero (s : Statistics) : Statistics := ⟨s.counts.map fun a => a.map fun _ => 0⟩

/-- Adds two arrays place by place; the longer one gives the length. -/
def sum (a b : Array Int64) : Array Int64 :=
  Array.ofFn fun i : Fin (max a.size b.size) => a[i.val]?.getD 0 + b[i.val]?.getD 0

/-- Replaces the array by `counts`, or adds `counts` to it when `merge` is set.  Nothing merges as
nothing and otherwise removes the array; an array shorter than the named counters is refused. -/
def assign? (s : Statistics) (counts : Option (Array Int64)) (merge : Bool) : Option Statistics :=
  match counts with
  | none => some (if merge then s else blank)
  | some a =>
    if a.size < Counter.count then none
    else some ⟨some (if merge then sum s.values a else a)⟩

/-- The counters as a list of names and numbers; zeros are left out unless `zeros` is set. -/
def text (s : Statistics) (zeros : Bool) : String :=
  " ".intercalate (s.values.toList.zipIdx.filterMap fun (n, i) =>
    if n == 0 && !zeros then none
    else some (Counter.nameAt i ++ " " ++ Number.intText n.toInt))

/-! ### Operations as data -/

/-- A change of the counters. -/
inductive Op where
  | bump (i : Int)
  | zero
  | assign (counts : Option (Array Int64)) (merge : Bool)

/-- Performs a change and says whether it was possible. -/
def apply (s : Statistics) : Op → Bool × Statistics
  | .bump i => (s.has i, s.bump i)
  | .zero => (!s.values.isEmpty, s.zero)
  | .assign counts merge =>
    match s.assign? counts merge with
    | some t => (true, t)
    | none => (false, s)

/-- Performs a change on counters that may not be kept at all; then none is possible. -/
def applyTo : Option Statistics → Op → Bool × Option Statistics
  | some s, op => ((s.apply op).1, some (s.apply op).2)
  | none, _ => (false, none)

end Statistics

end CommandHost
