/-
CommandHost/Toml/Item.lean

What a TOML document holds.

Of numbers with a fraction, dates, times and arrays the program only has to know
that they are there, so their contents are not kept; of an array of tables only
the last table can still grow, so only that one is kept.  A table that was made
on the way to another one is *open*: it may be named once more on its own.
`Entries.defineAt?` puts an item where a dotted key leads and refuses to define
anything twice.
-/

namespace CommandHost.Toml

/-- A value of a document. -/
inductive Item where
  | text (s : String)
  | whole (n : Int64)
  | truth (b : Bool)
  /-- A number with a fraction or an exponent. -/
  | fraction
  /-- A date, a time, or both. -/
  | moment
  | array
  | table (entries : List (String × Item)) (isOpen : Bool)
  /-- An array of tables, with the entries of the last one. -/
  | tables (last : List (String × Item))

/-- The entries of a table. -/
abbrev Entries := List (String × Item)

namespace Entries

/-- Puts an item in place of the one a key has. -/
def replace (key : String) (item : Item) : Entries → Entries
  | [] => []
  | (k, i) :: rest => if k = key then (k, item) :: rest else (k, i) :: replace key item rest

/-- The item of a key becomes what `f` makes of it. -/
def alter? (es : Entries) (key : String) (f : Option Item → Option Item) : Option Entries :=
  match es.lookup key with
  | some i => (f (some i)).map fun i => replace key i es
  | none => (f none).map fun i => es ++ [(key, i)]

/-- Changes the entries of the table at a path.  Tables on the way that do not exist are made open. -/
def within? (f : Entries → Option Entries) : List String → Entries → Option Entries
  | [], es => f es
  | key :: path, es =>
    es.alter? key fun
      | none => (within? f path []).map (.table · true)
      | some (.table inner isOpen) => (within? f path inner).map (.table · isOpen)
      | some (.tables last) => (within? f path last).map .tables
      | some _ => none

/-- Names a table on its own: one that is open is closed, one that is missing is made. -/
def openTable? (key : String) (es : Entries) : Option Entries :=
  es.alter? key fun
    | none => some (.table [] false)
    | some (.table inner true) => some (.table inner false)
    | some .array => some (.table [] false)
    | some _ => none

/-- Adds a table to an array of tables. -/
def addTable? (key : String) (es : Entries) : Option Entries :=
  es.alter? key fun
    | none => some (.tables [])
    | some (.tables _) => some (.tables [])
    | some _ => none

/-- Passes through a table on the way of a dotted key: a missing one is made open, and one that is
passed again is closed. -/
def passTable? (key : String) (es : Entries) : Option Entries :=
  es.alter? key fun
    | none => some (.table [] true)
    | some (.table inner _) => some (.table inner false)
    | some (.tables last) => some (.tables last)
    | some .array => some (.table [] true)
    | some _ => none

/-- Defines a key.  Nothing is defined twice, but an array gives way, and a table that is still open
outlives a plain value. -/
def define? (key : String) (item : Item) (es : Entries) : Option Entries :=
  es.alter? key fun
    | none => some item
    | some .array => some item
    | some (.table inner true) =>
      match item with
      | .table .. => none
      | _ => some (.table inner false)
    | some _ => none

/-- Defines a dotted key below the table at `base`. -/
def defineAt? (item : Item) : (base path : List String) → Entries → Option Entries
  | _, [], _ => none
  | base, [key], es => within? (define? key item) base es
  | base, key :: path, es => do
    let es ← within? (passTable? key) base es
    defineAt? item (base ++ [key]) path es

end Entries

end CommandHost.Toml
