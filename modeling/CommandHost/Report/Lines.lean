/-
CommandHost/Report/Lines.lean

The lines of a report.

A row is a label and a number in cells of ten columns each.  The report on the
cache has a title, a row for the number of entries and a row for each counter;
counters at zero are left out unless they are asked for.
-/
import CommandHost.Report.Cell
import CommandHost.Report.Template
import CommandHost.Statistics

namespace CommandHost.Report

/-- The columns of a cell. -/
def cellWidth : Nat := 10

/-- A label at the left of its cell and a value at the right of its own. -/
def row (label value : String) : String :=
  String.ofList (cell .left cellWidth label.toList ++ cell .right cellWidth value.toList)

/-- A row with a whole number. -/
def numberRow (label : String) (n : Int) : String := row label (Number.intText n)

/-! ### Messages -/

def errorLine (message : String) : String := "Error: " ++ message

def warningLine (message : String) : String := "Warning: " ++ message

def successLine (message : String) : String := "Success: " ++ message

/-! ### The cache -/

/-- The counters a report shows. -/
def shownCounters (stats : Statistics) (zeros : Bool) : List Counter :=
  Counter.all.filter fun c => zeros || stats.get c.index != 0

/-- The lines of the report on a cache. -/
def cacheLines (count : Int) (stats : Option Statistics) (zeros : Bool) : List String :=
  "command cache" :: numberRow "count" count ::
    match stats with
    | none => ["statistics disabled"]
    | some s => (shownCounters s zeros).map fun c => numberRow c.name (s.get c.index).toInt

/-- The report on a cache. -/
def cacheReport (count : Int) (stats : Option Statistics) (zeros : Bool) : String :=
  "\n".intercalate (cacheLines count stats zeros)

end CommandHost.Report
