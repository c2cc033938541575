/-
CommandHost/Settings/Layout.lean

Where each setting stands in a file.

A file has five sections, a section has keys, and an entry is a text, a whole
number or a truth value.  Readers and writers of every format share this layout:
`entry` is what a setting holds and `put?` stores what a file says.
-/
import CommandHost.Settings

namespace CommandHost

/-- One setting. -/
inductive Field where
  | level
  | noColor
  | statistics
  | policy
  | maxDepth
  | workers
  | iterations
  | churn
  deriving DecidableEq, Repr

/-- What a setting holds. -/
inductive Entry where
  | text (s : String)
  | whole (n : Int64)
  | truth (b : Bool)
  deriving DecidableEq, Repr

namespace Field

/-- The key of a setting in its section. -/
def key : Field → String
  | level => "level"
  | noColor => "no_color"
  | statistics => "statistics"
  | policy => "policy"
  | maxDepth => "max_depth"
  | workers => "workers"
  | iterations => "iterations"
  | churn => "churn"

end Field

/-- A named group of settings. -/
structure Group where
  name : String
  fields : List Field

/-- The sections of a file, in the order they are written. -/
def Settings.layout : List Group :=
  [⟨"log", [.level, .noColor]⟩, ⟨"cache", [.statistics]⟩, ⟨"context", [.policy]⟩,
    ⟨"interpreter", [.maxDepth]⟩, ⟨"workload", [.workers, .iterations, .churn]⟩]

namespace Settings

/-- What a setting holds. -/
def entry (s : Settings) : Field → Entry
  | .level => .text s.level
  | .noColor => .truth s.noColor
  | .statistics => .truth s.statistics
  | .policy => .text s.policy
  | .maxDepth => .whole s.maxDepth
  | .workers => .whole s.workers
  | .iterations => .whole s.iterations
  | .churn => .whole s.churn

/-- Stores an entry in a setting, if it is of the kind the setting holds. -/
def put? (s : Settings) : Field → Entry → Option Settings
  | .level, .text t => some { s with level := t }
  | .noColor, .truth b => some { s with noColor := b }
  | .statistics, .truth b => some { s with statistics := b }
  | .policy, .text t => some { s with policy := t }
  | .maxDepth, .whole n => some { s with maxDepth := n }
  | .workers, .whole n => some { s with workers := n }
  | .iterations, .whole n => some { s with iterations := n }
  | .churn, .whole n => some { s with churn := n }
  | _, _ => none

end Settings

end CommandHost
