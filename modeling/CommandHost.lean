/-
CommandHost.lean

A host for commands: values and call frames, a command table with a cache in
front of it, contexts tied to threads, the evaluator, settings, reports and the
command line.
-/
import CommandHost.Main
import CommandHost.Proofs.Action
import CommandHost.Proofs.Alike
import CommandHost.Proofs.Balance
import CommandHost.Proofs.Coherence
import CommandHost.Proofs.FrameStructure
import CommandHost.Proofs.Points
import CommandHost.Proofs.Session
import CommandHost.Proofs.Transparency
import CommandHost.Proofs.Variation
import CommandHost.Proofs.Anatomy
import CommandHost.Proofs.Lifetime
import CommandHost.Proofs.ThreadTable
import CommandHost.Proofs.Vacancy
import CommandHost.Proofs.Separation
import CommandHost.Proofs.Isolation
import CommandHost.Proofs.Containment
import CommandHost.Proofs.Atoms
import CommandHost.Proofs.Composition
import CommandHost.Proofs.Finality
import CommandHost.Proofs.Leniency
import CommandHost.Proofs.Termination
import CommandHost.Proofs.Interleaving
import CommandHost.Proofs.Workload
import CommandHost.Proofs.WorkloadTotals
import CommandHost.Proofs.Lifecycle
import CommandHost.Proofs.ErrorChains
import CommandHost.Proofs.Uplevel
import CommandHost.Proofs.UplevelComposition
import CommandHost.Proofs.Release
import CommandHost.Proofs.Returns
import CommandHost.Proofs.Locals
import CommandHost.Proofs.Numerals
import CommandHost.Proofs.TomlText
import CommandHost.Proofs.YamlText
import CommandHost.Proofs.YamlLiteral
import CommandHost.Proofs.YamlDocument
import CommandHost.Proofs.SettingsRoundTrip
import CommandHost.Proofs.CacheLedger
import CommandHost.Proofs.Renaming
import CommandHost.Proofs.BuiltinEffects
import CommandHost.Proofs.CacheBooks
import CommandHost.Proofs.SoloRun
import CommandHost.Proofs.Merging
import CommandHost.Proofs.Increments
import CommandHost.Proofs.IntegerTexts
import CommandHost.Proofs.ReportLines
import CommandHost.Proofs.Numbering
