/-
CommandHost/Proofs/ErrorChains.lean

What the errors of operations are made of.

An error is a chain of links (`Error.chain`): labels in front, and then what the error
is about.  An internal error and a script error each put a link of their own into the
chain, and what went wrong in a script is a link too.  A cause is *enclosed* if the
chain has the link of a script error as well.

A command of the embedding program could report a cause by itself; `square` is one that
does.  Where there is no such command, whatever runs, all errors are enclosed: bodies
hide, label and pass on errors that are (`Encloses`), and everything else that fails
makes such an error itself.
-/
import CommandHost.Proofs.Composition
import CommandHost.Proofs.Coherence

namespace CommandHost

open Program Eval

/-! ### Chains -/

/-- A link of the chain of an error. -/
inductive Link where
  | label (text : String)
  | internal
  | misuse (cause : Misuse)
  | disposed (accessor : Accessor)
  | script (command detail : String)
  | cause (c : ScriptCause)
  | plain (text : String)
  | returning (value : Value)

namespace Error

/-- The links of an error, the outermost first. -/
def chain : Error → List Link
  | misuse c => [.internal, .misuse c]
  | faulted a => [.internal, .disposed a]
  | script command c detail => [.script command detail, .cause c]
  | bare c => [.cause c]
  | plain text => [.plain text]
  | wrapped label inner => .label label :: inner.chain
  | returning v => [.returning v]

/-- Labels are of no kind, so the kind of an error is that of its root: the link is there if the
root is internal. -/
theorem internal_mem_chain (e : Error) : .internal ∈ e.chain ↔ e.isInternal = true := by
  induction e with
  | wrapped label inner ih => simpa [chain, isInternal, root] using ih
  | _ => simp [chain, isInternal, root]

/-- The link of a script error is there if the root is a script error. -/
theorem script_mem_chain (e : Error) :
    (∃ command detail, .script command detail ∈ e.chain) ↔ e.isScript = true := by
  induction e with
  | wrapped label inner ih => simpa [chain, isScript, root] using ih
  | _ => simp [chain, isScript, root]

/-- The only cause in a chain is that of the root. -/
theorem cause_mem_chain (e : Error) (c : ScriptCause) : .cause c ∈ e.chain ↔ e.cause? = some c := by
  induction e with
  | wrapped label inner ih => simpa [chain, cause?, root] using ih
  | _ => simp [chain, cause?, root, eq_comm]

/-- The root is one error, and so of one kind. -/
theorem not_isScript_of_isInternal {e : Error} (h : e.isInternal = true) : e.isScript = false := by
  unfold isInternal at h
  unfold isScript
  cases hroot : e.root with
  | script => simp [hroot] at h
  | _ => rfl

/-- What went wrong in a script is reported by a script error. -/
def Enclosed (e : Error) : Prop := ∀ c, e.cause? = some c → e.isScript = true

/-- A script error encloses its own cause. -/
theorem enclosed_script (command detail : String) (c : ScriptCause) :
    (script command c detail).Enclosed := fun _ _ => rfl

theorem enclosed_misuse (c : Misuse) : (misuse c).Enclosed := by rintro c ⟨⟩

theorem enclosed_faulted (a : Accessor) : (faulted a).Enclosed := by rintro c ⟨⟩

theorem enclosed_plain (text : String) : (plain text).Enclosed := by rintro c ⟨⟩

theorem enclosed_returning (v : Value) : (returning v).Enclosed := by rintro c ⟨⟩

/-- Only a cause by itself is not enclosed. -/
theorem kind_enclosed : Error.Kind Enclosed where
  own h := by
    cases h with
    | misuse c => exact enclosed_misuse c
    | script command c detail => exact enclosed_script command detail c
  faulted := enclosed_faulted
  plain := enclosed_plain
  wrapped _ h := h

end Error

/-! ### Machines without commands that report a cause by themselves -/

/-- No command reports a cause outside of a script error. -/
def Machine.Enclosing (m : Machine) : Prop := ∀ name, m.commands.get? name ≠ some .square

/-- What is known of the machines that a run passes. -/
structure Machine.Tidy (m : Machine) : Prop where
  coherent : m.Coherent
  enclosing : m.Enclosing

/-- In a tidy machine a name leads to no command that reports a cause by itself, be it through the
cache or through the command for unknown names. -/
theorem Machine.Tidy.command_ne_square {m : Machine} (h : m.Tidy) {name : String} {r : Resolution}
    (hr : ((Eval.resolve name).run m).1 = .ok r) : r.command ≠ .square := by
  rw [h.coherent.run_resolve name] at hr
  have hlookup : m.lookup name = some r := by
    unfold Machine.lookupOutcome at hr
    split at hr
    · rename_i r' e
      rw [e, Except.ok.inj hr]
    · cases hr
  unfold Machine.lookup at hlookup
  split at hlookup
  · rename_i c hc
    obtain rfl := Option.some.inj hlookup
    exact fun e => h.enclosing name (hc.trans (congrArg some e))
  · -- the name is unknown, and the command for unknown names is looked up
    obtain ⟨c, hc, rfl⟩ := Option.map_eq_some_iff.1 hlookup
    exact fun e => h.enclosing unknownName (hc.trans (congrArg some e))

/-! ### Programs whose errors are enclosed -/

/-- Runs that pass tidy machines only end with no error but an enclosed one. -/
abbrev Encloses {α : Type} (p : Eval α) : Prop := Raises Machine.Tidy Error.Enclosed p

/-- An unknown name is reported by a script error. -/
theorem encloses_resolve (name : String) : Encloses (Eval.resolve name) := by
  intro m _ e he
  simp only [Eval.resolve, run_act] at he
  split at he
  · cases he
  · exact Stop.error.inj (Except.error.inj he) ▸ Error.enclosed_script _ _ _

/-- Errors stay enclosed on their way through the evaluator.  A tidy machine has no name for the one
command that reports a cause by itself. -/
theorem compositional_encloses : Compositional Error.Enclosed fun _ p _ => Encloses p := by
  have h := Raises.composes True Machine.Tidy Error.kind_enclosed
  refine { h with returning := Error.enclosed_returning, admitted := ?_ }
  intro self self' hself _ hbody id name args
  refine h.admitted_of_command self self' ?_
  rintro context rfl
  rw [hself]
  -- what the name was resolved to is known when the command runs
  exact .bind_of (encloses_resolve name) fun m r hm hr =>
    h.executeResolved self self' trivial Error.enclosed_returning
      (fun hsquare => absurd hsquare (hm.command_ne_square hr)) hbody ⟨context, name, []⟩ args

/-! ### Operations -/

/-- What answers with errors of the interpreter: invocations from a running command, and calls of
the embedding program. -/
inductive Operation : {α : Type} → Eval α → Prop
  | nested (depth : Nat) (id : Option ContextId) (name : String) (args : List Value) :
      Operation (Dispatch.invoke (Evaluation.cached depth) id name args)
  | call (depth : Nat) (running : Option ContextId) (c : HostCall) :
      Operation (Host.perform (Evaluation.cached depth) running c)

namespace Operation

variable {α : Type} {p : Eval α}

/-- Operations are made of brackets, so each of their steps is an action. -/
theorem bracketed (h : Operation p) : Bracketed p := by
  cases h with
  | nested depth id name args =>
    exact (Alike.invoke (Runner.alike_cached depth) id name args).bracketed
  | call depth running c => exact .perform depth running c

/-- Operations keep errors enclosed, whatever depth they evaluate with. -/
theorem encloses (h : Operation p) : Encloses p := by
  have hx (on : Option ContextId) (p' : Eval Value) :
      Encloses (Program.stop .exhausted : Eval Value) := by
    rintro m _ e ⟨⟩
  cases h with
  | nested depth id name args => exact compositional_encloses.share_cached hx depth 0 id name args
  | call depth running c => exact compositional_encloses.perform_cached hx depth 0 running c

end Operation

/-- **Internal errors and script errors are apart, and causes are enclosed.**  In any machine that a
session passes, let an operation run while no command reports a cause by itself.  The chain of an
error it answers with does not have both the link of an internal error and the link of a script
error; and if it has a cause, it has the link of a script error. -/
theorem internal_and_script_errors_apart {s : Setup} {path : Path Stop Machine} {m : Machine}
    (h : Session s path m) {α : Type} {p : Eval α} (hp : Operation p)
    (hm : p.Throughout Machine.Enclosing m) {e : Error} (he : (p.run m).1 = .error (.error e)) :
    ¬ (.internal ∈ e.chain ∧ ∃ command detail, .script command detail ∈ e.chain) ∧
      ∀ c, .cause c ∈ e.chain → ∃ command detail, .script command detail ∈ e.chain := by
  -- coherence comes from the session and is kept by every step
  have hthrough : p.Throughout Machine.Tidy m := fun x hx =>
    ⟨hp.bracketed.steps.points (fun _ _ hn hc => hc.next hn) h.coherent x hx, hm x hx⟩
  have henclosed : e.Enclosed := hp.encloses m hthrough e he
  rw [e.internal_mem_chain, e.script_mem_chain]
  refine ⟨?_, fun c hc => henclosed c ((e.cause_mem_chain c).1 hc)⟩
  rintro ⟨hi, hs⟩
  rw [Error.not_isScript_of_isInternal hi] at hs
  cases hs

/-! ### A function that labels the error of a call -/

def Command.isSquare : Command → Bool
  | square => true
  | _ => false

theorem Machine.enclosing_of_entries {m : Machine}
    (h : ∀ entry ∈ m.commands.entries, entry.2.isSquare = false) : m.Enclosing := by
  intro name hname
  have hsquare := h _ (Table.mem_of_get? hname)
  cases hsquare

def labellingHost : Machine :=
  ((Machine.start { id := "host" }).performBy (Evaluation.cached 3) (.defineFunction "f"
    [.wrap "outer" [.invoke (.value (.text "set")) [.value (.text "missing")]]])).2

def labellingCall : Eval Reply := Host.perform (Evaluation.cached 3) none (.invoke "f" [])

/-- The label stands in front of a script error, which encloses the cause. -/
theorem internal_and_script_errors_apart_labelled :
    ∃ e, (labellingCall.run labellingHost).1 = .error (.error e) ∧
      e = .wrapped "outer" (.script "set" .noSuchVariable "can't read \"missing\"") ∧
      .cause .noSuchVariable ∈ e.chain ∧ .internal ∉ e.chain ∧
      ∃ command detail, .script command detail ∈ e.chain := by
  have hrun : (labellingCall.run labellingHost).1 = .error (.error (.wrapped "outer"
      (.script "set" .noSuchVariable "can't read \"missing\""))) := by decide +kernel
  have hpoints : ∀ x ∈ labellingCall.points labellingHost, ∀ entry ∈ x.2.commands.entries,
      entry.2.isSquare = false := by decide +kernel
  have hsession : Session { id := "host" } [] labellingHost := .after 3 _ .start (by decide +kernel)
  obtain ⟨hapart, henclosed⟩ := internal_and_script_errors_apart hsession (.call 3 none _)
    (fun x hx => Machine.enclosing_of_entries (hpoints x hx)) hrun
  have hcause : Link.cause .noSuchVariable ∈ (Error.wrapped "outer" (.script "set" .noSuchVariable
      "can't read \"missing\"")).chain := by simp [Error.chain]
  have hscript := henclosed _ hcause
  exact ⟨_, hrun, rfl, hcause, fun hi => hapart ⟨hi, hscript⟩, hscript⟩

end CommandHost
