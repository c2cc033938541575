/-
CommandHost/Proofs/Atoms.lean

The atomic steps of evaluations, one by one.

`Action` lists what an atomic step can change, and forgets what it answers, when it
fails and how it looks at the policy.  `Atom` keeps all of this: it lists the steps
themselves.  Resolving a name is not among them, since a name is resolved by
invocations only, after they have checked the context.

What a step fails with is an error that the interpreter reports by itself
(`Error.Own`).  Kinds of errors that have all of these, and that labels do not lead out
of (`Error.Kind`), are what programs are put together for in `Composition`.

Some properties hold of tame bodies only: those that free no context, switch no
thread and define no command.
-/
import CommandHost.Proofs.Anatomy

namespace CommandHost

open Program Eval

/-! ### Errors -/

namespace Error

/-- Errors that the interpreter reports by itself. -/
inductive Own : Error → Prop
  | misuse (c : Misuse) : Own (.misuse c)
  | script (command : String) (c : ScriptCause) (detail : String) : Own (.script command c detail)

/-- Kinds of errors that programs do not leave by what they report, nor by the labels that they put
in front of errors.  Whether returns are of the kind is left open, and whether a cause is that a
command reports by itself. -/
structure Kind (kind : Error → Prop) : Prop where
  own : ∀ {e : Error}, e.Own → kind e
  faulted : ∀ a, kind (.faulted a)
  plain : ∀ text, kind (.plain text)
  wrapped : ∀ {e : Error} (label : String), kind e → kind (.wrapped label e)

/-- All errors together. -/
theorem kind_true : Kind fun _ => True := ⟨fun _ => trivial, fun _ => trivial, fun _ => trivial,
  fun _ _ => trivial⟩

end Error

/-- A stop of a program that was not exhausted, with an error of the kind if it is one. -/
def Stop.Of (kind : Error → Prop) : Stop → Prop
  | .error e => kind e
  | .fault _ => True
  | .exhausted => False

/-- Only running out of depth is not counted as a stop of a kind. -/
theorem Stop.of_true {s : Stop} (h : s ≠ .exhausted) : s.Of fun _ => True := by
  cases s with
  | error e => trivial
  | fault a => trivial
  | exhausted => exact h rfl

theorem Stop.Of.ne_exhausted {kind : Error → Prop} {s : Stop} (h : s.Of kind) : s ≠ .exhausted := by
  rintro rfl
  exact h

namespace Machine

variable {m : Machine} {e : Error}

/-- No context is to be had. -/
theorem own_acquire {create : Bool} (h : (m.acquire create).1 = .error e) : e.Own := by
  unfold acquire at h
  split at h
  · split at h
    · cases h
    · exact Except.error.inj h ▸ .misuse _
  · split at h
    · cases h
    · split at h
      · cases h
      · exact Except.error.inj h ▸ .misuse _

/-- Nothing is defined on a disposed interpreter. -/
theorem own_define {name : String} {c : Command} (h : (m.define name c).1 = .error e) : e.Own := by
  unfold define at h
  split at h
  · exact Except.error.inj h ▸ .misuse _
  · cases h

/-- A name that is not there is not deleted. -/
theorem own_delete {name : String} (h : (m.delete name).1 = .error e) : e.Own := by
  unfold delete at h
  split at h
  · cases h
  · exact Except.error.inj h ▸ .script _ _ _

/-- Renaming fails as deleting does, or because of the new name. -/
theorem own_rename {old new : String} (h : (m.rename old new).1 = .error e) : e.Own := by
  unfold rename at h
  split at h
  · exact own_delete h
  · split at h
    · exact Except.error.inj h ▸ .script _ _ _
    · split at h
      · exact Except.error.inj h ▸ .script _ _ _
      · cases h

end Machine

/-- A text that is no number. -/
theorem Builtin.own_number {inv : Invocation} {v : Value} {e : Error}
    (h : number inv v = .error e) : e.Own := by
  unfold number at h
  cases hv : v.toInt with
  | ok n => simp [hv, Except.mapError] at h
  | error c =>
    rw [hv] at h
    exact Except.error.inj h ▸ .script _ _ _

/-- The old value of the variable may be no number either. -/
theorem Builtin.own_add {inv : Invocation} {step : Int64} {old : Option Value} {e : Error}
    (h : add inv step old = .error e) : e.Own := by
  cases old with
  | none => cases h
  | some v =>
    simp only [add] at h
    cases hn : number inv v with
    | ok n => simp [hn, Except.map] at h
    | error e' =>
      rw [hn] at h
      exact Except.error.inj h ▸ own_number hn

/-! ### Steps -/

namespace Machine

/-- The machine under another policy. -/
def under (m : Machine) (p : Policy) : Machine :=
  { m with policy := { m.policy with current := p } }

/-- Changes of frames, names and channels.  Commands, cache and contexts stay. -/
def Quiet (m t : Machine) : Prop :=
  ∃ frames saved scopes writer output notes log tallies,
    t = { m with frames, saved, scopes, writer, output, notes, log, tallies }

theorem Quiet.refl (m : Machine) : m.Quiet m := ⟨_, _, _, _, _, _, _, _, rfl⟩

/-- A function of machines that the policy makes no difference to. -/
def Blind {β : Type} (f : Machine → β × Machine) : Prop :=
  ∀ (m : Machine) (p : Policy), f (m.under p) = ((f m).1, (f m).2.under p)

end Machine

/-- The atomic steps, with errors of a kind.  Those that free a context, switch the thread or define a
command, and those that calls move the stack by, are `wild`. -/
inductive Atom (wild : Prop) (kind : Error → Prop) : {α : Type} → Eval α → Prop
  | quiet {α : Type} {f : Machine → Except Stop α × Machine} (hq : ∀ m : Machine, m.Quiet (f m).2)
      (hb : Machine.Blind f) (hs : ∀ m s, (f m).1 = .error s → s.Of kind) : Atom wild kind (act f)
  | touch {α : Type} (id : ContextId) (a : Accessor) (g : ThreadContext → α) :
      Atom wild kind (readContext id fun c p => (c.touch p a).map fun _ => g c)
  | writeFrame (id : ContextId) (slot : Slot) (f : Option FrameId) :
      Atom wild kind (writeFrame id slot f)
  | modifyStack (hw : wild) (id : ContextId) (f : CallStack → CallStack) :
      Atom wild kind (modifyStack id f)
  | askCache (name : String) : Atom wild kind (change (·.isCached name))
  | clearCache : Atom wild kind (modify (·.clearCache))
  | define (hw : wild) (name : String) (c : Command) : Atom wild kind (Eval.define name (some c))
  | delete (name : String) : Atom wild kind (Eval.delete name)
  | rename (old new : String) : Atom wild kind (Eval.rename old new)
  | context : Atom wild kind Eval.context
  | lookupContext : Atom wild kind (ofChange (·.acquire false))
  | release (hw : wild) : Atom wild kind (change (·.release))
  | switchThread (hw : wild) (id : ThreadId) :
      Atom wild kind (modify fun m => { m with thread := id })
  | freeContext (hw : wild) (id : ContextId) (shared : Bool) :
      Atom wild kind (modify (·.freeContext id shared))
  | disposeContext (hw : wild) (id : ContextId) : Atom wild kind (modify (·.disposeContext id))
  | dispose (hw : wild) : Atom wild kind (modify (·.dispose))

namespace Atom

variable {wild : Prop} {kind : Error → Prop} {α : Type}

/-- Atomic steps are atomic: none of them is put together from others. -/
theorem eq_act {p : Eval α} (h : Atom wild kind p) : ∃ f, p = act f := by
  cases h <;> exact ⟨_, rfl⟩

/-- A step that only looks at the machine. -/
theorem read {f : Machine → α} (hf : ∀ (m : Machine) p, f (m.under p) = f m) :
    Atom wild kind (Program.read f) := by
  refine quiet (fun m => .refl m) (fun m p => ?_) fun m s => ?_
  · rw [hf]
  · rintro ⟨⟩

/-- A change of frames, names and channels that does not look at the policy. -/
theorem modify {f : Machine → Machine} (hq : ∀ m : Machine, m.Quiet (f m))
    (hb : ∀ (m : Machine) p, f (m.under p) = (f m).under p) : Atom wild kind (Program.modify f) := by
  refine quiet hq (fun m p => ?_) fun m s => ?_
  · rw [hb]
  · rintro ⟨⟩

theorem change {f : Machine → α × Machine} (hq : ∀ m : Machine, m.Quiet (f m).2)
    (hb : Machine.Blind f) : Atom wild kind (Program.change f) := by
  refine quiet hq (fun m p => ?_) fun m s => ?_
  · rw [hb]
  · rintro ⟨⟩

theorem modifyFrame (id : FrameId) (f : Frame → Frame) : Atom wild kind (Eval.modifyFrame id f) :=
  modify (fun _ => ⟨_, _, _, _, _, _, _, _, rfl⟩) fun _ _ => rfl

/-- Changing what a run of the load generator has counted. -/
theorem count (run : Nat) (f : Tally → Tally) : Atom wild kind (LoadGenerator.count run f) :=
  modify (fun _ => ⟨_, _, _, _, _, _, _, _, rfl⟩) fun _ _ => rfl

/-- An entry of the log does not show the policy. -/
theorem logged (f : Machine → LogEntry) (hf : ∀ (m : Machine) p, f (m.under p) = f m) :
    Atom wild kind (Program.modify fun m => m.logged (f m)) := by
  refine modify (fun _ => ⟨_, _, _, _, _, _, _, _, rfl⟩) fun m p => ?_
  rw [hf]
  rfl

end Atom

/-- Reading off a context. -/
theorem run_touch {α : Type} (id : ContextId) (a : Accessor) (g : ThreadContext → α) (m : Machine) :
    (readContext id fun c p => (c.touch p a).map fun _ => g c).run m =
      if m.Faults id then (.error (.fault a), m) else (.ok (g (m.context id)), m) := by
  -- only the strict policy makes a fault of it
  by_cases h : (m.context id).disposed = true ∧ m.policyFor id = .strict
  · simp [readContext, Context.touch, Machine.Faults, h, Except.map]
  · simp [readContext, Context.touch, Machine.Faults, h, Except.map]

theorem run_ofChange_snd {α : Type} (f : Machine → Except Error α × Machine) (m : Machine) :
    ((ofChange f).run m).2 = (f m).2 := by
  rcases e : f m with ⟨_ | _, _⟩ <;> simp [ofChange, e]

/-- What a change of the machine fails with. -/
theorem run_ofChange_error {α : Type} {f : Machine → Except Error α × Machine} {m : Machine} {e : Error}
    (h : ((ofChange f).run m).1 = .error (.error e)) : (f m).1 = .error e := by
  rcases hf : f m with ⟨e' | a, t⟩
  · simpa [ofChange, hf] using h
  · simp [ofChange, hf] at h

/-- Whatever an atomic step fails with is of the kind. -/
theorem Atom.of_error {wild : Prop} {kind : Error → Prop} (hk : Error.Kind kind) {α : Type}
    {p : Eval α} (h : Atom wild kind p) {m : Machine} {e : Error}
    (he : (p.run m).1 = .error (.error e)) : kind e := by
  cases h with
  | quiet hq hb hs => exact hs m _ he
  -- reading and writing a context may be a fault, and faults are no errors
  | touch id a g =>
    rw [run_touch] at he
    split at he <;> cases he
  | writeFrame id slot f =>
    rw [m.run_writeFrame] at he
    split at he <;> cases he
  | define hw name c => exact hk.own (Machine.own_define (run_ofChange_error he))
  | delete name => exact hk.own (Machine.own_delete (run_ofChange_error he))
  | rename old new => exact hk.own (Machine.own_rename (run_ofChange_error he))
  | context =>
    have hcontext := run_ofChange_error he
    split at hcontext
    · -- a disposed interpreter refuses before it looks for a context
      exact Except.error.inj hcontext ▸ hk.own (.misuse _)
    · exact hk.own (Machine.own_acquire hcontext)
  | lookupContext => exact hk.own (Machine.own_acquire (run_ofChange_error he))
  | modifyStack | askCache | clearCache | release | switchThread | freeContext | disposeContext
  | dispose => cases he

/-! ### Tame bodies -/

/-- A call that frees no context, switches no thread and defines no command. -/
def HostCall.isTame : HostCall → Bool
  | defineFunction _ _ | defineProcedure _ _ (some _) | setUnknown (some _) => false
  | switchThread _ | release | dispose | freeContext _ _ | disposeContext _ | load _ => false
  | _ => true

mutual

def Stmt.isTame : Stmt → Bool
  | .catchError body | .wrap _ body | .uplevel _ body | .inScope _ body => tameBody body
  | .branch _ yes no => tameBody yes && tameBody no
  | .host call => call.isTame
  | _ => true

/-- A body whose statements are all tame, nested ones included. -/
def tameBody : List Stmt → Bool
  | [] => true
  | s :: rest => s.isTame && tameBody rest

end

/-- A command that runs no function, and whose body is tame. -/
def Command.isTame : Command → Bool
  | function _ => false
  | procedure _ _ body => tameBody body
  | _ => true

/-- The command that a name resolved to. -/
def Resolution.command : Resolution → Command
  | direct c => c
  | unknown c _ => c

/-- The bodies that a statement runs. -/
def Stmt.bodies : Stmt → List (List Stmt)
  | catchError body | wrap _ body | uplevel _ body | inScope _ body => [body]
  | branch _ yes no => [yes, no]
  | _ => []

end CommandHost
