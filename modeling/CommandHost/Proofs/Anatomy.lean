/-
CommandHost/Proofs/Anatomy.lean

How evaluations are built.

`Bracketed` says of a program that it moves contexts between frames in brackets
only.  Some statements need to know more: on which context a command runs, in which
frame a variable is that it assigns, where the frame of a scope comes from, and which
programs take a fault from what they run.  `Built on p` says all this of a program
`p` that runs for a command on the context `on` (or for the embedding program, if
there is none):

* its own steps are mild (`Machine.Mild`), or are one of those that switch the
  thread or retire something (`Unruly`), or assign a variable in a frame that the
  context names;
* its brackets are on the context `on`;
* only invocations and the calls that bodies make to the embedding program take
  faults; everything else passes them on.

There is one lemma for each function of the evaluator, in the order of its modules,
and `Built.perform` is the statement about calls of the embedding program.
-/
import CommandHost.Proofs.Balance

namespace CommandHost

open Program Eval

/-! ### Steps -/

/-- Changes that leave the frames of contexts in use, and all variables, alone.  A context is only
made while the interpreter is not disposed. -/
inductive Machine.Mild (m : Machine) : Machine → Prop
  | channels (writer : Writer) (output : String) (notes : Array Note) (log : Array LogEntry)
      (tallies : Array Tally) : m.Mild { m with writer, output, notes, log, tallies }
  | saved (saved : Table String ContextId) : m.Mild { m with saved }
  | onTable {a : Action} (h : a.OnTable) : m.Mild (m.after a)
  | acquire (create : Bool) (h : create = true → m.disposed = false) :
      m.Mild (m.acquire create).2
  | release : m.Mild m.release.2

theorem Machine.Mild.refl (m : Machine) : m.Mild m :=
  .channels m.writer m.output m.notes m.log m.tallies

/-- Steps that switch the thread, free or dispose a context, or dispose the interpreter. -/
inductive Unruly {α : Type} (f : Machine → Except Stop α × Machine) : Prop
  | switchThread (id : ThreadId) (h : ∀ m, (f m).2 = { m with thread := id })
  | freeContext (id : ContextId) (shared : Bool) (h : ∀ m, (f m).2 = m.freeContext id shared)
  | disposeContext (id : ContextId) (h : ∀ m, (f m).2 = m.disposeContext id)
  | dispose (h : ∀ m, (f m).2 = m.dispose)

/-- At most the variables of one frame are set. -/
def Machine.Assigns (f : FrameId) (m t : Machine) : Prop :=
  t = m ∨ ∃ vars, t = m.after (.setVariables f vars)

/-! ### Programs -/

/-- A program that does not end with an error; it may end with a fault. -/
def Unfailing (p : Eval Unit) : Prop := ∀ m e, (p.run m).1 ≠ .error (.error e)

/-- Programs that run for a command on a context, or for the embedding program. -/
inductive Built : Option ContextId → {α : Type} → Eval α → Prop
  | done {on : Option ContextId} {α : Type} (a : α) : Built on (done a)
  | stop {on : Option ContextId} {α : Type} (s : Stop) : Built on (stop s : Eval α)
  | mild {on : Option ContextId} {α : Type} {f : Machine → Except Stop α × Machine}
      (h : ∀ m : Machine, m.Mild (f m).2) : Built on (act f)
  | unruly {on : Option ContextId} {α : Type} {f : Machine → Except Stop α × Machine}
      (h : Unruly f) : Built on (act f)
  | assign {α : Type} (inv : Invocation) (name : String)
      {f : FrameId × String → Machine → Except Stop α × Machine}
      (h : ∀ home (m : Machine), m.Assigns home.1 (f home m).2) :
      Built (some inv.context) (inv.home name >>= fun home => act (f home))
  /-- A frame that is made as a scope is nothing but a scope. -/
  | makeScope {on : Option ContextId} (self : Runner) (running : Option ContextId) (name : String)
      (level : Int) : Built on (Host.perform self running (.makeScope name level))
  | handle {on : Option ContextId} {α β : Type} {p : Eval β} {k : Except Stop β → Eval α}
      (hp : Built on p) (hk : ∀ r, Built on (k r)) (hx : k (.error .exhausted) = .stop .exhausted)
      (hf : ∀ a, k (.error (.fault a)) = .stop (.fault a)) : Built on (handle p k)
  /-- What is done at the end does not fail. -/
  | always {on : Option ContextId} {α : Type} {restore : Eval Unit} {p : Eval α}
      (hr : Built on restore) (hn : Unfailing restore) (hp : Built on p) :
      Built on (Eval.always restore p)
  | uplevel {p : Eval Value} (inv : Invocation) (level : Int) (hp : Built (some inv.context) p) :
      Built (some inv.context) (Dispatch.uplevel inv level p)
  | inScope {p : Eval Value} (inv : Invocation) (scope : String)
      (hp : Built (some inv.context) p) :
      Built (some inv.context)
        ((read fun m => m.scopes.get? scope) >>= fun f => Dispatch.inScope inv f p)
  | call {p : Eval Value} (inv : Invocation) (name : String) (params : List String)
      (args : List Value) (hp : Built (some inv.context) p) :
      Built (some inv.context) (Dispatch.callProcedure inv name params args p)
  /-- The command that is invoked runs on the context it is invoked on. -/
  | invoke {on : Option ContextId} {self : Runner} (hr : self.resolve = Eval.resolve)
      (id : Option ContextId) (name : String) (args : List Value)
      (h : ∀ context r, id = some context →
        Built (some context) (Dispatch.executeResolved self r { context, name } args)) :
      Built on (Dispatch.invoke self id name args)
  /-- A body calls the embedding program. -/
  | host (self : Runner) (inv : Invocation) (last : Value) (c : HostCall)
      (h : Built (some inv.context) (Host.perform self (some inv.context) c)) :
      Built (some inv.context) (Evaluation.statement self inv last (.host c))

/-! ### Invocations and calls, taken apart -/

/-- A change that can fail steps where the change leads to, also when it fails. -/
theorem steps_ofChange {R : Machine → Machine → Prop} {α : Type}
    {f : Machine → Except Error α × Machine} (h : ∀ m : Machine, R m (f m).2) :
    (Eval.ofChange f).Steps R := by
  intro m
  have hm := h m
  dsimp only
  split <;> simp_all

/-- Resolving a name touches the cache only. -/
theorem mild_resolve (name : String) : (Eval.resolve name).Steps Machine.Mild := by
  intro m
  have h : m.Mild (m.resolve name).2 := .onTable (a := .resolve name) trivial
  dsimp only
  split <;> simp_all

/-- How an invocation goes on once it knows whether the current thread may use the context. -/
def Dispatch.admitted (self : Runner) (id : Option ContextId) (name : String) (args : List Value)
    (usable : Bool) : Eval Value :=
  match id, usable with
  | some context, true => do
    let r ← self.resolve name
    executeResolved self r { context, name } args
  | _, _ => misuse .wrongThread

/-- How `reportFault` goes on after its program. -/
def Dispatch.reported (name : String) : Except Stop Value → Eval Value
  | .error (.fault a) => do
    logHere .error "disposed execution context used" [("command", name), ("op", a.name)]
    fail (.faulted a)
  | outcome => ofExcept outcome

/-- An invocation is a check, then the command, then the report of a fault. -/
theorem Dispatch.invoke_eq (self : Runner) (id : Option ContextId) (name : String)
    (args : List Value) :
    invoke self id name args =
      handle (read (·.canUse id) >>= admitted self id name args) (reported name) := rfl

/-- An invocation on a context that the current thread may not use is refused. -/
theorem run_invoke_of_not_canUse {m : Machine} {id : Option ContextId} (hu : m.canUse id = false)
    (self : Runner) (name : String) (args : List Value) :
    (Dispatch.invoke self id name args).run m = (.error (.error (.misuse .wrongThread)), m) := by
  have hrefused : (read (·.canUse id) >>= Dispatch.admitted self id name args).run m =
      (.error (.error (.misuse .wrongThread)), m) := by
    rw [run_bind]
    show (Dispatch.admitted self id name args (m.canUse id)).run m = _
    rw [hu]
    cases id <;> rfl
  rw [Dispatch.invoke_eq, run_handle, hrefused]
  rfl

/-- What is reported is the outcome, unless it is a fault, which is logged. -/
theorem reported_induction {P : Eval Value → Prop} (name : String)
    (hdone : ∀ v, P (done v)) (hstop : ∀ s, P (stop s))
    (hlog : ∀ a fields, P (logHere .error "disposed execution context used" fields >>= fun _ =>
      fail (.faulted a)))
    (outcome : Except Stop Value) : P (Dispatch.reported name outcome) := by
  rcases outcome with (e | a | -) | v
  · exact hstop _
  · exact hlog _ _
  · exact hstop _
  · exact hdone v

/-- How a body goes on after a call of the embedding program. -/
def Evaluation.noted (last : Value) : Except Stop Reply → Eval Value
  | .error .exhausted => stop .exhausted
  | outcome => do
    note (.reply outcome)
    return last

/-- A call of the embedding program from a body, and what the body does with its outcome. -/
theorem Evaluation.statement_host (self : Runner) (inv : Invocation) (last : Value) (c : HostCall) :
    statement self inv last (.host c) =
      handle (Host.perform self (some inv.context) c) (noted last) := rfl

/-- What a body notes does not change how it goes on. -/
theorem noted_induction {P : Eval Value → Prop} {last : Value} (hx : P (stop .exhausted))
    (hnote : ∀ n, P (note n >>= fun _ => pure last)) (outcome : Except Stop Reply) :
    P (Evaluation.noted last outcome) := by
  rcases outcome with (e | a | -) | v
  · exact hnote _
  · exact hnote _
  · exact hx
  · exact hnote _

/-! ### Induction -/

/-- Properties of programs that hold of all that is built, if they hold of simple programs and pass
from the parts of a program to the whole. -/
structure Inherited (P : {α : Type} → Option ContextId → Eval α → Prop) : Prop where
  mild : ∀ {on : Option ContextId} {α : Type} {p : Eval α}, p.Steps Machine.Mild → P on p
  unruly : ∀ {on : Option ContextId} {α : Type} {f : Machine → Except Stop α × Machine},
    Unruly f → P on (act f)
  assign : ∀ {α : Type} (inv : Invocation) (name : String)
    {f : FrameId × String → Machine → Except Stop α × Machine},
    (∀ home (m : Machine), m.Assigns home.1 (f home m).2) →
    P (some inv.context) (inv.home name >>= fun home => act (f home))
  makeScope : ∀ {on : Option ContextId} (self : Runner) (running : Option ContextId)
    (name : String) (level : Int), P on (Host.perform self running (.makeScope name level))
  handle : ∀ {on : Option ContextId} {α β : Type} {p : Eval β} {k : Except Stop β → Eval α},
    P on p → (∀ r, P on (k r)) → P on (handle p k)
  uplevel : ∀ {p : Eval Value} (inv : Invocation) (level : Int),
    P (some inv.context) p → P (some inv.context) (Dispatch.uplevel inv level p)
  inScope : ∀ {p : Eval Value} (inv : Invocation) (scope : String), P (some inv.context) p →
    P (some inv.context)
      ((read fun m => m.scopes.get? scope) >>= fun f => Dispatch.inScope inv f p)
  call : ∀ {p : Eval Value} (inv : Invocation) (name : String) (params : List String)
    (args : List Value), P (some inv.context) p →
    P (some inv.context) (Dispatch.callProcedure inv name params args p)
  /-- A context that the current thread may use is entered. -/
  enter : ∀ {on : Option ContextId} {context : ContextId} {k : Bool → Eval Value},
    P (some context) (k true) → P on (k false) → P on (read (·.canUse (some context)) >>= k)

namespace Inherited

variable {P : {α : Type} → Option ContextId → Eval α → Prop} {on : Option ContextId} {α β : Type}

/-- The rest of a program is reached with a value only; an error ends it. -/
theorem bind (h : Inherited P) {p : Eval β} {k : β → Eval α} (hp : P on p) (hk : ∀ b, P on (k b)) :
    P on (p >>= k) := by
  refine h.handle hp ?_
  rintro (e | b)
  · exact h.mild (p := stop e) trivial
  · exact hk b

/-- What is done at the end is done after a value, an error and a fault alike. -/
theorem always (h : Inherited P) {restore : Eval Unit} {p : Eval α} (hr : P on restore)
    (hp : P on p) : P on (Eval.always restore p) :=
  have hdone (a : α) : P on (Program.done a) := h.mild (p := done a) trivial
  have hstop (s : Stop) : P on (stop s : Eval α) := h.mild (p := stop s) trivial
  h.handle hp (restoring_induction (P := (P on ·)) (Q := (P on ·)) (hstop _) hdone hstop
    fun _ hk _ => h.handle hr hk)

/-- The check is made for whoever invokes; what follows runs on the context that was checked. -/
theorem invoke (h : Inherited P) {self : Runner} (hr : self.resolve = Eval.resolve)
    (id : Option ContextId) (name : String) (args : List Value)
    (hexecute : ∀ context r, id = some context →
      P (some context) (Dispatch.executeResolved self r { context, name } args)) :
    P on (Dispatch.invoke self id name args) := by
  have hread : P on (read (·.canUse id) : Eval Bool) := h.mild fun m => .refl m
  have hmisuse : P on (misuse .wrongThread : Eval Value) := h.mild (p := stop _) trivial
  rw [Dispatch.invoke_eq]
  -- the report only writes to the log; the check and the command are left
  refine h.handle ?_ (reported_induction name (P := (P on ·))
    (fun v => h.mild (p := done v) trivial) (fun s => h.mild (p := stop s) trivial) fun a fields =>
      h.bind (h.mild fun m => .channels m.writer m.output m.notes _ m.tallies) fun _ =>
        h.mild (p := stop _) trivial)
  cases id with
  | none => exact h.bind hread fun _ => hmisuse
  | some context =>
    -- here the program comes to run on another context than the one around it
    exact h.enter (h.bind (hr ▸ h.mild (mild_resolve name)) fun r => hexecute context r rfl) hmisuse

/-- The body that calls takes the outcome, unless the depth did not suffice. -/
theorem host (h : Inherited P) (self : Runner) (inv : Invocation) (last : Value) (c : HostCall)
    (hc : P (some inv.context) (Host.perform self (some inv.context) c)) :
    P (some inv.context) (Evaluation.statement self inv last (.host c)) := by
  rw [Evaluation.statement_host]
  exact h.handle hc (noted_induction (P := (P _ ·)) (h.mild (p := stop _) trivial) fun n =>
    h.bind (h.mild fun m => .channels m.writer m.output (m.notes.push n) m.log m.tallies) fun _ =>
      h.mild (p := done last) trivial)

end Inherited

/-- What holds of simple programs and passes to programs from their parts holds of all that is
built. -/
theorem Built.inherits {P : {α : Type} → Option ContextId → Eval α → Prop} (hP : Inherited P)
    {on : Option ContextId} {α : Type} {p : Eval α} (h : Built on p) : P on p := by
  induction h with
  | done a => exact hP.mild (p := Program.done a) trivial
  | stop s => exact hP.mild (p := Program.stop s) trivial
  | mild h => exact hP.mild (p := act _) h
  | unruly h => exact hP.unruly h
  | assign inv name h => exact hP.assign inv name h
  | makeScope self running name level => exact hP.makeScope self running name level
  | handle _ _ _ _ ihp ihk => exact hP.handle ihp ihk
  | always _ _ _ ihr ihp => exact hP.always ihr ihp
  | uplevel inv level _ ih => exact hP.uplevel inv level ih
  | inScope inv scope _ ih => exact hP.inScope inv scope ih
  | call inv name params args _ ih => exact hP.call inv name params args ih
  | invoke hr id name args _ ih => exact hP.invoke hr id name args ih
  | host self inv last c _ ih => exact hP.host self inv last c ih

/-! ### Closure -/

namespace Built

variable {on : Option ContextId} {α β : Type}

/-- Errors and faults of the first part are passed on. -/
theorem bind {p : Eval β} {k : β → Eval α} (hp : Built on p) (hk : ∀ b, Built on (k b)) :
    Built on (p >>= k) := by
  refine handle hp ?_ rfl fun _ => rfl
  rintro (e | b)
  · exact stop e
  · exact hk b

theorem pure (a : α) : Built on (pure a : Eval α) := done a

theorem fail (e : Error) : Built on (Eval.fail e : Eval α) := stop _

theorem misuse (c : Misuse) : Built on (Eval.misuse c : Eval α) := stop _

theorem ofError : (r : Except Error α) → Built on (Eval.ofError r)
  | .ok a => done a
  | .error e => fail e

/-- Reading changes nothing, and so is mild. -/
theorem read (f : Machine → α) : Built on (Program.read f : Eval α) := mild fun m => .refl m

/-- A change may fail after a mild step. -/
theorem ofChange {f : Machine → Except Error α × Machine} (h : ∀ m : Machine, m.Mild (f m).2) :
    Built on (Eval.ofChange f) :=
  mild (steps_ofChange h)

/-- Reading a context may be a fault, and changes nothing. -/
theorem readContext (id : ContextId) (f : ThreadContext → Policy → Except Accessor α) :
    Built on (Eval.readContext id f) := by
  refine mild fun m => ?_
  split <;> exact .refl m

theorem note (n : Note) : Built on (Eval.note n) :=
  mild fun m => .channels m.writer m.output (m.notes.push n) m.log m.tallies

/-! ### Variables -/

theorem required : (f : Option FrameId) → Built on (Invocation.required f)
  | some f => done f
  | none => misuse _

theorem frame (inv : Invocation) : Built on inv.frame := bind (readContext _ _) required

theorem globalFrame (inv : Invocation) : Built on inv.globalFrame := bind (readContext _ _) required

/-- The frame of a variable is found by reading. -/
theorem home (inv : Invocation) (name : String) : Built on (inv.home name) := by
  unfold Invocation.home
  split
  · exact bind (globalFrame inv) fun _ => pure _
  · exact bind (frame inv) fun _ => pure _

theorem getVar (inv : Invocation) (name : String) : Built on (inv.getVar name) := by
  refine bind (home inv name) fun b => bind (read _) fun v => ?_
  cases v with
  | some v => exact pure v
  | none => exact fail _

/-- A variable is assigned in the frame that its name leads to. -/
theorem setVar (inv : Invocation) (name : String) (v : Value) :
    Built (some inv.context) (inv.setVar name v) :=
  assign inv name fun home m =>
    .inr (m.exists_setVariables home.1 (·.set home.2 v) fun _ _ => rfl)

/-- A variable that is not there is not unset, and nothing is assigned then. -/
theorem unsetVar (inv : Invocation) (name : String) :
    Built (some inv.context) (inv.unsetVar name) := by
  refine assign inv name fun ⟨f, inner⟩ m => ?_
  rcases e : m.frames.get? f with - | frame
  · exact .inl (by simp)
  rcases hu : frame.unset? inner with - | frame'
  · exact .inl (by simp [hu])
  · have hset := m.exists_setVariables f (fun _ => frame') fun fr hfr => by
      obtain rfl := Option.some.inj (e.symm.trans hfr)
      exact Frame.eq_of_unset? hu
    exact .inr (by simpa [e, hu] using hset)

/-- An update that fails assigns nothing. -/
theorem updateVar (inv : Invocation) (name : String) (new : Option Value → Except Error Value) :
    Built (some inv.context) (inv.updateVar name new) := by
  refine assign inv name fun ⟨f, inner⟩ m => ?_
  rcases e : m.frames.get? f with - | frame
  · exact .inl (by simp)
  rcases hu : frame.update inner new with err | ⟨v, frame'⟩
  · exact .inl (by simp [hu])
  · have hset := m.exists_setVariables f (fun _ => frame') fun fr hfr => by
      obtain rfl := Option.some.inj (e.symm.trans hfr)
      exact Frame.eq_of_update hu
    exact .inr (by simpa [e, hu] using hset)

theorem level (inv : Invocation) : Built on inv.level := bind (frame inv) fun _ => read _

/-! ### The command table and the contexts -/

/-- Defining nothing is a misuse; anything else is a change of the table. -/
theorem define (name : String) : (c : Option Command) → Built on (Eval.define name c)
  | some c => ofChange fun _ => .onTable (a := .define name c) trivial
  | none => misuse _

theorem delete (name : String) : Built on (Eval.delete name) :=
  ofChange fun _ => .onTable (a := .delete name) trivial

theorem rename (old new : String) : Built on (Eval.rename old new) :=
  ofChange fun _ => .onTable (a := .rename old new) trivial

/-- A context is made only if the interpreter is open, which is checked in the same step. -/
theorem context : Built on Eval.context := by
  refine ofChange fun m => ?_
  split
  · exact .refl m
  · rename_i hd
    exact .acquire true fun _ => by simpa using hd

/-- Looking a context up makes none. -/
theorem lookupContext : Built on (Eval.ofChange (·.acquire false)) :=
  ofChange fun _ => .acquire false nofun

theorem release : Built on (Program.change (·.release) : Eval Bool) := mild fun _ => .release

/-- Switching the thread is one of the unruly steps, since it decides which contexts may be used. -/
theorem switchThread (id : ThreadId) :
    Built on (Program.modify fun m => { m with thread := id } : Eval Unit) :=
  unruly (.switchThread id fun _ => rfl)

/-! ### Builtin commands -/

/-- The variables are unset one after the other. -/
theorem unsetAll (inv : Invocation) (args : List Value) :
    Built (some inv.context) (Builtin.unsetAll inv args) := by
  induction args with
  | nil => exact done ()
  | cons v vs ih => exact bind (unsetVar inv _) fun _ => ih

/-- A line goes to the writer, which may take a part of it only. -/
theorem writeLine (inv : Invocation) (s : String) : Built on (Builtin.writeLine inv s) :=
  mild fun m => .channels (m.handOver _).writer (m.handOver _).output m.notes m.log m.tallies

/-- Asking about a variable takes the error of a missing one, and passes faults on. -/
theorem inform (inv : Invocation) (topic : String) (rest : List Value) :
    Built on (Builtin.inform inv topic rest) := by
  unfold Builtin.inform
  split
  · exact bind (read _) fun _ => pure _
  · split
    · -- whether a variable exists: an error says that it does not
      refine handle (getVar inv _) ?_ rfl fun _ => rfl
      rintro ((e | a | -) | v)
      · exact done _
      · exact stop _
      · exact stop _
      · exact done _
    · exact fail _
  · exact bind (level inv) fun _ => pure _
  · exact bind (read _) fun _ => pure _
  · split
    · exact bind (mild fun _ => .onTable (a := .askCache _) trivial) fun _ => pure _
    · exact fail _
  · exact fail _

/-- A builtin command assigns variables through the context that it runs on, and nothing else of
frames. -/
theorem builtin (b : Builtin) (inv : Invocation) (args : List Value) :
    Built (some inv.context) (b.run inv args) := by
  cases b with
  | set =>
    simp only [Builtin.run]
    split
    · exact getVar inv _
    · exact bind (setVar inv _ _) fun _ => pure _
    · exact fail _
  | unset => exact bind (unsetAll inv args) fun _ => pure _
  | incr =>
    simp only [Builtin.run]
    split
    · exact updateVar inv _ _
    · exact bind (ofError _) fun n => updateVar inv _ _
    · exact fail _
  | append =>
    cases args with
    | nil => exact fail _
    | cons name parts =>
      simp only [Builtin.run]
      exact updateVar inv _ _
  | puts =>
    simp only [Builtin.run]
    split
    · exact bind (writeLine inv _) fun _ => pure _
    · exact fail _
  | rename =>
    simp only [Builtin.run]
    split
    · exact bind (rename _ _) fun _ => pure _
    · exact fail _
  | ret =>
    simp only [Builtin.run]
    split
    · exact fail _
    · exact fail _
    · exact fail _
  | info =>
    cases args with
    | nil => exact fail _
    | cons topic rest => exact inform inv _ _

/-! ### Dispatch -/

/-- A return is turned into an error here; faults were taken by the invocation already. -/
theorem topLevel {p : Eval Value} (hp : Built on p) : Built on (Dispatch.topLevel p) := by
  refine handle hp ?_ rfl fun _ => rfl
  rintro ((e | a | -) | v)
  · dsimp only
    split
    · exact fail _
    · exact fail e
  · exact stop _
  · exact stop _
  · exact done v

theorem square (inv : Invocation) (args : List Value) : Built on (Dispatch.square inv args) := by
  unfold Dispatch.square
  split
  · split
    · exact done _
    · exact fail _
  · exact fail _

/-- Changing what a run of the load generator has counted. -/
theorem tallies (f : Machine → Array Tally) :
    Built on (Program.modify fun m => { m with tallies := f m } : Eval Unit) :=
  mild fun m => .channels m.writer m.output m.notes m.log (f m)

end Built

/-- Runners that resolve names through the cache, and run bodies on the context of the command. -/
structure Runner.Builds (r : Runner) : Prop where
  resolve : r.resolve = Eval.resolve
  body : ∀ inv stmts, Built (some inv.context) (r.body inv stmts)

namespace Built

variable {on : Option ContextId} {self : Runner}

/-- A procedure runs its body in a bracket, a function in the frame that is there. -/
theorem execute (h : self.Builds) (c : Command) (inv : Invocation) (args : List Value) :
    Built (some inv.context) (Dispatch.execute self c inv args) := by
  cases c with
  | builtin b => exact builtin b inv args
  | function body => exact h.body { inv with args } body
  | procedure name params body =>
    exact call inv name params args (h.body { inv with args := [] } body)
  | square => exact square inv args
  | tally run => exact bind (tallies _) fun _ => pure _

/-- For an unknown name another command runs, with the name as one more argument. -/
theorem executeResolved (h : self.Builds) (r : Resolution) (inv : Invocation) (args : List Value) :
    Built (some inv.context) (Dispatch.executeResolved self r inv args) := by
  cases r with
  | direct c => exact execute h c inv args
  | unknown c name => exact execute h c inv _

/-- An invocation enters the context it is made on, whatever runs it. -/
theorem invocation (h : self.Builds) (id : Option ContextId) (name : String) (args : List Value) :
    Built on (Dispatch.invoke self id name args) :=
  invoke h.resolve id name args fun context r _ => executeResolved h r { context, name } args

theorem invokeHere (h : self.Builds) (name : String) (args : List Value) :
    Built on (Dispatch.invokeHere self name args) :=
  bind context fun id => topLevel (invocation h (some id) name args)

/-- A disposed interpreter refuses before the context is looked at. -/
theorem invokeIn (h : self.Builds) (id : Option ContextId) (name : String) (args : List Value) :
    Built on (Dispatch.invokeIn self id name args) := by
  refine bind (read _) fun disposed => ?_
  cases disposed with
  | true => exact misuse _
  | false => exact topLevel (invocation h id name args)

/-! ### The load generator -/

theorem log (level : LogLevel) (message : String) (fields : List (String × String)) :
    Built on (LoadGenerator.log level message fields) :=
  mild fun m => .channels m.writer m.output m.notes _ m.tallies

theorem forM_range (workers : Nat) {f : Nat → Eval Unit} (hf : ∀ w, Built on (f w)) :
    Built on ((List.range workers).forM f) := by
  induction List.range workers with
  | nil => exact pure ()
  | cons w ws ih => exact bind (hf w) fun _ => ih

theorem setup (run workers : Nat) : Built on (LoadGenerator.setup run workers) :=
  bind (define _ _) fun _ => bind (forM_range workers fun _ => define _ _) fun _ => define _ _

/-- A call of the load generator gives up on an error of the command. -/
theorem generatedCall (h : self.Builds) (run : Nat) (name : String) (args : List Value) :
    Built on (LoadGenerator.call self run name args) := by
  refine handle (invokeHere h name args) ?_ rfl fun _ => rfl
  rintro ((e | a | -) | v)
  · exact fail _
  · exact stop _
  · exact stop _
  · exact bind (tallies _) fun _ => pure v

theorem churn (run worker : Nat) : Built on (LoadGenerator.churn run worker) := by
  refine bind (define _ _) fun _ => bind (rename _ _) fun _ => bind (rename _ _) fun _ =>
    bind (tallies _) fun _ => ?_
  split
  · exact bind (define _ _) fun _ => tallies _
  · exact pure ()

theorem workerFields (worker : Nat) : Built on (LoadGenerator.workerFields worker) :=
  bind (read _) fun _ => pure _

/-- One round of a worker: three calls, a check of the square, one more call, and a churn now and
then. -/
theorem round (h : self.Builds) (run worker : Nat) (churnEvery : Int) (i : Nat) :
    Built on (LoadGenerator.round self run worker churnEvery i) := by
  -- what comes at the end of the round, with or without a wrong square
  let churned : Eval Unit := if 0 < churnEvery ∧ i % churnEvery = churnEvery - 1 then do
      LoadGenerator.churn run worker
      LoadGenerator.log .debug "commands churned"
        ((← LoadGenerator.workerFields worker) ++ [("iteration", Number.intText i)])
    else Pure.pure ()
  have hchurned : Built on churned := by
    unfold churned
    split
    · exact bind (churn run worker) fun _ => bind (workerFields worker) fun _ => log _ _ _
    · exact pure ()
  refine bind (generatedCall h run _ _) fun _ => bind (generatedCall h run _ _) fun _ =>
    bind (generatedCall h run _ _) fun v => ?_
  dsimp only
  -- a wrong square ends the round
  split
  · exact bind (fail _) fun _ => bind (generatedCall h run _ _) fun _ => hchurned
  · exact bind (generatedCall h run _ _) fun _ => hchurned

/-- A worker that was cancelled gives up before the next round. -/
theorem rounds (h : self.Builds) (run worker : Nat) (churnEvery : Int) (cancelled : Bool)
    (i left : Nat) :
    Built on (LoadGenerator.rounds self run worker churnEvery cancelled i left) := by
  induction left generalizing i with
  | zero => exact done ()
  | succ left ih =>
    have hround := bind (round h run worker churnEvery i) fun _ => ih (i + 1)
    unfold LoadGenerator.rounds
    dsimp only
    split
    · exact bind (fail _) fun _ => hround
    · exact hround

/-- Whatever becomes of a worker, its thread is released. -/
theorem worker (h : self.Builds) (run : Nat) (size : Load) (cancelled : Bool) (w : Nat) :
    Built on (LoadGenerator.worker self run size cancelled w) :=
  always (bind release fun _ => pure ()) (fun _ _ => nofun)
    (bind (workerFields w) fun _ => bind (log _ _ _) fun _ => bind (rounds h run w _ _ _ _) fun _ =>
      bind (workerFields w) fun _ => log _ _ _)

/-- A worker with a thread of its own leaves the thread as it found it. -/
theorem onThread (thread : ThreadId) (native : Bool) (w : Nat) {p : Eval Unit}
    (hp : Built on p) : Built on (LoadGenerator.onThread thread native w p) := by
  unfold LoadGenerator.onThread
  split
  · exact bind (switchThread _) fun _ => always (switchThread thread) (fun _ _ => nofun) hp
  · exact hp

/-- The first error is kept while the other workers run. -/
theorem runWorkers (h : self.Builds) (run : Nat) (size : Load) (thread : ThreadId)
    (native : Bool) (first : Option Error) (ws : List Nat) :
    Built on (LoadGenerator.runWorkers self run size thread native first ws) := by
  induction ws generalizing first with
  | nil =>
    cases first with
    | none => exact done ()
    | some e => exact fail e
  | cons w ws ih =>
    refine handle (onThread thread native w (worker h run size _ w)) ?_ rfl fun _ => rfl
    rintro ((e | a | -) | -)
    · exact ih _
    · exact stop _
    · exact stop _
    · exact ih first

/-- A run that cannot be set up starts no worker. -/
theorem load (h : self.Builds) (size : Load) : Built on (LoadGenerator.run self size) := by
  refine bind (mild fun m => .channels m.writer m.output m.notes m.log _) fun n =>
    handle (setup n _) ?_ rfl fun _ => rfl
  rintro ((e | a | -) | -)
  · exact fail _
  · exact stop _
  · exact stop _
  · exact bind (log _ _ _) fun _ => bind (read _) fun _ => bind (read _) fun _ =>
      bind (runWorkers h n size _ _ none _) fun _ => bind (read _) fun _ =>
      bind (log _ _ _) fun _ => pure _

/-! ### Calls of the embedding program -/

/-- A reference to a context is looked up by reading. -/
theorem contextOf (running : Option ContextId) (ref : ContextRef) :
    Built on (Host.contextOf running ref) := by
  cases ref with
  | running => exact done running
  | saved name => exact read _

/-- Each slot of a context is read for itself, and may be a fault. -/
theorem view (id : ContextId) : Built on (Host.view id) :=
  bind (readContext _ _) fun _ => bind (readContext _ _) fun _ => bind (read _) fun _ =>
    bind (readContext _ _) fun _ => bind (read _) fun _ => bind (readContext _ _) fun _ =>
    bind (read _) fun _ => bind (readContext _ _) fun _ => bind (read _) fun _ =>
    bind (readContext _ _) fun _ => bind (read _) fun _ => bind (readContext _ _) fun _ =>
    bind (read _) fun _ => bind (readContext _ _) fun _ => bind (read _) fun _ =>
    bind (readContext _ _) fun _ => bind (read _) fun _ => pure _

theorem showContext (id : ContextId) (saveAs : Option String) :
    Built on (Host.showContext id saveAs) := by
  refine bind (mild fun m => ?_) fun _ => bind (read _) fun _ => pure _
  cases saveAs with
  | none => exact .refl m
  | some name => exact .saved _

/-- Calls of the embedding program. -/
theorem perform (h : self.Builds) (running : Option ContextId) (c : HostCall) :
    Built on (Host.perform self running c) := by
  cases c with
  | invoke name args => exact bind (invokeHere h name args) fun _ => pure _
  | invokeIn ref name args =>
    exact bind (contextOf running ref) fun _ => bind (invokeIn h _ name args) fun _ => pure _
  | defineFunction | defineProcedure | defineNothing | setUnknown =>
    exact bind (define _ _) fun _ => pure _
  | delete name => exact bind (delete name) fun _ => pure _
  | rename old new => exact bind (rename old new) fun _ => pure _
  | clearCache => exact bind (mild fun _ => .onTable (a := .clearCache) trivial) fun _ => pure _
  | switchThread id => exact bind (switchThread id) fun _ => pure _
  | context saveAs => exact bind context fun id => showContext id saveAs
  | lookupContext saveAs => exact bind lookupContext fun id => showContext id saveAs
  | release => exact bind release fun _ => pure _
  | dispose => exact bind (unruly (.dispose fun _ => rfl)) fun _ => pure _
  | freeContext ref shared =>
    refine bind (contextOf running ref) fun id => ?_
    cases id with
    | some id => exact bind (unruly (.freeContext id shared fun _ => rfl)) fun _ => pure _
    | none => exact pure _
  | disposeContext ref =>
    refine bind (contextOf running ref) fun id => ?_
    cases id with
    | some id => exact bind (unruly (.disposeContext id fun _ => rfl)) fun _ => pure _
    | none => exact pure _
  | contextStage ref => exact bind (contextOf running ref) fun _ => bind (read _) fun _ => pure _
  | slots ref =>
    refine bind (contextOf running ref) fun id => ?_
    cases id with
    | some id => exact bind (view id) fun _ => pure _
    | none => exact stop _
  | makeScope name level => exact makeScope self running name level
  | globals | scopeVariables name => exact read _
  | load size => exact bind (load h size) fun _ => pure _
  | commands | cacheCount | cacheReport | haveCacheCounts | statistics | contextCount | isDisposed
  | outputCaptured => exact bind (read _) fun _ => pure _

/-! ### Bodies -/

theorem operand (inv : Invocation) (last : Value) (e : Expr) :
    Built on (Evaluation.operand inv last e) := by
  cases e with
  | var name => exact getVar inv name
  | value | arg | argCount | last | commandName => exact done _

theorem operands (inv : Invocation) (last : Value) (es : List Expr) :
    Built on (Evaluation.operands inv last es) := by
  induction es with
  | nil => exact done []
  | cons e es ih => exact bind (operand inv last e) fun _ => bind ih fun _ => pure _

theorem viewFrame (inv : Invocation) : Built on (Evaluation.viewFrame inv) :=
  bind (frame inv) fun _ => bind (globalFrame inv) fun _ => read _

theorem statement (h : self.Builds) (inv : Invocation) (last : Value) (s : Stmt) :
    Built (some inv.context) (Evaluation.statement self inv last s) := by
  cases s with
  | value e => exact operand inv last e
  | invoke name args =>
    exact bind (operand inv last name) fun _ => bind (operands inv last args) fun _ =>
      invocation h _ _ _
  | get name => exact bind (operand inv last name) fun _ => getVar inv _
  | set name e =>
    exact bind (operand inv last name) fun _ => bind (operand inv last e) fun _ =>
      bind (setVar inv _ _) fun _ => pure _
  | unset name =>
    exact bind (operand inv last name) fun _ => bind (unsetVar inv _) fun _ => pure _
  | level => exact bind (level inv) fun _ => pure _
  | ret e => exact bind (operand inv last e) fun _ => fail _
  | fail message => exact fail _
  | catchError body =>
    -- errors end here, and faults and exhaustion go on
    refine handle (h.body inv body) ?_ rfl fun _ => rfl
    rintro ((e | a | -) | v)
    · exact done _
    · exact stop _
    · exact stop _
    · exact done v
  | wrap label body =>
    refine handle (h.body inv body) ?_ rfl fun _ => rfl
    rintro ((e | a | -) | v)
    · exact fail _
    · exact stop _
    · exact stop _
    · exact done v
  | branch condition yes no =>
    refine bind (operand inv last condition) fun v => ?_
    split
    · exact h.body inv yes
    · exact h.body inv no
    · exact fail _
  | uplevel n body => exact uplevel inv n (h.body inv body)
  | inScope scope body => exact inScope inv scope (h.body inv body)
  | note e => exact bind (operand inv last e) fun _ => bind (note _) fun _ => pure _
  | noteFrame => exact bind (viewFrame inv) fun _ => bind (note _) fun _ => pure _
  | host c => exact host self inv last c (perform h _ c)

theorem statements (h : self.Builds) (inv : Invocation) (last : Value) (body : List Stmt) :
    Built (some inv.context) (Evaluation.statements self inv last body) := by
  induction body generalizing last with
  | nil => exact done last
  | cons s rest ih => exact bind (statement h inv last s) fun v => ih v

end Built

/-- The evaluator resolves names through the cache at every depth. -/
theorem Evaluation.resolve_cached (depth : Nat) : (cached depth).resolve = Eval.resolve := by
  cases depth <;> rfl

/-- The evaluator, by induction on how deeply bodies may nest. -/
theorem Runner.builds_cached (depth : Nat) : (Evaluation.cached depth).Builds := by
  induction depth with
  | zero => exact ⟨rfl, fun _ _ => .stop _⟩
  | succ depth ih => exact ⟨rfl, fun inv stmts => .statements ih inv .empty stmts⟩

end CommandHost
