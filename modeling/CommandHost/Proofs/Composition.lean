/-
CommandHost/Proofs/Composition.lean

Properties of evaluations from properties of their parts.

Evaluations are put together from atomic steps by handling outcomes and by
invocations.  `Composes` says how a property passes from the parts of a program to the
whole, and has one rule for each way to handle outcomes:

* almost everything passes stops on (`Relays`), except that invocations take faults;
* what takes returns (`Catches`) shields what it runs, so the property may be a weaker
  one there: it is then the one that holds for no context;
* what is run at the end whatever happens is one of a few programs (`Closing`).

There is one lemma for each function of the evaluator, in the order of its modules.  The
property may be about two programs, which then belong to two evaluators;
`Compositional.perform_cached` is about evaluators that differ in how deeply bodies may
nest.  It may depend on the context that a program runs for, and it only has to hold if
errors are of some kind.

A property that does not look at what a handler does with its outcomes only needs to
pass to every program that handles outcomes (`Handled`).  Which errors a program can end
with is one that does look (`Raises`).
-/
import CommandHost.Proofs.Atoms

namespace CommandHost

open Program Eval

/-! ### Ways to handle outcomes -/

/-- The programs that take faults: invocations, and calls that bodies make to the embedding
program. -/
inductive TakesFaults : (α : Type) × Eval α → Prop
  | invoke (self : Runner) (id : Option ContextId) (name : String) (args : List Value) :
      TakesFaults ⟨Value, Dispatch.invoke self id name args⟩
  | host (self : Runner) (inv : Invocation) (last : Value) (call : HostCall) :
      TakesFaults ⟨Value, Evaluation.statement self inv last (.host call)⟩

/-- The programs that take a return: statements that catch errors, procedures, and calls that bodies
make to the embedding program. -/
inductive TakesReturns : (α : Type) × Eval α → Prop
  | catchError (self : Runner) (inv : Invocation) (last : Value) (body : List Stmt) :
      TakesReturns ⟨Value, Evaluation.statement self inv last (.catchError body)⟩
  | procedure (p : Eval Value) : TakesReturns ⟨Value, Dispatch.takeReturn p⟩
  | host (self : Runner) (inv : Invocation) (last : Value) (call : HostCall) :
      TakesReturns ⟨Value, Evaluation.statement self inv last (.host call)⟩

section

variable {α β : Type} (p : Eval β) (k : Except Stop β → Eval α)

/-- A program that runs for a context passes on how its first part stops.  For no context, nothing is
asked of returns. -/
structure Relays (o : Option ContextId) : Prop where
  exhausted : k (.error .exhausted) = .stop .exhausted
  faults : TakesFaults ⟨α, handle p k⟩ ∨ ∀ a, k (.error (.fault a)) = .stop (.fault a)
  returns : ∀ id, o = some id → ∀ {m t : Machine} {e : Error} {v : Value},
    p.run m = (.error (.error e), t) → e.returned? = some v →
      ∃ e', k (.error (.error e)) = .stop (.error e') ∧ e'.returned? = some v

/-- A program that takes returns passes on that its first part was exhausted. -/
structure Catches : Prop where
  exhausted : k (.error .exhausted) = .stop .exhausted
  faults : TakesFaults ⟨α, handle p k⟩ ∨ ∀ a, k (.error (.fault a)) = .stop (.fault a)
  returns : TakesReturns ⟨α, handle p k⟩

variable {p k} {o : Option ContextId}

/-- Outside of contexts only faults and exhaustion have to be passed on. -/
theorem Relays.outside (hx : k (.error .exhausted) = .stop .exhausted)
    (hf : ∀ a, k (.error (.fault a)) = .stop (.fault a)) : Relays p k none where
  exhausted := hx
  faults := .inr hf
  returns id h := by cases h

/-- Errors stay at most behind labels. -/
theorem Relays.passing (hx : k (.error .exhausted) = .stop .exhausted)
    (hf : ∀ a, k (.error (.fault a)) = .stop (.fault a))
    (he : ∀ e, ∃ e', k (.error (.error e)) = .stop (.error e') ∧ e'.returned? = e.returned?) :
    Relays p k o where
  exhausted := hx
  faults := .inr hf
  returns id _ m t e v _ hv := by
    obtain ⟨e', hk, hroot⟩ := he e
    exact ⟨e', hk, hroot.trans hv⟩

end

/-- What is run at the end of a program for a context whatever happens.  What ends a call changes the
stack, and is out of the way of returns there. -/
inductive Closing : Option ContextId → Eval Unit → Prop
  | uplevel (id : ContextId) (current before : Option FrameId) :
      Closing (some id) (Dispatch.moveTo id current before)
  | scope (id : ContextId) (before : Option FrameId) : Closing (some id) (writeFrame id .scope before)
  | call (id : ContextId) (frame : FrameId) (current procedure : Option FrameId) :
      Closing none (Dispatch.leaveCall id frame current procedure)
  | release : Closing none (do let _ ← change (·.release))
  | switchThread (thread : ThreadId) : Closing none (modify fun m => { m with thread })

/-! ### Properties that compose -/

/-- Properties of two programs, of two evaluators, that hold of atomic steps and pass from parts to
programs, as long as errors are of a kind. -/
structure Composes (wild : Prop) (kind : Error → Prop)
    (P : {α : Type} → Option ContextId → Eval α → Eval α → Prop) : Prop where
  errors : Error.Kind kind
  done : ∀ {o : Option ContextId} {α : Type} (a : α), P o (done a : Eval α) (done a)
  stop : ∀ {o : Option ContextId} {α : Type} {s : Stop}, s.Of kind →
    P o (stop s : Eval α) (stop s)
  atom : ∀ {o : Option ContextId} {α : Type} {p : Eval α}, Atom wild kind p → P o p p
  handle : ∀ {o : Option ContextId} {α β : Type} {p p' : Eval β} {k k' : Except Stop β → Eval α},
    P o p p' → (∀ r, (∀ s, r = .error s → s.Of kind) → P o (k r) (k' r)) →
    Relays p k o → Relays p' k' o → P o (handle p k) (handle p' k')
  take : ∀ {o : Option ContextId} {α β : Type} {p p' : Eval β} {k k' : Except Stop β → Eval α},
    P none p p' → (∀ r, (∀ s, r = .error s → s.Of kind) → P none (k r) (k' r)) →
    Catches p k → Catches p' k' → P o (Program.handle p k) (Program.handle p' k')
  always : ∀ {o : Option ContextId} {α : Type} {restore : Eval Unit} {p p' : Eval α},
    Closing o restore → P o restore restore → P o p p' →
    P o (always restore p) (always restore p')
  /-- What holds for a context holds for none. -/
  forget : ∀ {o : Option ContextId} {α : Type} {p p' : Eval α}, P o p p' → P none p p'

namespace Composes

variable {wild : Prop} {kind : Error → Prop}
  {P : {α : Type} → Option ContextId → Eval α → Eval α → Prop} (h : Composes wild kind P)
  {o : Option ContextId} {α β : Type}

include h

/-- One program after another; the second is not run if the first stops. -/
theorem bind {p p' : Eval β} {k k' : β → Eval α} (hp : P o p p') (hk : ∀ b, P o (k b) (k' b)) :
    P o (p >>= k) (p' >>= k') := by
  -- errors pass through as they are
  have hpass (e : Error) : ∃ e', (Program.stop (.error e) : Eval α) = .stop (.error e') ∧
      e'.returned? = e.returned? := ⟨e, rfl, rfl⟩
  refine h.handle hp ?_ (.passing rfl (fun _ => rfl) hpass) (.passing rfl (fun _ => rfl) hpass)
  rintro (s | b) hr
  · exact h.stop (hr s rfl)
  · exact hk b

theorem fail {e : Error} (he : kind e) : P o (Eval.fail e : Eval α) (Eval.fail e) :=
  h.stop (s := .error e) he

/-- The interpreter reports an error. -/
theorem report {e : Error} (he : e.Own) : P o (Eval.fail e : Eval α) (Eval.fail e) :=
  h.fail (h.errors.own he)

theorem misuse (c : Misuse) : P o (Eval.misuse c : Eval α) (Eval.misuse c) := h.report (.misuse c)

/-- A command reports that it cannot do what it is asked. -/
theorem failure (inv : Invocation) (c : ScriptCause) (detail : String) :
    P o (Eval.fail (inv.error c detail) : Eval α) (Eval.fail (inv.error c detail)) :=
  h.report (.script _ _ _)

/-- A computation that needs no machine. -/
theorem ofError {r : Except Error α} (hr : ∀ e, r = .error e → e.Own) :
    P o (Eval.ofError r) (Eval.ofError r) := by
  cases r with
  | ok a => exact h.done a
  | error e => exact h.report (hr e rfl)

/-- Reading is atomic, unless it is the policy that is read. -/
theorem read {f : Machine → α} (hf : ∀ (m : Machine) p, f (m.under p) = f m) :
    P o (Program.read f : Eval α) (.read f) :=
  h.atom (.read hf)

theorem note (n : Note) : P o (Eval.note n) (Eval.note n) :=
  h.atom (.modify (fun _ => ⟨_, _, _, _, _, _, _, _, rfl⟩) fun _ _ => rfl)

theorem logHere (level : LogLevel) (message : String) (fields : List (String × String)) :
    P o (Eval.logHere level message fields) (Eval.logHere level message fields) :=
  h.atom (.logged _ fun _ _ => rfl)

/-! ### Variables -/

theorem readFrame (id : ContextId) (slot : Slot) :
    P o (Eval.readFrame id slot) (Eval.readFrame id slot) :=
  h.atom (.touch id (.frame slot) (·.frame slot))

theorem readStack (id : ContextId) : P o (Eval.readStack id) (Eval.readStack id) :=
  h.atom (.touch id .stack (·.stack))

theorem readCurrentGlobal (id : ContextId) :
    P o (Eval.readCurrentGlobal id) (Eval.readCurrentGlobal id) :=
  h.atom (.touch id .currentGlobal (·.currentGlobal))

theorem required (f : Option FrameId) : P o (Invocation.required f) (Invocation.required f) := by
  cases f with
  | some f => exact h.done f
  | none => exact h.misuse _

theorem frame (inv : Invocation) : P o inv.frame inv.frame :=
  h.bind (h.readFrame _ _) h.required

theorem globalFrame (inv : Invocation) : P o inv.globalFrame inv.globalFrame :=
  h.bind (h.readCurrentGlobal _) h.required

/-- Finding the frame of a variable may fail, as there may be no current or global frame. -/
theorem home (inv : Invocation) (name : String) : P o (inv.home name) (inv.home name) := by
  unfold Invocation.home
  split
  · exact h.bind (h.globalFrame inv) fun _ => h.done _
  · exact h.bind (h.frame inv) fun _ => h.done _

/-- A variable that does not exist is reported by the command that reads it. -/
theorem getVar (inv : Invocation) (name : String) : P o (inv.getVar name) (inv.getVar name) := by
  refine h.bind (h.home inv name) fun b => h.bind (h.read fun _ _ => rfl) fun v => ?_
  cases v with
  | some v => exact h.done v
  | none => exact h.failure inv _ _

theorem setVar (inv : Invocation) (name : String) (v : Value) :
    P o (inv.setVar name v) (inv.setVar name v) :=
  h.bind (h.home inv name) fun _ => h.atom (.modifyFrame _ _)

/-- Removing a variable is one step, which fails if it does not exist. -/
theorem unsetVar (inv : Invocation) (name : String) :
    P o (inv.unsetVar name) (inv.unsetVar name) := by
  refine h.bind (h.home inv name) fun b =>
    h.atom (.quiet (fun m => ?_) (fun m p => ?_) fun m s hs => ?_)
  · split
    · exact ⟨_, _, _, _, _, _, _, _, rfl⟩
    · exact .refl m
  · -- whatever the policy, the same is removed
    have hframes : (m.under p).frames = m.frames := rfl
    simp only [hframes]
    split <;> rfl
  · split at hs
    · cases hs
    · obtain rfl := Except.error.inj hs
      exact h.errors.own (.script _ _ _)

/-- An update fails where the change of the value does. -/
theorem updateVar (inv : Invocation) (name : String) {new : Option Value → Except Error Value}
    (hnew : ∀ old e, new old = .error e → e.Own) :
    P o (inv.updateVar name new) (inv.updateVar name new) := by
  refine h.bind (h.home inv name) fun b =>
    h.atom (.quiet (fun m => ?_) (fun m p => ?_) fun m s hs => ?_)
  · split
    · exact .refl m
    · split
      · exact ⟨_, _, _, _, _, _, _, _, rfl⟩
      · exact .refl m
  · have hframes : (m.under p).frames = m.frames := rfl
    simp only [hframes]
    split
    · rfl
    · split <;> rfl
  · split at hs
    · obtain rfl := Except.error.inj hs
      exact h.errors.own (.misuse _)
    · rename_i frame _
      split at hs
      · cases hs
      · rename_i e hupdate
        obtain rfl := Except.error.inj hs
        -- the frame passes on the error of the change
        unfold Frame.update at hupdate
        cases hchange : new (frame.get? b.2) with
        | ok v => simp [hchange, Except.map] at hupdate
        | error e' =>
          rw [hchange] at hupdate
          exact Except.error.inj hupdate ▸ h.errors.own (hnew _ _ hchange)

theorem level (inv : Invocation) : P o inv.level inv.level :=
  h.bind (h.frame inv) fun _ => h.read fun _ _ => rfl

end Composes

/-! ### Errors that a program can end with -/

/-- Runs through machines that have a property end with no error but one of a kind. -/
def Raises (E : Machine → Prop) (kind : Error → Prop) {α : Type} (p : Eval α) : Prop :=
  ∀ m, p.Throughout E m → ∀ e, (p.run m).1 = .error (.error e) → kind e

namespace Raises

variable {E : Machine → Prop} {kind : Error → Prop} {α β : Type}

/-- Faults and exhaustion are not errors, so nothing is asked of them. -/
theorem stop {s : Stop} (hs : s.Of kind) : Raises E kind (stop s : Eval α) := by
  intro m _ e he
  obtain rfl := Except.error.inj he
  exact hs

/-- How a program goes on may depend on its first part raising errors of the kind. -/
theorem handle {p : Eval β} {k : Except Stop β → Eval α} (hp : Raises E kind p)
    (hk : ∀ r, r ≠ .error .exhausted → (∀ s, r = .error s → s.Of kind) → Raises E kind (k r))
    (hx : k (.error .exhausted) = .stop .exhausted) : Raises E kind (handle p k) := by
  intro m h e he
  obtain ⟨hthrough, hrest⟩ := h.of_handle
  rw [run_handle] at he
  rcases hr : p.run m with ⟨r, t⟩
  rw [hr] at he hrest
  -- exhaustion passes as it is, so no error comes of it
  by_cases hexhausted : r = .error .exhausted
  · subst hexhausted
    rw [hx] at he
    cases he
  · refine hk r hexhausted ?_ t hrest e he
    rintro s rfl
    cases s with
    | error e' => exact hp m hthrough e' (by rw [hr])
    | fault a => trivial
    | exhausted => exact hexhausted rfl

/-- A program that goes on without other errors whatever its first part comes to. -/
theorem handle_rest {p : Eval β} {k : Except Stop β → Eval α} (hk : ∀ r, Raises E kind (k r)) :
    Raises E kind (Program.handle p k) :=
  fun _ h e he => hk _ _ h.of_handle.2 e he

/-- A program may go on according to what the first part gives in a machine with the property. -/
theorem bind_of {p : Eval β} {k : β → Eval α} (hp : Raises E kind p)
    (hk : ∀ m b, E m → (p.run m).1 = .ok b → Raises E kind (k b)) : Raises E kind (p >>= k) := by
  intro m h e he
  obtain ⟨hthrough, hrest⟩ := h.of_bind
  rw [run_bind] at he
  rcases hr : p.run m with ⟨s | b, t⟩
  · rw [hr] at he
    refine hp m hthrough e ?_
    rw [hr]
    exact congrArg Except.error (Except.error.inj he)
  · rw [hr] at he hrest
    exact hk m b hthrough.start (by rw [hr]) t (hrest b rfl) e he

/-- The errors of a program are of a kind if those of its parts are. -/
theorem composes (wild : Prop) (E : Machine → Prop) (hk : Error.Kind kind) :
    Composes wild kind fun _ p _ => Raises E kind p where
  errors := hk
  done a m _ e he := by cases he
  stop hs := stop hs
  atom h m _ e he := h.of_error hk he
  handle hp hk' hrelays _ := handle hp (fun r _ => hk' r) hrelays.exhausted
  take hp hk' hcatches _ := handle hp (fun r _ => hk' r) hcatches.exhausted
  always {_ α restore p _} _ hr hp := by
    refine handle hp (fun r hx hs => ?_) rfl
    -- the end of a bracket is again a program that handles an outcome
    obtain ⟨k, hk', hok, hstop⟩ := exists_restoring_eq restore hx
    show Raises E kind (restoring restore r)
    rw [hk']
    refine handle hr ?_ (hstop _)
    rintro (s | u) _ hs'
    · rw [hstop]
      exact stop (hs' _ rfl)
    · rw [hok]
      cases r with
      | ok a =>
        intro m _ e he
        cases he
      | error s => exact stop (hs _ rfl)
  forget hp := hp

end Raises

/-- Programs that never end with a pending return. -/
abbrev Unreturning {α : Type} (p : Eval α) : Prop :=
  Raises (fun _ => True) (fun e => e.returned? = none) p

/-- What it means for a single run, wherever that starts. -/
theorem Unreturning.returned? {α : Type} {p : Eval α} (h : Unreturning p) {m : Machine} {e : Error}
    (he : (p.run m).1 = .error (.error e)) : e.returned? = none :=
  h m (fun _ _ => trivial) e he

/-- Only returns are pending returns. -/
theorem Error.kind_unreturning : Error.Kind fun e => e.returned? = none where
  own h := by cases h <;> rfl
  faulted _ := rfl
  plain _ := rfl
  wrapped _ h := h

/-- What does not end with a return may be followed by anything. -/
theorem Relays.of_unreturning {α β : Type} {p : Eval β} {k : Except Stop β → Eval α}
    {o : Option ContextId} (hp : Unreturning p) (hx : k (.error .exhausted) = .stop .exhausted)
    (hf : ∀ a, k (.error (.fault a)) = .stop (.fault a)) : Relays p k o where
  exhausted := hx
  faults := .inr hf
  returns _ _ m t e v hrun hv := by
    rw [hp.returned? (by rw [hrun])] at hv
    cases hv

/-- What runs no `return` ends with none. -/
theorem composes_unreturning :
    Composes True (fun e => e.returned? = none) fun _ p _ => Unreturning p :=
  Raises.composes True _ Error.kind_unreturning

namespace Composes

variable {wild : Prop} {kind : Error → Prop}
  {P : {α : Type} → Option ContextId → Eval α → Eval α → Prop} (h : Composes wild kind P)
  {o : Option ContextId} {α β : Type}

include h

/-! ### Builtin commands -/

/-- Only a command can be defined, not the lack of one. -/
theorem define (hw : wild) (name : String) (c : Option Command) :
    P o (Eval.define name c) (Eval.define name c) := by
  cases c with
  | some c => exact h.atom (.define hw name c)
  | none => exact h.misuse _

theorem unsetAll (inv : Invocation) (args : List Value) :
    P o (Builtin.unsetAll inv args) (Builtin.unsetAll inv args) := by
  induction args with
  | nil => exact h.done ()
  | cons v vs ih => exact h.bind (h.unsetVar inv _) fun _ => ih

/-- The writer may refuse the line, and then the command reports it. -/
theorem writeLine (inv : Invocation) (s : String) :
    P o (Builtin.writeLine inv s) (Builtin.writeLine inv s) := by
  refine h.atom (.quiet (fun m => ⟨_, _, _, _, _, _, _, _, rfl⟩) (fun _ _ => rfl) fun m s hs => ?_)
  dsimp only at hs
  split at hs
  · cases hs
  · obtain rfl := Except.error.inj hs
    exact h.errors.own (.script _ _ _)

/-- All topics only read, and one of them goes on after an error. -/
theorem inform (inv : Invocation) (topic : String) (rest : List Value) :
    P o (Builtin.inform inv topic rest) (Builtin.inform inv topic rest) := by
  unfold Builtin.inform
  split
  · exact h.bind (h.read fun _ _ => rfl) fun _ => h.done _
  · split
    · -- whether a variable exists is asked without raising a return
      rename_i name
      have hgetVar : Unreturning (inv.getVar name.toText) :=
        composes_unreturning.getVar (o := none) inv _
      refine h.handle (h.getVar inv _) ?_ (.of_unreturning hgetVar rfl fun _ => rfl)
        (.of_unreturning hgetVar rfl fun _ => rfl)
      rintro ((e | a | -) | v) hr
      · exact h.done _
      · exact h.stop (hr _ rfl)
      · exact h.stop (hr _ rfl)
      · exact h.done _
    · exact h.failure inv _ _
  · exact h.bind (h.level inv) fun _ => h.done _
  · exact h.bind (h.read fun _ _ => rfl) fun _ => h.done _
  · split
    · exact h.bind (h.atom (.askCache _)) fun _ => h.done _
    · exact h.failure inv _ _
  · exact h.failure inv _ _

/-- Builtin commands; `return` is the one that raises a return. -/
theorem builtin (hreturn : ∀ v, kind (.returning v)) (b : Builtin) (inv : Invocation)
    (args : List Value) : P o (b.run inv args) (b.run inv args) := by
  cases b with
  | set =>
    simp only [Builtin.run]
    split
    · exact h.getVar inv _
    · exact h.bind (h.setVar inv _ _) fun _ => h.done _
    · exact h.failure inv _ _
  | unset => exact h.bind (h.unsetAll inv args) fun _ => h.done _
  | incr =>
    simp only [Builtin.run]
    split
    · exact h.updateVar inv _ fun _ _ => Builtin.own_add
    · exact h.bind (h.ofError fun _ => Builtin.own_number) fun n =>
        h.updateVar inv _ fun _ _ => Builtin.own_add
    · exact h.failure inv _ _
  | append =>
    cases args with
    | nil => exact h.failure inv _ _
    | cons name parts =>
      simp only [Builtin.run]
      exact h.updateVar inv _ (by rintro old e ⟨⟩)
  | puts =>
    simp only [Builtin.run]
    split
    · exact h.bind (h.writeLine inv _) fun _ => h.done _
    · exact h.failure inv _ _
  | rename =>
    simp only [Builtin.run]
    split
    · exact h.bind (h.atom (.rename _ _)) fun _ => h.done _
    · exact h.failure inv _ _
  | ret =>
    simp only [Builtin.run]
    split
    · exact h.fail (hreturn _)
    · exact h.fail (hreturn _)
    · exact h.failure inv _ _
  | info =>
    cases args with
    | nil => exact h.failure inv _ _
    | cons topic rest => exact h.inform inv _ _

/-! ### Moving through frames -/

/-- Going up may fail because there are not so many levels, or no frame at one of them. -/
theorem frameAbove (inv : Invocation) (level : Int) :
    P o (Dispatch.frameAbove inv level) (Dispatch.frameAbove inv level) := by
  refine h.bind (h.frame inv) fun f => h.bind (h.read fun _ _ => rfl) fun n => ?_
  dsimp only
  split
  · exact h.failure inv _ _
  · refine h.bind (h.readCurrentGlobal _) fun outermost => ?_
    split
    · refine h.bind (h.readStack _) fun stack => ?_
      split
      · exact h.done _
      · exact h.failure inv _ _
    · exact h.done _

theorem moveTo (id : ContextId) (current uplevel : Option FrameId) :
    P o (Dispatch.moveTo id current uplevel) (Dispatch.moveTo id current uplevel) :=
  h.bind (h.atom (.writeFrame id _ _)) fun _ => h.atom (.writeFrame id _ _)

/-- The bracket of a move is on the context of the command. -/
theorem uplevel (inv : Invocation) (level : Int) {p p' : Eval Value}
    (hp : P (some inv.context) p p') :
    P (some inv.context) (Dispatch.uplevel inv level p) (Dispatch.uplevel inv level p') :=
  h.bind (h.frameAbove inv level) fun _ => h.bind (h.readFrame _ _) fun _ =>
    h.bind (h.readFrame _ _) fun _ => h.bind (h.moveTo _ _ _) fun _ =>
    h.always (.uplevel _ _ _) (h.moveTo _ _ _) hp

/-- Working in a scope puts the scope before back at the end. -/
theorem inScope (inv : Invocation) (scope : Option FrameId) {p p' : Eval Value}
    (hp : P (some inv.context) p p') :
    P (some inv.context) (Dispatch.inScope inv scope p) (Dispatch.inScope inv scope p') := by
  cases scope with
  | none => exact h.misuse _
  | some f =>
    exact h.bind (h.readFrame _ _) fun _ => h.bind (h.atom (.writeFrame _ _ _)) fun _ =>
      h.always (.scope _ _) (h.atom (.writeFrame _ _ _)) hp

/-! ### Calling procedures -/

/-- A call makes a frame unless the arguments do not fit or calls are nested too deeply. -/
theorem callFrame (inv : Invocation) (name : String) (params : List String) (args : List Value) :
    P o (Dispatch.callFrame inv name params args) (Dispatch.callFrame inv name params args) := by
  unfold Dispatch.callFrame
  split
  · exact h.failure inv _ _
  · refine h.bind (h.readStack _) fun stack => ?_
    cases stack with
    | none => exact h.misuse _
    | some stack =>
      refine h.bind (h.read fun _ _ => rfl) fun maxDepth => ?_
      split
      · exact h.failure inv _ _
      · exact h.atom (.change (fun _ => ⟨_, _, _, _, _, _, _, _, rfl⟩) fun _ _ => rfl)

/-- What a procedure runs may return, and no more than that is shielded: other errors pass. -/
theorem takeReturn {p p' : Eval Value} (hp : P none p p') :
    P o (Dispatch.takeReturn p) (Dispatch.takeReturn p') := by
  refine h.take hp ?_ ⟨rfl, .inr fun _ => rfl, .procedure p⟩ ⟨rfl, .inr fun _ => rfl, .procedure p'⟩
  rintro ((e | a | -) | v) hr
  · dsimp only
    split
    · exact h.done _
    · exact h.fail (hr _ rfl)
  · exact h.stop (hr _ rfl)
  · exact h.stop (hr _ rfl)
  · exact h.done v

/-- Putting the slots back after a call. -/
theorem leaveFrames (id : ContextId) (frame : FrameId) (current procedure : Option FrameId) :
    P o (modifyFrame frame (·.dispose) >>= fun _ => writeFrame id .current current >>= fun _ =>
        writeFrame id .procedure procedure)
      (modifyFrame frame (·.dispose) >>= fun _ => writeFrame id .current current >>= fun _ =>
        writeFrame id .procedure procedure) :=
  h.bind (h.atom (.modifyFrame _ _)) fun _ => h.bind (h.atom (.writeFrame _ _ _)) fun _ =>
    h.atom (.writeFrame _ _ _)

/-- What a procedure runs is shielded from returns, so nothing has to be known there of the
context. -/
theorem callProcedure (hw : wild) (inv : Invocation) (name : String) (params : List String)
    (args : List Value) {p p' : Eval Value} (hp : P none p p') :
    P o (Dispatch.callProcedure inv name params args p)
      (Dispatch.callProcedure inv name params args p') := by
  refine h.bind (h.callFrame inv name params args) fun frame => h.takeReturn ?_
  refine h.bind (h.readFrame _ _) fun current => h.bind (h.readFrame _ _) fun procedure => ?_
  -- the stack changes from here on, where returns are taken
  have henter : P none (Dispatch.enterCall inv.context frame)
      (Dispatch.enterCall inv.context frame) :=
    h.bind (h.atom (.modifyStack hw _ _)) fun _ => h.bind (h.atom (.writeFrame _ _ _)) fun _ =>
      h.atom (.writeFrame _ _ _)
  exact h.bind henter fun _ => h.always (.call _ _ _ _)
    (h.bind (h.atom (.modifyStack hw _ _)) fun _ => h.leaveFrames _ _ _ _) hp

/-! ### Executing and invoking -/

/-- The one command that reports a cause by itself. -/
theorem square (hbare : ∀ c, kind (.bare c)) (inv : Invocation) (args : List Value) :
    P o (Dispatch.square inv args) (Dispatch.square inv args) := by
  unfold Dispatch.square
  split
  · split
    · exact h.done _
    · exact h.fail (h.errors.plain _)
  · exact h.fail (h.errors.wrapped _ (hbare _))

theorem countUnknown (run : Nat) : P o (Dispatch.countUnknown run) (Dispatch.countUnknown run) :=
  h.atom (.count run _)

/-- A return that no procedure has taken becomes an error of its own. -/
theorem topLevel {p p' : Eval Value} (hp : P none p p') :
    P none (Dispatch.topLevel p) (Dispatch.topLevel p') := by
  refine h.handle hp ?_ (.outside rfl fun _ => rfl) (.outside rfl fun _ => rfl)
  rintro ((e | a | -) | v) hr
  · dsimp only
    split
    · exact h.report (.script _ _ _)
    · exact h.fail (hr _ rfl)
  · exact h.stop (hr _ rfl)
  · exact h.stop (hr _ rfl)
  · exact h.done v

/-- Reporting a fault, which is logged. -/
theorem reported (name : String) {r : Except Stop Value} (hr : ∀ s, r = .error s → s.Of kind) :
    P o (Dispatch.reported name r) (Dispatch.reported name r) := by
  rcases r with (e | a | -) | v
  · exact h.stop (hr _ rfl)
  · exact h.bind (h.logHere _ _ _) fun _ => h.fail (h.errors.faulted a)
  · exact h.stop (hr _ rfl)
  · exact h.done v

section

variable (self self' : Runner)

/-- Executing commands, given the bodies that they run. -/
theorem execute (hw : wild) (hreturn : ∀ v, kind (.returning v)) {c : Command}
    (hsquare : c = .square → ∀ cause, kind (.bare cause))
    (hbody : ∀ inv b, P (some inv.context) (self.body inv b) (self'.body inv b))
    (inv : Invocation) (args : List Value) :
    P (some inv.context) (Dispatch.execute self c inv args) (Dispatch.execute self' c inv args) := by
  cases c with
  | builtin b => exact h.builtin hreturn b inv args
  | function body => exact hbody { inv with args } body
  | procedure name params body =>
    exact h.callProcedure hw inv name params args (h.forget (hbody _ body))
  | square => exact h.square (hsquare rfl) inv args
  | tally run => exact h.bind (h.countUnknown run) fun _ => h.done _

/-- The handler of unknown names gets one argument more. -/
theorem executeResolved (hw : wild) (hreturn : ∀ v, kind (.returning v)) {r : Resolution}
    (hsquare : r.command = .square → ∀ cause, kind (.bare cause))
    (hbody : ∀ inv b, P (some inv.context) (self.body inv b) (self'.body inv b))
    (inv : Invocation) (args : List Value) :
    P (some inv.context) (Dispatch.executeResolved self r inv args)
      (Dispatch.executeResolved self' r inv args) := by
  cases r with
  | direct c => exact h.execute self self' hw hreturn hsquare hbody inv args
  | unknown c name => exact h.execute self self' hw hreturn hsquare hbody inv _

/-- How an invocation goes on once it has looked at the context, given the commands that names
resolve to. -/
theorem admitted_of_command {id : Option ContextId} {name : String} {args : List Value}
    (hcommand : ∀ context, id = some context → P id
      (self.resolve name >>= fun r => Dispatch.executeResolved self r { context, name } args)
      (self'.resolve name >>= fun r => Dispatch.executeResolved self' r { context, name } args)) :
    P id (Program.read (·.canUse id) >>= Dispatch.admitted self id name args)
      (Program.read (·.canUse id) >>= Dispatch.admitted self' id name args) := by
  refine h.bind (h.read fun _ _ => rfl) fun usable => ?_
  cases id with
  | none => exact h.misuse _
  | some context =>
    cases usable with
    | true => exact hcommand context rfl
    | false => exact h.misuse _

/-- An invocation reports the faults of what it runs. -/
theorem invoke {id : Option ContextId} {name : String} {args : List Value}
    (hadmitted : P id (Program.read (·.canUse id) >>= Dispatch.admitted self id name args)
      (Program.read (·.canUse id) >>= Dispatch.admitted self' id name args)) :
    P id (Dispatch.invoke self id name args) (Dispatch.invoke self' id name args) := by
  have hrelays (self : Runner) : Relays (Program.read (·.canUse id) >>=
      Dispatch.admitted self id name args) (Dispatch.reported name) id :=
    ⟨rfl, .inl (.invoke self id name args), fun _ _ _ _ e _ _ hv => ⟨e, rfl, hv⟩⟩
  rw [Dispatch.invoke_eq, Dispatch.invoke_eq]
  exact h.handle hadmitted (fun r => h.reported name) (hrelays self) (hrelays self')

end

end Composes

/-! ### Evaluators -/

/-- Two evaluators whose invocations have a property together. -/
def Runner.Share (P : {α : Type} → Option ContextId → Eval α → Eval α → Prop) (r r' : Runner) :
    Prop :=
  ∀ id name args, P id (Dispatch.invoke r id name args) (Dispatch.invoke r' id name args)

namespace Composes

variable {wild : Prop} {kind : Error → Prop}
  {P : {α : Type} → Option ContextId → Eval α → Eval α → Prop} (h : Composes wild kind P)
  {self self' : Runner} (hs : self.Share P self') {o : Option ContextId}

include h hs

/-- An invocation on the context of the current thread. -/
theorem invokeHere (name : String) (args : List Value) :
    P none (Dispatch.invokeHere self name args) (Dispatch.invokeHere self' name args) :=
  h.bind (h.atom .context) fun id => h.topLevel (h.forget (hs (some id) name args))

/-- An invocation on a given context, which is refused once the interpreter is disposed. -/
theorem invokeIn (id : Option ContextId) (name : String) (args : List Value) :
    P none (Dispatch.invokeIn self id name args) (Dispatch.invokeIn self' id name args) := by
  refine h.bind (h.read fun _ _ => rfl) fun disposed => ?_
  cases disposed with
  | true => exact h.misuse _
  | false => exact h.topLevel (h.forget (hs id name args))

/-! ### The load generator -/

omit hs in
theorem log (level : LogLevel) (message : String) (fields : List (String × String)) :
    P o (LoadGenerator.log level message fields) (LoadGenerator.log level message fields) :=
  h.atom (.logged _ fun _ _ => rfl)

omit hs in
/-- The commands of a load, by induction on its workers. -/
theorem setup (hw : wild) (run workers : Nat) :
    P o (LoadGenerator.setup run workers) (LoadGenerator.setup run workers) := by
  have hsquares (ws : List Nat) :
      P o (ws.forM fun w => Eval.define (LoadGenerator.squareName w) (some .square))
        (ws.forM fun w => Eval.define (LoadGenerator.squareName w) (some .square)) := by
    induction ws with
    | nil => exact h.done ()
    | cons w ws ih => exact h.bind (h.define hw _ _) fun _ => ih
  exact h.bind (h.define hw _ _) fun _ => h.bind (hsquares _) fun _ => h.define hw _ _

/-- The call of a worker labels the errors of scripts. -/
theorem generatedCall (run : Nat) (name : String) (args : List Value) :
    P none (LoadGenerator.call self run name args) (LoadGenerator.call self' run name args) := by
  refine h.handle (h.invokeHere hs name args) ?_ (.outside rfl fun _ => rfl)
    (.outside rfl fun _ => rfl)
  rintro ((e | a | -) | v) hr
  · dsimp only
    split
    · exact h.fail (h.errors.wrapped _ (hr _ rfl))
    · exact h.fail (hr _ rfl)
  · exact h.stop (hr _ rfl)
  · exact h.stop (hr _ rfl)
  · exact h.bind (h.atom (.count run _)) fun _ => h.done v

omit hs in
theorem churn (hw : wild) (run worker : Nat) :
    P o (LoadGenerator.churn run worker) (LoadGenerator.churn run worker) := by
  refine h.bind (h.define hw _ _) fun _ => h.bind (h.atom (.rename _ _)) fun _ =>
    h.bind (h.atom (.rename _ _)) fun _ => h.bind (h.atom (.count run _)) fun _ => ?_
  split
  · exact h.bind (h.define hw _ _) fun _ => h.atom (.count run _)
  · exact h.done ()

omit hs in
theorem workerFields (worker : Nat) :
    P o (LoadGenerator.workerFields worker) (LoadGenerator.workerFields worker) :=
  h.bind (h.read fun _ _ => rfl) fun _ => h.done _

/-- One round of a worker: three calls, a check, a fourth call, and a churn in some rounds. -/
theorem round (hw : wild) (run worker : Nat) (churnEvery : Int) (i : Nat) :
    P none (LoadGenerator.round self run worker churnEvery i)
      (LoadGenerator.round self' run worker churnEvery i) := by
  let churned : Eval Unit := if 0 < churnEvery ∧ i % churnEvery = churnEvery - 1 then do
      LoadGenerator.churn run worker
      LoadGenerator.log .debug "commands churned"
        ((← LoadGenerator.workerFields worker) ++ [("iteration", Number.intText i)])
    else pure ()
  have hchurned : P none churned churned := by
    unfold churned
    split
    · exact h.bind (h.churn hw run worker) fun _ => h.bind (h.workerFields worker) fun _ =>
        h.log _ _ _
    · exact h.done ()
  refine h.bind (h.generatedCall hs run _ _) fun _ => h.bind (h.generatedCall hs run _ _) fun _ =>
    h.bind (h.generatedCall hs run _ _) fun v => ?_
  dsimp only
  -- a wrong square ends the round
  split
  · exact h.bind (h.fail (h.errors.plain _)) fun _ => h.bind (h.generatedCall hs run _ _) fun _ =>
      hchurned
  · exact h.bind (h.generatedCall hs run _ _) fun _ => hchurned

/-- The rounds of a worker, by induction on those that are left. -/
theorem rounds (hw : wild) (run worker : Nat) (churnEvery : Int) (cancelled : Bool)
    (i left : Nat) :
    P none (LoadGenerator.rounds self run worker churnEvery cancelled i left)
      (LoadGenerator.rounds self' run worker churnEvery cancelled i left) := by
  induction left generalizing i with
  | zero => exact h.done ()
  | succ left ih =>
    have hround := h.bind (h.round hs hw run worker churnEvery i) fun _ => ih (i + 1)
    unfold LoadGenerator.rounds
    dsimp only
    split
    · exact h.bind (h.fail (h.errors.plain _)) fun _ => hround
    · exact hround

theorem worker (hw : wild) (run : Nat) (size : Load) (cancelled : Bool) (w : Nat) :
    P none (LoadGenerator.worker self run size cancelled w)
      (LoadGenerator.worker self' run size cancelled w) :=
  h.always .release (h.bind (h.atom (.release hw)) fun _ => h.done ())
    (h.bind (h.workerFields w) fun _ => h.bind (h.log _ _ _) fun _ =>
      h.bind (h.rounds hs hw run w _ _ _ _) fun _ => h.bind (h.workerFields w) fun _ => h.log _ _ _)

/-- Workers one after the other, by induction on those that are left; the first error is of the kind
since it is one that a worker ended with. -/
theorem runWorkers (hw : wild) (run : Nat) (size : Load) (thread : ThreadId) (native : Bool)
    {first : Option Error} (hfirst : ∀ e, first = some e → kind e) (ws : List Nat) :
    P none (LoadGenerator.runWorkers self run size thread native first ws)
      (LoadGenerator.runWorkers self' run size thread native first ws) := by
  induction ws generalizing first with
  | nil =>
    cases first with
    | none => exact h.done ()
    | some e => exact h.fail (hfirst e rfl)
  | cons w ws ih =>
    have hthread : P none (LoadGenerator.onThread thread native w (LoadGenerator.worker self run size
          (size.cancelled || first.isSome) w))
        (LoadGenerator.onThread thread native w (LoadGenerator.worker self' run size
          (size.cancelled || first.isSome) w)) := by
      unfold LoadGenerator.onThread
      split
      · exact h.bind (h.atom (.switchThread hw _)) fun _ =>
          h.always (.switchThread thread) (h.atom (.switchThread hw thread))
            (h.worker hs hw run size _ w)
      · exact h.worker hs hw run size _ w
    refine h.handle hthread ?_ (.outside rfl fun _ => rfl) (.outside rfl fun _ => rfl)
    rintro ((e | a | -) | -) hr
    · -- the error is kept if it is the first, and the other workers still run
      refine ih fun e' he' => ?_
      cases first with
      | none => exact Option.some.inj he' ▸ hr _ rfl
      | some e'' => exact hfirst e' he'
    · exact h.stop (hr _ rfl)
    · exact h.stop (hr _ rfl)
    · exact ih hfirst

/-- A whole load; errors of its setup get a label. -/
theorem load (hw : wild) (size : Load) :
    P none (LoadGenerator.run self size) (LoadGenerator.run self' size) := by
  refine h.bind (h.atom (.change (fun _ => ⟨_, _, _, _, _, _, _, _, rfl⟩) fun _ _ => rfl)) fun n =>
    h.handle (h.setup hw n _) ?_ (.outside rfl fun _ => rfl) (.outside rfl fun _ => rfl)
  rintro ((e | a | -) | -) hr
  · exact h.fail (h.errors.wrapped _ (hr _ rfl))
  · exact h.stop (hr _ rfl)
  · exact h.stop (hr _ rfl)
  · exact h.bind (h.log _ _ _) fun _ => h.bind (h.read fun _ _ => rfl) fun _ =>
      h.bind (h.read fun _ _ => rfl) fun _ =>
      h.bind (h.runWorkers hs hw n size _ _ (by rintro e ⟨⟩) _) fun _ =>
      h.bind (h.read fun _ _ => rfl) fun _ => h.bind (h.log _ _ _) fun _ => h.done _

/-! ### Calls of the embedding program -/

omit hs in
theorem contextOf (running : Option ContextId) (ref : ContextRef) :
    P o (Host.contextOf running ref) (Host.contextOf running ref) := by
  cases ref with
  | running => exact h.done running
  | saved name => exact h.read fun _ _ => rfl

omit hs in
/-- A view reads slot after slot, any of which may be refused. -/
theorem view (id : ContextId) : P o (Host.view id) (Host.view id) := by
  have name (f : Option FrameId) :
      P o (Program.read fun m => f.map m.frameName : Eval (Option String))
        (.read fun m => f.map m.frameName) := h.read fun _ _ => rfl
  exact h.bind (h.atom (.touch id .owner (·.owned))) fun _ => h.bind (h.readStack _) fun _ =>
    h.bind (h.read fun _ _ => rfl) fun _ =>
    h.bind (h.readFrame _ _) fun _ => h.bind (name _) fun _ => h.bind (h.readFrame _ _) fun _ =>
    h.bind (name _) fun _ => h.bind (h.readFrame _ _) fun _ => h.bind (name _) fun _ =>
    h.bind (h.readFrame _ _) fun _ => h.bind (name _) fun _ => h.bind (h.readFrame _ _) fun _ =>
    h.bind (name _) fun _ => h.bind (h.readCurrentGlobal _) fun _ => h.bind (name _) fun _ =>
    h.bind (h.atom (.touch id .trace (·.trace))) fun _ => h.bind (h.read fun _ _ => rfl) fun _ =>
    h.done _

omit hs in
theorem showContext (id : ContextId) (saveAs : Option String) :
    P o (Host.showContext id saveAs) (Host.showContext id saveAs) := by
  refine h.bind (h.atom (.change (fun m => ?_) fun m p => ?_)) fun _ =>
    h.bind (h.read fun _ _ => rfl) fun _ => h.done _
  · cases saveAs with
    | none => exact .refl m
    | some name => exact ⟨_, _, _, _, _, _, _, _, rfl⟩
  · cases saveAs <;> rfl

/-- Calls of the embedding program. -/
theorem perform (running : Option ContextId) (c : HostCall) (hc : wild ∨ c.isTame = true) :
    P none (Host.perform self running c) (Host.perform self' running c) := by
  -- calls that are not tame need atomic steps that are not
  have hw (hn : c.isTame = false) : wild := hc.resolve_right (by simp [hn])
  cases c with
  | invoke name args => exact h.bind (h.invokeHere hs name args) fun _ => h.done _
  | invokeIn ref name args =>
    exact h.bind (h.contextOf running ref) fun _ => h.bind (h.invokeIn hs _ name args) fun _ =>
      h.done _
  | defineFunction name body => exact h.bind (h.define (hw rfl) _ _) fun _ => h.done _
  | defineProcedure name params body =>
    cases body with
    | some body => exact h.bind (h.define (hw rfl) _ _) fun _ => h.done _
    | none => exact h.bind (h.misuse _) fun _ => h.done _
  | defineNothing name => exact h.bind (h.misuse _) fun _ => h.done _
  | setUnknown body =>
    cases body with
    | some body => exact h.bind (h.define (hw rfl) _ _) fun _ => h.done _
    | none => exact h.bind (h.misuse _) fun _ => h.done _
  | delete name => exact h.bind (h.atom (.delete name)) fun _ => h.done _
  | rename old new => exact h.bind (h.atom (.rename old new)) fun _ => h.done _
  | clearCache => exact h.bind (h.atom .clearCache) fun _ => h.done _
  | switchThread id => exact h.bind (h.atom (.switchThread (hw rfl) id)) fun _ => h.done _
  | context saveAs => exact h.bind (h.atom .context) fun id => h.showContext id saveAs
  | lookupContext saveAs =>
    exact h.bind (h.atom .lookupContext) fun id => h.showContext id saveAs
  | release => exact h.bind (h.atom (.release (hw rfl))) fun _ => h.done _
  | dispose => exact h.bind (h.atom (.dispose (hw rfl))) fun _ => h.done _
  | freeContext ref shared =>
    refine h.bind (h.contextOf running ref) fun id => ?_
    cases id with
    | some id => exact h.bind (h.atom (.freeContext (hw rfl) id shared)) fun _ => h.done _
    | none => exact h.done _
  | disposeContext ref =>
    refine h.bind (h.contextOf running ref) fun id => ?_
    cases id with
    | some id => exact h.bind (h.atom (.disposeContext (hw rfl) id)) fun _ => h.done _
    | none => exact h.done _
  | contextStage ref =>
    exact h.bind (h.contextOf running ref) fun _ => h.bind (h.read fun _ _ => rfl) fun _ => h.done _
  | slots ref =>
    refine h.bind (h.contextOf running ref) fun id => ?_
    cases id with
    | some id => exact h.bind (h.view id) fun _ => h.done _
    | none => exact h.stop (s := .fault .owner) trivial
  | makeScope name level =>
    exact h.bind (h.atom (.change (fun _ => ⟨_, _, _, _, _, _, _, _, rfl⟩) fun _ _ => rfl)) fun f =>
      h.bind (h.atom (.modify (fun _ => ⟨_, _, _, _, _, _, _, _, rfl⟩) fun _ _ => rfl)) fun _ =>
      h.done _
  | load size => exact h.bind (h.load hs (hw rfl) size) fun _ => h.done _
  | globals | scopeVariables name => exact h.read fun _ _ => rfl
  | commands | cacheCount | cacheReport | haveCacheCounts | statistics | contextCount | isDisposed
  | outputCaptured => exact h.bind (h.read fun _ _ => rfl) fun _ => h.done _

/-! ### Bodies -/

omit hs in
theorem operand (inv : Invocation) (last : Value) (e : Expr) :
    P o (Evaluation.operand inv last e) (Evaluation.operand inv last e) := by
  cases e with
  | var name => exact h.getVar inv name
  | value | arg | argCount | last | commandName => exact h.done _

omit hs in
/-- Operands are evaluated from the first to the last. -/
theorem operands (inv : Invocation) (last : Value) (es : List Expr) :
    P o (Evaluation.operands inv last es) (Evaluation.operands inv last es) := by
  induction es with
  | nil => exact h.done []
  | cons e es ih => exact h.bind (h.operand inv last e) fun _ => h.bind ih fun _ => h.done _

omit hs in
theorem viewFrame (inv : Invocation) :
    P o (Evaluation.viewFrame inv) (Evaluation.viewFrame inv) :=
  h.bind (h.frame inv) fun _ => h.bind (h.globalFrame inv) fun _ => h.read fun _ _ => rfl

/-- Statements, given the bodies that they run. -/
theorem statement (hreturn : ∀ v, kind (.returning v)) (inv : Invocation) (last : Value) (s : Stmt)
    (ht : wild ∨ s.isTame = true)
    (hbody : ∀ b ∈ s.bodies, P (some inv.context) (self.body inv b) (self'.body inv b)) :
    P (some inv.context) (Evaluation.statement self inv last s)
      (Evaluation.statement self' inv last s) := by
  cases s with
  | value e => exact h.operand inv last e
  | invoke name args =>
    exact h.bind (h.operand inv last name) fun _ => h.bind (h.operands inv last args) fun _ =>
      hs _ _ _
  | get name => exact h.bind (h.operand inv last name) fun _ => h.getVar inv _
  | set name e =>
    exact h.bind (h.operand inv last name) fun _ => h.bind (h.operand inv last e) fun _ =>
      h.bind (h.setVar inv _ _) fun _ => h.done _
  | unset name =>
    exact h.bind (h.operand inv last name) fun _ => h.bind (h.unsetVar inv _) fun _ => h.done _
  | level => exact h.bind (h.level inv) fun _ => h.done _
  | ret e => exact h.bind (h.operand inv last e) fun _ => h.fail (hreturn _)
  | fail message => exact h.fail (h.errors.plain _)
  | catchError body =>
    refine h.take (h.forget (hbody body (by simp [Stmt.bodies]))) ?_
      ⟨rfl, .inr fun _ => rfl, .catchError self inv last body⟩
      ⟨rfl, .inr fun _ => rfl, .catchError self' inv last body⟩
    rintro ((e | a | -) | v) hr
    · exact h.done _
    · exact h.stop (hr _ rfl)
    · exact h.stop (hr _ rfl)
    · exact h.done v
  | wrap label body =>
    -- a return behind a label is still one
    have hlabel (e : Error) : ∃ e', (Eval.fail (.wrapped label e) : Eval Value) =
        .stop (.error e') ∧ e'.returned? = e.returned? := ⟨.wrapped label e, rfl, rfl⟩
    refine h.handle (hbody body (by simp [Stmt.bodies])) ?_ (.passing rfl (fun _ => rfl) hlabel)
      (.passing rfl (fun _ => rfl) hlabel)
    rintro ((e | a | -) | v) hr
    · exact h.fail (h.errors.wrapped label (hr _ rfl))
    · exact h.stop (hr _ rfl)
    · exact h.stop (hr _ rfl)
    · exact h.done v
  | branch condition yes no =>
    refine h.bind (h.operand inv last condition) fun v => ?_
    split
    · exact hbody yes (by simp [Stmt.bodies])
    · exact hbody no (by simp [Stmt.bodies])
    · exact h.fail (h.errors.plain _)
  | uplevel n body => exact h.uplevel inv n (hbody body (by simp [Stmt.bodies]))
  | inScope scope body =>
    exact h.bind (h.read fun _ _ => rfl) fun f => h.inScope inv f (hbody body (by simp [Stmt.bodies]))
  | note e => exact h.bind (h.operand inv last e) fun _ => h.bind (h.note _) fun _ => h.done _
  | noteFrame => exact h.bind (h.viewFrame inv) fun _ => h.bind (h.note _) fun _ => h.done _
  | host c =>
    have hcall : wild ∨ c.isTame = true := by simpa [Stmt.isTame] using ht
    refine h.take (h.perform hs (some inv.context) c hcall) ?_
      ⟨rfl, .inl (.host self inv last c), .host self inv last c⟩
      ⟨rfl, .inl (.host self' inv last c), .host self' inv last c⟩
    rintro ((e | a | -) | v) hr
    · exact h.bind (h.note _) fun _ => h.done _
    · exact h.bind (h.note _) fun _ => h.done _
    · exact h.stop (hr _ rfl)
    · exact h.bind (h.note _) fun _ => h.done _

/-- Statements one after the other, by induction on the body; each sees the value of the one before.
-/
theorem statements (hreturn : ∀ v, kind (.returning v)) (inv : Invocation) (last : Value)
    (body : List Stmt) (ht : wild ∨ tameBody body = true)
    (hbody : ∀ s ∈ body, ∀ b ∈ s.bodies,
      P (some inv.context) (self.body inv b) (self'.body inv b)) :
    P (some inv.context) (Evaluation.statements self inv last body)
      (Evaluation.statements self' inv last body) := by
  induction body generalizing last with
  | nil => exact h.done last
  | cons s rest ih =>
    have htame : (wild ∨ s.isTame = true) ∧ (wild ∨ tameBody rest = true) := by
      rcases ht with hw | ht
      · exact ⟨.inl hw, .inl hw⟩
      · simp only [tameBody, Bool.and_eq_true] at ht
        exact ⟨.inr ht.1, .inr ht.2⟩
    exact h.bind (h.statement hs hreturn inv last s htame.1 (hbody s (by simp))) fun v =>
      ih v htame.2 fun s' hs' => hbody s' (by simp [hs'])

end Composes

/-! ### Properties that look at nothing -/

/-- Properties of two programs that pass to whatever handles their outcomes alike. -/
structure Handled (wild : Prop) (P : {α : Type} → Eval α → Eval α → Prop) : Prop where
  done : ∀ {α : Type} (a : α), P (done a : Eval α) (done a)
  stop : ∀ {α : Type} {s : Stop}, s ≠ .exhausted → P (stop s : Eval α) (stop s)
  atom : ∀ {α : Type} {p : Eval α}, Atom wild (fun _ => True) p → P p p
  /-- An exhausted program is left at once. -/
  handle : ∀ {α β : Type} {p p' : Eval β} {k k' : Except Stop β → Eval α}, P p p' →
    (∀ r, r ≠ .error .exhausted → P (k r) (k' r)) →
    k (.error .exhausted) = .stop .exhausted → k' (.error .exhausted) = .stop .exhausted →
    P (handle p k) (handle p' k')

/-- Such properties compose, whatever the errors are. -/
theorem Handled.composes {wild : Prop} {P : {α : Type} → Eval α → Eval α → Prop}
    (h : Handled wild P) : Composes wild (fun _ => True) fun _ p p' => P p p' := by
  have hof {α : Type} {r : Except Stop α} (hx : r ≠ .error .exhausted) (s : Stop)
      (hs : r = .error s) : s.Of fun _ => True :=
    Stop.of_true fun e => hx (by rw [hs, e])
  refine {
    errors := Error.kind_true
    done := h.done
    stop := fun hs => h.stop hs.ne_exhausted
    atom := h.atom
    handle := fun hp hk hr hr' => h.handle hp (fun r hx => hk r (hof hx)) hr.exhausted hr'.exhausted
    take := fun hp hk hc hc' => h.handle hp (fun r hx => hk r (hof hx)) hc.exhausted hc'.exhausted
    always := fun {o α restore p p'} _ hr hp => ?_
    forget := fun hp => hp }
  refine h.handle hp (fun r hx => ?_) rfl rfl
  -- what closes a bracket handles the outcome of the restoring program
  obtain ⟨k, hk, hok, herror⟩ := exists_restoring_eq restore hx
  show P (restoring restore r) (restoring restore r)
  rw [hk]
  refine h.handle hr ?_ (herror _) (herror _)
  rintro (s | u) hs
  · rw [herror]
    exact h.stop fun e => hs (by rw [e])
  · rw [hok]
    cases r with
    | ok a => exact h.done a
    | error s => exact h.stop fun e => hx (by rw [e])

/-! ### The evaluator -/

/-- Properties that also pass from bodies to the invocations that run them. -/
structure Compositional (kind : Error → Prop)
    (P : {α : Type} → Option ContextId → Eval α → Eval α → Prop) : Prop
    extends Composes True kind P where
  returning : ∀ v, kind (.returning v)
  /-- Names are resolved by invocations only, once they have looked at the context. -/
  admitted : ∀ {self self' : Runner}, self.resolve = Eval.resolve → self'.resolve = Eval.resolve →
    (∀ inv b, P (some inv.context) (self.body inv b) (self'.body inv b)) → ∀ id name args,
    P id (read (·.canUse id) >>= Dispatch.admitted self id name args)
      (read (·.canUse id) >>= Dispatch.admitted self' id name args)

/-- Properties of resolving names, wherever they are resolved, pass to invocations. -/
theorem Composes.compositional {P : {α : Type} → Option ContextId → Eval α → Eval α → Prop}
    (h : Composes True (fun _ => True) P)
    (hr : ∀ o name, P o (Eval.resolve name) (Eval.resolve name)) :
    Compositional (fun _ => True) P := by
  refine { h with returning := fun _ => trivial, admitted := ?_ }
  intro self self' hself hself' hbody id name args
  refine h.admitted_of_command self self' ?_
  rintro context rfl
  rw [hself, hself']
  exact h.bind (hr _ name) fun r =>
    h.executeResolved self self' trivial (fun _ => trivial) (fun _ _ => trivial) hbody
      ⟨context, name, []⟩ args

namespace Compositional

variable {kind : Error → Prop} {P : {α : Type} → Option ContextId → Eval α → Eval α → Prop}
  (h : Compositional kind P)

include h

/-- Invocations share a property if the bodies do. -/
theorem share {self self' : Runner} (hself : self.resolve = Eval.resolve)
    (hself' : self'.resolve = Eval.resolve)
    (hbody : ∀ inv b, P (some inv.context) (self.body inv b) (self'.body inv b)) :
    self.Share P self' :=
  fun id name args => h.invoke self self' (h.admitted hself hself' hbody id name args)

variable (hx : ∀ (o : Option ContextId) (p' : Eval Value), P o (Program.stop .exhausted) p')

include hx

/-- Bodies, by induction on how deeply they may nest. -/
theorem body_cached (depth more : Nat) (inv : Invocation) (stmts : List Stmt) :
    P (some inv.context) ((Evaluation.cached depth).body inv stmts)
      ((Evaluation.cached (depth + more)).body inv stmts) := by
  induction depth generalizing inv stmts with
  | zero => exact hx _ _
  | succ depth ih =>
    -- both evaluators have one level to spend here
    rw [Nat.add_right_comm]
    have hs : (Evaluation.cached depth).Share P (Evaluation.cached (depth + more)) :=
      h.share (Evaluation.resolve_cached _) (Evaluation.resolve_cached _) ih
    exact h.statements hs h.returning inv .empty stmts (.inl trivial) fun _ _ b _ => ih inv b

/-- Invocations that have looked at the context, by evaluators that differ in depth. -/
theorem admitted_cached (depth more : Nat) (id : Option ContextId) (name : String)
    (args : List Value) :
    P id (read (·.canUse id) >>= Dispatch.admitted (Evaluation.cached depth) id name args)
      (read (·.canUse id) >>=
        Dispatch.admitted (Evaluation.cached (depth + more)) id name args) :=
  h.admitted (Evaluation.resolve_cached _) (Evaluation.resolve_cached _) (h.body_cached hx depth more)
    id name args

/-- Invocations by evaluators that differ in depth. -/
theorem share_cached (depth more : Nat) :
    (Evaluation.cached depth).Share P (Evaluation.cached (depth + more)) :=
  fun id name args => h.invoke _ _ (h.admitted_cached hx depth more id name args)

/-- Calls of the embedding program, by evaluators that differ in depth. -/
theorem perform_cached (depth more : Nat) (running : Option ContextId) (c : HostCall) :
    P none (Host.perform (Evaluation.cached depth) running c)
      (Host.perform (Evaluation.cached (depth + more)) running c) :=
  h.perform (h.share_cached hx depth more) running c (.inl trivial)

end Compositional

end CommandHost
