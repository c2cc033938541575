/-
CommandHost/Proofs/Action.lean

What an atomic step of an evaluation can do to a machine.

`Action` lists the changes; `m.after a` carries one out.  Three of them move a
context between frames (`Moves`).  Evaluations only take these three inside of
brackets: `uplevel`, `inScope` and `callProcedure` move the frames of a context
for the time of a program and put them back.  `Bracketed p` says that the program
`p` is built in this way, from other actions and from brackets; that all
evaluations are is shown in `CommandHost.Proofs.Alike`.

Every invariant is then one case analysis over the actions, and every property of
whole calls one induction over bracketed programs.
-/
import CommandHost.Evaluation
import CommandHost.Proofs.Points

namespace CommandHost

open Program Eval

/-! ### Actions -/

/-- A change that an atomic step can make. -/
inductive Action where
  | rest
  | channels (writer : Writer) (output : String) (notes : Array Note) (log : Array LogEntry)
      (tallies : Array Tally)
  /-- Gives names to contexts and scope frames. -/
  | names (saved : Table String ContextId) (scopes : Table String FrameId)
  | switchThread (id : ThreadId)
  | setVariables (f : FrameId) (vars : Table String Value)
  | newFrame (f : Frame)
  | resolve (name : String)
  | askCache (name : String)
  | define (name : String) (command : Command)
  | delete (name : String)
  | rename (old new : String)
  | clearCache
  | acquire (create : Bool)
  | release
  | freeContext (id : ContextId) (shared : Bool)
  | disposeContext (id : ContextId)
  | dispose
  | setSlot (id : ContextId) (slot : Slot) (f : Option FrameId)
  | setStack (id : ContextId) (s : Option CallStack)
  | disposeFrame (f : FrameId)

/-- The actions that move a context between frames. -/
def Action.Moves : Action → Prop
  | setSlot _ _ _ | setStack _ _ | disposeFrame _ => True
  | _ => False

/-- The machine after an action. -/
def Machine.after (m : Machine) : Action → Machine
  | .rest => m
  | .channels writer output notes log tallies => { m with writer, output, notes, log, tallies }
  | .names saved scopes => { m with saved, scopes }
  | .switchThread id => { m with thread := id }
  | .setVariables f vars => { m with frames := m.frames.modify f fun frame => { frame with vars } }
  | .newFrame f => { m with frames := (m.frames.alloc f).2 }
  | .resolve name => (m.resolve name).2
  | .askCache name => (m.isCached name).2
  | .define name command => (m.define name command).2
  | .delete name => (m.delete name).2
  | .rename old new => (m.rename old new).2
  | .clearCache => m.clearCache
  | .acquire create => (m.acquire create).2
  | .release => m.release.2
  | .freeContext id shared => m.freeContext id shared
  | .disposeContext id => m.disposeContext id
  | .dispose => m.dispose
  | .setSlot id slot f => m.setContext id ((m.context id).setFrame slot f)
  | .setStack id s => m.setContext id { m.context id with stack := s }
  | .disposeFrame f => { m with frames := m.frames.modify f (·.dispose) }

/-- One machine leads to another by an action. -/
def Machine.Next (m t : Machine) : Prop := ∃ a, t = m.after a

/-- One machine leads to another by an action that moves no context between frames. -/
def Machine.Drifts (m t : Machine) : Prop := ∃ a : Action, ¬ a.Moves ∧ t = m.after a

/-- Drifting is one of the actions. -/
theorem Machine.Drifts.next {m t : Machine} (h : m.Drifts t) : m.Next t :=
  ⟨h.choose, h.choose_spec.2⟩

/-- The actions on the command table and its cache. -/
def Action.OnTable : Action → Prop
  | resolve _ | askCache _ | define _ _ | delete _ | rename _ _ | clearCache => True
  | _ => False

/-- Actions on the command table and its cache touch nothing else, the log aside. -/
theorem Action.OnTable.after {a : Action} (h : a.OnTable) (m : Machine) :
    ∃ commands cache log, m.after a = { m with commands, cache, log } := by
  -- deleting, and renaming to nothing, which is the same
  have hdelete (name : String) :
      ∃ commands cache log, (m.delete name).2 = { m with commands, cache, log } := by
    unfold Machine.delete
    split <;> exact ⟨_, _, _, rfl⟩
  cases a with
  | resolve name =>
    simp only [Machine.after, Machine.resolve]
    split <;> exact ⟨_, _, _, rfl⟩
  | define name c =>
    simp only [Machine.after, Machine.define]
    split <;> exact ⟨_, _, _, rfl⟩
  | delete name => exact hdelete name
  | rename old new =>
    simp only [Machine.after, Machine.rename]
    split
    · exact hdelete old
    split
    · exact ⟨_, _, _, rfl⟩
    split <;> exact ⟨_, _, _, rfl⟩
  | askCache | clearCache => exact ⟨_, _, _, rfl⟩
  | _ => exact h.elim

/-! ### Bracketed programs -/

/-- Programs made of steps that move no context between frames, and of brackets.  A program that
runs out of depth is left at once. -/
inductive Bracketed : {α : Type} → Eval α → Prop
  | done {α : Type} (a : α) : Bracketed (done a)
  | stop {α : Type} (s : Stop) : Bracketed (stop s : Eval α)
  | act {α : Type} {f : Machine → Except Stop α × Machine} (h : ∀ m : Machine, m.Drifts (f m).2) :
      Bracketed (act f)
  | handle {α β : Type} {p : Eval β} {k : Except Stop β → Eval α} (hp : Bracketed p)
      (hk : ∀ r, Bracketed (k r)) (hx : k (.error .exhausted) = .stop .exhausted) :
      Bracketed (handle p k)
  | uplevel {p : Eval Value} (inv : Invocation) (level : Int) (hp : Bracketed p) :
      Bracketed (Dispatch.uplevel inv level p)
  | inScope {p : Eval Value} (inv : Invocation) (scope : Option FrameId) (hp : Bracketed p) :
      Bracketed (Dispatch.inScope inv scope p)
  | call {p : Eval Value} (inv : Invocation) (name : String) (params : List String)
      (args : List Value) (hp : Bracketed p) :
      Bracketed (Dispatch.callProcedure inv name params args p)

/-- An error of the first part is passed on, so nothing is left open. -/
theorem Bracketed.bind {α β : Type} {p : Eval β} {k : β → Eval α} (hp : Bracketed p)
    (hk : ∀ b, Bracketed (k b)) : Bracketed (p >>= k) := by
  refine handle hp ?_ rfl
  rintro (e | b)
  · exact stop e
  · exact hk b

/-! ### After the program of a bracket -/

/-- How `always` goes on after its program. -/
def Eval.restoring {α : Type} (restore : Eval Unit) : Except Stop α → Eval α
  | .error .exhausted => stop .exhausted
  | outcome => handle restore fun
    | .ok _ => ofExcept outcome
    | .error s => stop s

/-- After a program that was not exhausted, its outcome comes back once things are restored. -/
theorem exists_restoring_eq {α : Type} (restore : Eval Unit) {outcome : Except Stop α}
    (h : outcome ≠ .error .exhausted) : ∃ k : Except Stop Unit → Eval α,
      restoring restore outcome = handle restore k ∧ (∀ u, k (.ok u) = ofExcept outcome) ∧
      ∀ s, k (.error s) = stop s := by
  rcases outcome with (e | a | -) | a
  · exact ⟨_, rfl, fun _ => rfl, fun _ => rfl⟩
  · exact ⟨_, rfl, fun _ => rfl, fun _ => rfl⟩
  · exact absurd rfl h
  · exact ⟨_, rfl, fun _ => rfl, fun _ => rfl⟩

/-- What holds of restoring, whatever simple ending follows it, holds of going on so. -/
theorem restoring_induction {α : Type} {P Q : Eval α → Prop} {restore : Eval Unit}
    (hx : P (stop .exhausted)) (hdone : ∀ a, Q (done a)) (hstop : ∀ s, Q (stop s))
    (hrestore : ∀ k : Except Stop Unit → Eval α, (∀ r, Q (k r)) →
      (∀ s, k (.error s) = stop s) → P (handle restore k))
    (outcome : Except Stop α) : P (restoring restore outcome) := by
  -- any outcome but running out of depth: restore, and then end with the outcome
  have hout (r : Except Stop α) : P (handle restore fun
      | .ok _ => ofExcept r
      | .error s => stop s) := by
    refine hrestore _ ?_ fun _ => rfl
    rintro (s | -)
    · exact hstop s
    · cases r with
      | error s => exact hstop s
      | ok a => exact hdone a
  rcases outcome with (e | a | -) | a
  · exact hout _
  · exact hout _
  · exact hx
  · exact hout _

/-- How `takeReturn` goes on after its program. -/
def Dispatch.returned : Except Stop Value → Eval Value
  | .error (.error e) =>
    match e.returned? with
    | some v => done v
    | none => fail e
  | outcome => ofExcept outcome

/-- A procedure ends with a value or stops. -/
theorem returned_induction {P : Eval Value → Prop} (hdone : ∀ v, P (done v))
    (hstop : ∀ s, P (stop s)) (outcome : Except Stop Value) : P (Dispatch.returned outcome) := by
  rcases outcome with (e | a | -) | v
  · rw [Dispatch.returned]
    split
    · exact hdone _
    · exact hstop _
  · exact hstop _
  · exact hstop _
  · exact hdone v

section

variable {E : Machine → Prop} {α : Type}

theorem maintains_restoring {restore : Eval Unit} (hr : restore.Maintains E) :
    ∀ outcome : Except Stop α, (restoring restore outcome).Maintains E :=
  have hend {q : Eval α} (hq : q.Reads) : q.Maintains E := .of_reads hq
  restoring_induction (P := (·.Maintains E)) (Q := (·.Maintains E))
    (hend trivial) (fun _ => hend trivial) (fun _ => hend trivial) fun _ hk _ => hr.handle hk

/-- What a program and what is done at its end maintain, both together maintain. -/
theorem maintains_always {restore : Eval Unit} {p : Eval α} (hr : restore.Maintains E)
    (hp : p.Maintains E) : (Eval.always restore p).Maintains E :=
  hp.handle (maintains_restoring hr)

theorem throughout_always {restore : Eval Unit} {p : Eval α} {m : Machine}
    (hr : restore.Maintains E) (hp : p.Throughout E m) : (Eval.always restore p).Throughout E m :=
  hp.handle (maintains_restoring hr _ _ hp.run)

/-- To take a return is no step. -/
theorem throughout_takeReturn {p : Eval Value} {m : Machine} (hp : p.Throughout E m) :
    (Dispatch.takeReturn p).Throughout E m :=
  hp.handle (returned_induction (P := (·.Throughout E (p.run m).2))
    (fun _ => .of_reads trivial hp.run) (fun _ => .of_reads trivial hp.run) _)

end

/-! ### The steps of bracketed programs -/

theorem reads_readContext {α : Type} (id : ContextId)
    (f : ThreadContext → Policy → Except Accessor α) : (readContext id f).Reads := by
  intro m
  rcases h : f (m.context id) (m.policyFor id) <;> simp [h]

/-- The frame that variables are looked up in is found by reading. -/
theorem reads_frame (inv : Invocation) : inv.frame.Reads := by
  refine .bind (reads_readContext _ _) fun f => ?_
  cases f <;> trivial

theorem reads_home (inv : Invocation) (name : String) : (inv.home name).Reads := by
  have hglobal : inv.globalFrame.Reads := by
    refine .bind (reads_readContext _ _) fun f => ?_
    cases f <;> trivial
  unfold Invocation.home
  split
  · exact .bind hglobal fun _ => trivial
  · exact .bind (reads_frame inv) fun _ => trivial

/-- Counting frames upwards changes nothing. -/
theorem reads_frameAbove (inv : Invocation) (level : Int) :
    (Dispatch.frameAbove inv level).Reads := by
  refine .bind (reads_frame inv) fun f => .bind (fun _ => rfl) fun n => ?_
  dsimp only
  split
  · trivial
  · refine .bind (reads_readContext _ _) fun outermost => ?_
    split
    · refine .bind (reads_readContext _ _) fun stack => ?_
      split <;> trivial
    · trivial

theorem steps_readContext {α : Type} (id : ContextId)
    (f : ThreadContext → Policy → Except Accessor α) : (readContext id f).Steps Machine.Next :=
  Steps.mono (fun _ _ ht => ⟨.rest, ht⟩) (reads_readContext id f)

/-- Touching the context is a fault. -/
def Machine.Faults (m : Machine) (id : ContextId) : Prop :=
  (m.context id).disposed = true ∧ m.policyFor id = .strict

instance (m : Machine) (id : ContextId) : Decidable (m.Faults id) :=
  inferInstanceAs (Decidable (_ ∧ _))

/-- The slots that calls and `uplevel` move. -/
def Slot.Moved (slot : Slot) : Prop := slot = .current ∨ slot = .procedure ∨ slot = .uplevel

/-- What a bracket works on: some slots of a context, and the frame of a call if it is one. -/
structure Bracket where
  context : ContextId
  slots : Slot → Prop
  frame : Option FrameId

namespace Bracket

/-- Moving up. -/
def moving (id : ContextId) : Bracket := ⟨id, Slot.Moved, none⟩

/-- A scope. -/
def scoping (id : ContextId) : Bracket := ⟨id, (· = .scope), none⟩

/-- A procedure call. -/
def calling (id : ContextId) (frame : FrameId) : Bracket := ⟨id, Slot.Moved, some frame⟩

end Bracket

/-- What the steps of a bracket itself can do.  Slots are only set where a touch is no fault, and a
stack that is gone does not come back. -/
inductive Machine.Shifts (b : Bracket) (m : Machine) : Machine → Prop
  | rest : m.Shifts b m
  | setSlot {slot : Slot} (f : Option FrameId) (hs : b.slots slot) (hf : ¬ m.Faults b.context) :
      m.Shifts b (m.after (.setSlot b.context slot f))
  | mapStack (g : CallStack → CallStack) :
      m.Shifts b (m.after (.setStack b.context ((m.context b.context).stack.map g)))
  | disposeFrame {f : FrameId} (h : b.frame = some f) : m.Shifts b (m.after (.disposeFrame f))

/-- What a bracket does to its context is made of actions. -/
theorem Machine.Shifts.next {b : Bracket} {m t : Machine} (h : m.Shifts b t) : m.Next t := by
  cases h with
  | rest => exact ⟨.rest, rfl⟩
  | setSlot | mapStack | disposeFrame => exact ⟨_, rfl⟩

theorem Program.Reads.shifts {b : Bracket} {α : Type} {p : Eval α} (h : p.Reads) :
    p.Steps (Machine.Shifts b) := by
  refine Steps.mono (fun m t ht => ?_) h
  subst ht
  exact .rest

/-- A fault leaves the machine as it is; otherwise one slot of the bracket is written. -/
theorem shifts_writeFrame (b : Bracket) {slot : Slot} (hs : b.slots slot) (f : Option FrameId) :
    (writeFrame b.context slot f).Steps (Machine.Shifts b) := by
  intro m
  by_cases h : (m.context b.context).disposed ∧ m.policyFor b.context = .strict
  · have hm : ((writeFrame b.context slot f).run m).2 = m := by
      simp [writeFrame, Context.writeFrame, Context.touch, h, Except.map]
    exact hm.symm ▸ .rest
  · have hm : ((writeFrame b.context slot f).run m).2 = m.after (.setSlot b.context slot f) := by
      simp [writeFrame, Context.writeFrame, Context.touch, h, Except.map, Machine.after]
    exact hm.symm ▸ .setSlot f hs h

theorem steps_writeFrame (id : ContextId) (slot : Slot) (f : Option FrameId) :
    (writeFrame id slot f).Steps Machine.Next :=
  (shifts_writeFrame ⟨id, (· = slot), none⟩ rfl f).mono fun _ _ h => h.next

/-- Moving writes the current slot and the uplevel slot. -/
theorem shifts_moveTo (id : ContextId) (current uplevel : Option FrameId) :
    (Dispatch.moveTo id current uplevel).Steps (Machine.Shifts (.moving id)) :=
  .bind (shifts_writeFrame (.moving id) (.inl rfl) _) fun _ =>
    shifts_writeFrame (.moving id) (.inr (.inr rfl)) _

/-- Entering a call pushes the frame before it is made current. -/
theorem shifts_enterCall (id : ContextId) (frame : FrameId) :
    (Dispatch.enterCall id frame).Steps (Machine.Shifts (.calling id frame)) :=
  .bind (fun _ => .mapStack _) fun _ =>
    .bind (shifts_writeFrame (.calling id frame) (.inl rfl) _) fun _ =>
      shifts_writeFrame (.calling id frame) (.inr (.inl rfl)) _

/-- Leaving a call pops and disposes its frame before it writes the slots. -/
theorem shifts_leaveCall (id : ContextId) (frame : FrameId) (current procedure : Option FrameId) :
    (Dispatch.leaveCall id frame current procedure).Steps
      (Machine.Shifts (.calling id frame)) :=
  .bind (fun _ => .mapStack _) fun _ => .bind (fun _ => .disposeFrame rfl) fun _ =>
    .bind (shifts_writeFrame (.calling id frame) (.inl rfl) _) fun _ =>
      shifts_writeFrame (.calling id frame) (.inr (.inl rfl)) _

/-- Making the frame of a call does nothing but make it. -/
theorem steps_callFrame (inv : Invocation) (name : String) (params : List String)
    (args : List Value) : (Dispatch.callFrame inv name params args).Steps fun m t =>
      t = m ∨ ∃ f, t = m.after (.newFrame f) := by
  unfold Dispatch.callFrame
  split
  · trivial
  · refine .bind (Steps.mono (fun _ _ ht => .inl ht) (reads_readContext _ _)) fun stack => ?_
    cases stack with
    | none => trivial
    | some stack =>
      refine .bind (fun _ => .inl rfl) fun maxDepth => ?_
      split
      · trivial
      · exact fun _ => .inr ⟨_, rfl⟩

/-- Making the frame of a call moves no context. -/
theorem drifts_callFrame (inv : Invocation) (name : String) (params : List String)
    (args : List Value) : (Dispatch.callFrame inv name params args).Steps Machine.Drifts := by
  refine (steps_callFrame inv name params args).mono fun m t h => ?_
  rcases h with rfl | ⟨f, rfl⟩
  · exact ⟨.rest, not_false, rfl⟩
  · exact ⟨.newFrame f, not_false, rfl⟩

/-- Properties of programs that a bracket has if the program inside has them. -/
structure Carries (b : Bracket) (P : {α : Type} → Eval α → Prop) : Prop where
  shifts : ∀ {α : Type} {p : Eval α}, p.Steps (Machine.Shifts b) → P p
  handle : ∀ {α β : Type} {p : Eval β} {k : Except Stop β → Eval α}, P p → (∀ r, P (k r)) →
    k (.error .exhausted) = stop .exhausted → P (handle p k)

namespace Carries

variable {b : Bracket} {P : {α : Type} → Eval α → Prop} {α β : Type}

theorem bind (h : Carries b P) {p : Eval β} {k : β → Eval α} (hp : P p) (hk : ∀ a, P (k a)) :
    P (p >>= k) := by
  refine h.handle hp ?_ rfl
  rintro (e | a)
  · exact h.shifts (p := stop e) trivial
  · exact hk a

/-- Restoring is part of the bracket. -/
theorem always (h : Carries b P) {restore : Eval Unit} (hr : P restore) {p : Eval α} (hp : P p) :
    P (Eval.always restore p) := by
  have hdone (a : α) : P (done a : Eval α) := h.shifts (p := done a) trivial
  have hstop (s : Stop) : P (stop s : Eval α) := h.shifts (p := stop s) trivial
  exact h.handle hp (restoring_induction (P := (P ·)) (Q := (P ·)) (hstop _) hdone hstop
    fun _ hk hx => h.handle hr hk (hx _)) rfl

theorem takeReturn (h : Carries b P) {p : Eval Value} (hp : P p) : P (Dispatch.takeReturn p) :=
  h.handle hp (returned_induction (P := (P ·)) (fun v => h.shifts (p := done v) trivial)
    fun s => h.shifts (p := stop s) trivial) rfl

theorem readFrame (h : Carries b P) (id : ContextId) (slot : Slot) : P (Eval.readFrame id slot) :=
  h.shifts (reads_readContext _ _).shifts

variable {p : Eval Value}

/-- A move carries what moves carry, if the program in it does. -/
theorem uplevel {inv : Invocation} (h : Carries (.moving inv.context) P) (level : Int)
    (hp : P p) : P (Dispatch.uplevel inv level p) :=
  h.bind (h.shifts (reads_frameAbove inv level).shifts) fun _ =>
    h.bind (h.readFrame _ _) fun _ => h.bind (h.readFrame _ _) fun _ =>
    h.bind (h.shifts (shifts_moveTo _ _ _)) fun _ => h.always (h.shifts (shifts_moveTo _ _ _)) hp

/-- A scope carries what scopes carry. -/
theorem inScope {inv : Invocation} (h : Carries (.scoping inv.context) P)
    (scope : Option FrameId) (hp : P p) : P (Dispatch.inScope inv scope p) := by
  have hwrite (f : Option FrameId) : P (writeFrame inv.context .scope f) :=
    h.shifts (shifts_writeFrame (.scoping inv.context) rfl f)
  cases scope with
  | none => exact h.shifts (p := stop _) trivial
  | some f =>
    exact h.bind (h.readFrame _ _) fun _ => h.bind (hwrite _) fun _ => h.always (hwrite _) hp

theorem inCall {id : ContextId} {frame : FrameId} (h : Carries (.calling id frame) P) (hp : P p) :
    P (Dispatch.inCall id frame p) :=
  h.bind (h.readFrame _ _) fun _ => h.bind (h.readFrame _ _) fun _ =>
    h.bind (h.shifts (shifts_enterCall _ _)) fun _ =>
    h.always (h.shifts (shifts_leaveCall _ _ _ _)) hp

/-- The frame of a call is known only after it is made, so the bracket is asked about for every
frame. -/
theorem call {inv : Invocation} (h : ∀ frame, Carries (.calling inv.context frame) P)
    {name : String} {params : List String} {args : List Value}
    (hframe : P (Dispatch.callFrame inv name params args)) (hp : P p) :
    P (Dispatch.callProcedure inv name params args p) :=
  (h ⟨0⟩).bind hframe fun frame => (h frame).takeReturn ((h frame).inCall hp)

/-- A bracket takes its own steps and those of the program inside. -/
theorem steps {R : Machine → Machine → Prop} (hR : ∀ {m t : Machine}, m.Shifts b t → R m t) :
    Carries b (fun p => p.Steps R) :=
  ⟨fun h => h.mono fun _ _ => hR, fun hp hk _ => ⟨hp, hk⟩⟩

end Carries

/-- The steps of a bracketed program are actions. -/
theorem Bracketed.steps {α : Type} {p : Eval α} (h : Bracketed p) : p.Steps Machine.Next := by
  induction h with
  | done a | stop s => trivial
  | act h => exact fun m => (h m).next
  | handle _ _ _ ihp ihk => exact ⟨ihp, ihk⟩
  | uplevel inv level _ ih => exact (Carries.steps Machine.Shifts.next).uplevel level ih
  | inScope inv scope _ ih => exact (Carries.steps Machine.Shifts.next).inScope scope ih
  | call inv name params args _ ih =>
    exact Carries.call (fun _ => .steps Machine.Shifts.next)
      ((drifts_callFrame inv name params args).mono fun _ _ h => h.next) ih

end CommandHost
