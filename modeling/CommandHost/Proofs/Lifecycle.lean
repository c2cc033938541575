/-
CommandHost/Proofs/Lifecycle.lean

The life of one context, whatever is done to it.

A context is read, written, freed, disposed and finalized in any order.  `Op` has these
operations as data, `apply` carries one out, and `releases` collects what a list of
them calls the stack and the frames to release, with the flag of each call.  Under
either policy the stage of a context follows from the operations alone (`Op.leads`):
freeing detaches it, disposing and finalizing end its life, and nothing leads back.
What is released is what it holds when it is freed or disposed for the first time.

The same frame may stand in several slots, and a slot may be filled again after it was
emptied, so frames do not tell one release from another.  Installations do.  A context
never looks at what it holds (`releases_map`), so a run can be repeated with everything
marked by the time and the place where it was put in (`mark`); in the marked run
nothing is released twice.
-/
import CommandHost.Context
import Mathlib.Data.List.Nodup

namespace CommandHost

/-- How far a context has come. -/
def Stage.rank : Stage → Nat
  | active => 0
  | detached => 1
  | disposed => 2

namespace Context

variable {σ φ : Type}

/-! ### Operations -/

/-- What can be done to a context. -/
inductive Op (σ φ : Type) where
  | readOwner
  | readStack
  | readFrame (slot : Slot)
  | readCurrentGlobal
  | readTrace
  | readThread
  | readDisposed
  | readStage
  | writeStack (s : Option σ)
  | writeFrame (slot : Slot) (f : Option φ)
  | writeTrace (t : Option String)
  | free (shared : Bool)
  | dispose
  | finalize

/-- What an operation answers. -/
inductive Answer (σ φ : Type) where
  | done
  | flag (b : Bool)
  | stack (s : Option σ)
  | frame (f : Option φ)
  | trace (t : Option String)
  | thread (id : ThreadId)
  | stage (s : Stage)

/-- What comes of an operation: its answer or the accessor that faults, the calls to release
something, each with its flag, and the context afterwards. -/
structure Outcome (σ φ : Type) where
  answer : Except Accessor (Answer σ φ)
  releases : List (Held σ φ × Bool)
  after : Context σ φ

/-- A reading leaves the context as it is. -/
def reading (c : Context σ φ) (r : Except Accessor (Answer σ φ)) : Outcome σ φ := ⟨r, [], c⟩

/-- A writing that faults leaves the context as it is. -/
def writing (c : Context σ φ) : Except Accessor (Context σ φ) → Outcome σ φ
  | .ok t => ⟨.ok .done, [], t⟩
  | .error a => ⟨.error a, [], c⟩

/-- Carries out an operation. -/
def apply (policy : Policy) (c : Context σ φ) : Op σ φ → Outcome σ φ
  | .readOwner => c.reading ((c.readOwner policy).map .flag)
  | .readStack => c.reading ((c.readStack policy).map .stack)
  | .readFrame slot => c.reading ((c.readFrame policy slot).map .frame)
  | .readCurrentGlobal => c.reading ((c.readCurrentGlobal policy).map .frame)
  | .readTrace => c.reading ((c.readTrace policy).map .trace)
  | .readThread => c.reading (.ok (.thread c.thread))
  | .readDisposed => c.reading (.ok (.flag c.disposed))
  | .readStage => c.reading (.ok (.stage c.stage))
  | .writeStack s => c.writing (c.writeStack policy s)
  | .writeFrame slot f => c.writing (c.writeFrame policy slot f)
  | .writeTrace t => c.writing (c.writeTrace policy t)
  | .free shared => ⟨.ok .done, c.free.1.map (·, shared), c.free.2⟩
  | .dispose => ⟨.ok .done, c.dispose.1.map (·, true), c.dispose.2⟩
  | .finalize => ⟨.ok .done, [], c.finalize⟩

/-- The context after a list of operations. -/
def after (policy : Policy) (c : Context σ φ) (ops : List (Op σ φ)) : Context σ φ :=
  ops.foldl (fun c op => (c.apply policy op).after) c

/-- The operations of a run, each with the context before it. -/
def steps (policy : Policy) (c : Context σ φ) : List (Op σ φ) → List (Context σ φ × Op σ φ)
  | [] => []
  | op :: ops => (c, op) :: (c.apply policy op).after.steps policy ops

/-- The calls to release something that a run makes, in order. -/
def releases (policy : Policy) (c : Context σ φ) (ops : List (Op σ φ)) : List (Held σ φ × Bool) :=
  (c.steps policy ops).flatMap fun x => (x.1.apply policy x.2).releases

theorem after_append (policy : Policy) (c : Context σ φ) (ops more : List (Op σ φ)) :
    c.after policy (ops ++ more) = (c.after policy ops).after policy more :=
  List.foldl_append

theorem releases_cons (policy : Policy) (c : Context σ φ) (op : Op σ φ) (ops : List (Op σ φ)) :
    c.releases policy (op :: ops) =
      (c.apply policy op).releases ++ (c.apply policy op).after.releases policy ops := rfl

/-- What every operation keeps holds after any list of them. -/
theorem after_induction {policy : Policy} {P : Context σ φ → Prop}
    (hP : ∀ c op, P c → P (c.apply policy op).after) {c : Context σ φ} (hc : P c)
    (ops : List (Op σ φ)) : P (c.after policy ops) := by
  induction ops generalizing c with
  | nil => exact hc
  | cons op ops ih => exact ih (hP c op hc)

/-! ### What an operation can do -/

/-- The accessor that an operation goes through, if it is checked at all. -/
def Op.accessor? : Op σ φ → Option Accessor
  | readOwner => some .owner
  | readStack => some .stack
  | readFrame slot => some (.frame slot)
  | readCurrentGlobal => some .currentGlobal
  | readTrace => some .trace
  | writeStack _ => some .setStack
  | writeFrame slot _ => some (.setFrame slot)
  | writeTrace _ => some .setTrace
  | _ => none

/-- Under the strict policy a disposed context refuses every checked operation. -/
theorem apply_of_fault {c : Context σ φ} (hd : c.disposed = true) {op : Op σ φ} {a : Accessor}
    (ha : op.accessor? = some a) : c.apply .strict op = ⟨.error a, [], c⟩ := by
  have htouch (a : Accessor) : c.touch .strict a = .error a := by simp [touch, hd]
  cases op with
  | readThread | readDisposed | readStage | free | dispose | finalize => cases ha
  | _ =>
    obtain rfl := Option.some.inj ha
    simp only [apply, readOwner, readStack, readFrame, readCurrentGlobal, readTrace, writeStack,
      writeFrame, writeTrace, htouch]
    rfl

/-- The changes that operations make; `rest` is what readings and refused operations come to. -/
inductive Changes (c : Context σ φ) : Op σ φ → List (Held σ φ × Bool) → Context σ φ → Prop
  | rest (op : Op σ φ) : Changes c op [] c
  | writeStack (s : Option σ) : Changes c (.writeStack s) [] { c with stack := s }
  | writeFrame (slot : Slot) (f : Option φ) :
      Changes c (.writeFrame slot f) [] (c.setFrame slot f)
  | writeTrace (t : Option String) : Changes c (.writeTrace t) [] { c with trace := t }
  | free (shared : Bool) (h : c.disposed = false) :
      Changes c (.free shared) (c.held.map (·, shared)) { disposed := false }
  | dispose (h : c.disposed = false) :
      Changes c .dispose (c.held.map (·, true)) { disposed := true }
  | finalize : Changes c .finalize [] { c with disposed := true }

/-- Every operation is one of the changes that there are, or changes nothing. -/
theorem apply_changes (policy : Policy) (c : Context σ φ) (op : Op σ φ) :
    Changes c op (c.apply policy op).releases (c.apply policy op).after := by
  -- a writing either faults or is carried out
  have hwrite {t : Context σ φ} (a : Accessor) (h : Changes c op [] t) :
      Changes c op (c.writing ((c.touch policy a).map fun _ => t)).releases
        (c.writing ((c.touch policy a).map fun _ => t)).after := by
    unfold touch
    split
    · exact .rest op
    · exact h
  cases op with
  | writeStack s => exact hwrite .setStack (.writeStack s)
  | writeFrame slot f => exact hwrite (.setFrame slot) (.writeFrame slot f)
  | writeTrace t => exact hwrite .setTrace (.writeTrace t)
  | free shared =>
    simp only [apply, Context.free]
    split
    · exact .rest _
    · rename_i hd
      exact .free shared (by simpa using hd)
  | dispose =>
    simp only [apply, Context.dispose]
    split
    · exact .rest _
    · rename_i hd
      exact .dispose (by simpa using hd)
  | finalize => exact .finalize
  | _ => exact .rest _

theorem disposed_setFrame (c : Context σ φ) (slot : Slot) (f : Option φ) :
    (c.setFrame slot f).disposed = c.disposed := by
  cases slot <;> rfl

theorem thread_setFrame (c : Context σ φ) (slot : Slot) (f : Option φ) :
    (c.setFrame slot f).thread = c.thread := by
  cases slot <;> rfl

namespace Changes

variable {c t : Context σ φ} {op : Op σ φ} {rs : List (Held σ φ × Bool)}

/-- The thread goes only with a release of everything. -/
theorem thread (h : Changes c op rs t) : t.thread = c.thread ∨ t.thread = 0 := by
  cases h with
  | writeFrame slot f => exact .inl (c.thread_setFrame slot f)
  | free | dispose => exact .inr rfl
  | rest | writeStack | writeTrace | finalize => exact .inl rfl

/-- A disposed context stays so, keeps its thread, and releases nothing. -/
theorem of_disposed (h : Changes c op rs t) (hd : c.disposed = true) :
    t.disposed = true ∧ t.thread = c.thread ∧ rs = [] := by
  cases h with
  | writeFrame slot f => exact ⟨(c.disposed_setFrame slot f).trans hd, c.thread_setFrame slot f, rfl⟩
  | free _ hn | dispose hn =>
    rw [hd] at hn
    cases hn
  | finalize => exact ⟨rfl, rfl, rfl⟩
  | rest | writeStack | writeTrace => exact ⟨hd, rfl, rfl⟩

end Changes

/-! ### Stages -/

/-- The stage that an operation leads to. -/
def Op.leads (s : Stage) : Op σ φ → Stage
  | free _ => if s = .disposed then .disposed else .detached
  | dispose | finalize => .disposed
  | _ => s

/-- No operation leads backwards. -/
theorem Op.rank_le_leads (op : Op σ φ) (s : Stage) : s.rank ≤ (op.leads s).rank := by
  cases op with
  | free | dispose | finalize => cases s <;> simp [leads, Stage.rank]
  | _ => exact Nat.le_refl _

/-- Where an operation leads depends on the stage only. -/
theorem stage_apply (policy : Policy) (c : Context σ φ) (op : Op σ φ) :
    (c.apply policy op).after.stage = op.leads c.stage := by
  -- a writing touches neither the thread nor what retires a context
  have hkept {t : Context σ φ} (a : Accessor) (hd : t.disposed = c.disposed)
      (ht : t.thread = c.thread) :
      (c.writing ((c.touch policy a).map fun _ => t)).after.stage = c.stage := by
    cases c.touch policy a with
    | error a => rfl
    | ok u =>
      show t.stage = c.stage
      rw [stage, stage, hd, ht]
  cases op with
  | writeStack s => exact hkept .setStack rfl rfl
  | writeFrame slot f =>
    exact hkept (.setFrame slot) (c.disposed_setFrame slot f) (c.thread_setFrame slot f)
  | writeTrace t => exact hkept .setTrace rfl rfl
  | free shared =>
    simp only [apply, Context.free, Op.leads]
    split
    · rename_i hd
      simp [stage, hd]
    · rename_i hd
      have hne : c.stage ≠ .disposed := by
        rw [stage, if_neg hd]
        split <;> simp
      rw [if_neg hne]
      rfl
  | dispose =>
    simp only [apply, Context.dispose, Op.leads]
    split
    · rename_i hd
      simp [stage, hd]
    · rfl
  | _ => rfl

/-! ### What is released -/

/-- What the context holds: the stack, and the frames of the slots from the innermost on. -/
def contents (c : Context σ φ) : List (Held σ φ) :=
  (c.stack.map .stack).toList ++ (c.uplevel.map .frame).toList ++
    (c.procedure.map .frame).toList ++ (c.current.map .frame).toList ++
    (c.scope.map .frame).toList ++ (c.global.map .frame).toList

theorem held_eq_contents (c : Context σ φ) : c.held = c.contents := by
  rw [held, List.filterMap_eq_flatMap_toList]
  simp [contents, Slot.all, frame]

/-- What an operation has to release of a context that is not disposed. -/
def Op.due (c : Context σ φ) : Op σ φ → List (Held σ φ × Bool)
  | free shared => c.contents.map (·, shared)
  | dispose => c.contents.map (·, true)
  | _ => []

/-- A disposed context releases nothing; any other what is due. -/
theorem releases_apply (policy : Policy) (c : Context σ φ) (op : Op σ φ) :
    (c.apply policy op).releases = if c.disposed then [] else op.due c := by
  by_cases hd : c.disposed = true
  · rw [if_pos hd]
    exact ((c.apply_changes policy op).of_disposed hd).2.2
  · rw [if_neg hd]
    have hwriting (r : Except Accessor (Context σ φ)) : (c.writing r).releases = [] := by
      cases r <;> rfl
    cases op with
    | free shared => simp [apply, Context.free, hd, Op.due, held_eq_contents]
    | dispose => simp [apply, Context.dispose, hd, Op.due, held_eq_contents]
    | writeStack | writeFrame | writeTrace => exact hwriting _
    | _ => rfl

/-! ### Contexts do not look at what they hold -/

section

variable {σ' φ' : Type} (f : σ → σ') (g : φ → φ')

/-- The same context with other things in it. -/
def map (c : Context σ φ) : Context σ' φ' :=
  { owned := c.owned, thread := c.thread, disposed := c.disposed, trace := c.trace
    stack := c.stack.map f, global := c.global.map g, scope := c.scope.map g
    current := c.current.map g, procedure := c.procedure.map g, uplevel := c.uplevel.map g }

def Op.map : Op σ φ → Op σ' φ'
  | writeStack s => .writeStack (s.map f)
  | writeFrame slot x => .writeFrame slot (x.map g)
  | readOwner => .readOwner
  | readStack => .readStack
  | readFrame slot => .readFrame slot
  | readCurrentGlobal => .readCurrentGlobal
  | readTrace => .readTrace
  | readThread => .readThread
  | readDisposed => .readDisposed
  | readStage => .readStage
  | writeTrace t => .writeTrace t
  | free shared => .free shared
  | dispose => .dispose
  | finalize => .finalize

def mapHeld : Held σ φ → Held σ' φ'
  | .stack s => .stack (f s)
  | .frame x => .frame (g x)

theorem contents_map (c : Context σ φ) : (c.map f g).contents = c.contents.map (mapHeld f g) := by
  have hslot (x : Option φ) : ((x.map g).map .frame).toList =
      (x.map .frame).toList.map (mapHeld f g) := by
    cases x <;> rfl
  have hstack : ((c.stack.map f).map .stack).toList =
      (c.stack.map .stack).toList.map (mapHeld f g) := by
    cases c.stack <;> rfl
  simp only [contents, map, List.map_append, hslot, hstack]

theorem due_map (c : Context σ φ) (op : Op σ φ) :
    (op.map f g).due (c.map f g) = (op.due c).map fun x => (mapHeld f g x.1, x.2) := by
  cases op with
  | free | dispose => simp [Op.map, Op.due, contents_map]
  | _ => rfl

/-- Operations do the same whatever the contents are. -/
theorem after_apply_map (policy : Policy) (c : Context σ φ) (op : Op σ φ) :
    ((c.map f g).apply policy (op.map f g)).after = (c.apply policy op).after.map f g := by
  -- whether a writing faults does not depend on the contents
  have hwrite {t : Context σ φ} {t' : Context σ' φ'} (a : Accessor) (h : t' = t.map f g) :
      ((c.map f g).writing (((c.map f g).touch policy a).map fun _ => t')).after =
        (c.writing ((c.touch policy a).map fun _ => t)).after.map f g := by
    subst h
    have htouch : (c.map f g).touch policy a = c.touch policy a := rfl
    rw [htouch]
    cases c.touch policy a <;> rfl
  cases op with
  | writeStack s => exact hwrite .setStack rfl
  | writeFrame slot x => exact hwrite (.setFrame slot) (by cases slot <;> rfl)
  | writeTrace t => exact hwrite .setTrace rfl
  | free shared =>
    show (c.map f g).free.2 = c.free.2.map f g
    unfold Context.free
    show (if c.disposed then _ else _ : _ × Context σ' φ').2 = _
    split <;> rfl
  | dispose =>
    show (c.map f g).dispose.2 = c.dispose.2.map f g
    unfold Context.dispose
    show (if c.disposed then _ else _ : _ × Context σ' φ').2 = _
    split <;> rfl
  | _ => rfl

/-- A run with other things in the context is the same run. -/
theorem releases_map (policy : Policy) (c : Context σ φ) (ops : List (Op σ φ)) :
    (c.map f g).releases policy (ops.map (Op.map f g)) =
      (c.releases policy ops).map fun x => (mapHeld f g x.1, x.2) := by
  induction ops generalizing c with
  | nil => rfl
  | cons op ops ih =>
    have hd : (c.map f g).disposed = c.disposed := rfl
    rw [List.map_cons, releases_cons, releases_cons, after_apply_map, ih, List.map_append,
      releases_apply, releases_apply, due_map, hd]
    split <;> rfl

end

/-! ### Installations -/

/-- Something that was put into a context: when, into which slot (the stack has none), and what. -/
structure Put (α : Type) where
  time : Nat
  place : Option Slot
  content : α
  deriving DecidableEq

/-- The context with everything in it marked as put there at time 0. -/
def mark (c : Context σ φ) : Context (Put σ) (Put φ) :=
  { owned := c.owned, thread := c.thread, disposed := c.disposed, trace := c.trace
    stack := c.stack.map (⟨0, none, ·⟩), global := c.global.map (⟨0, some .global, ·⟩)
    scope := c.scope.map (⟨0, some .scope, ·⟩), current := c.current.map (⟨0, some .current, ·⟩)
    procedure := c.procedure.map (⟨0, some .procedure, ·⟩)
    uplevel := c.uplevel.map (⟨0, some .uplevel, ·⟩) }

/-- The operation at a time, with what it puts into a context marked. -/
def Op.mark (time : Nat) : Op σ φ → Op (Put σ) (Put φ)
  | writeStack s => .writeStack (s.map (⟨time, none, ·⟩))
  | writeFrame slot f => .writeFrame slot (f.map (⟨time, some slot, ·⟩))
  | op => op.map (⟨time, none, ·⟩) (⟨time, none, ·⟩)

/-- The operations from a time on. -/
def markFrom : (time : Nat) → List (Op σ φ) → List (Op (Put σ) (Put φ))
  | _, [] => []
  | time, op :: ops => op.mark time :: markFrom (time + 1) ops

theorem map_content_mark (c : Context σ φ) : c.mark.map Put.content Put.content = c := by
  simp [mark, map, Function.comp_def]

theorem Op.map_content_mark (time : Nat) (op : Op σ φ) :
    (op.mark time).map Put.content Put.content = op := by
  cases op with
  | writeStack s => simp [Op.mark, Op.map, Function.comp_def]
  | writeFrame slot f => simp [Op.mark, Op.map, Function.comp_def]
  | _ => rfl

/-- Without their marks the operations are the given ones. -/
theorem map_content_markFrom (time : Nat) (ops : List (Op σ φ)) :
    (markFrom time ops).map (Op.map Put.content Put.content) = ops := by
  induction ops generalizing time with
  | nil => rfl
  | cons op ops ih => rw [markFrom, List.map_cons, ih, op.map_content_mark]

/-- A context holds its stack and the frames in its slots. -/
theorem mem_held_iff {c : Context σ φ} {h : Held σ φ} : h ∈ c.held ↔
    (∃ s, c.stack = some s ∧ h = .stack s) ∨ ∃ slot f, c.frame slot = some f ∧ h = .frame f := by
  have hall (slot : Slot) : slot ∈ Slot.all := by cases slot <;> decide
  simp only [held, List.mem_append, Option.mem_toList, Option.map_eq_some_iff, List.mem_filterMap,
    hall, true_and, @eq_comm _ h]

theorem frame_setFrame (c : Context σ φ) (slot k : Slot) (f : Option φ) :
    (c.setFrame slot f).frame k = if k = slot then f else c.frame k := by
  cases slot <;> cases k <;> rfl

theorem stack_setFrame (c : Context σ φ) (slot : Slot) (f : Option φ) :
    (c.setFrame slot f).stack = c.stack := by
  cases slot <;> rfl

/-- When something that is held was put there. -/
def putAt : Held (Put σ) (Put φ) → Nat
  | .stack s => s.time
  | .frame f => f.time

/-- A marked context before a time: everything in it bears its own place and an earlier time, and
nothing in it is among what was released before. -/
structure Marked (time : Nat) (past : List (Held (Put σ) (Put φ))) (c : Context (Put σ) (Put φ)) :
    Prop where
  stack : ∀ s, c.stack = some s → s.place = none
  frame : ∀ slot f, c.frame slot = some f → f.place = some slot
  earlier : ∀ h ∈ c.held, putAt h < time
  released : ∀ h ∈ past, putAt h < time
  unreleased : ∀ h ∈ c.held, h ∉ past

namespace Marked

variable {time : Nat} {past : List (Held (Put σ) (Put φ))} {c : Context (Put σ) (Put φ)}

/-- The things in a marked context can be told apart by their places. -/
theorem nodup (h : Marked time past c) : c.held.Nodup := by
  have hslots : Slot.all.Nodup := by decide
  have hframes : (Slot.all.filterMap fun slot =>
      (c.frame slot).map (.frame : _ → Held (Put σ) (Put φ))).Nodup := by
    -- each frame has its place in its mark, so two slots hold different ones
    refine hslots.filterMap fun slot slot' x hx hx' => ?_
    obtain ⟨f, hf, rfl⟩ := Option.map_eq_some_iff.1 hx
    obtain ⟨f', hf', e⟩ := Option.map_eq_some_iff.1 hx'
    obtain rfl := Held.frame.inj e
    exact Option.some.inj ((h.frame slot f' hf).symm.trans (h.frame slot' f' hf'))
  rw [held]
  cases c.stack with
  | none => exact hframes
  | some s =>
    refine List.nodup_cons.2 ⟨?_, hframes⟩
    simp

/-- A context in which nothing new was put. -/
theorem later (h : Marked time past c) {t : Context (Put σ) (Put φ)} (hs : t.stack = c.stack)
    (hf : ∀ slot, t.frame slot = c.frame slot) : Marked (time + 1) past t := by
  have hheld (x : Held (Put σ) (Put φ)) : x ∈ t.held ↔ x ∈ c.held := by
    simp only [mem_held_iff, hs, hf]
  exact {
    stack := fun s e => h.stack s (hs ▸ e)
    frame := fun slot f e => h.frame slot f (hf slot ▸ e)
    earlier := fun x hx => Nat.lt_succ_of_lt (h.earlier x ((hheld x).1 hx))
    released := fun x hx => Nat.lt_succ_of_lt (h.released x hx)
    unreleased := fun x hx => h.unreleased x ((hheld x).1 hx) }

/-- Putting something into a context at the present time. -/
theorem put (h : Marked time past c) {t : Context (Put σ) (Put φ)}
    (hs : ∀ s, t.stack = some s → s.place = none)
    (hf : ∀ slot f, t.frame slot = some f → f.place = some slot)
    (hheld : ∀ x ∈ t.held, x ∈ c.held ∨ putAt x = time) : Marked (time + 1) past t where
  stack := hs
  frame := hf
  earlier x hx := by
    rcases hheld x hx with hx | hx
    · exact Nat.lt_succ_of_lt (h.earlier x hx)
    · omega
  released x hx := Nat.lt_succ_of_lt (h.released x hx)
  unreleased x hx hp := by
    rcases hheld x hx with hx | hx
    · exact h.unreleased x hx hp
    · -- what was released was put there earlier
      have hlt := h.released x hp
      omega

/-- Releasing everything leaves nothing to be released. -/
theorem release (h : Marked time past c) {t : Context (Put σ) (Put φ)} (ht : t.held = []) :
    Marked (time + 1) (past ++ c.held) t := by
  have hnone (x : Held (Put σ) (Put φ)) : x ∉ t.held := by simp [ht]
  exact {
    stack := fun s e => absurd (mem_held_iff.2 (.inl ⟨s, e, rfl⟩)) (hnone _)
    frame := fun slot f e => absurd (mem_held_iff.2 (.inr ⟨slot, f, e, rfl⟩)) (hnone _)
    earlier := fun x hx => absurd hx (hnone x)
    released := fun x hx => by
      rcases List.mem_append.1 hx with hx | hx
      · exact Nat.lt_succ_of_lt (h.released x hx)
      · exact Nat.lt_succ_of_lt (h.earlier x hx)
    unreleased := fun x hx => absurd hx (hnone x) }

/-- One operation of a marked run. -/
theorem apply (h : Marked time past c) (policy : Policy) (op : Op σ φ) :
    Marked (time + 1) (past ++ (c.apply policy (op.mark time)).releases.map Prod.fst)
        (c.apply policy (op.mark time)).after ∧
      (past.Nodup → (past ++ (c.apply policy (op.mark time)).releases.map Prod.fst).Nodup) := by
  have hfst (shared : Bool) : (c.held.map (·, shared)).map Prod.fst = c.held := by
    simp [Function.comp_def]
  -- what is held now was not released before
  have hfresh (hp : past.Nodup) : (past ++ c.held).Nodup :=
    List.nodup_append'.2 ⟨hp, h.nodup, fun x hx hc => h.unreleased x hc hx⟩
  generalize e : op.mark time = marked
  have hc := c.apply_changes policy marked
  generalize (c.apply policy marked).releases = rs at hc
  generalize (c.apply policy marked).after = t at hc
  cases hc with
  | rest | finalize | writeTrace t =>
    rw [List.map_nil, List.append_nil]
    exact ⟨h.later rfl fun slot => by cases slot <;> rfl, fun hp => hp⟩
  | free shared hd | dispose hd =>
    rw [hfst]
    exact ⟨h.release rfl, hfresh⟩
  | writeStack s =>
    rw [List.map_nil, List.append_nil]
    refine ⟨h.put (fun s' hs => ?_) (fun slot f hf => h.frame slot f ?_) fun x hx => ?_,
      fun hp => hp⟩
    · cases op <;> cases e
      obtain ⟨v, -, rfl⟩ := Option.map_eq_some_iff.1 hs
      rfl
    · cases slot <;> exact hf
    · cases op <;> cases e
      rcases mem_held_iff.1 hx with ⟨s', hs, rfl⟩ | ⟨slot, f, hf, rfl⟩
      · obtain ⟨v, -, rfl⟩ := Option.map_eq_some_iff.1 hs
        exact .inr rfl
      · exact .inl (mem_held_iff.2 (.inr ⟨slot, f, by cases slot <;> exact hf, rfl⟩))
  | writeFrame slot f =>
    rw [List.map_nil, List.append_nil]
    -- what is written is marked with its slot and the time
    have hnew {x : Put φ} (hx : f = some x) : x.place = some slot ∧ x.time = time := by
      cases op <;> cases e
      obtain ⟨v, -, rfl⟩ := Option.map_eq_some_iff.1 hx
      exact ⟨rfl, rfl⟩
    refine ⟨h.put (fun s hs => h.stack s ?_) (fun k x hx => ?_) fun x hx => ?_, fun hp => hp⟩
    · rwa [stack_setFrame] at hs
    · rw [frame_setFrame] at hx
      split at hx
      · rename_i hk
        exact hk ▸ (hnew hx).1
      · exact h.frame k x hx
    · -- held before, or written just now
      rcases mem_held_iff.1 hx with ⟨s, hs, rfl⟩ | ⟨k, y, hy, rfl⟩
      · rw [stack_setFrame] at hs
        exact .inl (mem_held_iff.2 (.inl ⟨s, hs, rfl⟩))
      · rw [frame_setFrame] at hy
        split at hy
        · exact .inr (hnew hy).2
        · exact .inl (mem_held_iff.2 (.inr ⟨k, y, hy, rfl⟩))

/-- A marked run releases nothing twice, and nothing that was released before. -/
theorem nodup_releases (h : Marked time past c) (hp : past.Nodup) (policy : Policy)
    (ops : List (Op σ φ)) :
    (past ++ (c.releases policy (markFrom time ops)).map Prod.fst).Nodup := by
  induction ops generalizing time past c with
  | nil => simpa [markFrom, releases, steps] using hp
  | cons op ops ih =>
    obtain ⟨hstep, hnodup⟩ := h.apply policy op
    rw [markFrom, releases_cons, List.map_append, ← List.append_assoc]
    exact ih hstep (hnodup hp)

end Marked

/-- At the start everything was put at time zero, and nothing is released. -/
theorem marked_mark (c : Context σ φ) : Marked 1 [] c.mark where
  stack s hs := by
    obtain ⟨v, -, rfl⟩ := Option.map_eq_some_iff.1 hs
    rfl
  frame slot f hf := by
    cases slot
    all_goals
      obtain ⟨v, -, rfl⟩ := Option.map_eq_some_iff.1 hf
      rfl
  earlier h hh := by
    rcases mem_held_iff.1 hh with ⟨s, hs, rfl⟩ | ⟨slot, f, hf, rfl⟩
    · obtain ⟨v, -, rfl⟩ := Option.map_eq_some_iff.1 hs
      exact Nat.one_pos
    · cases slot
      all_goals
        obtain ⟨v, -, rfl⟩ := Option.map_eq_some_iff.1 hf
        exact Nat.one_pos
  released h hh := absurd hh List.not_mem_nil
  unreleased h _ := List.not_mem_nil

/-! ### Whole runs -/

/-- What holds of a disposed context from then on. -/
theorem after_of_disposed (policy : Policy) {c : Context σ φ} (hd : c.disposed = true)
    (ops : List (Op σ φ)) :
    (c.after policy ops).disposed = true ∧ (c.after policy ops).thread = c.thread ∧
      c.releases policy ops = [] := by
  induction ops generalizing c with
  | nil => exact ⟨hd, rfl, rfl⟩
  | cons op ops ih =>
    obtain ⟨hd', ht, hr⟩ := (c.apply_changes policy op).of_disposed hd
    obtain ⟨hdisposed, hthread, hreleases⟩ := ih hd'
    refine ⟨hdisposed, hthread.trans ht, ?_⟩
    rw [releases_cons, hr, hreleases]
    rfl

/-- Under the strict policy a disposed context does not change at all. -/
theorem after_of_strict {c : Context σ φ} (hd : c.disposed = true) (ops : List (Op σ φ)) :
    c.after .strict ops = c := by
  have hop (op : Op σ φ) : (c.apply .strict op).after = c := by
    rcases ha : op.accessor? with - | a
    · cases op with
      | readThread | readDisposed | readStage => rfl
      | free | dispose => simp [apply, Context.free, Context.dispose, hd]
      | finalize =>
        show { c with disposed := true } = c
        rw [← hd]
      | _ => cases ha
    · rw [apply_of_fault hd ha]
  induction ops with
  | nil => rfl
  | cons op ops ih =>
    show (c.apply .strict op).after.after .strict ops = c
    rw [hop op, ih]

/-- **The life of a context.**  Whatever is done to a context under either policy: at each moment an
operation leads to a stage that follows from the present one, so that freeing detaches a context that
is not disposed, disposing and finalizing dispose it, and nothing else moves it.  A context that is
freed or disposed for the first time lets go of everything, and one that is finalized keeps it all.
From each moment on the stage does not move backwards, a thread that is gone stays gone, and once the
context is disposed nothing is released any more and the thread stays; under the strict policy it
then does not change at all and refuses every checked operation.

What is released is, for each freeing and each disposal of a context that is not disposed yet, what
it holds at that moment, in order and with the flag of that call; so nothing else releases anything,
and no installation is released twice. -/
theorem lifecycle_of_context (policy : Policy) (c : Context σ φ) (ops : List (Op σ φ)) :
    (∀ before rest, ops = before ++ rest →
      (∀ op, ((c.after policy before).apply policy op).after.stage =
        op.leads (c.after policy before).stage) ∧
      ((c.after policy before).disposed = false →
        (∀ shared, ((c.after policy before).apply policy (.free shared)).after = {}) ∧
        ((c.after policy before).apply policy .dispose).after = { disposed := true }) ∧
      ((c.after policy before).apply policy .finalize).after =
        { c.after policy before with disposed := true } ∧
      (c.after policy before).stage.rank ≤ (c.after policy ops).stage.rank ∧
      ((c.after policy before).thread = 0 → (c.after policy ops).thread = 0) ∧
      ((c.after policy before).disposed = true →
        (c.after policy ops).thread = (c.after policy before).thread ∧
        (c.after policy before).releases policy rest = [] ∧
        (policy = .strict → c.after policy ops = c.after policy before ∧
          ∀ op a, op.accessor? = some a →
            ((c.after policy before).apply policy op).answer = .error a))) ∧
    (c.releases policy ops = (c.steps policy ops).flatMap fun x =>
      if x.1.disposed then [] else x.2.due x.1) ∧
    ((c.mark.releases policy (markFrom 1 ops)).map fun x =>
      (mapHeld Put.content Put.content x.1, x.2)) = c.releases policy ops ∧
    ((c.mark.releases policy (markFrom 1 ops)).map Prod.fst).Nodup := by
  refine ⟨?_, ?_, ?_, ?_⟩
  · rintro before rest rfl
    rw [after_append]
    generalize c.after policy before = s
    refine ⟨s.stage_apply policy, fun hd => ⟨fun shared => ?_, ?_⟩, rfl, ?_, fun ht => ?_,
      fun hd => ⟨?_, ?_, ?_⟩⟩
    · simp [apply, Context.free, hd]
    · simp [apply, Context.dispose, hd]
    · -- the rank of the stage never falls, and a thread that is given up does not come back
      refine after_induction (P := fun t => s.stage.rank ≤ t.stage.rank) (fun t op h => ?_)
        (Nat.le_refl _) rest
      rw [stage_apply]
      exact Nat.le_trans h (op.rank_le_leads t.stage)
    · refine after_induction (P := fun t => t.thread = 0) (fun t op h => ?_) ht rest
      rcases (t.apply_changes policy op).thread with e | e
      · exact e.trans h
      · exact e
    · exact (after_of_disposed policy hd rest).2.1
    · exact (after_of_disposed policy hd rest).2.2
    · rintro rfl
      refine ⟨after_of_strict hd rest, fun op a ha => ?_⟩
      rw [apply_of_fault hd ha]
  · simp only [releases, releases_apply]
  · rw [← releases_map, map_content_mark, map_content_markFrom]
  · simpa using (marked_mark c).nodup_releases List.nodup_nil policy ops

end Context

end CommandHost
