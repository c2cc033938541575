/-
CommandHost/Frame.lean

Call frames: scopes of named variables.

Frames are shared: the same frame can be the global frame of many contexts, or
stand on a call stack and be a context's current frame at once.  So frames live in
a store (`Frames`) and are referred to by id; every operation on a frame is a pure
function on `Frame`, lifted to the store by `Frames.modify`.
-/
import CommandHost.Table
import CommandHost.Value

namespace CommandHost

/-! ### Frames -/

/-- What kinds of frame a frame is, one bit each. -/
structure FrameFlags where
  bits : Int
  deriving DecidableEq, Repr

namespace FrameFlags

/-- The frame shared by every context of an interpreter. -/
def globalFrame : FrameFlags := ⟨1⟩

/-- The frame of one procedure call. -/
def procedureFrame : FrameFlags := ⟨2⟩

/-- A frame that stands in for the global one. -/
def scopeFrame : FrameFlags := ⟨4⟩

def isGlobal (f : FrameFlags) : Bool := f.bits % 2 == 1

end FrameFlags

/-- One scope of named variables. -/
structure Frame where
  name : String
  flags : FrameFlags
  /-- The nesting depth; the global frame has depth 0. -/
  level : Int
  vars : Table String Value := ∅
  disposed : Bool := false

namespace Frame

/-- The value of a variable. -/
def get? (f : Frame) (name : String) : Option Value := f.vars.get? name

/-- Gives a variable a value. -/
def set (f : Frame) (name : String) (v : Value) : Frame :=
  { f with vars := f.vars.insert name v }

/-- Replaces the value of a variable by what `change` makes of it; when `change` fails the frame
stays as it is. -/
def update {ε : Type} (f : Frame) (name : String) (change : Option Value → Except ε Value) :
    Except ε (Value × Frame) :=
  (change (f.get? name)).map fun v => (v, f.set name v)

/-- Removes a variable, if it exists. -/
def unset? (f : Frame) (name : String) : Option Frame :=
  if f.vars.contains name then some { f with vars := f.vars.erase name } else none

/-- The names of the variables in increasing order. -/
def names (f : Frame) : List String := f.vars.names

/-- The variables in increasing order of their names. -/
def bindings (f : Frame) : List (String × Value) :=
  f.names.filterMap fun n => (f.get? n).map fun v => (n, v)

/-- Drops the variables.  A global frame keeps them unless `shared` is set, since other contexts
still use it. -/
def free (f : Frame) (shared : Bool) : Frame :=
  if f.flags.isGlobal && !shared then f else { f with vars := ∅ }

/-- Drops the variables for good. -/
def dispose (f : Frame) : Frame := { f.free true with disposed := true }

/-- A procedure frame that binds parameters to arguments, the last one winning when a parameter
is repeated. -/
def ofCall (name : String) (level : Int) (params : List String) (args : List Value) : Frame :=
  (params.zip args).foldl (fun f p => f.set p.1 p.2) ⟨name, .procedureFrame, level, ∅, false⟩

theorem get?_set (f : Frame) (name : String) (v : Value) (x : String) :
    (f.set name v).get? x = if x = name then some v else f.get? x :=
  f.vars.get?_insert name x v

/-- Removing a variable changes the variables only. -/
theorem eq_of_unset? {f g : Frame} {name : String} (h : f.unset? name = some g) :
    g = { f with vars := g.vars } := by
  simp only [unset?, Option.ite_none_right_eq_some, Option.some.injEq] at h
  rw [← h.2]

/-- Updating a variable changes the variables only. -/
theorem eq_of_update {ε : Type} {f g : Frame} {name : String} {new : Option Value → Except ε Value}
    {v : Value} (h : f.update name new = .ok (v, g)) : g = { f with vars := g.vars } := by
  rcases hn : new (f.get? name) with err | w
  · simp [update, hn, Except.map] at h
  · simp only [update, hn, Except.map, Except.ok.injEq, Prod.mk.injEq] at h
    rw [← h.2, set]

end Frame

/-! ### The store -/

/-- Refers to a frame of a store. -/
structure FrameId where
  index : Nat
  deriving DecidableEq, Repr

/-- The frames made so far. -/
structure Frames where
  all : Array Frame := #[]

namespace Frames

def get? (s : Frames) (id : FrameId) : Option Frame := s.all[id.index]?

/-- Adds a frame under a fresh id. -/
def alloc (s : Frames) (f : Frame) : FrameId × Frames :=
  (⟨s.all.size⟩, ⟨s.all.push f⟩)

/-- Changes one frame; an id without frame changes nothing. -/
def modify (s : Frames) (id : FrameId) (change : Frame → Frame) : Frames :=
  ⟨s.all.modify id.index change⟩

theorem get?_alloc (s : Frames) (f : Frame) (id : FrameId) :
    (s.alloc f).2.get? id = if id = (s.alloc f).1 then some f else s.get? id := by
  obtain ⟨n⟩ := id
  simp [alloc, get?, Array.getElem?_push]

theorem get?_modify (s : Frames) (id k : FrameId) (change : Frame → Frame) :
    (s.modify id change).get? k = if k = id then (s.get? k).map change else s.get? k := by
  obtain ⟨i⟩ := id
  obtain ⟨n⟩ := k
  simp only [modify, get?, FrameId.mk.injEq, Array.getElem?_modify]
  by_cases h : i = n
  · simp [h]
  · simp [h, Ne.symm h]

/-- Two changes that agree on a frame change the store in the same way. -/
theorem modify_congr {s : Frames} {f : FrameId} {g h : Frame → Frame}
    (hgh : ∀ frame, s.get? f = some frame → g frame = h frame) : s.modify f g = s.modify f h := by
  obtain ⟨all⟩ := s
  simp only [modify, Frames.mk.injEq]
  refine Array.ext_getElem? fun i => ?_
  simp only [Array.getElem?_modify]
  by_cases hi : f.index = i
  · subst hi
    rcases e : all[f.index]? with - | frame
    · simp
    · simp [hgh frame (by simpa [get?] using e)]
  · simp [hi]

/-- A frame that is put in its own place after a change has been changed there. -/
theorem modify_const {s : Frames} {id : FrameId} {f : Frame} (h : s.get? id = some f)
    (g : Frame → Frame) : s.modify id (fun _ => g f) = s.modify id g := by
  refine modify_congr fun f' hf' => ?_
  rw [Option.some.inj (h.symm.trans hf')]

end Frames

/-! ### Call stacks -/

/-- The procedure frames of one context, innermost first. -/
structure CallStack where
  frames : List FrameId := []
  deriving DecidableEq, Repr

namespace CallStack

def push (s : CallStack) (f : FrameId) : CallStack := ⟨f :: s.frames⟩

/-- The stack without its innermost frame. -/
def pop (s : CallStack) : CallStack := ⟨s.frames.tail⟩

/-- The innermost frame. -/
def top? (s : CallStack) : Option FrameId := s.frames.head?

def depth (s : CallStack) : Nat := s.frames.length

/-- The frame at a nesting depth; the outermost one has depth 1. -/
def atLevel? (s : CallStack) (level : Int) : Option FrameId :=
  if 1 ≤ level then s.frames.reverse[(level - 1).toNat]? else none

end CallStack

/-- Drops the variables of every frame of a stack, innermost first. -/
def Frames.freeStack (s : Frames) (stack : CallStack) (shared : Bool) : Frames :=
  stack.frames.foldl (fun s id => s.modify id (·.free shared)) s

end CommandHost
