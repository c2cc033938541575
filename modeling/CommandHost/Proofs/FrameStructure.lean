/-
CommandHost/Proofs/FrameStructure.lean

The frames of an active context.

The call stack of an active context consists of live procedure frames, the k-th of
level k, and is no deeper than the limit; the procedure slot has its top.  The
current frame, and the frame moved up to if there is one, is one that the context
can see: the global frame, a frame of the stack, or a scope that is running.

The structure is broken and repaired while a procedure call is entered or left,
never while a body runs.  So it is stated for the points of a session whose path is
settled.  The proof keeps two things apart.  What a program leaves behind follows
from balance, since frames that existed before it are kept (`Keeps`).  What holds on
its way is an induction over bracketed programs, in which a scope counts as running
from the moment on that its bracket is on the path.
-/
import CommandHost.Proofs.Balance

namespace CommandHost

open Program Eval Dispatch

/-! ### Frames that are kept -/

/-- A frame of a procedure call that is not over. -/
structure Frame.Live (frame : Frame) (level : Int) : Prop where
  procedure : frame.flags = .procedureFrame
  level : frame.level = level
  undisposed : frame.disposed = false

/-- Two frames that differ in their variables only. -/
structure Frame.Alike (f g : Frame) : Prop where
  flags : g.flags = f.flags
  level : g.level = f.level
  disposed : g.disposed = f.disposed

/-- Freeing a frame takes at most its variables. -/
theorem Frame.alike_free (f : Frame) (shared : Bool) : f.Alike (f.free shared) := by
  unfold Frame.free
  split <;> exact ⟨rfl, rfl, rfl⟩

/-- The frames are still there and differ in their variables only; the global frame may be
disposed. -/
def Frames.Keeps (s t : Frames) : Prop :=
  ∀ id frame, s.get? id = some frame → ∃ frame', t.get? id = some frame' ∧
    frame'.flags = frame.flags ∧ (id ≠ Machine.globalFrame → frame.Alike frame')

namespace Frames.Keeps

theorem refl (s : Frames) : s.Keeps s :=
  fun _ frame h => ⟨frame, h, rfl, fun _ => ⟨rfl, rfl, rfl⟩⟩

/-- Frames that are kept twice are kept. -/
theorem trans {s t u : Frames} (h : s.Keeps t) (h' : t.Keeps u) : s.Keeps u := by
  intro id frame hs
  obtain ⟨f, hf, e, ha⟩ := h id frame hs
  obtain ⟨g, hg, e', ha'⟩ := h' id f hf
  refine ⟨g, hg, e'.trans e, fun hid => ?_⟩
  obtain ⟨h₁, h₂, h₃⟩ := ha hid
  obtain ⟨h₁', h₂', h₃'⟩ := ha' hid
  exact ⟨h₁'.trans h₁, h₂'.trans h₂, h₃'.trans h₃⟩

/-- A change of variables keeps the frames, whichever frame it is made in. -/
theorem modify {change : Frame → Frame} (hc : ∀ f : Frame, f.Alike (change f)) (s : Frames)
    (id : FrameId) : s.Keeps (s.modify id change) := by
  intro k frame hs
  rw [get?_modify, hs]
  split
  · exact ⟨change frame, rfl, (hc frame).flags, fun _ => hc frame⟩
  · exact hs ▸ refl s k frame hs

/-- Changing a frame that was not there before keeps the frames that were. -/
theorem modify_new {s t : Frames} (h : s.Keeps t) {id : FrameId} (hid : s.get? id = none)
    (change : Frame → Frame) : s.Keeps (t.modify id change) := by
  intro k frame hs
  have hne : k ≠ id := by
    rintro rfl
    simp [hid] at hs
  rw [get?_modify, if_neg hne]
  exact h k frame hs

/-- The global frame is the one that may be disposed. -/
theorem dispose_global (s : Frames) : s.Keeps (s.modify Machine.globalFrame (·.dispose)) := by
  intro k frame hs
  rw [get?_modify, hs]
  split
  · rename_i h
    exact ⟨frame.dispose, rfl, (frame.alike_free true).flags, fun hk => absurd h hk⟩
  · exact hs ▸ refl s k frame hs

/-- A new frame is none of those that there were. -/
theorem alloc (s : Frames) (f : Frame) : s.Keeps (s.alloc f).2 := by
  intro k frame hs
  have hne : k ≠ (s.alloc f).1 := by
    rintro rfl
    simp [Frames.alloc, get?] at hs
  rw [get?_alloc, if_neg hne]
  exact refl s k frame hs

/-- Freeing a stack, by induction on its frames. -/
theorem freeStack (s : Frames) (stack : CallStack) (shared : Bool) :
    s.Keeps (s.freeStack stack shared) := by
  unfold Frames.freeStack
  induction stack.frames generalizing s with
  | nil => exact refl s
  | cons id ids ih => exact (modify (fun f => f.alike_free shared) s id).trans (ih _)

/-- What a context held is freed piece by piece. -/
theorem release (shared : Bool) (s : Frames) (held : List (Held CallStack FrameId)) :
    s.Keeps (held.foldl (Machine.releaseHeld shared) s) := by
  induction held generalizing s with
  | nil => exact refl s
  | cons x xs ih =>
    refine trans ?_ (ih _)
    cases x with
    | stack stack => exact freeStack s stack shared
    | frame f => exact modify (fun f => f.alike_free shared) s f

end Frames.Keeps

/-- The frames of a machine are kept, and so is its limit. -/
structure Machine.Keeps (m t : Machine) : Prop where
  frames : m.frames.Keeps t.frames
  maxDepth : t.maxDepth = m.maxDepth

namespace Machine

theorem Keeps.of_frames {m t : Machine} (h : t.frames = m.frames) (hd : t.maxDepth = m.maxDepth) :
    m.Keeps t :=
  ⟨h ▸ .refl _, hd⟩

theorem Keeps.refl (m : Machine) : m.Keeps m := .of_frames rfl rfl

theorem Keeps.trans {m t u : Machine} (h : m.Keeps t) (h' : t.Keeps u) : m.Keeps u :=
  ⟨h.frames.trans h'.frames, h'.maxDepth.trans h.maxDepth⟩

theorem keeps_freeContext (m : Machine) (id : ContextId) (shared : Bool) :
    m.Keeps (m.freeContext id shared) :=
  ⟨.release shared m.frames _, rfl⟩

theorem keeps_disposeContext (m : Machine) (id : ContextId) : m.Keeps (m.disposeContext id) :=
  ⟨.release true m.frames _, rfl⟩

theorem keeps_acquire (m : Machine) (create : Bool) : m.Keeps (m.acquire create).2 := by
  obtain ⟨_, _, _, _, _, e, -⟩ := m.acquire_snd create
  rw [e]
  exact .of_frames rfl rfl

/-- Frames are kept by all that is done to contexts and tables. -/
theorem endures_keeps : Endures Keeps where
  trans := .trans
  shared _ _ _ _ _ _ _ := .of_frames rfl rfl
  free := keeps_freeContext
  retire := keeps_disposeContext
  global m := ⟨.dispose_global m.frames, rfl⟩

/-- Actions that move no context between frames keep the frames. -/
theorem Drifts.keeps {m t : Machine} (h : m.Drifts t) : m.Keeps t := by
  obtain ⟨a, ha, rfl⟩ := h
  cases a with
  | acquire create => exact m.keeps_acquire create
  | release => exact endures_keeps.release m
  | freeContext id shared => exact m.keeps_freeContext id shared
  | disposeContext id => exact m.keeps_disposeContext id
  | dispose => exact endures_keeps.dispose m
  | setVariables f vars =>
    have h (frame : Frame) : frame.Alike { frame with vars } := ⟨rfl, rfl, rfl⟩
    exact ⟨.modify h m.frames f, rfl⟩
  | newFrame f => exact ⟨.alloc m.frames f, rfl⟩
  | resolve | askCache | define | delete | rename | clearCache =>
    exact endures_keeps.onTable (by trivial) m
  | setSlot | setStack | disposeFrame => exact absurd trivial ha
  | rest | channels | names | switchThread => exact .of_frames rfl rfl

end Machine

/-- The program keeps what was kept since `m`. -/
def Keeping {α : Type} (m : Machine) (p : Eval α) : Prop :=
  ∀ t, m.Keeps t → m.Keeps (p.run t).2

namespace Keeping

variable {α β : Type} {m : Machine}

/-- If every step keeps the frames, the run does. -/
theorem of_steps {p : Eval α} (h : p.Steps Machine.Keeps) : Keeping m p :=
  fun _ ht => h.run (fun _ _ hst hs => hs.trans hst) ht

/-- So does a run whose steps move no context. -/
theorem of_drifts {p : Eval α} (h : p.Steps Machine.Drifts) : Keeping m p :=
  of_steps (h.mono fun _ _ hst => hst.keeps)

theorem of_reads {p : Eval α} (h : p.Reads) : Keeping m p :=
  fun t ht => (h.run t).symm ▸ ht

theorem handle {p : Eval β} {k : Except Stop β → Eval α} (hp : Keeping m p)
    (hk : ∀ r, Keeping m (k r)) : Keeping m (handle p k) :=
  fun t ht => hk _ _ (hp t ht)

theorem bind {p : Eval β} {k : β → Eval α} (hp : Keeping m p) (hk : ∀ b, Keeping m (k b)) :
    Keeping m (p >>= k) := by
  refine handle hp ?_
  rintro (e | b)
  · exact fun t ht => ht
  · exact hk b

/-- What is restored at the end keeps them too, if it gets to run. -/
theorem always {p : Eval α} {restore : Eval Unit} (hr : Keeping m restore) (hp : Keeping m p) :
    Keeping m (Eval.always restore p) := by
  intro t ht
  by_cases hx : (p.run t).1 = .error .exhausted
  · rw [run_always_exhausted hx]
    exact hp t ht
  · rw [run_always_snd hx]
    exact hr _ (hp t ht)

theorem takeReturn {p : Eval Value} (hp : Keeping m p) : Keeping m (Dispatch.takeReturn p) :=
  handle hp (returned_induction (P := (Keeping m ·)) (fun _ _ ht => ht) fun _ _ ht => ht)

/-- Slots have names of frames in them, and writing one changes no frame. -/
theorem writeFrame (id : ContextId) (slot : Slot) (f : Option FrameId) :
    Keeping m (Eval.writeFrame id slot f) := by
  refine of_steps fun t => ?_
  change t.Keeps ((Eval.writeFrame id slot f).run t).2
  rw [t.run_writeFrame]
  split <;> exact .of_frames rfl rfl

theorem moveTo (id : ContextId) (current uplevel : Option FrameId) :
    Keeping m (Dispatch.moveTo id current uplevel) :=
  bind (writeFrame id _ _) fun _ => writeFrame id _ _

theorem enterCall (id : ContextId) (frame : FrameId) : Keeping m (Dispatch.enterCall id frame) :=
  bind (of_steps fun _ => .of_frames rfl rfl) fun _ =>
    bind (writeFrame id _ _) fun _ => writeFrame id _ _

/-- Leaving a call disposes its frame, which the frames kept do not include if the call is new. -/
theorem leaveCall (id : ContextId) {frame : FrameId} (h : m.frames.get? frame = none)
    (current procedure : Option FrameId) :
    Keeping m (Dispatch.leaveCall id frame current procedure) :=
  bind (of_steps fun _ => .of_frames rfl rfl) fun _ =>
    bind (fun _ ht => ⟨ht.frames.modify_new h _, ht.maxDepth⟩) fun _ =>
      bind (writeFrame id _ _) fun _ => writeFrame id _ _

theorem inFrame {p : Eval Value} (id : ContextId) (frame : Option FrameId) (hp : Keeping m p) :
    Keeping m (Dispatch.inFrame id frame p) :=
  bind (of_reads (reads_readContext _ _)) fun _ => bind (of_reads (reads_readContext _ _)) fun _ =>
    bind (moveTo id _ _) fun _ => always (moveTo id _ _) hp

theorem inScope {p : Eval Value} (inv : Invocation) (scope : Option FrameId) (hp : Keeping m p) :
    Keeping m (Dispatch.inScope inv scope p) := by
  cases scope with
  | none => exact fun t ht => ht
  | some f =>
    exact bind (of_reads (reads_readContext _ _)) fun _ =>
      bind (writeFrame _ _ _) fun _ => always (writeFrame _ _ _) hp

/-- A call keeps the frames that there were before it got its own. -/
theorem inCall {p : Eval Value} (id : ContextId) {frame : FrameId}
    (h : m.frames.get? frame = none) (hp : Keeping m p) : Keeping m (Dispatch.inCall id frame p) :=
  bind (of_reads (reads_readContext _ _)) fun _ => bind (of_reads (reads_readContext _ _)) fun _ =>
    bind (enterCall id frame) fun _ => always (leaveCall id h _ _) hp

end Keeping

/-! ### The frame of a call -/

/-- The frame of a call is live; binding its arguments changes variables only. -/
theorem Frame.live_ofCall (name : String) (level : Int) (params : List String)
    (args : List Value) : (Frame.ofCall name level params args).Live level := by
  have h (bindings : List (String × Value)) (f : Frame) (hf : f.Live level) :
      (bindings.foldl (fun f b => f.set b.1 b.2) f).Live level := by
    induction bindings generalizing f with
    | nil => exact hf
    | cons b bs ih => exact ih _ ⟨hf.procedure, hf.level, hf.undisposed⟩
  exact h _ _ ⟨rfl, rfl, rfl⟩

theorem Context.eq_of_touch {σ φ α : Type} {c : Context σ φ} {policy : Policy} {accessor : Accessor}
    {a b : α} (h : (c.touch policy accessor).map (fun _ => a) = .ok b) : b = a := by
  unfold Context.touch at h
  split at h
  · cases h
  · exact (Except.ok.inj h).symm

/-- A read that succeeds gives what was to be read. -/
theorem run_readContext {α : Type} {m : Machine} {id : ContextId}
    {f : ThreadContext → Policy → Except Accessor α} {a : α}
    (h : ((readContext id f).run m).1 = .ok a) : f (m.context id) (m.policyFor id) = .ok a := by
  rcases e : f (m.context id) (m.policyFor id) with err | b
  · simp [readContext, e] at h
  · simpa [readContext, e] using h

/-- A touch that is no fault finds the context. -/
theorem exists_of_readContext {α : Type} {m : Machine} {id : ContextId} {accessor : Accessor}
    {g : ThreadContext → α} {a : α}
    (h : ((readContext id fun c policy => (c.touch policy accessor).map fun _ => g c).run m).1
      = .ok a) :
    ∃ c, m.context? id = some c ∧ a = g c := by
  have ha := run_readContext h
  have hn : ¬ m.Faults id := by
    intro hf
    have hd : (m.context id).disposed ∧ m.policyFor id = .strict := hf
    rw [Context.touch, if_pos hd] at ha
    cases ha
  -- a context that is not there counts as disposed, and is a fault to touch
  obtain ⟨c, hc⟩ := m.exists_of_not_faults hn
  rw [Machine.context_of_some hc] at ha
  exact ⟨c, hc, Context.eq_of_touch ha⟩

theorem exists_of_readFrame {m : Machine} {id : ContextId} {slot : Slot} {f : Option FrameId}
    (h : ((readFrame id slot).run m).1 = .ok f) : ∃ c, m.context? id = some c ∧ f = c.frame slot :=
  exists_of_readContext h

/-- A call that has got its frame found a stack that is not too deep, and the frame is new. -/
theorem run_callFrame {inv : Invocation} {name : String} {params : List String}
    {args : List Value} {m : Machine} {frame : FrameId}
    (h : ((callFrame inv name params args).run m).1 = .ok frame) :
    ∃ s f, (m.context inv.context).stack = some s ∧ (s.depth : Int) < m.maxDepth ∧
      f.Live (s.depth + 1) ∧ frame = (m.frames.alloc f).1 ∧
      ((callFrame inv name params args).run m).2 = { m with frames := (m.frames.alloc f).2 } := by
  unfold callFrame at h ⊢
  split at h
  · cases h
  rename_i hlen
  rw [if_neg hlen]
  have hread : (readStack inv.context).Reads := reads_readContext _ _
  obtain ⟨stack, hs, e⟩ := hread.of_bind_ok h
  rw [e] at h ⊢
  cases stack with
  | none => cases h
  | some s =>
    by_cases hd : m.maxDepth ≤ s.depth
    · simp [run_bind, Program.read, hd, fail] at h
    · simp only [run_bind, Program.read, run_act, if_neg hd] at h ⊢
      have hstack := Context.eq_of_touch (run_readContext hs)
      exact ⟨s, _, hstack.symm, by omega, Frame.live_ofCall name _ params args,
        (Except.ok.inj h).symm, rfl⟩

/-- Bracketed programs keep the frames that there were before them. -/
theorem Bracketed.keeping {α : Type} {p : Eval α} (h : Bracketed p) (m : Machine) :
    Keeping m p := by
  induction h with
  | done a | stop s => exact fun t ht => ht
  | act h => exact fun t ht => ht.trans (h t).keeps
  | handle _ _ _ ihp ihk => exact .handle ihp ihk
  | uplevel inv level _ ih =>
    exact .bind (.of_reads (reads_frameAbove inv level)) fun f => .inFrame _ f ih
  | inScope inv scope _ ih => exact .inScope inv scope ih
  -- the call disposes its own frame, which is why the frames kept are those since `m`
  | @call p inv name params args _ ih =>
    intro t ht
    rw [callProcedure, run_bind]
    have ht' := Keeping.of_drifts (drifts_callFrame inv name params args) t ht
    rcases e : (callFrame inv name params args).run t with ⟨err | frame, u⟩
    · rwa [e] at ht'
    · rw [e] at ht'
      -- a frame that was kept since `m` cannot be the new one
      obtain ⟨s, f, -, -, -, rfl, -⟩ := run_callFrame (by rw [e])
      have hnew : m.frames.get? (t.frames.alloc f).1 = none := by
        rcases hm : m.frames.get? (t.frames.alloc f).1 with - | frame
        · rfl
        · obtain ⟨frame', hf, -⟩ := ht.frames _ _ hm
          simp [Frames.alloc, Frames.get?] at hf
      exact Keeping.takeReturn (.inCall inv.context hnew ih) u ht'

/-! ### The structure -/

/-- Live procedure frames, each of its own level, the innermost first. -/
def Frames.Leveled (frames : Frames) : List FrameId → Prop
  | [] => True
  | f :: fs => (∃ frame, frames.get? f = some frame ∧ frame.Live (fs.length + 1)) ∧
      Leveled frames fs

/-- The global frame is there. -/
def Frames.Rooted (frames : Frames) : Prop :=
  ∃ frame, frames.get? Machine.globalFrame = some frame ∧ frame.flags = .globalFrame

/-- The global frame is there still. -/
theorem Frames.Keeps.rooted {s t : Frames} (h : s.Keeps t) (hs : s.Rooted) : t.Rooted := by
  obtain ⟨g, hg, hflags⟩ := hs
  obtain ⟨g', hg', e, -⟩ := h _ _ hg
  exact ⟨g', hg', e.trans hflags⟩

namespace Frames.Leveled

variable {s t : Frames} {fs : List FrameId}

/-- Kept frames stay live; the global frame is none of them. -/
theorem keeps (h : s.Leveled fs) (hk : s.Keeps t) (hs : s.Rooted) : t.Leveled fs := by
  obtain ⟨g, hg, hflags⟩ := hs
  induction fs with
  | nil => trivial
  | cons f fs ih =>
    obtain ⟨⟨frame, hf, hl⟩, hrest⟩ := h
    -- a live frame belongs to a procedure, and the global one to none
    have hne : f ≠ Machine.globalFrame := by
      rintro rfl
      obtain rfl := Option.some.inj (hf.symm.trans hg)
      exact absurd (hl.procedure.symm.trans hflags) (by decide)
    obtain ⟨frame', hf', -, ha⟩ := hk _ _ hf
    obtain ⟨h₁, h₂, h₃⟩ := ha hne
    exact ⟨⟨frame', hf', h₁.trans hl.procedure, h₂.trans hl.level, h₃.trans hl.undisposed⟩,
      ih hrest⟩

/-- The frame at each place, counted from the outermost. -/
theorem of_getElem? (h : s.Leveled fs) {i : Nat} {f : FrameId} (hi : fs.reverse[i]? = some f) :
    ∃ frame, s.get? f = some frame ∧ frame.Live (i + 1) := by
  induction fs with
  | nil => simp at hi
  | cons g fs ih =>
    -- `g` comes last from the outside, at the place that the length of the others gives
    rw [List.reverse_cons, List.getElem?_append] at hi
    split at hi
    · exact ih h.2 hi
    · rename_i hlen
      obtain ⟨hzero, rfl⟩ : i - fs.length = 0 ∧ g = f := by
        simpa [List.getElem?_singleton] using hi
      have hi : i = fs.length := by
        simp only [List.length_reverse] at hlen
        omega
      exact hi ▸ h.1

end Frames.Leveled

/-- The frames a context can see: the global one, running scopes, and those of its stack. -/
def Context.Sees (c : ThreadContext) (scopes : FrameId → Prop) (f : FrameId) : Prop :=
  f = Machine.globalFrame ∨ scopes f ∨ ∃ s, c.stack = some s ∧ f ∈ s.frames

/-- How the frames of an active context are arranged, given the scopes that run on it. -/
structure Context.Framed (c : ThreadContext) (scopes : FrameId → Prop) (m : Machine) : Prop where
  stack : ∃ s, c.stack = some s ∧ c.procedure = s.top? ∧ m.frames.Leveled s.frames ∧
    (s.depth : Int) ≤ max 0 m.maxDepth
  current : ∃ f, c.current = some f ∧ c.Sees scopes f
  uplevel : ∀ f, c.uplevel = some f → c.Sees scopes f
  scope : ∀ f, c.scope = some f → scopes f
  global : c.global = some Machine.globalFrame

namespace Context

variable {c : ThreadContext} {scopes scopes' : FrameId → Prop} {m : Machine}

/-- The more scopes run, the more a context can see. -/
theorem Sees.mono (hS : ∀ f, scopes f → scopes' f) {f : FrameId} (h : c.Sees scopes f) :
    c.Sees scopes' f := by
  rcases h with h | h | h
  · exact .inl h
  · exact .inr (.inl (hS f h))
  · exact .inr (.inr h)

theorem Framed.mono (hS : ∀ f, scopes f → scopes' f) (h : c.Framed scopes m) :
    c.Framed scopes' m where
  stack := h.stack
  current := h.current.imp fun _ hf => ⟨hf.1, hf.2.mono hS⟩
  uplevel f hf := (h.uplevel f hf).mono hS
  scope f hf := hS f (h.scope f hf)
  global := h.global

/-- The arrangement is about levels and liveness, so keeping the frames keeps it. -/
theorem Framed.keeps (h : c.Framed scopes m) {t : Machine} (hk : m.Keeps t)
    (hm : m.frames.Rooted) : c.Framed scopes t where
  stack := by
    obtain ⟨s, hs, htop, hl, hd⟩ := h.stack
    exact ⟨s, hs, htop, hl.keeps hk.frames hm, hk.maxDepth ▸ hd⟩
  current := h.current
  uplevel := h.uplevel
  scope := h.scope
  global := h.global

/-- A context on which nothing runs is arranged, with an empty stack. -/
theorem Idle.framed (h : c.Idle) : c.Framed scopes m where
  stack := ⟨{}, h.stack, h.procedure, trivial, Int.le_max_left 0 _⟩
  current := ⟨_, h.current, .inl rfl⟩
  uplevel f hf := by simp [h.uplevel] at hf
  scope f hf := by simp [h.scope] at hf
  global := h.global

/-- A context may move to any frame that it can see. -/
theorem Framed.setCurrent (h : c.Framed scopes m) {f : FrameId} (hf : c.Sees scopes f) :
    (c.setFrame .current (some f)).Framed scopes m :=
  ⟨h.stack, ⟨f, rfl, hf⟩, h.uplevel, h.scope, h.global⟩

theorem Framed.setUplevel (h : c.Framed scopes m) {u : Option FrameId}
    (hu : ∀ f, u = some f → c.Sees scopes f) : (c.setFrame .uplevel u).Framed scopes m :=
  ⟨h.stack, h.current, hu, h.scope, h.global⟩

theorem Framed.setScope (h : c.Framed scopes m) {s : Option FrameId}
    (hs : ∀ f, s = some f → scopes f) : (c.setFrame .scope s).Framed scopes m :=
  ⟨h.stack, h.current, h.uplevel, hs, h.global⟩

/-- The frame that stands for the global one can be seen. -/
theorem Framed.sees_currentGlobal (h : c.Framed scopes m) :
    ∃ f, c.currentGlobal = some f ∧ c.Sees scopes f := by
  rcases e : c.scope with - | f
  · exact ⟨_, by simp [currentGlobal, e, h.global], .inl rfl⟩
  · exact ⟨f, by simp [currentGlobal, e], .inr (.inl (h.scope f e))⟩

/-- Entering a call with a live frame of the next level keeps the frames in order. -/
theorem Framed.enter (h : c.Framed scopes m) {s : CallStack} (hs : c.stack = some s)
    (hd : (s.depth : Int) < m.maxDepth) {f : FrameId} {frame : Frame}
    (hf : m.frames.get? f = some frame) (hl : frame.Live (s.depth + 1)) :
    Context.Framed { c with
      stack := c.stack.map (·.push f), current := some f, procedure := some f } scopes m := by
  have hstack : c.stack.map (·.push f) = some (s.push f) := by rw [hs]; rfl
  obtain ⟨s', hs', -, hleveled, -⟩ := h.stack
  obtain rfl := Option.some.inj (hs.symm.trans hs')
  refine ⟨⟨s.push f, hstack, rfl, ⟨⟨frame, hf, hl⟩, hleveled⟩, ?_⟩,
    ⟨f, rfl, .inr (.inr ⟨_, hstack, List.mem_cons_self⟩)⟩, fun g hg => ?_, h.scope, h.global⟩
  · have hpush : (s.push f).depth = s.depth + 1 := rfl
    omega
  · -- a frame that could be seen still can, as the stack has only grown
    rcases h.uplevel g hg with hg | hg | ⟨s', hs', hg⟩
    · exact .inl hg
    · exact .inr (.inl hg)
    · obtain rfl := Option.some.inj (hs.symm.trans hs')
      exact .inr (.inr ⟨_, hstack, List.mem_cons_of_mem _ hg⟩)

end Context

/-- The frames of all active contexts are arranged, given the scopes that run on each. -/
structure Machine.Framed (S : ContextId → FrameId → Prop) (m : Machine) : Prop where
  rooted : m.frames.Rooted
  active : ∀ {id c}, m.context? id = some c → c.stage = .active → c.Framed (S id) m

namespace Machine.Framed

variable {S S' : ContextId → FrameId → Prop} {m t : Machine}

theorem mono (hS : ∀ id f, S id f → S' id f) (h : m.Framed S) : m.Framed S' :=
  ⟨h.rooted, fun {id _} hc ha => (h.active hc ha).mono (hS id)⟩

/-- What is balanced and keeps the frames keeps them arranged. -/
theorem of_balanced (h : m.Framed S) (hb : m.Balanced t) (hk : m.Keeps t) : t.Framed S where
  rooted := hk.frames.rooted h.rooted
  active hc ha := by
    obtain hm | ⟨-, hi⟩ := hb.active hc ha
    · exact (h.active hm ha).keeps hk h.rooted
    · exact hi.framed

/-- What rewrites one context in an arranged way and keeps the frames keeps them arranged. -/
theorem of_rewrites (h : m.Framed S) {id : ContextId} {g : ThreadContext → ThreadContext}
    (hr : m.Rewrites id g t) (hk : m.Keeps t)
    (hg : ∀ c, m.context? id = some c → c.stage = .active → (g c).Framed (S id) m) :
    t.Framed S where
  rooted := hk.frames.rooted h.rooted
  active {k c} hc ha := by
    by_cases hid : k = id
    · subst hid
      obtain ⟨c', hc', ha', rfl⟩ := hr.active hc ha
      exact (hg c' hc' ha').keeps hk h.rooted
    · exact (h.active (hr.others hid ▸ hc) ha).keeps hk h.rooted

/-- Bracketed programs leave the frames arranged. -/
theorem run {α : Type} {p : Eval α} (h : m.Framed S) (hp : Bracketed p)
    (hx : (p.run m).1 ≠ .error .exhausted) : (p.run m).2.Framed S :=
  h.of_balanced (hp.balances m hx) (hp.keeping m m (.refl m))

end Machine.Framed

/-! ### On the way -/

/-- A procedure call is being entered or left, or the evaluation is being given up. -/
inductive Unsettled : (α : Type) × Eval α → Prop
  | enter (id : ContextId) (frame : FrameId) : Unsettled ⟨Unit, enterCall id frame⟩
  | leave (id : ContextId) (frame : FrameId) (current procedure : Option FrameId) :
      Unsettled ⟨Unit, leaveCall id frame current procedure⟩
  | exhausted {α : Type} : Unsettled ⟨α, stop .exhausted⟩

/-- Nothing under way is about to arrange the frames. -/
def Settled (path : Path Stop Machine) : Prop := ∀ q ∈ path, ¬ Unsettled q

/-- The scopes that run on a context. -/
def Running (path : Path Stop Machine) (id : ContextId) (f : FrameId) : Prop :=
  ∃ (inv : Invocation) (p : Eval Value), inv.context = id ∧
    ⟨Value, Dispatch.inScope inv (some f) p⟩ ∈ path

/-- At a settled point the frames are arranged; the scopes on the path count as running. -/
def FramedAt (S : ContextId → FrameId → Prop) (path : Path Stop Machine) (m : Machine) : Prop :=
  Settled path → m.Framed fun id f => S id f ∨ Running path id f

/-- A longer path runs more scopes and is settled less often. -/
theorem rising_framedAt (S : ContextId → FrameId → Prop) : Rising (FramedAt S) := by
  intro path m h q hs
  refine (h fun r hr => hs r (List.mem_cons_of_mem _ hr)).mono ?_
  rintro id f (hf | ⟨inv, p, hid, hp⟩)
  · exact .inl hf
  · exact .inr ⟨inv, p, hid, List.mem_cons_of_mem _ hp⟩

theorem Machine.Framed.framedAt {S : ContextId → FrameId → Prop} {m : Machine} (h : m.Framed S)
    (path : Path Stop Machine) : FramedAt S path m :=
  fun _ => h.mono fun _ _ => .inl

/-- A run that passes through arranged frames and leaves them arranged. -/
structure Framing {α : Type} (S : ContextId → FrameId → Prop) (p : Eval α) (m : Machine) :
    Prop where
  along : p.Along (FramedAt S) m
  after : (p.run m).1 ≠ .error .exhausted → (p.run m).2.Framed S

/-- In a bracket the context is what opening made of it, as long as it is active. -/
theorem Rewriting.active_after {α : Type} {id : ContextId} {g : ThreadContext → ThreadContext}
    {enter : Eval Unit} (hg : Rewriting id g enter) {p : Eval α} (hp : Bracketed p) {m : Machine}
    {c c' : ThreadContext} (hc : m.context? id = some c)
    (hx : (p.run (enter.run m).2).1 ≠ .error .exhausted)
    (hc' : (p.run (enter.run m).2).2.context? id = some c') (ha : c'.stage = .active) :
    c.stage = .active ∧ c' = g c := by
  have hr := hg.rewrites m
  obtain ht | ⟨ht, -⟩ := (hp.balances _ hx).active hc' ha
  · obtain ⟨c₀, hc₀, ha₀, e⟩ := hr.active ht ha
    obtain rfl := Option.some.inj (hc.symm.trans hc₀)
    exact ⟨ha₀, e⟩
  · simp [hr.none_iff.1 ht] at hc

namespace Framing

variable {α β : Type} {S : ContextId → FrameId → Prop} {m : Machine}

theorem done (hm : m.Framed S) (a : α) : Framing S (done a) m :=
  ⟨along_done (rising_framedAt S) (hm.framedAt []), fun _ => hm⟩

theorem stop (hm : m.Framed S) (e : Stop) : Framing S (stop e : Eval α) m :=
  ⟨along_stop (rising_framedAt S) (hm.framedAt []), fun _ => hm⟩

/-- Inside an unsettled program nothing is asked, so only its end counts. -/
theorem of_unsettled {p : Eval α} (h : Unsettled ⟨α, p⟩)
    (ht : (p.run m).1 ≠ .error .exhausted → (p.run m).2.Framed S) : Framing S p m :=
  ⟨fun _ hx hs => absurd h (hs _ (mem_path_of_mem_points hx)), ht⟩

/-- Steps that move no context keep the frames arranged one by one. -/
theorem of_drifts {p : Eval α} (h : p.Steps Machine.Drifts) (hm : m.Framed S) : Framing S p m := by
  have hstep (s t : Machine) (hst : s.Drifts t) (hs : s.Framed S) : t.Framed S :=
    hs.of_balanced hst.balanced hst.keeps
  exact ⟨fun x hx => (h.points hstep hm x hx).framedAt x.1, fun _ => h.run hstep hm⟩

theorem of_reads {p : Eval α} (h : p.Reads) (hm : m.Framed S) : Framing S p m :=
  of_drifts (Steps.mono (fun _ _ ht => ⟨.rest, not_false, ht⟩) h) hm

/-- A program after another; an exhausted one is given up, and nothing is asked from there on. -/
theorem handle {p : Eval β} {k : Except Stop β → Eval α} (hm : m.Framed S) (hp : Framing S p m)
    (hx : k (.error .exhausted) = .stop .exhausted)
    (hk : (p.run m).1 ≠ .error .exhausted → Framing S (k (p.run m).1) (p.run m).2) :
    Framing S (handle p k) m := by
  -- after exhaustion the frames may be in disorder, but the path is not settled
  have hrest : Framing S (k (p.run m).1) (p.run m).2 := by
    by_cases he : (p.run m).1 = .error .exhausted
    · rw [he, hx]
      exact of_unsettled .exhausted fun h => absurd rfl h
    · exact hk he
  exact ⟨along_handle (rising_framedAt S) (hm.framedAt []) hp.along hrest.along, hrest.after⟩

theorem bind {p : Eval β} {k : β → Eval α} (hm : m.Framed S) (hp : Framing S p m)
    (hk : ∀ b, (p.run m).1 = .ok b → Framing S (k b) (p.run m).2) : Framing S (p >>= k) m := by
  refine handle hm hp rfl fun hx => ?_
  have ht := hp.after hx
  rcases e : (p.run m).1 with err | b
  · exact stop ht err
  · exact hk b e

theorem bind_reads {p : Eval β} {k : β → Eval α} (hp : p.Reads) (hm : m.Framed S)
    (hk : ∀ b, (p.run m).1 = .ok b → Framing S (k b) m) : Framing S (p >>= k) m :=
  bind hm (of_reads hp hm) fun b hb => (hp.run m).symm ▸ hk b hb

/-- Reading a slot gives what the context has in it. -/
theorem bind_readFrame {id : ContextId} {slot : Slot} {k : Option FrameId → Eval α}
    (hm : m.Framed S) (hk : ∀ c, m.context? id = some c → Framing S (k (c.frame slot)) m) :
    Framing S (readFrame id slot >>= k) m := by
  refine bind_reads (reads_readContext _ _) hm fun f hf => ?_
  obtain ⟨c, hc, rfl⟩ := exists_of_readFrame hf
  exact hk c hc

/-- A program and what is restored after it, from the machine that the program leaves behind. -/
theorem always {p : Eval α} {leave : Eval Unit} (hm : m.Framed S) (hp : Framing S p m)
    (hl : (p.run m).1 ≠ .error .exhausted → Framing S leave (p.run m).2) :
    Framing S (Eval.always leave p) m := by
  refine handle hm hp rfl fun hx => ?_
  refine restoring_induction (P := fun q => Framing S q (p.run m).2)
    (Q := fun q => ∀ t : Machine, t.Framed S → Framing S q t) (stop (hp.after hx) _)
    (fun a _ ht => done ht a) (fun s _ ht => stop ht s) (fun k hk hkx => ?_) (p.run m).1
  exact handle (hp.after hx) (hl hx) (hkx _) fun hlx => hk _ _ ((hl hx).after hlx)

theorem takeReturn {p : Eval Value} (hm : m.Framed S) (hp : Framing S p m) :
    Framing S (Dispatch.takeReturn p) m := by
  refine handle hm hp rfl fun hx => ?_
  exact returned_induction (P := fun q => Framing S q (p.run m).2) (done (hp.after hx))
    (stop (hp.after hx)) _

/-! ### Brackets on the way -/

/-- Writing a slot, if it leaves its context arranged. -/
theorem writeFrame {id : ContextId} {slot : Slot} {f : Option FrameId} (hm : m.Framed S)
    (hf : ∀ c, m.context? id = some c → c.stage = .active → (c.setFrame slot f).Framed (S id) m) :
    Framing S (Eval.writeFrame id slot f) m := by
  have ht := hm.of_rewrites ((Rewriting.writeFrame id slot f).rewrites m)
    (Keeping.writeFrame id slot f m (.refl m)) hf
  exact ⟨along_act (rising_framedAt S) (hm.framedAt []) (ht.framedAt []), fun _ => ht⟩

/-- Moving to frames that the context can see. -/
theorem moveTo {id : ContextId} {current uplevel : Option FrameId} (hm : m.Framed S)
    (hf : ∀ c, m.context? id = some c → c.stage = .active →
      (∃ f, current = some f ∧ c.Sees (S id) f) ∧ ∀ f, uplevel = some f → c.Sees (S id) f) :
    Framing S (Dispatch.moveTo id current uplevel) m := by
  have hcurrent : Framing S (Eval.writeFrame id .current current) m := by
    refine writeFrame hm fun c hc ha => ?_
    obtain ⟨⟨f, rfl, hsees⟩, -⟩ := hf c hc ha
    exact (hm.active hc ha).setCurrent hsees
  refine bind hm hcurrent fun _ hok => ?_
  have ht := hcurrent.after (by rw [hok]; exact nofun)
  refine writeFrame ht fun c hc ha => (ht.active hc ha).setUplevel ?_
  -- the stack is what it was, and so is what the context can see
  obtain ⟨c₀, hc₀, ha₀, rfl⟩ := ((Rewriting.writeFrame id .current _).rewrites m).active hc ha
  exact (hf c₀ hc₀ ha₀).2

variable {p : Eval Value}

/-- Moving to a frame and back: the program in between leaves the slots as it found them, so what is
put back is what was seen before. -/
theorem inFrame {id : ContextId} {frame : Option FrameId} (hp : Bracketed p)
    (ih : ∀ m : Machine, m.Framed S → Framing S p m) (hm : m.Framed S)
    (hf : ∀ c, m.context? id = some c → c.stage = .active →
      ∃ f, frame = some f ∧ c.Sees (S id) f) :
    Framing S (Dispatch.inFrame id frame p) m := by
  refine bind_readFrame hm fun c hc => bind_readFrame hm fun c' hc' => ?_
  obtain rfl := Option.some.inj (hc.symm.trans hc')
  have hopen : Framing S (Dispatch.moveTo id frame frame) m := by
    refine moveTo hm fun c hc ha => ⟨hf c hc ha, fun f e => ?_⟩
    obtain ⟨g, rfl, hg⟩ := hf c hc ha
    exact Option.some.inj e ▸ hg
  refine bind hm hopen fun _ hok => ?_
  have ht := hopen.after (by rw [hok]; exact nofun)
  refine always ht (ih _ ht) fun hx => moveTo ((ih _ ht).after hx) fun c₁ hc₁ ha₁ => ?_
  obtain ⟨ha, rfl⟩ := (Rewriting.moveTo id frame frame).active_after hp hc hx hc₁ ha₁
  exact ⟨(hm.active hc ha).current, (hm.active hc ha).uplevel⟩

/-- In a scope its frame counts as running, which the path says of every point in there. -/
theorem inScope {inv : Invocation} {scope : Option FrameId} (hp : Bracketed p)
    (ih : ∀ (S : ContextId → FrameId → Prop) (m : Machine), m.Framed S → Framing S p m)
    (hm : m.Framed S) : Framing S (Dispatch.inScope inv scope p) m := by
  cases scope with
  | none => exact stop hm _
  | some f =>
    let S' : ContextId → FrameId → Prop := fun id g => S id g ∨ id = inv.context ∧ g = f
    have hm' : m.Framed S' := hm.mono fun _ _ => .inl
    -- with the scope among the running ones, as it is on the path from here on
    have hin : Framing S' (Dispatch.inScope inv (some f) p) m := by
      refine bind_readFrame hm' fun c hc => ?_
      have hopen : Framing S' (Eval.writeFrame inv.context .scope (some f)) m :=
        writeFrame hm' fun c hc ha => (hm'.active hc ha).setScope fun g e =>
          .inr ⟨rfl, (Option.some.inj e).symm⟩
      refine bind hm' hopen fun _ hok => ?_
      have ht := hopen.after (by rw [hok]; exact nofun)
      refine always ht (ih S' _ ht) fun hx => ?_
      have hu := (ih S' _ ht).after hx
      refine writeFrame hu fun c₁ hc₁ ha₁ => (hu.active hc₁ ha₁).setScope ?_
      -- the scope before is put back, which ran before
      obtain ⟨ha, -⟩ :=
        (Rewriting.writeFrame inv.context .scope (some f)).active_after hp hc hx hc₁ ha₁
      exact (hm'.active hc ha).scope
    refine ⟨fun x hx hs => (hin.along x hx hs).mono ?_, hm.run (.inScope inv _ hp)⟩
    rintro id g ((hg | ⟨rfl, rfl⟩) | hg)
    · exact .inl hg
    · exact .inr ⟨inv, p, rfl, mem_path_of_mem_points hx⟩
    · exact .inr hg

/-- Calls: `base` is the machine before the call got its frame. -/
theorem inCall {base : Machine} {id : ContextId} {frame : FrameId} (hp : Bracketed p)
    (ih : ∀ m : Machine, m.Framed S → Framing S p m) (hbase : base.Framed S)
    (hb : base.Balanced m) (hk : base.Keeps m) (hnew : base.frames.get? frame = none)
    (hlive : ∀ c, m.context? id = some c → c.stage = .active → ∃ s f, c.stack = some s ∧
      (s.depth : Int) < m.maxDepth ∧ m.frames.get? frame = some f ∧ f.Live (s.depth + 1)) :
    Framing S (Dispatch.inCall id frame p) m := by
  have hm := hbase.of_balanced hb hk
  refine bind_readFrame hm fun c hc => bind_readFrame hm fun c' hc' => ?_
  obtain rfl := Option.some.inj (hc.symm.trans hc')
  have hopen := Rewriting.enterCall id frame
  have ht : ((Dispatch.enterCall id frame).run m).2.Framed S := by
    refine hm.of_rewrites (hopen.rewrites m) (Keeping.enterCall id frame m (.refl m)) ?_
    intro c hc ha
    obtain ⟨s, f, hs, hd, hf, hl⟩ := hlive c hc ha
    exact (hm.active hc ha).enter hs hd hf hl
  refine bind hm (of_unsettled (.enter id frame) fun _ => ht) fun _ _ => ?_
  refine always ht (ih _ ht) fun hx => of_unsettled (.leave id frame _ _) fun _ => ?_
  -- the call as a whole is balanced, and it keeps all frames but its own
  have hclose := Rewriting.leaveCall id frame (c.frame .current) (c.frame .procedure)
  have hbal := Machine.Balanced.between (hopen.rewrites m) (hp.balances _ hx)
    (hclose.rewrites _) (by simp [hc]) fun {c₀} hc₀ => by
      obtain rfl := Option.some.inj (hc.symm.trans hc₀)
      exact c.pop_push frame
  exact hbase.of_balanced (hb.trans hbal) (Keeping.leaveCall id hnew _ _ _
    (hp.keeping base _ (Keeping.enterCall id frame m hk)))

end Framing

/-- What is at a level of the stack is in the stack. -/
theorem CallStack.mem_of_atLevel? (s : CallStack) {level : Int} {f : FrameId}
    (h : s.atLevel? level = some f) : f ∈ s.frames := by
  unfold atLevel? at h
  split at h
  · exact List.mem_reverse.1 (List.mem_of_getElem? h)
  · cases h

/-- Moving up leads to the frame that stands for the global one or to a frame of the stack. -/
theorem exists_of_frameAbove {inv : Invocation} {level : Int} {m : Machine}
    {frame : Option FrameId} (h : ((frameAbove inv level).run m).1 = .ok frame) :
    ∃ c, m.context? inv.context = some c ∧ (frame = c.currentGlobal ∨
      ∃ s f, c.stack = some s ∧ f ∈ s.frames ∧ frame = some f) := by
  obtain ⟨f, -, e⟩ := (reads_frame inv).of_bind_ok h
  rw [frameAbove, e] at h
  have hlevel : (Invocation.levelOf f).Reads := fun _ => rfl
  obtain ⟨n, -, e⟩ := hlevel.of_bind_ok h
  rw [e] at h
  dsimp only at h
  split at h
  · cases h
  have hglobal : (readCurrentGlobal inv.context).Reads := reads_readContext _ _
  obtain ⟨outermost, ho, e⟩ := hglobal.of_bind_ok h
  rw [e] at h
  split at h
  · have hstack : (readStack inv.context).Reads := reads_readContext _ _
    obtain ⟨stack, hs, e⟩ := hstack.of_bind_ok h
    rw [e] at h
    obtain ⟨c, hc, rfl⟩ := exists_of_readContext hs
    split at h
    · rename_i g hg
      obtain ⟨s, hs, hg⟩ := Option.bind_eq_some_iff.1 hg
      exact ⟨c, hc, .inr ⟨s, g, hs, s.mem_of_atLevel? hg, (Except.ok.inj h).symm⟩⟩
    · cases h
  · obtain ⟨c, hc, rfl⟩ := exists_of_readContext ho
    exact ⟨c, hc, .inl (Except.ok.inj h).symm⟩

/-- Moving up leads to a frame that the context can see. -/
theorem sees_frameAbove {inv : Invocation} {level : Int} {m : Machine} {frame : Option FrameId}
    (h : ((frameAbove inv level).run m).1 = .ok frame) {scopes : FrameId → Prop}
    {c : ThreadContext} (hc : m.context? inv.context = some c) (hf : c.Framed scopes m) :
    ∃ f, frame = some f ∧ c.Sees scopes f := by
  obtain ⟨c', hc', hframe⟩ := exists_of_frameAbove h
  obtain rfl := Option.some.inj (hc'.symm.trans hc)
  rcases hframe with rfl | ⟨s, f, hs, hf, rfl⟩
  · exact hf.sees_currentGlobal
  · exact ⟨f, rfl, .inr (.inr ⟨s, hs, hf⟩)⟩

/-- The frames are arranged at every settled point of a bracketed program. -/
theorem Bracketed.framing {α : Type} {p : Eval α} (h : Bracketed p)
    (S : ContextId → FrameId → Prop) {m : Machine} (hm : m.Framed S) : Framing S p m := by
  induction h generalizing S m with
  | done a => exact .done hm a
  | stop s => exact .stop hm s
  | act h => exact .of_drifts h hm
  | handle _ _ hx ihp ihk =>
    exact .handle hm (ihp S hm) hx fun he => ihk _ S ((ihp S hm).after he)
  | uplevel inv level hp ih =>
    refine .bind_reads (reads_frameAbove inv level) hm fun f hf => ?_
    exact .inFrame hp (fun _ => ih S) hm fun c hc ha =>
      sees_frameAbove hf hc (hm.active hc ha)
  | inScope inv scope hp ih => exact .inScope hp (fun S _ => ih S) hm
  | call inv name params args hp ih =>
    have hdrift := drifts_callFrame inv name params args
    have hb := hdrift.balanced m
    have hk := Keeping.of_drifts hdrift m (.refl m)
    refine .bind hm (.of_drifts hdrift hm) fun frame hframe => ?_
    obtain ⟨s, f, hs, hd, hl, rfl, e⟩ := run_callFrame hframe
    have hnew : m.frames.get? (m.frames.alloc f).1 = none := by simp [Frames.alloc, Frames.get?]
    refine .takeReturn (hm.of_balanced hb hk) (.inCall hp (fun _ => ih S) hm hb hk hnew ?_)
    rw [e]
    intro c hc _
    obtain rfl := Machine.context_of_some hc
    exact ⟨s, f, hs, hd, by simp [Frames.get?_alloc], hl⟩

/-! ### Sessions -/

/-- The limit of the stack never changes. -/
theorem Machine.Next.maxDepth {m t : Machine} (h : m.Next t) : t.maxDepth = m.maxDepth := by
  obtain ⟨a, rfl⟩ := h
  by_cases ha : a.Moves
  · cases a with
    | setSlot | setStack | disposeFrame => rfl
    | _ => exact ha.elim
  · exact (Machine.Drifts.keeps ⟨a, ha, rfl⟩).maxDepth

/-- At the start there are no contexts. -/
theorem Machine.framed_start (s : Setup) (S : ContextId → FrameId → Prop) :
    (Machine.start s).Framed S :=
  ⟨⟨_, rfl, rfl⟩, fun {id _} hc => by simp [context?, start, loggedHere, logged] at hc⟩

/-- The frames are arranged at every settled point of a session. -/
theorem Session.framed {s : Setup} {path : Path Stop Machine} {m : Machine}
    (h : Session s path m) (hp : Settled path) : m.Framed (Running path) := by
  -- between two calls no scope runs
  have hidle {m : Machine} (hm : m.Framed (Running [])) : m.silent.Framed fun _ _ => False := by
    have hm : m.Framed fun _ _ => False := hm.mono fun id f ⟨_, _, _, hf⟩ => by simp at hf
    exact hm.of_balanced m.drifts_silent.balanced m.drifts_silent.keeps
  induction h with
  | start => exact Machine.framed_start s _
  | @during m t path depth call _ hpoint ih =>
    have hcall := Bracketed.perform depth none call
    have hm := hidle (ih nofun)
    exact ((hcall.framing _ hm).along _ hpoint hp).mono fun _ _ h => h.resolve_left not_false
  | @after m depth call _ hx ih =>
    have hcall := Bracketed.perform depth none call
    exact ((hcall.framing _ (hidle (ih nofun))).after hx).mono fun _ _ h => h.elim

/-- **Frame structure**: at every settled point of a session, the call stack of an active context
consists of live procedure frames, the one at level k of level k, and is no deeper than the limit;
the procedure slot has its top; and the current frame, as well as the frame moved up to if there is
one, is the global frame, a scope running on the context, or a frame of the stack. -/
theorem active_context_framed {s : Setup} {path : Path Stop Machine} {m : Machine}
    (h : Session s path m) (hp : Settled path) {id : ContextId} {c : ThreadContext}
    (hc : m.context? id = some c) (ha : c.stage = .active) :
    ∃ stack, c.stack = some stack ∧
      (∀ (i : Nat) (f : FrameId), stack.frames.reverse[i]? = some f →
        stack.atLevel? (i + 1) = some f ∧
          ∃ frame, m.frames.get? f = some frame ∧ frame.Live (i + 1)) ∧
      (c.procedure = stack.top? ∧ (c.procedure = none ↔ stack.frames = [])) ∧
      (∃ f, c.current = some f ∧ c.Sees (Running path id) f) ∧
      (∀ f, c.uplevel = some f → c.Sees (Running path id) f) ∧
      (stack.depth : Int) ≤ max 0 s.maxDepth := by
  have hf := (h.framed hp).active hc ha
  -- the limit is the one the session was set up with
  have hlimit : m.maxDepth = s.maxDepth :=
    h.invariant (P := (·.maxDepth = s.maxDepth)) rfl fun _ _ hn hm => hn.maxDepth.trans hm
  obtain ⟨stack, hs, htop, hleveled, hd⟩ := hf.stack
  refine ⟨stack, hs, fun i f hi => ⟨?_, hleveled.of_getElem? hi⟩, ⟨htop, ?_⟩, hf.current,
    hf.uplevel, hlimit ▸ hd⟩
  · rw [CallStack.atLevel?, if_pos (by omega)]
    simpa using hi
  · rw [htop, CallStack.top?, List.head?_eq_none_iff]

/-! ### A scope in a procedure -/

/-- Whether a program stops at once. -/
def stopsAtOnce : (α : Type) × Eval α → Bool
  | ⟨_, .stop _⟩ => true
  | _ => false

/-- Where there are programs with replies and values only, no call is entered or left. -/
theorem settled_of_types {path : Path Stop Machine}
    (htypes : path.map (·.1) = Reply :: List.replicate (path.length - 1) Value)
    (hgoing : path.any stopsAtOnce = false) : Settled path := by
  -- the types differ, since `Unit` has one element only
  have hvalue : Unit ≠ Value := by
    intro h
    have hall : ∀ v w : Value, v = w := h ▸ fun _ _ => rfl
    cases hall .empty (.int 0)
  have hreply : Unit ≠ Reply := by
    intro h
    have hall : ∀ r r' : Reply, r = r' := h ▸ fun _ _ => rfl
    cases hall .done (.flag true)
  intro q hq hu
  have htype : q.1 ∈ Reply :: List.replicate (path.length - 1) Value := htypes ▸ List.mem_map_of_mem hq
  have hstop := List.any_eq_false.1 hgoing q hq
  cases hu with
  | enter | leave =>
    rcases List.mem_cons.1 htype with h | h
    · exact hreply h
    · exact hvalue (List.eq_of_mem_replicate h)
  | exhausted => exact hstop rfl

/-- Whether the innermost program under way is about to run its first part. -/
def beginsPart (path : Path Stop Machine) : Bool :=
  match path.getLast? with
  | some ⟨_, .handle _ _⟩ => true
  | _ => false

/-- A host with a procedure that runs a scope and moves up in there. -/
private def scopedHost : Machine :=
  let perform (m : Machine) (call : HostCall) := (m.performBy (Evaluation.cached 4) call).2
  perform (perform (.start { id := "host" }) (.makeScope "s" 0))
    (.defineProcedure "p" [] (some [.inScope "s" [.uplevel 1 [.level]]]))

/-- The points of a call of that procedure. -/
private def scopedPoints : List (Path Stop Machine × Machine) :=
  (Host.perform (Evaluation.cached 4) none (.invoke "p" [])).points scopedHost.silent

/-- Where the program that moved up in the scope begins. -/
private def scopedPoint : Path Stop Machine × Machine :=
  (scopedPoints.find? fun x => (x.2.context ⟨0⟩).current = some ⟨1⟩ && beginsPart x.1).get
    (by decide +kernel)

/-- In the procedure the current frame is at one point that of the scope. -/
theorem active_context_framed_in_scope :
    ∃ x ∈ scopedPoints, Settled x.1 ∧ (x.2.context ⟨0⟩).stage = .active ∧
      (x.2.context ⟨0⟩).current = some ⟨1⟩ ∧
      (x.2.context ⟨0⟩).Sees (Running x.1 ⟨0⟩) ⟨1⟩ := by
  obtain ⟨hc, ha, hcurrent⟩ : scopedPoint.2.context? ⟨0⟩ = some (scopedPoint.2.context ⟨0⟩) ∧
      (scopedPoint.2.context ⟨0⟩).stage = .active ∧
      (scopedPoint.2.context ⟨0⟩).current = some ⟨1⟩ := by decide +kernel
  have hmem : scopedPoint ∈ scopedPoints := List.get_find?_mem _
  have hsettled : Settled scopedPoint.1 := settled_of_types (by rfl) (by rfl)
  have h : Session { id := "host" } scopedPoint.1 scopedPoint.2 :=
    .during 4 (.invoke "p" []) (.after 4 _ (.after 4 _ .start fun h => by cases h) fun h => by
      cases h) hmem
  obtain ⟨-, -, -, -, ⟨f, hf, hsees⟩, -, -⟩ := active_context_framed h hsettled hc ha
  obtain rfl := Option.some.inj (hcurrent.symm.trans hf)
  exact ⟨scopedPoint, hmem, hsettled, ha, hcurrent, hsees⟩

end CommandHost
