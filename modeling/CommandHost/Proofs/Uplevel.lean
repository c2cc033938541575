/-
CommandHost/Proofs/Uplevel.lean

Where `uplevel 1` leads.

The frame of a procedure call gets the depth of the stack as its level, and moving up
counts levels.  So `uplevel 1` in the body of a procedure leads to the frame that was on
top of the stack when the procedure was called, the frame of the innermost procedure
running then, or to the global frame if there was none.

This is the frame that was current at the call whenever that frame was on top.  A
procedure that is called from within an `uplevel` is called from a frame further down,
and then `uplevel 1` does not lead back to it: the levels of the two frames are not
consecutive.  The theorem says exactly when the frame is the caller's.
-/
import CommandHost.Proofs.FrameStructure

namespace CommandHost

open Program Eval Dispatch

/-! ### Levels -/

namespace Frames

/-- Levels are not changed with the variables. -/
theorem level_modify {g : Frame → Frame} (hg : ∀ f, (g f).level = f.level) (s : Frames)
    (id k : FrameId) :
    ((s.modify id g).get? k).map (·.level) = (s.get? k).map (·.level) := by
  rw [get?_modify]
  split
  · rw [Option.map_map]
    exact congrArg (Option.map · (s.get? k)) (funext hg)
  · rfl

theorem level_free (s : Frames) (id k : FrameId) (shared : Bool) :
    ((s.modify id (·.free shared)).get? k).map (·.level) = (s.get? k).map (·.level) :=
  s.level_modify (fun f => (f.alike_free shared).level) id k

theorem level_dispose (s : Frames) (id k : FrameId) :
    ((s.modify id (·.dispose)).get? k).map (·.level) = (s.get? k).map (·.level) :=
  s.level_modify (g := (·.dispose)) (fun f => (f.alike_free true).level) id k

/-- What a context lets go keeps its level. -/
theorem level_release (shared : Bool) (s : Frames) (held : List (Held CallStack FrameId))
    (k : FrameId) :
    ((held.foldl (Machine.releaseHeld shared) s).get? k).map (·.level) =
      (s.get? k).map (·.level) := by
  have hstack (ids : List FrameId) (s : Frames) :
      ((ids.foldl (fun s id => s.modify id (·.free shared)) s).get? k).map (·.level) =
        (s.get? k).map (·.level) := by
    induction ids generalizing s with
    | nil => rfl
    | cons id ids ih => rw [List.foldl_cons, ih, level_free]
  induction held generalizing s with
  | nil => rfl
  | cons x xs ih =>
    rw [List.foldl_cons, ih]
    cases x with
    | stack stack => exact hstack stack.frames s
    | frame f => exact s.level_free f k shared

end Frames

namespace Machine

/-- The level of a frame. -/
def levelOf (m : Machine) (f : FrameId) : Int := ((m.frames.get? f).map (·.level)).getD 0

/-- The frame is as high as it was. -/
def SameLevel (k : FrameId) (m t : Machine) : Prop :=
  (t.frames.get? k).map (·.level) = (m.frames.get? k).map (·.level)

theorem endures_sameLevel (k : FrameId) : Endures (SameLevel k) where
  trans h h' := h'.trans h
  shared _ _ _ _ _ _ _ := rfl
  free m _ shared := m.frames.level_release shared _ k
  retire m _ := m.frames.level_release true _ k
  global m := m.frames.level_dispose globalFrame k

/-- The global frame is there, at level 0. -/
def Grounded (m : Machine) : Prop := (m.frames.get? globalFrame).map (·.level) = some 0

/-- No action moves the global frame to another level. -/
theorem Grounded.next {m t : Machine} (hn : m.Next t) (h : m.Grounded) : t.Grounded := by
  have hsame {t : Machine} (ht : SameLevel globalFrame m t) : t.Grounded := ht.trans h
  obtain ⟨a, rfl⟩ := hn
  cases a with
  | resolve | askCache | define | delete | rename | clearCache =>
    exact hsame ((endures_sameLevel _).onTable (by trivial) m)
  | release => exact hsame ((endures_sameLevel _).release m)
  | dispose => exact hsame ((endures_sameLevel _).dispose m)
  | freeContext id shared => exact hsame ((endures_sameLevel _).free m id shared)
  | disposeContext id => exact hsame ((endures_sameLevel _).retire m id)
  | setVariables f vars =>
    exact hsame (m.frames.level_modify (g := ({ · with vars })) (fun _ => rfl) f globalFrame)
  | disposeFrame f => exact hsame (m.frames.level_dispose f globalFrame)
  | newFrame f =>
    -- the new frame is not the global one, which is there already
    have hne : globalFrame ≠ (m.frames.alloc f).1 := by
      intro e
      have hnone : m.frames.get? (m.frames.alloc f).1 = none := by simp [Frames.alloc, Frames.get?]
      rw [Grounded, e, hnone] at h
      cases h
    show ((m.frames.alloc f).2.get? globalFrame).map (·.level) = some 0
    rw [Frames.get?_alloc, if_neg hne]
    exact h
  | acquire create =>
    obtain ⟨_, _, _, _, _, e, -⟩ := m.acquire_snd create
    rw [after, e]
    exact h
  | rest | channels | names | switchThread | setSlot | setStack => exact h

end Machine

/-- The global frame has level 0 throughout a session. -/
theorem Session.grounded {s : Setup} {path : Path Stop Machine} {m : Machine}
    (h : Session s path m) : m.Grounded :=
  h.invariant (P := Machine.Grounded) rfl fun _ _ hn hm => hm.next hn

/-- A frame of a stack is no higher than the stack, and as high only on top. -/
theorem Frames.Leveled.level_of_mem {s : Frames} {fs : List FrameId} (h : s.Leveled fs)
    {f : FrameId} (hf : f ∈ fs) :
    ∃ frame, s.get? f = some frame ∧ 0 < frame.level ∧ frame.level ≤ fs.length ∧
      (fs.head? = some f ↔ frame.level = fs.length) := by
  have hbound {gs : List FrameId} (h : s.Leveled gs) (hf : f ∈ gs) :
      ∃ frame, s.get? f = some frame ∧ 0 < frame.level ∧ frame.level ≤ gs.length := by
    obtain ⟨i, hi⟩ := List.mem_iff_getElem?.1 (List.mem_reverse.2 hf)
    obtain ⟨frame, hframe, hlive⟩ := h.of_getElem? hi
    have hlt : i < gs.reverse.length := (List.getElem?_eq_some_iff.1 hi).1
    rw [List.length_reverse] at hlt
    exact ⟨frame, hframe, by rw [hlive.level]; omega, by rw [hlive.level]; omega⟩
  obtain ⟨frame, hframe, hpos, hle⟩ := hbound h hf
  refine ⟨frame, hframe, hpos, hle, ?_⟩
  cases fs with
  | nil => cases hf
  | cons g gs =>
    obtain ⟨⟨top, htop, hlive⟩, hrest⟩ := h
    constructor
    · intro e
      obtain rfl := Option.some.inj e
      obtain rfl := Option.some.inj (htop.symm.trans hframe)
      rw [hlive.level]
      rfl
    · -- a frame below the top is lower than the stack
      intro e
      rcases List.mem_cons.1 hf with rfl | hmem
      · rfl
      · obtain ⟨frame', hframe', -, hle'⟩ := hbound hrest hmem
        obtain rfl := Option.some.inj (hframe.symm.trans hframe')
        rw [List.length_cons] at e
        omega

/-! ### Active contexts answer -/

section

variable {m : Machine} {id : ContextId} {c : ThreadContext}

/-- A context that is not disposed answers, under either policy. -/
theorem run_readContext_of_not_disposed {α : Type} (hc : m.context? id = some c)
    (hd : c.disposed = false) (accessor : Accessor) (g : ThreadContext → α) :
    (readContext id fun c policy => (c.touch policy accessor).map fun _ => g c).run m =
      (.ok (g c), m) := by
  simp [readContext, Machine.context_of_some hc, Context.touch, hd, Except.map]

/-- And it takes what is written to its slots. -/
theorem run_writeFrame_of_not_disposed (hc : m.context? id = some c) (hd : c.disposed = false)
    (slot : Slot) (f : Option FrameId) :
    (writeFrame id slot f).run m = (.ok (), m.setContext id (c.setFrame slot f)) ∧
      (m.setContext id (c.setFrame slot f)).context? id = some (c.setFrame slot f) := by
  have hn : ¬ m.Faults id := by
    intro hf
    have hdisposed := hf.1
    rw [Machine.context_of_some hc, hd] at hdisposed
    cases hdisposed
  rw [m.run_writeFrame, if_neg hn, Machine.context_of_some hc, m.context?_setContext, if_pos rfl,
    hc]
  exact ⟨rfl, rfl⟩

/-- Entering a call on a context that is not disposed. -/
theorem run_enterCall (hc : m.context? id = some c) (hd : c.disposed = false) (frame : FrameId) :
    (enterCall id frame).run m = (.ok (), m.setContext id { c with
      stack := c.stack.map (·.push frame), current := some frame, procedure := some frame }) := by
  let pushed : ThreadContext := { c with stack := c.stack.map (·.push frame) }
  have ht : (m.setContext id pushed).context? id = some pushed := by
    rw [m.context?_setContext, if_pos rfl, hc]
    rfl
  obtain ⟨hrun, hc₁⟩ := run_writeFrame_of_not_disposed ht hd .current (some frame)
  obtain ⟨hrun', -⟩ := run_writeFrame_of_not_disposed hc₁ hd .procedure (some frame)
  have hstart : (enterCall id frame).run m = (writeFrame id .current (some frame) >>= fun _ =>
      writeFrame id .procedure (some frame)).run (m.setContext id pushed) := by
    show (writeFrame id .current (some frame) >>= fun _ =>
      writeFrame id .procedure (some frame)).run
        (m.setContext id { m.context id with stack := (m.context id).stack.map (·.push frame) }) = _
    rw [Machine.context_of_some hc]
  rw [hstart, run_bind, hrun]
  dsimp only
  rw [hrun', Machine.setContext_setContext, Machine.setContext_setContext]
  rfl

/-- Leaving a call on a context that is not disposed. -/
theorem run_leaveCall (hc : m.context? id = some c) (hd : c.disposed = false) (frame : FrameId)
    (current procedure : Option FrameId) :
    (leaveCall id frame current procedure).run m =
      (.ok (), { m.setContext id { c with stack := c.stack.map (·.pop), current, procedure } with
        frames := m.frames.modify frame (·.dispose) }) := by
  let popped : ThreadContext := { c with stack := c.stack.map (·.pop) }
  let t : Machine :=
    { m.setContext id popped with frames := m.frames.modify frame (·.dispose) }
  have ht : t.context? id = some popped := by
    show (m.setContext id popped).context? id = _
    rw [m.context?_setContext, if_pos rfl, hc]
    rfl
  obtain ⟨hrun, hc₁⟩ := run_writeFrame_of_not_disposed ht hd .current current
  obtain ⟨hrun', -⟩ := run_writeFrame_of_not_disposed hc₁ hd .procedure procedure
  have hstart : (leaveCall id frame current procedure).run m =
      (writeFrame id .current current >>= fun _ => writeFrame id .procedure procedure).run t := by
    show (writeFrame id .current current >>= fun _ => writeFrame id .procedure procedure).run
      { m.setContext id { m.context id with stack := (m.context id).stack.map (·.pop) } with
        frames := m.frames.modify frame (·.dispose) } = _
    rw [Machine.context_of_some hc]
  rw [hstart, run_bind, hrun]
  dsimp only
  rw [hrun', Machine.setContext_setContext]
  show (Except.ok (), { (m.setContext id popped).setContext id
    ((popped.setFrame .current current).setFrame .procedure procedure) with
      frames := m.frames.modify frame (·.dispose) }) = _
  rw [Machine.setContext_setContext]
  rfl

theorem run_readContext_of_active {α : Type} (hc : m.context? id = some c)
    (ha : c.stage = .active) (accessor : Accessor) (g : ThreadContext → α) :
    (readContext id fun c policy => (c.touch policy accessor).map fun _ => g c).run m =
      (.ok (g c), m) :=
  run_readContext_of_not_disposed hc (Context.stage_eq_active_iff.1 ha).1 accessor g

theorem run_writeFrame_of_active (hc : m.context? id = some c) (ha : c.stage = .active)
    (slot : Slot) (f : Option FrameId) :
    (writeFrame id slot f).run m = (.ok (), m.setContext id (c.setFrame slot f)) ∧
      (m.setContext id (c.setFrame slot f)).context? id = some (c.setFrame slot f) :=
  run_writeFrame_of_not_disposed hc (Context.stage_eq_active_iff.1 ha).1 slot f

/-- Moving an active context to other frames. -/
theorem run_moveTo_of_active (hc : m.context? id = some c) (ha : c.stage = .active)
    (current uplevel : Option FrameId) :
    ∃ w, (moveTo id current uplevel).run m = (.ok (), w) ∧
      w.context? id = some { c with current, uplevel } ∧ w.frames = m.frames := by
  obtain ⟨hrun, hc₁⟩ := run_writeFrame_of_active hc ha .current current
  obtain ⟨hrun', hc₂⟩ := run_writeFrame_of_active hc₁ ha .uplevel uplevel
  refine ⟨_, ?_, hc₂, rfl⟩
  rw [moveTo, run_bind, hrun]
  exact hrun'

theorem run_frame {inv : Invocation} (hc : m.context? inv.context = some c)
    (hd : c.disposed = false) {f : FrameId} (hf : c.current = some f) :
    inv.frame.run m = (.ok f, m) := by
  have hread : (readFrame inv.context .current).run m = (.ok (some f), m) := by
    rw [← hf]
    exact run_readContext_of_not_disposed hc hd (.frame .current) (·.frame .current)
  rw [Invocation.frame, run_bind, hread]
  rfl

theorem run_frame_of_active {inv : Invocation} (hc : m.context? inv.context = some c)
    (ha : c.stage = .active) {f : FrameId} (hf : c.current = some f) :
    inv.frame.run m = (.ok f, m) :=
  run_frame hc (Context.stage_eq_active_iff.1 ha).1 hf

/-- A name without `::` in front lives in the current frame. -/
theorem run_home {inv : Invocation} (hc : m.context? inv.context = some c)
    (hd : c.disposed = false) {f : FrameId} (hf : c.current = some f) {name : String}
    (hname : globalName? name = none) : (inv.home name).run m = (.ok (f, name), m) := by
  rw [Invocation.home, hname]
  show (inv.frame >>= fun f => pure (f, name)).run m = _
  rw [run_bind, run_frame hc hd hf]
  rfl

/-- A name without `::` in front is set in the current frame. -/
theorem run_setVar_of_active {inv : Invocation} (hc : m.context? inv.context = some c)
    (ha : c.stage = .active) {f : FrameId} (hf : c.current = some f) {name : String}
    (hname : globalName? name = none) (v : Value) :
    (inv.setVar name v).run m =
      (.ok (), { m with frames := m.frames.modify f (·.set name v) }) := by
  rw [Invocation.setVar, run_bind, run_home hc (Context.stage_eq_active_iff.1 ha).1 hf hname]
  rfl

end

/-! ### One level up from a call -/

/-- Below the frame of a call is the top of the stack before it. -/
theorem CallStack.atLevel?_depth (s : CallStack) (f : FrameId) (h : 0 < s.depth) :
    (s.push f).atLevel? s.depth = s.top? := by
  obtain ⟨fs⟩ := s
  cases fs with
  | nil => cases h
  | cons g gs =>
    have hlevel : (1 : Int) ≤ (⟨g :: gs⟩ : CallStack).depth := by exact_mod_cast h
    have hindex : (((⟨g :: gs⟩ : CallStack).depth : Int) - 1).toNat = gs.length := by
      simp [CallStack.depth]
    rw [atLevel?, if_pos hlevel, hindex]
    simp [push, top?]

/-- From the frame on top of the stack, one level up is the next frame of the stack, or the global
frame if there is none. -/
theorem run_frameAbove_one {m : Machine} {inv : Invocation} {c : ThreadContext}
    (hc : m.context? inv.context = some c) (ha : c.stage = .active) {frame : FrameId}
    (hcurrent : c.current = some frame) {s : CallStack} (hs : c.stack = some (s.push frame))
    (hlevel : m.levelOf frame = s.depth + 1) (hscope : c.scope = none)
    (hglobal : c.global = some Machine.globalFrame) :
    (frameAbove inv 1).run m = (.ok (some (s.top?.getD Machine.globalFrame)), m) := by
  have houter : (readCurrentGlobal inv.context).run m = (.ok (some Machine.globalFrame), m) := by
    have hread := run_readContext_of_active hc ha .currentGlobal (·.currentGlobal)
    rw [← hglobal, ← show c.currentGlobal = c.global by simp [Context.currentGlobal, hscope]]
    exact hread
  have hstack : (readStack inv.context).run m = (.ok (some (s.push frame)), m) := by
    rw [← hs]
    exact run_readContext_of_active hc ha .stack (·.stack)
  have hread : (Invocation.levelOf frame).run m = (.ok (s.depth + 1 : Int), m) := by
    rw [← hlevel]
    rfl
  -- one level up from the frame of the call is as deep as the stack was before it
  have htarget : ((s.depth : Int) + 1) - 1 = s.depth := by omega
  have hin : ¬ ((1 : Int) < 0 ∨ (s.depth : Int) < 0) := by omega
  rw [frameAbove, run_bind, run_frame_of_active hc ha hcurrent]
  dsimp only
  rw [run_bind, hread]
  dsimp only
  rw [htarget, if_neg hin, run_bind, houter]
  dsimp only
  by_cases hd : 0 < s.depth
  · have hd' : (0 : Int) < s.depth := by exact_mod_cast hd
    rw [if_pos hd', run_bind, hstack]
    dsimp only
    rw [Option.bind_some, s.atLevel?_depth frame hd]
    obtain ⟨fs⟩ := s
    cases fs with
    | nil => cases hd
    | cons g gs => rfl
  · have hd' : ¬ (0 : Int) < s.depth := by omega
    rw [if_neg hd']
    obtain ⟨fs⟩ := s
    cases fs with
    | nil => rfl
    | cons g gs => exact absurd (Nat.succ_pos _) hd

/-! ### In the body of a call -/

/-- The machine is passed in the body of a procedure called from `m`: the call has got its frame,
and the program `q` that the body begins with is over. -/
inductive InBody (inv : Invocation) (m : Machine) (frame : FrameId) : Machine → Prop
  | after {name : String} {params : List String} {args : List Value} {t : Machine} {α : Type}
      {q : Eval α} (hframe : (callFrame inv name params args).run m = (.ok frame, t))
      (hq : Bracketed q)
      (hx : (q.run ((enterCall inv.context frame).run t).2).1 ≠ .error .exhausted) :
      InBody inv m frame (q.run ((enterCall inv.context frame).run t).2).2

namespace InBody

variable {inv : Invocation} {m u : Machine} {frame : FrameId}

/-- The body begins in the frame of the call. -/
theorem start {name : String} {params : List String} {args : List Value} {t : Machine}
    (hframe : (callFrame inv name params args).run m = (.ok frame, t)) :
    InBody inv m frame ((enterCall inv.context frame).run t).2 :=
  .after (q := done ()) hframe (.done ()) (by rintro ⟨⟩)

theorem grounded (h : InBody inv m frame u) (hm : m.Grounded) : u.Grounded := by
  obtain @⟨name, params, args, t, α, q, hframe, hq, -⟩ := h
  have ht := (drifts_callFrame inv name params args).run (P := Machine.Grounded)
    (fun _ _ hd hs => hs.next hd.next) hm
  rw [hframe] at ht
  have hentered := (shifts_enterCall inv.context frame).run (P := Machine.Grounded)
    (fun _ _ hd hs => hs.next hd.next) ht
  exact hq.steps.run (fun _ _ hn hs => hs.next hn) hentered

/-- In the body the frames are arranged as they were, with the frame of the call on top. -/
theorem framed (h : InBody inv m frame u) {S : ContextId → FrameId → Prop} (hm : m.Framed S)
    {c c' : ThreadContext} (hc : m.context? inv.context = some c)
    (hc' : u.context? inv.context = some c') (ha : c'.stage = .active) :
    u.Framed S ∧ c.stage = .active ∧ c' = { c with
      stack := c.stack.map (·.push frame), current := some frame, procedure := some frame } := by
  obtain @⟨name, params, args, t, α, q, hframe, hq, hx⟩ := h
  have hdrift := drifts_callFrame inv name params args
  obtain ⟨s, f, hs, hd, hl, hf, ht⟩ := run_callFrame (by rw [hframe])
  rw [hframe] at ht
  dsimp only at ht
  have htc : t.context? inv.context = some c := by rw [ht]; exact hc
  -- getting the frame of the call keeps the frames in order
  have htframed : t.Framed S := by
    have hframed := hm.of_balanced (hdrift.balanced m) (Keeping.of_drifts hdrift m (.refl m))
    rwa [hframe] at hframed
  have hopen := Rewriting.enterCall inv.context frame
  have hentered : ((enterCall inv.context frame).run t).2.Framed S := by
    refine htframed.of_rewrites (hopen.rewrites t) (Keeping.enterCall _ frame t (.refl t)) ?_
    intro c₁ hc₁ ha₁
    obtain rfl := Option.some.inj (htc.symm.trans hc₁)
    rw [Machine.context_of_some hc] at hs
    have hget : t.frames.get? frame = some f := by
      rw [ht, hf]
      simp [Frames.get?_alloc]
    have hdepth : (s.depth : Int) < t.maxDepth := by
      rw [ht]
      exact hd
    exact (htframed.active hc₁ ha₁).enter hs hdepth hget hl
  -- what has run of the body has left the slots as the call made them
  have hback := hopen.active_after hq htc hx hc' ha
  exact ⟨hentered.run hq hx, hback.1, hback.2⟩

end InBody

/-- **`uplevel 1` leads to the frame of the innermost procedure.**  Let a procedure be called in a
machine that a session passes, on a context on which no scope runs and whose current frame is `F`.
In its body, while the context is active, `uplevel 1` runs its program with the current frame `G`
of the procedure that was innermost at the call, or the global frame if there was none, and a name
without `::` in front is set there.  `G` is `F` exactly if the level of the call is that of `F`
plus one. -/
theorem uplevel_one_leads_to_innermost {s : Setup} {path : Path Stop Machine} {m : Machine}
    (h : Session s path m) (hpath : Settled path) {inv : Invocation} {c : ThreadContext}
    (hc : m.context? inv.context = some c) (hscope : ∀ f, ¬ Running path inv.context f)
    {frame : FrameId} {u : Machine} (hu : InBody inv m frame u) {c' : ThreadContext}
    (hc' : u.context? inv.context = some c') (ha : c'.stage = .active) {inv' : Invocation}
    (hinv : inv'.context = inv.context) :
    ∃ F G w, c.current = some F ∧ G = c.procedure.getD Machine.globalFrame ∧
      w.context? inv'.context = some { c' with current := some G, uplevel := some G } ∧
      w.frames = u.frames ∧
      (∀ p, (uplevel inv' 1 p).run u =
        (always (moveTo inv'.context (some frame) c'.uplevel) p).run w) ∧
      (∀ name v, globalName? name = none → (inv'.setVar name v).run w =
        (.ok (), { w with frames := w.frames.modify G (·.set name v) })) ∧
      (G = F ↔ u.levelOf frame = u.levelOf F + 1) := by
  have hm := h.framed hpath
  obtain ⟨huframed, hac, hceq⟩ := hu.framed hm hc hc' ha
  have hground := hu.grounded h.grounded
  have hcframed := hm.active hc hac
  obtain ⟨stack, hs, htop, -, -⟩ := hcframed.stack
  obtain ⟨F, hF, hsees⟩ := hcframed.current
  have hnoscope : c.scope = none := by
    rcases e : c.scope with - | f
    · rfl
    · exact absurd (hcframed.scope f e) (hscope f)
  have hstack : c'.stack = some (stack.push frame) := by
    rw [hceq, hs]
    rfl
  have hcurrent : c'.current = some frame := by rw [hceq]
  -- the frames of the stack are still at their levels
  obtain ⟨stack', hs', -, hleveled, -⟩ := (huframed.active hc' ha).stack
  obtain rfl := Option.some.inj (hstack.symm.trans hs')
  obtain ⟨⟨f, hf, hlive⟩, hrest⟩ := hleveled
  have hlevel : u.levelOf frame = stack.depth + 1 := by
    rw [Machine.levelOf, hf]
    exact hlive.level
  rw [← hinv] at hc'
  have habove : (frameAbove inv' 1).run u = (.ok (some (stack.top?.getD Machine.globalFrame)), u) :=
    run_frameAbove_one hc' ha hcurrent hstack hlevel (by rw [hceq]; exact hnoscope)
      (by rw [hceq]; exact hcframed.global)
  obtain ⟨w, hmove, hw, hframes⟩ := run_moveTo_of_active hc' ha
    (some (stack.top?.getD Machine.globalFrame)) (some (stack.top?.getD Machine.globalFrame))
  refine ⟨F, stack.top?.getD Machine.globalFrame, w, hF, by rw [htop], hw, hframes, fun p => ?_,
    fun name v hname => run_setVar_of_active hw ha rfl hname v, ?_⟩
  · have hread (slot : Slot) : (readFrame inv'.context slot).run u = (.ok (c'.frame slot), u) :=
      run_readContext_of_active hc' ha (.frame slot) (·.frame slot)
    have hframe : c'.frame .current = some frame := hcurrent
    rw [uplevel, run_bind, habove]
    dsimp only
    rw [inFrame, run_bind, hread, hframe]
    dsimp only
    rw [run_bind, hread]
    dsimp only
    rw [run_bind, hmove]
    rfl
  · rw [hlevel]
    have hzero : u.levelOf Machine.globalFrame = 0 := by rw [Machine.levelOf, hground]; rfl
    have hdepth : stack.depth = stack.frames.length := rfl
    rcases hsees with rfl | hrun | ⟨stack₁, hs₁, hmem⟩
    · -- the global frame is current: it is reached if no procedure was running
      rw [hzero]
      rcases e : stack.top? with - | g
      · have hempty : stack.frames = [] := List.head?_eq_none_iff.1 e
        simp [hdepth, hempty]
      · have hg : g ∈ stack.frames := List.mem_of_mem_head? e
        obtain ⟨frame', hframe', hpos, hle, -⟩ := hrest.level_of_mem hg
        have hne : g ≠ Machine.globalFrame := by
          rintro rfl
          rw [Machine.levelOf, hframe'] at hzero
          exact absurd hzero (Int.ne_of_gt hpos)
        simp only [Option.getD_some, hne, false_iff]
        omega
    · exact absurd hrun (hscope F)
    · -- a frame of the stack is current: it is reached if it was on top
      obtain rfl := Option.some.inj (hs.symm.trans hs₁)
      obtain ⟨frame', hframe', hpos, hle, hhead⟩ := hrest.level_of_mem hmem
      have hF' : u.levelOf F = frame'.level := by rw [Machine.levelOf, hframe']; rfl
      rw [hF']
      rcases e : stack.top? with - | g
      · have hempty : stack.frames = [] := List.head?_eq_none_iff.1 e
        rw [hempty] at hmem
        cases hmem
      · have hgF : g = F ↔ stack.frames.head? = some F := by
          rw [show stack.frames.head? = some g from e, Option.some.injEq]
        rw [Option.getD_some, hgF, hhead]
        omega

/-! ### A procedure that is called from within an `uplevel` -/

/-- The procedure `q`, called by `p`, calls `r` with the frame of `p` as the current one; there `r`
sets a variable one level up. -/
def nestedHost : Machine :=
  let perform (m : Machine) (call : HostCall) := (m.performBy (Evaluation.cached 6) call).2
  let invoke (name : String) : Stmt := .invoke (.value (.text name)) []
  let y : Expr := .value (.text "y")
  perform (perform (perform (.start { id := "host" })
    (.defineProcedure "p" [] (some [invoke "q", .get y])))
    (.defineProcedure "q" [] (some [.uplevel 1 [invoke "r"]])))
    (.defineProcedure "r" [] (some [.uplevel 1 [.set y (.value (.text "5"))]]))

/-- The variable is not where `r` was called from. -/
theorem uplevel_one_misses_caller :
    (nestedHost.performBy (Evaluation.cached 6) (.invoke "p" [])).1.outcome =
      .error (.error (.script "p" .noSuchVariable "can't read \"y\"")) := by
  decide +kernel

def nestedPoints : List (Path Stop Machine × Machine) :=
  (Host.perform (Evaluation.cached 6) none (.invoke "p" [])).points nestedHost.silent

/-- The accessor that a program faults at when there is no context. -/
def firstTouch : (α : Type) × Eval α → Option Accessor
  | ⟨_, p⟩ =>
    match (p.run (.start { id := "host" })).1 with
    | .error (.fault a) => some a
    | _ => none

/-- A scope touches the scope slot first. -/
theorem not_running_of_firstTouch {path : Path Stop Machine}
    (h : ∀ q ∈ path, firstTouch q ≠ some (.frame .scope)) (id : ContextId) (f : FrameId) :
    ¬ Running path id f := by
  rintro ⟨inv, p, -, hmem⟩
  exact h _ hmem rfl

/-- Where `q` has moved up and is about to call `r`. -/
def callPoint : Path Stop Machine × Machine :=
  (nestedPoints.find? fun x => (x.2.context ⟨0⟩).uplevel = some ⟨1⟩ && beginsPart x.1).get
    (by decide +kernel)

/-- Where the body of `r` begins. -/
def bodyMachine : Machine :=
  ((enterCall ⟨0⟩ ⟨3⟩).run ((callFrame ⟨⟨0⟩, "r", []⟩ "r" [] []).run callPoint.2).2).2

theorem callPoint_mem : callPoint ∈ nestedPoints := List.get_find?_mem _

theorem session_callPoint : Session { id := "host" } callPoint.1 callPoint.2 := by
  refine .during 6 (.invoke "p" []) (.after 6 _ (.after 6 _ (.after 6 _ .start ?_) ?_) ?_)
    callPoint_mem
  all_goals exact fun h => by cases h

theorem settled_callPoint : Settled callPoint.1 := settled_of_types (by rfl) (by rfl)

/-- This is where the body of the procedure begins. -/
theorem inBody_bodyMachine : InBody ⟨⟨0⟩, "r", []⟩ callPoint.2 ⟨3⟩ bodyMachine := by
  have hframe : ((callFrame ⟨⟨0⟩, "r", []⟩ "r" [] []).run callPoint.2).1 = .ok ⟨3⟩ := by
    decide +kernel
  have hrun : (callFrame ⟨⟨0⟩, "r", []⟩ "r" [] []).run callPoint.2 =
      (.ok ⟨3⟩, ((callFrame ⟨⟨0⟩, "r", []⟩ "r" [] []).run callPoint.2).2) := by
    rw [← hframe]
  exact InBody.start hrun

/-- Where `r` is called, the current frame is that of `p`; one level up from `r` is the frame of
`q`. -/
theorem uplevel_one_leads_to_innermost_nested :
    callPoint ∈ nestedPoints ∧ (callPoint.2.context ⟨0⟩).current = some ⟨1⟩ ∧
      InBody ⟨⟨0⟩, "r", []⟩ callPoint.2 ⟨3⟩ bodyMachine ∧
      ∃ w, (w.context ⟨0⟩).current = some ⟨2⟩ ∧
        (∀ p, (uplevel ⟨⟨0⟩, "r", []⟩ 1 p).run bodyMachine =
          (always (moveTo ⟨0⟩ (some ⟨3⟩) (bodyMachine.context ⟨0⟩).uplevel) p).run w) ∧
        bodyMachine.levelOf ⟨3⟩ ≠ bodyMachine.levelOf ⟨1⟩ + 1 := by
  have hcall : callPoint.2.context? ⟨0⟩ = some (callPoint.2.context ⟨0⟩) ∧
      (callPoint.2.context ⟨0⟩).current = some ⟨1⟩ ∧
      (callPoint.2.context ⟨0⟩).procedure = some ⟨2⟩ := by decide +kernel
  obtain ⟨hc, hcurrent, hprocedure⟩ := hcall
  have hbody : bodyMachine.context? ⟨0⟩ = some (bodyMachine.context ⟨0⟩) ∧
      (bodyMachine.context ⟨0⟩).stage = .active := by decide +kernel
  obtain ⟨hc', ha⟩ := hbody
  have htouch : ∀ q ∈ callPoint.1, firstTouch q ≠ some (.frame .scope) := by decide +kernel
  obtain ⟨F, G, w, hF, hG, hw, -, hrun, -, hiff⟩ := uplevel_one_leads_to_innermost
    session_callPoint settled_callPoint hc (not_running_of_firstTouch htouch ⟨0⟩)
    inBody_bodyMachine hc' ha rfl
  obtain rfl := Option.some.inj (hcurrent.symm.trans hF)
  rw [hprocedure] at hG
  obtain rfl : G = ⟨2⟩ := hG
  refine ⟨callPoint_mem, hcurrent, inBody_bodyMachine, w, ?_, hrun, fun hlevel => ?_⟩
  · rw [Machine.context_of_some hw]
  · cases hiff.2 hlevel

end CommandHost
