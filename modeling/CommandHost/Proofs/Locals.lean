/-
CommandHost/Proofs/Locals.lean

The variables of callers are out of reach of a procedure.

A procedure runs in a frame of its own.  It has three ways to get at the variables of
another frame: it moves there (`uplevel`), it names a variable of the frame that
stands for the global one (`::`), or the context it runs on changes, because
contexts are freed or disposed or the thread is switched.  A call that does none of
this is *confined* (`Confined`); the first two can be seen from the programs under
way, the third from the machines before and after each step.

Throughout a confined call, the frames that were there before it stay as they are.
The invariant is `Machine.Sheltered`: the thread still has the context of the call,
and the current frame of that context is one that the call or something below it has
made (`Machine.Fresh`).  A thread finds no other context to use, since it has one in
the thread table; the exception is the thread 0, which the table ignores, and the last
section has a procedure there that sets a variable of its caller.
-/
import CommandHost.Proofs.Coherence
import CommandHost.Proofs.Isolation
import CommandHost.Proofs.Uplevel

namespace CommandHost

open Program Eval Dispatch

/-! ### Parameters -/

/-- The argument that a parameter is bound to: the last one, if the parameter is repeated. -/
def argument? (params : List String) (args : List Value) (name : String) : Option Value :=
  ((params.zip args).reverse.find? fun b => b.1 = name).map (·.2)

/-- A frame of a call has the parameters and nothing else. -/
theorem Frame.get?_ofCall (name : String) (level : Int) (params : List String)
    (args : List Value) (x : String) :
    (ofCall name level params args).get? x = argument? params args x := by
  -- a later binding hides the earlier ones
  have hfold (bs : List (String × Value)) (f : Frame) :
      (bs.foldl (fun f p => f.set p.1 p.2) f).get? x =
        ((bs.reverse.find? fun b => b.1 = x).map (·.2)).or (f.get? x) := by
    induction bs generalizing f with
    | nil => rfl
    | cons b bs ih =>
      rw [List.foldl_cons, ih, List.reverse_cons, List.find?_append, f.get?_set]
      cases bs.reverse.find? (fun b => decide (b.1 = x)) with
      | none =>
        by_cases hx : b.1 = x
        · simp [hx]
        · simp [hx, Ne.symm hx]
      | some b' => rfl
  rw [ofCall, hfold]
  exact Option.or_none

/-! ### Confined calls -/

/-- Programs that reach out of a call.  Only `uplevel` sets the uplevel slot of a context, and it
does so whenever it moves to a frame. -/
inductive Outreach : (α : Type) × Eval α → Prop
  | uplevel (id : ContextId) (f : Option FrameId) : Outreach ⟨Unit, writeFrame id .uplevel f⟩
  /-- A variable whose name begins with `::`. -/
  | qualified (inv : Invocation) {name inner : String} (h : globalName? name = some inner) :
      Outreach ⟨FrameId × String, inv.home name⟩

/-- Steps that free or dispose contexts. -/
inductive Machine.Frees (m : Machine) : Machine → Prop
  | release : m.Frees m.release.2
  | free (id : ContextId) (shared : Bool) : m.Frees (m.freeContext id shared)
  | dispose (id : ContextId) : m.Frees (m.disposeContext id)
  | disposeAll : m.Frees m.dispose

/-- A step switches the thread, or frees or disposes some context. -/
def Machine.Disturbs (m t : Machine) : Prop :=
  t.thread ≠ m.thread ∨ m.Frees t ∧ t.contexts ≠ m.contexts

/-- The run of a program does not reach out, and no step of it switches the thread or frees or
disposes a context. -/
structure Confined {α : Type} (p : Eval α) (m : Machine) : Prop where
  inside : ∀ x ∈ p.points m, ∀ q ∈ x.1, ¬ Outreach q
  undisturbed : (p.points m).IsChain fun x y => ¬ x.2.Disturbs y.2

namespace Confined

variable {α β : Type} {m : Machine}

/-- The program itself is under way at its first point. -/
theorem not_outreach {p : Eval α} (h : Confined p m) : ¬ Outreach ⟨α, p⟩ := by
  obtain ⟨path, hfirst⟩ := head?_points p m
  have hx := List.mem_of_head? hfirst
  exact h.inside _ hx _ (mem_path_of_mem_points hx)

/-- A step of a confined call does not disturb. -/
theorem not_disturbs {f : Machine → Except Stop α × Machine} (h : Confined (act f) m) :
    ¬ m.Disturbs (f m).2 := by
  simpa [points] using h.undisturbed

/-- The parts of a confined program are confined. -/
theorem of_handle {p : Eval β} {k : Except Stop β → Eval α} (h : Confined (handle p k) m) :
    Confined p m ∧ Confined (k (p.run m).1) (p.run m).2 := by
  obtain ⟨hin, hchain⟩ := h
  rw [points, List.isChain_cons, List.isChain_map, List.isChain_append] at hchain
  obtain ⟨-, hp, hk, -⟩ := hchain
  simp only [points, List.mem_cons, List.mem_map, List.mem_append] at hin
  exact ⟨⟨fun x hx q hq => hin _ (.inr ⟨x, .inl hx, rfl⟩) q (List.mem_cons_of_mem _ hq), hp⟩,
    ⟨fun x hx q hq => hin _ (.inr ⟨x, .inr hx, rfl⟩) q (List.mem_cons_of_mem _ hq), hk⟩⟩

end Confined

/-! ### Sheltered frames -/

/-- Freeing that changes nothing releases nothing. -/
theorem Context.free_fst_of_snd {σ φ : Type} {c : Context σ φ} (h : c.free.2 = c) :
    c.free.1 = [] := by
  unfold free at h ⊢
  split at h
  · simp_all
  · rename_i hd
    rw [if_neg hd, ← h]
    rfl

theorem Context.dispose_fst_of_snd {σ φ : Type} {c : Context σ φ} (h : c.dispose.2 = c) :
    c.dispose.1 = [] := by
  unfold dispose at h ⊢
  split at h
  · simp_all
  · rename_i hd
    rw [← h] at hd
    exact absurd rfl hd

namespace Machine

/-- A slot has no frame of the machine. -/
def Fresh (m : Machine) (f : Option FrameId) : Prop := ∀ g, f = some g → ¬ m.Stores g

/-- The frames of `m` are what they were. -/
def Intact (m t : Machine) : Prop := ∀ f, m.Stores f → t.frames.get? f = m.frames.get? f

/-- The frames of `m` are intact, the thread is the same, and the context belongs to it and has a
current frame of the wanted kind. -/
structure Sheltered (m : Machine) (id : ContextId) (wanted : Option FrameId → Prop) (t : Machine) :
    Prop where
  thread : t.thread = m.thread
  context : ∃ c, t.context? id = some c ∧ c.stage = .active ∧ c.thread = m.thread ∧
    wanted c.current
  frames : m.Intact t

/-- A step that leaves all contexts as they are frees nothing. -/
theorem frames_freeContext {m : Machine} {id : ContextId} {shared : Bool}
    (h : (m.freeContext id shared).contexts = m.contexts) :
    (m.freeContext id shared).frames = m.frames := by
  have hcontext := context_of_changed (m.context?_freeContext id shared) rfl
  rw [context, context?, h] at hcontext
  show (m.context id).free.1.foldl (releaseHeld shared) m.frames = m.frames
  rw [Context.free_fst_of_snd hcontext.symm]
  rfl

theorem frames_disposeContext {m : Machine} {id : ContextId}
    (h : (m.disposeContext id).contexts = m.contexts) :
    (m.disposeContext id).frames = m.frames := by
  have hcontext := context_of_changed (m.context?_disposeContext id) rfl
  rw [context, context?, h] at hcontext
  show (m.context id).dispose.1.foldl (releaseHeld true) m.frames = m.frames
  rw [Context.dispose_fst_of_snd hcontext.symm]
  rfl

namespace Sheltered

variable {m t u : Machine} {id : ContextId} {wanted wanted' : Option FrameId → Prop} {f : FrameId}

theorem mono (h : m.Sheltered id wanted t) (hw : ∀ f, wanted f → wanted' f) :
    m.Sheltered id wanted' t := by
  obtain ⟨c, hc, ha, ht, hcurrent⟩ := h.context
  exact ⟨h.thread, ⟨c, hc, ha, ht, hw _ hcurrent⟩, h.frames⟩

/-- What one step has to leave alone. -/
theorem step (h : m.Sheltered id wanted t) (hthread : u.thread = t.thread)
    (hcontext : u.context? id = t.context? id)
    (hframes : ∀ f, m.Stores f → u.frames.get? f = t.frames.get? f) :
    m.Sheltered id wanted u where
  thread := hthread.trans h.thread
  context := hcontext ▸ h.context
  frames f hf := (hframes f hf).trans (h.frames f hf)

/-- Steps that touch no context, no frame and not the thread. -/
theorem of_same (h : m.Sheltered id wanted t) (hthread : u.thread = t.thread)
    (hcontext : u.context? id = t.context? id) (hframes : u.frames = t.frames) :
    m.Sheltered id wanted u :=
  h.step hthread hcontext fun f _ => by rw [hframes]

/-- A frame that is made now was not there before the call. -/
theorem not_stores_nextFrame (h : m.Sheltered id wanted t) : ¬ m.Stores t.nextFrame := by
  intro hf
  apply t.not_stores_nextFrame
  rw [Stores, h.frames _ hf]
  exact hf

/-- A new frame is none of those that are sheltered. -/
theorem newFrame (h : m.Sheltered id wanted t) (frame : Frame) :
    m.Sheltered id wanted (t.after (.newFrame frame)) := by
  refine h.step rfl rfl fun f hf => ?_
  show (t.frames.alloc frame).2.get? f = _
  rw [Frames.get?_alloc, if_neg]
  rintro rfl
  exact h.not_stores_nextFrame hf

/-- Changing a frame that was not there. -/
theorem modifyFrame (h : m.Sheltered id wanted t) (hf : ¬ m.Stores f) (change : Frame → Frame) :
    m.Sheltered id wanted { t with frames := t.frames.modify f change } := by
  refine h.step rfl rfl fun g hg => ?_
  show (t.frames.modify f change).get? g = _
  rw [Frames.get?_modify, if_neg]
  rintro rfl
  exact hf hg

theorem assigns (h : m.Sheltered id wanted t) (hf : ¬ m.Stores f) (hu : t.Assigns f u) :
    m.Sheltered id wanted u := by
  rcases hu with rfl | ⟨vars, rfl⟩
  · exact h
  · exact h.modifyFrame hf _

/-- Moving the context between frames. -/
theorem setContext {c c' : ThreadContext} (h : m.Sheltered id wanted t)
    (hc : t.context? id = some c) (hstage : c'.stage = c.stage) (hthread : c'.thread = c.thread)
    (hw : wanted' c'.current) : m.Sheltered id wanted' (t.setContext id c') := by
  obtain ⟨c₀, hc₀, ha, ht, -⟩ := h.context
  obtain rfl := Option.some.inj (hc.symm.trans hc₀)
  refine ⟨h.thread, ⟨c', ?_, hstage.trans ha, hthread.trans ht, hw⟩, h.frames⟩
  rw [t.context?_setContext, if_pos rfl, hc]
  rfl

/-- Freeing that leaves all contexts as they are changes nothing. -/
theorem frees (h : m.Sheltered id wanted t) (ht : t.Tabled) (hu : t.Frees u)
    (hn : ¬ t.Disturbs u) : m.Sheltered id wanted u := by
  have hcontexts : u.contexts = t.contexts := by
    by_contra hne
    exact hn (.inr ⟨hu, hne⟩)
  have hsame (k : ContextId) : u.context? k = t.context? k := by rw [context?, hcontexts, context?]
  obtain ⟨c, hc, ha, hthread, -⟩ := h.context
  -- the context of the call is in the table, so it would be disposed with the others
  have htable : t.byThread.get? t.thread = some id := by
    rw [h.thread, ← hthread]
    exact ht.active hc ha
  have hlive {c' : ThreadContext} (hc' : u.context? id = some c') : ¬ c'.disposed = true := by
    rw [hsame, hc] at hc'
    obtain rfl := Option.some.inj hc'
    simp [(Context.stage_eq_active_iff.1 ha).1]
  cases hu with
  | release =>
    obtain ⟨c', hc', hd⟩ := disposed_release htable hc
    exact absurd hd (hlive hc')
  | free k shared => exact h.of_same rfl (hsame id) (frames_freeContext hcontexts)
  | dispose k => exact h.of_same rfl (hsame id) (frames_disposeContext hcontexts)
  | disposeAll =>
    have hopen : t.disposed = false := by
      by_contra hd
      exact ht.closed (by simpa using hd) hc ha
    obtain ⟨c', hc', hd⟩ := disposed_context_dispose hopen htable hc
    exact absurd hd (hlive hc')

theorem mild (h : m.Sheltered id wanted t) (ht : t.Tabled) (hu : t.Mild u) (hn : ¬ t.Disturbs u) :
    m.Sheltered id wanted u := by
  cases hu with
  | channels | saved => exact h.of_same rfl rfl rfl
  | onTable ha =>
    obtain ⟨commands, cache, log, e⟩ := ha.after t
    rw [e]
    exact h.of_same rfl rfl rfl
  | acquire create =>
    obtain ⟨c, hc, -⟩ := h.context
    have hcontext := (context?_acquire hc create).trans hc.symm
    obtain ⟨_, _, _, _, _, e, -⟩ := t.acquire_snd create
    rw [e] at hcontext ⊢
    exact h.of_same rfl hcontext rfl
  | release => exact h.frees ht .release hn

/-- A step that frees contexts or switches threads shelters too, unless it disturbs. -/
theorem unruly {α : Type} {g : Machine → Except Stop α × Machine} (hg : Unruly g)
    (h : m.Sheltered id wanted t) (ht : t.Tabled) (hn : ¬ t.Disturbs (g t).2) :
    m.Sheltered id wanted (g t).2 := by
  cases hg with
  | switchThread k hg =>
    rw [hg] at hn ⊢
    -- switching to another thread would disturb
    have hk : k = t.thread := by
      by_contra hne
      exact hn (.inl hne)
    subst hk
    exact h
  | freeContext k shared hg =>
    rw [hg] at hn ⊢
    exact h.frees ht (.free k shared) hn
  | disposeContext k hg =>
    rw [hg] at hn ⊢
    exact h.frees ht (.dispose k) hn
  | dispose hg =>
    rw [hg] at hn ⊢
    exact h.frees ht .disposeAll hn

/-- A thread has no other context to use. -/
theorem eq_of_canUse (h : m.Sheltered id wanted t) (h0 : m.thread ≠ 0) (ht : t.Tabled)
    {k : ContextId} (hk : t.canUse (some k) = true) : k = id := by
  obtain ⟨c, hc, ha, hthread, -⟩ := h.context
  have hid := ht.tableContext?_of_active hc ha (h.thread.trans hthread.symm)
  rw [ht.tableContext?_of_canUse (h.thread ▸ h0) hk] at hid
  exact Option.some.inj hid

end Sheltered

end Machine

/-! ### Programs -/

/-- The machines that a run passes have the thread table in order, and it is confined. -/
structure Quiet {α : Type} (p : Eval α) (t : Machine) : Prop where
  tabled : p.Throughout Machine.Tabled t
  confined : Confined p t

namespace Quiet

variable {α β : Type} {t : Machine}

theorem of_handle {p : Eval β} {k : Except Stop β → Eval α} (h : Quiet (handle p k) t) :
    Quiet p t ∧ Quiet (k (p.run t).1) (p.run t).2 :=
  ⟨⟨h.tabled.of_handle.1, h.confined.of_handle.1⟩, ⟨h.tabled.of_handle.2, h.confined.of_handle.2⟩⟩

theorem of_bind {p : Eval β} {k : β → Eval α} (h : Quiet (p >>= k) t) {b : β} {u : Machine}
    (hp : p.run t = (.ok b, u)) : Quiet (k b) u := by
  have hk := h.of_handle.2
  rw [hp] at hk
  exact hk

end Quiet

section

variable {m t : Machine} {id : ContextId} {wanted : Option FrameId → Prop} {α β : Type}

/-- Steps that keep frames sheltered as long as they do not disturb. -/
theorem throughout_of_steps {p : Eval α}
    (hp : p.Steps fun t u => t.Tabled → ¬ t.Disturbs u → m.Sheltered id wanted t →
      m.Sheltered id wanted u) (ht : m.Sheltered id wanted t) (hq : Quiet p t) :
    p.Throughout (m.Sheltered id wanted) t := by
  induction p generalizing t with
  | done a | stop e => exact .of_reads trivial ht
  | act f =>
    exact along_act (fun h _ => h) ht (hp t hq.tabled.start hq.confined.not_disturbs ht)
  | handle p k ihp ihk =>
    obtain ⟨hqp, hqk⟩ := hq.of_handle
    have hthrough := ihp hp.1 ht hqp
    exact hthrough.handle (ihk _ (hp.2 _) hthrough.run hqk)

theorem throughout_of_mild {p : Eval α} (hp : p.Steps Machine.Mild)
    (ht : m.Sheltered id wanted t) (hq : Quiet p t) : p.Throughout (m.Sheltered id wanted) t :=
  throughout_of_steps (hp.mono fun _ _ hu htabled hn h => h.mild htabled hu hn) ht hq

/-- Reading a slot of the context of the call. -/
theorem Machine.Sheltered.run_readFrame (h : m.Sheltered id wanted t) (slot : Slot) :
    ∃ c, t.context? id = some c ∧ c.stage = .active ∧ wanted c.current ∧
      (readFrame id slot).run t = (.ok (c.frame slot), t) := by
  obtain ⟨c, hc, ha, -, hw⟩ := h.context
  exact ⟨c, hc, ha, hw, run_readContext_of_active hc ha (.frame slot) (·.frame slot)⟩

/-- Only what becomes the current frame matters. -/
theorem maintains_sheltered_writeFrame {slot : Slot} {f : Option FrameId}
    (hf : slot = .current → wanted f) :
    (writeFrame id slot f).Maintains (m.Sheltered id wanted) := by
  refine .of_steps fun t ht => ?_
  change m.Sheltered id wanted ((writeFrame id slot f).run t).2
  obtain ⟨c, hc, ha, -, hw⟩ := ht.context
  rw [(run_writeFrame_of_active hc ha slot f).1]
  have hthread : (c.setFrame slot f).thread = c.thread := by cases slot <;> rfl
  refine ht.setContext hc (c.stage_setFrame slot f) hthread ?_
  cases slot with
  | current => exact hf rfl
  | uplevel | procedure | scope | global => exact hw

theorem maintains_sheltered_modifyStack (g : CallStack → CallStack) :
    (modifyStack id g).Maintains (m.Sheltered id wanted) := by
  refine .of_steps fun t ht => ?_
  obtain ⟨c, hc, -, -, hw⟩ := ht.context
  show m.Sheltered id wanted
    (t.setContext id { t.context id with stack := (t.context id).stack.map g })
  rw [Machine.context_of_some hc]
  exact ht.setContext hc rfl rfl hw

theorem maintains_sheltered_enterCall {frame : FrameId} (hf : wanted (some frame)) :
    (enterCall id frame).Maintains (m.Sheltered id wanted) :=
  .bind (maintains_sheltered_modifyStack _) fun _ =>
    .bind (maintains_sheltered_writeFrame fun _ => hf) fun _ =>
      maintains_sheltered_writeFrame nofun

/-- The frame that is disposed is that of the call, and so a new one. -/
theorem maintains_sheltered_leaveCall {frame : FrameId} (hf : ¬ m.Stores frame)
    {current : Option FrameId} (hw : wanted current) (procedure : Option FrameId) :
    (leaveCall id frame current procedure).Maintains (m.Sheltered id wanted) :=
  .bind (maintains_sheltered_modifyStack _) fun _ =>
    .bind (.of_steps fun _ ht => ht.modifyFrame hf _) fun _ =>
      .bind (maintains_sheltered_writeFrame fun _ => hw) fun _ =>
        maintains_sheltered_writeFrame nofun

/-- Programs that do not touch the frames of `m`, if they begin in a frame that is not one of
them. -/
def Stays (m : Machine) (id : ContextId) {α : Type} (p : Eval α) : Prop :=
  ∀ t, m.Sheltered id m.Fresh t → Quiet p t → p.Throughout (m.Sheltered id m.Fresh) t

variable {p : Eval Value}

/-- A body in a new frame, between entering and leaving it.  Where the context comes back to is as
good as where it was. -/
theorem throughout_sheltered_inCall (hp : Stays m id p) (hw : ∀ f, m.Fresh f → wanted f)
    {frame : FrameId} (hf : ¬ m.Stores frame) (ht : m.Sheltered id wanted t)
    (hq : Quiet (inCall id frame p) t) :
    (inCall id frame p).Throughout (m.Sheltered id wanted) t := by
  have hfresh : m.Fresh (some frame) := fun _ hg => Option.some.inj hg ▸ hf
  obtain ⟨c, hc, ha, hcurrent, hread⟩ := ht.run_readFrame .current
  obtain ⟨c', hc', -, -, hread'⟩ := ht.run_readFrame .procedure
  obtain rfl := Option.some.inj (hc.symm.trans hc')
  have hreads (slot : Slot) : (readFrame id slot).Reads := reads_readContext _ _
  -- the call is entered on a context that answers
  have henter := run_enterCall hc (Context.stage_eq_active_iff.1 ha).1 frame
  have hbody := ((hq.of_bind hread).of_bind hread').of_bind henter |>.of_handle.1
  refine .bind_reads (hreads _) ht fun current hcur => ?_
  obtain rfl : c.current = current := by
    rw [hread] at hcur
    exact Except.ok.inj hcur
  refine .bind_reads (hreads _) ht fun procedure _ => ?_
  refine .bind (maintains_sheltered_enterCall (hw _ hfresh) t ht) fun _ _ => ?_
  rw [henter]
  -- in the body the current frame is the new one
  have hentered : m.Sheltered id m.Fresh (t.setContext id { c with
      stack := c.stack.map (·.push frame), current := some frame, procedure := some frame }) :=
    ht.setContext hc rfl rfl hfresh
  refine throughout_always (maintains_sheltered_leaveCall hf hcurrent procedure) ?_
  exact (hp _ hentered hbody).mono fun _ h => h.mono hw

/-- A call: it gets a new frame, or fails before it has changed anything. -/
theorem throughout_sheltered_callProcedure {inv : Invocation} (hp : Stays m inv.context p)
    (hw : ∀ f, m.Fresh f → wanted f) (name : String) (params : List String) (args : List Value)
    (ht : m.Sheltered inv.context wanted t) (hq : Quiet (callProcedure inv name params args p) t) :
    (callProcedure inv name params args p).Throughout (m.Sheltered inv.context wanted) t := by
  have hframe : (callFrame inv name params args).Throughout (m.Sheltered inv.context wanted) t := by
    refine throughout_of_steps ((steps_callFrame inv name params args).mono ?_) ht hq.of_handle.1
    rintro t u (rfl | ⟨f, rfl⟩) _ _ h
    · exact h
    · exact h.newFrame f
  refine hframe.bind fun frame hrun => throughout_takeReturn ?_
  obtain ⟨s, f, -, -, -, rfl, -⟩ := run_callFrame hrun
  have hcall := hq.of_bind (Prod.ext hrun rfl)
  exact throughout_sheltered_inCall hp hw ht.not_stores_nextFrame hframe.run hcall.of_handle.1

end

/-- Programs that run on the context of the call stay out of the frames that were there before. -/
theorem inherited_stays {m : Machine} (h0 : m.thread ≠ 0) (id : ContextId) :
    Inherited fun on p => on = some id → Stays m id p where
  mild hp _ _ ht hq := throughout_of_mild hp ht hq
  unruly hf _ t ht hq := along_act (fun h _ => h) ht
    (ht.unruly hf hq.tabled.start hq.confined.not_disturbs)
  assign inv name f hf hon t ht hq := by
    obtain rfl : inv.context = id := Option.some.inj hon
    have hname : globalName? name = none := by
      rcases h : globalName? name with - | inner
      · rfl
      · exact absurd (.qualified inv h) hq.of_handle.1.confined.not_outreach
    refine .bind_reads (reads_home inv name) ht fun home hhome => ?_
    -- the variable lives in the current frame, which is a new one
    have hnew : ¬ m.Stores home.1 := by
      obtain ⟨c, hc, -, -, hfresh⟩ := ht.context
      obtain ⟨c', hc', hcurrent⟩ := current_of_home hname hhome
      obtain rfl := Option.some.inj (hc.symm.trans hc')
      exact hfresh _ hcurrent
    exact along_act (fun h _ => h) ht (ht.assigns hnew (hf home t))
  makeScope self running name level _ t ht hq := by
    refine throughout_of_steps ?_ ht hq
    exact .bind (fun _ _ _ h => h.newFrame _) fun _ =>
      .bind (fun _ _ _ h => h.of_same rfl rfl rfl) fun _ => trivial
  handle hp hk hon t ht hq := by
    obtain ⟨hqp, hqk⟩ := hq.of_handle
    have hthrough := hp hon t ht hqp
    exact hthrough.handle (hk _ hon _ hthrough.run hqk)
  uplevel inv level hp hon t ht hq := by
    obtain rfl : inv.context = id := Option.some.inj hon
    refine .bind_reads (reads_frameAbove inv level) ht fun f hf => ?_
    -- an active context would go on to set its uplevel slot
    have hmove := hq.of_bind (Prod.ext hf ((reads_frameAbove inv level).run t))
    obtain ⟨c, hc, ha, -, hread⟩ := ht.run_readFrame .current
    obtain ⟨c', -, -, -, hread'⟩ := ht.run_readFrame .uplevel
    obtain ⟨hwrite, -⟩ := run_writeFrame_of_active hc ha .current f
    have hset := ((hmove.of_bind hread).of_bind hread').of_handle.1.of_bind hwrite
    exact absurd (.uplevel _ _) hset.confined.not_outreach
  inScope inv scope hp hon t ht hq := by
    obtain rfl : inv.context = id := Option.some.inj hon
    have hscope : (read fun m : Machine => m.scopes.get? scope : Eval _).Reads := fun _ => rfl
    refine .bind_reads hscope ht fun f hf => ?_
    have hin := hq.of_bind (Prod.ext hf (hscope.run t))
    cases f with
    | none => exact .of_reads trivial ht
    | some f =>
      obtain ⟨c, hc, ha, -, hread⟩ := ht.run_readFrame .scope
      obtain ⟨hwrite, -⟩ := run_writeFrame_of_active hc ha .scope (some f)
      have hslot (g : Option FrameId) :
          (writeFrame inv.context .scope g).Maintains (m.Sheltered inv.context m.Fresh) :=
        maintains_sheltered_writeFrame nofun
      have hbody := ((hin.of_bind hread).of_bind hwrite).of_handle.1
      refine .bind_reads (reads_readContext _ _) ht fun before _ => ?_
      refine .bind (hslot _ t ht) fun _ _ => throughout_always (hslot before) ?_
      have hset := (hslot (some f) t ht).run
      rw [hwrite] at hset ⊢
      exact hp rfl _ hset hbody
  call inv name params args hp hon t ht hq := by
    obtain rfl : inv.context = id := Option.some.inj hon
    exact throughout_sheltered_callProcedure (hp rfl) (fun _ h => h) name params args ht hq
  enter {_ context _} htrue hfalse hon t ht hq := by
    have hread : (read (·.canUse (some context)) : Eval Bool).Reads := fun _ => rfl
    refine .bind_reads hread ht fun usable hu => ?_
    have hrun : (read (·.canUse (some context)) : Eval Bool).run t =
      (.ok usable, t) := Prod.ext hu rfl
    cases usable with
    | false => exact hfalse hon t ht (hq.of_bind hrun)
    | true =>
      obtain rfl := ht.eq_of_canUse h0 hq.tabled.start (Except.ok.inj hu)
      exact htrue rfl t ht (hq.of_bind hrun)

/-! ### The frame of a call -/

/-- What a name resolved to, when it is invoked with arguments, is a call of a procedure.  As the
handler of unknown names, the procedure gets the name as its first argument. -/
inductive Resolution.Calls (args : List Value) :
    Resolution → String → List String → List Stmt → List Value → Prop
  | direct (procedure : String) (params : List String) (body : List Stmt) :
      Calls args (.direct (.procedure procedure params body)) procedure params body args
  | unknown (procedure : String) (params : List String) (body : List Stmt) (name : String) :
      Calls args (.unknown (.procedure procedure params body) name) procedure params body
        (.text name :: args)

/-- The procedure runs on a frame of its own, as the command or as the handler of unknown names. -/
theorem Resolution.Calls.executeResolved_eq {r : Resolution} {args args' : List Value}
    {procedure : String} {params : List String} {body : List Stmt}
    (h : r.Calls args procedure params body args') (self : Runner) (inv : Invocation) :
    executeResolved self r inv args =
      callProcedure inv procedure params args' (self.body { inv with args := [] } body) := by
  cases h <;> rfl

namespace Machine

variable {m w : Machine} {id : ContextId} {params : List String} {args : List Value}

/-- The current thread may use the context, there is an argument for each parameter, and the call
is not too deep. -/
structure Admits (m : Machine) (id : ContextId) (params : List String) (args : List Value) :
    Prop where
  usable : m.canUse (some id) = true
  arity : args.length = params.length
  shallow : ∃ s, (m.context id).stack = some s ∧ (s.depth : Int) < m.maxDepth

/-- In `w`, the context is in a frame that `m` does not have.  Its variables are the parameters, and
they are all that is to be seen from there without `::`. -/
structure Opens (m : Machine) (id : ContextId) (params : List String) (args : List Value)
    (frame : FrameId) (w : Machine) : Prop where
  fresh : ¬ m.Stores frame
  others : m.Intact w
  slots : (w.context id).current = some frame ∧ (w.context id).procedure = some frame
  binds : ∃ F, w.frames.get? frame = some F ∧ ∀ x, F.get? x = argument? params args x
  sees : ∀ (inv : Invocation) (x : String) (v : Value), inv.context = id → globalName? x = none →
    (((inv.getVar x).run w).1 = .ok v ↔ argument? params args x = some v)

/-- Resolving a name changes the cache at most. -/
theorem Coherent.run_resolve_of_lookup (h : m.Coherent) {name : String} {r : Resolution}
    (hr : m.lookup name = some r) :
    ∃ commands cache log, (Eval.resolve name).run m = (.ok r, { m with commands, cache, log }) := by
  obtain ⟨commands, cache, log, e⟩ := Action.OnTable.after (a := .resolve name) trivial m
  have hresolve : m.resolve name = (some r, { m with commands, cache, log }) :=
    Prod.ext ((h.resolve_fst name).trans hr) e
  refine ⟨commands, cache, log, ?_⟩
  rw [Eval.resolve, run_act, hresolve]

theorem run_readStack (hu : m.canUse (some id) = true) :
    (readStack id).run m = (.ok (m.context id).stack, m) := by
  have hd := (canUse_some_iff.1 hu).1
  exact run_readContext_of_not_disposed (context?_of_not_disposed hd) hd .stack (·.stack)

theorem Admits.run_callFrame {inv : Invocation} (h : m.Admits inv.context params args)
    (name : String) : ∃ level, (callFrame inv name params args).run m =
      (.ok m.nextFrame, m.after (.newFrame (.ofCall name level params args))) := by
  obtain ⟨s, hs, hdepth⟩ := h.shallow
  refine ⟨s.depth + 1, ?_⟩
  rw [callFrame, if_neg (not_not.2 h.arity), run_bind, run_readStack h.usable, hs]
  show (if m.maxDepth ≤ (s.depth : Int) then _ else _ : Eval FrameId).run m = _
  rw [if_neg (by omega)]
  rfl

/-- A call that is not admitted fails before there is a frame. -/
theorem run_callFrame_of_not_admits (inv : Invocation) (hu : m.canUse (some inv.context) = true)
    (h : ¬ m.Admits inv.context params args) (name : String) :
    ∃ e, (callFrame inv name params args).run m = (.error (.error e), m) := by
  rw [callFrame]
  split
  · exact ⟨_, rfl⟩
  · rename_i hlen
    rw [run_bind, run_readStack hu]
    rcases hs : (m.context inv.context).stack with - | s
    · exact ⟨_, rfl⟩
    · have hdeep : m.maxDepth ≤ (s.depth : Int) := by
        by_contra hdepth
        exact h ⟨hu, not_not.1 hlen, s, hs, by omega⟩
      show ∃ e, (if m.maxDepth ≤ (s.depth : Int) then _ else _ : Eval FrameId).run m = _
      rw [if_pos hdeep]
      exact ⟨_, rfl⟩

/-- A variable in the current frame, or none. -/
theorem run_getVar {inv : Invocation} {c : ThreadContext} (hc : w.context? inv.context = some c)
    (hd : c.disposed = false) {f : FrameId} (hf : c.current = some f) {F : Frame}
    (hF : w.frames.get? f = some F) {name : String} (hname : globalName? name = none) (v : Value) :
    ((inv.getVar name).run w).1 = .ok v ↔ F.get? name = some v := by
  have hread : (read fun m : Machine => (m.frames.get? f).bind (·.get? name) : Eval _).run w =
      (.ok (F.get? name), w) := by
    show (Except.ok ((w.frames.get? f).bind (·.get? name)), w) = _
    rw [hF]
    rfl
  rw [Invocation.getVar, run_bind, run_home hc hd hf hname]
  dsimp only
  rw [run_bind, hread]
  rcases F.get? name with - | v'
  · exact ⟨by rintro ⟨⟩, by rintro ⟨⟩⟩
  · constructor
    · exact fun h => congrArg some (Except.ok.inj h)
    · exact fun h => congrArg Except.ok (Option.some.inj h)

/-- The body of a call that is admitted begins in its own frame. -/
theorem Admits.opens (inv : Invocation) (h : m.Admits inv.context params args) (name : String)
    (p : Eval Value) : ∃ frame w, (callProcedure inv name params args p).Reaches m p w ∧
      m.Opens inv.context params args frame w := by
  obtain ⟨level, hframe⟩ := h.run_callFrame name
  have hd := (canUse_some_iff.1 h.usable).1
  have hc := context?_of_not_disposed hd
  let F : Frame := .ofCall name level params args
  let t := m.after (.newFrame F)
  have hct : t.context? inv.context = some (m.context inv.context) := hc
  have hread (slot : Slot) :=
    run_readContext_of_not_disposed hct hd (.frame slot) (·.frame slot)
  let entered : ThreadContext := { m.context inv.context with
    stack := (m.context inv.context).stack.map (·.push m.nextFrame)
    current := some m.nextFrame
    procedure := some m.nextFrame }
  let w := t.setContext inv.context entered
  have hcw : w.context? inv.context = some entered := by
    rw [t.context?_setContext, if_pos rfl, hct]
    rfl
  -- the frame of the call is the current one, and it has the parameters
  have hF : w.frames.get? m.nextFrame = some F := by
    show (m.frames.alloc F).2.get? m.nextFrame = some F
    rw [Frames.get?_alloc]
    exact if_pos rfl
  refine ⟨m.nextFrame, w, ?_, ?_, ?_, ?_, ?_, ?_⟩
  · refine .bind hframe (.handle ?_ _)
    exact .bind (hread .current) (.bind (hread .procedure) (.bind (run_enterCall hct hd _)
      (.handle (.refl p w) _)))
  · exact m.not_stores_nextFrame
  · intro f hf
    show (m.frames.alloc F).2.get? f = _
    rw [Frames.get?_alloc, if_neg]
    rintro rfl
    exact m.not_stores_nextFrame hf
  · rw [context_of_some hcw]
    exact ⟨rfl, rfl⟩
  · exact ⟨F, hF, Frame.get?_ofCall name level params args⟩
  · intro inv' x v hinv hx
    rw [← Frame.get?_ofCall name level params args x]
    rw [← hinv] at hcw
    exact run_getVar hcw hd rfl hF hx v

end Machine

/-! ### Sessions -/

section

variable {m : Machine} {id : ContextId} {name procedure : String} {args args' : List Value}
  {r : Resolution} {params : List String} {body : List Stmt}

/-- An invocation of a procedure on a context that the current thread may use. -/
theorem reaches_invoke (hm : m.Coherent) (hr : m.lookup name = some r)
    (hcalls : r.Calls args procedure params body args') (hadmits : m.Admits id params args')
    {self : Runner} (hself : self.resolve = Eval.resolve) :
    ∃ frame w, (invoke self (some id) name args).Reaches m (self.body ⟨id, name, []⟩ body) w ∧
      m.Opens id params args' frame w := by
  obtain ⟨commands, cache, log, hresolve⟩ := hm.run_resolve_of_lookup hr
  have hread : (read (·.canUse (some id)) : Eval Bool).run m = (.ok true, m) := by
    rw [← hadmits.usable]
    rfl
  -- what the cache has does not matter to the call
  have hcalled : { m with commands, cache, log }.Admits id params args' :=
    ⟨hadmits.usable, hadmits.arity, hadmits.shallow⟩
  obtain ⟨frame, w, hreach, hopens⟩ := hcalled.opens ⟨id, name, []⟩ procedure
    (self.body ⟨id, name, []⟩ body)
  refine ⟨frame, w, ?_, hopens.fresh, hopens.others, hopens.slots, hopens.binds, hopens.sees⟩
  rw [invoke_eq]
  refine .handle (.bind hread ?_) _
  refine .bind (hself ▸ hresolve) ?_
  rw [hcalls.executeResolved_eq]
  exact hreach

/-- An invocation of a procedure that is not admitted fails, and no frame changes. -/
theorem run_invoke_of_not_admits (hm : m.Coherent) (hr : m.lookup name = some r)
    (hcalls : r.Calls args procedure params body args') (hrefused : ¬ m.Admits id params args')
    {self : Runner} (hself : self.resolve = Eval.resolve) :
    ∃ e, ((invoke self (some id) name args).run m).1 = .error (.error e) ∧
      ((invoke self (some id) name args).run m).2.frames = m.frames := by
  by_cases hu : m.canUse (some id) = true
  · obtain ⟨commands, cache, log, hresolve⟩ := hm.run_resolve_of_lookup hr
    let t : Machine := { m with commands, cache, log }
    have hread : (read (·.canUse (some id)) : Eval Bool).run m = (.ok true, m) := by
      rw [← hu]
      rfl
    -- resolving the name does not make the call admitted
    have hnot : ¬ t.Admits id params args' := fun h => hrefused ⟨h.usable, h.arity, h.shallow⟩
    obtain ⟨e, hframe⟩ :=
      Machine.run_callFrame_of_not_admits (m := t) ⟨id, name, []⟩ hu hnot procedure
    have hcall : (executeResolved self r ⟨id, name, []⟩ args).run t = (.error (.error e), t) := by
      rw [hcalls.executeResolved_eq, callProcedure, run_bind, hframe]
    have hadmitted : (admitted self (some id) name args true).run m = (.error (.error e), t) := by
      show (self.resolve name >>= fun r => executeResolved self r ⟨id, name, []⟩ args).run m = _
      rw [hself, run_bind, hresolve]
      exact hcall
    have hrun : (invoke self (some id) name args).run m = (.error (.error e), t) := by
      rw [invoke_eq, run_handle, run_bind, hread]
      dsimp only
      rw [hadmitted]
      rfl
    rw [hrun]
    exact ⟨e, rfl, rfl⟩
  · rw [run_invoke_of_not_canUse (by simpa using hu)]
    exact ⟨_, rfl, rfl⟩

/-- A confined invocation of a procedure leaves all frames that there are alone. -/
theorem intact_invoke (h0 : m.thread ≠ 0) (hm : m.Coherent) (hr : m.lookup name = some r)
    (hcalls : r.Calls args procedure params body args') {self : Runner} (hself : self.Builds)
    (hq : Quiet (invoke self (some id) name args) m) :
    (invoke self (some id) name args).Throughout m.Intact m := by
  have hread : (read (·.canUse (some id)) : Eval Bool).Reads := fun _ => rfl
  have hstart : m.Intact m := fun _ _ => rfl
  have hreported (outcome : Except Stop Value) : (reported name outcome).Maintains m.Intact :=
    reported_induction name (P := (·.Maintains m.Intact)) (fun _ => .of_reads trivial)
      (fun _ => .of_reads trivial)
      (fun _ _ => .bind (.of_steps fun _ h => h) fun _ => .of_reads trivial) outcome
  rw [invoke_eq] at hq ⊢
  have hin : (read (·.canUse (some id)) >>= admitted self (some id) name args).Throughout
      m.Intact m := by
    refine .bind_reads hread hstart fun usable hu => ?_
    have hq := hq.of_handle.1.of_bind (Prod.ext hu (hread.run m))
    cases usable with
    | false => exact .of_reads trivial hstart
    | true =>
      have hu : m.canUse (some id) = true := Except.ok.inj hu
      obtain ⟨hd, hthread⟩ := Machine.canUse_some_iff.1 hu
      -- before the call the current frame may be any
      have ht : m.Sheltered id (fun _ => True) m :=
        ⟨rfl, ⟨_, Machine.context?_of_not_disposed hd,
          Context.stage_eq_active_iff.2 ⟨hd, hthread ▸ h0⟩, hthread, trivial⟩, hstart⟩
      obtain ⟨commands, cache, log, hresolve⟩ := hm.run_resolve_of_lookup hr
      have hresolved : (self.resolve name).Throughout (m.Sheltered id fun _ => True) m :=
        throughout_of_mild (hself.resolve ▸ mild_resolve name) ht hq.of_handle.1
      have hall : (admitted self (some id) name args true).Throughout
          (m.Sheltered id fun _ => True) m := by
        refine hresolved.bind fun r' hr' => ?_
        have hq := hq.of_bind (Prod.ext hr' rfl)
        rw [hself.resolve, hresolve] at hr'
        obtain rfl := Except.ok.inj hr'
        rw [hcalls.executeResolved_eq] at hq ⊢
        exact throughout_sheltered_callProcedure
          ((hself.body _ _).inherits (inherited_stays h0 id) rfl) (fun _ _ => trivial)
          procedure params args' hresolved.run hq
      exact hall.mono fun _ h => h.frames
  exact hin.handle (hreported _ _ hin.run)

end

/-- **The variables of callers are out of reach of a procedure.**  In every state of a session, take
any invocation that comes to a procedure, directly or as the handler of unknown names.

On a thread other than 0, if nothing below the call moves to another frame by `uplevel`, uses a
variable with `::` in front of its name, switches the thread, or frees or disposes a context, then
all frames that there were before the call are as they were, throughout the call and after it,
whatever it ends with.

If the call is admitted, its body begins in a new frame that binds exactly the parameters and
whose variables are all that is seen there; otherwise the call fails and changes no frame. -/
theorem procedure_locals_isolated {s : Setup} {path : Path Stop Machine} {m : Machine}
    (h : Session s path m) (depth : Nat) (id : ContextId) {name procedure : String}
    {args args' : List Value} {r : Resolution} {params : List String} {body : List Stmt}
    (hr : m.lookup name = some r) (hcalls : r.Calls args procedure params body args') :
    let call := invoke (Evaluation.cached depth) (some id) name args
    (m.thread ≠ 0 → Confined call m → call.Throughout m.Intact m ∧ m.Intact (call.run m).2) ∧
    (m.Admits id params args' → ∃ frame w,
      call.Reaches m ((Evaluation.cached depth).body ⟨id, name, []⟩ body) w ∧
        m.Opens id params args' frame w) ∧
    (¬ m.Admits id params args' →
      ∃ e, (call.run m).1 = .error (.error e) ∧ (call.run m).2.frames = m.frames) := by
  intro call
  have hm := h.coherent
  have hself := Runner.builds_cached depth
  refine ⟨fun h0 hconfined => ?_, fun hadmits => ?_, fun hrefused => ?_⟩
  · have hbuilt : Built (some id) call := .invocation hself (some id) name args
    have htabled : call.Throughout Machine.Tabled m :=
      hbuilt.takes.points (fun _ _ ht h => h.takes ht) h.tabled
    have hall : call.Throughout m.Intact m :=
      intact_invoke h0 hm hr hcalls hself ⟨htabled, hconfined⟩
    exact ⟨hall, hall.run⟩
  · exact reaches_invoke hm hr hcalls hadmits hself.resolve
  · exact run_invoke_of_not_admits hm hr hcalls hrefused hself.resolve

/-! ### Nested calls, and a call on the thread 0 -/

/-- Programs that reach out touch the uplevel slot or the frame that stands for the global one. -/
def keepsIn (q : (α : Type) × Eval α) : Bool :=
  firstTouch q ≠ some (.setFrame .uplevel) ∧ firstTouch q ≠ some .currentGlobal

theorem not_outreach_of_keepsIn {q : (α : Type) × Eval α} (h : keepsIn q = true) :
    ¬ Outreach q := by
  obtain ⟨hup, hglobal⟩ := of_decide_eq_true h
  intro hout
  cases hout with
  | uplevel id f => exact hup rfl
  | @qualified inv name inner hname =>
    refine hglobal ?_
    have hhome : inv.home name = inv.globalFrame >>= fun f => pure (f, inner) := by
      rw [Invocation.home, hname]
    rw [hhome]
    rfl

namespace Machine

theorem Frees.retires {m t : Machine} (h : m.Frees t) : m.Retires t := by
  cases h with
  | release => exact endures_retires.release m
  | free id shared => exact endures_retires.free m id shared
  | dispose id => exact endures_retires.retire m id
  | disposeAll => exact endures_retires.dispose m

theorem Frees.size {m t : Machine} (h : m.Frees t) : t.contexts.size = m.contexts.size := by
  cases h with
  | release => exact endures_size.release m
  | free id shared => exact endures_size.free m id shared
  | dispose id => exact endures_size.retire m id
  | disposeAll => exact endures_size.dispose m

/-- A context that is freed or disposed is owned no more. -/
theorem Frees.contexts {m t : Machine} (h : m.Frees t)
    (ht : ∀ c ∈ t.contexts.toList, c.owned = true) : t.contexts = m.contexts := by
  refine Array.ext_getElem? fun i => ?_
  show t.context? ⟨i⟩ = m.context? ⟨i⟩
  rcases hc : m.context? ⟨i⟩ with - | c
  · have hi : m.contexts.size ≤ i := by simpa [context?] using hc
    simpa [context?, h.size] using hi
  · obtain ⟨c', hc', rfl | ⟨-, d, rfl⟩⟩ := h.retires _ c hc
    · exact hc'
    · have hmem : ({ disposed := d } : ThreadContext) ∈ t.contexts.toList :=
        Array.mem_toList_iff.2 (Array.mem_of_getElem? hc')
      cases ht _ hmem

end Machine

/-- A run that keeps in, on one thread, and with all contexts owned, is confined. -/
theorem Confined.of_keepsIn {α : Type} {p : Eval α} {m : Machine} (hin : p.Every keepsIn m = true)
    (hcalm : ∀ x ∈ p.points m, x.2.thread = m.thread ∧
      ∀ c ∈ x.2.contexts.toList, c.owned = true) : Confined p m where
  inside x hx q hq := not_outreach_of_keepsIn (every_iff.1 hin x hx q hq)
  undisturbed := by
    refine List.Pairwise.isChain (List.pairwise_of_forall_mem_list fun x hx y hy => ?_)
    rintro (hthread | ⟨hfrees, hne⟩)
    · exact hthread ((hcalm y hy).1.trans (hcalm x hx).1.symm)
    · exact hne (hfrees.contexts (hcalm y hy).2)

/-- The body of a procedure that sets `x`, calls another one and returns 7. -/
def localsBody : List Stmt :=
  [.set (.value (.text "x")) (.value (.int 5)), .invoke (.value (.text "q")) [.value (.int 3)],
    .ret (.value (.int 7))]

/-- A host with a variable `x`, a procedure of two parameters of the same name, and the one it
calls. -/
def localsHost : Machine :=
  let perform (m : Machine) (call : HostCall) := (m.performBy (Evaluation.cached 4) call).2
  perform (perform (perform (.start { id := "host" }) (.invoke "set" [.text "x", .text "outer"]))
    (.defineProcedure "q" ["y"] (some [.set (.value (.text "x")) (.value (.text "inner"))])))
    (.defineProcedure "p" ["x", "x"] (some localsBody))

def localsCall : Eval Value := invoke (Evaluation.cached 4) (some ⟨0⟩) "p" [.int 1, .int 2]

/-- Both procedures set a variable `x`, and the one of the host stays.  The body begins with the
second argument in `x`. -/
theorem procedure_locals_isolated_nested :
    localsHost.thread = 1 ∧ Confined localsCall localsHost ∧
      (localsCall.run localsHost).1 = .ok (.int 7) ∧
      localsHost.Stores Machine.globalFrame ∧ localsHost.Intact (localsCall.run localsHost).2 ∧
      (localsHost.frames.get? Machine.globalFrame).bind (·.get? "x") = some (.text "outer") ∧
      ∃ frame w, localsCall.Reaches localsHost
          ((Evaluation.cached 4).body ⟨⟨0⟩, "p", []⟩ localsBody) w ∧
        localsHost.Opens ⟨0⟩ ["x", "x"] [.int 1, .int 2] frame w ∧
        ((Invocation.getVar ⟨⟨0⟩, "p", []⟩ "x").run w).1 = .ok (.int 2) := by
  have h : Session { id := "host" } [] localsHost := by
    refine .after 4 _ (.after 4 _ (.after 4 _ .start ?_) ?_) ?_
    all_goals exact fun h => by cases h
  have hin : localsCall.Every keepsIn localsHost = true := by decide +kernel
  have hcalm : ∀ x ∈ localsCall.points localsHost, x.2.thread = localsHost.thread ∧
      ∀ c ∈ x.2.contexts.toList, c.owned = true := by decide +kernel
  have hhost : localsHost.canUse (some ⟨0⟩) = true ∧
      (localsHost.context ⟨0⟩).stack = some ⟨[]⟩ ∧ localsHost.maxDepth = 1000 ∧
      (localsCall.run localsHost).1 = .ok (.int 7) ∧
      (localsHost.frames.get? Machine.globalFrame).bind (·.get? "x") = some (.text "outer") := by
    decide +kernel
  obtain ⟨husable, hstack, hdepth, hreturned, houter⟩ := hhost
  have hconfined : Confined localsCall localsHost := .of_keepsIn hin hcalm
  have hadmits : localsHost.Admits ⟨0⟩ ["x", "x"] [.int 1, .int 2] :=
    ⟨husable, rfl, _, hstack, by rw [hdepth]; decide⟩
  have hstores : localsHost.Stores Machine.globalFrame := by
    rcases hf : localsHost.frames.get? Machine.globalFrame with - | frame
    · rw [hf] at houter
      cases houter
    · exact ⟨frame, hf⟩
  have hlookup : localsHost.lookup "p" =
      some (.direct (.procedure "p" ["x", "x"] localsBody)) := rfl
  obtain ⟨hintact, hbegins, -⟩ := procedure_locals_isolated h 4 ⟨0⟩ hlookup
    (.direct "p" ["x", "x"] localsBody)
  obtain ⟨frame, w, hreach, hopens⟩ := hbegins hadmits
  refine ⟨rfl, hconfined, hreturned, hstores, (hintact (by decide) hconfined).2, houter, frame, w,
    hreach, hopens, ?_⟩
  exact (hopens.sees ⟨⟨0⟩, "p", []⟩ "x" (.int 2) rfl rfl).2 rfl

/-- The body of a procedure that invokes `set` on a saved context. -/
def leakBody : List Stmt :=
  [.host (.invokeIn (.saved "d") "set" [.text "x", .text "leak"])]

/-- A host on the thread 0, which has made two contexts there. -/
def leakHost : Machine :=
  let perform (m : Machine) (call : HostCall) := (m.performBy (Evaluation.cached 3) call).2
  [.switchThread 0, .context (some "d"), .switchThread 1, .context none, .switchThread 0,
    .context none, .defineProcedure "p" [] (some leakBody)].foldl perform (.start { id := "host" })

def leakCall : Eval Value := invoke (Evaluation.cached 3) (some ⟨2⟩) "p" []

/-- The thread 0 may use all contexts that it has made.  A confined procedure that runs on one of
them sets a variable of its caller through another one. -/
theorem locals_leak_on_thread_zero :
    Session { id := "host" } [] leakHost ∧ leakHost.thread = 0 ∧
      leakHost.lookup "p" = some (.direct (.procedure "p" [] leakBody)) ∧
      leakHost.Admits ⟨2⟩ [] [] ∧ Confined leakCall leakHost ∧
      (leakCall.run leakHost).1 = .ok .empty ∧
      (leakHost.frames.get? Machine.globalFrame).bind (·.get? "x") = none ∧
      ((leakCall.run leakHost).2.frames.get? Machine.globalFrame).bind (·.get? "x") =
        some (.text "leak") ∧
      ¬ leakHost.Intact (leakCall.run leakHost).2 := by
  have h : Session { id := "host" } [] leakHost := by
    refine .after 3 _ (.after 3 _ (.after 3 _ (.after 3 _ (.after 3 _ (.after 3 _ (.after 3 _
      .start ?_) ?_) ?_) ?_) ?_) ?_) ?_
    all_goals exact fun h => by cases h
  -- no program under way reaches out, and no step disturbs
  have hin : leakCall.Every keepsIn leakHost = true := by decide +kernel
  have hcalm : ∀ x ∈ leakCall.points leakHost, x.2.thread = leakHost.thread ∧
      ∀ c ∈ x.2.contexts.toList, c.owned = true := by decide +kernel
  have hhost : leakHost.canUse (some ⟨2⟩) = true ∧
      (leakHost.context ⟨2⟩).stack = some ⟨[]⟩ ∧ leakHost.maxDepth = 1000 ∧
      (leakHost.frames.get? Machine.globalFrame).isSome = true ∧
      (leakCall.run leakHost).1 = .ok .empty ∧
      (leakHost.frames.get? Machine.globalFrame).bind (·.get? "x") = none ∧
      ((leakCall.run leakHost).2.frames.get? Machine.globalFrame).bind (·.get? "x") =
        some (.text "leak") := by decide +kernel
  obtain ⟨husable, hstack, hdepth, hframe, hended, hbefore, hafter⟩ := hhost
  refine ⟨h, rfl, rfl, ⟨husable, rfl, _, hstack, by rw [hdepth]; decide⟩, .of_keepsIn hin hcalm,
    hended, hbefore, hafter, fun hintact => ?_⟩
  rw [hintact _ (Option.isSome_iff_exists.1 hframe), hbefore] at hafter
  cases hafter

end CommandHost
