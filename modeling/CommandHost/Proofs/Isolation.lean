/-
CommandHost/Proofs/Isolation.lean

What a thread can do to the context of another thread: nothing.

A thread works on the contexts that it may use, which are its own.  The only way left
to reach another context would be through the frames, since all contexts share one
store of them; but what is on the call stack of a context is out of reach of the
others (`CommandHost.Proofs.Separation`).

So a context `k` that belongs to another thread is followed through a program that
runs on other contexts (`Shuns`).  It does not matter how the program was reached: it
may well be that an evaluation on `k` is under way and has switched the thread.  It
matters that the program itself does not switch the thread and does not free or
dispose anything by hand; these are the steps that are no one's (`Unruly`).
-/
import CommandHost.Proofs.Separation
import CommandHost.Proofs.ThreadTable

namespace CommandHost

open Program Eval Dispatch

/-! ### Releasing -/

/-- Freeing a stack leaves the frames alone that are not on it. -/
theorem Frames.get?_freeStack {frames : Frames} {stack : CallStack} {f : FrameId}
    (hf : f ∉ stack.frames) (shared : Bool) :
    (frames.freeStack stack shared).get? f = frames.get? f := by
  unfold freeStack
  generalize stack.frames = ids at hf
  induction ids generalizing frames with
  | nil => rfl
  | cons id ids ih =>
    rw [List.foldl_cons, ih fun h => hf (List.mem_cons_of_mem _ h), get?_modify, if_neg]
    rintro rfl
    exact hf List.mem_cons_self

/-- Releasing leaves a frame alone that is not released. -/
theorem Frames.get?_release {held : List (Held CallStack FrameId)} {f : FrameId}
    (hstack : ∀ s, .stack s ∈ held → f ∉ s.frames) (hframe : .frame f ∉ held) (shared : Bool)
    (frames : Frames) :
    (held.foldl (Machine.releaseHeld shared) frames).get? f = frames.get? f := by
  induction held generalizing frames with
  | nil => rfl
  | cons x xs ih =>
    rw [List.foldl_cons, ih (fun s hs => hstack s (List.mem_cons_of_mem _ hs))
      fun h => hframe (List.mem_cons_of_mem _ h)]
    cases x with
    | stack s => exact get?_freeStack (hstack s List.mem_cons_self) shared
    | frame g =>
      show (frames.modify g (·.free shared)).get? f = frames.get? f
      rw [get?_modify, if_neg]
      rintro rfl
      exact hframe List.mem_cons_self

namespace Machine

variable {k id : ContextId} {m t u : Machine} {f : FrameId}

/-- A context that lets go of what it holds leaves the call stacks of others alone. -/
theorem Separate.get?_released (h : m.Separate) (hid : id ≠ k) (hf : m.Stacks k f)
    (held : List (Held CallStack FrameId)) (hh : held = [] ∨ held = (m.context id).held)
    (shared : Bool) : (held.foldl (releaseHeld shared) m.frames).get? f = m.frames.get? f := by
  rcases hh with rfl | rfl
  · rfl
  rcases hc : m.context? id with - | c
  · -- a context that is not there holds nothing
    have hmissing : m.context id = { disposed := true } := by simp [context, hc]
    rw [hmissing]
    rfl
  rw [context_of_some hc]
  -- what one context may use is on no other stack
  have hgrants (hg : m.Grants id f) : False := hid (hg.others k hf).symm
  refine Frames.get?_release (fun s hs hfs => hgrants (h.stack ⟨c, s, hc, ?_, hfs⟩))
    (fun hheld => ?_) shared m.frames
  · simpa [Context.held] using hs
  · obtain ⟨slot, -, hslot⟩ : ∃ slot ∈ Slot.all, c.frame slot = some f := by
      simpa [Context.held] using hheld
    exact hgrants (h.slot ⟨c, slot, hc, hslot⟩)

/-- So does a context that is freed. -/
theorem Separate.get?_freeContext (h : m.Separate) (hid : id ≠ k) (hf : m.Stacks k f)
    (shared : Bool) : (m.freeContext id shared).frames.get? f = m.frames.get? f := by
  refine h.get?_released hid hf (m.context id).free.1 ?_ shared
  unfold Context.free
  split
  · exact .inl rfl
  · exact .inr rfl

theorem Separate.get?_disposeContext (h : m.Separate) (hid : id ≠ k) (hf : m.Stacks k f) :
    (m.disposeContext id).frames.get? f = m.frames.get? f := by
  refine h.get?_released hid hf (m.context id).dispose.1 ?_ true
  unfold Context.dispose
  split
  · exact .inl rfl
  · exact .inr rfl

/-- Releasing a thread leaves the call stacks of other contexts alone. -/
theorem Separate.get?_release (h : m.Separate) (hid : m.byThread.get? m.thread ≠ some k)
    (hf : m.Stacks k f) : m.release.2.frames.get? f = m.frames.get? f := by
  rcases hk : m.byThread.get? m.thread with - | id
  · rw [release_of_none hk]
  have hne : id ≠ k := by
    rintro rfl
    exact hid hk
  let t := m.unlist id
  -- taking the context out of the table changes no frames and no stacks
  have ht : t.Separate :=
    (h.follows (t := t) ⟨fun h => h, fun _ h => h⟩ .inl .inl .inl).separate
  have hu : (t.freeContext id false).Separate :=
    (Drifts.follows ⟨.freeContext id false, not_false, rfl⟩ rfl ht).separate
  -- the stack of the other context is the same after the freeing
  have hfu : (t.freeContext id false).Stacks k f := by
    obtain ⟨c, s, hc, hs, hf⟩ := hf
    refine ⟨c, s, ?_, hs, hf⟩
    rw [t.context?_freeContext id false k, if_neg hne.symm]
    exact hc
  obtain ⟨log, e⟩ := release_of_some hk
  rw [e]
  exact (hu.get?_disposeContext hne hfu).trans (ht.get?_freeContext hne hf false)

/-! ### Contexts of other threads -/

/-- The context, and the frames on its call stack, are what they were. -/
structure Untouched (k : ContextId) (m t : Machine) : Prop where
  context : t.context? k = m.context? k
  frames : ∀ f, m.Stacks k f → t.frames.get? f = m.frames.get? f

/-- The context belongs to another thread than the current one. -/
structure Foreign (m : Machine) (k : ContextId) : Prop where
  separate : m.Separate
  other : ∃ c, m.context? k = some c ∧ c.thread ≠ m.thread
  table : m.byThread.get? m.thread ≠ some k

/-- The context is what it was, and belongs to another thread still. -/
structure Aloof (k : ContextId) (m t : Machine) : Prop where
  untouched : m.Untouched k t
  thread : t.thread = m.thread
  table : t.byThread.get? t.thread ≠ some k
  stores : ∀ f, m.Stores f → t.Stores f

theorem Foreign.aloof (h : m.Foreign k) : m.Aloof k m :=
  ⟨⟨rfl, fun _ _ => rfl⟩, rfl, h.table, fun _ hf => hf⟩

namespace Aloof

/-- The call stack has the same frames. -/
theorem onStack (h : m.Aloof k t) (hf : m.Stacks k f) : t.Stacks k f := by
  obtain ⟨c, s, hc, hs, hf⟩ := hf
  exact ⟨c, s, h.untouched.context.trans hc, hs, hf⟩

/-- A frame that is granted to another context is not on the call stack. -/
theorem not_stacks (h : m.Aloof k t) (hid : id ≠ k) (hg : t.Grants id f) : ¬ m.Stacks k f :=
  fun hf => hid (hg.others k (h.onStack hf)).symm

/-- What one step has to leave alone. -/
theorem step (h : m.Aloof k t) (hcontext : u.context? k = t.context? k)
    (hframes : ∀ f, m.Stacks k f → u.frames.get? f = t.frames.get? f)
    (hthread : u.thread = t.thread) (htable : u.byThread.get? u.thread ≠ some k)
    (hstores : ∀ f, t.Stores f → u.Stores f) : m.Aloof k u where
  untouched := ⟨hcontext.trans h.untouched.context, fun f hf =>
    (hframes f hf).trans (h.untouched.frames f hf)⟩
  thread := hthread.trans h.thread
  table := htable
  stores f hf := hstores f (h.stores f hf)

/-- Steps that touch no context, no frame and not the thread. -/
theorem of_same (h : m.Aloof k t) (hcontext : u.context? k = t.context? k)
    (hframes : u.frames = t.frames) (hthread : u.thread = t.thread)
    (htable : u.byThread = t.byThread) : m.Aloof k u := by
  refine h.step hcontext (fun f _ => by rw [hframes]) hthread ?_ fun f hf => ?_
  · rw [htable, hthread]
    exact h.table
  · rw [Stores, hframes]
    exact hf

/-- Changing a frame that is not on the call stack. -/
theorem modifyFrame (h : m.Aloof k t) (hf : ¬ m.Stacks k f) (change : Frame → Frame) :
    m.Aloof k { t with frames := t.frames.modify f change } := by
  refine h.step rfl (fun g hg => ?_) rfl h.table fun g hg => stores_modify change hg
  show (t.frames.modify f change).get? g = _
  rw [Frames.get?_modify, if_neg]
  rintro rfl
  exact hf hg

/-- A new frame is on no call stack. -/
theorem newFrame (h : m.Aloof k t) (hm : m.Foreign k) (frame : Frame) :
    m.Aloof k (t.after (.newFrame frame)) := by
  refine h.step rfl (fun g hg => ?_) rfl h.table fun g hg => stores_newFrame.2 (.inl hg)
  have hstores : t.Stores g := h.stores g (hm.separate.stack hg).stores
  show (t.frames.alloc frame).2.get? g = _
  rw [Frames.get?_alloc, if_neg]
  rintro rfl
  exact t.not_stores_nextFrame hstores

/-- The current thread gets its own context, or a new one. -/
theorem acquire (h : m.Aloof k t) (hm : m.Foreign k) (create : Bool) :
    m.Aloof k (t.acquire create).2 := by
  obtain ⟨c, hc, -⟩ := hm.other
  have hc : t.context? k = some c := h.untouched.context.trans hc
  have hcontext := (context?_acquire hc create).trans hc.symm
  have hk : k ≠ ⟨t.contexts.size⟩ := by
    rintro rfl
    simp [context?] at hc
  revert hcontext
  unfold Machine.acquire
  split
  · split <;> exact fun _ => h
  · split
    · exact fun hcontext => h.of_same hcontext rfl rfl rfl
    · split
      · -- the new context is another one
        refine fun hcontext => h.step hcontext (fun _ _ => rfl) rfl ?_ fun _ hf => hf
        show (t.byThread.insert t.thread ⟨t.contexts.size⟩).get? t.thread ≠ some k
        rw [Table.get?_insert, if_pos rfl]
        exact fun hnew => hk (Option.some.inj hnew).symm
      · exact fun _ => h

/-- A released thread lets go of its own context. -/
theorem release (h : m.Aloof k t) (ht : t.Separate) : m.Aloof k t.release.2 := by
  rcases hid : t.byThread.get? t.thread with - | id
  · rwa [release_of_none hid]
  obtain ⟨htable, hthread, -⟩ := shared_release hid
  refine h.step (context?_release h.table) (fun f hf => ht.get?_release h.table (h.onStack hf))
    hthread ?_ fun f hf => Keeps.stores (endures_keeps.release t) hf
  rw [htable, Table.get?_erase, if_pos hthread]
  nofun

/-- All steps that belong to no context in particular. -/
theorem mild (h : m.Aloof k t) (hm : m.Foreign k) (ht : t.Separate) (hu : t.Mild u) :
    m.Aloof k u := by
  cases hu with
  | channels | saved => exact h.of_same rfl rfl rfl rfl
  | onTable ha =>
    obtain ⟨commands, cache, log, e⟩ := ha.after t
    rw [e]
    exact h.of_same rfl rfl rfl rfl
  | acquire create => exact h.acquire hm create
  | release => exact h.release ht

theorem assigns (h : m.Aloof k t) (hf : ¬ m.Stacks k f) (hu : t.Assigns f u) : m.Aloof k u := by
  rcases hu with rfl | ⟨vars, rfl⟩
  · exact h
  · exact h.modifyFrame hf _

/-- Brackets on other contexts. -/
theorem shifts {b : Bracket} (h : m.Aloof k t) (hb : b.context ≠ k)
    (hframe : ∀ f, b.frame = some f → ¬ m.Stacks k f) (hu : t.Shifts b u) : m.Aloof k u := by
  cases hu with
  | rest => exact h
  | @setSlot slot f =>
    have hk := t.context?_setContext_apply b.context k (·.setFrame slot f)
    rw [if_neg hb.symm] at hk
    exact h.of_same hk rfl rfl rfl
  | mapStack g =>
    have hk := t.context?_setContext_apply b.context k fun c => { c with stack := c.stack.map g }
    rw [if_neg hb.symm] at hk
    exact h.of_same hk rfl rfl rfl
  | disposeFrame hf => exact h.modifyFrame (hframe _ hf) _

end Aloof

end Machine

/-! ### Programs -/

/-- Programs that leave a context alone, if they run on separate machines and take no unruly
steps. -/
def Shuns (k : ContextId) (m : Machine) {α : Type} (p : Eval α) : Prop :=
  ∀ t, m.Aloof k t → p.Throughout Machine.Separate t → p.Spares Unruly t →
    p.Throughout (m.Aloof k) t

namespace Shuns

variable {k : ContextId} {m : Machine} {α β : Type}

/-- One program after another. -/
theorem handle {p : Eval β} {q : Except Stop β → Eval α} (hp : Shuns k m p)
    (hq : ∀ r, Shuns k m (q r)) : Shuns k m (handle p q) := by
  intro t ht hsep hspares
  obtain ⟨hsep, hsep'⟩ := hsep.of_handle
  have h := hp t ht hsep hspares.1
  exact h.handle (hq _ _ h.run hsep' hspares.2)

/-- Programs of which each step leaves the context alone. -/
theorem of_steps {p : Eval α}
    (h : p.Steps fun t u => t.Separate → m.Aloof k t → m.Aloof k u) : Shuns k m p := by
  induction p with
  | done a | stop e => exact fun t ht _ _ => .of_reads trivial ht
  | act f => exact fun t ht hsep _ => along_act (fun h _ => h) ht (h t hsep.start ht)
  | handle p q ihp ihq => exact handle (ihp h.1) fun r => ihq r (h.2 r)

theorem of_reads {p : Eval α} (h : p.Reads) : Shuns k m p :=
  fun _ ht _ _ => .of_reads h ht

/-- A program that goes on with what it found. -/
theorem bind_run {p : Eval β} {q : β → Eval α} (hp : Shuns k m p)
    (hq : ∀ b t, m.Aloof k t → t.Separate → (p.run t).1 = .ok b → Shuns k m (q b)) :
    Shuns k m (p >>= q) := by
  intro t ht hsep hspares
  obtain ⟨hsep, hsep'⟩ := hsep.of_bind
  obtain ⟨hspares, hspares'⟩ := hspares.of_bind
  have h := hp t ht hsep hspares
  exact h.bind fun b hb => hq b t ht hsep.start hb _ h.run (hsep' b hb) (hspares' b hb)

theorem bind {p : Eval β} {q : β → Eval α} (hp : Shuns k m p) (hq : ∀ b, Shuns k m (q b)) :
    Shuns k m (p >>= q) :=
  bind_run hp fun b _ _ _ _ => hq b

/-- Brackets on other contexts, with what runs in them. -/
theorem carries {b : Bracket} (hb : b.context ≠ k)
    (hframe : ∀ f, b.frame = some f → ¬ m.Stacks k f) : Carries b (fun p => Shuns k m p) where
  shifts h := of_steps (h.mono fun _ _ hu _ ht => ht.shifts hb hframe hu)
  handle hp hq _ := hp.handle hq

end Shuns

/-- A frame that is required is there if the program goes on. -/
theorem eq_some_of_required {m : Machine} {o : Option FrameId} {f : FrameId}
    (h : ((Invocation.required o).run m).1 = .ok f) : o = some f := by
  cases o with
  | none => cases h
  | some g => exact congrArg some (Except.ok.inj h)

/-- A variable without `::` in front of its name lives in the current frame. -/
theorem current_of_home {inv : Invocation} {name : String} (hname : globalName? name = none)
    {m : Machine} {home : FrameId × String} (h : ((inv.home name).run m).1 = .ok home) :
    ∃ c, m.context? inv.context = some c ∧ c.current = some home.1 := by
  have hcurrent : (readFrame inv.context .current).Reads := reads_readContext _ _
  rw [Invocation.home, hname] at h
  obtain ⟨f, hf, e⟩ := (reads_frame inv).of_bind_ok h
  rw [e] at h
  obtain rfl : f = home.1 := congrArg Prod.fst (Except.ok.inj h)
  obtain ⟨o, ho, e⟩ := hcurrent.of_bind_ok hf
  rw [Invocation.frame, e] at hf
  obtain ⟨c, hc, rfl⟩ := exists_of_readFrame ho
  exact ⟨c, hc, eq_some_of_required hf⟩

/-- What a variable lives in is in a slot of the context. -/
theorem slots_of_home {inv : Invocation} {name : String} {m : Machine} {home : FrameId × String}
    (h : ((inv.home name).run m).1 = .ok home) : m.Slots inv.context home.1 := by
  rcases hname : globalName? name with - | inner
  · obtain ⟨c, hc, hcurrent⟩ := current_of_home hname h
    exact ⟨c, .current, hc, hcurrent⟩
  · have hglobal : (readCurrentGlobal inv.context).Reads := reads_readContext _ _
    have hreads : inv.globalFrame.Reads := .bind hglobal fun o => by cases o <;> trivial
    rw [Invocation.home, hname] at h
    obtain ⟨f, hf, e⟩ := hreads.of_bind_ok h
    rw [e] at h
    obtain rfl : f = home.1 := congrArg Prod.fst (Except.ok.inj h)
    obtain ⟨o, ho, e⟩ := hglobal.of_bind_ok hf
    rw [Invocation.globalFrame, e] at hf
    obtain ⟨c, hc, rfl⟩ := exists_of_readContext ho
    exact slots_of_currentGlobal hc (eq_some_of_required hf)

/-- Programs that run on other contexts leave a context of another thread alone. -/
theorem inherited_shuns {k : ContextId} {m : Machine} (hm : m.Foreign k) :
    Inherited fun on p => on ≠ some k → Shuns k m p where
  mild h _ := .of_steps (h.mono fun _ _ hu ht hk => hk.mild hm ht hu)
  unruly h _ := fun _ _ _ hspares => absurd h hspares
  assign inv name f h hon := by
    have hid : inv.context ≠ k := fun h => hon (congrArg some h)
    refine .bind_run (.of_reads (reads_home inv name)) fun home t ht hsep hhome => ?_
    -- the frame is in a slot of the context that the program runs on
    have hf : ¬ m.Stacks k home.1 := ht.not_stacks hid (hsep.slot (slots_of_home hhome))
    exact .of_steps (p := act (f home)) fun t _ ht => ht.assigns hf (h home t)
  makeScope _ _ _ _ _ := .bind (.of_steps fun _ _ ht => ht.newFrame hm _) fun _ =>
    .bind (.of_steps fun _ _ ht => ht.of_same rfl rfl rfl rfl) fun _ => .of_steps trivial
  handle hp hq hon := .handle (hp hon) fun r => hq r hon
  uplevel inv level hp hon :=
    (Shuns.carries (b := .moving inv.context) (fun h => hon (congrArg some h)) nofun).uplevel
      level (hp hon)
  inScope inv scope hp hon := .bind (.of_reads fun _ => rfl) fun f =>
    (Shuns.carries (b := .scoping inv.context) (fun h => hon (congrArg some h)) nofun).inScope f
      (hp hon)
  call inv name params args hp hon := by
    have hid : inv.context ≠ k := fun h => hon (congrArg some h)
    have hframe : Shuns k m (callFrame inv name params args) := by
      refine .of_steps ((steps_callFrame inv name params args).mono fun t u hu _ ht => ?_)
      rcases hu with rfl | ⟨f, rfl⟩
      · exact ht
      · exact ht.newFrame hm f
    refine .bind_run hframe fun frame t ht hsep hf => ?_
    -- the frame of the call is new, so it is not on the call stack
    obtain ⟨s, f, -, -, -, rfl, -⟩ := run_callFrame hf
    have hnew : ¬ m.Stacks k t.nextFrame := fun hf =>
      t.not_stores_nextFrame (hsep.stack (ht.onStack hf)).stores
    have hcarries := Shuns.carries (b := .calling inv.context t.nextFrame) hid
      fun _ hf => Option.some.inj hf ▸ hnew
    exact hcarries.takeReturn (hcarries.inCall (hp hon))
  enter {_ context _} htrue hfalse hon := by
    refine .bind_run (.of_reads fun _ => rfl) fun usable t ht _ hu => ?_
    cases usable with
    | false => exact hfalse hon
    | true =>
      -- the current thread may not use the context of another one
      refine htrue fun hk => ?_
      obtain rfl := Option.some.inj hk
      obtain ⟨c, hc, hother⟩ := hm.other
      have husable : t.canUse (some context) = true := Except.ok.inj hu
      have hct : t.context? context = some c := ht.untouched.context.trans hc
      rw [Machine.canUse, Option.map_some, Machine.context_of_some hct, ht.thread] at husable
      simp [canUse, Affinity.canUse, Context.affinity, hother] at husable

/-! ### Sessions -/

/-- Contexts that belong to a thread are not disposed. -/
theorem Session.not_disposed {s : Setup} {path : Path Stop Machine} {m : Machine}
    (h : Session s path m) {id : ContextId} {c : ThreadContext} (hc : m.context? id = some c)
    (hthread : c.thread ≠ 0) : c.disposed = false := by
  let Owned (m : Machine) : Prop :=
    ∀ id c, m.context? id = some c → c.thread ≠ 0 → c.disposed = false
  suffices hm : Owned m from hm id c hc hthread
  refine h.invariant_of (P := Owned) Built.takes_perform Machine.takes_silent ?_ ?_
  · intro id c hc
    simp [Machine.context?, Machine.start, Machine.loggedHere, Machine.logged] at hc
  · intro m t ht hm id c' hc' hthread
    rcases hc : m.context? id with - | c
    · rw [ht.eq_fresh hc hc']
      rfl
    · obtain ⟨c'', hc'', hr⟩ := ht.context? hc
      obtain rfl := Option.some.inj (hc'.symm.trans hc'')
      rcases hr with (rfl | ⟨-, d, rfl⟩) | ⟨slot, f, -, -, rfl⟩ | ⟨f, rfl⟩
      · exact hm id _ hc hthread
      · -- a context that is let go belongs to no thread
        exact absurd rfl hthread
      · have hset : (c.setFrame slot f).disposed = c.disposed ∧
            (c.setFrame slot f).thread = c.thread := by cases slot <;> exact ⟨rfl, rfl⟩
        rw [hset.1]
        exact hm id c hc (hset.2 ▸ hthread)
      · exact hm id c hc hthread

/-- A context of another thread is out of reach throughout a session. -/
theorem Session.foreign {s : Setup} {path : Path Stop Machine} {m : Machine}
    (h : Session s path m) {k : ContextId} {c : ThreadContext} (hc : m.context? k = some c)
    (ha : c.stage = .active) (hother : c.thread ≠ m.thread) : m.Foreign k where
  separate := h.separate
  other := ⟨c, hc, hother⟩
  table htable := hother (h.tabled.injective (h.tabled.active hc ha) htable)

/-- To invoke a command on a context that the current thread may not use changes nothing. -/
theorem run_invokeIn_of_not_canUse {m : Machine} {id : ContextId} (hd : m.disposed = false)
    (hu : m.canUse (some id) = false) (self : Runner) (name : String) (args : List Value) :
    (invokeIn self (some id) name args).run m = (.error (.error (.misuse .wrongThread)), m) := by
  rw [invokeIn, run_bind]
  show (if m.disposed then _ else _ : Eval Value).run m = _
  rw [hd]
  show (topLevel (invoke self (some id) name args)).run m = _
  rw [topLevel, run_handle, run_invoke_of_not_canUse hu]
  rfl

/-- **Thread isolation**: in every state of a session, also in the middle of an evaluation, a call
that is made on one thread leaves the contexts of all other threads as they are, with the frames on
their call stacks, at every moment of the call and after it.  The call must not itself switch the
thread, free or dispose contexts, or dispose the interpreter.  To invoke a command on the context of
another thread is refused, and changes nothing. -/
theorem foreign_context_untouched {s : Setup} {path : Path Stop Machine} {m : Machine}
    (h : Session s path m) {k : ContextId} {c : ThreadContext} (hc : m.context? k = some c)
    (hthread : c.thread ≠ 0) (hother : c.thread ≠ m.thread) :
    (∀ depth running call,
      (Host.perform (Evaluation.cached depth) running call).Spares Unruly m →
      (Host.perform (Evaluation.cached depth) running call).Throughout (m.Untouched k) m ∧
        m.Untouched k ((Host.perform (Evaluation.cached depth) running call).run m).2) ∧
    ∀ self name args, (invokeIn self (some k) name args).run m =
      (.error (.error (.misuse .wrongThread)), m) := by
  -- a context that belongs to a thread is active
  have hd : c.disposed = false := h.not_disposed hc hthread
  have ha : c.stage = .active := Context.stage_eq_active_iff.2 ⟨hd, hthread⟩
  have hforeign := h.foreign hc ha hother
  refine ⟨fun depth running call hspares => ?_, fun self name args => ?_⟩
  · have hbuilt : Built none (Host.perform (Evaluation.cached depth) running call) :=
      .perform (Runner.builds_cached depth) running call
    have hseparate : (Host.perform (Evaluation.cached depth) running call).Throughout
        Machine.Separate m :=
      (hbuilt.separates m m hforeign.separate.refl).mono fun _ => (·.separate)
    have hall := hbuilt.inherits (inherited_shuns hforeign) nofun m hforeign.aloof hseparate hspares
    exact ⟨hall.mono fun _ => (·.untouched), hall.run.untouched⟩
  · -- a disposed interpreter has no active contexts
    have hopen : m.disposed = false := by
      by_contra hdis
      exact h.tabled.closed (by simpa using hdis) hc ha
    have husable : m.canUse (some k) = false := by
      rw [Machine.canUse, Option.map_some, Machine.context_of_some hc]
      simp [canUse, Affinity.canUse, Context.affinity, hother]
    exact run_invokeIn_of_not_canUse hopen husable self name args

/-! ### A call while another thread's procedure runs -/

/-- The thread is the same, and so are all contexts that there were. -/
structure Machine.Calm (m t : Machine) : Prop where
  thread : t.thread = m.thread
  disposed : t.disposed = m.disposed
  contexts : ∀ id c, m.context? id = some c → t.context? id = some c

theorem Machine.Calm.refl (m : Machine) : m.Calm m := ⟨rfl, rfl, fun _ _ hc => hc⟩

theorem Machine.calm_acquire (m : Machine) (create : Bool) : m.Calm (m.acquire create).2 := by
  obtain ⟨_, _, _, _, _, e, -⟩ := m.acquire_snd create
  exact ⟨by rw [e], by rw [e], fun _ _ hc => context?_acquire hc create⟩

/-- Steps that are calm everywhere are not unruly. -/
theorem not_unruly_of_calm {α : Type} {f : Machine → Except Stop α × Machine}
    (hf : ∀ m : Machine, m.Calm (f m).2) : ¬ Unruly f := by
  let start := Machine.start { id := "" }
  -- a machine on which freeing or disposing the context shows
  let c : ThreadContext := { thread := 1 }
  let busy (id : ContextId) : Machine :=
    { start with contexts := Array.replicate (id.index + 1) c }
  have hbusy (id : ContextId) : (busy id).context? id = some c := by
    simp [Machine.context?, busy]
  intro h
  cases h with
  | switchThread id h =>
    have hthread := (hf { start with thread := id + 1 }).thread
    rw [h] at hthread
    have hne (i : Int) : i ≠ i + 1 := by omega
    exact hne id hthread
  | freeContext id shared h =>
    have hc := (hf (busy id)).contexts id c (hbusy id)
    rw [h, Machine.context?_freeContext, if_pos rfl, hbusy] at hc
    -- a freed context belongs to no thread
    have hthread : (0 : ThreadId) = 1 := congrArg (·.thread) (Option.some.inj hc)
    exact absurd hthread (by decide)
  | disposeContext id h =>
    have hc := (hf (busy id)).contexts id c (hbusy id)
    rw [h, Machine.context?_disposeContext, if_pos rfl, hbusy] at hc
    have hthread : (0 : ThreadId) = 1 := congrArg (·.thread) (Option.some.inj hc)
    exact absurd hthread (by decide)
  | dispose h =>
    have hdisposed := (hf start).disposed
    rw [h] at hdisposed
    exact absurd hdisposed (by decide +kernel)

/-- So programs whose steps are calm take no unruly ones. -/
theorem spares_of_calm {α : Type} {p : Eval α} (h : p.Steps Machine.Calm) (m : Machine) :
    p.Spares Unruly m := by
  induction p generalizing m with
  | done a | stop e => trivial
  | act f => exact not_unruly_of_calm h
  | handle p k ihp ihk => exact ⟨ihp h.1 m, ihk _ (h.2 _) _⟩

theorem spares_of_reads {α : Type} {p : Eval α} (h : p.Reads) (m : Machine) :
    p.Spares Unruly m := by
  refine spares_of_calm (Steps.mono (fun m t ht => ?_) h) m
  subst ht
  exact .refl _

theorem calm_context : Eval.context.Steps Machine.Calm := by
  refine steps_ofChange fun m => ?_
  split
  · exact .refl m
  · exact m.calm_acquire true

/-- Assigning a variable touches frames only. -/
theorem calm_setVar (inv : Invocation) (name : String) (v : Value) :
    (inv.setVar name v).Steps Machine.Calm := by
  refine .bind (Steps.mono (fun m t ht => ?_) (reads_home inv name)) fun home m => ?_
  · subst ht
    exact .refl _
  · exact ⟨rfl, rfl, fun _ _ hc => hc⟩

theorem calm_resolve (name : String) : (Eval.resolve name).Steps Machine.Calm := by
  intro m
  obtain ⟨commands, cache, log, e⟩ := Action.OnTable.after (a := .resolve name) trivial m
  have h : m.Calm (m.resolve name).2 := by
    show m.Calm (m.after (.resolve name))
    rw [e]
    exact ⟨rfl, rfl, fun _ _ hc => hc⟩
  revert h
  dsimp only
  split <;> simp_all

/-- Whether a name was resolved to the command that sets variables. -/
def Resolution.sets : Except Stop Resolution → Bool
  | .ok (.direct (.builtin .set)) => true
  | _ => false

/-- Setting a variable takes no unruly step. -/
theorem spares_set {self : Runner} (hself : self.resolve = Eval.resolve)
    (running : Option ContextId) {m : Machine} (var v : Value)
    (hset : Resolution.sets ((Eval.resolve "set").run (Eval.context.run m).2).1 = true) :
    (Host.perform self running (.invoke "set" [var, v])).Spares Unruly m := by
  -- the command that runs is the one that sets variables
  have hexecute (inv : Invocation) {r : Resolution} (hr : Resolution.sets (.ok r) = true)
      (t : Machine) : (executeResolved self r inv [var, v]).Spares Unruly t := by
    unfold Resolution.sets at hr
    split at hr
    · rename_i e
      obtain rfl := Except.ok.inj e
      have hrun : (Builtin.set.run inv [var, v]).Steps Machine.Calm :=
        .bind (calm_setVar inv _ v) fun _ => trivial
      exact spares_of_calm hrun t
    · cases hr
  refine .bind (.bind (spares_of_calm calm_context m) fun id _ => ⟨?_, ?_⟩) fun _ _ => trivial
  · rw [invoke_eq]
    have hread : (read (·.canUse (some id)) : Eval Bool).Reads := fun _ => rfl
    refine ⟨.bind (spares_of_reads hread _) fun usable _ => ?_, spares_of_calm ?_ _⟩
    · cases usable with
      | false => trivial
      | true =>
        refine .bind (hself ▸ spares_of_calm (calm_resolve "set") _) fun r hr => hexecute _ ?_ _
        rw [← hr, hself]
        exact hset
    · exact reported_induction "set" (P := (·.Steps Machine.Calm)) (fun _ => trivial)
        (fun _ => trivial)
        (fun _ _ => .bind (fun _ => ⟨rfl, rfl, fun _ _ hc => hc⟩) fun _ => trivial) _
  · generalize (((invoke self (some id) "set" [var, v]).run _).1) = r
    rcases r with (e | a | -) | w
    · dsimp only
      split <;> trivial
    · trivial
    · trivial
    · trivial

/-- A procedure runs on the context of the first thread, and switches to the second. -/
def suspendedCall : List (Path Stop Machine × Machine) :=
  (Machine.start { id := "host" }).history [
    (2, .defineProcedure "p" ["v"] (some [.host (.switchThread 2)])), (2, .invoke "p" [.int 7])]

/-- The second thread sets a variable of the same name as the parameter. -/
def setByOther : Eval Reply :=
  Host.perform (Evaluation.cached 2) (some ⟨0⟩) (.invoke "set" [.text "v", .text "other"])

/-- While the procedure runs, the second thread sets its own variable, and not the one of the
procedure. -/
theorem foreign_context_untouched_suspended :
    ∃ x ∈ suspendedCall, ∃ c, x.2.context? ⟨0⟩ = some c ∧ c.thread = 1 ∧ x.2.thread = 2 ∧
      x.2.Stacks ⟨0⟩ ⟨1⟩ ∧ (x.2.frames.get? ⟨1⟩).bind (·.get? "v") = some (.int 7) ∧
      (setByOther.run x.2).2.context? ⟨0⟩ = some c ∧
      ((setByOther.run x.2).2.frames.get? ⟨1⟩).bind (·.get? "v") = some (.int 7) ∧
      ((setByOther.run x.2).2.frames.get? Machine.globalFrame).bind (·.get? "v") =
        some (.text "other") ∧
      (invokeIn (Evaluation.cached 2) (some ⟨0⟩) "p" [.int 8]).run x.2 =
        (.error (.error (.misuse .wrongThread)), x.2) := by
  obtain ⟨x, hmem, hthread, hc, howner, hstack, hv, hother, hset⟩ : ∃ x ∈ suspendedCall,
      x.2.thread = 2 ∧ x.2.context? ⟨0⟩ = some (x.2.context ⟨0⟩) ∧
      (x.2.context ⟨0⟩).thread = 1 ∧ (x.2.context ⟨0⟩).stack = some ⟨[⟨1⟩]⟩ ∧
      (x.2.frames.get? ⟨1⟩).bind (·.get? "v") = some (.int 7) ∧
      ((setByOther.run x.2).2.frames.get? Machine.globalFrame).bind (·.get? "v") =
        some (.text "other") ∧
      Resolution.sets ((Eval.resolve "set").run (Eval.context.run x.2).2).1 = true := by
    decide +kernel
  have hstacks : x.2.Stacks ⟨0⟩ ⟨1⟩ := ⟨_, _, hc, hstack, List.mem_singleton_self _⟩
  obtain ⟨huntouched, hrefused⟩ := foreign_context_untouched
    (Machine.session_of_mem_history .start hmem) hc (by rw [howner]; decide)
    (by rw [howner, hthread]; decide)
  obtain ⟨-, hcontext, hframes⟩ := huntouched 2 (some ⟨0⟩) _
    (spares_set (Runner.builds_cached 2).resolve _ (.text "v") (.text "other") hset)
  refine ⟨x, hmem, _, hc, howner, hthread, hstacks, hv, hcontext.trans hc, ?_, hother,
    hrefused _ _ _⟩
  -- the parameter is in the frame on the call stack, so it is what it was
  rw [← hv]
  exact congrArg (·.bind (·.get? "v")) (hframes _ hstacks)

end CommandHost
