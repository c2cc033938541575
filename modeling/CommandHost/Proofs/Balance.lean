/-
CommandHost/Proofs/Balance.lean

Evaluations are balanced.

Procedure calls, `uplevel` and scopes move a context between frames, and bodies
nest them in any way and call back into the interpreter from inside.  Yet when a
call is over, every context that is still active is exactly what it was when the
call began, whatever the outcome was; and a context that was made on the way and is
active is idle.  `Balanced m t` says this of the machines before and after.

Actions that do not move frames are balanced by themselves.  A bracket is balanced
if the program inside is: opening rewrites one context (`Rewriting`), the program
brings that context back as it was after opening, and restoring undoes what opening
did.  If the context was detached or disposed on the way it is not active any more,
and restoring does not bring it back to life.
-/
import CommandHost.Proofs.Session

namespace CommandHost

open Program Eval Dispatch

/-! ### The contexts of a machine -/

namespace Machine

theorem context_of_some {m : Machine} {id : ContextId} {c : ThreadContext}
    (h : m.context? id = some c) : m.context id = c := by
  simp [context, h]

/-- A context is replaced in place; where there is none, none is put. -/
theorem context?_setContext (m : Machine) (id k : ContextId) (c : ThreadContext) :
    (m.setContext id c).context? k = if k = id then (m.context? k).map fun _ => c
      else m.context? k := by
  obtain ⟨i⟩ := id
  obtain ⟨n⟩ := k
  simp only [setContext, context?, ContextId.mk.injEq, Array.getElem?_modify]
  by_cases h : i = n
  · simp [h]
  · simp [h, Ne.symm h]

/-- A context is changed to what a function makes of it. -/
theorem setContext_setContext (m : Machine) (id : ContextId) (c c' : ThreadContext) :
    (m.setContext id c).setContext id c' = m.setContext id c' := by
  have hcontexts : (m.contexts.modify id.index fun _ => c).modify id.index (fun _ => c') =
      m.contexts.modify id.index fun _ => c' := by
    apply Array.ext
    · simp
    · intro i h _
      simp only [Array.getElem_modify]
      split <;> rfl
  simp only [setContext, hcontexts]

/-- A context that is replaced by itself changes nothing. -/
theorem setContext_self {m : Machine} {id : ContextId} {c : ThreadContext}
    (hc : m.context? id = some c) : m.setContext id c = m := by
  have hcontexts : m.contexts.modify id.index (fun _ => c) = m.contexts := by
    apply Array.ext
    · simp
    · intro i h hi
      rw [Array.getElem_modify]
      split
      · rename_i hindex
        subst hindex
        exact (Option.some.inj ((Array.getElem?_eq_getElem hi).symm.trans hc)).symm
      · rfl
  rw [setContext, hcontexts]

theorem context?_setContext_apply (m : Machine) (id k : ContextId)
    (g : ThreadContext → ThreadContext) :
    (m.setContext id (g (m.context id))).context? k =
      if k = id then (m.context? k).map g else m.context? k := by
  rw [context?_setContext]
  split
  · rename_i h
    subst h
    rcases e : m.context? k with - | c
    · rfl
    · simp [context_of_some e]
  · rfl

/-- Freeing is done to one context. -/
theorem context?_freeContext (m : Machine) (id : ContextId) (shared : Bool) (k : ContextId) :
    (m.freeContext id shared).context? k =
      if k = id then (m.context? k).map (·.free.2) else m.context? k :=
  m.context?_setContext_apply id k (·.free.2)

theorem context?_disposeContext (m : Machine) (id k : ContextId) :
    (m.disposeContext id).context? k =
      if k = id then (m.context? k).map (·.dispose.2) else m.context? k :=
  m.context?_setContext_apply id k (·.dispose.2)

end Machine

namespace Context

variable {σ φ : Type}

/-- A context is active until it is disposed or loses its thread. -/
theorem stage_eq_active_iff {c : Context σ φ} :
    c.stage = .active ↔ c.disposed = false ∧ c.thread ≠ 0 := by
  unfold stage
  split
  · simp_all
  · split <;> simp_all

/-- A context that was freed is not active. -/
theorem eq_of_active_free {c : Context σ φ} (h : c.free.2.stage = .active) : c.free.2 = c := by
  unfold free at h ⊢
  split
  · rfl
  · rename_i hd
    simp [hd, stage] at h

/-- A context that was disposed is not active. -/
theorem eq_of_active_dispose {c : Context σ φ} (h : c.dispose.2.stage = .active) :
    c.dispose.2 = c := by
  unfold dispose at h ⊢
  split
  · rfl
  · rename_i hd
    simp [hd, stage] at h

@[simp] theorem stage_setFrame (c : Context σ φ) (slot : Slot) (f : Option φ) :
    (c.setFrame slot f).stage = c.stage := by
  cases slot <;> rfl

/-- Popping what was pushed leaves a context as it was. -/
theorem pop_push (c : ThreadContext) (frame : FrameId) :
    { c with stack := (c.stack.map (·.push frame)).map (·.pop) } = c := by
  have hpop : (c.stack.map (·.push frame)).map (·.pop) = c.stack := by
    cases c.stack <;> rfl
  rw [hpop]

/-- A context on which nothing runs. -/
structure Idle (c : ThreadContext) : Prop where
  stack : c.stack = some {}
  global : c.global = some Machine.globalFrame
  current : c.current = some Machine.globalFrame
  procedure : c.procedure = none
  uplevel : c.uplevel = none
  scope : c.scope = none

end Context

/-! ### Retiring contexts -/

namespace Machine

/-- The machine without the current thread in its table. -/
def unlist (m : Machine) (id : ContextId) : Machine :=
  { m with
    byThread := m.byThread.erase m.thread
    previous := if m.previous = some id then none else m.previous }

/-- A thread without a context has nothing to release. -/
theorem release_of_none {m : Machine} (h : m.byThread.get? m.thread = none) :
    m.release.2 = m := by
  simp [release, h]

/-- Releasing a thread takes it off the table and retires its context. -/
theorem release_of_some {m : Machine} {id : ContextId} (h : m.byThread.get? m.thread = some id) :
    ∃ log, m.release.2 = { ((m.unlist id).freeContext id false).disposeContext id with log } := by
  unfold release
  rw [h]
  exact ⟨_, rfl⟩

/-- Relations that hold between two machines if the second comes from the first by retiring
contexts, or by changing what all contexts share. -/
structure Endures (R : Machine → Machine → Prop) : Prop where
  trans : ∀ {m t u : Machine}, R m t → R t u → R m u
  shared : ∀ (m : Machine) byThread previous disposed commands cache log,
    R m { m with byThread, previous, disposed, commands, cache, log }
  free : ∀ m id shared, R m (m.freeContext id shared)
  retire : ∀ m id, R m (m.disposeContext id)
  global : ∀ m : Machine, R m { m with frames := m.frames.modify globalFrame (·.dispose) }

namespace Endures

variable {R : Machine → Machine → Prop}

theorem refl (h : Endures R) (m : Machine) : R m m :=
  h.shared m m.byThread m.previous m.disposed m.commands m.cache m.log

/-- Steps on the command table leave all that endures alone. -/
theorem onTable (h : Endures R) {a : Action} (ha : a.OnTable) (m : Machine) : R m (m.after a) := by
  obtain ⟨commands, cache, log, e⟩ := ha.after m
  rw [e]
  exact h.shared m _ _ _ _ _ _

theorem release (h : Endures R) (m : Machine) : R m m.release.2 := by
  rcases hid : m.byThread.get? m.thread with - | id
  · rw [release_of_none hid]
    exact h.refl m
  · obtain ⟨log, e⟩ := release_of_some hid
    have hunlist : R m (m.unlist id) := h.shared m _ _ m.disposed m.commands m.cache m.log
    have hfree := h.free (m.unlist id) id false
    have hretire := h.retire ((m.unlist id).freeContext id false) id
    rw [e]
    exact h.trans hunlist (h.trans hfree (h.trans hretire (h.shared _ _ _ _ _ _ _)))

/-- Retiring contexts one after the other. -/
theorem foldl (h : Endures R) (ids : List ContextId) (m : Machine) :
    R m (ids.foldl (fun m id => (m.freeContext id true).disposeContext id) m) := by
  induction ids generalizing m with
  | nil => exact h.refl m
  | cons id ids ih => exact h.trans (h.free m id true) (h.trans (h.retire _ id) (ih _))

/-- All contexts are retired one after the other. -/
theorem purge (h : Endures R) (m : Machine) : R m m.purge :=
  h.trans (h.shared m _ _ _ _ _ _) (h.foldl _ _)

theorem dispose (h : Endures R) (m : Machine) : R m m.dispose := by
  unfold Machine.dispose
  split
  · exact h.refl m
  · let t := { m with disposed := true }
    have ht : R m t := h.shared m _ _ _ _ _ _
    have hpurge := h.purge t
    exact h.trans ht (h.trans hpurge (h.trans (h.global _) (h.shared _ _ _ _ _ _ _)))

end Endures

end Machine

/-! ### Balance -/

/-- Contexts are not lost, an active one is what it was before, and a new one is idle. -/
structure Machine.Balanced (m t : Machine) : Prop where
  known : ∀ {id}, t.context? id = none → m.context? id = none
  active : ∀ {id c}, t.context? id = some c → c.stage = .active →
    m.context? id = some c ∨ m.context? id = none ∧ c.Idle

namespace Machine.Balanced

theorem refl (m : Machine) : m.Balanced m := ⟨fun h => h, fun h _ => .inl h⟩

/-- A context that was made in between is idle, and later ones leave it so. -/
theorem trans {m t u : Machine} (h : m.Balanced t) (h' : t.Balanced u) : m.Balanced u where
  known hn := h.known (h'.known hn)
  active hu ha := by
    obtain ht | ⟨ht, hi⟩ := h'.active hu ha
    · exact h.active ht ha
    · exact .inr ⟨h.known ht, hi⟩

theorem of_contexts {m t : Machine} (h : t.contexts = m.contexts) : m.Balanced t := by
  have hc (id : ContextId) : t.context? id = m.context? id := by simp [context?, h]
  exact ⟨fun {id} hn => hc id ▸ hn, fun {id c} hs _ => .inl (hc id ▸ hs)⟩

/-- Changing one context is balanced if it does not make it active in another shape. -/
theorem of_changed {m t : Machine} {id : ContextId} {g : ThreadContext → ThreadContext}
    (ht : ∀ k, t.context? k = if k = id then (m.context? k).map g else m.context? k)
    (hg : ∀ c, (g c).stage = .active → g c = c) : m.Balanced t where
  known {k} hn := by
    rw [ht k] at hn
    split at hn
    · simpa using hn
    · exact hn
  active {k c} hs ha := by
    rw [ht k] at hs
    split at hs
    · obtain ⟨c', hc', rfl⟩ := Option.map_eq_some_iff.1 hs
      exact .inl ((hg c' ha).symm ▸ hc')
    · exact .inl hs

end Machine.Balanced

namespace Machine

theorem balanced_freeContext (m : Machine) (id : ContextId) (shared : Bool) :
    m.Balanced (m.freeContext id shared) :=
  .of_changed (m.context?_freeContext id shared) fun _ => Context.eq_of_active_free

theorem balanced_disposeContext (m : Machine) (id : ContextId) :
    m.Balanced (m.disposeContext id) :=
  .of_changed (m.context?_disposeContext id) fun _ => Context.eq_of_active_dispose

/-- The new context comes behind all others. -/
theorem context?_createContext (m : Machine) (id : ContextId) :
    m.createContext.2.context? id =
      if id.index = m.contexts.size then some m.freshContext else m.context? id := by
  simp [createContext, context?, loggedHere, logged, Array.getElem?_push]

/-- A context that was not there may come, if nothing runs on it yet. -/
theorem balanced_createContext (m : Machine) : m.Balanced m.createContext.2 := by
  constructor
  · intro k hn
    rw [m.context?_createContext k] at hn
    split at hn
    · cases hn
    · exact hn
  · intro k c hs _
    rw [m.context?_createContext k] at hs
    split at hs
    · rename_i hk
      obtain rfl := Option.some.inj hs
      -- it was not there before, and its slots are still those of the start
      exact .inr ⟨by simp [context?, hk], ⟨rfl, rfl, rfl, rfl, rfl, rfl⟩⟩
    · exact .inl hs

theorem balanced_acquire (m : Machine) (create : Bool) : m.Balanced (m.acquire create).2 := by
  unfold acquire
  split
  · split <;> exact .refl m
  · split
    · exact .of_contexts rfl
    · split
      · exact m.balanced_createContext
      · exact .refl m

/-- Balance endures whatever retires contexts or leaves them alone. -/
theorem endures_balanced : Endures Balanced where
  trans := .trans
  shared _ _ _ _ _ _ _ := .of_contexts rfl
  free := balanced_freeContext
  retire := balanced_disposeContext
  global _ := .of_contexts rfl

/-- Actions that move no context between frames are balanced. -/
theorem Drifts.balanced {m t : Machine} (h : m.Drifts t) : m.Balanced t := by
  obtain ⟨a, ha, rfl⟩ := h
  cases a with
  | acquire create => exact m.balanced_acquire create
  | release => exact endures_balanced.release m
  | freeContext id shared => exact m.balanced_freeContext id shared
  | disposeContext id => exact m.balanced_disposeContext id
  | dispose => exact endures_balanced.dispose m
  | resolve | askCache | define | delete | rename | clearCache =>
    exact endures_balanced.onTable (by trivial) m
  | setSlot | setStack | disposeFrame => exact absurd trivial ha
  | rest | channels | names | switchThread | setVariables | newFrame => exact .of_contexts rfl

end Machine

/-- Programs that only drift are balanced. -/
theorem Program.Steps.balanced {α : Type} {p : Eval α} (h : p.Steps Machine.Drifts) (m : Machine) :
    m.Balanced (p.run m).2 :=
  h.run (P := m.Balanced) (fun _ _ hn hb => hb.trans hn.balanced) (.refl m)

/-! ### Rewriting a context -/

namespace Machine

/-- Reading a slot is a fault on a disposed context, under the strict policy. -/
theorem run_readFrame (m : Machine) (id : ContextId) (slot : Slot) :
    (readFrame id slot).run m =
      if m.Faults id then (.error (.fault (.frame slot)), m)
      else (.ok ((m.context id).frame slot), m) := by
  by_cases h : (m.context id).disposed = true ∧ m.policyFor id = .strict
  · simp [readFrame, readContext, Context.readFrame, Context.touch, Faults, h, Except.map]
  · simp [readFrame, readContext, Context.readFrame, Context.touch, Faults, h, Except.map]

/-- So is writing it. -/
theorem run_writeFrame (m : Machine) (id : ContextId) (slot : Slot) (f : Option FrameId) :
    (writeFrame id slot f).run m =
      if m.Faults id then (.error (.fault (.setFrame slot)), m)
      else (.ok (), m.setContext id ((m.context id).setFrame slot f)) := by
  by_cases h : (m.context id).disposed = true ∧ m.policyFor id = .strict
  · simp [writeFrame, Context.writeFrame, Context.touch, Faults, h, Except.map]
  · simp [writeFrame, Context.writeFrame, Context.touch, Faults, h, Except.map]

/-- A context whose touch is a fault is not active. -/
theorem Faults.inactive {m : Machine} {id : ContextId} (h : m.Faults id) {c : ThreadContext}
    (hc : m.context? id = some c) : c.stage ≠ .active := by
  intro ha
  have hd := h.1
  rw [context_of_some hc, (Context.stage_eq_active_iff.1 ha).1] at hd
  cases hd

/-- A context that can be touched exists. -/
theorem exists_of_not_faults {m : Machine} {id : ContextId} (h : ¬ m.Faults id) :
    ∃ c, m.context? id = some c := by
  rcases e : m.context? id with - | c
  · exact absurd (by simp [Faults, context, policyFor, e]) h
  · exact ⟨c, rfl⟩

/-- One context is rewritten, as far as it is active afterwards. -/
structure Rewrites (id : ContextId) (g : ThreadContext → ThreadContext) (m t : Machine) : Prop where
  others : ∀ {k}, k ≠ id → t.context? k = m.context? k
  none_iff : t.context? id = none ↔ m.context? id = none
  active : ∀ {c}, t.context? id = some c → c.stage = .active →
    ∃ c', m.context? id = some c' ∧ c'.stage = .active ∧ c = g c'

theorem Rewrites.refl (id : ContextId) (m : Machine) : m.Rewrites id (fun c => c) m :=
  ⟨fun _ => rfl, Iff.rfl, fun {c} hc ha => ⟨c, hc, ha, rfl⟩⟩

/-- One change after the other, as long as the context is active. -/
theorem Rewrites.trans {id : ContextId} {g h : ThreadContext → ThreadContext} {m t u : Machine}
    (hg : m.Rewrites id g t) (hh : t.Rewrites id h u) : m.Rewrites id (h ∘ g) u where
  others hk := (hh.others hk).trans (hg.others hk)
  none_iff := hh.none_iff.trans hg.none_iff
  active hu ha := by
    obtain ⟨c, hc, hca, rfl⟩ := hh.active hu ha
    obtain ⟨c', hc', hca', rfl⟩ := hg.active hc hca
    exact ⟨c', hc', hca', rfl⟩

/-- A context that is not active may count as rewritten in any way. -/
theorem Rewrites.of_inactive {id : ContextId} {g h : ThreadContext → ThreadContext} {m t : Machine}
    (hg : m.Rewrites id g t) (hn : ∀ {c}, t.context? id = some c → c.stage ≠ .active) :
    m.Rewrites id h t :=
  ⟨hg.others, hg.none_iff, fun hc ha => absurd ha (hn hc)⟩

/-- Only the context itself is changed, and it stays active if it was. -/
theorem rewrites_setContext {m : Machine} {id : ContextId} {g : ThreadContext → ThreadContext}
    (hg : ∀ c, (g c).stage = c.stage) : m.Rewrites id g (m.setContext id (g (m.context id))) where
  others hk := by simp [context?_setContext_apply, hk]
  none_iff := by simp [context?_setContext_apply]
  active hc ha := by
    rw [context?_setContext_apply, if_pos rfl] at hc
    obtain ⟨c', hc', rfl⟩ := Option.map_eq_some_iff.1 hc
    exact ⟨c', hc', hg c' ▸ ha, rfl⟩

/-- A rewritten context that is not active in between is balanced. -/
theorem Rewrites.balanced_of_inactive {id : ContextId} {g : ThreadContext → ThreadContext}
    {m t : Machine} (h : m.Rewrites id g t)
    (hn : ∀ {c}, t.context? id = some c → c.stage ≠ .active) : m.Balanced t where
  known {k} hk := by
    by_cases hid : k = id
    · subst hid
      exact h.none_iff.1 hk
    · exact h.others hid ▸ hk
  active {k c} hc ha := by
    by_cases hid : k = id
    · subst hid
      exact absurd ha (hn hc)
    · exact .inl (h.others hid ▸ hc)

/-- If a context is rewritten, left alone by a balanced evaluation and rewritten back, the whole is
balanced. -/
theorem Balanced.between {id : ContextId} {g h : ThreadContext → ThreadContext} {m t u v : Machine}
    (hg : m.Rewrites id g t) (hb : t.Balanced u) (hh : u.Rewrites id h v)
    (hid : m.context? id ≠ none)
    (hgh : ∀ {c}, m.context? id = some c → h (g c) = c) : m.Balanced v where
  known {k} hk := by
    by_cases hki : k = id
    · subst hki
      exact hg.none_iff.1 (hb.known (hh.none_iff.1 hk))
    · exact hg.others hki ▸ hb.known (hh.others hki ▸ hk)
  active {k c} hc ha := by
    by_cases hki : k = id
    · subst hki
      obtain ⟨c', hc', ha', rfl⟩ := hh.active hc ha
      obtain ht | ⟨ht, -⟩ := hb.active hc' ha'
      · obtain ⟨c₀, hc₀, -, rfl⟩ := hg.active ht ha'
        exact .inl (by rw [hgh hc₀, hc₀])
      · -- the context was there before, so it is not a new one
        exact absurd (hg.none_iff.1 ht) hid
    · rw [← hg.others hki]
      exact hb.active (hh.others hki ▸ hc) ha

end Machine

/-- A program that rewrites one context; if it stops, the context is not active. -/
structure Rewriting (id : ContextId) (g : ThreadContext → ThreadContext) (p : Eval Unit) :
    Prop where
  rewrites : ∀ m : Machine, m.Rewrites id g (p.run m).2
  inactive : ∀ {m : Machine} {e c}, (p.run m).1 = .error e →
    (p.run m).2.context? id = some c → c.stage ≠ .active

namespace Rewriting

/-- If the first program stops, its context is not active any more, and then nothing is said of it.
-/
theorem bind {id : ContextId} {g h : ThreadContext → ThreadContext} {p q : Eval Unit}
    (hp : Rewriting id g p) (hq : Rewriting id h q) :
    Rewriting id (h ∘ g) (p >>= fun _ => q) := by
  refine ⟨fun m => ?_, fun {m e c} he hc => ?_⟩
  · have hg := hp.rewrites m
    rw [run_bind]
    rcases e : p.run m with ⟨err | _, t⟩
    · -- the first program stopped, so the context is not active any more
      have hs {c : ThreadContext} (hc : t.context? id = some c) : c.stage ≠ .active :=
        hp.inactive (m := m) (e := err) (by rw [e]) (by rw [e]; exact hc)
      rw [e] at hg
      exact hg.of_inactive hs
    · rw [e] at hg
      exact hg.trans (hq.rewrites t)
  · rw [run_bind] at he hc
    rcases e' : p.run m with ⟨err | _, t⟩
    · rw [e'] at hc
      exact hp.inactive (m := m) (e := err) (by rw [e']) (by rw [e']; exact hc)
    · rw [e'] at he hc
      exact hq.inactive he hc

/-- A slot is written, or the context is not active. -/
theorem writeFrame (id : ContextId) (slot : Slot) (f : Option FrameId) :
    Rewriting id (·.setFrame slot f) (Eval.writeFrame id slot f) := by
  constructor
  · intro m
    rw [m.run_writeFrame]
    split
    · rename_i hf
      -- on a fault nothing is written, and the context is disposed
      exact (Machine.Rewrites.refl id m).of_inactive hf.inactive
    · exact Machine.rewrites_setContext fun c => c.stage_setFrame slot f
  · intro m e c he hc
    rw [m.run_writeFrame] at he hc
    split at he
    · rename_i hf
      rw [if_pos hf] at hc
      exact hf.inactive hc
    · cases he

theorem modifyStack (id : ContextId) (f : CallStack → CallStack) :
    Rewriting id (fun c => { c with stack := c.stack.map f }) (Eval.modifyStack id f) where
  rewrites _ := Machine.rewrites_setContext fun _ => rfl
  inactive he := by cases he

theorem modifyFrame (id : ContextId) (frame : FrameId) (f : Frame → Frame) :
    Rewriting id (fun c => c) (Eval.modifyFrame frame f) where
  rewrites _ := ⟨fun _ => rfl, Iff.rfl, fun {c} hc ha => ⟨c, hc, ha, rfl⟩⟩
  inactive he := by cases he

theorem moveTo (id : ContextId) (current uplevel : Option FrameId) :
    Rewriting id (fun c => { c with current, uplevel }) (Dispatch.moveTo id current uplevel) :=
  (writeFrame id .current current).bind (writeFrame id .uplevel uplevel)

/-- Entering a call: its frame is pushed, and is current from then on. -/
theorem enterCall (id : ContextId) (frame : FrameId) :
    Rewriting id (fun c => { c with
      stack := c.stack.map (·.push frame), current := some frame, procedure := some frame })
      (Dispatch.enterCall id frame) :=
  (modifyStack id _).bind ((writeFrame id .current _).bind (writeFrame id .procedure _))

/-- Leaving a call: its frame is popped, and the slots are what they were. -/
theorem leaveCall (id : ContextId) (frame : FrameId) (current procedure : Option FrameId) :
    Rewriting id (fun c => { c with stack := c.stack.map (·.pop), current, procedure })
      (Dispatch.leaveCall id frame current procedure) :=
  (modifyStack id _).bind ((modifyFrame id frame _).bind
    ((writeFrame id .current _).bind (writeFrame id .procedure _)))

end Rewriting

/-! ### Brackets -/

/-- Where the depth does not suffice, nothing is restored. -/
theorem run_always_exhausted {α : Type} {restore : Eval Unit} {p : Eval α} {m : Machine}
    (h : (p.run m).1 = .error .exhausted) :
    (always restore p).run m = (.error .exhausted, (p.run m).2) := by
  simp [always, h]

/-- Otherwise the machine is what restoring makes of it. -/
theorem run_always_snd {α : Type} {restore : Eval Unit} {p : Eval α} {m : Machine}
    (h : (p.run m).1 ≠ .error .exhausted) :
    ((always restore p).run m).2 = (restore.run (p.run m).2).2 := by
  have hout {k : Except Stop Unit → Eval α} (hk : ∀ r t, ((k r).run t).2 = t) (t : Machine) :
      ((handle restore k).run t).2 = (restore.run t).2 := by
    rw [run_handle]
    exact hk _ _
  rw [always, run_handle]
  rcases e : p.run m with ⟨(s | a | -) | v, t⟩
  · exact hout (by rintro (_ | _) _ <;> rfl) t
  · exact hout (by rintro (_ | _) _ <;> rfl) t
  · simp [e] at h
  · exact hout (by rintro (_ | _) _ <;> rfl) t

/-- What is done at the end leaves the outcome alone if it succeeds. -/
theorem run_always_of_ok {α : Type} {restore : Eval Unit} {p : Eval α} {m t u : Machine}
    {r : Except Stop α} (hp : p.run m = (r, t)) (hx : r ≠ .error .exhausted)
    (hr : restore.run t = (.ok (), u)) : (always restore p).run m = (r, u) := by
  obtain ⟨k, hk, hok, -⟩ := exists_restoring_eq restore hx
  rw [always, run_handle, hp]
  show (restoring restore r).run t = _
  rw [hk, run_handle, hr]
  show (k (.ok ())).run u = _
  rw [hok]
  exact run_ofExcept r u

/-- An evaluation that leaves the machine balanced, unless it runs out of depth. -/
def Balances {α : Type} (p : Eval α) : Prop :=
  ∀ m : Machine, (p.run m).1 ≠ .error .exhausted → m.Balanced (p.run m).2

/-- A bracket around a balanced evaluation is balanced. -/
theorem Rewriting.balanced {α : Type} {id : ContextId} {g h : ThreadContext → ThreadContext}
    {enter leave : Eval Unit} {p : Eval α} (hg : Rewriting id g enter) (hh : Rewriting id h leave)
    (hp : Balances p) {m : Machine} {c : ThreadContext} (hc : m.context? id = some c)
    (hgh : h (g c) = c)
    (hx : ((enter >>= fun _ => always leave p).run m).1 ≠ .error .exhausted) :
    m.Balanced ((enter >>= fun _ => always leave p).run m).2 := by
  have hr := hg.rewrites m
  rw [run_bind] at hx ⊢
  rcases e : enter.run m with ⟨err | _, t⟩
  · -- opening stopped, so the context is not active and the rest was left alone
    rw [e] at hr
    refine hr.balanced_of_inactive fun {c} hc => ?_
    exact hg.inactive (m := m) (e := err) (by rw [e]) (by rw [e]; exact hc)
  · rw [e] at hr hx
    have hpx : (p.run t).1 ≠ .error .exhausted := by
      intro hex
      exact hx (by simp [run_always_exhausted hex])
    change m.Balanced ((always leave p).run t).2
    rw [run_always_snd hpx]
    refine Machine.Balanced.between hr (hp t hpx) (hh.rewrites _) (by simp [hc]) ?_
    intro c' hc'
    obtain rfl := Option.some.inj (hc.symm.trans hc')
    exact hgh

namespace Balances

variable {α β : Type}

theorem of_reads {p : Eval α} (h : p.Reads) : Balances p := by
  intro m _
  rw [h.run m]
  exact .refl m

/-- The rest starts from a balanced machine, unless the depth did not suffice. -/
theorem handle {p : Eval β} {k : Except Stop β → Eval α} (hp : Balances p)
    (hk : ∀ r, Balances (k r)) (hx : k (.error .exhausted) = .stop .exhausted) :
    Balances (handle p k) := by
  intro m hm
  rw [run_handle] at hm ⊢
  have hpx : (p.run m).1 ≠ .error .exhausted := by
    intro he
    rw [he, hx] at hm
    exact hm rfl
  exact (hp m hpx).trans (hk _ _ hm)

theorem bind {p : Eval β} {k : β → Eval α} (hp : Balances p) (hk : ∀ b, Balances (k b)) :
    Balances (p >>= k) := by
  refine handle hp ?_ rfl
  rintro (e | b)
  · exact fun m _ => .refl m
  · exact hk b

theorem takeReturn {p : Eval Value} (hp : Balances p) : Balances (Dispatch.takeReturn p) :=
  handle hp (returned_induction (P := fun q => Balances q) (fun _ m _ => .refl m)
    fun _ m _ => .refl m) rfl

/-- After a slot of a context was read, that context is known. -/
theorem bind_readFrame {id : ContextId} {slot : Slot} {k : Option FrameId → Eval α} {m : Machine}
    (hk : ∀ c, m.context? id = some c → ((k (c.frame slot)).run m).1 ≠ .error .exhausted →
      m.Balanced ((k (c.frame slot)).run m).2)
    (hx : ((readFrame id slot >>= k).run m).1 ≠ .error .exhausted) :
    m.Balanced ((readFrame id slot >>= k).run m).2 := by
  rw [run_bind, m.run_readFrame] at hx ⊢
  by_cases hf : m.Faults id
  · rw [if_pos hf]
    exact .refl m
  · obtain ⟨c, hc⟩ := m.exists_of_not_faults hf
    rw [if_neg hf, Machine.context_of_some hc] at hx ⊢
    exact hk c hc hx

/-- Moving and moving back cancel. -/
theorem inFrame {p : Eval Value} (id : ContextId) (frame : Option FrameId) (hp : Balances p) :
    Balances (Dispatch.inFrame id frame p) := by
  intro m
  refine bind_readFrame fun c hc => bind_readFrame fun c' hc' => ?_
  obtain rfl := Option.some.inj (hc.symm.trans hc')
  exact (Rewriting.moveTo id frame frame).balanced (.moveTo id _ _) hp hc rfl

/-- So do entering and leaving a scope. -/
theorem inScope {p : Eval Value} (inv : Invocation) (scope : Option FrameId) (hp : Balances p) :
    Balances (Dispatch.inScope inv scope p) := by
  cases scope with
  | none => exact fun m _ => .refl m
  | some f =>
    intro m
    refine bind_readFrame fun c hc => ?_
    exact (Rewriting.writeFrame _ .scope (some f)).balanced (.writeFrame _ .scope _) hp hc rfl

/-- So do entering and leaving a call. -/
theorem inCall {p : Eval Value} (id : ContextId) (frame : FrameId) (hp : Balances p) :
    Balances (Dispatch.inCall id frame p) := by
  intro m
  refine bind_readFrame fun c hc => bind_readFrame fun c' hc' => ?_
  obtain rfl := Option.some.inj (hc.symm.trans hc')
  exact (Rewriting.enterCall id frame).balanced (.leaveCall id frame _ _) hp hc
    (c.pop_push frame)

end Balances

/-- Bracketed programs are balanced. -/
theorem Bracketed.balances {α : Type} {p : Eval α} (h : Bracketed p) : Balances p := by
  induction h with
  | done a | stop s => exact fun m _ => .refl m
  | act h => exact fun m _ => (h m).balanced
  | handle _ _ hx ihp ihk => exact .handle ihp ihk hx
  | uplevel inv level _ ih =>
    exact .bind (.of_reads (reads_frameAbove inv level)) fun f => .inFrame _ f ih
  | inScope inv scope _ ih => exact .inScope inv scope ih
  | call inv name params args _ ih =>
    exact .bind (fun m _ => (drifts_callFrame inv name params args).balanced m) fun f =>
      .takeReturn (.inCall _ f ih)

/-! ### Calls -/

/-- The calls during which a context is moved between frames. -/
inductive FrameCall (self : Runner) : Eval Value → Prop
  | invoke (id : Option ContextId) (name : String) (args : List Value) :
      FrameCall self (Dispatch.invoke self id name args)
  | invokeHere (name : String) (args : List Value) :
      FrameCall self (Dispatch.invokeHere self name args)
  | invokeIn (id : Option ContextId) (name : String) (args : List Value) :
      FrameCall self (Dispatch.invokeIn self id name args)
  | procedure (inv : Invocation) (name : String) (params : List String) (args : List Value)
      (body : List Stmt) :
      FrameCall self (Dispatch.callProcedure inv name params args
        (self.body { inv with args := [] } body))
  | uplevel (inv : Invocation) (level : Int) (body : List Stmt) :
      FrameCall self (Dispatch.uplevel inv level (self.body inv body))
  | inScope (inv : Invocation) (scope : Option FrameId) (body : List Stmt) :
      FrameCall self (Dispatch.inScope inv scope (self.body inv body))

/-- All calls that run in a frame are made of brackets. -/
theorem FrameCall.bracketed {depth : Nat} {p : Eval Value}
    (h : FrameCall (Evaluation.cached depth) p) : Bracketed p := by
  have hs := Runner.alike_cached depth
  cases h with
  | invoke id name args => exact (Alike.invoke hs id name args).bracketed
  | invokeHere name args => exact (Alike.invokeHere hs name args).bracketed
  | invokeIn id name args => exact (Alike.invokeIn hs id name args).bracketed
  | procedure inv name params args body =>
    exact .call inv name params args (hs.body _ (.refl body)).bracketed
  | uplevel inv level body => exact .uplevel inv level (hs.body inv (.refl body)).bracketed
  | inScope inv scope body => exact .inScope inv scope (hs.body inv (.refl body)).bracketed

/-- **Calls are balanced**: whatever a call runs and however it ends, a context that is active
afterwards is what it was before, its stack and all its frame slots included. -/
theorem frameCall_balanced {depth : Nat} {p : Eval Value}
    (hp : FrameCall (Evaluation.cached depth) p) {m : Machine}
    (hx : (p.run m).1 ≠ .error .exhausted) {id : ContextId} {c c' : ThreadContext}
    (hc : m.context? id = some c) (hc' : (p.run m).2.context? id = some c')
    (ha : c'.stage = .active) : c' = c := by
  have hb := hp.bracketed.balances m hx
  obtain h | ⟨h, -⟩ := hb.active hc' ha
  · exact Option.some.inj (h.symm.trans hc)
  · simp [h] at hc

/-- A procedure that moves up into a scope and fails there leaves its context as it was. -/
theorem frameCall_balanced_failing :
    let perform (m : Machine) (call : HostCall) := (m.performBy (Evaluation.cached 4) call).2
    let m := perform (perform (perform (.start { id := "host" }) (.context none))
      (.makeScope "s" 0)) (.defineProcedure "p" []
        (some [.inScope "s" [.uplevel 1 [.set (.value (.text "x")) (.value .empty),
          .invoke (.value (.text "ghost")) []]]]))
    let after := (Dispatch.invoke (Evaluation.cached 4) (some ⟨0⟩) "p" []).run m
    (after.1.isOk = false ∧ (after.2.context ⟨0⟩).stage = .active) ∧
      after.2.context? ⟨0⟩ = m.context? ⟨0⟩ := by
  intro perform m after
  have hx : after.1 ≠ .error .exhausted := by decide +kernel +revert
  have hc : m.context? ⟨0⟩ = some (m.context ⟨0⟩) := by decide +kernel +revert
  have hc' : after.2.context? ⟨0⟩ = some (after.2.context ⟨0⟩) := by decide +kernel +revert
  have ha : after.1.isOk = false ∧ (after.2.context ⟨0⟩).stage = .active := by
    decide +kernel +revert
  refine ⟨ha, ?_⟩
  -- the call fails in the middle of a scope and a move, and its context is as before
  rw [hc, hc', frameCall_balanced (.invoke _ _ _) hx hc hc' ha.2]

end CommandHost
