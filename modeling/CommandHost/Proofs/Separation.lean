/-
CommandHost/Proofs/Separation.lean

Whose frames are whose.

All contexts work on one store of frames, which has the global frame, the scopes that
the embedding program made and the frames of all procedure calls, and says of none
whom it belongs to.  Still no context gets at a frame on the call stack of another
one (`Machine.Separate`): what is pushed on a stack is new, and what is put into a
slot is the global frame, a scope, or was in a slot or on the stack of the same
context before.

The brackets are the difficulty.  They put frames back that they found when they were
opened, and anything may have run since, on other contexts too.  So separation is
proved together with a relation between an earlier machine and a later one: stacks
have grown by new frames only (`Machine.Grows`).  Whatever was on the stack of no
other context when a bracket was opened is on none when it is closed.
-/
import CommandHost.Proofs.FrameStructure
import CommandHost.Proofs.Lifetime

namespace CommandHost

open Program Eval Dispatch

namespace Machine

/-! ### Frames and contexts -/

/-- The frame is in the store. -/
def Stores (m : Machine) (f : FrameId) : Prop := ∃ frame, m.frames.get? f = some frame

/-- The frame is on the call stack of the context. -/
def Stacks (m : Machine) (id : ContextId) (f : FrameId) : Prop :=
  ∃ c s, m.context? id = some c ∧ c.stack = some s ∧ f ∈ s.frames

/-- The frame is in a slot of the context. -/
def Slots (m : Machine) (id : ContextId) (f : FrameId) : Prop :=
  ∃ c slot, m.context? id = some c ∧ c.frame slot = some f

/-- The frame is in the store, and on the call stack of no other context. -/
structure Grants (m : Machine) (id : ContextId) (f : FrameId) : Prop where
  stores : m.Stores f
  others : ∀ k, m.Stacks k f → k = id

/-- No context gets at a frame on the call stack of another one. -/
structure Separate (m : Machine) : Prop where
  stack : ∀ {id f}, m.Stacks id f → m.Grants id f
  slot : ∀ {id f}, m.Slots id f → m.Grants id f
  scope : ∀ {name f}, m.scopes.get? name = some f → ∀ id, m.Grants id f
  global : ∀ id, m.Grants id globalFrame

/-- No frame was lost, and call stacks have grown by new frames only. -/
structure Grows (m t : Machine) : Prop where
  stores : ∀ {f}, m.Stores f → t.Stores f
  stack : ∀ {id f}, m.Stores f → t.Stacks id f → m.Stacks id f

theorem Grows.refl (m : Machine) : m.Grows m := ⟨fun h => h, fun _ h => h⟩

theorem Grows.trans {m t u : Machine} (h : m.Grows t) (h' : t.Grows u) : m.Grows u :=
  ⟨fun hf => h'.stores (h.stores hf), fun hf hs => h.stack hf (h'.stack (h.stores hf) hs)⟩

/-- What is granted to a context stays so while stacks grow by new frames. -/
theorem Grants.grows {m t : Machine} {id : ContextId} {f : FrameId} (h : m.Grants id f)
    (ht : m.Grows t) : t.Grants id f :=
  ⟨ht.stores h.stores, fun k hk => h.others k (ht.stack h.stores hk)⟩

/-- The machine is separate and has grown from an earlier one. -/
structure Follows (m t : Machine) : Prop where
  grows : m.Grows t
  separate : t.Separate

theorem Follows.trans {m t u : Machine} (h : m.Follows t) (h' : t.Follows u) : m.Follows u :=
  ⟨h.grows.trans h'.grows, h'.separate⟩

/-- A machine stays separate if what contexts and scopes have of frames that they did not have
before is granted to them. -/
theorem Separate.follows {m t : Machine} (h : m.Separate) (ht : m.Grows t)
    (hstack : ∀ {id f}, t.Stacks id f → m.Stacks id f ∨ t.Grants id f)
    (hslot : ∀ {id f}, t.Slots id f → m.Slots id f ∨ t.Grants id f)
    (hscope : ∀ {name f}, t.scopes.get? name = some f →
      m.scopes.get? name = some f ∨ ∀ id, t.Grants id f) : m.Follows t where
  grows := ht
  separate := {
    stack := fun hf => (hstack hf).elim (fun hf => (h.stack hf).grows ht) fun hf => hf
    slot := fun hf => (hslot hf).elim (fun hf => (h.slot hf).grows ht) fun hf => hf
    scope := fun hf => (hscope hf).elim (fun hf id => (h.scope hf id).grows ht) fun hf => hf
    global := fun id => (h.global id).grows ht }

theorem Separate.refl {m : Machine} (h : m.Separate) : m.Follows m := ⟨.refl m, h⟩

/-! ### Steps -/

/-- A store that keeps its frames has them. -/
theorem Keeps.stores {m t : Machine} (h : m.Keeps t) {f : FrameId} (hf : m.Stores f) :
    t.Stores f := by
  obtain ⟨frame, hf⟩ := hf
  obtain ⟨frame', hf', -⟩ := h.frames f frame hf
  exact ⟨frame', hf'⟩

/-- A context after a step that moves no context between frames. -/
theorem Drifts.context_cases {m t : Machine} (h : m.Drifts t) {id : ContextId}
    {c : ThreadContext} (hc : t.context? id = some c) :
    m.context? id = some c ∨ (∃ disposed, c = { disposed }) ∨ c = m.freshContext := by
  rcases hm : m.context? id with - | c'
  · -- the context is new
    exact .inr (.inr (h.eq_fresh hm hc))
  · obtain ⟨c'', hc'', hr⟩ := h.retires id c' hm
    obtain rfl := Option.some.inj (hc.symm.trans hc'')
    rcases hr with rfl | ⟨-, hd⟩
    · exact .inl rfl
    · exact .inr (.inl hd)

/-- Such a step puts nothing on a stack; a fresh context has an empty one. -/
theorem Drifts.stacks {m t : Machine} (h : m.Drifts t) {id : ContextId} {f : FrameId}
    (hf : t.Stacks id f) : m.Stacks id f := by
  obtain ⟨c, s, hc, hs, hf⟩ := hf
  rcases h.context_cases hc with hm | ⟨d, rfl⟩ | rfl
  · exact ⟨c, s, hm, hs, hf⟩
  · cases hs
  · obtain rfl := Option.some.inj hs
    cases hf

/-- A fresh context has the global frame in its slots, and nothing else is new there. -/
theorem Drifts.slots {m t : Machine} (h : m.Drifts t) {id : ContextId} {f : FrameId}
    (hf : t.Slots id f) : m.Slots id f ∨ f = globalFrame := by
  obtain ⟨c, slot, hc, hf⟩ := hf
  rcases h.context_cases hc with hm | ⟨d, rfl⟩ | rfl
  · exact .inl ⟨c, slot, hm, hf⟩
  · cases slot <;> cases hf
  · refine .inr ?_
    cases slot with
    | global | current => exact (Option.some.inj hf).symm
    | uplevel | procedure | scope => cases hf

theorem Drifts.grows {m t : Machine} (h : m.Drifts t) : m.Grows t :=
  ⟨h.keeps.stores, fun _ => h.stacks⟩

/-- Steps that move no context between frames keep a machine separate, if they name no scopes. -/
theorem Drifts.follows {m t : Machine} (h : m.Drifts t) (hs : t.scopes = m.scopes)
    (hm : m.Separate) : m.Follows t := by
  refine hm.follows h.grows (fun hf => .inl (h.stacks hf)) (fun {id f} hf => ?_) fun hf =>
    .inl (hs ▸ hf)
  rcases h.slots hf with hf | rfl
  · exact .inl hf
  · exact .inr ((hm.global id).grows h.grows)

theorem endures_scopes : Endures fun m t => t.scopes = m.scopes where
  trans h h' := h'.trans h
  shared _ _ _ _ _ _ _ := rfl
  free _ _ _ := rfl
  retire _ _ := rfl
  global _ := rfl

/-- Steps that belong to no context in particular. -/
theorem Mild.follows {m t : Machine} (h : m.Mild t) (hm : m.Separate) : m.Follows t := by
  cases h with
  | channels writer output notes log tallies =>
    exact Drifts.follows ⟨.channels writer output notes log tallies, not_false, rfl⟩ rfl hm
  | saved saved => exact Drifts.follows ⟨.names saved m.scopes, not_false, rfl⟩ rfl hm
  | @onTable a h =>
    have hmoves : ¬ a.Moves := by cases a <;> first | exact h.elim | exact not_false
    exact Drifts.follows ⟨a, hmoves, rfl⟩ (endures_scopes.onTable h m) hm
  | acquire create =>
    obtain ⟨_, _, _, _, _, e, -⟩ := m.acquire_snd create
    exact Drifts.follows ⟨.acquire create, not_false, rfl⟩ (by rw [e]) hm
  | release => exact Drifts.follows ⟨.release, not_false, rfl⟩ (endures_scopes.release m) hm

end Machine

theorem Unruly.follows {α : Type} {f : Machine → Except Stop α × Machine} (h : Unruly f)
    {m : Machine} (hm : m.Separate) : m.Follows (f m).2 := by
  cases h with
  | switchThread id h =>
    exact (h m).symm ▸ Machine.Drifts.follows ⟨.switchThread id, not_false, rfl⟩ rfl hm
  | freeContext id shared h =>
    exact (h m).symm ▸ Machine.Drifts.follows ⟨.freeContext id shared, not_false, rfl⟩ rfl hm
  | disposeContext id h =>
    exact (h m).symm ▸ Machine.Drifts.follows ⟨.disposeContext id, not_false, rfl⟩ rfl hm
  | dispose h =>
    exact (h m).symm ▸ Machine.Drifts.follows ⟨.dispose, not_false, rfl⟩
      (Machine.endures_scopes.dispose m) hm

namespace Machine

/-- Putting a frame into a slot. -/
theorem Separate.setSlot {m : Machine} (h : m.Separate) {id : ContextId} {slot : Slot}
    {f : Option FrameId} (hf : ∀ g, f = some g → m.Grants id g) :
    m.Follows (m.after (.setSlot id slot f)) := by
  let t := m.after (.setSlot id slot f)
  have hk (k : ContextId) := m.context?_setContext_apply id k (·.setFrame slot f)
  -- only this context has changed, and only in this slot
  have hback {k : ContextId} {c : ThreadContext} (hc : t.context? k = some c) :
      m.context? k = some c ∨ k = id ∧ ∃ c', m.context? k = some c' ∧ c = c'.setFrame slot f := by
    have hc := (hk k).symm.trans hc
    split at hc
    · rename_i hid
      obtain ⟨c', hc', rfl⟩ := Option.map_eq_some_iff.1 hc
      exact .inr ⟨hid, c', hc', rfl⟩
    · exact .inl hc
  have hstack {k : ContextId} {g : FrameId} (hg : t.Stacks k g) : m.Stacks k g := by
    obtain ⟨c, s, hc, hs, hg⟩ := hg
    rcases hback hc with hc | ⟨-, c', hc', rfl⟩
    · exact ⟨c, s, hc, hs, hg⟩
    · refine ⟨c', s, hc', ?_, hg⟩
      cases slot <;> exact hs
  have hext : m.Grows t := ⟨fun h => h, fun _ => hstack⟩
  refine h.follows hext (fun hg => .inl (hstack hg)) (fun {k g} hg => ?_) .inl
  obtain ⟨c, slot', hc, hg⟩ := hg
  rcases hback hc with hc | ⟨rfl, c', hc', rfl⟩
  · exact .inl ⟨c, slot', hc, hg⟩
  · by_cases hslot : slot' = slot
    · subst hslot
      refine .inr ((hf g ?_).grows hext)
      cases slot' <;> exact hg
    · refine .inl ⟨c', slot', hc', ?_⟩
      cases slot' <;> cases slot <;> first | exact absurd rfl hslot | exact hg

/-- Changing the call stack of a context. -/
theorem stacks_mapStack {m : Machine} {id k : ContextId} {g : CallStack → CallStack} {f : FrameId}
    (hf : (m.after (.setStack id ((m.context id).stack.map g))).Stacks k f) :
    m.Stacks k f ∨ k = id ∧ ∃ c s, m.context? k = some c ∧ c.stack = some s ∧
      f ∈ (g s).frames := by
  obtain ⟨c, s, hc, hs, hf⟩ := hf
  have hk := m.context?_setContext_apply id k fun c => { c with stack := c.stack.map g }
  have hc := hk.symm.trans hc
  split at hc
  · rename_i hid
    obtain ⟨c', hc', rfl⟩ := Option.map_eq_some_iff.1 hc
    obtain ⟨s', hs', rfl⟩ := Option.map_eq_some_iff.1 hs
    exact .inr ⟨hid, c', s', hc', hs', hf⟩
  · exact .inl ⟨c, s, hc, hs, hf⟩

/-- The slots are as before. -/
theorem slots_mapStack {m : Machine} {id k : ContextId} {g : CallStack → CallStack} {f : FrameId}
    (hf : (m.after (.setStack id ((m.context id).stack.map g))).Slots k f) : m.Slots k f := by
  obtain ⟨c, slot, hc, hf⟩ := hf
  have hk := m.context?_setContext_apply id k fun c => { c with stack := c.stack.map g }
  have hc := hk.symm.trans hc
  split at hc
  · obtain ⟨c', hc', rfl⟩ := Option.map_eq_some_iff.1 hc
    refine ⟨c', slot, hc', ?_⟩
    cases slot <;> exact hf
  · exact ⟨c, slot, hc, hf⟩

/-- A call is over. -/
theorem Separate.pop {m : Machine} (h : m.Separate) (id : ContextId) :
    m.Follows (m.after (.setStack id ((m.context id).stack.map (·.pop)))) := by
  have hstack {k : ContextId} {f : FrameId}
      (hf : (m.after (.setStack id ((m.context id).stack.map (·.pop)))).Stacks k f) :
      m.Stacks k f := by
    rcases stacks_mapStack hf with hf | ⟨-, c, s, hc, hs, hf⟩
    · exact hf
    · exact ⟨c, s, hc, hs, List.mem_of_mem_tail hf⟩
  exact h.follows ⟨fun h => h, fun _ => hstack⟩ (fun hf => .inl (hstack hf))
    (fun hf => .inl (slots_mapStack hf)) .inl

theorem stores_modify {m : Machine} {f g : FrameId} (change : Frame → Frame) (hg : m.Stores g) :
    { m with frames := m.frames.modify f change }.Stores g := by
  obtain ⟨frame, hg⟩ := hg
  show ∃ frame, (m.frames.modify f change).get? g = some frame
  rw [Frames.get?_modify, hg]
  split <;> exact ⟨_, rfl⟩

/-- What is in a frame does not matter. -/
theorem Separate.modifyFrame {m : Machine} (h : m.Separate) (f : FrameId)
    (change : Frame → Frame) : m.Follows { m with frames := m.frames.modify f change } :=
  h.follows ⟨stores_modify change, fun _ h => h⟩ .inl .inl .inl

theorem Assigns.follows {m t : Machine} {f : FrameId} (h : m.Assigns f t) (hm : m.Separate) :
    m.Follows t := by
  rcases h with rfl | ⟨vars, rfl⟩
  · exact hm.refl
  · exact hm.modifyFrame f _

/-! ### New frames -/

/-- The frame that is made next. -/
def nextFrame (m : Machine) : FrameId := ⟨m.frames.all.size⟩

/-- The next frame is not there yet. -/
theorem not_stores_nextFrame (m : Machine) : ¬ m.Stores m.nextFrame := by
  rintro ⟨frame, hf⟩
  simp [nextFrame, Frames.get?] at hf

/-- A new frame is the only one that is added. -/
theorem stores_newFrame {m : Machine} {frame : Frame} {f : FrameId} :
    (m.after (.newFrame frame)).Stores f ↔ m.Stores f ∨ f = m.nextFrame := by
  show (∃ x, (m.frames.alloc frame).2.get? f = some x) ↔ _
  rw [Frames.get?_alloc]
  by_cases hf : f = (m.frames.alloc frame).1
  · rw [if_pos hf]
    exact ⟨fun _ => .inr hf, fun _ => ⟨_, rfl⟩⟩
  · rw [if_neg hf]
    exact ⟨.inl, fun h => h.resolve_right hf⟩

theorem Separate.newFrame {m : Machine} (h : m.Separate) (frame : Frame) :
    m.Follows (m.after (.newFrame frame)) :=
  Drifts.follows ⟨.newFrame frame, not_false, rfl⟩ rfl h

/-- A new frame is on no call stack. -/
theorem Separate.grants_nextFrame {m : Machine} (h : m.Separate) (frame : Frame) (id : ContextId) :
    (m.after (.newFrame frame)).Grants id m.nextFrame := by
  refine ⟨stores_newFrame.2 (.inr rfl), fun k hk => ?_⟩
  have hk : m.Stacks k m.nextFrame := hk
  exact absurd (h.stack hk).stores m.not_stores_nextFrame

/-- Naming a scope. -/
theorem Separate.nameScope {m : Machine} (h : m.Separate) {f : FrameId}
    (hf : ∀ id, m.Grants id f) (name : String) :
    m.Follows { m with scopes := m.scopes.insert name f } := by
  refine h.follows ⟨fun h => h, fun _ h => h⟩ .inl .inl fun {name' g} hg => ?_
  have hg : (m.scopes.insert name f).get? name' = some g := hg
  rw [Table.get?_insert] at hg
  split at hg
  · obtain rfl := Option.some.inj hg
    exact .inr fun id => ⟨(hf id).stores, (hf id).others⟩
  · exact .inl hg

/-- A call is entered: its frame is new. -/
theorem Separate.push {m : Machine} (h : m.Separate) {frame : Frame} (id : ContextId) {t : Machine}
    (ht : t = m.after (.newFrame frame)) :
    let u := t.after (.setStack id ((t.context id).stack.map (·.push m.nextFrame)))
    m.Follows u ∧ u.Grants id m.nextFrame := by
  subst ht
  intro u
  have hstack {k : ContextId} {f : FrameId} (hf : u.Stacks k f) :
      m.Stacks k f ∨ k = id ∧ f = m.nextFrame := by
    rcases stacks_mapStack hf with hf | ⟨hk, c, s, hc, hs, hf⟩
    · exact .inl hf
    · rcases List.mem_cons.1 hf with hf | hf
      · exact .inr ⟨hk, hf⟩
      · exact .inl ⟨c, s, hc, hs, hf⟩
  -- a frame that was in the store before is not the new one
  have hext : m.Grows u := by
    refine ⟨fun hf => stores_newFrame.2 (.inl hf), fun {k f} hf hs => ?_⟩
    refine (hstack hs).resolve_right fun ⟨_, hnew⟩ => ?_
    exact m.not_stores_nextFrame (hnew ▸ hf)
  -- the new frame is on the stack of this context alone
  have hgrants : u.Grants id m.nextFrame := by
    refine ⟨stores_newFrame.2 (.inr rfl), fun k hk => ?_⟩
    rcases hstack hk with hk | ⟨hk, -⟩
    · exact absurd (h.stack hk).stores m.not_stores_nextFrame
    · exact hk
  refine ⟨h.follows hext (fun {k f} hf => ?_) (fun {k f} hf => .inl ?_) .inl, hgrants⟩
  · rcases hstack hf with hf | ⟨rfl, rfl⟩
    · exact .inl hf
    · exact .inr hgrants
  · exact slots_mapStack hf

end Machine

/-! ### Programs -/

/-- Programs that keep machines separate, whatever machine they have followed so far. -/
def Separates {α : Type} (p : Eval α) : Prop := ∀ m : Machine, p.Maintains m.Follows

namespace Separates

variable {α β : Type}

/-- Programs of which each step keeps machines separate. -/
theorem of_steps {p : Eval α} (h : p.Steps fun m t => m.Separate → m.Follows t) :
    Separates p :=
  fun _ => .of_steps (h.mono fun _ _ hst hs => hs.trans (hst hs.separate))

/-- What follows the machine that a program starts with follows earlier ones. -/
theorem of_start {p : Eval α} (h : ∀ m : Machine, m.Separate → p.Throughout m.Follows m) :
    Separates p :=
  fun _ t ht => (h t ht.separate).mono fun _ hu => ht.trans hu

end Separates

section

variable {m : Machine} {id : ContextId}

/-- A frame that was granted to the context earlier may be written to its slots. -/
theorem maintains_writeFrame (slot : Slot) {f : Option FrameId}
    (hf : ∀ g, f = some g → m.Grants id g) : (writeFrame id slot f).Maintains m.Follows := by
  refine .of_steps fun t ht => ?_
  change m.Follows ((writeFrame id slot f).run t).2
  rw [t.run_writeFrame]
  split
  · exact ht
  · exact ht.trans (ht.separate.setSlot fun g hg => (hf g hg).grows ht.grows)

theorem maintains_moveTo {current uplevel : Option FrameId}
    (hc : ∀ g, current = some g → m.Grants id g) (hu : ∀ g, uplevel = some g → m.Grants id g) :
    (moveTo id current uplevel).Maintains m.Follows :=
  .bind (maintains_writeFrame _ hc) fun _ => maintains_writeFrame _ hu

/-- Leaving a call pops the stack, and puts frames back that were granted before. -/
theorem maintains_leaveCall (frame : FrameId) {current procedure : Option FrameId}
    (hc : ∀ g, current = some g → m.Grants id g) (hp : ∀ g, procedure = some g → m.Grants id g) :
    (leaveCall id frame current procedure).Maintains m.Follows :=
  .bind (.of_steps fun _ ht => ht.trans (ht.separate.pop id)) fun _ =>
    .bind (.of_steps fun _ ht => ht.trans (ht.separate.modifyFrame frame _)) fun _ =>
      .bind (maintains_writeFrame _ hc) fun _ => maintains_writeFrame _ hp

/-- What is read from a slot is granted to the context. -/
theorem grants_of_readFrame (h : m.Separate) {slot : Slot} {f : Option FrameId}
    (hf : ((readFrame id slot).run m).1 = .ok f) (g : FrameId) (hg : f = some g) :
    m.Grants id g := by
  obtain ⟨c, hc, rfl⟩ := exists_of_readFrame hf
  exact h.slot ⟨c, slot, hc, hg⟩

/-- The frame that stands for the global one is in a slot: that of the scope, or else the global
one. -/
theorem slots_of_currentGlobal {c : ThreadContext} (hc : m.context? id = some c) {f : FrameId}
    (hf : c.currentGlobal = some f) : m.Slots id f := by
  rcases Option.or_eq_some_iff.1 hf with hf | ⟨-, hf⟩
  · exact ⟨c, .scope, hc, hf⟩
  · exact ⟨c, .global, hc, hf⟩

variable {p : Eval Value}

/-- Moving to a frame that is granted, and back. -/
theorem throughout_inFrame (h : m.Separate) {frame : Option FrameId}
    (hf : ∀ g, frame = some g → m.Grants id g) (hp : p.Maintains m.Follows) :
    (inFrame id frame p).Throughout m.Follows m := by
  have hread (slot : Slot) : (readFrame id slot).Reads := reads_readContext _ _
  refine .bind_reads (hread _) h.refl fun current hcurrent => ?_
  refine .bind_reads (hread _) h.refl fun before hbefore => ?_
  -- what the slots have here is granted to the context still when it is put back
  exact Maintains.bind (maintains_moveTo hf hf) (fun _ => maintains_always
    (maintains_moveTo (grants_of_readFrame h hcurrent) (grants_of_readFrame h hbefore)) hp)
    m h.refl

theorem throughout_inScope (h : m.Separate) {inv : Invocation} {scope : Option FrameId}
    (hf : ∀ g, scope = some g → m.Grants inv.context g) (hp : p.Maintains m.Follows) :
    (Dispatch.inScope inv scope p).Throughout m.Follows m := by
  have hread (slot : Slot) : (readFrame inv.context slot).Reads := reads_readContext _ _
  cases scope with
  | none => exact .of_reads trivial h.refl
  | some f =>
    refine .bind_reads (hread _) h.refl fun before hbefore => ?_
    exact Maintains.bind (maintains_writeFrame _ hf) (fun _ => maintains_always
      (maintains_writeFrame _ (grants_of_readFrame h hbefore)) hp) m h.refl

end

/-- A call pushes a new frame, and puts back what it found. -/
theorem throughout_inCall {m : Machine} (h : m.Separate) (frame : Frame) (id : ContextId)
    {p : Eval Value} (hp : Separates p) {t : Machine} (ht : t = m.after (.newFrame frame)) :
    (inCall id m.nextFrame p).Throughout m.Follows t := by
  have hread (slot : Slot) : (readFrame id slot).Reads := reads_readContext _ _
  have hmt : m.Follows t := ht ▸ h.newFrame frame
  refine .bind_reads (hread _) hmt fun current hcurrent => ?_
  refine .bind_reads (hread _) hmt fun procedure hprocedure => ?_
  -- from here on, what matters is the machine on whose stack the frame is
  let u := t.after (.setStack id ((t.context id).stack.map (·.push m.nextFrame)))
  obtain ⟨hmu, hnew⟩ : m.Follows u ∧ u.Grants id m.nextFrame := h.push id ht
  have hnew (g : FrameId) (hg : some m.nextFrame = some g) : u.Grants id g :=
    Option.some.inj hg ▸ hnew
  -- what the slots had before the call is granted still
  have hslot {slot : Slot} {f : Option FrameId} (hf : ((readFrame id slot).run t).1 = .ok f)
      (g : FrameId) (hg : f = some g) : u.Grants id g := by
    obtain ⟨c, hc, rfl⟩ := exists_of_readFrame hf
    have hm : m.Slots id g := ⟨c, slot, by rw [ht] at hc; exact hc, hg⟩
    exact (h.slot hm).grows hmu.grows
  have hwrites : (writeFrame id .current (some m.nextFrame) >>= fun _ =>
      writeFrame id .procedure (some m.nextFrame)).Maintains u.Follows :=
    .bind (maintains_writeFrame _ hnew) fun _ => maintains_writeFrame _ hnew
  have hwritten := hwrites u hmu.separate.refl
  have henter : (enterCall id m.nextFrame).Throughout m.Follows t := by
    refine .bind (along_act (fun h _ => h) hmt hmu) fun _ _ => ?_
    exact hwritten.mono fun _ hv => hmu.trans hv
  have hrest := maintains_always
    (maintains_leaveCall m.nextFrame (hslot hcurrent) (hslot hprocedure)) (hp u)
  refine .bind henter fun _ _ => ?_
  exact (hrest _ hwritten.run).mono fun _ hv => hmu.trans hv

/-- A scope is a new frame, so it is on no stack. -/
theorem separates_makeScope (self : Runner) (running : Option ContextId) (name : String)
    (level : Int) : Separates (Host.perform self running (.makeScope name level)) := by
  refine .of_start fun m hm => ?_
  have hnew := hm.newFrame ⟨name, .scopeFrame, level, ∅, false⟩
  refine .bind (along_act (fun h _ => h) hm.refl hnew) fun f hf => ?_
  obtain rfl : m.nextFrame = f := Except.ok.inj hf
  have hnamed := hnew.separate.nameScope (hm.grants_nextFrame _) name
  refine .bind (along_act (fun h _ => h) hnew (hnew.trans hnamed)) fun _ _ => ?_
  exact .of_reads trivial (hnew.trans hnamed)

/-- Separation is kept by all evaluations: only scopes and calls have something to show. -/
theorem inherited_separates : Inherited fun _ p => Separates p where
  mild h := .of_steps (h.mono fun _ _ => Machine.Mild.follows)
  unruly h := .of_steps fun _ => h.follows
  assign inv name f h m := .bind (.of_reads (reads_home inv name)) fun home =>
    Separates.of_steps (p := act (f home)) (fun t => (h home t).follows) m
  makeScope := separates_makeScope
  handle hp hk m := .handle (hp m) fun r => hk r m
  uplevel inv level hp := by
    refine .of_start fun m hm => .bind_reads (reads_frameAbove inv level) hm.refl fun f hf => ?_
    refine throughout_inFrame hm (fun g hg => ?_) (hp m)
    -- the frame above is the outermost one or one of the context's own call stack
    obtain ⟨c, hc, rfl | ⟨s, g', hs, hg', rfl⟩⟩ := exists_of_frameAbove hf
    · exact hm.slot (slots_of_currentGlobal hc hg)
    · exact hm.stack ⟨c, s, hc, hs, Option.some.inj hg ▸ hg'⟩
  inScope inv scope hp := by
    have hread : (read fun m : Machine => m.scopes.get? scope : Eval _).Reads := fun _ => rfl
    refine .of_start fun m hm => .bind_reads hread hm.refl fun f hf => ?_
    obtain rfl : m.scopes.get? scope = f := Except.ok.inj hf
    exact throughout_inScope hm (fun g hg => hm.scope hg _) (hp m)
  call inv name params args hp := by
    refine .of_start fun m hm => ?_
    -- a call that fails makes no frame
    have hsteps : (callFrame inv name params args).Steps fun m t => m.Separate → m.Follows t := by
      refine (steps_callFrame inv name params args).mono fun m t ht hm => ?_
      rcases ht with rfl | ⟨f, rfl⟩
      · exact hm.refl
      · exact hm.newFrame f
    refine .bind (Separates.of_steps hsteps m m hm.refl) fun frame hframe => ?_
    obtain ⟨s, f, -, -, -, rfl, e⟩ := run_callFrame hframe
    exact throughout_takeReturn (throughout_inCall hm f inv.context hp e)
  enter htrue hfalse m := by
    refine .bind (.of_steps fun _ h => h) fun usable => ?_
    cases usable with
    | true => exact htrue m
    | false => exact hfalse m

theorem Built.separates {on : Option ContextId} {α : Type} {p : Eval α} (h : Built on p) :
    Separates p :=
  h.inherits inherited_separates

/-! ### Sessions -/

theorem Machine.separate_start (s : Setup) : (start s).Separate := by
  have hn (id : ContextId) : (start s).context? id = none := by
    simp [context?, start, loggedHere, logged]
  have hstack {id : ContextId} {f : FrameId} (hf : (start s).Stacks id f) : False := by
    obtain ⟨c, _, hc, -⟩ := hf
    simp [hn] at hc
  have hslot {id : ContextId} {f : FrameId} (hf : (start s).Slots id f) : False := by
    obtain ⟨c, _, hc, -⟩ := hf
    simp [hn] at hc
  refine ⟨fun hf => (hstack hf).elim, fun hf => (hslot hf).elim, fun {name f} hf => ?_,
    fun id => ?_⟩
  · simp [start, loggedHere, logged] at hf
  · exact ⟨⟨_, rfl⟩, fun _ hf => (hstack hf).elim⟩

theorem Machine.Separate.silent {m : Machine} (h : m.Separate) : m.silent.Separate :=
  (m.drifts_silent.follows rfl h).separate

/-- Throughout a session no context gets at a frame on the call stack of another one. -/
theorem Session.separate {s : Setup} {path : Path Stop Machine} {m : Machine}
    (h : Session s path m) : m.Separate := by
  have hcall (depth : Nat) (call : HostCall) :
      Separates (Host.perform (Evaluation.cached depth) none call) :=
    have h : Built none (Host.perform (Evaluation.cached depth) none call) :=
      .perform (Runner.builds_cached depth) none call
    h.separates
  induction h with
  | start => exact Machine.separate_start s
  | during depth call _ hp ih => exact (hcall depth call _ _ ih.silent.refl _ hp).separate
  | after depth call _ _ ih => exact (hcall depth call _ _ ih.silent.refl).run.separate

end CommandHost
