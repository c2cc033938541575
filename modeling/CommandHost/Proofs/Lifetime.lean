/-
CommandHost/Proofs/Lifetime.lean

What becomes of a context.

Evaluations do not take every action in every state: they set a slot only where
touching the context is no fault, never the global one, change a call stack only where
there is one, and make contexts only for an interpreter that is not disposed.
`Machine.Takes` is `Machine.Next` with these conditions, and all steps of evaluations
are of this kind (`Built.takes`).

From there the life of a context is one case analysis.  A context is never lost
(`Machine.Takes.ages`).  Either it belongs to the same thread as before, or it was
retired, which happens once: it then has no thread, no call stack and no global frame,
and that is for good.  A context whose touch is a fault does not change at all
(`Machine.Takes.context?_of_faults`).
-/
import CommandHost.Proofs.Anatomy

namespace CommandHost

open Program Eval

/-! ### Actions that are taken -/

/-- Whether evaluations take the action in a state. -/
def Action.Due (m : Machine) : Action → Prop
  | acquire create => create = true → m.disposed = false
  | setSlot id slot _ => slot ≠ .global ∧ ¬ m.Faults id
  | setStack id s => ∃ f, s = (m.context id).stack.map f
  | _ => True

/-- One machine leads to another by an action that evaluations take. -/
def Machine.Takes (m t : Machine) : Prop := ∃ a : Action, a.Due m ∧ t = m.after a

namespace Machine

theorem Takes.refl (m : Machine) : m.Takes m := ⟨.rest, trivial, rfl⟩

/-- Actions that are taken are actions. -/
theorem Takes.next {m t : Machine} (h : m.Takes t) : m.Next t := by
  obtain ⟨a, -, ht⟩ := h
  exact ⟨a, ht⟩

theorem takes_silent (m : Machine) : m.Takes m.silent :=
  ⟨.channels m.writer "" #[] #[] m.tallies, trivial, rfl⟩

/-- Steps that belong to no context in particular; a disposed interpreter makes no context. -/
theorem Mild.takes {m t : Machine} (h : m.Mild t) : m.Takes t := by
  cases h with
  | channels writer output notes log tallies =>
    exact ⟨.channels writer output notes log tallies, trivial, rfl⟩
  | saved saved => exact ⟨.names saved m.scopes, trivial, rfl⟩
  | @onTable a h =>
    refine ⟨a, ?_, rfl⟩
    cases a <;> trivial
  | acquire create h => exact ⟨.acquire create, h, rfl⟩
  | release => exact ⟨.release, trivial, rfl⟩

/-- A bracket writes slots of its context while that is not a fault, and never the global one. -/
theorem Shifts.takes {b : Bracket} (hb : ¬ b.slots .global) {m t : Machine}
    (h : m.Shifts b t) : m.Takes t := by
  cases h with
  | rest => exact .refl m
  | @setSlot slot f hs hf =>
    have hglobal : slot ≠ .global := by
      rintro rfl
      exact hb hs
    exact ⟨.setSlot b.context slot f, ⟨hglobal, hf⟩, rfl⟩
  | mapStack g => exact ⟨.setStack b.context _, ⟨g, rfl⟩, rfl⟩
  | disposeFrame => exact ⟨.disposeFrame _, trivial, rfl⟩

theorem Assigns.takes {m t : Machine} {f : FrameId} (h : m.Assigns f t) : m.Takes t := by
  rcases h with rfl | ⟨vars, rfl⟩
  · exact .refl _
  · exact ⟨.setVariables f vars, trivial, rfl⟩

end Machine

theorem Unruly.takes {α : Type} {f : Machine → Except Stop α × Machine} (h : Unruly f)
    (m : Machine) : m.Takes (f m).2 := by
  cases h with
  | switchThread id h => exact ⟨.switchThread id, trivial, h m⟩
  | freeContext id shared h => exact ⟨.freeContext id shared, trivial, h m⟩
  | disposeContext id h => exact ⟨.disposeContext id, trivial, h m⟩
  | dispose h => exact ⟨.dispose, trivial, h m⟩

theorem takes_home (inv : Invocation) (name : String) : (inv.home name).Steps Machine.Takes := by
  refine Steps.mono (fun m t ht => ?_) (reads_home inv name)
  subst ht
  exact .refl _

theorem Slot.not_moved_global : ¬ Slot.Moved .global := by simp [Slot.Moved]

/-- By the parts that evaluations are built from. -/
theorem inherited_takes : Inherited fun _ p => p.Steps Machine.Takes where
  mild h := h.mono fun _ _ => Machine.Mild.takes
  unruly h := h.takes
  assign inv name _ h := .bind (takes_home inv name) fun home m => (h home m).takes
  makeScope _ _ _ _ := .bind (fun _ => ⟨.newFrame _, trivial, rfl⟩) fun _ =>
    .bind (fun m => ⟨.names m.saved _, trivial, rfl⟩) fun _ => trivial
  handle hp hk := ⟨hp, hk⟩
  uplevel _ level hp :=
    (Carries.steps (Machine.Shifts.takes Slot.not_moved_global)).uplevel level hp
  inScope inv _ hp := by
    have hscope : ¬ (Bracket.scoping inv.context).slots .global := by simp [Bracket.scoping]
    exact .bind (fun m => .refl m) fun f =>
      (Carries.steps (Machine.Shifts.takes hscope)).inScope f hp
  call inv name params args hp := by
    refine Carries.call (fun _ => .steps (Machine.Shifts.takes Slot.not_moved_global)) ?_ hp
    refine (steps_callFrame inv name params args).mono fun m t ht => ?_
    rcases ht with rfl | ⟨f, rfl⟩
    · exact .refl _
    · exact ⟨.newFrame f, trivial, rfl⟩
  enter htrue hfalse := by
    refine .bind (fun m => .refl m) fun usable => ?_
    cases usable with
    | true => exact htrue
    | false => exact hfalse

/-- The steps of evaluations. -/
theorem Built.takes {on : Option ContextId} {α : Type} {p : Eval α} (h : Built on p) :
    p.Steps Machine.Takes :=
  h.inherits inherited_takes

theorem Built.takes_perform (depth : Nat) (call : HostCall) :
    (Host.perform (Evaluation.cached depth) none call).Steps Machine.Takes :=
  have h : Built none (Host.perform (Evaluation.cached depth) none call) :=
    .perform (Runner.builds_cached depth) none call
  h.takes

/-! ### Retiring -/

/-- A context is what it was, or it was freed or disposed, which leaves nothing of it. -/
def Context.Retires {σ φ : Type} (c c' : Context σ φ) : Prop :=
  c' = c ∨ c.disposed = false ∧ ∃ disposed, c' = { disposed }

namespace Context

variable {σ φ : Type}

/-- What was let go is not let go again: nothing was left of it. -/
theorem Retires.trans {a b c : Context σ φ} (h : a.Retires b) (h' : b.Retires c) :
    a.Retires c := by
  rcases h with rfl | ⟨hd, hb⟩
  · exact h'
  · rcases h' with rfl | ⟨-, hc⟩
    · exact .inr ⟨hd, hb⟩
    · exact .inr ⟨hd, hc⟩

/-- A context is freed unless it is disposed. -/
theorem retires_free (c : Context σ φ) : c.Retires c.free.2 := by
  unfold free
  split
  · exact .inl rfl
  · rename_i hd
    exact .inr ⟨by simpa using hd, false, rfl⟩

theorem retires_dispose (c : Context σ φ) : c.Retires c.dispose.2 := by
  unfold dispose
  split
  · exact .inl rfl
  · rename_i hd
    exact .inr ⟨by simpa using hd, true, rfl⟩

end Context

namespace Machine

/-- No context is lost, and those that changed were freed or disposed. -/
def Retires (m t : Machine) : Prop :=
  ∀ id c, m.context? id = some c → ∃ c', t.context? id = some c' ∧ c.Retires c'

theorem Retires.of_contexts {m t : Machine} (h : t.contexts = m.contexts) : m.Retires t := by
  intro id c hc
  have hid : t.context? id = m.context? id := by simp [context?, h]
  exact ⟨c, hid.trans hc, .inl rfl⟩

/-- One context is retired, and the others are as before. -/
theorem Retires.of_changed {m t : Machine} {id : ContextId} {g : ThreadContext → ThreadContext}
    (ht : ∀ k, t.context? k = if k = id then (m.context? k).map g else m.context? k)
    (hg : ∀ c : ThreadContext, c.Retires (g c)) : m.Retires t := by
  intro k c hc
  rw [ht k]
  split
  · exact ⟨g c, by rw [hc]; rfl, hg c⟩
  · exact ⟨c, hc, .inl rfl⟩

/-- A change of one context that keeps a missing one missing. -/
theorem context_of_changed {m t : Machine} {id : ContextId} {g : ThreadContext → ThreadContext}
    (ht : ∀ k, t.context? k = if k = id then (m.context? k).map g else m.context? k)
    (hg : g { disposed := true } = { disposed := true }) : t.context id = g (m.context id) := by
  have hid := ht id
  rw [if_pos rfl] at hid
  rcases hc : m.context? id with - | c
  · simp [context, hid, hc, hg]
  · simp [context, hid, hc]

/-- What is done to contexts from outside retires them at most. -/
theorem endures_retires : Endures Retires where
  trans h h' id c hc := by
    obtain ⟨c', hc', hr⟩ := h id c hc
    obtain ⟨c'', hc'', hr'⟩ := h' id c' hc'
    exact ⟨c'', hc'', hr.trans hr'⟩
  shared _ _ _ _ _ _ _ := .of_contexts rfl
  free m id shared := .of_changed (m.context?_freeContext id shared) Context.retires_free
  retire m id := .of_changed (m.context?_disposeContext id) Context.retires_dispose
  global _ := .of_contexts rfl

/-- Acquiring a context does not touch those that there are. -/
theorem context?_acquire {m : Machine} {id : ContextId} {c : ThreadContext}
    (hc : m.context? id = some c) (create : Bool) : (m.acquire create).2.context? id = some c := by
  unfold acquire
  split
  · split <;> exact hc
  · split
    · exact hc
    · split
      · -- the new context comes after all others
        have hid : id.index < m.contexts.size := (Array.getElem?_eq_some_iff.1 hc).1
        rw [m.context?_createContext id, if_neg hid.ne, hc]
      · exact hc

/-- Actions that move no context between frames retire contexts at most. -/
theorem Drifts.retires {m t : Machine} (h : m.Drifts t) : m.Retires t := by
  obtain ⟨a, ha, rfl⟩ := h
  cases a with
  | acquire create => exact fun id c hc => ⟨c, context?_acquire hc create, .inl rfl⟩
  | release => exact endures_retires.release m
  | freeContext id shared => exact endures_retires.free m id shared
  | disposeContext id => exact endures_retires.retire m id
  | dispose => exact endures_retires.dispose m
  | resolve | askCache | define | delete | rename | clearCache =>
    exact endures_retires.onTable (by trivial) m
  | setSlot | setStack | disposeFrame => exact absurd trivial ha
  | rest | channels | names | switchThread | setVariables | newFrame => exact .of_contexts rfl

/-- Contexts are made by acquiring only. -/
theorem endures_size : Endures fun m t => t.contexts.size = m.contexts.size where
  trans h h' := h'.trans h
  shared _ _ _ _ _ _ _ := rfl
  free _ _ _ := Array.size_modify
  retire _ _ := Array.size_modify
  global _ := rfl

/-- A new context is a fresh one. -/
theorem Drifts.eq_fresh {m t : Machine} (h : m.Drifts t) {id : ContextId} {c : ThreadContext}
    (hm : m.context? id = none) (hc : t.context? id = some c) : c = m.freshContext := by
  -- a step that makes no context does not make this one
  have hnone (hs : t.contexts.size = m.contexts.size) : c = m.freshContext := by
    have hlt : id.index < t.contexts.size := (Array.getElem?_eq_some_iff.1 hc).1
    have hge : m.contexts.size ≤ id.index := Array.getElem?_eq_none_iff.1 hm
    omega
  obtain ⟨a, ha, rfl⟩ := h
  cases a with
  | acquire create =>
    have hold {c : ThreadContext} (hc : m.context? id = some c) : c = m.freshContext := by
      simp [hm] at hc
    simp only [after, acquire] at hc
    split at hc
    · split at hc <;> exact hold hc
    · split at hc
      · exact hold hc
      · split at hc
        · rw [m.context?_createContext] at hc
          split at hc
          · exact (Option.some.inj hc).symm
          · exact hold hc
        · exact hold hc
  | release => exact hnone (endures_size.release m)
  | freeContext id shared => exact hnone (endures_size.free m id shared)
  | disposeContext id => exact hnone (endures_size.retire m id)
  | dispose => exact hnone (endures_size.dispose m)
  | resolve | askCache | define | delete | rename | clearCache =>
    exact hnone (endures_size.onTable (by trivial) m)
  | setSlot | setStack | disposeFrame => exact absurd trivial ha
  | rest | channels | names | switchThread | setVariables | newFrame => exact hnone rfl

/-! ### One step -/

/-- A context that a step makes is a fresh one. -/
theorem Takes.eq_fresh {m t : Machine} (h : m.Takes t) {id : ContextId} {c : ThreadContext}
    (hm : m.context? id = none) (hc : t.context? id = some c) : c = m.freshContext := by
  -- changing a context makes none
  have hset {k : ContextId} {g : ThreadContext → ThreadContext}
      (hc : (m.setContext k (g (m.context k))).context? id = some c) : c = m.freshContext := by
    rw [m.context?_setContext_apply, hm] at hc
    split at hc <;> cases hc
  obtain ⟨a, -, rfl⟩ := h
  by_cases ha : a.Moves
  · cases a with
    | setSlot k slot f => exact hset (g := (·.setFrame slot f)) hc
    | setStack k s => exact hset (g := fun c => { c with stack := s }) hc
    | disposeFrame f => exact absurd (hm.symm.trans hc) nofun
    | _ => exact ha.elim
  · exact Drifts.eq_fresh ⟨a, ha, rfl⟩ hm hc

/-- What one step does to a context. -/
theorem Takes.context? {m t : Machine} (h : m.Takes t) {id : ContextId} {c : ThreadContext}
    (hc : m.context? id = some c) :
    ∃ c', t.context? id = some c' ∧
      (c.Retires c' ∨ (∃ slot f, slot ≠ .global ∧ ¬ m.Faults id ∧ c' = c.setFrame slot f) ∨
        ∃ f, c' = { c with stack := c.stack.map f }) := by
  obtain ⟨a, ha, rfl⟩ := h
  by_cases hm : a.Moves
  · cases a with
    | setSlot k slot f =>
      have hk := m.context?_setContext_apply k id (·.setFrame slot f)
      by_cases hid : id = k
      · subst hid
        rw [if_pos rfl, hc] at hk
        exact ⟨_, hk, .inr (.inl ⟨slot, f, ha.1, ha.2, rfl⟩)⟩
      · rw [if_neg hid, hc] at hk
        exact ⟨c, hk, .inl (.inl rfl)⟩
    | setStack k s =>
      -- a stack is changed only where there is one
      obtain ⟨f, rfl⟩ := ha
      have hk := m.context?_setContext_apply k id fun c => { c with stack := c.stack.map f }
      by_cases hid : id = k
      · subst hid
        rw [if_pos rfl, hc] at hk
        exact ⟨_, hk, .inr (.inr ⟨f, rfl⟩)⟩
      · rw [if_neg hid, hc] at hk
        exact ⟨c, hk, .inl (.inl rfl)⟩
    | disposeFrame f => exact ⟨c, hc, .inl (.inl rfl)⟩
    | _ => exact hm.elim
  · obtain ⟨c', hc', hr⟩ := Drifts.retires ⟨a, hm, rfl⟩ id c hc
    exact ⟨c', hc', .inl hr⟩

end Machine

/-- A context belongs to the thread it belonged to, or it was retired.  A global frame or a call
stack that it does not have it does not get. -/
def Context.Ages {σ φ : Type} (c c' : Context σ φ) : Prop :=
  (c'.thread = c.thread ∧ c'.disposed = c.disposed ∧ c'.global = c.global ∧
      (c.stack = none → c'.stack = none)) ∨
    (c.disposed = false ∧ c'.thread = 0 ∧ c'.global = none ∧ c'.stack = none)

namespace Context

variable {σ φ : Type}

theorem Ages.refl (c : Context σ φ) : c.Ages c := .inl ⟨rfl, rfl, rfl, fun hs => hs⟩

/-- Ageing goes one way: a retired context gets neither its thread nor its frames back. -/
theorem Ages.trans {a b c : Context σ φ} (h : a.Ages b) (h' : b.Ages c) : a.Ages c := by
  rcases h with ⟨ht, hd, hg, hs⟩ | ⟨hd, ht, hg, hs⟩
  · rcases h' with ⟨ht', hd', hg', hs'⟩ | ⟨hd', h'⟩
    · exact .inl ⟨ht'.trans ht, hd'.trans hd, hg'.trans hg, fun h => hs' (hs h)⟩
    · exact .inr ⟨hd ▸ hd', h'⟩
  · rcases h' with ⟨ht', -, hg', hs'⟩ | ⟨-, h'⟩
    · exact .inr ⟨hd, ht'.trans ht, hg'.trans hg, hs' hs⟩
    · exact .inr ⟨hd, h'⟩

/-- A context that is active was so before, and belonged to the same thread. -/
theorem Ages.active {c c' : Context σ φ} (h : c.Ages c') (ha : c'.stage = .active) :
    c.stage = .active ∧ c'.thread = c.thread := by
  rw [stage_eq_active_iff] at ha ⊢
  rcases h with ⟨ht, hd, -⟩ | ⟨-, ht, -⟩
  · exact ⟨⟨hd ▸ ha.1, ht ▸ ha.2⟩, ht⟩
  · exact absurd ht ha.2

/-- Being disposed is for good. -/
theorem Ages.disposed {c c' : Context σ φ} (h : c.Ages c') (hd : c.disposed = true) :
    c'.disposed = true := by
  rcases h with ⟨-, hd', -⟩ | ⟨hd', -⟩
  · exact hd'.trans hd
  · simp [hd] at hd'

end Context

namespace Machine

/-- No context is lost. -/
def Ages (m t : Machine) : Prop :=
  ∀ id c, m.context? id = some c → ∃ c', t.context? id = some c' ∧ c.Ages c'

theorem Ages.refl (m : Machine) : m.Ages m := fun _ c hc => ⟨c, hc, .refl c⟩

/-- The same for all contexts at once. -/
theorem Ages.trans {m t u : Machine} (h : m.Ages t) (h' : t.Ages u) : m.Ages u := by
  intro id c hc
  obtain ⟨c', hc', ha⟩ := h id c hc
  obtain ⟨c'', hc'', ha'⟩ := h' id c' hc'
  exact ⟨c'', hc'', ha.trans ha'⟩

/-- Contexts age from step to step. -/
theorem Takes.ages {m t : Machine} (h : m.Takes t) : m.Ages t := by
  intro id c hc
  obtain ⟨c', hc', hr⟩ := h.context? hc
  refine ⟨c', hc', ?_⟩
  rcases hr with (rfl | ⟨hd, d, rfl⟩) | ⟨slot, f, hs, -, rfl⟩ | ⟨f, rfl⟩
  · exact .refl _
  · -- freed or disposed
    exact .inr ⟨hd, rfl, rfl, rfl⟩
  · cases slot with
    | global => exact absurd rfl hs
    | _ => exact .inl ⟨rfl, rfl, rfl, fun hs => hs⟩
  · exact .inl ⟨rfl, rfl, rfl, fun hs => by simp [hs]⟩

/-- Whatever is done to contexts, the policy is the same. -/
theorem endures_policy : Endures fun m t => t.policy.current = m.policy.current where
  trans h h' := h'.trans h
  shared _ _ _ _ _ _ _ := rfl
  free _ _ _ := rfl
  retire _ _ := rfl
  global _ := rfl

/-- The policy in force does not change. -/
theorem Next.policy {m t : Machine} (h : m.Next t) : t.policy.current = m.policy.current := by
  obtain ⟨a, rfl⟩ := h
  cases a with
  | acquire create =>
    obtain ⟨_, _, _, _, _, e, hpolicy⟩ := m.acquire_snd create
    rw [after, e]
    exact hpolicy
  | release => exact endures_policy.release m
  | dispose => exact endures_policy.dispose m
  | resolve | askCache | define | delete | rename | clearCache =>
    exact endures_policy.onTable (by trivial) m
  | _ => rfl

/-- Whether touching a context is a fault depends on whether it is disposed. -/
theorem faults_iff {m : Machine} {id : ContextId} {c : ThreadContext}
    (hc : m.context? id = some c) :
    m.Faults id ↔ c.disposed = true ∧ m.policy.current = .strict := by
  simp [Faults, context_of_some hc, policyFor, hc]

/-- A context whose touch is a fault stays as it is. -/
theorem Takes.context?_of_faults {m t : Machine} (h : m.Takes t) {id : ContextId}
    {c : ThreadContext} (hf : m.Faults id) (hc : m.context? id = some c) (hs : c.stack = none) :
    t.context? id = some c := by
  have hd : c.disposed = true := context_of_some hc ▸ hf.1
  obtain ⟨c', hc', hr⟩ := h.context? hc
  rcases hr with (rfl | ⟨hd', -⟩) | ⟨-, -, -, hn, -⟩ | ⟨f, rfl⟩
  · exact hc'
  · simp [hd] at hd'
  · exact absurd hf hn
  · rw [hc', hs, Option.map_none, ← hs]

end Machine

end CommandHost
