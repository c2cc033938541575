/-
CommandHost/Proofs/Vacancy.lean

Contexts that were freed.

Freeing a context empties it.  What can fill it again are the brackets that are still
open on it: procedures, `uplevel` and scopes put the frames back that they found, and
do not look whether the context was freed meanwhile.  So an emptied context is followed
here through everything that comes after, slot by slot.

* The call stack and the global frame are gone for good.
* A scope frame is in its slot only while its scope runs (`ScopedAt`), in whatever
  context and whatever was done to it.
* The current frame, the procedure frame and the frame moved up to stay away if no
  procedure and no `uplevel` was under way on the context when it was emptied
  (`Vacates`); or if touching the context is a fault, since then nothing can be put
  back.

Otherwise the frames do come back.  Then the context, disposed later, releases frames
that it does not own; the module ends with a run in which this wipes the global frame.
-/
import CommandHost.Proofs.FrameStructure
import CommandHost.Proofs.Lifetime

namespace CommandHost

open Program Eval Dispatch

/-! ### Scopes -/

/-- A context has a scope frame only from before, and not if touching it has become a fault. -/
def Machine.KeepsScopes (m t : Machine) : Prop :=
  ∀ k c f, t.context? k = some c → c.scope = some f →
    (∃ c', m.context? k = some c' ∧ c'.scope = some f) ∧ (t.Faults k → m.Faults k)

/-- A step that moves no context puts no scope frame in place. -/
theorem Machine.Drifts.keepsScopes {m t : Machine} (h : m.Drifts t) : m.KeepsScopes t := by
  intro k c f hc hf
  rcases hm : m.context? k with - | c'
  · rw [h.eq_fresh hm hc] at hf
    cases hf
  · obtain ⟨c'', hc'', hr⟩ := h.retires k c' hm
    obtain rfl := Option.some.inj (hc.symm.trans hc'')
    rcases hr with rfl | ⟨-, d, rfl⟩
    · refine ⟨⟨c, rfl, hf⟩, fun hfault => ?_⟩
      rw [Machine.faults_iff hm, ← h.next.policy]
      exact (Machine.faults_iff hc).1 hfault
    · cases hf

/-- Changing one context in other slots keeps the scopes. -/
theorem Machine.keepsScopes_setContext {m : Machine} {id : ContextId}
    {g : ThreadContext → ThreadContext} (hs : ∀ c, (g c).scope = c.scope)
    (hd : ∀ c, (g c).disposed = c.disposed) :
    m.KeepsScopes (m.setContext id (g (m.context id))) := by
  intro k c f hc hf
  have hk := m.context?_setContext_apply id k g
  have hfaults {c' : ThreadContext} (hc' : m.context? k = some c')
      (he : c.disposed = c'.disposed) :
      (m.setContext id (g (m.context id))).Faults k → m.Faults k := by
    rw [faults_iff hc, faults_iff hc', he]
    exact fun h => h
  split at hk
  · obtain ⟨c', hc', rfl⟩ := Option.map_eq_some_iff.1 (hk.symm.trans hc)
    exact ⟨⟨c', hc', (hs c').symm.trans hf⟩, hfaults hc' (hd c')⟩
  · exact ⟨⟨c, hk.symm.trans hc, hf⟩, hfaults (hk.symm.trans hc) rfl⟩

/-- Neither does a bracket that is none of a scope. -/
theorem Machine.Shifts.keepsScopes {b : Bracket} (hb : ¬ b.slots .scope) {m t : Machine}
    (h : m.Shifts b t) : m.KeepsScopes t := by
  have hsame : m.KeepsScopes m := fun k c f hc hf => ⟨⟨c, hc, hf⟩, fun h => h⟩
  cases h with
  | rest | disposeFrame => exact hsame
  | @setSlot slot f hs _ =>
    refine keepsScopes_setContext (g := (·.setFrame slot f)) ?_ ?_
    · cases slot with
      | scope => exact absurd hs hb
      | _ => exact fun _ => rfl
    · cases slot <;> exact fun _ => rfl
  | mapStack g =>
    exact keepsScopes_setContext (g := fun c => { c with stack := c.stack.map g }) (fun _ => rfl)
      fun _ => rfl

/-- Scope frames are in place only while their scopes run, those of `S` aside. -/
def ScopedAt (S : ContextId → FrameId → Prop) (path : Path Stop Machine) (m : Machine) : Prop :=
  ∀ k c f, m.context? k = some c → c.scope = some f →
    (S k f ∨ Running path k f) ∧ ¬ m.Faults k

/-- The more programs are under way, the more scopes run. -/
theorem rising_scopedAt (S : ContextId → FrameId → Prop) : Rising (ScopedAt S) := by
  intro path m h q k c f hc hf
  obtain ⟨hS | ⟨inv, p, hid, hp⟩, hn⟩ := h k c f hc hf
  · exact ⟨.inl hS, hn⟩
  · exact ⟨.inr ⟨inv, p, hid, List.mem_cons_of_mem _ hp⟩, hn⟩

theorem ScopedAt.step {S : ContextId → FrameId → Prop} {path : Path Stop Machine} {m t : Machine}
    (h : ScopedAt S path m) (ht : m.KeepsScopes t) : ScopedAt S path t := by
  intro k c f hc hf
  obtain ⟨⟨c', hc', hf'⟩, hfault⟩ := ht k c f hc hf
  obtain ⟨hS, hn⟩ := h k c' f hc' hf'
  exact ⟨hS, fun hf => hn (hfault hf)⟩

/-- A run on whose way scope frames are in place only while their scopes run, as after it. -/
structure Scoping (S : ContextId → FrameId → Prop) {α : Type} (p : Eval α) (m : Machine) :
    Prop where
  along : p.Along (ScopedAt S) m
  after : ScopedAt S [] (p.run m).2

/-- All runs are of this kind that do not run out of depth. -/
def Scopes {α : Type} (p : Eval α) : Prop :=
  ∀ S m, ScopedAt S [] m → (p.run m).1 ≠ .error .exhausted → Scoping S p m

namespace Scoping

variable {S : ContextId → FrameId → Prop} {α β : Type} {m : Machine}

/-- Programs of which each step keeps the scopes. -/
theorem of_steps {p : Eval α} (h : p.Steps Machine.KeepsScopes) (hm : ScopedAt S [] m) :
    Scoping S p m := by
  have hrise (path : Path Stop Machine) {t : Machine} (ht : ScopedAt S [] t) :
      ScopedAt S path t := by
    induction path with
    | nil => exact ht
    | cons q path ih => exact rising_scopedAt S ih q
  exact ⟨fun x hx => hrise x.1 (h.points (fun _ _ hst hs => hs.step hst) hm x hx),
    h.run (fun _ _ hst hs => hs.step hst) hm⟩

/-- A program after another. -/
theorem handle {p : Eval β} {k : Except Stop β → Eval α} (hm : ScopedAt S [] m)
    (hp : Scoping S p m) (hk : Scoping S (k (p.run m).1) (p.run m).2) :
    Scoping S (handle p k) m :=
  ⟨along_handle (rising_scopedAt S) hm hp.along hk.along, hk.after⟩

theorem bind {p : Eval β} {k : β → Eval α} (hm : ScopedAt S [] m) (hp : Scoping S p m)
    (hk : ∀ b, (p.run m).1 = .ok b → Scoping S (k b) (p.run m).2) : Scoping S (p >>= k) m := by
  refine handle hm hp ?_
  rcases e : (p.run m).1 with err | b
  · exact of_steps (p := stop err) trivial hp.after
  · exact hk b e

theorem always {p : Eval α} {restore : Eval Unit} (hm : ScopedAt S [] m) (hp : Scoping S p m)
    (hr : Scoping S restore (p.run m).2) : Scoping S (always restore p) m := by
  have hend {t : Machine} (ht : ScopedAt S [] t) {q : Eval α} (hq : q.Steps Machine.KeepsScopes) :
      Scoping S q t := of_steps hq ht
  refine handle hm hp ?_
  exact restoring_induction (P := fun q => Scoping S q (p.run m).2)
    (Q := fun q => q.Steps Machine.KeepsScopes) (hend hp.after trivial) (fun _ => trivial)
    (fun _ => trivial) (fun k hk _ => handle hp.after hr (hend hr.after (hk _))) _

end Scoping

theorem Scopes.handle {α β : Type} {p : Eval β} {k : Except Stop β → Eval α} (hp : Scopes p)
    (hk : ∀ r, Scopes (k r)) (hx : k (.error .exhausted) = .stop .exhausted) :
    Scopes (handle p k) := by
  intro S m hm hout
  rw [run_handle] at hout
  have hpx : (p.run m).1 ≠ .error .exhausted := by
    intro he
    rw [he, hx] at hout
    exact hout rfl
  exact .handle hm (hp S m hm hpx) (hk _ S _ (hp S m hm hpx).after hout)

/-- Calls and `uplevel` have nothing to do with scopes. -/
theorem carries_scopes {b : Bracket} (hb : ¬ b.slots .scope) : Carries b (fun p => Scopes p) where
  shifts h _ _ hm _ := .of_steps (h.mono fun _ _ => Machine.Shifts.keepsScopes hb) hm
  handle := .handle

theorem Scopes.of_drifts {α : Type} {p : Eval α} (h : p.Steps Machine.Drifts) : Scopes p :=
  fun _ _ hm _ => .of_steps (h.mono fun _ _ ht => ht.keepsScopes) hm

theorem Slot.not_moved_scope : ¬ Slot.Moved .scope := by simp [Slot.Moved]

/-- Where nothing is under way no scope runs. -/
theorem ScopedAt.of_nil {S : ContextId → FrameId → Prop} {m : Machine} (h : ScopedAt S [] m)
    {k : ContextId} {c : ThreadContext} {f : FrameId} (hc : m.context? k = some c)
    (hf : c.scope = some f) : S k f ∧ ¬ m.Faults k := by
  obtain ⟨hS | ⟨_, _, _, hp⟩, hn⟩ := h k c f hc hf
  · exact ⟨hS, hn⟩
  · cases hp

theorem ScopedAt.mono {S S' : ContextId → FrameId → Prop} (hS : ∀ k g, S k g → S' k g)
    {path : Path Stop Machine} {m : Machine} (h : ScopedAt S path m) : ScopedAt S' path m := by
  intro k c f hc hf
  obtain ⟨hk, hn⟩ := h k c f hc hf
  exact ⟨hk.imp_left (hS k f), hn⟩

/-- Writing the scope slot of a context leaves the others alone. -/
theorem ScopedAt.writeScope {S S' : ContextId → FrameId → Prop} {m : Machine} {id : ContextId}
    (h : ScopedAt S [] m) {f : Option FrameId} (hS : ∀ {k g}, k ≠ id → S k g → S' k g)
    (hf : ∀ g, f = some g → S' id g) : ScopedAt S' [] ((writeFrame id .scope f).run m).2 := by
  rw [m.run_writeFrame]
  intro k c g hc hg
  split at hc
  · rename_i hfault
    rw [if_pos hfault]
    obtain ⟨hk, hn⟩ := h.of_nil hc hg
    -- the context of the scope is a fault, so the frame is that of another one
    have hid : k ≠ id := by
      rintro rfl
      exact hn hfault
    exact ⟨.inl (hS hid hk), hn⟩
  · rename_i hfault
    rw [if_neg hfault]
    let set (c : ThreadContext) : ThreadContext := c.setFrame .scope f
    have hkeep {c' : ThreadContext} (hc' : m.context? k = some c') (he : c.disposed = c'.disposed)
        (hn : ¬ m.Faults k) : ¬ (m.setContext id (set (m.context id))).Faults k := by
      rw [Machine.faults_iff hc, he]
      exact fun h => hn ((Machine.faults_iff hc').2 h)
    have hk := m.context?_setContext_apply id k set
    split at hk
    · rename_i hid
      subst hid
      obtain ⟨c', hc', rfl⟩ := Option.map_eq_some_iff.1 (hk.symm.trans hc)
      exact ⟨.inl (hf g hg), hkeep hc' rfl hfault⟩
    · rename_i hid
      have hm := hk.symm.trans hc
      obtain ⟨hSk, hn⟩ := h.of_nil hm hg
      exact ⟨.inl (hS hid hSk), hkeep hm rfl hn⟩

theorem Scoping.of_reads {S : ContextId → FrameId → Prop} {α : Type} {p : Eval α} {m : Machine}
    (h : p.Reads) (hm : ScopedAt S [] m) : Scoping S p m := by
  refine of_steps (Steps.mono (fun m t ht => ?_) h) hm
  subst ht
  exact fun k c f hc hf => ⟨⟨c, hc, hf⟩, fun h => h⟩

theorem Scoping.writeFrame {S : ContextId → FrameId → Prop} {m : Machine} {id : ContextId}
    {slot : Slot} {f : Option FrameId} (hm : ScopedAt S [] m)
    (ht : ScopedAt S [] ((Eval.writeFrame id slot f).run m).2) :
    Scoping S (Eval.writeFrame id slot f) m :=
  ⟨along_act (rising_scopedAt S) hm ht, ht⟩

/-- A scope puts back what was in the slot before it. -/
theorem scopes_inScope {p : Eval Value} (inv : Invocation) (scope : Option FrameId)
    (hp : Scopes p) : Scopes (Dispatch.inScope inv scope p) := by
  intro S m hm hx
  rcases scope with - | f
  · exact .of_steps (p := stop _) trivial hm
  let id := inv.context
  have hread : (readFrame id .scope).Reads := reads_readContext _ _
  by_cases hfault : m.Faults id
  · -- the scope is not even opened
    refine .bind hm (.of_reads hread hm) fun b hb => ?_
    rw [m.run_readFrame, if_pos hfault] at hb
    cases hb
  obtain ⟨c, hc⟩ := m.exists_of_not_faults hfault
  have hbefore : (readFrame id .scope).run m = (.ok c.scope, m) := by
    rw [m.run_readFrame, if_neg hfault, Machine.context_of_some hc]
    rfl
  -- inside, the frame of the scope is allowed as well
  let S' : ContextId → FrameId → Prop := fun k g => S k g ∨ k = id ∧ g = f
  have hm' : ScopedAt S' [] m := hm.mono fun _ _ => .inl
  let t := ((writeFrame id .scope (some f)).run m).2
  have ht : ScopedAt S' [] t :=
    hm.writeScope (fun _ => .inl) fun g hg => .inr ⟨rfl, (Option.some.inj hg).symm⟩
  have hopen : (writeFrame id .scope (some f)).run m = (.ok (), t) := by
    simp only [t, m.run_writeFrame, if_neg hfault]
  have hrun : (Dispatch.inScope inv (some f) p).run m =
      (Eval.always (writeFrame id .scope c.scope) p).run t := by
    rw [Dispatch.inScope, run_bind, hbefore]
    show ((writeFrame id .scope (some f) >>= fun _ => _).run m) = _
    rw [run_bind, hopen]
  have hpx : (p.run t).1 ≠ .error .exhausted := by
    intro he
    rw [hrun, run_always_exhausted he] at hx
    exact hx rfl
  have hin : Scoping S' p t := hp S' t ht hpx
  have hafter : ScopedAt S [] ((writeFrame id .scope c.scope).run (p.run t).2).2 := by
    refine hin.after.writeScope (fun hk hS => hS.resolve_right fun h => hk h.1) fun g hg => ?_
    exact (hm.of_nil hc hg).1
  have hall : Scoping S' (Dispatch.inScope inv (some f) p) m := by
    refine .bind hm' (.of_reads hread hm') fun b hb => ?_
    rw [hbefore] at hb ⊢
    obtain rfl := Except.ok.inj hb
    have hrestored : ScopedAt S' [] ((writeFrame id .scope c.scope).run (p.run t).2).2 :=
      hafter.mono fun _ _ => .inl
    refine .bind hm' (.writeFrame hm' ht) fun _ _ => .always ht hin ?_
    exact .writeFrame hin.after hrestored
  refine ⟨fun x hmem k c g hc hg => ?_, ?_⟩
  · -- the scope is on the path
    obtain ⟨(hS | ⟨rfl, rfl⟩) | hrunning, hn⟩ := hall.along x hmem k c g hc hg
    · exact ⟨.inl hS, hn⟩
    · exact ⟨.inr ⟨inv, p, rfl, mem_path_of_mem_points hmem⟩, hn⟩
    · exact ⟨.inr hrunning, hn⟩
  · rw [hrun, run_always_snd hpx]
    exact hafter

/-- By induction over brackets; that of a scope is the one case with something to show. -/
theorem Bracketed.scopes {α : Type} {p : Eval α} (h : Bracketed p) : Scopes p := by
  induction h with
  | done a | stop s => exact .of_drifts trivial
  | act h => exact .of_drifts (p := Program.act _) h
  | handle _ _ hx ihp ihk => exact .handle ihp ihk hx
  | uplevel inv level _ ih => exact (carries_scopes Slot.not_moved_scope).uplevel level ih
  | inScope inv scope _ ih => exact scopes_inScope inv scope ih
  | call inv name params args _ ih =>
    exact Carries.call (fun _ => carries_scopes Slot.not_moved_scope)
      (.of_drifts (drifts_callFrame inv name params args)) ih

/-! ### Frames that are put back -/

/-- A context without call stack and frames, a scope aside. -/
structure Context.Bare (c : ThreadContext) : Prop where
  stack : c.stack = none
  global : c.global = none
  current : c.current = none
  procedure : c.procedure = none
  uplevel : c.uplevel = none

theorem Context.Bare.retires {c c' : ThreadContext} (h : Context.Bare c) (hr : c.Retires c') :
    Context.Bare c' := by
  rcases hr with rfl | ⟨-, d, rfl⟩
  · exact h
  · exact ⟨rfl, rfl, rfl, rfl, rfl⟩

/-- The context is there and bare. -/
def Machine.Vacant (k : ContextId) (m : Machine) : Prop :=
  ∃ c, m.context? k = some c ∧ Context.Bare c

namespace Machine

variable {k : ContextId} {m t : Machine}

/-- A vacant context stays so while no bracket puts a frame back. -/
theorem Vacant.drifts (h : m.Vacant k) (ht : m.Drifts t) : t.Vacant k := by
  obtain ⟨c, hc, hb⟩ := h
  obtain ⟨c', hc', hr⟩ := ht.retires k c hc
  exact ⟨c', hc', hb.retires hr⟩

/-- Brackets on other contexts, and scopes on any, leave a context bare. -/
theorem Vacant.shifts (h : m.Vacant k) {b : Bracket}
    (hslots : k = b.context → ∀ slot, b.slots slot → slot = .scope) (ht : m.Shifts b t) :
    t.Vacant k := by
  obtain ⟨c, hc, hb⟩ := h
  cases ht with
  | rest | disposeFrame => exact ⟨c, hc, hb⟩
  | @setSlot slot f hs _ =>
    have hk := m.context?_setContext_apply b.context k (·.setFrame slot f)
    rw [hc] at hk
    split at hk
    · rename_i hid
      -- the one slot of the context that is written is that of the scope
      obtain rfl := hslots hid slot hs
      exact ⟨_, hk, hb.stack, hb.global, hb.current, hb.procedure, hb.uplevel⟩
    · exact ⟨c, hk, hb⟩
  | mapStack g =>
    have hk := m.context?_setContext_apply b.context k fun c => { c with stack := c.stack.map g }
    rw [hc] at hk
    split at hk
    · refine ⟨_, hk, ?_, hb.global, hb.current, hb.procedure, hb.uplevel⟩
      show c.stack.map g = none
      rw [hb.stack]
      rfl
    · exact ⟨c, hk, hb⟩

end Machine

/-- The brackets on a context that put a current frame back. -/
inductive Returns (k : ContextId) : (α : Type) × Eval α → Prop
  | uplevel {inv : Invocation} (h : inv.context = k) (level : Int) (p : Eval Value) :
      Returns k ⟨Value, Dispatch.uplevel inv level p⟩
  | call {inv : Invocation} (h : inv.context = k) (name : String) (params : List String)
      (args : List Value) (p : Eval Value) :
      Returns k ⟨Value, Dispatch.callProcedure inv name params args p⟩

/-- Neither a call nor an `uplevel` is under way on the context. -/
def Still (k : ContextId) (path : Path Stop Machine) : Prop := ∀ q ∈ path, ¬ Returns k q

/-- A program that leaves a context bare: from its start on, and from any point on at which it has
no bracket open that puts frames back. -/
structure Vacates (k : ContextId) {α : Type} (p : Eval α) : Prop where
  along : p.Maintains (·.Vacant k)
  later : ∀ m : Machine, (p.points m).Pairwise fun x y =>
    Still k x.1 → x.2.Vacant k → y.2.Vacant k

namespace Vacates

variable {k : ContextId} {α β : Type}

theorem run_of_point {p : Eval α} (h : Vacates k p) {m : Machine} {x : Path Stop Machine × Machine}
    (hx : x ∈ p.points m) (hs : Still k x.1) (hv : x.2.Vacant k) : (p.run m).2.Vacant k := by
  obtain ⟨path, hlast⟩ := getLast?_points p m
  obtain ⟨points, hpoints⟩ := List.getLast?_eq_some_iff.1 hlast
  have hlater := h.later m
  rw [hpoints] at hx hlater
  rcases List.mem_append.1 hx with hx | hx
  · exact (List.pairwise_append.1 hlater).2.2 x hx _ (List.mem_singleton_self _) hs hv
  · obtain rfl := List.mem_singleton.1 hx
    exact hv

theorem run {p : Eval α} (h : Vacates k p) {m : Machine} (hm : m.Vacant k) :
    (p.run m).2.Vacant k :=
  (h.along m hm).run

/-- From a point of the first program, the second one is reached through its end. -/
theorem handle {p : Eval β} {f : Except Stop β → Eval α} (hp : Vacates k p)
    (hf : ∀ r, Vacates k (f r)) : Vacates k (handle p f) := by
  have halong : (Program.handle p f).Maintains (·.Vacant k) :=
    hp.along.handle fun r => (hf r).along
  refine ⟨halong, fun m => ?_⟩
  have hstill {q : (α : Type) × Eval α} {path : Path Stop Machine} (h : Still k (q :: path)) :
      Still k path := fun r hr => h r (List.mem_cons_of_mem _ hr)
  rw [points, List.pairwise_cons, List.pairwise_map, List.pairwise_append]
  refine ⟨?_, (hp.later m).imp fun h hs => h (hstill hs),
    ((hf _).later _).imp fun h hs => h (hstill hs), ?_⟩
  · intro y hy _ hm
    exact halong m hm y (List.mem_cons_of_mem _ hy)
  · intro x hx y hy hs hv
    -- from a point of the first program through its end
    exact (hf _).along _ (hp.run_of_point hx (hstill hs) hv) y hy

theorem of_steps {p : Eval α} (h : p.Steps fun m t => m.Vacant k → t.Vacant k) : Vacates k p := by
  induction p with
  | done a | stop e => exact ⟨.of_steps h, fun m => List.pairwise_singleton _ _⟩
  | act f =>
    refine ⟨.of_steps h, fun m => ?_⟩
    simpa [points] using fun _ => h m
  | handle p f ihp ihf => exact handle (ihp h.1) fun r => ihf r (h.2 r)

/-- Within a bracket that puts frames back, there is nothing to show of later points. -/
theorem of_returns {p : Eval α} (hq : Returns k ⟨α, p⟩) (h : p.Maintains (·.Vacant k)) :
    Vacates k p := by
  refine ⟨h, fun m => List.pairwise_of_forall_mem_list fun x hx y _ hs => ?_⟩
  exact absurd hq (hs _ (mem_path_of_mem_points hx))

theorem carries {b : Bracket} (hslots : k = b.context → ∀ slot, b.slots slot → slot = .scope) :
    Carries b (fun p => Vacates k p) :=
  ⟨fun h => of_steps (h.mono fun _ _ ht hm => hm.shifts hslots ht), fun hp hk _ => hp.handle hk⟩

/-- A program that goes on only with an answer that a bare context does not give. -/
theorem throughout_bind_of_ne_ok {p : Eval β} {f : β → Eval α} {m : Machine} (hm : m.Vacant k)
    (hp : p.Maintains (·.Vacant k)) (hn : ∀ b, (p.run m).1 ≠ .ok b) :
    (p >>= f).Throughout (·.Vacant k) m :=
  (hp m hm).bind fun b hb => absurd hb (hn b)

/-- In a bare context there is no frame to move up from. -/
theorem uplevel {inv : Invocation} {level : Int} {p : Eval Value} (hp : Vacates k p) :
    Vacates k (Dispatch.uplevel inv level p) := by
  by_cases hk : k = inv.context
  · subst hk
    refine of_returns (.uplevel rfl level p) fun m hm => ?_
    have hreads : (frameAbove inv level).Reads := reads_frameAbove inv level
    refine throughout_bind_of_ne_ok hm (.of_reads hreads) fun b hb => ?_
    obtain ⟨f, hf, -⟩ := (reads_frame inv).of_bind_ok hb
    have hread : (readFrame inv.context .current).Reads := reads_readContext _ _
    obtain ⟨current, hcurrent, e⟩ := hread.of_bind_ok hf
    obtain ⟨c, hc, hbare⟩ := hm
    obtain ⟨c', hc', rfl⟩ := exists_of_readFrame hcurrent
    obtain rfl := Option.some.inj (hc.symm.trans hc')
    -- the context has no current frame, so there is none above it
    have hnone : c.frame .current = none := hbare.current
    rw [Invocation.frame, e, hnone] at hf
    cases hf
  · exact (carries fun h => absurd h hk).uplevel level hp

/-- In a bare context there is no call stack for a call. -/
theorem call {inv : Invocation} {name : String} {params : List String} {args : List Value}
    {p : Eval Value} (hp : Vacates k p) :
    Vacates k (Dispatch.callProcedure inv name params args p) := by
  by_cases hk : k = inv.context
  · subst hk
    refine of_returns (.call rfl name params args p) fun m hm => ?_
    have hdrifts : (callFrame inv name params args).Maintains (·.Vacant inv.context) :=
      .of_steps ((drifts_callFrame inv name params args).mono fun _ _ ht h => h.drifts ht)
    refine throughout_bind_of_ne_ok hm hdrifts fun b hb => ?_
    obtain ⟨s, -, hs, -⟩ := run_callFrame hb
    obtain ⟨c, hc, hbare⟩ := hm
    rw [Machine.context_of_some hc, hbare.stack] at hs
    cases hs
  · refine Carries.call (fun _ => carries fun h => absurd h hk) ?_ hp
    exact of_steps ((drifts_callFrame inv name params args).mono fun _ _ ht h => h.drifts ht)

end Vacates

/-- Bracketed programs leave a bare context bare. -/
theorem Bracketed.vacates {α : Type} {p : Eval α} (h : Bracketed p) (k : ContextId) :
    Vacates k p := by
  induction h with
  | done a | stop s => exact .of_steps trivial
  | act h => exact .of_steps (p := Program.act _) fun m hm => hm.drifts (h m)
  | handle _ _ _ ihp ihk => exact .handle ihp ihk
  | uplevel inv level _ ih => exact .uplevel ih
  | inScope inv scope _ ih => exact (Vacates.carries fun _ _ h => h).inScope scope ih
  | call inv name params args _ ih => exact .call ih

/-! ### Histories -/

namespace Machine

theorem scopedAt_start (s : Setup) (S : ContextId → FrameId → Prop) : ScopedAt S [] (start s) := by
  intro k c f hc
  simp [context?, start, loggedHere, logged] at hc

/-- Throughout a history scope frames are in place only while their scopes run. -/
theorem scopedAt_of_mem_history {s : Setup} {calls : List (Nat × HostCall)}
    {x : Path Stop Machine × Machine} (hx : x ∈ (start s).history calls) :
    ScopedAt (fun _ _ => False) x.1 x.2 := by
  refine history_along (fun m hm => hm.step m.drifts_silent.keepsScopes) ?_ (scopedAt_start s _) hx
  intro depth call m hm hout
  have h := (Bracketed.perform depth none call).scopes _ m hm hout
  exact ⟨h.along, h.after⟩

/-- A bare context is bare in all that follows, if no bracket is open that puts frames back. -/
theorem history_vacant_at (k : ContextId) (m : Machine) (calls : List (Nat × HostCall)) :
    (m.history calls).Pairwise fun x y => Still k x.1 → x.2.Vacant k → y.2.Vacant k := by
  have hcall (depth : Nat) (call : HostCall) :
      Vacates k (Host.perform (Evaluation.cached depth) none call) :=
    (Bracketed.perform depth none call).vacates k
  have hall {m : Machine} (hm : m.Vacant k) {calls : List (Nat × HostCall)}
      {y : Path Stop Machine × Machine} (hy : y ∈ m.history calls) : y.2.Vacant k :=
    history_along (Q := fun _ t => t.Vacant k) (fun m h => h.drifts m.drifts_silent)
      (fun depth call m h _ => ⟨(hcall depth call).along m h, (hcall depth call).run h⟩) hm hy
  induction calls generalizing m with
  | nil => exact List.pairwise_singleton _ _
  | cons c calls ih =>
    obtain ⟨depth, call⟩ := c
    have hfirst {y : Path Stop Machine × Machine} (hy : y ∈ m.history ((depth, call) :: calls))
        (hm : m.Vacant k) : y.2.Vacant k := hall hm hy
    rw [history] at hfirst ⊢
    refine List.pairwise_cons.2 ⟨fun y hy _ hm => hfirst (List.mem_cons_of_mem _ hy) hm, ?_⟩
    split
    · exact .nil
    · refine List.pairwise_append.2 ⟨(hcall depth call).later _, ih _, fun x hx y hy hs hv => ?_⟩
      -- from a point of the call through its end
      exact hall ((hcall depth call).run_of_point hx hs hv) hy

/-- A context that is vacant while no call and no `uplevel` is under way on it stays vacant. -/
theorem history_vacant (m : Machine) (calls : List (Nat × HostCall)) :
    (m.history calls).Pairwise fun x y => ∀ k, Still k x.1 → x.2.Vacant k → y.2.Vacant k := by
  refine List.pairwise_iff_getElem.2 fun i j hi hj hij k => ?_
  exact List.pairwise_iff_getElem.1 (history_vacant_at k m calls) i j hi hj hij

/-- A context whose touch is a fault stays as it is, if it has no call stack. -/
def Freezes (m t : Machine) : Prop :=
  ∀ k c, m.context? k = some c → c.stack = none → m.Faults k →
    t.context? k = some c ∧ t.Faults k

/-- A context that is a fault to touch is not touched. -/
theorem Takes.freezes {m t : Machine} (h : m.Takes t) : m.Freezes t := by
  intro k c hc hs hf
  have hc' := h.context?_of_faults hf hc hs
  refine ⟨hc', ?_⟩
  rw [faults_iff hc', h.next.policy]
  exact (faults_iff hc).1 hf

theorem Freezes.trans {m t u : Machine} (h : m.Freezes t) (h' : t.Freezes u) : m.Freezes u := by
  intro k c hc hs hf
  obtain ⟨hc', hf'⟩ := h k c hc hs hf
  exact h' k c hc' hs hf'

/-- A context that holds nothing releases nothing. -/
theorem frames_of_held_nil {m : Machine} {k : ContextId} {c : ThreadContext}
    (hc : m.context? k = some c) (hh : c.held = []) (shared : Bool) :
    (m.freeContext k shared).frames = m.frames ∧ (m.disposeContext k).frames = m.frames := by
  have hfree : (m.context k).free.1 = [] := by
    rw [context_of_some hc, Context.free]
    split
    · rfl
    · exact hh
  have hdispose : (m.context k).dispose.1 = [] := by
    rw [context_of_some hc, Context.dispose]
    split
    · rfl
    · exact hh
  constructor
  · show (m.context k).free.1.foldl (releaseHeld shared) m.frames = m.frames
    rw [hfree]
    rfl
  · show (m.context k).dispose.1.foldl (releaseHeld true) m.frames = m.frames
    rw [hdispose]
    rfl

end Machine

/-- A context holds nothing just if it is bare and has no scope. -/
theorem Context.held_eq_nil_iff {c : ThreadContext} :
    c.held = [] ↔ Context.Bare c ∧ c.scope = none := by
  -- what a context holds is its stack and what its slots have
  have hslots : c.held = [] ↔ c.stack = none ∧ ∀ slot ∈ Slot.all, c.frame slot = none := by
    simp [held, List.filterMap_eq_nil_iff]
  rw [hslots]
  constructor
  · rintro ⟨hs, hf⟩
    exact ⟨⟨hs, hf .global (by decide), hf .current (by decide), hf .procedure (by decide),
      hf .uplevel (by decide)⟩, hf .scope (by decide)⟩
  · rintro ⟨h, hscope⟩
    refine ⟨h.stack, fun slot _ => ?_⟩
    cases slot with
    | uplevel => exact h.uplevel
    | procedure => exact h.procedure
    | current => exact h.current
    | scope => exact hscope
    | global => exact h.global

theorem Context.held_of_retired {c : ThreadContext} (hd : c.disposed = false) :
    c.free.2.held = [] ∧ c.dispose.2.held = [] := by
  have hempty (disposed : Bool) : ({ disposed } : ThreadContext).held = [] := rfl
  simp [free, dispose, hd, hempty]

/-- **What becomes of an emptied context**: freeing and disposing empty a context.  From then on it
has no call stack and no global frame, and a scope frame only while the scope runs.  If touching it
is a fault it does not change any more.  If neither a call nor an `uplevel` was under way on it, it
has no other frame either.  So in both cases it holds nothing, no scope running, and to free or
dispose it again changes no frame. -/
theorem emptied_context_stays_empty (s : Setup) (calls : List (Nat × HostCall)) :
    (∀ x ∈ (Machine.start s).history calls, ∀ k c, x.2.context? k = some c → c.disposed = false →
      ∀ shared, ((x.2.freeContext k shared).context k).held = [] ∧
        ((x.2.disposeContext k).context k).held = []) ∧
    ((Machine.start s).history calls).Pairwise fun x y => ∀ k c, x.2.context? k = some c →
      c.held = [] → ∃ c', y.2.context? k = some c' ∧ c'.stack = none ∧ c'.global = none ∧
        (∀ f, c'.scope = some f → Running y.1 k f) ∧ (x.2.Faults k → c' = c) ∧
        (x.2.Faults k ∨ Still k x.1 →
          (c'.current = none ∧ c'.procedure = none ∧ c'.uplevel = none) ∧
          ((∀ f, ¬ Running y.1 k f) → c'.held = [] ∧ ∀ shared,
            (y.2.freeContext k shared).frames = y.2.frames ∧
              (y.2.disposeContext k).frames = y.2.frames)) := by
  refine ⟨fun x _ k c hc hd shared => ?_, ?_⟩
  · have hfree := x.2.context?_freeContext k shared k
    have hdispose := x.2.context?_disposeContext k k
    rw [if_pos rfl, hc] at hfree hdispose
    rw [Machine.context_of_some hfree, Machine.context_of_some hdispose]
    exact Context.held_of_retired hd
  have hages := Machine.history_pairwise Built.takes_perform Machine.takes_silent
    Machine.Ages.refl .trans (fun _ _ => Machine.Takes.ages) (Machine.start s) calls
  have hfreezes := Machine.history_pairwise Built.takes_perform Machine.takes_silent
    (fun _ _ _ hc _ hf => ⟨hc, hf⟩) .trans (fun _ _ => Machine.Takes.freezes) (Machine.start s)
    calls
  have hvacant := Machine.history_vacant (Machine.start s) calls
  refine (hages.and (hfreezes.and hvacant)).imp_of_mem fun {x y} _ hy hxy k c hc hheld => ?_
  obtain ⟨hage, hfreeze, hvacant⟩ := hxy
  obtain ⟨hbare, hscope⟩ := Context.held_eq_nil_iff.1 hheld
  obtain ⟨c', hc', ha⟩ := hage k c hc
  -- each slot for itself
  have hstack : c'.stack = none := by
    rcases ha with ⟨-, -, -, hs⟩ | ⟨-, -, -, hs⟩
    · exact hs hbare.stack
    · exact hs
  have hglobal : c'.global = none := by
    rcases ha with ⟨-, -, hg, -⟩ | ⟨-, -, hg, -⟩
    · exact hg.trans hbare.global
    · exact hg
  have hrunning (f : FrameId) (hf : c'.scope = some f) : Running y.1 k f :=
    (Machine.scopedAt_of_mem_history hy k c' f hc' hf).1.resolve_left not_false
  have hsame (hf : x.2.Faults k) : c' = c :=
    Option.some.inj (hc'.symm.trans (hfreeze k c hc hbare.stack hf).1)
  have hbare' (h : x.2.Faults k ∨ Still k x.1) : Context.Bare c' := by
    rcases h with hf | hs
    · exact hsame hf ▸ hbare
    · obtain ⟨c'', hc'', hb⟩ := hvacant k hs ⟨c, hc, hbare⟩
      exact Option.some.inj (hc''.symm.trans hc') ▸ hb
  refine ⟨c', hc', hstack, hglobal, hrunning, hsame, fun h => ⟨⟨(hbare' h).current,
    (hbare' h).procedure, (hbare' h).uplevel⟩, fun hnone => ?_⟩⟩
  have hheld' : c'.held = [] := by
    refine Context.held_eq_nil_iff.2 ⟨hbare' h, ?_⟩
    rcases hf : c'.scope with - | f
    · rfl
    · exact absurd (hrunning f hf) (hnone f)
  exact ⟨hheld', Machine.frames_of_held_nil hc' hheld'⟩

/-- A context is freed between two calls, and disposed after a variable was set. -/
def freedBetween : List (Path Stop Machine × Machine) :=
  (Machine.start { id := "host" }).history [(2, .context (some "c")),
    (2, .freeContext (.saved "c") false), (2, .invoke "set" [.text "x", .text "kept"]),
    (2, .disposeContext (.saved "c"))]

/-- A context that is freed while nothing runs on it is disposed without a trace. -/
theorem emptied_context_stays_empty_between :
    ∃ x ∈ freedBetween, ∃ y ∈ freedBetween, (x.2.context ⟨0⟩).stage = .active ∧
      ((x.2.freeContext ⟨0⟩ false).context ⟨0⟩).held = [] ∧
      (y.2.context ⟨0⟩).stage = .detached ∧ (y.2.context ⟨0⟩).held = [] ∧
      (y.2.disposeContext ⟨0⟩).frames = y.2.frames := by
  obtain ⟨hempties, hpairs⟩ := emptied_context_stays_empty { id := "host" } _
  change ∀ x ∈ freedBetween, _ at hempties
  change freedBetween.Pairwise _ at hpairs
  obtain ⟨x, hx, hc, hopen, hactive⟩ : ∃ x ∈ freedBetween,
      x.2.context? ⟨0⟩ = some (x.2.context ⟨0⟩) ∧ (x.2.context ⟨0⟩).disposed = false ∧
        (x.2.context ⟨0⟩).stage = .active := by decide +kernel
  -- between two calls the context is empty, and between two later ones it has left its thread
  obtain ⟨w, -, y, hy, hlater, hfreed, hleft⟩ := exists_later hpairs
    (P := fun w y => (w.2.context? ⟨0⟩ = some (w.2.context ⟨0⟩) ∧ (w.2.context ⟨0⟩).held = [] ∧
      w.1.isEmpty = true) ∧ (y.2.context ⟨0⟩).stage = .detached ∧ y.1.isEmpty = true)
    (by decide +kernel)
  obtain ⟨hw, hempty, hidle⟩ := hfreed
  obtain ⟨hdetached, hidle'⟩ := hleft
  obtain ⟨c, hcy, -, -, -, -, hstill⟩ := hlater ⟨0⟩ _ hw hempty
  obtain ⟨-, hnone⟩ := hstill (.inr fun q hq => by simp [List.isEmpty_iff.1 hidle] at hq)
  obtain ⟨hheld, hframes⟩ := hnone fun f ⟨_, _, _, hf⟩ => by
    simp [List.isEmpty_iff.1 hidle'] at hf
  rw [← Machine.context_of_some hcy] at hheld
  exact ⟨x, hx, y, hy, hactive, (hempties x hx ⟨0⟩ _ hc hopen false).1, hdetached, hheld,
    (hframes false).2⟩

/-- A procedure frees the context it runs on; later the context is disposed. -/
def freedWithin : List (Path Stop Machine × Machine) :=
  (Machine.start { id := "host" }).history [(2, .invoke "set" [.text "x", .text "kept"]),
    (2, .context (some "c")),
    (2, .defineProcedure "p" [] (some [.host (.freeContext .running false)])),
    (2, .invoke "p" []), (2, .disposeContext (.saved "c"))]

/-- The variables that a machine shares between all contexts. -/
def Machine.sharedVariable (m : Machine) (name : String) : Option Value :=
  (m.frames.get? globalFrame).bind (·.get? name)

/-- A context that is freed while a procedure runs on it gets the global frame back, and disposing
it then wipes the variables that all contexts share. -/
theorem emptied_context_refilled :
    ¬ freedWithin.Pairwise (fun x y => (x.2.context? ⟨0⟩).isSome = true →
      (x.2.context ⟨0⟩).held = [] → (y.2.context ⟨0⟩).held = []) ∧
    ∃ y ∈ freedWithin, (y.2.context ⟨0⟩).stage = .detached ∧
      y.2.sharedVariable "x" = some (.text "kept") ∧
      (y.2.disposeContext ⟨0⟩).sharedVariable "x" = none := by
  constructor
  · decide +kernel
  · decide +kernel

end CommandHost
