/-
CommandHost/Proofs/Containment.lean

Faults: how far they get, and that nothing hides them.

Under the strict policy, touching a disposed context is a fault.  It passes through
everything that handles errors, such as statements that catch them and procedures
that take returns, up to the nearest invocation, which reports it as an error.  So an
invocation never ends with a fault.

Brackets touch their context last of all, when they put its frames back.  If the
context was disposed while the bracket was open, that is a fault, and it takes the
place of whatever the program inside came to.  Brackets further out may fault in turn
and replace it, but by nothing other than a fault (`Yields`).  In the end the
invocation whose command opened the bracket reports a fault.
-/
import CommandHost.Proofs.Composition
import CommandHost.Proofs.Lifetime

namespace CommandHost

open Program Eval Dispatch

/-! ### Disposed contexts -/

/-- Touching the context is a fault, from now on. -/
structure Machine.Dead (k : ContextId) (m : Machine) : Prop where
  policy : m.policy.current = .strict
  disposed : ∃ c, m.context? k = some c ∧ c.disposed = true

namespace Machine

variable {k : ContextId} {m t : Machine}

theorem Dead.faults (h : m.Dead k) : m.Faults k := by
  obtain ⟨c, hc, hd⟩ := h.disposed
  exact (faults_iff hc).2 ⟨hd, h.policy⟩

/-- Contexts only age, and the policy stays, so what is dead stays dead. -/
theorem Takes.dead (h : m.Takes t) (hm : m.Dead k) : t.Dead k := by
  obtain ⟨c, hc, hd⟩ := hm.disposed
  obtain ⟨c', hc', ha⟩ := h.ages k c hc
  exact ⟨h.next.policy.trans hm.policy, c', hc', ha.disposed hd⟩

/-- Brackets themselves dispose no context. -/
theorem Shifts.dead {b : Bracket} (h : m.Shifts b t) (ht : t.Dead k) : m.Dead k := by
  -- both rewrite the context of the bracket, and not what is disposed in it
  have hset {g : ThreadContext → ThreadContext} (hg : ∀ c, (g c).disposed = c.disposed)
      (hd : ∃ c, (m.setContext b.context (g (m.context b.context))).context? k = some c ∧
        c.disposed = true) : ∃ c, m.context? k = some c ∧ c.disposed = true := by
    obtain ⟨c, hc, hd⟩ := hd
    rw [m.context?_setContext_apply] at hc
    split at hc
    · obtain ⟨c', hc', rfl⟩ := Option.map_eq_some_iff.1 hc
      exact ⟨c', hc', (hg c').symm.trans hd⟩
    · exact ⟨c, hc, hd⟩
  refine ⟨h.next.policy.symm.trans ht.policy, ?_⟩
  cases h with
  | rest | disposeFrame => exact ht.disposed
  | @setSlot slot f =>
    refine hset (g := (·.setFrame slot f)) ?_ ht.disposed
    cases slot <;> exact fun _ => rfl
  | mapStack g =>
    refine hset (g := fun c => { c with stack := c.stack.map g }) ?_ ht.disposed
    exact fun _ => rfl

end Machine

/-! ### Open brackets -/

/-- What a bracket on a context does at its end. -/
inductive Restores (k : ContextId) : Eval Unit → Prop
  | uplevel (current before : Option FrameId) : Restores k (moveTo k current before)
  | scope (before : Option FrameId) : Restores k (writeFrame k .scope before)
  | call (frame : FrameId) (current procedure : Option FrameId) :
      Restores k (leaveCall k frame current procedure)

/-- A bracket on the context that is open. -/
inductive OpenBracket (k : ContextId) : (α : Type) × Eval α → Prop
  | restoring {restore : Eval Unit} (p : Eval Value) (h : Restores k restore) :
      OpenBracket k ⟨Value, always restore p⟩

/-- An outcome that is not the program's own: a fault, or that the depth did not suffice. -/
inductive Faulty {α : Type} : Except Stop α → Prop
  | fault (a : Accessor) : Faulty (.error (.fault a))
  | exhausted : Faulty (.error .exhausted)

namespace Restores

variable {k : ContextId} {restore : Eval Unit}

/-- Restoring only moves the context of the bracket. -/
theorem shifts (h : Restores k restore) : ∃ b, restore.Steps (Machine.Shifts b) := by
  cases h with
  | uplevel current before => exact ⟨_, shifts_moveTo k current before⟩
  | scope before => exact ⟨_, shifts_writeFrame (.scoping k) rfl before⟩
  | call frame current procedure => exact ⟨_, shifts_leaveCall k frame current procedure⟩

/-- The frames of a disposed context cannot be put back. -/
theorem fault (h : Restores k restore) {m : Machine} (hm : m.Dead k) :
    ∃ a, (restore.run m).1 = .error (.fault a) := by
  -- all three write a slot of the context sooner or later
  have hwrite (slot : Slot) (f : Option FrameId) {m : Machine} (hm : m.Dead k) :
      (writeFrame k slot f).run m = (.error (.fault (.setFrame slot)), m) := by
    rw [m.run_writeFrame, if_pos hm.faults]
  cases h with
  | uplevel current before =>
    refine ⟨.setFrame .current, ?_⟩
    rw [moveTo, run_bind, hwrite .current current hm]
  | scope before =>
    refine ⟨.setFrame .scope, ?_⟩
    rw [hwrite .scope before hm]
  | call frame current procedure =>
    -- popping the stack and disposing the frame do not touch the context
    let popped := m.after (.setStack k ((m.context k).stack.map (·.pop)))
    have hpopped : popped.Dead k :=
      Machine.Takes.dead ⟨.setStack k _, ⟨(·.pop), rfl⟩, rfl⟩ hm
    have hleft : (popped.after (.disposeFrame frame)).Dead k :=
      Machine.Takes.dead ⟨.disposeFrame frame, trivial, rfl⟩ hpopped
    refine ⟨.setFrame .current, ?_⟩
    show ((writeFrame k .current current >>= fun _ => writeFrame k .procedure procedure).run
      (popped.after (.disposeFrame frame))).1 = _
    rw [run_bind, hwrite .current current hleft]

/-- A bracket whose context is disposed at any moment ends with a fault. -/
theorem faulty (h : Restores k restore) {p : Eval Value} (hp : p.Steps Machine.Takes)
    {m : Machine} {x : Path Stop Machine × Machine} (hx : x ∈ (always restore p).points m)
    (hd : x.2.Dead k) : Faulty ((always restore p).run m).1 := by
  have hpoints : x ∈ (handle p (Eval.restoring restore)).points m := hx
  -- wherever the point is, the context is dead when the program inside is over
  have hend : (p.run m).2.Dead k := by
    simp only [points, List.mem_cons, List.mem_map, List.mem_append] at hpoints
    rcases hpoints with rfl | ⟨y, hy | hy, rfl⟩
    · exact hp.run (fun _ _ ht hm => ht.dead hm) hd
    · exact hp.run_of_point (fun _ _ ht hm => ht.dead hm) hy hd
    · -- the end of the bracket disposes nothing
      obtain ⟨b, hb⟩ := h.shifts
      have hsteps : (Eval.restoring restore (p.run m).1).Steps (Machine.Shifts b) := by
        refine restoring_induction (P := fun q : Eval Value => q.Steps (Machine.Shifts b))
          (Q := fun q : Eval Value => q.Steps (Machine.Shifts b)) trivial (fun _ => trivial)
          (fun _ => trivial) (fun _ hk _ => ?_) _
        exact ⟨hb, hk⟩
      by_contra hn
      exact hsteps.points (P := fun t => ¬ t.Dead k) (fun _ _ ht hm hd => hm (ht.dead hd)) hn y hy
        hd
  obtain ⟨a, ha⟩ := h.fault hend
  -- so restoring faults, and its fault wins over whatever the program came to
  have hrestore (k : Except Stop Unit → Eval Value)
      (hk : k (.error (.fault a)) = stop (.fault a)) :
      Faulty ((handle restore k).run (p.run m).2).1 := by
    rw [run_handle, ha, hk]
    exact .fault a
  show Faulty ((Eval.restoring restore (p.run m).1).run (p.run m).2).1
  rcases (p.run m).1 with (e | a | -) | v
  · exact hrestore _ rfl
  · exact hrestore _ rfl
  · exact .exhausted
  · exact hrestore _ rfl

end Restores

/-- The same for a bracket that is met on a path. -/
theorem OpenBracket.faulty {k : ContextId} {α : Type} {p : Eval α} (h : OpenBracket k ⟨α, p⟩)
    (hp : p.Steps Machine.Takes) {m : Machine} {x : Path Stop Machine × Machine}
    (hx : x ∈ p.points m) (hd : x.2.Dead k) : Faulty (p.run m).1 := by
  cases h with
  | restoring p h => exact h.faulty hp.1 hx hd

/-! ### On the way up -/

/-- A bracket on the context is open on the path, and nothing above it takes faults. -/
def Exposed (k : ContextId) (path : Path Stop Machine) : Prop :=
  ∃ between bracket rest, path = between ++ bracket :: rest ∧
    (∀ q ∈ between, ¬ TakesFaults q) ∧ OpenBracket k bracket

/-- The first program of the path is the bracket, or the bracket is further down. -/
theorem Exposed.cons {k : ContextId} {q : (α : Type) × Eval α} {path : Path Stop Machine}
    (h : Exposed k (q :: path)) : OpenBracket k q ∨ ¬ TakesFaults q ∧ Exposed k path := by
  obtain ⟨between, bracket, rest, e, hn, hb⟩ := h
  cases between with
  | nil =>
    obtain ⟨rfl, -⟩ := List.cons.inj e
    exact .inl hb
  | cons r between =>
    obtain ⟨rfl, htail⟩ := List.cons.inj e
    exact .inr ⟨hn _ List.mem_cons_self, between, bracket, rest, htail,
      fun q hq => hn q (List.mem_cons_of_mem _ hq), hb⟩

theorem not_exposed_nil {k : ContextId} : ¬ Exposed k [] := by
  rintro ⟨between, bracket, rest, e, -⟩
  cases between <;> cases e

/-- Programs whose outcome is a fault if the context of a bracket in them is disposed while the
bracket is open.  What their steps can do is known otherwise. -/
def Yields (k : ContextId) {α : Type} (p : Eval α) : Prop :=
  p.Steps Machine.Takes → ∀ m, ∀ x ∈ p.points m, Exposed k x.1 → x.2.Dead k → Faulty (p.run m).1

namespace Yields

variable {k : ContextId} {α β : Type}

/-- A program without parts that is exposed is a bracket itself. -/
theorem of_single {p : Eval α} (h : ∀ (m : Machine), ∀ x ∈ p.points m, x.1 = [⟨α, p⟩]) :
    Yields k p := by
  intro htakes m x hx he hd
  rw [h m x hx] at he
  rcases he.cons with hb | ⟨-, he⟩
  · exact hb.faulty htakes hx hd
  · exact absurd he not_exposed_nil

theorem done (a : α) : Yields k (done a : Eval α) :=
  of_single fun _ x hx => by
    obtain rfl := List.mem_singleton.1 hx
    rfl

theorem stop (s : Stop) : Yields k (stop s : Eval α) :=
  of_single fun _ x hx => by
    obtain rfl := List.mem_singleton.1 hx
    rfl

/-- An atomic step has no parts. -/
theorem act (f : Machine → Except Stop α × Machine) : Yields k (act f) := by
  refine of_single fun m x hx => ?_
  simp only [points, List.mem_cons, List.not_mem_nil, or_false] at hx
  rcases hx with rfl | rfl <;> rfl

/-- A program that ends faulty if its first part does. -/
theorem handle {p : Eval β} {q : Except Stop β → Eval α} (hp : Yields k p)
    (hq : ∀ r, Yields k (q r)) (hf : ∀ r (t : Machine), Faulty r → Faulty ((q r).run t).1) :
    Yields k (handle p q) := by
  intro htakes m x hx he hd
  have hself (hb : OpenBracket k ⟨α, Program.handle p q⟩) :
      Faulty ((Program.handle p q).run m).1 := hb.faulty htakes hx hd
  simp only [points, List.mem_cons, List.mem_map, List.mem_append] at hx
  rcases hx with rfl | ⟨y, hy, rfl⟩
  · exact he.cons.elim hself fun h => absurd h.2 not_exposed_nil
  · -- either the program is the bracket that is open, or one of its parts has the bracket
    rcases he.cons with hb | ⟨-, he⟩
    · exact hself hb
    · rcases hy with hy | hy
      · exact hf _ _ (hp htakes.1 _ _ hy he hd)
      · exact hq _ (htakes.2 _) _ _ hy he hd

/-- A program that passes faults on. -/
theorem passing {p : Eval β} {q : Except Stop β → Eval α} (hp : Yields k p)
    (hq : ∀ r, Yields k (q r)) (hx : q (.error .exhausted) = .stop .exhausted)
    (hf : ∀ a, q (.error (.fault a)) = .stop (.fault a)) : Yields k (Program.handle p q) := by
  refine handle hp hq fun r t hr => ?_
  cases hr with
  | fault a =>
    rw [hf]
    exact .fault a
  | exhausted =>
    rw [hx]
    exact .exhausted

/-- What takes faults has nothing exposed in it, unless it is a bracket itself. -/
theorem of_takesFaults {p : Eval α} (h : TakesFaults ⟨α, p⟩) : Yields k p := by
  intro htakes m x hx he hd
  obtain ⟨rest, e⟩ := exists_cons_of_mem_points hx
  rw [e] at he
  rcases he.cons with hb | ⟨hn, -⟩
  · exact hb.faulty htakes hx hd
  · exact absurd h hn

/-- What does not fail at the end leaves a fault a fault. -/
theorem always {restore : Eval Unit} {p : Eval α} (hr : Yields k restore)
    (hn : Unfailing restore) (hp : Yields k p) : Yields k (Eval.always restore p) := by
  refine handle hp (restoring_induction (P := (Yields k ·)) (Q := (Yields k ·)) (stop _) done stop
    fun q hq hx => passing hr hq (hx _) fun a => hx _) fun r t hfaulty => ?_
  cases hfaulty with
  | exhausted => exact .exhausted
  | fault a =>
    -- the end may fault in turn, and then its fault is the one that goes on
    show Faulty ((Program.handle restore _ : Eval α).run t).1
    rw [run_handle]
    rcases e : (restore.run t).1 with (e' | a' | -) | -
    · exact absurd e (hn t e')
    · exact .fault a'
    · exact .exhausted
    · exact .fault a

end Yields

/-- One after the other, neither of which fails. -/
theorem Unfailing.bind {p q : Eval Unit} (hp : Unfailing p) (hq : Unfailing q) :
    Unfailing (p >>= fun _ => q) := by
  intro m e
  rw [run_bind]
  rcases h : p.run m with ⟨s | -, t⟩
  · have hs := hp m e
    rw [h] at hs
    exact hs
  · exact hq t e

theorem unfailing_writeFrame (id : ContextId) (slot : Slot) (f : Option FrameId) :
    Unfailing (writeFrame id slot f) := by
  intro m e
  rw [m.run_writeFrame]
  split <;> nofun

/-- Nothing that is run at the end fails with an error. -/
theorem Closing.unfailing {on : Option ContextId} {restore : Eval Unit} (h : Closing on restore) :
    Unfailing restore := by
  have hmove (id : ContextId) {slot slot' : Slot} (f f' : Option FrameId) :
      Unfailing (writeFrame id slot f >>= fun _ => writeFrame id slot' f') :=
    .bind (unfailing_writeFrame _ _ _) (unfailing_writeFrame _ _ _)
  cases h with
  | uplevel id current before => exact hmove _ _ _
  | scope id before => exact unfailing_writeFrame _ _ _
  | call id frame current procedure =>
    exact .bind (fun _ _ => nofun) (.bind (fun _ _ => nofun) (hmove _ _ _))
  | release => exact fun _ _ => nofun
  | switchThread thread => exact fun _ _ => nofun

/-- Evaluations pass faults on, up to what takes them. -/
theorem compositional_yields (k : ContextId) :
    Compositional (fun _ => True) fun _ p _ => Yields k p := by
  have hpass {α β : Type} {p : Eval β} {q : Except Stop β → Eval α} (hp : Yields k p)
      (hq : ∀ r, (∀ s, r = .error s → s.Of fun _ => True) → Yields k (q r))
      (hx : q (.error .exhausted) = .stop .exhausted)
      (hf : TakesFaults ⟨α, handle p q⟩ ∨ ∀ a, q (.error (.fault a)) = .stop (.fault a)) :
      Yields k (handle p q) := by
    rcases hf with htakes | hf
    · exact .of_takesFaults htakes
    · refine .passing hp (fun r => ?_) hx hf
      by_cases hr : r = .error .exhausted
      · rw [hr, hx]
        exact .stop _
      · exact hq r fun s hs => Stop.of_true fun e => hr (by rw [hs, e])
  have h : Composes True (fun _ => True) fun _ p _ => Yields k p := {
    errors := Error.kind_true
    done := .done
    stop := fun _ => .stop _
    atom := fun ha => by
      obtain ⟨f, rfl⟩ := ha.eq_act
      exact .act f
    handle := fun hp hq hr _ => hpass hp hq hr.exhausted hr.faults
    take := fun hp hq hc _ => hpass hp hq hc.exhausted hc.faults
    always := fun hc hr hp => .always hr hc.unfailing hp
    forget := fun hp => hp }
  exact h.compositional fun _ name => .act _

/-! ### Invocations -/

/-- The ways to invoke a command: on the current thread's context, on a given context, and from a
running command. -/
inductive Invokes (self : Runner) : Eval Value → Prop
  | here (name : String) (args : List Value) : Invokes self (invokeHere self name args)
  | within (id : Option ContextId) (name : String) (args : List Value) :
      Invokes self (invokeIn self id name args)
  | nested (id : Option ContextId) (name : String) (args : List Value) :
      Invokes self (invoke self id name args)

/-- A bracket on the context is open on the path that the command of its first invocation opened. -/
def Opened (k : ContextId) (path : Path Stop Machine) : Prop :=
  ∃ before self id name args below, path = before ++ ⟨Value, invoke self id name args⟩ :: below ∧
    (∀ q ∈ before, ¬ TakesFaults q) ∧ Exposed k below

/-- The bracket is below its invocation, so the path has more than one program. -/
theorem not_opened_single {k : ContextId} {q : (α : Type) × Eval α} : ¬ Opened k [q] := by
  rintro ⟨before, self, id, name, args, below, e, -, he⟩
  cases before with
  | nil =>
    obtain ⟨-, rfl⟩ := List.cons.inj e
    exact not_exposed_nil he
  | cons r before => cases before <;> cases (List.cons.inj e).2

/-- Whether a program stops with the fault that its first part stops with. -/
def passesFaults : (α : Type) × Eval α → Bool
  | ⟨_, .handle _ k⟩ =>
    match k (.error (.fault .owner)) with
    | .stop (.fault _) => true
    | _ => false
  | _ => true

/-- A test that programs which take faults do not pass. -/
theorem TakesFaults.not_passes {q : (α : Type) × Eval α} (h : TakesFaults q) :
    passesFaults q = false := by
  cases h <;> rfl

/-- What passes faults on is not the invocation that opened the bracket. -/
theorem Opened.cons {k : ContextId} {q : (α : Type) × Eval α} {path : Path Stop Machine}
    (h : Opened k (q :: path)) (hq : passesFaults q = true) : Opened k path := by
  obtain ⟨before, self, id, name, args, below, e, hn, he⟩ := h
  cases before with
  | nil =>
    obtain ⟨rfl, -⟩ := List.cons.inj e
    cases hq
  | cons r before =>
    exact ⟨before, self, id, name, args, below, (List.cons.inj e).2,
      fun q hq => hn q (List.mem_cons_of_mem _ hq), he⟩

/-- What the command of an invocation opened is exposed in it. -/
theorem Opened.exposed {k : ContextId} {self : Runner} {id : Option ContextId} {name : String}
    {args : List Value} {path : Path Stop Machine}
    (h : Opened k (⟨Value, invoke self id name args⟩ :: path)) : Exposed k path := by
  obtain ⟨before, self', id', name', args', below, e, hn, he⟩ := h
  cases before with
  | nil =>
    obtain ⟨-, rfl⟩ := List.cons.inj e
    exact he
  | cons r before =>
    obtain ⟨rfl, -⟩ := List.cons.inj e
    exact absurd (.invoke self id name args) (hn _ List.mem_cons_self)

/-- An outcome that reports a fault, unless the depth did not suffice. -/
inductive Reported : Except Stop Value → Prop
  | faulted (a : Accessor) : Reported (.error (.error (.faulted a)))
  | exhausted : Reported (.error .exhausted)

/-- Programs that report a fault if the context of a bracket, opened by the command that they
invoke, is disposed while the bracket is open. -/
def Reports (k : ContextId) (p : Eval Value) : Prop :=
  ∀ (m : Machine) (x : Path Stop Machine × Machine), x ∈ p.points m → Opened k x.1 →
    x.2.Dead k → Reported (p.run m).1

namespace Reports

variable {k : ContextId}

theorem done (v : Value) : Reports k (done v) := by
  intro m x hx ho
  obtain rfl := List.mem_singleton.1 hx
  exact absurd ho not_opened_single

theorem stop (s : Stop) : Reports k (stop s) := by
  intro m x hx ho
  obtain rfl := List.mem_singleton.1 hx
  exact absurd ho not_opened_single

/-- A program that passes faults on reports what its parts report. -/
theorem handle {β : Type} {p : Eval β} {q : Except Stop β → Eval Value}
    (hpass : passesFaults ⟨Value, Program.handle p q⟩ = true)
    (hp : ∀ {m : Machine} {x : Path Stop Machine × Machine}, x ∈ p.points m → Opened k x.1 →
      x.2.Dead k → Reported ((q (p.run m).1).run (p.run m).2).1)
    (hq : ∀ r, Reports k (q r)) : Reports k (handle p q) := by
  intro m x hx ho hd
  simp only [points, List.mem_cons, List.mem_map, List.mem_append] at hx
  rcases hx with rfl | ⟨y, hy | hy, rfl⟩
  · exact absurd ho not_opened_single
  · exact hp hy (ho.cons hpass) hd
  · exact hq _ _ _ hy (ho.cons hpass) hd

/-- A program that begins with one step. -/
theorem bind_act {β : Type} {f : Machine → Except Stop β × Machine} {q : β → Eval Value}
    (hq : ∀ b, Reports k (q b)) : Reports k (act f >>= q) := by
  refine handle rfl (fun {m x} hx ho => ?_) ?_
  · simp only [points, List.mem_cons, List.not_mem_nil, or_false] at hx
    rcases hx with rfl | rfl <;> exact absurd ho not_opened_single
  · rintro (e | b)
    · exact stop e
    · exact hq b

/-- Only returns are taken out of what an invocation reports. -/
theorem topLevel {p : Eval Value} (hp : Reports k p) : Reports k (Dispatch.topLevel p) := by
  refine handle rfl (fun hx ho hd => ?_) ?_
  · rcases e : (p.run _).1 with s | v
    all_goals
      have hr := hp _ _ hx ho hd
      rw [e] at hr
      cases hr
    · exact .faulted _
    · exact .exhausted
  · rintro ((e | a | -) | v)
    · dsimp only
      split <;> exact stop _
    · exact stop _
    · exact stop _
    · exact done v

end Reports

/-- An invocation never ends with a fault. -/
theorem run_invoke_ne_fault (self : Runner) (id : Option ContextId) (name : String)
    (args : List Value) (m : Machine) (a : Accessor) :
    ((invoke self id name args).run m).1 ≠ .error (.fault a) := by
  rw [invoke_eq, run_handle]
  generalize (read (·.canUse id) >>= admitted self id name args).run m = r
  obtain ⟨(e | a' | -) | v, t⟩ := r <;> nofun

theorem run_topLevel_ne_fault {p : Eval Value} {m : Machine}
    (hp : ∀ a, (p.run m).1 ≠ .error (.fault a)) (a : Accessor) :
    ((topLevel p).run m).1 ≠ .error (.fault a) := by
  rw [topLevel, run_handle]
  rcases e : (p.run m).1 with (e' | a' | -) | v
  · dsimp only
    split <;> nofun
  · exact absurd e (hp a')
  · nofun
  · nofun

/-- An invocation reports the faults of its command. -/
theorem reports_invoke (depth : Nat) (k : ContextId) (id : Option ContextId) (name : String)
    (args : List Value) : Reports k (invoke (Evaluation.cached depth) id name args) := by
  let self := Evaluation.cached depth
  -- the command that the invocation runs
  have hcommand : Yields k (read (·.canUse id) >>= admitted self id name args) :=
    (compositional_yields k).admitted_cached (fun _ _ => .stop _) depth 0 id name args
  have hreported (r : Except Stop Value) : Yields k (reported name r) := by
    refine reported_induction name (P := (Yields k ·)) .done .stop (fun a fields => ?_) r
    refine .passing (.act _) (fun r => ?_) rfl fun _ => rfl
    cases r <;> exact .stop _
  -- its steps, and those of the report
  have htakes : (handle (read (·.canUse id) >>= admitted self id name args)
      (reported name)).Steps Machine.Takes :=
    (Built.invocation (Runner.builds_cached depth) id name args : Built none _).takes
  intro m x hx ho hd
  have hne := run_invoke_ne_fault self id name args m
  obtain ⟨path, e⟩ := exists_cons_of_mem_points hx
  have he : Exposed k path := (e ▸ ho).exposed
  rw [invoke_eq] at hx hne ⊢
  simp only [points, List.mem_cons, List.mem_map, List.mem_append] at hx
  rcases hx with rfl | ⟨y, hy, rfl⟩
  · obtain rfl := (List.cons.inj e).2
    exact absurd he not_exposed_nil
  obtain rfl := (List.cons.inj e).2
  rw [run_handle] at hne ⊢
  rcases hy with hy | hy
  · -- the fault of the command is reported
    have hfaulty := hcommand htakes.1 _ _ hy he hd
    generalize (read (·.canUse id) >>= admitted self id name args).run m = r at hfaulty
    obtain ⟨outcome, t⟩ := r
    cases hfaulty with
    | fault a => exact .faulted a
    | exhausted => exact .exhausted
  · -- there are no brackets in the report
    have hfaulty := hreported _ (htakes.2 _) _ _ hy he hd
    generalize (((reported name _).run _).1 : Except Stop Value) = outcome at hfaulty hne ⊢
    cases hfaulty with
    | fault a => exact absurd rfl (hne a)
    | exhausted => exact .exhausted

/-- Each way to invoke begins with a step or two in front of the invocation. -/
theorem Invokes.reports {depth : Nat} {p : Eval Value} (h : Invokes (Evaluation.cached depth) p)
    (k : ContextId) : Reports k p := by
  cases h with
  | here name args => exact .bind_act fun id => .topLevel (reports_invoke depth k (some id) name args)
  | within id name args =>
    refine .bind_act fun disposed => ?_
    cases disposed with
    | true => exact .stop _
    | false => exact .topLevel (reports_invoke depth k id name args)
  | nested id name args => exact reports_invoke depth k id name args

/-- No way to invoke ends with a fault. -/
theorem Invokes.ne_fault {self : Runner} {p : Eval Value} (h : Invokes self p) (m : Machine)
    (a : Accessor) : (p.run m).1 ≠ .error (.fault a) := by
  have hinvoke (id : Option ContextId) (name : String) (args : List Value) (t : Machine) :
      ((topLevel (invoke self id name args)).run t).1 ≠ .error (.fault a) :=
    run_topLevel_ne_fault (run_invoke_ne_fault self id name args t) a
  cases h with
  | here name args =>
    rw [invokeHere, run_bind]
    have hcontext : ∀ b, (Eval.context.run m).1 ≠ .error (.fault b) := by
      intro b
      simp only [Eval.context, Eval.ofChange, run_act]
      split <;> rintro ⟨⟩
    rcases e : Eval.context.run m with ⟨s | id, t⟩
    · rw [e] at hcontext
      exact fun h => hcontext a (congrArg Except.error (Except.error.inj h))
    · exact hinvoke (some id) name args t
  | within id name args =>
    rw [invokeIn, run_bind]
    show ((if m.disposed then misuse .interpreterDisposed
      else topLevel (invoke self id name args) : Eval Value).run m).1 ≠ _
    split
    · rintro ⟨⟩
    · exact hinvoke id name args m
  | nested id name args => exact run_invoke_ne_fault self id name args m a

theorem Invokes.built {self : Runner} (hself : self.Builds) {p : Eval Value} (h : Invokes self p) :
    Built none p := by
  cases h with
  | here name args => exact .invokeHere hself name args
  | within id name args => exact .invokeIn hself id name args
  | nested id name args => exact .invocation hself id name args

/-- **Faults are contained and not hidden**: whatever runs, an invocation never ends with a fault.
Under the strict policy, if a context is disposed while a procedure, an `uplevel` or a scope is open
on it, the invocation whose command opened the bracket reports a fault, as an internal error,
whatever the program inside comes to. -/
theorem faults_contained (depth : Nat) {p : Eval Value} (h : Invokes (Evaluation.cached depth) p)
    (m : Machine) :
    (∀ a, (p.run m).1 ≠ .error (.fault a)) ∧
    (m.policy.current = .strict → (p.run m).1 ≠ .error .exhausted →
      ∀ x ∈ p.points m, ∀ k c, x.2.context? k = some c → c.disposed = true → Opened k x.1 →
        ∃ a, (p.run m).1 = .error (.error (.faulted a)) ∧ (Error.faulted a).isInternal = true) := by
  have hself := Runner.builds_cached depth
  refine ⟨h.ne_fault m, fun hpolicy hx x hmem k c hc hd ho => ?_⟩
  -- no step changes the policy
  have hstrict : x.2.policy.current = .strict :=
    (h.built hself).takes.points (P := (·.policy.current = .strict))
      (fun _ _ ht hm => ht.next.policy.trans hm) hpolicy x hmem
  have hreported : Reported (p.run m).1 := h.reports k _ _ hmem ho ⟨hstrict, c, hc, hd⟩
  generalize (p.run m).1 = outcome at hreported hx
  cases hreported with
  | faulted a => exact ⟨a, rfl, rfl⟩
  | exhausted => exact absurd rfl hx

/-! ### A procedure that disposes its own context -/

/-- How a path shows that a bracket is open that the command of its first invocation opened. -/
theorem opened_of_dropWhile {k : ContextId} {path below rest : Path Stop Machine} {self : Runner}
    {id : Option ContextId} {name : String} {args : List Value} {restore : Eval Unit}
    {p : Eval Value}
    (hinvoke : path.dropWhile passesFaults = ⟨Value, invoke self id name args⟩ :: below)
    (hbracket : below.dropWhile passesFaults = ⟨Value, always restore p⟩ :: rest)
    (hr : Restores k restore) : Opened k path := by
  have hn (path : Path Stop Machine) (q : (α : Type) × Eval α)
      (hq : q ∈ path.takeWhile passesFaults) : ¬ TakesFaults q := by
    intro h
    have hpasses := List.all_eq_true.1 List.all_takeWhile q hq
    rw [h.not_passes] at hpasses
    cases hpasses
  -- the path is cut at the first program that does not pass faults on, and what follows again
  have hpath : path = path.takeWhile passesFaults ++ ⟨Value, invoke self id name args⟩ :: below := by
    rw [← hinvoke, List.takeWhile_append_dropWhile]
  have hbelow : below = below.takeWhile passesFaults ++ ⟨Value, always restore p⟩ :: rest := by
    rw [← hbracket, List.takeWhile_append_dropWhile]
  exact ⟨_, self, id, name, args, below, hpath, hn path, _, _, rest, hbelow, hn below,
    .restoring p hr⟩

/-- Whether the depth sufficed. -/
def depthSufficed : Except Stop Value → Bool
  | .error .exhausted => false
  | _ => true

/-- The procedure disposes the context, catches the error of a call after that, and returns 5. -/
def disposingBody : List Stmt :=
  [.host (.disposeContext .running), .catchError [.invoke (.value (.text "q")) []],
    .value (.value (.int 5))]

def disposingHost : Machine :=
  ((Machine.start { id := "host" }).performBy (Evaluation.cached 3)
    (.defineProcedure "p" [] (some disposingBody))).2

def disposingCall : Eval Value := invokeHere (Evaluation.cached 3) "p" []

def disposingPoints : List (Path Stop Machine × Machine) := disposingCall.points disposingHost

/-- Where the context has just been disposed. -/
def disposedPoint : Path Stop Machine × Machine :=
  (disposingPoints.find? fun x => (x.2.context? ⟨0⟩).any (·.disposed)).get (by decide +kernel)

/-- The bracket is that of the procedure. -/
theorem opened_disposedPoint : Opened ⟨0⟩ disposedPoint.1 := by
  have hinvoke : disposedPoint.1.dropWhile passesFaults =
      ⟨Value, invoke (Evaluation.cached 3) (some ⟨0⟩) "p" []⟩ ::
        (disposedPoint.1.dropWhile passesFaults).tail := by rfl
  have hbracket : (disposedPoint.1.dropWhile passesFaults).tail.dropWhile passesFaults =
      ⟨Value, always (leaveCall ⟨0⟩ ⟨1⟩ (some Machine.globalFrame) none)
        ((Evaluation.cached 3).body { context := ⟨0⟩, name := "p" } disposingBody)⟩ ::
        ((disposedPoint.1.dropWhile passesFaults).tail.dropWhile passesFaults).tail := by rfl
  exact opened_of_dropWhile hinvoke hbracket (.call _ _ _)

/-- The call of the procedure reports a fault. -/
theorem faults_contained_disposing :
    ∃ x ∈ disposingPoints, (x.2.context ⟨0⟩).stage = .disposed ∧ Opened ⟨0⟩ x.1 ∧
      ∃ a, (disposingCall.run disposingHost).1 = .error (.error (.faulted a)) ∧
        (Error.faulted a).isInternal = true := by
  obtain ⟨hc, hd, hstage⟩ : disposedPoint.2.context? ⟨0⟩ = some (disposedPoint.2.context ⟨0⟩) ∧
      (disposedPoint.2.context ⟨0⟩).disposed = true ∧
      (disposedPoint.2.context ⟨0⟩).stage = .disposed := by decide +kernel
  have hsufficed : depthSufficed (disposingCall.run disposingHost).1 = true := by decide +kernel
  have hmem : disposedPoint ∈ disposingPoints := List.get_find?_mem _
  obtain ⟨-, hreport⟩ := faults_contained 3 (.here "p" []) disposingHost
  refine ⟨_, hmem, hstage, opened_disposedPoint,
    hreport (by decide +kernel) (fun he => ?_) _ hmem ⟨0⟩ _ hc hd opened_disposedPoint⟩
  rw [disposingCall, he] at hsufficed
  cases hsufficed

end CommandHost
