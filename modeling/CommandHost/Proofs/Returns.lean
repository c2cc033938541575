/-
CommandHost/Proofs/Returns.lean

Where a return goes.

A return travels as an error.  Bodies stop at it, labels are put in front of it, moves
and scopes are undone on its way, and commands and invocations pass it on.  Only three
things take it: a statement that catches errors, a procedure, and a call that a body
makes to the embedding program (`TakesReturns`).

So let a return be raised somewhere in a program, with nothing that takes it on the path
down to it (`Rises`).  If the context is active there, the program ends with an error
that has the same return at its root, and after the return was raised nothing but frame
slots of the context changes (`Surfaces`).  For a procedure call this means that it ends
with the value of the return.
-/
import CommandHost.Proofs.ErrorChains
import CommandHost.Proofs.UplevelComposition

namespace CommandHost

open Program Eval Dispatch

/-- A return is in the chain of an error if it is at the root, under any labels. -/
theorem Error.returning_mem_chain (e : Error) (v : Value) :
    .returning v ∈ e.chain ↔ e.returned? = some v := by
  induction e with
  | wrapped label inner ih => simpa [chain, returned?, root] using ih
  | _ => simp [chain, returned?, root, eq_comm]

/-! ### Unwinding -/

namespace Machine

/-- The context is there and active. -/
def Active (m : Machine) (id : ContextId) : Prop := ∃ c, m.context? id = some c ∧ c.stage = .active

/-- Nothing has changed but the current, the uplevel and the scope slot of the context. -/
def Unwinds (id : ContextId) (m t : Machine) : Prop :=
  ∃ current uplevel scope, t = m.setContext id { m.context id with current, uplevel, scope }

variable {id : ContextId} {m t u : Machine}

/-- Nothing to unwind leaves an active context as it is. -/
theorem Active.refl_unwinds (h : m.Active id) : m.Unwinds id m := by
  obtain ⟨c, hc, -⟩ := h
  refine ⟨c.current, c.uplevel, c.scope, ?_⟩
  rw [context_of_some hc]
  exact (setContext_self hc).symm

/-- Unwinding does not end the life of a context. -/
theorem Unwinds.active (h : m.Unwinds id t) (hm : m.Active id) : t.Active id := by
  obtain ⟨current, uplevel, scope, rfl⟩ := h
  obtain ⟨c, hc, ha⟩ := hm
  refine ⟨{ c with current, uplevel, scope }, ?_, ha⟩
  rw [context_of_some hc, context?_setContext, if_pos rfl, hc]
  rfl

/-- The slots that the second one writes win. -/
theorem Unwinds.trans (hm : m.Active id) (h : m.Unwinds id t) (h' : t.Unwinds id u) :
    m.Unwinds id u := by
  obtain ⟨current, uplevel, scope, rfl⟩ := h
  obtain ⟨current', uplevel', scope', rfl⟩ := h'
  obtain ⟨c, hc, -⟩ := hm
  refine ⟨current', uplevel', scope', ?_⟩
  have hset : (m.setContext id { m.context id with current, uplevel, scope }).context? id =
      some { c with current, uplevel, scope } := by
    rw [context_of_some hc, context?_setContext, if_pos rfl, hc]
    rfl
  rw [context_of_some hset, setContext_setContext, context_of_some hc]

end Machine

/-- What ends a move or a scope on an active context: it succeeds and only unwinds. -/
def Closes (id : ContextId) (restore : Eval Unit) : Prop :=
  ∀ m : Machine, m.Active id → (restore.run m).1 = .ok () ∧ restore.Throughout (m.Unwinds id) m

/-- On an active context each of the three slots can be written back. -/
theorem closes_writeFrame (id : ContextId) {slot : Slot}
    (hslot : slot = .current ∨ slot = .uplevel ∨ slot = .scope) (f : Option FrameId) :
    Closes id (writeFrame id slot f) := by
  intro m hm
  obtain ⟨c, hc, ha⟩ := hm
  obtain ⟨hrun, -⟩ := run_writeFrame_of_active hc ha slot f
  have hunwinds : m.Unwinds id (m.setContext id (c.setFrame slot f)) := by
    rw [Machine.Unwinds, Machine.context_of_some hc]
    rcases hslot with rfl | rfl | rfl
    · exact ⟨f, c.uplevel, c.scope, rfl⟩
    · exact ⟨c.current, f, c.scope, rfl⟩
    · exact ⟨c.current, c.uplevel, f, rfl⟩
  refine ⟨by rw [hrun], along_act (fun h _ => h) (Machine.Active.refl_unwinds ⟨c, hc, ha⟩) ?_⟩
  have hend := congrArg Prod.snd hrun
  rw [writeFrame, run_act] at hend
  rw [hend]
  exact hunwinds

/-- Moving back writes the two slots one after the other. -/
theorem closes_moveTo (id : ContextId) (current uplevel : Option FrameId) :
    Closes id (moveTo id current uplevel) := by
  intro m hm
  obtain ⟨hfirst, hunwinds⟩ := closes_writeFrame id (.inl rfl) current m hm
  have hactive := hunwinds.run.active hm
  obtain ⟨hsecond, hunwinds'⟩ := closes_writeFrame id (.inr (.inl rfl)) uplevel _ hactive
  constructor
  · rw [moveTo, run_bind]
    -- the first write succeeds, so the second one runs where it has led
    rcases e : (writeFrame id .current current).run m with ⟨s | u, t⟩
    · rw [e] at hfirst
      cases hfirst
    · rw [e] at hsecond
      exact hsecond
  · exact hunwinds.bind fun _ _ => hunwinds'.mono fun _ ht => hunwinds.run.trans hm ht

/-! ### Rising returns -/

/-- A return is raised at the end of the path, and nothing on the path takes it. -/
inductive Rises (v : Value) : Path Stop Machine → Prop
  | raised : Rises v [⟨Value, fail (.returning v)⟩]
  | through {q : (α : Type) × Eval α} {path : Path Stop Machine} (hq : ¬ TakesReturns q)
      (h : Rises v path) : Rises v (q :: path)

theorem not_rises_nil {v : Value} : ¬ Rises v [] := by rintro ⟨⟩

/-- A program that ends well raises nothing. -/
theorem not_rises_done {v : Value} {α : Type} {a : α} :
    ¬ Rises v [⟨α, (done a : Eval α)⟩] := by
  intro h
  cases h with
  | through _ h => exact not_rises_nil h

/-- An atomic step raises no return: what it fails with is its own. -/
theorem not_rises_act {v : Value} {α : Type} {f : Machine → Except Stop α × Machine} :
    ¬ Rises v [⟨α, (act f : Eval α)⟩] := by
  intro h
  cases h with
  | through _ h => exact not_rises_nil h

/-- A return that rises from a stop is the one that the stop is made of. -/
theorem eq_of_rises_stop {v : Value} {α : Type} {s : Stop}
    (h : Rises v [⟨α, (stop s : Eval α)⟩]) : s = .error (.returning v) := by
  cases h with
  | raised => rfl
  | through _ h => exact absurd h not_rises_nil

/-- What rises through a program rises in its part, and the program does not take it. -/
theorem rises_handle {v : Value} {α β : Type} {p : Eval β} {k : Except Stop β → Eval α}
    {path : Path Stop Machine} (h : Rises v (⟨α, handle p k⟩ :: path)) :
    ¬ TakesReturns ⟨α, handle p k⟩ ∧ Rises v path := by
  cases h with
  | through hq h => exact ⟨hq, h⟩

/-- Programs through which returns rise: the outcome has the same return at its root, and only
unwinding is done after it was raised. -/
structure Surfaces (id : ContextId) {α : Type} (p : Eval α) : Prop where
  outcome : ∀ {m : Machine} {x : Path Stop Machine × Machine} {v : Value}, x ∈ p.points m →
    Rises v x.1 → x.2.Active id → ∃ e t, p.run m = (.error (.error e), t) ∧
      e.returned? = some v ∧ x.2.Unwinds id t
  after : ∀ (m : Machine) (v : Value), (p.points m).Pairwise fun x y =>
    Rises v x.1 → x.2.Active id → x.2.Unwinds id y.2

namespace Surfaces

variable {id : ContextId} {α β : Type}

/-- Nothing rises in a program that is over. -/
theorem done (a : α) : Surfaces id (done a : Eval α) where
  outcome hx hr _ := by
    obtain rfl := List.mem_singleton.1 hx
    exact absurd hr not_rises_done
  after _ _ := List.pairwise_singleton _ _

/-- The return that stops a program is its outcome. -/
theorem stop (s : Stop) : Surfaces id (stop s : Eval α) where
  outcome {m x v} hx hr ha := by
    obtain rfl := List.mem_singleton.1 hx
    obtain rfl := eq_of_rises_stop hr
    exact ⟨_, m, rfl, rfl, ha.refl_unwinds⟩
  after _ _ := List.pairwise_singleton _ _

theorem act (f : Machine → Except Stop α × Machine) : Surfaces id (act f) where
  outcome {m x v} hx hr _ := by
    have hpath : x.1 = [⟨α, .act f⟩] := by
      simp only [points, List.mem_cons, List.not_mem_nil, or_false] at hx
      rcases hx with rfl | rfl <;> rfl
    rw [hpath] at hr
    exact absurd hr not_rises_act
  after m v := by
    simp only [points, List.pairwise_cons, List.not_mem_nil, List.mem_singleton]
    refine ⟨?_, fun _ h => h.elim, .nil⟩
    intro y _ hr
    exact absurd hr not_rises_act

/-- A program that passes the returns of its first part on, up to unwinding. -/
theorem handle {p : Eval β} {k : Except Stop β → Eval α} (hp : Surfaces id p)
    (hk : ∀ r, Surfaces id (k r))
    (hpass : ∀ {m t : Machine} {e : Error} {v : Value}, p.run m = (.error (.error e), t) →
      e.returned? = some v → t.Active id → (k (.error (.error e))).Throughout (t.Unwinds id) t ∧
        ∃ e', ((k (.error (.error e))).run t).1 = .error (.error e') ∧ e'.returned? = some v) :
    Surfaces id (handle p k) where
  outcome {m x v} hx hr ha := by
    simp only [points, List.mem_cons, List.mem_map, List.mem_append] at hx
    rcases hx with rfl | ⟨y, hy | hy, rfl⟩
    · exact absurd (rises_handle hr).2 not_rises_nil
    · -- the return is raised in the first part, and the rest passes it on
      obtain ⟨e, t, hrun, he, hunwinds⟩ := hp.outcome hy (rises_handle hr).2 ha
      obtain ⟨hthrough, e', hrun', he'⟩ := hpass hrun he (hunwinds.active ha)
      refine ⟨e', ((k (.error (.error e))).run t).2, ?_, he', hunwinds.trans ha hthrough.run⟩
      rw [run_handle, hrun, ← hrun']
    · obtain ⟨e, t, hrun, he, hunwinds⟩ := (hk _).outcome hy (rises_handle hr).2 ha
      exact ⟨e, t, hrun, he, hunwinds⟩
  after m v := by
    rw [points, List.pairwise_cons, List.pairwise_map, List.pairwise_append]
    refine ⟨fun y _ hr => absurd (rises_handle hr).2 not_rises_nil,
      (hp.after m v).imp fun h hr => h (rises_handle hr).2,
      ((hk _).after _ v).imp fun h hr => h (rises_handle hr).2, ?_⟩
    -- after a return in the first part, the second part only unwinds
    intro x hx y hy hr ha
    obtain ⟨e, t, hrun, he, hunwinds⟩ := hp.outcome hx (rises_handle hr).2 ha
    rw [hrun] at hy
    obtain ⟨hthrough, -⟩ := hpass hrun he (hunwinds.active ha)
    exact hunwinds.trans ha (hthrough y hy)

/-- A program that passes on how its first part stops. -/
theorem relays {p : Eval β} {k : Except Stop β → Eval α} (hp : Surfaces id p)
    (hk : ∀ r, Surfaces id (k r)) (hrelays : Relays p k (some id)) :
    Surfaces id (Program.handle p k) := by
  refine handle hp hk fun {m t e v} hrun hv ha => ?_
  obtain ⟨e', hk', hroot⟩ := hrelays.returns id rfl hrun hv
  rw [hk']
  exact ⟨along_stop (fun h _ => h) ha.refl_unwinds, e', rfl, hroot⟩

/-- Nothing rises through a program that takes returns. -/
theorem taken {p : Eval β} {k : Except Stop β → Eval α} (h : TakesReturns ⟨α, Program.handle p k⟩) :
    Surfaces id (Program.handle p k) := by
  have hnot {m : Machine} {x : Path Stop Machine × Machine} {v : Value}
      (hx : x ∈ (Program.handle p k).points m) : ¬ Rises v x.1 := by
    obtain ⟨path, e⟩ := exists_cons_of_mem_points hx
    rw [e]
    exact fun hr => (rises_handle hr).1 h
  exact ⟨fun hx hr _ => absurd hr (hnot hx), fun m v =>
    List.pairwise_of_forall_mem_list fun x hx y _ hr => absurd hr (hnot hx)⟩

/-- What is done at the end unwinds. -/
theorem always {restore : Eval Unit} {p : Eval α} (hr : Surfaces id restore)
    (hc : Closes id restore) (hp : Surfaces id p) : Surfaces id (Eval.always restore p) := by
  show Surfaces id (Program.handle p (restoring restore))
  refine handle hp ?_ fun {m t e v} _ hv ha => ?_
  · refine restoring_induction (P := (Surfaces id ·)) (Q := (Surfaces id ·)) (stop _) done stop
      fun k hk hs => relays hr hk ?_
    exact .passing (hs _) (fun _ => hs _) fun e => ⟨e, hs _, rfl⟩
  · have hnot : (.error (.error e) : Except Stop α) ≠ .error .exhausted := by rintro ⟨⟩
    -- what is done at the end succeeds, and then the error goes on
    obtain ⟨k, hk, hok, -⟩ := exists_restoring_eq restore hnot
    obtain ⟨hrun, hthrough⟩ := hc t ha
    rw [hk]
    refine ⟨hthrough.handle ?_, e, ?_, hv⟩
    · rw [hrun, hok]
      exact along_stop (fun h _ => h) hthrough.run
    · rw [run_handle, hrun, hok]
      rfl

end Surfaces

/-- Moves and scopes are what is undone on the way of a return. -/
theorem Closing.closes {id : ContextId} {restore : Eval Unit} (h : Closing (some id) restore) :
    Closes id restore := by
  cases h with
  | uplevel id current before => exact closes_moveTo _ _ _
  | scope id before => exact closes_writeFrame _ (.inr (.inr rfl)) _

/-- Returns rise through what runs for a context.  What a program that takes returns runs need not
let them through, so nothing is asked of programs that run for no context. -/
theorem compositional_surfaces :
    Compositional (fun _ => True) fun on p _ => ∀ id, on = some id → Surfaces id p := by
  have h : Composes True (fun _ => True) fun on p _ => ∀ id, on = some id → Surfaces id p := {
    errors := Error.kind_true
    done := fun a _ _ => .done a
    stop := fun _ _ _ => .stop _
    atom := fun ha _ _ => by
      obtain ⟨f, rfl⟩ := ha.eq_act
      exact .act f
    handle := fun {_ α β p _ k _} hp hk hr _ id hid => by
      subst hid
      refine .relays (hp id rfl) (fun r => ?_) hr
      -- the rest is only looked at where the depth has sufficed
      by_cases hx : r = .error .exhausted
      · rw [hx, hr.exhausted]
        exact .stop _
      · exact hk r (fun s hs => Stop.of_true fun e => hx (by rw [hs, e])) id rfl
    take := fun _ _ hc _ id _ => .taken hc.returns
    always := fun hc hr hp id hid => by
      subst hid
      exact .always (hr id rfl) hc.closes (hp id rfl)
    forget := fun _ id hid => by cases hid }
  exact h.compositional fun _ name _ _ => .act _

/-- Returns rise through bodies, for every depth of evaluation. -/
theorem surfaces_body (depth : Nat) (inv : Invocation) (body : List Stmt) :
    Surfaces inv.context ((Evaluation.cached depth).body inv body) :=
  compositional_surfaces.body_cached (fun _ _ _ _ => .stop _) depth 0 inv body inv.context rfl

/-- Returns rise through invocations from a running command. -/
theorem surfaces_invoke (depth : Nat) (id : ContextId) (name : String) (args : List Value) :
    Surfaces id (invoke (Evaluation.cached depth) (some id) name args) :=
  compositional_surfaces.share_cached (fun _ _ _ _ => .stop _) depth 0 (some id) name args id rfl

/-! ### Outcomes without a return -/

namespace Unreturning

/-- A procedure takes returns. -/
theorem takeReturn (p : Eval Value) : Unreturning (takeReturn p) := by
  refine .handle_rest ?_
  rintro ((e | a | -) | v)
  · dsimp only
    split
    · rintro m _ e' ⟨⟩
    · rename_i h
      exact Raises.stop (s := .error e) h
  · rintro m _ e ⟨⟩
  · rintro m _ e ⟨⟩
  · rintro m _ e ⟨⟩

/-- A call can fail before its procedure begins, and not with a return. -/
theorem callProcedure (inv : Invocation) (name : String) (params : List String)
    (args : List Value) (p : Eval Value) : Unreturning (callProcedure inv name params args p) :=
  .bind_of (composes_unreturning.callFrame (o := none) inv name params args) fun _ _ _ _ =>
    takeReturn _

/-- A return that gets to the embedding program is reported as an error. -/
theorem topLevel (p : Eval Value) : Unreturning (topLevel p) := by
  refine .handle_rest ?_
  rintro ((e | a | -) | v)
  · dsimp only
    split
    · exact composes_unreturning.report (o := none) (.script _ _ _)
    · rename_i h
      exact Raises.stop (s := .error e) h
  · rintro m _ e ⟨⟩
  · rintro m _ e ⟨⟩
  · rintro m _ e ⟨⟩

variable (self : Runner)

/-- An invocation by the embedding program ends without a return. -/
theorem invokeHere (name : String) (args : List Value) : Unreturning (invokeHere self name args) :=
  .bind_of (composes_unreturning.atom (o := none) .context) fun _ _ _ _ => topLevel _

theorem invokeIn (id : Option ContextId) (name : String) (args : List Value) :
    Unreturning (invokeIn self id name args) := by
  refine .bind_of (composes_unreturning.read (o := none) fun _ _ => rfl) fun _ disposed _ _ => ?_
  cases disposed with
  | true => exact composes_unreturning.misuse (o := none) _
  | false => exact topLevel _

end Unreturning

/-! ### Procedures and invocations -/

/-- A return that rises in the body of a procedure ends the call. -/
theorem run_callProcedure_of_rises {inv : Invocation} {name : String} {params : List String}
    {args : List Value} {p : Eval Value} (hp : Surfaces inv.context p) {m t : Machine}
    (hm : m.Active inv.context) {frame : FrameId}
    (hframe : (callFrame inv name params args).run m = (.ok frame, t))
    {x : Path Stop Machine × Machine}
    (hx : x ∈ p.points ((enterCall inv.context frame).run t).2) {v : Value} (hr : Rises v x.1)
    (ha : x.2.Active inv.context) :
    ∃ c, (callProcedure inv name params args p).run m =
      (.ok v, { x.2.setContext inv.context c with
        frames := x.2.frames.modify frame (·.dispose) }) := by
  obtain ⟨c, hc, hac⟩ := hm
  -- making the frame leaves the context as it is
  have hct : t.context? inv.context = some c := by
    obtain ⟨s, f, -, -, -, -, ht⟩ := run_callFrame (by rw [hframe])
    rw [hframe] at ht
    dsimp only at ht
    rw [ht]
    exact hc
  have hread (slot : Slot) : (readFrame inv.context slot).run t = (.ok (c.frame slot), t) :=
    run_readContext_of_active hct hac (.frame slot) (·.frame slot)
  have henter : (enterCall inv.context frame).run t =
      (.ok (), ((enterCall inv.context frame).run t).2) := by
    rw [run_enterCall hct (Context.stage_eq_active_iff.1 hac).1 frame]
  obtain ⟨e, u, hrun, he, current, uplevel, scope, hu⟩ := hp.outcome hx hr ha
  obtain ⟨cx, hcx, hax⟩ := ha
  rw [Machine.context_of_some hcx] at hu
  have hcu : u.context? inv.context = some { cx with current, uplevel, scope } := by
    rw [hu, x.2.context?_setContext, if_pos rfl, hcx]
    rfl
  -- what leaving the call makes of the unwound context
  let left : ThreadContext := { cx with
    uplevel, scope, stack := cx.stack.map (·.pop), current := c.current, procedure := c.procedure }
  have hleave : (leaveCall inv.context frame c.current c.procedure).run u =
      (.ok (), { x.2.setContext inv.context left with
        frames := x.2.frames.modify frame (·.dispose) }) := by
    rw [run_leaveCall hcu (Context.stage_eq_active_iff.1 hax).1, hu, Machine.setContext_setContext]
    rfl
  refine ⟨left, ?_⟩
  have hcall : (inCall inv.context frame p).run t = (.error (.error e),
      { x.2.setContext inv.context left with frames := x.2.frames.modify frame (·.dispose) }) := by
    rw [inCall, run_bind, hread]
    dsimp only
    rw [run_bind, hread]
    dsimp only
    rw [run_bind, henter]
    exact run_always_of_ok hrun (by rintro ⟨⟩) hleave
  rw [callProcedure, run_bind, hframe]
  dsimp only
  -- the error is a return, and the procedure takes it
  rw [takeReturn, run_handle, hcall]
  dsimp only
  rw [he]
  rfl

/-- An invocation by the embedding program that gets to a context, in the machine `t`. -/
inductive Launches (self : Runner) (m : Machine) (id : ContextId) (name : String)
    (args : List Value) : Eval Value → Machine → Prop
  | here {t : Machine} (h : Eval.context.run m = (.ok id, t)) :
      Launches self m id name args (invokeHere self name args) t
  | within (h : m.disposed = false) :
      Launches self m id name args (invokeIn self (some id) name args) m

/-- A return that reaches an invocation by the embedding program is an error there. -/
theorem Launches.run_of_returned {self : Runner} {m t : Machine} {id : ContextId} {name : String}
    {args : List Value} {call : Eval Value} (h : Launches self m id name args call t) {e : Error}
    (he : ((invoke self (some id) name args).run t).1 = .error (.error e)) {v : Value}
    (hv : e.returned? = some v) :
    (call.run m).1 = .error (.error (.script "return" .notInProcedure "")) := by
  have htop : ((topLevel (invoke self (some id) name args)).run t).1 =
      .error (.error (.script "return" .notInProcedure "")) := by
    rw [topLevel, run_handle, he]
    dsimp only
    rw [hv]
    rfl
  cases h with
  | here hid =>
    rw [invokeHere, run_bind, hid]
    exact htop
  | within hd =>
    rw [invokeIn, run_bind]
    show ((if m.disposed = true then _ else _ : Eval Value).run m).1 = _
    rw [hd]
    exact htop

/-- **A return goes to the innermost procedure and never escapes.**  Let a return of `v` be raised
in the body of a procedure, with nothing on the way up to the body that takes it, on a context that
is active then.  From then on only frame slots of the context change until the body is over, and the
call ends with exactly `v` and its frame disposed.

No procedure call ends with an error that has a return in its chain, and neither does an invocation
by the embedding program.  When a return reaches such an invocation, the invocation fails; and a
return reaches it when it is raised with nothing above it that takes it. -/
theorem return_ends_innermost_procedure (depth : Nat) :
    (∀ (inv : Invocation) (name : String) (params : List String) (args : List Value)
      (body : List Stmt) (m t : Machine) (frame : FrameId), m.Active inv.context →
      (callFrame inv name params args).run m = (.ok frame, t) →
      let p := (Evaluation.cached depth).body { inv with args := [] } body
      ∀ before path u later v, p.points ((enterCall inv.context frame).run t).2 =
          before ++ (path, u) :: later → Rises v path → u.Active inv.context →
        (∀ y ∈ later, u.Unwinds inv.context y.2) ∧
        ∃ c, (callProcedure inv name params args p).run m =
          (.ok v, { u.setContext inv.context c with
            frames := u.frames.modify frame (·.dispose) })) ∧
    (∀ inv name params args p m e,
      ((callProcedure inv name params args p).run m).1 = .error (.error e) →
        ∀ v, .returning v ∉ e.chain) ∧
    (∀ name args m e,
      ((invokeHere (Evaluation.cached depth) name args).run m).1 = .error (.error e) →
        ∀ v, .returning v ∉ e.chain) ∧
    (∀ id name args m e,
      ((invokeIn (Evaluation.cached depth) id name args).run m).1 = .error (.error e) →
        ∀ v, .returning v ∉ e.chain) ∧
    ∀ m id name args call t, Launches (Evaluation.cached depth) m id name args call t →
      let p := invoke (Evaluation.cached depth) (some id) name args
      (∀ e v, (p.run t).1 = .error (.error e) → .returning v ∈ e.chain →
        (call.run m).1 = .error (.error (.script "return" .notInProcedure ""))) ∧
      ∀ path u v, (path, u) ∈ p.points t → Rises v path → u.Active id →
        ∃ e, (p.run t).1 = .error (.error e) ∧ .returning v ∈ e.chain := by
  have hchain {α : Type} {p : Eval α} (hp : Unreturning p) {m : Machine} {e : Error}
      (he : (p.run m).1 = .error (.error e)) (v : Value) : Link.returning v ∉ e.chain := by
    rw [e.returning_mem_chain, hp.returned? he]
    rintro ⟨⟩
  refine ⟨?_, ?_, ?_, ?_, ?_⟩
  · intro inv name params args body m t frame hm hframe p before path u later v hpoints hr ha
    have hp : Surfaces inv.context p := surfaces_body depth { inv with args := [] } body
    have hx : (path, u) ∈ p.points ((enterCall inv.context frame).run t).2 := by
      rw [hpoints]
      exact List.mem_append_right _ List.mem_cons_self
    refine ⟨fun y hy => ?_, run_callProcedure_of_rises hp hm hframe hx hr ha⟩
    have hafter := hp.after ((enterCall inv.context frame).run t).2 v
    rw [hpoints, List.pairwise_append, List.pairwise_cons] at hafter
    exact hafter.2.1.1 y hy hr ha
  · intro inv name params args p m e he
    exact hchain (.callProcedure inv name params args p) he
  · intro name args m e he
    exact hchain (.invokeHere _ name args) he
  · intro id name args m e he
    exact hchain (.invokeIn _ id name args) he
  · intro m id name args call t hcall p
    refine ⟨fun e v he hv => hcall.run_of_returned he ((e.returning_mem_chain v).1 hv),
      fun path u v hx hr ha => ?_⟩
    obtain ⟨e, t', hrun, he, -⟩ := (surfaces_invoke depth id name args).outcome hx hr ha
    exact ⟨e, congrArg Prod.fst hrun, (e.returning_mem_chain v).2 he⟩

/-! ### A return from a command in a scope -/

/-- A return that is raised at the end of a path rises if nothing in front of it takes it. -/
theorem rises_of_getLast? {v : Value} {path : Path Stop Machine}
    (hlast : path.getLast? = some ⟨Value, fail (.returning v)⟩)
    (h : ∀ q ∈ path.dropLast, ¬ TakesReturns q) : Rises v path := by
  induction path with
  | nil => cases hlast
  | cons q path ih =>
    cases path with
    | nil =>
      obtain rfl := Option.some.inj hlast
      exact .raised
    | cons r path =>
      rw [List.dropLast_cons_cons] at h
      refine .through (h q List.mem_cons_self) (ih ?_ fun q hq => h q (List.mem_cons_of_mem _ hq))
      rw [← hlast]
      rfl

/-- Whether a program has a value in the end if its first part raises a return. -/
def endsWell (m : Machine) : (α : Type) × Eval α → Bool
  | ⟨_, .handle _ k⟩ =>
    match ((k (.error (.error (.returning .empty)))).run m).1 with
    | .ok _ => true
    | .error _ => false
  | _ => false

/-- What takes returns has a value then, in any machine. -/
theorem TakesReturns.endsWell {q : (α : Type) × Eval α} (h : TakesReturns q) (m : Machine) :
    endsWell m q = true := by
  cases h <;> rfl

/-- A host with a scope, and a command that returns 5. -/
def returningHost : Machine :=
  let perform (m : Machine) (call : HostCall) := (m.performBy (Evaluation.cached 2) call).2
  perform (perform (perform (.start { id := "host" }) (.makeScope "s" 0))
    (.defineFunction "f" [.invoke (.value (.text "return")) [.value (.int 5)], .fail "late"]))
    (.context none)

/-- The body of a procedure that calls the command in a scope, one level up and under a label. -/
def returningBody : Eval Value :=
  (Evaluation.cached 5).body ⟨⟨0⟩, "p", []⟩
    [.wrap "outer" [.uplevel 1 [.inScope "s" [.invoke (.value (.text "f")) []]]], .fail "later"]

def returningPoints : List (Path Stop Machine × Machine) :=
  returningBody.points ((enterCall ⟨0⟩ ⟨2⟩).run
    ((callFrame ⟨⟨0⟩, "p", []⟩ "p" ["x"] [.int 1]).run returningHost).2).2

/-- Whether the innermost program under way raises a return. -/
def raisesReturn (path : Path Stop Machine) : Bool :=
  match path.getLast? with
  | some ⟨_, .stop (.error (.returning _))⟩ => true
  | _ => false

/-- Where the return is raised. -/
def returnPoint : Path Stop Machine × Machine :=
  (returningPoints.find? fun x => raisesReturn x.1).get (by decide +kernel)

theorem returnPoint_mem : returnPoint ∈ returningPoints := List.get_find?_mem _

theorem rises_returnPoint : Rises (.int 5) returnPoint.1 := by
  have hpasses : ∀ q ∈ returnPoint.1.dropLast, endsWell returnPoint.2 q = false := by
    decide +kernel
  refine rises_of_getLast? (by rfl) fun q hq htakes => ?_
  have hends := htakes.endsWell returnPoint.2
  rw [hpasses q hq] at hends
  cases hends

/-- The return passes the command, the scope, the move and the label, and the procedure ends with
its value.  Without a procedure around it, the command fails. -/
theorem return_ends_innermost_procedure_in_scope :
    (∃ x ∈ returningPoints, Rises (.int 5) x.1 ∧ (x.2.context ⟨0⟩).scope = some ⟨1⟩ ∧
      (x.2.context ⟨0⟩).uplevel = some Machine.globalFrame ∧
      ∃ c, (callProcedure ⟨⟨0⟩, "p", []⟩ "p" ["x"] [.int 1] returningBody).run returningHost =
        (.ok (.int 5), { x.2.setContext ⟨0⟩ c with
          frames := x.2.frames.modify ⟨2⟩ (·.dispose) })) ∧
    ((invokeHere (Evaluation.cached 5) "f" []).run returningHost).1 =
      .error (.error (.script "return" .notInProcedure "")) := by
  obtain ⟨hc, ha, hscope, huplevel⟩ :
      returnPoint.2.context? ⟨0⟩ = some (returnPoint.2.context ⟨0⟩) ∧
      (returnPoint.2.context ⟨0⟩).stage = .active ∧
      (returnPoint.2.context ⟨0⟩).scope = some ⟨1⟩ ∧
      (returnPoint.2.context ⟨0⟩).uplevel = some Machine.globalFrame := by decide +kernel
  have hhost : returningHost.context? ⟨0⟩ = some (returningHost.context ⟨0⟩) ∧
      (returningHost.context ⟨0⟩).stage = .active := by decide +kernel
  have hcreated : ((callFrame ⟨⟨0⟩, "p", []⟩ "p" ["x"] [.int 1]).run returningHost).1 =
      .ok ⟨2⟩ := by decide +kernel
  have hreturned : (Eval.context.run returningHost).1 = .ok ⟨0⟩ ∧
      ((invoke (Evaluation.cached 5) (some ⟨0⟩) "f" []).run
        (Eval.context.run returningHost).2).1 = .error (.error (.returning (.int 5))) := by
    decide +kernel
  have hframe : (callFrame ⟨⟨0⟩, "p", []⟩ "p" ["x"] [.int 1]).run returningHost =
      (.ok ⟨2⟩, ((callFrame ⟨⟨0⟩, "p", []⟩ "p" ["x"] [.int 1]).run returningHost).2) := by
    rw [← hcreated]
  obtain ⟨before, later, hpoints⟩ := List.append_of_mem returnPoint_mem
  obtain ⟨-, hcall⟩ := (return_ends_innermost_procedure 5).1 ⟨⟨0⟩, "p", []⟩ "p" ["x"] [.int 1] _
    returningHost _ ⟨2⟩ ⟨_, hhost⟩ hframe before _ _ later (.int 5) hpoints rises_returnPoint
    ⟨_, hc, ha⟩
  have hcontext : Eval.context.run returningHost =
      (.ok ⟨0⟩, (Eval.context.run returningHost).2) := by rw [← hreturned.1]
  obtain ⟨-, -, -, -, htop⟩ := return_ends_innermost_procedure 5
  have hfails := (htop _ _ "f" [] _ _ (.here hcontext)).1 _ (.int 5) hreturned.2
    List.mem_cons_self
  exact ⟨⟨_, returnPoint_mem, rises_returnPoint, hscope, huplevel, hcall⟩, hfails⟩

end CommandHost
