/-
CommandHost/Proofs/Increments.lean

No increment is lost.

Calls of `incr` on one global variable come from any threads and take their atomic steps
in any order, with steps of other commands in between.  Each call gets at its context,
resolves the command and finds out where the variable lives, and only its last step
touches the variable.  `Nears i p` says that `p` is `i` steps away from this last one:
while the machine serves the call, a step of it is passive (`Machine.Passive`), and the last
one adds the amount to whatever the variable then counts as.

A scene is a crew of calls that also remembers how far each of them has come and in which
order they ended.  Between the turns of the crew the machine may change in other ways.  What
holds of all calls together (`Scene.Sound`) is kept by every step: the variable holds the
start with the amounts of the calls that have ended, and these have ended with the sums in
between.
-/
import CommandHost.Proofs.BuiltinEffects
import CommandHost.Proofs.Interleaving
import CommandHost.Proofs.Release
import Mathlib.Algebra.BigOperators.Group.Finset.Basic
import Mathlib.Algebra.Order.Ring.Int

namespace CommandHost

open Program Eval Dispatch

/-! ### Calls -/

/-- How a call comes about. -/
inductive Increment.Entry where
  /-- On the context of the calling thread, which is made if there is none. -/
  | here
  /-- On a given context. -/
  | on (id : ContextId)
  /-- From the body of a command that runs on a context. -/
  | inside (id : ContextId)

/-- A call of `incr`, with the amount that it asks for. -/
structure Increment where
  thread : ThreadId
  entry : Increment.Entry
  /-- The name that the command is called by. -/
  name : String
  target : Value
  increment : Option Value := none
  amount : Int64
  reads : (increment.map Value.toInt).getD (.ok 1) = .ok amount

/-- What the value of a variable counts as; a missing one counts as zero. -/
def CountsAs : Option Value → Int64 → Prop
  | none, n => n = 0
  | some v, n => v.toInt = .ok n

namespace Increment

def args (c : Increment) : List Value := c.target :: c.increment.toList

def program (self : Runner) (c : Increment) : Eval Value :=
  match c.entry with
  | .here => invokeHere self c.name c.args
  | .on id => invokeIn self (some id) c.name c.args
  | .inside id => invoke self (some id) c.name c.args

/-- The number of atomic steps of a call. -/
def length (c : Increment) : Nat :=
  match c.entry with
  | .here | .on _ => 5
  | .inside _ => 4

/-- On a context, the call is about the global variable `x`: it names the variable behind `::` and no
scope frame is active, or it names it as it is and the global frame is the current one. -/
def Addresses (c : Increment) (x : String) (ctx : ThreadContext) : Prop :=
  globalName? c.target.toText = some x ∧ ctx.scope = none ∧
      ctx.global = some Machine.globalFrame ∨
    globalName? c.target.toText = none ∧ c.target.toText = x ∧
      ctx.current = some Machine.globalFrame

/-- A machine has the command, and a context on which the call's thread gets at the variable. -/
structure Served (c : Increment) (x : String) (id : ContextId) (m : Machine) : Prop where
  command : m.commands.get? c.name = some (.builtin .incr)
  context : ∃ ctx, m.context? id = some ctx ∧ ctx.thread = c.thread ∧ ctx.disposed = false ∧
    c.Addresses x ctx

/-- The machine serves the call, and its thread is the current one. -/
structure Attended (c : Increment) (x : String) (id : ContextId) (m : Machine) : Prop
    extends c.Served x id m where
  coherent : m.Coherent
  thread : m.thread = c.thread

/-- The call can be made. -/
def Ready (c : Increment) (x : String) (m : Machine) : Prop :=
  match c.entry with
  | .here => m.disposed = false ∧
      ∃ id, (m.acquire true).1 = .ok id ∧ c.Served x id (m.acquire true).2
  | .on id => m.disposed = false ∧ c.Served x id m
  | .inside id => c.Served x id m

/-- What serves a call is its command and a context of its thread. -/
theorem Served.of_kept {c : Increment} {x : String} {id : ContextId} {m t : Machine}
    (h : c.Served x id m) (hcommand : t.commands.get? c.name = m.commands.get? c.name)
    (hcontext : ∀ ctx, m.context? id = some ctx → ctx.thread = c.thread →
      t.context? id = some ctx) : c.Served x id t := by
  obtain ⟨ctx, hctx, hthread, hrest⟩ := h.context
  exact ⟨hcommand.trans h.command, ctx, hcontext ctx hctx hthread, hthread, hrest⟩

end Increment

/-! ### Passive steps -/

/-- Nothing has happened that matters to a call: variables, commands, contexts and the current thread
are as before. -/
structure Machine.Passive (m t : Machine) : Prop extends m.Calm t where
  frames : t.frames = m.frames
  commands : t.commands = m.commands
  coherent : m.Coherent → t.Coherent

theorem Machine.Passive.refl (m : Machine) : m.Passive m := ⟨.refl m, rfl, rfl, fun h => h⟩

/-- Looking for a context may make one, which is none of those that there were. -/
theorem Machine.passive_acquire (m : Machine) : m.Passive (m.acquire true).2 := by
  obtain ⟨_, _, _, _, _, e, -⟩ := m.acquire_snd true
  exact ⟨m.calm_acquire true, by rw [e], by rw [e], fun h => h.acquire true⟩

/-- Resolving a name changes the cache only, and keeps it coherent. -/
theorem Machine.passive_resolve (m : Machine) (name : String) : m.Passive (m.resolve name).2 := by
  have hcoherent : m.Coherent → (m.resolve name).2.Coherent := fun h => h.resolve name
  rw [m.resolve_snd name] at hcoherent ⊢
  exact ⟨⟨rfl, rfl, fun _ _ hc => hc⟩, rfl, rfl, hcoherent⟩

namespace Increment

theorem Served.passive {c : Increment} {x : String} {id : ContextId} {m t : Machine}
    (h : c.Served x id m) (hq : m.Passive t) : c.Served x id t :=
  h.of_kept (by rw [hq.commands]) fun ctx hctx _ => hq.contexts id ctx hctx

/-! ### On the way to the update -/

section

variable (c : Increment) (x : String) (id : ContextId) {α β : Type}

/-- While the machine serves the call, the program gives a value after one passive step. -/
def Gives (p : Eval α) (a : α) : Prop :=
  ∀ m : Machine, c.Attended x id m →
    ∃ q t, p.step m = .inr (q, t) ∧ m.Passive t ∧ ∀ s, q.step s = .inl (.ok a)

/-- While the machine serves the call, the program takes so many passive steps and then adds the
amount to the variable. -/
def Nears : Nat → Eval Value → Prop
  | 0, p => ∀ (m : Machine) (n : Int64), m.frames.Rooted →
      CountsAs (m.frames.value? (Machine.globalFrame, x)) n →
      ∃ q, p.step m = .inr (q, { m with
          frames := m.frames.assign (Machine.globalFrame, x) (.int (n + c.amount)) }) ∧
        ∀ s, q.step s = .inl (.ok (.int (n + c.amount)))
  | i + 1, p => ∀ m : Machine, c.Attended x id m →
      ∃ q t, p.step m = .inr (q, t) ∧ m.Passive t ∧ Nears i q

variable {c x id}

/-- An action that gives a value is one step. -/
theorem gives_act {f : Machine → Except Stop α × Machine} {a : α}
    (h : ∀ m : Machine, c.Attended x id m → ∃ t, (act f).run m = (.ok a, t) ∧ m.Passive t) :
    c.Gives x id (act f) a := by
  intro m hm
  obtain ⟨t, hrun, hpassive⟩ := h m hm
  refine ⟨done a, t, ?_, hpassive, fun s => rfl⟩
  rw [run_act] at hrun
  rw [step, hrun]
  rfl

theorem Gives.bind_done {p : Eval β} {b : β} (hp : c.Gives x id p b) {k : β → Eval α} {a : α}
    (hk : k b = done a) : c.Gives x id (p >>= k) a := by
  intro m hm
  obtain ⟨q, t, hstep, hpassive, hover⟩ := hp m hm
  refine ⟨q >>= k, t, step_handle hstep _, hpassive, fun s => ?_⟩
  calc (q >>= k).step s = (k b).step s := step_handle_of_over (hover s) _
    _ = .inl (.ok a) := by rw [hk]; rfl

/-- Only the steps of a program matter. -/
theorem Nears.congr {i : Nat} {p q : Eval Value} (hq : c.Nears x id i q)
    (h : ∀ s, p.step s = q.step s) : c.Nears x id i p := by
  cases i with
  | zero =>
    intro m n hroot hn
    rw [h]
    exact hq m n hroot hn
  | succ i =>
    intro m hm
    rw [h]
    exact hq m hm

/-- A value that is needed first puts the update one step off. -/
theorem Nears.bind {i : Nat} {p : Eval β} {b : β} (hp : c.Gives x id p b) {k : β → Eval Value}
    (hk : c.Nears x id i (k b)) : c.Nears x id (i + 1) (p >>= k) := by
  intro m hm
  obtain ⟨q, t, hstep, hpassive, hover⟩ := hp m hm
  exact ⟨q >>= k, t, step_handle hstep _, hpassive,
    hk.congr fun s => step_handle_of_over (hover s) _⟩

/-- What goes on with a value by giving it back adds no steps. -/
theorem Nears.handle {i : Nat} {p : Eval Value} (hp : c.Nears x id i p)
    {k : Except Stop Value → Eval Value} (hk : ∀ v, k (.ok v) = done v) :
    c.Nears x id i (.handle p k) := by
  induction i generalizing p with
  | zero =>
    intro m n hroot hn
    obtain ⟨q, hstep, hover⟩ := hp m n hroot hn
    refine ⟨.handle q k, step_handle hstep k, fun s => ?_⟩
    rw [step_handle_of_over (hover s), hk]
    rfl
  | succ i ih =>
    intro m hm
    obtain ⟨q, t, hstep, hpassive, hnears⟩ := hp m hm
    exact ⟨.handle q k, t, step_handle hstep k, hpassive, ih hnears⟩

end

/-! ### The steps of a call -/

section

variable {c : Increment} {x : String} {id : ContextId}

/-- The amount is added to what the variable counts as. -/
theorem add_of_countsAs {inv : Invocation} {old : Option Value} {n : Int64} (h : CountsAs old n)
    (k : Int64) : Builtin.add inv k old = .ok (.int (n + k)) := by
  cases old with
  | none =>
    obtain rfl : n = 0 := h
    rw [Int64.zero_add]
    rfl
  | some v =>
    have hv : v.toInt = .ok n := h
    rw [Builtin.add, Builtin.number, hv]
    rfl

/-- Reading a context that is not disposed gives what the call needs of it. -/
theorem gives_readContext {α : Type} {a : α} (accessor : Accessor) (g : ThreadContext → α)
    (h : ∀ ctx, c.Addresses x ctx → g ctx = a) :
    c.Gives x id (readContext id fun ctx policy => (ctx.touch policy accessor).map fun _ => g ctx)
      a := by
  refine gives_act fun m hm => ?_
  obtain ⟨ctx, hctx, -, hd, haddr⟩ := hm.context
  have hread := run_readContext_of_not_disposed hctx hd accessor g
  rw [h ctx haddr] at hread
  exact ⟨m, hread, .refl m⟩

/-- The call gets at the global frame, through the frame that stands for it or the current one. -/
theorem gives_home {inv : Invocation} (hinv : inv.context = id) :
    c.Gives x id (inv.home c.target.toText) (Machine.globalFrame, x) := by
  subst hinv
  intro m hm
  obtain ⟨ctx, -, -, -, haddr⟩ := hm.context
  rcases haddr with ⟨hname, -, -⟩ | ⟨hname, hx, -⟩
  · -- a name behind `::`; no scope is active on any machine that serves the call
    have hglobal : c.Gives x inv.context inv.globalFrame Machine.globalFrame := by
      refine .bind_done (b := some Machine.globalFrame)
        (gives_readContext .currentGlobal (·.currentGlobal) ?_) rfl
      rintro ctx (⟨-, hscope, hglobal⟩ | ⟨hnone, -⟩)
      · rw [Context.currentGlobal, hscope, hglobal]
        rfl
      · rw [hname] at hnone
        cases hnone
    have hhome : c.Gives x inv.context (inv.globalFrame >>= fun f => pure (f, x))
        (Machine.globalFrame, x) := hglobal.bind_done rfl
    rw [Invocation.home, hname]
    exact hhome m hm
  · -- a plain name, while the global frame is the current one
    have hframe : c.Gives x inv.context inv.frame Machine.globalFrame := by
      refine .bind_done (b := some Machine.globalFrame)
        (gives_readContext (.frame .current) (·.frame .current) ?_) rfl
      rintro ctx (⟨hsome, -⟩ | ⟨-, -, hcurrent⟩)
      · rw [hname] at hsome
        cases hsome
      · exact hcurrent
    have hhome : c.Gives x inv.context (inv.frame >>= fun f => pure (f, c.target.toText))
        (Machine.globalFrame, x) := hframe.bind_done (by rw [hx]; rfl)
    rw [Invocation.home, hname]
    exact hhome m hm

/-- A program that updates the variable gets at its place first. -/
theorem nears_updateVar {inv : Invocation} (hinv : inv.context = id) :
    c.Nears x id 1 (inv.updateVar c.target.toText (Builtin.add inv c.amount)) := by
  refine .bind (gives_home hinv) ?_
  intro m n hroot hn
  obtain ⟨f, hf, -⟩ := hroot
  have hcounts : CountsAs (f.get? x) n := by
    simpa [Frames.value?, hf] using hn
  have hupdate : f.update x (Builtin.add inv c.amount) =
      .ok (.int (n + c.amount), f.set x (.int (n + c.amount))) := by
    rw [Frame.update, add_of_countsAs hcounts]
    rfl
  refine ⟨done (.int (n + c.amount)), ?_, fun s => rfl⟩
  rw [step, hf]
  dsimp only
  rw [hupdate]
  dsimp only
  rw [Frames.modify_const hf (·.set x (.int (n + c.amount)))]
  rfl

/-- The amount is part of the call, and reading it takes no step. -/
theorem nears_run {inv : Invocation} (hinv : inv.context = id) :
    c.Nears x id 1 (Builtin.incr.run inv c.args) := by
  have hupdate : c.Nears x id 1 _ := nears_updateVar hinv
  have hreads := c.reads
  rcases hincrement : c.increment with - | v
  · have hamount : c.amount = 1 := by simpa [hincrement] using hreads.symm
    rw [hamount] at hupdate
    rw [args, hincrement]
    exact hupdate
  · have hnumber : Builtin.number inv v = .ok c.amount := by
      have hv : v.toInt = .ok c.amount := by simpa [hincrement] using hreads
      rw [Builtin.number, hv]
      rfl
    rw [args, hincrement]
    refine hupdate.congr fun s => ?_
    show step (ofError (Builtin.number inv v) >>= _) s = _
    rw [hnumber]
    rfl

/-- An invocation is admitted, resolves the name and runs the command. -/
theorem nears_invoke {self : Runner} (hself : self.resolve = Eval.resolve) :
    c.Nears x id 3 (invoke self (some id) c.name c.args) := by
  -- its three steps: the context may be used, the name is resolved, the place is found
  have hadmitted : c.Gives x id (read (·.canUse (some id))) true := by
    refine gives_act fun m hm => ⟨m, ?_, .refl m⟩
    obtain ⟨ctx, hctx, hctxThread, hd, -⟩ := hm.context
    have huse : m.canUse (some id) = true := by
      rw [Machine.canUse_some_iff, Machine.context_of_some hctx, hctxThread, hm.thread]
      exact ⟨hd, rfl⟩
    show (Except.ok (m.canUse (some id)), m) = _
    rw [huse]
  have hresolved : c.Gives x id (Eval.resolve c.name) (.direct (.builtin .incr)) := by
    refine gives_act fun m hm => ⟨_, ?_, m.passive_resolve c.name⟩
    have hlookup : (m.resolve c.name).1 = some (.direct (.builtin .incr)) := by
      rw [hm.coherent.resolve_fst, Machine.lookup, hm.command]
    rcases hresolve : m.resolve c.name with ⟨r, t⟩
    rw [hresolve] at hlookup
    obtain rfl : r = _ := hlookup
    rw [run_act, hresolve]
  rw [← hself] at hresolved
  refine .handle ?_ fun v => rfl
  refine .bind hadmitted ?_
  exact .bind hresolved (nears_run rfl)

theorem nears_topLevel {i : Nat} {p : Eval Value} (h : c.Nears x id i p) :
    c.Nears x id i (topLevel p) :=
  h.handle fun _ => rfl

/-- A call that can be made takes a passive step, and is then as many steps away from its update as its
length says. -/
theorem Ready.first {self : Runner} (hself : self.resolve = Eval.resolve) {m : Machine}
    (hm : m.Coherent) (hthread : m.thread = c.thread) (h : c.Ready x m) :
    ∃ id i q t, (c.program self).step m = .inr (q, t) ∧ m.Passive t ∧ c.Served x id t ∧
      c.Nears x id i q ∧ i + 2 = c.length := by
  have hinvoke (id : ContextId) : c.Nears x id 3 (topLevel (invoke self (some id) c.name c.args)) :=
    nears_topLevel (nears_invoke hself)
  unfold Ready at h
  unfold program length
  rcases hentry : c.entry with - | id | id <;> rw [hentry] at h
  · -- the first step gets the context, which may be a new one
    obtain ⟨hopen, id, hid, hserved⟩ := h
    have hcontext : Eval.context.step m = .inr (done id, (m.acquire true).2) := by
      rw [Eval.context, ofChange, step, hopen]
      rcases hacquire : m.acquire true with ⟨r, t⟩
      rw [hacquire] at hid
      obtain rfl : r = .ok id := hid
      rfl
    exact ⟨id, 3, _, _, step_handle hcontext _, m.passive_acquire, hserved,
      (hinvoke id).congr fun s => rfl, rfl⟩
  · -- the first step sees that the interpreter is not disposed
    obtain ⟨hopen, hserved⟩ := h
    have hread : (read (·.disposed) : Eval Bool).step m = .inr (done false, m) := by
      show Sum.inr (done m.disposed, m) = _
      rw [hopen]
    exact ⟨id, 3, _, _, step_handle hread _, .refl m, hserved, (hinvoke id).congr fun s => rfl, rfl⟩
  · obtain ⟨q, t, hstep, hpassive, hnears⟩ := nears_invoke hself m ⟨h, hm, hthread⟩
    exact ⟨id, 2, q, t, hstep, hpassive, h.passive hpassive, hnears, rfl⟩

end

/-! ### Calls that are not over -/

/-- The machine with the thread of the call as the current one. -/
def focus (c : Increment) (m : Machine) : Machine := { m with thread := c.thread }

/-- A call that is not over after so many steps: it has not begun, or is on the way to its update. -/
inductive Pending (self : Runner) (c : Increment) (x : String) (m : Machine) :
    Nat → Eval Value → Prop
  | waiting : Pending self c x m 0 (c.program self)
  | nearing {id : ContextId} {i turns : Nat} {p : Eval Value} (served : c.Served x id m)
      (nears : c.Nears x id i p) (begun : 0 < turns) (left : turns + i + 1 = c.length) :
      Pending self c x m turns p

section

variable {self : Runner} {c : Increment} {x : String} {m t : Machine} {turns : Nat} {p : Eval Value}

/-- A call that is not over has steps left. -/
theorem Pending.lt (h : c.Pending self x m turns p) : turns < c.length := by
  cases h with
  | waiting =>
    unfold length
    split <;> decide
  | nearing served nears begun left => omega

/-- Calls that have not begun do not depend on the machine. -/
theorem Pending.of_served (h : c.Pending self x m turns p)
    (hserved : ∀ id, 0 < turns → c.Served x id m → c.Served x id t) :
    c.Pending self x t turns p := by
  cases h with
  | waiting => exact .waiting
  | nearing served nears begun left => exact .nearing (hserved _ begun served) nears begun left

theorem exists_step_program (c : Increment) (self : Runner) (m : Machine) :
    ∃ q t, (c.program self).step m = .inr (q, t) := by
  unfold program
  split <;> exact ⟨_, _, rfl⟩

/-- A call that is not over has a step to take. -/
theorem Pending.exists_step (h : c.Pending self x m turns p) (hm : m.Coherent)
    (hroot : m.frames.Rooted) (hthread : m.thread = c.thread) {n : Int64}
    (hn : CountsAs (m.frames.value? (Machine.globalFrame, x)) n) :
    ∃ q t, p.step m = .inr (q, t) := by
  cases h with
  | waiting => exact exists_step_program c self m
  | @nearing id i _ _ served nears begun left =>
    cases i with
    | zero =>
      obtain ⟨q, hstep, -⟩ := nears m n hroot hn
      exact ⟨q, _, hstep⟩
    | succ i =>
      obtain ⟨q, t, hstep, -⟩ := nears m ⟨served, hm, hthread⟩
      exact ⟨q, t, hstep⟩

/-- A step of a call: a passive one, or its last one, which updates the variable. -/
theorem Pending.step (hself : self.resolve = Eval.resolve) (h : c.Pending self x m turns p)
    (hm : m.Coherent) (hroot : m.frames.Rooted) (hthread : m.thread = c.thread) {n : Int64}
    (hn : CountsAs (m.frames.value? (Machine.globalFrame, x)) n) (hready : turns = 0 → c.Ready x m) :
    ∃ q t, p.step m = .inr (q, t) ∧
      (m.Passive t ∧ c.Pending self x t (turns + 1) q ∨
        turns + 1 = c.length ∧ t = { m with
            frames := m.frames.assign (Machine.globalFrame, x) (.int (n + c.amount)) } ∧
          ∀ s, q.step s = .inl (.ok (.int (n + c.amount)))) := by
  cases h with
  | waiting =>
    obtain ⟨id, i, q, t, hstep, hpassive, hserved, hnears, hlength⟩ :=
      (hready rfl).first hself hm hthread
    exact ⟨q, t, hstep, .inl ⟨hpassive, .nearing hserved hnears (by omega) (by omega)⟩⟩
  | @nearing id i _ _ served nears begun left =>
    cases i with
    | zero =>
      obtain ⟨q, hstep, hover⟩ := nears m n hroot hn
      exact ⟨q, _, hstep, .inr ⟨left, rfl, hover⟩⟩
    | succ i =>
      obtain ⟨q, t, hstep, hpassive, hnears⟩ := nears m ⟨served, hm, hthread⟩
      exact ⟨q, t, hstep,
        .inl ⟨hpassive, .nearing (served.passive hpassive) hnears (by omega) (by omega)⟩⟩

end

end Increment

/-! ### Scenes -/

/-- A crew of calls, with what has happened to them so far. -/
structure Scene (ι : Type) extends Crew Stop Machine Value ι where
  /-- How many steps each call has taken. -/
  turns : ι → Nat
  /-- The calls that are over, in the order in which they ended. -/
  ended : List ι

namespace Scene

variable {ι : Type} (x : String) (calls : ι → Increment)

/-- No call has begun. -/
def start (self : Runner) (m : Machine) : Scene ι where
  state := m
  rest w := (calls w).program self
  turns _ := 0
  ended := []

/-- Each call is made by its thread. -/
abbrev focus (w : ι) (m : Machine) : Machine := (calls w).focus m

/-- It can be the turn of a call if it is not over, and if it can be made in case that it has not
begun. -/
def MayAdvance (s : Scene ι) (w : ι) : Prop :=
  s.outcome? (focus calls) w = none ∧ (s.turns w = 0 → (calls w).Ready x (focus calls w s.state))

/-- A call takes its next atomic step, if it has one to take. -/
def advance [DecidableEq ι] (s : Scene ι) (w : ι) : Scene ι :=
  if (s.outcome? (focus calls) w).isSome then s
  else
    let c := s.toCrew.advance (focus calls) w
    { toCrew := c
      turns := Function.update s.turns w (s.turns w + 1)
      ended := if (c.outcome? (focus calls) w).isSome then s.ended ++ [w] else s.ended }

/-- The machine is changed in a way that leaves the variable alone and, for each call that has begun
and is not over, its command and the contexts of its thread. -/
structure Undisturbed (s : Scene ι) (t : Machine) : Prop where
  value : t.frames.value? (Machine.globalFrame, x) =
    s.state.frames.value? (Machine.globalFrame, x)
  command : ∀ w, 0 < s.turns w → s.outcome? (focus calls) w = none →
    t.commands.get? (calls w).name = s.state.commands.get? (calls w).name
  contexts : ∀ w, 0 < s.turns w → s.outcome? (focus calls) w = none → ∀ id c,
    s.state.context? id = some c → c.thread = (calls w).thread → t.context? id = some c

/-- One atomic step, of a call or of anything else. -/
inductive Step [DecidableEq ι] (s : Scene ι) : Scene ι → Prop
  | turn {w : ι} (h : s.MayAdvance x calls w) : Step s (s.advance calls w)
  | other {t : Machine} (next : s.state.Next t) (undisturbed : s.Undisturbed x calls t) :
      Step s { s with state := t }

/-- The 64-bit sum of a start and the amounts of calls. -/
def total (n : Int64) (ws : List ι) : Int64 :=
  Int64.ofInt (n.toInt + (ws.map fun w => (calls w).amount.toInt).sum)

theorem total_nil (n : Int64) : total calls n [] = n := by
  simp [total]

/-- Sums wrap around at any point with the same result. -/
theorem total_concat (n : Int64) (ws : List ι) (w : ι) :
    total calls n (ws ++ [w]) = total calls n ws + (calls w).amount := by
  rw [total, total, List.map_append, List.sum_append, ← Int.add_assoc, Int64.ofInt_add]
  simp

/-! ### What every step keeps -/

/-- The variable holds the sum so far, calls that are over have returned the sums in between, and the
others are on their way. -/
structure Sound (runner : Runner) (old : Option Value) (n : Int64) (s : Scene ι) : Prop where
  coherent : s.state.Coherent
  rooted : s.state.frames.Rooted
  value : s.state.frames.value? (Machine.globalFrame, x) =
    if s.ended = [] then old else some (.int (total calls n s.ended))
  nodup : s.ended.Nodup
  finished : ∀ i w, s.ended[i]? = some w → s.turns w = (calls w).length ∧
    ∀ m, (s.rest w).step m = .inl (.ok (.int (total calls n (s.ended.take (i + 1)))))
  pending : ∀ w, w ∉ s.ended → (calls w).Pending runner x s.state (s.turns w) (s.rest w)

variable {x calls} {runner : Runner} {old : Option Value} {n : Int64} {s : Scene ι} {w : ι}

/-- A turn, given the step of the call. -/
theorem advance_of_step [DecidableEq ι] {q : Eval Value} {t : Machine}
    (h : (s.rest w).step (focus calls w s.state) = .inr (q, t)) :
    s.advance calls w = ⟨⟨t, Function.update s.rest w q⟩, Function.update s.turns w (s.turns w + 1),
      if (q.step (focus calls w t)).isLeft then s.ended ++ [w] else s.ended⟩ := by
  have hopen : s.outcome? (focus calls) w = none := Crew.outcome?_eq_none_iff.2 ⟨q, t, h⟩
  rw [advance, hopen, Crew.advance_of_step h]
  simp [Crew.outcome?]

theorem sound_start {m : Machine} (hm : m.Coherent) (hroot : m.frames.Rooted) :
    Sound x calls runner (m.frames.value? (Machine.globalFrame, x)) n (start calls runner m) where
  coherent := hm
  rooted := hroot
  value := rfl
  nodup := List.nodup_nil
  finished i w h := by cases h
  pending w _ := .waiting

namespace Sound

/-- The variable counts as the sum so far, also before it exists. -/
theorem counts (h : Sound x calls runner old n s) (hold : CountsAs old n) :
    CountsAs (s.state.frames.value? (Machine.globalFrame, x)) (total calls n s.ended) := by
  rw [h.value]
  split
  · rename_i hnil
    rw [hnil, total_nil]
    exact hold
  · rfl

/-- A call that is over does not advance. -/
theorem notMem_of_step (h : Sound x calls runner old n s) {m t : Machine} {q : Eval Value}
    (hstep : (s.rest w).step m = .inr (q, t)) : w ∉ s.ended := by
  intro hmem
  obtain ⟨i, hi⟩ := List.getElem?_of_mem hmem
  rw [(h.finished i w hi).2 m] at hstep
  cases hstep

/-- A call stays on its way while commands and contexts are kept. -/
theorem pending_of_kept (h : Sound x calls runner old n s) {t : Machine}
    (hcommands : t.commands = s.state.commands)
    (hcontexts : ∀ id c, s.state.context? id = some c → t.context? id = some c)
    (hw : w ∉ s.ended) : (calls w).Pending runner x t (s.turns w) (s.rest w) :=
  (h.pending w hw).of_served fun id _ hserved =>
    hserved.of_kept (by rw [hcommands]) fun ctx hctx _ => hcontexts id ctx hctx

theorem pending_focus (h : Sound x calls runner old n s) (hw : w ∉ s.ended) :
    (calls w).Pending runner x (focus calls w s.state) (s.turns w) (s.rest w) :=
  h.pending_of_kept rfl (fun _ _ hc => hc) hw

/-- A call that is not over has a step to take. -/
theorem exists_step (h : Sound x calls runner old n s) (hold : CountsAs old n) (hw : w ∉ s.ended) :
    ∃ q t, (s.rest w).step (focus calls w s.state) = .inr (q, t) :=
  (h.pending_focus hw).exists_step (h.coherent.congr rfl rfl) h.rooted rfl (h.counts hold)

theorem outcome?_eq_none (h : Sound x calls runner old n s) (hold : CountsAs old n) (hw : w ∉ s.ended) :
    s.outcome? (focus calls) w = none := by
  exact Crew.outcome?_eq_none_iff.2 (h.exists_step hold hw)

/-- A passive step of a call. -/
theorem advance_passive [DecidableEq ι] (h : Sound x calls runner old n s) (hold : CountsAs old n)
    {q : Eval Value} {t : Machine}
    (hstep : (s.rest w).step (focus calls w s.state) = .inr (q, t))
    (hpassive : (focus calls w s.state).Passive t)
    (hpending : (calls w).Pending runner x t (s.turns w + 1) q) :
    Sound x calls runner old n (s.advance calls w) := by
  have hw := h.notMem_of_step hstep
  have hcoherent : t.Coherent := hpassive.coherent (h.coherent.congr rfl rfl)
  have hframes : t.frames = s.state.frames := hpassive.frames
  have hrooted : t.frames.Rooted := hframes ▸ h.rooted
  -- the call is not over yet
  have hthread : t.thread = (calls w).thread := hpassive.thread
  have hleft : (q.step (focus calls w t)).isLeft = false := by
    obtain ⟨q', t', hnext⟩ := hpending.exists_step hcoherent hrooted hthread
      (hframes ▸ h.counts hold)
    rw [focus, Increment.focus, ← hthread, hnext]
    rfl
  rw [advance_of_step hstep, hleft, if_neg Bool.false_ne_true]
  refine ⟨hcoherent, hrooted, ?_, h.nodup, fun i v hv => ?_, fun v hv => ?_⟩
  · show t.frames.value? _ = _
    rw [hframes]
    exact h.value
  · have hne : v ≠ w := fun e => hw (e ▸ List.mem_of_getElem? hv)
    simpa [hne] using h.finished i v hv
  · by_cases hvw : v = w
    · subst hvw
      simpa using hpending
    · simpa [hvw] using h.pending_of_kept hpassive.commands hpassive.contexts hv

/-- The last step of a call. -/
theorem advance_update [DecidableEq ι] (h : Sound x calls runner old n s) {q : Eval Value}
    {t : Machine} (hstep : (s.rest w).step (focus calls w s.state) = .inr (q, t))
    (hlength : s.turns w + 1 = (calls w).length)
    (ht : t = { focus calls w s.state with
      frames := s.state.frames.assign (Machine.globalFrame, x)
        (.int (total calls n s.ended + (calls w).amount)) })
    (hover : ∀ m, q.step m = .inl (.ok (.int (total calls n s.ended + (calls w).amount)))) :
    Sound x calls runner old n (s.advance calls w) := by
  have hw := h.notMem_of_step hstep
  rw [← total_concat] at ht hover
  have hframes : t.frames = s.state.frames.assign (Machine.globalFrame, x)
      (.int (total calls n (s.ended ++ [w]))) := by
    rw [ht]
  rw [advance_of_step hstep, hover, Sum.isLeft_inl, if_pos rfl]
  refine ⟨?_, ?_, ?_, ?_, fun i v hv => ?_, fun v hv => ?_⟩
  · exact h.coherent.congr (by rw [ht]; rfl) (by rw [ht]; rfl)
  · show t.frames.Rooted
    rw [hframes]
    exact h.rooted.assign _ _
  · -- the global frame exists, so the assignment takes effect
    obtain ⟨f, hf, -⟩ := h.rooted
    show t.frames.value? _ = _
    rw [hframes, if_neg (by simp)]
    exact Frames.value?_assign_self (by rw [hf]; rfl) _
  · rw [← List.concat_eq_append]
    exact h.nodup.concat hw
  · by_cases hi : i < s.ended.length
    · rw [List.getElem?_append_left hi] at hv
      have hne : v ≠ w := fun e => hw (e ▸ List.mem_of_getElem? hv)
      rw [List.take_append_of_le_length hi]
      simpa [hne] using h.finished i v hv
    · -- the new one is the last
      rw [List.getElem?_append_right (Nat.le_of_not_lt hi)] at hv
      obtain ⟨hlast, rfl⟩ : i - s.ended.length = 0 ∧ w = v := by
        simpa [List.getElem?_singleton] using hv
      rw [List.take_of_length_le (by rw [List.length_append, List.length_singleton]; omega)]
      simpa using ⟨hlength, hover⟩
  · -- the others have lost neither their command nor their context
    obtain ⟨hv, hvw⟩ : v ∉ s.ended ∧ v ≠ w := by simpa using hv
    have hcontexts : ∀ id c, s.state.context? id = some c → t.context? id = some c := by
      intro id c hc
      rw [ht]
      exact hc
    simpa [hvw] using h.pending_of_kept (by rw [ht]; rfl) hcontexts hv

/-- A step of a call. -/
theorem turn [DecidableEq ι] (hrunner : runner.resolve = Eval.resolve)
    (h : Sound x calls runner old n s) (hold : CountsAs old n) (hw : s.MayAdvance x calls w) :
    Sound x calls runner old n (s.advance calls w) := by
  obtain ⟨hopen, hready⟩ := hw
  have hmem : w ∉ s.ended := by
    obtain ⟨q, t, hstep⟩ := Crew.outcome?_eq_none_iff.1 hopen
    exact h.notMem_of_step hstep
  obtain ⟨q, t, hstep, ⟨hpassive, hpending⟩ | ⟨hlength, ht, hover⟩⟩ :=
    (h.pending_focus hmem).step hrunner (h.coherent.congr rfl rfl) h.rooted rfl (h.counts hold)
      hready
  · exact h.advance_passive hold hstep hpassive hpending
  · exact h.advance_update hstep hlength ht hover

/-- A step of anything else. -/
theorem other (h : Sound x calls runner old n s) (hold : CountsAs old n) {t : Machine}
    (hnext : s.state.Next t) (hundisturbed : s.Undisturbed x calls t) :
    Sound x calls runner old n { s with state := t } where
  coherent := h.coherent.next hnext
  rooted := hnext.rooted h.rooted
  value := hundisturbed.value.trans h.value
  nodup := h.nodup
  finished := h.finished
  -- calls that have not begun need nothing yet
  pending w hw := (h.pending w hw).of_served fun id hbegun hserved =>
    have hopen := h.outcome?_eq_none hold hw
    hserved.of_kept (hundisturbed.command w hbegun hopen) (hundisturbed.contexts w hbegun hopen id)

/-- Any number of steps, by calls and by others. -/
theorem reaches [DecidableEq ι] (hrunner : runner.resolve = Eval.resolve) (hold : CountsAs old n)
    {s' : Scene ι} (hs : Relation.ReflTransGen (Step x calls) s s')
    (h : Sound x calls runner old n s) : Sound x calls runner old n s' := by
  induction hs with
  | refl => exact h
  | tail _ hstep ih =>
    cases hstep with
    | turn hw => exact ih.turn hrunner hold hw
    | other hnext hundisturbed => exact ih.other hold hnext hundisturbed

theorem mem_ended_iff (h : Sound x calls runner old n s) :
    w ∈ s.ended ↔ s.turns w = (calls w).length := by
  constructor
  · intro hmem
    obtain ⟨i, hi⟩ := List.getElem?_of_mem hmem
    exact (h.finished i w hi).1
  · intro hturns
    by_contra hmem
    exact absurd hturns (Nat.ne_of_lt (h.pending w hmem).lt)

end Sound

/-- Where all calls have ended, the order does not show in the sum. -/
theorem total_of_all [Fintype ι] (n : Int64) {ws : List ι} (hnodup : ws.Nodup) (hall : ∀ w, w ∈ ws) :
    total calls n ws = Int64.ofInt (n.toInt + ∑ w, (calls w).amount.toInt) := by
  classical
  have huniv : ws.toFinset = Finset.univ := Finset.eq_univ_iff_forall.2 fun w => by simp [hall w]
  rw [total, ← List.sum_toFinset _ hnodup, huniv]

end Scene

open Scene

/-- **No increment is lost.**  In a machine as sessions have them, let a global variable be missing,
which counts as zero, or hold a value that counts as `n`.  Let any calls of `incr` be made on it, by any
threads and on any contexts, as `::x` with no scope frame active or as `x` with the global frame
current, each with no increment or with one that counts as a number.  Let the calls take their atomic
steps in any order, with steps of anything else in between that leave the variable alone and the calls
that are on their way.  At every moment, the i-th call that ended has the 64-bit sum of `n` and the
first i increments as its value, and the variable holds the sum for all calls that ended, so that a call
ends with its update and only with it.  Any other call has a step to take, and is over after as many as
its length says.  Once all of them are, the variable holds the sum of all increments, in which the order
does not show. -/
theorem no_increment_lost {ι : Type} [Fintype ι] [DecidableEq ι] (depth : Nat) (x : String)
    (calls : ι → Increment) {m : Machine} (hm : m.Coherent) (hroot : m.frames.Rooted) {n : Int64}
    (hn : CountsAs (m.frames.value? (Machine.globalFrame, x)) n) {s : Scene ι}
    (hs : Relation.ReflTransGen (Step x calls) (start calls (Evaluation.cached depth) m) s) :
    s.ended.Nodup ∧
    (∀ i w, s.ended[i]? = some w →
      s.outcome? (focus calls) w = some (.ok (.int (total calls n (s.ended.take (i + 1)))))) ∧
    (s.state.frames.value? (Machine.globalFrame, x) =
      if s.ended = [] then m.frames.value? (Machine.globalFrame, x)
      else some (.int (total calls n s.ended))) ∧
    (∀ w, w ∉ s.ended → s.outcome? (focus calls) w = none ∧ s.turns w < (calls w).length ∧
      ((s.turns w = 0 → (calls w).Ready x (focus calls w s.state)) →
        (s.advance calls w).turns w = s.turns w + 1 ∧ s.Step x calls (s.advance calls w))) ∧
    (∀ w, w ∈ s.ended ↔ s.turns w = (calls w).length) ∧
    ((∀ w, w ∈ s.ended) → Nonempty ι →
      s.state.frames.value? (Machine.globalFrame, x) =
        some (.int (Int64.ofInt (n.toInt + ∑ w, (calls w).amount.toInt)))) := by
  have h := (sound_start hm hroot).reaches (Evaluation.resolve_cached depth) hn hs
  refine ⟨h.nodup, fun i w hi => ?_, h.value, fun w hw => ⟨?_, ?_, fun hready => ⟨?_, ?_⟩⟩,
    fun w => h.mem_ended_iff, fun hall hsome => ?_⟩
  · exact Crew.outcome?_eq_some_iff.2 ((h.finished i w hi).2 _)
  · exact h.outcome?_eq_none hn hw
  · exact (h.pending w hw).lt
  · obtain ⟨q, t, hstep⟩ := h.exists_step hn hw
    rw [advance_of_step hstep]
    simp
  · exact .turn ⟨h.outcome?_eq_none hn hw, hready⟩
  · obtain ⟨w⟩ := hsome
    rw [h.value, if_neg (List.ne_nil_of_mem (hall w)), total_of_all n h.nodup hall]

/-- Two threads that count in one variable: one on the context that it has, with a flag as its
increment, the other on a context that is yet to be made, with the greatest integer as a text. -/
def hitCalls : Bool → Increment
  | false =>
    { thread := 1, entry := .on ⟨0⟩, name := "incr", target := .text "::hits"
      increment := some (.bool true), amount := 1, reads := by decide +kernel }
  | true =>
    { thread := 2, entry := .here, name := "incr", target := .text "hits"
      increment := some (.text "9223372036854775807"), amount := Int64.maxValue
      reads := by decide +kernel }

/-- An interpreter with a text in the variable. -/
def hitHost : Machine :=
  (Machine.performBy (Evaluation.cached 1) (.start { id := "host" })
    (.invoke "set" [.text "hits", .text " 0x10 "])).2

/-- Neither call has begun. -/
def hitsAhead : Scene Bool := start hitCalls (Evaluation.cached 1) hitHost

/-- Both calls have begun, and then another variable is set. -/
def hitsBegun : Scene Bool :=
  let s := [true, false, true, true].foldl (advance hitCalls) hitsAhead
  { s with
    state := s.state.after (.setVariables Machine.globalFrame
      ((Table.insert ∅ "hits" (.text " 0x10 ")).insert "others" (.int 7))) }

/-- Both calls know where the variable is before one of them updates it. -/
theorem no_increment_lost_interleaved :
    let s := [false, true, false, false, true, false].foldl (advance hitCalls) hitsBegun
    Relation.ReflTransGen (Step "hits" hitCalls) hitsAhead s ∧ s.ended = [true, false] ∧
      s.outcome? (focus hitCalls) true = some (.ok (.int (-9223372036854775793))) ∧
      s.outcome? (focus hitCalls) false = some (.ok (.int (-9223372036854775792))) ∧
      s.state.frames.value? (Machine.globalFrame, "hits") =
        some (.int (-9223372036854775792)) := by
  have hsession : Session { id := "host" } [] hitHost := .after 1 _ .start (by rintro ⟨⟩)
  have hn : CountsAs (hitHost.frames.value? (Machine.globalFrame, "hits")) 16 := by
    have hvalue : hitHost.frames.value? (Machine.globalFrame, "hits") = some (.text " 0x10 ") := by
      decide +kernel
    have hread : (Value.text " 0x10 ").toInt = .ok 16 := by decide +kernel
    rw [hvalue]
    exact hread
  have hturn {s : Scene Bool} (w : Bool)
      (hs : Relation.ReflTransGen (Step "hits" hitCalls) hitsAhead s) (hw : w ∉ s.ended)
      (hready : s.turns w = 0 → (hitCalls w).Ready "hits" ((hitCalls w).focus s.state)) :
      Relation.ReflTransGen (Step "hits" hitCalls) hitsAhead (s.advance hitCalls w) := by
    obtain ⟨-, -, -, hopen, -⟩ :=
      no_increment_lost 1 "hits" hitCalls hsession.coherent hsession.rooted hn hs
    exact hs.tail ((hopen w hw).2.2 hready).2
  have hagain {s : Scene Bool} (w : Bool)
      (hs : Relation.ReflTransGen (Step "hits" hitCalls) hitsAhead s)
      (h : w ∉ s.ended ∧ s.turns w ≠ 0) :
      Relation.ReflTransGen (Step "hits" hitCalls) hitsAhead (s.advance hitCalls w) :=
    hturn w hs h.1 fun hzero => absurd hzero h.2
  -- the second thread gets its context, and the first finds its own
  have hfirst := hturn true .refl (by decide +kernel) fun _ =>
    ⟨rfl, ⟨1⟩, rfl, rfl, _, rfl, rfl, rfl, .inr ⟨by decide +kernel, rfl, rfl⟩⟩
  have hsecond := hturn false hfirst (by decide +kernel) fun _ =>
    ⟨rfl, rfl, _, rfl, rfl, rfl, .inl ⟨by decide +kernel, rfl, rfl⟩⟩
  have hbegun : Relation.ReflTransGen (Step "hits" hitCalls) hitsAhead hitsBegun := by
    have hadmitted := hagain true (hagain true hsecond (by decide +kernel)) (by decide +kernel)
    refine hadmitted.tail (.other ⟨_, rfl⟩ ⟨?_, fun _ _ _ => rfl, fun _ _ _ _ _ hc _ => hc⟩)
    decide +kernel
  have haddressed := hagain false (hagain false (hagain true (hagain false hbegun
    (by decide +kernel)) (by decide +kernel)) (by decide +kernel)) (by decide +kernel)
  have hs := hagain false (hagain true haddressed (by decide +kernel)) (by decide +kernel)
  intro s
  obtain ⟨-, houtcome, hvalue, -⟩ :=
    no_increment_lost 1 "hits" hitCalls hsession.coherent hsession.rooted hn hs
  have hended : s.ended = [true, false] := by decide +kernel +revert
  have hone : total hitCalls 16 (s.ended.take 1) = -9223372036854775793 := by
    rw [hended]
    decide +kernel
  have htwo : total hitCalls 16 (s.ended.take 2) = -9223372036854775792 := by
    rw [hended]
    decide +kernel
  have hall : s.ended.take 2 = s.ended := by
    rw [hended]
    rfl
  refine ⟨hs, hended, ?_, ?_, ?_⟩
  · rw [← hone]
    exact houtcome 0 true (by decide +kernel)
  · rw [← htwo]
    exact houtcome 1 false (by decide +kernel)
  · rw [← htwo, hall]
    exact hvalue.trans (if_neg (by decide +kernel))

end CommandHost
