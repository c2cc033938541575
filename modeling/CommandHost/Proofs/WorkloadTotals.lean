/-
CommandHost/Proofs/WorkloadTotals.lean

What a run of the load generator comes to does not depend on how its workers are
interleaved.

A worker is followed through its rounds by the protocol of `Workload`: each call of a
round returns, and adds what it should to what the worker has added so far.  Since the
other workers are allowed to do anything that agrees with the protocol in between, no
interleaving has to be looked at.  When all workers are over, the totals are the sums
of what they have added, and no thread is left with a context.  The load generator
itself lets its workers run one after the other, and comes to the same.
-/
import CommandHost.Proofs.Workload

namespace CommandHost

open Program Eval Dispatch

namespace LoadGenerator

variable {W : Nat} {roster : Roster W} {run : Nat} {w : Fin W} {v : Holding}

/-! ### Invocations -/

/-- What the worker may count on a name resolving to. -/
def Resolves (roster : Roster W) (run : Nat) (w : Fin W) (v : Holding) (name : String)
    (r : Resolution) : Prop :=
  ∀ V m, Agreed roster run V m → V w = v → m.lookup name = some r

theorem resolves_of_command {r : Role W} {c : Command}
    (h : ∀ home : Fin W → Bool, home w = v.home → r.command run home = some c) :
    Resolves roster run w v r.name (.direct c) := by
  intro V m hm hw
  subst hw
  rw [Machine.lookup, hm.commands r, h _ rfl]

/-- A name that nobody defines goes to the handler. -/
theorem resolves_probe (x : Fin W) :
    Resolves roster run w v (Role.probe x).name (.unknown (.tally run) (Role.probe x).name) := by
  intro V m hm _
  have hunknown : m.commands.get? Machine.unknownName = some (.tally run) := hm.commands .unknown
  rw [Machine.lookup, hm.commands (.probe x)]
  simp [Role.command, hunknown]

theorem works_invoke {self : Runner} (hself : self.resolve = Eval.resolve) {id : ContextId}
    {c : ThreadContext} (hv : v.context = some (id, c)) {name : String} {r : Resolution}
    (hr : Resolves roster run w v name r) {args : List Value} {R : Value → Holding → Prop}
    (hx : Works roster run w (executeResolved self r { context := id, name } args) v R) :
    Works roster run w (invoke self (some id) name args) v R := by
  have hadmitted : Works roster run w
      (read (·.canUse (some id)) >>= admitted self (some id) name args) v R := by
    refine .bind (works_canUse hv) ?_
    rintro _ _ ⟨rfl, rfl⟩
    show Works roster run w (self.resolve name >>= _) _ R
    rw [hself]
    refine .bind (works_resolve hr) ?_
    rintro _ _ ⟨rfl, rfl⟩
    exact hx
  rw [invoke_eq]
  exact .handle hadmitted fun a u ha => .done ha

/-- A worker between two calls. -/
def resting (roster : Roster W) (w : Fin W) (x : Option ContextId)
    (calls unknown churned bumps : Nat) : Holding :=
  { context := x.map fun id => (id, idle roster w), calls, unknown, churned, bumps }

theorem context_resting (x : Option ContextId) (calls unknown churned bumps : Nat) :
    (resting roster w x calls unknown churned bumps).context = none ∨
      ∃ id, (resting roster w x calls unknown churned bumps).context = some (id, idle roster w) := by
  cases x with
  | none => exact .inl rfl
  | some id => exact .inr ⟨id, rfl⟩

/-- A call of a round.  It acquires the context of the thread and is counted when it returns. -/
theorem works_call {self : Runner} (hself : self.resolve = Eval.resolve) {name : String}
    {r : Resolution} {args : List Value} {x : Option ContextId}
    {calls unknown unknown' churned bumps bumps' : Nat} {S : Value → Prop}
    (hr : ∀ id, Resolves roster run w (resting roster w (some id) calls unknown churned bumps) name r)
    (hx : ∀ id, Works roster run w (executeResolved self r { context := id, name } args)
      (resting roster w (some id) calls unknown churned bumps) fun y u =>
        S y ∧ u = resting roster w (some id) calls unknown' churned bumps') :
    Works roster run w (call self run name args) (resting roster w x calls unknown churned bumps)
      fun y u => S y ∧ ∃ id, u = resting roster w (some id) (calls + 1) unknown' churned bumps' := by
  have hinvoke : Works roster run w (invokeHere self name args)
      (resting roster w x calls unknown churned bumps) fun y u =>
        S y ∧ ∃ id, u = resting roster w (some id) calls unknown' churned bumps' := by
    refine .bind (works_context (context_resting x calls unknown churned bumps)) ?_
    rintro id _ rfl
    -- the name resolves to the same command whatever the others have redefined by then
    refine .handle (works_invoke hself rfl (hr id) (hx id)) ?_
    rintro y _ ⟨hy, rfl⟩
    exact .done ⟨hy, id, rfl⟩
  refine .handle hinvoke ?_
  rintro y _ ⟨hy, id, rfl⟩
  refine .bind (works_count 1 0 0 fun t => ?_) ?_
  · simp
  · rintro _ _ rfl
    exact .done ⟨hy, id, rfl⟩

/-! ### The calls of a round -/

/-- A name without `::` lives in the current frame. -/
theorem works_home {inv : Invocation} {c : ThreadContext} (hv : v.context = some (inv.context, c))
    {f : FrameId} (hc : c.current = some f) {name : String} (hname : globalName? name = none) :
    Works roster run w (inv.home name) v fun b u => b = (f, name) ∧ u = v := by
  rw [Invocation.home, hname]
  have hframe : Works roster run w inv.frame v fun g u => g = f ∧ u = v := by
    refine .bind (works_readFrame hv .current) ?_
    rintro _ _ ⟨rfl, rfl⟩
    rw [show c.frame .current = some f from hc]
    exact .done ⟨rfl, rfl⟩
  refine .bind hframe ?_
  rintro _ _ ⟨rfl, rfl⟩
  exact .done ⟨rfl, rfl⟩

/-- Setting the worker's variable, which lives in the global frame. -/
theorem works_callSet {self : Runner} (hself : self.resolve = Eval.resolve) (x : Option ContextId)
    (calls unknown churned bumps : Nat) (y : Value) :
    Works roster run w (call self run "set" [.text ("w" ++ Number.intText w), y])
      (resting roster w x calls unknown churned bumps) fun _ u =>
        ∃ id, u = resting roster w (some id) (calls + 1) unknown churned bumps := by
  -- the variable of a worker is a plain one, and not the counter
  have hletters : ("w" ++ Number.intText w).toList = 'w' :: Nat.toDigits 10 w := by
    simp [toList_intText]
  have hname : globalName? ("w" ++ Number.intText w) = none := by simp [globalName?, hletters]
  have hcounter : "w" ++ Number.intText w ≠ "counter" := by
    intro h
    have h := congrArg String.toList h
    simp [hletters] at h
  refine .mono (works_call hself (S := fun _ => True)
    (fun id => resolves_of_command (r := .set) fun _ _ => rfl) fun id => ?_) fun _ _ h => h.2
  have hset : Works roster run w (Invocation.setVar ⟨id, "set", []⟩ ("w" ++ Number.intText w) y)
      (resting roster w (some id) calls unknown churned bumps) fun _ u =>
        u = resting roster w (some id) calls unknown churned bumps := by
    refine .bind (works_home rfl rfl hname) ?_
    rintro _ _ ⟨rfl, rfl⟩
    exact works_setGlobal hcounter y
  refine .bind hset ?_
  rintro _ _ rfl
  exact .done ⟨trivial, rfl⟩

/-- Squaring a number. -/
theorem works_callSquare {self : Runner} (hself : self.resolve = Eval.resolve) (x : Option ContextId)
    (calls unknown churned bumps : Nat) (n : Int64) :
    Works roster run w (call self run (squareName w) [.int n])
      (resting roster w x calls unknown churned bumps) fun y u =>
        y = .int (n * n) ∧ ∃ id, u = resting roster w (some id) (calls + 1) unknown churned bumps := by
  refine works_call hself (S := fun y => y = .int (n * n))
    (fun id => resolves_of_command (r := .square w) (c := .square) fun home h => ?_) fun id => ?_
  · rw [Role.command, h]
    rfl
  · exact .done ⟨rfl, rfl⟩

/-- Calling the name that nobody defines. -/
theorem works_callProbe {self : Runner} (hself : self.resolve = Eval.resolve) (x : Option ContextId)
    (calls unknown churned bumps : Nat) :
    Works roster run w (call self run ("probe" ++ Number.intText w) [])
      (resting roster w x calls unknown churned bumps) fun _ u =>
        ∃ id, u = resting roster w (some id) (calls + 1) (unknown + 1) churned bumps := by
  refine .mono (works_call hself (S := fun _ => True) (fun id => resolves_probe w) fun id => ?_)
    fun _ _ h => h.2
  refine .bind (works_count 0 1 0 fun t => ?_) ?_
  · simp
  · rintro _ _ rfl
    exact .done ⟨trivial, rfl⟩

/-! ### The procedure of a round -/

/-- The frame of a call of the procedure. -/
def bumpFrame : Frame := .ofCall "bump" 1 ["n"] [.int 1]

/-- A worker in a call of the procedure. -/
def bumping (roster : Roster W) (w : Fin W) (id : ContextId) (f : FrameId)
    (calls unknown churned bumps : Nat) : Holding :=
  { context := some (id, { idle roster w with
      stack := some ⟨[f]⟩, current := some f, procedure := some f })
    frame := some (f, bumpFrame), calls, unknown, churned, bumps }

/-- The body of the procedure adds its argument, which is one, to the counter. -/
theorem works_bumpBody (depth : Nat) {inv : Invocation} (f : FrameId)
    (calls unknown churned bumps : Nat) :
    Works roster run w ((Evaluation.cached (depth + 1)).body inv
        [.invoke (.value (.text "incr")) [.value (.text "::counter"), .var "n"]])
      (bumping roster w inv.context f calls unknown churned bumps) fun _ u =>
        u = bumping roster w inv.context f calls unknown churned (bumps + 1) := by
  have hvar : Works roster run w (inv.getVar "n")
      (bumping roster w inv.context f calls unknown churned bumps) fun y u =>
        y = .int 1 ∧ u = bumping roster w inv.context f calls unknown churned bumps := by
    refine .bind (works_home rfl rfl (by decide +kernel)) ?_
    rintro _ _ ⟨rfl, rfl⟩
    refine .bind (works_variable rfl "n") ?_
    rintro _ _ ⟨rfl, rfl⟩
    exact .done ⟨rfl, rfl⟩
  have hincr : Works roster run w
      (invoke (Evaluation.cached depth) (some inv.context) "incr" [.text "::counter", .int 1])
      (bumping roster w inv.context f calls unknown churned bumps) fun _ u =>
        u = bumping roster w inv.context f calls unknown churned (bumps + 1) := by
    refine works_invoke (Evaluation.resolve_cached depth) rfl
      (resolves_of_command (r := .incr) fun _ _ => rfl) ?_
    exact .bind_done (works_addCounter rfl rfl)
  have hargs : Works roster run w (Evaluation.operands inv .empty [.var "n"])
      (bumping roster w inv.context f calls unknown churned bumps) fun ys u =>
        ys = [.int 1] ∧ u = bumping roster w inv.context f calls unknown churned bumps := by
    refine .bind hvar ?_
    rintro _ _ ⟨rfl, rfl⟩
    exact .bind_done (.done ⟨rfl, rfl⟩)
  have hoperands : Works roster run w
      (Evaluation.operands inv .empty [.value (.text "::counter"), .var "n"])
      (bumping roster w inv.context f calls unknown churned bumps) fun ys u =>
        ys = [.text "::counter", .int 1] ∧
          u = bumping roster w inv.context f calls unknown churned bumps := by
    refine .bind_done (.bind hargs ?_)
    rintro _ _ ⟨rfl, rfl⟩
    exact .done ⟨rfl, rfl⟩
  have hstatement : Works roster run w (Evaluation.statement (Evaluation.cached depth) inv .empty
      (.invoke (.value (.text "incr")) [.value (.text "::counter"), .var "n"]))
      (bumping roster w inv.context f calls unknown churned bumps) fun _ u =>
        u = bumping roster w inv.context f calls unknown churned (bumps + 1) := by
    refine .bind_done (.bind hoperands ?_)
    rintro _ _ ⟨rfl, rfl⟩
    exact hincr
  exact .bind hstatement fun y u hu => .done hu

/-- What restores does so after a program that returns. -/
theorem works_always {α : Type} {restore : Eval Unit} {p : Eval α} {R S : α → Holding → Prop}
    (hp : Works roster run w p v R)
    (hr : ∀ a u, R a u → Works roster run w restore u fun _ u' => S a u') :
    Works roster run w (always restore p) v S := by
  refine .handle hp fun a u ha => .handle (hr a u ha) fun _ u' hu' => ?_
  exact .done hu'

/-- The frame binds the parameter to one. -/
theorem works_bumpFrame (id : ContextId) (calls unknown churned bumps : Nat) :
    Works roster run w (callFrame ⟨id, "bump", []⟩ "bump" ["n"] [.int 1])
      (resting roster w (some id) calls unknown churned bumps) fun f u =>
        u = { resting roster w (some id) calls unknown churned bumps with
          frame := some (f, bumpFrame) } := by
  refine .bind (works_touch rfl .stack (·.stack)) ?_
  rintro _ _ ⟨rfl, rfl⟩
  refine .bind works_maxDepth ?_
  rintro d _ ⟨hd, rfl⟩
  -- the stack is empty, so any limit that allows calls allows this one
  show Works roster run w (if d ≤ 0 then _ else _) _ _
  rw [if_neg (by omega)]
  exact works_allocFrame bumpFrame

theorem works_enterBump (id : ContextId) (f : FrameId) (calls unknown churned bumps : Nat) :
    Works roster run w (enterCall id f)
      { resting roster w (some id) calls unknown churned bumps with frame := some (f, bumpFrame) }
      fun _ u => u = bumping roster w id f calls unknown churned bumps := by
  refine .bind (works_modifyStack rfl _) ?_
  rintro _ _ rfl
  refine .bind (works_writeFrame rfl _ _) ?_
  rintro _ _ rfl
  refine .mono (works_writeFrame rfl _ _) ?_
  rintro _ _ rfl
  rfl

theorem works_leaveBump (id : ContextId) (f : FrameId) (calls unknown churned bumps : Nat) :
    Works roster run w (leaveCall id f (some Machine.globalFrame) none)
      (bumping roster w id f calls unknown churned bumps)
      fun _ u => u = resting roster w (some id) calls unknown churned bumps := by
  refine .bind (works_modifyStack rfl _) ?_
  rintro _ _ rfl
  refine .bind (works_dropFrame rfl _) ?_
  rintro _ _ rfl
  refine .bind (works_writeFrame rfl _ _) ?_
  rintro _ _ rfl
  refine .mono (works_writeFrame rfl _ _) ?_
  rintro _ _ rfl
  rfl

/-- Calling the procedure, in a frame that is gone afterwards. -/
theorem works_callBump (depth : Nat) (x : Option ContextId) (calls unknown churned bumps : Nat) :
    Works roster run w (call (Evaluation.cached (depth + 1)) run "bump" [.int 1])
      (resting roster w x calls unknown churned bumps) fun _ u =>
        ∃ id, u = resting roster w (some id) (calls + 1) unknown churned (bumps + 1) := by
  refine .mono (works_call (Evaluation.resolve_cached _) (S := fun _ => True)
    (fun id => resolves_of_command (r := .bump) fun _ _ => rfl) fun id => ?_) fun _ _ h => h.2
  refine .bind (works_bumpFrame id calls unknown churned bumps) ?_
  rintro f _ rfl
  -- what is restored in the end is what an idle context has: the global frame and no procedure
  refine .handle (.bind (works_readFrame rfl .current) ?_) fun y u hu => .done ⟨trivial, hu⟩
  rintro _ _ ⟨rfl, rfl⟩
  refine .bind (works_readFrame rfl .procedure) ?_
  rintro _ _ ⟨rfl, rfl⟩
  refine .bind (works_enterBump id f calls unknown churned bumps) ?_
  rintro _ _ rfl
  refine works_always (works_bumpBody depth f calls unknown churned bumps) ?_
  rintro y _ rfl
  exact works_leaveBump id f calls unknown churned (bumps + 1)

/-! ### Rounds -/

/-- What one churn of a worker adds. -/
def churnGain (w : Nat) : Nat := if w = 0 then 4 else 3

/-- Redefining the square command, moving it away and back, and redefining the handler. -/
theorem works_churn (x : Option ContextId) (calls unknown churned bumps : Nat) :
    Works roster run w (churn run w) (resting roster w x calls unknown churned bumps) fun _ u =>
      u = resting roster w x calls unknown (churned + churnGain w) bumps := by
  refine .bind (works_define (r := .square w) fun home h => ?_) ?_
  · rw [Role.command, h]
    rfl
  rintro _ _ rfl
  -- until it is back, the square command is under a name that nobody calls
  refine .bind (works_shift false rfl) ?_
  rintro _ _ rfl
  refine .bind (works_shift true rfl) ?_
  rintro _ _ rfl
  refine .bind (works_count 0 0 3 fun t => ?_) ?_
  · simp
  rintro _ _ rfl
  by_cases hw : (w : Nat) = 0
  · rw [if_pos hw, churnGain, if_pos hw]
    refine .bind (works_define (r := .unknown) fun _ _ => rfl) ?_
    rintro _ _ rfl
    refine .mono (works_count 0 0 1 fun t => ?_) ?_
    · simp
    · rintro _ _ rfl
      rfl
  · rw [if_neg hw, churnGain, if_neg hw]
    exact .done rfl

/-- What a worker holds after a number of rounds. -/
def afterRounds (roster : Roster W) (w : Fin W) (churnEvery : Nat) (x : Option ContextId) (i : Nat) :
    Holding :=
  resting roster w x (4 * i) i (i / churnEvery * churnGain w) i

/-- A worker churns at the end of every so many rounds. -/
theorem churns_iff (churnEvery i : Nat) :
    (0 < (churnEvery : Int) ∧ (i : Int) % churnEvery = churnEvery - 1) ↔ churnEvery ∣ i + 1 := by
  rcases Nat.eq_zero_or_pos churnEvery with rfl | hpos
  · simp
  · have hlt := Nat.mod_lt i hpos
    have hsplit : churnEvery ∣ i + 1 ↔ churnEvery ∣ i % churnEvery + 1 := by
      conv_lhs => rw [← Nat.div_add_mod i churnEvery, Nat.add_assoc]
      exact Nat.dvd_add_right (Nat.dvd_mul_right _ _)
    have hmod : (i : Int) % churnEvery = ((i % churnEvery : Nat) : Int) := by simp
    rw [hsplit, hmod]
    constructor
    · rintro ⟨-, h⟩
      rw [show i % churnEvery + 1 = churnEvery by omega]
    · intro h
      have hle := Nat.le_of_dvd (Nat.succ_pos _) h
      omega

theorem works_workerFields : Works roster run w (workerFields w) v fun _ u => u = v := by
  have hthread : Works roster run w (read (·.thread)) v fun _ u => True ∧ u = v :=
    works_of_read ⟨_, rfl⟩ fun _ m _ _ _ => ⟨m.thread, rfl, trivial⟩
  refine .bind hthread ?_
  rintro _ _ ⟨-, rfl⟩
  exact .done rfl

/-- Four calls, and a churn if it is time. -/
theorem works_round (depth churnEvery : Nat) (x : Option ContextId) (i : Nat) :
    Works roster run w (round (Evaluation.cached (depth + 1)) run w churnEvery i)
      (afterRounds roster w churnEvery x i) fun _ u =>
        ∃ id, u = afterRounds roster w churnEvery (some id) (i + 1) := by
  have hself := Evaluation.resolve_cached (depth + 1)
  refine .bind (works_callSet hself x _ _ _ _ _) ?_
  rintro _ _ ⟨id, rfl⟩
  refine .bind (works_callBump depth _ _ _ _ _) ?_
  rintro _ _ ⟨id, rfl⟩
  refine .bind (works_callSquare hself _ _ _ _ _ _) ?_
  rintro _ _ ⟨rfl, id, rfl⟩
  -- the square is right, so the round goes on
  have hsquare : intOf (.int (Int64.ofNat i * Int64.ofNat i)) = Int64.ofNat i * Int64.ofNat i := rfl
  dsimp only
  rw [if_neg (not_not.2 hsquare)]
  refine .bind (works_callProbe hself _ _ _ _ _) ?_
  rintro _ _ ⟨id, rfl⟩
  by_cases hchurn : churnEvery ∣ i + 1
  · rw [if_pos ((churns_iff _ _).2 hchurn)]
    refine .bind (works_churn _ _ _ _ _) ?_
    rintro _ _ rfl
    refine .bind works_workerFields ?_
    rintro _ _ rfl
    refine .mono (works_log _ _ _) ?_
    rintro _ _ rfl
    refine ⟨id, ?_⟩
    rw [afterRounds, Nat.succ_div_of_dvd hchurn, Nat.add_mul, Nat.one_mul]
    rfl
  · rw [if_neg fun h => hchurn ((churns_iff _ _).1 h)]
    refine .done ⟨id, ?_⟩
    rw [afterRounds, Nat.succ_div_of_not_dvd hchurn]
    rfl

theorem works_rounds (depth churnEvery : Nat) (x : Option ContextId) (i left : Nat) :
    Works roster run w (rounds (Evaluation.cached (depth + 1)) run w churnEvery false i left)
      (afterRounds roster w churnEvery x i) fun _ u =>
        ∃ y, u = afterRounds roster w churnEvery y (i + left) := by
  induction left generalizing x i with
  | zero => exact .done ⟨x, rfl⟩
  | succ left ih =>
    refine .bind (works_round depth churnEvery x i) ?_
    rintro _ _ ⟨id, rfl⟩
    refine .mono (ih (some id) (i + 1)) ?_
    rintro _ _ ⟨y, rfl⟩
    exact ⟨y, by rw [Nat.add_right_comm, Nat.add_assoc]⟩

/-- A worker does its rounds and gives its context up. -/
theorem works_worker (depth : Nat) {size : Load} {n churnEvery : Nat} (hn : size.iterations = n)
    (hc : size.churn = churnEvery) :
    Works roster run w (worker (Evaluation.cached (depth + 1)) run size false w) {} fun _ u =>
      u = afterRounds roster w churnEvery none n := by
  have hrounds : Works roster run w (rounds (Evaluation.cached (depth + 1)) run w size.churn false 0
      size.iterations.toNat) {} fun _ u => ∃ y, u = afterRounds roster w churnEvery y n := by
    have hstart : ({} : Holding) = afterRounds roster w churnEvery none 0 := by
      simp [afterRounds, resting]
    have hleft : 0 + size.iterations.toNat = n := by omega
    rw [hstart, hc, ← hleft]
    exact works_rounds depth churnEvery none 0 _
  refine works_always (R := fun _ u => ∃ y, u = afterRounds roster w churnEvery y n) ?_ ?_
  · refine .bind works_workerFields ?_
    rintro _ _ rfl
    refine .bind (works_log _ _ _) ?_
    rintro _ _ rfl
    refine .bind hrounds ?_
    rintro _ _ hu
    refine .bind works_workerFields ?_
    rintro _ _ rfl
    refine .mono (works_log _ _ _) ?_
    rintro _ _ rfl
    exact hu
  · -- whichever context the worker has at the end, it is released
    rintro _ _ ⟨y, rfl⟩
    refine .bind (works_release (context_resting y _ _ _ _)) ?_
    rintro _ _ rfl
    exact .done rfl

/-! ### The start of a run -/

/-- What comes before the workers start. -/
def opening (workers : Nat) (size : Load) : Eval Unit := do
  setup (← enrol) workers
  announce workers size

/-- The workers of a run on a fresh interpreter, about to start. -/
def crew (W : Nat) (self : Runner) (size : Load) (s : Setup) : Crew Stop Machine Unit (Fin W) where
  state := ((opening W size).run (Machine.start s)).2
  rest w := worker self 0 size size.cancelled w

/-- Defining the square commands of workers. -/
theorem run_defineSquares (ws : List Nat) {m : Machine} (hm : m.Coherent)
    (hd : m.disposed = false) : ∃ commands cache log,
      (ws.forM fun w => Eval.define (squareName w) (some .square)).run m =
        (.ok (), { m with commands, cache, log }) ∧
      Machine.Coherent { m with commands, cache, log } ∧
      (∀ w ∈ ws, commands.get? (squareName w) = some .square) ∧
      ∀ name, (∀ w ∈ ws, name ≠ squareName w) → commands.get? name = m.commands.get? name := by
  induction ws generalizing m with
  | nil => exact ⟨m.commands, m.cache, m.log, rfl, hm, by simp, fun _ _ => rfl⟩
  | cons w ws ih =>
    obtain ⟨cache, log, hrun, hcoherent⟩ := run_define hm hd (squareName w) .square
    obtain ⟨commands, cache', log', hrun', hcoherent', hnew, hold⟩ := ih hcoherent hd
    refine ⟨commands, cache', log', ?_, hcoherent', ?_, ?_⟩
    · show (Eval.define (squareName w) (some .square) >>= fun _ =>
        ws.forM fun w => Eval.define (squareName w) (some .square)).run m = _
      rw [run_bind, hrun]
      exact hrun'
    · intro x hx
      by_cases hlater : ∃ y ∈ ws, squareName x = squareName y
      · obtain ⟨y, hy, e⟩ := hlater
        rw [e]
        exact hnew y hy
      · -- the first one stays as it was defined
        obtain rfl : x = w := (List.mem_cons.1 hx).resolve_right fun hx => hlater ⟨x, hx, rfl⟩
        rw [hold _ fun y hy e => hlater ⟨y, hy, e⟩]
        simp
    · intro name hname
      rw [hold name fun x hx => hname x (List.mem_cons_of_mem _ hx), Table.get?_insert,
        if_neg (hname w List.mem_cons_self)]

/-- The names that the workers use, on a fresh interpreter. -/
theorem get?_start (s : Setup) (r : Role W) : (Machine.start s).commands.get? r.name =
    if r = .set then some (.builtin .set) else if r = .incr then some (.builtin .incr) else none := by
  have hname (t : String) : (r.name = t) = (r.letters = t.toList) := by
    rw [← Role.toList_name, String.toList_inj]
  simp only [Machine.start, Machine.loggedHere, Machine.logged, Builtin.all, List.foldl_cons,
    List.foldl_nil, Table.get?_insert, Table.get?_empty, hname]
  cases r <;> simp [Role.letters, Builtin.name]

theorem total_const (k : Nat) : total (fun _ : Fin W => k) = W * k := by
  have hfold (ws : List (Fin W)) : ws.foldr (fun _ sum => k + sum) 0 = ws.length * k := by
    induction ws with
    | nil => simp
    | cons w ws ih =>
      rw [List.foldr_cons, ih, List.length_cons, Nat.succ_mul, Nat.add_comm]
  rw [total, hfold, List.length_finRange]

/-- The setup on an interpreter with the names of a fresh one. -/
theorem run_setup {m : Machine} (hm : m.Coherent) (hd : m.disposed = false)
    (hfresh : ∀ r : Role W, m.commands.get? r.name =
      if r = .set then some (.builtin .set) else if r = .incr then some (.builtin .incr) else none) :
    ∃ commands cache log,
      (setup run W).run m = (.ok (), { m with commands, cache, log }) ∧
      Machine.Coherent { m with commands, cache, log } ∧
      Stocked run (fun _ : Fin W => true) commands := by
  obtain ⟨cache₁, log₁, hbump, hm₁⟩ := run_define hm hd "bump" bump
  obtain ⟨commands, cache₂, log₂, hsquares, hm₂, hnew, hold⟩ :=
    run_defineSquares (List.range W) hm₁ hd
  obtain ⟨cache, log, hunknown, hm₃⟩ := run_define hm₂ hd Machine.unknownName (.tally run)
  refine ⟨commands.insert Machine.unknownName (.tally run), cache, log, ?_, hm₃, ?_⟩
  · rw [setup, run_bind, hbump]
    dsimp only
    rw [run_bind, hsquares]
    exact hunknown
  -- the last definition of a name counts, so the names are looked up from the last on
  intro r
  rw [Table.get?_insert]
  by_cases hr : r = .unknown
  · subst hr
    exact if_pos rfl
  have hunknownName : r.name ≠ Machine.unknownName := fun e =>
    hr (Role.name_injective (show r.name = Role.unknown.name from e))
  rw [if_neg hunknownName]
  by_cases hsquare : ∃ w, r = .square w
  · obtain ⟨w, rfl⟩ := hsquare
    exact hnew w (List.mem_range.2 w.isLt)
  rw [hold, Table.get?_insert]
  · by_cases hb : r = .bump
    · subst hb
      exact if_pos rfl
    · have hbumpName : r.name ≠ "bump" := fun e =>
        hb (Role.name_injective (show r.name = Role.bump.name from e))
      rw [if_neg hbumpName, hfresh]
      cases r <;> simp_all [Role.command]
  · intro x hx e
    exact hsquare ⟨⟨x, List.mem_range.1 hx⟩, Role.name_injective e⟩

/-- What comes before the workers only touches the commands and begins to count. -/
theorem run_opening (W : Nat) (size : Load) (s : Setup) : ∃ commands cache log,
    (opening W size).run (Machine.start s) =
      (.ok (), { Machine.start s with tallies := #[{}], commands, cache, log }) ∧
    Machine.Coherent { Machine.start s with tallies := #[{}], commands, cache, log } ∧
    Stocked 0 (fun _ : Fin W => true) commands := by
  let m : Machine := { Machine.start s with tallies := #[{}] }
  have hm : m.Coherent := (Machine.coherent_start s).congr rfl rfl
  obtain ⟨commands, cache, log, hsetup, hcoherent, hstocked⟩ := run_setup hm rfl (get?_start s)
  have hrun : (opening W size).run (Machine.start s) =
      (setup 0 W >>= fun _ => announce W size).run m := rfl
  rw [hrun, run_bind, hsetup]
  exact ⟨commands, cache, _, rfl, hcoherent.congr rfl rfl, hstocked⟩

/-- Before the workers start, the machine agrees with their holding nothing. -/
theorem agreed_opening (roster : Roster W) (size : Load) (s : Setup) (hd : 1 ≤ s.maxDepth) :
    ((opening W size).run (Machine.start s)).1 = .ok () ∧
      Agreed roster 0 (fun _ => {}) ((opening W size).run (Machine.start s)).2 := by
  obtain ⟨commands, cache, log, hrun, hcoherent, hstocked⟩ := run_opening W size s
  rw [hrun]
  refine ⟨rfl, rfl, hd, hcoherent, hstocked, ?_, ?_, ?_⟩
  · constructor
    · rintro w id c ⟨⟩
    · intro w
      rfl
    · rintro t id ⟨⟩
    · rintro id ⟨⟩
  · refine ⟨⟨⟨"::", .globalFrame, 0, ∅, false⟩, rfl, rfl, ?_⟩, ?_, ?_⟩
    · have hzero : total (Holding.bumps ∘ fun _ : Fin W => {}) = 0 := total_const 0
      rw [hzero]
      rfl
    · rintro w f x ⟨⟩
    · rintro w w' f x x' ⟨⟩
  · have hzero : total (fun _ : Fin W => 0) = 0 := total_const 0
    show some _ = some (⟨.ofNat (total fun _ : Fin W => 0), .ofNat (total fun _ : Fin W => 0),
      .ofNat (total fun _ : Fin W => 0)⟩ : Tally)
    rw [hzero]
    rfl

/-! ### The end of a run -/

/-- What `W` workers with `n` rounds each come to, modulo 2^64, if they churn after every `c`th round.
With `c = 0` nobody churns. -/
def totals (W n c : Nat) : LoadReport :=
  { workers := W, tally := ⟨.ofNat (4 * W * n), .ofNat (W * n), .ofNat (n / c * (3 * W + 1))⟩
    counter := .ofNat (W * n), contexts := 0 }

theorem total_churned (hW : 1 ≤ W) (k : Nat) :
    total (fun w : Fin W => k * churnGain w) = k * (3 * W + 1) := by
  have hgain : (fun w : Fin W => k * churnGain w) =
      Function.update (fun _ => k * 3) ⟨0, hW⟩ (k * 3 + k) := by
    funext w
    by_cases hw : w = ⟨0, hW⟩
    · rw [hw, Function.update_self]
      rfl
    · have hne : ¬ (w : Nat) = 0 := fun e => hw (Fin.ext e)
      rw [Function.update_of_ne hw, churnGain, if_neg hne]
  rw [hgain, total_update (fun _ : Fin W => k * 3), total_const, Nat.mul_add, Nat.mul_one,
    Nat.mul_comm W, Nat.mul_assoc]

/-- A run reports what the shared counter stands at. -/
theorem Counts.reported {g : Frame} {n : Nat} (h : Counts g n) :
    ((g.get? "counter").getD .empty).toInt.toOption.getD 0 = Int64.ofNat n := by
  rw [Counts] at h
  rw [h]
  split
  · -- nobody has bumped the counter, which is not there
    rename_i hzero
    rw [hzero]
    rfl
  · rfl

/-- When all workers are over, the machine reports the totals. -/
theorem run_finish {V : Fin W → Holding} {m : Machine} (h : Agreed roster 0 V m) (hW : 1 ≤ W)
    {n churnEvery : Nat} (hV : ∀ w, V w = afterRounds roster w churnEvery none n) :
    ((finish 0 W).run m).1 = .ok (totals W n churnEvery) := by
  obtain rfl : V = fun w => afterRounds roster w churnEvery none n := funext hV
  have htally : m.tallies[0]? = some ⟨.ofNat (4 * W * n), .ofNat (W * n),
      .ofNat (n / churnEvery * (3 * W + 1))⟩ := by
    rw [h.tally]
    show some (⟨.ofNat (total fun _ : Fin W => 4 * n), .ofNat (total fun _ : Fin W => n),
      .ofNat (total fun w : Fin W => n / churnEvery * churnGain w)⟩ : Tally) = _
    rw [total_const, total_const, total_churned hW, Nat.mul_left_comm, ← Nat.mul_assoc]
  have hcounter : (((m.frames.get? Machine.globalFrame).bind (·.get? "counter")).getD
      .empty).toInt.toOption.getD 0 = Int64.ofNat (W * n) := by
    obtain ⟨g, hg, -, hcounts⟩ := h.frames.global
    have hbumps : Counts g (total fun _ : Fin W => n) := hcounts
    rw [total_const] at hbumps
    rw [hg]
    exact hbumps.reported
  have hcontexts : m.contextCount = 0 := by
    rw [Machine.contextCount, Table.size, List.length_eq_zero_iff, List.eq_nil_iff_forall_not_mem]
    rintro ⟨t, id⟩ hmem
    -- a thread of the table is a worker's, and no worker holds a context
    obtain ⟨k, hk⟩ := (m.byThread.mem_keys_iff t).1 (List.mem_map.2 ⟨_, hmem, rfl⟩)
    obtain ⟨w, rfl⟩ := h.contexts.others hk
    rw [h.contexts.listed w] at hk
    cases hk
  show Except.ok (report 0 W m) = _
  rw [report, htally, hcounter, hcontexts]
  rfl

/-! ### One worker after the other -/

section

variable {thread : ThreadId} {V : Fin W → Holding} {m : Machine} {size : Load}
  {n churnEvery : Nat} {s : Setup}

theorem run_onThread {p : Eval Unit} {w : Nat} {t : Machine}
    (h : p.run { m with thread := thread + 1 + w } = (.ok (), t)) :
    (onThread thread true w p).run m = (.ok (), { t with thread }) := by
  show (always (modify fun m => { m with thread }) p).run { m with thread := thread + 1 + w } = _
  rw [always, run_handle, h]
  rfl

/-- A worker that has the machine to itself, on one of the threads after the one of the run. -/
theorem run_worker (hthread : ∀ w, roster.thread w = thread + 1 + w) (depth : Nat)
    (hn : size.iterations = n) (hc : size.churn = churnEvery) (h : Agreed roster run V m)
    (hw : V w = {}) :
    ∃ t, (onThread thread true w
        (worker (Evaluation.cached (depth + 1)) run size false w)).run m = (.ok (), t) ∧
      Agreed roster run (Function.update V w (afterRounds roster w churnEvery none n)) t := by
  have hworks : Works roster run w (worker (Evaluation.cached (depth + 1)) run size false w) {}
      fun _ u => u = afterRounds roster w churnEvery none n := works_worker depth hn hc
  have hfocus : roster.focus w m = { m with thread := thread + 1 + w } := by
    rw [Roster.focus, hthread]
  obtain ⟨u, hu, -, ⟨⟩, hok, rfl⟩ := hworks.run (V := V) (s := roster.focus w m)
    (h.congr (roster.thread w) m.log) hw rfl
  rw [hfocus] at hu hok
  exact ⟨_, run_onThread (Prod.ext hok rfl), hu.congr thread _⟩

/-- Workers that start when the one before is over. -/
theorem run_runWorkers (hthread : ∀ w, roster.thread w = thread + 1 + w) (depth : Nat)
    (hn : size.iterations = n) (hc : size.churn = churnEvery)
    (hcancelled : size.cancelled = false) (ws : List (Fin W)) (hws : ws.Nodup)
    (h : Agreed roster run V m) (hstart : ∀ w ∈ ws, V w = {})
    (hover : ∀ w, w ∉ ws → V w = afterRounds roster w churnEvery none n) :
    ∃ t, (runWorkers (Evaluation.cached (depth + 1)) run size thread true none
        (ws.map Fin.val)).run m = (.ok (), t) ∧
      Agreed roster run (fun w => afterRounds roster w churnEvery none n) t := by
  induction ws generalizing V m with
  | nil =>
    obtain rfl : V = fun w => afterRounds roster w churnEvery none n :=
      funext fun w => hover w List.not_mem_nil
    exact ⟨m, rfl, h⟩
  | cons w ws ih =>
    obtain ⟨hfirst, hrest⟩ := List.nodup_cons.1 hws
    obtain ⟨t, hrun, ht⟩ := run_worker hthread depth hn hc h (hstart w List.mem_cons_self)
    -- the workers that are left have not started, since each one runs once
    have hlater (x : Fin W) (hx : x ∈ ws) : x ≠ w := by
      rintro rfl
      exact hfirst hx
    obtain ⟨t', hrun', ht'⟩ := ih hrest ht
      (fun x hx => by
        rw [Function.update_of_ne (hlater x hx)]
        exact hstart x (List.mem_cons_of_mem _ hx))
      (fun x hx => by
        by_cases hxw : x = w
        · rw [hxw, Function.update_self]
        · rw [Function.update_of_ne hxw]
          exact hover x (by simp [hxw, hx]))
    refine ⟨t', ?_, ht'⟩
    show (runWorkers _ run size thread true none (w.val :: ws.map Fin.val)).run m = _
    rw [runWorkers, run_handle, hcancelled, Option.isSome_none, Bool.or_false, hrun]
    exact hrun'

/-- A run is its opening, its workers and its report. -/
theorem run_run {self : Runner} {t u : Machine} (hW : 1 ≤ W) (hsize : size.workers = W)
    (hopening : (opening W size).run m = (.ok (), t))
    (hworkers : (runWorkers self m.tallies.size size t.thread t.nativeThreads none
      (List.range W)).run t = (.ok (), u)) :
    (LoadGenerator.run self size).run m = (finish m.tallies.size W).run u := by
  have hmax : max 1 size.workers = W := by omega
  let m' : Machine := { m with tallies := m.tallies.push {} }
  have hbind : (opening W size).run m =
      (setup m.tallies.size W >>= fun _ => announce W size).run m' := rfl
  rw [hbind, run_bind] at hopening
  unfold LoadGenerator.run
  simp only [hmax, Int.toNat_natCast]
  -- the setup has not failed, since then the opening would have
  rcases hsetup : (setup m.tallies.size W).run m' with ⟨⟨⟩ | ⟨⟩, m₁⟩
  · rw [hsetup] at hopening
    cases hopening
  · rw [hsetup] at hopening
    have hannounce : (announce W size).run m₁ = (.ok (), t) := hopening
    show ((handle (setup m.tallies.size W) _).run m') = _
    rw [run_handle, hsetup]
    dsimp only
    rw [run_bind, hannounce]
    show (runWorkers self m.tallies.size size t.thread t.nativeThreads none (List.range W) >>= _).run
      t = _
    rw [run_bind, hworkers]

theorem run_totals (hthread : ∀ w, roster.thread w = s.thread + 1 + w) (hW : 1 ≤ W) (n c depth : Nat)
    (hd : 1 ≤ s.maxDepth) (hnative : s.nativeThreads = true) :
    ((LoadGenerator.run (Evaluation.cached (depth + 1))
        { workers := W, iterations := n, churn := c }).run (Machine.start s)).1 =
      .ok (totals W n c) := by
  let size : Load := { workers := W, iterations := n, churn := c }
  obtain ⟨commands, cache, log, hopening, -⟩ := run_opening W size s
  let m : Machine := { Machine.start s with tallies := #[{}], commands, cache, log }
  have hm : Agreed roster 0 (fun _ => {}) m := by
    have hagreed := (agreed_opening roster size s hd).2
    rw [hopening] at hagreed
    exact hagreed
  have hn : size.iterations = n := rfl
  have hc : size.churn = c := rfl
  obtain ⟨t, hworkers, ht⟩ := run_runWorkers hthread depth hn hc rfl (List.finRange W)
    (List.nodup_finRange W) hm (fun _ _ => rfl) (fun w hw => absurd (List.mem_finRange w) hw)
  rw [List.map_coe_finRange_eq_range] at hworkers
  have hnatively : m.nativeThreads = true := hnative
  rw [← hnatively] at hworkers
  rw [run_run hW rfl hopening hworkers]
  exact run_finish ht hW fun w => rfl

end

/-- **The totals do not depend on the schedule.**  Workers that run on threads of their own, on a fresh
interpreter that allows calls, take their atomic steps in any order.  The opening of the run succeeds,
no order goes on for ever, no worker ever fails, and when there is no step left all workers are over
and the run reports the totals.  So does the load generator itself, which lets each worker finish
before the next one starts. -/
theorem totals_independent_of_schedule (hW : 1 ≤ W) (roster : Roster W) (n c depth : Nat) (s : Setup)
    (hd : 1 ≤ s.maxDepth) :
    let size : Load := { workers := W, iterations := n, churn := c }
    let first := crew W (Evaluation.cached (depth + 1)) size s
    ((opening W size).run (Machine.start s)).1 = .ok () ∧
    (¬ ∃ run : Nat → Crew Stop Machine Unit (Fin W),
      run 0 = first ∧ ∀ i, (run i).Turn roster.focus (run (i + 1))) ∧
    (∀ last, first.Reaches roster.focus last →
      (∀ w outcome, last.outcome? roster.focus w = some outcome → outcome = .ok ()) ∧
      ((∃ next, last.Turn roster.focus next) ∨
        (∀ w, last.outcome? roster.focus w = some (.ok ())) ∧
        ((finish 0 W).run last.state).1 = .ok (totals W n c))) ∧
    (s.nativeThreads = true → (∀ w, roster.thread w = s.thread + 1 + w) →
      ((LoadGenerator.run (Evaluation.cached (depth + 1)) size).run (Machine.start s)).1 =
        .ok (totals W n c)) := by
  intro size first
  obtain ⟨hopening, hagreed⟩ := agreed_opening roster size s hd
  let Q (w : Fin W) (r : Except Stop Unit) (u : Holding) : Prop :=
    ∃ a, r = .ok a ∧ u = afterRounds roster w c none n
  have hkeeps : (protocol roster 0).Keeps Q first :=
    ⟨fun _ => {}, hagreed, fun w => works_worker depth rfl rfl⟩
  refine ⟨hopening, ?_, fun last hlast => ?_, fun hnative hthread => ?_⟩
  · rintro ⟨run, -, hrun⟩
    exact Crew.not_forever roster.focus run hrun
  · obtain ⟨V, hV, hout⟩ := (hkeeps.reaches hlast).outcomes
    have hok (w : Fin W) (r : Except Stop Unit) (hr : last.outcome? roster.focus w = some r) :
        r = .ok () ∧ V w = afterRounds roster w c none n := by
      obtain ⟨a, rfl, hv⟩ := hout w r hr
      exact ⟨rfl, hv⟩
    refine ⟨fun w r hr => (hok w r hr).1, ?_⟩
    by_cases hturn : ∃ next, last.Turn roster.focus next
    · exact .inl hturn
    · have hover (w : Fin W) : last.outcome? roster.focus w = some (.ok ()) := by
        rcases ho : last.outcome? roster.focus w with - | r
        · exact absurd ⟨_, w, ho, rfl⟩ hturn
        · rw [(hok w r ho).1]
      exact .inr ⟨hover, run_finish hV hW fun w => (hok w _ (hover w)).2⟩
  · exact run_totals hthread hW n c depth hd hnative

/-- Two workers on the threads 2 and 3, with three rounds each and a churn after every second. -/
theorem totals_independent_of_schedule_two_workers :
    let roster : Roster 2 := ⟨fun w => 2 + w, by decide, by decide⟩
    let size : Load := { workers := 2, iterations := 3, churn := 2 }
    let s : Setup := { id := "host", maxDepth := 1, nativeThreads := true }
    let report : LoadReport :=
      { workers := 2, tally := ⟨24, 6, 7⟩, counter := 6, contexts := 0 }
    (∃ last, (crew 2 (Evaluation.cached 1) size s).Reaches roster.focus last ∧
      (∀ w, last.outcome? roster.focus w = some (.ok ())) ∧
      ((finish 0 2).run last.state).1 = .ok report) ∧
    ((LoadGenerator.run (Evaluation.cached 1) size).run (Machine.start s)).1 = .ok report := by
  intro roster size s report
  obtain ⟨-, -, hends, hrun⟩ := totals_independent_of_schedule (by decide) roster 3 2 0 s (by decide)
  obtain ⟨last, hlast, hover⟩ := Crew.exists_last roster.focus (crew 2 (Evaluation.cached 1) size s)
  obtain ⟨-, hreport⟩ := hends last hlast
  obtain ⟨houtcomes, hfinish⟩ := hreport.resolve_left hover
  exact ⟨⟨last, hlast, houtcomes, hfinish⟩, hrun rfl fun _ => rfl⟩

end LoadGenerator

end CommandHost
