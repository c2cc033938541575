/-
CommandHost/Proofs/SoloRun.lean

What a run with one worker comes to, and what the cache has counted then.

Between two calls a machine with a single worker is described by `Solo`: the commands
and the shared counter are in place, the worker has no context yet or has it at hand,
and the score of the worker says what has been counted so far, in the cache too.  Each
call of a round leads from one score to the next, and so do a churn, a round and any
number of rounds.  No other worker is there to change anything in between, so unlike in
`WorkloadTotals` the cache can be followed as well.
-/
import CommandHost.Proofs.BuiltinEffects
import CommandHost.Proofs.CacheBooks
import CommandHost.Proofs.Release
import CommandHost.Proofs.WorkloadTotals

namespace CommandHost

open Program Eval Dispatch

namespace LoadGenerator

/-! ### A machine with one worker -/

/-- What a worker has come to. -/
structure Score where
  calls : Nat
  unknown : Nat
  churned : Nat
  bumps : Nat
  /-- Whether its square command is under its own name. -/
  home : Bool := true
  books : Books 1

/-- The current thread has no context yet, or has the given one at hand, in no call.  No other thread
has one. -/
def AtHand (m : Machine) : Option ContextId → Prop
  | none => m.byThread.entries = [] ∧ m.previous = none
  | some id => m.byThread.entries = [(m.thread, id)] ∧ m.previous = some id ∧
      m.context? id = some m.freshContext

/-- The machine as a single worker with a score finds it between two calls. -/
structure Solo (run : Nat) (hand : Option ContextId) (x : Score) (m : Machine) : Prop where
  disposed : m.disposed = false
  depth : 1 ≤ m.maxDepth
  coherent : m.Coherent
  commands : Stocked run (fun _ : Fin 1 => x.home) m.commands
  context : AtHand m hand
  global : ∃ g, m.frames.get? Machine.globalFrame = some g ∧ g.flags = .globalFrame ∧
    Counts g x.bumps
  tally : m.tallies[run]? = some ⟨.ofNat x.calls, .ofNat x.unknown, .ofNat x.churned⟩
  cache : x.books.Describes m.cache

/-- What the four calls of a round add. -/
def Score.round (x : Score) : Score :=
  { x with calls := x.calls + 4, unknown := x.unknown + 1, bumps := x.bumps + 1,
           books := x.books.asked }

/-- What a churn adds. -/
def Score.churn (x : Score) : Score :=
  { x with churned := x.churned + 4, books := x.books.churned }

/-- The score after `i` rounds with a churn at the end of every `c`th. -/
def scoreAt (c i : Nat) : Score :=
  { calls := 4 * i, unknown := i, churned := 4 * (i / c), bumps := i, books := booksAt c i }

theorem scoreAt_succ (c i : Nat) : scoreAt c (i + 1) =
    if c ∣ i + 1 then (scoreAt c i).round.churn else (scoreAt c i).round := by
  rw [scoreAt, booksAt_succ]
  split
  · rename_i h
    simp only [Score.round, Score.churn, scoreAt, Nat.succ_div_of_dvd h, Nat.mul_add, Nat.mul_one]
  · rename_i h
    simp only [Score.round, scoreAt, Nat.succ_div_of_not_dvd h, Nat.mul_add, Nat.mul_one]

theorem churns_iff_toNat (churnEvery : Int) (i : Nat) :
    (0 < churnEvery ∧ (i : Int) % churnEvery = churnEvery - 1) ↔ churnEvery.toNat ∣ i + 1 := by
  by_cases hpos : 0 < churnEvery
  · have hcast : (churnEvery.toNat : Int) = churnEvery := Int.toNat_of_nonneg (by omega)
    rw [← churns_iff, hcast]
  · have hzero : churnEvery.toNat = 0 := by omega
    rw [hzero, Nat.zero_dvd]
    omega

/-- Everything has just been dropped, or there was nothing yet. -/
theorem toNat_dvd_iff (c : Int) (n : Nat) : c.toNat ∣ n ↔ n = 0 ∨ 0 < c ∧ c ∣ n := by
  by_cases hpos : 0 < c
  · have hcast : (c.toNat : Int) = c := Int.toNat_of_nonneg (by omega)
    rw [← Int.natCast_dvd_natCast, hcast]
    constructor
    · intro h
      exact .inr ⟨hpos, h⟩
    · rintro (rfl | ⟨-, h⟩)
      · exact Int.dvd_zero c
      · exact h
  · have hzero : c.toNat = 0 := by omega
    rw [hzero, Nat.zero_dvd]
    simp [hpos]

namespace Solo

variable {run : Nat} {hand : Option ContextId} {id : ContextId} {x : Score} {m : Machine}

theorem setLog (h : Solo run hand x m) (log : Array LogEntry) : Solo run hand x { m with log } :=
  ⟨h.disposed, h.depth, h.coherent.congr rfl rfl, h.commands, h.context, h.global, h.tally, h.cache⟩

/-- A worker without a context may be on any thread. -/
theorem setThread (h : Solo run none x m) (thread : ThreadId) :
    Solo run none x { m with thread } :=
  ⟨h.disposed, h.depth, h.coherent.congr rfl rfl, h.commands, h.context, h.global, h.tally, h.cache⟩

theorem setFrames (h : Solo run hand x m) {frames : Frames} {bumps : Nat}
    (hglobal : ∃ g, frames.get? Machine.globalFrame = some g ∧ g.flags = .globalFrame ∧
      Counts g bumps) : Solo run hand { x with bumps } { m with frames } :=
  ⟨h.disposed, h.depth, h.coherent.congr rfl rfl, h.commands, h.context, hglobal, h.tally, h.cache⟩

theorem setTallies (h : Solo run hand x m) {f : Tally → Tally} (calls unknown churned : Nat)
    (hf : ∀ t, f t = ⟨t.calls + .ofNat calls, t.unknown + .ofNat unknown,
      t.churned + .ofNat churned⟩) :
    Solo run hand { x with
      calls := x.calls + calls, unknown := x.unknown + unknown, churned := x.churned + churned }
      { m with tallies := m.tallies.modify run f } := by
  refine ⟨h.disposed, h.depth, h.coherent.congr rfl rfl, h.commands, h.context, h.global, ?_, h.cache⟩
  show (m.tallies.modify run f)[run]? = _
  rw [Array.getElem?_modify, if_pos rfl, h.tally, Option.map_some, hf]
  simp only [Int64.ofNat_add]

theorem setTable (h : Solo run hand x m) {commands : Table String Command}
    {cache : Cache Resolution} {log : Array LogEntry} {home : Bool} {books : Books 1}
    (hcoherent : Machine.Coherent { m with commands, cache, log })
    (hcommands : Stocked run (fun _ : Fin 1 => home) commands) (hcache : books.Describes cache) :
    Solo run hand { x with home, books } { m with commands, cache, log } :=
  ⟨h.disposed, h.depth, hcoherent, hcommands, h.context, h.global, h.tally, hcache⟩

/-! ### Contexts -/

theorem context? (h : Solo run (some id) x m) : m.context? id = some m.freshContext := h.context.2.2

theorem canUse (h : Solo run (some id) x m) : m.canUse (some id) = true := by
  rw [Machine.canUse_some_iff, Machine.context_of_some h.context?]
  exact ⟨rfl, rfl⟩

/-- A worker gets a context the first time, and has it at hand from then on. -/
theorem run_context (h : Solo run hand x m) :
    ∃ id t, Eval.context.run m = (.ok id, t) ∧ Solo run (some id) x t := by
  have hrun : Eval.context.run m = (ofChange (·.acquire true)).run m := by
    simp [Eval.context, ofChange, h.disposed]
  cases hand with
  | none =>
    -- no thread is listed, so a context is made and remembered for the next call
    obtain ⟨htable, hprevious⟩ := h.context
    have hunlisted : m.tableContext? = none := by
      simp [Machine.tableContext?, Table.get?, Table.find?, htable]
    have hacquire : m.acquire true = (.ok m.createContext.1, m.createContext.2) := by
      simp [Machine.acquire, hprevious, hunlisted, Machine.canUse, CommandHost.canUse]
    refine ⟨m.createContext.1, m.createContext.2, ?_, ?_⟩
    · rw [hrun, ofChange, run_act, hacquire]
    · refine ⟨h.disposed, h.depth, h.coherent.congr rfl rfl, h.commands, ⟨?_, rfl, ?_⟩, h.global,
        h.tally, h.cache⟩
      · show (m.byThread.insert m.thread ⟨m.contexts.size⟩).entries = _
        simp only [Table.insert, Table.erase, htable]
        rfl
      · show (m.contexts.push m.freshContext)[m.contexts.size]? = _
        rw [Array.getElem?_push, if_pos rfl]
        rfl
  | some id =>
    have hacquire : m.acquire true = (.ok id, m) := by
      have hu := h.canUse
      rw [← h.context.2.1] at hu
      rw [Machine.acquire, if_pos hu, h.context.2.1]
    refine ⟨id, m, ?_, h⟩
    rw [hrun, ofChange, run_act, hacquire]

/-! ### Invocations -/

/-- A name is resolved. -/
theorem resolved (h : Solo run hand x m) (r : Role 1) :
    Solo run hand { x with books := x.books.ask r } (m.resolve r.name).2 := by
  have hcoherent := h.coherent.resolve r.name
  have hcache := h.cache.resolve r
  rw [m.resolve_snd r.name] at hcoherent hcache ⊢
  exact h.setTable hcoherent h.commands hcache

/-- A call of a round gets at the context, resolves the name, executes the command and counts. -/
theorem run_call (h : Solo run hand x m) {self : Runner} (hself : self.resolve = Eval.resolve)
    {r : Role 1} {command : Resolution} (hr : ∀ t : Machine,
      Stocked run (fun _ : Fin 1 => x.home) t.commands → t.lookup r.name = some command)
    {args : List Value} {S : Value → Prop} {y : Score}
    (hx : ∀ id t, Solo run (some id) { x with books := x.books.ask r } t → ∃ v u,
      (executeResolved self command ⟨id, r.name, []⟩ args).run t = (.ok v, u) ∧ S v ∧
        Solo run (some id) y u) :
    ∃ v id t, (call self run r.name args).run m = (.ok v, t) ∧ S v ∧
      Solo run (some id) { y with calls := y.calls + 1 } t := by
  obtain ⟨id, t, hcontext, ht⟩ := h.run_context
  obtain ⟨v, u, hexecute, hv, hu⟩ := hx id _ (ht.resolved r)
  -- from the inside out: the command, the invocation, the call that is counted
  have hinvoke : (invoke self (some id) r.name args).run t = (.ok v, u) :=
    ht.coherent.run_invoke ht.canUse (hr t ht.commands) hself hexecute (.inl ⟨v, rfl⟩)
  have hhere : (invokeHere self r.name args).run m = (.ok v, u) := by
    refine (run_bind_of_ok hcontext).trans ?_
    rw [topLevel, run_handle, hinvoke]
    rfl
  refine ⟨v, id, { u with tallies := u.tallies.modify run fun t => { t with calls := t.calls + 1 } },
    ?_, hv, ?_⟩
  · rw [call, run_handle, hhere]
    rfl
  · refine hu.setTallies 1 0 0 fun t => ?_
    simp

theorem lookup_of_command {r : Role 1} {c : Command} {t : Machine} {home : Bool}
    (hc : r.command run (fun _ : Fin 1 => home) = some c)
    (ht : Stocked run (fun _ : Fin 1 => home) t.commands) : t.lookup r.name = some (.direct c) := by
  rw [Machine.lookup, ht r, hc]

/-! ### The calls of a round -/

/-- Setting a global variable that is not the counter. -/
theorem run_callSet (h : Solo run hand x m) {self : Runner} (hself : self.resolve = Eval.resolve)
    {name : String} (hname : globalName? name = none) (hcounter : name ≠ "counter") (v : Value) :
    ∃ v' id t, (call self run "set" [.text name, v]).run m = (.ok v', t) ∧
      Solo run (some id) { x with calls := x.calls + 1, books := x.books.ask .set } t := by
  have hset (id : ContextId) (t : Machine)
      (ht : Solo run (some id) { x with books := x.books.ask .set } t) : ∃ v' u,
        (executeResolved self (.direct (.builtin .set)) ⟨id, (Role.set : Role 1).name, []⟩
          [.text name, v]).run t = (.ok v', u) ∧ True ∧
        Solo run (some id) { x with books := x.books.ask .set } u := by
    -- another variable than the counter is set, so that counts as before
    have hglobal : ∃ g, (t.frames.modify Machine.globalFrame (·.set name v)).get?
        Machine.globalFrame = some g ∧ g.flags = .globalFrame ∧ Counts g x.bumps := by
      obtain ⟨g, hg, hflags, hcounts⟩ := ht.global
      refine ⟨g.set name v, ?_, hflags, ?_⟩
      · rw [Frames.get?_modify, if_pos rfl, hg]
        rfl
      · rw [Counts, Frame.get?_set, if_neg (Ne.symm hcounter)]
        exact hcounts
    refine ⟨v, _, ?_, trivial, ht.setFrames hglobal⟩
    show (Invocation.setVar ⟨id, "set", []⟩ name v >>= fun _ => pure v).run t = _
    rw [run_bind, Invocation.setVar, run_bind, run_home ht.context? rfl rfl hname]
    rfl
  obtain ⟨v', id, t, hrun, -, ht⟩ := h.run_call hself (fun _ => lookup_of_command rfl) hset
  exact ⟨v', id, t, hrun, ht⟩

/-- Squaring a number. -/
theorem run_callSquare (h : Solo run hand x m) (hhome : x.home = true) {self : Runner}
    (hself : self.resolve = Eval.resolve) (n : Int64) :
    ∃ id t, (call self run (squareName 0) [.int n]).run m = (.ok (.int (n * n)), t) ∧
      Solo run (some id) { x with calls := x.calls + 1, books := x.books.ask (.square 0) } t := by
  have hcommand : (Role.square 0).command run (fun _ : Fin 1 => x.home) = some .square := by
    rw [hhome]
    rfl
  have hsquare (id : ContextId) (t : Machine)
      (ht : Solo run (some id) { x with books := x.books.ask (.square 0) } t) : ∃ v u,
        (executeResolved self (.direct .square) ⟨id, (Role.square (0 : Fin 1)).name, []⟩
          [.int n]).run t = (.ok v, u) ∧ v = .int (n * n) ∧
        Solo run (some id) { x with books := x.books.ask (.square 0) } u :=
    ⟨.int (n * n), t, rfl, rfl, ht⟩
  obtain ⟨v, id, t, hrun, rfl, ht⟩ := h.run_call hself (fun _ => lookup_of_command hcommand) hsquare
  exact ⟨id, t, hrun, ht⟩

/-- Calling the name that nobody defines. -/
theorem run_callProbe (h : Solo run hand x m) {self : Runner} (hself : self.resolve = Eval.resolve) :
    ∃ v id t, (call self run (Role.probe (0 : Fin 1)).name []).run m = (.ok v, t) ∧
      Solo run (some id) { x with
        calls := x.calls + 1, unknown := x.unknown + 1, books := x.books.ask (.probe 0) } t := by
  have hlookup (t : Machine) (ht : Stocked run (fun _ : Fin 1 => x.home) t.commands) :
      t.lookup (Role.probe (0 : Fin 1)).name =
        some (.unknown (.tally run) (Role.probe (0 : Fin 1)).name) := by
    -- nothing has the name, so the handler of unknown names is found
    have hunknown : t.commands.get? Machine.unknownName = some (.tally run) := ht .unknown
    rw [Machine.lookup, ht (.probe 0)]
    show (t.commands.get? Machine.unknownName).map _ = _
    rw [hunknown]
    rfl
  have hprobe (id : ContextId) (t : Machine)
      (ht : Solo run (some id) { x with books := x.books.ask (.probe 0) } t) : ∃ v u,
        (executeResolved self (.unknown (.tally run) (Role.probe (0 : Fin 1)).name)
          ⟨id, (Role.probe (0 : Fin 1)).name, []⟩ []).run t = (.ok v, u) ∧ True ∧
        Solo run (some id) { x with
          unknown := x.unknown + 1, books := x.books.ask (.probe 0) } u :=
    ⟨.empty, _, rfl, trivial, ht.setTallies 0 1 0 fun t => by simp⟩
  obtain ⟨v, id, t, hrun, -, ht⟩ := h.run_call hself hlookup hprobe
  exact ⟨v, id, t, hrun, ht⟩

/-! ### The procedure of a round -/

/-- Running something in the frame of a call, which is gone afterwards. -/
theorem run_inCall {t u : Machine} {c : ThreadContext} (hc : t.context? id = some c)
    (hd : c.disposed = false) {f : FrameId} {p : Eval Value} {v : Value}
    (hp : p.run (t.setContext id { c with
      stack := c.stack.map (·.push f), current := some f, procedure := some f }) = (.ok v, u))
    (hu : u.context? id = some { c with
      stack := c.stack.map (·.push f), current := some f, procedure := some f }) :
    (inCall id f p).run t = (.ok v, { u.setContext id c with
      frames := u.frames.modify f (·.dispose) }) := by
  have hread (slot : Slot) : (readFrame id slot).run t = (.ok (c.frame slot), t) :=
    run_readContext_of_not_disposed hc hd (.frame slot) (·.frame slot)
  -- leaving puts back what entering has changed
  have hleave : (leaveCall id f c.current c.procedure).run u =
      (.ok (), { u.setContext id c with frames := u.frames.modify f (·.dispose) }) := by
    have hpop : (c.stack.map (·.push f)).map (·.pop) = c.stack := by
      rcases c.stack with - | stack <;> rfl
    rw [run_leaveCall hu hd, hpop]
  refine (run_bind_of_ok (hread .current)).trans ?_
  refine (run_bind_of_ok (hread .procedure)).trans ?_
  refine (run_bind_of_ok (run_enterCall hc hd f)).trans ?_
  exact run_always_of_ok hp (by rintro ⟨⟩) hleave

/-- The body of the procedure reads its argument, which is one, and adds it to the counter. -/
theorem run_bumpBody {depth : Nat} {inv : Invocation} {t u : Machine} {v : Value}
    (hvar : (inv.getVar "n").run t = (.ok (.int 1), t))
    (hincr : (invoke (Evaluation.cached depth) (some inv.context) "incr"
      [.text "::counter", .int 1]).run t = (.ok v, u)) :
    ((Evaluation.cached (depth + 1)).body inv
      [.invoke (.value (.text "incr")) [.value (.text "::counter"), .var "n"]]).run t = (.ok v, u) := by
  have hargs : (Evaluation.operands inv .empty [.value (.text "::counter"), .var "n"]).run t =
      (.ok [.text "::counter", .int 1], t) := by
    have hlast : (Evaluation.operands inv .empty [.var "n"]).run t = (.ok [.int 1], t) :=
      run_bind_of_ok hvar
    show (Evaluation.operands inv .empty [.var "n"] >>= fun vs =>
      pure (Value.text "::counter" :: vs)).run t = _
    exact run_bind_of_ok hlast
  have hstatement : (Evaluation.statement (Evaluation.cached depth) inv .empty
      (.invoke (.value (.text "incr")) [.value (.text "::counter"), .var "n"])).run t = (.ok v, u) := by
    show (Evaluation.operands inv .empty [.value (.text "::counter"), .var "n"] >>= fun args =>
      invoke (Evaluation.cached depth) (some inv.context) "incr" args).run t = _
    exact (run_bind_of_ok hargs).trans hincr
  show (Evaluation.statement (Evaluation.cached depth) inv .empty
    (.invoke (.value (.text "incr")) [.value (.text "::counter"), .var "n"]) >>= fun v => done v).run
      t = _
  exact run_bind_of_ok hstatement

/-- Adding one to the shared counter. -/
theorem run_addCounter (inv : Invocation) {t : Machine} {c : ThreadContext}
    (hc : t.context? inv.context = some c) (hd : c.disposed = false)
    (hglobal : c.currentGlobal = some Machine.globalFrame) {g : Frame}
    (hg : t.frames.get? Machine.globalFrame = some g) {bumps : Nat} (hcounts : Counts g bumps) :
    ∃ v g', (Builtin.incr.run inv [.text "::counter", .int 1]).run t =
        (.ok v, { t with frames := t.frames.modify Machine.globalFrame fun _ => g' }) ∧
      g'.flags = g.flags ∧ Counts g' (bumps + 1) := by
  obtain ⟨v, g', hupdate, hflags, hcounts'⟩ := counts_add inv hcounts
  refine ⟨v, g', ?_, hflags, hcounts'⟩
  have hname : globalName? "::counter" = some "counter" := by decide +kernel
  have hread : (readCurrentGlobal inv.context).run t = (.ok c.currentGlobal, t) :=
    run_readContext_of_not_disposed hc hd .currentGlobal (·.currentGlobal)
  have hhome : (inv.home "::counter").run t = (.ok (Machine.globalFrame, "counter"), t) := by
    rw [Invocation.home, hname]
    have hframe : inv.globalFrame.run t = (.ok Machine.globalFrame, t) := by
      refine (run_bind_of_ok hread).trans ?_
      rw [hglobal]
      rfl
    exact run_bind_of_ok hframe
  show (inv.updateVar "::counter" (Builtin.add inv 1)).run t = _
  refine (run_bind_of_ok hhome).trans ?_
  rw [run_act, hg]
  dsimp only
  rw [hupdate]

/-- The same by its name, as the body of the procedure does it. -/
theorem run_invokeIncr {t : Machine} (hcoherent : t.Coherent) {home : Bool}
    (hcommands : Stocked run (fun _ : Fin 1 => home) t.commands) {c : ThreadContext}
    (hc : t.context? id = some c) (hd : c.disposed = false) (hthread : c.thread = t.thread)
    (hglobal : c.currentGlobal = some Machine.globalFrame) {g : Frame}
    (hg : t.frames.get? Machine.globalFrame = some g) {bumps : Nat} (hcounts : Counts g bumps)
    (depth : Nat) :
    ∃ v g', (invoke (Evaluation.cached depth) (some id) "incr" [.text "::counter", .int 1]).run t =
        (.ok v, { t with
          cache := (t.resolve "incr").2.cache
          frames := t.frames.modify Machine.globalFrame fun _ => g' }) ∧
      g'.flags = g.flags ∧ Counts g' (bumps + 1) := by
  let resolved : Machine := { t with cache := (t.resolve "incr").2.cache }
  have hresolved : resolved.context? (Invocation.mk id "incr" []).context = some c := hc
  have hu : t.canUse (some id) = true := by
    rw [Machine.canUse_some_iff, Machine.context_of_some hc]
    exact ⟨hd, hthread⟩
  have hlookup : t.lookup "incr" = some (.direct (.builtin .incr)) :=
    lookup_of_command (r := .incr) rfl hcommands
  obtain ⟨v, g', hadd, hflags, hcounts'⟩ := run_addCounter _ hresolved hd hglobal hg hcounts
  refine ⟨v, g', ?_, hflags, hcounts'⟩
  apply hcoherent.run_invoke hu hlookup (Evaluation.resolve_cached depth) _ (.inl ⟨v, rfl⟩)
  rw [t.resolve_snd "incr"]
  exact hadd

/-- The machine inside of a call of the procedure, in the frame that was made for it. -/
def entered (m : Machine) (id : ContextId) (F : Frame) : Machine :=
  (m.after (.newFrame F)).setContext id { m.freshContext with
    stack := some ⟨[m.nextFrame]⟩, current := some m.nextFrame, procedure := some m.nextFrame }

theorem context?_entered (h : Solo run (some id) x m) (F : Frame) :
    (entered m id F).context? id = some { m.freshContext with
      stack := some ⟨[m.nextFrame]⟩, current := some m.nextFrame, procedure := some m.nextFrame } := by
  rw [entered, Machine.context?_setContext, if_pos rfl]
  show (m.context? id).map _ = _
  rw [h.context?]
  rfl

theorem get?_entered_self (F : Frame) : (entered m id F).frames.get? m.nextFrame = some F := by
  show (m.frames.alloc F).2.get? m.nextFrame = some F
  rw [Frames.get?_alloc]
  exact if_pos rfl

theorem get?_entered_of_ne (F : Frame) {f : FrameId} (hf : f ≠ m.nextFrame) :
    (entered m id F).frames.get? f = m.frames.get? f := by
  show (m.frames.alloc F).2.get? f = _
  rw [Frames.get?_alloc]
  exact if_neg hf

/-- The call is not too deep, since the worker is in no other. -/
theorem admits (h : Solo run (some id) x m) : m.Admits id ["n"] [.int 1] := by
  have hdepth := h.depth
  refine ⟨h.canUse, rfl, {}, ?_, ?_⟩
  · rw [Machine.context_of_some h.context?]
    rfl
  · show (0 : Int) < m.maxDepth
    omega

/-- The machine after a call of the procedure, which has put another frame in the global one's place. -/
def leaving (m : Machine) (id : ContextId) (level : Int) (g : Frame) : Machine :=
  let w := entered m id (.ofCall "bump" level ["n"] [.int 1])
  { w.setContext id m.freshContext with
    cache := (w.resolve "incr").2.cache
    frames := (w.frames.modify Machine.globalFrame fun _ => g).modify m.nextFrame (·.dispose) }

/-- In the call, the parameter is one. -/
theorem run_getVar_entered (h : Solo run (some id) x m) (level : Int) :
    (Invocation.getVar ⟨id, "bump", []⟩ "n").run
        (entered m id (.ofCall "bump" level ["n"] [.int 1])) =
      (.ok (.int 1), entered m id (.ofCall "bump" level ["n"] [.int 1])) := by
  have hhome : (Invocation.home ⟨id, "bump", []⟩ "n").run
        (entered m id (.ofCall "bump" level ["n"] [.int 1])) =
      (.ok (m.nextFrame, "n"), entered m id (.ofCall "bump" level ["n"] [.int 1])) :=
    run_home (h.context?_entered _) rfl rfl (by decide +kernel)
  have hread : (read fun t : Machine => (t.frames.get? m.nextFrame).bind (·.get? "n") :
        Eval (Option Value)).run (entered m id (.ofCall "bump" level ["n"] [.int 1])) =
      (.ok (some (.int 1)), entered m id (.ofCall "bump" level ["n"] [.int 1])) := by
    rw [Program.read, run_act, get?_entered_self]
    rfl
  refine (run_bind_of_ok hhome).trans ?_
  exact run_bind_of_ok hread

theorem globalFrame_ne_nextFrame (h : Solo run hand x m) : Machine.globalFrame ≠ m.nextFrame := by
  obtain ⟨g, hg, -⟩ := h.global
  intro e
  rw [e] at hg
  exact m.not_stores_nextFrame ⟨g, hg⟩

/-- All that is left of a call are the counter and what the cache has learnt. -/
theorem left (h : Solo run (some id) x m) (level : Int) {g : Frame}
    (hflags : g.flags = .globalFrame) (hcounts : Counts g (x.bumps + 1)) :
    Solo run (some id) { x with bumps := x.bumps + 1, books := x.books.ask .incr }
      (leaving m id level g) := by
  let w := entered m id (.ofCall "bump" level ["n"] [.int 1])
  have hne := h.globalFrame_ne_nextFrame
  have hdescribes : x.books.Describes w.cache := h.cache
  have hresolved := Machine.Coherent.resolve (show w.Coherent from h.coherent.congr rfl rfl) "incr"
  rw [w.resolve_snd "incr"] at hresolved
  refine ⟨h.disposed, h.depth, hresolved.congr rfl rfl, h.commands,
    ⟨h.context.1, h.context.2.1, ?_⟩, ⟨g, ?_, hflags, hcounts⟩, h.tally, hdescribes.resolve .incr⟩
  · show (w.setContext id m.freshContext).context? id = some m.freshContext
    rw [w.context?_setContext, if_pos rfl, h.context?_entered]
    rfl
  · -- the frame that is disposed of is the one of the call, which is another
    show ((w.frames.modify Machine.globalFrame fun _ => g).modify m.nextFrame (·.dispose)).get?
      Machine.globalFrame = some g
    obtain ⟨g₀, hg₀, -⟩ := h.global
    rw [Frames.get?_modify, if_neg hne, Frames.get?_modify, if_pos rfl, get?_entered_of_ne _ hne, hg₀]
    rfl

/-- Executing the procedure.  The counter is in the global frame, which is not the one of the call. -/
theorem run_bump (h : Solo run (some id) x m) (depth : Nat) : ∃ v u,
    (executeResolved (Evaluation.cached (depth + 1)) (.direct bump) ⟨id, "bump", []⟩
      [.int 1]).run m = (.ok v, u) ∧
    Solo run (some id) { x with bumps := x.bumps + 1, books := x.books.ask .incr } u := by
  have hadmits : m.Admits (Invocation.mk id "bump" []).context ["n"] [.int 1] := h.admits
  obtain ⟨level, hframe⟩ := hadmits.run_callFrame "bump"
  obtain ⟨g, hg, hflags, hcounts⟩ := h.global
  let F : Frame := .ofCall "bump" level ["n"] [.int 1]
  have hcoherent : (entered m id F).Coherent := h.coherent.congr rfl rfl
  -- the frame of the call is a new one, so the counter is where it was
  have hgw : (entered m id F).frames.get? Machine.globalFrame = some g :=
    (get?_entered_of_ne F h.globalFrame_ne_nextFrame).trans hg
  obtain ⟨v, g', hincr, hflags', hcounts'⟩ := run_invokeIncr hcoherent h.commands
    (h.context?_entered F) rfl rfl rfl hgw hcounts depth
  have hcall := run_inCall (t := m.after (.newFrame F)) h.context? rfl
    (run_bumpBody (h.run_getVar_entered level) hincr) (h.context?_entered F)
  refine ⟨v, leaving m id level g', ?_, h.left level (hflags'.trans hflags) hcounts'⟩
  refine (run_bind_of_ok hframe).trans ?_
  rw [takeReturn, run_handle, hcall]
  rfl

/-- Calling the procedure. -/
theorem run_callBump (h : Solo run hand x m) (depth : Nat) :
    ∃ v id t, (call (Evaluation.cached (depth + 1)) run "bump" [.int 1]).run m = (.ok v, t) ∧
      Solo run (some id) { x with
        calls := x.calls + 1, bumps := x.bumps + 1, books := (x.books.ask .bump).ask .incr } t := by
  have hbump (id : ContextId) (t : Machine)
      (ht : Solo run (some id) { x with books := x.books.ask .bump } t) : ∃ v u,
        (executeResolved (Evaluation.cached (depth + 1)) (.direct bump)
          ⟨id, (Role.bump : Role 1).name, []⟩ [.int 1]).run t = (.ok v, u) ∧ True ∧
        Solo run (some id) { x with
          bumps := x.bumps + 1, books := (x.books.ask .bump).ask .incr } u := by
    obtain ⟨v, u, hrun, hu⟩ := ht.run_bump depth
    exact ⟨v, u, hrun, trivial, hu⟩
  obtain ⟨v, id, t, hrun, -, ht⟩ := h.run_call (Evaluation.resolve_cached _)
    (fun _ => lookup_of_command rfl) hbump
  exact ⟨v, id, t, hrun, ht⟩

/-! ### Churning -/

theorem run_define (h : Solo run hand x m) {r : Role 1} {c : Command}
    (hc : r.command run (fun _ : Fin 1 => x.home) = some c) :
    ∃ t, (Eval.define r.name (some c)).run m = (.ok (), t) ∧
      Solo run hand { x with books := x.books.define r } t := by
  have hcoherent := h.coherent.define r.name c
  have hdefine : m.define r.name c = (.ok (), { m with
      commands := m.commands.insert r.name c
      cache := m.cache.store r.name (some (.direct c)) (r.name = Machine.unknownName)
      log := (m.define r.name c).2.log }) := by
    rw [Machine.define, if_neg (by simp [h.disposed])]
    rfl
  rw [hdefine] at hcoherent
  refine ⟨_, ?_, h.setTable hcoherent (h.commands.insert hc) (h.cache.store r (some (.direct c)))⟩
  show (ofChange (·.define r.name c)).run m = _
  rw [ofChange, run_act, hdefine]

/-- The square command is moved away or back. -/
theorem run_shift (h : Solo run hand x m) (b : Bool) (hb : x.home = !b) :
    ∃ t, (Eval.rename (Role.place (0 : Fin 1) !b).name (Role.place (0 : Fin 1) b).name).run m =
        (.ok (), t) ∧
      Solo run hand { x with
        home := b, books := x.books.move (.place 0 !b) (.place 0 b) } t := by
  let old := Role.place (0 : Fin 1) !b
  let new := Role.place (0 : Fin 1) b
  have hold : m.commands.get? old.name = some .square := by
    rw [h.commands, hb]
    cases b <;> rfl
  have hfree : ¬ m.commands.contains new.name = true := by
    rw [Table.contains, h.commands, hb]
    cases b <;> simp [new, Role.place, Role.command]
  -- no place is the handler of unknown names, so renaming does not clear the cache
  have hunknown (b : Bool) : Role.place (0 : Fin 1) b ≠ .unknown := by
    cases b <;> decide
  have hrename : m.rename old.name new.name = (.ok (), { m with
      commands := (m.commands.erase old.name).insert new.name .square
      cache := m.cache.rename old.name new.name (some (.direct .square))
        (old.name = Machine.unknownName ∨ new.name = Machine.unknownName)
      log := (m.rename old.name new.name).2.log }) := by
    simp only [Machine.rename, if_neg (Role.name_ne_empty new), hold, if_neg hfree]
    rfl
  have hcoherent := h.coherent.rename old.name new.name
  have hcommands := h.commands.shift 0 b
  have hhome : Function.update (fun _ : Fin 1 => x.home) 0 b = fun _ => b :=
    funext fun w => by rw [Subsingleton.elim w 0, Function.update_self]
  rw [hrename] at hcoherent
  rw [hhome] at hcommands
  refine ⟨_, ?_, h.setTable hcoherent hcommands
    (h.cache.rename (hunknown !b) (hunknown b) (some (.direct .square)))⟩
  show (ofChange (·.rename old.name new.name)).run m = _
  rw [ofChange, run_act, hrename]

/-- A churn is counted as four changes. -/
theorem run_churn (h : Solo run hand x m) (hhome : x.home = true) :
    ∃ t, (churn run 0).run m = (.ok (), t) ∧ Solo run hand x.churn t := by
  obtain ⟨calls, unknown, churned, bumps, home, books⟩ := x
  obtain rfl : home = true := hhome
  obtain ⟨t₁, hrun₁, h₁⟩ := h.run_define (r := .square 0) (c := .square) rfl
  -- away and back, so that the square command is under its own name again
  obtain ⟨t₂, hrun₂, h₂⟩ := h₁.run_shift false rfl
  obtain ⟨t₃, hrun₃, h₃⟩ := h₂.run_shift true rfl
  have h₄ := h₃.setTallies (f := fun t => { t with churned := t.churned + 3 }) 0 0 3 fun t => by simp
  obtain ⟨t₅, hrun₅, h₅⟩ := h₄.run_define (r := .unknown) (c := .tally run) rfl
  have h₆ := h₅.setTallies (f := fun t => { t with churned := t.churned + 1 }) 0 0 1 fun t => by simp
  refine ⟨_, ?_, h₆⟩
  refine (run_bind_of_ok hrun₁).trans ?_
  refine (run_bind_of_ok hrun₂).trans ?_
  refine (run_bind_of_ok hrun₃).trans ?_
  exact run_bind_of_ok hrun₅

/-! ### Rounds -/

theorem run_log (h : Solo run hand x m) (level : LogLevel) (message : String)
    (fields : List (String × String)) :
    ∃ t, (log level message fields).run m = (.ok (), t) ∧ Solo run hand x t :=
  ⟨_, rfl, h.setLog _⟩

theorem run_workerFields (w : Nat) (m : Machine) : ∃ fields,
    (workerFields w).run m = (.ok fields, m) :=
  ⟨_, rfl⟩

/-- The four calls of a round, each of which returns. -/
theorem run_calls (h : Solo run hand x m) (hhome : x.home = true) (depth i : Nat) : ∃ id t,
    (∀ churnEvery : Int, (round (Evaluation.cached (depth + 1)) run 0 churnEvery i).run m =
      (if 0 < churnEvery ∧ i % churnEvery = churnEvery - 1 then do
        churn run 0
        log .debug "commands churned"
          ((← workerFields 0) ++ [("iteration", Number.intText i)])
      else done () : Eval Unit).run t) ∧
    Solo run (some id) x.round t := by
  have hself := Evaluation.resolve_cached (depth + 1)
  have hname : globalName? ("w" ++ Number.intText (0 : Nat)) = none := by decide +kernel
  have hcounter : "w" ++ Number.intText (0 : Nat) ≠ "counter" := by decide +kernel
  obtain ⟨_, _, t₁, hset, h₁⟩ := h.run_callSet hself hname hcounter (.int (.ofNat i))
  obtain ⟨_, _, t₂, hbump, h₂⟩ := h₁.run_callBump depth
  obtain ⟨_, t₃, hsquare, h₃⟩ := h₂.run_callSquare hhome hself (.ofNat i)
  obtain ⟨_, id, t₄, hprobe, h₄⟩ := h₃.run_callProbe hself
  simp only [Nat.add_assoc, Nat.reduceAdd] at h₄
  refine ⟨id, t₄, fun churnEvery => ?_, h₄⟩
  refine (run_bind_of_ok hset).trans ((run_bind_of_ok hbump).trans ?_)
  refine (run_bind_of_ok hsquare).trans ?_
  -- the square is right, so the round goes on
  have hright : intOf (.int (Int64.ofNat i * Int64.ofNat i)) = Int64.ofNat i * Int64.ofNat i := rfl
  dsimp only
  rw [if_neg (not_not.2 hright)]
  exact run_bind_of_ok hprobe

/-- Four calls, and a churn if it is time. -/
theorem run_round {churnEvery : Int} {i : Nat} (h : Solo run hand (scoreAt churnEvery.toNat i) m)
    (depth : Nat) : ∃ id t,
      (round (Evaluation.cached (depth + 1)) run 0 churnEvery i).run m = (.ok (), t) ∧
      Solo run (some id) (scoreAt churnEvery.toNat (i + 1)) t := by
  obtain ⟨id, t, hcalls, ht⟩ := h.run_calls rfl depth i
  rw [hcalls, scoreAt_succ]
  by_cases hchurn : churnEvery.toNat ∣ i + 1
  · rw [if_pos ((churns_iff_toNat _ _).2 hchurn), if_pos hchurn]
    obtain ⟨u, hrun, hu⟩ := ht.run_churn rfl
    obtain ⟨fields, hfields⟩ := run_workerFields 0 u
    obtain ⟨v, hlog, hv⟩ := hu.run_log .debug "commands churned"
      (fields ++ [("iteration", Number.intText i)])
    exact ⟨id, v, (run_bind_of_ok hrun).trans ((run_bind_of_ok hfields).trans hlog), hv⟩
  · rw [if_neg fun hc => hchurn ((churns_iff_toNat _ _).1 hc), if_neg hchurn]
    exact ⟨id, t, rfl, ht⟩

theorem run_rounds {churnEvery : Int} {i : Nat} (h : Solo run hand (scoreAt churnEvery.toNat i) m)
    (depth left : Nat) : ∃ last t,
      (rounds (Evaluation.cached (depth + 1)) run 0 churnEvery false i left).run m = (.ok (), t) ∧
      Solo run last (scoreAt churnEvery.toNat (i + left)) t := by
  -- whether there are rounds before this one shows in the context at hand and in the score only
  induction left generalizing hand m i with
  | zero => exact ⟨hand, m, rfl, h⟩
  | succ left ih =>
    obtain ⟨id, t, hround, ht⟩ := h.run_round depth
    obtain ⟨last, u, hrest, hu⟩ := ih ht
    rw [Nat.add_right_comm] at hu
    exact ⟨last, u, (run_bind_of_ok hround).trans hrest, hu⟩

/-- A worker gives its context up, if it has one. -/
theorem run_release (h : Solo run hand x m) : Solo run none x m.release.2 := by
  cases hand with
  | none =>
    have hnone : m.byThread.get? m.thread = none := by
      rw [Table.get?, h.context.1]
      rfl
    rw [Machine.release_of_none hnone]
    exact h
  | some id =>
    obtain ⟨g, hg, hflags, hcounts⟩ := h.global
    have hlisted : m.byThread.get? m.thread = some id := by
      rw [Table.get?, h.context.1]
      exact if_pos rfl
    have hframe : m.release.2.frames.get? Machine.globalFrame = some g :=
      (Machine.get?_globalFrame_release ⟨g, hg, hflags⟩).trans hg
    -- of what is left only the global frame has to be looked at, and it is shared and spared
    have hrest : ∃ frames contexts log,
        m.release.2 = { m.unlist id with frames, contexts, log } := by
      obtain ⟨log, e⟩ := Machine.release_of_some hlisted
      exact ⟨_, _, log, e⟩
    obtain ⟨frames, contexts, log, e⟩ := hrest
    rw [e] at hframe ⊢
    refine ⟨h.disposed, h.depth, h.coherent.congr rfl rfl, h.commands, ⟨?_, ?_⟩,
      ⟨g, hframe, hflags, hcounts⟩, h.tally, h.cache⟩
    · show (m.byThread.erase m.thread).entries = []
      simp [Table.erase, h.context.1]
    · show (if m.previous = some id then none else m.previous) = none
      rw [if_pos h.context.2.1]

/-- A worker does its rounds and gives its context up. -/
theorem run_worker {size : Load} (h : Solo run none (scoreAt size.churn.toNat 0) m) (depth : Nat) :
    ∃ t, (worker (Evaluation.cached (depth + 1)) run size false 0).run m = (.ok (), t) ∧
      Solo run none (scoreAt size.churn.toNat size.iterations.toNat) t := by
  obtain ⟨fields, hfields⟩ := run_workerFields 0 m
  obtain ⟨t₁, hstarted, h₁⟩ := h.run_log .debug "worker started" fields
  obtain ⟨last, t₂, hrounds, h₂⟩ := h₁.run_rounds depth size.iterations.toNat
  obtain ⟨fields', hfields'⟩ := run_workerFields 0 t₂
  obtain ⟨t₃, hdone, h₃⟩ := h₂.run_log .debug "worker done" fields'
  rw [Nat.zero_add] at h₃
  refine ⟨_, run_always_of_ok (t := t₃) ?_ (by rintro ⟨⟩) rfl, h₃.run_release⟩
  refine (run_bind_of_ok hfields).trans ((run_bind_of_ok hstarted).trans ?_)
  exact (run_bind_of_ok hrounds).trans ((run_bind_of_ok hfields').trans hdone)

/-- A worker that has no context yet, on the thread of the run or on one of its own. -/
theorem run_onThread {p : Eval Unit} {y : Score} (h : Solo run none x m) (thread : ThreadId)
    (native : Bool) (w : Nat) (hp : ∀ u, Solo run none x u → ∃ t, p.run u = (.ok (), t) ∧
      Solo run none y t) :
    ∃ t, (onThread thread native w p).run m = (.ok (), t) ∧ Solo run none y t := by
  cases native with
  | false => exact hp m h
  | true =>
    obtain ⟨t, hrun, ht⟩ := hp _ (h.setThread (thread + 1 + w))
    exact ⟨_, LoadGenerator.run_onThread hrun, ht.setThread thread⟩

theorem run_runWorkers (size : Load) (h : Solo run none (scoreAt size.churn.toNat 0) m)
    (hcancelled : size.cancelled = false) (thread : ThreadId) (native : Bool) (depth : Nat) :
    ∃ t, (runWorkers (Evaluation.cached (depth + 1)) run size thread native none
        (List.range 1)).run m = (.ok (), t) ∧
      Solo run none (scoreAt size.churn.toNat size.iterations.toNat) t := by
  obtain ⟨t, hrun, ht⟩ := h.run_onThread thread native 0 fun u hu => hu.run_worker depth
  refine ⟨t, ?_, ht⟩
  show (runWorkers _ run size thread native none [0]).run m = _
  rw [runWorkers, run_handle, hcancelled, Option.isSome_none, Bool.or_false, hrun]
  rfl

/-- What the machine reports when the worker is over. -/
theorem run_finish (h : Solo run none x m) : ∃ t,
    (finish run 1).run m = (.ok {
      workers := 1, tally := ⟨.ofNat x.calls, .ofNat x.unknown, .ofNat x.churned⟩
      counter := .ofNat x.bumps, contexts := 0 }, t) ∧
    t.cache = m.cache := by
  have hcounter : (((m.frames.get? Machine.globalFrame).bind (·.get? "counter")).getD
      .empty).toInt.toOption.getD 0 = Int64.ofNat x.bumps := by
    obtain ⟨g, hg, -, hcounts⟩ := h.global
    rw [hg]
    exact hcounts.reported
  have hcontexts : m.contextCount = 0 := by
    rw [Machine.contextCount, Table.size, h.context.1]
    rfl
  have hreport : report run 1 m = {
      workers := 1, tally := ⟨.ofNat x.calls, .ofNat x.unknown, .ofNat x.churned⟩
      counter := .ofNat x.bumps, contexts := 0 } := by
    rw [report, h.tally, hcounter, hcontexts]
    rfl
  rw [← hreport]
  exact ⟨_, rfl, rfl⟩

end Solo

/-! ### The run -/

/-- Three commands are defined before the worker starts; the last one drops the others from the
cache. -/
theorem describes_opening (size : Load) (s : Setup) (hs : s.statistics = true) (c : Nat) :
    (booksAt c 0).Describes ((opening 1 size).run (Machine.start s)).2.cache := by
  let fresh : Books 1 := ⟨∅, fun _ => 0⟩
  have hnew : fresh.Describes (Cache.new s.statistics) := by
    rw [hs]
    exact ⟨∅, .new, rfl⟩
  have hdefined := ((hnew.store .bump (some (.direct bump))).store (.square 0)
    (some (.direct .square))).store .unknown (some (.direct (.tally 0)))
  -- no round is over, so none has found anything or missed it, whatever `c` is
  have hbooks : ((fresh.define .bump).define (.square 0)).define .unknown = booksAt c 0 := by
    have hevents : ((fresh.define .bump).define (.square 0)).define .unknown =
        fresh.turn {.unknown} [.add, .add, .clear, .add] := by
      show (((fresh.turn ∅ []).define .bump).define (.square 0)).define .unknown = _
      rw [Books.define_turn_of_notMem _ _ (by decide) (by decide),
        Books.define_turn_of_notMem _ _ (by decide) (by decide), Books.define_turn_unknown]
      rfl
    have hmisses : misses c 0 = 0 := Nat.le_zero.1 (misses_le c 0)
    rw [hevents, booksAt, if_pos (Nat.dvd_zero c)]
    refine Books.ext rfl (funext fun e => ?_)
    cases e <;> simp [Books.turn, Counter.tallied, countsAt, hmisses, fresh]
  rw [hbooks] at hdefined
  exact hdefined

theorem solo_opening (size : Load) (s : Setup) (hs : s.statistics = true) (hd : 1 ≤ s.maxDepth)
    (c : Nat) : ((opening 1 size).run (Machine.start s)).1 = .ok () ∧
      Solo 0 none (scoreAt c 0) ((opening 1 size).run (Machine.start s)).2 := by
  have hcache := describes_opening size s hs c
  obtain ⟨commands, cache, log, hrun, hcoherent, hstocked⟩ := run_opening 1 size s
  rw [hrun] at hcache ⊢
  have hzero : (⟨.ofNat (4 * 0), .ofNat 0, .ofNat (4 * (0 / c))⟩ : Tally) = {} := by
    rw [Nat.zero_div]
    rfl
  exact ⟨rfl, rfl, hd, hcoherent, hstocked, ⟨rfl, rfl⟩, ⟨_, rfl, rfl, rfl⟩,
    congrArg some hzero.symm, hcache⟩

/-- **A run accounts for every use of the cache.**  On a fresh interpreter that keeps counters and allows
calls, a run with one worker and `n` rounds churns `k` times, once at the end of every `c`th round, and
`m` of its rounds find none of the five names that a round resolves.  All others find all of them.
With that, everything the run reports and the cache has counted is given by `n`, `k` and `m`, where
numbers are taken modulo 2^64.  In the end the cache holds the handler of unknown names, and the five
names unless they have just been dropped. -/
theorem solo_run_accounts_for_cache (s : Setup) (hs : s.statistics = true) (hd : 1 ≤ s.maxDepth)
    (n depth : Nat) (c : Int) :
    let k := if 0 < c then n / c.toNat else 0
    let m := if 0 < c then (n + c.toNat - 1) / c.toNat else min n 1
    let last := (LoadGenerator.run (Evaluation.cached (depth + 1))
      { workers := 1, iterations := n, churn := c }).run (Machine.start s)
    last.1 = .ok { workers := 1, tally := ⟨.ofNat (4 * n), .ofNat n, .ofNat (4 * k)⟩
                   counter := .ofNat n, contexts := 0 } ∧
    last.2.cache.counter .found = .ofNat (5 * (n - m)) ∧
    last.2.cache.counter .notFound = .ofNat (5 * m) ∧
    last.2.cache.counter .add = .ofNat (3 + 5 * m + 3 * k) ∧
    last.2.cache.counter .change = .ofNat k ∧
    last.2.cache.counter .remove = .ofNat (2 * k) ∧
    last.2.cache.counter .clear = .ofNat (1 + k) ∧
    last.2.cache.count = if n = 0 ∨ 0 < c ∧ c ∣ n then 1 else 6 := by
  intro k m last
  let size : Load := { workers := 1, iterations := n, churn := c }
  obtain ⟨hok, hopening⟩ := solo_opening size s hs hd c.toNat
  obtain ⟨t, hworkers, ht⟩ := hopening.run_runWorkers size rfl _ _ depth
  obtain ⟨u, hfinish, hcache⟩ := ht.run_finish
  have hlast : last = _ :=
    (run_run (W := 1) (Nat.le_refl 1) rfl (Prod.ext hok rfl) hworkers).trans hfinish
  -- what the cache has at the end is what its books say after all iterations
  have hbooks : (booksAt c.toNat n).Describes last.2.cache := by
    rw [hlast]
    exact hcache ▸ ht.cache
  have hk : k = n / c.toNat := by
    by_cases hc : 0 < c
    · exact if_pos hc
    · rw [show c.toNat = 0 by omega, Nat.div_zero]
      exact if_neg hc
  have hm : m = misses c.toNat n := by
    by_cases hc : 0 < c
    · rw [misses, if_neg (by omega)]
      exact if_pos hc
    · rw [misses, if_pos (by omega)]
      exact if_neg hc
  rw [hk, hm]
  refine ⟨?_, hbooks.counter .found, hbooks.counter .notFound, hbooks.counter .add,
    hbooks.counter .change, hbooks.counter .remove, hbooks.counter .clear, hbooks.count.trans ?_⟩
  · rw [hlast]
    rfl
  simp only [booksAt, ← toNat_dvd_iff]
  split
  · exact Finset.card_singleton _
  · decide

/-- Five rounds with a churn after every second one: the first, third and fifth find nothing. -/
theorem solo_run_accounts_for_cache_five :
    let s : Setup := { id := "main", statistics := true }
    let last := (LoadGenerator.run (Evaluation.cached 1)
      { workers := 1, iterations := (5 : Nat), churn := 2 }).run (Machine.start s)
    (s.statistics = true ∧ 1 ≤ s.maxDepth) ∧
    last.1 = .ok { workers := 1, tally := ⟨20, 5, 8⟩, counter := 5, contexts := 0 } ∧
    Counter.all.map last.2.cache.counter = [10, 15, 24, 2, 4, 3] ∧ last.2.cache.count = 6 := by
  intro s last
  have hs : s.statistics = true := rfl
  have hd : 1 ≤ s.maxDepth := by decide
  obtain ⟨hreport, hfound, hnotFound, hadd, hchange, hremove, hclear, hcount⟩ :=
    solo_run_accounts_for_cache s hs hd 5 0 2
  have hlast : last = (LoadGenerator.run (Evaluation.cached (0 + 1))
      { workers := 1, iterations := (5 : Nat), churn := 2 }).run (Machine.start s) := rfl
  rw [← hlast] at hreport hfound hnotFound hadd hchange hremove hclear hcount
  -- the run itself is not looked at any more
  clear_value last
  refine ⟨⟨hs, hd⟩, hreport, ?_, hcount⟩
  rw [Counter.all, List.map_cons, List.map_cons, List.map_cons, List.map_cons, List.map_cons,
    List.map_cons, List.map_nil, hfound, hnotFound, hadd, hchange, hremove, hclear]
  decide

end LoadGenerator

end CommandHost
