/-
CommandHost/Proofs/Transparency.lean

The cache cannot be observed.

A session that takes no step that shows the cache comes to the same whether names
are resolved through the cache or by the table alone, whether the cache counts its
events, and wherever the cache is cleared, in bodies or between calls: every call has
the same outcome, output and log, and the machines in the end are the same.

The proof is a simulation.  Its relation is agreement (`Machine.Agree`): the machines
are the same but for their caches, and both caches are coherent, so that both resolve
a name to the same command.  Programs that run alike keep machines in agreement
(`Alike.indistinct`, by induction over how the programs are built), and sessions are
lists of such programs.
-/
import CommandHost.Proofs.Coherence

namespace CommandHost

open Program Eval Dispatch

/-! ### Steps that look at the cache -/

/-- A step that shows the cache gives something else when the cache is exchanged. -/
theorem Inspects.sees_cache {α : Type} {f : Machine → Except Stop α × Machine} (h : Inspects f) :
    ∃ (m : Machine) (cache : Cache Resolution), (f { m with cache }).1 ≠ (f m).1 := by
  -- an empty cache without counters against one that has seen the name
  have ne_of {β : Type} {a b : β} (h : a ≠ b) : (Except.ok a : Except Stop β) ≠ .ok b :=
    fun e => h (Except.ok.inj e)
  let full (name : String) : Cache Resolution :=
    (Cache.new true).store name (some (.direct .square)) false
  refine ⟨{ Machine.start { id := "" } with cache := .new false }, ?_⟩
  cases h with
  | cached name => exact ⟨full name, ne_of (by simp [Machine.isCached, Cache.lookup, full,
      Cache.store, Cache.new])⟩
  | count => exact ⟨full "", ne_of (by decide)⟩
  | report zeros => exact ⟨full "", ne_of (by cases zeros <;> decide +kernel)⟩
  | haveCounts => exact ⟨full "", ne_of (by decide)⟩
  | counters => exact ⟨full "", ne_of (Option.some_ne_none _)⟩

/-- Such a step does not fail. -/
theorem Inspects.ne_error {α : Type} {f : Machine → Except Stop α × Machine} (h : Inspects f)
    (m : Machine) (s : Stop) : (f m).1 ≠ .error s := by
  intro e
  cases h <;> cases e

/-- Machines that only their caches tell apart, which are both coherent. -/
structure Machine.Agree (clears : Prop) (m t : Machine) : Prop where
  same : m.Same clears t
  left : m.Coherent
  right : t.Coherent

/-- Programs that cannot be told apart by what comes of them, unless one looks at the cache. -/
def Indistinct {α : Type} (clears : Prop) (p p' : Eval α) : Prop :=
  ∀ m t : Machine, m.Agree clears t → p.Spares Inspects m →
    (p'.run t).1 = (p.run m).1 ∧ (p.run m).2.Agree clears (p'.run t).2

namespace Indistinct

variable {clears : Prop} {α β : Type}

theorem done (a : α) : Indistinct clears (done a) (done a) := fun _ _ h _ => ⟨rfl, h⟩

theorem stop (s : Stop) : Indistinct clears (stop s : Eval α) (stop s) := fun _ _ h _ => ⟨rfl, h⟩

/-- Steps that do the same to machines that agree. -/
theorem act {f g : Machine → Except Stop α × Machine} (hf : (act f).Steps Machine.Next)
    (hg : (Program.act g).Steps Machine.Next) (h : Machine.Steady clears f g) :
    Indistinct clears (.act f) (.act g) := by
  intro m t hs _
  obtain ⟨hr, hsame⟩ := h m t hs.same
  exact ⟨hr, hsame, .next (hf m) hs.left, .next (hg t) hs.right⟩

/-- A step that has nothing to do with commands, cache and notes. -/
theorem apart {f : Machine → Except Stop α × Machine} (hn : ∀ m : Machine, m.Next (f m).2)
    (h : Machine.Apart f) : Indistinct clears (.act f) (.act f) :=
  act hn hn (h.steady clears)

/-- Both go on with the same outcome, from machines that agree. -/
theorem handle {p p' : Eval β} {k k' : Except Stop β → Eval α} (hp : Indistinct clears p p')
    (hk : ∀ r, Indistinct clears (k r) (k' r)) : Indistinct clears (handle p k) (handle p' k') := by
  intro m t hs ha
  obtain ⟨hr, ht⟩ := hp m t hs ha.1
  rw [run_handle, run_handle, hr]
  exact hk _ _ _ ht ha.2

/-- Both go on with the same value. -/
theorem bind {p p' : Eval β} {k k' : β → Eval α} (hp : Indistinct clears p p')
    (hk : ∀ b, Indistinct clears (k b) (k' b)) : Indistinct clears (p >>= k) (p' >>= k') := by
  refine handle hp ?_
  rintro (s | b)
  · exact stop s
  · exact hk b

theorem always {p p' : Eval α} {restore : Eval Unit} (hr : Indistinct clears restore restore)
    (hp : Indistinct clears p p') :
    Indistinct clears (always restore p) (Eval.always restore p') :=
  handle hp (restoring_induction (P := fun q => Indistinct clears q q)
    (Q := fun q => Indistinct clears q q) (stop _) done stop fun _ hk _ => handle hr hk)

theorem takeReturn {p p' : Eval Value} (hp : Indistinct clears p p') :
    Indistinct clears (takeReturn p) (Dispatch.takeReturn p') :=
  handle hp (returned_induction (P := fun q => Indistinct clears q q) done stop)

/-! ### Brackets -/

theorem readContext (id : ContextId) (f : ThreadContext → Policy → Except Accessor α) :
    Indistinct clears (readContext id f) (Eval.readContext id f) :=
  apart (steps_readContext id f) (Machine.apart_readContext id f)

/-- What is read is neither commands, cache nor notes. -/
theorem read {f : Machine → α}
    (h : ∀ (m : Machine) commands cache notes, f (m.exchange commands cache notes) = f m) :
    Indistinct clears (read f : Eval α) (.read f) := by
  refine apart (fun m => ⟨.rest, rfl⟩) fun m commands cache notes => ?_
  rw [h]

/-- Slots are written to contexts, under a policy; both are the same. -/
theorem writeFrame (id : ContextId) (slot : Slot) (f : Option FrameId) :
    Indistinct clears (writeFrame id slot f) (Eval.writeFrame id slot f) := by
  refine apart (steps_writeFrame id slot f) fun m commands cache notes => ?_
  have hcontext : (m.exchange commands cache notes).context id = m.context id := rfl
  have hpolicy : (m.exchange commands cache notes).policyFor id = m.policyFor id := rfl
  simp only [hcontext, hpolicy]
  split <;> rfl

theorem modifyStack (id : ContextId) (f : CallStack → CallStack) :
    Indistinct clears (modifyStack id f) (Eval.modifyStack id f) :=
  apart (fun _ => ⟨.setStack id _, rfl⟩) fun _ _ _ _ => rfl

theorem disposeFrame (frame : FrameId) :
    Indistinct clears (modifyFrame frame (·.dispose)) (modifyFrame frame (·.dispose)) :=
  apart (fun _ => ⟨.disposeFrame frame, rfl⟩) fun _ _ _ _ => rfl

theorem allocFrame (f : Frame) : Indistinct clears (allocFrame f) (Eval.allocFrame f) :=
  apart (fun _ => ⟨.newFrame f, rfl⟩) fun _ _ _ _ => rfl

theorem moveTo (id : ContextId) (current uplevel : Option FrameId) :
    Indistinct clears (moveTo id current uplevel) (Dispatch.moveTo id current uplevel) :=
  bind (writeFrame id _ _) fun _ => writeFrame id _ _

theorem enterCall (id : ContextId) (frame : FrameId) :
    Indistinct clears (enterCall id frame) (Dispatch.enterCall id frame) :=
  bind (modifyStack id _) fun _ => bind (writeFrame id _ _) fun _ => writeFrame id _ _

theorem leaveCall (id : ContextId) (frame : FrameId) (current procedure : Option FrameId) :
    Indistinct clears (leaveCall id frame current procedure)
      (Dispatch.leaveCall id frame current procedure) :=
  bind (modifyStack id _) fun _ => bind (disposeFrame frame) fun _ =>
    bind (writeFrame id _ _) fun _ => writeFrame id _ _

/-- The frames and the stack are the same, and so is the frame above. -/
theorem frameAbove (inv : Invocation) (level : Int) :
    Indistinct clears (frameAbove inv level) (Dispatch.frameAbove inv level) := by
  have hframe : Indistinct clears inv.frame inv.frame := by
    refine bind (readContext _ _) fun f => ?_
    cases f with
    | some f => exact done f
    | none => exact stop _
  refine bind hframe fun f => bind (read fun _ _ _ _ => rfl) fun n => ?_
  dsimp only
  split
  · exact stop _
  · refine bind (readContext _ _) fun outermost => ?_
    split
    · refine bind (readContext _ _) fun stack => ?_
      split
      · exact done _
      · exact stop _
    · exact done _

/-- Both calls get a frame with the same number. -/
theorem callFrame (inv : Invocation) (name : String) (params : List String) (args : List Value) :
    Indistinct clears (callFrame inv name params args)
      (Dispatch.callFrame inv name params args) := by
  unfold Dispatch.callFrame
  split
  · exact stop _
  · refine bind (readContext _ _) fun stack => ?_
    cases stack with
    | none => exact stop _
    | some stack =>
      refine bind (read fun _ _ _ _ => rfl) fun maxDepth => ?_
      split
      · exact stop _
      · exact allocFrame _

variable {p p' : Eval Value}

/-- Moving to a frame and back around programs that cannot be told apart. -/
theorem inFrame (id : ContextId) (frame : Option FrameId) (hp : Indistinct clears p p') :
    Indistinct clears (inFrame id frame p) (Dispatch.inFrame id frame p') :=
  bind (readContext _ _) fun _ => bind (readContext _ _) fun _ =>
    bind (moveTo id _ _) fun _ => always (moveTo id _ _) hp

theorem inScope (inv : Invocation) (scope : Option FrameId) (hp : Indistinct clears p p') :
    Indistinct clears (inScope inv scope p) (Dispatch.inScope inv scope p') := by
  cases scope with
  | none => exact stop _
  | some f =>
    exact bind (readContext _ _) fun _ => bind (writeFrame _ _ _) fun _ =>
      always (writeFrame _ _ _) hp

theorem inCall (id : ContextId) (frame : FrameId) (hp : Indistinct clears p p') :
    Indistinct clears (inCall id frame p) (Dispatch.inCall id frame p') :=
  bind (readContext _ _) fun _ => bind (readContext _ _) fun _ =>
    bind (enterCall id frame) fun _ => always (leaveCall id frame _ _) hp

end Indistinct

/-! ### Resolution and clearing -/

namespace Machine

/-- Resolving a name changes nothing but the cache. -/
theorem resolve_snd (m : Machine) (name : String) :
    (m.resolve name).2 = { m with cache := (m.resolve name).2.cache } := by
  unfold resolve
  split <;> rfl

variable {clears : Prop} {m t : Machine}

/-- The caches are not compared. -/
theorem Same.setCache (h : m.Same clears t) (cache cache' : Cache Resolution) :
    Same clears { m with cache } { t with cache := cache' } :=
  ⟨h.commands, h.notes, by rw [h.rest]⟩

/-- A name is an error in both machines, or a command in both. -/
theorem Same.lookupOutcome (h : m.Same clears t) (name : String) :
    (∃ s, m.lookupOutcome name = .error s ∧ t.lookupOutcome name = .error s) ∨
      ∃ r r', m.lookupOutcome name = .ok r ∧ t.lookupOutcome name = .ok r' ∧
        SameResolution clears r r' := by
  have hl := h.lookup name
  unfold Machine.lookupOutcome
  generalize m.lookup name = r, t.lookup name = r' at hl
  cases hl with
  | none => exact .inl ⟨_, rfl, rfl⟩
  | some hr => exact .inr ⟨_, _, rfl, rfl, hr⟩

/-- The machine after a statement that clears the cache. -/
def noteCleared (m : Machine) : Machine :=
  { m.clearCache with notes := m.notes.push (.reply (.ok .done)) }

/-- A cleared cache is coherent. -/
theorem coherent_noteCleared (m : Machine) : m.noteCleared.Coherent :=
  coherent_of_entries_empty rfl

/-- Clearing one of the caches leaves the machines in agreement, with one note more. -/
theorem Agree.noteCleared_left (h : m.Agree clears t) (hc : clears) :
    m.noteCleared.Agree clears t :=
  ⟨⟨h.same.commands, .left hc h.same.notes, h.same.rest⟩, m.coherent_noteCleared, h.right⟩

theorem Agree.noteCleared_right (h : m.Agree clears t) (hc : clears) :
    m.Agree clears t.noteCleared := by
  refine ⟨⟨h.same.commands, .right hc h.same.notes, ?_⟩, h.left, t.coherent_noteCleared⟩
  unfold noteCleared clearCache
  rw [h.same.rest]

end Machine

/-- From a coherent machine, both ways to resolve a name come to what the table has, and nothing but
the cache changes. -/
theorem Resolver.run (r : Resolver) (name : String) {m : Machine} (h : m.Coherent) :
    ∃ cache, (r.resolve name).run m = (m.lookupOutcome name, { m with cache }) ∧
      Machine.Coherent { m with cache } := by
  cases r with
  | direct => exact ⟨m.cache, rfl, h⟩
  | cached =>
    have hsnd : ((Eval.resolve name).run m).2 = (m.resolve name).2 := by
      rcases e : m.resolve name with ⟨_ | _, _⟩ <;> simp [Eval.resolve, e]
    refine ⟨(m.resolve name).2.cache, Prod.ext (h.run_resolve name) ?_, ?_⟩
    · exact hsnd.trans (m.resolve_snd name)
    · exact m.resolve_snd name ▸ h.resolve name

/-- A statement that clears the cache gives the value before it. -/
theorem Evaluation.run_clearCache (self : Runner) (inv : Invocation) (last : Value) (m : Machine) :
    (statement self inv last (.host .clearCache)).run m = (.ok last, m.noteCleared) := rfl

/-- Names are resolved in the same way through both caches, since these are coherent. -/
theorem Indistinct.resolve {clears : Prop} {α : Type} {k k' : Resolution → Eval α} (r r' : Resolver)
    (name : String) (hk : ∀ x x', SameResolution clears x x' → Indistinct clears (k x) (k' x')) :
    Indistinct clears (r.resolve name >>= k) (r'.resolve name >>= k') := by
  intro m t h ha
  obtain ⟨cache, hm, hmc⟩ := r.run name h.left
  obtain ⟨cache', ht, htc⟩ := r'.run name h.right
  have hagree : Machine.Agree clears { m with cache } { t with cache := cache' } :=
    ⟨h.same.setCache cache cache', hmc, htc⟩
  have hrest := ha.of_bind.2
  rw [run_bind, run_bind, hm, ht]
  rw [hm] at hrest
  -- the name is unknown to both, or both go on with their own resolution of it
  rcases h.same.lookupOutcome name with ⟨s, hs, hs'⟩ | ⟨x, x', hx, hx', hxx⟩
  · rw [hs, hs']
    exact ⟨rfl, hagree⟩
  · rw [hx, hx']
    exact hk x x' hxx _ _ hagree (hrest x hx)

/-- Programs that run alike cannot be told apart. -/
theorem Alike.indistinct {clears : Prop} {α : Type} {p p' : Eval α} (h : Alike clears p p') :
    Indistinct clears p p' := by
  induction h with
  | done a => exact .done a
  | stop s => exact .stop s
  | act hf hg h => exact .act (fun m => (hf m).next) (fun m => (hg m).next) h
  | inspect h =>
    -- the run does not get here
    exact fun _ _ _ ha => absurd h ha
  | resolve r r' name _ ih => exact .resolve r r' name ih
  | handle _ _ _ ihp ihk => exact .handle ihp ihk
  | uplevel inv level _ ih => exact .bind (.frameAbove inv level) fun _ => .inFrame _ _ ih
  | inScope inv scope _ ih => exact .inScope inv scope ih
  | call inv name params args _ ih =>
    exact .bind (.callFrame inv name params args) fun f => .takeReturn (.inCall _ f ih)
  -- the program on the left clears its cache first, and the other one does not
  | left hc self inv last _ ih =>
    intro m t hs ha
    rw [run_bind, Evaluation.run_clearCache]
    exact ih m.noteCleared t (hs.noteCleared_left hc) ha.2
  | right hc self inv last _ ih =>
    intro m t hs ha
    rw [run_bind, Evaluation.run_clearCache]
    exact ih m t.noteCleared (hs.noteCleared_right hc) ha

/-! ### Sessions -/

/-- Carries out calls of the embedding program one after the other. -/
def Machine.performAll (self : Runner) :
    Machine → List HostCall → List (HostCall × CallReport) × Machine
  | m, [] => ([], m)
  | m, c :: cs =>
    let (report, t) := m.performBy self c
    let (steps, u) := t.performAll self cs
    ((c, report) :: steps, u)

/-- No call takes a step that shows the cache. -/
def Machine.AvoidsAll (self : Runner) : Machine → List HostCall → Prop
  | _, [] => True
  | m, c :: cs =>
    (Host.perform self none c).Spares Inspects m.silent ∧
      (m.performBy self c).2.AvoidsAll self cs

/-- Calls that are the same up to clearing the cache, in bodies (if `clears`) and between calls (if
`between`). -/
inductive SameCalls (clears between : Prop) : List HostCall → List HostCall → Prop
  | nil : SameCalls clears between [] []
  | cons {c c' : HostCall} {cs cs' : List HostCall} (hc : SameCall clears c c')
      (h : SameCalls clears between cs cs') : SameCalls clears between (c :: cs) (c' :: cs')
  | left {cs cs' : List HostCall} (hb : between) (h : SameCalls clears between cs cs') :
      SameCalls clears between (.clearCache :: cs) cs'
  | right {cs cs' : List HostCall} (hb : between) (h : SameCalls clears between cs cs') :
      SameCalls clears between cs (.clearCache :: cs')

/-- Reports that are the same up to the notes of clearing the cache. -/
structure SameReport (clears : Prop) (r r' : CallReport) : Prop where
  outcome : r'.outcome = r.outcome
  output : r'.output = r.output
  log : r'.log = r.log
  notes : SameNotes clears r.notes r'.notes

/-- Without clearing in bodies the notes are equal as well. -/
theorem SameReport.eq {clears : Prop} (hc : ¬ clears) {r r' : CallReport}
    (h : SameReport clears r r') : r' = r := by
  have hnotes := h.notes.eq hc
  obtain ⟨outcome, output, notes, log⟩ := r
  obtain ⟨houtcome, houtput, hlog, -⟩ := h
  dsimp only at houtcome houtput hlog hnotes
  rw [← houtcome, ← houtput, ← hlog, hnotes]

/-- The report of clearing the cache. -/
def CallReport.cleared : CallReport := ⟨.ok .done, "", #[], #[]⟩

/-- Calls with their reports that are the same up to clearing the cache. -/
inductive SameSteps (clears between : Prop) :
    List (HostCall × CallReport) → List (HostCall × CallReport) → Prop
  | nil : SameSteps clears between [] []
  | cons {c c' : HostCall} {r r' : CallReport} {ss ss' : List (HostCall × CallReport)}
      (hc : SameCall clears c c') (hr : SameReport clears r r')
      (h : SameSteps clears between ss ss') :
      SameSteps clears between ((c, r) :: ss) ((c', r') :: ss')
  | left {ss ss' : List (HostCall × CallReport)} (hb : between)
      (h : SameSteps clears between ss ss') :
      SameSteps clears between ((.clearCache, .cleared) :: ss) ss'
  | right {ss ss' : List (HostCall × CallReport)} (hb : between)
      (h : SameSteps clears between ss ss') :
      SameSteps clears between ss ((.clearCache, .cleared) :: ss')

/-- Without any clearing there is nothing that may differ. -/
theorem SameSteps.eq {clears between : Prop} (hc : ¬ clears) (hb : ¬ between)
    {ss ss' : List (HostCall × CallReport)} (h : SameSteps clears between ss ss') : ss' = ss := by
  induction h with
  | nil => rfl
  | cons hcall hr _ ih => rw [hcall.eq hc, hr.eq hc, ih]
  | left h | right h => exact absurd h hb

namespace Machine.Agree

variable {clears : Prop} {m t : Machine} {self self' : Runner}

/-- Emptying the channels keeps machines in agreement. -/
theorem silent (h : m.Agree clears t) : m.silent.Agree clears t.silent := by
  refine ⟨⟨h.same.commands, .empty, ?_⟩, h.left.congr rfl rfl, h.right.congr rfl rfl⟩
  unfold Machine.silent
  rw [h.same.rest]

/-- Between calls, the channels may differ: they are emptied before the next call. -/
theorem performBy (h : m.silent.Agree clears t.silent) (hself : self.Alike clears self')
    {c c' : HostCall} (hc : SameCall clears c c')
    (ha : (Host.perform self none c).Spares Inspects m.silent) :
    SameReport clears (m.performBy self c).1 (t.performBy self' c').1 ∧
      (m.performBy self c).2.silent.Agree clears (t.performBy self' c').2.silent := by
  obtain ⟨hr, hagree⟩ := (Alike.perform hself none hc).indistinct _ _ h ha
  refine ⟨⟨hr, ?_, ?_, hagree.same.notes⟩, hagree.silent⟩
  · exact congrArg (·.output) hagree.same.rest
  · exact congrArg (·.log) hagree.same.rest

theorem clear_left (h : m.silent.Agree clears t.silent) (self : Runner) :
    (m.performBy self .clearCache).2.silent.Agree clears t.silent :=
  ⟨⟨h.same.commands, .empty, h.same.rest⟩, coherent_of_entries_empty rfl, h.right⟩

theorem clear_right (h : m.silent.Agree clears t.silent) (self : Runner) :
    m.silent.Agree clears (t.performBy self .clearCache).2.silent :=
  ⟨⟨h.same.commands, .empty, congrArg Machine.clearCache h.same.rest⟩, h.left,
    coherent_of_entries_empty rfl⟩

/-- Sessions keep machines in agreement. -/
theorem performAll {between : Prop} {cs cs' : List HostCall} (hself : self.Alike clears self')
    (hcs : SameCalls clears between cs cs') (h : m.silent.Agree clears t.silent)
    (ha : m.AvoidsAll self cs) :
    SameSteps clears between (m.performAll self cs).1 (t.performAll self' cs').1 ∧
      (m.performAll self cs).2.silent.Agree clears (t.performAll self' cs').2.silent := by
  induction hcs generalizing m t with
  | nil => exact ⟨.nil, h⟩
  | cons hc _ ih =>
    obtain ⟨hr, hnext⟩ := performBy h hself hc ha.1
    obtain ⟨hsteps, hend⟩ := ih hnext ha.2
    exact ⟨.cons hc hr hsteps, hend⟩
  | left hb _ ih =>
    obtain ⟨hsteps, hend⟩ := ih (h.clear_left self) ha.2
    exact ⟨.left hb hsteps, hend⟩
  | right hb _ ih =>
    obtain ⟨hsteps, hend⟩ := ih (h.clear_right self') ha
    exact ⟨.right hb hsteps, hend⟩

end Machine.Agree

/-- Whether the cache counts its events makes a difference to the cache only. -/
theorem Machine.agree_start (clears : Prop) (s : Setup) (statistics : Bool) :
    (Machine.start s).Agree clears (Machine.start { s with statistics }) :=
  ⟨⟨.refl .refl _, .empty, rfl⟩, coherent_start s, coherent_start _⟩

/-- **The cache is unobservable.**  A session that takes no step that shows the cache comes to the
same however names are resolved, whether the cache counts its events, and wherever it is cleared:
each call has the same outcome, output and log, and its notes differ in those of clearing only; in
the end the commands are the same up to clearing in their bodies, and all else but the cache is
equal.  If the bodies clear alike, all of the machines but the caches is equal; if the calls do too,
so are all reports. -/
theorem cache_unobservable (s : Setup) (statistics : Bool) (depth : Nat) (r r' : Resolver)
    {clears between : Prop} {calls calls' : List HostCall}
    (hc : SameCalls clears between calls calls')
    (ha : (Machine.start s).AvoidsAll (Evaluation.runner r.resolve depth) calls) :
    let run := (Machine.start s).performAll (Evaluation.runner r.resolve depth) calls
    let run' := (Machine.start { s with statistics }).performAll
      (Evaluation.runner r'.resolve depth) calls'
    SameSteps clears between run.1 run'.1 ∧ run.2.silent.Same clears run'.2.silent ∧
      (¬ clears → (∃ cache, run'.2.silent = { run.2.silent with cache }) ∧
        (¬ between → run'.1 = run.1)) := by
  intro run run'
  have hstart := (Machine.agree_start clears s statistics).silent
  obtain ⟨hsteps, hend⟩ := hstart.performAll (Runner.alike_runner clears r r' depth) hc ha
  exact ⟨hsteps, hend.same, fun h => ⟨⟨_, hend.same.eq h⟩, fun hb => hsteps.eq h hb⟩⟩

/-- A function that clears the cache, called after another clearing, and names resolved by the table
alone: only the caches differ. -/
theorem cache_unobservable_cleared_in_body :
    let calls := [.defineFunction "f" [], .invoke "f" []]
    let calls' := [.defineFunction "f" [.host .clearCache], .clearCache, .invoke "f" []]
    let run := (Machine.start { id := "host" }).performAll
      (Evaluation.runner Resolver.cached.resolve 1) calls
    let run' := (Machine.start { id := "host", statistics := true }).performAll
      (Evaluation.runner Resolver.direct.resolve 1) calls'
    run.2.cache.count = 1 ∧ run'.2.cache.count = 0 ∧
      SameSteps True True run.1 run'.1 ∧ run.2.silent.Same True run'.2.silent := by
  intro calls calls' run run'
  refine ⟨by decide +kernel +revert, by decide +kernel +revert, ?_⟩
  have hc : SameCalls True True calls calls' :=
    .cons (.defineFunction "f" (.right trivial .nil)) (.right trivial (.cons (.refl _) .nil))
  have ha : (Machine.start { id := "host" }).AvoidsAll
      (Evaluation.runner Resolver.cached.resolve 1) calls := by
    refine ⟨⟨fun h => ?_, trivial⟩, ⟨⟨fun h => ?_,
      ⟨⟨⟨fun h => ?_, ⟨fun h => ?_, trivial⟩⟩, trivial⟩, trivial⟩⟩, trivial⟩, trivial⟩
    -- the steps are: defining, acquiring a context, checking it, and resolving
    · exact h.ne_error { Machine.start { id := "" } with disposed := true } _ rfl
    · exact h.ne_error { Machine.start { id := "" } with disposed := true } _ rfl
    · obtain ⟨m, cache, hne⟩ := h.sees_cache
      exact hne rfl
    · exact h.ne_error { Machine.start { id := "" } with commands := ∅ } _ rfl
  obtain ⟨hsteps, hend, -⟩ := cache_unobservable { id := "host" } true 1 .cached .direct hc ha
  exact ⟨hsteps, hend⟩

end CommandHost
