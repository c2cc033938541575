/-
CommandHost/Proofs/Alike.lean

Evaluations that run alike.

Two programs run alike if they are built in the same way from steady steps, from
steps that show the cache and from brackets, resolve the same names, and differ in
statements that clear the cache only (`Alike`).  There is one lemma for each function
of the evaluator, in the order of its modules, about two evaluators that run alike.
The main statements are `Alike.perform`, about calls of the embedding program, and
`Runner.alike_runner`, about evaluators of bodies, which is an induction on how
deeply bodies may nest.

An evaluator runs like itself, and so its programs are bracketed (`Alike.bracketed`).
-/
import CommandHost.Proofs.Action
import CommandHost.Proofs.Variation

namespace CommandHost

open Program Eval

/-! ### Programs that run alike -/

/-- What resolving a name by the table alone comes to; a name that resolves to nothing is an
error. -/
def Machine.lookupOutcome (m : Machine) (name : String) : Except Stop Resolution :=
  match m.lookup name with
  | some r => .ok r
  | none => .error (.error (.script "" .unknownCommand (Text.quoted name)))

/-- The ways to resolve names. -/
inductive Resolver where
  /-- Through the cache. -/
  | cached
  /-- By the table alone. -/
  | direct

def Resolver.resolve : Resolver → String → Eval Resolution
  | cached => Eval.resolve
  | direct => fun name => act fun m => (m.lookupOutcome name, m)

/-- Programs that differ in how they resolve names, and in clearing the cache, only. -/
inductive Alike (clears : Prop) : {α : Type} → Eval α → Eval α → Prop
  | done {α : Type} (a : α) : Alike clears (done a) (done a)
  | stop {α : Type} (s : Stop) : Alike clears (stop s : Eval α) (stop s)
  | act {α : Type} {f g : Machine → Except Stop α × Machine} (hf : ∀ m : Machine, m.Drifts (f m).2)
      (hg : ∀ m : Machine, m.Drifts (g m).2) (h : Machine.Steady clears f g) :
      Alike clears (act f) (act g)
  | inspect {α : Type} {f : Machine → Except Stop α × Machine} (h : Inspects f) :
      Alike clears (act f) (act f)
  | resolve {α : Type} {k k' : Resolution → Eval α} (r r' : Resolver) (name : String)
      (hk : ∀ x x', SameResolution clears x x' → Alike clears (k x) (k' x')) :
      Alike clears (r.resolve name >>= k) (r'.resolve name >>= k')
  | handle {α β : Type} {p p' : Eval β} {k k' : Except Stop β → Eval α} (hp : Alike clears p p')
      (hk : ∀ r, Alike clears (k r) (k' r)) (hx : k (.error .exhausted) = .stop .exhausted) :
      Alike clears (handle p k) (handle p' k')
  | uplevel {p p' : Eval Value} (inv : Invocation) (level : Int) (hp : Alike clears p p') :
      Alike clears (Dispatch.uplevel inv level p) (Dispatch.uplevel inv level p')
  | inScope {p p' : Eval Value} (inv : Invocation) (scope : Option FrameId)
      (hp : Alike clears p p') :
      Alike clears (Dispatch.inScope inv scope p) (Dispatch.inScope inv scope p')
  | call {p p' : Eval Value} (inv : Invocation) (name : String) (params : List String)
      (args : List Value) (hp : Alike clears p p') :
      Alike clears (Dispatch.callProcedure inv name params args p)
        (Dispatch.callProcedure inv name params args p')
  /-- The one clears the cache, the other goes on. -/
  | left {α : Type} {k : Value → Eval α} {p' : Eval α} (hc : clears) (self : Runner)
      (inv : Invocation) (last : Value) (h : Alike clears (k last) p') :
      Alike clears (Evaluation.statement self inv last (.host .clearCache) >>= k) p'
  | right {α : Type} {p : Eval α} {k : Value → Eval α} (hc : clears) (self : Runner)
      (inv : Invocation) (last : Value) (h : Alike clears p (k last)) :
      Alike clears p (Evaluation.statement self inv last (.host .clearCache) >>= k)

namespace Alike

variable {clears : Prop} {α β : Type}

/-- An error of the first part ends both programs with the same error. -/
theorem bind {p p' : Eval β} {k k' : β → Eval α} (hp : Alike clears p p')
    (hk : ∀ b, Alike clears (k b) (k' b)) : Alike clears (p >>= k) (p' >>= k') := by
  refine handle hp ?_ rfl
  rintro (e | b)
  · exact stop e
  · exact hk b

theorem pure (a : α) : Alike clears (pure a : Eval α) (pure a) := done a

theorem fail (e : Error) : Alike clears (Eval.fail e : Eval α) (Eval.fail e) := stop _

theorem misuse (c : Misuse) : Alike clears (Eval.misuse c : Eval α) (Eval.misuse c) := stop _

theorem ofError : (r : Except Error α) → Alike clears (Eval.ofError r) (Eval.ofError r)
  | .ok a => done a
  | .error e => fail e

/-- A step that stays apart from commands, cache and notes. -/
theorem apart {f : Machine → Except Stop α × Machine} (hf : ∀ m : Machine, m.Drifts (f m).2)
    (h : Machine.Apart f) : Alike clears (Program.act f) (.act f) :=
  act hf hf (h.steady clears)

/-- Reading what an exchange does not change shows the same in both machines. -/
theorem read {f : Machine → α}
    (h : ∀ (m : Machine) commands cache notes, f (m.exchange commands cache notes) = f m) :
    Alike clears (Program.read f : Eval α) (.read f) := by
  refine apart (fun _ => ⟨.rest, not_false, rfl⟩) fun m commands cache notes => ?_
  rw [h]

/-- A change that commutes with an exchange leaves the machines the same. -/
theorem modify {f : Machine → Machine} (hf : ∀ m : Machine, m.Drifts (f m))
    (h : ∀ (m : Machine) commands cache notes,
      f (m.exchange commands cache notes) = (f m).exchange commands cache notes) :
    Alike clears (Program.modify f : Eval Unit) (.modify f) := by
  refine apart hf fun m commands cache notes => ?_
  rw [h]

theorem change {f : Machine → α × Machine} (hf : ∀ m : Machine, m.Drifts (f m).2)
    (h : Machine.Apart f) : Alike clears (Program.change f : Eval α) (.change f) := by
  refine apart hf fun m commands cache notes => ?_
  rw [h]

/-- A change that can fail fails on both machines or on neither. -/
theorem ofChange {f g : Machine → Except Error α × Machine}
    (hf : ∀ m : Machine, m.Drifts (f m).2) (hg : ∀ m : Machine, m.Drifts (g m).2)
    (h : Machine.Steady clears f g) : Alike clears (Eval.ofChange f) (Eval.ofChange g) := by
  -- failing or not, the step leads where the change does
  have hdrift {f : Machine → Except Error α × Machine} (hf : ∀ m : Machine, m.Drifts (f m).2)
      (m : Machine) : m.Drifts ((Eval.ofChange f).run m).2 := by
    have hm := hf m
    simp only [Eval.ofChange, run_act]
    split <;> simp_all
  refine act (hdrift hf) (hdrift hg) fun m t hs => ?_
  obtain ⟨hr, ht⟩ := h m t hs
  rcases e : f m with ⟨_ | _, _⟩
  all_goals
    rcases e' : g t with ⟨_ | _, _⟩
    all_goals
      rw [e, e'] at hr ht
      simp_all

/-- Contexts are the same in both machines, so both reads are a fault or neither is. -/
theorem readContext (id : ContextId) (f : ThreadContext → Policy → Except Accessor α) :
    Alike clears (Eval.readContext id f) (Eval.readContext id f) := by
  refine apart (fun m => ⟨.rest, not_false, ?_⟩) (Machine.apart_readContext id f)
  split <;> rfl

/-- The same note is added to notes that are the same. -/
theorem note (n : Note) : Alike clears (Eval.note n) (Eval.note n) := by
  have hdrift (m : Machine) : m.Drifts { m with notes := m.notes.push n } :=
    ⟨.channels m.writer m.output (m.notes.push n) m.log m.tallies, not_false, rfl⟩
  refine act hdrift hdrift fun m t hs => ⟨rfl, ?_⟩
  obtain ⟨commands, cache, notes, rfl, hc, hn⟩ := hs.exists_exchange
  exact ⟨hc, .push n hn, rfl⟩

theorem logHere (level : LogLevel) (message : String) (fields : List (String × String)) :
    Alike clears (Eval.logHere level message fields) (Eval.logHere level message fields) :=
  modify (fun m => ⟨.channels m.writer m.output m.notes (m.loggedHere level message fields).log m.tallies,
    not_false, rfl⟩) fun _ _ _ _ => rfl

/-- What is done at the end runs alike, whatever came before. -/
theorem always {p p' : Eval α} {restore : Eval Unit} (hr : Alike clears restore restore)
    (hp : Alike clears p p') : Alike clears (Eval.always restore p) (Eval.always restore p') :=
  handle hp (restoring_induction (P := fun q => Alike clears q q) (Q := fun q => Alike clears q q)
    (stop _) done stop fun _ hk hx => handle hr hk (hx _)) rfl

end Alike

/-- A change of a frame that changes its variables only sets them. -/
theorem Machine.exists_setVariables (m : Machine) (f : FrameId) (g : Frame → Frame)
    (hg : ∀ frame, m.frames.get? f = some frame → g frame = { frame with vars := (g frame).vars }) :
    ∃ vars, { m with frames := m.frames.modify f g } = m.after (.setVariables f vars) := by
  rcases e : m.frames.get? f with - | frame
  · -- there is no such frame, so nothing changes
    refine ⟨∅, ?_⟩
    rw [Machine.after, Frames.modify_congr (h := fun frame => { frame with vars := ∅ })]
    simp [e]
  · refine ⟨(g frame).vars, ?_⟩
    rw [Machine.after, Frames.modify_congr (h := fun fr => { fr with vars := (g frame).vars })]
    rintro fr hfr
    obtain rfl := Option.some.inj (e.symm.trans hfr)
    exact hg frame e

/-- Changing the variables of a frame is an action. -/
theorem Machine.drifts_modify (m : Machine) (f : FrameId) (g : Frame → Frame)
    (hg : ∀ frame, m.frames.get? f = some frame → g frame = { frame with vars := (g frame).vars }) :
    m.Drifts { m with frames := m.frames.modify f g } := by
  obtain ⟨vars, e⟩ := m.exists_setVariables f g hg
  exact ⟨.setVariables f vars, not_false, e⟩

namespace Alike

variable {clears : Prop} {α : Type}

/-! ### Variables -/

theorem required : (f : Option FrameId) →
    Alike clears (Invocation.required f) (Invocation.required f)
  | some f => done f
  | none => misuse _

theorem frame (inv : Invocation) : Alike clears inv.frame inv.frame :=
  bind (readContext _ _) required

theorem globalFrame (inv : Invocation) : Alike clears inv.globalFrame inv.globalFrame :=
  bind (readContext _ _) required

/-- The frame of a variable is found through the context alone. -/
theorem home (inv : Invocation) (name : String) : Alike clears (inv.home name) (inv.home name) := by
  unfold Invocation.home
  split
  · exact bind (globalFrame inv) fun _ => pure _
  · exact bind (frame inv) fun _ => pure _

/-- A variable has the same value in both machines, or is missing in both. -/
theorem getVar (inv : Invocation) (name : String) :
    Alike clears (inv.getVar name) (inv.getVar name) := by
  refine bind (home inv name) fun b => bind (read fun _ _ _ _ => rfl) fun v => ?_
  cases v with
  | some v => exact pure v
  | none => exact fail _

theorem setVar (inv : Invocation) (name : String) (v : Value) :
    Alike clears (inv.setVar name v) (inv.setVar name v) :=
  bind (home inv name) fun _ =>
    modify (fun m => m.drifts_modify _ _ fun _ _ => rfl) fun _ _ _ _ => rfl

/-- A variable that is unset is removed from its frame, and nothing else changes. -/
theorem unsetVar (inv : Invocation) (name : String) :
    Alike clears (inv.unsetVar name) (inv.unsetVar name) := by
  refine bind (home inv name) fun ⟨f, inner⟩ => apart (fun m => ?_) fun m commands cache notes => ?_
  swap
  · -- an exchange leaves the frames as they are
    have hframes : (m.exchange commands cache notes).frames = m.frames := rfl
    simp only [hframes]
    split <;> rfl
  rcases e : m.frames.get? f with - | frame
  · exact ⟨.rest, not_false, by simp [Machine.after]⟩
  rcases hu : frame.unset? inner with - | frame'
  · exact ⟨.rest, not_false, by simp [hu, Machine.after]⟩
  · have hd := m.drifts_modify f (fun _ => frame') fun fr hfr => by
      obtain rfl := Option.some.inj (e.symm.trans hfr)
      exact Frame.eq_of_unset? hu
    simpa [e, hu] using hd

/-- The new value is computed from the old one, which is the same in both machines. -/
theorem updateVar (inv : Invocation) (name : String) (new : Option Value → Except Error Value) :
    Alike clears (inv.updateVar name new) (inv.updateVar name new) := by
  refine bind (home inv name) fun ⟨f, inner⟩ => apart (fun m => ?_) fun m commands cache notes => ?_
  swap
  · -- the table, the cache and the notes have no part in it
    have hframes : (m.exchange commands cache notes).frames = m.frames := rfl
    simp only [hframes]
    split
    · rfl
    · split <;> rfl
  rcases e : m.frames.get? f with - | frame
  · exact ⟨.rest, not_false, by simp [Machine.after]⟩
  rcases hu : frame.update inner new with err | ⟨v, frame'⟩
  · exact ⟨.rest, not_false, by simp [hu, Machine.after]⟩
  · have hd := m.drifts_modify f (fun _ => frame') fun fr hfr => by
      obtain rfl := Option.some.inj (e.symm.trans hfr)
      exact Frame.eq_of_update hu
    simpa [e, hu] using hd

theorem level (inv : Invocation) : Alike clears inv.level inv.level :=
  bind (frame inv) fun _ => read fun _ _ _ _ => rfl

/-! ### The command table -/

/-- The commands that are defined may differ in clearing. -/
theorem define (name : String) {c c' : Command} (h : SameCommand clears c c') :
    Alike clears (Eval.define name (some c)) (Eval.define name (some c')) :=
  ofChange (fun _ => ⟨.define name c, not_false, rfl⟩) (fun _ => ⟨.define name c', not_false, rfl⟩)
    (Machine.steady_define name h)

theorem delete (name : String) : Alike clears (Eval.delete name) (Eval.delete name) :=
  have h (m : Machine) : m.Drifts (m.delete name).2 := ⟨.delete name, not_false, rfl⟩
  ofChange h h (Machine.steady_delete name)

theorem rename (old new : String) : Alike clears (Eval.rename old new) (Eval.rename old new) :=
  have h (m : Machine) : m.Drifts (m.rename old new).2 := ⟨.rename old new, not_false, rfl⟩
  ofChange h h (Machine.steady_rename old new)

theorem acquire (create : Bool) :
    Alike clears (Eval.ofChange (·.acquire create)) (Eval.ofChange (·.acquire create)) :=
  have h (m : Machine) : m.Drifts (m.acquire create).2 := ⟨.acquire create, not_false, rfl⟩
  ofChange h h ((Machine.apart_acquire create).steady clears)

/-- Getting a context depends on threads and contexts, and so not on the cache. -/
theorem context : Alike clears Eval.context Eval.context := by
  have hdrift (m : Machine) : m.Drifts (if m.disposed then
      (Except.error (Error.misuse .interpreterDisposed), m) else m.acquire true).2 := by
    split
    · exact ⟨.rest, not_false, rfl⟩
    · exact ⟨.acquire true, not_false, rfl⟩
  refine ofChange hdrift hdrift (Machine.Apart.steady (fun m commands cache notes => ?_) clears)
  have hdisposed : (m.exchange commands cache notes).disposed = m.disposed := rfl
  simp only [hdisposed]
  split
  · rfl
  · exact Machine.apart_acquire true m commands cache notes

/-- The names of the commands. -/
theorem names : Alike clears (Program.read fun m => m.commands.names : Eval (List String))
    (.read fun m => m.commands.names) := by
  have hdrift (m : Machine) : m.Drifts m := ⟨.rest, not_false, rfl⟩
  refine act hdrift hdrift fun m t hs => ⟨?_, hs⟩
  simp only [Table.names, hs.commands.keys_eq]

/-! ### Builtin commands -/

theorem wrongArgs (inv : Invocation) (usage : String) :
    Alike clears (Builtin.wrongArgs inv usage : Eval α) (Builtin.wrongArgs inv usage) :=
  fail _

theorem unsetAll (inv : Invocation) (args : List Value) :
    Alike clears (Builtin.unsetAll inv args) (Builtin.unsetAll inv args) := by
  induction args with
  | nil => exact done ()
  | cons v vs ih => exact bind (unsetVar inv _) fun _ => ih

theorem writeLine (inv : Invocation) (s : String) :
    Alike clears (Builtin.writeLine inv s) (Builtin.writeLine inv s) := by
  exact apart (fun m => ⟨.channels (m.handOver _).writer (m.handOver _).output m.notes m.log m.tallies,
    not_false, rfl⟩) fun _ _ _ _ => rfl

/-- Questions about the cache are the ones that may be answered differently. -/
theorem inform (inv : Invocation) (topic : String) (rest : List Value) :
    Alike clears (Builtin.inform inv topic rest) (Builtin.inform inv topic rest) := by
  unfold Builtin.inform
  split
  · exact bind names fun _ => pure _
  · split
    · refine handle (getVar inv _) ?_ rfl
      rintro ((e | a | -) | v)
      · exact done _
      · exact stop _
      · exact stop _
      · exact done _
    · exact wrongArgs inv _
  · exact bind (level inv) fun _ => pure _
  · exact bind (inspect .count) fun _ => pure _
  · split
    · exact bind (inspect (.cached _)) fun _ => pure _
    · exact wrongArgs inv _
  · exact fail _

/-- Builtin commands are the same programs on both sides, and each of their steps is one of the
above. -/
theorem builtin (b : Builtin) (inv : Invocation) (args : List Value) :
    Alike clears (b.run inv args) (b.run inv args) := by
  cases b with
  | set =>
    simp only [Builtin.run]
    split
    · exact getVar inv _
    · exact bind (setVar inv _ _) fun _ => pure _
    · exact wrongArgs inv _
  | unset => exact bind (unsetAll inv args) fun _ => pure _
  | incr =>
    simp only [Builtin.run]
    split
    · exact updateVar inv _ _
    · exact bind (ofError _) fun n => updateVar inv _ _
    · exact wrongArgs inv _
  | append =>
    cases args with
    | nil => exact wrongArgs inv _
    | cons name parts =>
      simp only [Builtin.run]
      exact updateVar inv _ _
  | puts =>
    simp only [Builtin.run]
    split
    · exact bind (writeLine inv _) fun _ => pure _
    · exact wrongArgs inv _
  | rename =>
    simp only [Builtin.run]
    split
    · exact bind (rename _ _) fun _ => pure _
    · exact wrongArgs inv _
  | ret =>
    simp only [Builtin.run]
    split
    · exact fail _
    · exact fail _
    · exact wrongArgs inv _
  | info =>
    cases args with
    | nil => exact wrongArgs inv _
    | cons topic rest => exact inform inv _ _

/-! ### Dispatch -/

/-- A return is turned into an error on both sides. -/
theorem topLevel {p p' : Eval Value} (hp : Alike clears p p') :
    Alike clears (Dispatch.topLevel p) (Dispatch.topLevel p') := by
  refine handle hp ?_ rfl
  rintro ((e | a | -) | v)
  · dsimp only
    split
    · exact fail _
    · exact fail e
  · exact stop _
  · exact stop _
  · exact done v

/-- A fault is logged and reported on both sides. -/
theorem reportFault {p p' : Eval Value} (name : String) (hp : Alike clears p p') :
    Alike clears (Dispatch.reportFault name p) (Dispatch.reportFault name p') := by
  refine handle hp ?_ rfl
  rintro ((e | a | -) | v)
  · exact stop _
  · exact bind (logHere _ _ _) fun _ => fail _
  · exact stop _
  · exact done v

theorem square (inv : Invocation) (args : List Value) :
    Alike clears (Dispatch.square inv args) (Dispatch.square inv args) := by
  unfold Dispatch.square
  split
  · split
    · exact done _
    · exact fail _
  · exact fail _

theorem countUnknown (run : Nat) :
    Alike clears (Dispatch.countUnknown run) (Dispatch.countUnknown run) :=
  modify (fun m => ⟨.channels m.writer m.output m.notes m.log _, not_false, rfl⟩) fun _ _ _ _ => rfl

end Alike

/-- Runners that resolve names in one of the two ways, and run the same bodies alike. -/
structure Runner.Alike (clears : Prop) (r r' : Runner) : Prop where
  resolve : ∃ s s' : Resolver, r.resolve = s.resolve ∧ r'.resolve = s'.resolve
  body : ∀ inv {b b'}, SameBody clears b b' →
    CommandHost.Alike clears (r.body inv b) (r'.body inv b')

namespace Alike

variable {clears : Prop} {self self' : Runner}

/-- Commands that are the same run alike: the builtin ones as they are, the others by their bodies.
-/
theorem execute (h : self.Alike clears self') {c c' : Command} (hc : SameCommand clears c c')
    (inv : Invocation) (args : List Value) :
    Alike clears (Dispatch.execute self c inv args) (Dispatch.execute self' c' inv args) := by
  cases hc with
  | builtin b => exact builtin b inv args
  | function hb => exact h.body _ hb
  | procedure name params hb => exact call inv name params args (h.body _ hb)
  | square => exact square inv args
  | tally run => exact bind (countUnknown run) fun _ => pure _

/-- For an unknown name the commands for unknown names run alike. -/
theorem executeResolved (h : self.Alike clears self') {r r' : Resolution}
    (hr : SameResolution clears r r') (inv : Invocation) (args : List Value) :
    Alike clears (Dispatch.executeResolved self r inv args)
      (Dispatch.executeResolved self' r' inv args) := by
  cases hr with
  | direct hc => exact execute h hc inv args
  | unknown hc name => exact execute h hc inv _

/-- An invocation resolves its name in the one way or in the other, and goes on with commands that
are the same. -/
theorem invoke (h : self.Alike clears self') (id : Option ContextId) (name : String)
    (args : List Value) :
    Alike clears (Dispatch.invoke self id name args) (Dispatch.invoke self' id name args) := by
  refine reportFault name (bind (read fun _ _ _ _ => rfl) fun usable => ?_)
  cases id with
  | none => exact misuse _
  | some context =>
    cases usable with
    | true =>
      obtain ⟨s, s', hs, hs'⟩ := h.resolve
      rw [hs, hs']
      -- the two resolutions need not be equal, only the same
      exact resolve s s' name fun r r' hr => executeResolved h hr _ args
    | false => exact misuse _

theorem invokeHere (h : self.Alike clears self') (name : String) (args : List Value) :
    Alike clears (Dispatch.invokeHere self name args) (Dispatch.invokeHere self' name args) :=
  bind context fun id => topLevel (invoke h (some id) name args)

/-- A disposed interpreter refuses on both sides. -/
theorem invokeIn (h : self.Alike clears self') (id : Option ContextId) (name : String)
    (args : List Value) :
    Alike clears (Dispatch.invokeIn self id name args) (Dispatch.invokeIn self' id name args) := by
  refine bind (read fun _ _ _ _ => rfl) fun disposed => ?_
  cases disposed with
  | true => exact misuse _
  | false => exact topLevel (invoke h id name args)

/-! ### The load generator -/

theorem count (run : Nat) (f : Tally → Tally) :
    Alike clears (LoadGenerator.count run f) (LoadGenerator.count run f) :=
  modify (fun m => ⟨.channels m.writer m.output m.notes m.log _, not_false, rfl⟩) fun _ _ _ _ => rfl

theorem log (level : LogLevel) (message : String) (fields : List (String × String)) :
    Alike clears (LoadGenerator.log level message fields)
      (LoadGenerator.log level message fields) :=
  modify (fun m => ⟨.channels m.writer m.output m.notes _ m.tallies, not_false, rfl⟩) fun _ _ _ _ => rfl

theorem forM_range (workers : Nat) {f : Nat → Eval Unit} (hf : ∀ w, Alike clears (f w) (f w)) :
    Alike clears ((List.range workers).forM f) ((List.range workers).forM f) := by
  induction List.range workers with
  | nil => exact pure ()
  | cons w ws ih => exact bind (hf w) fun _ => ih

theorem setup (run workers : Nat) :
    Alike clears (LoadGenerator.setup run workers) (LoadGenerator.setup run workers) :=
  bind (define _ (.refl _)) fun _ => bind (forM_range workers fun _ => define _ .square) fun _ =>
    define _ (.tally run)

/-- Calls of the load generator count alike. -/
theorem generatedCall (h : self.Alike clears self') (run : Nat) (name : String)
    (args : List Value) :
    Alike clears (LoadGenerator.call self run name args)
      (LoadGenerator.call self' run name args) := by
  refine handle (invokeHere h name args) ?_ rfl
  rintro ((e | a | -) | v)
  · exact fail _
  · exact stop _
  · exact stop _
  · exact bind (count run _) fun _ => pure v

/-- Commands that come and go by name are seen alike in both tables. -/
theorem churn (run worker : Nat) :
    Alike clears (LoadGenerator.churn run worker) (LoadGenerator.churn run worker) := by
  refine bind (define _ .square) fun _ => bind (rename _ _) fun _ => bind (rename _ _) fun _ =>
    bind (count run _) fun _ => ?_
  split
  · exact bind (define _ (.tally run)) fun _ => count run _
  · exact pure ()

theorem workerFields (worker : Nat) :
    Alike clears (LoadGenerator.workerFields worker) (LoadGenerator.workerFields worker) :=
  bind (read fun _ _ _ _ => rfl) fun _ => pure _

/-- A round of calls, with a churn now and then. -/
theorem round (h : self.Alike clears self') (run worker : Nat) (churnEvery : Int) (i : Nat) :
    Alike clears (LoadGenerator.round self run worker churnEvery i)
      (LoadGenerator.round self' run worker churnEvery i) := by
  -- what comes at the end of the round, with or without a wrong square
  let churned : Eval Unit := if 0 < churnEvery ∧ i % churnEvery = churnEvery - 1 then do
      LoadGenerator.churn run worker
      LoadGenerator.log .debug "commands churned"
        ((← LoadGenerator.workerFields worker) ++ [("iteration", Number.intText i)])
    else Pure.pure ()
  have hchurned : Alike clears churned churned := by
    unfold churned
    split
    · exact bind (churn run worker) fun _ => bind (workerFields worker) fun _ => log _ _ _
    · exact pure ()
  refine bind (generatedCall h run _ _) fun _ => bind (generatedCall h run _ _) fun _ =>
    bind (generatedCall h run _ _) fun v => ?_
  dsimp only
  -- a wrong square ends the round
  split
  · exact bind (fail _) fun _ => bind (generatedCall h run _ _) fun _ => hchurned
  · exact bind (generatedCall h run _ _) fun _ => hchurned

/-- By induction on the rounds that are left. -/
theorem rounds (h : self.Alike clears self') (run worker : Nat) (churnEvery : Int)
    (cancelled : Bool) (i left : Nat) :
    Alike clears (LoadGenerator.rounds self run worker churnEvery cancelled i left)
      (LoadGenerator.rounds self' run worker churnEvery cancelled i left) := by
  induction left generalizing i with
  | zero => exact done ()
  | succ left ih =>
    have hround := bind (round h run worker churnEvery i) fun _ => ih (i + 1)
    unfold LoadGenerator.rounds
    dsimp only
    split
    · exact bind (fail _) fun _ => hround
    · exact hround

theorem release : Alike clears (Program.change (·.release) : Eval Bool) (.change (·.release)) :=
  change (fun _ => ⟨.release, not_false, rfl⟩) Machine.apart_release

theorem switchThread (id : ThreadId) :
    Alike clears (Program.modify fun m => { m with thread := id } : Eval Unit)
      (.modify fun m => { m with thread := id }) :=
  modify (fun _ => ⟨.switchThread id, not_false, rfl⟩) fun _ _ _ _ => rfl

/-- Releasing the thread at the end is a step like the others. -/
theorem worker (h : self.Alike clears self') (run : Nat) (size : Load) (cancelled : Bool)
    (w : Nat) :
    Alike clears (LoadGenerator.worker self run size cancelled w)
      (LoadGenerator.worker self' run size cancelled w) :=
  always (bind release fun _ => pure ())
    (bind (workerFields w) fun _ => bind (log _ _ _) fun _ => bind (rounds h run w _ _ _ _) fun _ =>
      bind (workerFields w) fun _ => log _ _ _)

theorem onThread (thread : ThreadId) (native : Bool) (w : Nat) {p p' : Eval Unit}
    (hp : Alike clears p p') :
    Alike clears (LoadGenerator.onThread thread native w p)
      (LoadGenerator.onThread thread native w p') := by
  unfold LoadGenerator.onThread
  split
  · exact bind (switchThread _) fun _ => always (switchThread thread) hp
  · exact hp

/-- By induction on the workers; the first error is the same on both sides. -/
theorem runWorkers (h : self.Alike clears self') (run : Nat) (size : Load) (thread : ThreadId)
    (native : Bool) (first : Option Error) (ws : List Nat) :
    Alike clears (LoadGenerator.runWorkers self run size thread native first ws)
      (LoadGenerator.runWorkers self' run size thread native first ws) := by
  induction ws generalizing first with
  | nil =>
    cases first with
    | none => exact done ()
    | some e => exact fail e
  | cons w ws ih =>
    refine handle (onThread thread native w (worker h run size _ w)) ?_ rfl
    rintro ((e | a | -) | -)
    · exact ih _
    · exact stop _
    · exact stop _
    · exact ih first

/-- A run of the load generator. -/
theorem load (h : self.Alike clears self') (size : Load) :
    Alike clears (LoadGenerator.run self size) (LoadGenerator.run self' size) := by
  refine bind (change (fun m => ⟨.channels m.writer m.output m.notes m.log _, not_false, rfl⟩)
    fun _ _ _ _ => rfl) fun n => handle (setup n _) ?_ rfl
  rintro ((e | a | -) | -)
  · exact fail _
  · exact stop _
  · exact stop _
  · exact bind (log _ _ _) fun _ => bind (read fun _ _ _ _ => rfl) fun _ =>
      bind (read fun _ _ _ _ => rfl) fun _ => bind (runWorkers h n size _ _ none _) fun _ =>
      bind (read fun _ _ _ _ => rfl) fun _ => bind (log _ _ _) fun _ => pure _

/-! ### Calls of the embedding program -/

theorem contextOf (running : Option ContextId) (ref : ContextRef) :
    Alike clears (Host.contextOf running ref) (Host.contextOf running ref) := by
  cases ref with
  | running => exact done running
  | saved name => exact read fun _ _ _ _ => rfl

/-- All that is shown of a context is read from it, or is the name of a frame. -/
theorem view (id : ContextId) : Alike clears (Host.view id) (Host.view id) := by
  have name (f : Option FrameId) : Alike clears
      (Program.read fun m => f.map m.frameName : Eval (Option String))
      (.read fun m => f.map m.frameName) := read fun _ _ _ _ => rfl
  refine bind (readContext _ _) fun _ => bind (readContext _ _) fun _ =>
    bind (read fun _ _ _ _ => rfl) fun _ =>
    bind (readContext _ _) fun _ => bind (name _) fun _ => bind (readContext _ _) fun _ =>
    bind (name _) fun _ => bind (readContext _ _) fun _ => bind (name _) fun _ =>
    bind (readContext _ _) fun _ => bind (name _) fun _ => bind (readContext _ _) fun _ =>
    bind (name _) fun _ => bind (readContext _ _) fun _ => bind (name _) fun _ =>
    bind (readContext _ _) fun _ => bind (read fun _ _ _ _ => rfl) fun _ => pure _

theorem showContext (id : ContextId) (saveAs : Option String) :
    Alike clears (Host.showContext id saveAs) (Host.showContext id saveAs) := by
  refine bind (change (fun m => ?_) fun m _ _ _ => ?_) fun _ =>
    bind (read fun _ _ _ _ => rfl) fun _ => pure _
  · cases saveAs with
    | none => exact ⟨.rest, not_false, rfl⟩
    | some name => exact ⟨.names _ m.scopes, not_false, rfl⟩
  · cases saveAs <;> rfl

/-- Calls of the embedding program run alike. -/
theorem perform (h : self.Alike clears self') (running : Option ContextId) {c c' : HostCall}
    (hc : SameCall clears c c') :
    Alike clears (Host.perform self running c) (Host.perform self' running c') := by
  cases hc with
  | defineFunction name hb => exact bind (define name (.function hb)) fun _ => pure _
  | defineProcedure name params hb =>
    exact bind (define name (.procedure name params hb)) fun _ => pure _
  | setUnknown hb => exact bind (define _ (.function hb)) fun _ => pure _
  | simple hsimple =>
    cases c with
    -- a call with a body in it is none of the simple ones
    | defineFunction => cases hsimple
    | defineProcedure name params body =>
      cases body with
      | some b => cases hsimple
      | none => exact bind (misuse _) fun _ => pure _
    | setUnknown body =>
      cases body with
      | some b => cases hsimple
      | none => exact bind (misuse _) fun _ => pure _
    | defineNothing name => exact bind (misuse _) fun _ => pure _
    | invoke name args => exact bind (invokeHere h name args) fun _ => pure _
    | invokeIn ref name args =>
      exact bind (contextOf running ref) fun _ => bind (invokeIn h _ name args) fun _ => pure _
    | delete name => exact bind (delete name) fun _ => pure _
    | rename old new => exact bind (rename old new) fun _ => pure _
    | commands => exact bind names fun _ => pure _
    | cacheCount => exact bind (inspect .count) fun _ => pure _
    | cacheReport zeros => exact bind (inspect (.report zeros)) fun _ => pure _
    | haveCacheCounts => exact bind (inspect .haveCounts) fun _ => pure _
    | statistics => exact bind (inspect .counters) fun _ => pure _
    | clearCache =>
      -- both machines clear, so their caches may still differ, and nothing else
      have hdrift (m : Machine) : m.Drifts m.clearCache := ⟨.clearCache, not_false, rfl⟩
      exact bind (act hdrift hdrift fun m t hs => ⟨rfl, hs.commands, hs.notes, by
        rw [hs.rest]; rfl⟩) fun _ => pure _
    | switchThread id => exact bind (switchThread id) fun _ => pure _
    | context saveAs => exact bind context fun id => showContext id saveAs
    | lookupContext saveAs => exact bind (acquire false) fun id => showContext id saveAs
    | release => exact bind release fun _ => pure _
    | dispose =>
      have hdrift (m : Machine) : m.Drifts m.dispose := ⟨.dispose, not_false, rfl⟩
      exact bind (act hdrift hdrift fun m t hs => ⟨rfl, (Machine.steady_dispose m t hs).2⟩)
        fun _ => pure _
    | freeContext ref shared =>
      refine bind (contextOf running ref) fun id => ?_
      cases id with
      | some id =>
        exact bind (modify (fun _ => ⟨.freeContext id shared, not_false, rfl⟩) fun _ _ _ _ => rfl)
          fun _ => pure _
      | none => exact pure _
    | disposeContext ref =>
      refine bind (contextOf running ref) fun id => ?_
      cases id with
      | some id =>
        exact bind (modify (fun _ => ⟨.disposeContext id, not_false, rfl⟩) fun _ _ _ _ => rfl)
          fun _ => pure _
      | none => exact pure _
    | contextStage ref =>
      exact bind (contextOf running ref) fun _ => bind (read fun _ _ _ _ => rfl) fun _ => pure _
    | slots ref =>
      refine bind (contextOf running ref) fun id => ?_
      cases id with
      | some id => exact bind (view id) fun _ => pure _
      | none => exact stop _
    | makeScope name level =>
      exact bind (change (fun _ => ⟨.newFrame _, not_false, rfl⟩) fun _ _ _ _ => rfl) fun f =>
        bind (modify (fun m => ⟨.names m.saved _, not_false, rfl⟩) fun _ _ _ _ => rfl)
          fun _ => pure _
    | globals | scopeVariables name => exact read fun _ _ _ _ => rfl
    | load size => exact bind (load h size) fun _ => pure _
    | contextCount | isDisposed | outputCaptured =>
      exact bind (read fun _ _ _ _ => rfl) fun _ => pure _

/-! ### Bodies -/

theorem operand (inv : Invocation) (last : Value) (e : Expr) :
    Alike clears (Evaluation.operand inv last e) (Evaluation.operand inv last e) := by
  cases e with
  | var name => exact getVar inv name
  | value | arg | argCount | last | commandName => exact done _

theorem operands (inv : Invocation) (last : Value) (es : List Expr) :
    Alike clears (Evaluation.operands inv last es) (Evaluation.operands inv last es) := by
  induction es with
  | nil => exact done []
  | cons e es ih => exact bind (operand inv last e) fun _ => bind ih fun _ => pure _

theorem viewFrame (inv : Invocation) :
    Alike clears (Evaluation.viewFrame inv) (Evaluation.viewFrame inv) :=
  bind (frame inv) fun _ => bind (globalFrame inv) fun _ => read fun _ _ _ _ => rfl

/-- Statements with bodies run alike because their bodies do; all others are the same on both sides.
-/
theorem statement (h : self.Alike clears self') (inv : Invocation) (last : Value) {s s' : Stmt}
    (hs : SameStmt clears s s') :
    Alike clears (Evaluation.statement self inv last s)
      (Evaluation.statement self' inv last s') := by
  cases hs with
  | catchError hb =>
    refine handle (h.body inv hb) ?_ rfl
    rintro ((e | a | -) | v)
    · exact done _
    · exact stop _
    · exact stop _
    · exact done v
  | wrap label hb =>
    refine handle (h.body inv hb) ?_ rfl
    rintro ((e | a | -) | v)
    · exact fail _
    · exact stop _
    · exact stop _
    · exact done v
  | branch condition hyes hno =>
    refine bind (operand inv last condition) fun v => ?_
    split
    · exact h.body inv hyes
    · exact h.body inv hno
    · exact fail _
  | uplevel n hb => exact uplevel inv n (h.body inv hb)
  | inScope scope hb =>
    exact bind (read fun _ _ _ _ => rfl) fun f => inScope inv f (h.body inv hb)
  | host hc =>
    refine handle (perform h (some inv.context) hc) ?_ rfl
    rintro ((e | a | -) | v)
    · exact bind (note _) fun _ => pure _
    · exact bind (note _) fun _ => pure _
    · exact stop _
    · exact bind (note _) fun _ => pure _
  | simple hsimple =>
    cases s with
    | value e => exact operand inv last e
    | invoke name args =>
      exact bind (operand inv last name) fun _ => bind (operands inv last args) fun _ =>
        invoke h _ _ _
    | get name => exact bind (operand inv last name) fun _ => getVar inv _
    | set name e =>
      exact bind (operand inv last name) fun _ => bind (operand inv last e) fun _ =>
        bind (setVar inv _ _) fun _ => pure _
    | unset name =>
      exact bind (operand inv last name) fun _ => bind (unsetVar inv _) fun _ => pure _
    | level => exact bind (level inv) fun _ => pure _
    | ret e => exact bind (operand inv last e) fun _ => fail _
    | fail message => exact fail _
    | note e => exact bind (operand inv last e) fun _ => bind (note _) fun _ => pure _
    | noteFrame => exact bind (viewFrame inv) fun _ => bind (note _) fun _ => pure _
    | catchError | wrap | branch | uplevel | inScope | host => cases hsimple

/-- Statements that only one of two bodies has clear the cache. -/
theorem statements (h : self.Alike clears self') (inv : Invocation) {b b' : List Stmt} :
    SameBody clears b b' → (last : Value) → Alike clears (Evaluation.statements self inv last b)
      (Evaluation.statements self' inv last b')
  | .nil, last => done last
  | .cons hs hb, last => bind (statement h inv last hs) fun v => statements h inv hb v
  | .left hc hb, last => left hc self inv last (statements h inv hb last)
  | .right hc hb, last => right hc self' inv last (statements h inv hb last)

end Alike

namespace Runner

/-- Evaluators of bodies run alike, however they resolve names. -/
theorem alike_runner (clears : Prop) (s s' : Resolver) (depth : Nat) :
    (Evaluation.runner s.resolve depth).Alike clears (Evaluation.runner s'.resolve depth) := by
  induction depth with
  | zero => exact ⟨⟨s, s', rfl, rfl⟩, fun _ _ _ _ => .stop _⟩
  | succ depth ih => exact ⟨⟨s, s', rfl, rfl⟩, fun inv _ _ hb => .statements ih inv hb .empty⟩

end Runner

/-! ### Brackets -/

/-- To look at the cache moves no context between frames; asking for a name counts as a question
there. -/
theorem Inspects.drifts {α : Type} {f : Machine → Except Stop α × Machine} (h : Inspects f)
    (m : Machine) : m.Drifts (f m).2 := by
  cases h with
  | cached name => exact ⟨.askCache name, not_false, rfl⟩
  | count | report | haveCounts | counters => exact ⟨.rest, not_false, rfl⟩

/-- Both ways to resolve a name are a single step. -/
theorem Resolver.bracketed (s : Resolver) (name : String) : Bracketed (s.resolve name) := by
  cases s with
  | cached =>
    refine .act fun m => ⟨.resolve name, not_false, ?_⟩
    rcases h : m.resolve name with ⟨_ | r, t⟩ <;> simp [Machine.after, h]
  | direct => exact .act fun _ => ⟨.rest, not_false, rfl⟩

/-- A program that runs like some program, clearing included, is bracketed. -/
theorem Alike.bracketed {α : Type} {p p' : Eval α} (h : Alike False p p') : Bracketed p := by
  induction h with
  | done a => exact .done a
  | stop s => exact .stop s
  | act hf => exact .act hf
  | inspect h => exact .act h.drifts
  | resolve s s' name _ ih => exact .bind (s.bracketed name) fun r => ih r r (.refl r)
  -- the other program is not looked at
  | handle _ _ hx ihp ihk => exact .handle ihp ihk hx
  | uplevel inv level _ ih => exact .uplevel inv level ih
  | inScope inv scope _ ih => exact .inScope inv scope ih
  | call inv name params args _ ih => exact .call inv name params args ih
  | left hc | right hc => exact hc.elim

/-- The evaluator runs like itself. -/
theorem Runner.alike_cached (depth : Nat) :
    (Evaluation.cached depth).Alike False (Evaluation.cached depth) :=
  alike_runner False .cached .cached depth

/-- Calls of the embedding program are bracketed. -/
theorem Bracketed.perform (depth : Nat) (running : Option ContextId) (c : HostCall) :
    Bracketed (Host.perform (Evaluation.cached depth) running c) :=
  (Alike.perform (Runner.alike_cached depth) running (.refl c)).bracketed

end CommandHost
