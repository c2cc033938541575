/-
CommandHost/Proofs/Leniency.lean

The disposed policy matters for disposed contexts only.

The policy is asked by the accessors of contexts, and by nothing else.  So every
atomic step that does not end with a fault does the same under the permissive policy
(`Atom.evenHanded`), where no step faults that did not fault before.  A run that raises
no fault then takes the same steps under both policies, in lockstep: it gives the same
answers, and the machines differ in the policy only.
-/
import CommandHost.Proofs.Composition
import CommandHost.Proofs.Transparency

namespace CommandHost

open Program Eval Dispatch

/-! ### Runs without faults -/

/-- The outcome is a fault. -/
def isFault {α : Type} : Except Stop α → Bool
  | .error (.fault _) => true
  | _ => false

/-- No step of the run raises a fault. -/
def faultless : {α : Type} → Eval α → Machine → Bool
  | _, .done _, _ => true
  | _, .stop _, _ => true
  | _, .act f, m => !isFault (f m).1
  | _, .handle p k, m => faultless p m && faultless (k (p.run m).1) (p.run m).2

/-- A run that raises no fault comes to the same under the permissive policy. -/
def EvenHanded {α : Type} (p : Eval α) : Prop :=
  ∀ m : Machine, faultless p m = true →
    p.run (m.under .permissive) = ((p.run m).1, (p.run m).2.under .permissive)

/-! ### Steps -/

namespace Machine

/-- The permissive policy makes no touch a fault. -/
theorem not_faults_under {m : Machine} {id : ContextId} (h : ¬ m.Faults id) :
    ¬ (m.under .permissive).Faults id := by
  rintro ⟨hd, hp⟩
  have hd : (m.context id).disposed = true := hd
  refine h ⟨hd, ?_⟩
  -- the context is missing, or the policy would not be strict
  rcases hc : m.context? id with - | c
  · simp [policyFor, hc]
  · have hc' : (m.under .permissive).context? id = some c := hc
    simp only [policyFor, hc', Option.isSome_some, if_true] at hp
    exact absurd (show Policy.permissive = .strict from hp) (by simp)

/-- Resolving a name asks the cache and the table. -/
theorem blind_resolve (name : String) : Blind (·.resolve name) := by
  intro m p
  show (m.under p).resolve name = _
  have hcache : (m.under p).cache = m.cache := rfl
  simp only [resolve, hcache]
  split <;> rfl

theorem blind_define (name : String) (c : Command) : Blind (·.define name c) := by
  intro m p
  have hdisposed : (m.under p).disposed = m.disposed := rfl
  simp only [define, hdisposed]
  split <;> rfl

theorem blind_delete (name : String) : Blind (·.delete name) := by
  intro m p
  have hcommands : (m.under p).commands = m.commands := rfl
  simp only [delete, hcommands]
  split <;> rfl

/-- An empty new name deletes the command, and otherwise the table decides. -/
theorem blind_rename (old new : String) : Blind (·.rename old new) := by
  intro m p
  have hcommands : (m.under p).commands = m.commands := rfl
  simp only [rename, hcommands]
  split
  · exact m.blind_delete old p
  · split
    · rfl
    · split <;> rfl

/-- Threads and the table of contexts decide which context is found. -/
theorem blind_acquire (create : Bool) : Blind (·.acquire create) := by
  intro m p
  have huse (id : Option ContextId) : (m.under p).canUse id = m.canUse id := rfl
  have hprevious : (m.under p).previous = m.previous := rfl
  have htable : (m.under p).tableContext? = m.tableContext? := rfl
  simp only [acquire, huse, hprevious, htable]
  split
  · split <;> rfl
  · split
    · rfl
    · split <;> rfl

theorem blind_release : Blind release := by
  intro m p
  have htable : (m.under p).byThread = m.byThread := rfl
  have hthread : (m.under p).thread = m.thread := rfl
  simp only [release, htable, hthread]
  split <;> rfl

/-- Contexts are purged one after the other, by induction on them. -/
theorem under_purge (m : Machine) (p : Policy) : (m.under p).purge = m.purge.under p := by
  have hfold (ids : List ContextId) (t : Machine) :
      ids.foldl (fun m id => (m.freeContext id true).disposeContext id) (t.under p) =
        (ids.foldl (fun m id => (m.freeContext id true).disposeContext id) t).under p := by
    induction ids generalizing t with
    | nil => rfl
    | cons id ids ih => exact ih ((t.freeContext id true).disposeContext id)
  exact hfold _ { m with byThread := ∅, previous := none }

theorem under_dispose (m : Machine) (p : Policy) : (m.under p).dispose = m.dispose.under p := by
  have hdisposed : (m.under p).disposed = m.disposed := rfl
  have hpurge : { m.under p with disposed := true }.purge =
      ({ m with disposed := true }.purge).under p := under_purge { m with disposed := true } p
  simp only [dispose, hdisposed, hpurge]
  split <;> rfl

end Machine

/-- The program of a change that does not ask for the policy. -/
theorem run_ofChange_under {α : Type} {f : Machine → Except Error α × Machine}
    (hf : Machine.Blind f) (m : Machine) (p : Policy) :
    (ofChange f).run (m.under p) = (((ofChange f).run m).1, ((ofChange f).run m).2.under p) := by
  rcases e : f m with ⟨_ | _, _⟩ <;> simp [ofChange, hf m p, e]

/-- A step that faults is a fault of the run. -/
theorem not_faultless_act {α : Type} {f : Machine → Except Stop α × Machine} {m : Machine}
    {a : Accessor} (h : (f m).1 = .error (.fault a)) : faultless (act f) m ≠ true := by
  simp [faultless, isFault, h]

/-- Atomic steps ask for the policy where they touch a context. -/
theorem Atom.evenHanded {kind : Error → Prop} {α : Type} {p : Eval α} (h : Atom True kind p) :
    EvenHanded p := by
  intro m hm
  cases h with
  | quiet _ hb => exact hb m .permissive
  | touch id a g =>
    -- a fault would be one of the run
    have hn : ¬ m.Faults id := by
      intro hf
      have hrun := run_touch id a g m
      rw [if_pos hf] at hrun
      exact absurd hm (not_faultless_act (congrArg Prod.fst hrun))
    rw [run_touch, run_touch, if_neg hn, if_neg (Machine.not_faults_under hn)]
    rfl
  | writeFrame id slot f =>
    have hn : ¬ m.Faults id := by
      intro hf
      have hrun := m.run_writeFrame id slot f
      rw [if_pos hf] at hrun
      exact absurd hm (not_faultless_act (congrArg Prod.fst hrun))
    rw [Machine.run_writeFrame, Machine.run_writeFrame, if_neg hn,
      if_neg (Machine.not_faults_under hn)]
    rfl
  | define _ name c => exact run_ofChange_under (Machine.blind_define name c) m _
  | delete name => exact run_ofChange_under (Machine.blind_delete name) m _
  | rename old new => exact run_ofChange_under (Machine.blind_rename old new) m _
  | context =>
    refine run_ofChange_under (fun m p => ?_) m _
    have hdisposed : (m.under p).disposed = m.disposed := rfl
    simp only [hdisposed]
    split
    · rfl
    · exact m.blind_acquire true p
  | lookupContext => exact run_ofChange_under (Machine.blind_acquire false) m _
  | release =>
    show (Except.ok (m.under .permissive).release.1, (m.under .permissive).release.2) = _
    rw [Machine.blind_release]
    rfl
  | dispose =>
    show (Except.ok (), (m.under .permissive).dispose) = _
    rw [Machine.under_dispose]
    rfl
  | modifyStack | askCache | clearCache | switchThread | freeContext | disposeContext => rfl

/-! ### Runs -/

/-- All evaluations are even-handed, since their steps are. -/
theorem compositional_evenHanded : Compositional (fun _ => True) fun _ p _ => EvenHanded p := by
  have hhandled : Handled True fun p _ => EvenHanded p := by
    refine ⟨fun a m _ => rfl, fun _ m _ => rfl, fun ha => ha.evenHanded, ?_⟩
    intro α β p _ k _ hp hk hx _ m hm
    obtain ⟨hmp, hmk⟩ : faultless p m = true ∧ faultless (k (p.run m).1) (p.run m).2 = true := by
      simpa [faultless] using hm
    rw [run_handle, run_handle, hp m hmp]
    -- both go on with the same outcome, from machines that differ in the policy
    by_cases hr : (p.run m).1 = .error .exhausted
    · rw [hr, hx]
      rfl
    · exact hk _ hr _ hmk
  refine hhandled.composes.compositional fun _ name m _ => ?_
  simp only [Eval.resolve, run_act, Machine.blind_resolve name m]
  rcases m.resolve name with ⟨_ | _, _⟩ <;> rfl

theorem evenHanded_perform (depth : Nat) (running : Option ContextId) (c : HostCall) :
    EvenHanded (Host.perform (Evaluation.cached depth) running c) :=
  compositional_evenHanded.perform_cached (fun _ _ _ _ => rfl) depth 0 running c

namespace Machine

/-- No step of the calls raises a fault. -/
def faultlessAll (self : Runner) : Machine → List HostCall → Bool
  | _, [] => true
  | m, c :: cs =>
    faultless (Host.perform self none c) m.silent && (m.performBy self c).2.faultlessAll self cs

/-- One call of the embedding program. -/
theorem performBy_under {m : Machine} {depth : Nat} {c : HostCall}
    (h : faultless (Host.perform (Evaluation.cached depth) none c) m.silent = true) :
    (m.under .permissive).performBy (Evaluation.cached depth) c =
      ((m.performBy (Evaluation.cached depth) c).1,
        (m.performBy (Evaluation.cached depth) c).2.under .permissive) := by
  have hrun := evenHanded_perform depth none c m.silent h
  have hsilent : (m.under .permissive).silent = m.silent.under .permissive := rfl
  simp only [performBy, hsilent, hrun]
  rfl

/-- A session, by induction on its calls. -/
theorem performAll_under {depth : Nat} {cs : List HostCall} {m : Machine}
    (h : m.faultlessAll (Evaluation.cached depth) cs = true) :
    (m.under .permissive).performAll (Evaluation.cached depth) cs =
      ((m.performAll (Evaluation.cached depth) cs).1,
        (m.performAll (Evaluation.cached depth) cs).2.under .permissive) := by
  induction cs generalizing m with
  | nil => rfl
  | cons c cs ih =>
    obtain ⟨hc, hcs⟩ : faultless (Host.perform (Evaluation.cached depth) none c) m.silent = true ∧
        (m.performBy (Evaluation.cached depth) c).2.faultlessAll (Evaluation.cached depth) cs =
          true := by
      simpa [faultlessAll] using h
    simp only [performAll, performBy_under hc, ih hcs]

end Machine

/-- The setup with another policy. -/
def Setup.under (s : Setup) (p : Policy) : Setup :=
  { s with policy := { s.policy with current := p } }

/-- **The policy matters for disposed contexts only.**  If no step of a session raises a fault under
the strict policy, then the session comes to the same under the permissive one: every call has the
same report, which is its outcome, output, notes and log, and the machines that remain are equal but
for the policy. -/
theorem permissive_agrees_with_strict (s : Setup) (depth : Nat) (calls : List HostCall)
    (h : (Machine.start (s.under .strict)).faultlessAll (Evaluation.cached depth) calls = true) :
    let strict := (Machine.start (s.under .strict)).performAll (Evaluation.cached depth) calls
    let permissive :=
      (Machine.start (s.under .permissive)).performAll (Evaluation.cached depth) calls
    permissive.1 = strict.1 ∧ permissive.2 = strict.2.under .permissive := by
  intro strict permissive
  have hstart : Machine.start (s.under .permissive) =
      (Machine.start (s.under .strict)).under .permissive := rfl
  have hrun : permissive = (strict.1, strict.2.under .permissive) := by
    show Machine.performAll _ (Machine.start (s.under .permissive)) calls = _
    rw [hstart]
    exact Machine.performAll_under h
  rw [hrun]
  exact ⟨rfl, rfl⟩

/-- A function disposes of the context that it runs in, which is not touched again: the next call
finds another one. -/
theorem permissive_agrees_with_strict_disposed_in_body :
    let calls := [.defineFunction "f" [.host (.disposeContext .running)], .invoke "f" [],
      .invoke "set" [.text "x", .text "1"]]
    let strict := (Machine.start { id := "host" }).performAll (Evaluation.cached 1) calls
    let permissive := (Machine.start ({ id := "host" : Setup }.under .permissive)).performAll
      (Evaluation.cached 1) calls
    (strict.2.context ⟨0⟩).disposed = true ∧ strict.2.contexts.size = 2 ∧
      permissive.1 = strict.1 ∧ permissive.2 = strict.2.under .permissive := by
  intro calls strict permissive
  refine ⟨by decide +kernel +revert, by decide +kernel +revert, ?_⟩
  exact permissive_agrees_with_strict { id := "host" } 1 calls (by decide +kernel +revert)

end CommandHost
