/-
CommandHost/Proofs/Finality.lean

Disposal is final.

Disposing the interpreter empties the command table, the cache and the thread table.
Bodies may still be running then, and go on with their statements; the embedding
program may go on with its calls.  Not all that they do asks whether the interpreter
is disposed: names are deleted and renamed, contexts looked up and released, commands
invoked and the cache cleared as before.  All the same nothing comes back.  A step
finds the tables empty and leaves them so (`Atom.emptied`), and resolving a name, which
would leave an entry in the cache, takes a context that the current thread may use.
There is none, because the thread table knew every active context
(`Machine.Tabled.closed`).
-/
import CommandHost.Proofs.Composition
import CommandHost.Proofs.Coherence
import CommandHost.Proofs.ThreadTable

namespace CommandHost

open Program Eval Dispatch

/-! ### One step -/

namespace Machine

/-- A disposed interpreter has no command, no cached name and no thread with a context. -/
def Emptied (m : Machine) : Prop :=
  m.disposed = true → m.commands = ∅ ∧ m.cache.entries = ∅ ∧ m.byThread = ∅

theorem disposed_dispose (m : Machine) : m.dispose.disposed = true := by
  have hpurge (ids : List ContextId) (t : Machine) : (ids.foldl (fun m id =>
      (m.freeContext id true).disposeContext id) t).disposed = t.disposed := by
    induction ids generalizing t with
    | nil => rfl
    | cons id ids ih => exact ih _
  unfold dispose
  split
  · assumption
  · exact hpurge _ _

theorem Emptied.dispose {m : Machine} (h : m.Emptied) : m.dispose.Emptied := by
  by_cases hd : m.disposed = true
  · have hm : m.dispose = m := by simp [Machine.dispose, hd]
    exact hm.symm ▸ h
  · intro _
    rw [Machine.dispose, if_neg hd]
    exact ⟨rfl, rfl, byThread_purge _⟩

theorem Emptied.delete {m : Machine} (h : m.Emptied) (name : String) : (m.delete name).2.Emptied := by
  unfold Machine.delete
  split
  · -- there is a command to delete, so the interpreter is not disposed
    rename_i hc
    intro hd
    simp [Table.contains, (h hd).1] at hc
  · exact h

theorem Emptied.rename {m : Machine} (h : m.Emptied) (old new : String) :
    (m.rename old new).2.Emptied := by
  unfold Machine.rename
  split
  · exact h.delete old
  · split
    · exact h
    · rename_i c hc
      split
      · exact h
      · intro hd
        simp [(h hd).1] at hc

theorem Emptied.define {m : Machine} (h : m.Emptied) (name : String) (c : Command) :
    (m.define name c).2.Emptied := by
  unfold Machine.define
  split
  · exact h
  · rename_i hd
    intro hd'
    exact absurd hd' hd

/-- Acquiring a context changes the thread table only if one is made. -/
theorem Emptied.acquire {m : Machine} (h : m.Emptied) {create : Bool}
    (hc : create = true → m.disposed = false) : (m.acquire create).2.Emptied := by
  unfold Machine.acquire
  split
  · split <;> exact h
  · split
    · exact h
    · split
      · rename_i hcreate
        intro hd
        have hd : m.disposed = true := hd
        simp [hc hcreate] at hd
      · exact h

theorem Emptied.release {m : Machine} (h : m.Emptied) : m.release.2.Emptied := by
  rcases hid : m.byThread.get? m.thread with - | id
  · rwa [release_of_none hid]
  · obtain ⟨-, -, hdisposed⟩ := shared_release hid
    intro hd
    simp [(h (hdisposed ▸ hd)).2.2] at hid

end Machine

/-- No atomic step brings anything back. -/
theorem Atom.emptied {kind : Error → Prop} {α : Type} {p : Eval α} (h : Atom True kind p)
    {m : Machine} (hm : m.Emptied) : (p.run m).2.Emptied := by
  cases h with
  | quiet hq =>
    obtain ⟨_, _, _, _, _, _, _, _, e⟩ := hq m
    rw [run_act, e]
    exact hm
  | touch id a g => rwa [(reads_readContext id _).run]
  | writeFrame id slot f =>
    rw [Machine.run_writeFrame]
    split <;> exact hm
  | askCache name =>
    intro hd
    obtain ⟨hcommands, hentries, hthreads⟩ := hm hd
    exact ⟨hcommands, (Cache.entries_lookup _ _ _).trans hentries, hthreads⟩
  | clearCache =>
    intro hd
    exact ⟨(hm hd).1, rfl, (hm hd).2.2⟩
  | define _ name c =>
    rw [Eval.define, run_ofChange_snd]
    exact hm.define name c
  | delete name =>
    rw [Eval.delete, run_ofChange_snd]
    exact hm.delete name
  | rename old new =>
    rw [Eval.rename, run_ofChange_snd]
    exact hm.rename old new
  | context =>
    rw [Eval.context, run_ofChange_snd]
    split
    · exact hm
    · rename_i hd
      exact hm.acquire fun _ => by simpa using hd
  | lookupContext =>
    rw [run_ofChange_snd]
    exact hm.acquire (by rintro ⟨⟩)
  | release => exact hm.release
  | dispose => exact hm.dispose
  | modifyStack | switchThread | freeContext | disposeContext => exact hm

/-! ### Whole programs -/

/-- A disposed interpreter has no context that the current thread may use. -/
theorem Machine.Tabled.not_canUse {m : Machine} (h : m.Tabled) (h0 : m.thread ≠ 0)
    (hd : m.disposed = true) (id : Option ContextId) : m.canUse id = false := by
  cases id with
  | none => rfl
  | some id =>
    by_contra hu
    obtain ⟨c, hc, ha, -⟩ :=
      h.active_of_tableContext? (h.tableContext?_of_canUse h0 (by simpa using hu))
    exact h.closed hd hc ha

/-- Resolving a name changes the cache of an interpreter only. -/
theorem disposed_resolve (name : String) (m : Machine) :
    ((Eval.resolve name).run m).2.disposed = m.disposed := by
  have hsnd : ((Eval.resolve name).run m).2 = (m.resolve name).2 := by
    rcases e : m.resolve name with ⟨_ | _, _⟩ <;> simp [Eval.resolve, e]
  rw [hsnd, Machine.resolve]
  split <;> rfl

/-- Runs of the program leave a disposed interpreter empty, as long as the current thread has an
id. -/
def StaysEmpty {α : Type} (p : Eval α) : Prop :=
  ∀ m : Machine, m.Emptied → p.Throughout (fun t => t.Tabled ∧ t.thread ≠ 0) m →
    p.Throughout Machine.Emptied m

theorem StaysEmpty.of_reads {α : Type} {p : Eval α} (hp : p.Reads) : StaysEmpty p :=
  fun _ hm _ => .of_reads hp hm

theorem StaysEmpty.handle {α β : Type} {p : Eval β} {k : Except Stop β → Eval α}
    (hp : StaysEmpty p) (hk : ∀ r, StaysEmpty (k r)) : StaysEmpty (handle p k) := by
  intro m hm ht
  obtain ⟨htp, htk⟩ := ht.of_handle
  have hfirst := hp m hm htp
  exact hfirst.handle (hk _ _ hfirst.run htk)

theorem StaysEmpty.atom {kind : Error → Prop} {α : Type} {p : Eval α} (h : Atom True kind p) :
    StaysEmpty p := by
  intro m hm _
  have hafter := h.emptied hm
  obtain ⟨f, rfl⟩ := h.eq_act
  exact along_act (fun h _ => h) hm hafter

/-- An invocation resolves a name only on a context that the current thread may use, which a
disposed interpreter does not have. -/
theorem StaysEmpty.admitted {self : Runner} (hself : self.resolve = Eval.resolve)
    {id : Option ContextId} {name : String} {args : List Value}
    (hx : ∀ context r, StaysEmpty (executeResolved self r { context, name } args)) :
    StaysEmpty (read (·.canUse id) >>= admitted self id name args) := by
  intro m hm ht
  refine .bind_reads (fun _ => rfl) hm fun usable hu => ?_
  obtain rfl : m.canUse id = usable := Except.ok.inj hu
  rcases id with - | context
  · exact .of_reads (p := misuse .wrongThread) trivial hm
  cases hu : m.canUse (some context) with
  | false => exact .of_reads (p := misuse .wrongThread) trivial hm
  | true =>
    have hd : m.disposed = false := by
      by_contra hd
      simp [ht.start.1.not_canUse ht.start.2 (by simpa using hd)] at hu
    -- so the interpreter is not disposed, and need not be empty
    have hresolved : ((Eval.resolve name).run m).2.Emptied := by
      intro hd'
      rw [disposed_resolve, hd] at hd'
      cases hd'
    have htk := (ht.of_bind).2 true (congrArg Except.ok hu)
    change Throughout _ (self.resolve name >>= _) m at htk
    change Throughout _ (self.resolve name >>= _) m
    rw [hself] at htk ⊢
    exact .bind (along_act (fun h _ => h) hm hresolved) fun r hr =>
      hx context r _ hresolved (htk.of_bind.2 r hr)

theorem handled_staysEmpty : Handled True fun p _ => StaysEmpty p where
  done a := .of_reads (p := done a) trivial
  stop _ := .of_reads (p := stop _) trivial
  atom := .atom
  handle hp hk hx _ := by
    refine .handle hp fun r => ?_
    by_cases hr : r = .error .exhausted
    · rw [hr, hx]
      exact .of_reads (p := stop _) trivial
    · exact hk r hr

theorem compositional_staysEmpty : Compositional (fun _ => True) fun _ p _ => StaysEmpty p := by
  have h := handled_staysEmpty.composes
  refine { h with returning := fun _ => trivial, admitted := ?_ }
  intro self self' hself _ hbody id name args
  exact .admitted hself fun context r => h.executeResolved self self' trivial (fun _ => trivial)
    (fun _ _ => trivial) hbody ⟨context, name, []⟩ args

theorem staysEmpty_perform (depth : Nat) (running : Option ContextId) (c : HostCall) :
    StaysEmpty (Host.perform (Evaluation.cached depth) running c) :=
  compositional_staysEmpty.perform_cached (fun _ _ => .of_reads (p := stop _) trivial) depth 0
    running c

/-! ### Starting a command -/

/-- A command starts: the innermost invocation has just found that the current thread may use the
context, and goes on to the command. -/
def Starts (path : Path Stop Machine) : Prop :=
  ∃ before self context name args, path = before ++
    [⟨Value, read (·.canUse (some context)) >>= admitted self (some context) name args⟩,
      ⟨Value, admitted self (some context) name args true⟩]

/-- An invocation starts its command on the context that the current thread gets, if it may use it, and
passes the points of the command then. -/
theorem exists_start {m t : Machine} {id : ContextId} (hid : Eval.context.run m = (.ok id, t))
    (hu : t.canUse (some id) = true) (self : Runner) (running : Option ContextId) (name : String)
    (args : List Value) :
    let command := admitted self (some id) name args true
    ∃ path, Starts (path ++ [⟨Value, command⟩]) ∧ ∀ y ∈ command.points t,
      (path ++ y.1, y.2) ∈ (Host.perform self running (.invoke name args)).points m := by
  intro command
  let p : Eval Value := read (·.canUse (some id)) >>= admitted self (some id) name args
  have hreaches : (Host.perform self running (.invoke name args)).Reaches m p t := by
    refine .handle (.bind hid (.handle ?_ _)) _
    rw [invoke_eq]
    exact .handle (.refl p t) _
  -- the points behind the check, in the run of `p` alone
  have hcommand (y : Path Stop Machine × Machine) (hy : y ∈ command.points t) :
      (⟨Value, p⟩ :: y.1, y.2) ∈ p.points t := by
    refine List.mem_cons_of_mem _ (List.mem_map.2 ⟨y, List.mem_append_right _ ?_, rfl⟩)
    show y ∈ (admitted self (some id) name args (t.canUse (some id))).points t
    rw [hu]
    exact hy
  obtain ⟨before, path, later, e⟩ := hreaches
  refine ⟨path ++ [⟨Value, p⟩], ⟨path, self, id, name, args, by simp [p, command]⟩, fun y hy => ?_⟩
  rw [e, List.append_assoc path]
  exact List.mem_append_left _ (List.mem_append_right _ (List.mem_map.2 ⟨_, hcommand y hy, rfl⟩))

/-- Where a command starts, the current thread may use some context. -/
theorem Starts.canUse {α : Type} {p : Eval α} {m : Machine} {x : Path Stop Machine × Machine}
    (hx : x ∈ p.points m) (h : Starts x.1) : ∃ context, x.2.canUse (some context) = true := by
  obtain ⟨path, t⟩ := x
  obtain ⟨before, self, context, name, args, rfl⟩ := h
  refine ⟨context, ?_⟩
  obtain ⟨s, hs⟩ := mem_points_of_path hx
  -- the point is the first one after the check
  change _ ∈ (handle (read (·.canUse (some context))) _).points s at hs
  simp only [points, List.mem_cons, List.mem_map, List.mem_append, Prod.mk.injEq,
    List.cons.injEq] at hs
  rcases hs with ⟨⟨-, hnil⟩, -⟩ | ⟨⟨path, u⟩, hy, ⟨-, hpath⟩, rfl⟩
  · cases hnil
  · dsimp only at hpath
    subst hpath
    rcases hy with hy | hy
    · -- the check itself is an atomic step, and no invocation
      obtain ⟨rest, e⟩ := exists_cons_of_mem_points hy
      exact absurd (List.cons.inj e).1.symm act_ne_handle
    · obtain ⟨rest, e⟩ := exists_cons_of_mem_points hy
      have hsame := eq_of_heq (Sigma.mk.inj (List.cons.inj e).1).2
      change admitted self (some context) name args true =
        admitted self (some context) name args (s.canUse (some context)) at hsame
      cases hu : s.canUse (some context) with
      | false =>
        rw [hu] at hsame
        cases hsame
      | true =>
        -- nothing was done since the check
        change _ ∈ (admitted self (some context) name args (s.canUse (some context))).points s at hy
        rw [hu] at hy
        change _ ∈ (handle (self.resolve name) _).points s at hy
        simp only [points, List.mem_cons, List.mem_map, List.mem_append, Prod.mk.injEq,
          List.cons.injEq] at hy
        rcases hy with ⟨-, rfl⟩ | ⟨y, hy, ⟨-, hnil⟩, -⟩
        · exact hu
        · rcases hy with hy | hy
          · obtain ⟨rest, e⟩ := exists_cons_of_mem_points hy
            rw [hnil] at e
            cases e
          · obtain ⟨rest, e⟩ := exists_cons_of_mem_points hy
            rw [hnil] at e
            cases e

/-! ### Calls of a disposed interpreter -/

/-- The calls that need an interpreter that is not disposed: those that invoke a command, ask for a
context, or define a command. -/
def HostCall.needsInterpreter : HostCall → Bool
  | invoke _ _ | invokeIn _ _ _ | context _ | defineFunction _ _ => true
  | defineProcedure _ _ body => body.isSome
  | setUnknown body => body.isSome
  | _ => false

/-- A disposed interpreter refuses them, and they change nothing. -/
theorem run_perform_of_disposed {m : Machine} (hd : m.disposed = true) (self : Runner)
    (running : Option ContextId) {c : HostCall} (hc : c.needsInterpreter = true) :
    (Host.perform self running c).run m =
      (.error (.error (.misuse .interpreterDisposed)), m) := by
  have hcontext : Eval.context.run m = (.error (.error (.misuse .interpreterDisposed)), m) := by
    simp [Eval.context, ofChange, hd]
  have hdefine (name : String) (d : Command) : (Eval.define name (some d)).run m =
      (.error (.error (.misuse .interpreterDisposed)), m) := by
    simp [Eval.define, ofChange, Machine.define, hd]
  cases c with
  | invoke name args => simp only [Host.perform, invokeHere, run_bind, hcontext]
  | invokeIn ref name args =>
    have hwithin (id : Option ContextId) : (invokeIn self id name args).run m =
        (.error (.error (.misuse .interpreterDisposed)), m) := by
      rw [invokeIn, run_bind]
      show (if m.disposed then misuse .interpreterDisposed else _ : Eval Value).run m = _
      rw [if_pos hd]
      rfl
    cases ref with
    | running => simp only [Host.perform, Host.contextOf, run_bind, run_done, hwithin]
    | saved name =>
      rw [Host.perform, run_bind]
      show (invokeIn self (m.saved.get? name) _ args >>= _).run m = _
      simp only [run_bind, hwithin]
  | context saveAs => simp only [Host.perform, run_bind, hcontext]
  | defineFunction name body => simp only [Host.perform, run_bind, hdefine]
  | defineProcedure name params body =>
    cases body with
    | some body => simp only [Host.perform, Option.map_some, run_bind, hdefine]
    | none => cases hc
  | setUnknown body =>
    cases body with
    | some body => simp only [Host.perform, Option.map_some, run_bind, hdefine]
    | none => cases hc
  | _ => cases hc

/-- Nothing comes back in a history in which the current thread always has an id. -/
theorem emptied_of_mem_history {s : Setup} {m : Machine} (hs : Session s [] m) (hm : m.Emptied)
    {calls : List (Nat × HostCall)} (hthread : ∀ x ∈ m.history calls, x.2.thread ≠ 0) :
    ∀ x ∈ m.history calls, x.2.Emptied := by
  induction calls generalizing m with
  | nil =>
    intro x hx
    obtain rfl := List.mem_singleton.1 hx
    exact hm
  | cons c calls ih =>
    obtain ⟨depth, call⟩ := c
    rw [Machine.history] at hthread ⊢
    split at hthread
    · rename_i hout
      intro x hx
      rw [if_pos hout] at hx
      obtain rfl := List.mem_singleton.1 hx
      exact hm
    · rename_i hout
      rw [if_neg hout]
      -- first along the call, then from where it ends
      have hcall : (Host.perform (Evaluation.cached depth) none call).Throughout
          (fun t => t.Tabled ∧ t.thread ≠ 0) m.silent := by
        intro x hx
        refine ⟨(Session.during depth call hs hx).tabled, hthread x ?_⟩
        simp [hx]
      have hempty := staysEmpty_perform depth none call m.silent hm hcall
      intro x hx
      rcases List.mem_cons.1 hx with rfl | hx
      · exact hm
      · rcases List.mem_append.1 hx with hx | hx
        · exact hempty x hx
        · refine ih (.after depth call hs hout) hempty.run (fun y hy => hthread y ?_) x hx
          simp [hy]

/-- Disposed is for good. -/
theorem Machine.Next.disposed {m t : Machine} (h : m.Next t) (hd : m.disposed = true) :
    t.disposed = true := by
  obtain ⟨a, rfl⟩ := h
  have htable {a : Action} (ha : a.OnTable) : (m.after a).disposed = true := by
    obtain ⟨commands, cache, log, e⟩ := ha.after m
    rw [e]
    exact hd
  cases a with
  | acquire create =>
    simp only [Machine.after, Machine.acquire]
    split
    · split <;> exact hd
    · split
      · exact hd
      · split <;> exact hd
  | release =>
    show m.release.2.disposed = true
    rcases hid : m.byThread.get? m.thread with - | id
    · rwa [Machine.release_of_none hid]
    · rwa [(Machine.shared_release hid).2.2]
  | dispose => exact m.disposed_dispose
  | resolve | askCache | define | delete | rename | clearCache => exact htable (by trivial)
  | _ => exact hd

/-- **Disposal is final.**  In a session in which the current thread always has an id, from the
moment the interpreter is disposed, be it in the middle of a body: it stays disposed, the command
table and the cache are empty, no thread has a context, and no context is active.  No command
starts: every invocation is refused, and so is every call that needs the interpreter, with an error
that says so. -/
theorem disposal_final (s : Setup) (calls : List (Nat × HostCall))
    (hthread : ∀ x ∈ (Machine.start s).history calls, x.2.thread ≠ 0) :
    (∀ m : Machine, m.dispose.disposed = true) ∧
    ((Machine.start s).history calls).Pairwise
      (fun x y => x.2.disposed = true → y.2.disposed = true) ∧
    ∀ x ∈ (Machine.start s).history calls, x.2.disposed = true →
      x.2.commands = ∅ ∧ x.2.cache.entries = ∅ ∧ x.2.contextCount = 0 ∧
      (∀ id c, x.2.context? id = some c → c.stage = .disposed ∨ c.stage = .detached) ∧
      ¬ Starts x.1 ∧
      ∀ self, (∀ id name args, (invoke self id name args).run x.2 =
          (.error (.error (.misuse .wrongThread)), x.2)) ∧
        ∀ running call, call.needsInterpreter = true → (Host.perform self running call).run x.2 =
          (.error (.error (.misuse .interpreterDisposed)), x.2) := by
  have hsteps (depth : Nat) (call : HostCall) :=
    (Bracketed.perform depth none call).steps
  refine ⟨Machine.disposed_dispose, ?_, fun x hx hd => ?_⟩
  · exact Machine.history_pairwise hsteps (fun m => m.drifts_silent.next) (fun _ hd => hd)
      (fun h h' hd => h' (h hd)) (fun _ _ => Machine.Next.disposed) _ _
  · have hsession := Machine.session_of_mem_history .start hx
    obtain ⟨hcommands, hcache, hthreads⟩ :=
      emptied_of_mem_history .start (fun h => by cases h) hthread x hx hd
    have hunusable := hsession.tabled.not_canUse (hthread x hx) hd
    refine ⟨hcommands, hcache, ?_, fun id c hc => ?_, fun hstart => ?_, fun self => ⟨?_, ?_⟩⟩
    · rw [Machine.contextCount, hthreads]
      rfl
    · have hinactive := hsession.tabled.closed hd hc
      cases hstage : c.stage with
      | active => exact absurd hstage hinactive
      | detached => exact .inr rfl
      | disposed => exact .inl rfl
    · -- a command starts inside of a call only
      obtain ⟨path, t⟩ := x
      cases hsession with
      | start | after =>
        obtain ⟨before, self, context, name, args, e⟩ := hstart
        simp at e
      | during depth call _ hp =>
        obtain ⟨context, hu⟩ := hstart.canUse hp
        rw [hunusable] at hu
        cases hu
    · exact fun id name args => run_invoke_of_not_canUse (hunusable id) self name args
    · exact fun running call => run_perform_of_disposed hd self running

/-! ### A body that disposes its interpreter -/

/-- The procedure disposes the interpreter, and then tries to go on as before. -/
def closingBody : List Stmt :=
  [.host .dispose, .catchError [.invoke (.value (.text "set")) [.value (.text "x")]],
    .host (.invoke "set" [.text "x"]), .host (.lookupContext none), .host .release,
    .host (.rename "set" "put"), .host .clearCache, .host (.defineFunction "f" [])]

def closingSession : List (Path Stop Machine × Machine) :=
  (Machine.start { id := "host" }).history
    [(2, .defineProcedure "p" [] (some closingBody)), (2, .invoke "p" []), (2, .context none)]

/-- The procedure starts, and after it has disposed the interpreter nothing starts any more while it is
still under way. -/
theorem disposal_final_in_body :
    (∀ x ∈ closingSession, x.2.thread ≠ 0) ∧
    ∃ x ∈ closingSession, (x.2.disposed = false ∧ Starts x.1) ∧
      ∃ y ∈ closingSession, (x.1 <+: y.1 ∧ y.2.disposed = true ∧ y.2.contexts.size = 1) ∧
        y.2.commands = ∅ ∧ y.2.cache.entries = ∅ ∧ y.2.contextCount = 0 ∧
        (∀ id c, y.2.context? id = some c → c.stage = .disposed ∨ c.stage = .detached) ∧
        ¬ Starts y.1 ∧
        (Host.perform (Evaluation.cached 2) none (.invoke "set" [])).run y.2 =
          (.error (.error (.misuse .interpreterDisposed)), y.2) := by
  have hthread : ∀ x ∈ closingSession, x.2.thread ≠ 0 := by decide +kernel
  let m := ((Machine.start { id := "host" }).performBy (Evaluation.cached 2)
    (.defineProcedure "p" [] (some closingBody))).2
  let t := (Eval.context.run m.silent).2
  have hid : Eval.context.run m.silent = (.ok ⟨0⟩, t) := by rfl
  obtain ⟨path, hstart, hpoints⟩ :=
    exists_start hid (by decide +kernel) (Evaluation.cached 2) none "p" []
  have hmem {x : Path Stop Machine × Machine}
      (hx : x ∈ (Host.perform (Evaluation.cached 2) none (.invoke "p" [])).points m.silent) :
      x ∈ closingSession := by
    refine (Machine.mem_history_cons_iff (by rintro ⟨⟩)).2 (.inr (.inr ?_))
    exact (Machine.mem_history_cons_iff (by rintro ⟨⟩)).2 (.inr (.inl hx))
  let command : Eval Value := admitted (Evaluation.cached 2) (some ⟨0⟩) "p" [] true
  have hfirst : ([⟨Value, command⟩], t) ∈ command.points t := List.mem_cons_self
  -- the command disposes the interpreter on its way
  obtain ⟨y, hy, hclosed⟩ : ∃ y ∈ command.points t,
      y.2.disposed = true ∧ y.2.contexts.size = 1 := by decide +kernel
  obtain ⟨rest, e⟩ := exists_cons_of_mem_points hy
  obtain ⟨-, -, hfinal⟩ := disposal_final { id := "host" } _ hthread
  obtain ⟨hcommands, hcache, hcount, hstages, hnone, hcalls⟩ :=
    hfinal _ (hmem (hpoints y hy)) hclosed.1
  refine ⟨hthread, _, hmem (hpoints _ hfirst), ⟨rfl, hstart⟩, _, hmem (hpoints y hy),
    ⟨⟨rest, ?_⟩, hclosed⟩, hcommands, hcache, hcount, hstages, hnone,
    (hcalls (Evaluation.cached 2)).2 none _ rfl⟩
  rw [e, List.append_assoc]
  rfl

end CommandHost
