/-
CommandHost/Proofs/Release.lean

Releasing a thread.

A thread that is done takes its context out of the table and retires it.  What other
threads go on using must not go with it: the global frame, the commands and the cache,
and the contexts of the other threads with the frames on their call stacks.  The
context that is released may be in any state, for instance in the middle of a body that
runs on it, or refilled by the end of such a body after it was freed by hand.

It is spared for two reasons.  Releasing first frees the context in the way that keeps
global frames, and only then disposes it, when it holds nothing any more.  And what else
it held was granted to it alone (`Machine.Separate`).

The released context stays as it is from then on, whatever is done to it
(`Machine.Leads`), and its thread starts anew with a fresh context when it next asks for
one.
-/
import CommandHost.Proofs.Isolation
import Mathlib.Logic.Relation

namespace CommandHost

open Program Eval

/-! ### The global frame -/

namespace Machine

/-- No action takes the global frame away or makes it an ordinary one. -/
theorem Next.rooted {m t : Machine} (hn : m.Next t) (h : m.frames.Rooted) : t.frames.Rooted := by
  obtain ⟨a, rfl⟩ := hn
  by_cases ha : a.Moves
  · cases a with
    | setSlot | setStack => exact h
    | disposeFrame f =>
      obtain ⟨frame, hframe, hflags⟩ := h
      show (m.frames.modify f (·.dispose)).Rooted
      by_cases hf : globalFrame = f
      · refine ⟨frame.dispose, ?_, (frame.alike_free true).flags.trans hflags⟩
        rw [Frames.get?_modify, if_pos hf, hframe]
        rfl
      · exact ⟨frame, by rw [Frames.get?_modify, if_neg hf, hframe], hflags⟩
    | _ => exact ha.elim
  · exact (Drifts.keeps ⟨a, ha, rfl⟩).frames.rooted h

end Machine

theorem Session.rooted {s : Setup} {path : Path Stop Machine} {m : Machine}
    (h : Session s path m) : m.frames.Rooted :=
  h.invariant (P := (·.frames.Rooted)) ⟨_, rfl, rfl⟩ fun _ _ hn hm => hn.rooted hm

/-- Freeing frames in the way that spares what is shared leaves the global frame alone. -/
theorem Frames.get?_globalFrame_release {frames : Frames} {frame : Frame}
    (h : frames.get? Machine.globalFrame = some frame) (hflags : frame.flags = .globalFrame)
    (held : List (Held CallStack FrameId)) :
    (held.foldl (Machine.releaseHeld false) frames).get? Machine.globalFrame = some frame := by
  -- freeing spares a global frame unless it is told not to
  have hsame : frame.free false = frame := by
    have hglobal : frame.flags.isGlobal = true := by rw [hflags]; rfl
    simp [Frame.free, hglobal]
  have hfree {s : Frames} (hs : s.get? Machine.globalFrame = some frame) (f : FrameId) :
      (s.modify f (·.free false)).get? Machine.globalFrame = some frame := by
    rw [get?_modify, hs]
    split
    · rw [Option.map_some, hsame]
    · rfl
  have hstack (ids : List FrameId) {s : Frames} (hs : s.get? Machine.globalFrame = some frame) :
      (ids.foldl (fun s id => s.modify id (·.free false)) s).get? Machine.globalFrame =
        some frame := by
    induction ids generalizing s with
    | nil => exact hs
    | cons f ids ih => exact ih (hfree hs f)
  induction held generalizing frames with
  | nil => exact h
  | cons x xs ih =>
    refine ih ?_
    cases x with
    | stack stack => exact hstack stack.frames h
    | frame f => exact hfree h f

/-! ### What releasing does -/

/-- A context that was freed has nothing left to release. -/
theorem Context.dispose_free {σ φ : Type} (c : Context σ φ) : c.free.2.dispose.1 = [] := by
  unfold free
  split
  · rename_i hd
    simp [dispose, hd]
  · rfl

namespace Machine

variable {m : Machine} {id : ContextId}

/-- Releasing a thread frees what its context holds, sparing what is shared. -/
theorem frames_release (hid : m.byThread.get? m.thread = some id) :
    m.release.2.frames = (m.context id).free.1.foldl (releaseHeld false) m.frames := by
  have hcontext : ((m.unlist id).freeContext id false).context id = (m.context id).free.2 :=
    context_of_changed ((m.unlist id).context?_freeContext id false) rfl
  obtain ⟨log, e⟩ := release_of_some hid
  rw [e]
  show (((m.unlist id).freeContext id false).context id).dispose.1.foldl (releaseHeld true) _ = _
  rw [hcontext, Context.dispose_free]
  rfl

/-- The global frame keeps its variables when a thread is released. -/
theorem get?_globalFrame_release (h : m.frames.Rooted) :
    m.release.2.frames.get? globalFrame = m.frames.get? globalFrame := by
  rcases hid : m.byThread.get? m.thread with - | id
  · rw [release_of_none hid]
  · obtain ⟨frame, hframe, hflags⟩ := h
    rw [frames_release hid, Frames.get?_globalFrame_release hframe hflags, hframe]

theorem shared_spared_release (m : Machine) :
    m.release.2.commands = m.commands ∧ m.release.2.cache = m.cache := by
  rcases hid : m.byThread.get? m.thread with - | id
  · rw [release_of_none hid]
    exact ⟨rfl, rfl⟩
  · obtain ⟨log, e⟩ := release_of_some hid
    rw [e]
    exact ⟨rfl, rfl⟩

/-- There is something to release just if the thread is listed. -/
theorem release_fst_iff : m.release.1 = true ↔ ∃ id, m.byThread.get? m.thread = some id := by
  unfold release
  rcases m.byThread.get? m.thread with - | id
  · simp
  · simp

theorem Separate.untouched_release (h : m.Separate) {k : ContextId}
    (hk : m.byThread.get? m.thread ≠ some k) : m.Untouched k m.release.2 :=
  ⟨context?_release hk, fun _ hf => h.get?_release hk hf⟩

/-! ### The released context -/

/-- The context is disposed and belongs to no thread. -/
def Gone (m : Machine) (id : ContextId) : Prop :=
  ∃ c, m.context? id = some c ∧ c.disposed = true ∧ c.thread = 0

/-- What is gone stays gone. -/
theorem Gone.takes {m t : Machine} (h : m.Gone id) (ht : m.Takes t) : t.Gone id := by
  obtain ⟨c, hc, hd, h0⟩ := h
  obtain ⟨c', hc', hage⟩ := ht.ages id c hc
  rcases hage with ⟨hthread, hdisposed, -⟩ | ⟨hd', -⟩
  · exact ⟨c', hc', hdisposed.trans hd, hthread.trans h0⟩
  · simp [hd] at hd'

/-- A context that is gone has no frames to let go of. -/
theorem Gone.frames {m : Machine} (h : m.Gone id) (shared : Bool) :
    (m.freeContext id shared).frames = m.frames ∧ (m.disposeContext id).frames = m.frames := by
  obtain ⟨c, hc, hd, -⟩ := h
  constructor
  · show (m.context id).free.1.foldl (releaseHeld shared) m.frames = m.frames
    simp [context_of_some hc, Context.free, hd]
  · show (m.context id).dispose.1.foldl (releaseHeld true) m.frames = m.frames
    simp [context_of_some hc, Context.dispose, hd]

end Machine

/-- The released context is disposed and belongs to no thread. -/
theorem Session.gone_release {s : Setup} {path : Path Stop Machine} {m : Machine}
    (h : Session s path m) {id : ContextId} (hid : m.byThread.get? m.thread = some id) :
    m.release.2.Gone id := by
  obtain ⟨c, hc⟩ := h.tabled.known hid
  obtain ⟨c', hc', hd⟩ := Machine.disposed_release hid hc
  refine ⟨c', hc', hd, ?_⟩
  -- releasing lets the context go, unless it was disposed already
  obtain ⟨c'', hc'', hr⟩ := Machine.endures_retires.release m id c hc
  obtain rfl := Option.some.inj (hc'.symm.trans hc'')
  rcases hr with rfl | ⟨-, d, rfl⟩
  · by_contra hthread
    simp [h.not_disposed hc hthread] at hd
  · rfl

/-! ### The next context of the thread -/

namespace Machine

/-- One machine leads to another by steps of evaluations. -/
def Leads : Machine → Machine → Prop := Relation.ReflTransGen Takes

/-- What every step keeps is kept on the way. -/
theorem Leads.invariant {P : Machine → Prop} (hP : ∀ m t, Takes m t → P m → P t) {m t : Machine}
    (h : m.Leads t) (hm : P m) : P t := by
  induction h with
  | refl => exact hm
  | tail _ hstep ih => exact hP _ _ hstep ih

/-- Acquiring a context lists it if it is a new one, and changes the table in no other way. -/
theorem byThread_acquire (m : Machine) (create : Bool) :
    (m.acquire create).2.byThread = m.byThread ∨
      create = true ∧
        (m.acquire create).2.byThread = m.byThread.insert m.thread ⟨m.contexts.size⟩ := by
  unfold acquire
  split
  · split <;> exact .inl rfl
  · split
    · exact .inl rfl
    · split
      · rename_i hcreate
        exact .inr ⟨hcreate, rfl⟩
      · exact .inl rfl

/-- A thread comes into the table only by asking for its context. -/
theorem Takes.eq_acquire {m t : Machine} (h : m.Takes t) {a : ThreadId}
    (hm : m.byThread.get? a = none) (ht : t.byThread.get? a ≠ none) :
    m.thread = a ∧ t = (m.acquire true).2 := by
  have hsame (he : t.byThread = m.byThread) : m.thread = a ∧ t = (m.acquire true).2 := by
    rw [he] at ht
    exact absurd hm ht
  have honTable {action : Action} (h : action.OnTable) :
      (m.after action).byThread = m.byThread := by
    obtain ⟨commands, cache, log, e⟩ := h.after m
    rw [e]
  obtain ⟨action, -, rfl⟩ := h
  cases action with
  | acquire create =>
    rcases m.byThread_acquire create with he | ⟨rfl, he⟩
    · exact hsame he
    · refine ⟨?_, rfl⟩
      by_contra hne
      refine ht ?_
      show (m.acquire true).2.byThread.get? a = none
      rw [he, Table.get?_insert, if_neg fun e => hne e.symm, hm]
  | release =>
    rcases hid : m.byThread.get? m.thread with - | id
    · exact hsame (congrArg Machine.byThread (release_of_none hid))
    · refine absurd ?_ ht
      show m.release.2.byThread.get? a = none
      rw [(shared_release hid).1, Table.get?_erase, hm]
      split <;> rfl
  | dispose =>
    by_cases hd : m.disposed = true
    · refine hsame ?_
      show m.dispose.byThread = m.byThread
      simp [dispose, hd]
    · -- disposing empties the table
      have htable : m.dispose.byThread = ∅ := by
        simp only [dispose, hd]
        exact byThread_purge { m with disposed := true }
      refine absurd ?_ ht
      show m.dispose.byThread.get? a = none
      rw [htable]
      rfl
  | resolve | askCache | define | delete | rename | clearCache =>
    exact hsame (honTable (by trivial))
  | _ => exact hsame rfl

/-- A thread that the table does not have gets a fresh context. -/
theorem Tabled.context_of_unlisted {m : Machine} (h : m.Tabled) (h0 : m.thread ≠ 0)
    (hd : m.disposed = false) (hn : m.byThread.get? m.thread = none) :
    ∃ id t c, Eval.context.run m = (.ok id, t) ∧ m.context? id = none ∧ t.context? id = some c ∧
      c.stage = .active ∧ c.thread = m.thread ∧ c.Idle := by
  have htable : m.tableContext? = none := by simp [tableContext?, hn]
  obtain ⟨hrun, hc⟩ := h.run_context_of_none h0 hd htable
  refine ⟨_, _, m.freshContext, hrun, ?_, hc, Context.stage_eq_active_iff.2 ⟨rfl, h0⟩, rfl, ?_⟩
  · show m.context? ⟨m.contexts.size⟩ = none
    simp [context?]
  · exact ⟨rfl, rfl, rfl, rfl, rfl, rfl⟩

end Machine

/-- **Releasing a thread spares shared state.**  In every state of a session, also in the middle of
an evaluation, releasing the current thread leaves the global frame, the commands and the cache as
they are, and every context but the one of the thread, with the frames on its call stack.  It is
answered with whether the thread was in the table.

From then on, whatever steps are taken, the released context is disposed and belongs to no thread,
and has no frames to let go of.  The thread comes back into the table only by asking for its
context, and then gets one that was not there before, with nothing on its stack, in the global
frame. -/
theorem release_spares_shared_state {s : Setup} {path : Path Stop Machine} {m : Machine}
    (h : Session s path m) (h0 : m.thread ≠ 0) :
    (m.release.2.frames.get? Machine.globalFrame = m.frames.get? Machine.globalFrame ∧
      m.release.2.commands = m.commands ∧ m.release.2.cache = m.cache) ∧
    (∀ k, m.byThread.get? m.thread ≠ some k → m.Untouched k m.release.2) ∧
    (m.release.1 = true ↔ ∃ id, m.byThread.get? m.thread = some id) ∧
    m.release.2.byThread.get? m.thread = none ∧
    ∀ t, m.release.2.Leads t →
      (∀ id, m.byThread.get? m.thread = some id →
        (∃ c, t.context? id = some c ∧ c.stage = .disposed ∧ c.thread = 0) ∧
        ∀ shared, (t.freeContext id shared).frames = t.frames ∧
          (t.disposeContext id).frames = t.frames) ∧
      (t.byThread.get? m.thread = none →
        (∀ u, t.Takes u → u.byThread.get? m.thread ≠ none →
          t.thread = m.thread ∧ u = (t.acquire true).2) ∧
        (t.thread = m.thread → t.disposed = false →
          ∃ id u c, Eval.context.run t = (.ok id, u) ∧ t.context? id = none ∧
            u.context? id = some c ∧ c.stage = .active ∧ c.thread = m.thread ∧ c.Idle)) := by
  refine ⟨⟨Machine.get?_globalFrame_release h.rooted, m.shared_spared_release⟩,
    fun k hk => h.separate.untouched_release hk, Machine.release_fst_iff, ?_, fun t ht => ⟨?_, ?_⟩⟩
  · rcases hid : m.byThread.get? m.thread with - | id
    · rw [Machine.release_of_none hid, hid]
    · rw [(Machine.shared_release hid).1, Table.get?_erase, if_pos rfl]
  · intro id hid
    have hgone : t.Gone id :=
      ht.invariant (P := (·.Gone id)) (fun _ _ hstep hg => hg.takes hstep) (h.gone_release hid)
    refine ⟨?_, hgone.frames⟩
    obtain ⟨c, hc, hd, hthread⟩ := hgone
    exact ⟨c, hc, by simp [Context.stage, hd], hthread⟩
  · intro hn
    -- whatever has happened since, the table is in order
    have htabled : t.Tabled :=
      ht.invariant (fun _ _ => Machine.Tabled.takes) h.tabled.release
    refine ⟨fun u hu hlisted => hu.eq_acquire hn hlisted, fun hthread hd => ?_⟩
    rw [← hthread] at h0 hn ⊢
    exact htabled.context_of_unlisted h0 hd hn

/-! ### A thread that is released in the middle of a body -/

/-- What is passed later in a session is led to. -/
theorem Machine.history_leads (m : Machine) (calls : List (Nat × HostCall)) :
    (m.history calls).Pairwise fun x y => x.2.Leads y.2 :=
  history_pairwise Built.takes_perform takes_silent (fun _ => .refl) .trans
    (fun _ _ h => .single h) m calls

/-- A procedure of the second thread calls one of the first, which releases its own thread. -/
def releasedInBody : List (Path Stop Machine × Machine) :=
  (Machine.start { id := "host", policy := { current := .permissive } }).history [
    (3, .defineProcedure "p" [] (some [.host .release])),
    (3, .defineProcedure "q" ["v"] (some [.host (.switchThread 1), .host (.invoke "p" [])])),
    (3, .invoke "set" [.text "g", .int 1]), (3, .switchThread 2), (4, .invoke "q" [.int 7])]

/-- The first context is not disposed. -/
private def spared (x : Path Stop Machine × Machine) : Bool :=
  (x.2.context? ⟨0⟩).all (!·.disposed)

/-- The last point before the thread is released. -/
private def releasePoint : Path Stop Machine × Machine :=
  (releasedInBody.takeWhile spared).getLast (by decide +kernel)

/-- The points from then on. -/
private def releasedPoints : List (Path Stop Machine × Machine) := releasedInBody.dropWhile spared

private theorem releasePoint_mem : releasePoint ∈ releasedInBody :=
  List.takeWhile_subset _ (List.getLast_mem _)

private theorem leads_of_mem_releasedPoints {y : Path Stop Machine × Machine}
    (hy : y ∈ releasedPoints) : releasePoint.2.release.2.Leads y.2 := by
  obtain ⟨x, later, e⟩ : ∃ x later, releasedPoints = x :: later :=
    List.exists_cons_of_ne_nil (List.ne_nil_of_mem hy)
  have hfirst : (releasedPoints.head?.map (·.2)) = some releasePoint.2.release.2 := by rfl
  have hpairs : releasedPoints.Pairwise fun x y => x.2.Leads y.2 :=
    (Machine.history_leads _ _).sublist (List.dropWhile_sublist _)
  rw [e] at hy hfirst hpairs
  rw [← Option.some.inj hfirst]
  rcases List.mem_cons.1 hy with rfl | hy
  · exact .refl
  · exact (List.pairwise_cons.1 hpairs).1 y hy

/-- The end of the released procedure puts the global frame back into the context that is gone.  It
is out of reach there: freeing the context once more, with all that is shared, changes no frame. -/
theorem release_spares_shared_state_in_body :
    ∃ x ∈ releasedInBody, ∃ y ∈ releasedInBody,
      (x.2.thread = 1 ∧ x.2.byThread.get? 1 = some ⟨0⟩ ∧ x.2.Stacks ⟨0⟩ ⟨2⟩ ∧
        x.2.Stacks ⟨1⟩ ⟨1⟩) ∧
      x.2.release.1 = true ∧
      ((x.2.release.2.frames.get? Machine.globalFrame).bind (·.get? "g") = some (.int 1) ∧
        (x.2.release.2.frames.get? ⟨1⟩).bind (·.get? "v") = some (.int 7)) ∧
      x.2.release.2.Leads y.2 ∧ (y.2.context ⟨0⟩).current = some Machine.globalFrame ∧
      (∃ c, y.2.context? ⟨0⟩ = some c ∧ c.stage = .disposed ∧ c.thread = 0) ∧
      (y.2.freeContext ⟨0⟩ true).frames = y.2.frames ∧
      ∃ id u c, Eval.context.run y.2 = (.ok id, u) ∧ y.2.context? id = none ∧
        u.context? id = some c ∧ c.Idle := by
  obtain ⟨hthread, htable, hc₀, hc₁, hs₀, hs₁, hg, hv⟩ : releasePoint.2.thread = 1 ∧
      releasePoint.2.byThread.get? 1 = some ⟨0⟩ ∧
      releasePoint.2.context? ⟨0⟩ = some (releasePoint.2.context ⟨0⟩) ∧
      releasePoint.2.context? ⟨1⟩ = some (releasePoint.2.context ⟨1⟩) ∧
      (releasePoint.2.context ⟨0⟩).stack = some ⟨[⟨2⟩]⟩ ∧
      (releasePoint.2.context ⟨1⟩).stack = some ⟨[⟨1⟩]⟩ ∧
      (releasePoint.2.frames.get? Machine.globalFrame).bind (·.get? "g") = some (.int 1) ∧
      (releasePoint.2.frames.get? ⟨1⟩).bind (·.get? "v") = some (.int 7) := by decide +kernel
  -- later the procedure is over, and its thread is still not in the table
  obtain ⟨y, hy, hcurrent, hthread', hopen, hunlisted⟩ : ∃ y ∈ releasedPoints,
      (y.2.context ⟨0⟩).current = some Machine.globalFrame ∧ y.2.thread = 1 ∧
      y.2.disposed = false ∧ y.2.byThread.get? 1 = none := by decide +kernel
  have hleads := leads_of_mem_releasedPoints hy
  obtain ⟨⟨hglobal, -⟩, hothers, hanswer, -, hlater⟩ := release_spares_shared_state
    (Machine.session_of_mem_history .start releasePoint_mem) (by rw [hthread]; decide)
  rw [hthread] at hothers hanswer hlater
  have hstacks : releasePoint.2.Stacks ⟨1⟩ ⟨1⟩ := ⟨_, _, hc₁, hs₁, List.mem_singleton_self _⟩
  have hframe := (hothers ⟨1⟩ (by rw [htable]; decide)).frames _ hstacks
  obtain ⟨hgone, hnext⟩ := hlater _ hleads
  obtain ⟨hdisposed, hfrees⟩ := hgone ⟨0⟩ htable
  obtain ⟨id, u, c, hrun, hnew, hc, -, -, hidle⟩ := (hnext hunlisted).2 hthread' hopen
  refine ⟨_, releasePoint_mem, y, (List.dropWhile_sublist _).mem hy, ⟨hthread, htable,
    ⟨_, _, hc₀, hs₀, List.mem_singleton_self _⟩, hstacks⟩, hanswer.2 ⟨_, htable⟩, ⟨?_, ?_⟩, hleads,
    hcurrent, hdisposed, (hfrees true).1, id, u, c, hrun, hnew, hc, hidle⟩
  · rw [hglobal]
    exact hg
  · rw [hframe]
    exact hv

end CommandHost
