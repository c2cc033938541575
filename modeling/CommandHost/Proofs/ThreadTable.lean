/-
CommandHost/Proofs/ThreadTable.lean

The thread table and the context handed out last.

A thread finds its context again in the thread table, unless the context handed out
last is already the right one.  The two could disagree: contexts are made, replaced,
released, freed and disposed by different steps, and some of these touch only one of
the two.  They never do disagree, because the table knows every active context
(`Machine.Tabled`): one is never in use without being in the table under its own
thread.

So looking a context up is a function of the table alone.  A thread that asks for
its context gets an active one of its own, and the same one again until that one is
released, freed or disposed.
-/
import CommandHost.Proofs.Lifetime

namespace CommandHost

open Program Eval

namespace Machine

/-! ### The table is in order -/

/-- The thread table knows every active context, and has none twice.  A disposed interpreter has no
active context. -/
structure Tabled (m : Machine) : Prop where
  active : ∀ {id c}, m.context? id = some c → c.stage = .active →
    m.byThread.get? c.thread = some id
  injective : ∀ {a b id}, m.byThread.get? a = some id → m.byThread.get? b = some id → a = b
  known : ∀ {a id}, m.byThread.get? a = some id → ∃ c, m.context? id = some c
  closed : m.disposed = true → ∀ {id c}, m.context? id = some c → c.stage ≠ .active

theorem tabled_start (s : Setup) : (start s).Tabled := by
  have hn (id : ContextId) : (start s).context? id = none := by
    simp [context?, start, loggedHere, logged]
  have ht (a : ThreadId) : (start s).byThread.get? a = none := by
    simp [start, loggedHere, logged]
  constructor
  · intro id c hc
    simp [hn] at hc
  · intro a b id ha
    simp [ht] at ha
  · intro a id ha
    simp [ht] at ha
  · intro _ id c hc
    simp [hn] at hc

/-- Contexts that age leave the table in order. -/
theorem Tabled.of_ages {m t : Machine} (h : m.Tabled) (ht : m.Takes t)
    (hs : t.contexts.size = m.contexts.size) (hb : t.byThread = m.byThread)
    (hd : t.disposed = m.disposed) : t.Tabled := by
  -- an active context was so before, and under the same thread
  have hback {id : ContextId} {c' : ThreadContext} (hc' : t.context? id = some c')
      (ha : c'.stage = .active) : ∃ c, m.context? id = some c ∧ c.stage = .active ∧
        c'.thread = c.thread := by
    have hid : id.index < m.contexts.size := hs ▸ (Array.getElem?_eq_some_iff.1 hc').1
    have hc : m.context? id = some m.contexts[id.index] := Array.getElem?_eq_getElem hid
    obtain ⟨c'', hc'', hage⟩ := ht.ages id _ hc
    obtain rfl := Option.some.inj (hc'.symm.trans hc'')
    exact ⟨_, hc, hage.active ha⟩
  constructor
  · intro id c' hc' ha
    obtain ⟨c, hc, hca, hthread⟩ := hback hc' ha
    rw [hb, hthread]
    exact h.active hc hca
  · intro a b id ha hb'
    rw [hb] at ha hb'
    exact h.injective ha hb'
  · intro a id ha
    rw [hb] at ha
    obtain ⟨c, hc⟩ := h.known ha
    obtain ⟨c', hc', -⟩ := ht.ages id _ hc
    exact ⟨c', hc'⟩
  · intro hdis id c' hc' ha
    obtain ⟨c, hc, hca, -⟩ := hback hc' ha
    exact h.closed (hd ▸ hdis) hc hca

/-- An active context that the table has for the current thread is found there. -/
theorem tableContext?_eq_some_iff {m : Machine} {id : ContextId} :
    m.tableContext? = some id ↔ m.byThread.get? m.thread = some id ∧
      (m.context id).disposed = false ∧ (m.context id).thread ≠ 0 := by
  simp [tableContext?, Option.filter_eq_some_iff]

theorem Tabled.createContext {m : Machine} (h : m.Tabled) (hd : m.disposed = false)
    (hn : m.tableContext? = none) : m.createContext.2.Tabled := by
  let new : ContextId := ⟨m.contexts.size⟩
  have hget (a : ThreadId) : m.createContext.2.byThread.get? a =
      if a = m.thread then some new else m.byThread.get? a :=
    m.byThread.get?_insert m.thread a new
  have hold {id : ContextId} (hid : id ≠ new) :
      m.createContext.2.context? id = m.context? id := by
    rw [m.context?_createContext, if_neg]
    exact fun h => hid (by cases id; simp_all [new])
  have hnew : m.createContext.2.context? new = some m.freshContext := by
    rw [m.context?_createContext, if_pos rfl]
  have hfree {a : ThreadId} : m.byThread.get? a ≠ some new := by
    intro ha
    obtain ⟨c, hc⟩ := h.known ha
    simp [context?, new] at hc
  constructor
  · intro id c hc ha
    by_cases hid : id = new
    · subst hid
      obtain rfl := Option.some.inj (hnew.symm.trans hc)
      show m.createContext.2.byThread.get? m.thread = some new
      rw [hget, if_pos rfl]
    · rw [hold hid] at hc
      have hin := h.active hc ha
      rw [hget, if_neg, hin]
      -- an active context of this thread would have been found
      intro hthread
      have hfound : m.tableContext? = some id := by
        rw [tableContext?_eq_some_iff, context_of_some hc, ← hthread]
        exact ⟨hin, Context.stage_eq_active_iff.1 ha⟩
      simp [hn] at hfound
  · intro a b id ha hb
    rw [hget] at ha hb
    split at ha <;> split at hb
    · simp_all
    · obtain rfl := Option.some.inj ha
      exact absurd hb hfree
    · obtain rfl := Option.some.inj hb
      exact absurd ha hfree
    · exact h.injective ha hb
  · intro a id ha
    rw [hget] at ha
    split at ha
    · obtain rfl := Option.some.inj ha
      exact ⟨_, hnew⟩
    · obtain ⟨c, hc⟩ := h.known ha
      have hid : id ≠ new := by
        rintro rfl
        exact hfree ha
      exact ⟨c, (hold hid).trans hc⟩
  · intro hdis
    have hdis : m.disposed = true := hdis
    simp [hd] at hdis

theorem Tabled.acquire {m : Machine} (h : m.Tabled) {create : Bool}
    (hd : create = true → m.disposed = false) : (m.acquire create).2.Tabled := by
  have hprevious (previous : Option ContextId) : { m with previous }.Tabled :=
    ⟨h.active, h.injective, h.known, h.closed⟩
  unfold Machine.acquire
  split
  · split <;> exact h
  · split
    · exact hprevious _
    · rename_i hn
      split
      · rename_i hcreate
        exact h.createContext (hd hcreate) hn
      · exact h

/-! ### Releasing and disposing -/

/-- A context that was disposed is disposed. -/
theorem disposed_disposeContext {m : Machine} {id : ContextId} {c : ThreadContext}
    (hc : m.context? id = some c) :
    ∃ c', (m.disposeContext id).context? id = some c' ∧ c'.disposed = true := by
  have h := m.context?_disposeContext id id
  rw [if_pos rfl, hc] at h
  refine ⟨c.dispose.2, h, ?_⟩
  unfold Context.dispose
  split <;> simp_all

theorem disposed_retire {m : Machine} {id : ContextId} {c : ThreadContext}
    (hc : m.context? id = some c) (shared : Bool) :
    ∃ c', ((m.freeContext id shared).disposeContext id).context? id = some c' ∧
      c'.disposed = true := by
  obtain ⟨c', hc', -⟩ := endures_retires.free m id shared id c hc
  exact disposed_disposeContext hc'

theorem disposed_release {m : Machine} {id : ContextId} {c : ThreadContext}
    (hid : m.byThread.get? m.thread = some id) (hc : m.context? id = some c) :
    ∃ c', m.release.2.context? id = some c' ∧ c'.disposed = true := by
  obtain ⟨log, e⟩ := release_of_some hid
  rw [e]
  exact disposed_retire (m := m.unlist id) hc false

/-- Every context of the table is disposed with the interpreter. -/
theorem disposed_purge {m : Machine} {a : ThreadId} {id : ContextId} {c : ThreadContext}
    (hid : m.byThread.get? a = some id) (hc : m.context? id = some c) :
    ∃ c', m.purge.context? id = some c' ∧ c'.disposed = true := by
  have hmem : id ∈ m.byThread.entries.map Prod.snd :=
    List.mem_map.2 ⟨(a, id), Table.mem_of_get? hid, rfl⟩
  unfold Machine.purge
  replace hc : { m with byThread := ∅, previous := none }.context? id = some c := hc
  generalize m.byThread.entries.map Prod.snd = ids at hmem
  generalize { m with byThread := ∅, previous := none } = t at hc
  clear hid
  induction ids generalizing t c with
  | nil => cases hmem
  | cons k ids ih =>
    by_cases hk : id = k
    · subst hk
      obtain ⟨c', hc', hd⟩ := disposed_retire hc true
      -- retiring the others leaves it disposed
      obtain ⟨c'', hc'', hr⟩ := endures_retires.foldl ids _ id c' hc'
      refine ⟨c'', hc'', ?_⟩
      rcases hr with rfl | ⟨hd', -⟩
      · exact hd
      · simp [hd] at hd'
    · obtain ⟨c₁, hc₁, -⟩ := endures_retires.free t k true id c hc
      obtain ⟨c₂, hc₂, -⟩ := endures_retires.retire _ k id c₁ hc₁
      exact ih ((List.mem_cons.1 hmem).resolve_left hk) _ hc₂

theorem disposed_context_dispose {m : Machine} (hd : m.disposed = false) {a : ThreadId}
    {id : ContextId} {c : ThreadContext} (hid : m.byThread.get? a = some id)
    (hc : m.context? id = some c) :
    ∃ c', m.dispose.context? id = some c' ∧ c'.disposed = true := by
  have hpurged : m.dispose.context? id = { m with disposed := true }.purge.context? id := by
    simp only [Machine.dispose, hd]
    rfl
  rw [hpurged]
  exact disposed_purge (m := { m with disposed := true }) hid hc

/-- Retiring contexts leaves those that are still active in the table, if the others are out of
it. -/
theorem Tabled.of_retires {m t : Machine} (h : m.Tabled) (ht : m.Retires t)
    (hs : t.contexts.size = m.contexts.size)
    (hsub : ∀ {a id}, t.byThread.get? a = some id → m.byThread.get? a = some id)
    (hkeep : ∀ {id c}, t.context? id = some c → c.stage = .active →
      m.byThread.get? c.thread = some id → t.byThread.get? c.thread = some id ∧
        t.disposed = m.disposed) : t.Tabled := by
  have hback {id : ContextId} {c : ThreadContext} (hc : t.context? id = some c)
      (ha : c.stage = .active) : m.context? id = some c := by
    have hid : id.index < m.contexts.size := hs ▸ (Array.getElem?_eq_some_iff.1 hc).1
    have hm : m.context? id = some m.contexts[id.index] := Array.getElem?_eq_getElem hid
    obtain ⟨c', hc', hr⟩ := ht id _ hm
    obtain rfl := Option.some.inj (hc.symm.trans hc')
    rcases hr with rfl | ⟨-, d, rfl⟩
    · exact hm
    · exact absurd rfl (Context.stage_eq_active_iff.1 ha).2
  constructor
  · intro id c hc ha
    exact (hkeep hc ha (h.active (hback hc ha) ha)).1
  · intro a b id ha hb
    exact h.injective (hsub ha) (hsub hb)
  · intro a id ha
    obtain ⟨c, hc⟩ := h.known (hsub ha)
    obtain ⟨c', hc', -⟩ := ht id c hc
    exact ⟨c', hc'⟩
  · intro hd id c hc ha
    have hm := hback hc ha
    exact h.closed ((hkeep hc ha (h.active hm ha)).2 ▸ hd) hm ha

/-- What releasing a thread does to what is not its context. -/
theorem shared_release {m : Machine} {id : ContextId} (hid : m.byThread.get? m.thread = some id) :
    m.release.2.byThread = m.byThread.erase m.thread ∧ m.release.2.thread = m.thread ∧
      m.release.2.disposed = m.disposed := by
  obtain ⟨log, e⟩ := release_of_some hid
  rw [e]
  exact ⟨rfl, rfl, rfl⟩

theorem Tabled.release {m : Machine} (h : m.Tabled) : m.release.2.Tabled := by
  rcases hid : m.byThread.get? m.thread with - | id
  · rwa [release_of_none hid]
  obtain ⟨htable, -, hdisposed⟩ := shared_release hid
  refine h.of_retires (endures_retires.release m) (endures_size.release m) ?_ ?_
  · intro a k ha
    rw [htable, Table.get?_erase] at ha
    split at ha
    · cases ha
    · exact ha
  · intro k c hc ha hk
    refine ⟨?_, hdisposed⟩
    rw [htable, Table.get?_erase, if_neg, hk]
    -- the context of the current thread is the one that was released
    intro hthread
    rw [hthread, hid] at hk
    obtain rfl := Option.some.inj hk
    obtain ⟨c₀, hc₀⟩ := h.known hid
    obtain ⟨c', hc', hd⟩ := disposed_release hid hc₀
    obtain rfl := Option.some.inj (hc.symm.trans hc')
    simp [(Context.stage_eq_active_iff.1 ha).1] at hd

theorem byThread_purge (m : Machine) : m.purge.byThread = ∅ := by
  have hfold (ids : List ContextId) (t : Machine) : (ids.foldl (fun m id =>
      (m.freeContext id true).disposeContext id) t).byThread = t.byThread := by
    induction ids generalizing t with
    | nil => rfl
    | cons id ids ih => exact ih _
  exact hfold _ _

theorem Tabled.dispose {m : Machine} (h : m.Tabled) : m.dispose.Tabled := by
  by_cases hd : m.disposed = true
  · have hm : m.dispose = m := by simp [Machine.dispose, hd]
    exact hm.symm ▸ h
  have htable : m.dispose.byThread = ∅ := by
    simp only [Machine.dispose, hd]
    exact { m with disposed := true }.byThread_purge
  refine h.of_retires (endures_retires.dispose m) (endures_size.dispose m) ?_ ?_
  · intro a k ha
    rw [htable] at ha
    cases ha
  · intro k c hc ha hk
    -- it was in the table, so it is disposed
    obtain ⟨c₀, hc₀⟩ := h.known hk
    obtain ⟨c', hc', hd'⟩ := disposed_context_dispose (by simpa using hd) hk hc₀
    obtain rfl := Option.some.inj (hc.symm.trans hc')
    simp [(Context.stage_eq_active_iff.1 ha).1] at hd'

theorem Tabled.onTable {m : Machine} (h : m.Tabled) {a : Action} (ha : a.OnTable) :
    (m.after a).Tabled := by
  obtain ⟨commands, cache, log, e⟩ := ha.after m
  rw [e]
  exact ⟨h.active, h.injective, h.known, h.closed⟩

/-- Every step leaves the table in order. -/
theorem Tabled.takes {m t : Machine} (ht : m.Takes t) (h : m.Tabled) : t.Tabled := by
  obtain ⟨a, ha, rfl⟩ := ht
  cases a with
  | acquire create => exact h.acquire ha
  | release => exact h.release
  | dispose => exact h.dispose
  | resolve | askCache | define | delete | rename | clearCache => exact h.onTable (by trivial)
  | setSlot | setStack | freeContext | disposeContext =>
    exact h.of_ages ⟨_, ha, rfl⟩ Array.size_modify rfl rfl
  | rest | channels | names | switchThread | setVariables | newFrame | disposeFrame =>
    exact h.of_ages ⟨_, ha, rfl⟩ rfl rfl rfl

end Machine

theorem Session.tabled {s : Setup} {path : Path Stop Machine} {m : Machine}
    (h : Session s path m) : m.Tabled :=
  h.invariant_of Built.takes_perform Machine.takes_silent (Machine.tabled_start s)
    fun _ _ => Machine.Tabled.takes

/-! ### The context handed out last -/

namespace Machine

/-- The machine without memory of the context handed out last. -/
def forget (m : Machine) : Machine := { m with previous := none }

theorem canUse_some_iff {m : Machine} {id : ContextId} : m.canUse (some id) = true ↔
    (m.context id).disposed = false ∧ (m.context id).thread = m.thread := by
  simp [canUse, CommandHost.canUse, Affinity.canUse, Context.affinity]

/-- A context that is not disposed is not missing. -/
theorem context?_of_not_disposed {m : Machine} {id : ContextId}
    (h : (m.context id).disposed = false) : m.context? id = some (m.context id) := by
  rcases e : m.context? id with - | c
  · simp [context, e] at h
  · rw [context_of_some e]

/-- An active context of the current thread is the one of the table. -/
theorem Tabled.tableContext?_of_active {m : Machine} (h : m.Tabled) {id : ContextId}
    {c : ThreadContext} (hc : m.context? id = some c) (ha : c.stage = .active)
    (ht : m.thread = c.thread) : m.tableContext? = some id := by
  rw [tableContext?_eq_some_iff, context_of_some hc, ht]
  exact ⟨h.active hc ha, Context.stage_eq_active_iff.1 ha⟩

/-- A context that the current thread may use is the one of the table. -/
theorem Tabled.tableContext?_of_canUse {m : Machine} (h : m.Tabled) (h0 : m.thread ≠ 0)
    {id : ContextId} (hu : m.canUse (some id) = true) : m.tableContext? = some id := by
  obtain ⟨hd, ht⟩ := canUse_some_iff.1 hu
  have ha : (m.context id).stage = .active := Context.stage_eq_active_iff.2 ⟨hd, ht ▸ h0⟩
  exact h.tableContext?_of_active (context?_of_not_disposed hd) ha ht.symm

/-- A context that the table has for the current thread is active and belongs to the thread. -/
theorem Tabled.active_of_tableContext? {m : Machine} (h : m.Tabled) {id : ContextId}
    (hid : m.tableContext? = some id) : ∃ c, m.context? id = some c ∧ c.stage = .active ∧
      c.thread = m.thread := by
  obtain ⟨hget, hd, ht⟩ := tableContext?_eq_some_iff.1 hid
  have hc := context?_of_not_disposed hd
  have ha : (m.context id).stage = .active := Context.stage_eq_active_iff.2 ⟨hd, ht⟩
  exact ⟨_, hc, ha, h.injective (h.active hc ha) hget⟩

/-- Without memory of the last context, the table decides. -/
theorem acquire_forget_eq (m : Machine) (create : Bool) : m.forget.acquire create =
    match m.tableContext? with
    | some id => (.ok id, { m with previous := some id })
    | none =>
      if create then (.ok m.forget.createContext.1, m.forget.createContext.2)
      else (.error (.misuse .noContext), m.forget) := rfl

/-- What the memory of the last context saves is only a look at the table. -/
theorem Tabled.acquire_forget {m : Machine} (h : m.Tabled) (h0 : m.thread ≠ 0) (create : Bool) :
    (m.acquire create).1 = (m.forget.acquire create).1 ∧
      (m.acquire create).2.forget = (m.forget.acquire create).2.forget := by
  rw [acquire_forget_eq]
  unfold Machine.acquire
  by_cases hu : m.canUse m.previous = true
  · rw [if_pos hu]
    rcases hp : m.previous with - | id
    · simp [hp, canUse, CommandHost.canUse] at hu
    · rw [hp] at hu
      rw [h.tableContext?_of_canUse h0 hu]
      exact ⟨rfl, rfl⟩
  · rw [if_neg hu]
    rcases m.tableContext? with - | id
    · cases create <;> exact ⟨rfl, rfl⟩
    · exact ⟨rfl, rfl⟩

/-- A thread's active context is found, with or without memory of the last one. -/
theorem Tabled.acquire_of_tableContext? {m : Machine} (h : m.Tabled) (h0 : m.thread ≠ 0)
    {id : ContextId} (hid : m.tableContext? = some id) (create : Bool) :
    (m.acquire create).1 = .ok id := by
  rw [(h.acquire_forget h0 create).1, acquire_forget_eq, hid]

theorem run_context {m : Machine} (hd : m.disposed = false) {id : ContextId}
    (hid : (m.acquire true).1 = .ok id) : Eval.context.run m = (.ok id, (m.acquire true).2) := by
  rcases e : m.acquire true with ⟨err | id', t⟩
  · simp [e] at hid
  · simp_all [Eval.context, ofChange]

/-- A thread without a usable context gets a fresh one. -/
theorem Tabled.run_context_of_none {m : Machine} (h : m.Tabled) (h0 : m.thread ≠ 0)
    (hd : m.disposed = false) (hn : m.tableContext? = none) :
    Eval.context.run m = (.ok m.createContext.1, m.createContext.2) ∧
      m.createContext.2.context? m.createContext.1 = some m.freshContext := by
  have hu : ¬ m.canUse m.previous = true := by
    intro hu
    rcases hp : m.previous with - | k
    · simp [hp, canUse, CommandHost.canUse] at hu
    · simp [h.tableContext?_of_canUse h0 (hp ▸ hu)] at hn
  have hacquire : m.acquire true = (.ok m.createContext.1, m.createContext.2) := by
    unfold Machine.acquire
    rw [if_neg hu, hn]
    rfl
  constructor
  · rw [run_context hd (by rw [hacquire]), hacquire]
  · rw [m.context?_createContext]
    exact if_pos rfl

/-- An interpreter that is not disposed has an active context for the current thread. -/
theorem Tabled.exists_context {m : Machine} (h : m.Tabled) (h0 : m.thread ≠ 0)
    (hd : m.disposed = false) :
    ∃ id c, (Eval.context.run m).1 = .ok id ∧ (Eval.context.run m).2.context? id = some c ∧
      c.stage = .active ∧ c.thread = m.thread := by
  rcases hid : m.tableContext? with - | id
  · obtain ⟨hrun, hc⟩ := h.run_context_of_none h0 hd hid
    rw [hrun]
    exact ⟨_, m.freshContext, rfl, hc, Context.stage_eq_active_iff.2 ⟨rfl, h0⟩, rfl⟩
  · obtain ⟨c, hc, ha, ht⟩ := h.active_of_tableContext? hid
    have hrun := run_context hd (h.acquire_of_tableContext? h0 hid true)
    rw [hrun]
    exact ⟨id, c, rfl, context?_acquire hc true, ha, ht⟩

/-- A thread whose context is active gets that one. -/
theorem Tabled.run_context_of_active {m : Machine} (h : m.Tabled) {id : ContextId}
    {c : ThreadContext} (hc : m.context? id = some c) (ha : c.stage = .active)
    (ht : m.thread = c.thread) : (Eval.context.run m).1 = .ok id := by
  have h0 : m.thread ≠ 0 := ht ▸ (Context.stage_eq_active_iff.1 ha).2
  have hd : m.disposed = false := by
    by_contra hd
    exact h.closed (by simpa using hd) hc ha
  rw [run_context hd (h.acquire_of_tableContext? h0 (h.tableContext?_of_active hc ha ht) true)]

/-! ### Until it is retired -/

/-- What is done to a context when it stops being active. -/
def Retired (m t : Machine) (id : ContextId) : Prop :=
  (t = m.release.2 ∧ m.thread = (m.context id).thread) ∨ (∃ shared, t = m.freeContext id shared) ∨
    t = m.disposeContext id ∨ t = m.dispose

/-- Releasing a thread touches the context of the table only. -/
theorem context?_release {m : Machine} {id : ContextId} (hid : m.byThread.get? m.thread ≠ some id) :
    m.release.2.context? id = m.context? id := by
  rcases hk : m.byThread.get? m.thread with - | k
  · rw [release_of_none hk]
  have hne : id ≠ k := by
    rintro rfl
    exact hid hk
  have hfree := (m.unlist k).context?_freeContext k false id
  have hretire := ((m.unlist k).freeContext k false).context?_disposeContext k id
  rw [if_neg hne] at hfree hretire
  obtain ⟨log, e⟩ := release_of_some hk
  rw [e]
  exact hretire.trans hfree

theorem context?_onTable {a : Action} (h : a.OnTable) (m : Machine) (id : ContextId) :
    (m.after a).context? id = m.context? id := by
  obtain ⟨commands, cache, log, e⟩ := h.after m
  rw [e]
  rfl

/-- An active context stops being so only by being released, freed or disposed. -/
theorem Takes.retired {m t : Machine} (h : m.Takes t) (hm : m.Tabled) {id : ContextId}
    {c c' : ThreadContext} (hc : m.context? id = some c) (ha : c.stage = .active)
    (hc' : t.context? id = some c') (hn : c'.stage ≠ .active) : m.Retired t id := by
  -- a step that leaves the context alone is none
  have hsame (he : t.context? id = m.context? id) : m.Retired t id := by
    rw [he, hc] at hc'
    obtain rfl := Option.some.inj hc'
    exact absurd ha hn
  -- nor is one that only moves it between frames
  have hstage {k : ContextId} {g : ThreadContext → ThreadContext}
      (hg : ∀ c, (g c).stage = c.stage)
      (he : t.context? id = if id = k then (m.context? id).map g else m.context? id) :
      m.Retired t id := by
    rw [hc] at he
    split at he
    · obtain rfl := Option.some.inj (hc'.symm.trans he)
      exact absurd ((hg c).trans ha) hn
    · exact hsame (he.trans hc.symm)
  obtain ⟨a, had, rfl⟩ := h
  cases a with
  | acquire create => exact hsame ((context?_acquire hc create).trans hc.symm)
  | release =>
    by_cases hid : m.byThread.get? m.thread = some id
    · refine .inl ⟨rfl, ?_⟩
      rw [context_of_some hc]
      exact hm.injective hid (hm.active hc ha)
    · exact hsame (context?_release hid)
  | freeContext k shared =>
    by_cases hid : id = k
    · subst hid
      exact .inr (.inl ⟨shared, rfl⟩)
    · refine hsame ((m.context?_freeContext k shared id).trans ?_)
      rw [if_neg hid]
  | disposeContext k =>
    by_cases hid : id = k
    · subst hid
      exact .inr (.inr (.inl rfl))
    · refine hsame ((m.context?_disposeContext k id).trans ?_)
      rw [if_neg hid]
  | dispose => exact .inr (.inr (.inr rfl))
  | setSlot k slot f =>
    exact hstage (·.stage_setFrame slot f) (m.context?_setContext_apply k id (·.setFrame slot f))
  | setStack k s =>
    have he := m.context?_setContext_apply k id fun c => { c with stack := s }
    refine hstage ?_ he
    exact fun _ => rfl
  | resolve | askCache | define | delete | rename | clearCache =>
    exact hsame (context?_onTable (by trivial) m id)
  | rest | channels | names | switchThread | setVariables | newFrame | disposeFrame =>
    exact hsame rfl

end Machine

/-- **The context handed out last agrees with the thread table**: throughout a session the table
knows every active context under its thread.  So whether a thread has a context, and which, does
not depend on the memory of the last one; a thread that asks for its context gets an active one of
its own; and it gets the same again until that one is released, freed or disposed. -/
theorem last_context_agrees_with_table (s : Setup) (calls : List (Nat × HostCall)) :
    (∀ x ∈ (Machine.start s).history calls, x.2.Tabled ∧
      (x.2.thread ≠ 0 → (∀ create, (x.2.acquire create).1 = (x.2.forget.acquire create).1 ∧
        (x.2.acquire create).2.forget = (x.2.forget.acquire create).2.forget) ∧
      (x.2.disposed = false → ∃ id c, (Eval.context.run x.2).1 = .ok id ∧
        (Eval.context.run x.2).2.context? id = some c ∧ c.stage = .active ∧
          c.thread = x.2.thread))) ∧
    ((Machine.start s).history calls).Pairwise (fun x y => ∀ id c, x.2.context? id = some c →
      (y.2.context id).stage = .active → y.2.thread = c.thread →
        (Eval.context.run y.2).1 = .ok id) ∧
    ((Machine.start s).history calls).IsChain fun x y => ∀ id c, x.2.context? id = some c →
      c.stage = .active → (y.2.context id).stage ≠ .active → x.2.Retired y.2 id := by
  have htabled : ∀ x ∈ (Machine.start s).history calls, x.2.Tabled := fun x hx =>
    (Machine.session_of_mem_history .start hx).tabled
  refine ⟨fun x hx => ⟨htabled x hx, fun h0 => ⟨(htabled x hx).acquire_forget h0,
    (htabled x hx).exists_context h0⟩⟩, ?_, ?_⟩
  · have hages := Machine.history_pairwise Built.takes_perform Machine.takes_silent
      Machine.Ages.refl .trans (fun _ _ => Machine.Takes.ages) (Machine.start s) calls
    refine hages.imp_of_mem fun {x y} _ hy hxy id c hc ha ht => ?_
    obtain ⟨c', hc', hage⟩ := hxy id c hc
    rw [Machine.context_of_some hc'] at ha
    exact (htabled y hy).run_context_of_active hc' ha (ht.trans (hage.active ha).2.symm)
  · have hchain := Machine.history_chain Built.takes_perform Machine.takes_silent
      (Machine.start s) calls
    refine hchain.imp_of_mem_imp fun x y hx _ hxy id c hc ha hn => ?_
    rcases hxy with h | h
    · rw [h, Machine.context_of_some hc] at hn
      exact absurd ha hn
    · obtain ⟨c', hc', -⟩ := h.ages id c hc
      rw [Machine.context_of_some hc'] at hn
      exact h.retired (htabled x hx) hc ha hc' hn

/-- Two threads ask for their contexts; then the first goes on and disposes its own. -/
def twoThreads : List (Path Stop Machine × Machine) :=
  (Machine.start { id := "host" }).history [(1, .context (some "c")), (1, .switchThread 2),
    (1, .context none), (1, .switchThread 1), (1, .disposeContext (.saved "c"))]

/-- A thread finds its context again after another one was handed out last. -/
theorem last_context_agrees_with_table_two_threads :
    ∃ x ∈ twoThreads, (x.2.thread = 1 ∧ x.2.previous = some ⟨1⟩ ∧ x.2.disposed = false) ∧
      (x.2.acquire false).1 = (x.2.forget.acquire false).1 ∧
      (∃ id c, (Eval.context.run x.2).1 = .ok id ∧
        (Eval.context.run x.2).2.context? id = some c ∧ c.thread = x.2.thread) ∧
      (Eval.context.run x.2).1 = .ok ⟨0⟩ ∧
      ∃ y ∈ twoThreads, ∃ z ∈ twoThreads, (y.2.context ⟨0⟩).stage = .active ∧
        (z.2.context ⟨0⟩).stage = .disposed ∧ y.2.Retired z.2 ⟨0⟩ := by
  obtain ⟨hpoints, hpairs, hchain⟩ := last_context_agrees_with_table { id := "host" } _
  change twoThreads.Pairwise _ at hpairs
  change twoThreads.IsChain _ at hchain
  -- the first thread has got its context, and is back after the second one has got another
  obtain ⟨w, -, x, hx, hsame, hback⟩ := exists_later hpairs
    (P := fun w x => w.2.context? ⟨0⟩ = some (w.2.context ⟨0⟩) ∧ (x.2.thread = 1 ∧
      x.2.previous = some ⟨1⟩ ∧ x.2.disposed = false) ∧ (x.2.context ⟨0⟩).stage = .active ∧
      x.2.thread = (w.2.context ⟨0⟩).thread) (by decide +kernel)
  -- the context is disposed from one point to the next
  obtain ⟨y, hy, z, hz, hretired, hgone⟩ := exists_next hchain
    (P := fun y z => y.2.context? ⟨0⟩ = some (y.2.context ⟨0⟩) ∧
      (y.2.context ⟨0⟩).stage = .active ∧ (z.2.context ⟨0⟩).stage = .disposed) (by decide +kernel)
  obtain ⟨hw, hfirst, hactive, howner⟩ := hback
  obtain ⟨hc, hbefore, hafter⟩ := hgone
  obtain ⟨hagree, hcontext⟩ := (hpoints x hx).2 (by rw [hfirst.1]; decide)
  obtain ⟨id, c, hid, hidc, -, hown⟩ := hcontext hfirst.2.2
  exact ⟨x, hx, hfirst, (hagree false).1, ⟨id, c, hid, hidc, hown⟩,
    hsame ⟨0⟩ _ hw hactive howner, y, hy, z, hz, hbefore, hafter,
    hretired ⟨0⟩ _ hc hbefore (by rw [hafter]; decide)⟩

end CommandHost
