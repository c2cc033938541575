/-
CommandHost/Proofs/Termination.lean

The depth limit stops every recursion.

The evaluator is bounded by how deeply bodies may nest, and an evaluation that would
go deeper is exhausted.  For commands whose bodies are tame, a bound can be computed
beforehand.  A call of a procedure pushes a frame on the stack of its context, and
nothing that a tame body does takes that frame off before the call is left.  So the
room that the stacks have left below the limit (`Machine.room`) goes down by one with
each nested call and never up, and between two nested calls bodies nest no deeper
than they are written (`bodyNesting`).

That more depth makes no difference to an evaluation that was not exhausted holds of
all evaluations (`Extends`).
-/
import CommandHost.Proofs.Composition
import CommandHost.Proofs.FrameStructure
import CommandHost.Proofs.Transparency

namespace CommandHost

open Program Eval Dispatch

/-! ### Nesting of bodies -/

mutual

/-- How deeply the bodies in a statement are nested. -/
def Stmt.nesting : Stmt → Nat
  | .catchError body | .wrap _ body | .uplevel _ body | .inScope _ body => bodyNesting body
  | .branch _ yes no => max (bodyNesting yes) (bodyNesting no)
  | _ => 0

/-- How deeply bodies are nested in a body, which counts itself. -/
def bodyNesting : List Stmt → Nat
  | [] => 1
  | s :: rest => max (s.nesting + 1) (bodyNesting rest)

end

/-- How deeply bodies are nested in a command. -/
def Command.nesting : Command → Nat
  | function body | procedure _ _ body => bodyNesting body
  | _ => 0

theorem one_le_bodyNesting (body : List Stmt) : 1 ≤ bodyNesting body := by
  cases body with
  | nil => simp [bodyNesting]
  | cons s rest =>
    simp only [bodyNesting]
    omega

/-- A body nests more deeply than each of its statements. -/
theorem nesting_lt_of_mem {s : Stmt} {body : List Stmt} (h : s ∈ body) :
    s.nesting < bodyNesting body := by
  induction body with
  | nil => cases h
  | cons t rest ih =>
    simp only [bodyNesting]
    rcases List.mem_cons.1 h with rfl | h
    · omega
    · have := ih h
      omega

theorem bodyNesting_le_of_mem {s : Stmt} {b : List Stmt} (h : b ∈ s.bodies) :
    bodyNesting b ≤ s.nesting := by
  cases s <;> simp only [Stmt.bodies, List.mem_cons, List.not_mem_nil, or_false] at h
  case branch c yes no =>
    simp only [Stmt.nesting]
    rcases h with rfl | rfl
    · omega
    · omega
  all_goals
    subst h
    simp [Stmt.nesting]

/-- The statements of a tame body are tame. -/
theorem isTame_of_mem {s : Stmt} {body : List Stmt} (ht : tameBody body = true) (h : s ∈ body) :
    s.isTame = true := by
  induction body with
  | nil => cases h
  | cons t rest ih =>
    simp only [tameBody, Bool.and_eq_true] at ht
    rcases List.mem_cons.1 h with rfl | h
    · exact ht.1
    · exact ih ht.2 h

theorem tameBody_of_mem {s : Stmt} {b : List Stmt} (ht : s.isTame = true) (h : b ∈ s.bodies) :
    tameBody b = true := by
  cases s <;> simp only [Stmt.bodies, List.mem_cons, List.not_mem_nil, or_false] at h
  case branch c yes no =>
    simp only [Stmt.isTame, Bool.and_eq_true] at ht
    rcases h with rfl | rfl
    · exact ht.1
    · exact ht.2
  all_goals
    subst h
    simpa [Stmt.isTame] using ht

/-! ### Room -/

/-- How many more frames the stack of a context takes. -/
def roomOf (maxDepth : Int) (c : ThreadContext) : Nat :=
  (c.stack.map fun s => (maxDepth - s.depth).toNat).getD 0

/-- How many more frames the stacks of contexts take together. -/
def totalRoom (maxDepth : Int) : List ThreadContext → Nat
  | [] => 0
  | c :: cs => roomOf maxDepth c + totalRoom maxDepth cs

theorem totalRoom_append (maxDepth : Int) (cs ds : List ThreadContext) :
    totalRoom maxDepth (cs ++ ds) = totalRoom maxDepth cs + totalRoom maxDepth ds := by
  induction cs with
  | nil => simp [totalRoom]
  | cons c cs ih =>
    simp only [List.cons_append, totalRoom, ih]
    omega

/-- Another context in the place of one. -/
theorem totalRoom_modify (maxDepth : Int) {cs : List ThreadContext} {i : Nat} {c : ThreadContext}
    (h : cs[i]? = some c) (f : ThreadContext → ThreadContext) :
    totalRoom maxDepth (cs.modify i f) + roomOf maxDepth c =
      totalRoom maxDepth cs + roomOf maxDepth (f c) := by
  induction cs generalizing i with
  | nil => simp at h
  | cons d cs ih =>
    cases i with
    | zero =>
      obtain rfl : d = c := by simpa using h
      simp only [List.modify_zero_cons, totalRoom]
      omega
    | succ i =>
      have := ih (by simpa using h)
      simp only [List.modify_succ_cons, totalRoom]
      omega

namespace Machine

/-- How many more frames the stacks take, with that of the context that the current thread may
still have made for it. -/
def room (m : Machine) : Nat :=
  totalRoom m.maxDepth m.contexts.toList + if m.canUse m.previous then 0 else m.maxDepth.toNat

theorem affinity_setContext (m : Machine) (id : ContextId) {g : ThreadContext → ThreadContext}
    (hg : ∀ c, (g c).affinity = c.affinity) (k : ContextId) :
    ((m.setContext id (g (m.context id))).context k).affinity = (m.context k).affinity := by
  rw [context, m.context?_setContext_apply id k g, context]
  rcases m.context? k with - | c
  · simp
  · by_cases hk : k = id
    · simp [hk, hg]
    · simp [hk]

/-- Who may use a context depends on its thread and on whether it is disposed. -/
theorem canUse_setContext (m : Machine) (id : ContextId) {g : ThreadContext → ThreadContext}
    (hg : ∀ c, (g c).affinity = c.affinity) (k : Option ContextId) :
    (m.setContext id (g (m.context id))).canUse k = m.canUse k := by
  cases k with
  | none => rfl
  | some k =>
    simp only [canUse, Option.map_some, m.affinity_setContext id hg]
    rfl

/-- The room after a context was changed. -/
theorem room_setContext {m : Machine} {id : ContextId} {c : ThreadContext}
    (hc : m.context? id = some c) {g : ThreadContext → ThreadContext}
    (hg : ∀ c, (g c).affinity = c.affinity) :
    (m.setContext id (g (m.context id))).room + roomOf m.maxDepth c =
      m.room + roomOf m.maxDepth (g c) := by
  have hget : m.contexts.toList[id.index]? = some c := by simpa [context?] using hc
  have hmodify := totalRoom_modify m.maxDepth hget fun _ => g (m.context id)
  have htotal : (m.setContext id (g (m.context id))).room =
      totalRoom m.maxDepth (m.contexts.toList.modify id.index fun _ => g (m.context id)) +
        if m.canUse m.previous then 0 else m.maxDepth.toNat := by
    rw [room, m.canUse_setContext id hg]
    simp only [setContext, Array.toList_modify]
    rfl
  rw [htotal]
  rw [context_of_some hc] at hmodify ⊢
  simp only [room]
  omega

theorem setContext_of_none {m : Machine} {id : ContextId} (h : m.context? id = none)
    (c : ThreadContext) : m.setContext id c = m := by
  have hsize : m.contexts.toList.length ≤ id.index := by simpa [context?] using h
  have hcontexts : m.contexts.modify id.index (fun _ => c) = m.contexts := by
    apply Array.toList_inj.1
    rw [Array.toList_modify, List.modify_eq_self hsize]
  simp [setContext, hcontexts]

/-- Slots take no room. -/
theorem room_setFrame (m : Machine) (id : ContextId) (slot : Slot) (f : Option FrameId) :
    (m.setContext id ((m.context id).setFrame slot f)).room = m.room := by
  rcases hc : m.context? id with - | c
  · rw [setContext_of_none hc]
  · have hroom := room_setContext hc (g := fun c => c.setFrame slot f) fun c => by cases slot <;> rfl
    have hsame : roomOf m.maxDepth (c.setFrame slot f) = roomOf m.maxDepth c := by cases slot <;> rfl
    exact Nat.add_right_cancel (hroom.trans (congrArg (m.room + ·) hsame))

/-- A call pushes a frame. -/
theorem room_push {m : Machine} {id : ContextId} {s : CallStack}
    (hs : (m.context id).stack = some s) (hd : s.depth < m.maxDepth) (f : FrameId) :
    ((modifyStack id (·.push f)).run m).2.room + 1 = m.room := by
  rcases hc : m.context? id with - | c
  · -- a missing context has no stack
    simp [context, hc] at hs
  · rw [context_of_some hc] at hs
    have hroom := room_setContext hc (g := fun c => { c with stack := c.stack.map (·.push f) })
      fun _ => rfl
    have hbefore : roomOf m.maxDepth c = (m.maxDepth - s.depth).toNat := by simp [roomOf, hs]
    have hafter : roomOf m.maxDepth { c with stack := c.stack.map (·.push f) } =
        (m.maxDepth - (s.depth + 1)).toNat := by
      simp only [roomOf, hs, CallStack.push, CallStack.depth, Option.map_some, Option.getD_some,
        List.length_cons, Int.natCast_add, Int.natCast_one]
    change ((modifyStack id (·.push f)).run m).2.room + _ = _ at hroom
    omega

/-- Leaving a call pops one. -/
theorem room_pop (m : Machine) (id : ContextId) :
    ((modifyStack id (·.pop)).run m).2.room ≤ m.room + 1 := by
  rcases hc : m.context? id with - | c
  · show (m.setContext id _).room ≤ m.room + 1
    rw [setContext_of_none hc]
    omega
  · have hroom := room_setContext hc (g := fun c => { c with stack := c.stack.map (·.pop) })
      fun _ => rfl
    -- a popped stack has room for one frame more at most
    have hpop : roomOf m.maxDepth { c with stack := c.stack.map (·.pop) } ≤
        roomOf m.maxDepth c + 1 := by
      rcases hs : c.stack with - | s
      · simp [roomOf, hs]
      · simp only [roomOf, hs, Option.map_some, Option.getD_some, CallStack.pop, CallStack.depth,
          List.length_tail]
        omega
    change ((modifyStack id (·.pop)).run m).2.room + _ = _ at hroom
    omega

/-- Acquiring a context makes one only if the current thread may not use the one handed out last. -/
theorem room_acquire (m : Machine) (create : Bool) : (m.acquire create).2.room ≤ m.room := by
  unfold acquire
  split
  · split <;> exact Nat.le_refl _
  · rename_i hu
    have hroom : m.room = totalRoom m.maxDepth m.contexts.toList + m.maxDepth.toNat := by
      simp [room, hu]
    split
    · rename_i id _
      show totalRoom m.maxDepth m.contexts.toList +
        (if m.canUse (some id) then 0 else m.maxDepth.toNat) ≤ m.room
      split <;> omega
    · split
      · -- the room that was kept for the context of this thread is that of the new one
        have hcanUse : m.createContext.2.canUse m.createContext.2.previous = true := by
          have hcontext : m.createContext.2.context m.createContext.1 = m.freshContext := by
            rw [context, context?_createContext]
            exact congrArg (Option.getD · _) (if_pos rfl)
          show CommandHost.canUse (some (m.createContext.2.context m.createContext.1).affinity) m.thread
            = true
          rw [hcontext]
          simp [freshContext, CommandHost.canUse, Affinity.canUse, Context.affinity]
        have hcontexts : m.createContext.2.contexts.toList =
            m.contexts.toList ++ [m.freshContext] := by
          simp [createContext, loggedHere, logged]
        have hfresh : roomOf m.maxDepth m.freshContext = m.maxDepth.toNat := by
          simp [roomOf, freshContext, CallStack.depth]
        show m.createContext.2.room ≤ m.room
        rw [room, hcanUse, hcontexts, totalRoom_append]
        show totalRoom m.maxDepth m.contexts.toList + totalRoom m.maxDepth [m.freshContext] + _ ≤ _
        simp only [totalRoom, hfresh, hroom, if_true]
        omega
      · exact Nat.le_refl _

end Machine

/-! ### Evaluations that last -/

/-- The cache is coherent, and the commands are tame, with bodies nested at most `width` deep. -/
structure Machine.Fit (width : Nat) (m : Machine) : Prop where
  coherent : m.Coherent
  commands : ∀ {name : String} {c : Command}, m.commands.get? name = some c →
    c.isTame = true ∧ c.nesting ≤ width

/-- The program ends before it is exhausted, on a machine that is still fit, and after giving back
at most `gain` frames. -/
structure Ends (width gain : Nat) {α : Type} (p : Eval α) (m : Machine) : Prop where
  outcome : (p.run m).1 ≠ .error .exhausted
  fit : (p.run m).2.Fit width
  room : (p.run m).2.room ≤ m.room + gain

/-- The program ends where there is room for no more than `room` frames. -/
def Lasts (width room gain : Nat) {α : Type} (p : Eval α) : Prop :=
  ∀ m : Machine, m.Fit width → m.room ≤ room → Ends width gain p m

section

variable {width room gain : Nat} {α β : Type} {m : Machine}

/-- One program after the other gains at most what both of them do. -/
theorem Ends.handle {p : Eval β} {k : Except Stop β → Eval α} {gain' : Nat}
    (hp : Ends width gain p m)
    (hk : Ends width gain' (k (p.run m).1) (p.run m).2) :
    Ends width (gain + gain') (handle p k) m := by
  refine ⟨hk.outcome, hk.fit, ?_⟩
  have hp := hp.room
  have hk := hk.room
  rw [run_handle]
  omega

theorem Ends.of_stop (hm : m.Fit width) {s : Stop} (hs : s ≠ .exhausted) :
    Ends width gain (stop s : Eval α) m :=
  ⟨fun e => hs (Except.error.inj e), hm, Nat.le_add_right _ _⟩

theorem Ends.bind {p : Eval β} {k : β → Eval α} {gain' : Nat} (hp : Ends width gain p m)
    (hk : ∀ b, (p.run m).1 = .ok b → Ends width gain' (k b) (p.run m).2) :
    Ends width (gain + gain') (p >>= k) m := by
  refine .handle hp ?_
  rcases hr : (p.run m).1 with s | b
  · refine .of_stop hp.fit fun hs => hp.outcome ?_
    rw [hr, hs]
  · exact hk b hr

/-- A program that only reads comes first. -/
theorem Ends.bind_reads {p : Eval β} {k : β → Eval α} (hp : p.Reads)
    (hx : (p.run m).1 ≠ .error .exhausted) (hm : m.Fit width)
    (hk : ∀ b, (p.run m).1 = .ok b → Ends width gain (k b) m) :
    Ends width gain (p >>= k) m := by
  have hrun := hp.run m
  have hfirst : Ends width 0 p m := ⟨hx, hrun.symm ▸ hm, by rw [hrun, Nat.add_zero]⟩
  have hboth : Ends width (0 + gain) (p >>= k) m :=
    .bind hfirst fun b hb => hrun.symm ▸ hk b hb
  rwa [Nat.zero_add] at hboth

theorem Lasts.done (a : α) : Lasts width room 0 (done a) :=
  fun _ hm _ => ⟨by rintro ⟨⟩, hm, Nat.le_refl _⟩

theorem Lasts.stop {s : Stop} (hs : s ≠ .exhausted) : Lasts width room 0 (stop s : Eval α) :=
  fun _ hm _ => .of_stop hm hs

/-- What follows needs room for what the first program has gained. -/
theorem Lasts.handle {p : Eval β} {k : Except Stop β → Eval α} {gain' : Nat}
    (hp : Lasts width room gain p)
    (hk : ∀ r, r ≠ .error .exhausted → Lasts width (room + gain) gain' (k r)) :
    Lasts width room (gain + gain') (handle p k) := by
  intro m hm hroom
  have hfirst := hp m hm hroom
  have := hfirst.room
  exact hfirst.handle (hk _ hfirst.outcome _ hfirst.fit (by omega))

/-- Programs that gain nothing may follow each other. -/
theorem Lasts.bind {p : Eval β} {k : β → Eval α} (hp : Lasts width room 0 p)
    (hk : ∀ b, Lasts width room 0 (k b)) : Lasts width room 0 (p >>= k) := by
  intro m hm hroom
  have hfirst := hp m hm hroom
  have := hfirst.room
  show Ends width (0 + 0) (p >>= k) m
  exact .bind hfirst fun b _ => hk b _ hfirst.fit (by omega)

/-! ### Steps -/

/-- The commands that are left were there before. -/
theorem Machine.Fit.delete (h : m.Fit width) (name : String) : (m.delete name).2.Fit width := by
  refine ⟨h.coherent.delete name, ?_⟩
  intro k c hk
  unfold Machine.delete at hk
  split at hk
  · change (m.commands.erase name).get? k = some c at hk
    rw [Table.get?_erase] at hk
    split at hk
    · cases hk
    · exact h.commands hk
  · exact h.commands hk

/-- There are the same commands, under other names. -/
theorem Machine.Fit.rename (h : m.Fit width) (old new : String) :
    (m.rename old new).2.Fit width := by
  by_cases hnew : new = ""
  · rw [Machine.rename, if_pos hnew]
    exact h.delete old
  refine ⟨h.coherent.rename old new, ?_⟩
  intro k c hk
  rw [Machine.rename, if_neg hnew] at hk
  split at hk
  · exact h.commands hk
  · rename_i d hd
    split at hk
    · exact h.commands hk
    · -- the command under the new name was under the old one
      change ((m.commands.erase old).insert new d).get? k = some c at hk
      rw [Table.get?_insert, Table.get?_erase] at hk
      split at hk
      · obtain rfl := Option.some.inj hk
        exact h.commands hd
      · split at hk
        · cases hk
        · exact h.commands hk

theorem Machine.Fit.acquire (h : m.Fit width) (create : Bool) : (m.acquire create).2.Fit width := by
  refine ⟨h.coherent.acquire create, ?_⟩
  have hcommands : (m.acquire create).2.commands = m.commands := by
    unfold Machine.acquire
    split
    · split <;> rfl
    · split
      · rfl
      · split <;> rfl
  intro k c hk
  exact h.commands (hcommands ▸ hk)

theorem Machine.room_delete (m : Machine) (name : String) : (m.delete name).2.room = m.room := by
  unfold Machine.delete
  split <;> rfl

theorem Machine.room_rename (m : Machine) (old new : String) :
    (m.rename old new).2.room = m.room := by
  unfold Machine.rename
  split
  · exact m.room_delete old
  · split
    · rfl
    · split <;> rfl

/-- A change that keeps the machine fit and gains no room. -/
theorem Ends.of_change {f : Machine → Except Error α × Machine} (hfit : (f m).2.Fit width)
    (hroom : (f m).2.room ≤ m.room) : Ends width 0 (ofChange f) m := by
  refine ⟨?_, ?_, ?_⟩
  · rcases e : f m with ⟨_ | _, _⟩ <;> simp [ofChange, e]
  · rwa [run_ofChange_snd]
  · rwa [run_ofChange_snd]

/-- Tame steps push and pop no frames. -/
theorem Atom.ends {p : Eval α} (h : Atom False (fun _ => True) p) (hm : m.Fit width) :
    Ends width 0 p m := by
  cases h with
  | quiet hq _ hs =>
    obtain ⟨_, _, _, _, _, _, _, _, e⟩ := hq m
    refine ⟨fun hrun => (hs m _ hrun).ne_exhausted rfl, ?_, ?_⟩
    · rw [run_act, e]
      exact ⟨hm.coherent.congr rfl rfl, hm.commands⟩
    · rw [run_act, e]
      exact Nat.le_refl _
  | touch id a g =>
    have hrun := run_touch id a g m
    refine ⟨?_, ?_, ?_⟩
    all_goals
      rw [hrun]
      split
    · rintro ⟨⟩
    · rintro ⟨⟩
    · exact hm
    · exact hm
    · exact Nat.le_refl _
    · exact Nat.le_refl _
  | writeFrame id slot f =>
    have hrun := m.run_writeFrame id slot f
    refine ⟨?_, ?_, ?_⟩
    all_goals
      rw [hrun]
      split
    · rintro ⟨⟩
    · rintro ⟨⟩
    · exact hm
    · exact ⟨hm.coherent.congr rfl rfl, hm.commands⟩
    · exact Nat.le_refl _
    · exact (m.room_setFrame id slot f).le
  | askCache name =>
    exact ⟨by rintro ⟨⟩, ⟨hm.coherent.congr rfl (m.cache.entries_lookup name true), hm.commands⟩,
      Nat.le_refl _⟩
  | clearCache =>
    exact ⟨by rintro ⟨⟩, ⟨Machine.coherent_of_entries_empty rfl, hm.commands⟩, Nat.le_refl _⟩
  | delete name => exact .of_change (hm.delete name) (m.room_delete name).le
  | rename old new => exact .of_change (hm.rename old new) (m.room_rename old new).le
  | context =>
    refine .of_change ?_ ?_
    · split
      · exact hm
      · exact hm.acquire true
    · split
      · exact Nat.le_refl _
      · exact m.room_acquire true
  | lookupContext => exact .of_change (hm.acquire false) (m.room_acquire false)
  | modifyStack hw | define hw | release hw | switchThread hw | freeContext hw | disposeContext hw
  | dispose hw => exact hw.elim

/-- Whatever is put together from atomic steps that are not wild lasts. -/
theorem composes_lasts (width room : Nat) :
    Composes False (fun _ => True) fun _ p _ => Lasts width room 0 p :=
  Handled.composes {
    done := .done
    stop := .stop
    atom := fun ha _ hm _ => ha.ends hm
    handle := fun hp hk _ _ => .handle hp hk }

/-! ### Calls -/

/-- Leaving a call gives its frame back. -/
theorem lasts_leaveCall (id : ContextId) (frame : FrameId) (current procedure : Option FrameId) :
    Lasts width room 1 (leaveCall id frame current procedure) := by
  intro m hm hroom
  have hpop : Ends width 1 (modifyStack id (·.pop)) m :=
    ⟨by rintro ⟨⟩, ⟨hm.coherent.congr rfl rfl, hm.commands⟩, m.room_pop id⟩
  show Ends width (1 + 0) (leaveCall id frame current procedure) m
  refine .bind hpop fun _ _ => ?_
  exact (composes_lasts width _).leaveFrames (o := none) id frame current procedure _ hpop.fit
    (Nat.le_refl _)

/-- What is restored at the end may give back one unit of room. -/
theorem Lasts.always {restore : Eval Unit} {p : Eval α} (hp : Lasts width room 0 p)
    (hr : Lasts width room 1 restore) : Lasts width room 1 (Eval.always restore p) := by
  show Lasts width room (0 + 1) _
  refine .handle hp fun r hx => ?_
  obtain ⟨k, hk, hok, herror⟩ := exists_restoring_eq restore hx
  show Lasts width room (1 + 0) (restoring restore r)
  rw [hk]
  refine .handle hr ?_
  rintro (s | u) hs
  · rw [herror]
    exact .stop fun e => hs (by rw [e])
  · rw [hok]
    cases r with
    | ok a => exact .done a
    | error s => exact .stop fun e => hx (by rw [e])

/-- A program runs in the frame of a call with one frame less to go. -/
theorem ends_inCall {id : ContextId} {frame : FrameId} {p : Eval Value} {s : CallStack}
    (hp : Lasts width room 0 p) (hm : m.Fit width) (hs : (m.context id).stack = some s)
    (hd : s.depth < m.maxDepth) (hroom : m.room ≤ room + 1) :
    Ends width 0 (inCall id frame p) m := by
  have hread (slot : Slot) : ((readFrame id slot).run m).1 ≠ .error .exhausted := by
    rw [m.run_readFrame]
    split <;> rintro ⟨⟩
  refine .bind_reads (reads_readContext id _) (hread .current) hm fun current _ => ?_
  refine .bind_reads (reads_readContext id _) (hread .procedure) hm fun procedure _ => ?_
  let t := ((modifyStack id (·.push frame)).run m).2
  have hpush : t.room + 1 = m.room := Machine.room_push hs hd frame
  have ht : t.Fit width := ⟨hm.coherent.congr rfl rfl, hm.commands⟩
  have henter : Ends width (0 + 0) (writeFrame id .current (some frame) >>= fun _ =>
      writeFrame id .procedure (some frame)) t := by
    have hfirst : Ends width 0 (writeFrame id .current (some frame)) t := Atom.ends (.writeFrame ..) ht
    exact .bind hfirst fun _ _ => Atom.ends (.writeFrame ..) hfirst.fit
  -- from the pushed frame on, the frame that was taken is given back
  have hinside : Ends width (0 + 1) ((writeFrame id .current (some frame) >>= fun _ =>
      writeFrame id .procedure (some frame)) >>= fun _ =>
      Eval.always (leaveCall id frame current procedure) p) t := by
    have := henter.room
    exact .bind henter fun _ _ => hp.always (lasts_leaveCall id frame current procedure) _ henter.fit
      (by omega)
  have hback := hinside.room
  rw [Nat.zero_add, hpush] at hback
  exact ⟨hinside.outcome, hinside.fit, hback⟩

/-- A procedure runs with one frame less to go, and where there is no frame to go it fails. -/
theorem lasts_callProcedure (inv : Invocation) (name : String) (params : List String)
    (args : List Value) {p : Eval Value}
    (hp : ∀ less, room = less + 1 → Lasts width less 0 p) :
    Lasts width room 0 (callProcedure inv name params args p) := by
  intro m hm hroom
  have h := composes_lasts width room
  have hframe := h.callFrame (o := none) inv name params args m hm hroom
  show Ends width (0 + 0) (callProcedure inv name params args p) m
  refine .bind hframe fun frame hf => ?_
  obtain ⟨s, f, hs, hd, -, -, e⟩ := run_callFrame hf
  have hfit := hframe.fit
  have hless := hframe.room
  rw [e] at hfit hless ⊢
  cases room with
  | zero =>
    -- the call got its frame, so there was room for one
    have := Machine.room_push hs hd frame
    omega
  | succ less =>
    have hcall : Ends width 0 (inCall inv.context frame p) { m with frames := (m.frames.alloc f).2 } :=
      ends_inCall (hp less rfl) hfit hs hd (by omega)
    -- a pending return becomes the result
    have hreturned (r : Except Stop Value) (hr : r ≠ .error .exhausted) :
        Lasts width (less + 1) 0 (returned r) := by
      rcases r with (e | a | -) | v
      · rw [returned]
        split
        · exact .done _
        · exact .stop (by rintro ⟨⟩)
      · exact .stop (by rintro ⟨⟩)
      · exact absurd rfl hr
      · exact .done v
    have := hcall.room
    show Ends width (0 + 0) (Program.handle _ returned) _
    exact hcall.handle (hreturned _ hcall.outcome _ hcall.fit (by omega))

/-- A procedure takes one unit of room, and the body that it runs has the rest. -/
theorem lasts_execute {self : Runner} {c : Command} (ht : c.isTame = true) (hn : c.nesting ≤ width)
    (hbody : ∀ less, room = less + 1 → ∀ inv b, tameBody b = true → bodyNesting b ≤ width →
      Lasts width less 0 (self.body inv b))
    (inv : Invocation) (args : List Value) : Lasts width room 0 (execute self c inv args) := by
  have h := composes_lasts width room
  cases c with
  | builtin b => exact h.builtin (o := none) (fun _ => trivial) b inv args
  | function body => cases ht
  | procedure name params body =>
    exact lasts_callProcedure inv name params args fun less e => hbody less e _ body ht hn
  | square => exact h.square (o := none) (fun _ => trivial) inv args
  | tally run => exact .bind (h.countUnknown (o := none) run) fun _ => .done _

/-! ### Invocations -/

/-- A name resolves to a command of the table. -/
theorem exists_of_resolve (hm : m.Coherent) {name : String} {r : Resolution}
    (hr : ((Eval.resolve name).run m).1 = .ok r) : ∃ key, m.commands.get? key = some r.command := by
  rw [hm.run_resolve, Machine.lookupOutcome] at hr
  split at hr
  · rename_i x hx
    obtain rfl := Except.ok.inj hr
    unfold Machine.lookup at hx
    split at hx
    · rename_i c hc
      obtain rfl := Option.some.inj hx
      exact ⟨name, hc⟩
    · obtain ⟨c, hc, rfl⟩ := Option.map_eq_some_iff.1 hx
      exact ⟨_, hc⟩
  · cases hr

theorem ends_resolve (name : String) (hm : m.Fit width) : Ends width 0 (Eval.resolve name) m := by
  obtain ⟨cache, e, hc⟩ := Resolver.cached.run name hm.coherent
  change (Eval.resolve name).run m = _ at e
  refine ⟨?_, ?_, ?_⟩
  all_goals rw [e]
  · unfold Machine.lookupOutcome
    split <;> rintro ⟨⟩
  · exact ⟨hc, hm.commands⟩
  · exact Nat.le_refl _

/-- Commands are tame and nest no more deeply than the width says, since the machine is fit. -/
theorem lasts_invoke {self : Runner} (hself : self.resolve = Eval.resolve)
    (hbody : ∀ less, room = less + 1 → ∀ inv b, tameBody b = true → bodyNesting b ≤ width →
      Lasts width less 0 (self.body inv b))
    (id : Option ContextId) (name : String) (args : List Value) :
    Lasts width room 0 (invoke self id name args) := by
  have h := composes_lasts width room
  intro m hm hroom
  have hadmitted : Ends width 0 (read (·.canUse id) >>= admitted self id name args) m := by
    refine .bind_reads (fun _ => rfl) (by rintro ⟨⟩) hm fun usable _ => ?_
    cases id with
    | none => exact h.misuse (o := none) _ m hm hroom
    | some context =>
      cases usable with
      | false => exact h.misuse (o := none) _ m hm hroom
      | true =>
        show Ends width (0 + 0) (self.resolve name >>= fun r => _) m
        rw [hself]
        have hresolve := ends_resolve name hm
        have := hresolve.room
        refine .bind hresolve fun r hr => ?_
        -- the command is one of the table, and so tame
        obtain ⟨key, hkey⟩ := exists_of_resolve hm.coherent hr
        obtain ⟨ht, hn⟩ := hm.commands hkey
        cases r with
        | direct c => exact lasts_execute ht hn hbody _ _ _ hresolve.fit (by omega)
        | unknown c key => exact lasts_execute ht hn hbody _ _ _ hresolve.fit (by omega)
  have := hadmitted.room
  show Ends width (0 + 0) (invoke self id name args) m
  rw [invoke_eq]
  refine hadmitted.handle (h.reported (o := none) name (fun s hs => ?_) _ hadmitted.fit (by omega))
  exact Stop.of_true fun e => hadmitted.outcome (by rw [hs, e])

/-- Bodies of an evaluator whose invocations last, by induction on its depth. -/
theorem lasts_body {depth spare : Nat}
    (hinvoke : ∀ more id name args,
      Lasts width room 0 (invoke (Evaluation.cached (spare + more)) id name args))
    (inv : Invocation) {body : List Stmt} (ht : tameBody body = true)
    (hn : bodyNesting body + spare ≤ depth) :
    Lasts width room 0 ((Evaluation.cached depth).body inv body) := by
  have h := composes_lasts width room
  induction depth generalizing body with
  | zero =>
    have := one_le_bodyNesting body
    omega
  | succ depth ih =>
    have := one_le_bodyNesting body
    -- the body takes one level, and those inside of it what is left
    obtain ⟨more, rfl⟩ := Nat.exists_eq_add_of_le (show spare ≤ depth by omega)
    have hshare : (Evaluation.cached (spare + more)).Share (fun _ p _ => Lasts width room 0 p)
        (Evaluation.cached (spare + more)) := hinvoke more
    refine h.statements hshare (fun _ => trivial) inv .empty body (.inr ht) fun s hs b hb => ?_
    have := nesting_lt_of_mem hs
    have := bodyNesting_le_of_mem hb
    exact ih (tameBody_of_mem (isTame_of_mem ht hs) hb) (by omega)

/-- Invocations last where bodies may nest `width` deep for each frame that there is room for. -/
theorem lasts_invoke_cached (width room more : Nat) (id : Option ContextId) (name : String)
    (args : List Value) :
    Lasts width room 0 (invoke (Evaluation.cached (room * width + more)) id name args) := by
  -- a procedure runs with room for one frame less, and its bodies use `width` of the depth
  induction room generalizing more id name args with
  | zero =>
    refine lasts_invoke (Evaluation.resolve_cached _) ?_ id name args
    rintro less ⟨⟩
  | succ room ih =>
    refine lasts_invoke (Evaluation.resolve_cached _) ?_ id name args
    intro less e inv b ht hn
    obtain rfl : room = less := by omega
    exact lasts_body ih inv ht (by rw [Nat.succ_mul]; omega)

end

/-! ### More depth -/

/-- The second program does what the first does, unless that is exhausted. -/
def Extends {α : Type} (p p' : Eval α) : Prop :=
  ∀ m : Machine, (p.run m).1 ≠ .error .exhausted → p'.run m = p.run m

/-- More depth changes nothing that was not exhausted. -/
theorem compositional_extends : Compositional (fun _ => True) fun _ p p' => Extends p p' := by
  have hhandled : Handled True Extends := by
    refine ⟨fun a m _ => rfl, fun _ m _ => rfl, fun _ m _ => rfl, ?_⟩
    intro α β p p' k k' hp hk hx _ m hm
    have hfirst : (p.run m).1 ≠ .error .exhausted := by
      intro e
      refine hm ?_
      rw [run_handle, e, hx]
      rfl
    rw [run_handle, run_handle, hp m hfirst]
    exact hk _ hfirst _ hm
  exact hhandled.composes.compositional fun _ name m _ => rfl

/-- Calls of the embedding program, by a deeper evaluator. -/
theorem extends_perform (depth more : Nat) (running : Option ContextId) (c : HostCall) :
    Extends (Host.perform (Evaluation.cached depth) running c)
      (Host.perform (Evaluation.cached (depth + more)) running c) :=
  compositional_extends.perform_cached (fun _ _ _ hx => absurd rfl hx) depth more running c

/-! ### Termination -/

/-- How deeply bodies are nested in the commands of a table. -/
def nestingIn : List (String × Command) → Nat
  | [] => 0
  | e :: es => max e.2.nesting (nestingIn es)

theorem nesting_le_of_mem {e : String × Command} {es : List (String × Command)} (h : e ∈ es) :
    e.2.nesting ≤ nestingIn es := by
  induction es with
  | nil => cases h
  | cons d es ih =>
    simp only [nestingIn]
    rcases List.mem_cons.1 h with rfl | h
    · omega
    · have := ih h
      omega

/-- **The depth limit stops every recursion.**  Let the commands of the table be tame: procedures
whose bodies free no context, switch no thread and define no command, and commands that have no body.
Then every call that does none of this either, such as invoking any command with any arguments, ends:
from a certain depth on it is not exhausted, and comes to the same at every depth.  The depth is that
of the bodies of the table, once for each frame that there is room for. -/
theorem calls_terminate {m : Machine} (hm : m.Coherent)
    (ht : ∀ name c, m.commands.get? name = some c → c.isTame = true)
    (running : Option ContextId) {call : HostCall} (hc : call.isTame = true) :
    ∃ outcome t, outcome ≠ .error .exhausted ∧
      ∀ depth, m.room * nestingIn m.commands.entries ≤ depth →
        (Host.perform (Evaluation.cached depth) running call).run m = (outcome, t) := by
  let width := nestingIn m.commands.entries
  have hfit : m.Fit width :=
    ⟨hm, fun h => ⟨ht _ _ h, nesting_le_of_mem (Table.mem_of_get? h)⟩⟩
  have hshare : (Evaluation.cached (m.room * width)).Share (fun _ p _ => Lasts width m.room 0 p)
      (Evaluation.cached (m.room * width)) := lasts_invoke_cached width m.room 0
  have hends := (composes_lasts width m.room).perform hshare running call (.inr hc) m hfit
    (Nat.le_refl _)
  let ran := (Host.perform (Evaluation.cached (m.room * width)) running call).run m
  refine ⟨ran.1, ran.2, hends.outcome, fun depth hd => ?_⟩
  obtain ⟨more, rfl⟩ := Nat.exists_eq_add_of_le hd
  exact extends_perform _ more running call m hends.outcome

/-- The cache stays coherent from call to call. -/
theorem Machine.Coherent.performAll {m : Machine} (h : m.Coherent) (depth : Nat)
    (calls : List HostCall) : (m.performAll (Evaluation.cached depth) calls).2.Coherent := by
  induction calls generalizing m with
  | nil => exact h
  | cons c cs ih =>
    have hsteps := (Bracketed.perform depth none c).steps
    exact ih (hsteps.run (fun _ _ hn => .next hn) (h.congr rfl rfl))

/-- Two procedures that call each other, one of them from the frame above and the other again after
it has failed, and a procedure that handles unknown names by calling the latter. -/
def recursiveHost : Machine :=
  let call (name : String) : Stmt := .invoke (.value (.text name)) []
  ((Machine.start { id := "host", maxDepth := 3 }).performAll (Evaluation.cached 0)
    [.defineProcedure "even" [] (some [.catchError [call "odd"], call "odd"]),
      .defineProcedure "odd" [] (some [.uplevel 1 [call "even"]]),
      .defineProcedure "unknown" ["name"] (some [call "even"])]).2

/-- With room for three frames, and bodies nested two deep, invoking an unknown name is over at
depth 6. -/
theorem calls_terminate_mutual_recursion :
    (recursiveHost.room = 3 ∧ nestingIn recursiveHost.commands.entries = 2) ∧
      ∃ outcome t, outcome ≠ .error .exhausted ∧ ∀ depth, 3 * 2 ≤ depth →
        (Host.perform (Evaluation.cached depth) none (.invoke "ghost" [])).run recursiveHost =
          (outcome, t) := by
  have hm : recursiveHost.Coherent := (Machine.coherent_start _).performAll 0 _
  have ht (name : String) (c : Command) (h : recursiveHost.commands.get? name = some c) :
      c.isTame = true := by
    have hall : ∀ e ∈ recursiveHost.commands.entries, e.2.isTame = true := by decide +kernel
    exact hall _ (Table.mem_of_get? h)
  have hroom : recursiveHost.room = 3 ∧ nestingIn recursiveHost.commands.entries = 2 := by
    decide +kernel
  refine ⟨hroom, ?_⟩
  have hends := @calls_terminate _ hm ht none (.invoke "ghost" []) rfl
  rwa [hroom.1, hroom.2] at hends

end CommandHost
