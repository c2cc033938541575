/-
CommandHost/Proofs/UplevelComposition.lean

Moving up adds up.

A context sees one frame at each level from that of its current frame down to 0
(`Context.atLevel?`): the frames of the stack, and at level 0 the frame that stands for
the global one.  Moving up by `a` leads from level `L` to the frame at level `L - a`, and
it touches nothing that the frames at the levels depend on.  So moving up by `a` and then
by `b` leads where moving up by `a + b` does, to the very same machine.
-/
import CommandHost.Proofs.Uplevel

namespace CommandHost

open Program Eval Dispatch

/-! ### The frame at a level -/

/-- The frame that moving up to a level leads to. -/
def Context.atLevel? (c : ThreadContext) (level : Int) : Option FrameId :=
  if 0 < level then c.stack.bind (·.atLevel? level) else c.currentGlobal

/-- The levels of a stack are filled. -/
theorem Frames.Leveled.exists_atLevel? {s : Frames} {stack : CallStack}
    (h : s.Leveled stack.frames) {level : Int} (hpos : 0 < level) (hle : level ≤ stack.depth) :
    ∃ f frame, stack.atLevel? level = some f ∧ s.get? f = some frame ∧ frame.level = level := by
  have hlt : (level - 1).toNat < stack.frames.reverse.length := by
    rw [List.length_reverse]
    have hdepth : stack.depth = stack.frames.length := rfl
    omega
  have hget := List.getElem?_eq_getElem hlt
  obtain ⟨frame, hframe, hlive⟩ := h.of_getElem? hget
  refine ⟨_, frame, ?_, hframe, ?_⟩
  · rw [CallStack.atLevel?, if_pos (by omega), hget]
  · rw [hlive.level]
    omega

/-- An active context sees a frame at each level from 0 to that of its current frame. -/
structure Ladder (m : Machine) (id : ContextId) (c : ThreadContext) (F : FrameId) : Prop where
  context : m.context? id = some c
  active : c.stage = .active
  current : c.current = some F
  nonneg : 0 ≤ m.levelOf F
  rung : ∀ level, 0 ≤ level → level ≤ m.levelOf F →
    ∃ G, c.atLevel? level = some G ∧ m.levelOf G = level

/-- Where the scopes in use are at level 0, all levels are filled. -/
theorem Context.Framed.exists_ladder {c : ThreadContext} {scopes : FrameId → Prop} {m : Machine}
    {id : ContextId} (h : c.Framed scopes m) (hc : m.context? id = some c)
    (ha : c.stage = .active) (hm : m.Grounded) (hscopes : ∀ f, scopes f → m.levelOf f = 0) :
    ∃ F, Ladder m id c F := by
  have hzero : m.levelOf Machine.globalFrame = 0 := by rw [Machine.levelOf, hm]; rfl
  obtain ⟨stack, hs, -, hleveled, -⟩ := h.stack
  obtain ⟨F, hF, hsees⟩ := h.current
  have hbounds : 0 ≤ m.levelOf F ∧ m.levelOf F ≤ stack.depth := by
    rcases hsees with rfl | hrun | ⟨stack', hs', hmem⟩
    · omega
    · have hlevel := hscopes F hrun
      omega
    · obtain rfl := Option.some.inj (hs.symm.trans hs')
      obtain ⟨frame, hframe, hpos, hle, -⟩ := hleveled.level_of_mem hmem
      rw [Machine.levelOf, hframe]
      exact ⟨Int.le_of_lt hpos, hle⟩
  refine ⟨F, hc, ha, hF, hbounds.1, fun level hnonneg hle => ?_⟩
  by_cases hpos : 0 < level
  · obtain ⟨G, frame, hG, hframe, hlevel⟩ :=
      hleveled.exists_atLevel? hpos (Int.le_trans hle hbounds.2)
    refine ⟨G, ?_, by rw [Machine.levelOf, hframe]; exact hlevel⟩
    rw [Context.atLevel?, if_pos hpos, hs]
    exact hG
  · obtain rfl : level = 0 := by omega
    -- the frame that stands for the global one is a scope or the global frame itself
    rcases e : c.scope with - | f
    · exact ⟨_, by simp [Context.atLevel?, Context.currentGlobal, e, h.global], hzero⟩
    · exact ⟨f, by simp [Context.atLevel?, Context.currentGlobal, e], hscopes f (h.scope f e)⟩

/-! ### Moving an active context -/

namespace Machine

/-- The machine with a context moved up to a frame. -/
def movedTo (m : Machine) (id : ContextId) (frame : FrameId) : Machine :=
  m.setContext id { m.context id with current := some frame, uplevel := some frame }

section

variable {m : Machine} {id : ContextId} {c : ThreadContext}

theorem context?_movedTo (hc : m.context? id = some c) (frame : FrameId) :
    (m.movedTo id frame).context? id =
      some { c with current := some frame, uplevel := some frame } := by
  rw [movedTo, context_of_some hc, context?_setContext, if_pos rfl, hc]
  rfl

theorem movedTo_movedTo (hc : m.context? id = some c) (frame frame' : FrameId) :
    (m.movedTo id frame).movedTo id frame' = m.movedTo id frame' := by
  rw [movedTo, context_of_some (context?_movedTo hc frame), movedTo, setContext_setContext,
    movedTo, context_of_some hc]

end

end Machine

theorem run_moveTo_eq {m : Machine} {id : ContextId} {c : ThreadContext}
    (hc : m.context? id = some c) (ha : c.stage = .active) (current uplevel : Option FrameId) :
    (moveTo id current uplevel).run m = (.ok (), m.setContext id { c with current, uplevel }) := by
  obtain ⟨hrun, hc₁⟩ := run_writeFrame_of_active hc ha .current current
  obtain ⟨hrun', -⟩ := run_writeFrame_of_active hc₁ ha .uplevel uplevel
  rw [moveTo, run_bind, hrun]
  dsimp only
  rw [hrun', Machine.setContext_setContext]
  rfl

namespace Ladder

variable {m : Machine} {inv : Invocation} {c : ThreadContext} {F : FrameId}

/-- The frames at the levels are the same from the frame moved up to. -/
theorem moved {id : ContextId} (h : Ladder m id c F) {G : FrameId} (hnonneg : 0 ≤ m.levelOf G)
    (hle : m.levelOf G ≤ m.levelOf F) :
    Ladder (m.movedTo id G) id { c with current := some G, uplevel := some G } G where
  context := Machine.context?_movedTo h.context G
  active := h.active
  current := rfl
  nonneg := hnonneg
  rung level h₀ hlevel := h.rung level h₀ (Int.le_trans hlevel hle)

theorem run_level (h : Ladder m inv.context c F) : inv.level.run m = (.ok (m.levelOf F), m) := by
  rw [Invocation.level, run_bind, run_frame_of_active h.context h.active h.current]
  rfl

theorem run_frameAbove (h : Ladder m inv.context c F) (level : Int) :
    (frameAbove inv level).run m =
      if level < 0 ∨ m.levelOf F < level then
        (.error (.error (inv.error .badLevel (Number.intText level))), m)
      else (.ok (c.atLevel? (m.levelOf F - level)), m) := by
  have hglobal : (readCurrentGlobal inv.context).run m = (.ok c.currentGlobal, m) :=
    run_readContext_of_active h.context h.active .currentGlobal (·.currentGlobal)
  have hstack : (readStack inv.context).run m = (.ok c.stack, m) :=
    run_readContext_of_active h.context h.active .stack (·.stack)
  have hread : (Invocation.levelOf F).run m = (.ok (m.levelOf F), m) := rfl
  rw [frameAbove, run_bind, run_frame_of_active h.context h.active h.current]
  dsimp only
  rw [run_bind, hread]
  dsimp only
  by_cases hbad : level < 0 ∨ m.levelOf F < level
  · rw [if_pos hbad, if_pos (by omega)]
    rfl
  · rw [if_neg hbad, if_neg (by omega), run_bind, hglobal]
    dsimp only
    -- the level is one of the ladder, so there is a frame for it
    obtain ⟨G, hG, -⟩ := h.rung (m.levelOf F - level) (by omega) (by omega)
    rw [hG]
    rw [Context.atLevel?] at hG
    -- a frame of the stack, or at level 0 the global one
    split at hG
    · rename_i hpos
      rw [if_pos hpos, run_bind, hstack]
      dsimp only
      rw [hG]
      rfl
    · rename_i hpos
      rw [if_neg hpos, hG]
      rfl

/-- Moving up by a bad level fails at once. -/
theorem run_uplevel_bad (h : Ladder m inv.context c F) {level : Int}
    (hbad : level < 0 ∨ m.levelOf F < level) (p : Eval Value) :
    (uplevel inv level p).run m =
      (.error (.error (inv.error .badLevel (Number.intText level))), m) := by
  rw [uplevel, run_bind, h.run_frameAbove, if_pos hbad]

/-- Moving up runs its program in the machine that is moved to the frame at the level. -/
theorem run_uplevel (h : Ladder m inv.context c F) {level : Int} (hnonneg : 0 ≤ level)
    (hle : level ≤ m.levelOf F) {G : FrameId} (hG : c.atLevel? (m.levelOf F - level) = some G)
    (p : Eval Value) :
    (uplevel inv level p).run m =
      (always (moveTo inv.context (some F) c.uplevel) p).run (m.movedTo inv.context G) := by
  have hread (slot : Slot) : (readFrame inv.context slot).run m = (.ok (c.frame slot), m) :=
    run_readContext_of_active h.context h.active (.frame slot) (·.frame slot)
  have hcurrent : c.frame .current = some F := h.current
  rw [uplevel, run_bind, h.run_frameAbove, if_neg (by omega)]
  dsimp only
  rw [inFrame, run_bind, hread, hcurrent]
  dsimp only
  rw [run_bind, hread]
  dsimp only
  rw [run_bind, hG, run_moveTo_eq h.context h.active, Machine.movedTo,
    Machine.context_of_some h.context]
  rfl

/-- Moving up by `a` and then by `b` runs the program where moving up by `a + b` does. -/
theorem run_uplevel_uplevel (h : Ladder m inv.context c F) {a b : Int} (ha : 0 ≤ a) (hb : 0 ≤ b)
    (hle : a + b ≤ m.levelOf F) {G : FrameId}
    (hG : c.atLevel? (m.levelOf F - (a + b)) = some G) :
    ∃ G', c.atLevel? (m.levelOf F - a) = some G' ∧ ∀ p, (uplevel inv a (uplevel inv b p)).run m =
      (always (moveTo inv.context (some F) c.uplevel)
        (always (moveTo inv.context (some G') (some G')) p)).run (m.movedTo inv.context G) := by
  obtain ⟨G', hG', hlevel⟩ := h.rung (m.levelOf F - a) (by omega) (by omega)
  have hmoved := h.moved (G := G') (by omega) (by omega)
  refine ⟨G', hG', fun p => ?_⟩
  have hlevel' : (m.movedTo inv.context G').levelOf G' = m.levelOf F - a := hlevel
  have hin := hmoved.run_uplevel hb (by omega) (G := G) (p := p) <| by
    rw [hlevel', show m.levelOf F - a - b = m.levelOf F - (a + b) by omega]
    exact hG
  rw [Machine.movedTo_movedTo h.context] at hin
  rw [h.run_uplevel ha (by omega) hG', always, run_handle, hin]
  rfl

/-- Moving up too far in two steps fails in the second one, and the first one is undone. -/
theorem run_uplevel_uplevel_bad (h : Ladder m inv.context c F) {a b : Int} (ha : 0 ≤ a)
    (hle : a ≤ m.levelOf F) (hbad : m.levelOf F < a + b) (p : Eval Value) :
    (uplevel inv a (uplevel inv b p)).run m =
      (.error (.error (inv.error .badLevel (Number.intText b))), m) := by
  obtain ⟨G, hG, hlevel⟩ := h.rung (m.levelOf F - a) (by omega) (by omega)
  have hmoved := h.moved (G := G) (by omega) (by omega)
  have hlevel' : (m.movedTo inv.context G).levelOf G = m.levelOf F - a := hlevel
  have hfar : b < 0 ∨ (m.movedTo inv.context G).levelOf G < b := by omega
  have hin := hmoved.run_uplevel_bad hfar p
  have hback : (moveTo inv.context (some F) c.uplevel).run (m.movedTo inv.context G) =
      (.ok (), m) := by
    rw [run_moveTo_eq hmoved.context hmoved.active, Machine.movedTo, Machine.setContext_setContext]
    have hsame : ({ c with current := some F, uplevel := c.uplevel } : ThreadContext) = c := by
      rw [← h.current]
    rw [hsame, Machine.setContext_self h.context]
  rw [h.run_uplevel ha hle hG, run_always_of_ok hin nofun hback]

end Ladder

/-! ### Composition -/

/-- **Moving up composes.**  At a settled point of a session let a context be active, with the
scopes in use at level 0, and let `L` be the level of its current frame `F`.  Moving up by `a` fails
and changes nothing if `a` is negative or more than `L`.  Otherwise it runs its program in the
machine that has only the current and the uplevel slot moved, to a frame of level `L - a`.  Moving
up by `a` and then by `b` runs the program in the same machine as moving up by `a + b`, or both
fail. -/
theorem uplevel_composes {s : Setup} {path : Path Stop Machine} {m : Machine}
    (h : Session s path m) (hpath : Settled path) {inv : Invocation} {c : ThreadContext}
    (hc : m.context? inv.context = some c) (ha : c.stage = .active)
    (hscopes : ∀ f, Running path inv.context f → m.levelOf f = 0) :
    ∃ F L, c.current = some F ∧ 0 ≤ L ∧ inv.level.run m = (.ok L, m) ∧
      (∀ a p, a < 0 ∨ L < a → (uplevel inv a p).run m =
        (.error (.error (inv.error .badLevel (Number.intText a))), m)) ∧
      (∀ a, 0 ≤ a → a ≤ L → ∃ G,
        (∀ p, (uplevel inv a p).run m =
          (always (moveTo inv.context (some F) c.uplevel) p).run (m.movedTo inv.context G)) ∧
        inv.level.run (m.movedTo inv.context G) = (.ok (L - a), m.movedTo inv.context G)) ∧
      ∀ a b, 0 ≤ a → 0 ≤ b →
        (a + b ≤ L → ∃ G G', ∀ p,
          (uplevel inv (a + b) p).run m =
            (always (moveTo inv.context (some F) c.uplevel) p).run (m.movedTo inv.context G) ∧
          (uplevel inv a (uplevel inv b p)).run m =
            (always (moveTo inv.context (some F) c.uplevel)
              (always (moveTo inv.context (some G') (some G')) p)).run
                (m.movedTo inv.context G)) ∧
        (L < a + b → ∀ p,
          (uplevel inv (a + b) p).run m =
            (.error (.error (inv.error .badLevel (Number.intText (a + b)))), m) ∧
          ∃ n, (uplevel inv a (uplevel inv b p)).run m =
            (.error (.error (inv.error .badLevel (Number.intText n))), m)) := by
  obtain ⟨F, hF⟩ := ((h.framed hpath).active hc ha).exists_ladder hc ha h.grounded hscopes
  refine ⟨F, m.levelOf F, hF.current, hF.nonneg, hF.run_level,
    fun a p hbad => hF.run_uplevel_bad hbad p, fun a hnonneg hle => ?_, fun a b ha₀ hb₀ => ⟨?_, ?_⟩⟩
  · obtain ⟨G, hG, hlevel⟩ := hF.rung (m.levelOf F - a) (by omega) (by omega)
    have hmoved := hF.moved (G := G) (by omega) (by omega)
    refine ⟨G, hF.run_uplevel hnonneg hle hG, ?_⟩
    rw [← hlevel]
    exact hmoved.run_level
  · intro hle
    obtain ⟨G, hG, -⟩ := hF.rung (m.levelOf F - (a + b)) (by omega) (by omega)
    obtain ⟨G', -, htwice⟩ := hF.run_uplevel_uplevel ha₀ hb₀ hle hG
    exact ⟨G, G', fun p => ⟨hF.run_uplevel (by omega) hle hG p, htwice p⟩⟩
  · intro hbad p
    refine ⟨hF.run_uplevel_bad (.inr hbad) p, ?_⟩
    -- the first step fails already, or the second one does
    by_cases hle : a ≤ m.levelOf F
    · exact ⟨b, hF.run_uplevel_uplevel_bad ha₀ hle hbad p⟩
    · exact ⟨a, hF.run_uplevel_bad (.inr (by omega)) _⟩

/-! ### Moving up in a scope -/

/-- The procedure `q`, called by `p`, moves up twice in a scope of level 0. -/
def scopedChain : Machine :=
  let perform (m : Machine) (call : HostCall) := (m.performBy (Evaluation.cached 6) call).2
  perform (perform (perform (.start { id := "host" }) (.makeScope "s" 0))
    (.defineProcedure "p" [] (some [.invoke (.value (.text "q")) []])))
    (.defineProcedure "q" [] (some [.inScope "s" [.uplevel 1 [.uplevel 1 [.level]]]]))

def chainPoints : List (Path Stop Machine × Machine) :=
  (Host.perform (Evaluation.cached 6) none (.invoke "p" [])).points scopedChain.silent

/-- Where the body of the scope begins. -/
def scopePoint : Path Stop Machine × Machine :=
  (chainPoints.find? fun x => (x.2.context ⟨0⟩).scope = some ⟨1⟩ && beginsPart x.1).get
    (by decide +kernel)

/-- The same machine with the scope left. -/
def scopelessMachine : Machine :=
  scopePoint.2.setContext ⟨0⟩ { scopePoint.2.context ⟨0⟩ with scope := none }

def scopeInvocation : Invocation := ⟨⟨0⟩, "q", []⟩

/-- The first scope that a program enters on the first context, if it starts outside of scopes. -/
def scopeEntered : (α : Type) × Eval α → Option FrameId
  | ⟨_, p⟩ => (p.points scopelessMachine).findSome? fun x => (x.2.context ⟨0⟩).scope

theorem scopePoint_mem : scopePoint ∈ chainPoints := List.get_find?_mem _

theorem session_scopePoint : Session { id := "host" } scopePoint.1 scopePoint.2 := by
  refine .during 6 (.invoke "p" []) (.after 6 _ (.after 6 _ (.after 6 _ .start ?_) ?_) ?_)
    scopePoint_mem
  all_goals exact fun h => by cases h

theorem settled_scopePoint : Settled scopePoint.1 := settled_of_types (by rfl) (by rfl)

/-- The scope that runs there is at level 0. -/
theorem levelOf_running {f : FrameId} (h : Running scopePoint.1 ⟨0⟩ f) :
    scopePoint.2.levelOf f = 0 := by
  obtain ⟨inv, p, hinv, hmem⟩ := h
  have hset : scopeEntered ⟨Value, inScope inv (some f) p⟩ = some f := by
    obtain ⟨id, name, args⟩ := inv
    obtain rfl : id = ⟨0⟩ := hinv
    rfl
  have hall : ∀ q ∈ scopePoint.1, firstTouch q = some (.frame .scope) →
      ∀ f ∈ scopeEntered q, scopePoint.2.levelOf f = 0 := by decide +kernel
  exact hall _ hmem rfl f hset

/-- In the scope the procedure `q` runs at level 2.  Moving up twice by 1 runs a program with the
frame of the scope as the current one, as moving up by 2 does; moving up by 3 fails. -/
theorem uplevel_composes_in_scope :
    scopePoint ∈ chainPoints ∧ (scopePoint.2.context ⟨0⟩).scope = some ⟨1⟩ ∧
      scopeInvocation.level.run scopePoint.2 = (.ok 2, scopePoint.2) ∧
      (∃ restore restore', ∀ p,
        (uplevel scopeInvocation 2 p).run scopePoint.2 =
          (always restore p).run (scopePoint.2.movedTo ⟨0⟩ ⟨1⟩) ∧
        (uplevel scopeInvocation 1 (uplevel scopeInvocation 1 p)).run scopePoint.2 =
          (always restore (always restore' p)).run (scopePoint.2.movedTo ⟨0⟩ ⟨1⟩)) ∧
      ∀ p, (uplevel scopeInvocation 3 p).run scopePoint.2 =
        (.error (.error (.script "q" .badLevel "3")), scopePoint.2) := by
  have hcontext : scopePoint.2.context? ⟨0⟩ = some (scopePoint.2.context ⟨0⟩) ∧
      (scopePoint.2.context ⟨0⟩).stage = .active ∧
      (scopePoint.2.context ⟨0⟩).scope = some ⟨1⟩ := by decide +kernel
  obtain ⟨hc, ha, hscope⟩ := hcontext
  have hcurrent : scopePoint.2.context? scopeInvocation.context =
      some (scopePoint.2.context ⟨0⟩) := hc
  have hlevel : (scopeInvocation.level.run scopePoint.2).1 = .ok 2 := by decide +kernel
  obtain ⟨F, L, -, -, hL, hbad, -, hcompose⟩ := uplevel_composes session_scopePoint
    settled_scopePoint hcurrent ha fun f hf => levelOf_running hf
  obtain rfl : L = 2 := by
    rw [hL] at hlevel
    exact Except.ok.inj hlevel
  obtain ⟨G, G', hrun⟩ := (hcompose 1 1 (by decide) (by decide)).1 (by decide)
  -- a program that is exhausted shows the machine that it runs in
  have hmoved : (((uplevel scopeInvocation (1 + 1) (stop .exhausted)).run scopePoint.2).2.context
      ⟨0⟩).current = some ⟨1⟩ := by decide +kernel
  rw [(hrun (stop .exhausted)).1] at hmoved
  obtain rfl : G = ⟨1⟩ := by
    have hG := Machine.context?_movedTo hc G
    rw [run_always_exhausted rfl] at hmoved
    change ((scopePoint.2.movedTo ⟨0⟩ G).context ⟨0⟩).current = some ⟨1⟩ at hmoved
    rw [Machine.context_of_some hG] at hmoved
    exact Option.some.inj hmoved
  exact ⟨scopePoint_mem, hscope, hL, ⟨_, _, hrun⟩, fun p => hbad 3 p (by decide)⟩

end CommandHost
