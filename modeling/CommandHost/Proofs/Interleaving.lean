/-
CommandHost/Proofs/Interleaving.lean

Programs that share a state and take their atomic steps in any order.

A crew is a state with one program for each worker.  A turn lets some worker take its
next atomic step, so the runs of a crew are all the interleavings of its programs.  No
run goes on for ever, since an atomic step leaves a smaller program (`Shrinks`).

What a worker does is followed by looking at that worker alone.  A protocol says what
each worker holds of the state, and which states agree with what all of them hold.
`Ensures w p v Q` then says that `p`, run by a worker that holds `v`, ends in `Q`, where
before each atomic step the state may be any that agrees with the worker holding what
it held after its last step: what the others did in between is in that "any".  The
programs of a crew can so be looked at one after the other, and `Keeps.reaches`
puts the results together.
-/
import CommandHost.Program
import Mathlib.Logic.Function.Basic
import Mathlib.Logic.Hydra
import Mathlib.Logic.Relation
import Mathlib.Order.WellFounded

namespace CommandHost

open Program

/-! ### Programs get smaller -/

section

variable {ε σ α : Type}

/-- The program `q` is what remains of `p` after an atomic step. -/
def Program.Shrinks (q p : Program ε σ α) : Prop := ∃ s t, p.step s = .inr (q, t)

/-- A program and what follows it, by induction on how the first one shrinks. -/
theorem Program.acc_shrinks_handle {β : Type} {p : Program ε σ β} (hp : Acc Shrinks p)
    {k : Except ε β → Program ε σ α} (hk : ∀ r, Acc Shrinks (k r)) :
    Acc Shrinks (handle p k) := by
  induction hp with
  | intro p _ ih =>
    refine ⟨_, ?_⟩
    rintro q ⟨s, t, hstep⟩
    rw [step] at hstep
    split at hstep
    · -- the first program is over, and the step is one of what follows
      exact (hk _).inv ⟨s, t, hstep⟩
    · rename_i q' t' hq'
      obtain ⟨rfl, rfl⟩ : handle q' k = q ∧ t' = t := by simpa using hstep
      exact ih q' ⟨s, t', hq'⟩

/-- Programs are finite trees, and a step takes one action away. -/
theorem Program.wellFounded_shrinks :
    WellFounded (Shrinks : Program ε σ α → Program ε σ α → Prop) := by
  refine ⟨fun p => ?_⟩
  induction p with
  | done a | stop e =>
    refine ⟨_, ?_⟩
    rintro q ⟨s, t, hstep⟩
    cases hstep
  | act f =>
    refine ⟨_, ?_⟩
    rintro q ⟨s, t, hstep⟩
    -- what is left of an action is its outcome, which has no step to take
    obtain ⟨rfl, -⟩ : ofExcept (f s).1 = q ∧ (f s).2 = t := by simpa [step] using hstep
    refine ⟨_, ?_⟩
    rintro q ⟨s', t', hstep⟩
    cases hr : (f s).1 <;> simp [hr, ofExcept, step] at hstep
  | handle p k ihp ihk => exact acc_shrinks_handle ihp ihk

end

/-! ### Crews -/

/-- Programs that share a state, one for each worker. -/
structure Crew (ε σ α ι : Type) where
  state : σ
  /-- What remains of each program. -/
  rest : ι → Program ε σ α

namespace Crew

section

variable {ε σ α ι : Type} (focus : ι → σ → σ)

/-- What a worker's program has come to, once it is over. -/
def outcome? (c : Crew ε σ α ι) (w : ι) : Option (Except ε α) :=
  ((c.rest w).step (focus w c.state)).getLeft?

variable {focus} {c : Crew ε σ α ι} {w : ι}

/-- A program is not over just if it has a step to take. -/
theorem outcome?_eq_none_iff :
    c.outcome? focus w = none ↔ ∃ q t, (c.rest w).step (focus w c.state) = .inr (q, t) := by
  rw [outcome?]
  rcases (c.rest w).step (focus w c.state) with r | ⟨q, t⟩ <;> simp

theorem outcome?_eq_some_iff {r : Except ε α} :
    c.outcome? focus w = some r ↔ (c.rest w).step (focus w c.state) = .inl r := by
  rw [outcome?]
  rcases (c.rest w).step (focus w c.state) with r' | x <;> simp

end

variable {ε σ α ι : Type} [DecidableEq ι] (focus : ι → σ → σ)

/-- A worker takes its next atomic step, if it has one to take; `focus` makes it the one that is
running. -/
def advance (c : Crew ε σ α ι) (w : ι) : Crew ε σ α ι :=
  match (c.rest w).step (focus w c.state) with
  | .inl _ => c
  | .inr (q, t) => ⟨t, Function.update c.rest w q⟩

/-- A worker that is not over advances. -/
def Turn (c d : Crew ε σ α ι) : Prop := ∃ w, c.outcome? focus w = none ∧ d = c.advance focus w

/-- Turn after turn. -/
def Reaches : Crew ε σ α ι → Crew ε σ α ι → Prop := Relation.ReflTransGen (Turn focus)

variable {focus} {c d : Crew ε σ α ι}

theorem advance_of_step {w : ι} {q : Program ε σ α} {t : σ}
    (h : (c.rest w).step (focus w c.state) = .inr (q, t)) :
    c.advance focus w = ⟨t, Function.update c.rest w q⟩ := by
  rw [advance, h]

/-- A turn is a step of one of the programs. -/
theorem Turn.exists_step (h : c.Turn focus d) : ∃ w q t,
    (c.rest w).step (focus w c.state) = .inr (q, t) ∧ d = ⟨t, Function.update c.rest w q⟩ := by
  obtain ⟨w, ho, rfl⟩ := h
  obtain ⟨q, t, hstep⟩ := outcome?_eq_none_iff.1 ho
  exact ⟨w, q, t, hstep, advance_of_step hstep⟩

/-- The programs that remain, in no order. -/
def remaining [Fintype ι] (c : Crew ε σ α ι) : Multiset (Program ε σ α) :=
  Finset.univ.val.map c.rest

/-- A turn takes a program away and puts one in that is left of it. -/
theorem cutExpand_remaining [Fintype ι] (h : c.Turn focus d) :
    Relation.CutExpand Shrinks d.remaining c.remaining := by
  obtain ⟨w, q, t, hstep, rfl⟩ := h.exists_step
  refine ⟨{q}, c.rest w, ?_, ?_⟩
  · intro q' hq'
    obtain rfl := Multiset.mem_singleton.1 hq'
    exact ⟨_, t, hstep⟩
  · -- apart from the worker, the programs are the same ones
    have hsplit : Finset.univ.val = w ::ₘ (Finset.univ.val.erase w) :=
      (Multiset.cons_erase (Finset.mem_univ_val w)).symm
    have hothers : (Finset.univ.val.erase w).map (Function.update c.rest w q) =
        (Finset.univ.val.erase w).map c.rest := by
      refine Multiset.map_congr rfl fun x hx => Function.update_of_ne ?_ _ _
      rintro rfl
      exact Finset.univ.nodup.notMem_erase hx
    show Finset.univ.val.map (Function.update c.rest w q) + {c.rest w} =
      Finset.univ.val.map c.rest + {q}
    rw [hsplit, Multiset.map_cons, Multiset.map_cons, hothers, Function.update_self]
    simp only [← Multiset.singleton_add]
    ac_rfl

variable (focus)

/-- With finitely many workers there is no infinite sequence of turns. -/
theorem wellFounded_turn [Fintype ι] :
    WellFounded fun d c : Crew ε σ α ι => c.Turn focus d := by
  -- a turn takes one program out of the multiset and puts a smaller one in
  have hwf : WellFounded (Relation.CutExpand (Shrinks : Program ε σ α → _ → Prop)) :=
    wellFounded_shrinks.cutExpand
  exact Subrelation.wf cutExpand_remaining (InvImage.wf remaining hwf)

/-- No run of a crew goes on for ever. -/
theorem not_forever [Fintype ι] (run : Nat → Crew ε σ α ι) :
    ¬ ∀ i, (run i).Turn focus (run (i + 1)) := by
  intro hrun
  obtain ⟨i, hi⟩ := @WellFounded.not_rel_apply_succ _ _ ⟨wellFounded_turn focus⟩ run
  exact hi (hrun i)

/-- So every crew comes to a point where there is no turn left. -/
theorem exists_last [Fintype ι] (c : Crew ε σ α ι) :
    ∃ d, c.Reaches focus d ∧ ¬ ∃ e, d.Turn focus e := by
  induction c using (wellFounded_turn focus).induction with
  | _ c ih =>
    by_cases hc : ∃ e, c.Turn focus e
    · obtain ⟨e, he⟩ := hc
      obtain ⟨d, hd, hlast⟩ := ih e he
      exact ⟨d, .head he hd, hlast⟩
    · exact ⟨c, .refl, hc⟩

end Crew

/-! ### Protocols -/

/-- What the workers of a crew hold of their state: which states agree with what each of them holds.
-/
structure Protocol (σ ι η : Type) where
  /-- Makes a worker the one that is running. -/
  focus : ι → σ → σ
  Agrees : (ι → η) → σ → Prop

namespace Protocol

variable {ε σ ι η : Type} [DecidableEq ι] (P : Protocol σ ι η) (w : ι)

/-- Run by a worker that holds `v`, the program ends with an outcome and a holding as in `Q`, whatever
the other workers do in between.  A step leaves the worker the one that is running. -/
def Ensures : {α : Type} → Program ε σ α → η → (Except ε α → η → Prop) → Prop
  | _, .done a, v, Q => Q (.ok a) v
  | _, .stop e, v, Q => Q (.error e) v
  | _, .act f, v, Q => ∀ V s, P.Agrees V s → V w = v →
      ∃ u, P.Agrees (Function.update V w u) (f (P.focus w s)).2 ∧
        P.focus w (f (P.focus w s)).2 = (f (P.focus w s)).2 ∧ Q (f (P.focus w s)).1 u
  | _, .handle p k, v, Q => Ensures p v fun r u => Ensures (k r) u Q

variable {P w} {α β : Type} {v : η}

theorem ensures_handle_iff {p : Program ε σ β} {k : Except ε β → Program ε σ α}
    {Q : Except ε α → η → Prop} : P.Ensures w (handle p k) v Q ↔
      P.Ensures w p v fun r u => P.Ensures w (k r) u Q := Iff.rfl

/-- A program ensures whatever follows from what it ensures. -/
theorem Ensures.mono {p : Program ε σ α} {Q Q' : Except ε α → η → Prop} (h : P.Ensures w p v Q)
    (hQ : ∀ r u, Q r u → Q' r u) : P.Ensures w p v Q' := by
  induction p generalizing v with
  | done a => exact hQ _ _ h
  | stop e => exact hQ _ _ h
  | act f =>
    intro V s hs hv
    obtain ⟨u, hu, hfocus, hr⟩ := h V s hs hv
    exact ⟨u, hu, hfocus, hQ _ _ hr⟩
  | handle p k ihp ihk => exact ihp h fun r u hr => ihk r hr hQ

theorem Ensures.ofExcept {r : Except ε α} {Q : Except ε α → η → Prop} (h : Q r v) :
    P.Ensures w (Program.ofExcept r : Program ε σ α) v Q := by
  cases r with
  | ok a => exact h
  | error e => exact h

/-- A program that is over has ensured its outcome. -/
theorem Ensures.over {p : Program ε σ α} {Q : Except ε α → η → Prop} (h : P.Ensures w p v Q)
    {s : σ} {r : Except ε α} (hstep : p.step s = .inl r) : Q r v := by
  induction p with
  | done a =>
    obtain rfl : .ok a = r := by simpa [step] using hstep
    exact h
  | stop e =>
    obtain rfl : .error e = r := by simpa [step] using hstep
    exact h
  | act f => simp [step] at hstep
  | handle p k ihp ihk =>
    rw [step] at hstep
    split at hstep
    · rename_i r' hr'
      -- both programs are over, the second in what the first one ensures
      exact ihk r' (ihp h hr') hstep
    · cases hstep

/-- A step of the worker leads to states that agree with what it holds then, and the rest of the
program ensures what the program did. -/
theorem Ensures.step {p q : Program ε σ α} {Q : Except ε α → η → Prop} (h : P.Ensures w p v Q)
    {V : ι → η} {s t : σ} (hs : P.Agrees V s) (hv : V w = v)
    (hstep : p.step (P.focus w s) = .inr (q, t)) :
    ∃ u, P.Agrees (Function.update V w u) t ∧ P.Ensures w q u Q := by
  induction p with
  | done a | stop e => cases hstep
  | act f =>
    obtain ⟨rfl, rfl⟩ : Program.ofExcept (f (P.focus w s)).1 = q ∧ (f (P.focus w s)).2 = t := by
      simpa [Program.step] using hstep
    obtain ⟨u, hu, -, hr⟩ := h V s hs hv
    exact ⟨u, hu, .ofExcept hr⟩
  | handle p k ihp ihk =>
    rw [Program.step] at hstep
    split at hstep
    · rename_i r hr
      -- the first program is over, and the step is one of the second
      exact ihk r ((ensures_handle_iff.1 h).over hr) hstep
    · rename_i q' t' hq'
      obtain ⟨rfl, rfl⟩ : handle q' k = q ∧ t' = t := by simpa using hstep
      exact ihp h hq'

/-- With nobody in between, the program does what it ensures. -/
theorem Ensures.run {p : Program ε σ α} {Q : Except ε α → η → Prop} (h : P.Ensures w p v Q)
    {V : ι → η} {s : σ} (hs : P.Agrees V s) (hv : V w = v) (hw : P.focus w s = s) :
    ∃ u, P.Agrees (Function.update V w u) (p.run s).2 ∧ P.focus w (p.run s).2 = (p.run s).2 ∧
      Q (p.run s).1 u := by
  induction p generalizing V s v with
  | done a | stop e =>
    refine ⟨v, ?_, hw, h⟩
    rw [← hv, Function.update_eq_self]
    exact hs
  | act f =>
    obtain ⟨u, hu, hfocus, hr⟩ := h V s hs hv
    -- the worker is the one that is running
    rw [hw] at hu hfocus hr
    exact ⟨u, hu, hfocus, hr⟩
  | handle p k ihp ihk =>
    -- what follows starts from what the worker holds after the first program
    obtain ⟨u, hu, hfocus, hk⟩ := ihp h hs hv hw
    obtain ⟨u', hu', hend⟩ := ihk _ hk hu (Function.update_self w u V) hfocus
    rw [Function.update_idem] at hu'
    exact ⟨u', hu', hend⟩

/-! ### Crews that keep to a protocol -/

/-- The state agrees with some holdings, from which each program ensures what it has to. -/
def Keeps (P : Protocol σ ι η) (Q : ι → Except ε α → η → Prop) (c : Crew ε σ α ι) : Prop :=
  ∃ V, P.Agrees V c.state ∧ ∀ w, P.Ensures w (c.rest w) (V w) (Q w)

variable {Q : ι → Except ε α → η → Prop} {c d : Crew ε σ α ι}

/-- One turn: the worker whose turn it is keeps to the protocol by its own step. -/
theorem Keeps.turn (h : P.Keeps Q c) (ht : c.Turn P.focus d) : P.Keeps Q d := by
  obtain ⟨V, hs, hrest⟩ := h
  obtain ⟨w, q, t, hstep, rfl⟩ := ht.exists_step
  obtain ⟨u, hu, hq⟩ := (hrest w).step hs rfl hstep
  -- the others hold what they held, so what they ensure is not touched
  refine ⟨Function.update V w u, hu, fun x => ?_⟩
  by_cases hx : x = w
  · subst hx
    simpa using hq
  · simpa [hx] using hrest x

/-- Any number of turns. -/
theorem Keeps.reaches (h : P.Keeps Q c) (hr : c.Reaches P.focus d) : P.Keeps Q d := by
  induction hr with
  | refl => exact h
  | tail _ ht ih => exact ih.turn ht

/-- What has come of the programs that are over. -/
theorem Keeps.outcomes (h : P.Keeps Q c) : ∃ V, P.Agrees V c.state ∧
    ∀ w r, c.outcome? P.focus w = some r → Q w r (V w) := by
  obtain ⟨V, hs, hrest⟩ := h
  exact ⟨V, hs, fun w r hr => (hrest w).over (Crew.outcome?_eq_some_iff.1 hr)⟩

/-! ### Programs that return -/

/-- Run by a worker that holds `v`, the program returns a value, with a holding as in `R`. -/
def Returns (P : Protocol σ ι η) (w : ι) (p : Program ε σ α) (v : η) (R : α → η → Prop) : Prop :=
  P.Ensures w p v fun r u => ∃ a, r = .ok a ∧ R a u

namespace Returns

variable {R : α → η → Prop} {S : β → η → Prop}

theorem done {a : α} (h : R a v) : P.Returns w (.done a : Program ε σ α) v R := ⟨a, rfl, h⟩

theorem mono {R' : α → η → Prop} {p : Program ε σ α} (h : P.Returns w p v R)
    (hR : ∀ a u, R a u → R' a u) : P.Returns w p v R' := by
  refine Ensures.mono h ?_
  rintro r u ⟨a, rfl, ha⟩
  exact ⟨a, rfl, hR a u ha⟩

/-- A program that returns may be followed by one that never sees an error. -/
theorem handle {p : Program ε σ α} {k : Except ε α → Program ε σ β} (hp : P.Returns w p v R)
    (hk : ∀ a u, R a u → P.Returns w (k (.ok a)) u S) : P.Returns w (.handle p k) v S := by
  refine ensures_handle_iff.2 (Ensures.mono hp ?_)
  rintro r u ⟨a, rfl, ha⟩
  exact hk a u ha

theorem bind {p : Program ε σ α} {k : α → Program ε σ β} (hp : P.Returns w p v R)
    (hk : ∀ a u, R a u → P.Returns w (k a) u S) : P.Returns w (p >>= k) v S :=
  handle hp hk

/-- What comes first may be over already. -/
theorem bind_done {a : α} {k : α → Program ε σ β} (h : P.Returns w (k a) v S) :
    P.Returns w ((.done a : Program ε σ α) >>= k) v S := h

end Returns

end Protocol

end CommandHost
