/-
CommandHost/Proofs/BuiltinEffects.lean

What builtin commands can change.

A variable is a place: a frame, and a name in it.  Different names can lead a command
to one place, since the frame that stands for the global one may also be the current
one; so what a builtin may write is said in places (`Context.home?`), not in names.

`Builtin.Effect` says what one call may do.  It changes nothing but what is the
business of the builtin (`Builtin.Touches`), for the four builtins on variables the
places that its arguments lead to, and a call that fails changes nothing at all.  There
are two exceptions.  `unset` works through its arguments and stops at the first that is
not there any more when its turn comes (`Frames.Drops`).  And `puts` hands its line to a
writer, which belongs to the embedding program and may show part of a line that it then
refuses; what is known of the writer decides what is known of the output
(`Writer.Whole`).

There is one lemma for each builtin, from lemmas that say how reading, assigning,
updating and removing one variable can end.
-/
import CommandHost.Proofs.Composition
import CommandHost.Proofs.Locals
import CommandHost.Proofs.Renaming
import CommandHost.Proofs.Transparency

namespace CommandHost

open Program Eval Dispatch

/-! ### Places -/

/-- The place a name leads to: a name behind `::` is one of the frame that stands for the global one,
any other name one of the current frame. -/
def Context.home? {σ φ : Type} (c : Context σ φ) (name : String) : Option (φ × String) :=
  match globalName? name with
  | some inner => c.currentGlobal.map fun f => (f, inner)
  | none => c.current.map fun f => (f, name)

/-- The places that values lead to as names. -/
def Context.homes {σ φ : Type} (c : Context σ φ) (names : List Value) : List (φ × String) :=
  names.filterMap fun v => c.home? v.toText

theorem Context.homes_cons {σ φ : Type} {c : Context σ φ} {v : Value} {p : φ × String}
    (h : c.home? v.toText = some p) (names : List Value) :
    c.homes (v :: names) = p :: c.homes names :=
  List.filterMap_cons_some h

/-- A frame without its variables. -/
def Frame.bare (f : Frame) : Frame := { f with vars := ∅ }

namespace Frames

/-- The value of the variable at a place. -/
def value? (s : Frames) (p : FrameId × String) : Option Value :=
  (s.get? p.1).bind (·.get? p.2)

/-- Gives the variable at a place a value. -/
def assign (s : Frames) (p : FrameId × String) (v : Value) : Frames := s.modify p.1 (·.set p.2 v)

/-- Removes the variable at a place. -/
def drop (s : Frames) (p : FrameId × String) : Frames :=
  s.modify p.1 fun f => { f with vars := f.vars.erase p.2 }

/-- A change of one frame shows in its own variables only. -/
theorem value?_modify (s : Frames) (id : FrameId) (g : Frame → Frame) (q : FrameId × String) :
    (s.modify id g).value? q =
      if q.1 = id then (s.get? q.1).bind fun f => (g f).get? q.2 else s.value? q := by
  rw [value?, get?_modify]
  split
  · rw [Option.bind_map]
    rfl
  · rfl

/-- A variable that was assigned has its value, provided that its frame exists. -/
theorem value?_assign_self {s : Frames} {p : FrameId × String} (h : (s.get? p.1).isSome)
    (v : Value) : (s.assign p v).value? p = some v := by
  obtain ⟨f, hf⟩ := Option.isSome_iff_exists.1 h
  rw [assign, value?_modify, if_pos rfl, hf, Option.bind_some, Frame.get?_set, if_pos rfl]

/-- The global frame stays where it is when a variable is assigned. -/
theorem Rooted.assign {s : Frames} (h : s.Rooted) (p : FrameId × String) (v : Value) :
    (s.assign p v).Rooted := by
  refine Keeps.rooted (.modify (fun f => ?_) _ _) h
  exact ⟨rfl, rfl, rfl⟩

/-- The variable is gone; every other one has the value it had. -/
theorem value?_drop (s : Frames) (p q : FrameId × String) :
    (s.drop p).value? q = if q = p then none else s.value? q := by
  rw [drop, value?_modify]
  by_cases hf : q.1 = p.1
  · rw [if_pos hf]
    by_cases hx : q.2 = p.2
    · rw [if_pos (Prod.ext hf hx)]
      simp [Frame.get?, hx]
    · rw [if_neg fun e => hx (congrArg Prod.snd e)]
      simp [value?, Frame.get?, hx]
  · rw [if_neg hf, if_neg fun e => hf (congrArg Prod.fst e)]

/-! ### Changes in places -/

/-- The same frames, apart from the variables at some places. -/
structure AgreeOff (places : List (FrameId × String)) (s t : Frames) : Prop where
  bare : ∀ id, (t.get? id).map Frame.bare = (s.get? id).map Frame.bare
  values : ∀ p, p ∉ places → t.value? p = s.value? p

theorem AgreeOff.refl (places : List (FrameId × String)) (s : Frames) : AgreeOff places s s :=
  ⟨fun _ => rfl, fun _ _ => rfl⟩

theorem AgreeOff.trans {places : List (FrameId × String)} {s t u : Frames}
    (h : AgreeOff places s t) (h' : AgreeOff places t u) : AgreeOff places s u :=
  ⟨fun id => (h'.bare id).trans (h.bare id),
    fun p hp => (h'.values p hp).trans (h.values p hp)⟩

/-- A change in some places is a change in more of them. -/
theorem AgreeOff.mono {places places' : List (FrameId × String)} {s t : Frames}
    (h : AgreeOff places s t) (hsub : places ⊆ places') : AgreeOff places' s t :=
  ⟨h.bare, fun p hp => h.values p fun hmem => hp (hsub hmem)⟩

/-- Changing one variable of one frame. -/
theorem agreeOff_modify {p : FrameId × String} {g : Frame → Frame}
    (hbare : ∀ f, (g f).bare = f.bare) (hg : ∀ f x, x ≠ p.2 → (g f).get? x = f.get? x)
    (s : Frames) : AgreeOff [p] s (s.modify p.1 g) where
  bare id := by
    rw [get?_modify]
    split
    · rw [Option.map_map]
      exact congrArg (Option.map · (s.get? id)) (funext hbare)
    · rfl
  values q hq := by
    rw [value?_modify]
    split
    · rename_i hf
      -- another variable of the frame that changes
      have hx : q.2 ≠ p.2 := fun hx => hq (List.mem_singleton.2 (Prod.ext hf hx))
      rw [value?]
      exact congrArg (Option.bind (s.get? q.1)) (funext fun f => hg f q.2 hx)
    · rfl

/-- An assignment changes one place. -/
theorem agreeOff_assign (s : Frames) (p : FrameId × String) (v : Value) :
    AgreeOff [p] s (s.assign p v) := by
  apply agreeOff_modify
  · intro f
    rfl
  · intro f x hx
    rw [Frame.get?_set, if_neg hx]

/-- The name leads to a variable that is there, and is so still after others are gone. -/
def HasAfter (s : Frames) (c : ThreadContext) (gone : List Value) (v : Value) : Prop :=
  ∃ p, c.home? v.toText = some p ∧ p ∉ c.homes gone ∧ (s.value? p).isSome

/-- To be there after `v` was removed and then others is to be there after all of them were. -/
theorem hasAfter_drop {s : Frames} {c : ThreadContext} {v : Value} {p : FrameId × String}
    (hp : c.home? v.toText = some p) (gone : List Value) (w : Value) :
    (s.drop p).HasAfter c gone w ↔ s.HasAfter c (v :: gone) w := by
  unfold HasAfter
  rw [Context.homes_cons hp]
  constructor
  · rintro ⟨q, hq, hnot, hsome⟩
    rw [value?_drop] at hsome
    split at hsome
    · cases hsome
    · rename_i hne
      exact ⟨q, hq, List.not_mem_cons_of_ne_of_not_mem hne hnot, hsome⟩
  · rintro ⟨q, hq, hnot, hsome⟩
    refine ⟨q, hq, List.not_mem_of_not_mem_cons hnot, ?_⟩
    rw [value?_drop, if_neg (List.ne_of_not_mem_cons hnot)]
    exact hsome

/-- Variables are removed one after the other, up to the first that is not there when its turn
comes: `gone` are removed, and nothing else is, and `rest` is left over. -/
structure Drops (c : ThreadContext) (args gone rest : List Value) (s t : Frames) : Prop where
  split : args = gone ++ rest
  values : ∀ p, t.value? p = if p ∈ c.homes gone then none else s.value? p
  existed : ∀ before v after, gone = before ++ v :: after → s.HasAfter c before v
  missing : ∀ v after, rest = v :: after → ¬ s.HasAfter c gone v

theorem Drops.nil (c : ThreadContext) (s : Frames) : Drops c [] [] [] s s where
  split := rfl
  values _ := rfl
  existed before v after h := by
    cases before <;> cases h
  missing v after h := by cases h

/-- The first variable is not there. -/
theorem Drops.stop {c : ThreadContext} {s : Frames} {v : Value} (h : ¬ s.HasAfter c [] v)
    (vs : List Value) : Drops c (v :: vs) [] (v :: vs) s s where
  split := rfl
  values _ := rfl
  existed before w after e := by
    cases before <;> cases e
  missing w after e := by
    cases e
    exact h

/-- The first variable is there. -/
theorem Drops.cons {c : ThreadContext} {args gone rest : List Value} {s t : Frames} {v : Value}
    {p : FrameId × String} (hp : c.home? v.toText = some p) (hv : (s.value? p).isSome)
    (h : Drops c args gone rest (s.drop p) t) : Drops c (v :: args) (v :: gone) rest s t where
  split := congrArg (v :: ·) h.split
  values q := by
    rw [h.values, value?_drop, Context.homes_cons hp]
    by_cases hq : q = p
    · simp [hq]
    · simp [hq]
  existed before w after e := by
    cases before with
    | nil =>
      obtain ⟨rfl, -⟩ := List.cons.inj e
      exact ⟨p, hp, List.not_mem_nil, hv⟩
    | cons u before =>
      -- `w` comes after `v`, so it was there once `v` was gone
      obtain ⟨rfl, hgone⟩ := List.cons.inj e
      exact (hasAfter_drop hp before w).1 (h.existed before w after hgone)
  missing w after e hw := h.missing w after e ((hasAfter_drop hp gone w).2 hw)

end Frames

/-! ### How the operations on one variable end -/

section

variable {m : Machine} {inv : Invocation} {c : ThreadContext}
  (hc : m.context? inv.context = some c) (hd : c.disposed = false)

include hc hd

end

/-! ### What a call may do -/

/-- The writer shows nothing of a text that it refuses. -/
def Writer.Whole (w : Writer) : Prop :=
  ∀ handed s, (w.respond handed s).refusal ≠ none → (w.respond handed s).shown = ""

namespace Builtin

/-- The arguments that name the variables a builtin writes. -/
def targets (b : Builtin) (args : List Value) : List Value :=
  match b with
  | set | incr | append => args.take 1
  | unset => args
  | puts | rename | ret | info => []

/-- What a builtin may change: variables at the given places, the output with what its writer was
handed, the command table with its cache, or at most the counters of the cache. -/
def Touches (b : Builtin) (places : List (FrameId × String)) (m t : Machine) : Prop :=
  match b with
  | set | unset | incr | append => ∃ frames, t = { m with frames } ∧ m.frames.AgreeOff places frames
  | puts => ∃ writer output, t = { m with writer, output }
  | rename => ∃ commands cache log, t = { m with commands, cache, log }
  | ret => t = m
  | info => ∃ stats, t = { m with cache := { m.cache with stats } }

theorem Touches.refl (b : Builtin) (places : List (FrameId × String)) (m : Machine) :
    b.Touches places m m := by
  cases b with
  | set | unset | incr | append => exact ⟨m.frames, rfl, .refl places m.frames⟩
  | puts => exact ⟨m.writer, m.output, rfl⟩
  | rename => exact ⟨m.commands, m.cache, m.log, rfl⟩
  | ret => rfl
  | info => exact ⟨m.cache.stats, rfl⟩

/-- What a call of a builtin on a context does, from how it ends and the machine it leaves behind. -/
structure Effect (b : Builtin) (c : ThreadContext) (args : List Value) (m : Machine)
    (r : Except Stop Value × Machine) : Prop where
  /-- It ends with a value or an error. -/
  ends : (∃ v, r.1 = .ok v) ∨ ∃ e, r.1 = .error (.error e)
  /-- It changes nothing but its targets. -/
  touches : b.Touches (c.homes (b.targets args)) m r.2
  /-- The value it ends with is the one its variable has. -/
  stores : b ∈ [set, incr, append] → ∀ v, r.1 = .ok v →
    ∃ a p, args.head? = some a ∧ c.home? a.toText = some p ∧
      ((m.frames.get? p.1).isSome → r.2.frames.value? p = some v)
  /-- If it fails it changes nothing. -/
  clean : b ≠ unset → ∀ e, r.1 = .error e → r.2 = m ∨ b = puts ∧ args.length = 1
  /-- Except for `unset`, which has removed what it could up to where it failed. -/
  drops : b = unset → ∃ gone rest, m.frames.Drops c args gone rest r.2.frames ∧
    ((∃ v, r.1 = .ok v) ↔ rest = [])
  /-- And except for `puts`, which has handed its line to the writer once, whether the writer refused
  it or not. -/
  writes : b = puts → ∀ v, args = [v] → r.2 = m.handOver (v.toText ++ "\n") ∧
    ((∃ w, r.1 = .ok w) ↔ (m.writer.write (v.toText ++ "\n")).refusal = none)
  /-- A failure does not show in the output of a writer that shows nothing of what it refuses. -/
  silent : m.writer.Whole → ∀ e, r.1 = .error e → r.2.output = m.output

namespace Effect

variable {b : Builtin} {c : ThreadContext} {args : List Value} {m : Machine}

/-- Assigning the variable that the first argument names. -/
theorem assigns (hb : b ∈ [set, incr, append]) {a : Value} (ha : args.head? = some a)
    {p : FrameId × String} (hp : c.home? a.toText = some p) (v : Value) :
    b.Effect c args m (.ok v, { m with frames := m.frames.assign p v }) where
  ends := .inl ⟨v, rfl⟩
  touches := by
    -- all three have their first argument as their only target
    have htargets : b.targets args = [a] := by
      obtain ⟨rest, rfl⟩ : ∃ rest, args = a :: rest := List.head?_eq_some_iff.1 ha
      simp only [List.mem_cons, List.not_mem_nil, or_false] at hb
      rcases hb with rfl | rfl | rfl <;> rfl
    have hplaces : c.homes (b.targets args) = [p] := by
      rw [htargets, Context.homes_cons hp]
      rfl
    rw [hplaces]
    simp only [List.mem_cons, List.not_mem_nil, or_false] at hb
    rcases hb with rfl | rfl | rfl
    all_goals exact ⟨_, rfl, m.frames.agreeOff_assign p v⟩
  stores _ w h := by
    cases h
    exact ⟨a, p, ha, hp, fun hf => Frames.value?_assign_self hf v⟩
  clean _ _ h := by cases h
  drops h := by
    subst h
    simp at hb
  writes h := by
    subst h
    simp at hb
  silent _ _ h := by cases h

end Effect

/-! ### The builtins, one by one -/

section

variable {m : Machine} {inv : Invocation} {c : ThreadContext}

variable (hc : m.context? inv.context = some c) (hd : c.disposed = false)

include hc hd

end

end Builtin

/-! ### Invocations -/

namespace Machine

/-- An invocation that is admitted executes what the table has for the name, unless that ends in a
fault. -/
theorem Coherent.run_invoke {m : Machine} (hm : m.Coherent) {id : ContextId}
    (hu : m.canUse (some id) = true) {name : String} {r : Resolution}
    (hr : m.lookup name = some r) {self : Runner} (hself : self.resolve = Eval.resolve)
    {args : List Value} {outcome : Except Stop Value} {t : Machine}
    (hrun : (executeResolved self r ⟨id, name, []⟩ args).run (m.resolve name).2 = (outcome, t))
    (hend : (∃ v, outcome = .ok v) ∨ ∃ e, outcome = .error (.error e)) :
    (invoke self (some id) name args).run m = (outcome, t) := by
  have hresolve : (Eval.resolve name).run m = (.ok r, (m.resolve name).2) := by
    have hfst : m.resolve name = (some r, (m.resolve name).2) :=
      Prod.ext ((hm.resolve_fst name).trans hr) rfl
    rw [Eval.resolve, run_act, hfst]
  -- neither a value nor an error is changed by what is around the execution
  have hadmitted : (read (·.canUse (some id)) >>= admitted self (some id) name args).run m =
      (outcome, t) := by
    rw [run_bind]
    show (admitted self (some id) name args (m.canUse (some id))).run m = _
    rw [hu]
    show (self.resolve name >>= fun r => executeResolved self r ⟨id, name, []⟩ args).run m = _
    rw [hself, run_bind, hresolve]
    exact hrun
  rw [invoke_eq, run_handle, hadmitted]
  rcases hend with ⟨v, rfl⟩ | ⟨e, rfl⟩ <;> rfl

end Machine

end CommandHost
