/-
CommandHost/Proofs/Workload.lean

The protocol that the workers of the load generator keep to.

Each worker holds a part of the machine that the others leave alone (`Holding`): the
context of its thread, the frame of the call that it is in, and its square command,
which is under its own name or, in the middle of a churn, under the spare one.  It
also knows what it has added to the totals so far.  Machines agree with the holdings
(`Agreed`) if these parts are as held and if the totals are the sums over the workers,
as integers of the machine are: modulo 2^64.

The rest of the module is about single atomic steps.  Each is stated for the holding
of the one worker that takes it, and says what the worker holds afterwards; that the
holdings of the others are still right is part of agreeing.
-/
import CommandHost.Proofs.Atoms
import CommandHost.Proofs.Interleaving
import CommandHost.Proofs.ThreadTable
import CommandHost.Proofs.Transparency

namespace CommandHost

open Program Eval Dispatch

namespace LoadGenerator

variable {W : Nat}

/-! ### Names -/

/-- The names that matter to the workers. -/
inductive Role (W : Nat) where
  | set
  | incr
  | bump
  | unknown
  | square (w : Fin W)
  /-- Where a worker's square command is in the middle of a churn. -/
  | spare (w : Fin W)
  /-- The name that a worker calls and nobody defines. -/
  | probe (w : Fin W)
  deriving DecidableEq

namespace Role

def name : Role W → String
  | set => "set"
  | incr => "incr"
  | bump => "bump"
  | unknown => Machine.unknownName
  | square w => squareName w
  | spare w => squareName w ++ "_tmp"
  | probe w => "probe" ++ Number.intText w

def letters : Role W → List Char
  | set => ['s', 'e', 't']
  | incr => ['i', 'n', 'c', 'r']
  | bump => ['b', 'u', 'm', 'p']
  | unknown => ['u', 'n', 'k', 'n', 'o', 'w', 'n']
  | square w => 's' :: 'q' :: 'u' :: 'a' :: 'r' :: 'e' :: Nat.toDigits 10 w
  | spare w => 's' :: 'q' :: 'u' :: 'a' :: 'r' :: 'e' :: (Nat.toDigits 10 w ++ ['_', 't', 'm', 'p'])
  | probe w => 'p' :: 'r' :: 'o' :: 'b' :: 'e' :: Nat.toDigits 10 w

end Role

theorem toList_intText (n : Nat) : (Number.intText n).toList = Nat.toDigits 10 n := by
  have hn : ¬ (n : Int) < 0 := by omega
  simp [Number.intText, Number.natText, hn]

theorem Role.toList_name (r : Role W) : r.name.toList = r.letters := by
  cases r <;> simp [name, letters, squareName, Machine.unknownName, toList_intText]

theorem toDigits_injective {a b : Nat} (h : Nat.toDigits 10 a = Nat.toDigits 10 b) : a = b := by
  rw [← Nat.ofDigitChars_ten_toDigits (n := a), h, Nat.ofDigitChars_ten_toDigits]

/-- The digits of a number have no underscore. -/
theorem toDigits_ne_underscore (a b : Nat) (rest : List Char) :
    Nat.toDigits 10 a ≠ Nat.toDigits 10 b ++ '_' :: rest := by
  intro h
  have hmem : '_' ∈ Nat.toDigits 10 a := by simp [h]
  exact absurd (Nat.isDigit_of_mem_toDigits (by decide) (by decide) hmem) (by decide)

/-- Different roles have different names. -/
theorem Role.name_injective {r r' : Role W} (h : r.name = r'.name) : r = r' := by
  have hletters : r.letters = r'.letters := by rw [← toList_name, h, toList_name]
  cases r <;> cases r' <;> simp [letters] at hletters
  case set.set | incr.incr | bump.bump | unknown.unknown => rfl
  case square.square w x | probe.probe w x => rw [Fin.ext (toDigits_injective hletters)]
  case spare.spare w x => rw [Fin.ext (toDigits_injective hletters)]
  case square.spare w x => exact absurd hletters (toDigits_ne_underscore _ _ _)
  case spare.square w x => exact absurd hletters.symm (toDigits_ne_underscore _ _ _)

/-! ### Holdings -/

/-- What a worker holds of the machine, and what it has added to the totals. -/
structure Holding where
  /-- The context of its thread. -/
  context : Option (ContextId × ThreadContext) := none
  /-- The frame of the call that it is in. -/
  frame : Option (FrameId × Frame) := none
  /-- Whether its square command is under its own name. -/
  home : Bool := true
  calls : Nat := 0
  unknown : Nat := 0
  churned : Nat := 0
  bumps : Nat := 0

/-- The threads of the workers. -/
structure Roster (W : Nat) where
  thread : Fin W → ThreadId
  distinct : ∀ {w x}, thread w = thread x → w = x
  ne_zero : ∀ w, thread w ≠ 0

/-- The machine with the thread of a worker as the current one. -/
def Roster.focus (roster : Roster W) (w : Fin W) (m : Machine) : Machine :=
  { m with thread := roster.thread w }

/-- Where a worker's square command is, at home or not. -/
def Role.place (w : Fin W) : Bool → Role W
  | true => square w
  | false => spare w

/-- The command that goes by a name. -/
def Role.command (run : Nat) (home : Fin W → Bool) : Role W → Option Command
  | set => some (.builtin .set)
  | incr => some (.builtin .incr)
  | bump => some LoadGenerator.bump
  | unknown => some (.tally run)
  | square w => if home w then some .square else none
  | spare w => if home w then none else some .square
  | probe _ => none

/-- What the workers come to together. -/
def total (g : Fin W → Nat) : Nat := (List.finRange W).foldr (fun w sum => g w + sum) 0

theorem foldr_update_of_notMem {ws : List (Fin W)} {w : Fin W} (h : w ∉ ws) (g : Fin W → Nat)
    (a : Nat) : ws.foldr (fun x sum => Function.update g w a x + sum) 0 =
      ws.foldr (fun x sum => g x + sum) 0 := by
  induction ws with
  | nil => rfl
  | cons x ws ih =>
    obtain ⟨hx, hws⟩ : w ≠ x ∧ w ∉ ws := by simpa using h
    simp [ih hws, Function.update_of_ne (Ne.symm hx)]

theorem foldr_update_of_mem {ws : List (Fin W)} (hn : ws.Nodup) {w : Fin W} (h : w ∈ ws)
    (g : Fin W → Nat) (a : Nat) : ws.foldr (fun x sum => Function.update g w a x + sum) 0 + g w =
      ws.foldr (fun x sum => g x + sum) 0 + a := by
  induction ws with
  | nil => cases h
  | cons x ws ih =>
    obtain ⟨hx, hws⟩ := List.nodup_cons.1 hn
    by_cases hwx : w = x
    · subst hwx
      simp only [List.foldr_cons, Function.update_self, foldr_update_of_notMem hx]
      omega
    · have := ih hws ((List.mem_cons.1 h).resolve_left hwx)
      simp only [List.foldr_cons, Function.update_of_ne (Ne.symm hwx)]
      omega

theorem total_update (g : Fin W → Nat) (w : Fin W) (more : Nat) :
    total (Function.update g w (g w + more)) = total g + more := by
  have h := foldr_update_of_mem (List.nodup_finRange W) (List.mem_finRange w) g (g w + more)
  simp only [total]
  omega

/-- What a worker holds after one of them, perhaps another, has changed what it holds. -/
theorem update_eq_some_iff {β : Type} {held : Fin W → Option β} {w x : Fin W} {o : Option β}
    {y : β} : Function.update held w o x = some y ↔
      x = w ∧ o = some y ∨ x ≠ w ∧ held x = some y := by
  by_cases hx : x = w
  · simp [hx]
  · simp [hx]

/-- The contexts are those that the workers hold, and the threads' table lists just them. -/
structure Posted (roster : Roster W) (held : Fin W → Option (ContextId × ThreadContext))
    (contexts : Array ThreadContext) (byThread : Table ThreadId ContextId)
    (last : Option ContextId) : Prop where
  mine : ∀ {w id c}, held w = some (id, c) →
    contexts[id.index]? = some c ∧ c.thread = roster.thread w ∧ c.disposed = false
  listed : ∀ w, byThread.get? (roster.thread w) = (held w).map Prod.fst
  others : ∀ {t id}, byThread.get? t = some id → ∃ w, t = roster.thread w
  previous : ∀ {id}, last = some id → ∃ w c, held w = some (id, c)

namespace Posted

variable {roster : Roster W} {held : Fin W → Option (ContextId × ThreadContext)}
  {contexts : Array ThreadContext} {byThread : Table ThreadId ContextId} {last : Option ContextId}
  {w : Fin W} {id : ContextId} {c : ThreadContext}

/-- Workers hold different contexts. -/
theorem apart (h : Posted roster held contexts byThread last) {x : Fin W} {d : ThreadContext}
    (hw : held w = some (id, c)) (hx : held x = some (id, d)) : w = x := by
  obtain ⟨hc, hcw, -⟩ := h.mine hw
  obtain ⟨hd, hdx, -⟩ := h.mine hx
  obtain rfl : c = d := Option.some.inj (hc.symm.trans hd)
  exact roster.distinct (hcw.symm.trans hdx)

/-- A worker changes its context. -/
theorem modify (h : Posted roster held contexts byThread last) (hw : held w = some (id, c))
    {c' : ThreadContext} (ht : c'.thread = c.thread) (hd : c'.disposed = c.disposed) :
    Posted roster (Function.update held w (some (id, c'))) (contexts.modify id.index fun _ => c')
      byThread last := by
  obtain ⟨hc, hthread, hdisposed⟩ := h.mine hw
  refine ⟨?_, ?_, h.others, ?_⟩
  · intro x k d hx
    obtain ⟨rfl, hx⟩ | ⟨hxw, hx⟩ := update_eq_some_iff.1 hx
    · obtain ⟨rfl, rfl⟩ : id = k ∧ c' = d := by simpa using hx
      exact ⟨by simp [Array.getElem?_modify, hc], ht.trans hthread, hd.trans hdisposed⟩
    · obtain ⟨hd, hrest⟩ := h.mine hx
      -- the context of another worker is another one, so it is as it was
      have hne : id.index ≠ k.index := by
        intro e
        obtain rfl : id = k := by cases id; cases k; simpa using e
        exact hxw (h.apart hx hw)
      exact ⟨by simpa [Array.getElem?_modify, hne] using hd, hrest⟩
  · intro x
    by_cases hxw : x = w
    · subst hxw
      simpa [hw] using h.listed x
    · simpa [hxw] using h.listed x
  · intro k hk
    obtain ⟨x, d, hx⟩ := h.previous hk
    by_cases hxw : x = w
    · subst hxw
      obtain ⟨rfl, rfl⟩ : id = k ∧ c = d := by simpa [hw] using hx
      exact ⟨x, c', update_eq_some_iff.2 (.inl ⟨rfl, rfl⟩)⟩
    · exact ⟨x, d, update_eq_some_iff.2 (.inr ⟨hxw, hx⟩)⟩

/-- A worker gets a context. -/
theorem create (h : Posted roster held contexts byThread last) (hw : held w = none)
    (ht : c.thread = roster.thread w) (hd : c.disposed = false) :
    Posted roster (Function.update held w (some (⟨contexts.size⟩, c))) (contexts.push c)
      (byThread.insert (roster.thread w) ⟨contexts.size⟩) (some ⟨contexts.size⟩) := by
  refine ⟨?_, ?_, ?_, ?_⟩
  · intro x k d hx
    obtain ⟨rfl, hx⟩ | ⟨hxw, hx⟩ := update_eq_some_iff.1 hx
    · obtain ⟨rfl, rfl⟩ : ⟨contexts.size⟩ = k ∧ c = d := by simpa using hx
      exact ⟨by simp, ht, hd⟩
    · obtain ⟨hd, hrest⟩ := h.mine hx
      -- the contexts of the others were there before, so the new one is none of them
      have hlt : k.index < contexts.size := (Array.getElem?_eq_some_iff.1 hd).1
      refine ⟨?_, hrest⟩
      rw [Array.getElem?_push, if_neg (by omega), hd]
  · intro x
    by_cases hxw : x = w
    · subst hxw
      simp
    · have hne : roster.thread x ≠ roster.thread w := fun e => hxw (roster.distinct e)
      simpa [hxw, hne] using h.listed x
  · intro t k hk
    rw [Table.get?_insert] at hk
    split at hk
    · rename_i e
      exact ⟨w, e⟩
    · exact h.others hk
  · intro k hk
    obtain rfl := Option.some.inj hk
    exact ⟨w, c, update_eq_some_iff.2 (.inl ⟨rfl, rfl⟩)⟩

/-- A worker gives its context up. -/
theorem release (h : Posted roster held contexts byThread last) (hw : held w = some (id, c))
    {contexts' : Array ThreadContext}
    (hc : ∀ k : ContextId, k ≠ id → contexts'[k.index]? = contexts[k.index]?) :
    Posted roster (Function.update held w none) contexts' (byThread.erase (roster.thread w))
      (if last = some id then none else last) := by
  refine ⟨?_, ?_, ?_, ?_⟩
  · intro x k d hx
    obtain ⟨-, ⟨⟩⟩ | ⟨hxw, hx⟩ := update_eq_some_iff.1 hx
    obtain ⟨hd, hrest⟩ := h.mine hx
    have hne : k ≠ id := by
      rintro rfl
      exact hxw (h.apart hx hw)
    exact ⟨(hc k hne).trans hd, hrest⟩
  · intro x
    by_cases hxw : x = w
    · subst hxw
      simp
    · have hne : roster.thread x ≠ roster.thread w := fun e => hxw (roster.distinct e)
      simpa [hxw, hne] using h.listed x
  · intro t k hk
    rw [Table.get?_erase] at hk
    split at hk
    · cases hk
    · exact h.others hk
  · intro k hk
    split at hk
    · cases hk
    · rename_i hne
      obtain ⟨x, d, hx⟩ := h.previous hk
      refine ⟨x, d, update_eq_some_iff.2 (.inr ⟨?_, hx⟩)⟩
      -- the context remembered last is not the one that is released
      rintro rfl
      obtain ⟨rfl, -⟩ : id = k ∧ c = d := by simpa [hw] using hx
      exact hne hk

end Posted

/-- The shared counter of a global frame. -/
def Counts (g : Frame) (bumps : Nat) : Prop :=
  g.get? "counter" = if bumps = 0 then none else some (.int (Int64.ofNat bumps))

/-- The frames that workers hold are theirs alone, and the global frame has the counter. -/
structure Kept (held : Fin W → Option (FrameId × Frame)) (bumps : Nat) (frames : Frames) :
    Prop where
  global : ∃ g, frames.get? Machine.globalFrame = some g ∧ g.flags.isGlobal = true ∧ Counts g bumps
  mine : ∀ {w f x}, held w = some (f, x) → frames.get? f = some x ∧ f ≠ Machine.globalFrame
  apart : ∀ {w w' f x x'}, held w = some (f, x) → held w' = some (f, x') → w = w'

namespace Kept

variable {held : Fin W → Option (FrameId × Frame)} {bumps : Nat} {frames : Frames} {w : Fin W}

/-- A worker makes a frame. -/
theorem alloc (h : Kept held bumps frames) (x : Frame) :
    Kept (Function.update held w (some ((frames.alloc x).1, x))) bumps (frames.alloc x).2 := by
  have hnew {f : FrameId} {y : Frame} (hy : frames.get? f = some y) : f ≠ (frames.alloc x).1 := by
    rintro rfl
    simp [Frames.get?, Frames.alloc] at hy
  have hold {f : FrameId} {y : Frame} (hy : frames.get? f = some y) :
      (frames.alloc x).2.get? f = some y := by
    rw [Frames.get?_alloc, if_neg (hnew hy), hy]
  obtain ⟨g, hg, hrest⟩ := h.global
  refine ⟨⟨g, hold hg, hrest⟩, ?_, ?_⟩
  · intro v f y hv
    obtain ⟨rfl, hv⟩ | ⟨-, hv⟩ := update_eq_some_iff.1 hv
    · obtain ⟨rfl, rfl⟩ : (frames.alloc x).1 = f ∧ x = y := by simpa using hv
      exact ⟨by simp [Frames.get?_alloc], Ne.symm (hnew hg)⟩
    · exact ⟨hold (h.mine hv).1, (h.mine hv).2⟩
  · intro v v' f y y' hf hf'
    obtain ⟨rfl, hv⟩ | ⟨-, hv⟩ := update_eq_some_iff.1 hf <;>
      obtain ⟨rfl, hv'⟩ | ⟨-, hv'⟩ := update_eq_some_iff.1 hf'
    · rfl
    · -- nobody else has the new frame
      obtain ⟨rfl, -⟩ : (frames.alloc x).1 = f ∧ x = y := by simpa using hv
      exact absurd rfl (hnew (h.mine hv').1)
    · obtain ⟨rfl, -⟩ : (frames.alloc x).1 = f ∧ x = y' := by simpa using hv'
      exact absurd rfl (hnew (h.mine hv).1)
    · exact h.apart hv hv'

/-- A worker is done with its frame. -/
theorem drop (h : Kept held bumps frames) {f : FrameId} {x : Frame} (hw : held w = some (f, x))
    (change : Frame → Frame) :
    Kept (Function.update held w none) bumps (frames.modify f change) := by
  -- the frames of the others are not the one that changes
  have hkeep {v : Fin W} {f' : FrameId} {y : Frame} (hvw : v ≠ w) (hv : held v = some (f', y)) :
      f' ≠ f := by
    rintro rfl
    exact hvw (h.apart hv hw)
  obtain ⟨g, hg, hrest⟩ := h.global
  refine ⟨⟨g, ?_, hrest⟩, ?_, ?_⟩
  · rw [Frames.get?_modify, if_neg (Ne.symm (h.mine hw).2), hg]
  · intro v f' y hv
    obtain ⟨-, ⟨⟩⟩ | ⟨hvw, hv⟩ := update_eq_some_iff.1 hv
    refine ⟨?_, (h.mine hv).2⟩
    rw [Frames.get?_modify, if_neg (hkeep hvw hv), (h.mine hv).1]
  · intro v v' f' y y' hv hv'
    obtain ⟨-, ⟨⟩⟩ | ⟨-, hv⟩ := update_eq_some_iff.1 hv
    obtain ⟨-, ⟨⟩⟩ | ⟨-, hv'⟩ := update_eq_some_iff.1 hv'
    exact h.apart hv hv'

/-- A change of the global frame. -/
theorem modifyGlobal (h : Kept held bumps frames) {change : Frame → Frame} {bumps' : Nat}
    (hchange : ∀ g, frames.get? Machine.globalFrame = some g → g.flags.isGlobal = true →
      Counts g bumps → (change g).flags = g.flags ∧ Counts (change g) bumps') :
    Kept held bumps' (frames.modify Machine.globalFrame change) := by
  obtain ⟨g, hg, hglobal, hcount⟩ := h.global
  obtain ⟨hflags, hcount'⟩ := hchange g hg hglobal hcount
  refine ⟨⟨change g, ?_, ?_, hcount'⟩, ?_, h.apart⟩
  · rw [Frames.get?_modify, if_pos rfl, hg]
    rfl
  · rw [hflags, hglobal]
  · intro v f y hv
    refine ⟨?_, (h.mine hv).2⟩
    rw [Frames.get?_modify, if_neg (h.mine hv).2, (h.mine hv).1]

end Kept

/-- The names are defined as they should be. -/
def Stocked (run : Nat) (home : Fin W → Bool) (commands : Table String Command) : Prop :=
  ∀ r : Role W, commands.get? r.name = r.command run home

namespace Stocked

variable {run : Nat} {home : Fin W → Bool} {commands : Table String Command}

/-- A command is defined as it was. -/
theorem insert (h : Stocked run home commands) {r : Role W} {c : Command}
    (hc : r.command run home = some c) : Stocked run home (commands.insert r.name c) := by
  intro x
  rw [Table.get?_insert]
  by_cases hx : x = r
  · rw [hx, if_pos rfl, hc]
  · rw [if_neg fun e => hx (Role.name_injective e)]
    exact h x

/-- A command moves from a name to another. -/
theorem move (h : Stocked run home commands) {home' : Fin W → Bool} {r r' : Role W} {c : Command}
    (hmoved : ∀ x : Role W, x.command run home' =
      if x = r' then some c else if x = r then none else x.command run home) :
    Stocked run home' ((commands.erase r.name).insert r'.name c) := by
  intro x
  rw [Table.get?_insert, Table.get?_erase, hmoved]
  by_cases hx' : x = r'
  · simp [hx']
  · rw [if_neg fun e => hx' (Role.name_injective e), if_neg hx']
    by_cases hx : x = r
    · simp [hx]
    · rw [if_neg fun e => hx (Role.name_injective e), if_neg hx]
      exact h x

/-- A worker's square command moves away or back. -/
theorem shift (h : Stocked run home commands) (w : Fin W) (b : Bool) :
    Stocked run (Function.update home w b)
      ((commands.erase (Role.place w !b).name).insert (Role.place w b).name .square) := by
  refine h.move fun x => ?_
  cases x with
  | square x | spare x =>
    by_cases hx : x = w
    · cases b <;> simp [Role.command, Role.place, hx]
    · cases b <;> simp [Role.command, Role.place, hx]
  | set | incr | bump | unknown | probe => cases b <;> simp [Role.command, Role.place]

end Stocked

/-! ### Agreement -/

/-- What the workers have counted together. -/
def tallyOf (V : Fin W → Holding) : Tally :=
  ⟨.ofNat (total (Holding.calls ∘ V)), .ofNat (total (Holding.unknown ∘ V)),
    .ofNat (total (Holding.churned ∘ V))⟩

/-- The machine is as the workers hold it. -/
structure Agreed (roster : Roster W) (run : Nat) (V : Fin W → Holding) (m : Machine) : Prop where
  disposed : m.disposed = false
  depth : 1 ≤ m.maxDepth
  coherent : m.Coherent
  commands : Stocked run (Holding.home ∘ V) m.commands
  contexts : Posted roster (Holding.context ∘ V) m.contexts m.byThread m.previous
  frames : Kept (Holding.frame ∘ V) (total (Holding.bumps ∘ V)) m.frames
  tally : m.tallies[run]? = some (tallyOf V)

theorem comp_update_of_eq {β : Type} {f : Holding → β} {V : Fin W → Holding} {w : Fin W}
    {u : Holding} (h : f u = f (V w)) : f ∘ Function.update V w u = f ∘ V := by
  rw [Function.comp_update, h]
  exact Function.update_eq_self w (f ∘ V)

theorem tallyOf_update_of_eq {V : Fin W → Holding} {w : Fin W} {u : Holding}
    (hcalls : u.calls = (V w).calls) (hunknown : u.unknown = (V w).unknown)
    (hchurned : u.churned = (V w).churned) : tallyOf (Function.update V w u) = tallyOf V := by
  rw [tallyOf, comp_update_of_eq hcalls, comp_update_of_eq hunknown, comp_update_of_eq hchurned,
    tallyOf]

namespace Agreed

variable {roster : Roster W} {run : Nat} {V : Fin W → Holding} {m : Machine} {w : Fin W}
  {u : Holding}

/-- Threads are switched, and what nobody holds is changed. -/
theorem congr (h : Agreed roster run V m) (thread : ThreadId) (log : Array LogEntry) :
    Agreed roster run V { m with thread, log } :=
  ⟨h.disposed, h.depth, h.coherent.congr rfl rfl, h.commands, h.contexts, h.frames, h.tally⟩

/-- A worker changes the contexts. -/
theorem withContext (h : Agreed roster run V m) {x : Option (ContextId × ThreadContext)}
    (hu : u = { V w with context := x }) {contexts : Array ThreadContext}
    {byThread : Table ThreadId ContextId} {previous : Option ContextId}
    (hp : Posted roster (Function.update (Holding.context ∘ V) w x) contexts byThread previous)
    (policy : PolicyState) (log : Array LogEntry) :
    Agreed roster run (Function.update V w u)
      { m with contexts, byThread, previous, policy, log } := by
  have hhome : u.home = (V w).home := by rw [hu]
  have hframe : u.frame = (V w).frame := by rw [hu]
  have hbumps : u.bumps = (V w).bumps := by rw [hu]
  refine ⟨h.disposed, h.depth, h.coherent.congr rfl rfl, ?_, ?_, ?_, ?_⟩
  · rw [comp_update_of_eq hhome]
    exact h.commands
  · rw [Function.comp_update, hu]
    exact hp
  · rw [comp_update_of_eq hframe, comp_update_of_eq hbumps]
    exact h.frames
  · rw [tallyOf_update_of_eq (by rw [hu]) (by rw [hu]) (by rw [hu])]
    exact h.tally

/-- A worker changes frames. -/
theorem withFrames (h : Agreed roster run V m) (more : Nat) {x : Option (FrameId × Frame)}
    (hu : u = { V w with frame := x, bumps := (V w).bumps + more }) {frames : Frames}
    (hk : Kept (Function.update (Holding.frame ∘ V) w x) (total (Holding.bumps ∘ V) + more) frames) :
    Agreed roster run (Function.update V w u) { m with frames } := by
  have hhome : u.home = (V w).home := by rw [hu]
  have hcontext : u.context = (V w).context := by rw [hu]
  have htotal : total (Holding.bumps ∘ Function.update V w u) = total (Holding.bumps ∘ V) + more := by
    rw [Function.comp_update, hu]
    exact total_update (Holding.bumps ∘ V) w more
  refine ⟨h.disposed, h.depth, h.coherent.congr rfl rfl, ?_, ?_, ?_, ?_⟩
  · rw [comp_update_of_eq hhome]
    exact h.commands
  · rw [comp_update_of_eq hcontext]
    exact h.contexts
  · rw [htotal, Function.comp_update, hu]
    exact hk
  · rw [tallyOf_update_of_eq (by rw [hu]) (by rw [hu]) (by rw [hu])]
    exact h.tally

/-- A worker changes the commands. -/
theorem withCommands (h : Agreed roster run V m) (home : Bool) (hu : u = { V w with home })
    {commands : Table String Command} {cache : Cache Resolution} {log : Array LogEntry}
    (hc : Machine.Coherent { m with commands, cache, log })
    (hs : Stocked run (Function.update (Holding.home ∘ V) w home) commands) :
    Agreed roster run (Function.update V w u) { m with commands, cache, log } := by
  have hcontext : u.context = (V w).context := by rw [hu]
  have hframe : u.frame = (V w).frame := by rw [hu]
  have hbumps : u.bumps = (V w).bumps := by rw [hu]
  refine ⟨h.disposed, h.depth, hc, ?_, ?_, ?_, ?_⟩
  · rw [Function.comp_update, hu]
    exact hs
  · rw [comp_update_of_eq hcontext]
    exact h.contexts
  · rw [comp_update_of_eq hframe, comp_update_of_eq hbumps]
    exact h.frames
  · rw [tallyOf_update_of_eq (by rw [hu]) (by rw [hu]) (by rw [hu])]
    exact h.tally

/-- A worker counts. -/
theorem withTally (h : Agreed roster run V m) {calls unknown churned : Nat}
    (hu : u = { V w with
      calls := (V w).calls + calls, unknown := (V w).unknown + unknown
      churned := (V w).churned + churned }) {f : Tally → Tally}
    (hf : ∀ t, f t = ⟨t.calls + .ofNat calls, t.unknown + .ofNat unknown,
      t.churned + .ofNat churned⟩) :
    Agreed roster run (Function.update V w u) { m with tallies := m.tallies.modify run f } := by
  have hhome : u.home = (V w).home := by rw [hu]
  have hcontext : u.context = (V w).context := by rw [hu]
  have hframe : u.frame = (V w).frame := by rw [hu]
  have hbumps : u.bumps = (V w).bumps := by rw [hu]
  refine ⟨h.disposed, h.depth, h.coherent.congr rfl rfl, ?_, ?_, ?_, ?_⟩
  · rw [comp_update_of_eq hhome]
    exact h.commands
  · rw [comp_update_of_eq hcontext]
    exact h.contexts
  · rw [comp_update_of_eq hframe, comp_update_of_eq hbumps]
    exact h.frames
  · have htally : tallyOf (Function.update V w u) = f (tallyOf V) := by
      have hcalls := total_update (Holding.calls ∘ V) w calls
      have hunknown := total_update (Holding.unknown ∘ V) w unknown
      have hchurned := total_update (Holding.churned ∘ V) w churned
      rw [hf, tallyOf, Function.comp_update, Function.comp_update, Function.comp_update, hu]
      simp only [tallyOf, ← Int64.ofNat_add, ← hcalls, ← hunknown, ← hchurned]
      rfl
    rw [htally]
    show (m.tallies.modify run f)[run]? = _
    rw [Array.getElem?_modify, if_pos rfl, h.tally]
    rfl

end Agreed

/-! ### Steps -/

/-- The protocol of the workers. -/
def protocol (roster : Roster W) (run : Nat) : Protocol Machine (Fin W) Holding where
  focus := roster.focus
  Agrees := Agreed roster run

/-- Run by worker `w` holding `v`, the evaluation returns a value, and the worker then holds what `R`
says, whatever the other workers do in between. -/
abbrev Works {α : Type} (roster : Roster W) (run : Nat) (w : Fin W) (p : Eval α) (v : Holding)
    (R : α → Holding → Prop) : Prop :=
  (protocol roster run).Returns w p v R

section

variable {roster : Roster W} {run : Nat} {w : Fin W} {v : Holding} {α : Type}
  {id : ContextId} {c : ThreadContext}

/-- An atomic step returns if it does so wherever the worker may find itself; it does not leave the
worker's thread. -/
theorem works_of_run {p : Eval α} (hp : ∃ f, p = act f) {R : α → Holding → Prop}
    (h : ∀ V m, Agreed roster run V m → V w = v → m.thread = roster.thread w →
      ∃ a u t, p.run m = (.ok a, t) ∧ t.thread = m.thread ∧
        Agreed roster run (Function.update V w u) t ∧ R a u) :
    Works roster run w p v R := by
  obtain ⟨f, rfl⟩ := hp
  intro V m hm hv
  obtain ⟨a, u, t, hrun, hthread, ht, hR⟩ := h V (roster.focus w m) (hm.congr _ _) hv rfl
  have hf : f (roster.focus w m) = (.ok a, t) := hrun
  -- the step leaves the thread alone, so turning to it again changes nothing
  have hfocus : roster.focus w t = t := by
    rw [Roster.focus, show roster.thread w = t.thread from hthread.symm]
  refine ⟨u, ?_, ?_, a, ?_, hR⟩
  · show Agreed roster run _ (f (roster.focus w m)).2
    rw [hf]
    exact ht
  · show roster.focus w (f (roster.focus w m)).2 = (f (roster.focus w m)).2
    rw [hf]
    exact hfocus
  · show (f (roster.focus w m)).1 = _
    rw [hf]

/-- A step that only reads leaves the worker with what it holds. -/
theorem works_of_read {p : Eval α} (hp : ∃ f, p = act f) {R : α → Prop}
    (h : ∀ V m, Agreed roster run V m → V w = v → m.thread = roster.thread w →
      ∃ a, p.run m = (.ok a, m) ∧ R a) :
    Works roster run w p v fun a u => R a ∧ u = v := by
  refine works_of_run hp fun V m hm hv ht => ?_
  obtain ⟨a, hrun, ha⟩ := h V m hm hv ht
  refine ⟨a, v, m, hrun, rfl, ?_, ha, rfl⟩
  rw [← hv, Function.update_eq_self]
  exact hm

theorem works_log (level : LogLevel) (message : String) (fields : List (String × String)) :
    Works roster run w (log level message fields) v fun _ u => u = v := by
  refine works_of_run ⟨_, rfl⟩ fun V m hm hv _ => ⟨(), v, _, rfl, rfl, ?_, rfl⟩
  rw [← hv, Function.update_eq_self]
  exact hm.congr m.thread _

/-! ### Contexts -/

/-- The context of a worker that is in no call. -/
def idle (roster : Roster W) (w : Fin W) : ThreadContext :=
  { owned := true, thread := roster.thread w, stack := some {}
    global := some Machine.globalFrame, current := some Machine.globalFrame
    trace := some ("thread-" ++ Number.intText (roster.thread w)) }

namespace Agreed

variable {V : Fin W → Holding} {m : Machine}

/-- The machine has the context that a worker holds. -/
theorem context (h : Agreed roster run V m) (hc : (V w).context = some (id, c)) :
    m.context? id = some c ∧ m.context id = c ∧ c.thread = roster.thread w ∧ c.disposed = false := by
  obtain ⟨hget, hthread, hdisposed⟩ := h.contexts.mine hc
  exact ⟨hget, Machine.context_of_some hget, hthread, hdisposed⟩

/-- The table has the context of the worker that is running. -/
theorem listed (h : Agreed roster run V m) (ht : m.thread = roster.thread w) :
    m.byThread.get? m.thread = (V w).context.map Prod.fst := by
  rw [ht]
  exact h.contexts.listed w

theorem not_faults (h : Agreed roster run V m) (hc : (V w).context = some (id, c)) :
    ¬ m.Faults id := by
  obtain ⟨-, hcontext, -, hdisposed⟩ := h.context hc
  rintro ⟨hd, -⟩
  simp [hcontext, hdisposed] at hd

/-- The context handed out last can only be used by the worker that holds it. -/
theorem holds_of_canUse (h : Agreed roster run V m) (ht : m.thread = roster.thread w)
    {last : ContextId} (hp : m.previous = some last) (hu : m.canUse (some last) = true) :
    ∃ d, (V w).context = some (last, d) := by
  obtain ⟨x, d, hx⟩ := h.contexts.previous hp
  obtain ⟨-, hd, hdx, -⟩ := h.context hx
  obtain ⟨-, hdthread⟩ := Machine.canUse_some_iff.1 hu
  obtain rfl : x = w := roster.distinct (by rw [← hdx, ← hd, hdthread, ht])
  exact ⟨d, hx⟩

/-- A worker that holds a context finds it. -/
theorem acquire_held (h : Agreed roster run V m) (ht : m.thread = roster.thread w)
    (hc : (V w).context = some (id, c)) :
    ∃ t, m.acquire true = (.ok id, t) ∧ t.thread = m.thread ∧ Agreed roster run V t := by
  obtain ⟨-, hcontext, hthread, hdisposed⟩ := h.context hc
  have hlisted : m.byThread.get? m.thread = some id := by
    rw [h.listed ht, hc]
    rfl
  unfold Machine.acquire
  split
  · -- the context handed out last can be used, so it is the worker's
    rename_i hu
    obtain ⟨last, hlast⟩ : ∃ last, m.previous = some last := by
      rcases hp : m.previous with - | last
      · simp [hp, Machine.canUse, CommandHost.canUse] at hu
      · exact ⟨last, rfl⟩
    rw [hlast] at hu ⊢
    obtain ⟨d, hd⟩ := h.holds_of_canUse ht hlast hu
    obtain ⟨rfl, -⟩ : id = last ∧ c = d := by simpa using hc.symm.trans hd
    exact ⟨m, rfl, rfl, h⟩
  · have htable : m.tableContext? = some id := by
      rw [Machine.tableContext?_eq_some_iff, hcontext]
      exact ⟨hlisted, hdisposed, by rw [hthread]; exact roster.ne_zero w⟩
    rw [htable]
    refine ⟨{ m with previous := some id }, rfl, rfl, ?_⟩
    have hp : Posted roster (Holding.context ∘ V) m.contexts m.byThread (some id) := by
      refine ⟨h.contexts.mine, h.contexts.listed, h.contexts.others, ?_⟩
      intro k hk
      obtain rfl := Option.some.inj hk
      exact ⟨w, c, hc⟩
    exact ⟨h.disposed, h.depth, h.coherent.congr rfl rfl, h.commands, hp, h.frames, h.tally⟩

/-- A worker that holds no context gets one. -/
theorem acquire_new (h : Agreed roster run V m) (ht : m.thread = roster.thread w)
    (hc : (V w).context = none) :
    ∃ id t, m.acquire true = (.ok id, t) ∧ t.thread = m.thread ∧
      Agreed roster run (Function.update V w { V w with context := some (id, idle roster w) }) t := by
  have hlisted : m.byThread.get? m.thread = none := by
    rw [h.listed ht, hc]
    rfl
  have hfresh : m.freshContext = idle roster w := by
    simp [Machine.freshContext, idle, ht]
  -- the context remembered last belongs to another worker, if there is one
  have hunusable : m.canUse m.previous = false := by
    rcases hp : m.previous with - | last
    · rfl
    · by_contra hu
      obtain ⟨d, hd⟩ := h.holds_of_canUse ht hp (by simpa using hu)
      simp [hc] at hd
  have htable : m.tableContext? = none := by simp [Machine.tableContext?, hlisted]
  refine ⟨m.createContext.1, m.createContext.2, ?_, rfl, ?_⟩
  · simp [Machine.acquire, hunusable, htable]
  · have hp : Posted roster (Function.update (Holding.context ∘ V) w
        (some (⟨m.contexts.size⟩, idle roster w))) (m.contexts.push (idle roster w))
        (m.byThread.insert (roster.thread w) ⟨m.contexts.size⟩) (some ⟨m.contexts.size⟩) :=
      h.contexts.create hc rfl rfl
    rw [← hfresh, ← ht] at hp
    rw [← hfresh]
    exact h.withContext rfl hp _ _

end Agreed

/-- In no call, a worker acquires its context, which is made the first time. -/
theorem works_context (hv : v.context = none ∨ ∃ id, v.context = some (id, idle roster w)) :
    Works roster run w Eval.context v fun id u =>
      u = { v with context := some (id, idle roster w) } := by
  refine works_of_run ⟨_, rfl⟩ fun V m hm hw ht => ?_
  subst hw
  have hrun : Eval.context.run m = (ofChange (·.acquire true)).run m := by
    simp [Eval.context, ofChange, hm.disposed]
  rcases hv with hv | ⟨id, hv⟩
  · -- the first time a context is made, and later it is the one that the worker holds
    obtain ⟨id, t, hacquire, hthread, hagreed⟩ := hm.acquire_new ht hv
    refine ⟨id, _, t, hrun.trans ?_, hthread, hagreed, rfl⟩
    simp [ofChange, hacquire]
  · obtain ⟨t, hacquire, hthread, hagreed⟩ := hm.acquire_held ht hv
    refine ⟨id, V w, t, hrun.trans ?_, hthread, ?_, ?_⟩
    · simp [ofChange, hacquire]
    · rw [Function.update_eq_self]
      exact hagreed
    · rw [← hv]

theorem works_canUse (hv : v.context = some (id, c)) :
    Works roster run w (read (·.canUse (some id))) v fun b u => b = true ∧ u = v := by
  refine works_of_read ⟨_, rfl⟩ fun V m hm hw ht => ⟨_, rfl, ?_⟩
  subst hw
  obtain ⟨-, hcontext, hthread, hdisposed⟩ := hm.context hv
  exact Machine.canUse_some_iff.2 ⟨by rw [hcontext, hdisposed], by rw [hcontext, hthread, ht]⟩

/-- Reading off the worker's context. -/
theorem works_touch (hv : v.context = some (id, c)) (a : Accessor) (g : ThreadContext → α) :
    Works roster run w (readContext id fun c p => (c.touch p a).map fun _ => g c) v
      fun b u => b = g c ∧ u = v := by
  refine works_of_read ⟨_, rfl⟩ fun V m hm hw ht => ⟨g c, ?_, rfl⟩
  subst hw
  have hrun := run_touch id a g m
  rw [if_neg (hm.not_faults hv), (hm.context hv).2.1] at hrun
  exact hrun

theorem works_readFrame (hv : v.context = some (id, c)) (slot : Slot) :
    Works roster run w (readFrame id slot) v fun f u => f = c.frame slot ∧ u = v :=
  works_touch hv (.frame slot) (·.frame slot)

/-- A worker changes its context. -/
theorem works_setContext (hv : v.context = some (id, c)) {p : Eval Unit} (hp : ∃ f, p = act f)
    {c' : ThreadContext} (hrun : ∀ m : Machine, m.context id = c → ¬ m.Faults id →
      p.run m = (.ok (), m.setContext id c'))
    (ht : c'.thread = c.thread) (hd : c'.disposed = c.disposed) :
    Works roster run w p v fun _ u => u = { v with context := some (id, c') } := by
  refine works_of_run hp fun V m hm hw _ => ?_
  subst hw
  refine ⟨(), _, _, hrun m (hm.context hv).2.1 (hm.not_faults hv), rfl, ?_, rfl⟩
  exact hm.withContext rfl (hm.contexts.modify hv ht hd) m.policy m.log

theorem works_writeFrame (hv : v.context = some (id, c)) (slot : Slot) (f : Option FrameId) :
    Works roster run w (writeFrame id slot f) v fun _ u =>
      u = { v with context := some (id, c.setFrame slot f) } := by
  refine works_setContext hv ⟨_, rfl⟩ ?_ (by cases slot <;> rfl) (by cases slot <;> rfl)
  intro m hcontext hn
  have hrun := m.run_writeFrame id slot f
  rw [if_neg hn, hcontext] at hrun
  exact hrun

theorem works_modifyStack (hv : v.context = some (id, c)) (f : CallStack → CallStack) :
    Works roster run w (modifyStack id f) v fun _ u =>
      u = { v with context := some (id, { c with stack := c.stack.map f }) } := by
  refine works_setContext hv ⟨_, rfl⟩ ?_ rfl rfl
  intro m hcontext _
  rw [← hcontext]
  rfl

/-! ### Frames -/

theorem works_maxDepth :
    Works roster run w (read (·.maxDepth)) v fun d u => 1 ≤ d ∧ u = v :=
  works_of_read ⟨_, rfl⟩ fun _ _ hm _ _ => ⟨_, rfl, hm.depth⟩

theorem works_allocFrame (x : Frame) :
    Works roster run w (allocFrame x) v fun f u =>
      u = { v with frame := some (f, x) } := by
  refine works_of_run ⟨_, rfl⟩ fun V m hm hw _ => ⟨_, _, _, rfl, rfl, ?_, rfl⟩
  subst hw
  exact hm.withFrames 0 rfl (hm.frames.alloc x)

/-- A worker is done with the frame that it holds. -/
theorem works_dropFrame {f : FrameId} {x : Frame} (hv : v.frame = some (f, x))
    (change : Frame → Frame) :
    Works roster run w (modifyFrame f change) v fun _ u =>
      u = { v with frame := none } := by
  refine works_of_run ⟨_, rfl⟩ fun V m hm hw _ => ⟨_, _, _, rfl, rfl, ?_, rfl⟩
  subst hw
  exact hm.withFrames 0 rfl (hm.frames.drop hv change)

/-- A variable of the frame that a worker holds. -/
theorem works_variable {f : FrameId} {x : Frame} (hv : v.frame = some (f, x)) (name : String) :
    Works roster run w (read fun m => (m.frames.get? f).bind (·.get? name)) v
      fun y u => y = x.get? name ∧ u = v := by
  refine works_of_read ⟨_, rfl⟩ fun V m hm hw _ => ⟨_, rfl, ?_⟩
  subst hw
  show (m.frames.get? f).bind (·.get? name) = x.get? name
  rw [(hm.frames.mine hv).1]
  rfl

/-- A global variable that is not the counter. -/
theorem works_setGlobal {name : String} (hname : name ≠ "counter") (x : Value) :
    Works roster run w (modifyFrame Machine.globalFrame (·.set name x)) v
      fun _ u => u = v := by
  refine works_of_run ⟨_, rfl⟩ fun V m hm hw _ => ⟨_, v, _, rfl, rfl, ?_, rfl⟩
  subst hw
  refine hm.withFrames 0 (x := (V w).frame) rfl ?_
  rw [show (V w).frame = (Holding.frame ∘ V) w from rfl, Function.update_eq_self]
  refine hm.frames.modifyGlobal fun g _ _ hg => ⟨rfl, ?_⟩
  rw [Counts, Frame.get?, Frame.set, Table.get?_insert, if_neg (Ne.symm hname)]
  exact hg

/-- The frame that stands for the global one, for a worker in no scope. -/
theorem works_globalFrame {inv : Invocation} (hv : v.context = some (inv.context, c))
    (hc : c.currentGlobal = some Machine.globalFrame) :
    Works roster run w inv.globalFrame v fun f u => f = Machine.globalFrame ∧ u = v := by
  refine .bind (works_touch hv .currentGlobal (·.currentGlobal)) ?_
  rintro _ _ ⟨rfl, rfl⟩
  rw [hc]
  exact .done ⟨rfl, rfl⟩

theorem counts_add {g : Frame} {n : Nat} (inv : Invocation) (h : Counts g n) :
    ∃ x g', g.update "counter" (Builtin.add inv 1) = .ok (x, g') ∧ g'.flags = g.flags ∧
      Counts g' (n + 1) := by
  rw [Counts] at h
  -- a counter that is not there yet counts as zero
  have hadd : Builtin.add inv 1 (g.get? "counter") = .ok (.int (Int64.ofNat (n + 1))) := by
    rw [h]
    split
    · rename_i hn
      rw [hn]
      rfl
    · rw [Int64.ofNat_add]
      rfl
  refine ⟨.int (Int64.ofNat (n + 1)), g.set "counter" (.int (Int64.ofNat (n + 1))), ?_, rfl, ?_⟩
  · rw [Frame.update, hadd]
    rfl
  · simp [Counts, Frame.set, Frame.get?]

/-- A worker adds one to the shared counter. -/
theorem works_addCounter {inv : Invocation} (hv : v.context = some (inv.context, c))
    (hc : c.currentGlobal = some Machine.globalFrame) :
    Works roster run w (inv.updateVar "::counter" (Builtin.add inv 1)) v fun _ u =>
      u = { v with bumps := v.bumps + 1 } := by
  -- the name is one of the global frame, whatever frame is current
  have hhome : Works roster run w (inv.home "::counter") v fun b u =>
      b = (Machine.globalFrame, "counter") ∧ u = v := by
    have hname : globalName? "::counter" = some "counter" := by decide +kernel
    rw [Invocation.home, hname]
    refine .bind (works_globalFrame hv hc) ?_
    rintro _ _ ⟨rfl, rfl⟩
    exact .done ⟨rfl, rfl⟩
  refine .bind hhome ?_
  rintro _ _ ⟨rfl, rfl⟩
  refine works_of_run ⟨_, rfl⟩ fun V m hm hw _ => ?_
  subst hw
  obtain ⟨g, hg, -, hcounts⟩ := hm.frames.global
  obtain ⟨x, g', hupdate, hflags, hcounts'⟩ := counts_add inv hcounts
  refine ⟨x, _, { m with frames := m.frames.modify Machine.globalFrame fun _ => g' }, ?_, rfl, ?_, rfl⟩
  · simp [hg, hupdate]
  · refine hm.withFrames 1 (x := (V w).frame) rfl ?_
    rw [show (V w).frame = (Holding.frame ∘ V) w from rfl, Function.update_eq_self]
    refine hm.frames.modifyGlobal fun y hy _ _ => ?_
    obtain rfl : g = y := Option.some.inj (hg.symm.trans hy)
    exact ⟨hflags, hcounts'⟩

/-! ### Counting -/

theorem works_count {f : Tally → Tally} (calls unknown churned : Nat)
    (hf : ∀ t, f t = ⟨t.calls + .ofNat calls, t.unknown + .ofNat unknown,
      t.churned + .ofNat churned⟩) :
    Works roster run w (count run f) v fun _ u => u =
      { v with calls := v.calls + calls, unknown := v.unknown + unknown
               churned := v.churned + churned } := by
  refine works_of_run ⟨_, rfl⟩ fun V m hm hw _ => ⟨(), _, _, rfl, rfl, ?_, rfl⟩
  subst hw
  exact hm.withTally rfl hf

/-! ### Commands -/

theorem works_resolve {name : String} {r : Resolution}
    (h : ∀ V m, Agreed roster run V m → V w = v → m.lookup name = some r) :
    Works roster run w (Eval.resolve name) v fun x u => x = r ∧ u = v := by
  refine works_of_run ⟨_, rfl⟩ fun V m hm hw _ => ?_
  obtain ⟨cache, hrun, hcoherent⟩ := Resolver.cached.run name hm.coherent
  have hlookup : m.lookupOutcome name = .ok r := by rw [Machine.lookupOutcome, h V m hm hw]
  rw [hlookup] at hrun
  -- only the cache may change, and what is in it agrees with the table
  refine ⟨r, v, _, hrun, rfl, ?_, rfl, rfl⟩
  rw [← hw, Function.update_eq_self]
  exact ⟨hm.disposed, hm.depth, hcoherent, hm.commands, hm.contexts, hm.frames, hm.tally⟩

theorem run_define {m : Machine} (hm : m.Coherent) (hd : m.disposed = false) (name : String)
    (c : Command) : ∃ cache log, (Eval.define name (some c)).run m =
        (.ok (), { m with commands := m.commands.insert name c, cache, log }) ∧
      Machine.Coherent { m with commands := m.commands.insert name c, cache, log } := by
  have hcoherent := hm.define name c
  rw [Machine.define, if_neg (by simp [hd])] at hcoherent
  refine ⟨_, _, ?_, hcoherent⟩
  show (ofChange (·.define name c)).run m = _
  simp only [ofChange, run_act, Machine.define, if_neg (show ¬ m.disposed = true by simp [hd])]
  rfl

theorem run_rename {m : Machine} (hm : m.Coherent) {old new : String} {c : Command}
    (hnew : new ≠ "") (hold : m.commands.get? old = some c) (hfree : m.commands.get? new = none) :
    ∃ cache log, (Eval.rename old new).run m =
        (.ok (), { m with commands := (m.commands.erase old).insert new c, cache, log }) ∧
      Machine.Coherent { m with commands := (m.commands.erase old).insert new c, cache, log } := by
  have hcoherent := hm.rename old new
  have hnone : ¬ m.commands.contains new = true := by simp [Table.contains, hfree]
  simp only [Machine.rename, if_neg hnew, hold, if_neg hnone] at hcoherent
  refine ⟨_, _, ?_, hcoherent⟩
  show (ofChange (·.rename old new)).run m = _
  simp only [ofChange, run_act, Machine.rename, if_neg hnew, hold, if_neg hnone]
  rfl

/-- A worker defines a command as it was. -/
theorem works_define {r : Role W} {c : Command}
    (hc : ∀ home : Fin W → Bool, home w = v.home → r.command run home = some c) :
    Works roster run w (Eval.define r.name (some c)) v fun _ u => u = v := by
  refine works_of_run ⟨_, rfl⟩ fun V m hm hw _ => ?_
  subst hw
  obtain ⟨cache, log, hrun, hcoherent⟩ := run_define hm.coherent hm.disposed r.name c
  refine ⟨(), V w, _, hrun, rfl, ?_, rfl⟩
  refine hm.withCommands (V w).home rfl hcoherent ?_
  rw [show (V w).home = (Holding.home ∘ V) w from rfl, Function.update_eq_self]
  exact hm.commands.insert (hc _ rfl)

theorem Role.name_ne_empty (r : Role W) : r.name ≠ "" := by
  intro h
  have hletters := congrArg String.toList h
  rw [toList_name] at hletters
  cases r <;> simp [letters] at hletters

/-- A worker renames its square command away or back. -/
theorem works_shift (b : Bool) (hv : v.home = !b) :
    Works roster run w (Eval.rename (Role.place w !b).name (Role.place w b).name) v fun _ u =>
      u = { v with home := b } := by
  refine works_of_run ⟨_, rfl⟩ fun V m hm hw _ => ?_
  subst hw
  have hold : m.commands.get? (Role.place w !b).name = some .square := by
    rw [hm.commands]
    cases b <;> simp [Role.place, Role.command, hv]
  have hfree : m.commands.get? (Role.place w b).name = none := by
    rw [hm.commands]
    cases b <;> simp [Role.place, Role.command, hv]
  obtain ⟨cache, log, hrun, hcoherent⟩ :=
    run_rename hm.coherent (Role.name_ne_empty (.place w b)) hold hfree
  exact ⟨(), _, _, hrun, rfl, hm.withCommands b rfl hcoherent (hm.commands.shift w b), rfl⟩

/-! ### Releasing -/

/-- What an idle context holds on to: an empty stack, and the global frame twice. -/
theorem held_idle (roster : Roster W) (w : Fin W) : (idle roster w).held =
    [.stack {}, .frame Machine.globalFrame, .frame Machine.globalFrame] := rfl

/-- Releasing an idle context changes no frame that anybody holds. -/
theorem Kept.freeIdle {held : Fin W → Option (FrameId × Frame)} {bumps : Nat} {frames : Frames}
    (h : Kept held bumps frames) : Kept held bumps
      ((idle roster w).held.foldl (Machine.releaseHeld false) frames) := by
  have hfree {frames : Frames} (h : Kept held bumps frames) :
      Kept held bumps (frames.modify Machine.globalFrame (·.free false)) := by
    refine h.modifyGlobal fun g _ hglobal hcounts => ?_
    have hg : g.free false = g := by simp [Frame.free, hglobal]
    rw [hg]
    exact ⟨rfl, hcounts⟩
  rw [held_idle]
  exact hfree (hfree h)

/-- A worker gives its context up. -/
theorem Agreed.release_idle {V : Fin W → Holding} {m : Machine} (h : Agreed roster run V m)
    (ht : m.thread = roster.thread w) (hc : (V w).context = some (id, idle roster w)) :
    m.release.2.thread = m.thread ∧
      Agreed roster run (Function.update V w { V w with context := none }) m.release.2 := by
  have hlisted : m.byThread.get? m.thread = some id := by
    rw [h.listed ht, hc]
    rfl
  obtain ⟨log, e⟩ := Machine.release_of_some hlisted
  rw [e]
  refine ⟨rfl, ?_⟩
  obtain ⟨hget, hidle, -, -⟩ := h.context hc
  let freed := (m.unlist id).freeContext id false
  have hcontext : freed.context id = { disposed := false } := by
    refine Machine.context_of_some ?_
    rw [Machine.context?_freeContext, if_pos rfl]
    exact congrArg (Option.map (·.free.2)) hget
  -- freeing lets go of what an idle context holds, and then there is nothing left
  have hfreed : freed.frames = (idle roster w).held.foldl (Machine.releaseHeld false) m.frames := by
    show (m.context id).free.1.foldl (Machine.releaseHeld false) m.frames = _
    rw [hidle]
    rfl
  have hframes : (freed.disposeContext id).frames = freed.frames := by
    show (freed.context id).dispose.1.foldl (Machine.releaseHeld true) freed.frames = _
    rw [hcontext]
    rfl
  have hcontexts (k : ContextId) (hk : k ≠ id) :
      (freed.disposeContext id).contexts[k.index]? = m.contexts[k.index]? := by
    show (freed.disposeContext id).context? k = m.context? k
    rw [Machine.context?_disposeContext, if_neg hk, Machine.context?_freeContext, if_neg hk]
    rfl
  have hp := h.contexts.release hc hcontexts
  rw [← ht] at hp
  -- nobody else holds this context, and the global frame outlives it
  have hafter := h.withContext rfl hp m.policy log
  refine ⟨hafter.disposed, hafter.depth, hafter.coherent.congr rfl rfl, hafter.commands,
    hafter.contexts, ?_, hafter.tally⟩
  show Kept _ _ (freed.disposeContext id).frames
  rw [hframes, hfreed]
  exact hafter.frames.freeIdle

theorem works_release (hv : v.context = none ∨ ∃ id, v.context = some (id, idle roster w)) :
    Works roster run w (change (·.release)) v fun _ u => u = { v with context := none } := by
  refine works_of_run ⟨_, rfl⟩ fun V m hm hw ht => ?_
  subst hw
  rcases hv with hv | ⟨id, hv⟩
  · -- there is nothing to release
    have hlisted : m.byThread.get? m.thread = none := by
      rw [hm.listed ht, hv]
      rfl
    have hrelease : m.release.2 = m := Machine.release_of_none hlisted
    refine ⟨_, V w, _, rfl, congrArg Machine.thread hrelease, ?_, by rw [← hv]⟩
    rw [hrelease, Function.update_eq_self]
    exact hm
  · obtain ⟨hthread, hagreed⟩ := hm.release_idle ht hv
    exact ⟨_, _, _, rfl, hthread, hagreed, rfl⟩

end

end LoadGenerator

end CommandHost
