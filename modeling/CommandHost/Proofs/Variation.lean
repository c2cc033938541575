/-
CommandHost/Proofs/Variation.lean

Machines that are the same but for the cache.

Bodies may differ in statements that clear the cache (`SameBody`), and then so may
commands and the notes that such statements leave.  All relations here take the
proposition `clears`, which says whether clearing may differ at all; without it they
are equality (`SameBody.eq` and its like).  Two machines are the same
(`Machine.Same`) if nothing but their caches tells them apart, up to clearing.

An atomic step is steady if it gives the same result on the same machines and leaves
them the same (`Steady`).  Most steps neither see nor touch commands, cache and notes
(`Apart`); the steps on the command table are steady because they see its names, and
the commands only to hand them on.  The steps that do show the cache are listed by
`Inspects`.
-/
import CommandHost.Evaluation
import Mathlib.Data.List.Forall2

namespace CommandHost

open Program Eval

/-! ### Bodies -/

/-- Statements without a body in them. -/
def Stmt.isSimple : Stmt → Bool
  | .catchError _ | .wrap _ _ | .branch _ _ _ | .uplevel _ _ | .inScope _ _ | .host _ => false
  | _ => true

/-- Calls without a body in them. -/
def HostCall.isSimple : HostCall → Bool
  | .defineFunction _ _ | .defineProcedure _ _ (some _) | .setUnknown (some _) => false
  | _ => true

mutual

/-- Statements that are the same up to clearing the cache in their bodies. -/
inductive SameStmt (clears : Prop) : Stmt → Stmt → Prop
  | simple {s : Stmt} (h : s.isSimple = true) : SameStmt clears s s
  | catchError {b b' : List Stmt} (h : SameBody clears b b') :
      SameStmt clears (.catchError b) (.catchError b')
  | wrap (label : String) {b b' : List Stmt} (h : SameBody clears b b') :
      SameStmt clears (.wrap label b) (.wrap label b')
  | branch (condition : Expr) {yes yes' no no' : List Stmt} (hyes : SameBody clears yes yes')
      (hno : SameBody clears no no') :
      SameStmt clears (.branch condition yes no) (.branch condition yes' no')
  | uplevel (level : Int) {b b' : List Stmt} (h : SameBody clears b b') :
      SameStmt clears (.uplevel level b) (.uplevel level b')
  | inScope (scope : String) {b b' : List Stmt} (h : SameBody clears b b') :
      SameStmt clears (.inScope scope b) (.inScope scope b')
  | host {c c' : HostCall} (h : SameCall clears c c') : SameStmt clears (.host c) (.host c')

/-- Bodies that are the same up to clearing the cache. -/
inductive SameBody (clears : Prop) : List Stmt → List Stmt → Prop
  | nil : SameBody clears [] []
  | cons {s s' : Stmt} {b b' : List Stmt} (hs : SameStmt clears s s') (hb : SameBody clears b b') :
      SameBody clears (s :: b) (s' :: b')
  | left {b b' : List Stmt} (hc : clears) (hb : SameBody clears b b') :
      SameBody clears (.host .clearCache :: b) b'
  | right {b b' : List Stmt} (hc : clears) (hb : SameBody clears b b') :
      SameBody clears b (.host .clearCache :: b')

/-- Calls that are the same up to clearing the cache in their bodies. -/
inductive SameCall (clears : Prop) : HostCall → HostCall → Prop
  | simple {c : HostCall} (h : c.isSimple = true) : SameCall clears c c
  | defineFunction (name : String) {b b' : List Stmt} (h : SameBody clears b b') :
      SameCall clears (.defineFunction name b) (.defineFunction name b')
  | defineProcedure (name : String) (params : List String) {b b' : List Stmt}
      (h : SameBody clears b b') :
      SameCall clears (.defineProcedure name params (some b))
        (.defineProcedure name params (some b'))
  | setUnknown {b b' : List Stmt} (h : SameBody clears b b') :
      SameCall clears (.setUnknown (some b)) (.setUnknown (some b'))

end

section

variable {clears : Prop}

mutual

/-- Every statement is the same as itself.  One walk through statements, bodies and calls at once,
since each of them can have the others in it. -/
theorem SameStmt.refl : (s : Stmt) → SameStmt clears s s
  | .catchError b => .catchError (SameBody.refl b)
  | .wrap label b => .wrap label (SameBody.refl b)
  | .branch condition yes no => .branch condition (SameBody.refl yes) (SameBody.refl no)
  | .uplevel level b => .uplevel level (SameBody.refl b)
  | .inScope scope b => .inScope scope (SameBody.refl b)
  | .host c => .host (SameCall.refl c)
  | .value _ | .invoke _ _ | .get _ | .set _ _ | .unset _ | .level | .ret _ | .fail _ | .note _
  | .noteFrame => .simple rfl

theorem SameBody.refl : (b : List Stmt) → SameBody clears b b
  | [] => .nil
  | s :: b => .cons (SameStmt.refl s) (SameBody.refl b)

theorem SameCall.refl : (c : HostCall) → SameCall clears c c
  | .defineFunction name b => .defineFunction name (SameBody.refl b)
  | .defineProcedure name params (some b) => .defineProcedure name params (SameBody.refl b)
  | .setUnknown (some b) => .setUnknown (SameBody.refl b)
  | .invoke _ _ | .invokeIn _ _ _ | .defineProcedure _ _ none | .defineNothing _ | .setUnknown none
  | .delete _ | .rename _ _ | .commands | .cacheCount | .cacheReport _ | .haveCacheCounts
  | .clearCache | .statistics | .switchThread _ | .context _ | .lookupContext _ | .release
  | .contextCount | .dispose | .isDisposed | .outputCaptured | .freeContext _ _
  | .disposeContext _ | .contextStage _ | .slots _ | .globals | .makeScope _ _
  | .scopeVariables _ | .load _ => .simple rfl

end

mutual

/-- Where clearing may not differ, the same statements are equal, and so are bodies and calls. -/
theorem SameStmt.eq (hc : ¬ clears) {s s' : Stmt} : SameStmt clears s s' → s = s'
  | .simple _ => rfl
  | .catchError h => congrArg _ (SameBody.eq hc h)
  | .wrap label h => congrArg _ (SameBody.eq hc h)
  | .branch condition hyes hno => congrArg₂ _ (SameBody.eq hc hyes) (SameBody.eq hc hno)
  | .uplevel level h => congrArg _ (SameBody.eq hc h)
  | .inScope scope h => congrArg _ (SameBody.eq hc h)
  | .host h => congrArg _ (SameCall.eq hc h)

theorem SameBody.eq (hc : ¬ clears) {b b' : List Stmt} : SameBody clears b b' → b = b'
  | .nil => rfl
  | .cons hs hb => congrArg₂ _ (SameStmt.eq hc hs) (SameBody.eq hc hb)
  | .left h _ | .right h _ => absurd h hc

theorem SameCall.eq (hc : ¬ clears) {c c' : HostCall} : SameCall clears c c' → c = c'
  | .simple _ => rfl
  | .defineFunction name h => congrArg _ (SameBody.eq hc h)
  | .defineProcedure name params h => by rw [SameBody.eq hc h]
  | .setUnknown h => by rw [SameBody.eq hc h]

end

/-! ### Commands and notes -/

/-- Commands that are the same up to clearing the cache in their bodies. -/
inductive SameCommand (clears : Prop) : Command → Command → Prop
  | builtin (b : Builtin) : SameCommand clears (.builtin b) (.builtin b)
  | function {b b' : List Stmt} (h : SameBody clears b b') :
      SameCommand clears (.function b) (.function b')
  | procedure (name : String) (params : List String) {b b' : List Stmt}
      (h : SameBody clears b b') :
      SameCommand clears (.procedure name params b) (.procedure name params b')
  | square : SameCommand clears .square .square
  | tally (run : Nat) : SameCommand clears (.tally run) (.tally run)

theorem SameCommand.refl : (c : Command) → SameCommand clears c c
  | .builtin b => .builtin b
  | .function b => .function (.refl b)
  | .procedure name params b => .procedure name params (.refl b)
  | .square => .square
  | .tally run => .tally run

/-- Where clearing may not differ, the same commands are equal. -/
theorem SameCommand.eq (hc : ¬ clears) {c c' : Command} : SameCommand clears c c' → c = c'
  | .builtin _ | .square | .tally _ => rfl
  | .function h => congrArg _ (h.eq hc)
  | .procedure name params h => congrArg _ (h.eq hc)

/-- Resolutions to commands that are the same up to clearing the cache. -/
inductive SameResolution (clears : Prop) : Resolution → Resolution → Prop
  | direct {c c' : Command} (h : SameCommand clears c c') :
      SameResolution clears (.direct c) (.direct c')
  | unknown {c c' : Command} (h : SameCommand clears c c') (name : String) :
      SameResolution clears (.unknown c name) (.unknown c' name)

theorem SameResolution.refl : (r : Resolution) → SameResolution clears r r
  | .direct c => .direct (.refl c)
  | .unknown c name => .unknown (.refl c) name

/-- Notes that are the same up to those of clearing the cache. -/
inductive SameNotes (clears : Prop) : Array Note → Array Note → Prop
  | empty : SameNotes clears #[] #[]
  | push {a b : Array Note} (n : Note) (h : SameNotes clears a b) :
      SameNotes clears (a.push n) (b.push n)
  | left {a b : Array Note} (hc : clears) (h : SameNotes clears a b) :
      SameNotes clears (a.push (.reply (.ok .done))) b
  | right {a b : Array Note} (hc : clears) (h : SameNotes clears a b) :
      SameNotes clears a (b.push (.reply (.ok .done)))

/-- Where clearing may not differ, the same notes are equal. -/
theorem SameNotes.eq (hc : ¬ clears) {a b : Array Note} (h : SameNotes clears a b) : a = b := by
  induction h with
  | empty => rfl
  | push n _ ih => rw [ih]
  | left h | right h => exact absurd h hc

end

/-! ### Tables -/

/-- Tables with the same keys, in the same order, and related entries. -/
def Table.Same {κ α : Type} (R : α → α → Prop) (t t' : Table κ α) : Prop :=
  List.Forall₂ (fun e e' => e.1 = e'.1 ∧ R e.2 e'.2) t.entries t'.entries

namespace Table.Same

variable {κ α : Type} {R : α → α → Prop} {t t' : Table κ α}

theorem refl (hR : ∀ a, R a a) (t : Table κ α) : t.Same R t :=
  List.forall₂_same.2 fun e _ => ⟨rfl, hR e.2⟩

/-- Tables that are the same up to equality are equal. -/
theorem eq (hR : ∀ a b, R a b → a = b) (h : t.Same R t') : t = t' := by
  obtain ⟨es, _⟩ := t
  obtain ⟨es', _⟩ := t'
  have he : es = es' := by
    -- the proof that keys are distinct is not compared
    refine List.forall₂_eq_eq_eq ▸ h.imp fun e e' he => ?_
    exact Prod.ext he.1 (hR _ _ he.2)
  subst he
  rfl

/-- Only the entries may differ, so a listing of the names shows nothing. -/
theorem keys_eq (h : t.Same R t') : t.keys = t'.keys := by
  unfold Same at h
  unfold Table.keys
  generalize t.entries = es, t'.entries = es' at h
  induction h with
  | nil => rfl
  | cons he _ ih => rw [List.map_cons, List.map_cons, he.1, ih]

variable [DecidableEq κ]

/-- Looking up a key finds related entries in both tables, or none in either. -/
theorem get? (h : t.Same R t') (key : κ) : Option.Rel R (t.get? key) (t'.get? key) := by
  unfold Same at h
  unfold Table.get?
  generalize t.entries = es, t'.entries = es' at h
  induction h with
  | nil => exact .none
  | @cons e e' es es' he _ ih =>
    obtain ⟨k, a⟩ := e
    obtain ⟨k', a'⟩ := e'
    obtain rfl : k = k' := he.1
    -- the keys of the two first entries are one, so both are found or neither
    unfold Table.find?
    split
    · exact .some he.2
    · exact ih

theorem contains_eq (h : t.Same R t') (key : κ) : t.contains key = t'.contains key := by
  have hr := h.get? key
  unfold Table.contains
  generalize t.get? key = a, t'.get? key = b at hr
  cases hr <;> rfl

/-- An entry is erased from both tables at the same place. -/
theorem erase (h : t.Same R t') (key : κ) : (t.erase key).Same R (t'.erase key) := by
  unfold Same at h ⊢
  unfold Table.erase
  dsimp only
  generalize t.entries = es, t'.entries = es' at h
  induction h with
  | nil => exact .nil
  | @cons e e' es es' he _ ih =>
    rw [List.filter_cons, List.filter_cons, ← he.1]
    split
    · exact .cons he ih
    · exact ih

theorem insert (h : t.Same R t') (key : κ) {a a' : α} (ha : R a a') :
    (t.insert key a).Same R (t'.insert key a') :=
  .cons ⟨rfl, ha⟩ (h.erase key)

end Table.Same

/-! ### Machines -/

namespace Machine

/-- Machines that only their caches tell apart, up to clearing the cache in bodies. -/
structure Same (clears : Prop) (m t : Machine) : Prop where
  commands : m.commands.Same (SameCommand clears) t.commands
  notes : SameNotes clears m.notes t.notes
  rest : t = { m with commands := t.commands, cache := t.cache, notes := t.notes }

/-- Without clearing, the cache is all that may differ. -/
theorem Same.eq {clears : Prop} (hc : ¬ clears) {m t : Machine} (h : m.Same clears t) :
    t = { m with cache := t.cache } := by
  rw [h.rest, h.commands.eq fun _ _ => SameCommand.eq hc, h.notes.eq hc]

/-- The machine with commands, cache and notes exchanged. -/
def exchange (m : Machine) (commands : Table String Command) (cache : Cache Resolution)
    (notes : Array Note) : Machine :=
  { m with commands, cache, notes }

section

variable {clears : Prop} {m t : Machine} {commands : Table String Command}
  {cache : Cache Resolution} {notes : Array Note}

/-- A machine that is the same is what an exchange of commands, cache and notes makes of this one.
-/
theorem Same.exists_exchange (h : m.Same clears t) :
    ∃ commands cache notes, t = m.exchange commands cache notes ∧
      m.commands.Same (SameCommand clears) commands ∧ SameNotes clears m.notes notes :=
  ⟨t.commands, t.cache, t.notes, h.rest, h.commands, h.notes⟩

theorem same_exchange (hc : m.commands.Same (SameCommand clears) commands)
    (hn : SameNotes clears m.notes notes) : m.Same clears (m.exchange commands cache notes) :=
  ⟨hc, hn, rfl⟩

end

/-! ### Steps that stay apart -/

/-- A step that neither sees nor touches commands, cache and notes. -/
def Apart {β : Type} (f : Machine → β × Machine) : Prop :=
  ∀ (m : Machine) commands cache notes, f (m.exchange commands cache notes) =
    ((f m).1, (f m).2.exchange commands cache notes)

/-- Two steps that give the same result on the same machines, and leave them the same. -/
def Steady {β : Type} (clears : Prop) (f g : Machine → β × Machine) : Prop :=
  ∀ m t, m.Same clears t → (g t).1 = (f m).1 ∧ (f m).2.Same clears (g t).2

/-- A step that stays apart is steady: what it is told nothing of cannot change what it does. -/
theorem Apart.steady {β : Type} {f : Machine → β × Machine} (h : Apart f) (clears : Prop) :
    Steady clears f f := by
  intro m t hs
  obtain ⟨commands, cache, notes, rfl, hc, hn⟩ := hs.exists_exchange
  -- exchanging what a machine has for itself shows that the step leaves it in place
  have hf : (f m).2 = (f m).2.exchange m.commands m.cache m.notes :=
    congrArg Prod.snd (h m m.commands m.cache m.notes)
  rw [h]
  refine ⟨rfl, same_exchange ?_ ?_⟩
  · rw [hf]
    exact hc
  · rw [hf]
    exact hn

theorem apart_readContext {α : Type} (id : ContextId)
    (f : ThreadContext → Policy → Except Accessor α) : Apart (readContext id f).run := by
  intro m commands cache notes
  have hcontext : (m.exchange commands cache notes).context id = m.context id := rfl
  have hpolicy : (m.exchange commands cache notes).policyFor id = m.policyFor id := rfl
  simp only [readContext, run_act, hcontext, hpolicy]
  split <;> rfl

/-- Getting a context looks at threads and contexts only. -/
theorem apart_acquire (create : Bool) : Apart (·.acquire create) := by
  intro m commands cache notes
  have huse (id : Option ContextId) :
      (m.exchange commands cache notes).canUse id = m.canUse id := rfl
  have htable : (m.exchange commands cache notes).tableContext? = m.tableContext? := rfl
  have hprevious : (m.exchange commands cache notes).previous = m.previous := rfl
  simp only [acquire, huse, htable, hprevious]
  split
  · split <;> rfl
  · split
    · rfl
    · split <;> rfl

/-- So does giving it up. -/
theorem apart_release : Apart release := by
  intro m commands cache notes
  have hthread : (m.exchange commands cache notes).byThread.get?
      (m.exchange commands cache notes).thread = m.byThread.get? m.thread := rfl
  simp only [release, hthread]
  split <;> rfl

/-- Dropping all contexts does not see what is exchanged. -/
theorem exchange_purge (m : Machine) (commands : Table String Command) (cache : Cache Resolution)
    (notes : Array Note) :
    (m.exchange commands cache notes).purge = m.purge.exchange commands cache notes := by
  have hfold (ids : List ContextId) (m : Machine) :
      ids.foldl (fun m id => (m.freeContext id true).disposeContext id)
        (m.exchange commands cache notes) =
      (ids.foldl (fun m id => (m.freeContext id true).disposeContext id) m).exchange
        commands cache notes := by
    induction ids generalizing m with
    | nil => rfl
    -- freeing and disposing one context commute with the exchange by definition
    | cons id ids ih => exact ih ((m.freeContext id true).disposeContext id)
  exact hfold _ { m with byThread := ∅, previous := none }

theorem notes_purge (m : Machine) : m.purge.notes = m.notes := by
  have h := exchange_purge m m.commands m.cache m.notes
  exact congrArg (·.notes) h

/-! ### Steps on the command table -/

section

variable {clears : Prop}

/-- Whether a name is taken is seen in both tables alike, and then the same commands are entered. -/
theorem steady_define (name : String) {c c' : Command} (h : SameCommand clears c c') :
    Steady clears (·.define name c) (·.define name c') := by
  intro m t hs
  obtain ⟨commands, cache, notes, rfl, hc, hn⟩ := hs.exists_exchange
  have hd : (m.exchange commands cache notes).disposed = m.disposed := rfl
  have hk : (m.exchange commands cache notes).commands.contains name = m.commands.contains name :=
    (hc.contains_eq name).symm
  simp only [define, hd, hk]
  split
  · exact ⟨rfl, hs⟩
  · exact ⟨rfl, hc.insert name h, hn, rfl⟩

/-- A name is deleted from both tables or from neither. -/
theorem steady_delete (name : String) : Steady clears (·.delete name) (·.delete name) := by
  intro m t hs
  obtain ⟨commands, cache, notes, rfl, hc, hn⟩ := hs.exists_exchange
  have hk : (m.exchange commands cache notes).commands.contains name = m.commands.contains name :=
    (hc.contains_eq name).symm
  simp only [delete, hk]
  split
  · exact ⟨rfl, hc.erase name, hn, rfl⟩
  · exact ⟨rfl, hs⟩

/-- The command that gets the new name is the same in both tables, up to clearing. -/
theorem steady_rename (old new : String) :
    Steady clears (·.rename old new) (·.rename old new) := by
  intro m t hs
  by_cases hnew : new = ""
  · -- renaming to nothing deletes
    simp only [rename, if_pos hnew]
    exact steady_delete old m t hs
  obtain ⟨commands, cache, notes, rfl, hc, hn⟩ := hs.exists_exchange
  have hk : (m.exchange commands cache notes).commands.contains new = m.commands.contains new :=
    (hc.contains_eq new).symm
  have hold := hc.get? old
  have hget : (m.exchange commands cache notes).commands.get? old = commands.get? old := rfl
  simp only [rename, if_neg hnew, hk, hget]
  generalize m.commands.get? old = c, commands.get? old = c' at hold
  cases hold with
  | none => exact ⟨rfl, hs⟩
  | some h =>
    dsimp only
    split
    · exact ⟨rfl, hs⟩
    · exact ⟨rfl, (hc.erase old).insert new h, hn, rfl⟩

/-- Disposing leaves two empty tables. -/
theorem steady_dispose : Steady clears (fun m => ((), m.dispose)) (fun m => ((), m.dispose)) := by
  intro m t hs
  obtain ⟨commands, cache, notes, rfl, hc, hn⟩ := hs.exists_exchange
  have hd : (m.exchange commands cache notes).disposed = m.disposed := rfl
  refine ⟨rfl, ?_⟩
  simp only [dispose, hd]
  split
  · exact hs
  · have hpurge : ({ (m.exchange commands cache notes) with disposed := true } : Machine).purge =
        ({ m with disposed := true } : Machine).purge.exchange commands cache notes :=
      exchange_purge { m with disposed := true } commands cache notes
    rw [hpurge]
    -- both tables are dropped, so no commands are left to compare
    refine ⟨.nil, ?_, rfl⟩
    change SameNotes clears { m with disposed := true }.purge.notes notes
    rw [notes_purge]
    exact hn

/-- Looking a name up in tables that are the same gives the same command. -/
theorem Same.lookup {m t : Machine} (h : m.Same clears t) (name : String) :
    Option.Rel (SameResolution clears) (m.lookup name) (t.lookup name) := by
  have hname := h.commands.get? name
  have hunknown := h.commands.get? unknownName
  unfold Machine.lookup
  generalize m.commands.get? name = c, t.commands.get? name = c' at hname
  generalize m.commands.get? unknownName = u, t.commands.get? unknownName = u' at hunknown
  cases hname with
  | some hc => exact .some (.direct hc)
  | none =>
    cases hunknown with
    | some hu => exact .some (.unknown hu name)
    | none => exact .none

end

end Machine

/-! ### Steps that show the cache -/

/-- The steps that show the cache: whether it knows a name, how many it knows, its report, whether
it counted anything, and its counters. -/
inductive Inspects : {α : Type} → (Machine → Except Stop α × Machine) → Prop
  | cached (name : String) : Inspects fun m => (.ok (m.isCached name).1, (m.isCached name).2)
  | count : Inspects fun m => (.ok m.cache.count, m)
  | report (zeros : Bool) : Inspects fun m => (.ok (m.cache.report zeros), m)
  | haveCounts : Inspects fun m => (.ok m.cache.haveCounts, m)
  | counters : Inspects fun m => (.ok (m.cache.stats.bind (·.counts)), m)

end CommandHost
