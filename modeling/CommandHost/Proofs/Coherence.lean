/-
CommandHost/Proofs/Coherence.lean

The cache is coherent.

A cached entry is what the command table alone resolves its name to, in every
machine a session passes: between calls, and at every moment inside of them,
whatever the bodies that run there define, rename or delete.  So resolving a name
through the cache gives what a look at the table gives.

The entries of a cache are seen through `Table.get?`; the lemmas of the first
section say what each operation of the cache does to this view.  A change of the
table that leaves the handler of unknown names alone changes the resolution of the
names it touches only (`lookup_insert`, `lookup_erase`), and these are the names
whose entries the cache replaces; any other change drops the whole cache.
-/
import CommandHost.Proofs.Session

namespace CommandHost

/-! ### Entries of a cache -/

namespace Cache

variable {α : Type}

@[simp] theorem entries_record (c : Cache α) (e : Counter) : (c.record e).entries = c.entries := rfl

@[simp] theorem entries_clear (c : Cache α) : c.clear.entries = ∅ := rfl

@[simp] theorem entries_lookup (c : Cache α) (name : String) (usable : Bool) :
    (c.lookup name usable).2.entries = c.entries := by
  unfold lookup
  split
  · split <;> rfl
  · rfl

/-- A lookup that takes any entry gives what is stored. -/
theorem lookup_fst (c : Cache α) (name : String) :
    (c.lookup name false).1 = c.entries.get? name := by
  unfold lookup
  split <;> simp_all

/-- Of the other entries none is left if the store drops everything, and all are if not. -/
theorem get?_store (c : Cache α) (name k : String) (entry : Option α) (invalidate : Bool) :
    (c.store name entry invalidate).entries.get? k =
      if k = name then some entry else if invalidate then none else c.entries.get? k := by
  cases invalidate <;> simp [store]

/-- The old name has no entry after a rename, unless it is also the new one. -/
theorem get?_rename (c : Cache α) (old new k : String) (entry : Option α) (invalidate : Bool) :
    (c.rename old new entry invalidate).entries.get? k =
      if k = new then some entry
      else if invalidate ∨ k = old then none else c.entries.get? k := by
  cases invalidate with
  | true => simp [rename]
  | false =>
    by_cases hold : c.entries.contains old
    · simp [rename, hold]
    · -- nothing is removed, as there was nothing
      have hnone : c.entries.get? old = none := by simpa [Table.contains] using hold
      by_cases hk : k = old
      · simp [rename, hold, hk, hnone]
      · simp [rename, hold, hk]

/-- A removed name has no entry, whether it had one or not. -/
theorem get?_remove (c : Cache α) (name k : String) (invalidate : Bool) :
    (c.remove name invalidate).2.entries.get? k =
      if invalidate ∨ k = name then none else c.entries.get? k := by
  cases invalidate with
  | true => simp [remove]
  | false =>
    by_cases hname : c.entries.contains name
    · simp [remove, hname]
    · have hnone : c.entries.get? name = none := by simpa [Table.contains] using hname
      by_cases hk : k = name
      · simp [remove, hname, hk, hnone]
      · simp [remove, hname, hk]

end Cache

namespace Machine

/-! ### Resolution by the table -/

/-- What a table of commands resolves a name to. -/
def lookupIn (commands : Table String Command) (name : String) : Option Resolution :=
  match commands.get? name with
  | some c => some (.direct c)
  | none => (commands.get? unknownName).map (.unknown · name)

/-- Of a machine only the command table matters. -/
theorem lookup_eq (m : Machine) (name : String) : m.lookup name = lookupIn m.commands name := rfl

/-- Adding a command that is not the handler of unknown names changes its own name only. -/
theorem lookupIn_insert {commands : Table String Command} {name : String} {c : Command}
    (hname : name ≠ unknownName) {k : String} (hk : k ≠ name) :
    lookupIn (commands.insert name c) k = lookupIn commands k := by
  simp [lookupIn, hk, Ne.symm hname]

/-- Removing a command that is not the handler of unknown names changes its own name only. -/
theorem lookupIn_erase {commands : Table String Command} {name : String}
    (hname : name ≠ unknownName) {k : String} (hk : k ≠ name) :
    lookupIn (commands.erase name) k = lookupIn commands k := by
  simp [lookupIn, hk, Ne.symm hname]

theorem lookupIn_insert_self (commands : Table String Command) (name : String) (c : Command) :
    lookupIn (commands.insert name c) name = some (.direct c) := by
  simp [lookupIn]

/-! ### Coherence -/

/-- Every entry of the cache is what the table resolves its name to. -/
def Coherent (m : Machine) : Prop :=
  ∀ name entry, m.cache.entries.get? name = some entry → entry = m.lookup name

/-- Coherence is about the table and the entries only. -/
theorem Coherent.congr {m t : Machine} (h : m.Coherent) (hc : t.commands = m.commands)
    (he : t.cache.entries = m.cache.entries) : t.Coherent := by
  intro name entry hn
  rw [lookup_eq, hc]
  exact h name entry (he ▸ hn)

/-- An empty cache is coherent with any table. -/
theorem coherent_of_entries_empty {m : Machine} (h : m.cache.entries = ∅) : m.Coherent := by
  intro name entry hn
  simp [h] at hn

/-- Resolving a name stores what the table has for it, or nothing. -/
theorem Coherent.resolve {m : Machine} (h : m.Coherent) (name : String) :
    (m.resolve name).2.Coherent := by
  have hc := m.cache.entries_lookup name false
  unfold Machine.resolve
  split
  · rename_i entry cache e
    rw [e] at hc
    exact h.congr rfl hc
  · -- a miss: the new entry is the resolution by the table
    rename_i cache e
    rw [e] at hc
    intro k entry hk
    change (cache.store name (m.lookup name) false).entries.get? k = _ at hk
    change entry = m.lookup k
    rw [Cache.get?_store, hc] at hk
    by_cases hkn : k = name
    · subst hkn
      simpa using hk.symm
    · exact h k entry (by simpa [hkn] using hk)

/-- The new command is stored under its name, and no other name resolves differently unless the
command handles unknown names. -/
theorem Coherent.define {m : Machine} (h : m.Coherent) (name : String) (c : Command) :
    (m.define name c).2.Coherent := by
  unfold Machine.define
  split
  · exact h
  · intro k entry hk
    change (m.cache.store name (some (.direct c)) (name = unknownName)).entries.get? k = _ at hk
    change entry = lookupIn (m.commands.insert name c) k
    rw [Cache.get?_store] at hk
    by_cases hkn : k = name
    · subst hkn
      rw [lookupIn_insert_self]
      simpa using hk.symm
    · by_cases hu : name = unknownName
      · -- a new handler of unknown names: no other entry is left
        rw [if_neg hkn] at hk
        simp [hu] at hk
      · rw [lookupIn_insert hu hkn]
        exact h k entry (by simpa [hkn, hu] using hk)

/-- The entry goes with the command; the name may be one for the handler of unknown names from now
on. -/
theorem Coherent.delete {m : Machine} (h : m.Coherent) (name : String) :
    (m.delete name).2.Coherent := by
  unfold Machine.delete
  split
  · intro k entry hk
    change (m.cache.remove name (name = unknownName)).2.entries.get? k = _ at hk
    change entry = lookupIn (m.commands.erase name) k
    rw [Cache.get?_remove] at hk
    by_cases hkn : k = name
    · simp [hkn] at hk
    · by_cases hu : name = unknownName
      · -- without its handler no name that it handled is left
        simp [hu] at hk
      · rw [lookupIn_erase hu hkn]
        exact h k entry (by simpa [hkn, hu] using hk)
  · exact h

/-- The cache forgets the old name and has the command under the new one, as the table does. -/
theorem Coherent.rename {m : Machine} (h : m.Coherent) (old new : String) :
    (m.rename old new).2.Coherent := by
  unfold Machine.rename
  split
  · exact h.delete old
  split
  · exact h
  split
  · exact h
  · rename_i c hc hnew
    intro k entry hk
    change (m.cache.rename old new (some (.direct c))
      (old = unknownName ∨ new = unknownName)).entries.get? k = _ at hk
    change entry = lookupIn ((m.commands.erase old).insert new c) k
    rw [Cache.get?_rename] at hk
    by_cases hkn : k = new
    · subst hkn
      rw [lookupIn_insert_self]
      simpa using hk.symm
    · rw [if_neg hkn] at hk
      by_cases hu : old = unknownName ∨ new = unknownName
      · -- the handler of unknown names came or went: no other entry is left
        simp [hu] at hk
      · obtain ⟨hold, hnew'⟩ := not_or.1 hu
        by_cases hko : k = old
        · simp [hko] at hk
        · rw [lookupIn_insert hnew' hkn, lookupIn_erase hold hko]
          exact h k entry (by simpa [hko, hu] using hk)

/-- What is done to the contexts leaves table and cache alone. -/
theorem Coherent.acquire {m : Machine} (h : m.Coherent) (create : Bool) :
    (m.acquire create).2.Coherent := by
  unfold Machine.acquire
  split
  · split <;> exact h
  · split
    · exact h.congr rfl rfl
    · split
      · exact h.congr rfl rfl
      · exact h

theorem Coherent.release {m : Machine} (h : m.Coherent) : m.release.2.Coherent := by
  unfold Machine.release
  split
  · exact h
  · exact h.congr rfl rfl

theorem coherent_dispose {m : Machine} (h : m.Coherent) : m.dispose.Coherent := by
  unfold Machine.dispose
  split
  · exact h
  · exact coherent_of_entries_empty rfl

/-- No action makes a coherent cache incoherent. -/
theorem Coherent.next {m t : Machine} (hn : m.Next t) (h : m.Coherent) : t.Coherent := by
  obtain ⟨a, rfl⟩ := hn
  cases a with
  | resolve name => exact h.resolve name
  | define name c => exact h.define name c
  | delete name => exact h.delete name
  | rename old new => exact h.rename old new
  | askCache name => exact h.congr rfl (m.cache.entries_lookup name true)
  | clearCache => exact coherent_of_entries_empty rfl
  | acquire create => exact h.acquire create
  | release => exact h.release
  | dispose => exact coherent_dispose h
  -- the others touch neither the table nor the cache
  | rest | channels | names | switchThread | setVariables | newFrame | freeContext | disposeContext
  | setSlot | setStack | disposeFrame => exact h.congr rfl rfl

theorem coherent_start (s : Setup) : (Machine.start s).Coherent := by
  refine coherent_of_entries_empty ?_
  simp [Machine.start, loggedHere, logged, Cache.new]

/-- Through a coherent cache, a name resolves to what the table alone resolves it to. -/
theorem Coherent.resolve_fst {m : Machine} (h : m.Coherent) (name : String) :
    (m.resolve name).1 = m.lookup name := by
  have hf := m.cache.lookup_fst name
  unfold Machine.resolve
  split
  · rename_i entry cache e
    rw [e] at hf
    exact h name entry hf.symm
  · rfl

end Machine

/-- The same for the program that resolves a name, which reports a name without a command. -/
theorem Machine.Coherent.run_resolve {m : Machine} (h : m.Coherent) (name : String) :
    ((Eval.resolve name).run m).1 = m.lookupOutcome name := by
  have hf := h.resolve_fst name
  rcases e : m.resolve name with ⟨_ | r, t⟩
  all_goals
    rw [e] at hf
    simp [Eval.resolve, e, Machine.lookupOutcome, ← hf]

/-! ### Sessions -/

/-- A session starts with an empty cache and takes one action after the other. -/
theorem Session.coherent {s : Setup} {path : Program.Path Stop Machine} {m : Machine}
    (h : Session s path m) : m.Coherent :=
  h.invariant (Machine.coherent_start s) fun _ _ hn => .next hn

/-- **The cache is coherent** in every machine a session passes, between calls and inside of them:
each entry is what the table resolves its name to, so resolving any name gives what the table alone
gives. -/
theorem cache_coherent {s : Setup} {path : Program.Path Stop Machine} {m : Machine}
    (h : Session s path m) :
    (∀ name entry, m.cache.entries.get? name = some entry → entry = m.lookup name) ∧
      ∀ name, (m.resolve name).1 = m.lookup name ∧
        ((Eval.resolve name).run m).1 = m.lookupOutcome name := by
  have hm := h.coherent
  exact ⟨hm, fun name => ⟨hm.resolve_fst name, hm.run_resolve name⟩⟩

/-- A name that was resolved to the handler of unknown names resolves to the new handler once there
is one. -/
theorem cache_coherent_new_handler :
    let perform (m : Machine) (call : HostCall) := (m.performBy (Evaluation.cached 1) call).2
    let asked := perform (perform (.start { id := "host" }) (.setUnknown (some [])))
      (.invoke "ghost" [])
    let m := perform asked (.setUnknown (some [.level]))
    asked.cache.entries.get? "ghost" = some (some (.unknown (.function []) "ghost")) ∧
      (m.resolve "ghost").1 = m.lookup "ghost" ∧
      m.lookup "ghost" = some (.unknown (.function [.level]) "ghost") := by
  intro perform asked m
  have h : Session { id := "host" } [] m := by
    refine .after 1 _ (.after 1 _ (.after 1 _ .start ?_) ?_) ?_
    all_goals exact fun h => by cases h
  exact ⟨rfl, ((cache_coherent h).2 "ghost").1, rfl⟩

end CommandHost
