/-
CommandHost/Proofs/Renaming.lean

Renaming neither loses nor duplicates commands.

A rename that succeeds swaps two names of which one is free, so the table of commands
is afterwards the one from before with its names relabelled by that swap; one that
fails leaves the whole machine as it is (`rename_cases`).  Relabellings by permutations
compose (`Table.Relabels.trans`), and so any renames, whether they succeed or not, come
to one relabelling.

What a name resolves to depends on the table alone as long as the cache is coherent,
and renames keep it coherent.  So commands can be invoked under their new names, and a
rename that is undone restores what every name resolves to, although the cache itself
may be a different one.
-/
import CommandHost.Proofs.Coherence
import Mathlib.Logic.Equiv.Basic

namespace CommandHost

/-! ### Relabelling -/

namespace Table

variable {κ α : Type} [DecidableEq κ]

/-- One table is the other with its keys relabelled. -/
def Relabels (σ : Equiv.Perm κ) (t u : Table κ α) : Prop := ∀ key, u.get? (σ key) = t.get? key

theorem Relabels.refl (t : Table κ α) : Relabels (Equiv.refl κ) t t := fun _ => rfl

theorem Relabels.trans {σ τ : Equiv.Perm κ} {t u v : Table κ α} (h : Relabels σ t u)
    (h' : Relabels τ u v) : Relabels (σ.trans τ) t v := by
  intro key
  rw [Equiv.trans_apply, h' (σ key), h key]

/-- Moving an entry to a free key. -/
theorem relabels_move {t : Table κ α} {old new : κ} {a : α} (hold : t.get? old = some a)
    (hnew : t.get? new = none) :
    Relabels (Equiv.swap old new) t ((t.erase old).insert new a) := by
  intro key
  rw [get?_insert, get?_erase]
  by_cases hkey : key = old
  · subst hkey
    rw [Equiv.swap_apply_left, if_pos rfl, hold]
  · by_cases hkey' : key = new
    · -- the free key becomes the old one, which is free now
      subst hkey'
      rw [Equiv.swap_apply_right, if_neg (Ne.symm hkey), if_pos rfl, hnew]
    · rw [Equiv.swap_apply_of_ne_of_ne hkey hkey', if_neg hkey', if_neg hkey]

/-- Moving an entry to a free key and back. -/
theorem get?_move_back {t : Table κ α} {old new : κ} {a : α} (hold : t.get? old = some a)
    (hnew : t.get? new = none) (key : κ) :
    ((((t.erase old).insert new a).erase new).insert old a).get? key = t.get? key := by
  rw [get?_insert, get?_erase, get?_insert, get?_erase]
  by_cases hkey : key = old
  · rw [if_pos hkey, hkey, hold]
  · rw [if_neg hkey]
    by_cases hkey' : key = new
    · rw [if_pos hkey', hkey', hnew]
    · rw [if_neg hkey', if_neg hkey', if_neg hkey]

end Table

namespace Machine

/-! ### One rename -/

/-- What a rename can do, unless it is a deletion: it fails and leaves everything as it is, or it moves
the command to a name that was free. -/
theorem rename_cases (m : Machine) (old : String) {new : String} (hnew : new ≠ "") :
    (∃ e, m.rename old new = (.error e, m)) ∨
      ∃ c log, m.commands.get? old = some c ∧ m.commands.get? new = none ∧
        m.rename old new = (.ok (), { m with
          commands := (m.commands.erase old).insert new c
          cache := m.cache.rename old new (some (.direct c))
            (old = unknownName ∨ new = unknownName)
          log }) := by
  unfold rename
  rw [if_neg hnew]
  split
  · exact .inl ⟨_, rfl⟩
  · rename_i c hc
    by_cases hfree : m.commands.contains new = true
    · rw [if_pos hfree]
      exact .inl ⟨_, rfl⟩
    · rw [if_neg hfree]
      refine .inr ⟨c, _, hc, ?_, rfl⟩
      simpa [Table.contains] using hfree

/-- A deletion that fails changes nothing. -/
theorem delete_of_error {m : Machine} {name : String} {e : Error}
    (h : (m.delete name).1 = .error e) : (m.delete name).2 = m := by
  unfold delete at h ⊢
  split
  · rename_i hname
    rw [if_pos hname] at h
    cases h
  · rfl

/-- A rename that fails changes nothing. -/
theorem rename_of_error {m : Machine} {old new : String} {e : Error}
    (h : (m.rename old new).1 = .error e) : (m.rename old new).2 = m := by
  by_cases hnew : new = ""
  · subst hnew
    exact delete_of_error h
  · rcases m.rename_cases old hnew with ⟨e', he⟩ | ⟨c, log, -, -, hok⟩
    · rw [he]
    · rw [hok] at h
      cases h

theorem exists_relabels_rename (m : Machine) (old : String) {new : String} (hnew : new ≠ "") :
    ∃ σ, Table.Relabels σ m.commands (m.rename old new).2.commands := by
  rcases m.rename_cases old hnew with ⟨e, he⟩ | ⟨c, log, hold, hfree, hok⟩
  · rw [he]
    exact ⟨_, .refl _⟩
  · rw [hok]
    exact ⟨_, Table.relabels_move hold hfree⟩

/-! ### Any renames -/

/-- The machine after renames, of which some may fail. -/
def renamed (m : Machine) (renames : List (String × String)) : Machine :=
  renames.foldl (fun m r => (m.rename r.1 r.2).2) m

theorem exists_relabels_renamed (m : Machine) {renames : List (String × String)}
    (hnames : ∀ r ∈ renames, r.2 ≠ "") :
    ∃ σ, Table.Relabels σ m.commands (m.renamed renames).commands := by
  induction renames generalizing m with
  | nil => exact ⟨_, .refl _⟩
  | cons r renames ih =>
    obtain ⟨σ, hσ⟩ := m.exists_relabels_rename r.1 (hnames r List.mem_cons_self)
    obtain ⟨τ, hτ⟩ := ih (m.rename r.1 r.2).2 fun r' hr' => hnames r' (List.mem_cons_of_mem _ hr')
    exact ⟨σ.trans τ, hσ.trans hτ⟩

theorem Coherent.renamed {m : Machine} (h : m.Coherent) (renames : List (String × String)) :
    (m.renamed renames).Coherent := by
  induction renames generalizing m with
  | nil => exact h
  | cons r renames ih => exact ih (h.rename r.1 r.2)

/-- In a coherent machine, a name is resolved to a command of its own if and only if the table has
that command under it. -/
theorem Coherent.resolve_direct_iff {m : Machine} (h : m.Coherent) (name : String) (c : Command) :
    (m.resolve name).1 = some (.direct c) ↔ m.commands.get? name = some c := by
  rw [h.resolve_fst, lookup]
  split
  · rename_i c' hc
    rw [hc]
    simp
  · rename_i hc
    rw [hc]
    simp

/-- Coherent machines whose tables agree resolve names alike. -/
theorem Coherent.resolve_congr {m t : Machine} (hm : m.Coherent) (ht : t.Coherent)
    (h : ∀ name, t.commands.get? name = m.commands.get? name) (name : String) :
    (t.resolve name).1 = (m.resolve name).1 := by
  rw [hm.resolve_fst, ht.resolve_fst, lookup, lookup, h, h]

/-- A rename that succeeds can be undone. -/
theorem rename_rename {m : Machine} {a b : String} (ha : a ≠ "") (hb : b ≠ "")
    (h : (m.rename a b).1 = .ok ()) :
    ((m.rename a b).2.rename b a).1 = .ok () ∧
      ∀ name, ((m.rename a b).2.rename b a).2.commands.get? name = m.commands.get? name := by
  rcases m.rename_cases a hb with ⟨e, he⟩ | ⟨c, log, hold, hfree, hok⟩
  · rw [he] at h
    cases h
  rw [hok]
  have hne : a ≠ b := by
    rintro rfl
    rw [hold] at hfree
    cases hfree
  -- the command is under its new name, and its old one is free
  have hnow : ((m.commands.erase a).insert b c).get? b = some c := by simp
  have hfreed : ((m.commands.erase a).insert b c).contains a = false := by
    simp [Table.contains, hne]
  simp only [rename, if_neg ha, hnow, hfreed, Bool.false_eq_true, if_false]
  exact ⟨trivial, fun name => Table.get?_move_back hold hfree name⟩

end Machine

/-! ### Sessions -/

/-- **Renaming neither loses nor duplicates commands.**  In every machine a session passes, any renames to
names that are not empty come to a relabelling of the table by a permutation of names: every command
can be invoked under its new name, and nothing else under any.  A rename or a deletion that fails
changes nothing at all.  A rename that succeeds can be undone, which restores the table and what
every name resolves to. -/
theorem renames_relabel_commands {s : Setup} {path : Program.Path Stop Machine} {m : Machine}
    (h : Session s path m) :
    (∀ renames : List (String × String), (∀ r ∈ renames, r.2 ≠ "") →
      ∃ σ : Equiv.Perm String, ∀ name,
        (m.renamed renames).commands.get? (σ name) = m.commands.get? name ∧
        ∀ c, ((m.renamed renames).resolve (σ name)).1 = some (.direct c) ↔
          m.commands.get? name = some c) ∧
    (∀ old new e, (m.rename old new).1 = .error e → (m.rename old new).2 = m) ∧
    (∀ name e, (m.delete name).1 = .error e → (m.delete name).2 = m) ∧
    ∀ a b, a ≠ "" → b ≠ "" → (m.rename a b).1 = .ok () →
      let t := ((m.rename a b).2.rename b a).2
      ((m.rename a b).2.rename b a).1 = .ok () ∧
        ∀ name, t.commands.get? name = m.commands.get? name ∧
          (t.resolve name).1 = (m.resolve name).1 := by
  have hm := h.coherent
  refine ⟨fun renames hnames => ?_, fun _ _ _ => Machine.rename_of_error,
    fun _ _ => Machine.delete_of_error, fun a b ha hb hok => ?_⟩
  · obtain ⟨σ, hσ⟩ := m.exists_relabels_renamed hnames
    refine ⟨σ, fun name => ⟨hσ name, fun c => ?_⟩⟩
    rw [(hm.renamed renames).resolve_direct_iff, hσ name]
  · obtain ⟨hback, htable⟩ := Machine.rename_rename ha hb hok
    -- equal tables resolve names alike, since both caches are coherent
    have ht := (hm.rename a b).rename b a
    exact ⟨hback, fun name => ⟨htable name, hm.resolve_congr ht htable name⟩⟩

/-- The handler of unknown names is renamed to a name that was cached as one it handles, and back; and it
is renamed and its name given to another command, where one rename in between fails. -/
theorem renames_relabel_commands_unknown :
    let perform (m : Machine) (call : HostCall) := (m.performBy (Evaluation.cached 1) call).2
    let m := perform (perform (.start { id := "host" }) (.setUnknown (some [])))
      (.invoke "ghost" [])
    m.cache.entries.get? "ghost" = some (some (.unknown (.function []) "ghost")) ∧
      (m.rename "unknown" "ghost").1 = .ok () ∧
      ((m.rename "unknown" "ghost").2.resolve "ghost").1 = some (.direct (.function [])) ∧
      (((m.rename "unknown" "ghost").2.rename "ghost" "unknown").2.resolve "ghost").1 =
        (m.resolve "ghost").1 ∧
      ∃ σ : Equiv.Perm String, ∀ name,
        (m.renamed [("unknown", "ghost"), ("ghost", "set"), ("set", "unknown")]).commands.get?
          (σ name) = m.commands.get? name := by
  intro perform m
  have h : Session { id := "host" } [] m := by
    refine .after 1 _ (.after 1 _ .start ?_) ?_
    all_goals exact fun h => by cases h
  obtain ⟨hrelabel, -, -, hback⟩ := renames_relabel_commands h
  have hok : (m.rename "unknown" "ghost").1 = .ok () := rfl
  obtain ⟨σ, hσ⟩ := hrelabel [("unknown", "ghost"), ("ghost", "set"), ("set", "unknown")]
    (by decide)
  exact ⟨rfl, hok, rfl, ((hback "unknown" "ghost" (by decide) (by decide) hok).2 "ghost").2, σ,
    fun name => (hσ name).1⟩

end CommandHost
