/-
CommandHost/Table.lean

Finite tables with distinct keys.

The entries stand in a list, the latest insertion first; that no key stands
twice is part of the type.  The view is `get?`: what each operation does to it is
`get?_empty`, `get?_insert` and `get?_erase`.
-/

namespace CommandHost

/-- A finite map from keys to entries. -/
structure Table (κ α : Type) where
  entries : List (κ × α)
  distinct : (entries.map Prod.fst).Nodup

namespace Table

variable {κ α : Type}

instance : EmptyCollection (Table κ α) := ⟨⟨[], by simp⟩⟩

instance : Inhabited (Table κ α) := ⟨∅⟩

/-- The keys, the latest insertion first. -/
def keys (t : Table κ α) : List κ := t.entries.map Prod.fst

/-- The number of entries. -/
def size (t : Table κ α) : Nat := t.entries.length

variable [DecidableEq κ]

/-- The entry of a key in a list of entries. -/
def find? : List (κ × α) → κ → Option α
  | [], _ => none
  | (k, a) :: rest, key => if k = key then some a else find? rest key

/-- The entry of a key. -/
def get? (t : Table κ α) (key : κ) : Option α := find? t.entries key

def contains (t : Table κ α) (key : κ) : Bool := (t.get? key).isSome

/-- Removes the entry of a key, if there is one. -/
def erase (t : Table κ α) (key : κ) : Table κ α :=
  ⟨t.entries.filter (fun e => e.1 ≠ key), t.distinct.sublist (List.filter_sublist.map _)⟩

/-- Adds an entry, in place of the one the key had. -/
def insert (t : Table κ α) (key : κ) (a : α) : Table κ α :=
  ⟨(key, a) :: (t.erase key).entries, by
    refine List.nodup_cons.2 ⟨?_, (t.erase key).distinct⟩
    simp [erase]⟩

/-! ### Looking up -/

@[simp] theorem get?_empty (key : κ) : (∅ : Table κ α).get? key = none := rfl

theorem find?_filter_ne (l : List (κ × α)) (key k : κ) :
    find? (l.filter (fun e => e.1 ≠ key)) k = if k = key then none else find? l k := by
  induction l with
  | nil => simp [find?]
  | cons e l ih =>
    obtain ⟨j, a⟩ := e
    by_cases hj : j = key
    · subst hj
      simp only [ne_eq, decide_not, decide_true, Bool.not_true,
        Bool.false_eq_true, not_false_eq_true, List.filter_cons_of_neg, find?]
      simp only [ne_eq, decide_not] at ih
      rw [ih]
      by_cases hk : k = j
      · simp [hk]
      · simp [hk, Ne.symm hk]
    · simp only [ne_eq, decide_not, hj, decide_false, Bool.not_false, List.filter_cons_of_pos,
        find?]
      simp only [ne_eq, decide_not] at ih
      rw [ih]
      by_cases hjk : j = k
      · subst hjk; simp [hj]
      · simp [hjk]

@[simp] theorem get?_erase (t : Table κ α) (key k : κ) :
    (t.erase key).get? k = if k = key then none else t.get? k :=
  find?_filter_ne t.entries key k

@[simp] theorem get?_insert (t : Table κ α) (key k : κ) (a : α) :
    (t.insert key a).get? k = if k = key then some a else t.get? k := by
  simp only [get?, insert, find?]
  by_cases h : key = k
  · simp [h]
  · rw [if_neg h, if_neg (Ne.symm h)]
    have := get?_erase t key k
    simpa [get?, Ne.symm h] using this

theorem mem_keys_iff (t : Table κ α) (key : κ) : key ∈ t.keys ↔ ∃ a, t.get? key = some a := by
  simp only [keys, get?]
  induction t.entries with
  | nil => simp [find?]
  | cons e l ih =>
    obtain ⟨j, b⟩ := e
    by_cases h : j = key
    · simp [find?, h]
    · simp only [List.map_cons, List.mem_cons, find?, h, if_false, ih]
      exact ⟨fun hk => hk.resolve_left (Ne.symm h), .inr⟩

theorem mem_of_find? {l : List (κ × α)} {key : κ} {a : α} (h : find? l key = some a) :
    (key, a) ∈ l := by
  induction l with
  | nil => cases h
  | cons e l ih =>
    obtain ⟨j, b⟩ := e
    by_cases hj : j = key
    · simp_all [find?]
    · rw [find?, if_neg hj] at h
      exact List.mem_cons_of_mem _ (ih h)

theorem mem_of_get? {t : Table κ α} {key : κ} {a : α} (h : t.get? key = some a) :
    (key, a) ∈ t.entries := mem_of_find? h

end Table

/-- The keys of a table of names in increasing order. -/
def Table.names {α : Type} (t : Table String α) : List String :=
  t.keys.mergeSort (fun a b => decide (a ≤ b))

end CommandHost
