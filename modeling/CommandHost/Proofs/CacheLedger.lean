/-
CommandHost/Proofs/CacheLedger.lean

The books of a cache balance.

A cache is compared with a plain finite map that replays its operations
(`Cache.Ledger`).  The ledger knows nothing of counters; it notes how many entries went
when everything was dropped, and how many renames wrote over an entry that was there.

The comparison is made for one operation at a time.  `Op.events` says which events an
operation counts, given the map it meets, and `Op.card_on` is the balance of a single
operation: names that are new against names that are gone.  A cache keeps to its
ledger under every operation (`Keeps.apply`), so after any operations it answers as
the map does, and its size is what the counters for adding and removing come to once
the entries that were dropped or written over are taken off (`count_conserved`).

Counters wrap around at 2^63.  In `Statistics.counting` numbers have no bound, and only
the last step asks for few enough operations.
-/
import CommandHost.Cache
import Mathlib.Data.Finmap

namespace CommandHost

/-! ### Tables as finite maps -/

namespace Table

variable {κ α : Type}

/-- The table as a finite map, in which the order of the insertions does not show. -/
def toFinmap (t : Table κ α) : Finmap fun _ : κ => α :=
  AList.toFinmap ⟨t.entries.map fun e => ⟨e.1, e.2⟩, by
    have hkeys : (t.entries.map fun e => (⟨e.1, e.2⟩ : (_ : κ) × α)).keys =
        t.entries.map Prod.fst := by
      simp [List.keys, Function.comp_def]
    rw [List.NodupKeys, hkeys]
    exact t.distinct⟩

/-- The map has as many keys as the table has entries, since no key occurs twice. -/
theorem card_keys_toFinmap (t : Table κ α) : t.toFinmap.keys.card = t.size := by
  show ((t.entries.map fun e => (⟨e.1, e.2⟩ : (_ : κ) × α)).map Sigma.fst).length = _
  rw [List.length_map, List.length_map, size]

variable [DecidableEq κ]

/-- Looking up a key gives the same in both. -/
@[simp] theorem lookup_toFinmap (t : Table κ α) (key : κ) :
    t.toFinmap.lookup key = t.get? key := by
  rw [toFinmap, Finmap.lookup_toFinmap]
  show List.dlookup key (t.entries.map fun e => (⟨e.1, e.2⟩ : (_ : κ) × α)) = find? t.entries key
  induction t.entries with
  | nil => rfl
  | cons e l ih =>
    obtain ⟨j, a⟩ := e
    by_cases h : j = key
    · subst h
      rw [find?, if_pos rfl]
      exact List.dlookup_cons_eq _ _ _
    · rw [find?, if_neg h, ← ih]
      exact List.dlookup_cons_ne _ _ (Ne.symm h)

theorem mem_toFinmap (t : Table κ α) (key : κ) : key ∈ t.toFinmap ↔ t.contains key = true := by
  rw [← Finmap.lookup_isSome, lookup_toFinmap, contains]

/-- Insertion at the end or in place is insertion in the map. -/
theorem toFinmap_insert (t : Table κ α) (key : κ) (a : α) :
    (t.insert key a).toFinmap = t.toFinmap.insert key a := by
  apply Finmap.ext_lookup
  intro k
  rw [lookup_toFinmap, get?_insert]
  by_cases h : k = key
  · subst h
    rw [if_pos rfl, Finmap.lookup_insert]
  · rw [if_neg h, Finmap.lookup_insert_of_ne _ h, lookup_toFinmap]

theorem toFinmap_erase (t : Table κ α) (key : κ) :
    (t.erase key).toFinmap = t.toFinmap.erase key := by
  apply Finmap.ext_lookup
  intro k
  rw [lookup_toFinmap, get?_erase]
  by_cases h : k = key
  · subst h
    rw [if_pos rfl, Finmap.lookup_erase]
  · rw [if_neg h, Finmap.lookup_erase_ne h, lookup_toFinmap]

end Table

/-! ### Counters -/

/-- How many events of each kind there are, once some more have been counted. -/
def Counter.tallied (n : Counter → Nat) (events : List Counter) (e : Counter) : Nat :=
  n e + events.count e

/-- Events may be counted in two parts. -/
theorem Counter.tallied_tallied (n : Counter → Nat) (before after : List Counter) :
    tallied (tallied n before) after = tallied n (before ++ after) := by
  funext e
  rw [tallied, tallied, tallied, List.count_append, Nat.add_assoc]

namespace Statistics

/-- The counters after so many events of each kind. -/
def counting (n : Counter → Nat) : Statistics :=
  ⟨some #[.ofNat (n .found), .ofNat (n .notFound), .ofNat (n .add), .ofNat (n .change),
    .ofNat (n .remove), .ofNat (n .clear)]⟩

/-- Each kind of event has its own place among the counters. -/
theorem get_counting (n : Counter → Nat) (e : Counter) : (counting n).get e.index = .ofNat (n e) := by
  cases e <;> rfl

/-- One more event of a kind, which wraps around as the number in the counter does. -/
theorem increment_counting (n : Counter → Nat) (e : Counter) :
    (counting n).increment e = counting (Counter.tallied n [e]) := by
  have hnext (x : Counter) : Int64.ofNat (Counter.tallied n [e] x) =
      if x = e then .ofNat (n x) + 1 else .ofNat (n x) := by
    rw [Counter.tallied]
    split
    · rename_i h
      rw [h, List.count_singleton_self, Int64.ofNat_add]
      rfl
    · rename_i h
      rw [List.count_eq_zero_of_not_mem (by simpa using h), Nat.add_zero]
  simp only [counting, hnext]
  cases e <;> rfl

end Statistics

namespace Cache

variable {α : Type}

/-- What a counter stands at; zero if none are kept. -/
def counter (c : Cache α) (e : Counter) : Int64 := (c.stats.map (·.get e.index)).getD 0

/-! ### Operations on a plain map -/

/-- What a plain map holds: names with their entries. -/
abbrev Plain (α : Type) := Finmap fun _ : String => Option α

namespace Op

/-- Whether the operation drops everything first. -/
def clears : Op α → Bool
  | clear => true
  | lookup _ _ => false
  | store _ _ invalidate => invalidate
  | rename _ _ _ invalidate => invalidate
  | remove _ invalidate => invalidate

def isLookup : Op α → Bool
  | lookup _ _ => true
  | _ => false

/-- What is left of a map for the operation to work on. -/
def left (op : Op α) (map : Plain α) : Plain α := if op.clears then ∅ else map

/-- What the operation makes of a map. -/
def on (op : Op α) (map : Plain α) : Plain α :=
  match op with
  | clear => ∅
  | lookup _ _ => map
  | store name entry _ => (op.left map).insert name entry
  | rename old new entry _ => ((op.left map).erase old).insert new entry
  | remove name _ => (op.left map).erase name

/-- What the operation answers on a map.  A usable entry is one that resolves to something. -/
def answer (op : Op α) (map : Plain α) : Reply α :=
  match op with
  | clear => .done
  | lookup name usable => .entry ((map.lookup name).filter fun entry => !usable || entry.isSome)
  | store _ _ _ => .changed true
  | rename _ _ _ _ => .changed true
  | remove name invalidate => .changed (invalidate || name ∈ map)

/-- How many entries go because everything is dropped. -/
def dropped (op : Op α) (map : Plain α) : Nat := if op.clears then map.keys.card else 0

/-- Whether the operation moves a name onto one that still has an entry when the old one is gone. -/
def overwrites (op : Op α) (map : Plain α) : Bool :=
  match op with
  | rename old new _ _ => new ∈ (op.left map).erase old
  | _ => false

/-- The events that the operation counts, in order. -/
def events (op : Op α) (map : Plain α) : List Counter :=
  (if op.clears then [.clear] else []) ++
    match op with
    | clear => []
    | lookup name usable =>
      [if ((map.lookup name).filter fun entry => !usable || entry.isSome).isSome then .found
        else .notFound]
    | store name _ _ => [if name ∈ op.left map then .change else .add]
    | rename old _ _ _ => (if old ∈ op.left map then [.remove] else []) ++ [.add]
    | remove name _ => if name ∈ op.left map then [.remove] else []

/-- An operation counts an event of a kind at most once. -/
theorem count_events_le (op : Op α) (map : Plain α) (e : Counter) : (op.events map).count e ≤ 1 := by
  apply List.nodup_iff_count_le_one.1
  cases op <;> simp only [events] <;> split_ifs <;> decide

/-- A lookup counts one event, found or not found, and nothing else counts either. -/
theorem count_lookups (op : Op α) (map : Plain α) :
    (op.events map).count .found + (op.events map).count .notFound =
      if op.isLookup then 1 else 0 := by
  cases op <;> grind [events, isLookup, clears]

/-- Dropping everything is counted once, also by operations that go on with something else. -/
theorem count_clear (op : Op α) (map : Plain α) :
    (op.events map).count .clear = if op.clears then 1 else 0 := by
  cases op <;> grind [events, clears]

end Op

theorem keys_insert (map : Plain α) (name : String) (entry : Option α) :
    (map.insert name entry).keys = insert name map.keys := by
  ext k
  simp [Finmap.mem_keys]

/-- A map grows by one entry unless the name was there. -/
theorem card_keys_insert (map : Plain α) (name : String) (entry : Option α) :
    (map.insert name entry).keys.card + (if name ∈ map then 1 else 0) = map.keys.card + 1 := by
  rw [keys_insert]
  by_cases h : name ∈ map
  · rw [if_pos h, Finset.insert_eq_of_mem (Finmap.mem_keys.2 h)]
  · rw [if_neg h, Finset.card_insert_of_notMem fun hk => h (Finmap.mem_keys.1 hk)]

/-- A map shrinks by one entry if the name was there. -/
theorem card_keys_erase (map : Plain α) (name : String) :
    (map.erase name).keys.card + (if name ∈ map then 1 else 0) = map.keys.card := by
  rw [Finmap.keys_erase]
  by_cases h : name ∈ map
  · rw [if_pos h, Finset.card_erase_add_one (Finmap.mem_keys.2 h)]
  · rw [if_neg h, Finset.erase_eq_of_notMem fun hk => h (Finmap.mem_keys.1 hk), Nat.add_zero]

theorem erase_of_notMem {map : Plain α} {name : String} (h : name ∉ map) : map.erase name = map := by
  apply Finmap.ext_lookup
  intro k
  by_cases hk : k = name
  · rw [hk, Finmap.lookup_erase, Finmap.lookup_eq_none.2 h]
  · exact Finmap.lookup_erase_ne hk

/-- What is left of a map and what is dropped make up the map. -/
theorem Op.card_left (op : Op α) (map : Plain α) :
    (op.left map).keys.card + op.dropped map = map.keys.card := by
  rw [left, dropped]
  split
  · simp
  · rfl

/-- **The balance of one operation**: every name that is added is new to the map, or its adding is
made up for by an entry that was written over; every name that goes is removed or dropped. -/
theorem Op.card_on (op : Op α) (map : Plain α) :
    (op.on map).keys.card + (op.events map).count .remove + op.dropped map +
        (if op.overwrites map then 1 else 0) =
      map.keys.card + (op.events map).count .add := by
  have hleft := op.card_left map
  cases op with
  | clear => simpa [on, events, overwrites, clears, left] using hleft
  | lookup name usable =>
    have hevents : ((lookup name usable : Op α).events map).count .remove = 0 ∧
        ((lookup name usable : Op α).events map).count .add = 0 := by
      constructor <;> grind [events, clears]
    rw [hevents.1, hevents.2]
    simp [on, overwrites, dropped, clears]
  | store name entry invalidate =>
    have hinsert := card_keys_insert ((store name entry invalidate).left map) name entry
    -- an entry that was there is changed, and nothing is added
    have hevents : ((store name entry invalidate).events map).count .remove = 0 ∧
        ((store name entry invalidate).events map).count .add =
          if name ∈ (store name entry invalidate).left map then 0 else 1 := by
      constructor <;> grind [events, clears]
    rw [hevents.1, hevents.2]
    simp only [on, overwrites, Bool.false_eq_true, if_false]
    split_ifs at hinsert ⊢ <;> omega
  | rename old new entry invalidate =>
    let rest := (rename old new entry invalidate).left map
    have herase := card_keys_erase rest old
    have hinsert := card_keys_insert (rest.erase old) new entry
    -- adding is counted in any case
    have hevents : ((rename old new entry invalidate).events map).count .remove =
          (if old ∈ rest then 1 else 0) ∧
        ((rename old new entry invalidate).events map).count .add = 1 := by
      constructor <;> grind [events, clears]
    rw [hevents.1, hevents.2]
    show ((rest.erase old).insert new entry).keys.card + _ + _ +
      (if decide (new ∈ rest.erase old) = true then 1 else 0) = _
    simp only [decide_eq_true_eq]
    have hrest : rest.keys.card + (rename old new entry invalidate).dropped map = map.keys.card :=
      hleft
    omega
  | remove name invalidate =>
    have herase := card_keys_erase ((remove name invalidate).left map) name
    -- a name that was dropped with everything else is not removed once more
    have hevents : ((remove name invalidate : Op α).events map).count .remove =
          (if name ∈ (remove name invalidate).left map then 1 else 0) ∧
        ((remove name invalidate : Op α).events map).count .add = 0 := by
      constructor <;> grind [events, clears]
    rw [hevents.1, hevents.2]
    simp only [on, overwrites, Bool.false_eq_true, if_false]
    omega

/-! ### One operation of a cache -/

/-- The cache has the entries of a map, and has counted so many events of each kind. -/
structure Shows (c : Cache α) (map : Plain α) (n : Counter → Nat) : Prop where
  entries : c.entries.toFinmap = map
  stats : c.stats = some (.counting n)

namespace Shows

variable {c : Cache α} {map : Plain α} {n : Counter → Nat}

theorem new : (Cache.new true : Cache α).Shows ∅ fun _ => 0 := ⟨rfl, rfl⟩

/-- The counters show the numbers of the events, up to the bound of a counter. -/
theorem counter (h : c.Shows map n) (e : Counter) : c.counter e = .ofNat (n e) := by
  rw [Cache.counter, h.stats, Option.map_some, Statistics.get_counting]
  rfl

theorem count (h : c.Shows map n) : c.count = map.keys.card := by
  rw [Cache.count, ← Table.card_keys_toFinmap, h.entries]

theorem get? (h : c.Shows map n) (name : String) : c.entries.get? name = map.lookup name := by
  rw [← h.entries, Table.lookup_toFinmap]

theorem contains (h : c.Shows map n) (name : String) :
    c.entries.contains name = decide (name ∈ map) := by
  rw [← h.entries, Bool.eq_iff_iff, decide_eq_true_eq, Table.mem_toFinmap]

/-- Counting an event leaves the entries alone. -/
theorem record (h : c.Shows map n) (e : Counter) :
    (c.record e).Shows map (Counter.tallied n [e]) := by
  refine ⟨h.entries, ?_⟩
  rw [Cache.record, h.stats, ← Statistics.increment_counting]
  rfl

theorem insert (h : c.Shows map n) (name : String) (entry : Option α) :
    Shows { c with entries := c.entries.insert name entry } (map.insert name entry) n :=
  ⟨by rw [Table.toFinmap_insert, h.entries], h.stats⟩

theorem erase (h : c.Shows map n) (name : String) :
    Shows { c with entries := c.entries.erase name } (map.erase name) n :=
  ⟨by rw [Table.toFinmap_erase, h.entries], h.stats⟩

theorem clear (h : c.Shows map n) : c.clear.Shows ∅ (Counter.tallied n [.clear]) :=
  record (c := { c with entries := ∅ }) ⟨rfl, h.stats⟩ .clear

/-- A name that is there is found, unless it has to be usable and is not. -/
theorem lookup (h : c.Shows map n) (name : String) (usable : Bool) :
    (c.lookup name usable).1 = (map.lookup name).filter (fun entry => !usable || entry.isSome) ∧
      (c.lookup name usable).2.Shows map (Counter.tallied n ((Op.lookup name usable).events map)) := by
  have hget := h.get? name
  rcases e : map.lookup name with - | entry
  · simp only [Cache.lookup, hget, e, Op.events]
    exact ⟨rfl, h.record .notFound⟩
  · simp only [Cache.lookup, hget, e, Op.events]
    by_cases hentry : (usable && entry.isNone) = true
    · -- the entry is a remembered miss
      obtain ⟨rfl, rfl⟩ : usable = true ∧ entry = none := by simpa using hentry
      exact ⟨rfl, h.record .notFound⟩
    · have hkeep : (!usable || entry.isSome) = true := by
        cases usable <;> cases entry <;> simp_all
      rw [if_neg hentry, Option.filter_some, if_pos hkeep]
      exact ⟨rfl, h.record .found⟩

/-- Storing adds an entry or changes one, and is counted so. -/
theorem store (h : c.Shows map n) (name : String) (entry : Option α) (invalidate : Bool) :
    (c.store name entry invalidate).Shows ((Op.store name entry invalidate).on map)
      (Counter.tallied n ((Op.store name entry invalidate).events map)) := by
  cases invalidate with
  | true =>
    have hevents : (Op.store name entry true).events map = [.clear] ++ [.add] := rfl
    rw [hevents, ← Counter.tallied_tallied]
    exact (h.clear.insert name entry).record .add
  | false =>
    have hevents : (Op.store name entry false).events map =
        [if c.entries.contains name then .change else .add] := by
      rw [h.contains]
      simp [Op.events, Op.left, Op.clears]
    rw [hevents]
    exact (h.insert name entry).record _

/-- Nothing is counted for a name that is not there. -/
theorem remove (h : c.Shows map n) (name : String) (invalidate : Bool) :
    (c.remove name invalidate).1 = (invalidate || decide (name ∈ map)) ∧
      (c.remove name invalidate).2.Shows ((Op.remove name invalidate).on map)
        (Counter.tallied n ((Op.remove name invalidate).events map)) := by
  cases invalidate with
  | true => exact ⟨rfl, h.clear⟩
  | false =>
    have hevents : (Op.remove name false : Op α).events map =
        if name ∈ map then [.remove] else [] := rfl
    have hremove : c.remove name false = if c.entries.contains name then
        (true, Cache.record { c with entries := c.entries.erase name } .remove) else (false, c) :=
      rfl
    rw [hevents, hremove, h.contains]
    by_cases hname : name ∈ map
    · rw [if_pos hname, if_pos (decide_eq_true hname), decide_eq_true hname]
      exact ⟨rfl, (h.erase name).record .remove⟩
    · rw [if_neg hname, decide_eq_false hname]
      refine ⟨rfl, ?_⟩
      -- the cache is left as it is, and the map has nothing to erase
      show c.Shows (map.erase name) n
      rw [erase_of_notMem hname]
      exact h

/-- Renaming is removing the old name and adding the new one, counted as such. -/
theorem rename (h : c.Shows map n) (old new : String) (entry : Option α) (invalidate : Bool) :
    (c.rename old new entry invalidate).Shows ((Op.rename old new entry invalidate).on map)
      (Counter.tallied n ((Op.rename old new entry invalidate).events map)) := by
  -- so the lemma on removing does the first half
  have hrename : c.rename old new entry invalidate =
      Cache.record { (c.remove old invalidate).2 with
        entries := (c.remove old invalidate).2.entries.insert new entry } .add := by
    unfold Cache.rename Cache.remove
    split
    · rfl
    · split <;> rfl
  have hevents : (Op.rename old new entry invalidate).events map =
      (Op.remove old invalidate : Op α).events map ++ [.add] :=
    (List.append_assoc _ _ _).symm
  rw [hrename, hevents, ← Counter.tallied_tallied]
  exact ((h.remove old invalidate).2.insert new entry).record .add

/-- **One operation**: the cache answers as the map does, goes on with what the operation makes of the
map, and counts the events of the operation. -/
theorem apply (h : c.Shows map n) (op : Op α) :
    (c.apply op).1 = op.answer map ∧
      (c.apply op).2.Shows (op.on map) (Counter.tallied n (op.events map)) := by
  cases op with
  | clear => exact ⟨rfl, h.clear⟩
  | lookup name usable =>
    obtain ⟨hanswer, hafter⟩ := h.lookup name usable
    exact ⟨congrArg Reply.entry hanswer, hafter⟩
  | store name entry invalidate => exact ⟨rfl, h.store name entry invalidate⟩
  | rename old new entry invalidate => exact ⟨rfl, h.rename old new entry invalidate⟩
  | remove name invalidate =>
    obtain ⟨hanswer, hafter⟩ := h.remove name invalidate
    exact ⟨congrArg Reply.changed hanswer, hafter⟩

end Shows

/-! ### Ledgers -/

/-- A plain map that replays operations, with notes on entries that nobody counted. -/
structure Ledger (α : Type) where
  map : Plain α := ∅
  /-- How many entries went when everything was dropped. -/
  dropped : Nat := 0
  /-- How many renames wrote over an entry that was still there. -/
  overwritten : Nat := 0

/-- Replays an operation. -/
def Ledger.post (l : Ledger α) (op : Op α) : Ledger α where
  map := op.on l.map
  dropped := l.dropped + op.dropped l.map
  overwritten := l.overwritten + if op.overwrites l.map then 1 else 0

/-- Replays operations one after the other. -/
def Ledger.of (ops : List (Op α)) : Ledger α := ops.foldl post {}

/-- The cache after operations. -/
def after (c : Cache α) (ops : List (Op α)) : Cache α := ops.foldl (fun c op => (c.apply op).2) c

/-- A cache keeps to the ledger of operations: it shows the map, has counted the lookups and how often
everything was dropped, and the entries balance. -/
structure Keeps (c : Cache α) (ops : List (Op α)) (n : Counter → Nat) : Prop where
  shows : c.Shows (Ledger.of ops).map n
  lookups : n .found + n .notFound = ops.countP (·.isLookup)
  clears : n .clear = ops.countP (·.clears)
  balance : (Ledger.of ops).map.keys.card + n .remove + (Ledger.of ops).dropped +
    (Ledger.of ops).overwritten = n .add
  /-- No event is counted more often than there were operations. -/
  bound : ∀ e, n e ≤ ops.length

/-- One more operation: the answers of the map, the counts of lookups and clearings and the balance
are kept, each by the lemma on a single operation. -/
theorem Keeps.apply {c : Cache α} {ops : List (Op α)} {n : Counter → Nat} (h : c.Keeps ops n)
    (op : Op α) : (c.apply op).2.Keeps (ops ++ [op])
      (Counter.tallied n (op.events (Ledger.of ops).map)) := by
  have hledger : Ledger.of (ops ++ [op]) = (Ledger.of ops).post op := by
    rw [Ledger.of, List.foldl_append]
    rfl
  refine ⟨?_, ?_, ?_, ?_, fun e => ?_⟩
  · rw [hledger]
    exact (h.shows.apply op).2
  · have hstep := op.count_lookups (Ledger.of ops).map
    have hbefore := h.lookups
    rw [List.countP_append, List.countP_singleton, Counter.tallied, Counter.tallied]
    omega
  · have hstep := op.count_clear (Ledger.of ops).map
    have hbefore := h.clears
    rw [List.countP_append, List.countP_singleton, Counter.tallied]
    omega
  · have hstep := op.card_on (Ledger.of ops).map
    have hbefore := h.balance
    simp only [hledger, Counter.tallied, Ledger.post]
    omega
  · rw [List.length_append, List.length_singleton]
    exact Nat.add_le_add (h.bound e) (op.count_events_le _ e)

/-- Every cache keeps to the ledger of its operations. -/
theorem exists_keeps (ops : List (Op α)) : ∃ n : Counter → Nat,
    ((new true).after ops).Keeps ops n := by
  -- the induction takes the last operation off, since the cache is what the others have left
  induction ops using List.reverseRecOn with
  | nil => exact ⟨fun _ => 0, .new, rfl, rfl, rfl, fun _ => Nat.le_refl 0⟩
  | append_singleton ops op ih =>
    obtain ⟨n, hkeeps⟩ := ih
    refine ⟨Counter.tallied n (op.events (Ledger.of ops).map), ?_⟩
    rw [after, List.foldl_append]
    exact hkeeps.apply op

/-- **Conservation of entries.**  After any operations on a new cache with counters, no more of them than
a counter can count, every operation is answered as by a plain map that has replayed them; the two
counters for looking up come to the number of lookups, the one for clearing to the number of
operations that dropped everything; and the number of entries is what was added less what was removed,
dropped with everything else, or written over. -/
theorem count_conserved (ops : List (Op α)) (hfew : (ops.length : Int) ≤ Int64.maxValue.toInt) :
    let c := (new true).after ops
    let l := Ledger.of ops
    (∀ op, (c.apply op).1 = op.answer l.map) ∧
      (c.counter .found).toInt + (c.counter .notFound).toInt = ops.countP (·.isLookup) ∧
      (c.counter .clear).toInt = ops.countP (·.clears) ∧
      (c.count : Int) =
        (c.counter .add).toInt - (c.counter .remove).toInt - l.dropped - l.overwritten := by
  intro c l
  obtain ⟨n, hkeeps⟩ := exists_keeps ops
  -- no counter has wrapped around
  have hexact (e : Counter) : (c.counter e).toInt = n e := by
    rw [hkeeps.shows.counter e]
    apply Int64.toInt_ofNat_of_lt
    have hmax : Int64.maxValue.toInt = 9223372036854775807 := by decide
    have hle := hkeeps.bound e
    omega
  have hbalance : l.map.keys.card + n .remove + l.dropped + l.overwritten = n .add := hkeeps.balance
  have hcount : c.count = l.map.keys.card := hkeeps.shows.count
  refine ⟨fun op => (hkeeps.shows.apply op).1, ?_, ?_, ?_⟩
  · rw [hexact, hexact]
    exact_mod_cast hkeeps.lookups
  · rw [hexact, hkeeps.clears]
  · rw [hexact, hexact, hcount]
    omega

/-- A rename onto a cached name writes over its entry, and an invalidating store drops what is left. -/
theorem count_conserved_overwriting :
    let ops : List (Op Nat) :=
      [.store "a" (some 1) false, .store "b" none false, .rename "a" "b" (some 2) false,
        .lookup "b" true, .remove "a" false, .store "c" none true, .rename "c" "c" none false,
        .lookup "c" true]
    let c := (new true).after ops
    let l := Ledger.of ops
    (c.counter .found).toInt + (c.counter .notFound).toInt = 2 ∧ (c.counter .clear).toInt = 1 ∧
      (c.count : Int) =
        (c.counter .add).toInt - (c.counter .remove).toInt - l.dropped - l.overwritten ∧
      c.count = 1 ∧ (c.counter .add).toInt = 5 ∧ (c.counter .remove).toInt = 2 ∧ l.dropped = 1 ∧
      l.overwritten = 1 := by
  intro ops c l
  obtain ⟨-, hlookups, hclears, hcount⟩ := count_conserved ops (by decide)
  exact ⟨hlookups, hclears, hcount, by decide +kernel⟩

end Cache

end CommandHost
