/-
CommandHost/Proofs/CacheBooks.lean

What the cache holds and has counted while the load generator runs.

The names that workers use are few, so what the cache holds is a set of roles, and
what it has counted is a number for each kind of event (`Books`).  One lemma for each
way in which a run touches the cache says what becomes of the books: a name is
resolved, a command is defined, a command is moved.

A round of a single worker finds all five names that it resolves in the cache, or none
of them: none at the start and after a churn, since redefining the handler of unknown
names drops everything.  So the books after any number of rounds have a closed form
(`booksAt`), in which each step agrees with what a round and a churn ask of the cache.
-/
import CommandHost.Proofs.CacheLedger
import CommandHost.Proofs.Workload

namespace CommandHost

namespace LoadGenerator

/-! ### Books -/

/-- Which of the names are cached, and how many events of each kind have been counted. -/
@[ext] structure Books (W : Nat) where
  known : Finset (Role W)
  counts : Counter → Nat

namespace Books

variable {W : Nat} {b : Books W}

/-- Other names are cached from here on, and some events are counted. -/
def turn (b : Books W) (known : Finset (Role W)) (events : List Counter) : Books W :=
  ⟨known, Counter.tallied b.counts events⟩

/-- A name is resolved. -/
def ask (b : Books W) (r : Role W) : Books W :=
  if r ∈ b.known then b.turn b.known [.found] else b.turn (insert r b.known) [.notFound, .add]

/-- A command is defined; the handler of unknown names drops everything else. -/
def define (b : Books W) (r : Role W) : Books W :=
  if r = .unknown then b.turn {r} [.clear, .add]
  else b.turn (insert r b.known) [if r ∈ b.known then .change else .add]

/-- A command is moved to another name. -/
def move (b : Books W) (old new : Role W) : Books W :=
  b.turn (insert new (b.known.erase old)) ((if old ∈ b.known then [.remove] else []) ++ [.add])

/-- The cache has the names and has counted the events. -/
def Describes (b : Books W) (c : Cache Resolution) : Prop :=
  ∃ map, c.Shows map b.counts ∧ map.keys = b.known.image Role.name

/-- Different roles have different names, so a name is cached if its role is known. -/
theorem mem_map_iff {map : Cache.Plain Resolution} (h : map.keys = b.known.image Role.name)
    (r : Role W) : r.name ∈ map ↔ r ∈ b.known := by
  have hinjective : Function.Injective (Role.name (W := W)) := fun _ _ => Role.name_injective
  rw [← Finmap.mem_keys, h, hinjective.mem_finset_image]

namespace Describes

variable {c : Cache Resolution}

/-- The cache has as many entries as roles are known. -/
theorem count (h : b.Describes c) : c.count = b.known.card := by
  obtain ⟨map, hshows, hkeys⟩ := h
  rw [hshows.count, hkeys, Finset.card_image_of_injective _ fun _ _ => Role.name_injective]

theorem counter (h : b.Describes c) (e : Counter) : c.counter e = .ofNat (b.counts e) := by
  obtain ⟨map, hshows, -⟩ := h
  exact hshows.counter e

/-- A name that is not cached is, once it has been resolved. -/
theorem resolve {m : Machine} (h : b.Describes m.cache) (r : Role W) :
    (b.ask r).Describes (m.resolve r.name).2.cache := by
  obtain ⟨map, hshows, hkeys⟩ := h
  obtain ⟨hanswer, hafter⟩ := hshows.lookup r.name false
  have hmem := mem_map_iff hkeys r
  rw [ask, Machine.resolve]
  rcases hlookup : m.cache.lookup r.name false with ⟨found, cache⟩
  rw [hlookup] at hanswer hafter
  rcases hget : map.lookup r.name with - | entry
  · -- the name is looked up in the table and stored
    have hnot : r.name ∉ map := Finmap.lookup_eq_none.1 hget
    rw [hget] at hanswer
    obtain rfl : found = none := hanswer
    have hevents : (Cache.Op.lookup r.name false : Cache.Op Resolution).events map =
        [.notFound] := by
      rw [Cache.Op.events, hget]
      rfl
    have hstored := hafter.store r.name (m.lookup r.name) false
    have hstore : (Cache.Op.store r.name (m.lookup r.name) false).events map = [.add] := by
      show [if r.name ∈ map then Counter.change else .add] = _
      rw [if_neg hnot]
    rw [hevents, hstore, Counter.tallied_tallied] at hstored
    rw [if_neg fun hr => hnot (hmem.2 hr)]
    refine ⟨_, hstored, ?_⟩
    show (map.insert r.name (m.lookup r.name)).keys = _
    rw [Cache.keys_insert, hkeys]
    exact (Finset.image_insert _ _ _).symm
  · have hin : r.name ∈ map := Finmap.mem_iff.2 ⟨entry, hget⟩
    rw [hget] at hanswer
    obtain rfl : found = some entry := hanswer
    have hevents : (Cache.Op.lookup r.name false : Cache.Op Resolution).events map = [.found] := by
      rw [Cache.Op.events, hget]
      rfl
    rw [hevents] at hafter
    rw [if_pos (hmem.1 hin)]
    exact ⟨map, hafter, hkeys⟩

/-- Defining a command stores its entry, and drops all others if it handles unknown names. -/
theorem store (h : b.Describes c) (r : Role W) (entry : Option Resolution) :
    (b.define r).Describes (c.store r.name entry (r.name = Machine.unknownName)) := by
  obtain ⟨map, hshows, hkeys⟩ := h
  have hmem := mem_map_iff hkeys r
  by_cases hr : r = .unknown
  · have hname : r.name = Machine.unknownName := by
      rw [hr]
      rfl
    rw [define, if_pos hr, decide_eq_true hname]
    refine ⟨_, hshows.store r.name entry true, ?_⟩
    show ((∅ : Cache.Plain Resolution).insert r.name entry).keys = _
    rw [Cache.keys_insert, Finmap.keys_empty]
    exact (Finset.image_singleton _ _).symm
  · have hname : r.name ≠ Machine.unknownName := fun e =>
      hr (Role.name_injective (show r.name = Role.unknown.name from e))
    -- any other command replaces its own entry only
    have hstored := hshows.store r.name entry false
    have hevents : (Cache.Op.store r.name entry false).events map =
        [if r ∈ b.known then .change else .add] := by
      show [if r.name ∈ map then Counter.change else .add] = _
      simp only [hmem]
    rw [hevents] at hstored
    rw [define, if_neg hr, decide_eq_false hname]
    refine ⟨_, hstored, ?_⟩
    show (map.insert r.name entry).keys = _
    rw [Cache.keys_insert, hkeys]
    exact (Finset.image_insert _ _ _).symm

/-- Moving a command that does not handle unknown names moves its entry. -/
theorem rename (h : b.Describes c) {old new : Role W} (hold : old ≠ .unknown)
    (hnew : new ≠ .unknown) (entry : Option Resolution) :
    (b.move old new).Describes (c.rename old.name new.name entry
      (old.name = Machine.unknownName ∨ new.name = Machine.unknownName)) := by
  obtain ⟨map, hshows, hkeys⟩ := h
  have hmem := mem_map_iff hkeys old
  -- neither name is the one whose move drops everything
  have hnames : ¬ (old.name = Machine.unknownName ∨ new.name = Machine.unknownName) := by
    rintro (e | e)
    · exact hold (Role.name_injective (show old.name = Role.unknown.name from e))
    · exact hnew (Role.name_injective (show new.name = Role.unknown.name from e))
  have hrenamed := hshows.rename old.name new.name entry false
  have hevents : (Cache.Op.rename old.name new.name entry false).events map =
      (if old ∈ b.known then [.remove] else []) ++ [.add] := by
    show (if old.name ∈ map then [Counter.remove] else []) ++ [.add] = _
    simp only [hmem]
  rw [hevents] at hrenamed
  rw [move, decide_eq_false hnames]
  refine ⟨_, hrenamed, ?_⟩
  show ((map.erase old.name).insert new.name entry).keys = _
  rw [Cache.keys_insert, Finmap.keys_erase, hkeys]
  -- erasing before taking names is erasing after, as no two roles share one
  have herase : (b.known.erase old).image Role.name = (b.known.image Role.name).erase old.name :=
    Finset.image_erase (fun _ _ => Role.name_injective) _ _
  rw [← herase]
  exact (Finset.image_insert _ _ _).symm

end Describes

end Books

/-! ### The books after rounds -/

namespace Books

variable {b : Books 1}

/-- What one round asks the cache for, the last but two within the procedure that it calls. -/
def asked (b : Books 1) : Books 1 :=
  ((((b.ask .set).ask .bump).ask .incr).ask (.square 0)).ask (.probe 0)

/-- What one churn makes of the books. -/
def churned (b : Books 1) : Books 1 :=
  (((b.define (.square 0)).move (.square 0) (.spare 0)).move (.spare 0) (.square 0)).define .unknown

/-- The names that are cached after a round. -/
def familiar : Finset (Role 1) := {.unknown, .set, .bump, .incr, .square 0, .probe 0}

/-- The events of a round that finds none of its five names, or all of them. -/
def roundEvents (cold : Bool) : List Counter :=
  (List.replicate 5 (if cold then [.notFound, .add] else [.found])).flatten

/-- The events of a churn. -/
def churnEvents : List Counter := [.change, .remove, .add, .remove, .add, .clear, .add]

/-- What a round counts, cold or warm. -/
theorem count_roundEvents (cold : Bool) (e : Counter) : (roundEvents cold).count e =
    if cold then (if e = .notFound ∨ e = .add then 5 else 0) else if e = .found then 5 else 0 := by
  cases cold <;> cases e <;> rfl

theorem count_churnEvents (e : Counter) : churnEvents.count e =
    if e = .add then 3 else if e = .remove then 2 else if e = .change ∨ e = .clear then 1 else 0 := by
  cases e <;> rfl

section

variable (b)

theorem turn_nil : b.turn b.known [] = b := rfl

variable {known : Finset (Role 1)} (events : List Counter) {r : Role 1}

/-- Two turns make one, which ends where the second does and counts the events of both. -/
theorem turn_turn (known known' : Finset (Role 1)) (events events' : List Counter) :
    (b.turn known events).turn known' events' = b.turn known' (events ++ events') := by
  rw [turn, turn, turn, Counter.tallied_tallied]

theorem ask_turn_of_mem (h : r ∈ known) :
    (b.turn known events).ask r = b.turn known (events ++ [.found]) := by
  rw [← b.turn_turn known known]
  exact if_pos h

/-- A name that is not known is looked for in vain and then added. -/
theorem ask_turn_of_notMem (h : r ∉ known) :
    (b.turn known events).ask r = b.turn (insert r known) (events ++ [.notFound, .add]) := by
  rw [← b.turn_turn known]
  exact if_neg h

/-- Defining a command again changes its entry. -/
theorem define_turn_of_mem (hr : r ≠ .unknown) (h : r ∈ known) :
    (b.turn known events).define r = b.turn known (events ++ [.change]) := by
  have hknown : insert r known = known := Finset.insert_eq_of_mem h
  rw [← b.turn_turn known known, define, if_neg hr]
  show (b.turn known events).turn (insert r known) [if r ∈ known then .change else .add] = _
  rw [hknown, if_pos h]

theorem define_turn_of_notMem (hr : r ≠ .unknown) (h : r ∉ known) :
    (b.turn known events).define r = b.turn (insert r known) (events ++ [.add]) := by
  rw [← b.turn_turn known, define, if_neg hr]
  show (b.turn known events).turn (insert r known) [if r ∈ known then .change else .add] = _
  rw [if_neg h]

/-- A handler of unknown names is the only one known afterwards. -/
theorem define_turn_unknown :
    (b.turn known events).define .unknown = b.turn {.unknown} (events ++ [.clear, .add]) := by
  rw [← b.turn_turn known]
  exact if_pos rfl

/-- Moving a known name counts as removing it and adding the other. -/
theorem move_turn_of_mem (h : r ∈ known) (new : Role 1) : (b.turn known events).move r new =
    b.turn (insert new (known.erase r)) (events ++ [.remove, .add]) := by
  rw [← b.turn_turn known, move]
  show (b.turn known events).turn _ ((if r ∈ known then [.remove] else []) ++ [.add]) = _
  rw [if_pos h]
  rfl

end

/-- A round that finds nothing. -/
theorem asked_cold (h : b.known = {.unknown}) :
    b.asked = b.turn familiar (roundEvents true) := by
  have hfamiliar : familiar = insert (.probe 0) (insert (.square 0) (insert .incr
      (insert .bump (insert .set {.unknown})))) := by decide
  rw [← b.turn_nil, h, asked, ask_turn_of_notMem _ _ (by decide), ask_turn_of_notMem _ _ (by decide),
    ask_turn_of_notMem _ _ (by decide), ask_turn_of_notMem _ _ (by decide),
    ask_turn_of_notMem _ _ (by decide), turn_turn, hfamiliar]
  rfl

/-- A round that finds everything. -/
theorem asked_warm (h : b.known = familiar) : b.asked = b.turn familiar (roundEvents false) := by
  rw [← b.turn_nil, h, asked, ask_turn_of_mem _ _ (by decide), ask_turn_of_mem _ _ (by decide),
    ask_turn_of_mem _ _ (by decide), ask_turn_of_mem _ _ (by decide),
    ask_turn_of_mem _ _ (by decide), turn_turn]
  rfl

/-- A churn changes one entry, moves it away and back, and drops everything in the end. -/
theorem churned_familiar (h : b.known = familiar) :
    b.churned = b.turn {.unknown} churnEvents := by
  rw [← b.turn_nil, h, churned, define_turn_of_mem _ _ (by decide) (by decide),
    move_turn_of_mem _ _ (by decide), move_turn_of_mem _ _ (by decide), define_turn_unknown, turn_turn]
  rfl

end Books

/-- In how many of the first `i` rounds the cache has none of the names, if everything is dropped after
every `c`th round. -/
def misses (c i : Nat) : Nat := if c = 0 then min i 1 else (i + c - 1) / c

/-- Round `i` finds none of its names just if `c` divides `i`, when everything was dropped before
it. -/
theorem misses_succ (c i : Nat) : misses c (i + 1) = misses c i + if c ∣ i then 1 else 0 := by
  unfold misses
  rcases Nat.eq_zero_or_pos c with rfl | hc
  · simp only [if_true, Nat.zero_dvd]
    split <;> omega
  · have hne : c ≠ 0 := by omega
    have hnext (j : Nat) : (j + 1 + c - 1) / c = j / c + 1 := by
      rw [Nat.add_right_comm, Nat.add_sub_cancel, Nat.add_div_right _ hc]
    rw [if_neg hne, if_neg hne, hnext]
    -- the ceiling for `j + 1` is one more than `j / c`, which grows where `c` divides `j + 1`
    cases i with
    | zero => simp [Nat.div_eq_of_lt (show c - 1 < c by omega)]
    | succ j => rw [hnext, Nat.succ_div, Nat.add_right_comm]

theorem misses_le (c i : Nat) : misses c i ≤ i := by
  induction i with
  | zero =>
    rw [misses]
    split
    · exact Nat.min_le_left 0 1
    · exact Nat.le_of_eq (Nat.div_eq_of_lt (by omega))
  | succ i ih =>
    rw [misses_succ]
    split <;> omega

/-- How many events of each kind there are after `i` rounds with a churn at the end of every `c`th. -/
def countsAt (c i : Nat) : Counter → Nat
  | .found => 5 * (i - misses c i)
  | .notFound => 5 * misses c i
  | .add => 3 + 5 * misses c i + 3 * (i / c)
  | .change => i / c
  | .remove => 2 * (i / c)
  | .clear => 1 + i / c

/-- The books after `i` rounds. -/
def booksAt (c i : Nat) : Books 1 := ⟨if c ∣ i then {.unknown} else Books.familiar, countsAt c i⟩

/-- Another round adds its events, and those of a churn if there is one at its end. -/
theorem countsAt_succ (c i : Nat) : countsAt c (i + 1) = Counter.tallied (countsAt c i)
    (Books.roundEvents (c ∣ i) ++ if c ∣ i + 1 then Books.churnEvents else []) := by
  have hmisses := misses_succ c i
  have hle := misses_le c i
  have hdiv : (i + 1) / c = i / c + if c ∣ i + 1 then 1 else 0 := Nat.succ_div
  funext e
  rw [Counter.tallied, List.count_append, Books.count_roundEvents]
  -- the four kinds of rounds: cold or warm, and with a churn or without
  by_cases hi : c ∣ i <;> by_cases hnext : c ∣ i + 1
  all_goals
    simp only [hi, hnext, if_true, if_false, decide_true, decide_false, Bool.false_eq_true,
      Books.count_churnEvents, List.count_nil] at hmisses hdiv ⊢
    cases e <;> simp only [countsAt, hmisses, hdiv, reduceCtorEq, or_true, or_false, if_true, if_false]
  all_goals omega

/-- Whichever way a round starts, the same names are known after it. -/
theorem asked_booksAt (c i : Nat) :
    (booksAt c i).asked = (booksAt c i).turn Books.familiar (Books.roundEvents (c ∣ i)) := by
  by_cases h : c ∣ i
  · rw [decide_eq_true h]
    exact Books.asked_cold (if_pos h)
  · rw [decide_eq_false h]
    exact Books.asked_warm (if_neg h)

/-- The books after another round, without a churn or with one. -/
theorem booksAt_succ (c i : Nat) : booksAt c (i + 1) =
    if c ∣ i + 1 then (booksAt c i).asked.churned else (booksAt c i).asked := by
  rw [booksAt, countsAt_succ, asked_booksAt]
  split
  · rw [Books.churned_familiar rfl, Books.turn_turn]
    rfl
  · rw [List.append_nil]
    rfl

end LoadGenerator

end CommandHost
