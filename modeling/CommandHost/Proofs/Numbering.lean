/-
CommandHost/Proofs/Numbering.lean

Native threads are numbered in the order in which they first appear.

The threads that have appeared, each once and in order of first appearance, are
`natives.eraseDups`, where `natives` are all threads that were looked up so far.  A
registry that has answered these lookups (`Numbers`) knows exactly these threads, each
under its place in that list.  Another lookup can only make the list longer at its end,
so no place ever changes (`place_append`), and a run of any length keeps to the
numbering (`Numbers.lookups`).

The registry counts in 64 bits.  `idAt` counts with it, and only the last steps ask for
fewer than 2^63 lookups.
-/
import CommandHost.Context
import Mathlib.Algebra.Order.Ring.Int
import Mathlib.Data.Finset.Card

namespace CommandHost

/-! ### First appearances -/

section FirstAppearances

variable {α β : Type} [DecidableEq α] [DecidableEq β]

/-- Another element is the last one, unless it was there before. -/
theorem eraseDups_concat (l : List α) (a : α) :
    (l ++ [a]).eraseDups = if a ∈ l then l.eraseDups else l.eraseDups ++ [a] := by
  rw [List.eraseDups_append]
  by_cases ha : a ∈ l <;> simp [List.removeAll, List.eraseDups_cons, ha]

theorem nodup_eraseDups (l : List α) : l.eraseDups.Nodup := by
  induction l using List.reverseRecOn with
  | nil => simp
  | append_singleton l a ih =>
    rw [eraseDups_concat]
    split
    · exact ih
    · rename_i ha
      rw [← List.concat_eq_append]
      exact ih.concat (by simpa using ha)

/-- As many as there are different ones. -/
theorem length_eraseDups (l : List α) : l.eraseDups.length = l.toFinset.card := by
  rw [← List.toFinset_card_of_nodup (nodup_eraseDups l)]
  congr 1
  ext a
  simp

theorem length_eraseDups_le (l : List α) : l.eraseDups.length ≤ l.length := by
  rw [length_eraseDups]
  exact l.toFinset_card_le

/-- Names that tell apart what they name appear in the order of what they name. -/
theorem eraseDups_map {f : α → β} {l : List α} (hf : ∀ a ∈ l, ∀ b ∈ l, f a = f b → a = b) :
    (l.map f).eraseDups = l.eraseDups.map f := by
  induction l using List.reverseRecOn with
  | nil => simp
  | append_singleton l a ih =>
    -- the name is new just if what it names is
    have hmem : f a ∈ l.map f ↔ a ∈ l := by
      refine ⟨fun h => ?_, List.mem_map_of_mem⟩
      obtain ⟨b, hb, hba⟩ := List.mem_map.1 h
      rwa [← hf b (by simp [hb]) a (by simp) hba]
    have ih := ih fun b hb c hc => hf b (by simp [hb]) c (by simp [hc])
    rw [List.map_append, List.map_singleton, eraseDups_concat, eraseDups_concat, ih]
    simp only [hmem]
    split <;> simp

/-- The places of a list's elements, where none stands twice. -/
theorem map_idxOf_self {l : List α} (hl : l.Nodup) : l.map (l.idxOf ·) = List.range l.length := by
  refine List.ext_getElem (by simp) fun i hi _ => ?_
  simp [hl.idxOf_getElem]

end FirstAppearances

namespace Registry

/-! ### Runs -/

/-- Looks up native threads one after another, and gives their ids in that order. -/
def lookups (r : Registry) : List Int → List ThreadId × Registry
  | [] => ([], r)
  | native :: natives =>
    let rest := (r.lookup native).2.lookups natives
    ((r.lookup native).1 :: rest.1, rest.2)

/-! ### Places and ids -/

/-- The id of the thread that appeared after `k` others, as a 64-bit number. -/
def idAt (k : Nat) : ThreadId := (Int64.ofNat (k + 1)).toInt

/-- How many other threads had appeared when a thread did. -/
def place (natives : List Int) (native : Int) : Nat := natives.eraseDups.idxOf native

/-- Numbers up to 2^63 are told apart, also where the last one wraps around. -/
theorem toInt_ofNat_inj {m n : Nat} (hm : m ≤ 2 ^ 63) (hn : n ≤ 2 ^ 63)
    (h : (Int64.ofNat m).toInt = (Int64.ofNat n).toInt) : m = n := by
  rw [Int64.toInt_ofNat', Int64.toInt_ofNat'] at h
  unfold Int.bmod at h
  simp only [Int64.size] at h
  omega

theorem idAt_of_lt {k : Nat} (hk : k + 1 < 2 ^ 63) : idAt k = k + 1 := by
  rw [idAt, Int64.toInt_ofNat_of_lt hk]
  rfl

theorem idAt_pos {k : Nat} (hk : k + 1 < 2 ^ 63) : 0 < idAt k := by
  rw [idAt_of_lt hk]
  exact Int.natCast_succ_pos k

/-- Different places have different ids, as long as the counter does not come round. -/
theorem idAt_inj {k l : Nat} (hk : k < 2 ^ 63) (hl : l < 2 ^ 63) : idAt k = idAt l ↔ k = l := by
  refine ⟨fun h => ?_, congrArg idAt⟩
  have := toInt_ofNat_inj (m := k + 1) (n := l + 1) (by omega) (by omega) h
  omega

/-- No id is zero. -/
theorem idAt_ne_zero {k : Nat} (hk : k < 2 ^ 63) : idAt k ≠ 0 := by
  intro h
  have := toInt_ofNat_inj (m := k + 1) (n := 0) (by omega) (by omega) h
  omega

variable {natives : List Int} {native : Int}

/-- Later appearances leave the place of a thread as it is. -/
theorem place_append (h : native ∈ natives) (more : List Int) :
    place (natives ++ more) native = place natives native := by
  rw [place, List.eraseDups_append]
  exact List.idxOf_append_of_mem (List.mem_eraseDups.2 h)

/-- A new thread comes after all that have appeared. -/
theorem place_concat_of_notMem (h : native ∉ natives) :
    place (natives ++ [native]) native = natives.eraseDups.length := by
  have h' : native ∉ natives.eraseDups := mt List.mem_eraseDups.1 h
  rw [place, eraseDups_concat, if_neg h, List.idxOf_append_of_notMem h', List.idxOf_cons_self]
  rfl

theorem place_inj {other : Int} (h : native ∈ natives) :
    place natives native = place natives other ↔ native = other :=
  List.idxOf_inj (List.mem_eraseDups.2 h)

theorem place_lt (h : native ∈ natives) : place natives native < natives.length :=
  lt_of_lt_of_le (List.idxOf_lt_length_of_mem (List.mem_eraseDups.2 h)) (length_eraseDups_le natives)

/-- So different threads have different ids. -/
theorem idAt_place_inj (hfew : natives.length ≤ 2 ^ 63) {other : Int} (h : native ∈ natives)
    (h' : other ∈ natives) :
    idAt (place natives native) = idAt (place natives other) ↔ native = other := by
  have hplace := place_lt h
  have hplace' := place_lt h'
  rw [idAt_inj (by omega) (by omega), place_inj h]

/-- The ids of the threads that have appeared, in that order. -/
theorem map_idAt_place (hfew : natives.length < 2 ^ 63) :
    natives.eraseDups.map (fun native => idAt (place natives native)) =
      (List.range natives.eraseDups.length).map (fun k : Nat => (k : ThreadId) + 1) := by
  rw [← map_idxOf_self (nodup_eraseDups natives), List.map_map]
  refine List.map_congr_left fun native hmem => ?_
  have hplace := place_lt (List.mem_eraseDups.1 hmem)
  exact idAt_of_lt (by omega)

/-! ### What a registry has answered -/

/-- The registry has given ids to the threads of a list and to no others, in order of first
appearance. -/
structure Numbers (r : Registry) (natives : List Int) : Prop where
  next : r.next = Int64.ofNat natives.eraseDups.length
  id : ∀ native, r.ids.get? native =
    if native ∈ natives then some (idAt (place natives native)) else none

/-- A new registry has answered no lookups. -/
theorem numbers_empty : Numbers {} [] where
  next := rfl
  id _ := rfl

namespace Numbers

variable {r : Registry}

/-- A registry has as many entries as threads have appeared. -/
theorem size (h : r.Numbers natives) : r.size = natives.toFinset.card := by
  -- the keys are the threads, each of them once
  have hkeys : r.ids.keys.toFinset = natives.toFinset := by
    ext native
    rw [List.mem_toFinset, List.mem_toFinset, r.ids.mem_keys_iff, h.id]
    by_cases hmem : native ∈ natives <;> simp [hmem]
  have hdistinct : r.ids.keys.Nodup := r.ids.distinct
  rw [← hkeys, List.toFinset_card_of_nodup hdistinct, Table.keys, List.length_map]
  rfl

/-- A known thread appears once more, which changes neither the threads nor their places. -/
theorem concat_of_mem (h : r.Numbers natives) (hmem : native ∈ natives) :
    r.Numbers (natives ++ [native]) := by
  have hthreads : (natives ++ [native]).eraseDups = natives.eraseDups := by
    rw [eraseDups_concat, if_pos hmem]
  refine ⟨by rw [hthreads, h.next], fun k => ?_⟩
  rw [h.id k, place, place, hthreads]
  by_cases hk : k = native <;> simp [hk, hmem]

/-- A thread that is new comes last. -/
theorem concat_of_notMem (h : r.Numbers natives) (hmem : native ∉ natives) :
    Numbers ⟨r.ids.insert native (r.next + 1).toInt, r.next + 1⟩ (natives ++ [native]) := by
  have hnext : r.next + 1 = Int64.ofNat (natives.eraseDups.length + 1) := by
    rw [h.next, Int64.ofNat_add]
    rfl
  refine ⟨?_, fun k => ?_⟩
  · rw [eraseDups_concat, if_neg hmem, List.length_append]
    exact hnext
  · -- the new thread, one that is known, and one that is not
    rw [Table.get?_insert, h.id]
    by_cases hk : k = native
    · subst hk
      rw [if_pos rfl, if_pos (by simp), place_concat_of_notMem hmem, hnext]
      rfl
    · by_cases hknown : k ∈ natives
      · rw [if_neg hk, if_pos hknown, if_pos (by simp [hknown]), place_append hknown]
      · rw [if_neg hk, if_neg hknown, if_neg (by simp [hk, hknown])]

/-- A lookup answers with the place of the thread among those that have appeared by then. -/
theorem lookup (h : r.Numbers natives) (native : Int) :
    (r.lookup native).1 = idAt (place (natives ++ [native]) native) ∧
      (r.lookup native).2.Numbers (natives ++ [native]) := by
  have hid := h.id native
  by_cases hmem : native ∈ natives
  · rw [if_pos hmem] at hid
    simp only [Registry.lookup, hid]
    exact ⟨by rw [place_append hmem], h.concat_of_mem hmem⟩
  · rw [if_neg hmem] at hid
    have hnew := h.concat_of_notMem hmem
    -- the registry answers with what it has just written down
    have hanswer := hnew.id native
    rw [Table.get?_insert, if_pos rfl, if_pos (by simp)] at hanswer
    simp only [Registry.lookup, hid]
    exact ⟨Option.some.inj hanswer, hnew⟩

/-- Lookups answer with the places of their threads among all that appear, also later ones. -/
theorem lookups (h : r.Numbers natives) (more : List Int) :
    (r.lookups more).1 = more.map (fun native => idAt (place (natives ++ more) native)) ∧
      (r.lookups more).2.Numbers (natives ++ more) := by
  induction more generalizing r natives with
  | nil =>
    rw [List.append_nil]
    exact ⟨rfl, h⟩
  | cons native more ih =>
    obtain ⟨hfirst, hnext⟩ := h.lookup native
    obtain ⟨hrest, hlast⟩ := ih hnext
    rw [List.append_cons]
    refine ⟨?_, hlast⟩
    rw [Registry.lookups, List.map_cons, place_append (by simp), ← hfirst, ← hrest]

/-- A lookup gives the id of a known thread to that thread only. -/
theorem lookup_eq_iff (h : r.Numbers natives) (hfew : natives.length < 2 ^ 63) {known : Int}
    (hknown : known ∈ natives) (native : Int) :
    (r.lookup native).1 = idAt (place natives known) ↔ native = known := by
  have hroom : (natives ++ [native]).length ≤ 2 ^ 63 := by
    rw [List.length_append]
    exact hfew
  rw [(h.lookup native).1, ← place_append hknown [native],
    idAt_place_inj hroom (by simp) (by simp [hknown])]

/-- A lookup never gives the id of a detached context. -/
theorem lookup_ne_zero (h : r.Numbers natives) (hfew : natives.length < 2 ^ 63) (native : Int) :
    (r.lookup native).1 ≠ 0 := by
  have hplace : place (natives ++ [native]) native < _ := place_lt (by simp)
  rw [List.length_append, List.length_singleton] at hplace
  rw [(h.lookup native).1]
  exact idAt_ne_zero (by omega)

end Numbers

/-! ### The guard -/

/-- The guard compares the thread of the context with the one that asks. -/
theorem canUse_some_iff (r : Registry) (a : Affinity) (native : Int) :
    (r.canUse (some a) native).1 = true ↔ a.disposed = false ∧ a.thread = (r.lookup native).1 := by
  cases hd : a.disposed <;> simp [canUse, CommandHost.canUse, Affinity.canUse, hd]

namespace Numbers

variable {r : Registry} {σ φ : Type} {c : Context σ φ}

/-- A detached context carries the id that no thread has. -/
theorem not_canUse_of_detached (h : r.Numbers natives) (hfew : natives.length < 2 ^ 63)
    (hc : c.stage = .detached) (native : Int) : (r.canUse (some c.affinity) native).1 = false := by
  have hthread : c.thread = 0 := by
    unfold Context.stage at hc
    split at hc
    · cases hc
    · split at hc
      · assumption
      · cases hc
  rw [Bool.eq_false_iff, ne_eq, canUse_some_iff]
  rintro ⟨-, hsame⟩
  exact h.lookup_ne_zero hfew native (hsame.symm.trans hthread)

/-- A context that is not disposed can be used by its owner only. -/
theorem canUse_iff_owner (h : r.Numbers natives) (hfew : natives.length < 2 ^ 63) {owner : Int}
    (howner : owner ∈ natives) (hthread : c.thread = idAt (place natives owner))
    (hc : c.disposed = false) (native : Int) :
    (r.canUse (some c.affinity) native).1 = true ↔ native = owner := by
  rw [canUse_some_iff, ← h.lookup_eq_iff hfew howner, ← hthread]
  exact ⟨fun h => h.2.symm, fun hsame => ⟨hc, hsame.symm⟩⟩

end Numbers

/-! ### Any sequence of lookups -/

/-- **Ids are stable, distinct and positive.**  Let any native threads be looked up one after another,
fewer than 2^63 times, in a new registry.  Every lookup is answered; at any two points of the sequence
the ids are equal exactly if the threads are; the ids in order of first appearance are 1, 2, and so on
up to the size of the registry, which is the number of different threads; and no id is 0.  So a
detached context may be used by no thread whatever, and a context that carries an id and is not
disposed by the thread with that id only. -/
theorem ids_stable_and_distinct (natives : List Int) (hfew : natives.length < 2 ^ 63) :
    let ids := (lookups {} natives).1
    let r := (lookups {} natives).2
    ids.length = natives.length ∧
    (∀ i j : Nat, ids[i]? = ids[j]? ↔ natives[i]? = natives[j]?) ∧
    ids.eraseDups = (List.range r.size).map (fun k : Nat => (k : ThreadId) + 1) ∧
    r.size = natives.toFinset.card ∧
    (∀ id ∈ ids, 0 < id) ∧
    ∀ {σ φ : Type} (c : Context σ φ) (native : Int),
      (c.stage = .detached → (r.canUse (some c.affinity) native).1 = false) ∧
      ∀ i : Nat, ids[i]? = some c.thread → c.disposed = false →
        ((r.canUse (some c.affinity) native).1 = true ↔ natives[i]? = some native) := by
  intro ids r
  obtain ⟨hids, hr⟩ : ids = natives.map (fun native => idAt (place natives native)) ∧
      r.Numbers natives := numbers_empty.lookups natives
  have hid (i : Nat) : ids[i]? = natives[i]?.map fun native => idAt (place natives native) := by
    rw [hids, List.getElem?_map]
  -- there are fewer threads than numbers, so no two of them get the same one
  have hinj : ∀ a ∈ natives, ∀ b ∈ natives,
      idAt (place natives a) = idAt (place natives b) ↔ a = b :=
    fun a ha b hb => idAt_place_inj hfew.le ha hb
  refine ⟨by rw [hids, List.length_map], fun i j => ?_, ?_, hr.size, fun id hmem => ?_,
    fun c native => ⟨fun hc => hr.not_canUse_of_detached hfew hc native, fun i hi hc => ?_⟩⟩
  · rw [hid, hid]
    cases hi : natives[i]? with
    | none => cases hj : natives[j]? <;> simp
    | some a =>
      cases hj : natives[j]? with
      | none => simp
      | some b => simpa using hinj a (List.mem_of_getElem? hi) b (List.mem_of_getElem? hj)
  · rw [hids, eraseDups_map fun a ha b hb => (hinj a ha b hb).1, map_idAt_place hfew, hr.size,
      length_eraseDups]
  · rw [hids] at hmem
    obtain ⟨native, hnative, rfl⟩ := List.mem_map.1 hmem
    have hplace := place_lt hnative
    exact idAt_pos (by omega)
  · rw [hid, Option.map_eq_some_iff] at hi
    obtain ⟨owner, howner, hthread⟩ := hi
    rw [hr.canUse_iff_owner hfew (List.mem_of_getElem? howner) hthread.symm hc, howner,
      Option.some_inj, eq_comm]

/-- Three threads in turns, one of them with the native id 0.  The second one's context is its own until
it is freed, and nobody's from then on. -/
theorem ids_stable_and_distinct_in_turns :
    let natives : List Int := [4242, 0, 4242, -7, 0]
    let ids := (lookups {} natives).1
    let r := (lookups {} natives).2
    let c : Context String String := { thread := 2 }
    natives.length < 2 ^ 63 ∧ ids = [1, 2, 1, 3, 2] ∧
      (∀ i j : Nat, ids[i]? = ids[j]? ↔ natives[i]? = natives[j]?) ∧
      ids.eraseDups = [1, 2, 3] ∧ r.size = natives.toFinset.card ∧ r.size = 3 ∧
      (∀ native, (r.canUse (some c.affinity) native).1 = true ↔ native = 0) ∧
      c.free.2.stage = .detached ∧
      ∀ native, (r.canUse (some c.free.2.affinity) native).1 = false := by
  intro natives ids r c
  have hfew : natives.length < 2 ^ 63 := by decide
  obtain ⟨-, hstable, hfirst, hsize, -, hguard⟩ := ids_stable_and_distinct natives hfew
  refine ⟨hfew, by decide +kernel, hstable, hfirst, hsize, by decide +kernel, fun native => ?_, rfl,
    fun native => (hguard c.free.2 native).1 rfl⟩
  rw [(hguard c native).2 1 rfl rfl]
  exact Option.some_inj.trans eq_comm

end Registry

end CommandHost
