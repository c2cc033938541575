/-
CommandHost/Proofs/Merging.lean

Counters that are added up come to the same in any order.

Arrays of counters are merged place by place, and the longer of two gives the length, so
the stored array may grow on the way.  What one change adds to a place (`Op.gain`) and
the length it asks for (`Op.reach`) do not depend on the counters it meets; arrays that
are missing or refused add nothing and ask for nothing.  A change so moves every place by
its gain (`apply_grown`), and any number of them by the sum of the gains (`after_grown`).
The sum and the greatest length do not see the order, so neither does the array.

A place beyond the end of an array counts as zero throughout, which is why the two lengths
never have to be compared.
-/
import CommandHost.Statistics
import Mathlib.Algebra.BigOperators.Group.List.Basic
import Mathlib.Algebra.Order.Ring.Int

namespace CommandHost

namespace Statistics

/-! ### What a change adds -/

/-- The changes that only add: merging an array, and counting at a place below the named counters'
number. -/
def Op.Additive : Op → Prop
  | bump i => i < Counter.count
  | zero => False
  | assign _ merge => merge = true

/-- What a change adds to the counter at a place. -/
def Op.gain (i : Nat) : Op → Int
  | bump k => if k = i then 1 else 0
  | assign (some a) true => if a.size < Counter.count then 0 else (a[i]?.getD 0).toInt
  | _ => 0

/-- The length of the array that a change merges, zero if there is none. -/
def Op.reach : Op → Nat
  | assign (some a) true => if a.size < Counter.count then 0 else a.size
  | _ => 0

/-- The counters after changes one after the other. -/
def after (s : Statistics) (ops : List Op) : Statistics := ops.foldl (fun s op => (s.apply op).2) s

/-! ### Arrays -/

/-- The sum is as long as the longer array. -/
theorem size_sum (a b : Array Int64) : (sum a b).size = max a.size b.size := by
  simp [sum]

/-- Where one array ends, the other one counts alone. -/
theorem getD_sum (a b : Array Int64) (i : Nat) :
    (sum a b)[i]?.getD 0 = a[i]?.getD 0 + b[i]?.getD 0 := by
  by_cases hi : i < max a.size b.size
  · simp [sum, hi]
  · have hsum : (sum a b)[i]? = none := by
      rw [Array.getElem?_eq_none_iff, size_sum]
      omega
    have ha : a[i]? = none := Array.getElem?_eq_none (by omega)
    have hb : b[i]? = none := Array.getElem?_eq_none (by omega)
    simp [hsum, ha, hb]

theorem getD_modify_succ {a : Array Int64} {k : Nat} (hk : k < a.size) (i : Nat) :
    (a.modify k (· + 1))[i]?.getD 0 = a[i]?.getD 0 + if k = i then 1 else 0 := by
  rw [Array.getElem?_modify]
  split
  · rename_i h
    subst h
    simp [hk]
  · simp

/-- Arrays of one length with the same counters. -/
theorem array_ext {a b : Array Int64} (hsize : a.size = b.size)
    (h : ∀ i : Nat, a[i]?.getD 0 = b[i]?.getD 0) : a = b := by
  refine Array.ext hsize fun i hi hi' => ?_
  simpa [hi, hi'] using h i

/-! ### One change -/

/-- The array has grown to a length, and its counters by the given numbers, modulo 2^64. -/
structure Grown (a b : Array Int64) (size : Nat) (gain : Nat → Int) : Prop where
  size_eq : b.size = max a.size size
  counter : ∀ i : Nat, b[i]?.getD 0 = a[i]?.getD 0 + Int64.ofInt (gain i)

theorem Grown.refl (a : Array Int64) : Grown a a 0 fun _ => 0 where
  size_eq := by simp
  counter i := by simp

theorem Grown.trans {a b c : Array Int64} {size size' : Nat} {gain gain' : Nat → Int}
    (h : Grown a b size gain) (h' : Grown b c size' gain') :
    Grown a c (max size size') fun i => gain i + gain' i where
  size_eq := by rw [h'.size_eq, h.size_eq, max_assoc]
  counter i := by rw [h'.counter, h.counter, Int64.ofInt_add, Int64.add_assoc]

/-- What has grown by the same amounts is the same. -/
theorem Grown.unique {a b c : Array Int64} {size : Nat} {gain : Nat → Int}
    (h : Grown a b size gain) (h' : Grown a c size gain) : b = c :=
  array_ext (h.size_eq.trans h'.size_eq.symm) fun i => (h.counter i).trans (h'.counter i).symm

theorem grown_bump {a : Array Int64} {k : Int} (hk : 0 ≤ k) (hlt : k < a.size) :
    Grown a (a.modify k.toNat (· + 1)) 0 (Op.gain · (.bump k)) where
  size_eq := by simp
  counter i := by
    have hplace : k.toNat = i ↔ k = i := by omega
    rw [getD_modify_succ (by omega), Op.gain]
    simp only [hplace]
    split <;> rfl

/-- Merging adds what the other counters have. -/
theorem grown_merge (a : Array Int64) {b : Array Int64} (hb : ¬ b.size < Counter.count) :
    Grown a (sum a b) b.size (Op.gain · (.assign (some b) true)) where
  size_eq := size_sum a b
  counter i := by
    rw [getD_sum, Op.gain, if_neg hb, Int64.ofInt_toInt]

/-- A missing array, and one that is too short, change nothing; the second is refused. -/
theorem apply_assign_of_short (s : Statistics) {counts : Option (Array Int64)}
    (h : ∀ a, counts = some a → a.size < Counter.count) :
    s.apply (.assign counts true) = (counts.isNone, s) := by
  cases counts with
  | none => rfl
  | some a => simp [apply, assign?, h a rfl]

variable {s : Statistics} {a : Array Int64}

/-- A change that adds moves every counter by its gain. -/
theorem apply_grown (hs : s.counts = some a) (ha : Counter.count ≤ a.size) {op : Op}
    (hop : op.Additive) :
    ∃ b, (s.apply op).2.counts = some b ∧ Grown a b op.reach (Op.gain · op) := by
  cases op with
  | bump k =>
    by_cases hk : 0 ≤ k
    · have hlt : k < a.size := lt_of_lt_of_le hop (by exact_mod_cast ha)
      have hhas : s.has k = true := by simp [has, values, hs, hk, hlt]
      refine ⟨a.modify k.toNat (· + 1), ?_, grown_bump hk hlt⟩
      simp [apply, bump, hhas, hs]
    · -- a negative place is no place of the array
      have hhas : s.has k = false := by simp [has, hk]
      have hgain : (Op.gain · (.bump k)) = fun _ => 0 := by
        funext i
        exact if_neg (by omega)
      refine ⟨a, ?_, hgain ▸ Grown.refl a⟩
      simp [apply, bump, hhas, hs]
  | zero => exact hop.elim
  | assign counts merge =>
    obtain rfl : merge = true := hop
    cases counts with
    | none => exact ⟨a, hs, Grown.refl a⟩
    | some b =>
      by_cases hb : b.size < Counter.count
      · have hgain : (Op.gain · (.assign (some b) true)) = fun _ => 0 := by
          funext i
          exact if_pos hb
        have hshort : ∀ a, some b = some a → a.size < Counter.count := by
          rintro _ ⟨⟩
          exact hb
        rw [apply_assign_of_short s hshort, hgain, Op.reach, if_pos hb]
        exact ⟨a, hs, Grown.refl a⟩
      · refine ⟨sum a b, ?_, ?_⟩
        · simp [apply, assign?, hb, values, hs]
        · rw [Op.reach, if_neg hb]
          exact grown_merge a hb

/-! ### Any number of changes -/

/-- Changes that add move every counter by the sum of their gains. -/
theorem after_grown (hs : s.counts = some a) (ha : Counter.count ≤ a.size) {ops : List Op}
    (hops : ∀ op ∈ ops, op.Additive) :
    ∃ b, (s.after ops).counts = some b ∧
      Grown a b ((ops.map Op.reach).foldr max 0) fun i => (ops.map (Op.gain i)).sum := by
  induction ops generalizing s a with
  | nil => exact ⟨a, hs, Grown.refl a⟩
  | cons op ops ih =>
    obtain ⟨hop, hops⟩ := List.forall_mem_cons.1 hops
    obtain ⟨b, hb, hfirst⟩ := apply_grown hs ha hop
    -- the array has not become shorter, so the next change finds one that is long enough
    have hlong : Counter.count ≤ b.size := by
      rw [hfirst.size_eq]
      omega
    obtain ⟨c, hc, hrest⟩ := ih hb hlong hops
    refine ⟨c, hc, ?_⟩
    simpa using hfirst.trans hrest

/-- **Merging does not depend on the order.**  Let statistics hold an array with at least the named
counters, and let any arrays be merged into it and any named counters be counted up, one after the
other.  Then there is an array in the end, as long as the longest one involved; each counter is the
64-bit sum of its start, of what the accepted arrays have in its place, and of one for each time it was
counted up; and any other order of the same changes ends with the same statistics.  A missing array and
one that is too short change nothing whatever they meet, and the latter is refused. -/
theorem merging_order_independent (hs : s.counts = some a) (ha : Counter.count ≤ a.size)
    {ops : List Op} (hops : ∀ op ∈ ops, op.Additive) :
    (∃ b, (s.after ops).counts = some b ∧ b.size = (ops.map Op.reach).foldr max a.size ∧
      ∀ i (hi : i < b.size),
        b[i] = Int64.ofInt ((a[i]?.getD 0).toInt + (ops.map (Op.gain i)).sum)) ∧
    (∀ ops' : List Op, ops'.Perm ops → s.after ops' = s.after ops) ∧
    ∀ (t : Statistics) (counts : Option (Array Int64)),
      (∀ b, counts = some b → b.size < Counter.count) →
      t.apply (.assign counts true) = (counts.isNone, t) := by
  obtain ⟨b, hb, hgrown⟩ := after_grown hs ha hops
  refine ⟨⟨b, hb, ?_, fun i hi => ?_⟩, fun ops' hperm => ?_, fun t _ h => apply_assign_of_short t h⟩
  · rw [hgrown.size_eq]
    induction ops.map Op.reach with
    | nil => exact Nat.max_zero a.size
    | cons n ns ih => rw [List.foldr_cons, List.foldr_cons, ← ih, max_left_comm]
  · have hcounter := hgrown.counter i
    rw [getElem?_pos b i hi, Option.getD_some] at hcounter
    rw [hcounter, Int64.ofInt_add, Int64.ofInt_toInt]
  · obtain ⟨c, hc, hgrown'⟩ :=
      after_grown hs ha fun op hop => hops op (hperm.mem_iff.1 hop)
    -- neither the greatest length nor the sum of the gains sees the order
    have hreach : (ops'.map Op.reach).foldr max 0 = (ops.map Op.reach).foldr max 0 :=
      (hperm.map Op.reach).foldr_eq 0
    have hgain : (fun i => (ops'.map (Op.gain i)).sum) = fun i => (ops.map (Op.gain i)).sum :=
      funext fun i => (hperm.map (Op.gain i)).sum_eq
    rw [hreach, hgain] at hgrown'
    have hcounts : (s.after ops').counts = (s.after ops).counts := by
      rw [hc, hb, hgrown'.unique hgrown]
    exact congrArg Statistics.mk hcounts

/-- The first counter stands at its limit and is counted up between two arrays of different lengths,
with a missing and a short array in between: it wraps around in either order. -/
theorem merging_order_independent_wrapping :
    let s : Statistics := ⟨some #[9223372036854775807, 0, 0, 0, 0, 0]⟩
    let long : Op := .assign (some #[1, 2, 3, 4, 5, 6, 7, 8]) true
    let ops : List Op := [long, .assign none true, .bump 0, .assign (some #[5]) true, .bump 5]
    (s.after ops).counts = some #[-9223372036854775807, 2, 3, 4, 5, 7, 7, 8] ∧
      s.after [.bump 5, .assign (some #[5]) true, .bump 0, .assign none true, long] = s.after ops := by
  intro s long ops
  have hops : ∀ op ∈ ops, op.Additive := by
    simp [ops, long, Op.Additive, Counter.count]
  obtain ⟨-, horder, -⟩ :=
    merging_order_independent (s := s) (a := #[9223372036854775807, 0, 0, 0, 0, 0]) rfl (by decide) hops
  exact ⟨by decide +kernel, horder _ (List.reverse_perm ops)⟩

end Statistics

end CommandHost
