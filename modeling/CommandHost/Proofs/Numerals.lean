/-
CommandHost/Proofs/Numerals.lean

Numbers that are written read back as themselves.

A whole number is written as its decimal digits with an optional sign, and a character
that needs an escape as hexadecimal digits of a fixed width.  Both writers put the last
digit at the end and both readers take the first one first, so each proof cuts off the
last digit: reading is shown to pass through what stands in front of it.
-/
import CommandHost.Text.Blank
import CommandHost.Text.Quoted
import CommandHost.Text.Source

namespace CommandHost

/-! ### Letters and digits -/

namespace Text

/-- Letters and digits are in three ranges of codes. -/
theorem toNat_of_isAlphanum {c : Char} (h : c.isAlphanum = true) :
    48 ≤ c.toNat ∧ c.toNat ≤ 57 ∨ 65 ≤ c.toNat ∧ c.toNat ≤ 90 ∨ 97 ≤ c.toNat ∧ c.toNat ≤ 122 := by
  rcases Bool.or_eq_true_iff.1 (show (c.isAlpha || c.isDigit) = true from h) with h | h
  · rcases Bool.or_eq_true_iff.1 (show (c.isUpper || c.isLower) = true from h) with h | h
    · have hrange : 'A'.val ≤ c.val ∧ c.val ≤ 'Z'.val := of_decide_eq_true h
      exact .inr (.inl hrange)
    · obtain ⟨hlow, hhigh⟩ := Bool.and_eq_true_iff.1 h
      have hrange : 'a'.val ≤ c.val ∧ c.val ≤ 'z'.val :=
        ⟨of_decide_eq_true hlow, of_decide_eq_true hhigh⟩
      exact .inr (.inr hrange)
  · obtain ⟨hlow, hhigh⟩ := Bool.and_eq_true_iff.1 h
    have hrange : '0'.val ≤ c.val ∧ c.val ≤ '9'.val :=
      ⟨of_decide_eq_true hlow, of_decide_eq_true hhigh⟩
    exact .inl hrange

/-- A visible character of ASCII: no blank, no control character. -/
def IsVisible (c : Char) : Prop := 33 ≤ c.toNat ∧ c.toNat < 127

theorem isVisible_of_isAlphanum {c : Char} (h : c.isAlphanum = true) : IsVisible c := by
  have hcode := toNat_of_isAlphanum h
  unfold IsVisible
  omega

theorem IsVisible.ne {c d : Char} (hc : IsVisible c) (hd : ¬ IsVisible d) : c ≠ d := by
  rintro rfl
  exact hd hc

/-- All blanks are beyond the visible characters of ASCII or below them. -/
theorem IsVisible.isBlank {c : Char} (h : IsVisible c) : isBlank c = false := by
  obtain ⟨hlow, hhigh⟩ := h
  simp only [Text.isBlank, Bool.or_eq_false_iff, Bool.and_eq_false_iff, decide_eq_false_iff_not,
    beq_eq_false_iff_ne]
  omega

theorem isAlphanum_of_isDigit {c : Char} (h : c.isDigit = true) : c.isAlphanum = true :=
  Bool.or_eq_true_iff.2 (.inr h)

theorem isAlphanum_of_isAlpha {c : Char} (h : c.isAlpha = true) : c.isAlphanum = true :=
  Bool.or_eq_true_iff.2 (.inl h)

end Text

/-! ### Digits -/

namespace Number

/-- A digit is none of the characters with a meaning of their own. -/
theorem isDigit_ne {c d : Char} (hc : c.isDigit = true) (hd : d.isDigit = false) : c ≠ d := by
  intro h
  rw [h, hd] at hc
  cases hc

/-- Digits are written as they are read. -/
theorem digitValue?_digitChar : ∀ d < 16, digitValue? d.digitChar = some d := by decide

theorem digitValue?_toUpper : ∀ d < 16, digitValue? d.digitChar.toUpper = some d := by decide

/-- Reading passes through a text: what stands behind is read on top of the number so far. -/
theorem readDigits_append (base : Nat) (separators : Bool) (n : Nat) (cs ds : List Char) :
    readDigits base separators n (cs ++ ds) =
      (readDigits base separators n cs).bind fun m => readDigits base separators m ds := by
  induction cs generalizing n with
  | nil => rfl
  | cons c cs ih =>
    -- a separator is skipped; what is no digit, or too great, ends both readings
    rw [List.cons_append, readDigits, readDigits]
    split
    · exact ih n
    · split
      · rfl
      · split
        · rfl
        · split
          · rfl
          · exact ih _

/-! ### Decimal numerals -/

/-- The spelling of a natural number: at least one digit, and a zero in front only for zero. -/
structure Digits (ds : List Char) : Prop where
  ne_nil : ds ≠ []
  isDigit : ∀ c ∈ ds, c.isDigit = true
  zero : ∀ cs, ds = '0' :: cs → cs = []

theorem natText_of_lt {n : Nat} (h : n < 10) : natText n = [n.digitChar] :=
  Nat.toDigits_of_lt_base h

/-- The last digit is the remainder, and the others are the quotient. -/
theorem natText_of_le {n : Nat} (h : 10 ≤ n) :
    natText n = natText (n / 10) ++ [(n % 10).digitChar] :=
  Nat.toDigits_of_base_le (by decide) h

/-- Only zero starts with a zero. -/
theorem eq_zero_of_natText {n : Nat} {cs : List Char} (h : natText n = '0' :: cs) : n = 0 := by
  induction n using Nat.strongRecOn generalizing cs with
  | ind n ih =>
    by_cases hn : n < 10
    · rw [natText_of_lt hn] at h
      exact Nat.digitChar_eq_zero.1 (List.cons.inj h).1
    · rw [natText_of_le (Nat.le_of_not_lt hn)] at h
      -- the first digit of `n` is the first digit of `n / 10`
      obtain ⟨c, ds, hds⟩ :=
        List.exists_cons_of_ne_nil (Nat.toDigits_ne_nil (n := n / 10) (b := 10))
      rw [natText, hds, List.cons_append] at h
      have hc : natText (n / 10) = '0' :: ds := by rw [natText, hds, (List.cons.inj h).1]
      have := ih (n / 10) (by omega) hc
      omega

/-- Numbers are spelled with digits and without a zero in front. -/
theorem digits_natText (n : Nat) : Digits (natText n) where
  ne_nil := Nat.toDigits_ne_nil
  isDigit := by
    intro c hc
    exact Nat.isDigit_of_mem_toDigits (by decide) (by decide) hc
  zero := by
    intro cs h
    have hn := eq_zero_of_natText h
    rw [hn, natText_of_lt (by decide)] at h
    exact (List.cons.inj h).2.symm

/-- Integers are spelled like natural numbers, with a minus sign in front if they are negative. -/
theorem intText_spelling (n : Int) :
    ∃ ds, Digits ds ∧ ((intText n).toList = ds ∨ (intText n).toList = '-' :: ds) := by
  refine ⟨natText n.natAbs, digits_natText _, ?_⟩
  by_cases hn : n < 0
  · right; simp [intText, hn]
  · left; simp [intText, hn]

/-- A number below the limit is read as itself.  The induction cuts off the last digit. -/
theorem readDigits_natText {n : Nat} (hn : n < wordLimit) :
    readDigits 10 true 0 (natText n) = .ok n := by
  induction n using Nat.strongRecOn with
  | ind n ih =>
    -- one more digit behind a number
    have digit : ∀ m d, d < 10 → m * 10 + d < wordLimit →
        readDigits 10 true m [d.digitChar] = .ok (m * 10 + d) := by
      intro m d hd hm
      have hc : ¬ ((true = true) ∧ d.digitChar = '_') := by
        rintro ⟨-, h⟩
        have := congrArg Char.isDigit h
        rw [Nat.isDigit_digitChar, decide_eq_true hd] at this
        cases this
      rw [readDigits, if_neg hc, digitValue?_digitChar d (by omega)]
      show (if 10 ≤ d then _ else if wordLimit ≤ m * 10 + d then _ else _) = _
      rw [if_neg (by omega), if_neg (by omega)]
      rfl
    by_cases h : n < 10
    · rw [natText_of_lt h, digit 0 n h (by omega)]
      congr 1
      omega
    · rw [natText_of_le (by omega), readDigits_append, ih (n / 10) (by omega) (by omega)]
      show readDigits 10 true (n / 10) _ = _
      rw [digit _ _ (by omega) (by omega)]
      congr 1
      omega

/-- A spelling without a sign has none to split off. -/
theorem Digits.splitSign {ds : List Char} (h : Digits ds) : splitSign ds = (false, ds) := by
  obtain ⟨c, cs, rfl⟩ := List.exists_cons_of_ne_nil h.ne_nil
  have hc := h.isDigit c (by simp)
  unfold Number.splitSign
  split
  · exact absurd hc (by simp_all)
  · exact absurd hc (by simp_all)
  · rfl

/-- No spelling has an underscore in it. -/
theorem Digits.underscore {ds : List Char} (h : Digits ds) : ds.contains '_' = false := by
  rw [List.contains_eq_any_beq, List.any_eq_false]
  intro c hc h'
  have := h.isDigit c hc
  rw [← eq_of_beq h'] at this
  cases this

/-- Without a zero in front nothing announces another base. -/
theorem splitBase_natText {n : Nat} (h : n ≠ 0) : splitBase (natText n) = (10, natText n) := by
  unfold splitBase
  split
  · exact absurd (eq_zero_of_natText ‹_›) h
  · exact absurd (eq_zero_of_natText ‹_›) h
  · rfl

/-- Zero counts as octal, with no digit left, and is read as zero there. -/
theorem readDigits_splitBase {n : Nat} (hn : n < wordLimit) :
    readDigits (splitBase (natText n)).1 true 0 (splitBase (natText n)).2 = .ok n := by
  by_cases h : n = 0
  · rw [h]
    rfl
  · rw [splitBase_natText h]
    exact readDigits_natText hn

/-- Reading a numeral with or without a sign. -/
theorem readAnyBase_natText {n : Nat} (hn : n < wordLimit) :
    readAnyBase (natText n) = withSign false n ∧
      readAnyBase ('-' :: natText n) = withSign true n := by
  have hds := digits_natText n
  obtain ⟨c, cs, hcons⟩ := List.exists_cons_of_ne_nil hds.ne_nil
  have hread := readDigits_splitBase hn
  have hplain := hds.underscore
  -- without an underscore nothing is left to check but the range
  constructor
  · rw [readAnyBase, hds.splitSign]
    rw [hcons] at hread hplain ⊢
    show ((readDigits _ true 0 _).bind _ = _)
    rw [hread]
    show (if _ ∧ _ then _ else _) = _
    rw [hplain]
    rfl
  · rw [hcons] at hread hplain ⊢
    show ((readDigits _ true 0 _).bind _ = _)
    rw [hread]
    show (if _ ∧ _ then _ else _) = _
    rw [hplain]
    rfl

/-- Every integer of 64 bits is read back as itself. -/
theorem readAnyBase_intText (n : Int64) : readAnyBase (intText n.toInt).toList = .ok n := by
  have hlow := n.le_toInt
  have hhigh := n.toInt_lt
  have hlimit : wordLimit = 18446744073709551616 := rfl
  have hhalf : Nat.pow 2 63 = 9223372036854775808 := rfl
  -- the absolute value is in range even for the least integer
  have hread := readAnyBase_natText (n := n.toInt.natAbs) (by omega)
  by_cases hn : n.toInt < 0
  · rw [intText, if_pos hn, String.toList_ofList, hread.2, withSign, if_pos rfl,
      if_pos (by omega)]
    rw [show (-(n.toInt.natAbs : Int)) = n.toInt by omega, Int64.ofInt_toInt]
  · rw [intText, if_neg hn, String.toList_ofList, hread.1, withSign, if_neg (by decide),
      if_pos (by omega)]
    rw [show ((n.toInt.natAbs : Int)) = n.toInt by omega, Int64.ofInt_toInt]

end Number

/-! ### Hexadecimal digits -/

namespace Text

open Number

/-- Hexadecimal digits are digits. -/
theorem mem_hexDigits {width n : Nat} {c : Char} (h : c ∈ hexDigits width n) :
    ∃ d < 16, c = d.digitChar := by
  induction width generalizing n with
  | zero => simp [hexDigits] at h
  | succ width ih =>
    rw [hexDigits, List.mem_append, List.mem_singleton] at h
    rcases h with h | h
    · exact ih h
    · exact ⟨n % 16, Nat.mod_lt n (by decide), h⟩

/-- Reading hexadecimal digits passes through a text as well. -/
theorem hexValue?_append (n : Nat) (cs ds : List Char) :
    hexValue? n (cs ++ ds) = (hexValue? n cs).bind fun m => hexValue? m ds := by
  induction cs generalizing n with
  | nil => rfl
  | cons c cs ih =>
    -- both readings take the same first digit
    rw [List.cons_append, hexValue?, hexValue?, Option.bind_assoc]
    congr 1
    funext d
    split
    · exact ih _
    · rfl

/-- Digits in either case give the number back; `f` chooses the case. -/
theorem hexValue?_hexDigits {f : Char → Char}
    (hf : ∀ d < 16, digitValue? (f d.digitChar) = some d) {width n : Nat}
    (hn : n < Nat.pow 16 width) : hexValue? 0 ((hexDigits width n).map f) = some n := by
  induction width generalizing n with
  | zero =>
    have : n = 0 := Nat.lt_one_iff.1 hn
    rw [this]
    rfl
  | succ width ih =>
    have hpow : Nat.pow 16 (width + 1) = Nat.pow 16 width * 16 := rfl
    have hd : n % 16 < 16 := Nat.mod_lt n (by decide)
    rw [hexDigits, List.map_append, hexValue?_append, ih (by omega)]
    show hexValue? (n / 16) [f (n % 16).digitChar] = _
    rw [hexValue?, hf _ hd]
    show (if n % 16 < 16 then some (n / 16 * 16 + n % 16) else none) = _
    rw [if_pos hd]
    congr 1
    omega

/-- A character is read back from its code, if the width suffices for the code. -/
theorem charOfHex?_hexDigits {f : Char → Char}
    (hf : ∀ d < 16, digitValue? (f d.digitChar) = some d) (width : Nat) {c : Char}
    (hc : c.toNat < Nat.pow 16 width) :
    charOfHex? ((hexDigits width c.toNat).map f) = some c := by
  have hvalid : c.toNat.isValidChar := c.valid
  rw [charOfHex?, hexValue?_hexDigits hf hc]
  show (if c.toNat.isValidChar then some (Char.ofNat c.toNat) else none) = _
  rw [if_pos hvalid, Char.ofNat_toNat]

end Text

end CommandHost
