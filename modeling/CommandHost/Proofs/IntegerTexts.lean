/-
CommandHost/Proofs/IntegerTexts.lean

Integers survive their texts, in both readings.

A literal is read as a decimal number; a text that is asked for a number may also announce
a base or hold underscores, after blanks at its ends are dropped.  The two readings differ
on a zero in front, which announces octal digits, and agree on every sign and digits
without one (`readAnyBase_eq_readDecimal`).  The text of an integer is of this kind, so what
one reading gives back for it the other does too; and a literal that is read as an integer
is of this kind but for superfluous zeros.
-/
import CommandHost.Proofs.Numerals
import CommandHost.Value

namespace CommandHost

namespace Number

/-! ### What the decimal reading accepts -/

theorem isDigit_of_digitValue? {c : Char} {d : Nat} (h : digitValue? c = some d) (hd : d < 10) :
    c.isDigit = true := by
  unfold digitValue? at h
  split at h
  · rename_i hc
    exact Bool.and_eq_true_iff.2 ⟨decide_eq_true hc.1, decide_eq_true hc.2⟩
  · -- letters stand for ten and more
    split at h
    · rename_i hc
      have hlow : 97 ≤ c.toNat := hc.1
      have hvalue : c.toNat - 87 = d := Option.some.inj h
      omega
    · split at h
      · rename_i hc
        have hlow : 65 ≤ c.toNat := hc.1
        have hvalue : c.toNat - 55 = d := Option.some.inj h
        omega
      · cases h

theorem isDigit_of_readDigits {n m : Nat} {cs : List Char} (h : readDigits 10 false n cs = .ok m) :
    ∀ c ∈ cs, c.isDigit = true := by
  induction cs generalizing n with
  | nil => simp
  | cons c cs ih =>
    rw [readDigits, if_neg (by simp)] at h
    split at h
    · cases h
    · rename_i d hd
      split at h
      · cases h
      · rename_i hlt
        split at h
        · cases h
        · exact List.forall_mem_cons.2 ⟨isDigit_of_digitValue? hd (by omega), ih h⟩

theorem digits_of_readDecimal {cs : List Char} {n : Int64} (h : readDecimal cs = .ok n) :
    (splitSign cs).2 ≠ [] ∧ ∀ c ∈ (splitSign cs).2, c.isDigit = true := by
  unfold readDecimal at h
  split at h
  · cases h
  · rename_i negative ds hne hsplit
    rw [hsplit]
    refine ⟨hne, ?_⟩
    rcases hread : readDigits 10 false 0 ds with e | m
    · rw [hread] at h
      cases h
    · exact isDigit_of_readDigits hread

/-! ### Where the readings agree -/

/-- Without underscores nothing is skipped. -/
theorem readDigits_separators {base n : Nat} {cs : List Char} (h : ∀ c ∈ cs, c.isDigit = true) :
    readDigits base true n cs = readDigits base false n cs := by
  induction cs generalizing n with
  | nil => rfl
  | cons c cs ih =>
    obtain ⟨hc, hcs⟩ := List.forall_mem_cons.1 h
    have hne : c ≠ '_' := isDigit_ne hc rfl
    rw [readDigits, readDigits, if_neg (by simp [hne]), if_neg (by simp)]
    simp only [ih hcs]

/-- A zero announces octal digits only if there are some. -/
theorem Digits.readDigits_splitBase {ds : List Char} (h : Digits ds) :
    readDigits (splitBase ds).1 true 0 (splitBase ds).2 = readDigits 10 false 0 ds := by
  by_cases hzero : ∃ cs, ds = '0' :: cs
  · obtain ⟨cs, rfl⟩ := hzero
    obtain rfl := h.zero cs rfl
    rfl
  · have hbase : splitBase ds = (10, ds) := by
      unfold splitBase
      split
      · exact absurd ⟨_, rfl⟩ hzero
      · exact absurd ⟨_, rfl⟩ hzero
      · rfl
    rw [hbase]
    exact readDigits_separators h.isDigit

/-- With digits and no superfluous zero the two readings are one. -/
theorem readAnyBase_eq_readDecimal {cs : List Char} (h : Digits (splitSign cs).2) :
    readAnyBase cs = readDecimal cs := by
  rcases hsplit : splitSign cs with ⟨negative, ds⟩
  rw [hsplit] at h
  obtain ⟨c, rest, rfl⟩ := List.exists_cons_of_ne_nil h.ne_nil
  rw [readAnyBase, readDecimal, hsplit]
  simp only [h.readDigits_splitBase, h.underscore, Bool.false_eq_true, false_and, if_false]

/-! ### Signs -/

/-- A text is its digits behind an optional sign. -/
theorem splitSign_cases (cs : List Char) :
    cs = (splitSign cs).2 ∨ cs = '+' :: (splitSign cs).2 ∨ cs = '-' :: (splitSign cs).2 := by
  unfold splitSign
  split
  · exact .inr (.inl rfl)
  · exact .inr (.inr rfl)
  · exact .inl rfl

theorem isVisible_of_splitSign {cs : List Char} (h : ∀ c ∈ (splitSign cs).2, c.isDigit = true) :
    ∀ c ∈ cs, Text.IsVisible c := by
  have hdigits : ∀ c ∈ (splitSign cs).2, Text.IsVisible c := fun c hc =>
    Text.isVisible_of_isAlphanum (Text.isAlphanum_of_isDigit (h c hc))
  intro c hc
  rcases splitSign_cases cs with e | e | e
  · exact hdigits c (e ▸ hc)
  · rcases List.mem_cons.1 (e ▸ hc) with rfl | hc
    · exact ⟨by decide, by decide⟩
    · exact hdigits c hc
  · rcases List.mem_cons.1 (e ▸ hc) with rfl | hc
    · exact ⟨by decide, by decide⟩
    · exact hdigits c hc

/-- The digits of an integer's text are as a number is spelled. -/
theorem digits_intText (n : Int) : Digits (splitSign (intText n).toList).2 := by
  obtain ⟨ds, hds, e | e⟩ := intText_spelling n
  · rw [e, hds.splitSign]
    exact hds
  · rw [e]
    exact hds

theorem readDecimal_intText (n : Int64) : readDecimal (intText n.toInt).toList = .ok n := by
  rw [← readAnyBase_eq_readDecimal (digits_intText n.toInt), readAnyBase_intText]

end Number

/-! ### Values -/

namespace Value

open Number Text

/-- A text between blank margins is read without them. -/
theorem toInt_text_margins {w₁ w₂ s : String} (h₁ : ∀ c ∈ w₁.toList, isBlank c = true)
    (h₂ : ∀ c ∈ w₂.toList, isBlank c = true) (hs : ∀ c ∈ s.toList, IsVisible c)
    (hne : s.toList ≠ []) {n : Int64} (h : readAnyBase s.toList = .ok n) :
    (text (w₁ ++ s ++ w₂)).toInt = .ok n := by
  have htrim : trim (w₁ ++ s ++ w₂).toList = s.toList := by
    rw [String.toList_append, String.toList_append]
    exact trim_margins h₁ h₂ (fun c hc => (hs c hc).isBlank) hne
  rw [toInt, htrim, h]

theorem ofLiteral_of_readDecimal {s : String} {n : Int64} (h : readDecimal s.toList = .ok n) :
    ofLiteral s = int n := by
  have hword (word : String) (hword : (readDecimal word.toList).isOk = false) : s ≠ word := by
    rintro rfl
    rw [h] at hword
    cases hword
  rw [ofLiteral, if_neg (hword "true" (by decide +kernel)), if_neg (hword "false" (by decide +kernel)),
    h]

theorem readDecimal_of_ofLiteral {s : String} {n : Int64} (h : ofLiteral s = int n) :
    readDecimal s.toList = .ok n := by
  unfold ofLiteral at h
  split at h
  · cases h
  · split at h
    · cases h
    · split at h
      · rename_i hread
        cases h
        exact hread
      · split at h <;> cases h

/-- **Integers survive their texts.**  The text of an integer, between blanks of any kind, is read as
that integer, and as a literal it is that integer.  A literal that is read as an integer is read as the
same value once it is written out; and as a text it is asked for the same integer, unless its digits
start with a zero that they do not need. -/
theorem integers_survive_texts :
    (∀ n : Int64, (∀ w₁ w₂ : String, (∀ c ∈ w₁.toList, isBlank c = true) →
        (∀ c ∈ w₂.toList, isBlank c = true) →
        (text (w₁ ++ (int n).toText ++ w₂)).toInt = .ok n) ∧
      ofLiteral (int n).toText = int n) ∧
    ∀ (s : String) (m : Int64), ofLiteral s = int m →
      ofLiteral (ofLiteral s).toText = ofLiteral s ∧
        ((∀ ds, (splitSign s.toList).2 = '0' :: ds → ds = []) → (text s).toInt = .ok m) := by
  refine ⟨fun n => ⟨fun w₁ w₂ h₁ h₂ => ?_, ?_⟩, fun s m hs => ⟨?_, fun hzero => ?_⟩⟩
  · have hdigits := digits_intText n.toInt
    have hne : (intText n.toInt).toList ≠ [] := by
      intro e
      rw [e] at hdigits
      exact hdigits.ne_nil rfl
    exact toInt_text_margins h₁ h₂ (isVisible_of_splitSign hdigits.isDigit) hne (readAnyBase_intText n)
  · exact ofLiteral_of_readDecimal (readDecimal_intText n)
  · rw [hs]
    exact ofLiteral_of_readDecimal (readDecimal_intText m)
  · have hread := readDecimal_of_ofLiteral hs
    obtain ⟨hne, hisDigit⟩ := digits_of_readDecimal hread
    -- without a leading zero there is no other base to read the digits in
    have hdigits : Digits (splitSign s.toList).2 := ⟨hne, hisDigit, hzero⟩
    rw [← readAnyBase_eq_readDecimal hdigits] at hread
    have hnil : s.toList ≠ [] := by
      intro e
      rw [e] at hne
      exact hne rfl
    have hempty : ∀ c ∈ "".toList, isBlank c = true := by simp
    have htext := toInt_text_margins hempty hempty (isVisible_of_splitSign hisDigit) hnil hread
    simpa using htext

/-- The least integer between blanks that are not ASCII, and the greatest with a sign that is not
needed. -/
theorem integers_survive_texts_limits :
    (text ("\u2003\t" ++ "-9223372036854775808" ++ "\u00a0\n")).toInt = .ok Int64.minValue ∧
      ofLiteral "+9223372036854775807" = int Int64.maxValue ∧
      ofLiteral (ofLiteral "+9223372036854775807").toText = int Int64.maxValue ∧
      (text "+9223372036854775807").toInt = .ok Int64.maxValue := by
  have hread : ofLiteral "+9223372036854775807" = int Int64.maxValue := by decide +kernel
  obtain ⟨hmargins, -⟩ := integers_survive_texts.1 Int64.minValue
  obtain ⟨hagain, hasked⟩ := integers_survive_texts.2 _ _ hread
  refine ⟨hmargins "\u2003\t" "\u00a0\n" (List.all_eq_true.1 (by decide +kernel))
    (List.all_eq_true.1 (by decide +kernel)), hread, hagain.trans hread, hasked ?_⟩
  intro ds h
  cases h

end Value

end CommandHost
