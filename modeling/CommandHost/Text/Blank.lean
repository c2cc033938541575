/-
CommandHost/Text/Blank.lean

White space and its removal at both ends of a text.

A character is blank when it has the Unicode white-space property.  Trimming
works on lists of characters, so that what it does to a text between two blank
margins is a statement about lists (`trim_margins`).
-/

namespace CommandHost.Text

/-! ### Blank characters -/

/-- The Unicode white-space property. -/
def isBlank (c : Char) : Bool :=
  let n := c.toNat
  (9 ≤ n && n ≤ 13) || n == 0x20 || n == 0x85 || n == 0xA0 || n == 0x1680 ||
    (0x2000 ≤ n && n ≤ 0x200A) || n == 0x2028 || n == 0x2029 || n == 0x202F || n == 0x205F ||
    n == 0x3000

/-! ### Trimming -/

/-- Drops the blank characters at the end. -/
def trimRight (cs : List Char) : List Char :=
  (cs.reverse.dropWhile isBlank).reverse

/-- Drops the blank characters at both ends. -/
def trim (cs : List Char) : List Char :=
  trimRight (cs.dropWhile isBlank)

/-- `trim` on texts. -/
def trimmed (s : String) : String :=
  String.ofList (trim s.toList)

theorem dropWhile_blank_append {w cs : List Char} (hw : ∀ c ∈ w, isBlank c = true) :
    (w ++ cs).dropWhile isBlank = cs.dropWhile isBlank := by
  induction w with
  | nil => rfl
  | cons c w ih =>
    simp only [List.mem_cons, forall_eq_or_imp] at hw
    simp [hw.1, ih hw.2]

/-- Blank margins around a text without blank characters are all that trimming removes. -/
theorem trim_margins {w₁ w₂ cs : List Char} (h₁ : ∀ c ∈ w₁, isBlank c = true)
    (h₂ : ∀ c ∈ w₂, isBlank c = true) (hc : ∀ c ∈ cs, isBlank c = false) (hne : cs ≠ []) :
    trim (w₁ ++ cs ++ w₂) = cs := by
  have keep : ∀ {l : List Char}, (∀ c ∈ l, isBlank c = false) → l ≠ [] →
      ∀ r, (l ++ r).dropWhile isBlank = l ++ r := by
    intro l hl hn r
    cases l with
    | nil => exact absurd rfl hn
    | cons c l => simp [hl c (by simp)]
  have hrev : ∀ c ∈ cs.reverse, isBlank c = false := fun c h => hc c (by simpa using h)
  rw [trim, List.append_assoc, dropWhile_blank_append h₁, keep hc hne, trimRight,
    List.reverse_append, dropWhile_blank_append (fun c h => h₂ c (by simpa using h))]
  have := keep hrev (by simpa using hne) []
  simp only [List.append_nil] at this
  rw [this, List.reverse_reverse]

end CommandHost.Text
