/-
CommandHost/Proofs/YamlText.lean

Texts written as YAML scalars, without quotes or in quotes, read back as themselves.

The three readers keep the *gap* since the last character that was no blank and no line
end, and put it into the text with the next such character; so each lemma speaks of a
text behind a gap and says that the gap comes first.  What a style does not allow is what
its reader would change: a space beside a line end in quotes, a line end or an indicator
without quotes.
-/
import CommandHost.Proofs.Numerals
import CommandHost.Yaml.Node
import CommandHost.Yaml.Style

namespace CommandHost.Yaml

open Number

/-! ### What follows a value -/

/-- What the next line holds behind its indent: the start of a word, or nothing at the end of the
text. -/
def IsWord (column : Nat) (word : List Char) : Prop :=
  word = [] ∧ column = 0 ∨ ∃ c cs, word = c :: cs ∧ c.isAlpha = true

/-- A letter is none of the characters with a meaning of their own. -/
theorem isAlpha_ne {c d : Char} (hc : c.isAlpha = true) (hd : d.isAlpha = false) : c ≠ d := by
  intro h
  rw [h, hd] at hc
  cases hc

section Visible

variable {c : Char} (h : Text.IsVisible c)
include h

/-- Line ends are not visible. -/
theorem isBreak_of_isVisible : isBreak c = false := by
  have hbreaks : ¬ Text.IsVisible '\n' ∧ ¬ Text.IsVisible '\u2028' ∧ ¬ Text.IsVisible '\u2029' := by
    unfold Text.IsVisible
    decide
  rw [isBreak, beq_eq_false_iff_ne.2 (h.ne hbreaks.1), beq_eq_false_iff_ne.2 (h.ne hbreaks.2.1),
    beq_eq_false_iff_ne.2 (h.ne hbreaks.2.2)]
  rfl

/-- Neither are blanks. -/
theorem isBlank_of_isVisible : isBlank c = false := by
  have hblanks : ¬ Text.IsVisible ' ' ∧ ¬ Text.IsVisible '\t' := by
    unfold Text.IsVisible
    decide
  rw [isBlank, beq_eq_false_iff_ne.2 (h.ne hblanks.1), beq_eq_false_iff_ne.2 (h.ne hblanks.2)]
  rfl

/-- A visible character needs no escape. -/
theorem isWritable_of_isVisible : isWritable c = true := by
  obtain ⟨hlow, hhigh⟩ := h
  simp only [isWritable, Bool.or_eq_true, Bool.and_eq_true, decide_eq_true_eq, beq_iff_eq,
    bne_iff_ne]
  omega

end Visible

theorem isVisible_of_isAlpha {c : Char} (h : c.isAlpha = true) : Text.IsVisible c :=
  Text.isVisible_of_isAlphanum (Text.isAlphanum_of_isAlpha h)

theorem isBreak_of_isAlpha {c : Char} (h : c.isAlpha = true) : isBreak c = false :=
  isBreak_of_isVisible (isVisible_of_isAlpha h)

theorem isBlank_of_isAlpha {c : Char} (h : c.isAlpha = true) : isBlank c = false :=
  isBlank_of_isVisible (isVisible_of_isAlpha h)

/-- A word is not skipped. -/
theorem skip_word {k : Nat} {word : List Char} (h : IsWord k word) (tabs : Bool)
    (line column : Nat) : skip false tabs false line column word = ⟨line, column, word⟩ := by
  rcases h with ⟨rfl, -⟩ | ⟨c, cs, rfl, hc⟩
  · rfl
  · have hspace : (c == ' ') = false := beq_eq_false_iff_ne.2 (isAlpha_ne hc (by decide))
    have htab : (c == '\t') = false := beq_eq_false_iff_ne.2 (isAlpha_ne hc (by decide))
    rw [skip, isBreak_of_isAlpha hc, if_neg (by decide), hspace, htab, Bool.and_false,
      if_neg (by decide), if_neg (isAlpha_ne hc (by decide))]

/-- The indent of a line is skipped. -/
theorem skip_indent {k : Nat} {word : List Char} (h : IsWord k word) (tabs : Bool)
    (line column n : Nat) :
    skip false tabs false line column (List.replicate n ' ' ++ word) =
      ⟨line, column + n, word⟩ := by
  induction n generalizing column with
  | zero => exact skip_word h tabs line column
  | succ n ih =>
    rw [List.replicate_succ, List.cons_append, skip, if_neg (by decide), if_pos (by rfl), ih]
    congr 1
    omega

/-- The next word is found behind its indent, and no tab is in front of it. -/
theorem inBlock?_word {k : Nat} {word : List Char} (h : IsWord k word) (tabs : Bool)
    (line column n : Nat) :
    Cursor.inBlock? ⟨line, column, List.replicate n ' ' ++ word⟩ tabs =
      some ⟨line, column + n, word⟩ := by
  have hhead : word.head? ≠ some '\t' := by
    rcases h with ⟨rfl, -⟩ | ⟨c, cs, rfl, hc⟩
    · simp
    · simpa using isAlpha_ne hc (by decide)
  rw [Cursor.inBlock?]
  show (if (skip false tabs false line column _).rest.head? = some '\t' then _ else _) = _
  rw [skip_indent h, if_neg hhead]

/-! ### Gaps -/

namespace Gap

/-- A blank on the same line is kept. -/
theorem text_blank {gap : Gap} (h : gap.isBroken = false) (c : Char) :
    (gap.blank c).text = gap.text ++ [c] := by
  cases gap with
  | none => rfl
  | blanks bs => rfl
  | lines first more => cases h
  | joined more => cases h

/-- A blank does not break a line. -/
theorem isBroken_blank (gap : Gap) (c : Char) : (gap.blank c).isBroken = gap.isBroken := by
  cases gap <;> rfl

theorem isBroken_newline (gap : Gap) (c : Char) : (gap.newline c).isBroken = true := by
  cases gap <;> rfl

theorem eq_none_of_isNone {gap : Gap} (h : gap.isNone = true) : gap = .none := by
  cases gap with
  | none => rfl
  | blanks bs => cases h
  | lines first more => cases h
  | joined more => cases h

end Gap

/-! ### Plain scalars -/

/-- A plain scalar ends in front of a line that is not indented far enough. -/
theorem plain_indent {k low : Nat} {word : List Char} (h : IsWord k word) {gap : Gap}
    (hgap : gap.isBroken = true) (line column n : Nat) (hlow : column + n < low) :
    plain false low gap line column (List.replicate n ' ' ++ word) =
      some ⟨[], line, column + n, word⟩ := by
  induction n generalizing column gap with
  | zero =>
    rcases h with ⟨rfl, -⟩ | ⟨c, cs, rfl, hc⟩
    · rfl
    · show plain false low gap line column (c :: cs) = _
      rw [plain, isBreak_of_isAlpha hc, if_neg (by decide), isBlank_of_isAlpha hc,
        if_neg (by decide), hgap, decide_eq_true (show column < low by omega)]
      simp
  | succ n ih =>
    rw [List.replicate_succ, List.cons_append, plain, if_neg (by decide), if_pos (by decide),
      if_neg (by simp), ih (by rw [Gap.isBroken_blank, hgap]) (column + 1) (by omega),
      Nat.add_assoc, Nat.add_comm 1 n]

/-- Two characters that end a plain scalar between them, or start a comment. -/
def isIndicatorPair (a b : Char) : Bool :=
  (a == ':' && isBlank b) || ((isBlank a || isBreak a) && b == '#')

/-- The rest of a text that can be written without quotes, behind a gap. -/
structure Unquoted (gap : Gap) (cs : List Char) : Prop where
  inline : gap.isBroken = false
  chars : ∀ c ∈ cs, isBreak c = false ∧ c ≠ '\t'
  pairs : anyPair isIndicatorPair cs = false
  /-- No comment starts behind the gap, and the gap does not end the text. -/
  head : gap.isNone = false → cs.head? ≠ some '#'
  ends : cs = [] → gap.isNone = true
  last : ∀ c, cs.getLast? = some c → c ≠ ' ' ∧ c ≠ ':'

/-- What no two neighbours do, no two neighbours further on do. -/
theorem anyPair_tail {p : Char → Char → Bool} {c : Char} {cs : List Char}
    (h : anyPair p (c :: cs) = false) : anyPair p cs = false := by
  cases cs with
  | nil => rfl
  | cons d cs => exact (Bool.or_eq_false_iff.1 h).2

theorem anyPair_head {p : Char → Char → Bool} {c d : Char} {cs : List Char}
    (h : anyPair p (c :: d :: cs) = false) : p c d = false :=
  (Bool.or_eq_false_iff.1 h).1

namespace Unquoted

variable {gap : Gap} {c : Char} {cs : List Char}

/-- The rest of such a text, behind what its first character makes of the gap. -/
theorem tail (h : Unquoted gap (c :: cs)) {next : Gap} (inline : next.isBroken = false)
    (head : next.isNone = false → cs.head? ≠ some '#') (ends : cs = [] → next.isNone = true) :
    Unquoted next cs where
  inline := inline
  chars := fun d hd => h.chars d (by simp [hd])
  pairs := anyPair_tail h.pairs
  head := head
  ends := ends
  last := by
    intro d hd
    refine h.last d ?_
    rw [List.getLast?_cons, hd]
    rfl

/-- Behind a blank the gap has grown. -/
theorem blank (h : Unquoted gap (' ' :: cs)) : Unquoted (gap.blank ' ') cs := by
  apply h.tail
  · rw [Gap.isBroken_blank, h.inline]
  · intro _ hhash
    obtain ⟨ds, rfl⟩ := List.head?_eq_some_iff.1 hhash
    exact absurd (anyPair_head h.pairs) (by decide)
  · rintro rfl
    exact absurd rfl (h.last ' ' rfl).1

/-- A colon stands in front of something, and no gap. -/
theorem stopsPlain_eq (h : Unquoted gap (c :: cs)) (rest : List Char) :
    stopsPlain false c (cs ++ rest) = false := by
  rw [stopsPlain, Bool.false_and, Bool.or_false]
  by_cases hc : c = ':'
  · cases cs with
    | nil => exact absurd hc (h.last c rfl).2
    | cons d ds =>
      -- what follows a colon is no blank, so the colon ends nothing
      have hpair := anyPair_head h.pairs
      have hd := (h.chars d (by simp)).1
      rw [isIndicatorPair, hc] at hpair
      rw [List.cons_append, atGap, hd, hc]
      simpa using (Bool.or_eq_false_iff.1 hpair).1
  · rw [beq_eq_false_iff_ne.2 hc, Bool.false_and]

end Unquoted

/-- A text without quotes is read up to the end of its line.  The induction is on what is left of
the text, behind any gap. -/
theorem plain_text {low k column : Nat} {word : List Char} (hword : IsWord k word)
    (hk : k < low) (line : Nat) (hcolumn : 0 < column) {gap : Gap} {cs : List Char}
    (h : Unquoted gap cs) :
    plain false low gap line column (cs ++ '\n' :: (List.replicate k ' ' ++ word)) =
      some ⟨gap.text ++ cs, line + 1, k, word⟩ := by
  induction cs generalizing gap column with
  | nil =>
    -- the line end breaks the gap, and the next word stands too far left to go on
    rw [Gap.eq_none_of_isNone (h.ends rfl), List.nil_append, plain, if_pos (by decide),
      plain_indent hword (Gap.isBroken_newline _ _) (line + 1) 0 k (by omega), Nat.zero_add]
    rfl
  | cons c cs ih =>
    have hc := h.chars c (by simp)
    rw [List.cons_append, plain, hc.1, if_neg (by decide)]
    by_cases hspace : c = ' '
    · -- the gap takes the space
      subst hspace
      rw [if_pos (by decide), if_neg (by simp), ih (Nat.succ_pos _) h.blank,
        Gap.text_blank h.inline]
      simp
    · have hblank : isBlank c = false := by
        rw [isBlank, Bool.or_eq_false_iff, beq_eq_false_iff_ne, beq_eq_false_iff_ne]
        exact ⟨hspace, hc.2⟩
      have hhash : (!gap.isNone && c == '#') = false := by
        cases hgap : gap.isNone with
        | true => rfl
        | false =>
          have := h.head hgap
          simpa using this
      -- any other character takes the gap with it
      have hnone : Unquoted .none cs := h.tail rfl (by intro h; cases h) (fun _ => rfl)
      rw [hblank, if_neg (by decide), hhash, h.inline, h.stopsPlain_eq,
        beq_eq_false_iff_ne.2 (Nat.ne_of_gt hcolumn)]
      rw [if_neg (by simp), ih (Nat.succ_pos _) hnone]
      simp [Scanned.after, Gap.text]

/-- What a text has to avoid between single quotes, taken apart. -/
theorem singleAllowed_eq_true {cs : List Char} (h : singleAllowed cs = true) :
    breakThenSpace cs = false ∧ spaceThenBreak cs = false ∧ '\t' ∉ cs ∧ hasSpecial cs = false := by
  rw [singleAllowed, Bool.not_eq_true', Bool.or_eq_false_iff, Bool.or_eq_false_iff,
    Bool.or_eq_false_iff] at h
  refine ⟨h.1.1.1, h.1.1.2, ?_, h.2⟩
  intro hmem
  exact absurd (List.contains_iff_mem.2 hmem) (by rw [h.1.2]; decide)

/-- What a text has to avoid without quotes, taken apart. -/
theorem plainAllowed_eq_true {cs : List Char} (h : plainAllowed cs = true) :
    singleAllowed cs = true ∧ hasMargin cs = false ∧ (∀ c ∈ cs, isBreak c = false) ∧
      startsIndicator cs = false ∧ holdsIndicator cs = false := by
  rw [plainAllowed, Bool.and_eq_true, Bool.not_eq_true', Bool.or_eq_false_iff,
    Bool.or_eq_false_iff, Bool.or_eq_false_iff, Bool.or_eq_false_iff, List.any_eq_false] at h
  refine ⟨h.1, h.2.1.1.1.1, ?_, h.2.1.1.2, h.2.1.2⟩
  intro c hc
  exact Bool.eq_false_iff.2 (h.2.1.1.1.2 c hc)

/-- A text that is written without quotes can be read without them. -/
theorem unquoted_of_plainAllowed {cs : List Char} (h : plainAllowed cs = true) :
    Unquoted .none cs where
  inline := rfl
  chars := by
    obtain ⟨hsingle, -, hbreaks, -, -⟩ := plainAllowed_eq_true h
    obtain ⟨-, -, htab, -⟩ := singleAllowed_eq_true hsingle
    intro c hc
    refine ⟨hbreaks c hc, ?_⟩
    rintro rfl
    exact htab hc
  pairs := by
    obtain ⟨-, -, -, -, hholds⟩ := plainAllowed_eq_true h
    exact (Bool.or_eq_false_iff.1 hholds).2
  head := by intro h; cases h
  ends := fun _ => rfl
  last := by
    obtain ⟨-, hmargin, -, -, hholds⟩ := plainAllowed_eq_true h
    intro c hc
    constructor
    · rintro rfl
      have := (Bool.or_eq_false_iff.1 hmargin).2
      rw [hc] at this
      cases this
    · rintro rfl
      have := (Bool.or_eq_false_iff.1 hholds).1
      rw [hc] at this
      cases this

/-! ### Single quotes -/

/-- The gap contributes every character that it was made from. -/
def Gap.Keeps : Gap → Prop
  | .none => True
  | .blanks _ => True
  | .lines first _ => first ≠ '\n'
  | .joined _ => False

/-- The rest of a text that can stand in single quotes, behind a gap. -/
structure Quotable (gap : Gap) (cs : List Char) : Prop where
  keeps : gap.Keeps
  chars : ∀ c ∈ cs, c ≠ '\n' ∧ c ≠ '\t'
  breakThenSpace : breakThenSpace cs = false
  spaceThenBreak : spaceThenBreak cs = false
  /-- No line starts with a space, and none ends with one. -/
  start : gap.isBroken = true → cs.head? ≠ some ' '
  trail : gap.isBroken = false → gap.isNone = false → (cs.head?.map isBreak).getD false = false

namespace Quotable

variable {gap : Gap} {c : Char} {cs : List Char}

/-- The rest of such a text, behind what its first character makes of the gap. -/
theorem tail (h : Quotable gap (c :: cs)) {next : Gap} (keeps : next.Keeps)
    (start : next.isBroken = true → cs.head? ≠ some ' ')
    (trail : next.isBroken = false → next.isNone = false →
      (cs.head?.map isBreak).getD false = false) : Quotable next cs where
  keeps := keeps
  chars := fun d hd => h.chars d (by simp [hd])
  breakThenSpace := anyPair_tail h.breakThenSpace
  spaceThenBreak := anyPair_tail h.spaceThenBreak
  start := start
  trail := trail

/-- Behind a line end, which is no line feed, the gap still keeps everything. -/
theorem newline (h : Quotable gap (c :: cs)) (hc : isBreak c = true) :
    Quotable (gap.newline c) cs := by
  apply h.tail
  · have hfeed : c ≠ '\n' := (h.chars c (by simp)).1
    have hkeeps := h.keeps
    cases gap with
    | none => exact hfeed
    | blanks bs => exact hfeed
    | lines first more => exact hkeeps
    | joined more => exact hkeeps
  · intro _ hspace
    obtain ⟨ds, rfl⟩ := List.head?_eq_some_iff.1 hspace
    have := anyPair_head h.breakThenSpace
    rw [hc] at this
    cases this
  · intro hbroken
    rw [Gap.isBroken_newline] at hbroken
    cases hbroken

/-- The line end is kept; only a line feed would be folded. -/
theorem text_newline (h : Quotable gap (c :: cs)) (hc : isBreak c = true) :
    (gap.newline c).text = gap.text ++ [c] := by
  have hfeed : c ≠ '\n' := (h.chars c (by simp)).1
  have hkeeps := h.keeps
  -- only a line feed in front would be folded away
  have htext : ∀ {first : Char}, first ≠ '\n' →
      ∀ more, (Gap.lines first more).text = first :: more := by
    intro first hfirst more
    rw [Gap.text]
    · rintro rfl
      exact absurd rfl hfirst
    · rintro rfl
      exact absurd rfl hfirst
  cases gap with
  | none => exact htext hfeed []
  | blanks bs =>
    have := h.trail rfl rfl
    rw [List.head?_cons, Option.map_some, Option.getD_some, hc] at this
    cases this
  | lines first more =>
    show (Gap.lines first (more ++ [c])).text = _
    -- the line end is one more behind the first
    rw [htext hkeeps, htext hkeeps]
    rfl
  | joined more => cases hkeeps

/-- A space is not the first on its line. -/
theorem inline (h : Quotable gap (' ' :: cs)) : gap.isBroken = false := by
  cases hgap : gap.isBroken with
  | true => exact absurd rfl (h.start hgap)
  | false => rfl

/-- Behind a space no line ends. -/
theorem blank (h : Quotable gap (' ' :: cs)) : Quotable (gap.blank ' ') cs := by
  apply h.tail
  · have hinline := h.inline
    cases gap with
    | none => trivial
    | blanks bs => trivial
    | lines first more => cases hinline
    | joined more => cases hinline
  · intro hbroken
    rw [Gap.isBroken_blank, h.inline] at hbroken
    cases hbroken
  · intro _ _
    cases cs with
    | nil => rfl
    | cons d ds =>
      have := anyPair_head h.spaceThenBreak
      exact this

theorem none (h : Quotable gap (c :: cs)) : Quotable .none cs := by
  refine h.tail (show Gap.Keeps .none from trivial) ?_ ?_
  · intro h
    cases h
  · intro _ h
    cases h

end Quotable

/-- How a character is read that is no quote. -/
theorem singleQuoted_cons {c : Char} (h : c ≠ '\'') (gap : Gap) (line column : Nat)
    (rest : List Char) :
    singleQuoted gap line column (c :: rest) =
      if isBreak c then singleQuoted (gap.newline c) (line + 1) 0 rest
      else if column = 0 ∧ startsMarker (c :: rest) then none
      else if isBlank c then singleQuoted (gap.blank c) line (column + 1) rest
      else (singleQuoted .none line (column + 1) rest).map (·.after (gap.text ++ [c])) := by
  rw [singleQuoted, if_neg h]
  intro _ h'
  exact absurd h' h

/-- Blanks behind a line end are dropped. -/
theorem singleQuoted_indent {gap : Gap} (h : gap.isBroken = true) (line column n : Nat)
    (rest : List Char) :
    singleQuoted gap line column (List.replicate n ' ' ++ rest) =
      singleQuoted gap line (column + n) rest := by
  -- a gap with a line end in it takes no blanks
  have hblank : gap.blank ' ' = gap := by
    cases gap with
    | none => cases h
    | blanks bs => cases h
    | lines first more => rfl
    | joined more => rfl
  induction n generalizing column with
  | zero => rfl
  | succ n ih =>
    have hmarker :
        ¬ (column = 0 ∧ startsMarker (' ' :: (List.replicate n ' ' ++ rest)) = true) := by
      rintro ⟨-, h⟩
      cases h
    rw [List.replicate_succ, List.cons_append, singleQuoted_cons (by decide), if_neg (by decide),
      if_neg hmarker, if_pos (by decide), hblank, ih, Nat.add_assoc, Nat.add_comm 1 n]

/-- A character that is no blank and no line end, wherever it stands. -/
theorem singleQuoted_char {c : Char} (hbreak : isBreak c = false) (hblank : isBlank c = false)
    (gap : Gap) (line : Nat) {column : Nat} (hcolumn : 0 < column) (rest : List Char) :
    ∃ next, 0 < next ∧
      singleQuoted gap line column ((if c == '\'' then ['\'', '\''] else [c]) ++ rest) =
        (singleQuoted .none line next rest).map (·.after (gap.text ++ [c])) := by
  by_cases hc : c = '\''
  · subst hc
    exact ⟨column + 2, by omega, rfl⟩
  · refine ⟨column + 1, by omega, ?_⟩
    rw [if_neg (by simpa using hc)]
    show singleQuoted gap line column (c :: rest) = _
    rw [singleQuoted_cons hc, hbreak, if_neg (by decide), if_neg (by omega), hblank,
      if_neg (by decide)]

/-- A quote that no other quote follows ends the text. -/
theorem singleQuoted_close (gap : Gap) (line column : Nat) (rest : List Char) :
    singleQuoted gap line column ('\'' :: '\n' :: rest) =
      some ⟨gap.text, line, column + 1, '\n' :: rest⟩ := by
  have hmarker : ¬ (column = 0 ∧ startsMarker ('\'' :: '\n' :: rest) = true) := by
    rintro ⟨-, h⟩
    cases h
  rw [singleQuoted, if_neg (by decide), if_neg hmarker, if_neg (by decide), if_pos rfl]
  intro _ _ h
  cases h

/-- A text between single quotes is read back as it is, with line ends that are continued on an
indented line. -/
theorem singleQuoted_text {cs : List Char} {gap : Gap} (h : Quotable gap cs) (line column : Nat)
    (hcolumn : gap.isBroken = false → 0 < column) (rest : List Char) :
    ∃ line' column',
      singleQuoted gap line column (indented true gap.isBroken cs ++ '\'' :: '\n' :: rest) =
        some ⟨gap.text ++ cs, line', column', '\n' :: rest⟩ := by
  induction cs generalizing gap line column with
  | nil =>
    refine ⟨line, column + 1, ?_⟩
    rw [List.append_nil]
    exact singleQuoted_close gap line column rest
  | cons c cs ih =>
    rw [indented]
    by_cases hbreak : isBreak c = true
    · -- the gap takes the line end
      have hquote : c ≠ '\'' := by
        rintro rfl
        cases hbreak
      have hbroken := Gap.isBroken_newline gap c
      obtain ⟨line', column', hread⟩ := ih (h.newline hbreak) (line + 1) 0 (by
        intro hinline
        rw [hbroken] at hinline
        cases hinline)
      refine ⟨line', column', ?_⟩
      rw [hbroken, h.text_newline hbreak] at hread
      rw [if_pos hbreak, List.cons_append, singleQuoted_cons hquote, if_pos hbreak, hread,
        List.append_assoc]
      rfl
    · rw [if_neg hbreak]
      by_cases hspace : c = ' '
      · -- the gap takes the space
        subst hspace
        have hinline := h.inline
        obtain ⟨line', column', hread⟩ := ih h.blank line (column + 1) (fun _ => Nat.succ_pos _)
        refine ⟨line', column', ?_⟩
        rw [Gap.isBroken_blank, hinline, Gap.text_blank hinline] at hread
        rw [hinline]
        show singleQuoted gap line column (' ' :: (indented true false cs ++ _)) = _
        have := hcolumn hinline
        rw [singleQuoted_cons (by decide), if_neg (by decide), if_neg (by omega),
          if_pos (by decide), hread, List.append_assoc]
        rfl
      · have hblank : isBlank c = false := by
          rw [isBlank, Bool.or_eq_false_iff, beq_eq_false_iff_ne, beq_eq_false_iff_ne]
          exact ⟨hspace, (h.chars c (by simp)).2⟩
        -- the continuation indent of a new line counts for nothing
        have hindent : ∃ start, 0 < start ∧ ∀ rest,
            singleQuoted gap line column
                ((if gap.isBroken then continuation else []) ++ rest) =
              singleQuoted gap line start rest := by
          cases hbroken : gap.isBroken with
          | true => exact ⟨column + 4, by omega, fun rest => singleQuoted_indent hbroken _ _ 4 rest⟩
          | false => exact ⟨column, hcolumn hbroken, fun rest => rfl⟩
        obtain ⟨start, hstart, hskip⟩ := hindent
        rw [Bool.true_and, List.append_assoc, List.append_assoc, hskip]
        obtain ⟨next, hnext, hchar⟩ := singleQuoted_char (Bool.eq_false_iff.2 hbreak) hblank
          gap line hstart (indented true false cs ++ '\'' :: '\n' :: rest)
        obtain ⟨line', column', hread⟩ := ih h.none line next (fun _ => hnext)
        refine ⟨line', column', ?_⟩
        rw [hchar, show indented true false cs = indented true Gap.none.isBroken cs from rfl, hread]
        simp [Scanned.after, Gap.text]

/-- A text that is written between single quotes can be read from there, unless a line feed is in
it. -/
theorem quotable_of_singleAllowed {cs : List Char} (h : singleAllowed cs = true)
    (hfeed : '\n' ∉ cs) : Quotable .none cs := by
  obtain ⟨hstart, hend, htab, -⟩ := singleAllowed_eq_true h
  refine ⟨trivial, ?_, hstart, hend, ?_, ?_⟩
  · intro c hc
    constructor
    · rintro rfl
      exact hfeed hc
    · rintro rfl
      exact htab hc
  · intro h
    cases h
  · intro _ h
    cases h

/-! ### Double quotes -/

/-- How a character is read that begins no escape. -/
theorem doubleQuoted_cons {c : Char} (h : c ≠ '\\') (gap : Gap) (line column : Nat)
    (rest : List Char) :
    doubleQuoted gap line column (c :: rest) =
      if isBreak c then doubleQuoted (gap.newline c) (line + 1) 0 rest
      else if column = 0 ∧ startsMarker (c :: rest) then none
      else if isBlank c then doubleQuoted (gap.blank c) line (column + 1) rest
      else if c = '"' then some ⟨gap.text, line, column + 1, rest⟩
      else (doubleQuoted .none line (column + 1) rest).map (·.after (gap.text ++ [c])) := by
  rw [doubleQuoted]
  all_goals
    intros
    contradiction

/-- A character that is written as itself between double quotes. -/
theorem writable_of_escaped {c : Char} (h : escaped c = [c]) :
    c ≠ '"' ∧ c ≠ '\\' ∧ isWritable c = true ∧ isBreak c = false := by
  unfold escaped at h
  split at h
  · cases h
  · cases h
  · rename_i hquote hslash
    split at h
    · rename_i hc
      rw [Bool.and_eq_true, Bool.not_eq_true'] at hc
      exact ⟨hquote, hslash, hc.1, hc.2⟩
    · split at h
      case h_13 =>
        split at h
        · cases h
        · split at h
          · cases h
          · cases h
      -- an escape by a letter is two characters long
      all_goals cases h

theorem eq_ofNat {c : Char} {n : Nat} (h : c.toNat = n) : c = Char.ofNat n := by
  rw [← h, Char.ofNat_toNat]

/-- A character that can be written and has no meaning stands for itself. -/
theorem escaped_eq_self {c : Char} (hquote : c ≠ '"') (hslash : c ≠ '\\')
    (h : (isWritable c && !isBreak c) = true) : escaped c = [c] := by
  unfold escaped
  split
  · exact absurd rfl hquote
  · exact absurd rfl hslash
  · rw [if_pos h]

/-- Any other character stands behind a backslash, and its escape is read as the character. -/
theorem doubleQuoted_escape {c : Char} (h : escaped c ≠ [c]) (gap : Gap) (line column : Nat)
    (rest : List Char) :
    ∃ next, 0 < next ∧ doubleQuoted gap line column (escaped c ++ rest) =
      (doubleQuoted .none line next rest).map (·.after (gap.text ++ [c])) := by
  unfold escaped
  split
  · exact ⟨column + 2, by omega, rfl⟩
  · exact ⟨column + 2, by omega, rfl⟩
  · rename_i hquote hslash
    split
    · exact absurd (escaped_eq_self hquote hslash ‹_›) h
    · split
      case h_13 =>
        -- no letter stands for the character, so its number does, in the width it needs
        have hwidths : Nat.pow 16 2 = 256 ∧ Nat.pow 16 4 = 65536 ∧ Nat.pow 16 8 = 4294967296 :=
          ⟨rfl, rfl, rfl⟩
        dsimp only
        split
        · have hread := Text.charOfHex?_hexDigits digitValue?_toUpper 2 (c := c) (by omega)
          refine ⟨column + 4, by omega, ?_⟩
          show (Text.charOfHex? ((Text.hexDigits 2 c.toNat).map Char.toUpper)).bind _ = _
          rw [hread]
          rfl
        · split
          · have hread := Text.charOfHex?_hexDigits digitValue?_toUpper 4 (c := c) (by omega)
            refine ⟨column + 6, by omega, ?_⟩
            show (Text.charOfHex? ((Text.hexDigits 4 c.toNat).map Char.toUpper)).bind _ = _
            rw [hread]
            rfl
          · have hcode : c.toNat < 4294967296 := c.val.toNat_lt
            have hread := Text.charOfHex?_hexDigits digitValue?_toUpper 8 (c := c) (by omega)
            refine ⟨column + 10, by omega, ?_⟩
            show (Text.charOfHex? ((Text.hexDigits 8 c.toNat).map Char.toUpper)).bind _ = _
            rw [hread]
            rfl
      all_goals
        rename_i hcode
        rw [eq_ofNat hcode]
        exact ⟨column + 2, by omega, rfl⟩

theorem isBlank_of_isWritable {c : Char} (h : isWritable c = true) (hspace : c ≠ ' ') :
    isBlank c = false := by
  rw [isBlank, Bool.or_eq_false_iff, beq_eq_false_iff_ne, beq_eq_false_iff_ne]
  refine ⟨hspace, ?_⟩
  rintro rfl
  cases h

/-- A text between double quotes is read back as it is, whatever is in it. -/
theorem doubleQuoted_text (cs : List Char) (gap : Gap) (hgap : gap.isBroken = false)
    (line : Nat) {column : Nat} (hcolumn : 0 < column) (rest : List Char) :
    ∃ column', doubleQuoted gap line column (cs.flatMap escaped ++ '"' :: rest) =
      some ⟨gap.text ++ cs, line, column', rest⟩ := by
  induction cs generalizing gap column with
  | nil =>
    refine ⟨column + 1, ?_⟩
    rw [List.flatMap_nil, List.nil_append, List.append_nil, doubleQuoted_cons (by decide),
      if_neg (by decide), if_neg (by omega), if_neg (by decide), if_pos rfl]
  | cons c cs ih =>
    rw [List.flatMap_cons, List.append_assoc]
    by_cases hself : escaped c = [c]
    · obtain ⟨hquote, hslash, hwritable, hbreak⟩ := writable_of_escaped hself
      rw [hself, List.singleton_append, doubleQuoted_cons hslash, hbreak, if_neg (by decide),
        if_neg (by omega)]
      by_cases hspace : c = ' '
      · -- the gap takes the space
        subst hspace
        obtain ⟨column', hread⟩ :=
          ih (gap.blank ' ') (by rw [Gap.isBroken_blank, hgap]) (Nat.zero_lt_succ column)
        refine ⟨column', ?_⟩
        rw [if_pos (by decide), hread, Gap.text_blank hgap, List.append_assoc]
        rfl
      · obtain ⟨column', hread⟩ := ih .none rfl (Nat.zero_lt_succ column)
        refine ⟨column', ?_⟩
        rw [isBlank_of_isWritable hwritable hspace, if_neg (by decide), if_neg hquote, hread]
        simp [Scanned.after, Gap.text]
    · obtain ⟨next, hnext, hchar⟩ := doubleQuoted_escape hself gap line column
        (cs.flatMap escaped ++ '"' :: rest)
      obtain ⟨column', hread⟩ := ih .none rfl hnext
      refine ⟨column', ?_⟩
      rw [hchar, hread]
      simp [Scanned.after, Gap.text]

/-! ### Numbers -/

/-- A relation that no two characters of a text are in is not between neighbours either. -/
theorem anyPair_eq_false {p : Char → Char → Bool} {cs : List Char}
    (h : ∀ a ∈ cs, ∀ b ∈ cs, p a b = false) : anyPair p cs = false := by
  induction cs with
  | nil => rfl
  | cons a cs ih =>
    cases cs with
    | nil => rfl
    | cons b cs =>
      have hrest := ih fun x hx y hy => h x (by simp [hx]) y (by simp [hy])
      rw [anyPair, h a (by simp) b (by simp), hrest]
      rfl

/-- A character of a number. -/
def inNumber (c : Char) : Bool := c.isDigit || c == '-'

theorem inNumber_ne {c d : Char} (hc : inNumber c = true) (hd : inNumber d = false) : c ≠ d := by
  rintro rfl
  rw [hc] at hd
  cases hd

theorem isVisible_of_inNumber {c : Char} (h : inNumber c = true) : Text.IsVisible c := by
  rw [inNumber, Bool.or_eq_true, beq_iff_eq] at h
  rcases h with h | rfl
  · exact Text.isVisible_of_isAlphanum (Text.isAlphanum_of_isDigit h)
  · unfold Text.IsVisible
    decide

/-- Digits with a sign in front of them or none. -/
structure IsNumber (cs : List Char) : Prop where
  chars : ∀ c ∈ cs, inNumber c = true
  starts : ∃ d ds, d.isDigit = true ∧ (cs = d :: ds ∨ cs = '-' :: d :: ds)

/-- Integers are written as numbers. -/
theorem isNumber_intText (n : Int) : IsNumber (intText n).toList := by
  obtain ⟨ds, hds, hspelling⟩ := intText_spelling n
  obtain ⟨d, ds, rfl⟩ := List.exists_cons_of_ne_nil hds.ne_nil
  have hdigits : ∀ c ∈ d :: ds, inNumber c = true := by
    intro c hc
    rw [inNumber, hds.isDigit c hc]
    rfl
  refine ⟨?_, d, ds, hds.isDigit d (by simp), hspelling⟩
  rcases hspelling with h | h
  · rw [h]
    exact hdigits
  · rw [h]
    intro c hc
    rcases List.mem_cons.1 hc with rfl | hc
    · rfl
    · exact hdigits c hc

namespace IsNumber

variable {cs : List Char}

theorem isVisible (h : IsNumber cs) : ∀ c ∈ cs, Text.IsVisible c :=
  fun c hc => isVisible_of_inNumber (h.chars c hc)

/-- A number has nothing in it that single quotes do not allow. -/
theorem singleAllowed (h : IsNumber cs) : singleAllowed cs = true := by
  have hstart : breakThenSpace cs = false := anyPair_eq_false fun a ha b _ => by
    rw [isBreak_of_isVisible (h.isVisible a ha)]
    rfl
  have hend : spaceThenBreak cs = false := anyPair_eq_false fun a _ b hb => by
    rw [isBreak_of_isVisible (h.isVisible b hb), Bool.and_false]
  have htab : cs.contains '\t' = false := by
    rw [List.contains_eq_any_beq, List.any_eq_false]
    intro c hc htab
    exact inNumber_ne (h.chars c hc) (by decide) (eq_of_beq htab).symm
  -- all characters of a number are visible
  have hspecial : hasSpecial cs = false := by
    rw [hasSpecial, List.any_eq_false]
    intro c hc
    rw [isWritable_of_isVisible (h.isVisible c hc), Bool.not_true, Bool.and_false]
    decide
  rw [Yaml.singleAllowed, hstart, hend, htab, hspecial]
  rfl

/-- A number needs no quotes: its minus sign is followed by a digit, and so is no indicator. -/
theorem plainAllowed (h : IsNumber cs) : plainAllowed cs = true := by
  have hmargin : hasMargin cs = false := by
    have houter : ∀ c ∈ cs, (c == ' ' || isBreak c) = false := by
      intro c hc
      rw [isBreak_of_isVisible (h.isVisible c hc), Bool.or_false, beq_eq_false_iff_ne]
      exact inNumber_ne (h.chars c hc) (by decide)
    rw [hasMargin, Bool.or_eq_false_iff]
    constructor
    · cases hhead : cs.head? with
      | none => rfl
      | some c => exact houter c (List.mem_of_head? hhead)
    · cases hlast : cs.getLast? with
      | none => rfl
      | some c => exact houter c (List.mem_of_getLast? hlast)
  have hbreaks : cs.any isBreak = false := by
    rw [List.any_eq_false]
    intro c hc
    rw [isBreak_of_isVisible (h.isVisible c hc)]
    decide
  obtain ⟨d, ds, hd, hcs⟩ := h.starts
  -- what could be taken for an indicator is no digit, and a dash counts only in front of a gap
  have hstarts : startsIndicator cs = false := by
    have hmarks : ['#', ',', '[', ']', '\x7b', '\x7d', '&', '*', '!', '|', '>', '\'', '"', '%',
        '@', '\x60'].all (!·.isDigit) = true := by decide
    have hdashes : ['?', ':', '-'].all (!·.isDigit) = true := by decide
    rcases hcs with rfl | rfl
    · rw [startsIndicator, Bool.or_eq_false_iff, Bool.and_eq_false_iff, decide_eq_false_iff_not,
        decide_eq_false_iff_not]
      constructor
      · intro hmem
        have hother := List.all_eq_true.1 hmarks d hmem
        rw [hd] at hother
        cases hother
      · left
        intro hmem
        have hother := List.all_eq_true.1 hdashes d hmem
        rw [hd] at hother
        cases hother
    · have hblank := isBlank_of_isVisible (h.isVisible d (by simp))
      simp [startsIndicator, hblank]
  have hholds : holdsIndicator cs = false := by
    rw [holdsIndicator, Bool.or_eq_false_iff, beq_eq_false_iff_ne]
    constructor
    · intro hlast
      exact inNumber_ne (h.chars ':' (List.mem_of_getLast? hlast)) (by decide) rfl
    · apply anyPair_eq_false
      intro a ha b _
      rw [isBlank_of_isVisible (h.isVisible a ha), isBreak_of_isVisible (h.isVisible a ha),
        beq_eq_false_iff_ne.2 (inNumber_ne (h.chars a ha) (by decide))]
      rfl
  -- three dashes or dots are no number
  have hmarker : looksLikeMarker cs = false := by
    unfold looksLikeMarker
    split
    · rename_i rest
      rcases hcs with hcs | hcs
      · rw [← (List.cons.inj hcs).1] at hd
        cases hd
      · rw [← (List.cons.inj (List.cons.inj hcs).2).1] at hd
        cases hd
    · exact absurd (h.chars '.' (by simp)) (by decide)
    · rfl
  rw [Yaml.plainAllowed, h.singleAllowed, hmargin, hbreaks, hstarts, hholds, hmarker]
  rfl

end IsNumber

open Text.Moment in
/-- What is left behind a part of a date is from the text. -/
theorem mem_of_number {padded : Bool} {cs rest : List Char} {n : Nat}
    (h : number padded cs = some (n, rest)) {c : Char} (hc : c ∈ rest) : c ∈ cs := by
  unfold number at h
  split at h
  · split at h
    · cases h
      simp [hc]
    · split at h
      · cases h
        exact List.mem_cons_of_mem _ hc
      · cases h
  · split at h
    · cases h
      cases hc
    · cases h
  · cases h

/-- A date has dashes. -/
theorem date_of_digits {cs : List Char} (h : ∀ c ∈ cs, c.isDigit = true) (padded : Bool) :
    Text.Moment.date padded cs = none := by
  rw [Text.Moment.date]
  cases hcentury : Text.Moment.number true cs with
  | none => rfl
  | some r =>
    obtain ⟨century, rest⟩ := r
    show (Text.Moment.number true rest).bind _ = none
    cases hyear : Text.Moment.number true rest with
    | none => rfl
    | some r =>
      obtain ⟨year, rest'⟩ := r
      show (Text.expect? '-' rest').bind _ = none
      cases rest' with
      | nil => rfl
      | cons c rest' =>
        have hc : c.isDigit = true :=
          h c (mem_of_number hcentury (mem_of_number hyear List.mem_cons_self))
        rw [Text.expect?, if_neg (isDigit_ne hc (by decide))]
        rfl

/-- No integer is read as a date. -/
theorem isMoment_intText (n : Int) : Scalar.isMoment (intText n).toList = false := by
  obtain ⟨ds, hds, h | h⟩ := intText_spelling n
  · -- every moment starts with a date
    rw [h, Scalar.isMoment, date_of_digits hds.isDigit]
    exact Bool.and_false _
  · -- a sign is no part of a year
    rw [h, Scalar.isMoment]
    rfl

/-- A number is none of the words with a meaning of their own. -/
theorem IsNumber.notMem {s : String} (h : IsNumber s.toList) {words : List String}
    (hwords : ∀ w ∈ words, (w.toList.all inNumber && !w.toList.isEmpty) = false) : s ∉ words := by
  intro hmem
  have hall : s.toList.all inNumber = true := List.all_eq_true.2 h.chars
  obtain ⟨d, ds, -, hcs | hcs⟩ := h.starts
  all_goals
    have := hwords s hmem
    rw [hall, hcs] at this
    cases this

/-- An integer without quotes is read as the integer. -/
theorem ofPlain_intText (n : Int64) : Scalar.ofPlain (intText n.toInt) = .whole n := by
  have hnumber := isNumber_intText n.toInt
  -- without underscores nothing is left out
  have hfilter : (intText n.toInt).toList.filter (· != '_') = (intText n.toInt).toList := by
    rw [List.filter_eq_self]
    intro c hc
    rw [bne_iff_ne]
    exact inNumber_ne (hnumber.chars c hc) (by decide)
  have hread : Scalar.ofNumber (intText n.toInt).toList = .whole n := by
    rw [Scalar.ofNumber, isMoment_intText, if_neg (by decide), hfilter, Scalar.ofWhole?,
      readAnyBase_intText]
  have hnamed : Scalar.namedNumber? (intText n.toInt) = none := by
    rw [Scalar.namedNumber?, if_neg (hnumber.notMem (by decide)),
      if_neg (hnumber.notMem (by decide)), if_neg (hnumber.notMem (by decide))]
  rw [Scalar.ofPlain, if_neg (hnumber.notMem (by decide)), if_neg (hnumber.notMem (by decide)),
    if_neg (hnumber.notMem (by decide)), hnamed]
  obtain ⟨d, ds, hd, hcs | hcs⟩ := hnumber.starts
  · rw [hcs] at hread ⊢
    show (if (d.isDigit || d == '+' || d == '-') = true then _ else _) = _
    rw [hd]
    exact hread
  · rw [hcs] at hread ⊢
    exact hread

end CommandHost.Yaml
