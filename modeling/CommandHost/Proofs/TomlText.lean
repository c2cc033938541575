/-
CommandHost/Proofs/TomlText.lean

TOML documents that are written read back as themselves.

A document here is a list of sections, each a header and keys with values, every value on
the line of its key.  `Line` and `Section` carry what makes them readable: bare keys that
differ from each other, and a value that the reader takes off the front of whatever
follows its line.  Strings, whole numbers and truth values are such values
(`value?_writeText`, `value?_intText`, `value?_truth`), and a document of such
sections is read as the tables it was written from (`read?_sections`).
-/
import CommandHost.Proofs.Numerals
import CommandHost.Toml.Document

namespace CommandHost.Toml

open Number

/-! ### Strings -/

theorem hexDigits_four (n : Nat) : ∃ a b c d, Text.hexDigits 4 n = [a, b, c, d] :=
  ⟨_, _, _, _, rfl⟩

/-- A character that stands for itself. -/
theorem basic_cons {c : Char} (hquote : c ≠ '"') (hslash : c ≠ '\\') (hbreak : isBreak c = false)
    (rest : List Char) : basic (c :: rest) = (basic rest).after [c] := by
  rw [basic.eq_def]
  split <;> simp_all

/-- Each character comes back, however it is written. -/
theorem basic_escaped (c : Char) (rest : List Char) :
    basic (escaped c ++ rest) = (basic rest).after [c] := by
  unfold escaped
  split
  case h_8 hquote hslash _ _ hfeed _ hreturn =>
    -- the characters without a name: control characters by number, all others as they are
    split
    · have hc : c.toNat < Nat.pow 16 4 := by
        have : Nat.pow 16 4 = 65536 := rfl
        omega
      have hread := Text.charOfHex?_hexDigits (f := id) digitValue?_digitChar 4 hc
      obtain ⟨w, x, y, z, hdigits⟩ := hexDigits_four c.toNat
      rw [List.map_id, hdigits] at hread
      rw [hdigits]
      show basic ('\\' :: 'u' :: w :: x :: y :: z :: rest) = _
      rw [basic, hread]
      rfl
    · apply basic_cons hquote hslash
      rw [isBreak, Bool.or_eq_false_iff, beq_eq_false_iff_ne, beq_eq_false_iff_ne]
      exact ⟨hfeed, hreturn⟩
  all_goals rfl

/-- A string ends at the first quote that is not escaped, and all of it comes back. -/
theorem basic_text (cs rest : List Char) :
    basic (cs.flatMap escaped ++ '"' :: rest) = some (cs, rest) := by
  induction cs with
  | nil => rfl
  | cons c cs ih =>
    rw [List.flatMap_cons, List.append_assoc, basic_escaped, ih]
    rfl

/-- A string that is not triple quoted. -/
theorem value?_quote {cs : List Char} (h : ∀ r, cs ≠ '"' :: '"' :: r) (fuel : Nat) :
    value? (fuel + 1) ('"' :: cs) = textItem (basic cs) := by
  rw [value?]
  exact h

/-- No character is written as nothing. -/
theorem escaped_ne_nil (c : Char) : escaped c ≠ [] := by
  unfold escaped
  split
  case h_8 => split <;> simp
  all_goals simp

/-- A quote is written behind a backslash. -/
theorem head_escaped (c : Char) : (escaped c).head? ≠ some '"' := by
  unfold escaped
  split
  case h_8 hquote _ _ _ _ _ _ =>
    split
    · simp
    · simpa using hquote
  all_goals simp

/-- A string that is written is read up to its closing quote. -/
theorem value?_writeText (s : String) (fuel : Nat) (rest : List Char) :
    value? (fuel + 1) (writeText s ++ '\n' :: rest) = some (.text s, '\n' :: rest) := by
  have htext : writeText s ++ '\n' :: rest =
      '"' :: (s.toList.flatMap escaped ++ '"' :: '\n' :: rest) := by
    simp [writeText]
  rw [htext, value?_quote, basic_text]
  · show some (Item.text (String.ofList s.toList), _) = _
    rw [String.ofList_toList]
  · -- the text is empty and the line ends behind the second quote, or its first character is
    -- written without a quote in front
    intro r h
    cases hs : s.toList with
    | nil => simp [hs] at h
    | cons c cs =>
      obtain ⟨d, ds, hd⟩ := List.exists_cons_of_ne_nil (escaped_ne_nil c)
      have := head_escaped c
      simp_all

/-! ### Numbers and truth values -/

/-- A value that begins like a number or a word is one. -/
theorem value?_atom {c : Char} (h : c = '-' ∨ c.isAlphanum = true) (fuel : Nat)
    (cs : List Char) : value? (fuel + 1) (c :: cs) = atom? (c :: cs) := by
  rw [value?]
  all_goals
    intro rest heq
    rw [(List.cons.inj heq).1] at h
    revert h
    decide

theorem isHexDigit_of_isDigit {c : Char} (h : c.isDigit = true) : isHexDigit c = true := by
  have hlow : '0' ≤ c ∧ c ≤ '9' := by
    simpa [Char.isDigit, Char.le_def] using h
  have hnum : 48 ≤ c.toNat ∧ c.toNat ≤ 57 := hlow
  rw [isHexDigit, digitValue?, if_pos hlow]
  exact decide_eq_true (show c.toNat - 48 < 16 by omega)

/-- Digits have no underscores in wrong places, as they have none. -/
theorem underscoresPlaced_of_digits {ds : List Char} (h : ∀ c ∈ ds, c.isDigit = true)
    (before : Bool) (hne : ds = [] → before = true) : underscoresPlaced before ds = true := by
  induction ds generalizing before with
  | nil => exact hne rfl
  | cons c cs ih =>
    have hc := h c (by simp)
    rw [underscoresPlaced, isHexDigit_of_isDigit hc]
    have hbar : (c != '_') = true := bne_iff_ne.2 (isDigit_ne hc (by decide))
    rw [hbar]
    exact ih (fun d hd => h d (by simp [hd])) true (fun _ => rfl)

/-- Digits that stand for a number have no zero in front. -/
theorem hasLeadingZero_of_digits {ds : List Char} (h : Digits ds) :
    hasLeadingZero ds = false ∧ hasLeadingZero ('-' :: ds) = false := by
  obtain ⟨c, cs, rfl⟩ := List.exists_cons_of_ne_nil h.ne_nil
  have hc := h.isDigit c (by simp)
  by_cases hzero : c = '0'
  · have hcs := h.zero cs (by rw [hzero])
    rw [hzero, hcs]
    decide
  · constructor
    · unfold hasLeadingZero
      split
      · simp_all
      · rename_i heq
        obtain ⟨rfl, -⟩ := List.cons.inj heq
        rw [Bool.or_eq_false_iff, beq_eq_false_iff_ne, beq_eq_false_iff_ne]
        exact ⟨isDigit_ne hc (by decide), isDigit_ne hc (by decide)⟩
      · rfl
    · unfold hasLeadingZero
      split <;> simp_all

/-- The text of a number is read as that number. -/
theorem wholeOf?_intText (n : Int64) : wholeOf? (intText n.toInt).toList = some (.whole n) := by
  obtain ⟨ds, hds, hspelling⟩ := intText_spelling n.toInt
  have hzero := hasLeadingZero_of_digits hds
  have hbars := underscoresPlaced_of_digits hds.isDigit false (fun h => absurd h hds.ne_nil)
  have hplaced : (underscoresPlaced false (intText n.toInt).toList &&
      !hasLeadingZero (intText n.toInt).toList) = true := by
    rcases hspelling with h | h
    · rw [h, hbars, hzero.1]
      rfl
    · rw [h, hzero.2]
      exact Bool.and_eq_true_iff.2 ⟨hbars, rfl⟩
  rw [wholeOf?, if_pos hplaced, readAnyBase_intText]

/-- Digits up to the end of their line. -/
theorem decimal?_digits {ds : List Char} (h : Digits ds) (sign rest : List Char) :
    decimal? sign (ds ++ '\n' :: rest) =
      (wholeOf? (sign ++ ds)).map fun i => (i, '\n' :: rest) := by
  have hin : ∀ c ∈ ds, inWhole c = true := fun c hc => by simp [inWhole, h.isDigit c hc]
  have hdrop : (ds ++ '\n' :: rest).dropWhile inWhole = '\n' :: rest := by
    rw [List.dropWhile_append_of_pos hin]
    rfl
  have htake : (ds ++ '\n' :: rest).takeWhile inWhole = ds := by
    rw [List.takeWhile_append_of_pos hin]
    exact List.append_nil ds
  rw [decimal?, hdrop]
  show (if '\n' = '.' ∨ '\n' = 'e' ∨ '\n' = 'E' then _ else run? inWhole _ _) = _
  rw [if_neg (by decide), run?, hdrop, htake]

/-- Digits up to a line end are neither a date nor in another base. -/
theorem unsigned?_digits {ds : List Char} (h : Digits ds) (rest : List Char) :
    unsigned? (ds ++ '\n' :: rest) = decimal? [] (ds ++ '\n' :: rest) := by
  have hdated : unsigned?.dated (ds ++ '\n' :: rest) = decimal? [] (ds ++ '\n' :: rest) := by
    rw [unsigned?.dated, List.dropWhile_append_of_pos h.isDigit]
    rfl
  rw [← hdated, unsigned?.eq_def]
  split
  · rename_i c d more heq
    -- a zero in front of something stands alone, and the line end is no base
    obtain ⟨x, cs, rfl⟩ := List.exists_cons_of_ne_nil h.ne_nil
    rw [List.cons_append] at heq
    obtain ⟨hx, htail⟩ := List.cons.inj heq
    rw [h.zero cs (by rw [hx])] at htail
    have hc : c = '\n' := (List.cons.inj htail).1.symm
    rw [if_neg (by rw [hc]; decide)]
  · rfl

/-- A number that is written is read up to the end of its line, with a sign or without. -/
theorem value?_intText (n : Int64) (fuel : Nat) (rest : List Char) :
    value? (fuel + 1) ((intText n.toInt).toList ++ '\n' :: rest) =
      some (.whole n, '\n' :: rest) := by
  obtain ⟨ds, hds, hspelling⟩ := intText_spelling n.toInt
  have hwhole := wholeOf?_intText n
  obtain ⟨c, cs, hcons⟩ := List.exists_cons_of_ne_nil hds.ne_nil
  have hc : c.isDigit = true := hds.isDigit c (by simp [hcons])
  rcases hspelling with h | h
  · -- the digits stand alone
    have hsign : ¬ (c = '+' ∨ c = '-') := by
      rintro (h' | h')
      · exact isDigit_ne hc (by decide) h'
      · exact isDigit_ne hc (by decide) h'
    rw [h] at hwhole ⊢
    calc value? (fuel + 1) (ds ++ '\n' :: rest)
      _ = atom? (ds ++ '\n' :: rest) := by
        rw [hcons, List.cons_append]
        exact value?_atom (.inr (Text.isAlphanum_of_isDigit hc)) fuel _
      _ = unsigned? (ds ++ '\n' :: rest) := by
        rw [hcons, List.cons_append, atom?.eq_def]
        show (if c = '+' ∨ c = '-' then _ else if c.isDigit = true then _ else _) = _
        rw [if_neg hsign, if_pos hc]
      _ = some (.whole n, '\n' :: rest) := by
        rw [unsigned?_digits hds, decimal?_digits hds, List.nil_append, hwhole]
        rfl
  · -- a minus in front of the digits
    rw [h] at hwhole ⊢
    calc value? (fuel + 1) ('-' :: (ds ++ '\n' :: rest))
      _ = atom? ('-' :: (ds ++ '\n' :: rest)) := value?_atom (.inl rfl) fuel _
      _ = decimal? ['-'] (ds ++ '\n' :: rest) := by
        rw [hcons, List.cons_append, atom?.eq_def]
        show (if c.isDigit = true then _ else _) = _
        rw [if_pos hc]
      _ = some (.whole n, '\n' :: rest) := by
        rw [decimal?_digits hds]
        show (wholeOf? ('-' :: ds)).map _ = _
        rw [hwhole]
        rfl

/-- Truth values are words. -/
theorem value?_truth (b : Bool) (fuel : Nat) (rest : List Char) :
    value? (fuel + 1) ((if b then "true".toList else "false".toList) ++ '\n' :: rest) =
      some (.truth b, '\n' :: rest) := by
  cases b with
  | true =>
    show value? (fuel + 1) ('t' :: 'r' :: 'u' :: 'e' :: '\n' :: rest) = _
    rw [value?_atom (.inr (by decide))]
    rfl
  | false =>
    show value? (fuel + 1) ('f' :: 'a' :: 'l' :: 's' :: 'e' :: '\n' :: rest) = _
    rw [value?_atom (.inr (by decide))]
    rfl

/-! ### Keys -/

/-- A key that needs no quotes. -/
structure IsBare (key : String) : Prop where
  ne_nil : key.toList ≠ []
  bare : ∀ c ∈ key.toList, isBare c = true

/-- Whether a key is bare can be computed. -/
theorem IsBare.of_all {key : String} (h : (!key.toList.isEmpty && key.toList.all isBare) = true) :
    IsBare key := by
  rw [Bool.and_eq_true, List.all_eq_true] at h
  refine ⟨?_, h.2⟩
  intro hnil
  rw [hnil] at h
  exact absurd h.1 (by decide)

/-- Blanks do not stand in bare keys. -/
theorem isSpace_of_isBare {c : Char} (h : isBare c = true) : isSpace c = false := by
  rw [Bool.eq_false_iff]
  intro hs
  rcases Bool.or_eq_true_iff.1 hs with hs | hs
  all_goals
    rw [eq_of_beq hs] at h
    cases h

/-- A key in front of something that cannot continue it. -/
theorem key?_bare {key : String} (hkey : IsBare key) (rest : List Char) {next : List Char}
    {stop : Char} (hrest : (rest.head?.map isBare).getD false = false)
    (hnext : skipSpace rest = stop :: next) (hstop : stop ≠ '.') (fuel : Nat) :
    key? (fuel + 1) (key.toList ++ rest) = some ([key], stop :: next) := by
  obtain ⟨c, cs, hcons⟩ := List.exists_cons_of_ne_nil hkey.ne_nil
  have hc : isBare c = true := hkey.bare c (by simp [hcons])
  have hskip : skipSpace (key.toList ++ rest) = key.toList ++ rest := by
    rw [hcons, List.cons_append, skipSpace, List.dropWhile_cons, isSpace_of_isBare hc]
    rfl
  have htake : (key.toList ++ rest).takeWhile isBare = key.toList := by
    rw [List.takeWhile_append_of_pos hkey.bare]
    cases rest with
    | nil => exact List.append_nil _
    | cons d ds =>
      have : isBare d = false := hrest
      rw [List.takeWhile_cons, this]
      exact List.append_nil _
  have hdrop : (key.toList ++ rest).dropWhile isBare = rest := by
    rw [List.dropWhile_append_of_pos hkey.bare]
    cases rest with
    | nil => rfl
    | cons d ds =>
      have : isBare d = false := hrest
      rw [List.dropWhile_cons, this]
      rfl
  -- the key is everything up to the first character that is not bare
  have hpart : keyPart? (key.toList ++ rest) = some (key, rest) := by
    rw [keyPart?.eq_def]
    -- a bare character opens no quotes
    split
    · rename_i heq
      rw [hcons, List.cons_append, List.cons.injEq] at heq
      rw [heq.1] at hc
      cases hc
    · rename_i heq
      rw [hcons, List.cons_append, List.cons.injEq] at heq
      rw [heq.1] at hc
      cases hc
    · rw [htake, hdrop]
      split
      · exact absurd ‹_› hkey.ne_nil
      · rw [String.ofList_toList]
  rw [key?, hskip, hpart]
  simp only [Option.bind_eq_bind, Option.bind_some, hnext]
  split
  · rename_i heq
    exact absurd (List.cons.inj heq).1 hstop
  · rfl

/-! ### Entries -/

namespace Entries

theorem lookup_of_not_mem {es : Entries} {key : String} (h : key ∉ es.map Prod.fst) :
    es.lookup key = none := by
  rw [List.lookup_eq_none_iff]
  intro e he
  rw [bne_iff_ne]
  rintro rfl
  exact h (List.mem_map_of_mem he)

theorem lookup_append_of_not_mem {es : Entries} {key : String} (h : key ∉ es.map Prod.fst)
    (item : Item) : (es ++ [(key, item)]).lookup key = some item := by
  rw [List.lookup_append, lookup_of_not_mem h]
  simp

/-- The entry that was added last is replaced in place. -/
theorem replace_append_of_not_mem {es : Entries} {key : String} (h : key ∉ es.map Prod.fst)
    (old new : Item) : replace key new (es ++ [(key, old)]) = es ++ [(key, new)] := by
  induction es with
  | nil => simp [replace]
  | cons e es ih =>
    rw [List.map_cons, List.mem_cons, not_or] at h
    rw [List.cons_append, replace, if_neg (Ne.symm h.1), ih h.2]
    rfl

end Entries

namespace Document

/-- A header with a new name adds an empty table. -/
theorem startTable?_new {es : Entries} {name : String} (h : name ∉ es.map Prod.fst)
    (current : List String) :
    startTable? ⟨es, current⟩ [name] = some ⟨es ++ [(name, .table [] false)], [name]⟩ := by
  show (Entries.openTable? name es).map _ = _
  rw [Entries.openTable?, Entries.alter?, Entries.lookup_of_not_mem h]
  rfl

/-- A new key is added to the table that was opened last. -/
theorem define?_new {es fields : Entries} {name key : String} (hname : name ∉ es.map Prod.fst)
    (hkey : key ∉ fields.map Prod.fst) (item : Item) :
    define? ⟨es ++ [(name, .table fields false)], [name]⟩ [key] item =
      some ⟨es ++ [(name, .table (fields ++ [(key, item)]) false)], [name]⟩ := by
  have hfields : Entries.define? key item fields = some (fields ++ [(key, item)]) := by
    rw [Entries.define?, Entries.alter?, Entries.lookup_of_not_mem hkey]
    rfl
  show (Entries.within? (Entries.define? key item) [name] _).map _ = _
  rw [Entries.within?, Entries.alter?, Entries.lookup_append_of_not_mem hname]
  show ((Option.map _ (Option.map _ (Entries.define? key item fields))).map _) = _
  rw [hfields]
  show some (Document.mk (Entries.replace name _ (es ++ [(name, _)])) [name]) = _
  rw [Entries.replace_append_of_not_mem hname]

end Document

/-! ### Lines -/

/-- A character that may stand in a line. -/
def isShown (c : Char) : Bool := 0x20 ≤ c.toNat && c.toNat != 0x7F

/-- A key and a value on one line. -/
structure Line where
  key : String
  value : List Char
  item : Item
  bare : IsBare key
  /-- The value is read whatever the next lines are. -/
  reads : ∀ fuel rest, value? (fuel + 1) (value ++ '\n' :: rest) = some (item, '\n' :: rest)
  unspaced : (value.head?.map isSpace).getD false = false
  shown : ∀ c ∈ value, isShown c = true

/-- A table of the document. -/
structure Section where
  name : String
  lines : List Line
  bare : IsBare name
  distinct : (lines.map (·.key)).Nodup

namespace Line

def render (l : Line) : List Char :=
  ' ' :: ' ' :: l.key.toList ++ [' ', '=', ' '] ++ (l.value ++ ['\n'])

def entry (l : Line) : String × Item := (l.key, l.item)

end Line

namespace Section

def render (s : Section) : List Char :=
  '[' :: s.name.toList ++ [']', '\n'] ++ s.lines.flatMap Line.render

def entry (s : Section) : String × Item := (s.name, .table (s.lines.map Line.entry) false)

end Section

theorem intercalate_cons_cons (x y : List Char) (xs : List (List Char)) :
    List.intercalate ['\n'] (x :: y :: xs) = x ++ '\n' :: List.intercalate ['\n'] (y :: xs) := by
  simp [List.intercalate]

namespace Document

/-- Blanks and empty lines in front of a line do not count. -/
theorem lines?_skip {c : Char} (h : c = ' ' ∨ c = '\n') (fuel : Nat) (d : Document)
    (cs : List Char) : lines? fuel d (c :: cs) = lines? fuel d cs := by
  cases fuel with
  | zero => rfl
  | succ fuel =>
    have : skipLines false (c :: cs) = skipLines false cs := by
      rcases h with rfl | rfl <;> rfl
    rw [lines?, lines?, this]

/-- A line that starts with neither a blank nor a comment is read as it stands. -/
theorem lines?_start {c : Char} {cs : List Char} (hhead : cs.head? = some c)
    (h : isBare c = true ∨ c = '[') (fuel : Nat) (d : Document) :
    lines? (fuel + 1) d cs = (d.line? fuel cs).bind fun r => lines? fuel r.1 r.2 := by
  have hplain : (isSpace c || isBreak c) = false ∧ c ≠ '#' := by
    rw [Bool.eq_false_iff]
    constructor
    · intro hs
      simp only [isSpace, isBreak, Bool.or_eq_true, beq_iff_eq] at hs
      rcases hs with (rfl | rfl) | rfl | rfl <;> revert h <;> decide
    · rintro rfl
      revert h
      decide
  obtain ⟨tail, rfl⟩ := List.head?_eq_some_iff.1 hhead
  have hskip : skipLines false (c :: tail) = c :: tail := by
    rw [skipLines, hplain.1, if_neg (by decide), if_neg hplain.2]
  rw [lines?, hskip]
  rfl

/-- A header in brackets starts its table. -/
theorem line?_header {name : String} (h : IsBare name) (d : Document) (fuel : Nat)
    (rest : List Char) :
    d.line? (fuel + 1) ('[' :: (name.toList ++ ']' :: '\n' :: rest)) =
      (d.startTable? [name]).map fun d => (d, rest) := by
  have hkey := key?_bare h (']' :: '\n' :: rest) rfl rfl (by decide) fuel
  obtain ⟨c, cs, hcons⟩ := List.exists_cons_of_ne_nil h.ne_nil
  rw [line?.eq_def]
  split
  · rename_i heq
    have hc := h.bare c (by simp [hcons])
    rw [hcons, List.cons_append, List.cons.injEq, List.cons.injEq] at heq
    -- two brackets would begin an array of tables, and a bare name begins with none
    rw [heq.2.1] at hc
    cases hc
  · rename_i heq
    rw [← (List.cons.inj heq).2, hkey]
    show ((d.startTable? [name]).bind fun d => _) = _
    cases d.startTable? [name] <;> rfl
  · rename_i hnot
    exact absurd rfl (hnot _)

/-- A key with its value is defined in the current table. -/
theorem line?_line (l : Line) (d : Document) (fuel : Nat) (rest : List Char) :
    d.line? (fuel + 1) (l.key.toList ++ ' ' :: '=' :: ' ' :: (l.value ++ '\n' :: rest)) =
      (d.define? [l.key] l.item).map fun d => (d, rest) := by
  have hkey := key?_bare l.bare (' ' :: '=' :: ' ' :: (l.value ++ '\n' :: rest)) rfl rfl
    (by decide) fuel
  have hspace : skipSpace (' ' :: (l.value ++ '\n' :: rest)) = l.value ++ '\n' :: rest := by
    have := l.unspaced
    cases hv : l.value with
    | nil => rfl
    | cons c cs =>
      rw [hv] at this
      show (c :: _).dropWhile isSpace = _
      rw [List.dropWhile_cons, show isSpace c = false from this]
      rfl
  obtain ⟨c, cs, hcons⟩ := List.exists_cons_of_ne_nil l.bare.ne_nil
  have hc : c ≠ '[' := by
    rintro rfl
    exact absurd (l.bare.bare '[' (by simp [hcons])) (by decide)
  rw [line?.eq_def]
  split
  · rename_i heq
    rw [hcons, List.cons_append, List.cons.injEq] at heq
    exact absurd heq.1 hc
  · rename_i heq
    rw [hcons, List.cons_append, List.cons.injEq] at heq
    exact absurd heq.1 hc
  · rw [hkey]
    show ((value? (fuel + 1) (skipSpace (' ' :: (l.value ++ '\n' :: rest)))).bind fun r => _) = _
    rw [hspace, l.reads]
    show ((d.define? [l.key] l.item).bind fun d => _) = _
    cases d.define? [l.key] l.item <;> rfl

/-! ### Documents -/

/-- Reading one line of the table that is being filled. -/
theorem lines?_line (l : Line) {fuel : Nat} {es fields : Entries} {name : String}
    {rest : List Char} (hname : name ∉ es.map Prod.fst) (hkey : l.key ∉ fields.map Prod.fst)
    (hfuel : (l.render ++ rest).length < fuel) :
    ∃ left, rest.length < left ∧
      lines? fuel ⟨es ++ [(name, .table fields false)], [name]⟩ (l.render ++ rest) =
        lines? left ⟨es ++ [(name, .table (fields ++ [l.entry]) false)], [name]⟩ rest := by
  obtain ⟨c, cs, hcons⟩ := List.exists_cons_of_ne_nil l.bare.ne_nil
  have htext : l.render ++ rest =
      ' ' :: ' ' :: (l.key.toList ++ ' ' :: '=' :: ' ' :: (l.value ++ '\n' :: rest)) := by
    simp [Line.render]
  rw [htext] at hfuel ⊢
  simp only [List.length_cons, List.length_append] at hfuel
  -- the loop and the value each need one unit of fuel, and the line is longer than that
  obtain ⟨left, rfl⟩ : ∃ left, fuel = left + 1 + 1 := ⟨fuel - 2, by omega⟩
  refine ⟨left + 1, by omega, ?_⟩
  rw [lines?_skip (.inl rfl), lines?_skip (.inl rfl),
    lines?_start (c := c) (by rw [hcons]; rfl) (.inl (l.bare.bare c (by simp [hcons]))),
    line?_line, define?_new hname hkey]
  rfl

/-- Reading the header of a new table. -/
theorem lines?_header {name : String} (h : IsBare name) {fuel : Nat} {es : Entries}
    {current : List String} {rest : List Char} (hname : name ∉ es.map Prod.fst)
    (hfuel : ('[' :: name.toList ++ [']', '\n'] ++ rest).length < fuel) :
    ∃ left, rest.length < left ∧
      lines? fuel ⟨es, current⟩ ('[' :: name.toList ++ [']', '\n'] ++ rest) =
        lines? left ⟨es ++ [(name, .table [] false)], [name]⟩ rest := by
  have htext : '[' :: name.toList ++ [']', '\n'] ++ rest =
      '[' :: (name.toList ++ ']' :: '\n' :: rest) := by
    simp
  rw [htext] at hfuel ⊢
  simp only [List.length_cons, List.length_append] at hfuel
  obtain ⟨left, rfl⟩ : ∃ left, fuel = left + 1 + 1 := ⟨fuel - 2, by omega⟩
  refine ⟨left + 1, by omega, ?_⟩
  rw [lines?_start rfl (.inr rfl), line?_header h, startTable?_new hname]
  rfl

/-- The lines of a table, by induction on them; keys must differ from those read so far. -/
theorem lines?_lines (ls : List Line) {fuel : Nat} {es : Entries} (fields : Entries)
    {name : String} {rest : List Char} (hname : name ∉ es.map Prod.fst)
    (hkeys : (fields.map Prod.fst ++ ls.map (·.key)).Nodup)
    (hfuel : (ls.flatMap Line.render ++ rest).length < fuel) :
    ∃ left, rest.length < left ∧
      lines? fuel ⟨es ++ [(name, .table fields false)], [name]⟩ (ls.flatMap Line.render ++ rest) =
        lines? left ⟨es ++ [(name, .table (fields ++ ls.map Line.entry) false)], [name]⟩ rest := by
  induction ls generalizing fuel fields with
  | nil => exact ⟨fuel, hfuel, by simp⟩
  | cons l ls ih =>
    rw [List.flatMap_cons, List.append_assoc] at hfuel ⊢
    have hkey : l.key ∉ fields.map Prod.fst := by
      intro hmem
      exact (List.nodup_append.1 hkeys).2.2 _ hmem _ (by simp) rfl
    obtain ⟨left, hleft, hline⟩ := lines?_line l hname hkey hfuel
    -- the key of this line is among those that the next ones must avoid
    have hkeys' : ((fields ++ [l.entry]).map Prod.fst ++ ls.map (·.key)).Nodup := by
      simpa [Line.entry] using hkeys
    obtain ⟨left', hleft', hrest⟩ := ih _ hkeys' hleft
    refine ⟨left', hleft', ?_⟩
    rw [hline, hrest]
    simp

/-- A table: its header, and then its lines. -/
theorem lines?_section (s : Section) {fuel : Nat} {es : Entries} (current : List String)
    {rest : List Char} (hname : s.name ∉ es.map Prod.fst)
    (hfuel : (s.render ++ rest).length < fuel) :
    ∃ left, rest.length < left ∧
      lines? fuel ⟨es, current⟩ (s.render ++ rest) =
        lines? left ⟨es ++ [s.entry], [s.name]⟩ rest := by
  rw [Section.render, List.append_assoc] at hfuel ⊢
  obtain ⟨left, hleft, hheader⟩ := lines?_header s.bare hname hfuel
  obtain ⟨left', hleft', hlines⟩ :=
    lines?_lines s.lines [] hname (by simpa using s.distinct) hleft
  exact ⟨left', hleft', hheader.trans hlines⟩

theorem lines?_nil {fuel : Nat} (h : 0 < fuel) (d : Document) : lines? fuel d [] = some d := by
  obtain ⟨fuel, rfl⟩ : ∃ n, fuel = n + 1 := ⟨fuel - 1, by omega⟩
  rfl

/-- What was written table by table is read table by table. -/
theorem lines?_sections (ss : List Section) {fuel : Nat} (es : Entries) (current : List String)
    (hnames : (es.map Prod.fst ++ ss.map (·.name)).Nodup)
    (hfuel : (List.intercalate ['\n'] (ss.map Section.render)).length < fuel) :
    (lines? fuel ⟨es, current⟩ (List.intercalate ['\n'] (ss.map Section.render))).map (·.entries) =
      some (es ++ ss.map Section.entry) := by
  induction ss generalizing fuel es current with
  | nil =>
    show (lines? fuel ⟨es, current⟩ []).map _ = _
    rw [lines?_nil (Nat.zero_lt_of_lt hfuel)]
    simp
  | cons s ss ih =>
    have hname : s.name ∉ es.map Prod.fst := by
      intro hmem
      exact (List.nodup_append.1 hnames).2.2 _ hmem _ (by simp) rfl
    have hnames' : ((es ++ [s.entry]).map Prod.fst ++ ss.map (·.name)).Nodup := by
      simpa [Section.entry] using hnames
    cases ss with
    | nil =>
      have htext : List.intercalate ['\n'] ([s].map Section.render) = s.render ++ [] := by
        simp [List.intercalate]
      rw [htext] at hfuel ⊢
      obtain ⟨left, hleft, hread⟩ := lines?_section s current hname hfuel
      rw [hread, lines?_nil hleft]
      rfl
    | cons t ss =>
      have htext : List.intercalate ['\n'] ((s :: t :: ss).map Section.render) =
          s.render ++ '\n' :: List.intercalate ['\n'] ((t :: ss).map Section.render) :=
        intercalate_cons_cons _ _ _
      rw [htext] at hfuel ⊢
      obtain ⟨left, hleft, hread⟩ := lines?_section s current hname hfuel
      rw [hread, lines?_skip (.inr rfl), ih _ _ hnames' (Nat.lt_of_succ_lt hleft)]
      simp

end Document

/-! ### Characters -/

theorem isShown_of_isBare {c : Char} (h : isBare c = true) : isShown c = true := by
  have hcode : 33 ≤ c.toNat ∧ c.toNat < 127 := by
    rw [isBare, Bool.or_eq_true, Bool.or_eq_true, beq_iff_eq, beq_iff_eq] at h
    rcases h with (h | rfl) | rfl
    · exact Text.isVisible_of_isAlphanum h
    · decide
    · decide
  rw [isShown, Bool.and_eq_true, decide_eq_true_eq, bne_iff_ne]
  omega

/-- Control characters are escaped. -/
theorem isShown_escaped {c d : Char} (h : d ∈ escaped c) : isShown d = true := by
  have hdigits : ∀ v < 16, isShown (Nat.digitChar v) = true := by decide
  unfold escaped at h
  split at h
  case h_8 =>
    split at h
    · rcases List.mem_cons.1 h with rfl | h
      · rfl
      · rcases List.mem_cons.1 h with rfl | h
        · rfl
        · obtain ⟨v, hv, rfl⟩ := Text.mem_hexDigits h
          exact hdigits v hv
    · -- what is not a control character stands for itself
      rename_i hcontrol
      rw [List.mem_singleton.1 h, isShown, Bool.and_eq_true, decide_eq_true_eq, bne_iff_ne]
      omega
  all_goals
    simp only [List.mem_cons, List.not_mem_nil, or_false] at h
    rcases h with rfl | rfl <;> rfl

theorem isShown_writeText (s : String) : ∀ c ∈ writeText s, isShown c = true := by
  intro c h
  simp only [writeText, List.mem_append, List.mem_cons, List.mem_flatMap, List.not_mem_nil,
    or_false] at h
  rcases h with (rfl | ⟨d, -, h⟩) | rfl
  · rfl
  · exact isShown_escaped h
  · rfl

theorem Line.mem_render {l : Line} {c : Char} (h : c ∈ l.render) :
    isShown c = true ∨ c = '\n' := by
  simp only [render, List.mem_append, List.mem_cons, List.not_mem_nil, or_false] at h
  rcases h with ((rfl | rfl | h) | rfl | rfl | rfl) | h | rfl
  · exact .inl rfl
  · exact .inl rfl
  · exact .inl (isShown_of_isBare (l.bare.bare c h))
  · exact .inl rfl
  · exact .inl rfl
  · exact .inl rfl
  · exact .inl (l.shown c h)
  · exact .inr rfl

theorem Section.mem_render {s : Section} {c : Char} (h : c ∈ s.render) :
    isShown c = true ∨ c = '\n' := by
  simp only [render, List.mem_append, List.mem_cons, List.not_mem_nil, or_false,
    List.mem_flatMap] at h
  rcases h with ((rfl | h) | rfl | rfl) | ⟨l, -, h⟩
  · exact .inl rfl
  · exact .inl (isShown_of_isBare (s.bare.bare c h))
  · exact .inl rfl
  · exact .inr rfl
  · exact Line.mem_render h

/-- Between the tables there are line ends only. -/
theorem mem_intercalate {c : Char} {xs : List (List Char)}
    (h : c ∈ List.intercalate ['\n'] xs) : c = '\n' ∨ ∃ x ∈ xs, c ∈ x := by
  induction xs with
  | nil => simp [List.intercalate] at h
  | cons x xs ih =>
    cases xs with
    | nil => exact .inr ⟨x, by simp, by simpa [List.intercalate] using h⟩
    | cons y ys =>
      rw [intercalate_cons_cons, List.mem_append, List.mem_cons] at h
      rcases h with h | h | h
      · exact .inr ⟨x, by simp, h⟩
      · exact .inl h
      · rcases ih h with h | ⟨z, hz, hc⟩
        · exact .inl h
        · exact .inr ⟨z, by simp [hz], hc⟩

namespace Document

/-- A document of such characters is let through. -/
theorem isClean_of_shown {cs : List Char} (h : ∀ c ∈ cs, isShown c = true ∨ c = '\n') :
    isClean cs = true := by
  induction cs with
  | nil => rfl
  | cons c cs ih =>
    have hc := h c (by simp)
    have hcs := ih fun d hd => h d (by simp [hd])
    have hreturn : c ≠ '\r' := by
      rintro rfl
      revert hc
      decide
    rw [isClean, hcs, Bool.and_true]
    · rcases hc with hc | rfl
      · rw [isShown] at hc
        rw [hc, Bool.or_true]
      · rfl
    · intro rest heq
      exact absurd heq hreturn

/-- A document of tables with distinct names is read as these tables. -/
theorem read?_sections (ss : List Section) (hnames : (ss.map (·.name)).Nodup) :
    read? (String.ofList (List.intercalate ['\n'] (ss.map Section.render))) =
      some (ss.map Section.entry) := by
  have hclean : isClean (List.intercalate ['\n'] (ss.map Section.render)) = true := by
    apply isClean_of_shown
    intro c hc
    rcases mem_intercalate hc with rfl | ⟨x, hx, hcx⟩
    · exact .inr rfl
    · obtain ⟨s, -, rfl⟩ := List.mem_map.1 hx
      exact Section.mem_render hcx
  -- no byte order mark: a document is empty or begins with a bracket
  have hmark : Text.dropMark (List.intercalate ['\n'] (ss.map Section.render)) =
      List.intercalate ['\n'] (ss.map Section.render) := by
    cases ss with
    | nil => rfl
    | cons s ss =>
      cases ss with
      | nil => rfl
      | cons t ss => rfl
  rw [read?, String.toList_ofList]
  show (if isClean (Text.dropMark _) then _ else _) = _
  rw [hmark, if_pos hclean]
  exact lines?_sections ss [] [] hnames (Nat.lt_succ_self _)

end Document

end CommandHost.Toml
