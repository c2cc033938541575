/-
CommandHost/Proofs/YamlLiteral.lean

Texts written as literal blocks in YAML read back as themselves, but for one kind.

A block keeps the lines of a text as they are, behind an indent, and a sign in its header
says what becomes of the line ends at its end.  The text is cut there: its *body* up to
the last character that is no line end, and its *ends* (`exists_body`); the sign that is
written is the one that keeps these ends (`exists_tail`).

The reader takes the indent from the first line, so the writer tells it if that line
starts with a space or is empty.  It does not tell it if the line starts with a tab, and
the reader finds no indent behind a tab: such a block cannot be read (`block?_of_tab`).
-/
import CommandHost.Proofs.YamlText

namespace CommandHost.Yaml

/-! ### Lines -/

/-- A text has line ends behind its last other character. -/
theorem exists_body (cs : List Char) :
    ∃ body ends, cs = body ++ ends ∧ (∀ c ∈ ends, isBreak c = true) ∧
      ∀ c, body.getLast? = some c → isBreak c = false := by
  induction cs with
  | nil => exact ⟨[], [], rfl, by simp, by simp⟩
  | cons c cs ih =>
    obtain ⟨body, ends, rfl, hends, hbody⟩ := ih
    cases body with
    | cons d body => exact ⟨c :: d :: body, ends, rfl, hends, hbody⟩
    | nil =>
      by_cases hc : isBreak c = true
      · refine ⟨[], c :: ends, rfl, ?_, hbody⟩
        intro d hd
        rcases List.mem_cons.1 hd with rfl | hd
        · exact hc
        · exact hends d hd
      · refine ⟨[c], ends, rfl, hends, ?_⟩
        intro d hd
        cases hd
        exact Bool.eq_false_iff.2 hc

/-- Line ends at the end of a text get no indent. -/
theorem indented_append_ends (lineStart : Bool) (body : List Char) {ends : List Char}
    (h : ∀ c ∈ ends, isBreak c = true) :
    indented false lineStart (body ++ ends) = indented false lineStart body ++ ends := by
  induction body generalizing lineStart with
  | nil =>
    show indented false lineStart ends = ends
    induction ends generalizing lineStart with
    | nil => rfl
    | cons c ends ih =>
      rw [indented, if_pos (h c (by simp)), ih (fun d hd => h d (by simp [hd]))]
  | cons c body ih =>
    rw [List.cons_append, indented, indented]
    split
    · rw [ih]
      rfl
    · rw [ih]
      simp

/-- The blanks of an indent are skipped. -/
theorem blockLines_indent (chomping : Chomping) {indent : Nat} {s : BlockState}
    (hs : s.inLine = false) (line column n : Nat) (hindent : column + n ≤ indent)
    (rest : List Char) :
    blockLines false chomping indent s line column (List.replicate n ' ' ++ rest) =
      blockLines false chomping indent s line (column + n) rest := by
  induction n generalizing column with
  | zero => rfl
  | succ n ih =>
    rw [List.replicate_succ, List.cons_append, blockLines, if_neg (by decide), hs,
      if_neg (by decide), if_pos (by omega), if_pos rfl, ih _ (by omega), Nat.add_assoc,
      Nat.add_comm 1 n]

/-- A block ends in front of a word that is not indented far enough. -/
theorem blockLines_word (chomping : Chomping) {indent k : Nat} {word : List Char}
    (hword : IsWord k word) (hk : k < indent) {s : BlockState} (hs : s.inLine = false)
    (line : Nat) :
    blockLines false chomping indent s line 0 (List.replicate k ' ' ++ word) =
      some ⟨s.tail chomping, line, k, word⟩ := by
  rw [blockLines_indent chomping hs line 0 k (by omega), Nat.zero_add]
  rcases hword with ⟨rfl, rfl⟩ | ⟨c, cs, rfl, hc⟩
  · rfl
  · rw [blockLines, isBreak_of_isAlpha hc, if_neg (by decide), hs, if_neg (by decide), if_pos hk,
      if_neg (isAlpha_ne hc (by decide)), if_neg (isAlpha_ne hc (by decide))]

/-- Line ends on lines of their own are kept. -/
theorem blockLines_ends (chomping : Chomping) (indent : Nat) {ends : List Char}
    (h : ∀ c ∈ ends, isBreak c = true) (lead : Option Char) (more : List Char) (blank : Bool)
    (line : Nat) (rest : List Char) :
    ∃ line', blockLines false chomping indent ⟨false, lead, more, blank⟩ line 0 (ends ++ rest) =
      blockLines false chomping indent ⟨false, lead, more ++ ends, blank⟩ line' 0 rest := by
  induction ends generalizing more line with
  | nil => exact ⟨line, by simp⟩
  | cons c ends ih =>
    obtain ⟨line', hread⟩ := ih (fun d hd => h d (by simp [hd])) (more ++ [c]) (line + 1)
    refine ⟨line', ?_⟩
    rw [List.cons_append, blockLines, if_pos (h c (by simp))]
    show blockLines false chomping indent ⟨false, lead, more ++ [c], blank⟩ (line + 1) 0 _ = _
    rw [hread, List.append_assoc]
    rfl

/-- Whether the reader of a block is within a line or in front of one, and which line ends it has
passed since the last line. -/
inductive Progress : (lineStart : Bool) → (column : Nat) → BlockState → List Char → Prop
  | inside (column : Nat) (blank : Bool) : Progress false column ⟨true, none, [], blank⟩ []
  | before (lead : Option Char) (more : List Char) (blank : Bool) :
      Progress true 0 ⟨false, lead, more, blank⟩ (lead.toList ++ more)

/-- A character of a line, behind the indent if it is the first one. -/
theorem blockLines_char (chomping : Chomping) {c : Char} (hc : isBreak c = false)
    {lineStart : Bool} {column : Nat} {s : BlockState} {passed : List Char}
    (hs : Progress lineStart column s passed) (line : Nat) (rest : List Char) :
    ∃ column' blank,
      blockLines false chomping 4 s line column
          ((if lineStart then continuation else []) ++ c :: rest) =
        (blockLines false chomping 4 ⟨true, none, [], blank⟩ line column' rest).map
          (·.after (passed ++ [c])) := by
  cases hs with
  | inside column blank =>
    refine ⟨column + 1, blank, ?_⟩
    show blockLines false chomping 4 ⟨true, none, [], blank⟩ line column (c :: rest) = _
    rw [blockLines, hc]
    rfl
  | before lead more blank =>
    refine ⟨5, isBlank c, ?_⟩
    show blockLines false chomping 4 ⟨false, lead, more, blank⟩ line 0
      (List.replicate 4 ' ' ++ c :: rest) = _
    rw [blockLines_indent chomping rfl line 0 4 (by omega), blockLines, hc]
    rfl

/-- The lines of a text up to its last character that is no line end. -/
theorem blockLines_body (chomping : Chomping) {body : List Char} (hne : body ≠ [])
    (hlast : ∀ c, body.getLast? = some c → isBreak c = false) {lineStart : Bool} {column : Nat}
    {s : BlockState} {passed : List Char} (hs : Progress lineStart column s passed) (line : Nat)
    (rest : List Char) :
    ∃ line' column' blank,
      blockLines false chomping 4 s line column (indented false lineStart body ++ rest) =
        (blockLines false chomping 4 ⟨true, none, [], blank⟩ line' column' rest).map
          (·.after (passed ++ body)) := by
  induction body generalizing lineStart column s passed line with
  | nil => exact absurd rfl hne
  | cons c body ih =>
    have htail : ∀ d, body.getLast? = some d → isBreak d = false := by
      intro d hd
      apply hlast
      rw [List.getLast?_cons, hd]
      rfl
    rw [indented]
    by_cases hbreak : isBreak c = true
    · -- another line end, with something behind it
      have hbody : body ≠ [] := by
        rintro rfl
        rw [hlast c rfl] at hbreak
        cases hbreak
      rw [if_pos hbreak, List.cons_append]
      cases hs with
      | inside column blank =>
        obtain ⟨line', column', blank', hread⟩ :=
          ih hbody htail (.before (some c) [] blank) (line + 1)
        refine ⟨line', column', blank', ?_⟩
        rw [blockLines, if_pos hbreak]
        exact hread
      | before lead more blank =>
        obtain ⟨line', column', blank', hread⟩ :=
          ih hbody htail (.before lead (more ++ [c]) blank) (line + 1)
        refine ⟨line', column', blank', ?_⟩
        rw [blockLines, if_pos hbreak]
        show blockLines false chomping 4 ⟨false, lead, more ++ [c], blank⟩ (line + 1) 0 _ = _
        rw [hread]
        simp
    · rw [if_neg hbreak, List.append_assoc, List.append_assoc]
      show ∃ line' column' blank, blockLines false chomping 4 s line column
        ((if lineStart then continuation else []) ++ c :: (indented false false body ++ rest)) = _
      obtain ⟨column', blank, hchar⟩ := blockLines_char chomping (Bool.eq_false_iff.2 hbreak) hs
        line (indented false false body ++ rest)
      rw [hchar]
      -- either this was the last character, or the rest starts within the line
      by_cases hbody : body = []
      · rw [hbody]
        exact ⟨line, column', blank, rfl⟩
      · obtain ⟨line', column'', blank', hread⟩ := ih hbody htail (.inside column' blank) line
        refine ⟨line', column'', blank', ?_⟩
        rw [hread, Option.map_map]
        congr 1
        funext t
        simp [Scanned.after]

/-- The line ends behind a block and what becomes of them. -/
theorem blockLines_tail (chomping : Chomping) {first : Char} {ends : List Char}
    (hfirst : isBreak first = true) (hends : ∀ c ∈ ends, isBreak c = true) (blank : Bool)
    {k : Nat} {word : List Char} (hword : IsWord k word) (hk : k < 4) (line column : Nat) :
    ∃ line', blockLines false chomping 4 ⟨true, none, [], blank⟩ line column
        (first :: (ends ++ (List.replicate k ' ' ++ word))) =
      some ⟨BlockState.tail ⟨false, some first, ends, blank⟩ chomping, line', k, word⟩ := by
  obtain ⟨line', hread⟩ := blockLines_ends chomping 4 hends (some first) [] blank (line + 1)
    (List.replicate k ' ' ++ word)
  refine ⟨line', ?_⟩
  rw [blockLines, if_pos hfirst]
  show blockLines false chomping 4 ⟨false, some first, [], blank⟩ (line + 1) 0 _ = _
  rw [hread, blockLines_word chomping hword hk rfl]
  rfl

/-! ### The header of a block -/

/-- The sign of a chomping. -/
def Chomping.sign : Chomping → List Char
  | .strip => ['-']
  | .clip => []
  | .keep => ['+']

/-- The chomping that keeps the line ends of a text: none if there are none, all of them if there is
more than one or nothing else. -/
def chompingFor (body ends : List Char) : Chomping :=
  if ends.isEmpty then .strip else if !body.isEmpty && ends.length == 1 then .clip else .keep

/-- Whether the first line of a block cannot tell the indent. -/
def startsBlank (cs : List Char) : Bool := (cs.head?.map fun c => c == ' ' || isBreak c).getD false

/-- The hints tell the indent where the text begins with a blank, and how to treat the line ends
behind it. -/
theorem blockHints_append {body ends : List Char} (hne : body ++ ends ≠ [])
    (hends : ∀ c ∈ ends, isBreak c = true)
    (hbody : ∀ c, body.getLast? = some c → isBreak c = false) :
    blockHints (body ++ ends) =
      (if startsBlank (body ++ ends) then ['2'] else []) ++ (chompingFor body ends).sign := by
  -- the sign depends on the last two characters only
  obtain ⟨b, rfl⟩ : ∃ b, body = b.reverse := ⟨body.reverse, by simp⟩
  obtain ⟨e, rfl⟩ : ∃ e, ends = e.reverse := ⟨ends.reverse, by simp⟩
  have hbody' : ∀ c, b.head? = some c → isBreak c = false := by
    intro c hc
    exact hbody c (by rw [List.getLast?_reverse, hc])
  rw [blockHints]
  congr 1
  rw [List.reverse_append, List.reverse_reverse, List.reverse_reverse, chompingFor]
  cases e with
  | nil =>
    cases b with
    | nil => exact absurd rfl hne
    | cons c b =>
      have hc := hbody' c rfl
      cases b <;> simp [hc, Chomping.sign]
  | cons x e =>
    have hx : isBreak x = true := hends x (by simp)
    cases e with
    | nil =>
      cases b with
      | nil => simp [hx, Chomping.sign]
      | cons c b =>
        have hc := hbody' c rfl
        simp [hx, hc, Chomping.sign]
    | cons y e =>
      have hy : isBreak y = true := hends y (by simp)
      simp [hx, hy, Chomping.sign]

theorem header?_hints (told : Bool) (chomping : Chomping) (rest : List Char) :
    header? ((if told then ['2'] else []) ++ chomping.sign ++ '\n' :: rest) =
      some (⟨if told then some 2 else none, chomping⟩, rest) := by
  cases told <;> cases chomping <;> rfl

/-- The indent is found at the first line, unless that begins with a tab. -/
theorem detectIndent?_text {c : Char} (hspace : c ≠ ' ') (hbreak : isBreak c = false)
    (cs rest : List Char) :
    detectIndent? 0 0 (indented false true (c :: cs) ++ rest) =
      if c = '\t' then none else some 4 := by
  rw [indented, hbreak]
  show detectIndent? 0 4 (c :: _) = _
  rw [detectIndent?, if_neg hspace, hbreak]
  rfl

/-! ### Whole blocks -/

/-- The line end that a block adds to a text without one. -/
def closing (cs : List Char) : List Char :=
  if (cs.getLast?.map isBreak).getD false then [] else ['\n']

theorem block_append (cs rest : List Char) :
    block cs ++ rest =
      '|' :: (blockHints cs ++ '\n' :: (indented false true cs ++ (closing cs ++ rest))) := by
  simp [block, closing]

theorem closing_of_ends {body ends : List Char} (h : ends ≠ [])
    (hends : ∀ c ∈ ends, isBreak c = true) : closing (body ++ ends) = [] := by
  rw [closing, if_pos]
  rw [List.getLast?_append, List.getLast?_eq_some_getLast h, Option.some_or]
  exact hends _ (List.getLast_mem h)

/-- The line ends behind a line of a block, and what the chomping leaves of them. -/
theorem exists_tail {body ends : List Char} (hne : body ≠ [])
    (hends : ∀ c ∈ ends, isBreak c = true)
    (hbody : ∀ c, body.getLast? = some c → isBreak c = false) :
    ∃ first more, ends ++ closing (body ++ ends) = first :: more ∧ isBreak first = true ∧
      (∀ c ∈ more, isBreak c = true) ∧
      ∀ blank, BlockState.tail ⟨false, some first, more, blank⟩ (chompingFor body ends) = ends := by
  cases ends with
  | nil =>
    -- the line end that closes the last line is not one of the text
    have hclosing : closing (body ++ []) = ['\n'] := by
      rw [List.append_nil, closing, if_neg]
      rw [List.getLast?_eq_some_getLast hne]
      simpa using hbody _ (List.getLast?_eq_some_getLast hne)
    exact ⟨'\n', [], hclosing, rfl, by simp, fun _ => rfl⟩
  | cons first more =>
    refine ⟨first, more, ?_, hends first (by simp), fun c hc => hends c (by simp [hc]), ?_⟩
    · rw [closing_of_ends (by simp) hends, List.append_nil]
    · intro blank
      cases more with
      | nil => simp [chompingFor, hne, BlockState.tail]
      | cons second more => simp [chompingFor, BlockState.tail]

/-- Between the header and the next word the text is read as it was written. -/
theorem blockLines_text {body ends : List Char} (hne : body ++ ends ≠ [])
    (hends : ∀ c ∈ ends, isBreak c = true)
    (hbody : ∀ c, body.getLast? = some c → isBreak c = false) {k : Nat} {word : List Char}
    (hword : IsWord k word) (hk : k < 4) (line : Nat) :
    ∃ line', blockLines false (chompingFor body ends) 4 {} line 0
        (indented false true (body ++ ends) ++
          (closing (body ++ ends) ++ (List.replicate k ' ' ++ word))) =
      some ⟨body ++ ends, line', k, word⟩ := by
  rw [indented_append_ends true body hends, List.append_assoc]
  by_cases hempty : body = []
  · -- nothing but line ends, and all of them are kept
    subst hempty
    have hends' : ends ≠ [] := hne
    have hkeep : chompingFor [] ends = .keep := by
      simp [chompingFor, hends']
    obtain ⟨line', hread⟩ := blockLines_ends (chompingFor [] ends) 4 hends none [] false line
      (List.replicate k ' ' ++ word)
    refine ⟨line', ?_⟩
    rw [closing_of_ends hends' hends]
    refine hread.trans ?_
    rw [blockLines_word _ hword hk rfl, hkeep]
    rfl
  · obtain ⟨line₁, column₁, blank, hread⟩ := blockLines_body (chompingFor body ends) hempty hbody
      (.before none [] false) line
      (ends ++ (closing (body ++ ends) ++ (List.replicate k ' ' ++ word)))
    obtain ⟨first, more, hcons, hfirst, hmore, hkept⟩ := exists_tail hempty hends hbody
    obtain ⟨line', htail⟩ := blockLines_tail (chompingFor body ends) hfirst hmore blank hword hk
      line₁ column₁
    refine ⟨line', hread.trans ?_⟩
    rw [← List.append_assoc ends, hcons, List.cons_append, htail, hkept]
    rfl

/-- How a block finds its indent: it is told, or the first line tells it. -/
theorem block?_hints (told : Bool) (chomping : Chomping) (line : Nat) (rest : List Char) :
    block? false 3 line ((if told then ['2'] else []) ++ chomping.sign ++ '\n' :: rest) =
      (if told then some 4 else (detectIndent? 0 0 rest).map fun n => max (max n 3) 1).bind
        fun indent => blockLines false chomping indent {} (line + 1) 0 rest := by
  rw [block?, header?_hints]
  cases told <;> rfl

theorem detectIndent?_block {cs : List Char} (hne : cs ≠ []) (hstart : startsBlank cs = false)
    (rest : List Char) :
    detectIndent? 0 0 (indented false true cs ++ rest) =
      if cs.head? = some '\t' then none else some 4 := by
  obtain ⟨c, cs, rfl⟩ := List.exists_cons_of_ne_nil hne
  have hc : (c == ' ' || isBreak c) = false := hstart
  rw [Bool.or_eq_false_iff, beq_eq_false_iff_ne] at hc
  rw [detectIndent?_text hc.1 hc.2]
  simp

/-- A literal block comes back, unless its text begins with a tab. -/
theorem block?_text {cs : List Char} (hne : cs ≠ []) (htab : cs.head? ≠ some '\t') {k : Nat}
    {word : List Char} (hword : IsWord k word) (hk : k < 4) (line : Nat) :
    ∃ line', block? false 3 line (blockHints cs ++ '\n' ::
        (indented false true cs ++ (closing cs ++ (List.replicate k ' ' ++ word)))) =
      some ⟨cs, line', k, word⟩ := by
  obtain ⟨body, ends, rfl, hends, hbody⟩ := exists_body cs
  obtain ⟨line', hread⟩ := blockLines_text hne hends hbody hword hk (line + 1)
  refine ⟨line', ?_⟩
  rw [blockHints_append hne hends hbody, block?_hints]
  -- the indent is told, or the first line shows four columns of it
  cases hstart : startsBlank (body ++ ends) with
  | true => exact hread
  | false =>
    rw [detectIndent?_block hne hstart, if_neg htab]
    exact hread

/-- A tab in front of the first line is no indent, and nobody told another one. -/
theorem block?_of_tab {cs : List Char} (htab : cs.head? = some '\t') (line : Nat)
    (rest : List Char) :
    block? false 3 line (blockHints cs ++ '\n' :: (indented false true cs ++ rest)) = none := by
  have hne : cs ≠ [] := by
    rintro rfl
    cases htab
  have hstart : startsBlank cs = false := by
    rw [startsBlank, htab]
    rfl
  obtain ⟨body, ends, rfl, hends, hbody⟩ := exists_body cs
  rw [blockHints_append hne hends hbody, block?_hints, hstart, if_neg (by decide),
    detectIndent?_block hne hstart, if_pos htab]
  rfl

end CommandHost.Yaml
