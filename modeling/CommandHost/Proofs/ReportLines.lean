/-
CommandHost/Proofs/ReportLines.lean

Which reports on a cache have one aligned line for each counter.

A row is two cells of ten columns side by side.  A number that takes more than ten columns
is cut into pieces (`pieces`), and since a row is the plain concatenation of its cells,
the first piece stands behind the label and the others on lines of their own.  So a
report has the lines that it should have if and only if all its numbers fit into their
cells.

The wrapping of a text is followed character by character.  On letters and digits a state
of the wrapping is determined by what has been placed and the word that is being read:
while the word fits, characters are added to it (`foldl_of_fits`), and a character behind a
full line is read as if the line were placed and the next one begun (`step_full`).  A
minus sign is placed at once, and the digits follow it only if all of them do
(`foldl_behind_minus`).
-/
import CommandHost.Proofs.Numerals
import CommandHost.Report.Lines
import Mathlib.Data.List.Forall2

namespace CommandHost

namespace Text

/-! ### The columns of letters and digits -/

/-- A visible character takes one column. -/
theorem charWidth_of_isVisible {c : Char} (h : IsVisible c) : charWidth c = 1 := by
  obtain ⟨hlow, hhigh⟩ := h
  have hascii : c.toNat < 0x7F := hhigh
  have hprint : ¬ c.toNat < 0x20 := by omega
  rw [charWidth, if_pos hascii, if_neg hprint]

theorem width_of_isVisible {cs : List Char} (h : ∀ c ∈ cs, IsVisible c) : width cs = cs.length := by
  induction cs with
  | nil => rfl
  | cons c cs ih =>
    obtain ⟨hc, hcs⟩ := List.forall_mem_cons.1 h
    show charWidth c + width cs = _
    rw [charWidth_of_isVisible hc, ih hcs, List.length_cons, Nat.add_comm]

end Text

namespace Report

open Text Number

/-! ### Words -/

/-- The characters of a word: none of them breaks a line. -/
def IsWord (cs : List Char) : Prop := ∀ c ∈ cs, c.isAlphanum = true

theorem IsWord.isVisible {cs : List Char} (h : IsWord cs) : ∀ c ∈ cs, IsVisible c :=
  fun c hc => isVisible_of_isAlphanum (h c hc)

/-- A word takes as many columns as it has characters. -/
theorem IsWord.width {cs : List Char} (h : IsWord cs) : width cs = cs.length :=
  width_of_isVisible h.isVisible

theorem isWord_nil : IsWord [] := by
  simp [IsWord]

theorem isWord_append {cs ds : List Char} : IsWord (cs ++ ds) ↔ IsWord cs ∧ IsWord ds :=
  List.forall_mem_append

/-- Digits make a word. -/
theorem isWord_natText (n : Nat) : IsWord (natText n) :=
  fun c hc => isAlphanum_of_isDigit ((digits_natText n).isDigit c hc)

/-- A negative number has a minus sign in front of its digits. -/
theorem toList_intText_of_neg {n : Int} (hn : n < 0) :
    (intText n).toList = '-' :: natText n.natAbs := by
  simp [intText, hn]

theorem toList_intText_of_not_neg {n : Int} (hn : ¬ n < 0) :
    (intText n).toList = natText n.natAbs := by
  simp [intText, hn]

/-! ### Wrapping a word -/

namespace Wrapping

/-- A letter or a digit only extends the word. -/
theorem step_of_isAlphanum {c : Char} (hc : c.isAlphanum = true) (limit : Nat) (w : Wrapping) :
    w.step limit c = w.extend limit c := by
  have hwidth : charWidth c = 1 := charWidth_of_isVisible (isVisible_of_isAlphanum hc)
  have hne (d : Char) (hd : d.isAlphanum = false) : c ≠ d := by
    rintro rfl
    rw [hd] at hc
    cases hc
  rw [step, if_neg (hne '\n' rfl), if_neg (hne ' ' rfl), if_neg (by omega), if_neg (hne '-' rfl)]

section

variable {limit column : Nat} {placed word : List Char} {c : Char}

/-- A character is added to a word that is shorter than a line; if the line gets too long, it ends
in front of the word. -/
theorem step_of_lt (hword : IsWord word) (hc : c.isAlphanum = true) (hlt : word.length < limit) :
    step limit ⟨placed, column, [], word⟩ c =
      if limit < column + (word.length + 1) then ⟨placed ++ ['\n'], 0, [], word ++ [c]⟩
      else ⟨placed, column, [], word ++ [c]⟩ := by
  have hlonger : IsWord (word ++ [c]) := isWord_append.2 ⟨hword, by simpa [IsWord] using hc⟩
  have hshort : ¬ limit < width word + charWidth c := by
    rw [hword.width, charWidth_of_isVisible (isVisible_of_isAlphanum hc)]
    omega
  rw [step_of_isAlphanum hc, extend]
  simp only [if_neg hshort, hlonger.width, List.length_append, List.length_singleton,
    List.length_nil, Nat.add_zero]
  rfl

/-- A character behind a full line begins the next one. -/
theorem step_full (hword : IsWord word) (hfull : word.length = limit) (hlimit : 0 < limit)
    (hc : c.isAlphanum = true) :
    step limit ⟨placed, 0, [], word⟩ c = step limit ⟨placed ++ word ++ ['\n'], 0, [], []⟩ c := by
  have hcharWidth : charWidth c = 1 := charWidth_of_isVisible (isVisible_of_isAlphanum hc)
  -- the word is placed, and a line is begun behind it
  have hnonempty : word.isEmpty = false := by
    rw [List.isEmpty_eq_false_iff]
    rintro rfl
    exact absurd hfull (Nat.ne_of_lt hlimit)
  have hlong : limit < width word + charWidth c := by
    rw [hword.width, hcharWidth]
    omega
  have hone : width ([] ++ [c]) = 1 := by
    show charWidth c + 0 = 1
    rw [hcharWidth]
  have hbreak : limit < 0 + ([] : List Char).length + width word + width ([] ++ [c]) +
      ([] : List Char).length := by
    rw [hword.width, hone, hfull]
    simp
  rw [step_of_lt isWord_nil hc hlimit, if_neg (by rw [List.length_nil]; omega), step_of_isAlphanum hc, extend,
    if_pos hlong, placeWord, hnonempty, if_neg Bool.false_ne_true, placeSpaces]
  simp only [if_pos hbreak, startLine, List.append_nil]

/-- Characters are added to the word as long as it fits. -/
theorem foldl_of_fits {cs : List Char} (hword : IsWord word) (hcs : IsWord cs)
    (hfits : column + word.length + cs.length ≤ limit) :
    cs.foldl (step limit) ⟨placed, column, [], word⟩ = ⟨placed, column, [], word ++ cs⟩ := by
  induction cs generalizing word with
  | nil => rw [List.append_nil, List.foldl_nil]
  | cons c cs ih =>
    obtain ⟨hc, hcs⟩ := List.forall_mem_cons.1 hcs
    have hlonger : IsWord (word ++ [c]) := isWord_append.2 ⟨hword, by simpa [IsWord] using hc⟩
    rw [List.length_cons] at hfits
    rw [List.foldl_cons, step_of_lt hword hc (by omega), if_neg (by omega),
      ih hlonger hcs (by rw [List.length_append, List.length_singleton]; omega), List.append_assoc]
    rfl

end

/-- In the end the word is placed. -/
theorem finish_word {limit column : Nat} {placed word : List Char} (hword : IsWord word)
    (hne : word ≠ []) : finish limit ⟨placed, column, [], word⟩ = placed ++ word := by
  have hwidth : width word ≠ 0 := by
    rw [hword.width]
    exact fun h => hne (List.length_eq_zero_iff.1 h)
  simp [finish, settle, hwidth, placeWord, placeSpaces, hne]

/-- Digits behind a minus sign go to the next line if they do not all fit. -/
theorem foldl_behind_minus {limit : Nat} {placed ds : List Char} (hds : IsWord ds)
    (hlimit : 0 < limit) (hlong : limit ≤ ds.length) :
    ds.foldl (step limit) ⟨placed, 1, [], []⟩ =
      ds.foldl (step limit) ⟨placed ++ ['\n'], 0, [], []⟩ := by
  -- the digits that would fill the line up to its end, the next one, and the rest
  obtain ⟨front, c, rest, rfl, hfront⟩ :
      ∃ front c rest, ds = front ++ c :: rest ∧ front.length + 1 = limit := by
    have hdrop : ds.drop (limit - 1) ≠ [] := by
      rw [Ne, List.drop_eq_nil_iff]
      omega
    obtain ⟨c, rest, hcons⟩ := List.exists_cons_of_ne_nil hdrop
    refine ⟨ds.take (limit - 1), c, rest, ?_, ?_⟩
    · rw [← hcons, List.take_append_drop]
    · rw [List.length_take]
      omega
  obtain ⟨hword, hmore⟩ := isWord_append.1 hds
  obtain ⟨hc, -⟩ := List.forall_mem_cons.1 hmore
  rw [List.foldl_append, List.foldl_append, foldl_of_fits isWord_nil hword (by rw [List.length_nil]; omega),
    foldl_of_fits isWord_nil hword (by rw [List.length_nil]; omega), List.nil_append, List.foldl_cons, List.foldl_cons,
    step_of_lt hword hc (by omega), step_of_lt hword hc (by omega), if_pos (by omega),
    if_neg (by omega)]

end Wrapping

/-! ### Pieces -/

/-- A text cut into pieces of a length. -/
def cut (limit : Nat) (cs : List Char) : List (List Char) :=
  if limit = 0 ∨ cs.length ≤ limit then [cs] else cs.take limit :: cut limit (cs.drop limit)
termination_by cs.length
decreasing_by
  rename_i h
  rw [List.length_drop]
  omega

theorem cut_of_le {limit : Nat} {cs : List Char} (h : cs.length ≤ limit) : cut limit cs = [cs] := by
  rw [cut, if_pos (.inr h)]

/-- A text that is too long loses its first line, and the rest is cut. -/
theorem cut_of_lt {limit : Nat} {cs : List Char} (hlimit : 0 < limit) (h : limit < cs.length) :
    cut limit cs = cs.take limit :: cut limit (cs.drop limit) := by
  rw [cut, if_neg (by omega)]

theorem cut_ne_nil (limit : Nat) (cs : List Char) : cut limit cs ≠ [] := by
  rw [cut]
  split <;> simp

/-- The pieces fit into a line, and have the characters of the text. -/
theorem mem_cut {limit : Nat} (hlimit : 0 < limit) {cs p : List Char} (hp : p ∈ cut limit cs) :
    p.length ≤ limit ∧ ∀ c ∈ p, c ∈ cs := by
  fun_induction cut limit cs with
  | case1 cs h =>
    obtain rfl := List.mem_singleton.1 hp
    exact ⟨by omega, fun c hc => hc⟩
  | case2 cs h ih =>
    rcases List.mem_cons.1 hp with rfl | hp
    · exact ⟨by rw [List.length_take]; omega, fun c hc => List.mem_of_mem_take hc⟩
    · obtain ⟨hlength, hmem⟩ := ih hp
      exact ⟨hlength, fun c hc => List.mem_of_mem_drop (hmem c hc)⟩

/-- A word that is too long for a line is cut. -/
theorem foldl_word {limit : Nat} (hlimit : 0 < limit) (placed : List Char) {cs : List Char}
    (hcs : IsWord cs) (hne : cs ≠ []) :
    (cs.foldl (Wrapping.step limit) ⟨placed, 0, [], []⟩).finish limit =
      placed ++ unlines (cut limit cs) := by
  fun_induction cut limit cs generalizing placed with
  | case1 cs h =>
    rw [Wrapping.foldl_of_fits isWord_nil hcs (by rw [List.length_nil]; omega), List.nil_append,
      Wrapping.finish_word hcs hne, unlines_singleton]
  | case2 cs h ih =>
    obtain ⟨hfront, hrest⟩ := isWord_append.1 ((List.take_append_drop limit cs).symm ▸ hcs)
    -- the first line is full, and something is left
    have hlength : (cs.take limit).length = limit := by
      rw [List.length_take]
      omega
    have hmore : cs.drop limit ≠ [] := by
      rw [Ne, List.drop_eq_nil_iff]
      omega
    obtain ⟨c, rest, hdrop⟩ := List.exists_cons_of_ne_nil hmore
    have hc : c.isAlphanum = true := hrest c (by simp [hdrop])
    -- the rest is read as if the first line were placed
    have hsplit : cs.foldl (Wrapping.step limit) ⟨placed, 0, [], []⟩ =
        (cs.drop limit).foldl (Wrapping.step limit)
          ⟨placed ++ cs.take limit ++ ['\n'], 0, [], []⟩ := by
      conv_lhs => rw [← List.take_append_drop limit cs]
      rw [List.foldl_append, Wrapping.foldl_of_fits isWord_nil hfront (by rw [List.length_nil]; omega),
        List.nil_append, hdrop, List.foldl_cons, Wrapping.step_full hfront hlength hlimit hc,
        List.foldl_cons]
    rw [hsplit, ih _ hrest hmore, unlines_cons (cut_ne_nil _ _)]
    simp

/-- A number in a cell: cut into pieces if it does not fit, and then the sign stands alone. -/
def pieces (limit : Nat) (n : Int) : List (List Char) :=
  if (intText n).toList.length ≤ limit then [(intText n).toList]
  else if n < 0 then ['-'] :: cut limit (natText n.natAbs)
  else cut limit (natText n.natAbs)

/-- Wrapping a number gives its pieces. -/
theorem wrap_intText {limit : Nat} (hlimit : 0 < limit) (n : Int) :
    wrap limit (intText n).toList = unlines (pieces limit n) := by
  have hword := isWord_natText n.natAbs
  have hne := (digits_natText n.natAbs).ne_nil
  by_cases hn : n < 0
  · -- the sign is placed at once
    have hminus : Wrapping.step limit {} '-' = ⟨['-'], 1, [], []⟩ := by
      have hwidth : charWidth '-' = 1 := charWidth_of_isVisible ⟨by decide, by decide⟩
      simp [Wrapping.step, Wrapping.placeSpaces, Wrapping.placeWord, hwidth, width]
      omega
    rw [wrap, pieces, toList_intText_of_neg hn, List.foldl_cons, hminus, List.length_cons]
    by_cases hfits : (natText n.natAbs).length + 1 ≤ limit
    · rw [if_pos hfits, Wrapping.foldl_of_fits isWord_nil hword (by rw [List.length_nil]; omega),
        List.nil_append, Wrapping.finish_word hword hne, unlines_singleton]
      rfl
    · rw [if_neg hfits, if_pos hn, Wrapping.foldl_behind_minus hword hlimit (by omega),
        foldl_word hlimit _ hword hne, unlines_cons (cut_ne_nil _ _)]
      simp
  · have hwrap := foldl_word hlimit [] hword hne
    rw [List.nil_append] at hwrap
    rw [wrap, pieces, toList_intText_of_not_neg hn, hwrap, if_neg hn]
    split
    · rw [cut_of_le ‹_›]
    · rfl

theorem pieces_ne_nil (limit : Nat) (n : Int) : pieces limit n ≠ [] := by
  unfold pieces
  split
  · simp
  · split
    · simp
    · exact cut_ne_nil _ _

/-- Numbers have neither blanks nor line ends. -/
theorem isVisible_intText (n : Int) : ∀ c ∈ (intText n).toList, IsVisible c := by
  have hdigits := (isWord_natText n.natAbs).isVisible
  by_cases hn : n < 0
  · rw [toList_intText_of_neg hn]
    exact List.forall_mem_cons.2 ⟨⟨by decide, by decide⟩, hdigits⟩
  · rw [toList_intText_of_not_neg hn]
    exact hdigits

/-- Each piece fits and is visible. -/
theorem mem_pieces {limit : Nat} (hlimit : 0 < limit) {n : Int} {p : List Char}
    (hp : p ∈ pieces limit n) : p.length ≤ limit ∧ ∀ c ∈ p, IsVisible c := by
  have hcut (hp : p ∈ cut limit (natText n.natAbs)) : p.length ≤ limit ∧ ∀ c ∈ p, IsVisible c :=
    have h := mem_cut hlimit hp
    ⟨h.1, fun c hc => (isWord_natText n.natAbs).isVisible c (h.2 c hc)⟩
  unfold pieces at hp
  split at hp
  · obtain rfl := List.mem_singleton.1 hp
    exact ⟨‹_›, isVisible_intText n⟩
  · split at hp
    · rcases List.mem_cons.1 hp with rfl | hp
      · refine ⟨hlimit, fun c hc => ?_⟩
        obtain rfl := List.mem_singleton.1 hc
        exact ⟨by decide, by decide⟩
      · exact hcut hp
    · exact hcut hp

/-- There is one piece just if the number fits. -/
theorem length_pieces_eq_one_iff {limit : Nat} (hlimit : 0 < limit) (n : Int) :
    (pieces limit n).length = 1 ↔ (intText n).toList.length ≤ limit := by
  unfold pieces
  split
  · rename_i h
    exact iff_of_true rfl h
  · rename_i h
    refine iff_of_false (fun hone => ?_) h
    have hpos (cs : List Char) : 0 < (cut limit cs).length := List.length_pos_iff.2 (cut_ne_nil limit cs)
    split at hone
    · have := hpos (natText n.natAbs)
      rw [List.length_cons] at hone
      omega
    · rename_i hn
      rw [toList_intText_of_not_neg hn] at h
      have := hpos ((natText n.natAbs).drop limit)
      rw [cut_of_lt hlimit (Nat.lt_of_not_le h), List.length_cons] at hone
      omega

/-! ### Cells -/

theorem newline_notMem {cs : List Char} (h : ∀ c ∈ cs, IsVisible c) : '\n' ∉ cs :=
  fun hmem => absurd (h _ hmem).1 (by decide)

theorem expandTabs_of_isVisible {cs : List Char} (h : ∀ c ∈ cs, IsVisible c) : expandTabs cs = cs := by
  have htab (c : Char) (hc : c ∈ cs) : c ≠ '\t' := (h c hc).ne fun hv => absurd hv.1 (by decide)
  calc expandTabs cs = cs.flatMap fun c => [c] := List.flatMap_congr fun c hc => if_neg (htab c hc)
    _ = cs := List.flatMap_singleton' cs

/-- There are no line ends to be normalised. -/
theorem dropReturns_of_isVisible {cs : List Char} (h : ∀ c ∈ cs, IsVisible c) :
    dropReturns cs = cs := by
  fun_induction dropReturns cs with
  | case1 => rfl
  | case2 cs ih => exact absurd (h '\r' (by simp)).1 (by decide)
  | case3 c cs hne ih => rw [ih fun d hd => h d (by simp [hd])]

/-- Where all lines fit, the cell is as wide as it should be. -/
theorem foldl_max_of_le {columns : Nat} {ns : List Nat} (h : ∀ n ∈ ns, n ≤ columns) :
    ns.foldl max columns = columns := by
  induction ns with
  | nil => rfl
  | cons n ns ih =>
    obtain ⟨hn, hns⟩ := List.forall_mem_cons.1 h
    rw [List.foldl_cons, Nat.max_eq_left hn, ih hns]

/-- A cell has the lines that its text is wrapped into, each of them padded. -/
theorem cell_of_wrap {columns : Nat} {cs : List Char} {ls : List (List Char)} (side : Side)
    (hcs : ∀ c ∈ cs, IsVisible c) (hwrap : wrap columns cs = unlines ls) (hne : ls ≠ [])
    (hls : ∀ l ∈ ls, l.length ≤ columns ∧ ∀ c ∈ l, IsVisible c) :
    cell side columns cs = unlines (ls.map (pad side columns)) := by
  have hwidths : ∀ n ∈ ls.map width, n ≤ columns := by
    intro n hn
    obtain ⟨l, hl, rfl⟩ := List.mem_map.1 hn
    rw [width_of_isVisible (hls l hl).2]
    exact (hls l hl).1
  rw [cell, expandTabs_of_isVisible hcs, dropReturns_of_isVisible hcs, hwrap,
    lines_unlines_of_notMem hne fun l hl => newline_notMem (hls l hl).2]
  simp only [foldl_max_of_le hwidths]

/-! ### Rows -/

/-- The lines of a row: the first piece of the number stands behind the label, the others alone. -/
def rowLines (label : String) (n : Int) : List (List Char) :=
  ((pieces cellWidth n).map (pad .right cellWidth)).modifyHead (pad .left cellWidth label.toList ++ ·)

/-- The labels of a report. -/
structure IsLabel (label : String) : Prop where
  isWord : IsWord label.toList
  ne_nil : label.toList ≠ []
  length_le : label.toList.length ≤ cellWidth

/-- A row has the lines that its label and its number make. -/
theorem lines_numberRow {label : String} (h : IsLabel label) (n : Int) :
    lines (numberRow label n).toList = rowLines label n := by
  have hpos : 0 < cellWidth := by decide
  -- the label is one line, the number as many as it has pieces
  have hlabel : cell .left cellWidth label.toList = pad .left cellWidth label.toList := by
    have hwrap := foldl_word hpos [] h.isWord h.ne_nil
    rw [cut_of_le h.length_le, List.nil_append] at hwrap
    have hcell := cell_of_wrap .left h.isWord.isVisible hwrap (by simp)
      (by simpa using ⟨h.length_le, h.isWord.isVisible⟩)
    rwa [List.map_singleton, unlines_singleton] at hcell
  have hnumber : cell .right cellWidth (intText n).toList =
      unlines ((pieces cellWidth n).map (pad .right cellWidth)) :=
    cell_of_wrap .right (isVisible_intText n) (wrap_intText hpos n) (pieces_ne_nil _ n)
      fun p hp => mem_pieces hpos hp
  have hline : ∀ l ∈ (pieces cellWidth n).map (pad .right cellWidth), '\n' ∉ l := by
    intro l hl
    obtain ⟨p, hp, rfl⟩ := List.mem_map.1 hl
    exact newline_notMem_pad _ _ (newline_notMem (mem_pieces hpos hp).2)
  rw [numberRow, row, String.toList_ofList, hlabel, hnumber,
    lines_append (newline_notMem_pad _ _ (newline_notMem h.isWord.isVisible)),
    lines_unlines_of_notMem (by simpa using pieces_ne_nil cellWidth n) hline]
  rfl

/-- A line has a label at its left and a whole number at its right end. -/
def Shows (label : String) (n : Int) (line : List Char) : Prop :=
  label.toList <+: line ∧ (intText n).toList <:+ line

theorem length_rowLines (label : String) (n : Int) :
    (rowLines label n).length = (pieces cellWidth n).length := by
  simp [rowLines]

/-- A number that fits has one line, as wide as the two cells. -/
theorem rowLines_of_fits {label : String} (h : IsLabel label) {n : Int}
    (hn : (intText n).toList.length ≤ cellWidth) :
    ∃ line, rowLines label n = [line] ∧ width line = 2 * cellWidth ∧ Shows label n line := by
  refine ⟨pad .left cellWidth label.toList ++ pad .right cellWidth (intText n).toList, ?_, ?_, ?_, ?_⟩
  · rw [rowLines, pieces, if_pos hn]
    rfl
  · have hlabel : width label.toList ≤ cellWidth := by
      rw [h.isWord.width]
      exact h.length_le
    have hnumber : width (intText n).toList ≤ cellWidth := by
      rw [width_of_isVisible (isVisible_intText n)]
      exact hn
    rw [width_append, width_pad _ hlabel, width_pad _ hnumber]
    rfl
  · rw [pad, List.append_assoc]
    exact List.prefix_append _ _
  · rw [pad, pad, ← List.append_assoc]
    exact List.suffix_append _ _

/-! ### The report on a cache -/

/-- The counters that a report shows, in the order of the array: their names and values. -/
def shownEntries (s : Statistics) (zeros : Bool) : List (String × Int) :=
  ((List.range Counter.count).filter fun i : Nat => zeros || s.get i != 0).map fun i : Nat =>
    (Counter.nameAt i, (s.get i).toInt)

/-- The rows of a report, in the order of the counters. -/
theorem cacheLines_eq (count : Int) (s : Statistics) (zeros : Bool) :
    cacheLines count (some s) zeros =
      "command cache" :: (("count", count) :: shownEntries s zeros).map fun e => numberRow e.1 e.2 := by
  have hindex : List.range Counter.count = Counter.all.map Counter.index := rfl
  have hname (c : Counter) : Counter.nameAt c.index = c.name := by
    cases c <;> rfl
  rw [shownEntries, hindex, List.filter_map, List.map_map, List.map_cons, List.map_map]
  simp only [Function.comp_def, hname]
  rfl

theorem isLabel_of_mem {count : Int} {s : Statistics} {zeros : Bool} {e : String × Int}
    (he : e ∈ ("count", count) :: shownEntries s zeros) : IsLabel e.1 := by
  -- all labels that there can be
  have hlabels : ∀ l ∈ "count" :: (List.range Counter.count).map fun i : Nat => Counter.nameAt i,
      l.toList.all Char.isAlphanum ∧ l.toList ≠ [] ∧ l.toList.length ≤ cellWidth := by
    decide
  have hmem : e.1 ∈ "count" :: (List.range Counter.count).map fun i : Nat => Counter.nameAt i := by
    rcases List.mem_cons.1 he with rfl | he
    · exact List.mem_cons_self
    · obtain ⟨i, hi, rfl⟩ := List.mem_map.1 he
      exact List.mem_cons_of_mem _ (List.mem_map_of_mem (List.mem_filter.1 hi).1)
  obtain ⟨hword, hne, hlength⟩ := hlabels e.1 hmem
  exact ⟨List.all_eq_true.1 hword, hne, hlength⟩

/-- The lines of a report: the title, and each row with the lines that it has. -/
theorem lines_cacheReport (count : Int) (s : Statistics) (zeros : Bool) :
    lines (cacheReport count (some s) zeros).toList =
      "command cache".toList ::
        (("count", count) :: shownEntries s zeros).flatMap fun e => rowLines e.1 e.2 := by
  have htext : (cacheReport count (some s) zeros).toList =
      unlines ((cacheLines count (some s) zeros).map String.toList) :=
    String.toList_intercalate
  have htitle : lines "command cache".toList = ["command cache".toList] := by decide
  rw [htext, cacheLines_eq, lines_unlines (by simp), List.map_cons, List.flatMap_cons, htitle,
    List.map_map, List.flatMap_map]
  exact congrArg _ (List.flatMap_congr fun e he => lines_numberRow (isLabel_of_mem he) e.2)

/-- One aligned line for each counter: the title, a line for the number of entries, and for each
counter that is shown one line with its name and its whole value, all of one width. -/
def Aligned (count : Int) (shown : List (String × Int)) (report : List (List Char)) : Prop :=
  ∃ countLine rows columns, report = "command cache".toList :: countLine :: rows ∧
    Shows "count" count countLine ∧
    List.Forall₂ (fun e line => width line = columns ∧ Shows e.1 e.2 line) shown rows

/-- The numbers of at most ten characters, the sign included. -/
def Fits (n : Int) : Prop := -1000000000 < n ∧ n < 10000000000

/-- Ten columns, of which the sign takes one. -/
theorem fits_iff (n : Int) : Fits n ↔ (intText n).toList.length ≤ cellWidth := by
  by_cases hn : n < 0
  · have hdigits : (natText n.natAbs).length ≤ 9 ↔ n.natAbs < 1000000000 :=
      Nat.length_toDigits_le_iff (by decide) (by decide)
    rw [toList_intText_of_neg hn, List.length_cons, cellWidth, Nat.succ_le_succ_iff, hdigits, Fits]
    omega
  · have hdigits : (natText n.natAbs).length ≤ 10 ↔ n.natAbs < 10000000000 :=
      Nat.length_toDigits_le_iff (by decide) (by decide)
    rw [toList_intText_of_not_neg hn, cellWidth, hdigits, Fits]
    omega

theorem length_rowLines_pos (label : String) (n : Int) : 1 ≤ (rowLines label n).length := by
  rw [length_rowLines]
  exact List.length_pos_iff.2 (pieces_ne_nil _ n)

/-- A row has one line just if its number fits. -/
theorem length_rowLines_eq_one_iff (label : String) (n : Int) :
    (rowLines label n).length = 1 ↔ Fits n := by
  rw [length_rowLines, length_pieces_eq_one_iff (by decide), fits_iff]

/-- There are at least as many lines as rows. -/
theorem length_le_rows (es : List (String × Int)) :
    es.length ≤ (es.flatMap fun e => rowLines e.1 e.2).length := by
  induction es with
  | nil => exact Nat.zero_le _
  | cons e es ih =>
    have hpos := length_rowLines_pos e.1 e.2
    rw [List.flatMap_cons, List.length_append, List.length_cons]
    omega

/-- Where there are no more lines than rows, all numbers fit. -/
theorem fits_of_length {es : List (String × Int)}
    (h : (es.flatMap fun e => rowLines e.1 e.2).length ≤ es.length) : ∀ e ∈ es, Fits e.2 := by
  induction es with
  | nil => simp
  | cons e es ih =>
    have hpos := length_rowLines_pos e.1 e.2
    have hrest := length_le_rows es
    rw [List.flatMap_cons, List.length_append, List.length_cons] at h
    refine List.forall_mem_cons.2 ⟨?_, ih (by omega)⟩
    exact (length_rowLines_eq_one_iff e.1 e.2).1 (by omega)

/-- Where all numbers fit, each row is one line that shows its number. -/
theorem forall₂_rows {es : List (String × Int)} (hlabel : ∀ e ∈ es, IsLabel e.1)
    (hfits : ∀ e ∈ es, Fits e.2) :
    List.Forall₂ (fun e line => width line = 2 * cellWidth ∧ Shows e.1 e.2 line) es
      (es.flatMap fun e => rowLines e.1 e.2) := by
  induction es with
  | nil => exact .nil
  | cons e es ih =>
    obtain ⟨hl, hls⟩ := List.forall_mem_cons.1 hlabel
    obtain ⟨hf, hfs⟩ := List.forall_mem_cons.1 hfits
    obtain ⟨line, hline, hshows⟩ := rowLines_of_fits hl ((fits_iff e.2).1 hf)
    rw [List.flatMap_cons, hline]
    exact .cons hshows (ih hls hfs)

/-- **Reports are aligned as long as their numbers fit.**  The report on a cache has the title and
then, for the number of entries and for each counter that it shows, the lines of its row, where a number
of more than ten characters is cut into pieces on lines of their own.  So there is one line of a
common width for each counter, with its name at the left and its whole value at the right end, if and
only if the number of entries and all counters that are shown have at most ten characters. -/
theorem cache_report_aligned_iff (count : Int) (s : Statistics) (zeros : Bool) :
    let report := lines (cacheReport count (some s) zeros).toList
    let shown := shownEntries s zeros
    report = "command cache".toList :: (("count", count) :: shown).flatMap (fun e => rowLines e.1 e.2) ∧
      (Aligned count shown report ↔ Fits count ∧ ∀ e ∈ shown, Fits e.2) := by
  intro report shown
  have hreport : report =
      "command cache".toList :: (("count", count) :: shown).flatMap (fun e => rowLines e.1 e.2) :=
    lines_cacheReport count s zeros
  refine ⟨hreport, ?_, ?_⟩
  · rintro ⟨countLine, rows, columns, heq, -, hrows⟩
    -- an aligned report has a line for each row, and each row has at least one
    have hlength := congrArg List.length (hreport.symm.trans heq)
    rw [List.length_cons, List.length_cons, List.length_cons, ← hrows.length_eq] at hlength
    have hfits : ∀ e ∈ ("count", count) :: shown, Fits e.2 := by
      refine fits_of_length ?_
      rw [List.length_cons]
      omega
    exact List.forall_mem_cons.1 hfits
  · intro hfits
    have hlabels : ∀ e ∈ ("count", count) :: shown, IsLabel e.1 := fun e he => isLabel_of_mem he
    have hrows := forall₂_rows hlabels (List.forall_mem_cons.2 hfits)
    rw [hreport]
    generalize List.flatMap _ _ = rows at hrows ⊢
    cases hrows with
    | cons hcount hrows => exact ⟨_, _, _, rfl, hcount.2, hrows⟩

/-- A counter of eleven digits loses the last one to a line of its own. -/
theorem cache_report_misaligned :
    let s : Statistics := ⟨some #[12345678901, 0, 0, 0, 0, 0]⟩
    lines (cacheReport 1 (some s) false).toList =
        ["command cache", "count              1", "found     1234567890", "         1"].map String.toList ∧
      ¬ Aligned 1 (shownEntries s false) (lines (cacheReport 1 (some s) false).toList) := by
  intro s
  have hlines : lines (cacheReport 1 (some s) false).toList =
      ["command cache", "count              1", "found     1234567890", "         1"].map String.toList := by
    decide +kernel
  refine ⟨hlines, ?_⟩
  rintro ⟨countLine, rows, columns, heq, -, hrows⟩
  have hlength := congrArg List.length (hlines.symm.trans heq)
  rw [List.length_cons, List.length_cons, ← hrows.length_eq] at hlength
  exact absurd hlength (by decide)

end Report

end CommandHost
