/-
CommandHost/Report/Cell.lean

Cells: texts fitted to a number of columns.

A text is wrapped: a line is broken at a space, which is dropped, or behind a
hyphen, and a word that is too long for a line is cut.  Then every line is padded
to the width of the cell, on the right or on the left.
-/
import CommandHost.Text.Width

namespace CommandHost.Report

open Text

/-! ### Wrapping -/

/-- A text on its way into lines. -/
structure Wrapping where
  /-- What has been placed, with its line ends. -/
  done : List Char := []
  /-- The columns taken on the line. -/
  column : Nat := 0
  /-- The spaces behind what has been placed. -/
  spaces : List Char := []
  /-- The word behind the spaces. -/
  word : List Char := []

namespace Wrapping

/-- Places the spaces. -/
def placeSpaces (w : Wrapping) : Wrapping :=
  { w with done := w.done ++ w.spaces, column := w.column + w.spaces.length, spaces := [] }

/-- Places the word, and the spaces in front of it. -/
def placeWord (w : Wrapping) : Wrapping :=
  if w.word.isEmpty then w
  else
    let v := w.placeSpaces
    { v with done := v.done ++ w.word, column := v.column + width w.word, word := [] }

/-- Starts a line; spaces at its break are dropped. -/
def startLine (w : Wrapping) : Wrapping :=
  { w with done := w.done ++ ['\n'], column := 0, spaces := [] }

/-- Keeps spaces that no word follows, if they still fit. -/
def settle (limit : Nat) (w : Wrapping) : Wrapping :=
  if width w.word = 0 then
    if limit < w.column + w.spaces.length then { w with column := 0, spaces := [] }
    else { w with done := w.done ++ w.spaces, spaces := [] }
  else w

/-- Adds a character to the word; a word as long as the line is placed, and a line that would grow
too long is broken in front of the word. -/
def extend (limit : Nat) (w : Wrapping) (c : Char) : Wrapping :=
  let v := if limit < width w.word + charWidth c then w.placeWord else w
  let v := { v with word := v.word ++ [c] }
  if limit < v.column + width v.word + v.spaces.length then v.startLine else v

/-- Takes one more character. -/
def step (limit : Nat) (w : Wrapping) (c : Char) : Wrapping :=
  if c = '\n' then ((w.settle limit).placeWord).startLine
  else if c = ' ' then
    let v := w.placeWord
    { v with spaces := v.spaces ++ [c] }
  else if charWidth c = 0 then { w with word := w.word ++ [c] }
  else if c = '-' then
    let v := w.placeSpaces
    if v.column + width v.word + 1 ≤ limit then
      let v := v.placeWord
      { v with done := v.done ++ [c], column := v.column + 1 }
    else v.extend limit c
  else w.extend limit c

/-- The whole text once all characters are taken. -/
def finish (limit : Nat) (w : Wrapping) : List Char :=
  ((w.settle limit).placeWord).done

end Wrapping

/-- A text with line ends put in so that its lines take at most `limit` columns. -/
def wrap (limit : Nat) (cs : List Char) : List Char :=
  (cs.foldl (Wrapping.step limit) {}).finish limit

/-! ### Padding -/

/-- The side at which the text of a cell stands. -/
inductive Side where
  | left
  | right
  deriving DecidableEq, Repr

/-- The lines of a text. -/
def lines : List Char → List (List Char)
  | [] => [[]]
  | c :: cs =>
    match lines cs with
    | [] => [[c]]
    | l :: ls => if c = '\n' then [] :: l :: ls else (c :: l) :: ls

/-- Lines put together. -/
def unlines (ls : List (List Char)) : List Char := List.intercalate ['\n'] ls

/-- A line padded to a number of columns. -/
def pad (side : Side) (columns : Nat) (line : List Char) : List Char :=
  let blanks := List.replicate (columns - width line) ' '
  match side with
  | .left => line ++ blanks
  | .right => blanks ++ line

/-- A carriage return in front of a line feed counts for nothing. -/
def dropReturns : List Char → List Char
  | [] => []
  | '\r' :: '\n' :: cs => '\n' :: dropReturns cs
  | c :: cs => c :: dropReturns cs

/-- A text in a cell: wrapped, and padded to the cell or to its longest line. -/
def cell (side : Side) (columns : Nat) (cs : List Char) : List Char :=
  let ls := lines (wrap columns (dropReturns (expandTabs cs)))
  let widest := (ls.map width).foldl max columns
  unlines (ls.map (pad side widest))

/-! ### Lines -/

theorem lines_ne_nil (cs : List Char) : lines cs ≠ [] := by
  cases cs with
  | nil => simp [lines]
  | cons c cs =>
    rw [lines]
    split
    · simp
    · split <;> simp

theorem lines_newline (cs : List Char) : lines ('\n' :: cs) = [] :: lines cs := by
  obtain ⟨l, ls, h⟩ := List.exists_cons_of_ne_nil (lines_ne_nil cs)
  simp [lines, h]

theorem lines_cons_of_ne {c : Char} (hc : c ≠ '\n') (cs : List Char) :
    lines (c :: cs) = (lines cs).modifyHead (c :: ·) := by
  obtain ⟨l, ls, h⟩ := List.exists_cons_of_ne_nil (lines_ne_nil cs)
  simp [lines, h, hc]

/-- What stands in front of a text stands in front of its first line. -/
theorem lines_append {l : List Char} (hl : '\n' ∉ l) (cs : List Char) :
    lines (l ++ cs) = (lines cs).modifyHead (l ++ ·) := by
  induction l with
  | nil => exact (List.modifyHead_id ▸ rfl)
  | cons c l ih =>
    obtain ⟨hc, hl⟩ := not_or.1 (mt List.mem_cons.2 hl)
    rw [List.cons_append, lines_cons_of_ne (Ne.symm hc), ih hl, List.modifyHead_modifyHead]
    rfl

theorem lines_append_newline (a b : List Char) : lines (a ++ '\n' :: b) = lines a ++ lines b := by
  induction a with
  | nil => exact lines_newline b
  | cons c a ih =>
    obtain ⟨l, ls, h⟩ := List.exists_cons_of_ne_nil (lines_ne_nil a)
    by_cases hc : c = '\n'
    · rw [List.cons_append, hc, lines_newline, lines_newline, ih]
      rfl
    · rw [List.cons_append, lines_cons_of_ne hc, lines_cons_of_ne hc, ih, h]
      rfl

theorem unlines_singleton (l : List Char) : unlines [l] = l := by
  simp [unlines, List.intercalate]

theorem unlines_cons {l : List Char} {ls : List (List Char)} (h : ls ≠ []) :
    unlines (l :: ls) = l ++ '\n' :: unlines ls := by
  obtain ⟨m, ms, rfl⟩ := List.exists_cons_of_ne_nil h
  simp [unlines, List.intercalate]

/-- The lines of texts on lines of their own. -/
theorem lines_unlines {ls : List (List Char)} (hne : ls ≠ []) :
    lines (unlines ls) = ls.flatMap lines := by
  induction ls with
  | nil => exact absurd rfl hne
  | cons l ls ih =>
    cases ls with
    | nil => simp [unlines_singleton]
    | cons m ms =>
      rw [unlines_cons (by simp), lines_append_newline, ih (by simp), List.flatMap_cons (x := l)]

/-- A text without line ends is its only line. -/
theorem lines_of_notMem {l : List Char} (h : '\n' ∉ l) : lines l = [l] := by
  have happend := lines_append h []
  rwa [List.append_nil, show lines [] = [[]] from rfl, List.modifyHead_cons, List.append_nil] at happend

theorem lines_unlines_of_notMem {ls : List (List Char)} (hne : ls ≠ []) (h : ∀ l ∈ ls, '\n' ∉ l) :
    lines (unlines ls) = ls := by
  rw [lines_unlines hne]
  calc ls.flatMap lines = (ls.map fun l => [l]).flatten := by
        rw [List.flatMap_def, List.map_congr_left fun l hl => lines_of_notMem (h l hl)]
    _ = ls := List.flatMap_singleton' ls

/-! ### Padded lines -/

/-- A line that fits takes all columns of its cell. -/
theorem width_pad (side : Side) {columns : Nat} {l : List Char} (h : width l ≤ columns) :
    width (pad side columns l) = columns := by
  cases side <;> simp only [pad, width_append, width_blanks] <;> omega

theorem newline_notMem_pad (side : Side) (columns : Nat) {l : List Char} (h : '\n' ∉ l) :
    '\n' ∉ pad side columns l := by
  cases side <;> simp [pad, h]

end CommandHost.Report
