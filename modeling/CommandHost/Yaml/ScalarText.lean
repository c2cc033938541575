/-
CommandHost/Yaml/ScalarText.lean

Reading scalars: plain, in quotes, and as blocks.

A scalar may run over several lines.  What separates two pieces of it, a *gap*,
is kept as it is on one line; over lines, one line feed becomes a space and
further line ends are kept.  In blocks, the lines are those indented far enough;
a folded block joins them, a literal one keeps their ends.
-/
import CommandHost.Text.Source
import CommandHost.Yaml.Character

namespace CommandHost.Yaml

/-- A place in a text: its line, how far from the start of that, and what is left. -/
structure Cursor where
  line : Nat
  column : Nat
  rest : List Char
  deriving DecidableEq

/-- A scalar that was read, and what follows it. -/
structure Scanned where
  text : List Char
  next : Cursor

/-- Puts characters in front of the text. -/
def Scanned.after (cs : List Char) (s : Scanned) : Scanned := { s with text := cs ++ s.text }

/-! ### Gaps -/

/-- What stands between two pieces of a scalar. -/
inductive Gap where
  | none
  /-- Blanks on one line. -/
  | blanks (cs : List Char)
  /-- A line end, and more of them on empty lines. -/
  | lines (first : Char) (more : List Char)
  /-- A line end with a backslash in front of it, and line ends on empty lines. -/
  | joined (more : List Char)

namespace Gap

/-- What a gap contributes to the text. -/
def text : Gap → List Char
  | none => []
  | blanks cs => cs
  | lines '\n' [] => [' ']
  | lines '\n' more => more
  | lines first more => first :: more
  | joined more => more

/-- The gap after one more blank; at the start of a line blanks count for nothing. -/
def blank (c : Char) : Gap → Gap
  | none => blanks [c]
  | blanks cs => blanks (cs ++ [c])
  | g => g

/-- The gap after one more line end. -/
def newline (c : Char) : Gap → Gap
  | none => lines c []
  | blanks _ => lines c []
  | lines first more => lines first (more ++ [c])
  | joined more => joined (more ++ [c])

/-- Whether the gap has passed a line end. -/
def isBroken : Gap → Bool
  | none => false
  | blanks _ => false
  | lines _ _ => true
  | joined _ => true

def isNone : Gap → Bool
  | none => true
  | _ => false

end Gap

/-! ### Plain scalars -/

/-- Whether a plain scalar stops in front of a character, given what follows it. -/
def stopsPlain (flow : Bool) (c : Char) (rest : List Char) : Bool :=
  (c == ':' && atGap rest) ||
    (flow && (c ∈ [',', '[', ']', '\x7b', '\x7d'] ||
      (c == '?' && (rest.isEmpty || (rest.head?.map fun d => d == ' ' || isBreak d).getD false))))

/-- The rest of a plain scalar, of which all lines but the first start at column `low` or behind it.
It ends in front of a comment, a marker, or a character that stops it. -/
def plain (flow : Bool) (low : Nat) :
    (gap : Gap) → (line column : Nat) → List Char → Option Scanned
  | _, line, column, [] => some ⟨[], line, column, []⟩
  | gap, line, column, c :: rest =>
    if isBreak c then plain flow low (gap.newline c) (line + 1) 0 rest
    else if isBlank c then
      if c = '\t' ∧ gap.isBroken ∧ column < low then none
      else plain flow low (gap.blank c) line (column + 1) rest
    else if (!gap.isNone && c == '#') || (gap.isBroken && !flow && column < low) ||
        (column == 0 && startsMarker (c :: rest)) || stopsPlain flow c rest then
      some ⟨[], line, column, c :: rest⟩
    else (plain flow low .none line (column + 1) rest).map (·.after (gap.text ++ [c]))

/-! ### Quoted scalars -/

/-- The rest of a scalar in single quotes. -/
def singleQuoted : (gap : Gap) → (line column : Nat) → List Char → Option Scanned
  | _, _, _, [] => none
  | gap, line, column, '\'' :: '\'' :: rest =>
    (singleQuoted .none line (column + 2) rest).map (·.after (gap.text ++ ['\'']))
  | gap, line, column, c :: rest =>
    if isBreak c then singleQuoted (gap.newline c) (line + 1) 0 rest
    else if column = 0 ∧ startsMarker (c :: rest) then none
    else if isBlank c then singleQuoted (gap.blank c) line (column + 1) rest
    else if c = '\'' then some ⟨gap.text, line, column + 1, rest⟩
    else (singleQuoted .none line (column + 1) rest).map (·.after (gap.text ++ [c]))

/-- The character a letter stands for behind a backslash. -/
def named? : Char → Option Char
  | '0' => some '\x00'
  | 'a' => some '\x07'
  | 'b' => some '\x08'
  | 't' => some '\t'
  | '\t' => some '\t'
  | 'n' => some '\n'
  | 'v' => some '\x0b'
  | 'f' => some '\x0c'
  | 'r' => some '\r'
  | 'e' => some '\x1b'
  | ' ' => some ' '
  | '"' => some '"'
  | '\'' => some '\''
  | '/' => some '/'
  | '\\' => some '\\'
  | 'N' => some '\u0085'
  | '_' => some '\u00a0'
  | 'L' => some '\u2028'
  | 'P' => some '\u2029'
  | _ => none

/-- The rest of a scalar in double quotes. -/
def doubleQuoted : (gap : Gap) → (line column : Nat) → List Char → Option Scanned
  | _, _, _, [] => none
  | gap, line, column, '\\' :: 'x' :: a :: b :: rest =>
    (Text.charOfHex? [a, b]).bind fun x =>
      (doubleQuoted .none line (column + 4) rest).map (·.after (gap.text ++ [x]))
  | gap, line, column, '\\' :: 'u' :: a :: b :: c :: d :: rest =>
    (Text.charOfHex? [a, b, c, d]).bind fun x =>
      (doubleQuoted .none line (column + 6) rest).map (·.after (gap.text ++ [x]))
  | gap, line, column, '\\' :: 'U' :: a :: b :: c :: d :: e :: f :: g :: h :: rest =>
    (Text.charOfHex? [a, b, c, d, e, f, g, h]).bind fun x =>
      (doubleQuoted .none line (column + 10) rest).map (·.after (gap.text ++ [x]))
  | gap, line, column, '\\' :: c :: rest =>
    if isBreak c then (doubleQuoted (.joined []) (line + 1) 0 rest).map (·.after gap.text)
    else
      (named? c).bind fun x =>
        (doubleQuoted .none line (column + 2) rest).map (·.after (gap.text ++ [x]))
  | gap, line, column, c :: rest =>
    if isBreak c then doubleQuoted (gap.newline c) (line + 1) 0 rest
    else if column = 0 ∧ startsMarker (c :: rest) then none
    else if isBlank c then doubleQuoted (gap.blank c) line (column + 1) rest
    else if c = '"' then some ⟨gap.text, line, column + 1, rest⟩
    else (doubleQuoted .none line (column + 1) rest).map (·.after (gap.text ++ [c]))

/-! ### Blocks -/

/-- What becomes of the line ends at the end of a block. -/
inductive Chomping where
  | strip
  | clip
  | keep
  deriving DecidableEq

/-- What stands behind the mark of a block. -/
structure Header where
  /-- How much further than its parent the block is indented, if that is said. -/
  indent : Option Nat := none
  chomping : Chomping := .clip

def chompingOf? : Char → Option Chomping
  | '-' => some .strip
  | '+' => some .keep
  | _ => none

/-- The indent a digit asks for; none asks for zero. -/
def indentOf? (c : Char) : Option Nat :=
  if '1' ≤ c ∧ c ≤ '9' then some (c.toNat - 48) else none

/-- Takes one sign and one digit, in either order, off the front. -/
def hints (h : Header) : List Char → Header × List Char
  | [] => (h, [])
  | c :: rest =>
    match chompingOf? c, indentOf? c with
    | some k, _ =>
      match rest with
      | d :: more =>
        match indentOf? d with
        | some n => (⟨some n, k⟩, more)
        | none => ({ h with chomping := k }, rest)
      | [] => ({ h with chomping := k }, rest)
    | none, some n =>
      match rest with
      | d :: more =>
        match chompingOf? d with
        | some k => (⟨some n, k⟩, more)
        | none => ({ h with indent := some n }, rest)
      | [] => ({ h with indent := some n }, rest)
    | none, none => (h, c :: rest)

/-- The header of a block and the lines below it. -/
def header? (cs : List Char) : Option (Header × List Char) :=
  let (h, rest) := hints {} cs
  let rest := rest.dropWhile isBlank
  let rest := if rest.head? = some '#' then rest.dropWhile (!isBreak ·) else rest
  match rest with
  | [] => some (h, [])
  | c :: rest => if isBreak c then some (h, rest) else none

/-- The indent of the first line that is not empty, or of the longest empty one in front of it. -/
def detectIndent? : (widest column : Nat) → List Char → Option Nat
  | widest, column, [] => some (max widest column)
  | widest, column, c :: rest =>
    if c = ' ' then detectIndent? widest (column + 1) rest
    else if c = '\t' then none
    else if isBreak c then detectIndent? (max widest column) 0 rest
    else some (max widest column)

/-- What a block has read since the last character of its text. -/
structure BlockState where
  /-- Whether the reader is within a line, behind the indent. -/
  inLine : Bool := false
  /-- The end of the last line. -/
  lead : Option Char := none
  /-- The ends of the empty lines since. -/
  more : List Char := []
  /-- Whether the last line starts with a blank. -/
  blankLine : Bool := false

/-- What the line ends before a line contribute to the text. -/
def BlockState.separator (s : BlockState) (folded blankNext : Bool) : List Char :=
  (if folded && !s.blankLine && !blankNext && s.lead == some '\n' then
      (if s.more.isEmpty then [' '] else [])
    else s.lead.toList) ++ s.more

/-- What the line ends behind the last line contribute to the text. -/
def BlockState.tail (s : BlockState) : Chomping → List Char
  | .strip => []
  | .clip => s.lead.toList
  | .keep => s.lead.toList ++ s.more

/-- The lines of a block. -/
def blockLines (folded : Bool) (chomping : Chomping) (indent : Nat) :
    BlockState → (line column : Nat) → List Char → Option Scanned
  | s, line, column, [] => some ⟨s.tail chomping, line, column, []⟩
  | s, line, column, c :: rest =>
    if isBreak c then
      let s := if s.inLine then { s with inLine := false, lead := some c, more := [] }
        else { s with more := s.more ++ [c] }
      blockLines folded chomping indent s (line + 1) 0 rest
    else if s.inLine then
      (blockLines folded chomping indent s line (column + 1) rest).map (·.after [c])
    else if column < indent then
      if c = ' ' then blockLines folded chomping indent s line (column + 1) rest
      else if c = '\t' then none
      else some ⟨s.tail chomping, line, column, c :: rest⟩
    else
      (blockLines folded chomping indent ⟨true, none, [], isBlank c⟩ line (column + 1) rest).map
        (·.after (s.separator folded (isBlank c) ++ [c]))

/-- A block behind its mark, below a parent whose content starts at column `low`. -/
def block? (folded : Bool) (low line : Nat) (cs : List Char) : Option Scanned := do
  let (h, rest) ← header? cs
  let indent ← match h.indent with
    | some n => some (if low = 0 then n else low - 1 + n)
    | none => (detectIndent? 0 0 rest).map fun n => max (max n low) 1
  blockLines folded h.chomping indent {} (line + 1) 0 rest

end CommandHost.Yaml
