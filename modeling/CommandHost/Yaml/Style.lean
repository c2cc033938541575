/-
CommandHost/Yaml/Style.lean

How a text is written as a YAML scalar.

A text that reads back as itself without quotes is written so.  Otherwise single
quotes serve if only its shape forbids plain writing, double quotes if it would
be read as something else or holds characters that need escapes, and a literal
block if it holds line feeds.  What is written ends with the line.
-/
import CommandHost.Text.Quoted
import CommandHost.Yaml.Character
import CommandHost.Yaml.Scalar

namespace CommandHost.Yaml

/-! ### The shape of a text -/

/-- Whether some character of a text and the one behind it are so. -/
def anyPair (p : Char → Char → Bool) : List Char → Bool
  | a :: b :: rest => p a b || anyPair p (b :: rest)
  | _ => false

/-- Whether the first character, with what follows it, has a meaning of its own. -/
def startsIndicator : List Char → Bool
  | [] => false
  | c :: rest =>
    c ∈ ['#', ',', '[', ']', '\x7b', '\x7d', '&', '*', '!', '|', '>', '\'', '"', '%', '@', '\x60'] ||
      (c ∈ ['?', ':', '-'] && (rest.isEmpty || (rest.head?.map isBlank).getD false))

/-- Whether a text holds a colon in front of a blank or its end, or a hash behind a gap. -/
def holdsIndicator (cs : List Char) : Bool :=
  cs.getLast? == some ':' ||
    anyPair (fun a b => (a == ':' && isBlank b) || ((isBlank a || isBreak a) && b == '#')) cs

/-- Whether a text starts like a document marker. -/
def looksLikeMarker : List Char → Bool
  | '-' :: '-' :: '-' :: _ => true
  | '.' :: '.' :: '.' :: _ => true
  | _ => false

/-- Whether a space stands at the start or end, or a line end there. -/
def hasMargin (cs : List Char) : Bool :=
  let outer (c : Char) := c == ' ' || isBreak c
  (cs.head?.map outer).getD false || (cs.getLast?.map outer).getD false

def endsInSpace (cs : List Char) : Bool := cs.getLast? == some ' '

/-- Whether a line starts with a space, the first line apart. -/
def breakThenSpace (cs : List Char) : Bool := anyPair (fun a b => isBreak a && b == ' ') cs

/-- Whether a line ends with a space. -/
def spaceThenBreak (cs : List Char) : Bool := anyPair (fun a b => a == ' ' && isBreak b) cs

/-- Whether a character needs an escape, tabs apart. -/
def hasSpecial (cs : List Char) : Bool := cs.any fun c => c != '\t' && !isWritable c

/-! ### The styles a shape allows -/

/-- Single quotes keep spaces and separators, but no tabs, and no space beside a line end. -/
def singleAllowed (cs : List Char) : Bool :=
  !(breakThenSpace cs || spaceThenBreak cs || cs.contains '\t' || hasSpecial cs)

/-- Without quotes a text stands on one line, without margins and without indicators. -/
def plainAllowed (cs : List Char) : Bool :=
  singleAllowed cs &&
    !(hasMargin cs || cs.any isBreak || startsIndicator cs || holdsIndicator cs ||
      looksLikeMarker cs)

/-- A literal block keeps everything but spaces at the end of a line and special characters. -/
def blockAllowed (cs : List Char) : Bool :=
  !(endsInSpace cs || spaceThenBreak cs || hasSpecial cs)

/-! ### Writing -/

/-- How far the lines of a scalar over several lines are indented. -/
def continuation : List Char := List.replicate 4 ' '

/-- Writes characters with the continuation indent in front of each line that is not empty. -/
def indented (double : Bool) : (lineStart : Bool) → List Char → List Char
  | _, [] => []
  | lineStart, c :: rest =>
    if isBreak c then c :: indented double true rest
    else
      (if lineStart then continuation else []) ++
        (if double && c == '\'' then ['\'', '\''] else [c]) ++ indented double false rest

/-- A text in single quotes, which are doubled inside. -/
def single (cs : List Char) : List Char :=
  '\'' :: indented true false cs ++ ['\'', '\n']

/-- How a character stands in double quotes. -/
def escaped (c : Char) : List Char :=
  match c with
  | '"' => ['\\', '"']
  | '\\' => ['\\', '\\']
  | _ =>
    if isWritable c && !isBreak c then [c]
    else
      match c.toNat with
      | 0x00 => ['\\', '0']
      | 0x07 => ['\\', 'a']
      | 0x08 => ['\\', 'b']
      | 0x09 => ['\\', 't']
      | 0x0A => ['\\', 'n']
      | 0x0B => ['\\', 'v']
      | 0x0C => ['\\', 'f']
      | 0x0D => ['\\', 'r']
      | 0x1B => ['\\', 'e']
      | 0x85 => ['\\', 'N']
      | 0x2028 => ['\\', 'L']
      | 0x2029 => ['\\', 'P']
      | n =>
        let digits (width : Nat) := (Text.hexDigits width n).map Char.toUpper
        if n ≤ 0xFF then '\\' :: 'x' :: digits 2
        else if n ≤ 0xFFFF then '\\' :: 'u' :: digits 4
        else '\\' :: 'U' :: digits 8

/-- A text in double quotes. -/
def double (cs : List Char) : List Char :=
  '"' :: cs.flatMap escaped ++ ['"', '\n']

/-- What stands behind the bar of a literal block: its indent if the text starts with a space or a
line end, and a sign if the text does not end with exactly one line end. -/
def blockHints (cs : List Char) : List Char :=
  let first := (cs.head?.map fun c => c == ' ' || isBreak c).getD false
  let hint := match cs.reverse with
    | [] => ['-']
    | [c] => if isBreak c then ['+'] else ['-']
    | c :: d :: _ => if !isBreak c then ['-'] else if isBreak d then ['+'] else []
  (if first then ['2'] else []) ++ hint

/-- A text as a literal block. -/
def block (cs : List Char) : List Char :=
  let ended := (cs.getLast?.map isBreak).getD false
  '|' :: blockHints cs ++ '\n' :: indented false true cs ++ (if ended then [] else ['\n'])

/-- A text as a scalar, to the end of its line. -/
def writeText (s : String) : List Char :=
  let cs := s.toList
  if cs.contains '\n' then (if blockAllowed cs then block cs else double cs)
  else if Scalar.isPlainText s then
    if plainAllowed cs then cs ++ ['\n']
    else if singleAllowed cs then single cs
    else double cs
  else double cs

end CommandHost.Yaml
