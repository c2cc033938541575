/-
CommandHost/Toml/Strings.lean

The string forms of TOML, read and written.

A basic string stands in double quotes and has escapes, a literal string stands
in single quotes and has none; both have a form in triple quotes that may hold
line ends.  Writing always uses the basic form.  The readers start behind the
opening quotes and return the text and what follows the closing ones.
-/
import CommandHost.Text.Quoted
import CommandHost.Text.Source

namespace CommandHost.Toml

/-- The text of a string so far and what follows it. -/
abbrev Scanned := Option (List Char × List Char)

/-- Puts characters in front of what was read. -/
def Scanned.after (cs : List Char) (r : Scanned) : Scanned :=
  r.map fun (text, rest) => (cs ++ text, rest)

def isSpace (c : Char) : Bool := c == ' ' || c == '\t'

/-- A line end is a line feed, or a carriage return in front of one. -/
def isBreak (c : Char) : Bool := c == '\n' || c == '\r'

/-! ### Escapes -/

/-- The character a letter stands for behind a backslash. -/
def named? : Char → Option Char
  | 'b' => some '\x08'
  | 't' => some '\t'
  | 'n' => some '\n'
  | 'f' => some '\x0c'
  | 'r' => some '\r'
  | '"' => some '"'
  | '\\' => some '\\'
  | _ => none

/-! ### Strings on one line -/

/-- The rest of a basic string. -/
def basic : List Char → Scanned
  | [] => none
  | '"' :: rest => some ([], rest)
  | '\\' :: 'u' :: a :: b :: c :: d :: rest =>
    (Text.charOfHex? [a, b, c, d]).bind fun x => (basic rest).after [x]
  | '\\' :: 'U' :: a :: b :: c :: d :: e :: f :: g :: h :: rest =>
    (Text.charOfHex? [a, b, c, d, e, f, g, h]).bind fun x => (basic rest).after [x]
  | '\\' :: c :: rest => (named? c).bind fun x => (basic rest).after [x]
  | c :: rest => if isBreak c then none else (basic rest).after [c]

/-- The rest of a literal string. -/
def literal : List Char → Scanned
  | [] => none
  | '\'' :: rest => some ([], rest)
  | c :: rest => if isBreak c then none else (literal rest).after [c]

/-! ### Strings over several lines -/

/-- The line end directly behind the opening quotes is no part of the string. -/
def skipFirstBreak : List Char → List Char
  | '\r' :: '\n' :: rest => rest
  | '\n' :: rest => rest
  | cs => cs

/-- What a quote is in a string that three of them close: up to two more may stand in front of the
closing ones. -/
inductive Quotes where
  | closing
  | inner
  | tooMany
  deriving DecidableEq

/-- What a quote is, given what follows it. -/
def quotesAt (quote : Char) (rest : List Char) : Quotes :=
  match (rest.takeWhile (· == quote)).length with
  | 0 => .inner
  | 1 => .inner
  | 2 => .closing
  | 3 => .inner
  | 4 => .inner
  | _ => .tooMany

/-- Whether a backslash in front of `rest` ends its line. -/
def endsLine (rest : List Char) : Bool :=
  ((rest.dropWhile isSpace).head?.map isBreak).getD false

/-- The rest of a basic string in triple quotes.  While `joining`, behind a backslash at the end of
a line, white space is dropped. -/
def longBasic : (joining : Bool) → List Char → Scanned
  | _, [] => none
  | _, '\\' :: 'u' :: a :: b :: c :: d :: rest =>
    (Text.charOfHex? [a, b, c, d]).bind fun x => (longBasic false rest).after [x]
  | _, '\\' :: 'U' :: a :: b :: c :: d :: e :: f :: g :: h :: rest =>
    (Text.charOfHex? [a, b, c, d, e, f, g, h]).bind fun x => (longBasic false rest).after [x]
  | _, '\\' :: c :: rest =>
    if endsLine (c :: rest) then longBasic true rest
    else (named? c).bind fun x => (longBasic false rest).after [x]
  | joining, c :: rest =>
    if joining && (isSpace c || isBreak c) then longBasic true rest
    else if c = '"' then
      match quotesAt '"' rest with
      | .closing => some ([], rest.drop 2)
      | .inner => (longBasic false rest).after [c]
      | .tooMany => none
    else (longBasic false rest).after [c]

/-- The rest of a literal string in triple quotes. -/
def longLiteral : List Char → Scanned
  | [] => none
  | c :: rest =>
    if c = '\'' then
      match quotesAt '\'' rest with
      | .closing => some ([], rest.drop 2)
      | .inner => (longLiteral rest).after [c]
      | .tooMany => none
    else (longLiteral rest).after [c]

/-! ### Writing -/

/-- How a character stands in a basic string. -/
def escaped (c : Char) : List Char :=
  match c with
  | '"' => ['\\', '"']
  | '\\' => ['\\', '\\']
  | '\x08' => ['\\', 'b']
  | '\t' => ['\\', 't']
  | '\n' => ['\\', 'n']
  | '\x0c' => ['\\', 'f']
  | '\r' => ['\\', 'r']
  | _ =>
    if c.toNat < 0x20 ∨ c.toNat = 0x7F then '\\' :: 'u' :: Text.hexDigits 4 c.toNat else [c]

/-- A text as a basic string. -/
def writeText (s : String) : List Char :=
  '"' :: s.toList.flatMap escaped ++ ['"']

end CommandHost.Toml
