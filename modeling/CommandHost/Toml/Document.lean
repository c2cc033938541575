/-
CommandHost/Toml/Document.lean

Reading TOML documents.

A document is a sequence of lines: the header of a table, the header of another
table in an array of tables, or a key with its value.  `Document.read?` returns
the entries of the whole document, or nothing if the text is no TOML or defines
something twice.
-/
import CommandHost.Number.FloatText
import CommandHost.Text.Moment
import CommandHost.Toml.Item
import CommandHost.Toml.Strings

namespace CommandHost.Toml

open Number

/-! ### White space -/

def skipSpace (cs : List Char) : List Char := cs.dropWhile isSpace

/-- Drops a comment at the front. -/
def skipComment (cs : List Char) : List Char :=
  match cs with
  | '#' :: rest => rest.dropWhile (!isBreak ·)
  | _ => cs

/-- The next line, if nothing but blanks and a comment is left on this one. -/
def endOfLine? (cs : List Char) : Option (List Char) :=
  match skipComment (skipSpace cs) with
  | [] => some []
  | c :: rest => if isBreak c then some rest else none

/-- Drops blanks, line ends and comments. -/
def skipLines : (inComment : Bool) → List Char → List Char
  | _, [] => []
  | true, c :: rest => skipLines (!isBreak c) rest
  | false, c :: rest =>
    if isSpace c || isBreak c then skipLines false rest
    else if c = '#' then skipLines true rest
    else c :: rest

/-! ### Keys -/

def isBare (c : Char) : Bool := c.isAlphanum || c == '_' || c == '-'

/-- One part of a key. -/
def keyPart? : List Char → Option (String × List Char)
  | '"' :: rest => (basic rest).map fun (k, rest) => (String.ofList k, rest)
  | '\'' :: rest => (literal rest).map fun (k, rest) => (String.ofList k, rest)
  | cs =>
    match cs.takeWhile isBare with
    | [] => none
    | k => some (String.ofList k, cs.dropWhile isBare)

/-- A dotted key, with blanks around its parts. -/
def key? : (fuel : Nat) → List Char → Option (List String × List Char)
  | 0, _ => none
  | fuel + 1, cs => do
    let (part, rest) ← keyPart? (skipSpace cs)
    match skipSpace rest with
    | '.' :: rest => do
      let (more, rest) ← key? fuel rest
      some (part :: more, rest)
    | rest => some ([part], rest)

/-! ### Numbers, dates and truth values -/

def isHexDigit (c : Char) : Bool := ((digitValue? c).map (decide <| · < 16)).getD false

/-- Whether each underscore stands between digits, and a digit at the end. -/
def underscoresPlaced : (digitBefore : Bool) → List Char → Bool
  | before, [] => before
  | before, c :: cs => (c != '_' || before) && underscoresPlaced (isHexDigit c) cs

/-- Whether a numeral has a zero in front of further digits. -/
def hasLeadingZero : List Char → Bool
  | '0' :: c :: _ => c != 'b' && c != 'o' && c != 'x'
  | s :: '0' :: _ :: _ => s == '+' || s == '-'
  | _ => false

/-- A whole number. -/
def wholeOf? (cs : List Char) : Option Item :=
  if underscoresPlaced false cs && !hasLeadingZero cs then
    match readAnyBase cs with
    | .ok n => some (.whole n)
    | .error _ => none
  else none

/-- Whether a digit follows each point. -/
def pointsPlaced : (afterPoint : Bool) → List Char → Bool
  | after, [] => !after
  | after, c :: cs => (!after || c.isDigit) && pointsPlaced (c == '.') cs

/-- The parts of a number between its points and exponent marks. -/
def numberParts (cs : List Char) : List (List Char) :=
  (cs.splitOnP fun c => c == '.' || c == 'e' || c == 'E').filter (!·.isEmpty)

/-- A number with a fraction or an exponent. -/
def fractionOf? (cs : List Char) : Option Item :=
  let parts := numberParts cs
  if parts.all (underscoresPlaced false) && !(parts.head?.map hasLeadingZero).getD false &&
      pointsPlaced false cs && (readFloat? (cs.filter (· != '_'))).isSome then some .fraction
  else none

/-- A date, a time of day, or both; a blank may stand for the letter between them. -/
def momentOf? (cs : List Char) : Option Item :=
  let cs := cs.map fun c => if c = 't' ∨ c = ' ' then 'T' else if c = 'z' then 'Z' else c
  let clockAfter := ((Text.Moment.date true cs).bind (Text.expect? 'T')).bind
    (Text.Moment.clock true)
  if Text.Moment.complete (Text.Moment.date true cs) || Text.Moment.complete clockAfter ||
      Text.Moment.complete (clockAfter.bind Text.Moment.zone) ||
      Text.Moment.complete (Text.Moment.clock true cs) then some .moment
  else none

/-- Takes the longest run of characters of a kind, and reads it. -/
def run? (kind : Char → Bool) (read : List Char → Option Item) (cs : List Char) : Option (Item × List Char) :=
  (read (cs.takeWhile kind)).map fun i => (i, cs.dropWhile kind)

def inWhole (c : Char) : Bool := c.isDigit || c == '_'

def inFraction (c : Char) : Bool := c.isDigit || c ∈ ['_', '.', '+', '-', 'e', 'E']

def inMoment (c : Char) : Bool := c.isDigit || c ∈ ['-', ':', 'T', 't', ' ', '.', 'Z', 'z', '+']

/-- A decimal number without sign, whole or not; `sign` is what stood in front of it. -/
def decimal? (sign cs : List Char) : Option (Item × List Char) :=
  match cs.dropWhile inWhole with
  | c :: _ =>
    if c = '.' ∨ c = 'e' ∨ c = 'E' then run? inFraction (fun ds => fractionOf? (sign ++ ds)) cs
    else run? inWhole (fun ds => wholeOf? (sign ++ ds)) cs
  | [] => run? inWhole (fun ds => wholeOf? (sign ++ ds)) cs

/-- The names of numbers that have no digits. -/
def named : List Char → Option (Item × List Char)
  | 'i' :: 'n' :: 'f' :: rest => some (.fraction, rest)
  | 'n' :: 'a' :: 'n' :: rest => some (.fraction, rest)
  | _ => none

/-- A value that starts with a digit. -/
def unsigned? (cs : List Char) : Option (Item × List Char) :=
  match cs with
  | '0' :: c :: d :: rest =>
    if c = 'x' ∨ c = 'o' ∨ c = 'b' then
      (run? (fun c => isHexDigit c || c == '_') (fun ds => wholeOf? ('0' :: c :: ds)) (d :: rest))
    else dated
  | _ => dated
where
  /-- Digits with a dash or colon behind them start a date or a time. -/
  dated : Option (Item × List Char) :=
    match cs.dropWhile Char.isDigit with
    | c :: _ =>
      if c = '-' ∨ c = ':' then
        (run? inMoment (fun ds => momentOf? (ds.reverse.dropWhile (· == ' ')).reverse) cs)
      else decimal? [] cs
    | [] => decimal? [] cs

/-- A value that is neither a string, an array nor a table. -/
def atom? (cs : List Char) : Option (Item × List Char) :=
  match cs with
  | [] => none
  | c :: rest =>
    if c = '+' ∨ c = '-' then
      match rest with
      | d :: _ =>
        if d.isDigit then decimal? [c] rest
        else named rest
      | [] => none
    else if c.isDigit then unsigned? cs
    else
      match String.ofList (cs.takeWhile Char.isAlpha) with
      | "true" => some (.truth true, cs.dropWhile Char.isAlpha)
      | "false" => some (.truth false, cs.dropWhile Char.isAlpha)
      | _ => named cs

/-! ### Values -/

/-- A string read, as an item. -/
def textItem (r : Scanned) : Option (Item × List Char) :=
  r.map fun (s, rest) => (.text (String.ofList s), rest)

mutual

/-- A value. -/
def value? : (fuel : Nat) → List Char → Option (Item × List Char)
  | 0, _ => none
  | fuel + 1, cs =>
    match cs with
    | '"' :: '"' :: '"' :: rest => textItem (longBasic false (skipFirstBreak rest))
    | '"' :: rest => textItem (basic rest)
    | '\'' :: '\'' :: '\'' :: rest => textItem (longLiteral (skipFirstBreak rest))
    | '\'' :: rest => textItem (literal rest)
    | '[' :: rest => (array? fuel rest).map fun rest => (.array, rest)
    | '\x7b' :: rest =>
      match skipSpace rest with
      | '\x7d' :: rest => some (.table [] false, rest)
      | rest => (inline? fuel [] rest).map fun (es, rest) => (.table es false, rest)
    | _ => atom? cs

/-- What follows an array whose values start here. -/
def array? : (fuel : Nat) → List Char → Option (List Char)
  | 0, _ => none
  | fuel + 1, cs =>
    match skipLines false cs with
    | ']' :: rest => some rest
    | cs => do
      let (_, rest) ← value? fuel cs
      match skipLines false rest with
      | ',' :: rest => array? fuel rest
      | ']' :: rest => some rest
      | _ => none

/-- The entries of a table on one line, added to those before. -/
def inline? : (fuel : Nat) → Entries → List Char → Option (Entries × List Char)
  | 0, _, _ => none
  | fuel + 1, es, cs => do
    let (path, rest) ← key? fuel cs
    let rest ← Text.expect? '=' rest
    let (item, rest) ← value? fuel (skipSpace rest)
    let es ← es.defineAt? item [] path
    match skipSpace rest with
    | ',' :: rest => inline? fuel es rest
    | '\x7d' :: rest => some (es, rest)
    | _ => none

end

/-! ### Documents -/

/-- The entries so far, and the path of the table that is being filled. -/
structure Document where
  entries : Entries := []
  current : List String := []

namespace Document

/-- Starts the table at a path. -/
def startTable? (d : Document) (path : List String) : Option Document :=
  match path.getLast? with
  | none => none
  | some key =>
    (Entries.within? (Entries.openTable? key) path.dropLast d.entries).map fun es => ⟨es, path⟩

/-- Starts another table in the array of tables at a path. -/
def addTable? (d : Document) (path : List String) : Option Document :=
  match path.getLast? with
  | none => none
  | some key =>
    (Entries.within? (Entries.addTable? key) path.dropLast d.entries).map fun es => ⟨es, path⟩

/-- Defines a dotted key in the current table. -/
def define? (d : Document) (path : List String) (item : Item) : Option Document :=
  (d.entries.defineAt? item d.current path).map fun es => { d with entries := es }

/-- Reads the line at the front. -/
def line? (d : Document) (fuel : Nat) (cs : List Char) : Option (Document × List Char) :=
  match cs with
  | '[' :: '[' :: rest => do
    let (path, rest) ← key? fuel rest
    let rest ← Text.expect? ']' rest
    let rest ← Text.expect? ']' rest
    some (← d.addTable? path, ← endOfLine? rest)
  | '[' :: rest => do
    let (path, rest) ← key? fuel rest
    let rest ← Text.expect? ']' rest
    some (← d.startTable? path, ← endOfLine? rest)
  | cs => do
    let (path, rest) ← key? fuel cs
    let rest ← Text.expect? '=' rest
    let (item, rest) ← value? fuel (skipSpace rest)
    some (← d.define? path item, ← endOfLine? rest)

/-- Reads line after line. -/
def lines? : (fuel : Nat) → Document → List Char → Option Document
  | 0, _, _ => none
  | fuel + 1, d, cs =>
    match skipLines false cs with
    | [] => some d
    | cs => do
      let (d, rest) ← d.line? fuel cs
      lines? fuel d rest

/-- Whether a text has no control characters but tabs and line ends. -/
def isClean : List Char → Bool
  | [] => true
  | '\r' :: '\n' :: rest => isClean rest
  | c :: rest => (c == '\t' || c == '\n' || (0x20 ≤ c.toNat && c.toNat != 0x7F)) && isClean rest

/-- The entries of a document.  Each line and each value takes at least one character, so the
length of the text bounds the work. -/
def read? (text : String) : Option Entries :=
  let cs := Text.dropMark text.toList
  if isClean cs then (lines? (cs.length + 1) {} cs).map (·.entries) else none

end Document

end CommandHost.Toml
