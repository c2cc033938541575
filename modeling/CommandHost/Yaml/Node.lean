/-
CommandHost/Yaml/Node.lean

Reading YAML documents.

A document is one node: a scalar, a sequence or a mapping.  Sequences and
mappings are written as blocks, by indentation, or as flows, in brackets.  Of a
sequence the program only has to know that it is there.  `Node.read?` returns
the first document of a text, or nothing if it is none; anchors, tags, directives
and keys behind question marks are not part of the language read here.
-/
import CommandHost.Yaml.ScalarText

namespace CommandHost.Yaml

/-- What a document holds. -/
inductive Node where
  /-- A scalar without quotes, which may stand for something else than its text. -/
  | plain (s : String)
  /-- A scalar in quotes or in a block. -/
  | quoted (s : String)
  | sequence
  | mapping (entries : List (Node × Node))

namespace Node

/-- Where a node was left out. -/
def absent : Node := plain ""

end Node

/-! ### Between tokens -/

/-- Skips blanks, comments and line ends.  Tabs count as blanks in flows and behind the first token
of a line. -/
def skip (flow : Bool) : (tabs inComment : Bool) → (line column : Nat) → List Char → Cursor
  | _, _, line, column, [] => ⟨line, column, []⟩
  | tabs, inComment, line, column, c :: rest =>
    if isBreak c then skip flow flow false (line + 1) 0 rest
    else if inComment || c == ' ' || (tabs && c == '\t') then
      skip flow tabs inComment line (column + 1) rest
    else if c = '#' then skip flow tabs true line (column + 1) rest
    else ⟨line, column, c :: rest⟩

namespace Cursor

/-- The place `n` characters further on the same line. -/
def advance (p : Cursor) (n : Nat) : Cursor := ⟨p.line, p.column + n, p.rest.drop n⟩

/-- The next token in a flow. -/
def inFlow (p : Cursor) : Cursor := skip true true false p.line p.column p.rest

/-- The next token in a block; a tab cannot start one. -/
def inBlock? (p : Cursor) (tabs : Bool) : Option Cursor :=
  let q := skip false tabs false p.line p.column p.rest
  if q.rest.head? = some '\t' then none else some q

/-- Whether a document ends here. -/
def atEnd (p : Cursor) : Bool := p.rest.isEmpty || (p.column == 0 && startsMarker p.rest)

/-- Whether an item of a block sequence starts here. -/
def atDash (p : Cursor) : Bool :=
  match p.rest with
  | '-' :: rest => atGap rest
  | _ => false

/-- Whether the value of a key in a block follows here. -/
def atColon (p : Cursor) : Bool :=
  match p.rest with
  | ':' :: rest => atGap rest
  | _ => false

end Cursor

/-- Whether a plain scalar may start with a character, given what follows it. -/
def startsPlain (flow : Bool) (c : Char) (rest : List Char) : Bool :=
  match c with
  | '-' => !(rest.head?.map isBlank).getD false
  | '?' => !flow && !atGap rest
  | ':' => !flow && !atGap rest
  | _ =>
    !(c ∈ [',', '[', ']', '\x7b', '\x7d', '#', '&', '*', '!', '|', '>', '\'', '"', '%', '@', '\x60'])
      && !isBlank c && !isBreak c

/-! ### Flows -/

/-- A scalar in quotes, as a node. -/
def quotedNode (s : Option Scanned) : Option (Node × Cursor) :=
  s.map fun s => (.quoted (String.ofList s.text), s.next)

/-- A plain scalar, as a node. -/
def plainNode (s : Option Scanned) : Option (Node × Cursor) :=
  s.map fun s => (.plain (String.ofList s.text), s.next)

mutual

/-- A node that needs no indentation: a scalar, or a collection in brackets. -/
def inner? : (fuel : Nat) → (flow : Bool) → (low : Nat) → Cursor → Option (Node × Cursor)
  | 0, _, _, _ => none
  | fuel + 1, flow, low, p =>
    match p.rest with
    | [] => none
    | '\'' :: rest => quotedNode (singleQuoted .none p.line (p.column + 1) rest)
    | '"' :: rest => quotedNode (doubleQuoted .none p.line (p.column + 1) rest)
    | '\x7b' :: _ => flowMapping? fuel low [] (p.advance 1)
    | '[' :: _ => flowSequence? fuel low (p.advance 1)
    | c :: rest =>
      if p.atEnd || !startsPlain flow c rest then none
      else plainNode (plain flow low .none p.line p.column p.rest)

/-- The value behind a key in a flow, if there is one; the key started on line `line`. -/
def flowValue? : (fuel : Nat) → (low line : Nat) → Cursor → Option (Node × Cursor)
  | 0, _, _, _ => none
  | fuel + 1, low, line, p =>
    match p.rest with
    | ':' :: _ =>
      if p.line ≠ line then none
      else
        let p := (p.advance 1).inFlow
        match p.rest with
        | ',' :: _ => some (.absent, p)
        | ']' :: _ => some (.absent, p)
        | '\x7d' :: _ => some (.absent, p)
        | _ => inner? fuel true low p
    | _ => some (.absent, p)

/-- The entries of a mapping in braces, added to those before. -/
def flowMapping? :
    (fuel : Nat) → (low : Nat) → List (Node × Node) → Cursor → Option (Node × Cursor)
  | 0, _, _, _ => none
  | fuel + 1, low, entries, p =>
    let p := p.inFlow
    match p.rest with
    | '\x7d' :: _ => some (.mapping entries, p.advance 1)
    | _ => do
      let (key, q) ← inner? fuel true low p
      let (value, q) ← flowValue? fuel low p.line q.inFlow
      let entries := entries ++ [(key, value)]
      let q := q.inFlow
      match q.rest with
      | ',' :: _ => flowMapping? fuel low entries (q.advance 1)
      | '\x7d' :: _ => some (.mapping entries, q.advance 1)
      | _ => none

/-- The items of a sequence in brackets; an item may be a single entry of a mapping. -/
def flowSequence? : (fuel : Nat) → (low : Nat) → Cursor → Option (Node × Cursor)
  | 0, _, _ => none
  | fuel + 1, low, p =>
    let p := p.inFlow
    match p.rest with
    | ']' :: _ => some (.sequence, p.advance 1)
    | _ => do
      let (_, q) ← inner? fuel true low p
      let (_, q) ← flowValue? fuel low p.line q.inFlow
      let q := q.inFlow
      match q.rest with
      | ',' :: _ => flowSequence? fuel low (q.advance 1)
      | ']' :: _ => some (.sequence, q.advance 1)
      | _ => none

end

/-! ### Blocks -/

mutual

/-- A node in a block whose content starts at column `low`.  A block collection can start only where
`keys` are allowed, at the start of a line or behind a dash; with `dashes`, the items of a sequence
may stand one column further left, below their key. -/
def node? :
    (fuel : Nat) → (low : Nat) → (dashes keys : Bool) → Cursor → Option (Node × Cursor)
  | 0, _, _, _, _ => none
  | fuel + 1, low, dashes, keys, p =>
    if p.atEnd then some (.absent, p)
    else if p.atDash && (low ≤ p.column || (dashes && p.column + 1 == low)) then
      if keys then blockSequence? fuel p.column p else none
    else if p.column < low then some (.absent, p)
    else
      match p.rest with
      | '|' :: rest => quotedNode (block? false low p.line rest)
      | '>' :: rest => quotedNode (block? true low p.line rest)
      | _ => do
        let (n, q) ← inner? fuel false low p
        let r ← q.inBlock? true
        if keys && r.line == p.line && r.atColon then blockMapping? fuel p.column [] p
        else some (n, q)

/-- The entries of a block mapping at a column, from this key on. -/
def blockMapping? :
    (fuel : Nat) → (column : Nat) → List (Node × Node) → Cursor → Option (Node × Cursor)
  | 0, _, _, _ => none
  | fuel + 1, column, entries, p => do
    let (key, q) ← inner? fuel false column p
    let q ← q.inBlock? true
    if q.line ≠ p.line || !q.atColon then none
    else
      let v ← (q.advance 1).inBlock? true
      let (value, q) ← node? fuel (column + 1) true (v.line != p.line) v
      let entries := entries ++ [(key, value)]
      let q ← q.inBlock? true
      if q.atEnd || q.column < column then some (.mapping entries, q)
      else if q.column = column then blockMapping? fuel column entries q
      else none

/-- The items of a block sequence at a column, from this dash on. -/
def blockSequence? : (fuel : Nat) → (column : Nat) → Cursor → Option (Node × Cursor)
  | 0, _, _ => none
  | fuel + 1, column, p => do
    let v ← (p.advance 1).inBlock? false
    let (_, q) ← node? fuel (column + 1) false true v
    let q ← q.inBlock? true
    if q.atEnd || q.column < column then some (.sequence, q)
    else if q.column ≠ column then none
    else if q.atDash then blockSequence? fuel column q
    else some (.sequence, q)

end

/-! ### Documents -/

/-- The first token of a document and whether keys are allowed there: three dashes may open a
document, and no key follows them on their line. -/
def opening? (cs : List Char) : Option (Bool × Cursor) := do
  let p ← (⟨0, 0, cs⟩ : Cursor).inBlock? false
  match p.rest with
  | '-' :: '-' :: '-' :: rest =>
    if p.column = 0 ∧ atGap rest then do
      let q ← (p.advance 3).inBlock? true
      some (q.line != p.line, q)
    else some (true, p)
  | _ => some (true, p)

/-- The first document of a text.  Every step of the readers takes a character or goes down one
level, and every level takes a character, so three times the length bounds the work. -/
def Node.read? (text : String) : Option Node :=
  let cs := Text.dropMark text.toList
  if cs.all isAllowed then do
    let (keys, p) ← opening? (normalize cs)
    let (n, _) ← node? (3 * cs.length + 3) 0 false keys p
    some n
  else none

end CommandHost.Yaml
