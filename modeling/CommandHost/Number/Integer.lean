/-
CommandHost/Number/Integer.lean

Integers of 64 bits in texts.

There are two readings.  `readDecimal` takes an optional sign and decimal digits.
`readAnyBase` also takes a base in front of the digits (`0x`, `0o`, `0b`, or a bare
leading zero for octal) and single underscores between digits.  Both tell a
malformed text from a number that does not fit; digits are read from left to
right, so the first of the two faults met is the one reported.
-/

namespace CommandHost.Number

/-- Why a text is not a number. -/
inductive Fault where
  | malformed
  | outOfRange
  deriving DecidableEq, Repr

/-! ### Digits -/

/-- The value of a digit; letters of either case continue after nine. -/
def digitValue? (c : Char) : Option Nat :=
  if '0' ≤ c ∧ c ≤ '9' then some (c.toNat - 48)
  else if 'a' ≤ c ∧ c ≤ 'z' then some (c.toNat - 87)
  else if 'A' ≤ c ∧ c ≤ 'Z' then some (c.toNat - 55)
  else none

/-- The first natural number that does not fit in 64 bits. -/
def wordLimit : Nat := Nat.pow 2 64

/-- Continues the number `n` with the given digits.  With `separators`, underscores are skipped. -/
def readDigits (base : Nat) (separators : Bool) : Nat → List Char → Except Fault Nat
  | n, [] => .ok n
  | n, c :: cs =>
    if separators ∧ c = '_' then readDigits base separators n cs
    else
      match digitValue? c with
      | none => .error .malformed
      | some d =>
        if base ≤ d then .error .malformed
        else if wordLimit ≤ n * base + d then .error .outOfRange
        else readDigits base separators (n * base + d) cs

/-! ### Separators -/

/-- What stands to the left while the placing of underscores is checked. -/
inductive Left where
  | start
  | digit
  | separator
  | other
  deriving DecidableEq, Repr

/-- Whether each underscore stands between two digits. -/
def separated (hex : Bool) : Left → List Char → Bool
  | left, [] => left != .separator
  | left, c :: cs =>
    if c.isDigit || (hex && ('a' ≤ c && c ≤ 'f' || 'A' ≤ c && c ≤ 'F')) then
      separated hex .digit cs
    else if c = '_' then left == .digit && separated hex .separator cs
    else left != .separator && separated hex .other cs

/-- Splits an optional sign off; `true` stands for minus. -/
def splitSign : List Char → Bool × List Char
  | '+' :: cs => (false, cs)
  | '-' :: cs => (true, cs)
  | cs => (false, cs)

/-- Whether the underscores of a numeral are well placed: each follows a digit or the base mark,
and a digit follows it. -/
def separatorsPlaced (cs : List Char) : Bool :=
  match (splitSign cs).2 with
  | '0' :: m :: rest =>
    if m = 'x' ∨ m = 'X' then separated true .digit rest
    else if m = 'b' ∨ m = 'B' ∨ m = 'o' ∨ m = 'O' then separated false .digit rest
    else separated false .start ('0' :: m :: rest)
  | rest => separated false .start rest

/-! ### The two readings -/

/-- Gives a magnitude its sign and checks the signed range. -/
def withSign (negative : Bool) (n : Nat) : Except Fault Int64 :=
  if negative then
    if n ≤ Nat.pow 2 63 then .ok (Int64.ofInt (-n)) else .error .outOfRange
  else if n < Nat.pow 2 63 then .ok (Int64.ofInt n) else .error .outOfRange

/-- An optional sign and decimal digits. -/
def readDecimal (cs : List Char) : Except Fault Int64 :=
  match splitSign cs with
  | (_, []) => .error .malformed
  | (negative, ds) => (readDigits 10 false 0 ds).bind (withSign negative)

/-- The base a numeral without sign announces, and its digits. -/
def splitBase : List Char → Nat × List Char
  | '0' :: m :: c :: cs =>
    if m = 'b' ∨ m = 'B' then (2, c :: cs)
    else if m = 'o' ∨ m = 'O' then (8, c :: cs)
    else if m = 'x' ∨ m = 'X' then (16, c :: cs)
    else (8, m :: c :: cs)
  | '0' :: cs => (8, cs)
  | cs => (10, cs)

/-- An optional sign, an optional base and digits, with underscores between digits. -/
def readAnyBase (cs : List Char) : Except Fault Int64 :=
  match splitSign cs with
  | (_, []) => .error .malformed
  | (negative, ds) =>
    (readDigits (splitBase ds).1 true 0 (splitBase ds).2).bind fun n =>
      if ds.contains '_' ∧ !separatorsPlaced ds then .error .malformed else withSign negative n

/-! ### Text -/

/-- The decimal digits of a natural number. -/
def natText (n : Nat) : List Char :=
  Nat.toDigits 10 n

/-- The decimal text of an integer. -/
def intText (n : Int) : String :=
  if n < 0 then String.ofList ('-' :: natText n.natAbs) else String.ofList (natText n.natAbs)

end CommandHost.Number
