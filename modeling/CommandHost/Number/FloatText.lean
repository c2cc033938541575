/-
CommandHost/Number/FloatText.lean

Floating-point numbers in texts.

Written, a number shows the fewest digits that read back, positionally for
decimal exponents from -4 to 5 and with an exponent of at least two digits
otherwise.  Read, a number is a decimal or hexadecimal numeral (the latter with a
binary exponent), with underscores between digits, or a name of an infinity or of
the number that is no number; a numeral too large for 64 bits is no number.
-/
import CommandHost.Number.Integer
import CommandHost.Number.Shortest

namespace CommandHost.Number

/-! ### Writing -/

/-- `e+07`, `e-05`, `e+123`. -/
def exponentText (e : Int) : List Char :=
  let ds := natText e.natAbs
  'e' :: (if e < 0 then '-' else '+') :: (if ds.length < 2 then '0' :: ds else ds)

/-- A decimal in positional or exponent form. -/
def decimalText (d : Decimal) : List Char :=
  let e := d.place - 1
  if e < -4 ∨ 6 ≤ e then
    match d.digits with
    | [] => ['0']
    | c :: [] => c :: exponentText e
    | c :: cs => c :: '.' :: cs ++ exponentText e
  else if d.place ≤ 0 then
    '0' :: '.' :: List.replicate (-d.place).toNat '0' ++ d.digits
  else
    let whole := d.place.toNat
    if d.digits.length ≤ whole then
      d.digits ++ List.replicate (whole - d.digits.length) '0'
    else d.digits.take whole ++ '.' :: d.digits.drop whole

namespace Binary64

/-- The text of a number. -/
def text (x : Binary64) : String :=
  if x.isNaN then "NaN"
  else if x.isInfinite then (if x.isNegative then "-Inf" else "+Inf")
  else
    let body := if x.isZero then ['0'] else decimalText (Shortest.decimal x.magnitude)
    String.ofList (if x.isNegative then '-' :: body else body)

end Binary64

/-! ### Reading -/

/-- The digits of a numeral before its exponent: their value, how many stand after the point, and
whether there is a digit at all. -/
structure Mantissa where
  value : Nat := 0
  afterPoint : Nat := 0
  point : Bool := false
  any : Bool := false

/-- Reads digits, underscores and one point; stops in front of anything else. -/
def readMantissa (base : Nat) : Mantissa → List Char → Mantissa × List Char
  | m, [] => (m, [])
  | m, c :: cs =>
    if c = '_' then readMantissa base m cs
    else if c = '.' then
      if m.point then (m, c :: cs) else readMantissa base { m with point := true } cs
    else
      match digitValue? c with
      | some d =>
        if d < base then
          readMantissa base
            { m with value := m.value * base + d, any := true,
                     afterPoint := m.afterPoint + (if m.point then 1 else 0) } cs
        else (m, c :: cs)
      | none => (m, c :: cs)

/-- Reads the digits of an exponent; it no longer grows once it has five digits, since every such
exponent is out of range. -/
def readExponentDigits : Nat → List Char → Nat × List Char
  | n, [] => (n, [])
  | n, c :: cs =>
    if c = '_' then readExponentDigits n cs
    else if c.isDigit then
      readExponentDigits (if n < 10000 then n * 10 + (c.toNat - 48) else n) cs
    else (n, c :: cs)

/-- An exponent behind its mark: an optional sign and digits, to the end of the text. -/
def readExponent? (cs : List Char) : Option Int :=
  match splitSign cs with
  | (negative, c :: ds) =>
    if c.isDigit then
      match readExponentDigits 0 (c :: ds) with
      | (n, []) => some (if negative then -n else n)
      | _ => none
    else none
  | (_, []) => none

/-- The number nearest to `value · base ^ exponent`. -/
def ofScaled? (negative : Bool) (value base : Nat) (exponent : Int) : Option Binary64 :=
  if 0 ≤ exponent then Binary64.ofRatio? negative (value * Nat.pow base exponent.toNat) 1
  else Binary64.ofRatio? negative value (Nat.pow base (-exponent).toNat)

/-- A numeral without its sign. -/
def readNumeral? (negative : Bool) (cs : List Char) : Option Binary64 :=
  let hex : Bool := match cs with
    | '0' :: m :: _ :: _ => m = 'x' ∨ m = 'X'
    | _ => false
  if hex then
    match readMantissa 16 {} (cs.drop 2) with
    | (m, c :: rest) =>
      if m.any ∧ (c = 'p' ∨ c = 'P') then
        (readExponent? rest).bind fun e =>
          if m.value = 0 then some (Binary64.ofMagnitude negative 0)
          else ofScaled? negative m.value 2 (e - 4 * m.afterPoint)
      else none
    | (_, []) => none
  else
    let (m, rest) := readMantissa 10 {} cs
    if !m.any then none
    else
      let exponent? : Option Int := match rest with
        | [] => some 0
        | c :: rest => if c = 'e' ∨ c = 'E' then readExponent? rest else none
      exponent?.bind fun e =>
        if m.value = 0 then some (Binary64.ofMagnitude negative 0)
        else ofScaled? negative m.value 10 (e - m.afterPoint)

/-- Whether a text spells a lower-case word in ASCII letters of any case. -/
def spells (word : String) (cs : List Char) : Bool :=
  cs.map Char.toLower == word.toList

/-- The number a text stands for. -/
def readFloat? (cs : List Char) : Option Binary64 :=
  let (negative, rest) := splitSign cs
  if spells "inf" rest || spells "infinity" rest then some (Binary64.infinity negative)
  else if spells "nan" cs then some Binary64.nan
  else if cs.contains '_' && !separatorsPlaced cs then none
  else readNumeral? negative rest

end CommandHost.Number
