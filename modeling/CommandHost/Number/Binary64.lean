/-
CommandHost/Number/Binary64.lean

Floating-point numbers of 64 bits, as words.

A finite number is m · 2^q for the significand m and the power q that its word
holds.  `roundRatio` rounds a quotient of natural numbers to the nearest such
number, ties to the even significand; nothing here depends on floating-point
hardware.
-/

namespace CommandHost.Number

/-- A floating-point number of 64 bits, given by its word. -/
structure Binary64 where
  bits : UInt64
  deriving DecidableEq, Repr

namespace Binary64

/-! ### Parts of a word -/

/-- One more than the largest fraction. -/
def fractionLimit : Nat := Nat.pow 2 52

/-- The first magnitude that stands for no finite number. -/
def infinityBits : Nat := 2047 * fractionLimit

/-- The word without its sign. -/
def magnitude (x : Binary64) : Nat := x.bits.toNat % Nat.pow 2 63

def isNegative (x : Binary64) : Bool := Nat.pow 2 63 ≤ x.bits.toNat

def isNaN (x : Binary64) : Bool := infinityBits < x.magnitude

def isInfinite (x : Binary64) : Bool := x.magnitude == infinityBits

/-- Zero with the sign of the number counts as zero too. -/
def isZero (x : Binary64) : Bool := x.magnitude == 0

/-- The significand of a finite magnitude. -/
def significand (mag : Nat) : Nat :=
  if mag < fractionLimit then mag else fractionLimit + mag % fractionLimit

/-- The power of two of a finite magnitude. -/
def power (mag : Nat) : Int :=
  if mag < fractionLimit then -1074 else (mag / fractionLimit : Nat) - 1075

/-- The word with the given sign and magnitude. -/
def ofMagnitude (negative : Bool) (mag : Nat) : Binary64 :=
  ⟨UInt64.ofNat (if negative then Nat.pow 2 63 + mag else mag)⟩

/-- The number that is no number. -/
def nan : Binary64 := ⟨0x7FF8000000000001⟩

def infinity (negative : Bool) : Binary64 := ofMagnitude negative infinityBits

/-! ### Rounding -/

/-- The quotient rounded to the nearest integer, ties to the even one. -/
def roundDiv (num den : Nat) : Nat :=
  let q := num / den
  let r := num % den
  if 2 * r < den then q
  else if den < 2 * r then q + 1
  else if q % 2 = 0 then q else q + 1

/-- `num · 2^(-q) / den` as a fraction of natural numbers. -/
def scaled (num den : Nat) (q : Int) : Nat × Nat :=
  if 0 ≤ q then (num, den * Nat.pow 2 q.toNat) else (num * Nat.pow 2 (-q).toNat, den)

/-- The power of two at which `num / den` is rounded: its significand has 53 bits there, unless
the number is too small for that. -/
def roundingPower (num den : Nat) : Int :=
  let q : Int := (Nat.log2 num : Int) - Nat.log2 den - 52
  let t := scaled num den q
  max (-1074) (if t.1 / t.2 < fractionLimit then q - 1 else q)

/-- The magnitude nearest to `num / den`; it is no smaller than `infinityBits` when the quotient is
too large. -/
def roundRatio (num den : Nat) : Nat :=
  if num = 0 then 0
  else
    let q := roundingPower num den
    let t := scaled num den q
    (q + 1074).toNat * fractionLimit + roundDiv t.1 t.2

/-- The number nearest to `± num / den`, if the quotient is not too large. -/
def ofRatio? (negative : Bool) (num den : Nat) : Option Binary64 :=
  let mag := roundRatio num den
  if mag < infinityBits then some (ofMagnitude negative mag) else none

/-! ### Integers -/

/-- The number nearest to an integer of 64 bits. -/
def ofInt64 (n : Int64) : Binary64 :=
  ofMagnitude (n.toInt < 0) (roundRatio n.toInt.natAbs 1)

/-- The integer part of the size of a finite magnitude. -/
def floorNat (mag : Nat) : Nat :=
  if 0 ≤ power mag then significand mag * Nat.pow 2 (power mag).toNat
  else significand mag / Nat.pow 2 (-power mag).toNat

/-- The integer part, cut off toward zero; the least integer stands in for a number that has no
integer part of 64 bits. -/
def truncate (x : Binary64) : Int64 :=
  if infinityBits ≤ x.magnitude then Int64.minValue
  else
    let n := floorNat x.magnitude
    if x.isNegative then
      if n ≤ Nat.pow 2 63 then Int64.ofInt (-n) else Int64.minValue
    else if n < Nat.pow 2 63 then Int64.ofInt n else Int64.minValue

end Binary64

end CommandHost.Number
