/-
CommandHost/Number/Shortest.lean

The shortest decimal that reads back as a given number.

A finite nonzero magnitude stands for m · 2^q; the reals that round to it form an
interval around it, closed when m is even.  In units of 2^(q-2) the number is 4m
and the ends are 4m - 2 (4m - 1 above a power of two) and 4m + 2.  For one, two,
three … digits the two neighbours of the number on that decimal grid are tried;
the first grid with a neighbour inside the interval gives the digits, the nearer
neighbour when both are inside.
-/
import CommandHost.Number.Binary64

namespace CommandHost.Number

/-- The decimal 0.d₁d₂… · 10^place with digits d₁d₂…. -/
structure Decimal where
  digits : List Char
  place : Int
  deriving DecidableEq, Repr

namespace Shortest

/-- An interval of reals with a common denominator, around the number `mid / den`. -/
structure Span where
  low : Nat
  mid : Nat
  high : Nat
  den : Nat
  closed : Bool

/-- The reals that round to a finite nonzero magnitude. -/
def span (mag : Nat) : Span :=
  let m := Binary64.significand mag
  let q := Binary64.power mag - 2
  let below := if m = Binary64.fractionLimit ∧ Binary64.fractionLimit * 2 ≤ mag then 1 else 2
  let up := if 0 ≤ q then Nat.pow 2 q.toNat else 1
  let down := if 0 ≤ q then 1 else Nat.pow 2 (-q).toNat
  ⟨(4 * m - below) * up, 4 * m * up, (4 * m + 2) * up, down, m % 2 = 0⟩

/-- Whether `num / den` lies in the interval. -/
def Span.contains (s : Span) (num den : Nat) : Bool :=
  let lo := s.low * den
  let x := num * s.den
  let hi := s.high * den
  if s.closed then lo ≤ x && x ≤ hi else lo < x && x < hi

/-- How many decimal places a quotient below one starts with zeros, counted up to `fuel`. -/
def leadingZeros (num den : Nat) : Nat → Nat
  | 0 => 0
  | fuel + 1 => if den ≤ num * 10 then 0 else leadingZeros (num * 10) den fuel + 1

/-- The place of the first digit of `num / den`: the quotient lies in [10^(p-1), 10^p). -/
def firstPlace (num den : Nat) : Int :=
  if den ≤ num then ((Nat.toDigits 10 (num / den)).length : Int)
  else -(leadingZeros num den 400 : Int)

/-- `n` steps of size 10^e as a fraction. -/
def grid (n : Nat) (e : Int) : Nat × Nat :=
  if 0 ≤ e then (n * Nat.pow 10 e.toNat, 1) else (n, Nat.pow 10 (-e).toNat)

/-- The neighbour with `count` digits, counted in steps of the grid, if one is inside. -/
def neighbour? (s : Span) (place : Int) (count : Nat) : Option Nat :=
  let e := place - count
  let below :=
    if 0 ≤ e then s.mid / (s.den * Nat.pow 10 e.toNat)
    else s.mid * Nat.pow 10 (-e).toNat / s.den
  let inside n := s.contains (grid n e).1 (grid n e).2
  let gap n :=  -- the distance to the number, over a common denominator
    let g := grid n e
    ((g.1 * s.den : Nat) - (s.mid * g.2 : Nat) : Int).natAbs
  match inside below, inside (below + 1) with
  | true, false => some below
  | false, true => some (below + 1)
  | false, false => none
  | true, true =>
    if gap below < gap (below + 1) then some below
    else if gap (below + 1) < gap below then some (below + 1)
    else if below % 2 = 0 then some below else some (below + 1)

/-- The digits of a neighbour, without the zeros at their end. -/
def decimalOf (n : Nat) (e : Int) : Decimal :=
  let ds := Nat.toDigits 10 n
  ⟨(ds.reverse.dropWhile (· = '0')).reverse, ds.length + e⟩

/-- Tries `count`, `count + 1`, … digits. -/
def search (s : Span) (place : Int) (count : Nat) : Nat → Decimal
  | 0 => decimalOf 0 0
  | fuel + 1 =>
    match neighbour? s place count with
    | some n => decimalOf n (place - count)
    | none => search s place (count + 1) fuel

/-- The shortest decimal that rounds to a finite nonzero magnitude. -/
def decimal (mag : Nat) : Decimal :=
  let s := span mag
  search s (firstPlace s.mid s.den) 1 20

end Shortest

end CommandHost.Number
