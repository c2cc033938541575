/-
CommandHost/Text/Distance.lean

How far two words are apart: the least number of bytes to put in, leave out or
change to make one into the other.
-/

namespace CommandHost.Text

/-- The distances of one word, lengthened by a byte, from the beginnings of another.  `above` are
those without the byte, and `before` is the distance from the beginning before. -/
def distanceRow (b : UInt8) : (above : List Nat) → (before : Nat) → List UInt8 → List Nat
  | d :: u :: above, before, c :: cs =>
    let here := if b = c then d else 1 + min d (min u before)
    here :: distanceRow b (u :: above) here cs
  | _, _, _ => []

/-- The distances of a word from all beginnings of another. -/
def distances (t : List UInt8) : List UInt8 → List Nat
  | [] => List.range (t.length + 1)
  | b :: bs =>
    let above := distances t bs
    let first := bs.length + 1
    first :: distanceRow b above first t

/-- The distance of two words. -/
def distance (s t : String) : Nat :=
  ((distances t.toUTF8.toList s.toUTF8.toList.reverse).getLast?).getD 0

end CommandHost.Text
