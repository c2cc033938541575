/-
CommandHost/Text/Duration.lean

Lengths of time as texts: in the largest unit that leaves a digit in front of the
point up to seconds, and with minutes and hours in front of that.
-/
import CommandHost.Number.Integer

namespace CommandHost.Text

/-- The quotient of `n` and `10 ^ places`, without zeros at the end. -/
def fixedText (n places : Nat) : List Char :=
  let digits := Number.natText (n % Nat.pow 10 places)
  let padded := List.replicate (places - digits.length) '0' ++ digits
  let shown := (padded.reverse.dropWhile (· == '0')).reverse
  Number.natText (n / Nat.pow 10 places) ++ if shown.isEmpty then [] else '.' :: shown

/-- The text of a number of microseconds. -/
def durationText (micros : Nat) : String :=
  let minute := 60 * 1000000
  let seconds (n : Nat) := fixedText n 6 ++ ['s']
  String.ofList <|
    if micros = 0 then ['0', 's']
    else if micros < 1000 then Number.natText micros ++ ['µ', 's']
    else if micros < 1000000 then fixedText micros 3 ++ ['m', 's']
    else if micros < minute then seconds micros
    else if micros < 60 * minute then
      Number.natText (micros / minute) ++ 'm' :: seconds (micros % minute)
    else
      Number.natText (micros / (60 * minute)) ++
        'h' :: Number.natText (micros / minute % 60) ++ 'm' :: seconds (micros % minute)

end CommandHost.Text
