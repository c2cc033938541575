/-
CommandHost/Text/Moment.lean

Dates and times of day in texts.

Files may hold dates and times where the program has no use for them; they only
have to be told from other texts.  A date has a year of four digits, a month and
a day that exist; a time of day has hours, minutes and seconds, with an optional
fraction.  Each function takes its piece off the front and returns the rest.
-/
import CommandHost.Text.Source

namespace CommandHost.Text.Moment

/-- A number of one or two digits, of exactly two with `padded`. -/
def number (padded : Bool) : List Char → Option (Nat × List Char)
  | a :: b :: rest =>
    if a.isDigit ∧ b.isDigit then some ((a.toNat - 48) * 10 + (b.toNat - 48), rest)
    else if a.isDigit ∧ !padded then some (a.toNat - 48, b :: rest)
    else none
  | [a] => if a.isDigit ∧ !padded then some (a.toNat - 48, []) else none
  | [] => none

def isLeap (year : Nat) : Bool :=
  year % 4 == 0 && (year % 100 != 0 || year % 400 == 0)

/-- The number of days of a month. -/
def daysIn (year month : Nat) : Nat :=
  if month = 2 then (if isLeap year then 29 else 28)
  else if month ∈ [4, 6, 9, 11] then 30
  else 31

/-- A date. -/
def date (padded : Bool) (cs : List Char) : Option (List Char) := do
  let (century, cs) ← number true cs
  let (year, cs) ← number true cs
  let cs ← expect? '-' cs
  let (month, cs) ← number padded cs
  let cs ← expect? '-' cs
  let (day, cs) ← number padded cs
  if 1 ≤ month ∧ month ≤ 12 ∧ 1 ≤ day ∧ day ≤ daysIn (century * 100 + year) month then some cs
  else none

/-- The fraction of a second, if there is one. -/
def fraction : List Char → List Char
  | p :: d :: rest =>
    if (p = '.' ∨ p = ',') ∧ d.isDigit then rest.dropWhile Char.isDigit else p :: d :: rest
  | cs => cs

/-- A time of day. -/
def clock (padded : Bool) (cs : List Char) : Option (List Char) := do
  let (hour, cs) ← number false cs
  let cs ← expect? ':' cs
  let (minute, cs) ← number padded cs
  let cs ← expect? ':' cs
  let (second, cs) ← number padded cs
  if hour < 24 ∧ minute < 60 ∧ second < 60 then some (fraction cs) else none

/-- The distance from universal time. -/
def zone : List Char → Option (List Char)
  | 'Z' :: rest => some rest
  | c :: cs =>
    if c = '+' ∨ c = '-' then do
      let (hour, cs) ← number true cs
      let cs ← expect? ':' cs
      let (minute, cs) ← number true cs
      if hour ≤ 24 ∧ minute ≤ 60 then some cs else none
    else none
  | [] => none

/-- Whether nothing is left. -/
def complete : Option (List Char) → Bool
  | some [] => true
  | _ => false

end CommandHost.Text.Moment
