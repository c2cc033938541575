/-
CommandHost/Text/Case.lean

Comparing words without regard to case.

Every word the program compares with is written in ASCII letters, so two
questions suffice: does the lower-case form of a text equal such a word, and do
two texts agree up to case.  Outside ASCII two characters have an ASCII letter
as lower-case form (dotted capital I and the kelvin sign) and two agree with an
ASCII letter up to case (the long s and the kelvin sign).
-/

namespace CommandHost.Text

/-- The lower-case form of a character, as far as ASCII letters are concerned. -/
def lowerChar (c : Char) : Char :=
  if 'A' ≤ c ∧ c ≤ 'Z' then Char.ofNat (c.toNat + 32)
  else if c.toNat = 0x130 then 'i'
  else if c.toNat = 0x212A then 'k'
  else c

/-- The lower-case form of a text, as far as ASCII letters are concerned. -/
def lower (s : String) : String :=
  String.ofList (s.toList.map lowerChar)

/-- The representative of all characters that agree with `c` up to case, for ASCII letters. -/
def foldChar (c : Char) : Char :=
  if 'A' ≤ c ∧ c ≤ 'Z' then Char.ofNat (c.toNat + 32)
  else if c.toNat = 0x17F then 's'
  else if c.toNat = 0x212A then 'k'
  else c

/-- Whether two texts agree up to case. -/
def sameFolded (s t : String) : Bool :=
  s.toList.map foldChar == t.toList.map foldChar

end CommandHost.Text
