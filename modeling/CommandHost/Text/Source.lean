/-
CommandHost/Text/Source.lean

Texts as they stand in files: the mark that may open a file, characters that have
to come next, and characters given by their number.
-/
import CommandHost.Number.Integer

namespace CommandHost.Text

/-- Drops the byte order mark at the start of a file. -/
def dropMark : List Char → List Char
  | '\ufeff' :: rest => rest
  | cs => cs

/-- What follows a given character, if the text starts with it. -/
def expect? (c : Char) : List Char → Option (List Char)
  | d :: rest => if d = c then some rest else none
  | [] => none

/-- The value of hexadecimal digits, behind those that gave `n`. -/
def hexValue? : (n : Nat) → List Char → Option Nat
  | n, [] => some n
  | n, c :: cs =>
    (Number.digitValue? c).bind fun d => if d < 16 then hexValue? (n * 16 + d) cs else none

/-- The character with a hexadecimal number, if there is one. -/
def charOfHex? (digits : List Char) : Option Char :=
  (hexValue? 0 digits).bind fun n => if n.isValidChar then some (Char.ofNat n) else none

end CommandHost.Text
