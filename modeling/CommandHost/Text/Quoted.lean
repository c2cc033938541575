/-
CommandHost/Text/Quoted.lean

Texts in double quotes, as messages show them.

Quotes and backslashes get a backslash, the seven named controls their letter,
other ASCII controls two hexadecimal digits, and any other character that is not
printable four or eight of them.
-/
import CommandHost.Text.Printable

namespace CommandHost.Text

/-- The last `width` hexadecimal digits of `n`, in lower case. -/
def hexDigits : Nat → Nat → List Char
  | 0, _ => []
  | width + 1, n => hexDigits width (n / 16) ++ [Nat.digitChar (n % 16)]

/-- How a character stands between double quotes. -/
def quoteChar (c : Char) : List Char :=
  match c with
  | '"' => ['\\', '"']
  | '\\' => ['\\', '\\']
  | _ =>
    if isPrintable c then [c]
    else
      match c.toNat with
      | 0x07 => ['\\', 'a']
      | 0x08 => ['\\', 'b']
      | 0x09 => ['\\', 't']
      | 0x0A => ['\\', 'n']
      | 0x0B => ['\\', 'v']
      | 0x0C => ['\\', 'f']
      | 0x0D => ['\\', 'r']
      | n =>
        if n < 0x80 then '\\' :: 'x' :: hexDigits 2 n
        else if n < 0x10000 then '\\' :: 'u' :: hexDigits 4 n
        else '\\' :: 'U' :: hexDigits 8 n

/-- The text in double quotes. -/
def quoted (s : String) : String :=
  String.ofList ('"' :: s.toList.flatMap quoteChar ++ ['"'])

/-- A character in single quotes. -/
def quotedChar (c : Char) : String :=
  let body := if c = '\'' then ['\\', '\''] else if c = '"' then ['"'] else quoteChar c
  String.ofList ('\'' :: body ++ ['\''])

end CommandHost.Text
