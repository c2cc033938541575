/-
CommandHost/Value.lean

Values: what commands take and return.

A value is empty, an integer of 64 bits, a floating-point number, a truth value
or a text.  Every value has a text; every value can be asked for a number or a
truth value, and texts are read for it after trimming blanks.
-/
import CommandHost.Number.FloatText
import CommandHost.Text.Blank
import CommandHost.Text.Case
import CommandHost.Text.Quoted

namespace CommandHost

open Number Text

/-- A dynamically typed command argument or result. -/
inductive Value where
  | empty
  | int (n : Int64)
  | float (x : Binary64)
  | bool (b : Bool)
  | text (s : String)
  deriving DecidableEq, Repr

/-- A value was asked for something its text does not spell. -/
inductive ConversionError where
  | float (shown : String)
  | integer (shown : String)
  | boolean (shown : String)
  deriving DecidableEq, Repr

namespace ConversionError

def message : ConversionError → String
  | float s => "expected floating-point number but got " ++ quoted s
  | integer s => "expected integer but got " ++ quoted s
  | boolean s => "expected boolean value but got " ++ quoted s

end ConversionError

namespace Value

instance : Inhabited Value := ⟨empty⟩

/-! ### Text -/

/-- The text of a value, as scripts see it. -/
def toText : Value → String
  | empty => ""
  | int n => intText n.toInt
  | float x => x.text
  | bool true => "true"
  | bool false => "false"
  | text s => s

/-- Whether the value is empty or an empty text. -/
def isEmpty : Value → Bool
  | empty => true
  | text s => s == ""
  | _ => false

/-! ### Readings -/

def toFloat : Value → Except ConversionError Binary64
  | float x => .ok x
  | int n => .ok (Binary64.ofInt64 n)
  | bool b => .ok (Binary64.ofInt64 (if b then 1 else 0))
  | text s =>
    match readFloat? (trim s.toList) with
    | some x => .ok x
    | none => .error (.float s)
  | empty => .error (.float "")

def toInt : Value → Except ConversionError Int64
  | int n => .ok n
  | float x => .ok x.truncate
  | bool b => .ok (if b then 1 else 0)
  | text s =>
    match readAnyBase (trim s.toList) with
    | .ok n => .ok n
    | .error _ => .error (.integer s)
  | empty => .error (.integer "")

def toBool : Value → Except ConversionError Bool
  | bool b => .ok b
  | int n => .ok (n != 0)
  | float x => .ok (!x.isNaN && !x.isZero)
  | text s =>
    let word := lower (trimmed s)
    if word ∈ ["true", "yes", "on", "1"] then .ok true
    else if word ∈ ["false", "no", "off", "0"] then .ok false
    else .error (.boolean s)
  | empty => .error (.boolean "")

/-! ### Literals -/

/-- The narrowest value a literal stands for: a truth value, an integer, a floating-point number,
or else the text itself. -/
def ofLiteral (s : String) : Value :=
  if s = "true" then bool true
  else if s = "false" then bool false
  else
    match readDecimal s.toList with
    | .ok n => int n
    | .error _ =>
      match readFloat? s.toList with
      | some x => float x
      | none => text s

/-- Each text as a value. -/
def ofTexts (ss : List String) : List Value :=
  ss.map text

end Value

end CommandHost
