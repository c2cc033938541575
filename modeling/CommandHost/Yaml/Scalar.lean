/-
CommandHost/Yaml/Scalar.lean

What a plain YAML scalar stands for.

A scalar without quotes may stand for nothing, a truth value, a number or a
moment; anything else is the text itself.  Whole numbers take every base and any
underscores; one above the signed range is kept apart, since no setting holds
it.  Texts that older readers take for truth values or for numbers in base sixty
are told as well: they are written in quotes.
-/
import CommandHost.Number.FloatText
import CommandHost.Text.Moment

namespace CommandHost.Yaml

open Number

/-- What a plain scalar stands for. -/
inductive Scalar where
  | null
  | truth (b : Bool)
  | whole (n : Int64)
  /-- A whole number above the signed range. -/
  | large
  | float (x : Binary64)
  | moment
  | text

namespace Scalar

/-! ### Words -/

def nullWords : List String := ["", "~", "null", "Null", "NULL"]

def trueWords : List String := ["true", "True", "TRUE"]

def falseWords : List String := ["false", "False", "FALSE"]

/-- The words that stand for truth where one is asked for. -/
def yesWords : List String := ["y", "Y", "yes", "Yes", "YES", "on", "On", "ON"]

/-- The words that stand for falsehood where a truth value is asked for. -/
def noWords : List String := ["n", "N", "no", "No", "NO", "off", "Off", "OFF"]

/-- Numbers that have names. -/
def namedNumber? (s : String) : Option Binary64 :=
  if s ∈ [".nan", ".NaN", ".NAN"] then some Binary64.nan
  else if s ∈ [".inf", ".Inf", ".INF", "+.inf", "+.Inf", "+.INF"] then some (Binary64.infinity false)
  else if s ∈ ["-.inf", "-.Inf", "-.INF"] then some (Binary64.infinity true)
  else none

/-! ### Numbers and moments -/

/-- Whether a text is a decimal number: digits with at most one point, and an optional exponent. -/
def isDecimal (cs : List Char) : Bool :=
  let (_, cs) := splitSign cs
  let whole := cs.takeWhile Char.isDigit
  let (marked, fraction, cs) := match cs.dropWhile Char.isDigit with
    | '.' :: rest => (true, rest.takeWhile Char.isDigit, rest.dropWhile Char.isDigit)
    | rest => (false, [], rest)
  (!whole.isEmpty || (marked && !fraction.isEmpty)) &&
    match cs with
    | [] => true
    | c :: cs =>
      let (_, ds) := splitSign cs
      (c == 'e' || c == 'E') && !ds.isEmpty && ds.all Char.isDigit

/-- A whole number in any base, with or without sign. -/
def ofWhole? (cs : List Char) : Option Scalar :=
  match readAnyBase cs with
  | .ok n => some (whole n)
  | .error _ =>
    -- without a sign there is room for one more bit
    match splitBase cs with
    | (base, ds) =>
      match readDigits base false 0 ds with
      | .ok _ => if ds.isEmpty then none else some large
      | .error _ => none

/-- The moments: a date, or a date and a time of day with its zone behind a letter or without one
behind blanks. -/
def isMoment (cs : List Char) : Bool :=
  open Text.Moment in
  let year := cs.takeWhile Char.isDigit
  let afterLetter (c : Char) := (((date false cs).bind (Text.expect? c)).bind (clock false)).bind zone
  let afterBlank := (((date false cs).bind (Text.expect? ' ')).map (·.dropWhile (· == ' '))).bind (clock false)
  year.length == 4 &&
    (complete (date false cs) || complete (afterLetter 'T') || complete (afterLetter 't') ||
      complete afterBlank)

/-- What a scalar that starts with a digit or a sign stands for. -/
def ofNumber (cs : List Char) : Scalar :=
  let digits := cs.filter (· != '_')
  if isMoment cs then moment
  else
    match ofWhole? digits with
    | some w => w
    | none =>
      match if isDecimal digits then readFloat? digits else none with
      | some x => float x
      | none => text

/-! ### Resolution -/

/-- What a plain scalar stands for. -/
def ofPlain (s : String) : Scalar :=
  if s ∈ nullWords then null
  else if s ∈ trueWords then truth true
  else if s ∈ falseWords then truth false
  else
    match namedNumber? s with
    | some x => float x
    | none =>
      match s.toList with
      | [] => null
      | c :: cs =>
        if c.isDigit || c == '+' || c == '-' then ofNumber (c :: cs)
        else if c = '.' then
          match readFloat? (c :: cs) with
          | some x => float x
          | none => text
        else text

/-! ### Older readings -/

/-- Groups of at most two digits behind colons, below sixty each, and an optional fraction. -/
def inSixties : (group : List Char) → List Char → Bool
  | group, [] => closes group
  | group, c :: cs =>
    if c = ':' then closes group && inSixties [] cs
    else if c = '.' then closes group && cs.all fun c => c.isDigit || c == '_'
    else c.isDigit && inSixties (group ++ [c]) cs
where
  /-- One digit, or two of which the first is below six. -/
  closes : List Char → Bool
    | [_] => true
    | [a, _] => a ≤ '5'
    | _ => false

/-- Whether a text is a number in base sixty. -/
def isSexagesimal (s : String) : Bool :=
  match (splitSign s.toList).2 with
  | c :: cs =>
    c.isDigit &&
      match cs.dropWhile fun c => c.isDigit || c == '_' with
      | ':' :: rest => inSixties [] rest
      | _ => false
  | [] => false

/-- Whether a text without quotes is a text to every reader. -/
def isPlainText (s : String) : Bool :=
  (match ofPlain s with
    | text => true
    | _ => false) &&
    !(yesWords.contains s || noWords.contains s || isSexagesimal s)

end Scalar

end CommandHost.Yaml
