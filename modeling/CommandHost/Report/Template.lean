/-
CommandHost/Report/Template.lean

Messages with places for arguments.

A percent sign and a letter stand for the next argument: `d` for a whole number,
`s` for a text, `q` for a text in quotes, `v` for anything; two percent signs
stand for one.  A letter that does not suit its argument, an argument that is
missing and arguments left over are shown as such.
-/
import CommandHost.Number.Integer
import CommandHost.Text.Quoted

namespace CommandHost.Report

/-- What a message can show. -/
inductive Argument where
  | text (s : String)
  | whole (n : Int)
  | truth (b : Bool)
  deriving DecidableEq, Repr

namespace Argument

/-- The text of an argument. -/
def shown : Argument → String
  | text s => s
  | whole n => Number.intText n
  | truth true => "true"
  | truth false => "false"

/-- The kind of an argument, as messages name it. -/
def kind : Argument → String
  | text _ => "string"
  | whole _ => "int64"
  | truth _ => "bool"

/-- The character with a number, in single quotes; a number without character shows the
replacement character. -/
def quotedNumber (n : Int) : String :=
  Text.quotedChar (if 0 ≤ n ∧ n.toNat.isValidChar then Char.ofNat n.toNat else '\uFFFD')

/-- An argument with its kind. -/
def described (a : Argument) : String := a.kind ++ "=" ++ a.shown

/-- An argument as a letter asks for it. -/
def format (verb : Char) (a : Argument) : String :=
  match verb, a with
  | 'v', a => a.shown
  | 'd', .whole n => Number.intText n
  | 's', .text s => s
  | 'q', .text s => Text.quoted s
  | 'q', .whole n => quotedNumber n
  | 't', .truth b => (truth b).shown
  | _, a => String.ofList ['%', '!', verb] ++ "(" ++ a.described ++ ")"

end Argument

/-- Fills the places of a message. -/
def fill : List Char → List Argument → String
  | [], [] => ""
  | [], args => "%!(EXTRA " ++ ", ".intercalate (args.map Argument.described) ++ ")"
  | ['%'], args => "%!(NOVERB)" ++ fill [] args
  | '%' :: '%' :: cs, args => "%" ++ fill cs args
  | '%' :: verb :: cs, [] => String.ofList ['%', '!', verb] ++ "(MISSING)" ++ fill cs []
  | '%' :: verb :: cs, a :: args => a.format verb ++ fill cs args
  | c :: cs, args => String.ofList [c] ++ fill cs args

end CommandHost.Report
