/-
CommandHost/Policy.lean

The disposed policy: what happens when a disposed context is touched.

The policy belongs to the whole process.  It may be chosen until the first
context exists; from then on it is frozen, and only choosing the policy already
in force succeeds.
-/
import CommandHost.Number.Integer
import CommandHost.Text.Blank
import CommandHost.Text.Case
import CommandHost.Text.Quoted

namespace CommandHost

/-- What touching a disposed context does. -/
inductive Policy where
  /-- It is a fault. -/
  | strict
  /-- It shows whatever the context still holds. -/
  | permissive
  deriving DecidableEq, Repr

/-- Why a policy could not be read or chosen. -/
inductive PolicyError where
  | unknownName (name : String)
  | unknownCode (code : Int)
  | frozen (current : Policy)
  deriving DecidableEq, Repr

namespace Policy

def name : Policy → String
  | strict => "strict"
  | permissive => "permissive"

def code : Policy → Int
  | strict => 0
  | permissive => 1

def ofCode? (n : Int) : Option Policy := [strict, permissive].find? fun p => p.code == n

/-- The name of the policy with a code; a code without policy shows its number. -/
def nameOfCode (n : Int) : String :=
  match ofCode? n with
  | some p => p.name
  | none => "policy(" ++ Number.intText n ++ ")"

/-- Reads a policy name in any case, blanks around it aside; no name stands for `strict`. -/
def parse (s : String) : Except PolicyError Policy :=
  match Text.lower (Text.trimmed s) with
  | "strict" => .ok strict
  | "" => .ok strict
  | "permissive" => .ok permissive
  | _ => .error (.unknownName s)

/-- The policy a name stands for; an unknown name stands for `strict`. -/
def ofName (s : String) : Policy :=
  match parse s with
  | .ok p => p
  | .error _ => strict

end Policy

namespace PolicyError

def message : PolicyError → String
  | unknownName s => "unknown disposed policy: " ++ Text.quoted s
  | unknownCode n => "unknown disposed policy: " ++ Policy.nameOfCode n
  | frozen p => "disposed policy cannot change once contexts exist: already " ++ p.name

end PolicyError

/-- The policy in force and whether it may still change. -/
structure PolicyState where
  current : Policy := .strict
  frozen : Bool := false
  deriving DecidableEq, Repr

namespace PolicyState

/-- Chooses a policy. -/
def choose (s : PolicyState) (p : Policy) : Except PolicyError PolicyState :=
  if s.frozen then
    if s.current = p then .ok s else .error (.frozen s.current)
  else .ok { s with current := p }

/-- Chooses the policy with a code. -/
def chooseCode (s : PolicyState) (n : Int) : Except PolicyError PolicyState :=
  match Policy.ofCode? n with
  | some p => s.choose p
  | none => .error (.unknownCode n)

/-- The state once a context exists. -/
def freeze (s : PolicyState) : PolicyState := { s with frozen := true }

end PolicyState

end CommandHost
