/-
CommandHost/CommandLine/Flag.lean

The flags of the command line.

A flag is written out behind two dashes or as a letter behind one; letters may
stand together.  A flag that takes a value has it behind an equals sign or as the
next argument, a letter also directly behind it.  Flags and other arguments may
stand in any order, two dashes alone end the flags, and the last of repeated
flags wins.
-/
import CommandHost.Number.Integer
import CommandHost.Text.Quoted

namespace CommandHost.CommandLine

/-! ### Flags -/

inductive Flag where
  | configFile
  | verbose
  | noColor
  | help
  | workers
  | iterations
  | format
  deriving DecidableEq, Repr

namespace Flag

def name : Flag → String
  | configFile => "config"
  | verbose => "verbose"
  | noColor => "no-color"
  | help => "help"
  | workers => "workers"
  | iterations => "iterations"
  | format => "format"

def letter? : Flag → Option Char
  | configFile => none
  | verbose => some 'v'
  | noColor => some 'n'
  | help => some 'h'
  | workers => some 'w'
  | iterations => some 'i'
  | format => some 'f'

/-- Whether the flag alone says what it says. -/
def isSwitch : Flag → Bool
  | verbose => true
  | noColor => true
  | help => true
  | _ => false

/-- How messages name the flag. -/
def shown (f : Flag) : String :=
  match f.letter? with
  | some c => String.ofList ['-', c, ',', ' '] ++ "--" ++ f.name
  | none => "--" ++ f.name

end Flag

/-- What the flags say. -/
structure Options where
  configFile : String := ""
  verbose : Bool := false
  noColor : Bool := false
  help : Bool := false
  workers : Option Int64 := none
  iterations : Option Int64 := none
  format : String := "toml"
  deriving DecidableEq, Repr

/-! ### Errors -/

/-- Why a value does not suit its flag. -/
inductive ValueFault where
  | number (fault : Number.Fault)
  | truth
  deriving DecidableEq, Repr

def ValueFault.message (value : String) : ValueFault → String
  | number .malformed => "strconv.ParseInt: parsing " ++ Text.quoted value ++ ": invalid syntax"
  | number .outOfRange => "strconv.ParseInt: parsing " ++ Text.quoted value ++ ": value out of range"
  | truth => "strconv.ParseBool: parsing " ++ Text.quoted value ++ ": invalid syntax"

/-- Why the flags cannot be read. -/
inductive FlagError where
  | badSyntax (arg : String)
  | unknown (name : String)
  | unknownLetter (letter : Char) (group : String)
  | missingValue (arg : String)
  | missingLetterValue (letter : Char) (group : String)
  | badValue (flag : Flag) (value : String) (fault : ValueFault)
  deriving DecidableEq, Repr

def FlagError.message : FlagError → String
  | badSyntax arg => "bad flag syntax: " ++ arg
  | unknown name => "unknown flag: --" ++ name
  | unknownLetter c group => "unknown shorthand flag: " ++ Text.quotedChar c ++ " in -" ++ group
  | missingValue arg => "flag needs an argument: " ++ arg
  | missingLetterValue c group => "flag needs an argument: " ++ Text.quotedChar c ++ " in -" ++ group
  | badValue f v fault =>
    "invalid argument " ++ Text.quoted v ++ " for " ++ Text.quoted f.shown ++ " flag: " ++
      fault.message v

/-! ### Values -/

def readTruth (s : String) : Except ValueFault Bool :=
  if s ∈ ["1", "t", "T", "TRUE", "true", "True"] then .ok true
  else if s ∈ ["0", "f", "F", "FALSE", "false", "False"] then .ok false
  else .error .truth

def readWhole (s : String) : Except ValueFault Int64 :=
  match Number.readAnyBase s.toList with
  | .ok n => .ok n
  | .error e => .error (.number e)

namespace Options

/-- The options with the value of a flag read into them. -/
def set (o : Options) (f : Flag) (value : String) : Except ValueFault Options :=
  match f with
  | .configFile => .ok { o with configFile := value }
  | .verbose => (readTruth value).map fun b => { o with verbose := b }
  | .noColor => (readTruth value).map fun b => { o with noColor := b }
  | .help => (readTruth value).map fun b => { o with help := b }
  | .workers => (readWhole value).map fun n => { o with workers := some n }
  | .iterations => (readWhole value).map fun n => { o with iterations := some n }
  | .format => .ok { o with format := value }

/-- `set`, with the error it reports. -/
def assign (o : Options) (f : Flag) (value : String) : Except FlagError Options :=
  (o.set f value).mapError (.badValue f value)

end Options

/-! ### Reading flags -/

/-- The flag with a name. -/
def named? (known : List Flag) (name : String) : Option Flag := known.find? fun f => f.name == name

/-- The flag with a letter. -/
def lettered? (known : List Flag) (c : Char) : Option Flag :=
  known.find? fun f => f.letter? == some c

/-- A character as its first byte alone would be read. -/
def leadingByte (c : Char) : Char :=
  Char.ofNat ((String.ofList [c]).toUTF8.toList.head?.map UInt8.toNat |>.getD 0)

/-- The text in front of the first equals sign, and the text behind it if there is one. -/
def splitEquals (cs : List Char) : String × Option String :=
  (String.ofList (cs.takeWhile (· != '=')),
    match cs.dropWhile (· != '=') with
    | _ :: value => some (String.ofList value)
    | [] => none)

/-- Reads a flag that is written out; `body` is what stands behind its dashes. -/
def readLong (known : List Flag) (o : Options) (body : List Char) (rest : List String) :
    Except FlagError (Options × List String) :=
  let arg := "--" ++ String.ofList body
  if body.isEmpty || body.head? == some '-' || body.head? == some '=' then .error (.badSyntax arg)
  else
    match splitEquals body with
    | (name, value?) =>
      match named? known name with
      | none => .error (.unknown name)
      | some f =>
        match value? with
        | some v => (o.assign f v).map (·, rest)
        | none =>
          if f.isSwitch then (o.assign f "true").map (·, rest)
          else
            match rest with
            | v :: rest => (o.assign f v).map (·, rest)
            | [] => .error (.missingValue arg)

/-- Reads a group of letters. -/
def readLetters (known : List Flag) (o : Options) :
    List Char → List String → Except FlagError (Options × List String)
  | [], rest => .ok (o, rest)
  | c :: more, rest =>
    let group := String.ofList (c :: more)
    match lettered? known c with
    | none => .error (.unknownLetter (leadingByte c) group)
    | some f =>
      match more with
      | '=' :: v :: vs => (o.assign f (String.ofList (v :: vs))).map (·, rest)
      | _ =>
        if f.isSwitch then
          match o.assign f "true" with
          | .ok o => readLetters known o more rest
          | .error e => .error e
        else if !more.isEmpty then (o.assign f (String.ofList more)).map (·, rest)
        else
          match rest with
          | v :: rest => (o.assign f v).map (·, rest)
          | [] => .error (.missingLetterValue c group)

/-- Whether a group of letters is passed over. -/
def isPassedOver (group : List Char) : Bool := "test.".toList.isPrefixOf group

/-- Reads all flags; other arguments are left out. -/
def readFlags (known : List Flag) : (fuel : Nat) → Options → List String → Except FlagError Options
  | 0, o, _ => .ok o
  | _, o, [] => .ok o
  | fuel + 1, o, arg :: rest =>
    match arg.toList with
    | ['-', '-'] => .ok o
    | '-' :: '-' :: body =>
      match readLong known o body rest with
      | .ok (o, rest) => readFlags known fuel o rest
      | .error e => .error e
    | '-' :: c :: cs =>
      if isPassedOver (c :: cs) then readFlags known fuel o rest
      else
        match readLetters known o (c :: cs) rest with
        | .ok (o, rest) => readFlags known fuel o rest
        | .error e => .error e
    | _ => readFlags known fuel o rest

end CommandHost.CommandLine
