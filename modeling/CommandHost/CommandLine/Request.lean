/-
CommandHost/CommandLine/Request.lean

What a command line asks for.

The first argument that is neither a flag nor the value of one names a command;
its flags may stand on either side of it.  While the name is looked for only the
flags that every command has are known, and any other flag is taken to have a
value.  A name that is no command is reported together with the commands that
look like it.
-/
import CommandHost.CommandLine.Flag
import CommandHost.Text.Case
import CommandHost.Text.Distance

namespace CommandHost.CommandLine

/-! ### Commands -/

/-- The commands of the program. -/
inductive Subcommand where
  /-- Runs a load and reports on it. -/
  | run
  /-- Shows the settings in force. -/
  | config
  deriving DecidableEq, Repr

/-- The flags every command has. -/
def sharedFlags : List Flag := [.configFile, .verbose, .noColor]

namespace Subcommand

def name : Subcommand → String
  | run => "run"
  | config => "config"

def ofName? (s : String) : Option Subcommand := [run, config].find? fun c => c.name == s

/-- The flags of a command. -/
def flags : Subcommand → List Flag
  | run => .workers :: .iterations :: .help :: sharedFlags
  | config => .format :: .help :: sharedFlags

end Subcommand

/-- The name of the program. -/
def programName : String := "interpcore"

/-- The names suggested for a name that is no command: those that start with it and those at most
two bytes away. -/
def suggestions (given : String) : List String :=
  let given := Text.lower given
  ["run", "config", "completion"].filter fun name =>
    Text.distance given name ≤ 2 || given.toList.isPrefixOf name.toList

/-- Why a command line asks for nothing. -/
inductive UsageError where
  | flag (error : FlagError)
  | unknownCommand (given : String)
  deriving DecidableEq, Repr

def UsageError.message : UsageError → String
  | flag e => e.message
  | unknownCommand given =>
    "unknown command " ++ Text.quoted given ++ " for " ++ Text.quoted programName ++
      match suggestions given with
      | [] => ""
      | names => "\n\nDid you mean this?\n" ++ String.join (names.map fun n => "\t" ++ n ++ "\n")

/-- What a command line asks for. -/
inductive Request where
  | command (c : Subcommand) (options : Options)
  | help
  deriving DecidableEq, Repr

/-! ### Finding the command -/

/-- Whether an argument is a flag whose value is the next argument, as far as the shared flags are
known. -/
def takesNext (arg : String) : Bool :=
  let isSwitch (f : Option Flag) := (f.map Flag.isSwitch).getD false
  match arg.toList with
  | '-' :: '-' :: body => !body.contains '=' && !isSwitch (named? sharedFlags (String.ofList body))
  | ['-', c] => c != '=' && c.toNat < 0x80 && !isSwitch (lettered? sharedFlags c)
  | _ => false

def isFlag (arg : String) : Bool := arg.toList.head? == some '-'

/-- The first argument that is neither a flag nor the value of one. -/
def firstWord? : List String → Option String
  | [] => none
  | arg :: rest =>
    if arg = "--" then none
    else if takesNext arg then
      match rest with
      | _ :: more :: rest => firstWord? (more :: rest)
      | _ => none
    else if arg ≠ "" ∧ !isFlag arg then some arg
    else firstWord? rest

/-- The arguments without the word that names the command. -/
def dropWord (word : String) : List String → List String
  | [] => []
  | arg :: rest =>
    if arg = "--" then arg :: rest
    else if takesNext arg then
      match rest with
      | value :: rest => arg :: value :: dropWord word rest
      | [] => [arg]
    else if arg = word then rest
    else arg :: dropWord word rest

/-- What the arguments ask for.  Without a command the program only explains itself. -/
def Request.parse (args : List String) : Except UsageError Request :=
  match firstWord? args with
  | none =>
    match readFlags (.help :: sharedFlags) args.length {} args with
    | .ok _ => .ok .help
    | .error e => .error (.flag e)
  | some word =>
    match Subcommand.ofName? word with
    | none => if word ∈ ["help", "completion"] then .ok .help else .error (.unknownCommand word)
    | some c =>
      let args := dropWord word args
      match readFlags c.flags args.length {} args with
      | .ok o => .ok (if o.help then .help else .command c o)
      | .error e => .error (.flag e)

end CommandHost.CommandLine
