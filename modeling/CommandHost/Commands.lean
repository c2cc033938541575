/-
CommandHost/Commands.lean

The command table and the cache in front of it.

Resolving a name asks the cache first.  A miss is looked up in the table: a
command of that name, else the handler of unknown names, else nothing; whatever
comes out is cached.  Changes of the table keep the cache in step: a change of one
name touches that name only, a change of the handler drops the whole cache, since
every miss may now resolve differently.
-/
import CommandHost.Machine

namespace CommandHost

namespace Machine

/-! ### Resolution -/

/-- What a name resolves to, by the table alone. -/
def lookup (m : Machine) (name : String) : Option Resolution :=
  match m.commands.get? name with
  | some c => some (.direct c)
  | none => (m.commands.get? unknownName).map (.unknown · name)

/-- What a name resolves to, by the cache if it knows. -/
def resolve (m : Machine) (name : String) : Option Resolution × Machine :=
  match m.cache.lookup name false with
  | (some entry, cache) => (entry, { m with cache })
  | (none, cache) => (m.lookup name, { m with cache := cache.store name (m.lookup name) false })

/-- Whether the cache knows a usable command for a name; asking counts as a lookup. -/
def isCached (m : Machine) (name : String) : Bool × Machine :=
  ((m.cache.lookup name true).1.isSome, { m with cache := (m.cache.lookup name true).2 })

/-! ### Changes -/

private def boolText (b : Bool) : String := if b then "true" else "false"

/-- Adds or replaces a command. -/
def define (m : Machine) (name : String) (command : Command) : Except Error Unit × Machine :=
  if m.disposed then (.error (.misuse .interpreterDisposed), m)
  else
    (.ok (), { m with
      commands := m.commands.insert name command
      cache := m.cache.store name (some (.direct command)) (name = unknownName)
    }.loggedHere .debug "command defined"
        [("name", name), ("replaced", boolText (m.commands.contains name))])

/-- Removes a command. -/
def delete (m : Machine) (name : String) : Except Error Unit × Machine :=
  if m.commands.contains name then
    (.ok (), { m with
      commands := m.commands.erase name
      cache := (m.cache.remove name (name = unknownName)).2
    }.loggedHere .debug "command deleted" [("name", name)])
  else
    (.error (.script "rename" .unknownCommand
      ("can't delete " ++ Text.quoted name ++ ": command doesn't exist")), m)

/-- Moves a command to a new name; an empty new name removes it. -/
def rename (m : Machine) (old new : String) : Except Error Unit × Machine :=
  if new = "" then m.delete old
  else
    match m.commands.get? old with
    | none =>
      (.error (.script "rename" .unknownCommand
        ("can't rename " ++ Text.quoted old ++ ": command doesn't exist")), m)
    | some command =>
      if m.commands.contains new then
        (.error (.script "rename" .commandExists ("can't rename to " ++ Text.quoted new)), m)
      else
        (.ok (), { m with
          commands := (m.commands.erase old).insert new command
          cache := m.cache.rename old new (some (.direct command))
            (old = unknownName ∨ new = unknownName)
        }.loggedHere .debug "command renamed" [("from", old), ("to", new)])

/-- Drops every cached resolution. -/
def clearCache (m : Machine) : Machine := { m with cache := m.cache.clear }

end Machine

namespace Eval

open Program

/-- Lifts a change that may fail. -/
def ofChange {α : Type} (f : Machine → Except Error α × Machine) : Eval α :=
  act fun m =>
    match f m with
    | (.ok a, m) => (.ok a, m)
    | (.error e, m) => (.error (.error e), m)

/-- What a name resolves to; an unknown name is an error. -/
def resolve (name : String) : Eval Resolution :=
  act fun m =>
    match m.resolve name with
    | (some r, m) => (.ok r, m)
    | (none, m) => (.error (.error (.script "" .unknownCommand (Text.quoted name))), m)

/-- Adds or replaces a command; there has to be one. -/
def define (name : String) (command : Option Command) : Eval Unit :=
  match command with
  | none => misuse .noCommand
  | some c => ofChange (·.define name c)

def delete (name : String) : Eval Unit := ofChange (·.delete name)

def rename (old new : String) : Eval Unit := ofChange (·.rename old new)

end Eval

end CommandHost
