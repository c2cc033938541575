/-
CommandHost/Settings/Document.lean

Settings as texts.

`encode` writes every section of the layout; `decode?` reads a text over the
defaults and leaves alone what the text does not mention.  A text may hold
sections and keys the program does not know.  TOML takes a key in any case if
none matches exactly, and each entry has to be of the kind its setting holds;
YAML takes keys as they are, any scalar for a text, the words for yes and no for
a truth value, and a number without its fraction for a whole number, and an
entry that stands for nothing changes nothing.
-/
import CommandHost.Settings.Format
import CommandHost.Settings.Layout
import CommandHost.Toml.Document
import CommandHost.Yaml.Node
import CommandHost.Yaml.Style

namespace CommandHost

/-! ### Writing -/

namespace Entry

def truthText (b : Bool) : List Char := if b then "true".toList else "false".toList

/-- An entry in TOML, to the end of its line. -/
def toToml : Entry → List Char
  | text s => Toml.writeText s ++ ['\n']
  | whole n => (Number.intText n.toInt).toList ++ ['\n']
  | truth b => truthText b ++ ['\n']

/-- An entry in YAML, to the end of its line. -/
def toYaml : Entry → List Char
  | text s => Yaml.writeText s
  | whole n => (Number.intText n.toInt).toList ++ ['\n']
  | truth b => truthText b ++ ['\n']

end Entry

namespace Settings

/-- A section in TOML: its name in brackets, and its keys, indented. -/
def tomlSection (s : Settings) (g : Group) : List Char :=
  '[' :: g.name.toList ++ [']', '\n'] ++
    g.fields.flatMap fun f => ' ' :: ' ' :: f.key.toList ++ [' ', '=', ' '] ++ (s.entry f).toToml

/-- A section in YAML: its name, and its keys, indented. -/
def yamlSection (s : Settings) (g : Group) : List Char :=
  g.name.toList ++ [':', '\n'] ++
    g.fields.flatMap fun f => ' ' :: ' ' :: f.key.toList ++ [':', ' '] ++ (s.entry f).toYaml

/-- The settings as a text.  In TOML an empty line stands between sections. -/
def encode (s : Settings) : FileFormat → String
  | .toml => String.ofList (List.intercalate ['\n'] (layout.map s.tomlSection))
  | .yaml => String.ofList (layout.flatMap s.yamlSection)

/-! ### Reading TOML -/

/-- The one of `xs` whose name is `key`, or else the first one whose name is `key` in another case. -/
def pick? {α : Type} (name : α → String) (xs : List α) (key : String) : Option α :=
  (xs.find? fun x => name x == key).or (xs.find? fun x => Text.sameFolded (name x) key)

/-- The entry an item of a TOML document gives. -/
def entryOfToml? : Toml.Item → Option Entry
  | .text s => some (.text s)
  | .whole n => some (.whole n)
  | .truth b => some (.truth b)
  | _ => none

/-- Takes a section of a TOML document. -/
def takeTomlFields? (fields : List Field) (s : Settings) (es : Toml.Entries) : Option Settings :=
  es.foldlM (fun s (key, item) =>
    match pick? Field.key fields key with
    | some f => (entryOfToml? item).bind (s.put? f)
    | none => some s) s

/-- Takes a TOML document. -/
def takeToml? (s : Settings) (es : Toml.Entries) : Option Settings :=
  es.foldlM (fun s (key, item) =>
    match pick? Group.name layout key with
    | some g =>
      match item with
      | .table fields _ => takeTomlFields? g.fields s fields
      | _ => none
    | none => some s) s

/-! ### Reading YAML -/

/-- The text of a key; a collection is none. -/
def keyText? : Yaml.Node → Option String
  | .plain t => some t
  | .quoted t => some t
  | _ => none

/-- The keys and values of a mapping with distinct keys. -/
def distinctEntries? (es : List (Yaml.Node × Yaml.Node)) : Option (List (String × Yaml.Node)) := do
  let es ← es.mapM fun (k, v) => (keyText? k).map fun k => (k, v)
  if (es.map Prod.fst).Nodup then some es else none

/-- The truth value a word stands for. -/
def truthOfWord? (w : String) : Option Bool :=
  if w ∈ Yaml.Scalar.yesWords then some true
  else if w ∈ Yaml.Scalar.noWords then some false
  else none

/-- The whole number a floating-point number is cut to, if it is not above the range. -/
def wholeOfFloat? (x : Number.Binary64) : Option Int64 :=
  if x.isNaN || (!x.isNegative && Number.Binary64.roundRatio (Nat.pow 2 63) 1 < x.magnitude) then none
  else some x.truncate

/-- Takes the value of a setting of which `s` holds the present one. -/
def takeScalar? (s : Settings) (f : Field) : Yaml.Node → Option Settings
  | .plain t =>
    match Yaml.Scalar.ofPlain t, s.entry f with
    | .null, _ => some s
    | _, .text _ => s.put? f (.text t)
    | .truth b, .truth _ => s.put? f (.truth b)
    | .text, .truth _ => (truthOfWord? t).bind fun b => s.put? f (.truth b)
    | .whole n, .whole _ => s.put? f (.whole n)
    | .float x, .whole _ => (wholeOfFloat? x).bind fun n => s.put? f (.whole n)
    | _, _ => none
  | .quoted t =>
    match s.entry f with
    | .text _ => s.put? f (.text t)
    | .truth _ => (truthOfWord? t).bind fun b => s.put? f (.truth b)
    | .whole _ => none
  | _ => none

/-- Whether a node stands for nothing. -/
def isNull : Yaml.Node → Bool
  | .plain t => t ∈ Yaml.Scalar.nullWords
  | _ => false

/-- Takes a mapping with the given keys; a node that stands for nothing changes nothing. -/
def takeMapping? {α : Type} (name : α → String) (xs : List α)
    (take? : Settings → α → Yaml.Node → Option Settings) (s : Settings) (n : Yaml.Node) :
    Option Settings :=
  if isNull n then some s
  else
    match n with
    | .mapping es => do
      let es ← distinctEntries? es
      es.foldlM (fun s (key, v) =>
        match xs.find? fun x => name x == key with
        | some x => take? s x v
        | none => some s) s
    | _ => none

/-- Takes a YAML document. -/
def takeYaml? (s : Settings) (n : Yaml.Node) : Option Settings :=
  takeMapping? Group.name layout
    (fun s g n => takeMapping? Field.key g.fields takeScalar? s n) s n

/-! ### Reading -/

/-- Reads a text over the defaults. -/
def decode? (f : FileFormat) (text : String) : Option Settings :=
  match f with
  | .toml => (Toml.Document.read? text).bind (takeToml? {})
  | .yaml => (Yaml.Node.read? text).bind (takeYaml? {})

/-- Reads a text over the defaults and checks what comes out; settings that make no sense come out
too. -/
def parse? (f : FileFormat) (text : String) : Option (Settings × Except Invalid Unit) :=
  (decode? f text).map fun s => (s, s.validate)

end Settings

end CommandHost
