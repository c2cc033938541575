/-
CommandHost/Proofs/SettingsRoundTrip.lean

Settings that are written read back as themselves.

Reading goes over the defaults, so it has to be shown that every setting is read, not
only that what is read is right.  `Takes t fs step` says what a reader does to settings it
is given: it makes the settings `fs` those of `t` and leaves all others alone.  Readers
that follow each other take what each of them takes (`Takes.foldlM`), and the layout
leaves no setting out (`eq_of_takes_layout`).

TOML gives all settings back.  YAML does so unless a text is written as a literal block
that starts with a tab; such a document is refused as a whole.  Of settings that make
sense only the policy can be such a text, since blanks may stand around its name.
-/
import CommandHost.Proofs.TomlText
import CommandHost.Proofs.YamlDocument
import CommandHost.Settings.Document

namespace CommandHost

namespace Settings

/-! ### Settings taken from others -/

/-- Settings are their entries. -/
theorem eq_of_entries {s t : Settings} (h : ∀ f, s.entry f = t.entry f) : s = t := by
  have hlevel := h .level
  have hcolor := h .noColor
  have hstatistics := h .statistics
  have hpolicy := h .policy
  have hdepth := h .maxDepth
  have hworkers := h .workers
  have hiterations := h .iterations
  have hchurn := h .churn
  cases s
  cases t
  simp_all [entry]

/-- A reader that makes the settings `fs` those of `t` and leaves all others alone. -/
def Takes (t : Settings) (fs : List Field) (step : Settings → Option Settings) : Prop :=
  ∀ s, ∃ u, step s = some u ∧ (∀ f ∈ fs, u.entry f = t.entry f) ∧
    ∀ f, f ∉ fs → u.entry f = s.entry f

/-- Storing what a setting of `t` holds takes that setting. -/
theorem takes_put (t : Settings) (f : Field) : Takes t [f] fun s => s.put? f (t.entry f) := by
  intro s
  cases f
  all_goals
    refine ⟨_, rfl, ?_, ?_⟩
    · intro g hg
      rw [List.mem_singleton.1 hg]
      rfl
    · intro g hg
      rw [List.mem_singleton] at hg
      -- each other setting is stored in a field of its own
      cases g
      all_goals first | rfl | exact absurd rfl hg

namespace Takes

variable {t : Settings}

/-- Only what a reader does to settings matters. -/
theorem congr {fs : List Field} {step step' : Settings → Option Settings} (h : Takes t fs step)
    (heq : ∀ s, step' s = step s) : Takes t fs step' := by
  intro s
  rw [heq]
  exact h s

/-- Readers one after the other, each with an entry of its own. -/
theorem foldlM {α β : Type} {fields : α → List Field} {entry : α → β}
    {step : Settings → β → Option Settings} {xs : List α}
    (h : ∀ x ∈ xs, Takes t (fields x) fun s => step s (entry x)) :
    Takes t (xs.flatMap fields) fun s => (xs.map entry).foldlM step s := by
  induction xs with
  | nil =>
    intro s
    refine ⟨s, rfl, ?_, fun f _ => rfl⟩
    intro f hf
    cases hf
  | cons x xs ih =>
    intro s
    obtain ⟨u, hu, htaken, hleft⟩ := h x (by simp) s
    -- the others go on with what the first reader made
    obtain ⟨v, hv, htaken', hleft'⟩ := ih (fun y hy => h y (by simp [hy])) u
    refine ⟨v, ?_, ?_, ?_⟩
    · show (entry x :: xs.map entry).foldlM step s = _
      rw [List.foldlM_cons, show step s (entry x) = some u from hu]
      exact hv
    · -- what later readers take is theirs, the rest is as the first one left it
      intro f hf
      by_cases hlater : f ∈ xs.flatMap fields
      · exact htaken' f hlater
      · rw [hleft' f hlater]
        rw [List.flatMap_cons, List.mem_append] at hf
        exact htaken f (hf.resolve_right hlater)
    · intro f hf
      rw [List.flatMap_cons, List.mem_append, not_or] at hf
      rw [hleft' f hf.2, hleft f hf.1]

end Takes

/-- Every setting stands somewhere in a file. -/
theorem mem_layout (f : Field) : f ∈ layout.flatMap Group.fields := by
  cases f <;> decide

/-- So a reader that takes the whole layout gives the settings, whatever it was given. -/
theorem eq_of_takes_layout {t : Settings} {step : Settings → Option Settings}
    (h : Takes t (layout.flatMap Group.fields) step) (s : Settings) : step s = some t := by
  obtain ⟨u, hu, htaken, -⟩ := h s
  rw [hu, eq_of_entries fun f => htaken f (mem_layout f)]

/-- With distinct names, a name leads to whom it belongs. -/
theorem find?_name {α : Type} {name : α → String} {xs : List α} (h : (xs.map name).Nodup) {x : α}
    (hx : x ∈ xs) : xs.find? (fun y => name y == name x) = some x := by
  induction xs with
  | nil => cases hx
  | cons y xs ih =>
    rw [List.map_cons, List.nodup_cons] at h
    rcases List.mem_cons.1 hx with rfl | hx
    · rw [List.find?_cons, beq_self_eq_true]
    · have hne : (name y == name x) = false := by
        rw [beq_eq_false_iff_ne]
        intro heq
        exact h.1 (heq ▸ List.mem_map_of_mem hx)
      rw [List.find?_cons, hne]
      exact ih h.2 hx

/-- What depends on the sections alone may forget that they stand in the layout. -/
theorem map_attach_layout {α : Type} {f : { g // g ∈ layout } → α} {h : Group → α}
    (heq : ∀ g, f g = h g.1) : layout.attach.map f = layout.map h := by
  calc layout.attach.map f
    _ = (layout.attach.map Subtype.val).map h := by
      rw [List.map_map]
      congr 1
      funext g
      exact heq g
    _ = layout.map h := by rw [List.attach_map_subtype_val]

/-- No two sections have the same name. -/
theorem nodup_names : (layout.map Group.name).Nodup := by decide

/-- No two settings of a section have the same key. -/
theorem nodup_keys : ∀ g ∈ layout, (g.fields.map Field.key).Nodup := by decide

end Settings

/-! ### TOML -/

namespace Entry

/-- An entry in TOML, without the end of its line. -/
def tomlText : Entry → List Char
  | text s => Toml.writeText s
  | whole n => (Number.intText n.toInt).toList
  | truth b => truthText b

theorem toToml_eq (e : Entry) : e.toToml = e.tomlText ++ ['\n'] := by
  cases e <;> rfl

/-- The item an entry is in a TOML document. -/
def toItem : Entry → Toml.Item
  | text s => .text s
  | whole n => .whole n
  | truth b => .truth b

/-- An entry is read up to the end of its line. -/
theorem value?_tomlText (e : Entry) (fuel : Nat) (rest : List Char) :
    Toml.value? (fuel + 1) (e.tomlText ++ '\n' :: rest) = some (e.toItem, '\n' :: rest) := by
  cases e with
  | text s => exact Toml.value?_writeText s fuel rest
  | whole n => exact Toml.value?_intText n fuel rest
  | truth b => exact Toml.value?_truth b fuel rest

/-- An entry does not begin with a blank. -/
theorem head_tomlText (e : Entry) : (e.tomlText.head?.map Toml.isSpace).getD false = false := by
  cases e with
  | text s => rfl
  | whole n =>
    obtain ⟨d, ds, hd, h | h⟩ := (Yaml.isNumber_intText n.toInt).starts
    · rw [tomlText, h]
      show (d == ' ' || d == '\t') = false
      rw [beq_eq_false_iff_ne.2 (Number.isDigit_ne hd (by decide)),
        beq_eq_false_iff_ne.2 (Number.isDigit_ne hd (by decide))]
      rfl
    · rw [tomlText, h]
      rfl
  | truth b => cases b <;> rfl

/-- An entry has no control characters in it. -/
theorem isShown_tomlText (e : Entry) : ∀ c ∈ e.tomlText, Toml.isShown c = true := by
  cases e with
  | text s => exact Toml.isShown_writeText s
  | whole n =>
    intro c hc
    have hnumber := (Yaml.isNumber_intText n.toInt).chars c hc
    rw [Yaml.inNumber, Bool.or_eq_true, beq_iff_eq] at hnumber
    apply Toml.isShown_of_isBare
    -- digits and a sign, which may even stand in a key
    rcases hnumber with hdigit | rfl
    · rw [Toml.isBare, Text.isAlphanum_of_isDigit hdigit]
      rfl
    · rfl
  | truth b =>
    have htext : (truthText b).all Toml.isShown = true := by cases b <;> decide
    exact List.all_eq_true.1 htext

end Entry

namespace Settings

/-- The line of a setting in TOML. -/
def tomlLine (s : Settings) (f : Field) : Toml.Line where
  key := f.key
  value := (s.entry f).tomlText
  item := (s.entry f).toItem
  bare := .of_all (by cases f <;> decide)
  reads := (s.entry f).value?_tomlText
  unspaced := (s.entry f).head_tomlText
  shown := (s.entry f).isShown_tomlText

theorem isBare_name : ∀ g ∈ layout, Toml.IsBare g.name := by
  have hnames : ∀ g ∈ layout, (!g.name.toList.isEmpty && g.name.toList.all Toml.isBare) = true := by
    decide
  exact fun g hg => .of_all (hnames g hg)

/-- A section of the layout in TOML. -/
def tomlTable (s : Settings) (g : { g // g ∈ layout }) : Toml.Section where
  name := g.1.name
  lines := g.1.fields.map s.tomlLine
  bare := isBare_name g.1 g.2
  distinct := by
    rw [List.map_map]
    exact nodup_keys g.1 g.2

theorem render_tomlLine (s : Settings) (f : Field) :
    (s.tomlLine f).render =
      ' ' :: ' ' :: f.key.toList ++ [' ', '=', ' '] ++ (s.entry f).toToml := by
  rw [Entry.toToml_eq]
  rfl

/-- As a table, a section is written as the settings write it. -/
theorem render_tomlTable (s : Settings) (g : { g // g ∈ layout }) :
    (s.tomlTable g).render = s.tomlSection g.1 := by
  rw [Toml.Section.render, tomlSection]
  show _ ++ (g.1.fields.map s.tomlLine).flatMap Toml.Line.render = _
  rw [List.flatMap_map]
  congr 2
  funext f
  exact s.render_tomlLine f

/-- The settings as the tables of a TOML document. -/
def tables (s : Settings) : Toml.Entries :=
  layout.map fun g => (g.name, .table (g.fields.map fun f => (f.key, (s.entry f).toItem)) false)

/-- What is written as TOML is read as the tables of the settings. -/
theorem read?_toml (s : Settings) : Toml.Document.read? (s.encode .toml) = some s.tables := by
  -- the tables as written, their names and their entries
  have htext : (layout.attach.map s.tomlTable).map Toml.Section.render =
      layout.map s.tomlSection := by
    rw [List.map_map]
    exact map_attach_layout s.render_tomlTable
  have hnames : ((layout.attach.map s.tomlTable).map (·.name)).Nodup := by
    have hmap : (layout.attach.map s.tomlTable).map (·.name) = layout.map Group.name := by
      rw [List.map_map]
      exact map_attach_layout fun g => rfl
    rw [hmap]
    exact nodup_names
  have hentries : (layout.attach.map s.tomlTable).map Toml.Section.entry = s.tables := by
    rw [List.map_map]
    refine map_attach_layout fun g => ?_
    show (g.1.name, Toml.Item.table ((g.1.fields.map s.tomlLine).map Toml.Line.entry) false) = _
    rw [List.map_map]
    rfl
  rw [encode, ← htext, Toml.Document.read?_sections _ hnames, hentries]

theorem pick?_name {α : Type} {name : α → String} {xs : List α} (h : (xs.map name).Nodup) {x : α}
    (hx : x ∈ xs) : pick? name xs (name x) = some x := by
  rw [pick?, find?_name h hx]
  rfl

/-- The item of an entry gives the entry. -/
theorem entryOfToml?_toItem (e : Entry) : entryOfToml? e.toItem = some e := by
  cases e <;> rfl

/-- The settings of one section are taken from its table, key by key. -/
theorem takes_tomlFields (t : Settings) {fields : List Field} (h : (fields.map Field.key).Nodup) :
    Takes t fields fun s =>
      takeTomlFields? fields s (fields.map fun f => (f.key, (t.entry f).toItem)) := by
  have htakes : Takes t (fields.flatMap fun f => [f]) fun s =>
      takeTomlFields? fields s (fields.map fun f => (f.key, (t.entry f).toItem)) := by
    unfold takeTomlFields?
    apply Takes.foldlM
    intro f hf
    refine (takes_put t f).congr fun s => ?_
    simp only [pick?_name h hf, entryOfToml?_toItem, Option.bind_some]
  rw [List.flatMap_singleton'] at htakes
  exact htakes

/-- All settings are taken from the tables, section by section. -/
theorem takes_toml (t : Settings) :
    Takes t (layout.flatMap Group.fields) fun s => takeToml? s t.tables := by
  unfold takeToml? tables
  apply Takes.foldlM
  intro g hg
  refine (takes_tomlFields t (nodup_keys g hg)).congr fun s => ?_
  simp only [pick?_name nodup_names hg]

/-- TOML gives back any settings, with sense or without. -/
theorem decode?_toml (s : Settings) : decode? .toml (s.encode .toml) = some s := by
  rw [decode?, read?_toml]
  exact eq_of_takes_layout s.takes_toml {}

end Settings

/-! ### YAML -/

namespace Entry

/-- Whether an entry is a text that is written as a literal block which hides its indent. -/
def hides : Entry → Bool
  | text s => Yaml.hidesIndent s.toList
  | _ => false

/-- The node an entry is in a YAML document. -/
def toNode : Entry → Yaml.Node
  | text s => Yaml.nodeOf s
  | whole n => .plain (Number.intText n.toInt)
  | truth b => .plain (String.ofList (truthText b))

/-- An entry stands behind its key and is read as its node, unless it hides its indent. -/
theorem stands_toYaml (e : Entry) :
    Yaml.Stands 2 2 (' ' :: e.toYaml) (if e.hides then none else some e.toNode) := by
  cases e with
  | text s => exact Yaml.stands_writeText s
  | whole n =>
    have hnumber := Yaml.isNumber_intText n.toInt
    have hne : (Number.intText n.toInt).toList ≠ [] := by
      obtain ⟨d, ds, -, h | h⟩ := hnumber.starts <;> simp [h]
    have hread := Yaml.stands_plain hnumber.plainAllowed hne 2
    rw [String.ofList_toList] at hread
    exact hread
  | truth b =>
    have hallowed : Yaml.plainAllowed (truthText b) = true := by cases b <;> decide
    have hne : truthText b ≠ [] := by cases b <;> decide
    exact Yaml.stands_plain hallowed hne 2

/-- An entry has only characters in it that a document keeps. -/
theorem isKept_toYaml (e : Entry) : ∀ c ∈ e.toYaml, Yaml.IsKept c := by
  cases e with
  | text s => exact fun c hc => Yaml.isKept_writeText hc
  | whole n =>
    intro c hc
    rcases List.mem_append.1 hc with hc | hc
    · exact .inl (Yaml.isWritable_of_isVisible ((Yaml.isNumber_intText n.toInt).isVisible c hc))
    · rw [List.mem_singleton.1 hc]
      exact .inl rfl
  | truth b =>
    have htext : (truthText b ++ ['\n']).all Yaml.isWritable = true := by cases b <;> decide
    exact fun c hc => .inl (List.all_eq_true.1 htext c hc)

end Entry

namespace Settings

theorem isName_key (f : Field) : Yaml.IsName f.key :=
  .of_all (by cases f <;> decide)

theorem isName_name : ∀ g ∈ layout, Yaml.IsName g.name := by
  have hnames : ∀ g ∈ layout, ((g.name.toList.head?.map Char.isAlpha).getD false &&
      g.name.toList.all fun c => c.isAlpha || c == '_') = true := by
    decide
  exact fun g hg => .of_all (hnames g hg)

/-- A setting in YAML. -/
def yamlPair (s : Settings) (f : Field) : Yaml.Pair 2 2 where
  key := f.key
  value := ' ' :: (s.entry f).toYaml
  node := if (s.entry f).hides then none else some (s.entry f).toNode
  isName := isName_key f
  gap := fun _ => rfl
  stands := (s.entry f).stands_toYaml

theorem entry_yamlPair (s : Settings) (f : Field) :
    (s.yamlPair f).entry = (if (s.entry f).hides then none else some (s.entry f).toNode).map
      fun n => (.plain f.key, n) := rfl

/-- A section has one setting at least, and three at most. -/
theorem length_fields : ∀ g ∈ layout, g.fields ≠ [] ∧ g.fields.length ≤ 3 := by decide

/-- A section of the layout in YAML. -/
def yamlTable (s : Settings) (g : { g // g ∈ layout }) : Yaml.Pair 0 7 where
  key := g.1.name
  value := '\n' :: (g.1.fields.map s.yamlPair).flatMap Yaml.Pair.render
  node := (Yaml.entriesOf (g.1.fields.map s.yamlPair)).map fun es => .mapping es
  isName := isName_name g.1 g.2
  gap := fun _ => rfl
  stands := by
    obtain ⟨hne, hlength⟩ := length_fields g.1 g.2
    apply (Yaml.stands_mapping (g.1.fields.map s.yamlPair) (by simpa using hne) (by decide)).mono
    rw [List.length_map]
    omega

theorem entry_yamlTable (s : Settings) (g : { g // g ∈ layout }) :
    (s.yamlTable g).entry = ((Yaml.entriesOf (g.1.fields.map s.yamlPair)).map
      fun es => .mapping es).map fun n => (.plain g.1.name, n) := rfl

theorem render_yamlPair (s : Settings) (f : Field) :
    (s.yamlPair f).render = ' ' :: ' ' :: f.key.toList ++ [':', ' '] ++ (s.entry f).toYaml := by
  simp [Yaml.Pair.render, yamlPair, List.replicate]

/-- The same for a section as a pair of a YAML document. -/
theorem render_yamlTable (s : Settings) (g : { g // g ∈ layout }) :
    (s.yamlTable g).render = s.yamlSection g.1 := by
  have hfields : (g.1.fields.map s.yamlPair).flatMap Yaml.Pair.render =
      g.1.fields.flatMap fun f =>
        ' ' :: ' ' :: f.key.toList ++ [':', ' '] ++ (s.entry f).toYaml := by
    rw [List.flatMap_map]
    congr 1
    funext f
    exact s.render_yamlPair f
  rw [yamlSection, ← hfields, Yaml.Pair.render, yamlTable]
  simp

/-- The settings as the node of a YAML document. -/
def mapping (s : Settings) : Yaml.Node :=
  .mapping (layout.map fun g =>
    (.plain g.name, .mapping (g.fields.map fun f => (.plain f.key, (s.entry f).toNode))))

/-- What is written as YAML is read as a mapping if each of its entries is read. -/
theorem read?_yaml (s : Settings) :
    Yaml.Node.read? (s.encode .yaml) =
      (Yaml.entriesOf (layout.attach.map s.yamlTable)).map fun es => .mapping es := by
  have htext : (layout.attach.map s.yamlTable).flatMap Yaml.Pair.render =
      layout.flatMap s.yamlSection := by
    rw [List.flatMap_def, List.flatMap_def, List.map_map]
    congr 1
    exact map_attach_layout s.render_yamlTable
  have hlength : (layout.attach.map s.yamlTable).length = 5 := by
    rw [List.length_map, List.length_attach]
    rfl
  rw [encode, ← htext]
  apply Yaml.read?_pairs
  · exact List.ne_nil_of_length_eq_add_one hlength
  · rw [hlength]
    decide
  · -- a character of a section is the line end behind its name or one of a setting
    intro p hp c hc
    obtain ⟨g, -, rfl⟩ := List.mem_map.1 hp
    rcases List.mem_cons.1 hc with rfl | hc
    · exact .inl rfl
    · obtain ⟨q, hq, hc⟩ := List.mem_flatMap.1 hc
      obtain ⟨f, -, rfl⟩ := List.mem_map.1 hq
      refine Yaml.isKept_render ?_ c hc
      intro d hd
      rcases List.mem_cons.1 hd with rfl | hd
      · exact .inl rfl
      · exact (s.entry f).isKept_toYaml d hd

/-- One text that hides its indent makes the document unreadable. -/
theorem read?_yaml_of_hides {s : Settings} {f : Field} (h : (s.entry f).hides = true) :
    Yaml.Node.read? (s.encode .yaml) = none := by
  obtain ⟨g, hg, hf⟩ := List.mem_flatMap.1 (mem_layout f)
  have hpair : (s.yamlPair f).entry = none := by
    rw [entry_yamlPair, if_pos h]
    rfl
  -- so its section is not read, and the document with it
  have htable : (s.yamlTable ⟨g, hg⟩).entry = none := by
    rw [entry_yamlTable, Yaml.entriesOf_eq_none (List.mem_map_of_mem hf) hpair]
    rfl
  rw [read?_yaml, Yaml.entriesOf_eq_none
    (List.mem_map_of_mem (List.mem_attach layout ⟨g, hg⟩)) htable]
  rfl

/-- Without such a text the document is read as the mapping of the settings. -/
theorem read?_yaml_of_not_hides {s : Settings} (h : ∀ f, (s.entry f).hides = false) :
    Yaml.Node.read? (s.encode .yaml) = some s.mapping := by
  have hpair : ∀ f, (s.yamlPair f).entry = some (.plain f.key, (s.entry f).toNode) := by
    intro f
    rw [entry_yamlPair, h f]
    rfl
  have htable : ∀ g, (s.yamlTable g).entry =
      some (.plain g.1.name,
        .mapping (g.1.fields.map fun f => (.plain f.key, (s.entry f).toNode))) := by
    intro g
    rw [entry_yamlTable, Yaml.entriesOf_map fun f _ => hpair f]
    rfl
  rw [read?_yaml, Yaml.entriesOf_map fun g _ => htable g]
  refine congrArg (fun es => some (Yaml.Node.mapping es)) ?_
  exact map_attach_layout fun g => rfl

/-! ### Taking YAML -/

/-- The keys of a mapping are its names, if no two of them are the same. -/
theorem distinctEntries?_map {α : Type} {name : α → String} {xs : List α}
    (h : (xs.map name).Nodup) (node : α → Yaml.Node) :
    distinctEntries? (xs.map fun x => (.plain (name x), node x)) =
      some (xs.map fun x => (name x, node x)) := by
  have hkeys : (xs.map fun x => (Yaml.Node.plain (name x), node x)).mapM
      (fun e => (keyText? e.1).map fun k => (k, e.2)) =
        some (xs.map fun x => (name x, node x)) := by
    clear h
    induction xs with
    | nil => rfl
    | cons x xs ih =>
      rw [List.map_cons, List.mapM_cons, ih]
      rfl
  have hnames : (xs.map fun x => (name x, node x)).map Prod.fst = xs.map name := by
    rw [List.map_map]
    rfl
  rw [distinctEntries?, hkeys]
  show (if ((xs.map fun x => (name x, node x)).map Prod.fst).Nodup then _ else _) = _
  rw [hnames, if_pos h]

/-- A mapping with the given keys takes what each of them takes. -/
theorem takes_mapping {α : Type} (t : Settings) {name : α → String} {xs : List α}
    (hnames : (xs.map name).Nodup) {fields : α → List Field} {node : α → Yaml.Node}
    {take? : Settings → α → Yaml.Node → Option Settings}
    (h : ∀ x ∈ xs, Takes t (fields x) fun s => take? s x (node x)) :
    Takes t (xs.flatMap fields) fun s =>
      takeMapping? name xs take? s (.mapping (xs.map fun x => (.plain (name x), node x))) := by
  unfold takeMapping?
  simp only [isNull, distinctEntries?_map hnames, Option.bind_eq_bind, Option.bind_some]
  apply Takes.foldlM
  intro x hx
  refine (h x hx).congr fun s => ?_
  simp only [find?_name hnames hx]

/-- A text that is written plainly is one that no other type claims. -/
theorem takeScalar?_text {s : Settings} {f : Field} {old : String} (h : s.entry f = .text old)
    (t : String) : takeScalar? s f (Yaml.nodeOf t) = s.put? f (.text t) := by
  rw [Yaml.nodeOf]
  split
  · rename_i hplain
    -- it is written without quotes only if it would be read as text
    have htext : Yaml.Scalar.ofPlain t = .text := by
      rw [Bool.and_eq_true, Bool.and_eq_true, Yaml.Scalar.isPlainText, Bool.and_eq_true] at hplain
      have := hplain.1.2.1
      split at this
      · assumption
      · cases this
    simp only [takeScalar?, htext, h]
  · simp only [takeScalar?, h]

theorem takeScalar?_whole {s : Settings} {f : Field} {old : Int64} (h : s.entry f = .whole old)
    (n : Int64) :
    takeScalar? s f (.plain (Number.intText n.toInt)) = s.put? f (.whole n) := by
  simp only [takeScalar?, Yaml.ofPlain_intText, h]

theorem takeScalar?_truth {s : Settings} {f : Field} {old : Bool} (h : s.entry f = .truth old)
    (b : Bool) :
    takeScalar? s f (.plain (String.ofList (Entry.truthText b))) = s.put? f (.truth b) := by
  have htruth : Yaml.Scalar.ofPlain (String.ofList (Entry.truthText b)) = .truth b := by
    cases b <;> rfl
  simp only [takeScalar?, htruth, h]

/-- The type of a setting decides how its node is read, and its entry is of that type. -/
theorem takes_scalar (t : Settings) (f : Field) :
    Takes t [f] fun s => takeScalar? s f (t.entry f).toNode := by
  refine (takes_put t f).congr fun s => ?_
  cases f with
  | level | policy => exact takeScalar?_text rfl _
  | noColor | statistics => exact takeScalar?_truth rfl _
  | maxDepth | workers | iterations | churn => exact takeScalar?_whole rfl _

/-- All settings are taken from the mapping, section by section. -/
theorem takes_yaml (t : Settings) :
    Takes t (layout.flatMap Group.fields) fun s => takeYaml? s t.mapping := by
  apply takes_mapping t nodup_names
  intro g hg
  have htakes := takes_mapping t (nodup_keys g hg) fun f _ => t.takes_scalar f
  rw [List.flatMap_singleton'] at htakes
  exact htakes

theorem decode?_yaml_of_hides {s : Settings} {f : Field} (h : (s.entry f).hides = true) :
    decode? .yaml (s.encode .yaml) = none := by
  rw [decode?, read?_yaml_of_hides h]
  rfl

/-- Otherwise YAML gives back any settings as well. -/
theorem decode?_yaml_of_not_hides {s : Settings} (h : ∀ f, (s.entry f).hides = false) :
    decode? .yaml (s.encode .yaml) = some s := by
  rw [decode?, read?_yaml_of_not_hides h]
  exact eq_of_takes_layout s.takes_yaml {}

/-! ### Settings that make sense -/

/-- No name of a level has a line end in it, in either case. -/
theorem feed_notMem_lower {s : String} {l : LogLevel} (h : l.name = Text.lower s) :
    '\n' ∉ s.toList := by
  intro hfeed
  have hlower : '\n' ∈ l.name.toList := by
    rw [h, Text.lower, String.toList_ofList]
    exact List.mem_map.2 ⟨'\n', hfeed, by decide⟩
  revert hlower
  cases l <;> decide

/-- The name of a level is one word, so no literal block. -/
theorem not_hides_level {s : Settings} (h : s.validate = .ok ()) :
    Yaml.hidesIndent s.level.toList = false := by
  cases hparse : LogLevel.parse? s.level with
  | none =>
    rw [validate, hparse] at h
    cases h
  | some l =>
    have hname : (l.name == Text.lower s.level) = true :=
      List.find?_some (p := fun l : LogLevel => l.name == Text.lower s.level) hparse
    have hfeed : s.level.toList.contains '\n' = false := by
      rw [Bool.eq_false_iff]
      intro hmem
      exact feed_notMem_lower (eq_of_beq hname) (List.contains_iff_mem.1 hmem)
    rw [Yaml.hidesIndent, hfeed]
    rfl

/-- Settings that make sense, written in a format and read in the same one over the defaults, come
back exactly and still make sense.  The one exception is a policy that YAML writes as a literal
block and that starts with a tab: that text is not read at all. -/
theorem parse_encode_of_valid (s : Settings) (h : s.validate = .ok ()) (f : FileFormat) :
    parse? f (s.encode f) =
      if f = .yaml ∧ Yaml.hidesIndent s.policy.toList = true then none else some (s, .ok ()) := by
  rw [parse?]
  cases f with
  | toml =>
    rw [decode?_toml, if_neg (by simp), Option.map_some, h]
  | yaml =>
    by_cases hpolicy : Yaml.hidesIndent s.policy.toList = true
    · rw [if_pos ⟨rfl, hpolicy⟩, decode?_yaml_of_hides (f := .policy) hpolicy]
      rfl
    · have hentries : ∀ f, (s.entry f).hides = false := by
        intro f
        cases f with
        | level => exact not_hides_level h
        | policy => exact Bool.eq_false_iff.2 hpolicy
        | noColor | statistics | maxDepth | workers | iterations | churn => rfl
      rw [if_neg (fun hf => hpolicy hf.2), decode?_yaml_of_not_hides hentries, Option.map_some, h]

/-- Settings far from the defaults, with a policy that YAML writes as a literal block. -/
def wide : Settings where
  level := "WaRn"
  noColor := true
  statistics := false
  policy := "\n  Permissive\u2029\t"
  maxDepth := 9223372036854775807
  workers := 1
  iterations := 0
  churn := 0

theorem parse_encode_of_valid_wide :
    wide.validate = .ok () ∧ ∀ f, parse? f (wide.encode f) = some (wide, .ok ()) := by
  have hvalid : wide.validate = .ok () := by rfl
  have hpolicy : ¬ Yaml.hidesIndent wide.policy.toList = true := by decide +kernel
  refine ⟨hvalid, ?_⟩
  intro f
  have hread := parse_encode_of_valid wide hvalid f
  rw [if_neg (fun hf => hpolicy hf.2)] at hread
  exact hread

/-- A tab in front of the policy and a line end behind it. -/
def tabbed : Settings := { policy := "\tstrict\n" }

/-- These settings make sense, and TOML keeps them, but what YAML writes is not read. -/
theorem tabbed_policy_unreadable :
    tabbed.validate = .ok () ∧ parse? .toml (tabbed.encode .toml) = some (tabbed, .ok ()) ∧
      parse? .yaml (tabbed.encode .yaml) = none := by
  have hvalid : tabbed.validate = .ok () := by rfl
  have hpolicy : (tabbed.entry .policy).hides = true := by decide +kernel
  refine ⟨hvalid, ?_, ?_⟩
  · rw [parse?, tabbed.decode?_toml, Option.map_some, hvalid]
  · rw [parse?, decode?_yaml_of_hides hpolicy]
    rfl

end Settings

end CommandHost
