/-
CommandHost/Proofs/YamlDocument.lean

YAML documents that are written read back as themselves.

A document here is a block mapping whose values are scalars or block mappings again.
What is said of a value (`Stands`) is what the reader of the mapping around it needs: from
behind the colon of its key the value is read, or the text is refused, and the next token
is the next word.  A mapping of values that stand below their keys stands below its own
key (`stands_mapping`), so one lemma serves for every level.
-/
import CommandHost.Proofs.YamlLiteral

namespace CommandHost.Yaml

/-! ### Keys -/

/-- A word of letters and underscores, which starts with a letter. -/
structure IsName (key : String) : Prop where
  starts : ∃ c cs, key.toList = c :: cs ∧ c.isAlpha = true
  chars : ∀ c ∈ key.toList, c.isAlpha = true ∨ c = '_'

/-- Whether a key is a name can be computed. -/
theorem IsName.of_all {key : String} (h : ((key.toList.head?.map Char.isAlpha).getD false &&
    key.toList.all fun c => c.isAlpha || c == '_') = true) : IsName key := by
  rw [Bool.and_eq_true, List.all_eq_true] at h
  constructor
  · cases hkey : key.toList with
    | nil =>
      rw [hkey] at h
      exact absurd h.1 (by decide)
    | cons c cs =>
      rw [hkey] at h
      exact ⟨c, cs, rfl, h.1⟩
  · intro c hc
    simpa using h.2 c hc

theorem IsName.isWord {key : String} (h : IsName key) (k : Nat) (rest : List Char) :
    IsWord k (key.toList ++ rest) := by
  obtain ⟨c, cs, hkey, hc⟩ := h.starts
  exact .inr ⟨c, cs ++ rest, by rw [hkey]; rfl, hc⟩

/-- The markers of documents are dashes or dots. -/
theorem startsMarker_of_isAlpha {c : Char} (h : c.isAlpha = true ∨ c = '_') (cs : List Char) :
    startsMarker (c :: cs) = false := by
  unfold startsMarker
  split
  · rename_i heq
    rw [(List.cons.inj heq).1] at h
    exact absurd h (by decide)
  · rename_i heq
    rw [(List.cons.inj heq).1] at h
    exact absurd h (by decide)
  · rfl

/-- A plain scalar stops in front of a colon with a gap behind it. -/
theorem plain_key {cs : List Char} (h : ∀ c ∈ cs, c.isAlpha = true ∨ c = '_') (low line : Nat)
    (column : Nat) {rest : List Char} (hrest : atGap rest = true) :
    plain false low .none line column (cs ++ ':' :: rest) =
      some ⟨cs, line, column + cs.length, ':' :: rest⟩ := by
  induction cs generalizing column with
  | nil =>
    rw [List.nil_append, plain, if_neg (by decide), if_neg (by decide), if_pos]
    · rfl
    · simp [stopsPlain, hrest]
  | cons c cs ih =>
    have hc := h c (by simp)
    have hplain : isBreak c = false ∧ isBlank c = false ∧ (c == ':') = false := by
      rcases hc with hc | rfl
      · exact ⟨isBreak_of_isAlpha hc, isBlank_of_isAlpha hc,
          beq_eq_false_iff_ne.2 (isAlpha_ne hc (by decide))⟩
      · decide
    -- neither the colon nor a comment is reached yet
    have hstop : stopsPlain false c (cs ++ ':' :: rest) = false := by
      rw [stopsPlain, hplain.2.2]
      rfl
    rw [List.cons_append, plain, hplain.1, if_neg (by decide), hplain.2.1, if_neg (by decide),
      startsMarker_of_isAlpha hc, hstop, if_neg (by simp [Gap.isNone, Gap.isBroken]),
      ih (fun d hd => h d (by simp [hd]))]
    simp [Scanned.after, Gap.text, Nat.add_assoc, Nat.add_comm 1]

theorem atEnd_of_isAlpha {c : Char} (h : c.isAlpha = true) (line column : Nat) (cs : List Char) :
    Cursor.atEnd ⟨line, column, c :: cs⟩ = false := by
  rw [Cursor.atEnd]
  show (false || (column == 0 && startsMarker (c :: cs))) = false
  rw [startsMarker_of_isAlpha (.inl h), Bool.and_false, Bool.or_false]

/-- A scalar that starts with a letter needs no quotes for it. -/
theorem startsPlain_of_isAlpha {c : Char} (h : c.isAlpha = true) (cs : List Char) :
    startsPlain false c cs = true := by
  unfold startsPlain
  split
  · cases h
  · cases h
  · cases h
  · rw [isBlank_of_isAlpha h, isBreak_of_isAlpha h, Bool.not_false, Bool.and_true, Bool.and_true,
      Bool.not_eq_true', decide_eq_false_iff_not]
    intro hmem
    -- none of the marks is a letter
    have hmarks : [',', '[', ']', '\x7b', '\x7d', '#', '&', '*', '!', '|', '>', '\'', '"', '%',
        '@', '\x60'].all (!·.isAlpha) = true := by decide
    have hother := List.all_eq_true.1 hmarks c hmem
    rw [h] at hother
    cases hother

/-- What starts like a plain scalar is read as one. -/
theorem inner?_plain {c : Char} {cs : List Char} (h : startsPlain false c cs = true)
    (fuel low line column : Nat) (hend : Cursor.atEnd ⟨line, column, c :: cs⟩ = false) :
    inner? (fuel + 1) false low ⟨line, column, c :: cs⟩ =
      plainNode (plain false low .none line column (c :: cs)) := by
  rw [inner?.eq_def]
  dsimp only
  split
  case h_6 =>
    rename_i heq
    obtain ⟨rfl, rfl⟩ := List.cons.inj heq
    rw [hend, h]
    rfl
  all_goals
    rename_i heq
    cases heq
  all_goals cases h

/-- A name is read up to its colon. -/
theorem inner?_key {key : String} (h : IsName key) (fuel low line column : Nat)
    {rest : List Char} (hrest : atGap rest = true) :
    inner? (fuel + 1) false low ⟨line, column, key.toList ++ ':' :: rest⟩ =
      some (.plain key, ⟨line, column + key.toList.length, ':' :: rest⟩) := by
  obtain ⟨c, cs, hkey, hc⟩ := h.starts
  have hread := plain_key h.chars low line column hrest
  rw [hkey, List.cons_append] at hread ⊢
  rw [inner?_plain (startsPlain_of_isAlpha hc _) _ _ _ _ (atEnd_of_isAlpha hc _ _ _), hread]
  show some (Node.plain (String.ofList (c :: cs)), _) = _
  rw [← hkey, String.ofList_toList]

theorem inBlock?_colon (line column : Nat) (rest : List Char) :
    Cursor.inBlock? ⟨line, column, ':' :: rest⟩ true = some ⟨line, column, ':' :: rest⟩ := rfl

/-! ### Values -/

/-- A reader gave this node and stopped in front of the next word, or refused the text. -/
def Yields (r : Option (Node × Cursor)) (n : Option Node) (k : Nat) (word : List Char) : Prop :=
  match n with
  | some n => ∃ q line, r = some (n, q) ∧ q.inBlock? true = some ⟨line, k, word⟩
  | none => r = none

/-- What stands behind the colon of a key at column `k` is read as a node, or refused, whatever word
comes next that is not indented further than the key. -/
def Stands (k need : Nat) (cs : List Char) (n : Option Node) : Prop :=
  ∀ fuel line column j word, need ≤ fuel → k < column → j ≤ k → IsWord j word →
    ∃ p, Cursor.inBlock? ⟨line, column, cs ++ (List.replicate j ' ' ++ word)⟩ true = some p ∧
      Yields (node? fuel (k + 1) true (p.line != line) p) n j word

/-- A key of a mapping at column `k` and its value. -/
structure Pair (k need : Nat) where
  key : String
  value : List Char
  node : Option Node
  isName : IsName key
  gap : ∀ rest, atGap (value ++ rest) = true
  stands : Stands k need value node

namespace Pair

variable {k need : Nat}

def render (p : Pair k need) : List Char :=
  List.replicate k ' ' ++ (p.key.toList ++ ':' :: p.value)

/-- The key with the node of its value. -/
def entry (p : Pair k need) : Option (Node × Node) := p.node.map fun n => (.plain p.key, n)

end Pair

/-! ### Mappings -/

/-- The text ends where there is no next word. -/
theorem atEnd_word {k : Nat} {word : List Char} (h : IsWord k word) (line column : Nat) :
    Cursor.atEnd ⟨line, column, word⟩ = word.isEmpty := by
  rcases h with ⟨rfl, -⟩ | ⟨c, cs, rfl, hc⟩
  · rfl
  · exact atEnd_of_isAlpha hc line column cs

/-- Reading a key and what stands behind its colon. -/
theorem blockMapping?_key {k need : Nat} (p : Pair k need) (fuel : Nat)
    (entries : List (Node × Node)) (line : Nat) (rest : List Char) :
    blockMapping? (fuel + 2) k entries ⟨line, k, p.key.toList ++ ':' :: (p.value ++ rest)⟩ =
      (Cursor.inBlock? ⟨line, k + p.key.toList.length + 1, p.value ++ rest⟩ true).bind fun v =>
        (node? (fuel + 1) (k + 1) true (v.line != line) v).bind fun r =>
          (r.2.inBlock? true).bind fun q =>
            if q.atEnd || q.column < k then some (.mapping (entries ++ [(.plain p.key, r.1)]), q)
            else if q.column = k then
              blockMapping? (fuel + 1) k (entries ++ [(.plain p.key, r.1)]) q
            else none := by
  -- the colon is on the line of its key, with a gap behind it
  have hcolon : ¬ ((decide (line ≠ line) || !Cursor.atColon ⟨line, k + p.key.toList.length,
      ':' :: (p.value ++ rest)⟩) = true) := by
    simp [Cursor.atColon, p.gap rest]
  rw [blockMapping?, inner?_key p.isName fuel k line k (p.gap rest)]
  simp only [Option.bind_eq_bind, Option.bind_some, inBlock?_colon]
  rw [if_neg hcolon]
  rfl

/-- A pair: refused if its value is; otherwise the mapping is over, or goes on with the next key. -/
theorem blockMapping?_pair {k need : Nat} (p : Pair k need) {fuel : Nat} (hfuel : need ≤ fuel + 1)
    (entries : List (Node × Node)) (line : Nat) {j : Nat} {word : List Char} (hj : j ≤ k)
    (hword : IsWord j word) :
    (p.entry = none → blockMapping? (fuel + 2) k entries
        ⟨line, k, p.key.toList ++ ':' :: (p.value ++ (List.replicate j ' ' ++ word))⟩ = none) ∧
      ∀ e, p.entry = some e → ∃ line', blockMapping? (fuel + 2) k entries
          ⟨line, k, p.key.toList ++ ':' :: (p.value ++ (List.replicate j ' ' ++ word))⟩ =
        if word = [] ∨ j < k then some (.mapping (entries ++ [e]), ⟨line', j, word⟩)
        else blockMapping? (fuel + 1) k (entries ++ [e]) ⟨line', j, word⟩ := by
  obtain ⟨v, hv, hyields⟩ := p.stands (fuel + 1) line (k + p.key.toList.length + 1) j word hfuel
    (by omega) hj hword
  rw [blockMapping?_key, hv, Option.bind_some, Pair.entry]
  cases hnode : p.node with
  | none =>
    rw [hnode] at hyields
    have hread : node? (fuel + 1) (k + 1) true (v.line != line) v = none := hyields
    rw [hread]
    refine ⟨fun _ => rfl, ?_⟩
    intro e he
    cases he
  | some n =>
    rw [hnode] at hyields
    obtain ⟨q, line', hread, hq⟩ := hyields
    rw [hread, Option.bind_some, hq, Option.bind_some, atEnd_word hword]
    constructor
    · intro h
      cases h
    rintro e ⟨⟩
    refine ⟨line', ?_⟩
    -- the next word ends the mapping unless it is a key at the same column
    by_cases hlast : word = [] ∨ j < k
    · rw [if_pos (by simpa using hlast), if_pos hlast]
    · have hcolumn : j = k := by omega
      rw [if_neg (by simpa using hlast), if_neg hlast, if_pos hcolumn]

/-- The entries of a mapping, in the order they are read; one that is refused refuses all. -/
def entriesOf {k need : Nat} (ps : List (Pair k need)) : Option (List (Node × Node)) :=
  ps.mapM Pair.entry

theorem entriesOf_cons {k need : Nat} (p : Pair k need) (ps : List (Pair k need)) :
    entriesOf (p :: ps) = p.entry.bind fun e => (entriesOf ps).map (e :: ·) := by
  rw [entriesOf, List.mapM_cons]
  cases p.entry with
  | none => rfl
  | some e =>
    show ((ps.mapM Pair.entry).bind fun es => some (e :: es)) = _
    cases h : ps.mapM Pair.entry <;> simp [entriesOf, h]

/-- If no entry is refused, they are all read. -/
theorem entriesOf_map {α : Type} {k need : Nat} {pair : α → Pair k need} {entry : α → Node × Node}
    {xs : List α} (h : ∀ x ∈ xs, (pair x).entry = some (entry x)) :
    entriesOf (xs.map pair) = some (xs.map entry) := by
  induction xs with
  | nil => rfl
  | cons x xs ih =>
    rw [List.map_cons, entriesOf_cons, h x (by simp), ih fun y hy => h y (by simp [hy])]
    rfl

/-- If one entry is refused, so are all. -/
theorem entriesOf_eq_none {k need : Nat} {ps : List (Pair k need)} {p : Pair k need} (hp : p ∈ ps)
    (h : p.entry = none) : entriesOf ps = none := by
  induction ps with
  | nil => cases hp
  | cons q ps ih =>
    rw [entriesOf_cons]
    rcases List.mem_cons.1 hp with rfl | hp
    · rw [h]
      rfl
    · rw [ih hp]
      cases q.entry <;> rfl

/-- A mapping is read pair by pair. -/
theorem blockMapping?_pairs {k need : Nat} (p : Pair k need) (ps : List (Pair k need)) {fuel : Nat}
    (hfuel : need + ps.length + 2 ≤ fuel) (entries : List (Node × Node)) (line : Nat) {j : Nat}
    {word : List Char} (hj : word = [] ∨ j < k) (hword : IsWord j word) :
    Yields (blockMapping? fuel k entries ⟨line, k, p.key.toList ++ ':' :: (p.value ++
        (ps.flatMap Pair.render ++ (List.replicate j ' ' ++ word)))⟩)
      ((entriesOf (p :: ps)).map fun es => .mapping (entries ++ es)) j word := by
  induction ps generalizing p fuel entries line with
  | nil =>
    obtain ⟨fuel, rfl⟩ : ∃ n, fuel = n + 2 := ⟨fuel - 2, by omega⟩
    -- at the end of the text the next word is empty, at the start of its line
    have hj' : j ≤ k := by
      rcases hj with rfl | hj
      · rcases hword with ⟨-, rfl⟩ | ⟨c, cs, h, -⟩
        · exact Nat.zero_le k
        · cases h
      · exact Nat.le_of_lt hj
    have hneed : need ≤ fuel + 1 := by
      rw [List.length_nil] at hfuel
      omega
    obtain ⟨hnone, hsome⟩ := blockMapping?_pair p hneed entries line hj' hword
    rw [entriesOf_cons]
    cases hentry : p.entry with
    | none => exact hnone hentry
    | some e =>
      obtain ⟨line', hread⟩ := hsome e hentry
      rw [if_pos hj] at hread
      exact ⟨_, line', hread, inBlock?_word hword true line' j 0⟩
  | cons p' ps ih =>
    obtain ⟨fuel, rfl⟩ : ∃ n, fuel = n + 2 := ⟨fuel - 2, by omega⟩
    rw [List.length_cons] at hfuel
    -- the next key stands at the same column
    have htext : (p' :: ps).flatMap Pair.render ++ (List.replicate j ' ' ++ word) =
        List.replicate k ' ' ++ (p'.key.toList ++ ':' :: (p'.value ++
          (ps.flatMap Pair.render ++ (List.replicate j ' ' ++ word)))) := by
      simp [Pair.render]
    obtain ⟨c, cs, hkey, hc⟩ := p'.isName.starts
    have hne : ¬ (p'.key.toList ++ ':' :: (p'.value ++
        (ps.flatMap Pair.render ++ (List.replicate j ' ' ++ word))) = [] ∨ k < k) := by
      simp
    have hneed : need ≤ fuel + 1 := by omega
    obtain ⟨hnone, hsome⟩ := blockMapping?_pair p hneed entries line (Nat.le_refl k)
      (p'.isName.isWord k (':' :: (p'.value ++
        (ps.flatMap Pair.render ++ (List.replicate j ' ' ++ word)))))
    rw [htext, entriesOf_cons]
    cases hentry : p.entry with
    | none => exact hnone hentry
    | some e =>
      obtain ⟨line', hread⟩ := hsome e hentry
      rw [if_neg hne] at hread
      have hfuel' : need + ps.length + 2 ≤ fuel + 1 := by omega
      have hrest := ih p' hfuel' (entries ++ [e]) line'
      rw [hread, Option.bind_some, Option.map_map]
      -- the entry is at the end of those before and in front of those to come
      have hentries : ((fun es => Node.mapping (entries ++ es)) ∘ fun es => e :: es) =
          fun es => Node.mapping (entries ++ [e] ++ es) := by
        funext es
        simp
      rw [hentries]
      exact hrest

/-- A token that starts with a letter is no item of a sequence. -/
theorem atDash_of_isAlpha {c : Char} (h : c.isAlpha = true) (line column : Nat) (cs : List Char) :
    Cursor.atDash ⟨line, column, c :: cs⟩ = false := by
  unfold Cursor.atDash
  split
  · rename_i heq
    rw [(List.cons.inj heq).1] at h
    cases h
  · rfl

/-- A mapping is found where its first key stands. -/
theorem node?_mapping {k need : Nat} (p : Pair k need) (fuel : Nat) {low : Nat} (hlow : low ≤ k)
    (dashes : Bool) (line : Nat) (rest : List Char) :
    node? (fuel + 2) low dashes true ⟨line, k, p.key.toList ++ ':' :: (p.value ++ rest)⟩ =
      blockMapping? (fuel + 1) k [] ⟨line, k, p.key.toList ++ ':' :: (p.value ++ rest)⟩ := by
  have hinner := inner?_key p.isName fuel low line k (p.gap rest)
  obtain ⟨c, cs, hkey, hc⟩ := p.isName.starts
  rw [hkey, List.cons_append] at hinner ⊢
  rw [node?, atEnd_of_isAlpha hc, if_neg (by decide), atDash_of_isAlpha hc, Bool.false_and,
    if_neg (by decide), if_neg (Nat.not_lt.2 hlow)]
  split
  · rename_i heq
    rw [(List.cons.inj heq).1] at hc
    cases hc
  · rename_i heq
    rw [(List.cons.inj heq).1] at hc
    cases hc
  · rw [hinner]
    simp only [Option.bind_eq_bind, Option.bind_some, inBlock?_colon, Cursor.atColon, p.gap rest]
    simp

/-- The lines of a mapping start with the word of its first key, and there the mapping is read. -/
theorem node?_pairs {k need : Nat} {ps : List (Pair k need)} (hne : ps ≠ []) {fuel low : Nat}
    (hfuel : need + ps.length + 2 ≤ fuel) (hlow : low ≤ k) (dashes : Bool) (line : Nat) {j : Nat}
    {word : List Char} (hj : word = [] ∨ j < k) (hword : IsWord j word) :
    ∃ cs, ps.flatMap Pair.render ++ (List.replicate j ' ' ++ word) = List.replicate k ' ' ++ cs ∧
      IsWord k cs ∧
      Yields (node? fuel low dashes true ⟨line, k, cs⟩)
        ((entriesOf ps).map fun es => .mapping es) j word := by
  obtain ⟨p, ps, rfl⟩ := List.exists_cons_of_ne_nil hne
  rw [List.length_cons] at hfuel
  obtain ⟨fuel, rfl⟩ : ∃ n, fuel = n + 2 := ⟨fuel - 2, by omega⟩
  refine ⟨p.key.toList ++ ':' :: (p.value ++
    (ps.flatMap Pair.render ++ (List.replicate j ' ' ++ word))), ?_, ?_, ?_⟩
  · simp [Pair.render]
  · exact p.isName.isWord k _
  · rw [node?_mapping p fuel hlow]
    have hfuel' : need + ps.length + 2 ≤ fuel + 1 := by omega
    exact blockMapping?_pairs p ps hfuel' [] line hj hword

/-- Behind a line end the next word is found, at its column. -/
theorem inBlock?_line {k : Nat} {word : List Char} (h : IsWord k word) (tabs : Bool)
    (line column n : Nat) :
    Cursor.inBlock? ⟨line, column, '\n' :: (List.replicate n ' ' ++ word)⟩ tabs =
      some ⟨line + 1, n, word⟩ := by
  have hnext := inBlock?_word h false (line + 1) 0 n
  rw [Nat.zero_add] at hnext
  exact hnext

/-- More fuel does no harm. -/
theorem Stands.mono {k need need' : Nat} {cs : List Char} {n : Option Node} (h : Stands k need cs n)
    (hneed : need ≤ need') : Stands k need' cs n := by
  intro fuel line column j word hfuel
  exact h fuel line column j word (Nat.le_trans hneed hfuel)

/-- A mapping on the lines below its key. -/
theorem stands_mapping {k m need : Nat} (ps : List (Pair m need)) (hne : ps ≠ []) (hm : k < m) :
    Stands k (need + ps.length + 2) ('\n' :: ps.flatMap Pair.render)
      ((entriesOf ps).map fun es => .mapping es) := by
  intro fuel line column j word hfuel _ hj hword
  obtain ⟨cs, htext, hfirst, hyields⟩ := node?_pairs hne hfuel hm true (line + 1)
    (.inr (Nat.lt_of_le_of_lt hj hm)) hword
  refine ⟨⟨line + 1, m, cs⟩, ?_, ?_⟩
  · rw [List.cons_append, htext]
    exact inBlock?_line hfirst true line column m
  · rw [show (line + 1 != line) = true by simp]
    exact hyields

/-! ### Scalars -/

/-- A scalar on the line of its key. -/
theorem Stands.of_first {k : Nat} {c : Char} {cs : List Char} {n : Option Node}
    (hspace : c ≠ ' ') (htab : c ≠ '\t') (hhash : c ≠ '#') (hbreak : isBreak c = false)
    (h : ∀ fuel line column j word, k < column → j ≤ k → IsWord j word →
      Yields (node? (fuel + 2) (k + 1) true false
        ⟨line, column, c :: (cs ++ (List.replicate j ' ' ++ word))⟩) n j word) :
    Stands k 2 (' ' :: c :: cs) n := by
  intro fuel line column j word hfuel hcolumn hj hword
  obtain ⟨fuel, rfl⟩ : ∃ n, fuel = n + 2 := ⟨fuel - 2, by omega⟩
  refine ⟨⟨line, column + 1, c :: (cs ++ (List.replicate j ' ' ++ word))⟩, ?_, ?_⟩
  · -- the blank behind the colon is skipped, and nothing else
    have hskip : skip false true false line (column + 1)
        (c :: (cs ++ (List.replicate j ' ' ++ word))) =
        ⟨line, column + 1, c :: (cs ++ (List.replicate j ' ' ++ word))⟩ := by
      rw [skip, hbreak, beq_eq_false_iff_ne.2 hspace, beq_eq_false_iff_ne.2 htab,
        if_neg (by decide), if_neg (by decide), if_neg hhash]
    rw [Cursor.inBlock?]
    show (if (skip false true false line (column + 1) (c :: (cs ++ _))).rest.head? = some '\t'
      then none else some (skip false true false line (column + 1) (c :: (cs ++ _)))) = _
    rw [hskip, if_neg (by simpa using htab)]
  · rw [show (line != line) = false by simp]
    exact h fuel line (column + 1) j word (by omega) hj hword

/-- On the line of its key a value is a scalar. -/
theorem node?_scalar {c : Char} {cs : List Char} (hbar : c ≠ '|') (hfold : c ≠ '>')
    (fuel low line : Nat) {column : Nat} (hlow : low ≤ column) (hcolumn : 0 < column)
    (hdash : Cursor.atDash ⟨line, column, c :: cs⟩ = false) :
    node? (fuel + 1) low true false ⟨line, column, c :: cs⟩ =
      (inner? fuel false low ⟨line, column, c :: cs⟩).bind fun r =>
        (r.2.inBlock? true).map fun _ => r := by
  have hend : Cursor.atEnd ⟨line, column, c :: cs⟩ = false := by
    simp [Cursor.atEnd, Nat.ne_of_gt hcolumn]
  rw [node?, hend, if_neg (by decide), hdash, Bool.false_and, if_neg (by decide),
    if_neg (Nat.not_lt.2 hlow)]
  split
  · rename_i heq
    exact absurd (List.cons.inj heq).1 hbar
  · rename_i heq
    exact absurd (List.cons.inj heq).1 hfold
  · show (inner? fuel false low _).bind _ = _
    congr 1
    funext r
    show ((r.2.inBlock? true).bind fun _ => some (r.1, r.2)) = _
    cases r.2.inBlock? true <;> rfl

/-- A scalar that was read, with the next word behind it. -/
theorem yields_scalar {r : Option (Node × Cursor)} {n : Node} {q : Cursor} {line k : Nat}
    {word : List Char} (hr : r = some (n, q)) (hq : q.inBlock? true = some ⟨line, k, word⟩) :
    Yields (r.bind fun r => (r.2.inBlock? true).map fun _ => r) (some n) k word := by
  refine ⟨q, line, ?_, hq⟩
  rw [hr, Option.bind_some, hq]
  rfl

/-- A text in single quotes comes back, if it may be written so. -/
theorem stands_single {cs : List Char} (h : singleAllowed cs = true) (hfeed : '\n' ∉ cs) (k : Nat) :
    Stands k 2 (' ' :: single cs) (some (.quoted (String.ofList cs))) := by
  rw [single, List.cons_append]
  apply Stands.of_first (by decide) (by decide) (by decide) (by decide)
  intro fuel line column j word hcolumn hj hword
  rw [node?_scalar (by decide) (by decide) _ _ _ (by omega) (by omega) rfl]
  -- the quotes are read up to the line end behind them
  obtain ⟨line', column', hread⟩ := singleQuoted_text (quotable_of_singleAllowed h hfeed) line
    (column + 1) (fun _ => Nat.succ_pos _) (List.replicate j ' ' ++ word)
  apply yields_scalar (q := ⟨line', column', '\n' :: (List.replicate j ' ' ++ word)⟩)
  · rw [inner?, List.append_assoc]
    show quotedNode (singleQuoted .none line (column + 1)
      (indented true Gap.none.isBroken cs ++ '\'' :: '\n' :: (List.replicate j ' ' ++ word))) = _
    rw [hread]
    rfl
  · exact inBlock?_line hword true line' column' j

/-- A text in double quotes comes back in any case. -/
theorem stands_double (cs : List Char) (k : Nat) :
    Stands k 2 (' ' :: double cs) (some (.quoted (String.ofList cs))) := by
  rw [double, List.cons_append]
  apply Stands.of_first (by decide) (by decide) (by decide) (by decide)
  intro fuel line column j word hcolumn hj hword
  rw [node?_scalar (by decide) (by decide) _ _ _ (by omega) (by omega) rfl]
  obtain ⟨column', hread⟩ := doubleQuoted_text cs .none rfl line (Nat.zero_lt_succ column)
    ('\n' :: (List.replicate j ' ' ++ word))
  apply yields_scalar (q := ⟨line, column', '\n' :: (List.replicate j ' ' ++ word)⟩)
  · rw [inner?, List.append_assoc]
    show quotedNode (doubleQuoted .none line (column + 1)
      (cs.flatMap escaped ++ '"' :: '\n' :: (List.replicate j ' ' ++ word))) = _
    rw [hread]
    rfl
  · exact inBlock?_line hword true line column' j

section Unquoted

variable {c : Char} {cs : List Char} (h : plainAllowed (c :: cs) = true)
include h

/-- What a text that needs no quotes does not start with. -/
theorem first_of_plainAllowed :
    c ≠ ' ' ∧ c ≠ '\t' ∧ isBreak c = false ∧
      c ∉ ['#', ',', '[', ']', '\x7b', '\x7d', '&', '*', '!', '|', '>', '\'', '"', '%', '@', '\x60'] := by
  obtain ⟨hsingle, hmargin, hbreaks, hstarts, -⟩ := plainAllowed_eq_true h
  obtain ⟨-, -, htab, -⟩ := singleAllowed_eq_true hsingle
  rw [startsIndicator, Bool.or_eq_false_iff, decide_eq_false_iff_not] at hstarts
  refine ⟨?_, ?_, hbreaks c (by simp), hstarts.1⟩
  · rintro rfl
    cases hmargin
  · rintro rfl
    exact htab (by simp)

/-- Behind a dash, a question mark or a colon the text goes on without a gap. -/
theorem second_of_plainAllowed (hc : c ∈ ['?', ':', '-']) :
    ∃ d ds, cs = d :: ds ∧ isBlank d = false ∧ isBreak d = false := by
  obtain ⟨-, -, hbreaks, hstarts, -⟩ := plainAllowed_eq_true h
  rw [startsIndicator, Bool.or_eq_false_iff, decide_eq_true hc, Bool.true_and,
    Bool.or_eq_false_iff] at hstarts
  cases cs with
  | nil => exact absurd hstarts.2.1 (by decide)
  | cons d ds => exact ⟨d, ds, rfl, hstarts.2.2, hbreaks d (by simp)⟩

theorem atGap_of_plainAllowed (hc : c ∈ ['?', ':', '-']) (rest : List Char) :
    atGap (cs ++ rest) = false := by
  obtain ⟨d, ds, rfl, hblank, hbreak⟩ := second_of_plainAllowed h hc
  rw [List.cons_append, atGap, hblank, hbreak]
  rfl

/-- A text that needs no quotes is no item of a sequence. -/
theorem atDash_of_plainAllowed (line column : Nat) (rest : List Char) :
    Cursor.atDash ⟨line, column, c :: (cs ++ rest)⟩ = false := by
  unfold Cursor.atDash
  split
  · rename_i heq
    obtain ⟨rfl, rfl⟩ := List.cons.inj heq
    exact atGap_of_plainAllowed h (by decide) rest
  · rfl

/-- And it starts like a plain scalar. -/
theorem startsPlain_of_plainAllowed (rest : List Char) : startsPlain false c (cs ++ rest) = true := by
  obtain ⟨hspace, htab, hbreak, hmarks⟩ := first_of_plainAllowed h
  unfold startsPlain
  split
  · obtain ⟨d, ds, rfl, hblank, -⟩ := second_of_plainAllowed h (by decide)
    simp [hblank]
  · rw [atGap_of_plainAllowed h (by decide)]
    rfl
  · rw [atGap_of_plainAllowed h (by decide)]
    rfl
  · have hblank : isBlank c = false := by
      rw [isBlank, beq_eq_false_iff_ne.2 hspace, beq_eq_false_iff_ne.2 htab]
      rfl
    rw [hblank, hbreak, Bool.not_false, Bool.and_true, Bool.and_true, Bool.not_eq_true',
      decide_eq_false_iff_not]
    -- the writer looks for every mark that the reader knows
    have hknown : [',', '[', ']', '\x7b', '\x7d', '#', '&', '*', '!', '|', '>', '\'', '"', '%',
        '@', '\x60'].all (['#', ',', '[', ']', '\x7b', '\x7d', '&', '*', '!', '|', '>', '\'', '"',
        '%', '@', '\x60'].contains ·) = true := by decide
    intro hc
    exact hmarks (List.contains_iff_mem.1 (List.all_eq_true.1 hknown c hc))

end Unquoted

/-- A text that needs no quotes comes back without them. -/
theorem stands_plain {cs : List Char} (h : plainAllowed cs = true) (hne : cs ≠ []) (k : Nat) :
    Stands k 2 (' ' :: (cs ++ ['\n'])) (some (.plain (String.ofList cs))) := by
  obtain ⟨c, cs, rfl⟩ := List.exists_cons_of_ne_nil hne
  obtain ⟨hspace, htab, hbreak, hmarks⟩ := first_of_plainAllowed h
  have hmark : ∀ {d : Char}, d ∈ ['#', ',', '[', ']', '\x7b', '\x7d', '&', '*', '!', '|', '>', '\'',
      '"', '%', '@', '\x60'] → c ≠ d := by
    rintro d hd rfl
    exact hmarks hd
  rw [List.cons_append]
  apply Stands.of_first hspace htab (hmark (by decide)) hbreak
  intro fuel line column j word hcolumn hj hword
  rw [List.append_assoc, List.singleton_append]
  have hdash := atDash_of_plainAllowed h line column ('\n' :: (List.replicate j ' ' ++ word))
  have hstarts := startsPlain_of_plainAllowed h ('\n' :: (List.replicate j ' ' ++ word))
  have hend : Cursor.atEnd ⟨line, column, c :: (cs ++ '\n' :: (List.replicate j ' ' ++ word))⟩ =
      false := by
    simp [Cursor.atEnd, Nat.ne_of_gt (show 0 < column by omega)]
  have hread := plain_text hword (Nat.lt_succ_of_le hj) line
    (show 0 < column by omega) (unquoted_of_plainAllowed h)
  rw [node?_scalar (hmark (by decide)) (hmark (by decide)) _ _ _ (by omega) (by omega) hdash]
  apply yields_scalar (q := ⟨line + 1, j, word⟩)
  · rw [inner?_plain hstarts _ _ _ _ hend, ← List.cons_append, hread]
    rfl
  · exact inBlock?_word hword true (line + 1) j 0

/-- A literal block below a key at column two: read, unless it starts with a tab. -/
theorem stands_block {cs : List Char} (hne : cs ≠ []) :
    Stands 2 2 (' ' :: block cs)
      (if cs.head? = some '\t' then none else some (.quoted (String.ofList cs))) := by
  have hblock := block_append cs []
  rw [List.append_nil, List.append_nil] at hblock
  rw [hblock]
  apply Stands.of_first (by decide) (by decide) (by decide) (by decide)
  intro fuel line column j word hcolumn hj hword
  -- a bar starts a literal block
  have hnode : ∀ rest, node? (fuel + 2) (2 + 1) true false ⟨line, column, '|' :: rest⟩ =
      quotedNode (block? false 3 line rest) := by
    intro rest
    have hend : Cursor.atEnd ⟨line, column, '|' :: rest⟩ = false := by
      simp [Cursor.atEnd, startsMarker]
    rw [node?, hend, if_neg (by decide)]
    show (if (false && _) = true then _ else _) = _
    rw [Bool.false_and, if_neg (by decide), if_neg (show ¬ column < 3 by omega)]
    rfl
  have htext : (blockHints cs ++ '\n' :: (indented false true cs ++ closing cs)) ++
      (List.replicate j ' ' ++ word) =
      blockHints cs ++ '\n' :: (indented false true cs ++
        (closing cs ++ (List.replicate j ' ' ++ word))) := by
    simp
  rw [hnode, htext]
  by_cases htab : cs.head? = some '\t'
  · rw [if_pos htab, block?_of_tab htab]
    rfl
  · obtain ⟨line', hread⟩ := block?_text hne htab hword (by omega) line
    rw [if_neg htab, hread]
    exact ⟨_, line', rfl, inBlock?_word hword true line' j 0⟩

/-- A text that is written as a literal block and starts with a tab.  The block does not tell its
indent, and its reader cannot find it. -/
def hidesIndent (cs : List Char) : Bool :=
  cs.contains '\n' && blockAllowed cs && cs.head? == some '\t'

/-- The node a text comes back as: in quotes, unless it was written without them. -/
def nodeOf (s : String) : Node :=
  if !s.toList.contains '\n' && Scalar.isPlainText s && plainAllowed s.toList then .plain s
  else .quoted s

theorem ne_nil_of_isPlainText {s : String} (h : Scalar.isPlainText s = true) : s.toList ≠ [] := by
  intro hnil
  have hs : s = "" := String.toList_eq_nil_iff.1 hnil
  rw [hs] at h
  exact absurd h (by decide)

/-- A text comes back, however it is written, unless it hides its indent. -/
theorem stands_writeText (s : String) :
    Stands 2 2 (' ' :: writeText s)
      (if hidesIndent s.toList then none else some (nodeOf s)) := by
  have hs : String.ofList s.toList = s := String.ofList_toList
  have hdouble := stands_double s.toList 2
  rw [hs] at hdouble
  rw [writeText, hidesIndent, nodeOf]
  -- the cases are those of the writer
  cases hfeed : s.toList.contains '\n' with
  | true =>
    have hne : s.toList ≠ [] := by
      intro hnil
      rw [hnil] at hfeed
      cases hfeed
    cases hblock : blockAllowed s.toList with
    | true =>
      have hread := stands_block hne
      rw [hs] at hread
      simpa using hread
    | false => exact hdouble
  | false =>
    have hfeed' : '\n' ∉ s.toList := by
      intro hmem
      rw [List.contains_iff_mem.2 hmem] at hfeed
      cases hfeed
    cases hword : Scalar.isPlainText s with
    | false => exact hdouble
    | true =>
      cases hplain : plainAllowed s.toList with
      | true =>
        have hread := stands_plain hplain (ne_nil_of_isPlainText hword) 2
        rw [hs] at hread
        exact hread
      | false =>
        cases hsingle : singleAllowed s.toList with
        | true =>
          have hread := stands_single hsingle hfeed' 2
          rw [hs] at hread
          exact hread
        | false => exact hdouble

/-! ### Characters -/

/-- A character that a text may hold and that normalising leaves alone. -/
def IsKept (c : Char) : Prop := isWritable c = true ∨ c = '\t'

theorem IsKept.isAllowed {c : Char} (h : IsKept c) : isAllowed c = true := by
  rcases h with h | rfl
  · simp only [isWritable, Bool.or_eq_true, Bool.and_eq_true, decide_eq_true_eq, beq_iff_eq,
      bne_iff_ne] at h
    simp only [Yaml.isAllowed, Bool.or_eq_true, Bool.and_eq_true, decide_eq_true_eq, beq_iff_eq]
    omega
  · decide

/-- Line ends of other kinds are what normalising changes. -/
theorem normalize_eq_self {cs : List Char} (h : ∀ c ∈ cs, IsKept c) : normalize cs = cs := by
  induction cs with
  | nil => rfl
  | cons c cs ih =>
    have hc := h c (by simp)
    have hreturn : c ≠ '\r' ∧ c ≠ '\u0085' := by
      constructor
      · rintro rfl
        exact absurd hc (by unfold IsKept; decide)
      · rintro rfl
        exact absurd hc (by unfold IsKept; decide)
    rw [normalize, ih fun d hd => h d (by simp [hd])]
    · intro rest hc'
      exact absurd hc' hreturn.1
    · exact hreturn.1
    · exact hreturn.2

theorem isKept_of_isAlpha {c : Char} (h : c.isAlpha = true ∨ c = '_') : IsKept c := by
  rcases h with h | rfl
  · exact .inl (isWritable_of_isVisible (isVisible_of_isAlpha h))
  · exact .inl rfl

/-- A text without special characters has such characters only. -/
theorem isKept_of_hasSpecial {cs : List Char} (h : hasSpecial cs = false) : ∀ c ∈ cs, IsKept c := by
  intro c hc
  rw [hasSpecial, List.any_eq_false] at h
  have := h c hc
  by_cases htab : c = '\t'
  · exact .inr htab
  · left
    simpa [htab] using this

/-- Indenting adds blanks, and doubles quotes at most. -/
theorem mem_indented {double lineStart : Bool} {cs : List Char} {c : Char}
    (h : c ∈ indented double lineStart cs) : c ∈ cs ∨ c = ' ' := by
  induction cs generalizing lineStart with
  | nil => cases h
  | cons d cs ih =>
    rw [indented] at h
    split at h
    · rcases List.mem_cons.1 h with rfl | h
      · exact .inl (by simp)
      · rcases ih h with h | h
        · exact .inl (by simp [h])
        · exact .inr h
    · rw [List.mem_append, List.mem_append] at h
      rcases h with (h | h) | h
      · split at h
        · exact .inr (List.eq_of_mem_replicate h)
        · cases h
      · left
        split at h
        · rename_i hquote
          rw [Bool.and_eq_true, beq_iff_eq] at hquote
          simp only [List.mem_cons, List.not_mem_nil, or_false, or_self] at h
          rw [h, hquote.2]
          simp
        · rw [List.mem_singleton.1 h]
          simp
      · rcases ih h with h | h
        · exact .inl (by simp [h])
        · exact .inr h

/-- The hexadecimal digits of an escape. -/
theorem isKept_hexDigits {width n : Nat} {mark d : Char} (hmark : isWritable mark = true)
    (h : d ∈ '\\' :: mark :: (Text.hexDigits width n).map Char.toUpper) : IsKept d := by
  have hdigits : ∀ v < 16, isWritable (Nat.digitChar v).toUpper = true := by decide
  left
  rcases List.mem_cons.1 h with rfl | h
  · rfl
  · rcases List.mem_cons.1 h with rfl | h
    · exact hmark
    · obtain ⟨x, hx, rfl⟩ := List.mem_map.1 h
      obtain ⟨v, hv, rfl⟩ := Text.mem_hexDigits hx
      exact hdigits v hv

/-- What is escaped is written in visible characters. -/
theorem isKept_escaped {c d : Char} (h : d ∈ escaped c) : IsKept d := by
  have hpair : ∀ mark, isWritable mark = true → d ∈ ['\\', mark] → IsKept d := by
    intro mark hmark hd
    simp only [List.mem_cons, List.not_mem_nil, or_false] at hd
    rcases hd with rfl | rfl
    · exact .inl rfl
    · exact .inl hmark
  unfold escaped at h
  split at h
  · exact hpair _ rfl h
  · exact hpair _ rfl h
  · split at h
    · rename_i hc
      rw [List.mem_singleton.1 h]
      exact .inl (Bool.and_eq_true_iff.1 hc).1
    · split at h
      case h_13 =>
        dsimp only at h
        split at h
        · exact isKept_hexDigits rfl h
        · split at h
          · exact isKept_hexDigits rfl h
          · exact isKept_hexDigits rfl h
      all_goals exact hpair _ rfl h

theorem isKept_double {cs : List Char} {c : Char} (h : c ∈ double cs) : IsKept c := by
  simp only [double, List.mem_append, List.mem_cons, List.mem_flatMap, List.not_mem_nil,
    or_false] at h
  rcases h with (rfl | ⟨d, -, h⟩) | rfl | rfl
  · exact .inl rfl
  · exact isKept_escaped h
  · exact .inl rfl
  · exact .inl rfl

theorem isKept_single {cs : List Char} (hcs : ∀ c ∈ cs, IsKept c) {c : Char} (h : c ∈ single cs) :
    IsKept c := by
  simp only [single, List.mem_append, List.mem_cons, List.not_mem_nil, or_false] at h
  rcases h with (rfl | h) | rfl | rfl
  · exact .inl rfl
  · rcases mem_indented h with h | rfl
    · exact hcs c h
    · exact .inl rfl
  · exact .inl rfl
  · exact .inl rfl

theorem isKept_block {cs : List Char} (hne : cs ≠ []) (hcs : ∀ c ∈ cs, IsKept c) {c : Char}
    (h : c ∈ block cs) : IsKept c := by
  have hblock := block_append cs []
  rw [List.append_nil, List.append_nil] at hblock
  rw [hblock, List.mem_cons, List.mem_append, List.mem_cons, List.mem_append] at h
  rcases h with rfl | h | rfl | h | h
  · exact .inl rfl
  · obtain ⟨body, ends, rfl, hends, hbody⟩ := exists_body cs
    have hsigns : ∀ (told : Bool) (chomping : Chomping),
        ((if told then ['2'] else []) ++ chomping.sign).all isWritable = true := by
      intro told chomping
      cases told <;> cases chomping <;> decide
    rw [blockHints_append hne hends hbody] at h
    exact .inl (List.all_eq_true.1 (hsigns _ _) c h)
  · exact .inl rfl
  · rcases mem_indented h with h | rfl
    · exact hcs c h
    · exact .inl rfl
  · rw [closing] at h
    split at h
    · cases h
    · rw [List.mem_singleton.1 h]
      exact .inl rfl

/-- So a text can be written without a character that reading would change. -/
theorem isKept_writeText {s : String} {c : Char} (h : c ∈ writeText s) : IsKept c := by
  rw [writeText] at h
  split at h
  · rename_i hfeed
    split at h
    · rename_i hblock
      rw [blockAllowed, Bool.not_eq_true', Bool.or_eq_false_iff] at hblock
      refine isKept_block ?_ (isKept_of_hasSpecial hblock.2) h
      intro hnil
      rw [hnil] at hfeed
      cases hfeed
    · exact isKept_double h
  · split at h
    · split at h
      · rename_i hplain
        -- without quotes, as it stands
        obtain ⟨hsingle, -⟩ := plainAllowed_eq_true hplain
        obtain ⟨-, -, -, hspecial⟩ := singleAllowed_eq_true hsingle
        rcases List.mem_append.1 h with h | h
        · exact isKept_of_hasSpecial hspecial c h
        · rw [List.mem_singleton.1 h]
          exact .inl rfl
      · split at h
        · rename_i hsingle
          obtain ⟨-, -, -, hspecial⟩ := singleAllowed_eq_true hsingle
          exact isKept_single (isKept_of_hasSpecial hspecial) h
        · exact isKept_double h
    · exact isKept_double h

/-! ### Documents -/

/-- A pair has a key and a colon at least, so the text is long enough for the fuel. -/
theorem length_render {k need : Nat} (ps : List (Pair k need)) :
    2 * ps.length ≤ (ps.flatMap Pair.render).length := by
  induction ps with
  | nil => exact Nat.zero_le _
  | cons p ps ih =>
    obtain ⟨c, cs, hkey, -⟩ := p.isName.starts
    have hpair : 2 ≤ p.render.length := by
      rw [Pair.render, hkey]
      simp only [List.length_append, List.length_cons, List.length_replicate]
      omega
    rw [List.flatMap_cons, List.length_append, List.length_cons]
    omega

theorem isKept_render {k need : Nat} {p : Pair k need} (h : ∀ c ∈ p.value, IsKept c) :
    ∀ c ∈ p.render, IsKept c := by
  intro c hc
  rw [Pair.render, List.mem_append, List.mem_append, List.mem_cons] at hc
  rcases hc with hc | hc | rfl | hc
  · rw [List.eq_of_mem_replicate hc]
    exact .inl rfl
  · exact isKept_of_isAlpha (p.isName.chars c hc)
  · exact .inl rfl
  · exact h c hc

/-- The node, without the place where the reader stopped. -/
theorem Yields.map_fst {r : Option (Node × Cursor)} {n : Option Node} {k : Nat} {word : List Char}
    (h : Yields r n k word) : r.map Prod.fst = n := by
  cases n with
  | none =>
    have hr : r = none := h
    rw [hr]
    rfl
  | some n =>
    obtain ⟨q, line, hr, -⟩ := h
    rw [hr]
    rfl

theorem dropMark_word {k : Nat} {word : List Char} (h : IsWord k word) :
    Text.dropMark word = word := by
  rcases h with ⟨rfl, -⟩ | ⟨c, cs, rfl, hc⟩
  · rfl
  · unfold Text.dropMark
    split
    · rename_i heq
      rw [(List.cons.inj heq).1] at hc
      cases hc
    · rfl

/-- A document that starts with a word has no directives. -/
theorem opening?_word {k : Nat} {word : List Char} (h : IsWord k word) :
    opening? word = some (true, ⟨0, 0, word⟩) := by
  rw [opening?, show Cursor.inBlock? ⟨0, 0, word⟩ false = some ⟨0, 0, word⟩ from
    inBlock?_word h false 0 0 0]
  rcases h with ⟨rfl, -⟩ | ⟨c, cs, rfl, hc⟩
  · rfl
  · simp only [Option.bind_eq_bind, Option.bind_some]
    split
    · rename_i heq
      rw [(List.cons.inj heq).1] at hc
      cases hc
    · rfl

/-- A mapping at the start of its lines is a document. -/
theorem read?_pairs {need : Nat} {ps : List (Pair 0 need)} (hne : ps ≠ [])
    (hneed : need ≤ 5 * ps.length) (hvalues : ∀ p ∈ ps, ∀ c ∈ p.value, IsKept c) :
    Node.read? (String.ofList (ps.flatMap Pair.render)) =
      (entriesOf ps).map fun es => .mapping es := by
  have hkept : ∀ c ∈ ps.flatMap Pair.render, IsKept c := by
    intro c hc
    obtain ⟨p, hp, hc⟩ := List.mem_flatMap.1 hc
    exact isKept_render (hvalues p hp) c hc
  -- the reader starts with three units of fuel for each character
  have hfuel : need + ps.length + 2 ≤ 3 * (ps.flatMap Pair.render).length + 3 := by
    have := length_render ps
    omega
  obtain ⟨cs, htext, hword, hyields⟩ := node?_pairs hne hfuel (Nat.le_refl 0) false 0
    (.inl rfl) (.inl ⟨rfl, rfl⟩ : IsWord 0 [])
  rw [List.replicate_zero, List.nil_append, List.nil_append, List.append_nil] at htext
  rw [htext] at hkept hyields ⊢
  have hallowed : cs.all isAllowed = true := List.all_eq_true.2 fun c hc => (hkept c hc).isAllowed
  rw [Node.read?, String.toList_ofList]
  show (if (Text.dropMark cs).all isAllowed = true then _ else _) = _
  rw [dropMark_word hword, if_pos hallowed, normalize_eq_self hkept, opening?_word hword]
  show ((node? (3 * cs.length + 3) 0 false true ⟨0, 0, cs⟩).bind fun r => some r.1) = _
  rw [← hyields.map_fst]
  cases node? (3 * cs.length + 3) 0 false true ⟨0, 0, cs⟩ <;> rfl

end CommandHost.Yaml
