/-
CommandHost/Proofs/Points.lean

The points a run of a program passes.

`run` only shows where a program ends.  Its *points* are the states before and
after every atomic step, each with the programs under way there, the outermost
first (`Path`).  So a statement about all points is about every moment of a run,
and it can ask what is still running.

There are two ways to prove something of all points.  A property that every atomic
step preserves holds at all of them (`Steps.points`); `Steps R p` says what the
steps of `p` can do, once for all properties.  A property that a program breaks
and repairs on its way depends on the path; `Along Q p s` collects what has to be
shown for each part of the program, and `Throughout E p s` is the case in which the
path does not matter.
-/
import CommandHost.Program
import Mathlib.Data.List.Chain

namespace CommandHost

namespace Program

variable {ε σ α β : Type}

/-! ### Points -/

/-- Programs under way, the outermost first. -/
abbrev Path (ε σ : Type) := List ((α : Type) × Program ε σ α)

/-- The points a run passes: the states before and after every atomic step. -/
def points : {α : Type} → Program ε σ α → σ → List (Path ε σ × σ)
  | α, done a, s => [([⟨α, done a⟩], s)]
  | α, stop e, s => [([⟨α, stop e⟩], s)]
  | α, act f, s => [([⟨α, act f⟩], s), ([⟨α, act f⟩], (f s).2)]
  | α, handle p k, s =>
    ([⟨α, handle p k⟩], s) ::
      (points p s ++ points (k (run p s).1) (run p s).2).map fun x =>
        (⟨α, handle p k⟩ :: x.1, x.2)

/-- The program itself is the outermost one under way at every point of its run. -/
theorem exists_cons_of_mem_points {p : Program ε σ α} {s : σ} {x : Path ε σ × σ}
    (h : x ∈ p.points s) : ∃ path, x.1 = ⟨α, p⟩ :: path := by
  cases p with
  | done a | stop e => simp_all [points]
  | act f =>
    simp only [points, List.mem_cons, List.not_mem_nil, or_false] at h
    rcases h with rfl | rfl <;> exact ⟨_, rfl⟩
  | handle p k =>
    simp only [points, List.mem_cons, List.mem_map] at h
    rcases h with rfl | ⟨y, -, rfl⟩ <;> exact ⟨_, rfl⟩

theorem mem_path_of_mem_points {p : Program ε σ α} {s : σ} {x : Path ε σ × σ}
    (h : x ∈ p.points s) : ⟨α, p⟩ ∈ x.1 := by
  obtain ⟨path, e⟩ := exists_cons_of_mem_points h
  exact e ▸ List.mem_cons_self

/-- A program under way at a point runs from some state, and the point is one of its own. -/
theorem mem_points_of_path {p : Program ε σ α} {s t : σ} {before rest : Path ε σ}
    {q : (β : Type) × Program ε σ β} (h : (before ++ q :: rest, t) ∈ p.points s) :
    ∃ s', (q :: rest, t) ∈ q.2.points s' := by
  have hself {γ : Type} {p : Program ε σ γ} {s : σ} (h : (q :: rest, t) ∈ p.points s) :
      ∃ s', (q :: rest, t) ∈ q.2.points s' := by
    obtain ⟨path, e⟩ := exists_cons_of_mem_points h
    obtain ⟨rfl, -⟩ := List.cons.inj e
    exact ⟨s, h⟩
  induction p generalizing s before with
  | done a | stop e | act f =>
    cases before with
    | nil => exact hself h
    | cons r before => simp [points] at h
  | handle p k ihp ihk =>
    cases before with
    | nil => exact hself h
    | cons r before =>
      -- the point is one of the two parts
      simp only [points, List.cons_append, List.mem_cons, List.mem_map, List.mem_append,
        Prod.mk.injEq, List.cons.injEq] at h
      rcases h with ⟨⟨-, hnil⟩, -⟩ | ⟨⟨path, u⟩, hy, ⟨-, rfl⟩, rfl⟩
      · -- at the first point only the program itself is under way
        simp at hnil
      · rcases hy with hy | hy
        · exact ihp hy
        · exact ihk _ hy

/-- An atomic step is not put together from others. -/
theorem act_ne_handle {γ : Type} {f : σ → Except ε α × σ} {p : Program ε σ γ}
    {k : Except ε γ → Program ε σ β} :
    (⟨α, act f⟩ : (α : Type) × Program ε σ α) ≠ ⟨β, handle p k⟩ := by
  rintro ⟨⟩

/-! ### What atomic steps can do -/

/-- Every atomic step of the program leads from a state to a related one. -/
def Steps (R : σ → σ → Prop) : {α : Type} → Program ε σ α → Prop
  | _, done _ => True
  | _, stop _ => True
  | _, act f => ∀ s, R s (f s).2
  | _, handle p k => Steps R p ∧ ∀ r, Steps R (k r)

/-- A program after another, where the second is not run if the first stops. -/
theorem Steps.bind {R : σ → σ → Prop} {p : Program ε σ β} {k : β → Program ε σ α}
    (hp : p.Steps R) (hk : ∀ b, (k b).Steps R) : (p >>= k).Steps R := by
  refine ⟨hp, ?_⟩
  rintro (e | b)
  · trivial
  · exact hk b

/-- Steps may be known less precisely. -/
theorem Steps.mono {R R' : σ → σ → Prop} (hR : ∀ s t, R s t → R' s t) {p : Program ε σ α}
    (h : p.Steps R) : p.Steps R' := by
  induction p with
  | done a | stop e => trivial
  | act f => exact fun s => hR _ _ (h s)
  | handle p k ihp ihk => exact ⟨ihp h.1, fun r => ihk r (h.2 r)⟩

/-- A run keeps what every step keeps. -/
theorem Steps.run {R : σ → σ → Prop} {P : σ → Prop} (hP : ∀ s t, R s t → P s → P t)
    {p : Program ε σ α} (h : p.Steps R) {s : σ} (hs : P s) : P (p.run s).2 := by
  induction p generalizing s with
  | done a | stop e => exact hs
  | act f => exact hP _ _ (h s) hs
  | handle p k ihp ihk => exact ihk _ (h.2 _) (ihp h.1 hs)

/-- What every step keeps holds at all points of a run. -/
theorem Steps.points {R : σ → σ → Prop} {P : σ → Prop} (hP : ∀ s t, R s t → P s → P t)
    {p : Program ε σ α} (h : p.Steps R) {s : σ} (hs : P s) : ∀ x ∈ p.points s, P x.2 := by
  induction p generalizing s with
  | done a | stop e => simpa [Program.points] using hs
  | act f => simpa [Program.points] using ⟨hs, hP _ _ (h s) hs⟩
  | handle p k ihp ihk =>
    -- the second part begins where the first one ends
    have ht : P (p.run s).2 := Steps.run hP h.1 hs
    simp only [Program.points, List.mem_cons, List.mem_map, List.mem_append]
    rintro x (rfl | ⟨y, hy | hy, rfl⟩)
    · exact hs
    · exact ihp h.1 hs y hy
    · exact ihk _ (h.2 _) ht y hy

/-- What every step keeps is kept from a point of a run to its end. -/
theorem Steps.run_of_point {R : σ → σ → Prop} {P : σ → Prop} (hP : ∀ s t, R s t → P s → P t)
    {p : Program ε σ α} (h : p.Steps R) {s : σ} {x : Path ε σ × σ} (hx : x ∈ p.points s)
    (hxP : P x.2) : P (p.run s).2 := by
  induction p generalizing s x with
  | done a | stop e =>
    obtain rfl := List.mem_singleton.1 hx
    exact hxP
  | act f =>
    simp only [Program.points, List.mem_cons, List.not_mem_nil, or_false] at hx
    rcases hx with rfl | rfl
    · exact hP _ _ (h s) hxP
    · exact hxP
  | handle p k ihp ihk =>
    simp only [Program.points, List.mem_cons, List.mem_map, List.mem_append] at hx
    -- at the start, in the first program or in what follows it
    rcases hx with rfl | ⟨y, hy | hy, rfl⟩
    · exact Steps.run hP h hxP
    · exact Steps.run hP (h.2 _) (ihp h.1 hy hxP)
    · exact ihk _ (h.2 _) hy hxP

/-- A run begins where it starts. -/
theorem head?_points (p : Program ε σ α) (s : σ) : ∃ path, (p.points s).head? = some (path, s) := by
  cases p <;> exact ⟨_, rfl⟩

/-- A run ends where it leads to. -/
theorem getLast?_points (p : Program ε σ α) (s : σ) :
    ∃ path, (p.points s).getLast? = some (path, (p.run s).2) := by
  induction p generalizing s with
  | done a | stop e | act f => exact ⟨_, rfl⟩
  | handle p k ihp ihk =>
    obtain ⟨path, h⟩ := ihk (p.run s).1 (p.run s).2
    simp [points, List.getLast?_cons, h]

/-- From one point of a run to the next there is at most one step. -/
theorem Steps.chain {R : σ → σ → Prop} {p : Program ε σ α} (h : p.Steps R) (s : σ) :
    (p.points s).IsChain fun x y => y.2 = x.2 ∨ R x.2 y.2 := by
  induction p generalizing s with
  | done a | stop e => exact .singleton _
  | act f => simpa [Program.points] using .inr (h s)
  | handle p k ihp ihk =>
    obtain ⟨first, hfirst⟩ := head?_points p s
    obtain ⟨last, hlast⟩ := getLast?_points p s
    obtain ⟨next, hnext⟩ := head?_points (k (p.run s).1) (p.run s).2
    rw [Program.points, List.isChain_cons, List.isChain_map, List.isChain_append]
    -- inside the parts by induction; at the two seams the state is the same on both sides
    refine ⟨?_, ihp h.1 s, ihk _ (h.2 _) _, ?_⟩
    · simp [hfirst]
    · simp [hlast, hnext]

/-- The run of a program takes no step that is in `K`. -/
def Spares (K : {α : Type} → (σ → Except ε α × σ) → Prop) : {α : Type} → Program ε σ α → σ → Prop
  | _, done _, _ => True
  | _, stop _, _ => True
  | _, act f, _ => ¬ K f
  | _, handle p k, s => Spares K p s ∧ Spares K (k (run p s).1) (run p s).2

/-- What a bind spares, its parts spare. -/
theorem Spares.of_bind {K : {α : Type} → (σ → Except ε α × σ) → Prop} {p : Program ε σ β}
    {k : β → Program ε σ α} {s : σ} (h : (p >>= k).Spares K s) :
    p.Spares K s ∧ ∀ b, (p.run s).1 = .ok b → (k b).Spares K (p.run s).2 := by
  refine ⟨h.1, fun b hb => ?_⟩
  have hk := h.2
  rw [hb] at hk
  exact hk

theorem Spares.bind {K : {α : Type} → (σ → Except ε α × σ) → Prop} {p : Program ε σ β}
    {k : β → Program ε σ α} {s : σ} (hp : p.Spares K s)
    (hk : ∀ b, (p.run s).1 = .ok b → (k b).Spares K (p.run s).2) : (p >>= k).Spares K s := by
  refine ⟨hp, ?_⟩
  rcases e : (p.run s).1 with err | b
  · trivial
  · exact hk b e

/-- A program that changes nothing. -/
def Reads (p : Program ε σ α) : Prop := p.Steps fun s t => t = s

/-- A run of reading ends where it began. -/
theorem Reads.run {p : Program ε σ α} (h : p.Reads) (s : σ) : (p.run s).2 = s :=
  Steps.run (P := (· = s)) (fun _ _ ht hs => ht.trans hs) h rfl

/-- A bind that begins with reading and ends with a value went on from the same state. -/
theorem Reads.of_bind_ok {p : Program ε σ β} (hp : p.Reads) {k : β → Program ε σ α} {s : σ} {a : α}
    (h : ((p >>= k).run s).1 = .ok a) :
    ∃ b, (p.run s).1 = .ok b ∧ (p >>= k).run s = (k b).run s := by
  have hs := hp.run s
  rw [run_bind] at h ⊢
  rcases e : p.run s with ⟨err | b, t⟩
  · rw [e] at h
    cases h
  · rw [e] at hs
    exact ⟨b, rfl, hs ▸ rfl⟩

/-! ### Programs that a run comes to -/

/-- The run of `p` from `s` comes to the program `q` in the state `t`: the points of `q` from there
on are among its points, under the same programs. -/
def Reaches (p : Program ε σ α) (s : σ) (q : Program ε σ β) (t : σ) : Prop :=
  ∃ before path later,
    p.points s = before ++ (q.points t).map (fun x => (path ++ x.1, x.2)) ++ later

namespace Reaches

variable {γ : Type} {q : Program ε σ γ} {s t : σ}

theorem refl (p : Program ε σ α) (s : σ) : p.Reaches s p s := ⟨[], [], [], by simp⟩

/-- A program comes to what its first part comes to. -/
theorem handle {p : Program ε σ β} (h : p.Reaches s q t) (k : Except ε β → Program ε σ α) :
    (handle p k).Reaches s q t := by
  obtain ⟨before, path, later, e⟩ := h
  refine ⟨([⟨α, Program.handle p k⟩], s) :: before.map fun x =>
      (⟨α, Program.handle p k⟩ :: x.1, x.2),
    ⟨α, Program.handle p k⟩ :: path,
    (later ++ (k (run p s).1).points (run p s).2).map fun x =>
      (⟨α, Program.handle p k⟩ :: x.1, x.2), ?_⟩
  simp [points, e]

/-- It also comes to what the rest comes to. -/
theorem next {p : Program ε σ β} {k : Except ε β → Program ε σ α}
    (h : (k (p.run s).1).Reaches (p.run s).2 q t) : (Program.handle p k).Reaches s q t := by
  obtain ⟨before, path, later, e⟩ := h
  refine ⟨([⟨α, Program.handle p k⟩], s) :: (p.points s ++ before).map fun x =>
      (⟨α, Program.handle p k⟩ :: x.1, x.2),
    ⟨α, Program.handle p k⟩ :: path,
    later.map fun x => (⟨α, Program.handle p k⟩ :: x.1, x.2), ?_⟩
  simp [points, e]

/-- A bind whose first part is known to give a value. -/
theorem bind {p : Program ε σ β} {k : β → Program ε σ α} {b : β} {u : σ}
    (hp : p.run s = (.ok b, u)) (h : (k b).Reaches u q t) : (p >>= k).Reaches s q t := by
  refine next ?_
  rw [hp]
  exact h

end Reaches

/-- `C` holds of every program that is under way at some point of the run of `p`. -/
def Every (C : (α : Type) × Program ε σ α → Bool) : {α : Type} → Program ε σ α → σ → Bool
  | α, done a, _ => C ⟨α, done a⟩
  | α, stop e, _ => C ⟨α, stop e⟩
  | α, act f, _ => C ⟨α, act f⟩
  | α, handle p k, s => C ⟨α, handle p k⟩ && Every C p s && Every C (k (run p s).1) (run p s).2

/-- So a property of all programs under way can be computed. -/
theorem every_iff {C : (α : Type) × Program ε σ α → Bool} {p : Program ε σ α} {s : σ} :
    p.Every C s = true ↔ ∀ x ∈ p.points s, ∀ q ∈ x.1, C q = true := by
  induction p generalizing s with
  | done a | stop e | act f => simp [Every, points]
  | handle p k ihp ihk =>
    simp only [Every, points, Bool.and_eq_true, ihp, ihk, List.mem_cons, List.mem_map,
      List.mem_append]
    constructor
    · rintro ⟨⟨hself, hp⟩, hk⟩ x (rfl | ⟨y, hy | hy, rfl⟩) q hq
      · obtain rfl := List.mem_singleton.1 hq
        exact hself
      · rcases List.mem_cons.1 hq with rfl | hq
        · exact hself
        · exact hp y hy q hq
      · rcases List.mem_cons.1 hq with rfl | hq
        · exact hself
        · exact hk y hy q hq
    · intro h
      refine ⟨⟨h _ (.inl rfl) _ List.mem_cons_self, fun y hy q hq => ?_⟩, fun y hy q hq => ?_⟩
      · exact h _ (.inr ⟨y, .inl hy, rfl⟩) q (List.mem_cons_of_mem _ hq)
      · exact h _ (.inr ⟨y, .inr hy, rfl⟩) q (List.mem_cons_of_mem _ hq)

/-! ### Properties of points -/

/-- `Q` holds at every point of the run of `p` from `s`. -/
def Along (Q : Path ε σ → σ → Prop) (p : Program ε σ α) (s : σ) : Prop :=
  ∀ x ∈ p.points s, Q x.1 x.2

/-- A property that more programs under way do not break. -/
def Rising (Q : Path ε σ → σ → Prop) : Prop :=
  ∀ {path s}, Q path s → ∀ q, Q (q :: path) s

variable {Q : Path ε σ → σ → Prop}

theorem along_done (hQ : Rising Q) {a : α} {s : σ} (h : Q [] s) : (done a).Along Q s := by
  simpa [Along, points] using hQ h _

theorem along_stop (hQ : Rising Q) {e : ε} {s : σ} (h : Q [] s) :
    (stop e : Program ε σ α).Along Q s := by
  simpa [Along, points] using hQ h _

theorem along_act (hQ : Rising Q) {f : σ → Except ε α × σ} {s : σ} (h : Q [] s)
    (h' : Q [] (f s).2) : (act f).Along Q s := by
  simpa [Along, points] using ⟨hQ h _, hQ h' _⟩

/-- At the points of the parts one more program is under way. -/
theorem along_handle (hQ : Rising Q) {p : Program ε σ β} {k : Except ε β → Program ε σ α} {s : σ}
    (h : Q [] s) (hp : p.Along Q s) (hk : (k (run p s).1).Along Q (run p s).2) :
    (handle p k).Along Q s := by
  simp only [Along, points, List.mem_cons, List.mem_map, List.mem_append]
  rintro x (rfl | ⟨y, hy | hy, rfl⟩)
  · exact hQ h _
  · exact hQ (hp y hy) _
  · exact hQ (hk y hy) _

/-! ### Properties of states -/

/-- `E` holds in every state that the run of `p` from `s` passes. -/
def Throughout (E : σ → Prop) (p : Program ε σ α) (s : σ) : Prop := p.Along (fun _ t => E t) s

namespace Throughout

variable {E : σ → Prop} {s : σ}

/-- It holds at the start, which is the first point. -/
theorem start {p : Program ε σ α} (h : p.Throughout E s) : E s := by
  obtain ⟨path, hfirst⟩ := head?_points p s
  exact h _ (List.mem_of_head? hfirst)

theorem run {p : Program ε σ α} (h : p.Throughout E s) : E (p.run s).2 := by
  obtain ⟨path, hlast⟩ := getLast?_points p s
  exact h _ (List.mem_of_getLast? hlast)

theorem mono {E' : σ → Prop} (hE : ∀ t, E t → E' t) {p : Program ε σ α} (h : p.Throughout E s) :
    p.Throughout E' s :=
  fun x hx => hE _ (h x hx)

theorem of_reads {p : Program ε σ α} (hp : p.Reads) (hs : E s) : p.Throughout E s :=
  Steps.points (fun _ _ ht h => ht ▸ h) hp hs

theorem handle {p : Program ε σ β} {k : Except ε β → Program ε σ α} (hp : p.Throughout E s)
    (hk : (k (p.run s).1).Throughout E (p.run s).2) : (handle p k).Throughout E s :=
  along_handle (fun h _ => h) hp.start hp hk

/-- What holds throughout a program holds throughout its parts. -/
theorem of_handle {p : Program ε σ β} {k : Except ε β → Program ε σ α}
    (h : (Program.handle p k).Throughout E s) :
    p.Throughout E s ∧ (k (p.run s).1).Throughout E (p.run s).2 := by
  simp only [Throughout, Along, points, List.mem_cons, List.mem_map, List.mem_append] at h
  exact ⟨fun x hx => h (_ :: x.1, x.2) (.inr ⟨x, .inl hx, rfl⟩),
    fun x hx => h (_ :: x.1, x.2) (.inr ⟨x, .inr hx, rfl⟩)⟩

theorem bind {p : Program ε σ β} {k : β → Program ε σ α} (hp : p.Throughout E s)
    (hk : ∀ b, (p.run s).1 = .ok b → (k b).Throughout E (p.run s).2) :
    (p >>= k).Throughout E s := by
  refine handle hp ?_
  rcases e : (p.run s).1 with err | b
  · exact along_stop (fun h _ => h) hp.run
  · exact hk b e

/-- The second part of a bind runs if the first gives a value. -/
theorem of_bind {p : Program ε σ β} {k : β → Program ε σ α} (h : (p >>= k).Throughout E s) :
    p.Throughout E s ∧ ∀ b, (p.run s).1 = .ok b → (k b).Throughout E (p.run s).2 := by
  obtain ⟨hp, hk⟩ := of_handle h
  refine ⟨hp, fun b hb => ?_⟩
  rw [hb] at hk
  exact hk

/-- A bind that begins with reading goes on from the same state. -/
theorem bind_reads {p : Program ε σ β} {k : β → Program ε σ α} (hp : p.Reads) (hs : E s)
    (hk : ∀ b, (p.run s).1 = .ok b → (k b).Throughout E s) : (p >>= k).Throughout E s := by
  refine bind (of_reads hp hs) fun b hb => ?_
  rw [hp.run s]
  exact hk b hb

end Throughout

/-- Runs that begin where `E` holds pass only states where it does. -/
def Maintains (E : σ → Prop) (p : Program ε σ α) : Prop := ∀ s, E s → p.Throughout E s

namespace Maintains

variable {E : σ → Prop}

/-- What every step keeps is maintained. -/
theorem of_steps {p : Program ε σ α} (h : p.Steps fun s t => E s → E t) : p.Maintains E :=
  fun _ hs => h.points (fun _ _ h => h) hs

theorem of_reads {p : Program ε σ α} (hp : p.Reads) : p.Maintains E := fun _ hs => .of_reads hp hs

theorem handle {p : Program ε σ β} {k : Except ε β → Program ε σ α} (hp : p.Maintains E)
    (hk : ∀ r, (k r).Maintains E) : (handle p k).Maintains E :=
  fun s hs => (hp s hs).handle (hk _ _ (hp s hs).run)

theorem bind {p : Program ε σ β} {k : β → Program ε σ α} (hp : p.Maintains E)
    (hk : ∀ b, (k b).Maintains E) : (p >>= k).Maintains E :=
  fun s hs => (hp s hs).bind fun b _ => hk b _ (hp s hs).run

end Maintains

end Program

end CommandHost
