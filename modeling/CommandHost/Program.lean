/-
CommandHost/Program.lean

Programs as trees of atomic steps.

A program over a state `σ` ends with a value or stops with a reason `ε`.  Its
leaves are atomic steps, functions on the state that nothing can interrupt; its
inner nodes run a program and go on with its outcome, which is how programs are
sequenced and how stops are handled.  `run` executes a program on its own, `step`
executes its next atomic step only, so several programs can share a state in any
interleaving; `run_eq_step` says that running is stepping to the end.
-/

namespace CommandHost

/-- A program with results in `α`. -/
inductive Program (ε σ : Type) : Type → Type 1 where
  | done {α : Type} (a : α) : Program ε σ α
  | stop {α : Type} (e : ε) : Program ε σ α
  | act {α : Type} (f : σ → Except ε α × σ) : Program ε σ α
  | handle {α β : Type} (p : Program ε σ β) (k : Except ε β → Program ε σ α) : Program ε σ α

namespace Program

variable {ε σ α β : Type}

/-! ### Sequencing -/

/-- The program that is over with the given outcome. -/
def ofExcept : Except ε α → Program ε σ α
  | .ok a => done a
  | .error e => stop e

instance : Monad (Program ε σ) where
  pure := done
  bind p k := handle p fun
    | .ok a => k a
    | .error e => stop e

/-- Reads something off the state. -/
def read (f : σ → α) : Program ε σ α := act fun s => (.ok (f s), s)

/-- Changes the state. -/
def modify (f : σ → σ) : Program ε σ Unit := act fun s => (.ok (), f s)

/-- Changes the state and gives a result. -/
def change (f : σ → α × σ) : Program ε σ α := act fun s => (.ok (f s).1, (f s).2)

/-! ### Running -/

/-- Runs a program from a state to its end. -/
def run {ε σ : Type} : {α : Type} → Program ε σ α → σ → Except ε α × σ
  | _, done a, s => (.ok a, s)
  | _, stop e, s => (.error e, s)
  | _, act f, s => f s
  | _, handle p k, s =>
    match run p s with
    | (r, t) => run (k r) t

@[simp] theorem run_done (a : α) (s : σ) : run (done a : Program ε σ α) s = (.ok a, s) := rfl

@[simp] theorem run_stop (e : ε) (s : σ) :
    run (stop e : Program ε σ α) s = (.error e, s) := rfl

@[simp] theorem run_act (f : σ → Except ε α × σ) (s : σ) : run (act f) s = f s := rfl

@[simp] theorem run_handle (p : Program ε σ β) (k : Except ε β → Program ε σ α) (s : σ) :
    run (handle p k) s = run (k (run p s).1) (run p s).2 := rfl

@[simp] theorem run_pure (a : α) (s : σ) : run (pure a : Program ε σ α) s = (.ok a, s) := rfl

theorem run_bind (p : Program ε σ β) (k : β → Program ε σ α) (s : σ) :
    run (p >>= k) s =
      match run p s with
      | (.ok b, t) => run (k b) t
      | (.error e, t) => (.error e, t) := by
  change run (handle p _) s = _
  rw [run_handle]
  rcases run p s with ⟨_ | _, _⟩ <;> rfl

theorem run_bind_of_ok {p : Program ε σ β} {k : β → Program ε σ α} {s t : σ} {b : β}
    (h : run p s = (.ok b, t)) : run (p >>= k) s = run (k b) t := by
  rw [run_bind, h]

/-! ### Single steps -/

/-- Performs the next atomic step: the program is over, or there is a rest to run. -/
def step {ε σ : Type} :
    {α : Type} → Program ε σ α → σ → Except ε α ⊕ (Program ε σ α × σ)
  | _, done a, _ => .inl (.ok a)
  | _, stop e, _ => .inl (.error e)
  | _, act f, s => .inr (ofExcept (f s).1, (f s).2)
  | _, handle p k, s =>
    match step p s with
    | .inl r => step (k r) s
    | .inr (q, t) => .inr (handle q k, t)

theorem step_handle {p q : Program ε σ β} {s t : σ} (h : step p s = .inr (q, t))
    (k : Except ε β → Program ε σ α) : step (handle p k) s = .inr (handle q k, t) := by
  rw [step, h]

/-- The next step of a program whose first part is over is one of the rest. -/
theorem step_handle_of_over {p : Program ε σ β} {s : σ} {r : Except ε β} (h : step p s = .inl r)
    (k : Except ε β → Program ε σ α) : step (handle p k) s = step (k r) s := by
  rw [step, h]

theorem run_ofExcept (r : Except ε α) (s : σ) : run (ofExcept r : Program ε σ α) s = (r, s) := by
  cases r <;> rfl

/-- Running a program is stepping it to its end. -/
theorem run_eq_step (p : Program ε σ α) (s : σ) :
    run p s =
      match step p s with
      | .inl r => (r, s)
      | .inr (q, t) => run q t := by
  induction p generalizing s with
  | done a => rfl
  | stop e => rfl
  | act f => simp [step, run_ofExcept]
  | handle p k ihp ihk =>
    rw [run_handle, ihp s, step]
    rcases step p s with r | ⟨q, t⟩
    · exact ihk r s
    · rfl

end Program

end CommandHost
