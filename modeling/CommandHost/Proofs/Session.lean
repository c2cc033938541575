/-
CommandHost/Proofs/Session.lean

Sessions: an interpreter from its start through any calls of the embedding program.

`Session s path m` says that a session set up by `s` passes the machine `m` while
the programs on `path` are under way.  Between two calls nothing is.  Each call
evaluates with a depth of its own, so statements about sessions hold whatever the
bound on the nesting of bodies is; a call that runs out of depth ends the session.
-/
import CommandHost.Proofs.Alike

namespace CommandHost

open Program

/-- The machines a session passes, with what is under way there. -/
inductive Session (s : Setup) : Path Stop Machine → Machine → Prop
  | start : Session s [] (Machine.start s)
  /-- Inside of a call. -/
  | during {m t : Machine} {path : Path Stop Machine} (depth : Nat) (call : HostCall)
      (h : Session s [] m)
      (hp : (path, t) ∈ (Host.perform (Evaluation.cached depth) none call).points m.silent) :
      Session s path t
  /-- After a call. -/
  | after {m : Machine} (depth : Nat) (call : HostCall) (h : Session s [] m)
      (hx : (m.performBy (Evaluation.cached depth) call).1.outcome ≠ .error .exhausted) :
      Session s [] (m.performBy (Evaluation.cached depth) call).2

theorem Machine.drifts_silent (m : Machine) : m.Drifts m.silent :=
  ⟨.channels m.writer "" #[] #[] m.tallies, not_false, rfl⟩

/-- What the start has and every step keeps holds throughout a session, where `R` is what the steps
of calls can do. -/
theorem Session.invariant_of {R : Machine → Machine → Prop} {P : Machine → Prop}
    (hR : ∀ depth call, (Host.perform (Evaluation.cached depth) none call).Steps R)
    (hsilent : ∀ m : Machine, R m m.silent) {s : Setup} (hs : P (Machine.start s))
    (hP : ∀ m t, R m t → P m → P t) {path : Path Stop Machine} {m : Machine}
    (h : Session s path m) : P m := by
  induction h with
  | start => exact hs
  | during depth call _ hp ih =>
    exact (hR depth call).points hP (hP _ _ (hsilent _) ih) _ hp
  | after depth call _ _ ih => exact (hR depth call).run hP (hP _ _ (hsilent _) ih)

/-- What the start has and every action keeps holds throughout a session. -/
theorem Session.invariant {P : Machine → Prop} {s : Setup} (hs : P (Machine.start s))
    (hP : ∀ m t, Machine.Next m t → P m → P t) {path : Path Stop Machine} {m : Machine}
    (h : Session s path m) : P m :=
  h.invariant_of (fun depth call => (Bracketed.perform depth none call).steps)
    (fun m => m.drifts_silent.next) hs hP

/-! ### Histories -/

namespace Machine

/-- The points of a session from a machine on, one after the other.  Each call comes with the depth
it evaluates with; a call that runs out of depth ends the session before it. -/
def history (m : Machine) : List (Nat × HostCall) → List (Path Stop Machine × Machine)
  | [] => [([], m)]
  | (depth, call) :: calls =>
    ([], m) ::
      if (m.performBy (Evaluation.cached depth) call).1.outcome = .error .exhausted then []
      else (Host.perform (Evaluation.cached depth) none call).points m.silent ++
        (m.performBy (Evaluation.cached depth) call).2.history calls

/-- A history passes the points of each call that ends, and goes on from where the call leads to. -/
theorem mem_history_cons_iff {m : Machine} {depth : Nat} {call : HostCall}
    (hout : (m.performBy (Evaluation.cached depth) call).1.outcome ≠ .error .exhausted)
    {calls : List (Nat × HostCall)} {x : Path Stop Machine × Machine} :
    x ∈ m.history ((depth, call) :: calls) ↔ x = ([], m) ∨
      x ∈ (Host.perform (Evaluation.cached depth) none call).points m.silent ∨
      x ∈ (m.performBy (Evaluation.cached depth) call).2.history calls := by
  rw [history, if_neg hout, List.mem_cons, List.mem_append]

/-- A history is made of points of a session. -/
theorem session_of_mem_history {s : Setup} {m : Machine} (h : Session s [] m)
    {calls : List (Nat × HostCall)} {x : Path Stop Machine × Machine} (hx : x ∈ m.history calls) :
    Session s x.1 x.2 := by
  induction calls generalizing m with
  | nil =>
    obtain rfl := List.mem_singleton.1 hx
    exact h
  | cons c calls ih =>
    obtain ⟨depth, call⟩ := c
    rw [history, List.mem_cons] at hx
    rcases hx with rfl | hx
    · exact h
    · split at hx
      · cases hx
      · rename_i hout
        rcases List.mem_append.1 hx with hx | hx
        · exact .during depth call h hx
        · exact ih (.after depth call h hout) hx

theorem head?_history (m : Machine) (calls : List (Nat × HostCall)) :
    (m.history calls).head? = some ([], m) := by
  cases calls <;> rfl

/-- What calls keep on their way and leave behind holds throughout a history. -/
theorem history_along {Q : Path Stop Machine → Machine → Prop}
    (hsilent : ∀ m : Machine, Q [] m → Q [] m.silent)
    (hcall : ∀ depth call m, Q [] m →
      ((Host.perform (Evaluation.cached depth) none call).run m).1 ≠ .error .exhausted →
      (Host.perform (Evaluation.cached depth) none call).Along Q m ∧
        Q [] ((Host.perform (Evaluation.cached depth) none call).run m).2)
    {m : Machine} (hm : Q [] m) {calls : List (Nat × HostCall)} {x : Path Stop Machine × Machine}
    (hx : x ∈ m.history calls) : Q x.1 x.2 := by
  induction calls generalizing m with
  | nil =>
    obtain rfl := List.mem_singleton.1 hx
    exact hm
  | cons c calls ih =>
    obtain ⟨depth, call⟩ := c
    rw [history, List.mem_cons] at hx
    rcases hx with rfl | hx
    · exact hm
    · split at hx
      · cases hx
      · rename_i hout
        obtain ⟨halong, hafter⟩ := hcall depth call m.silent (hsilent m hm) hout
        -- a point of this call, or one of a later call
        rcases List.mem_append.1 hx with hx | hx
        · exact halong x hx
        · exact ih hafter hx

section

variable {R : Machine → Machine → Prop}
  (hR : ∀ depth call, (Host.perform (Evaluation.cached depth) none call).Steps R)
  (hsilent : ∀ m : Machine, R m m.silent)

include hR hsilent

/-- From one point of a history to the next there is at most one step. -/
theorem history_chain (m : Machine) (calls : List (Nat × HostCall)) :
    (m.history calls).IsChain fun x y => y.2 = x.2 ∨ R x.2 y.2 := by
  induction calls generalizing m with
  | nil => exact .singleton _
  | cons c calls ih =>
    obtain ⟨depth, call⟩ := c
    rw [history]
    split
    · exact .singleton _
    · obtain ⟨first, hfirst⟩ := head?_points (Host.perform (Evaluation.cached depth) none call)
        m.silent
      obtain ⟨last, hlast⟩ := getLast?_points (Host.perform (Evaluation.cached depth) none call)
        m.silent
      rw [List.isChain_cons, List.isChain_append]
      refine ⟨?_, (hR depth call).chain _, ih _, ?_⟩
      · simpa [hfirst] using .inr (hsilent m)
      · -- a call ends where the next one begins
        rw [hlast, head?_history]
        simp [performBy]

/-- What holds along every step holds from each point of a history to all later ones. -/
theorem history_pairwise {S : Machine → Machine → Prop} (hrefl : ∀ m, S m m)
    (htrans : ∀ {m t u}, S m t → S t u → S m u) (hS : ∀ m t, R m t → S m t) (m : Machine)
    (calls : List (Nat × HostCall)) : (m.history calls).Pairwise fun x y => S x.2 y.2 := by
  let later (x y : Path Stop Machine × Machine) : Prop := S x.2 y.2
  have : Trans later later later := ⟨htrans⟩
  have hchain : (m.history calls).IsChain later := by
    refine (history_chain hR hsilent m calls).imp fun x y h => ?_
    rcases h with h | h
    · show S x.2 y.2
      rw [h]
      exact hrefl x.2
    · exact hS _ _ h
  exact hchain.pairwise

end

end Machine

/-! ### Searching a history -/

section

variable {R P : Path Stop Machine × Machine → Path Stop Machine × Machine → Prop}
  {l : List (Path Stop Machine × Machine)}

/-- Two points as in `P`, the one later than the other, are as all such points are. -/
theorem exists_later (h : l.Pairwise R) (hP : ¬ l.Pairwise fun x y => ¬ P x y) :
    ∃ x ∈ l, ∃ y ∈ l, R x y ∧ P x y := by
  by_contra hnone
  refine hP (h.imp_of_mem fun {x y} hx hy hxy hp => hnone ?_)
  exact ⟨x, hx, y, hy, hxy, hp⟩

/-- Two points as in `P`, the one next to the other, are as all such points are. -/
theorem exists_next (h : l.IsChain R) (hP : ¬ l.IsChain fun x y => ¬ P x y) :
    ∃ x ∈ l, ∃ y ∈ l, R x y ∧ P x y := by
  by_contra hnone
  refine hP (h.imp_of_mem_imp fun x y hx hy hxy hp => hnone ?_)
  exact ⟨x, hx, y, hy, hxy, hp⟩

end

end CommandHost
