/-
  Loops that need not end.

  A loop is given by its `round`: from the loop variables, one round either goes on with new ones
  or leaves with a result.  `loop round n` gives it a budget of `n` rounds and answers `none` when
  the budget is used up, so a loop RETURNS when some budget is enough and runs forever when none
  is.

  `Rounds round n` is the other view: `n` rounds in a row that all went on.  The two agree: a loop
  that leaves does so behind finitely many rounds that went on (`rounds_of_loop`), and behind such
  rounds the rest of the budget decides (`Rounds.loop_eq`).
-/
import SearchEngine.Lib.Effect
import Mathlib.Tactic.Common

namespace SearchEngine.Effect

variable {ε σ α β : Type}

/-- What one round of a loop comes to. -/
inductive Round (α β : Type) where
  | again (a : α)
  | done (b : β)

/-- The loop, with a budget of rounds. -/
def loop (round : α → EStateM ε σ (Round α β)) : Nat → α → EStateM ε σ (Option β)
  | 0, _ => pure none
  | n + 1, a => do
    match ← round a with
    | .again a' => loop round n a'
    | .done b => pure (some b)

/-- `n` rounds in a row that all go on. -/
inductive Rounds (round : α → EStateM ε σ (Round α β)) : Nat → α → σ → α → σ → Prop where
  | zero (a : α) (s : σ) : Rounds round 0 a s a s
  | succ {n : Nat} {a a₁ a' : α} {s s₁ s' : σ} (h : round a s = .ok (.again a₁) s₁)
      (rest : Rounds round n a₁ s₁ a' s') : Rounds round (n + 1) a s a' s'

variable {round : α → EStateM ε σ (Round α β)}

theorem loop_of_again {n : Nat} {a a₁ : α} {s s₁ : σ} (h : round a s = .ok (.again a₁) s₁) :
    loop round (n + 1) a s = loop round n a₁ s₁ :=
  bind_run_ok h _

theorem loop_of_done {n : Nat} {a : α} {b : β} {s s₁ : σ} (h : round a s = .ok (.done b) s₁) :
    loop round (n + 1) a s = .ok (some b) s₁ :=
  bind_run_ok h _

theorem loop_of_error {n : Nat} {a : α} {e : ε} {s s₁ : σ} (h : round a s = .error e s₁) :
    loop round (n + 1) a s = .error e s₁ :=
  bind_run_error h _

/-- Behind rounds that went on, the budget that is left decides. -/
theorem Rounds.loop_eq {n : Nat} {a a₁ : α} {s s₁ : σ} (h : Rounds round n a s a₁ s₁) (m : Nat) :
    loop round (n + m) a s = loop round m a₁ s₁ := by
  induction h with
  | zero a s => rw [Nat.zero_add]
  | @succ n _ _ _ _ _ _ hfirst _ ih =>
    rw [Nat.add_right_comm, loop_of_again hfirst]
    exact ih

/-- A loop that leaves within its budget did so behind rounds that went on. -/
theorem rounds_of_loop {b : β} {s' : σ} :
    ∀ {n : Nat} {a : α} {s : σ}, loop round n a s = .ok (some b) s' →
      ∃ k a₁ s₁, Rounds round k a s a₁ s₁ ∧ round a₁ s₁ = .ok (.done b) s'
  | 0, a, s, h => by cases h
  | n + 1, a, s, h => by
    obtain ⟨r, s₁, hround, hrest⟩ := bind_ok.mp h
    cases r with
    | again a₁ =>
      obtain ⟨k, a₂, s₂, hrounds, hdone⟩ := rounds_of_loop hrest
      exact ⟨k + 1, a₂, s₂, .succ hround hrounds, hdone⟩
    | done b' =>
      obtain ⟨hb, rfl⟩ := pure_ok.mp hrest
      obtain rfl : b' = b := Option.some.inj hb
      exact ⟨0, a, s, .zero a s, hround⟩

end SearchEngine.Effect
