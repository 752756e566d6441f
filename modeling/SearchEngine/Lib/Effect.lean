/-
  Programs with a store and exceptions, and the rules for reasoning about them.

  `EStateM ε σ` is the shape of a Java method that writes to a store and may throw: the state
  SURVIVES a throw, so an aborted call leaves whatever it had already written.  A triple
  therefore carries two postconditions, one for a normal return and one for an abort:

      Triple P m Q R  =  from any state with `P`, `m` ends in `Q a s` or throws in `R s`.

  The rules follow the program text (`Triple.pure`, `.lift`, `.bind`, `.foldlM`), and
  `Triple.weaken` is the rule of consequence.  `Preserves I m` is the special case of an
  invariant that holds on every exit.  For statements about calls that return normally, the
  inversions `bind_ok` and `foldlM_cons_ok` peel a successful run apart instead, and
  `foldlM_batch` is the induction over a batch.  `Yields` is the counterpart for a computation
  without a store: it succeeds, with a result of which `Q` holds; `Ensures` says the same of the
  computations that succeed only.
-/
import Mathlib.Data.List.Basic
import Mathlib.Tactic.Common

namespace SearchEngine.Effect

variable {ε σ α β γ : Type}

/-- The state in which a run stops, whether it returns or throws. -/
def finalState : EStateM.Result ε σ α → σ
  | .ok _ s => s
  | .error _ s => s

/-- Did the run return normally? -/
def returns : EStateM.Result ε σ α → Bool
  | .ok _ _ => true
  | .error _ _ => false

/-- What the run returns, if it does. -/
def answer : EStateM.Result ε σ α → Option α
  | .ok a _ => some a
  | .error _ _ => none

/-- A pure computation that may throw, as a program. -/
def lift (x : Except ε α) : EStateM ε σ α :=
  match x with
  | .ok a => pure a
  | .error e => throw e

theorem eq_ok_of_answer {r : EStateM.Result ε σ α} {a : α} (h : answer r = some a) :
    r = .ok a (finalState r) := by
  cases r with
  | ok b s =>
    obtain rfl : b = a := Option.some.inj h
    rfl
  | error e s => cases h

/-! ## Peeling a run apart -/

theorem except_bind_ok {x : Except ε α} {f : α → Except ε β} {b : β} :
    (x >>= f) = .ok b ↔ ∃ a, x = .ok a ∧ f a = .ok b := by
  cases x with
  | ok a =>
    constructor
    · exact fun h => ⟨a, rfl, h⟩
    · rintro ⟨a', h, hf⟩
      cases h
      exact hf
  | error e =>
    constructor
    · exact fun h => nomatch h
    · rintro ⟨a', h, -⟩
      cases h

theorem except_ok_bind (a : α) (f : α → Except ε β) : (Except.ok a >>= f) = f a := rfl

/-- A list of computations that all succeed. -/
theorem mapM_ok {f : α → Except ε β} {g : α → β} :
    ∀ {l : List α}, (∀ a ∈ l, f a = .ok (g a)) → l.mapM f = .ok (l.map g)
  | [], _ => rfl
  | a :: l, h => by
    rw [List.mapM_cons, h a (by simp), except_ok_bind,
      mapM_ok (fun b hb => h b (List.mem_cons_of_mem a hb)), except_ok_bind]
    rfl

theorem bind_run_ok {m : EStateM ε σ α} {s s₁ : σ} {a : α} (h : m s = .ok a s₁)
    (f : α → EStateM ε σ β) : (m >>= f) s = f a s₁ := by
  show EStateM.bind m f s = f a s₁
  rw [EStateM.bind, h]

theorem bind_run_error {m : EStateM ε σ α} {s s₁ : σ} {e : ε} (h : m s = .error e s₁)
    (f : α → EStateM ε σ β) : (m >>= f) s = .error e s₁ := by
  show EStateM.bind m f s = .error e s₁
  rw [EStateM.bind, h]

/-- Two programs that start alike, and go on alike where the first part returns. -/
theorem bind_run_congr {m m' : EStateM ε σ α} {f f' : α → EStateM ε σ β} {s : σ}
    (hm : m s = m' s) (hf : ∀ a s₁, m s = .ok a s₁ → f a s₁ = f' a s₁) :
    (m >>= f) s = (m' >>= f') s := by
  cases hrun : m s with
  | ok a s₁ => rw [bind_run_ok hrun, bind_run_ok (hm.symm.trans hrun), hf a s₁ hrun]
  | error e s₁ => rw [bind_run_error hrun, bind_run_error (hm.symm.trans hrun)]

theorem lift_run_ok {x : Except ε α} {a : α} (h : x = .ok a) (f : α → EStateM ε σ β) (s : σ) :
    (lift x >>= f) s = f a s := by
  rw [h]
  exact bind_run_ok rfl f

theorem lift_run_error {x : Except ε α} {e : ε} (h : x = .error e) (f : α → EStateM ε σ β)
    (s : σ) : (lift x >>= f) s = .error e s := by
  rw [h]
  exact bind_run_error rfl f

theorem bind_ok {m : EStateM ε σ α} {f : α → EStateM ε σ β} {s s' : σ} {b : β} :
    (m >>= f) s = .ok b s' ↔ ∃ a s₁, m s = .ok a s₁ ∧ f a s₁ = .ok b s' := by
  cases hrun : m s with
  | ok a s₁ =>
    rw [bind_run_ok hrun]
    constructor
    · exact fun h => ⟨a, s₁, rfl, h⟩
    · rintro ⟨a', s₂, h, hf⟩
      cases h
      exact hf
  | error e s₁ =>
    rw [bind_run_error hrun]
    constructor
    · exact fun h => nomatch h
    · rintro ⟨a', s₂, h, -⟩
      cases h

theorem pure_ok {a b : α} {s s' : σ} :
    (pure a : EStateM ε σ α) s = .ok b s' ↔ a = b ∧ s = s' := by
  constructor
  · intro h
    cases h
    exact ⟨rfl, rfl⟩
  · rintro ⟨rfl, rfl⟩
    rfl

theorem lift_ok {x : Except ε α} {a : α} {s s' : σ} :
    (lift x : EStateM ε σ α) s = .ok a s' ↔ x = .ok a ∧ s = s' := by
  cases x with
  | ok b =>
    rw [lift, pure_ok, Except.ok.injEq]
  | error e =>
    constructor
    · intro h
      cases h
    · rintro ⟨h, -⟩
      cases h

/-- A lifted computation in front leaves the state as it is. -/
theorem lift_bind_ok {x : Except ε α} {f : α → EStateM ε σ β} {s s' : σ} {b : β} :
    (lift x >>= f) s = .ok b s' ↔ ∃ a, x = .ok a ∧ f a s = .ok b s' := by
  constructor
  · intro h
    obtain ⟨a, s₁, hlift, hf⟩ := bind_ok.mp h
    obtain ⟨hx, rfl⟩ := lift_ok.mp hlift
    exact ⟨a, hx, hf⟩
  · rintro ⟨a, hx, hf⟩
    exact bind_ok.mpr ⟨a, s, lift_ok.mpr ⟨hx, rfl⟩, hf⟩

theorem foldlM_cons_ok {f : β → γ → EStateM ε σ β} {x : γ} {l : List γ} {b b' : β} {s s' : σ} :
    (x :: l).foldlM f b s = .ok b' s' ↔
      ∃ b₁ s₁, f b x s = .ok b₁ s₁ ∧ l.foldlM f b₁ s₁ = .ok b' s' := by
  rw [List.foldlM_cons]
  exact bind_ok

/-- **The batch rule**: what one element after the other carries from the part of the batch done so
    far to the part with the element behind it, holds of the whole batch when its loop returns. -/
theorem foldlM_batch {I : List γ → σ → Prop} {m : γ → EStateM ε σ Unit} {l : List γ}
    (step : ∀ done x todo s s', l = done ++ x :: todo → I done s → m x s = .ok () s' →
      I (done ++ [x]) s') {u : Unit} :
    ∀ (todo done : List γ) {s s' : σ}, l = done ++ todo → I done s →
      todo.foldlM (fun _ x => m x) () s = .ok u s' → I l s'
  | [], done, s, s', hl, hs, h => by
    obtain ⟨-, rfl⟩ := pure_ok.mp h
    rw [hl, List.append_nil]
    exact hs
  | x :: todo, done, s, s', hl, hs, h => by
    obtain ⟨u₁, s₁, hstep, hrest⟩ := foldlM_cons_ok.mp h
    exact foldlM_batch step todo (done ++ [x]) (by rw [hl, List.append_cons])
      (step done x todo s s₁ hl hs hstep) hrest

/-! ## Triples -/

/-- From any state with `P`, the program ends in `Q a s` or throws in `R s`. -/
def Triple (P : σ → Prop) (m : EStateM ε σ α) (Q : α → σ → Prop) (R : σ → Prop) : Prop :=
  ∀ s, P s →
    match m s with
    | .ok a s' => Q a s'
    | .error _ s' => R s'

/-- The invariant `I` holds again on every exit. -/
def Preserves (I : σ → Prop) (m : EStateM ε σ α) : Prop := Triple I m (fun _ s => I s) I

namespace Triple

variable {P P' : σ → Prop} {Q Q' : α → σ → Prop} {R R' : σ → Prop} {m : EStateM ε σ α}

theorem pure {a : α} (h : ∀ s, P s → Q a s) : Triple P (Pure.pure a : EStateM ε σ α) Q R :=
  fun s hs => h s hs

/-- The rule of consequence. -/
theorem weaken (h : Triple P m Q R) (hP : ∀ s, P' s → P s) (hQ : ∀ a s, Q a s → Q' a s)
    (hR : ∀ s, R s → R' s) : Triple P' m Q' R' := by
  intro s hs
  have hm := h s (hP s hs)
  cases hrun : m s with
  | ok a s' =>
    rw [hrun] at hm
    exact hQ a s' hm
  | error e s' =>
    rw [hrun] at hm
    exact hR s' hm

/-- Sequencing. -/
theorem bind {f : α → EStateM ε σ β} {S : β → σ → Prop} (hm : Triple P m Q R)
    (hf : ∀ a, Triple (Q a) (f a) S R) : Triple P (m >>= f) S R := by
  intro s hs
  have h1 := hm s hs
  cases hrun : m s with
  | ok a s' =>
    rw [hrun] at h1
    rw [bind_run_ok hrun]
    exact hf a s' h1
  | error e s' =>
    rw [hrun] at h1
    rw [bind_run_error hrun]
    exact h1

/-- A lifted computation touches no store. -/
theorem lift {x : Except ε α} (hok : ∀ a, x = .ok a → ∀ s, P s → Q a s)
    (herr : ∀ s, P s → R s) : Triple P (Effect.lift x) Q R := by
  intro s hs
  cases hx : x with
  | ok a => exact hok a hx s hs
  | error e => exact herr s hs

/-- A lifted computation in front. -/
theorem lift_bind {x : Except ε α} {f : α → EStateM ε σ β} {S : β → σ → Prop}
    (herr : ∀ s, P s → R s) (hf : ∀ a, x = .ok a → Triple P (f a) S R) :
    Triple P (Effect.lift x >>= f) S R := by
  refine bind (Q := fun a s => x = .ok a ∧ P s) (lift (fun a ha s hs => ⟨ha, hs⟩) herr) ?_
  exact fun a s hs => hf a hs.1 s hs.2

/-- What is known of every run that returned may be added. -/
theorem and_ok (h : Triple P m Q R) (hrun : ∀ s a s', P s → m s = .ok a s' → Q' a s') :
    Triple P m (fun a s => Q a s ∧ Q' a s) R := by
  intro s hs
  have hm := h s hs
  cases hend : m s with
  | ok a s' =>
    rw [hend] at hm
    exact ⟨hm, hrun s a s' hs hend⟩
  | error e s' =>
    rw [hend] at hm
    exact hm

/-- **The loop rule**: the loop variables and the store keep `I` together. -/
theorem foldlM {I : β → σ → Prop} {f : β → γ → EStateM ε σ β} :
    ∀ (l : List γ) (b : β), (∀ b, ∀ x ∈ l, Triple (I b) (f b x) I R) →
      Triple (I b) (l.foldlM f b) I R
  | [], b, _ => by
    rw [List.foldlM_nil]
    exact Triple.pure (fun s hs => hs)
  | x :: l, b, h => by
    rw [List.foldlM_cons]
    exact Triple.bind (h b x List.mem_cons_self)
      (fun b' => foldlM l b' (fun b'' y hy => h b'' y (List.mem_cons_of_mem x hy)))

/-- What the triple says of a run that returned. -/
theorem of_ok (h : Triple P m Q R) {s s' : σ} {a : α} (hs : P s) (hrun : m s = .ok a s') :
    Q a s' := by
  have hm := h s hs
  rwa [hrun] at hm

end Triple

namespace Preserves

variable {I : σ → Prop} {m : EStateM ε σ α}

/-- The invariant at the exit, whichever exit it is. -/
theorem finalState (h : Preserves I m) {s : σ} (hs : I s) : I (finalState (m s)) := by
  have hm := h s hs
  cases hrun : m s with
  | ok a s' =>
    rw [hrun] at hm
    exact hm
  | error e s' =>
    rw [hrun] at hm
    exact hm

end Preserves

/-! ## Runs that cannot throw -/

/-- From any state with `P`, the program returns, in a state with `P` again. -/
def Runs (P : σ → Prop) (m : EStateM ε σ α) : Prop := ∀ s, P s → ∃ a s', m s = .ok a s' ∧ P s'

namespace Runs

variable {P : σ → Prop} {m : EStateM ε σ α}

theorem pure (a : α) : Runs P (Pure.pure a : EStateM ε σ α) := fun s hs => ⟨a, s, rfl, hs⟩

/-- A lifted computation that is known to succeed. -/
theorem lift_bind {x : Except ε α} {a : α} {f : α → EStateM ε σ β} (hx : x = .ok a)
    (hf : Runs P (f a)) : Runs P (Effect.lift x >>= f) := by
  intro s hs
  obtain ⟨b, s₂, hrun, hs₂⟩ := hf s hs
  exact ⟨b, s₂, lift_bind_ok.mpr ⟨a, hx, hrun⟩, hs₂⟩

theorem bind {f : α → EStateM ε σ β} (hm : Runs P m) (hf : ∀ a, Runs P (f a)) :
    Runs P (m >>= f) := by
  intro s hs
  obtain ⟨a, s₁, hrun, hs₁⟩ := hm s hs
  obtain ⟨b, s₂, hrun', hs₂⟩ := hf a s₁ hs₁
  exact ⟨b, s₂, bind_ok.mpr ⟨a, s₁, hrun, hrun'⟩, hs₂⟩

theorem foldlM {f : β → γ → EStateM ε σ β} :
    ∀ (l : List γ) (b : β), (∀ b, ∀ x ∈ l, Runs P (f b x)) → Runs P (l.foldlM f b)
  | [], b, _ => by
    rw [List.foldlM_nil]
    exact Runs.pure b
  | x :: l, b, h => by
    rw [List.foldlM_cons]
    exact Runs.bind (h b x List.mem_cons_self)
      (fun b' => foldlM l b' (fun b'' y hy => h b'' y (List.mem_cons_of_mem x hy)))

end Runs

/-! ## Computations without a store -/

/-- The computation succeeds, with a result of which `Q` holds. -/
def Yields (m : Except ε α) (Q : α → Prop) : Prop := ∃ a, m = .ok a ∧ Q a

namespace Yields

variable {m : Except ε α} {P Q : α → Prop}

theorem pure {a : α} (h : Q a) : Yields (Pure.pure a : Except ε α) Q := ⟨a, rfl, h⟩

theorem bind {f : α → Except ε β} {S : β → Prop} (hm : Yields m Q)
    (hf : ∀ a, Q a → Yields (f a) S) : Yields (m >>= f) S := by
  obtain ⟨a, rfl, ha⟩ := hm
  exact hf a ha

theorem weaken (h : Yields m P) (hPQ : ∀ a, P a → Q a) : Yields m Q := by
  obtain ⟨a, ha, hP⟩ := h
  exact ⟨a, ha, hPQ a hP⟩

/-- The result is known. -/
theorem eq_ok {a : α} (h : Yields m (fun b => b = a)) : m = .ok a := by
  obtain ⟨b, hb, rfl⟩ := h
  exact hb

end Yields

/-- If the computation succeeds, `Q` holds of the result. -/
def Ensures (m : Except ε α) (Q : α → Prop) : Prop := ∀ a, m = .ok a → Q a

theorem Yields.ensures {m : Except ε α} {Q : α → Prop} (h : Yields m Q) : Ensures m Q := by
  obtain ⟨a, rfl, ha⟩ := h
  rintro b hb
  cases hb
  exact ha

namespace Ensures

variable {m : Except ε α} {P Q : α → Prop}

theorem pure {a : α} (h : Q a) : Ensures (Pure.pure a : Except ε α) Q := by
  intro b hb
  cases hb
  exact h

theorem bind {f : α → Except ε β} {S : β → Prop} (hm : Ensures m Q)
    (hf : ∀ a, Q a → Ensures (f a) S) : Ensures (m >>= f) S := by
  intro b hb
  obtain ⟨a, ha, hb⟩ := except_bind_ok.mp hb
  exact hf a (hm a ha) b hb

theorem weaken (h : Ensures m P) (hPQ : ∀ a, P a → Q a) : Ensures m Q :=
  fun a ha => hPQ a (h a ha)

end Ensures

end SearchEngine.Effect
