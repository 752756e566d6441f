/-
  `for` loops over an index, whose bodies may throw.

  There are two kinds.  A loop that runs to its bound is a fold over `List.range`, and its rule
  (`foldlM_range`) is the usual one: an invariant indexed by the number of rounds done.  A loop
  that may `break` is `scan`: it moves the index up until the test says stop or the bound is
  reached, and returns the index at which it was left, together with the fact that the index never
  went back.  Its rule (`scan_yields`) needs the tests to succeed BELOW the bound only.
-/
import SearchEngine.Lib.Effect
import Mathlib.Tactic.Common

namespace SearchEngine.Effect

variable {ε β : Type}

/-- **The rule of a loop to a bound.** -/
theorem foldlM_range {I : Nat → β → Prop} {f : β → Nat → Except ε β} {b : β} (hb : I 0 b) :
    ∀ n, (∀ k b, k < n → I k b → Yields (f b k) (I (k + 1))) →
      Yields ((List.range n).foldlM f b) (I n)
  | 0, _ => Yields.pure hb
  | n + 1, hstep => by
    have hfront := foldlM_range hb n (fun k b hk => hstep k b (by omega))
    rw [List.range_succ, List.foldlM_append]
    refine hfront.bind (fun b' hb' => ?_)
    rw [List.foldlM_cons]
    exact (hstep n b' (by omega) hb').bind (fun b'' hb'' => Yields.pure hb'')

/-- `for ( ; i < bound; i++ ) if ( stop(i) ) break;` and the index it leaves. -/
def scan (stop : Nat → Except ε Bool) (bound i : Nat) : Except ε {j : Nat // i ≤ j} :=
  if _h : i < bound then do
    if ← stop i then pure ⟨i, Nat.le_refl i⟩
    else
      let ⟨j, hj⟩ ← scan stop bound (i + 1)
      pure ⟨j, Nat.le_of_succ_le hj⟩
  else pure ⟨i, Nat.le_refl i⟩
termination_by bound - i
decreasing_by omega

variable {stop : Nat → Except ε Bool} {bound i : Nat}

theorem scan_of_le (h : bound ≤ i) : scan stop bound i = .ok ⟨i, Nat.le_refl i⟩ := by
  rw [scan, dif_neg (by omega)]
  rfl

/-- **The rule of a loop with a `break`**: it is left inside the bound where the test holds, or at
    the bound, and what a failed test carries from one index to the next holds there. -/
theorem scan_yields {p : Nat → Bool} {I : Nat → Prop} (hstop : ∀ k, k < bound → stop k = .ok (p k))
    (hstep : ∀ k, k < bound → p k = false → I k → I (k + 1)) :
    ∀ i, i ≤ bound → I i →
      Yields (scan stop bound i) (fun j => j.1 ≤ bound ∧ I j.1 ∧ (j.1 < bound → p j.1 = true)) := by
  intro i hi hI
  by_cases h : i < bound
  · rw [scan, dif_pos h, hstop i h, except_ok_bind]
    cases hp : p i with
    | true => exact Yields.pure ⟨hi, hI, fun _ => hp⟩
    | false =>
      have hrest := scan_yields hstop hstep (i + 1) h (hstep i h hp hI)
      exact hrest.bind (fun j hj => Yields.pure hj)
  · rw [scan_of_le (by omega)]
    exact Yields.pure ⟨hi, hI, fun hlt => absurd hlt h⟩
termination_by i => bound - i
decreasing_by omega

end SearchEngine.Effect
