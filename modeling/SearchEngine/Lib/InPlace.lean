/-
  Weights that are updated in place, along a list of keys.

  `pass f cs w` goes through `cs` once: each key takes the value that `f` computes from the
  weights as they are at its turn, so later keys already see the new weights of earlier ones.
  For a monotone `f` the whole pass is monotone (`pass_mono`), and whether it raises every weight
  can be told turn by turn (`le_pass_iff`); what the first pass raises, all later ones raise too
  (`le_iterate_pass`).
-/
import Mathlib.Logic.Function.Basic
import Mathlib.Order.Iterate
import Mathlib.Tactic.Common

namespace SearchEngine.InPlace

variable {P K : Type} [DecidableEq P] {f : (P → K) → P → K}

/-- One pass over the keys. -/
def pass (f : (P → K) → P → K) : List P → (P → K) → P → K
  | [], w => w
  | c :: cs, w => pass f cs (Function.update w c (f w c))

/-- `R` holds of the weights at the turn of every key. -/
def EachTurn (f : (P → K) → P → K) (R : (P → K) → P → Prop) : List P → (P → K) → Prop
  | [], _ => True
  | c :: cs, w => R w c ∧ EachTurn f R cs (Function.update w c (f w c))

theorem pass_of_not_mem {c : P} :
    ∀ {cs : List P} {w : P → K}, c ∉ cs → pass f cs w c = w c
  | [], _, _ => rfl
  | d :: cs, w, h => by
    have hne : c ≠ d := fun heq => h (by simp [heq])
    rw [pass, pass_of_not_mem (fun hmem => h (List.mem_cons_of_mem d hmem)),
      Function.update_of_ne hne]

/-- Keys outside the list are not touched by any number of passes. -/
theorem iterate_pass_of_not_mem {cs : List P} {c : P} (h : c ∉ cs) (w : P → K) :
    ∀ k : Nat, (pass f cs)^[k] w c = w c
  | 0 => rfl
  | k + 1 => by
    rw [Function.iterate_succ_apply', pass_of_not_mem h, iterate_pass_of_not_mem h w k]

/-- A pass where every key already has what it would take. -/
theorem pass_of_fixed {w : P → K} :
    ∀ {cs : List P}, (∀ c ∈ cs, w c = f w c) → pass f cs w = w
  | [], _ => rfl
  | c :: cs, h => by
    rw [pass, ← h c (by simp), Function.update_eq_self]
    exact pass_of_fixed (fun d hd => h d (List.mem_cons_of_mem c hd))

/-- Two conditions that agree where a key still has the weight from before the pass. -/
theorem eachTurn_congr {R R' : (P → K) → P → Prop} :
    ∀ {cs : List P} {w : P → K}, cs.Nodup →
      (∀ w' c, c ∈ cs → w' c = w c → (R w' c ↔ R' w' c)) →
      (EachTurn f R cs w ↔ EachTurn f R' cs w)
  | [], _, _, _ => Iff.rfl
  | c :: cs, w, hnd, h => by
    obtain ⟨hc, hnd⟩ := List.nodup_cons.mp hnd
    refine and_congr (h w c (by simp) rfl) (eachTurn_congr hnd (fun w' d hd heq => ?_))
    have hne : d ≠ c := fun hdc => hc (hdc ▸ hd)
    rw [Function.update_of_ne hne] at heq
    exact h w' d (List.mem_cons_of_mem c hd) heq

section Order

variable [Preorder K]

theorem pass_mono (hf : Monotone f) : ∀ cs : List P, Monotone (pass f cs)
  | [] => monotone_id
  | c :: cs => fun w w' hw => by
    have hupdate : Function.update w c (f w c) ≤ Function.update w' c (f w' c) :=
      update_le_update_iff.mpr ⟨hf hw c, fun d _ => hw d⟩
    exact pass_mono hf cs hupdate

/-- **A pass raises every weight just when no turn lowers one.** -/
theorem le_pass_iff :
    ∀ {cs : List P} {w : P → K}, cs.Nodup →
      (w ≤ pass f cs w ↔ EachTurn f (fun w c => w c ≤ f w c) cs w)
  | [], w, _ => ⟨fun _ => trivial, fun _ => le_refl w⟩
  | c :: cs, w, hnd => by
    obtain ⟨hc, hnd⟩ := List.nodup_cons.mp hnd
    -- the key itself comes up only once
    have hself : pass f (c :: cs) w c = f w c := by
      rw [pass, pass_of_not_mem hc, Function.update_self]
    rw [EachTurn, ← le_pass_iff hnd]
    constructor
    · intro h
      have hturn : w c ≤ f w c := hself ▸ h c
      exact ⟨hturn, update_le_iff.mpr ⟨le_of_eq hself.symm, fun d _ => h d⟩⟩
    · rintro ⟨hturn, hrest⟩
      exact le_trans (le_update_iff.mpr ⟨hturn, fun d _ => le_refl (w d)⟩) hrest

/-- What holds at each of the keys for all weights above `w` holds at every turn, if no turn falls
    below `w`. -/
theorem eachTurn_of_le {R : (P → K) → P → Prop} {w : P → K} :
    ∀ {cs : List P} {w' : P → K}, (∀ w', w ≤ w' → ∀ c ∈ cs, R w' c ∧ w c ≤ f w' c) → w ≤ w' →
      EachTurn f R cs w'
  | [], _, _, _ => trivial
  | c :: cs, w', h, hw => by
    obtain ⟨hR, hturn⟩ := h w' hw c (by simp)
    have habove : w ≤ Function.update w' c (f w' c) :=
      le_update_iff.mpr ⟨hturn, fun d _ => hw d⟩
    exact ⟨hR, eachTurn_of_le (fun w'' hw'' d hd => h w'' hw'' d (by simp [hd])) habove⟩

/-- Raised once, raised for ever. -/
theorem le_iterate_pass (hf : Monotone f) {cs : List P} {w : P → K} (h : w ≤ pass f cs w)
    (k : Nat) : w ≤ (pass f cs)^[k] w :=
  (pass_mono hf cs).monotone_iterate_of_le_map h (Nat.zero_le k)

end Order

end SearchEngine.InPlace
