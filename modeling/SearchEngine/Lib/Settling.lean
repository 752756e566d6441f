/-
  Passes in place along a graph without cycles.

  Where a key takes its value from a few other keys only, and no key comes back to itself that
  way, a key settles as soon as all it depends on has settled (`settled_succ`), whatever the
  function and whatever the order of the pass.  Among the keys that have not settled there is
  always one that depends on none of them, so every pass settles one more, and behind as many
  passes as there are keys nothing moves any more (`settled_of_acyclic`).  No arithmetic is used.
-/
import SearchEngine.Lib.InPlace
import Mathlib.Data.Finset.Card
import Mathlib.Data.Fintype.Card
import Mathlib.Data.Fintype.EquivFin
import Mathlib.Logic.Relation
import Mathlib.Order.WellFounded
import Mathlib.Tactic.Common

namespace SearchEngine.InPlace

variable {P K : Type} {f : (P → K) → P → K} {dep : P → List P}

/-- The value of a key only depends on the weights of the keys listed for it. -/
def DependsOn (f : (P → K) → P → K) (dep : P → List P) : Prop :=
  ∀ w w' c, (∀ p ∈ dep c, w p = w' p) → f w c = f w' c

/-- No key comes back to itself. -/
def Acyclic (dep : P → List P) : Prop := ∀ c, ¬ Relation.TransGen (fun p c => p ∈ dep c) c c

/-- Among finitely many keys of a graph without cycles, one depends on none of the others. -/
theorem Acyclic.exists_free (h : Acyclic dep) (U : Finset P) (hne : U.Nonempty) :
    ∃ c ∈ U, ∀ p ∈ dep c, p ∉ U := by
  -- the dependencies among the keys, made transitive, are a well-founded order
  let r : {c // c ∈ U} → {c // c ∈ U} → Prop :=
    fun p c => Relation.TransGen (fun p c => p ∈ dep c) p.1 c.1
  have htrans : IsTrans {c // c ∈ U} r := ⟨fun _ _ _ h₁ h₂ => h₁.trans h₂⟩
  have hirrefl : Std.Irrefl r := ⟨fun c hc => h c.1 hc⟩
  have hwf : WellFounded r := Finite.wellFounded_of_trans_of_irrefl r
  obtain ⟨d, hd⟩ := hne
  obtain ⟨c, -, hmin⟩ := hwf.has_min Set.univ ⟨⟨d, hd⟩, trivial⟩
  exact ⟨c.1, c.2, fun p hp hpU => hmin ⟨p, hpU⟩ trivial (.single hp)⟩

variable [DecidableEq P]

/-- What a key takes in a pass, it takes from weights of before or behind the pass. -/
theorem pass_turn {c : P} :
    ∀ {cs : List P} {w : P → K}, cs.Nodup → c ∈ cs →
      ∃ u : P → K, pass f cs w c = f u c ∧ ∀ p, u p = w p ∨ u p = pass f cs w p
  | [], _, _, hc => by cases hc
  | d :: cs, w, hnd, hc => by
    obtain ⟨hd, hnd⟩ := List.nodup_cons.mp hnd
    have hself : pass f (d :: cs) w d = f w d := by
      rw [pass, pass_of_not_mem hd, Function.update_self]
    by_cases hcd : c = d
    · subst hcd
      exact ⟨w, hself, fun p => Or.inl rfl⟩
    · obtain ⟨u, hu, hmix⟩ := pass_turn (w := Function.update w d (f w d)) hnd
        ((List.mem_cons.mp hc).resolve_left hcd)
      refine ⟨u, hu, fun p => ?_⟩
      rcases hmix p with hold | hnew
      · by_cases hp : p = d
        · subst hp
          right
          rw [hold, Function.update_self, hself]
        · left
          rw [hold, Function.update_of_ne hp]
      · exact Or.inr hnew

/-- A pass that moves no weight has found every key at what it takes. -/
theorem fixed_of_pass_eq :
    ∀ {cs : List P} {w : P → K}, cs.Nodup → (∀ c ∈ cs, pass f cs w c = w c) →
      ∀ c ∈ cs, f w c = w c
  | [], _, _, _ => fun _ hc => by cases hc
  | d :: cs, w, hnd, h => by
    obtain ⟨hd, hnd⟩ := List.nodup_cons.mp hnd
    have hself : f w d = w d := by
      have hfirst := h d (by simp)
      rw [pass, pass_of_not_mem hd, Function.update_self] at hfirst
      exact hfirst
    have hrest : ∀ c ∈ cs, pass f cs w c = w c := by
      intro c hc
      have hlater := h c (List.mem_cons_of_mem d hc)
      rw [pass, hself, Function.update_eq_self] at hlater
      exact hlater
    intro c hc
    rcases List.mem_cons.mp hc with rfl | hc
    · exact hself
    · exact fixed_of_pass_eq hnd hrest c hc

/-- From `k` passes on the weight of a key does not change. -/
def Settled (f : (P → K) → P → K) (cs : List P) (w : P → K) (k : Nat) (p : P) : Prop :=
  ∀ n, k ≤ n → (pass f cs)^[n] w p = (pass f cs)^[k] w p

variable {cs : List P} {w : P → K}

theorem Settled.mono {k m : Nat} {p : P} (h : Settled f cs w k p) (hkm : k ≤ m) :
    Settled f cs w m p := by
  intro n hn
  rw [h n (by omega), h m hkm]

theorem settled_of_not_mem {p : P} (hp : p ∉ cs) (k : Nat) : Settled f cs w k p := by
  intro n _
  rw [iterate_pass_of_not_mem hp, iterate_pass_of_not_mem hp]

/-- **A key settles one pass behind what it depends on.** -/
theorem settled_succ (hf : DependsOn f dep) (hnd : cs.Nodup) {k : Nat} {c : P}
    (h : ∀ p ∈ dep c, Settled f cs w k p) : Settled f cs w (k + 1) c := by
  by_cases hc : c ∈ cs
  · -- every later pass computes the value from the weights behind pass `k`
    have hvalue : ∀ n, k ≤ n → (pass f cs)^[n + 1] w c = f ((pass f cs)^[k] w) c := by
      intro n hn
      rw [Function.iterate_succ_apply']
      obtain ⟨u, hu, hmix⟩ := pass_turn (f := f) (w := (pass f cs)^[n] w) hnd hc
      rw [hu]
      apply hf
      intro p hp
      rcases hmix p with hold | hnew
      · rw [hold, h p hp n hn]
      · rw [hnew, ← Function.iterate_succ_apply' (pass f cs), h p hp (n + 1) (by omega)]
    intro n hn
    obtain ⟨m, rfl⟩ : ∃ m, n = m + 1 := ⟨n - 1, by omega⟩
    rw [hvalue m (by omega), hvalue k (Nat.le_refl k)]
  · exact settled_of_not_mem hc _

open Classical in
/-- The keys that have not settled. -/
noncomputable def unsettled (f : (P → K) → P → K) (cs : List P) (w : P → K) (k : Nat) : Finset P :=
  {p ∈ cs.toFinset | ¬ Settled f cs w k p}

theorem mem_unsettled {k : Nat} {p : P} :
    p ∈ unsettled f cs w k ↔ p ∈ cs ∧ ¬ Settled f cs w k p := by
  classical
  rw [unsettled, Finset.mem_filter, List.mem_toFinset]

/-- Every pass settles one more key. -/
theorem card_unsettled (hf : DependsOn f dep) (hacyclic : Acyclic dep) (hnd : cs.Nodup) :
    ∀ k, unsettled f cs w k = ∅ ∨ (unsettled f cs w k).card + k ≤ cs.length
  | 0 => by
    right
    have hle : (unsettled f cs w 0).card ≤ cs.toFinset.card :=
      Finset.card_le_card (fun p hp => List.mem_toFinset.mpr (mem_unsettled.mp hp).1)
    rw [List.toFinset_card_of_nodup hnd] at hle
    omega
  | k + 1 => by
    have hsub : unsettled f cs w (k + 1) ⊆ unsettled f cs w k := by
      intro p hp
      obtain ⟨hmem, hnot⟩ := mem_unsettled.mp hp
      exact mem_unsettled.mpr ⟨hmem, fun hs => hnot (hs.mono (Nat.le_succ k))⟩
    rcases card_unsettled hf hacyclic hnd k with hnil | hle
    · exact Or.inl (Finset.subset_empty.mp (hnil ▸ hsub))
    · rcases (unsettled f cs w k).eq_empty_or_nonempty with hnil | hne
      · exact Or.inl (Finset.subset_empty.mp (hnil ▸ hsub))
      · right
        obtain ⟨c, hc, hfree⟩ := hacyclic.exists_free _ hne
        have hsettled : Settled f cs w (k + 1) c := by
          refine settled_succ hf hnd (fun p hp => ?_)
          by_cases hmem : p ∈ cs
          · by_contra hnot
            exact hfree p hp (mem_unsettled.mpr ⟨hmem, hnot⟩)
          · exact settled_of_not_mem hmem k
        have hlt : (unsettled f cs w (k + 1)).card < (unsettled f cs w k).card := by
          apply Finset.card_lt_card
          refine ⟨hsub, fun hcon => ?_⟩
          exact (mem_unsettled.mp (hcon hc)).2 hsettled
        omega

/-- **Behind as many passes as there are keys, everything has settled.** -/
theorem settled_of_acyclic (hf : DependsOn f dep) (hacyclic : Acyclic dep) (hnd : cs.Nodup)
    (p : P) : Settled f cs w cs.length p := by
  have hnone : unsettled f cs w cs.length = ∅ := by
    rcases card_unsettled (w := w) hf hacyclic hnd cs.length with hnil | hle
    · exact hnil
    · exact Finset.card_eq_zero.mp (by omega)
  by_cases hp : p ∈ cs
  · by_contra hnot
    have hmem := mem_unsettled.mpr ⟨hp, hnot⟩
    rw [hnone] at hmem
    cases hmem
  · exact settled_of_not_mem hp _

end SearchEngine.InPlace
