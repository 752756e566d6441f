/-
  Passes in place that close in on a fixed point.

  In a `System` the keys of a list take, one after the other, a base value and a part of the
  weights of all nodes.  No part is negative, and what is taken of ONE node, over all keys, is at
  most a `damping` below one.  A pass does not shrink the distance of two weights by that factor,
  as simultaneous updates would: a key that comes early hands its error on to later keys within
  the same pass.  It does shrink the distance in which every error is counted less what will still
  be taken of it (`weighted_pass_le`), and that distance lies between `1 - damping` and one times
  the plain one.

  * `existsUnique_fixed` — one fixed point for given weights outside the keys; the uniqueness is
    the contraction, the existence that of a linear system that has at most one solution.
  * `sum_gap_iterate_le` — the distance behind `n` passes.
-/
import SearchEngine.Lib.InPlace
import Mathlib.Algebra.BigOperators.Field
import Mathlib.Algebra.Order.BigOperators.Group.List
import Mathlib.Algebra.Order.Field.Basic
import Mathlib.LinearAlgebra.FiniteDimensional.Basic
import Mathlib.Tactic.Linarith
import Mathlib.Tactic.Ring

namespace SearchEngine.InPlace

/-- The keys of a list, and what each of them takes of the weights of the nodes. -/
structure System (P K : Type) [Field K] [LinearOrder K] where
  nodes : Finset P
  keys : List P
  base : P → K
  /-- `part c p` of the weight of `p` is taken by `c`. -/
  part : P → P → K
  damping : K
  nodup : keys.Nodup
  keys_sub : ∀ c ∈ keys, c ∈ nodes
  part_nonneg : ∀ c p, 0 ≤ part c p
  column_le : ∀ p ∈ nodes, (keys.map (fun c => part c p)).sum ≤ damping
  damping_nonneg : 0 ≤ damping
  damping_lt : damping < 1

variable {P K : Type} [Field K] [LinearOrder K]

/-- How far two weights are apart at a node. -/
def gap (w w' : P → K) (p : P) : K := |w p - w' p|

theorem gap_nonneg [IsStrictOrderedRing K] (w w' : P → K) (p : P) : 0 ≤ gap w w' p :=
  abs_nonneg _

namespace System

variable (S : System P K)

/-- What a key takes. -/
def feed (w : P → K) (c : P) : K := S.base c + ∑ p ∈ S.nodes, S.part c p * w p

/-- What the keys `cs` take of a node. -/
def taken (cs : List P) (p : P) : K := (cs.map (fun c => S.part c p)).sum

variable [DecidableEq P]

/-- What the keys `cs` take of a node up to its own turn, with that turn. -/
def before : List P → P → K
  | [], _ => 0
  | c :: cs, p => S.part c p + if p = c then 0 else before cs p

/-- What the keys `cs` take of a node behind its own turn. -/
def behind : List P → P → K
  | [], _ => 0
  | c :: cs, p => if p = c then S.taken cs p else behind cs p

/-! ## What is taken, before and behind -/

omit [DecidableEq P] in
theorem taken_cons (c : P) (cs : List P) (p : P) :
    S.taken (c :: cs) p = S.part c p + S.taken cs p := by
  rw [taken, List.map_cons, List.sum_cons, taken]

theorem before_add_behind :
    ∀ (cs : List P) (p : P), S.before cs p + S.behind cs p = S.taken cs p
  | [], p => by simp [before, behind, taken]
  | c :: cs, p => by
    rw [before, behind, taken_cons]
    by_cases hp : p = c
    · rw [if_pos hp, if_pos hp, add_zero]
    · rw [if_neg hp, if_neg hp, add_assoc, before_add_behind cs p]

theorem before_of_not_mem : ∀ {cs : List P} {p : P}, p ∉ cs → S.before cs p = S.taken cs p
  | [], _, _ => rfl
  | c :: cs, p, h => by
    have hp : p ≠ c := fun heq => h (by simp [heq])
    rw [before, if_neg hp, taken_cons,
      before_of_not_mem (fun hmem => h (List.mem_cons_of_mem c hmem))]

variable [IsStrictOrderedRing K]

omit [DecidableEq P] in
theorem taken_nonneg (cs : List P) (p : P) : 0 ≤ S.taken cs p := by
  refine List.sum_nonneg (fun a ha => ?_)
  obtain ⟨c, -, rfl⟩ := List.mem_map.mp ha
  exact S.part_nonneg c p

theorem behind_nonneg : ∀ (cs : List P) (p : P), 0 ≤ S.behind cs p
  | [], _ => le_refl 0
  | c :: cs, p => by
    rw [behind]
    split
    · exact S.taken_nonneg cs p
    · exact behind_nonneg cs p

theorem before_nonneg : ∀ (cs : List P) (p : P), 0 ≤ S.before cs p
  | [], _ => le_refl 0
  | c :: cs, p => by
    rw [before]
    refine add_nonneg (S.part_nonneg c p) ?_
    split
    · exact le_refl 0
    · exact before_nonneg cs p

/-! ## One pass -/

omit [DecidableEq P] in
theorem gap_feed_le (w w' : P → K) (c : P) :
    |S.feed w c - S.feed w' c| ≤ ∑ p ∈ S.nodes, gap w w' p * S.part c p := by
  have hdiff : S.feed w c - S.feed w' c = ∑ p ∈ S.nodes, S.part c p * (w p - w' p) := by
    rw [feed, feed, add_sub_add_left_eq_sub, ← Finset.sum_sub_distrib]
    exact Finset.sum_congr rfl (fun p _ => (mul_sub _ _ _).symm)
  rw [hdiff]
  refine (Finset.abs_sum_le_sum_abs _ _).trans (le_of_eq (Finset.sum_congr rfl (fun p _ => ?_)))
  rw [abs_mul, abs_of_nonneg (S.part_nonneg c p), gap, mul_comm]

/-- The errors behind a pass, each counted less what was still taken of it, against the errors in
    front of the pass, each counted by what was taken of it before it was replaced. -/
theorem sum_pass_le :
    ∀ {cs : List P} (w w' : P → K), cs.Nodup → (∀ c ∈ cs, c ∈ S.nodes) →
      (cs.map (fun c => gap (pass S.feed cs w) (pass S.feed cs w') c * (1 - S.behind cs c))).sum
        ≤ ∑ p ∈ S.nodes, gap w w' p * S.before cs p
  | [], w, w', _, _ => by simp [before]
  | c :: cs, w, w', hnd, hsub => by
    obtain ⟨hc, hnd⟩ := List.nodup_cons.mp hnd
    have hnode := hsub c (by simp)
    have ih := sum_pass_le (Function.update w c (S.feed w c)) (Function.update w' c (S.feed w' c))
      hnd (fun d hd => hsub d (List.mem_cons_of_mem c hd))
    -- the key itself is replaced, all other nodes are as they were
    have hself : gap (Function.update w c (S.feed w c)) (Function.update w' c (S.feed w' c)) c
        = |S.feed w c - S.feed w' c| := by
      rw [gap, Function.update_self, Function.update_self]
    have hother : ∀ p ∈ S.nodes.erase c,
        gap (Function.update w c (S.feed w c)) (Function.update w' c (S.feed w' c)) p
          * S.before cs p = gap w w' p * (if p = c then 0 else S.before cs p) := by
      intro p hp
      have hne := Finset.ne_of_mem_erase hp
      rw [gap, Function.update_of_ne hne, Function.update_of_ne hne, if_neg hne, gap]
    have hlast : gap (pass S.feed (c :: cs) w) (pass S.feed (c :: cs) w') c
        = |S.feed w c - S.feed w' c| := by
      rw [gap, pass, pass, pass_of_not_mem hc, pass_of_not_mem hc, Function.update_self,
        Function.update_self]
    have htail : (cs.map (fun d => gap (pass S.feed (c :: cs) w) (pass S.feed (c :: cs) w') d
          * (1 - S.behind (c :: cs) d))).sum
        = (cs.map (fun d => gap (pass S.feed cs (Function.update w c (S.feed w c)))
            (pass S.feed cs (Function.update w' c (S.feed w' c))) d
          * (1 - S.behind cs d))).sum := by
      refine congrArg List.sum (List.map_congr_left (fun d hd => ?_))
      have hne : d ≠ c := fun heq => hc (heq ▸ hd)
      rw [behind, if_neg hne, pass, pass]
    have hsplit : ∑ p ∈ S.nodes, gap (Function.update w c (S.feed w c))
          (Function.update w' c (S.feed w' c)) p * S.before cs p
        = |S.feed w c - S.feed w' c| * S.taken cs c
          + ∑ p ∈ S.nodes, gap w w' p * (if p = c then 0 else S.before cs p) := by
      rw [← Finset.add_sum_erase _ _ hnode, hself, S.before_of_not_mem hc,
        Finset.sum_congr rfl hother]
      refine congrArg _ (Finset.sum_erase _ ?_)
      rw [if_pos rfl, mul_zero]
    have hfeed := S.gap_feed_le w w' c
    rw [List.map_cons, List.sum_cons, hlast, htail, behind, if_pos rfl]
    calc |S.feed w c - S.feed w' c| * (1 - S.taken cs c) + _
        ≤ |S.feed w c - S.feed w' c| * (1 - S.taken cs c)
          + (|S.feed w c - S.feed w' c| * S.taken cs c
            + ∑ p ∈ S.nodes, gap w w' p * (if p = c then 0 else S.before cs p)) := by
          rw [← hsplit]
          exact add_le_add_right ih _
      _ = |S.feed w c - S.feed w' c|
          + ∑ p ∈ S.nodes, gap w w' p * (if p = c then 0 else S.before cs p) := by ring
      _ ≤ ∑ p ∈ S.nodes, gap w w' p * S.part c p
          + ∑ p ∈ S.nodes, gap w w' p * (if p = c then 0 else S.before cs p) := by
          linarith
      _ = ∑ p ∈ S.nodes, gap w w' p * S.before (c :: cs) p := by
          rw [← Finset.sum_add_distrib]
          exact Finset.sum_congr rfl (fun p _ => by rw [before, mul_add])

/-! ## The distance that shrinks -/

/-- The weights agree outside the keys. -/
def Agree (w w' : P → K) : Prop := ∀ p, p ∉ S.keys → w p = w' p

/-- The distance of two weights. -/
def distance (w w' : P → K) : K := (S.keys.map (gap w w')).sum

/-- The distance in which every error is counted less what a pass takes of it behind its turn. -/
def weighted (w w' : P → K) : K :=
  (S.keys.map (fun c => gap w w' c * (1 - S.behind S.keys c))).sum

variable {S}

theorem behind_le {c : P} (hc : c ∈ S.keys) : S.behind S.keys c ≤ S.damping := by
  have hcolumn := S.column_le c (S.keys_sub c hc)
  have hsum := S.before_add_behind S.keys c
  have hbefore := S.before_nonneg S.keys c
  rw [taken] at hsum
  linarith

theorem weighted_le (w w' : P → K) : S.weighted w w' ≤ S.distance w w' := by
  refine List.sum_le_sum (fun c hc => ?_)
  have hprod := mul_nonneg (gap_nonneg w w' c) (S.behind_nonneg S.keys c)
  linarith

theorem le_weighted (w w' : P → K) : (1 - S.damping) * S.distance w w' ≤ S.weighted w w' := by
  rw [distance, ← List.sum_map_mul_left]
  refine List.sum_le_sum (fun c hc => ?_)
  have hprod := mul_le_mul_of_nonneg_left (behind_le hc) (gap_nonneg w w' c)
  linarith

theorem sum_nodes_eq {w w' : P → K} (h : S.Agree w w') (g : P → K) :
    ∑ p ∈ S.nodes, gap w w' p * g p = (S.keys.map (fun p => gap w w' p * g p)).sum := by
  rw [← List.sum_toFinset _ S.nodup]
  symm
  refine Finset.sum_subset (fun p hp => S.keys_sub p (List.mem_toFinset.mp hp)) (fun p _ hp => ?_)
  have hsame := h p (fun hmem => hp (List.mem_toFinset.mpr hmem))
  rw [gap, hsame, sub_self, abs_zero, zero_mul]

/-- **A pass contracts** the weighted distance. -/
theorem weighted_pass_le {w w' : P → K} (h : S.Agree w w') :
    S.weighted (pass S.feed S.keys w) (pass S.feed S.keys w') ≤ S.damping * S.weighted w w' := by
  refine (S.sum_pass_le w w' S.nodup S.keys_sub).trans ?_
  rw [sum_nodes_eq h, weighted, ← List.sum_map_mul_left]
  refine List.sum_le_sum (fun c hc => ?_)
  have hcolumn := S.column_le c (S.keys_sub c hc)
  have hsum := S.before_add_behind S.keys c
  rw [taken] at hsum
  have hbehind := S.behind_nonneg S.keys c
  have hless : S.damping * S.behind S.keys c ≤ S.behind S.keys c := by
    have hprod := mul_le_mul_of_nonneg_right S.damping_lt.le hbehind
    linarith
  have hbound : S.before S.keys c ≤ S.damping * (1 - S.behind S.keys c) := by
    rw [mul_sub, mul_one]
    linarith
  have hprod := mul_le_mul_of_nonneg_left hbound (gap_nonneg w w' c)
  linarith

omit [IsStrictOrderedRing K] in
theorem agree_pass {w w' : P → K} (h : S.Agree w w') :
    S.Agree (pass S.feed S.keys w) (pass S.feed S.keys w') := by
  intro p hp
  rw [pass_of_not_mem hp, pass_of_not_mem hp]
  exact h p hp

theorem weighted_iterate_le {w w' : P → K} (h : S.Agree w w') :
    ∀ n : Nat, S.weighted ((pass S.feed S.keys)^[n] w) ((pass S.feed S.keys)^[n] w')
      ≤ S.damping ^ n * S.weighted w w'
  | 0 => by rw [pow_zero, one_mul]; exact le_refl _
  | n + 1 => by
    have ih := weighted_iterate_le (agree_pass h) n
    have hstep := mul_le_mul_of_nonneg_left (weighted_pass_le h) (pow_nonneg S.damping_nonneg n)
    rw [Function.iterate_succ_apply, Function.iterate_succ_apply, pow_succ, mul_assoc]
    exact ih.trans hstep

/-! ## The fixed point -/

variable (S) in
/-- Every key has what it takes. -/
def Fixed (w : P → K) : Prop := ∀ c ∈ S.keys, w c = S.feed w c

omit [IsStrictOrderedRing K] in
theorem iterate_of_fixed {w : P → K} (h : S.Fixed w) (n : Nat) :
    (pass S.feed S.keys)^[n] w = w :=
  Function.iterate_fixed (pass_of_fixed h) n

/-- **The distance from a fixed point behind `n` passes.** -/
theorem distance_iterate_le {w w' : P → K} (h : S.Agree w w') (hfixed : S.Fixed w') (n : Nat) :
    (1 - S.damping) * S.distance ((pass S.feed S.keys)^[n] w) w'
      ≤ S.damping ^ n * S.distance w w' := by
  have hcontract := weighted_iterate_le h n
  rw [iterate_of_fixed hfixed] at hcontract
  calc (1 - S.damping) * S.distance ((pass S.feed S.keys)^[n] w) w'
      ≤ S.weighted ((pass S.feed S.keys)^[n] w) w' := le_weighted _ _
    _ ≤ S.damping ^ n * S.weighted w w' := hcontract
    _ ≤ S.damping ^ n * S.distance w w' :=
        mul_le_mul_of_nonneg_left (weighted_le w w') (pow_nonneg S.damping_nonneg n)

theorem eq_of_distance_eq_zero {w w' : P → K} (h : S.Agree w w') (hzero : S.distance w w' = 0) :
    w = w' := by
  funext p
  by_cases hp : p ∈ S.keys
  · have hle : gap w w' p ≤ S.distance w w' :=
      List.single_le_sum (fun a ha => by
        obtain ⟨c, -, rfl⟩ := List.mem_map.mp ha
        exact gap_nonneg w w' c) _ (List.mem_map_of_mem hp)
    rw [hzero] at hle
    have habs : |w p - w' p| = 0 := le_antisymm hle (abs_nonneg _)
    exact sub_eq_zero.mp (abs_eq_zero.mp habs)
  · exact h p hp

/-- Two fixed points with the same weights outside the keys are the same. -/
theorem Fixed.unique {w w' : P → K} (hw : S.Fixed w) (hw' : S.Fixed w') (h : S.Agree w w') :
    w = w' := by
  have hweight := weighted_pass_le h
  rw [pass_of_fixed hw, pass_of_fixed hw'] at hweight
  have hpos : 0 < 1 - S.damping := by linarith [S.damping_lt]
  have hnonneg : 0 ≤ S.distance w w' := List.sum_nonneg (fun a ha => by
    obtain ⟨c, -, rfl⟩ := List.mem_map.mp ha
    exact gap_nonneg w w' c)
  -- the weighted distance is at most `damping` times itself
  have hweighted : S.weighted w w' ≤ 0 := by
    by_contra hlt
    have hshrink := mul_lt_mul_of_pos_right S.damping_lt (not_le.mp hlt)
    linarith
  have hle := (le_weighted w w').trans hweighted
  have hprod := mul_nonneg hpos.le hnonneg
  have hzero : (1 - S.damping) * S.distance w w' = 0 := le_antisymm hle hprod
  exact eq_of_distance_eq_zero h ((mul_eq_zero.mp hzero).resolve_left hpos.ne')

variable (S) in
/-- Weights of the keys, and zero outside them. -/
def extend (v : {c // c ∈ S.keys} → K) (p : P) : K := if h : p ∈ S.keys then v ⟨p, h⟩ else 0

omit [IsStrictOrderedRing K] in
theorem extend_key (v : {c // c ∈ S.keys} → K) (c : {c // c ∈ S.keys}) :
    S.extend v c = v c := dif_pos c.2

variable (S) in
/-- What a key has beyond what it takes of the other keys. -/
def excess : ({c // c ∈ S.keys} → K) →ₗ[K] {c // c ∈ S.keys} → K where
  toFun v c := v c - ∑ p ∈ S.nodes, S.part c p * S.extend v p
  map_add' v v' := by
    funext c
    have hextend : ∀ p, S.extend (v + v') p = S.extend v p + S.extend v' p := by
      intro p
      unfold extend
      split
      · rfl
      · rw [add_zero]
    simp only [hextend, mul_add, Finset.sum_add_distrib, Pi.add_apply]
    ring
  map_smul' k v := by
    funext c
    have hextend : ∀ p, S.part c p * S.extend (k • v) p = k * (S.part c p * S.extend v p) := by
      intro p
      unfold extend
      split
      · rw [Pi.smul_apply, smul_eq_mul, mul_left_comm]
      · rw [mul_zero, mul_zero]
    simp only [hextend, ← Finset.mul_sum, Pi.smul_apply, smul_eq_mul, RingHom.id_apply, mul_sub]

/-- A system with base zero has only the fixed point zero. -/
theorem excess_injective : Function.Injective S.excess := by
  rw [← LinearMap.ker_eq_bot, LinearMap.ker_eq_bot']
  intro v hv
  have hfixed : System.Fixed { S with base := fun _ => 0 } (S.extend v) := by
    intro c hc
    have hzero : v ⟨c, hc⟩ - ∑ p ∈ S.nodes, S.part c p * S.extend v p = 0 := congrFun hv ⟨c, hc⟩
    rw [← S.extend_key v ⟨c, hc⟩] at hzero
    rw [feed, zero_add]
    exact sub_eq_zero.mp hzero
  have hnull : System.Fixed { S with base := fun _ => 0 } (fun _ => 0) := by
    intro c _
    simp [feed]
  have heq := hfixed.unique hnull (fun p hp => dif_neg hp)
  funext c
  rw [← S.extend_key v c, heq]
  rfl

theorem exists_fixed (w₀ : P → K) : ∃ w, S.Agree w w₀ ∧ S.Fixed w := by
  have hsurj := LinearMap.injective_iff_surjective.mp S.excess_injective
  -- what a key takes from outside the keys
  obtain ⟨v, hv⟩ := hsurj (fun c => S.feed (fun p => if p ∈ S.keys then 0 else w₀ p) c)
  refine ⟨fun p => S.extend v p + if p ∈ S.keys then 0 else w₀ p, fun p hp => ?_, fun c hc => ?_⟩
  · show S.extend v p + _ = w₀ p
    rw [extend, dif_neg hp, if_neg hp, zero_add]
  · have hc' : v ⟨c, hc⟩ - ∑ p ∈ S.nodes, S.part c p * S.extend v p
        = S.feed (fun p => if p ∈ S.keys then 0 else w₀ p) c := congrFun hv ⟨c, hc⟩
    rw [← S.extend_key v ⟨c, hc⟩] at hc'
    show S.extend v c + _ = _
    rw [if_pos hc, add_zero, feed]
    simp only [mul_add, Finset.sum_add_distrib]
    rw [feed] at hc'
    linarith

/-- **One fixed point** for given weights outside the keys. -/
theorem existsUnique_fixed (w₀ : P → K) : ∃! w, S.Agree w w₀ ∧ S.Fixed w := by
  obtain ⟨w, hagree, hfixed⟩ := S.exists_fixed w₀
  refine ⟨w, ⟨hagree, hfixed⟩, ?_⟩
  rintro w' ⟨hagree', hfixed'⟩
  exact hfixed'.unique hfixed (fun p hp => (hagree' p hp).trans (hagree p hp).symm)

end System

end SearchEngine.InPlace
