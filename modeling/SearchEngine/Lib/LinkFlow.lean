/-
  Weight that flows along the links of a finite graph.

  A `LinkGraph` lists, for every node, the nodes it links to and the nodes that link to it, with
  multiplicity; the two listings are CONVERSES of each other.  A node shares its weight out
  evenly over its links, and what arrives at a node is its `inflow`.

  * `sum_inflow` — nothing is lost and nothing is made up: all that arrives is all the weight of
    the nodes with links.  Counted by target on the left and by source on the right, so this is
    one exchange of two sums.
  * `UnderEnvelope.update` — replacing the weight of ONE node by `b + d * inflow`, in any order
    of nodes, stays under an envelope that is a whole step ahead; `envelope_le` bounds the
    envelope for all times by the number of nodes over `1 - d`, again by `sum_inflow`.
-/
import Mathlib.Algebra.BigOperators.Field
import Mathlib.Algebra.Module.BigOperators
import Mathlib.Algebra.Order.BigOperators.Group.Finset
import Mathlib.Algebra.Order.Field.Basic
import Mathlib.Tactic.Linarith
import Mathlib.Tactic.Ring

namespace SearchEngine.LinkFlow

variable {P K : Type} [DecidableEq P]

/-- The links of a graph, listed from both ends. -/
structure LinkGraph (P : Type) [DecidableEq P] where
  nodes : Finset P
  out : P → List P
  into : P → List P
  converse : ∀ p c, (out p).count c = (into c).count p
  closed : ∀ p, ∀ c ∈ out p, p ∈ nodes ∧ c ∈ nodes

namespace LinkGraph

variable (G : LinkGraph P)

theorem mem_into_iff {p c : P} : p ∈ G.into c ↔ c ∈ G.out p := by
  rw [← List.count_pos_iff, ← List.count_pos_iff, G.converse]

/-! ## What arrives is what was there -/

section Field

variable [Field K]

/-- What a node gives to each of its links. -/
def share (r : P → K) (p : P) : K := r p / (G.out p).length

/-- What arrives at a node. -/
def inflow (r : P → K) (c : P) : K := ((G.into c).map (G.share r)).sum

/-- The inflow, sorted by where it comes from. -/
theorem inflow_eq_sum (r : P → K) (c : P) :
    G.inflow r c = ∑ p ∈ G.nodes, (G.out p).count c • G.share r p := by
  have hsub : (G.into c).toFinset ⊆ G.nodes := by
    intro p hp
    have hmem := List.mem_toFinset.mp hp
    exact (G.closed p c (G.mem_into_iff.mp hmem)).1
  rw [inflow, Finset.sum_list_map_count]
  calc ∑ p ∈ (G.into c).toFinset, (G.into c).count p • G.share r p
      = ∑ p ∈ G.nodes, (G.into c).count p • G.share r p := by
        refine Finset.sum_subset hsub (fun p _ hp => ?_)
        have hzero : (G.into c).count p = 0 :=
          List.count_eq_zero.mpr (fun hmem => hp (List.mem_toFinset.mpr hmem))
        rw [hzero, zero_nsmul]
    _ = ∑ p ∈ G.nodes, (G.out p).count c • G.share r p :=
        Finset.sum_congr rfl (fun p _ => by rw [G.converse])

/-- All links of a node end inside the graph. -/
theorem sum_count_out (p : P) : ∑ c ∈ G.nodes, (G.out p).count c = (G.out p).length := by
  have hsub : (G.out p).toFinset ⊆ G.nodes :=
    fun c hc => (G.closed p c (List.mem_toFinset.mp hc)).2
  rw [← List.sum_toFinset_count_eq_length]
  refine (Finset.sum_subset hsub (fun c _ hc => ?_)).symm
  exact List.count_eq_zero.mpr (fun hmem => hc (List.mem_toFinset.mpr hmem))

variable [CharZero K]

/-- **The weight is conserved.** -/
theorem sum_inflow (r : P → K) :
    ∑ c ∈ G.nodes, G.inflow r c = ∑ p ∈ G.nodes with G.out p ≠ [], r p := by
  calc ∑ c ∈ G.nodes, G.inflow r c
      = ∑ c ∈ G.nodes, ∑ p ∈ G.nodes, (G.out p).count c • G.share r p :=
        Finset.sum_congr rfl (fun c _ => G.inflow_eq_sum r c)
    _ = ∑ p ∈ G.nodes, ∑ c ∈ G.nodes, (G.out p).count c • G.share r p := Finset.sum_comm
    _ = ∑ p ∈ G.nodes, (if G.out p ≠ [] then r p else 0) := by
        refine Finset.sum_congr rfl (fun p _ => ?_)
        rw [← Finset.sum_smul, sum_count_out]
        by_cases hout : G.out p = []
        · simp [hout]
        · have hlen : ((G.out p).length : K) ≠ 0 := by
            rw [Nat.cast_ne_zero]
            exact fun h => hout (List.length_eq_zero_iff.mp h)
          rw [if_pos hout, share, nsmul_eq_mul, mul_div_cancel₀ _ hlen]
    _ = ∑ p ∈ G.nodes with G.out p ≠ [], r p := (Finset.sum_filter _ _).symm

end Field

/-! ## Bounds that survive updates in place -/

section Order

variable [Field K] [LinearOrder K] [IsStrictOrderedRing K]

theorem share_mono {r r' : P → K} (h : ∀ p, r p ≤ r' p) (p : P) : G.share r p ≤ G.share r' p :=
  div_le_div_of_nonneg_right (h p) (Nat.cast_nonneg _)

theorem inflow_mono {r r' : P → K} (h : ∀ p, r p ≤ r' p) (c : P) :
    G.inflow r c ≤ G.inflow r' c :=
  List.sum_le_sum (fun p _ => G.share_mono h p)

theorem inflow_nonneg {r : P → K} (h : ∀ p, 0 ≤ r p) (c : P) : 0 ≤ G.inflow r c := by
  refine List.sum_nonneg (fun a ha => ?_)
  obtain ⟨p, -, rfl⟩ := List.mem_map.mp ha
  exact div_nonneg (h p) (Nat.cast_nonneg _)

/-- An upper bound for all weights behind `t` updates. -/
def envelope (d : K) : Nat → P → K
  | 0, _ => 1
  | t + 1, c => 1 + d * G.inflow (envelope d t) c

variable {b d : K}

theorem one_le_envelope (hd : 0 ≤ d) : ∀ (t : Nat) (c : P), 1 ≤ G.envelope d t c
  | 0, _ => le_refl 1
  | t + 1, c => by
    have hnonneg : ∀ p, 0 ≤ G.envelope d t p :=
      fun p => zero_le_one.trans (one_le_envelope hd t p)
    have hprod : 0 ≤ d * G.inflow (G.envelope d t) c := mul_nonneg hd (G.inflow_nonneg hnonneg c)
    show 1 ≤ 1 + d * G.inflow (G.envelope d t) c
    linarith

/-- The envelope only grows. -/
theorem envelope_le_succ (hd : 0 ≤ d) :
    ∀ (t : Nat) (c : P), G.envelope d t c ≤ G.envelope d (t + 1) c
  | 0, c => G.one_le_envelope hd 1 c
  | t + 1, c => by
    have hflow := G.inflow_mono (envelope_le_succ hd t) c
    show 1 + d * G.inflow (G.envelope d t) c ≤ 1 + d * G.inflow (G.envelope d (t + 1)) c
    have hprod := mul_le_mul_of_nonneg_left hflow hd
    linarith

/-- **The total of the envelope stays bounded**: what a step adds to it is the inflow, and that
    is at most the total before. -/
theorem sum_envelope_le (hd : 0 ≤ d) (hd1 : d < 1) :
    ∀ t : Nat, ∑ c ∈ G.nodes, G.envelope d t c ≤ G.nodes.card / (1 - d)
  | 0 => by
    have hpos : 0 < 1 - d := by linarith
    have hcard : (0 : K) ≤ G.nodes.card := Nat.cast_nonneg _
    have hsum : ∑ c ∈ G.nodes, G.envelope d 0 c = G.nodes.card := by
      simp [envelope]
    rw [hsum, le_div_iff₀ hpos]
    have hprod := mul_nonneg hcard hd
    linarith
  | t + 1 => by
    have hpos : 0 < 1 - d := by linarith
    have ih := sum_envelope_le hd hd1 t
    have hnonneg : ∀ p, 0 ≤ G.envelope d t p :=
      fun p => zero_le_one.trans (G.one_le_envelope hd t p)
    have hflow : ∑ c ∈ G.nodes, G.inflow (G.envelope d t) c
        ≤ ∑ c ∈ G.nodes, G.envelope d t c := by
      rw [sum_inflow]
      exact Finset.sum_le_sum_of_subset_of_nonneg (Finset.filter_subset _ _)
        (fun p _ _ => hnonneg p)
    have hstep : ∑ c ∈ G.nodes, G.envelope d (t + 1) c
        = G.nodes.card + d * ∑ c ∈ G.nodes, G.inflow (G.envelope d t) c := by
      rw [Finset.mul_sum]
      simp only [envelope, Finset.sum_add_distrib, Finset.sum_const, nsmul_eq_mul, mul_one]
    calc ∑ c ∈ G.nodes, G.envelope d (t + 1) c
        = G.nodes.card + d * ∑ c ∈ G.nodes, G.inflow (G.envelope d t) c := hstep
      _ ≤ G.nodes.card + d * (G.nodes.card / (1 - d)) := by
          have hprod := mul_le_mul_of_nonneg_left (hflow.trans ih) hd
          linarith
      _ = G.nodes.card / (1 - d) := by
          rw [eq_div_iff hpos.ne', add_mul, mul_assoc, div_mul_cancel₀ _ hpos.ne']
          ring

/-- So is the envelope at every node. -/
theorem envelope_le (hd : 0 ≤ d) (hd1 : d < 1) (t : Nat) {c : P} (hc : c ∈ G.nodes) :
    G.envelope d t c ≤ G.nodes.card / (1 - d) := by
  have hnonneg : ∀ p ∈ G.nodes, 0 ≤ G.envelope d t p :=
    fun p _ => zero_le_one.trans (G.one_le_envelope hd t p)
  exact (Finset.single_le_sum hnonneg hc).trans (G.sum_envelope_le hd hd1 t)

/-- All weights are at least `b`, and under the envelope of time `t`. -/
def UnderEnvelope (b d : K) (t : Nat) (r : P → K) : Prop :=
  ∀ p, b ≤ r p ∧ r p ≤ G.envelope d t p

/-- **One update in place**: time goes on by one step, whichever node is updated. -/
theorem UnderEnvelope.update {G : LinkGraph P} {t : Nat} {r : P → K} (hb : 0 ≤ b) (hb1 : b ≤ 1)
    (hd : 0 ≤ d) (h : G.UnderEnvelope b d t r) (c : P) :
    G.UnderEnvelope b d (t + 1) (Function.update r c (b + d * G.inflow r c)) := by
  intro p
  by_cases hp : p = c
  · subst hp
    rw [Function.update_self]
    have hlow : 0 ≤ d * G.inflow r p :=
      mul_nonneg hd (G.inflow_nonneg (fun q => hb.trans (h q).1) p)
    have hup : d * G.inflow r p ≤ d * G.inflow (G.envelope d t) p :=
      mul_le_mul_of_nonneg_left (G.inflow_mono (fun q => (h q).2) p) hd
    refine ⟨by linarith, ?_⟩
    show b + d * G.inflow r p ≤ 1 + d * G.inflow (G.envelope d t) p
    linarith
  · rw [Function.update_of_ne hp]
    exact ⟨(h p).1, (h p).2.trans (G.envelope_le_succ hd t p)⟩

end Order

end LinkGraph

end SearchEngine.LinkFlow
