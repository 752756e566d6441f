/-
  How often the elements of a list occur, and the inequality of Cauchy and Schwarz for it.

  `sumSquares l` adds up the squared counts of the distinct elements of `l`: the squared norm of
  `l` as a vector of counts.  It does not change under an injective renaming (`sumSquares_map`),
  vanishes for the empty list alone (`sumSquares_pos_iff`), and can be read off any table of the
  counts (`sumSquares_table`).

  `sq_sum_count_le` sets one list against another: how often the elements of `q` occur in `l`, all
  together, is at most the root of `sumSquares l` times the norm of `q`, and that norm is bounded
  by the length of `q` and by the largest count in it.
-/
import Mathlib.Algebra.BigOperators.Group.Finset.Basic
import Mathlib.Algebra.Order.BigOperators.Group.Finset
import Mathlib.Algebra.Order.BigOperators.Ring.Finset
import Mathlib.Tactic.Common
import Mathlib.Tactic.Ring

namespace SearchEngine.Counting

variable {α β : Type} [DecidableEq α] [BEq α] [LawfulBEq α] [DecidableEq β] [BEq β] [LawfulBEq β]

/-- Lawful equality tests count alike. -/
theorem count_decEq (a : α) (l : List α) :
    @List.count α instBEqOfDecidableEq a l = l.count a := by
  unfold List.count
  exact List.countP_congr (fun b _ => by simp)

/-- The sum of the squared counts of the distinct elements. -/
def sumSquares (l : List α) : Nat := ∑ a ∈ l.toFinset, l.count a ^ 2

theorem sumSquares_pos_iff {l : List α} : 0 < sumSquares l ↔ l ≠ [] := by
  constructor
  · rintro h rfl
    exact absurd h (by simp [sumSquares])
  · intro hne
    obtain ⟨a, ha⟩ := List.exists_mem_of_ne_nil l hne
    refine Finset.sum_pos (fun b hb => ?_) ⟨a, List.mem_toFinset.mpr ha⟩
    have hpos : 0 < l.count b := List.count_pos_iff.mpr (List.mem_toFinset.mp hb)
    exact Nat.pow_pos hpos

/-- Renaming the elements one to one changes nothing. -/
theorem sumSquares_map {g : α → β} {l : List α} (hg : ∀ a ∈ l, ∀ b ∈ l, g a = g b → a = b) :
    sumSquares (l.map g) = sumSquares l := by
  have himage : (l.map g).toFinset = l.toFinset.image g := by
    ext b
    simp
  have hcount : ∀ a ∈ l, (l.map g).count (g a) = l.count a := by
    intro a ha
    rw [List.count, List.countP_map, List.count]
    refine List.countP_congr (fun b hb => ?_)
    simp only [Function.comp, beq_iff_eq]
    exact ⟨fun h => hg b hb a ha h, fun h => by rw [h]⟩
  rw [sumSquares, himage, Finset.sum_image]
  · exact Finset.sum_congr rfl (fun a ha => by rw [hcount a (List.mem_toFinset.mp ha)])
  · intro a ha b hb h
    exact hg a (List.mem_toFinset.mp ha) b (List.mem_toFinset.mp hb) h

/-- A table that has every element of the list once, with its count. -/
theorem sumSquares_table {l : List α} {table : List (α × Nat)} (hkeys : (table.map Prod.fst).Nodup)
    (hfreq : ∀ e ∈ table, e.2 = l.count e.1) (hall : ∀ a ∈ l, a ∈ table.map Prod.fst) :
    (table.map (fun e => e.2 ^ 2)).sum = sumSquares l := by
  have hsum : (table.map (fun e => e.2 ^ 2)).sum
      = ((table.map Prod.fst).map (fun a => l.count a ^ 2)).sum := by
    rw [List.map_map]
    exact congrArg List.sum (List.map_congr_left (fun e he => by rw [hfreq e he]; rfl))
  rw [hsum, ← List.sum_toFinset _ hkeys, sumSquares]
  -- the keys that do not occur in the list count for nothing
  refine (Finset.sum_subset (fun a ha => ?_) (fun a _ ha => ?_)).symm
  · exact List.mem_toFinset.mpr (hall a (List.mem_toFinset.mp ha))
  · rw [List.count_eq_zero.mpr (fun hmem => ha (List.mem_toFinset.mpr hmem))]
    rfl

/-- **The inequality.** -/
theorem sq_sum_count_le (q l : List α) {M : Nat} (hM : ∀ a, q.count a ≤ M) :
    (q.map l.count).sum ^ 2 ≤ sumSquares l * q.length * M := by
  have hsum : (q.map l.count).sum = ∑ a ∈ q.toFinset, q.count a * l.count a := by
    rw [Finset.sum_list_map_count]
    exact Finset.sum_congr rfl (fun a _ => by rw [count_decEq]; rfl)
  have hlength : ∑ a ∈ q.toFinset, q.count a = q.length := by
    rw [← List.sum_toFinset_count_eq_length q]
    exact Finset.sum_congr rfl (fun a _ => (count_decEq a q).symm)
  have hq : ∑ a ∈ q.toFinset, q.count a ^ 2 ≤ M * q.length := by
    rw [← hlength, Finset.mul_sum]
    refine Finset.sum_le_sum (fun a _ => ?_)
    rw [sq]
    exact Nat.mul_le_mul_right _ (hM a)
  have hl : ∑ a ∈ q.toFinset, l.count a ^ 2 ≤ sumSquares l := by
    refine Finset.sum_le_sum_of_ne_zero (fun a _ hne => ?_)
    refine List.mem_toFinset.mpr (List.count_pos_iff.mp (Nat.pos_of_ne_zero (fun h0 => hne ?_)))
    rw [h0]
    rfl
  calc (q.map l.count).sum ^ 2
      = (∑ a ∈ q.toFinset, q.count a * l.count a) ^ 2 := by rw [hsum]
    _ ≤ (∑ a ∈ q.toFinset, q.count a ^ 2) * ∑ a ∈ q.toFinset, l.count a ^ 2 :=
        Finset.sum_mul_sq_le_sq_mul_sq _ _ _
    _ ≤ M * q.length * sumSquares l := Nat.mul_le_mul hq hl
    _ = sumSquares l * q.length * M := by ring

end SearchEngine.Counting
