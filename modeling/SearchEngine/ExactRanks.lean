/-
  Ranks as exact rational numbers.

  `Exact` says that an arithmetic computes with rationals and does not round; how the ranks are
  written is left open.  `fractions` is one such arithmetic that runs: a rank is written
  `num/den`, and a text without a `/` is read as an integer (the `"1"` of `Initialize`).
-/
import SearchEngine.PageRankIndexer
import Mathlib.Algebra.Order.Field.Rat
import Mathlib.Tactic.Common

namespace SearchEngine

open Text Numeral

/-- An arithmetic of rationals without rounding. -/
structure RankArithmetic.Exact (A : RankArithmetic ℚ) : Prop where
  one : A.one = 1
  zero : A.zero = 0
  add : ∀ a b, A.add a b = a + b
  div : ∀ (a : ℚ) (n : Nat), A.div a n = a / n
  damp : ∀ a, A.damp a = 0.15 + 0.85 * a

namespace Fraction

/-- An integer, as `num` is written. -/
def readInt : Str → Option Int
  | '-' :: t => (parseNat t).map (fun n => -(n : Int))
  | t => (parseNat t).map (fun n => (n : Int))

/-- `num/den`, or an integer alone. -/
def valueOf (s : Str) : Option ℚ :=
  match s.dropWhile (· != '/') with
  | [] => (readInt s).map (fun n => (n : ℚ))
  | _ :: t => do
    let n ← readInt (s.takeWhile (· != '/'))
    let d ← parseNat t
    some (mkRat n d)

/-- `num/den`. -/
def toText (r : ℚ) : Str := intToString r.num ++ '/' :: decimal r.den

theorem readInt_intToString (z : Int) : readInt (intToString z) = some z := by
  cases z with
  | ofNat n =>
    have hd := isDigits_decimal n
    show readInt (decimal n) = some (Int.ofNat n)
    unfold readInt
    split
    · rename_i t heq
      exact absurd (hd.2 '-' (by rw [heq]; simp)) (by decide)
    · rw [parseNat_decimal]
      rfl
  | negSucc n =>
    show (parseNat (decimal (n + 1))).map (fun n => -(n : Int)) = some (Int.negSucc n)
    rw [parseNat_decimal]
    rfl

theorem slash_not_mem (z : Int) : ∀ c ∈ intToString z, (c != '/') = true := by
  intro c hc
  have hd : ∀ n, c ∈ decimal n → c ≠ '/' := by
    rintro n hmem rfl
    exact (isDigits_decimal n).not_mem (by decide) hmem
  rw [bne_iff_ne]
  cases z with
  | ofNat n => exact hd n hc
  | negSucc n =>
    rcases List.mem_cons.mp hc with rfl | hc
    · decide
    · exact hd (n + 1) hc

theorem valueOf_toText (r : ℚ) : valueOf (toText r) = some r := by
  have htake : (toText r).takeWhile (· != '/') = intToString r.num := by
    rw [toText, List.takeWhile_append_of_pos (slash_not_mem r.num),
      List.takeWhile_cons_of_neg (by decide), List.append_nil]
  have hdrop : (toText r).dropWhile (· != '/') = '/' :: decimal r.den := by
    rw [toText, List.dropWhile_append_of_pos (slash_not_mem r.num),
      List.dropWhile_cons_of_neg (by decide)]
  rw [valueOf, hdrop, htake]
  simp only [readInt_intToString, parseNat_decimal, Option.bind_eq_bind, Option.bind_some,
    Rat.mkRat_self]

end Fraction

/-- Exact ranks, written as fractions. -/
def fractions : RankArithmetic ℚ where
  valueOf := Fraction.valueOf
  toText := Fraction.toText
  one := 1
  zero := 0
  add := fun a b => a + b
  div := fun a n => a / n
  damp := fun a => 0.15 + 0.85 * a
  valueOf_one := by decide +kernel
  valueOf_toText := Fraction.valueOf_toText

theorem exact_fractions : fractions.Exact :=
  ⟨rfl, rfl, fun _ _ => rfl, fun _ _ => rfl, fun _ => rfl⟩

end SearchEngine
