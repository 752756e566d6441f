/-
  Decimal numerals as text.

  `decimal n` is what `Integer.toString` prints for a non-negative integer.  Besides being
  digits only (so no blank, no separator and no letter can hide in a numeral), two facts carry
  the arguments about issued numerals: they are INJECTIVE, and a numeral that is a prefix of
  another one denotes a number that is AT MOST as large (`decimal_prefix_le`) — which is why
  searching for a freshly issued, hence largest, numeral can never stop inside an older one.

  `parseInt` is `Integer.parseInt` on texts whose digits are ASCII.  Java also takes the decimal
  digits of other scripts (`Character.digit`), which nothing that prints a number writes; a text
  of such digits is no number here.  `wrap32` is the two's-complement wrap of Java's `int`
  arithmetic.
-/
import SearchEngine.Lib.Text
import Mathlib.Algebra.Order.Ring.Int
import Mathlib.Data.Nat.Basic
import Mathlib.Tactic.Common

namespace SearchEngine.Numeral

open SearchEngine.Text

/-- `Integer.toString(n)` for `n ≥ 0`. -/
def decimal (n : Nat) : Str := Nat.toDigits 10 n

/-- A non-empty run of decimal digits. -/
def IsDigits (s : Str) : Prop := s ≠ [] ∧ ∀ c ∈ s, c.isDigit = true

instance (s : Str) : Decidable (IsDigits s) := inferInstanceAs (Decidable (_ ∧ _))

theorem isDigits_decimal (n : Nat) : IsDigits (decimal n) :=
  ⟨Nat.toDigits_ne_nil, fun _ hc => Nat.isDigit_of_mem_toDigits (by decide) (by decide) hc⟩

/-- Numerals determine their number. -/
theorem decimal_injective : Function.Injective decimal := by
  intro m n h
  have hval := congrArg (fun ds => Nat.ofDigitChars 10 ds 0) h
  simpa [decimal] using hval

/-- **A prefix denotes a smaller number**: `decimal m` can open `decimal n` only if `m ≤ n`. -/
theorem decimal_prefix_le {m n : Nat} (h : decimal m <+: decimal n) : m ≤ n := by
  obtain ⟨ds, hds⟩ := h
  have hval := congrArg (fun ds => Nat.ofDigitChars 10 ds 0) hds
  have hm : Nat.ofDigitChars 10 (decimal m) 0 = m := Nat.ofDigitChars_ten_toDigits
  have hn : Nat.ofDigitChars 10 (decimal n) 0 = n := Nat.ofDigitChars_ten_toDigits
  simp only [Nat.ofDigitChars_append, hm, hn] at hval
  rw [Nat.ofDigitChars_eq_ofDigitChars_zero] at hval
  have hpow : 1 ≤ 10 ^ ds.length := Nat.one_le_pow _ _ (by decide)
  calc m = 1 * m := (Nat.one_mul m).symm
    _ ≤ 10 ^ ds.length * m := Nat.mul_le_mul_right m hpow
    _ ≤ 10 ^ ds.length * m + Nat.ofDigitChars 10 ds 0 := Nat.le_add_right _ _
    _ = n := hval

theorem IsDigits.not_mem {s : Str} (hs : IsDigits s) {c : Char} (hc : c.isDigit = false) :
    c ∉ s := by
  intro hmem
  rw [hs.2 c hmem] at hc
  exact Bool.noConfusion hc

theorem isSpace_of_isDigit {c : Char} (h : c.isDigit = true) : isSpace c = false := by
  cases hs : isSpace c with
  | false => rfl
  | true =>
    exfalso
    simp only [isSpace, Bool.or_eq_true, beq_iff_eq] at hs
    rcases hs with ((((h' | h') | h') | h') | h') | h' <;> subst h' <;> exact absurd h (by decide)

theorem isToken_of_isDigits {s : Str} (hs : IsDigits s) : IsToken s :=
  ⟨hs.1, fun c hc => isSpace_of_isDigit (hs.2 c hc)⟩

/-! ## Java `int` -/

/-- The two's-complement wrap of a Java `int`. -/
def wrap32 (z : Int) : Int := z.bmod (2 ^ 32)

theorem wrap32_add (y z : Int) : wrap32 (wrap32 y + wrap32 z) = wrap32 (y + z) := by
  unfold wrap32
  rw [Int.bmod_add_bmod, Int.add_bmod_bmod]

/-- A value that fits stays what it is. -/
theorem wrap32_of_fits {z : Int} (hlo : -2 ^ 31 ≤ z) (hhi : z < 2 ^ 31) : wrap32 z = z := by
  unfold wrap32
  exact Int.bmod_eq_of_le (by omega) (by omega)

/-- A natural number that stays what it is fits. -/
theorem wrap32_natCast_iff (n : Nat) : wrap32 n = n ↔ n < 2 ^ 31 := by
  constructor
  · intro h
    have hlt : wrap32 n < 2 ^ 31 := Int.bmod_lt (by decide)
    omega
  · exact fun h => wrap32_of_fits (by omega) (by omega)

/-- `Integer.toString(z)`. -/
def intToString : Int → Str
  | .ofNat n => decimal n
  | .negSucc n => '-' :: decimal (n + 1)

/-- The value of a run of digits, `none` when a character is not a digit. -/
def parseNat (s : Str) : Option Nat :=
  if s ≠ [] ∧ s.all Char.isDigit then some (Nat.ofDigitChars 10 s 0) else none

/-- The values an `int` can hold. -/
def fitsInt (z : Int) : Bool := decide (-2 ^ 31 ≤ z ∧ z < 2 ^ 31)

/-- `Integer.parseInt(s)`: an optional sign, at least one ASCII digit, and a value an `int` can
    hold; `none` stands for the `NumberFormatException`. -/
def parseInt (s : Str) : Option Int :=
  match s with
  | '-' :: t => ((parseNat t).map (fun n => -Int.ofNat n)).filter fitsInt
  | '+' :: t => ((parseNat t).map Int.ofNat).filter fitsInt
  | t => ((parseNat t).map Int.ofNat).filter fitsInt

theorem parseNat_decimal (n : Nat) : parseNat (decimal n) = some n := by
  have hd := isDigits_decimal n
  have hall : (decimal n).all Char.isDigit = true := List.all_eq_true.mpr hd.2
  rw [parseNat, if_pos ⟨hd.1, hall⟩]
  exact congrArg some Nat.ofDigitChars_ten_toDigits

/-- A numeral has no sign, so `parseInt` takes its last branch. -/
theorem parseInt_decimal (n : Nat) :
    parseInt (decimal n) = (some (Int.ofNat n)).filter fitsInt := by
  have hd := isDigits_decimal n
  unfold parseInt
  split
  · rename_i t heq
    exact absurd (hd.2 '-' (by rw [heq]; simp)) (by decide)
  · rename_i t heq
    exact absurd (hd.2 '+' (by rw [heq]; simp)) (by decide)
  · rw [parseNat_decimal, Option.map_some]

/-- **Round trip**: what a wrapped value prints, `parseInt` reads back. -/
theorem parseInt_intToString_wrap32 (z : Int) :
    parseInt (intToString (wrap32 z)) = some (wrap32 z) := by
  have hfits : fitsInt (wrap32 z) = true :=
    decide_eq_true ⟨Int.le_bmod (by decide), Int.bmod_lt (by decide)⟩
  revert hfits
  generalize wrap32 z = w
  intro hfits
  cases w with
  | ofNat n =>
    show parseInt (decimal n) = _
    rw [parseInt_decimal, Option.filter_some, if_pos hfits]
  | negSucc n =>
    show ((parseNat (decimal (n + 1))).map (fun n => -Int.ofNat n)).filter fitsInt = _
    have hneg : -Int.ofNat (n + 1) = Int.negSucc n := rfl
    rw [parseNat_decimal, Option.map_some, hneg, Option.filter_some, if_pos hfits]

end SearchEngine.Numeral
