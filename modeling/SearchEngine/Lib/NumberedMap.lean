/-
  Numbered finite maps: the invariant behind "count the keys, issue the next name".

  A table `m : K → V` is `Numbered name` when its values are exactly `name 1, …, name |m|`, each
  used once.  Issuing `name (|m| + 1)` to an absent key keeps a table numbered — the count IS
  the last number issued, so nothing else needs to be remembered.

  A second table is an inverse of the first in two strengths: `Inverse m' m` (every entry of
  `m'` turns around an entry of `m`) survives a write to `m` alone, `ExactInverse m' m` (and
  every entry of `m` is turned around) needs both writes.
-/
import Mathlib.Data.List.Basic
import Mathlib.Tactic.Common

namespace SearchEngine.NumberedMap

variable {K V : Type} {cmp : K → K → Ordering} [Std.TransCmp cmp] [Std.LawfulEqCmp cmp]
variable {cmpV : V → V → Ordering} [Std.TransCmp cmpV] [Std.LawfulEqCmp cmpV]

open Std (ExtTreeMap)

/-! ## Reading behind a write -/

theorem get_insert [DecidableEq K] (m : ExtTreeMap K V cmp) (k a : K) (v : V) :
    (m.insert k v)[a]? = if k = a then some v else m[a]? := by
  rw [ExtTreeMap.getElem?_insert]
  by_cases h : k = a
  · rw [if_pos h, if_pos (by rw [h]; exact Std.ReflCmp.compare_self)]
  · rw [if_neg h, if_neg (fun hc => h (Std.LawfulEqCmp.eq_of_compare hc))]

omit [Std.LawfulEqCmp cmp] in
theorem get_insert_self (m : ExtTreeMap K V cmp) (k : K) (v : V) : (m.insert k v)[k]? = some v :=
  ExtTreeMap.getElem?_insert_self

theorem get_insert_ne (m : ExtTreeMap K V cmp) {k a : K} (h : k ≠ a) (v : V) :
    (m.insert k v)[a]? = m[a]? := by
  rw [ExtTreeMap.getElem?_insert, if_neg (fun hc => h (Std.LawfulEqCmp.eq_of_compare hc))]

theorem get_insertIfNew [DecidableEq K] (m : ExtTreeMap K V cmp) (k a : K) (v : V) :
    (m.insertIfNew k v)[a]? = if k = a then some (m[a]?.getD v) else m[a]? := by
  rw [ExtTreeMap.getElem?_insertIfNew]
  by_cases h : k = a
  · subst h
    rw [if_pos rfl]
    cases hget : m[k]? with
    | none =>
      have hnot : ¬ k ∈ m := fun hmem => by
        have hsome := ExtTreeMap.isSome_getElem?_iff_mem.mpr hmem
        rw [hget] at hsome
        exact Bool.noConfusion hsome
      rw [if_pos ⟨Std.ReflCmp.compare_self, hnot⟩]
      rfl
    | some b =>
      have hmem : k ∈ m := ExtTreeMap.isSome_getElem?_iff_mem.mp (by rw [hget]; rfl)
      rw [if_neg (fun hc => hc.2 hmem)]
      rfl
  · rw [if_neg h, if_neg (fun hc => h (Std.LawfulEqCmp.eq_of_compare hc.1))]

omit [Std.LawfulEqCmp cmp] in
theorem size_insert_of_none {m : ExtTreeMap K V cmp} {k : K} {v : V} (h : m[k]? = none) :
    (m.insert k v).size = m.size + 1 := by
  have hnot : ¬ m.contains k = true := by
    rw [ExtTreeMap.contains_eq_isSome_getElem?, h]
    exact Bool.false_ne_true
  rw [ExtTreeMap.size_insert, if_neg hnot]

/-! ## Numbered tables -/

/-- The values of `m` are exactly `name 1, …, name |m|`, each used once. -/
structure Numbered (name : Nat → V) (m : ExtTreeMap K V cmp) : Prop where
  bounded : ∀ {k : K} {v : V}, m[k]? = some v → ∃ n, 1 ≤ n ∧ n ≤ m.size ∧ v = name n
  covered : ∀ n, 1 ≤ n → n ≤ m.size → ∃ k : K, m[k]? = some (name n)
  injective : ∀ {k k' : K} {v : V}, m[k]? = some v → m[k']? = some v → k = k'

omit [Std.LawfulEqCmp cmp] in
theorem numbered_empty (name : Nat → V) : Numbered name (∅ : ExtTreeMap K V cmp) := by
  refine ⟨fun h => ?_, fun n h1 h0 => ?_, fun h => ?_⟩
  · rw [ExtTreeMap.getElem?_empty] at h
    exact absurd h (by simp)
  · rw [ExtTreeMap.size_empty] at h0
    omega
  · rw [ExtTreeMap.getElem?_empty] at h
    exact absurd h (by simp)

omit [Std.LawfulEqCmp cmp] in
/-- The name behind the last one is not in use. -/
theorem Numbered.next_fresh {name : Nat → V} {m : ExtTreeMap K V cmp}
    (hname : Function.Injective name) (h : Numbered name m) (k : K) :
    m[k]? ≠ some (name (m.size + 1)) := by
  intro hk
  obtain ⟨n, -, hn, heq⟩ := h.bounded hk
  have := hname heq
  omega

/-- **Issuing the next name to an absent key keeps the table numbered.** -/
theorem Numbered.insert [DecidableEq K] {name : Nat → V} {m : ExtTreeMap K V cmp}
    (hname : Function.Injective name) (h : Numbered name m) {k : K} (hk : m[k]? = none) :
    Numbered name (m.insert k (name (m.size + 1))) := by
  have hsize := size_insert_of_none (v := name (m.size + 1)) hk
  refine ⟨fun {a v} ha => ?_, fun n h1 hn => ?_, fun {a b v} ha hb => ?_⟩
  · rw [get_insert] at ha
    by_cases hka : k = a
    · rw [if_pos hka] at ha
      exact ⟨m.size + 1, by omega, by omega, (Option.some.inj ha).symm⟩
    · rw [if_neg hka] at ha
      obtain ⟨n, h1, hn, hv⟩ := h.bounded ha
      exact ⟨n, h1, by omega, hv⟩
  · rcases Nat.lt_or_ge m.size n with hlt | hge
    · have hn1 : n = m.size + 1 := by omega
      exact ⟨k, by rw [hn1]; exact get_insert_self m k _⟩
    · obtain ⟨a, ha⟩ := h.covered n h1 hge
      have hka : k ≠ a := fun hka => by rw [← hka, hk] at ha; exact absurd ha (by simp)
      exact ⟨a, by rw [get_insert_ne m hka]; exact ha⟩
  · rw [get_insert] at ha hb
    -- a key that shares the new name would have used it before it was issued
    by_cases hka : k = a <;> by_cases hkb : k = b
    · rw [← hka, ← hkb]
    · rw [if_pos hka] at ha
      rw [if_neg hkb, ← Option.some.inj ha] at hb
      exact absurd hb (h.next_fresh hname b)
    · rw [if_pos hkb] at hb
      rw [if_neg hka, ← Option.some.inj hb] at ha
      exact absurd ha (h.next_fresh hname a)
    · rw [if_neg hka] at ha
      rw [if_neg hkb] at hb
      exact h.injective ha hb

/-! ## Inverse tables -/

/-- Every entry of `m'` turns around an entry of `m`. -/
def Inverse (m' : ExtTreeMap V K cmpV) (m : ExtTreeMap K V cmp) : Prop :=
  ∀ (v : V) (k : K), m'[v]? = some k → m[k]? = some v

/-- The entries of `m'` are exactly those of `m`, turned around. -/
def ExactInverse (m' : ExtTreeMap V K cmpV) (m : ExtTreeMap K V cmp) : Prop :=
  ∀ (v : V) (k : K), m'[v]? = some k ↔ m[k]? = some v

omit [Std.LawfulEqCmp cmp] [Std.LawfulEqCmp cmpV] in
theorem exactInverse_empty :
    ExactInverse (∅ : ExtTreeMap V K cmpV) (∅ : ExtTreeMap K V cmp) := by
  intro v k
  rw [ExtTreeMap.getElem?_empty, ExtTreeMap.getElem?_empty]
  simp

omit [Std.LawfulEqCmp cmpV] in
/-- A new entry in the forward table alone leaves the inverse sound. -/
theorem Inverse.insert_fwd {m' : ExtTreeMap V K cmpV} {m : ExtTreeMap K V cmp}
    (h : Inverse m' m) {k : K} (hk : m[k]? = none) (v : V) : Inverse m' (m.insert k v) := by
  intro v' k' hv'
  have hm := h v' k' hv'
  have hne : k ≠ k' := fun he => by rw [← he, hk] at hm; exact absurd hm (by simp)
  rw [get_insert_ne m hne]
  exact hm

/-- Both entries together. -/
theorem Inverse.insert_both [DecidableEq V] {m' : ExtTreeMap V K cmpV} {m : ExtTreeMap K V cmp}
    (h : Inverse m' m) {k : K} (hk : m[k]? = none) (v : V) :
    Inverse (m'.insert v k) (m.insert k v) := by
  intro v' k' hv'
  rw [get_insert] at hv'
  by_cases hvv : v = v'
  · rw [if_pos hvv] at hv'
    rw [← Option.some.inj hv', ← hvv]
    exact get_insert_self m k v
  · rw [if_neg hvv] at hv'
    exact h.insert_fwd hk v v' k' hv'

/-- Both entries together keep an exact inverse exact, provided the value is fresh. -/
theorem ExactInverse.insert_both [DecidableEq K] [DecidableEq V] {m' : ExtTreeMap V K cmpV}
    {m : ExtTreeMap K V cmp} (h : ExactInverse m' m) {k : K} {v : V} (hk : m[k]? = none)
    (hfresh : ∀ a : K, m[a]? ≠ some v) : ExactInverse (m'.insert v k) (m.insert k v) := by
  intro v' k'
  rw [get_insert, get_insert]
  by_cases hvv : v = v'
  · rw [if_pos hvv]
    by_cases hkk : k = k'
    · rw [if_pos hkk, hvv, hkk]
      simp
    · rw [if_neg hkk, ← hvv]
      exact ⟨fun he => absurd (Option.some.inj he) hkk, fun he => absurd he (hfresh k')⟩
  · rw [if_neg hvv]
    by_cases hkk : k = k'
    · rw [if_pos hkk, ← hkk, h v' k, hk]
      exact ⟨fun he => absurd he (by simp), fun he => absurd (Option.some.inj he) hvv⟩
    · rw [if_neg hkk]
      exact h v' k'

end SearchEngine.NumberedMap
