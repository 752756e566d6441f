/-
  `Porter.java` character by character: every `charAt` of the stemming chain is in range.

  In `Porter.lean` the loops of the source that only copy characters are `take`s and `drop`s, and
  the walks of `measure` and `containsVowel` go through a list.  Here the same functions stand once
  more with their index loops (`Porter.ByIndex`), so that each `charAt` of the source is one that
  can throw, at the index the source computes; only an index that has just been read is not read
  again.

  Each function equals its counterpart of `Porter.lean` on EVERY string, the ones on which it throws
  included (`ByIndex.stripAffixes_eq`).  A loop keeps the part of the string it has gone through;
  the one walk with two loops inside, `measure`, keeps the count that is still to come
  (`measureLoop_eq`), and its outer loop ends because the index never goes back (`scan`).  What
  `Stemming.lean` shows of the chain therefore holds of the loops: from a token that is not empty
  the chain returns, and no read was out of range.
-/
import SearchEngine.Cleaning
import SearchEngine.Lib.IndexLoop
import Mathlib.Tactic.Common

namespace SearchEngine

open Text Effect

namespace Porter

namespace ByIndex

/-! ## The loops of the source -/

/-- `for ( int i=0; i<n; i++ ) tmp += str.charAt( i+offset );` -/
def copy (str : Str) (offset n : Nat) (tmp : Str) : Except Exn Str :=
  (List.range n).foldlM (fun tmp (i : Nat) => do pure (tmp ++ [← charAt str (i + offset)])) tmp

def Clean (E : Platform) (str : Str) : Except Exn Str := do
  let last := str.length
  let _ch ← charAt str 0
  (List.range last).foldlM
    (fun temp (i : Nat) => do
      if E.isLetterOrDigit (← charAt str i) then pure (temp ++ [← charAt str i]) else pure temp) []

def hasSuffix (word suffix : Str) : Except Exn (Option Str) := do
  if word.length ≤ suffix.length then pure none
  else
    let differ ← if 1 < suffix.length then do
        let a ← charAt word (word.length - 2)
        let b ← charAt suffix (suffix.length - 2)
        pure (a != b)
      else pure false
    if differ then pure none
    else
      let stem ← copy word 0 (word.length - suffix.length) []
      let tmp ← copy suffix 0 suffix.length stem
      pure (if tmp = word then some stem else none)

/-- The test both walks make at an index: the character in front of the first is made up. -/
def vowelAt (word : Str) (first : Char) (i : Nat) : Except Exn Bool := do
  if 0 < i then pure (vowel (← charAt word i) (← charAt word (i - 1)))
  else pure (vowel (← charAt word i) first)

/-- The `while` loop of `measure`. -/
def measureLoop (stem : Str) (i count : Nat) : Except Exn Nat :=
  if _h : i < stem.length then do
    let ⟨j, _hj⟩ ← scan (vowelAt stem 'a') stem.length i
    let ⟨k, _hk⟩ ← scan (fun i => do pure !(← vowelAt stem '?' i)) stem.length (j + 1)
    if k < stem.length then measureLoop stem (k + 1) (count + 1)
    else measureLoop stem k count
  else pure count
termination_by stem.length - i
decreasing_by all_goals omega

def measure (stem : Str) : Except Exn Nat := measureLoop stem 0 0

def containsVowel (word : Str) : Except Exn Bool := do
  let i ← scan (vowelAt word 'a') word.length 0
  pure (decide (i.1 < word.length))

def hasAnySuffix (word : Str) : List Str → Except Exn (Option Str)
  | [] => pure none
  | suffix :: rest => do
    match ← hasSuffix word suffix with
    | some stem => pure (some stem)
    | none => hasAnySuffix word rest

def step1Plural (str : Str) : Except Exn (Str × Bool) := do
  if (← charAt str (str.length - 1)) == 's' then
    match ← hasAnySuffix str ["sses".toList, "ies".toList] with
    | some _ =>
      let tmp ← copy str 0 (str.length - 2) []
      pure (tmp, false)
    | none =>
      if str.length = 1 then pure ([], true)
      else if (← charAt str (str.length - 2)) != 's' then
        let tmp ← copy str 0 (str.length - 1) []
        pure (tmp, false)
      else pure (str, false)
  else pure (str, false)

def step1Repair (str : Str) : Except Exn Str := do
  match ← hasAnySuffix str ["at".toList, "bl".toList, "iz".toList] with
  | some _ => pure (str ++ ['e'])
  | none =>
    let c1 ← charAt str (str.length - 1)
    let c2 ← charAt str (str.length - 2)
    if c1 == c2 && c1 != 'l' && c1 != 's' && c1 != 'z' then copy str 0 (str.length - 1) []
    else if (← measure str) = 1 then
      pure (if ← cvc str then str ++ ['e'] else str)
    else pure str

def step1Past (str : Str) : Except Exn (Str × Bool) := do
  match ← hasSuffix str "eed".toList with
  | some stem =>
    if 0 < (← measure stem) then
      let tmp ← copy str 0 (str.length - 1) []
      pure (tmp, false)
    else pure (str, false)
  | none =>
    match ← hasAnySuffix str ["ed".toList, "ing".toList] with
    | none => pure (str, false)
    | some stem =>
      if ← containsVowel stem then
        let tmp ← copy str 0 stem.length []
        if tmp.length = 1 then pure (tmp, true)
        else
          let tmp ← step1Repair tmp
          pure (tmp, false)
      else pure (str, false)

def step1Y (str : Str) : Except Exn Str := do
  match ← hasSuffix str ['y'] with
  | some stem =>
    if ← containsVowel stem then
      let tmp ← copy str 0 (str.length - 1) []
      pure (tmp ++ ['i'])
    else pure str
  | none => pure str

def step1 (str : Str) : Except Exn Str := do
  let (str, done) ← step1Plural str
  if done then pure str
  else
    let (str, done) ← step1Past str
    if done then pure str else step1Y str

def replaceSuffix (bound : Nat) (str : Str) : List (Str × Str) → Except Exn Str
  | [] => pure str
  | (suffix, replacement) :: rest => do
    match ← hasSuffix str suffix with
    | some stem =>
      if bound < (← measure stem) then pure (stem ++ replacement)
      else replaceSuffix bound str rest
    | none => replaceSuffix bound str rest

def step2 (str : Str) : Except Exn Str := replaceSuffix 0 str step2Table

def step3 (str : Str) : Except Exn Str := replaceSuffix 0 str step3Table

def step4 (str : Str) : Except Exn Str := replaceSuffix 1 str step4Table

def step5E (str : Str) : Except Exn Str := do
  if (← charAt str (str.length - 1)) == 'e' then
    if 1 < (← measure str) then copy str 0 (str.length - 1) []
    else if (← measure str) = 1 then
      let stem ← copy str 0 (str.length - 1) []
      pure (if ← cvc stem then str else stem)
    else pure str
  else pure str

def step5 (str : Str) : Except Exn Str := do
  let str ← step5E str
  if str.length = 1 then pure str
  else
    if (← charAt str (str.length - 1)) == 'l' then
      if (← charAt str (str.length - 2)) == 'l' then
        if 1 < (← measure str) then copy str 0 (str.length - 1) [] else pure str
      else pure str
    else pure str

/-- The table loop of `stripPrefixes`. -/
def stripPrefixesFrom (str : Str) : List Str → Except Exn Str
  | [] => pure str
  | p :: rest =>
    if p.isPrefixOf str then copy str p.length (str.length - p.length) []
    else stripPrefixesFrom str rest

def stripPrefixes (str : Str) : Except Exn Str := stripPrefixesFrom str prefixes

def stripSuffixes (str : Str) : Except Exn Str := do
  let str ← step1 str
  let str ← guarded step2 str
  let str ← guarded step3 str
  let str ← guarded step4 str
  guarded step5 str

def stripAffixes (E : Platform) (str : Str) : Except Exn Str := do
  let str ← Clean E (E.toLowerCase str)
  if str ≠ [] ∧ 2 < str.length then
    let str ← stripPrefixes str
    if str ≠ [] then stripSuffixes str else pure str
  else pure str

/-! ## Copying loops -/

theorem charAt_of_lt {s : Str} {i : Nat} (h : i < s.length) : charAt s i = .ok s[i] := by
  obtain ⟨c, hread, hc⟩ := charAt_yields (s := s) (i := i) (by omega) (by omega)
  rw [Int.toNat_natCast, List.getElem?_eq_getElem h] at hc
  rw [hread, Option.some.inj hc]

theorem copy_eq {str : Str} {offset n : Nat} (h : offset + n ≤ str.length) (tmp : Str) :
    copy str offset n tmp = .ok (tmp ++ (str.drop offset).take n) := by
  refine Yields.eq_ok (foldlM_range (I := fun k t => t = tmp ++ (str.drop offset).take k)
    (by simp) n (fun k t hk ht => ?_))
  have hlt : k + offset < str.length := by omega
  have hread : charAt str (k + offset) = .ok str[k + offset] := charAt_of_lt hlt
  rw [hread, except_ok_bind, ht]
  refine Yields.pure ?_
  have hlt' : k < (str.drop offset).length := by rw [List.length_drop]; omega
  rw [List.take_succ_eq_append_getElem hlt', List.getElem_drop, List.append_assoc]
  congr 3
  congr 1
  omega

/-- The front of a string, copied. -/
theorem copy_front {str : Str} {n : Nat} (h : n ≤ str.length) (tmp : Str) :
    copy str 0 n tmp = .ok (tmp ++ str.take n) := by
  rw [copy_eq (by omega), List.drop_zero]

theorem Clean_eq (E : Platform) (str : Str) : Clean E str = Porter.Clean E str := by
  unfold Clean Porter.Clean
  dsimp only
  refine bind_congr (fun _ch => ?_)
  refine Yields.eq_ok ((foldlM_range (I := fun k t => t = (str.take k).filter E.isLetterOrDigit)
    rfl str.length (fun k t hk ht => ?_)).weaken (fun t ht => ?_))
  · rw [charAt_of_lt hk, except_ok_bind, List.take_succ_eq_append_getElem hk, List.filter_append,
      ← ht, List.filter_singleton]
    split
    · rename_i hkeep
      rw [except_ok_bind, hkeep]
      exact Yields.pure rfl
    · rename_i hdrop
      rw [Bool.eq_false_iff.mpr hdrop]
      exact Yields.pure (by simp)
  · rw [ht, List.take_length]

theorem hasSuffix_eq (word suffix : Str) :
    hasSuffix word suffix = Porter.hasSuffix word suffix := by
  unfold hasSuffix Porter.hasSuffix
  rw [copy_front (by omega), except_ok_bind, copy_front (Nat.le_refl _), List.take_length,
    List.nil_append]
  rfl

theorem hasAnySuffix_eq (word : Str) :
    ∀ suffixes : List Str, hasAnySuffix word suffixes = Porter.hasAnySuffix word suffixes
  | [] => rfl
  | suffix :: rest => by
    rw [hasAnySuffix, Porter.hasAnySuffix, hasSuffix_eq]
    refine bind_congr (fun stem => ?_)
    cases stem with
    | some s => rfl
    | none => exact hasAnySuffix_eq word rest

theorem stripPrefixesFrom_eq (str : Str) :
    ∀ table : List Str, stripPrefixesFrom str table
      = .ok (((table.find? (·.isPrefixOf str)).map (fun p => str.drop p.length)).getD str)
  | [] => rfl
  | p :: rest => by
    rw [stripPrefixesFrom, List.find?_cons]
    split
    · rename_i hpre
      have hle : p.length ≤ str.length := (List.isPrefixOf_iff_prefix.mp hpre).length_le
      rw [copy_eq (by omega), hpre, ← List.length_drop, List.take_length]
      rfl
    · rename_i hno
      rw [stripPrefixesFrom_eq str rest, Bool.eq_false_iff.mpr hno]

theorem stripPrefixes_eq (str : Str) : stripPrefixes str = .ok (Porter.stripPrefixes str) := by
  rw [stripPrefixes, stripPrefixesFrom_eq, stripPrefixes_of_find rfl]

/-! ## Walks -/

/-- The character in front of an index, if there is one. -/
def before (word : Str) : Nat → Option Char
  | 0 => none
  | i + 1 => word[i]?

/-- What `vowelAt` answers inside the word. -/
def isVowelAt (word : Str) (first : Char) (i : Nat) : Bool :=
  vowel (word[i]?.getD first) ((before word i).getD first)

theorem vowelAt_eq {word : Str} {i : Nat} (h : i < word.length) (first : Char) :
    vowelAt word first i = .ok (isVowelAt word first i) := by
  have hat : word[i]?.getD first = word[i] := by rw [List.getElem?_eq_getElem h, Option.getD_some]
  unfold vowelAt isVowelAt
  rw [hat, charAt_of_lt h, except_ok_bind]
  cases i with
  | zero => rfl
  | succ j =>
    have hread : charAt word ((j + 1 : Nat) - 1) = .ok word[j] := by
      rw [Int.natCast_succ, Int.add_sub_cancel]
      exact charAt_of_lt (by omega)
    have hbefore : (before word (j + 1)).getD first = word[j] := by
      rw [before, List.getElem?_eq_getElem (by omega), Option.getD_some]
    rw [if_pos (by omega), hread, hbefore]
    rfl

/-- What `measure` has still to count from an index on, in either of its inner loops. -/
def measureAt (word : Str) (inVowels : Bool) (i : Nat) : Nat :=
  measureFrom inVowels (before word i) (word.drop i)

/-- What `containsVowel` has still to answer. -/
def containsVowelAt (word : Str) (i : Nat) : Bool := containsVowelFrom (before word i) (word.drop i)

section Step

variable {word : Str} {i : Nat} (h : i < word.length)

include h

theorem measureAt_false : measureAt word false i =
    if isVowelAt word 'a' i then measureAt word true (i + 1) else measureAt word false (i + 1) := by
  unfold measureAt isVowelAt
  rw [List.drop_eq_getElem_cons h, measureFrom, before, List.getElem?_eq_getElem h,
    Option.getD_some]

theorem measureAt_true : measureAt word true i =
    if isVowelAt word '?' i then measureAt word true (i + 1)
    else measureAt word false (i + 1) + 1 := by
  unfold measureAt isVowelAt
  rw [List.drop_eq_getElem_cons h, measureFrom, before, List.getElem?_eq_getElem h,
    Option.getD_some]

theorem containsVowelAt_of_lt :
    containsVowelAt word i = (isVowelAt word 'a' i || containsVowelAt word (i + 1)) := by
  unfold containsVowelAt isVowelAt
  rw [List.drop_eq_getElem_cons h, containsVowelFrom, before, List.getElem?_eq_getElem h,
    Option.getD_some]

end Step

theorem measureAt_of_le {word : Str} {i : Nat} (h : word.length ≤ i) (inVowels : Bool) :
    measureAt word inVowels i = 0 := by
  rw [measureAt, List.drop_eq_nil_of_le h, measureFrom]

/-- The first inner loop stops at a vowel, with as much to count as before. -/
theorem scan_consonants (stem : Str) {i : Nat} (h : i ≤ stem.length) :
    Yields (scan (vowelAt stem 'a') stem.length i) (fun j => j.1 ≤ stem.length ∧
      measureAt stem false j.1 = measureAt stem false i ∧
      (j.1 < stem.length → isVowelAt stem 'a' j.1 = true)) := by
  refine scan_yields (I := fun k => measureAt stem false k = measureAt stem false i)
    (fun k hk => vowelAt_eq hk 'a') (fun k hk hp hI => ?_) i h rfl
  rw [← hI, measureAt_false hk, hp]
  rfl

/-- The second one stops at a consonant. -/
theorem scan_vowels (stem : Str) {i : Nat} (h : i ≤ stem.length) :
    Yields (scan (fun i => do pure !(← vowelAt stem '?' i)) stem.length i) (fun j =>
      j.1 ≤ stem.length ∧ measureAt stem true j.1 = measureAt stem true i ∧
      (j.1 < stem.length → (!isVowelAt stem '?' j.1) = true)) := by
  refine scan_yields (I := fun k => measureAt stem true k = measureAt stem true i)
    (p := fun k => !isVowelAt stem '?' k) (fun k hk => ?_) (fun k hk hp hI => ?_) i h rfl
  · rw [vowelAt_eq hk '?']
    rfl
  · rw [← hI, measureAt_true hk, if_pos (by simpa using hp)]

/-- **The `while` loop of `measure`** counts what there is to count behind the index. -/
theorem measureLoop_eq (stem : Str) (i count : Nat) :
    measureLoop stem i count = .ok (count + measureAt stem false i) := by
  by_cases h : i < stem.length
  · obtain ⟨⟨j, hij⟩, hscan, hj, hcount, hvowel⟩ := scan_consonants stem (Nat.le_of_lt h)
    dsimp only at hj hcount hvowel
    rw [measureLoop, dif_pos h, hscan, except_ok_bind, ← hcount]
    dsimp only
    by_cases hend : j < stem.length
    · obtain ⟨⟨k, hjk⟩, hscan', hk, hcount', hleave⟩ := scan_vowels stem (i := j + 1) hend
      dsimp only at hk hcount' hleave
      rw [measureAt_false hend, if_pos (hvowel hend), hscan', except_ok_bind, ← hcount']
      dsimp only
      split
      · rename_i hlt
        rw [measureLoop_eq stem (k + 1) (count + 1), measureAt_true hlt,
          if_neg (by simpa using hleave hlt)]
        congr 1
        omega
      · rename_i hge
        rw [measureLoop_eq stem k count, measureAt_of_le (by omega), measureAt_of_le (by omega)]
    · -- there is no vowel left, and the second loop starts behind the end
      rw [scan_of_le (by omega), except_ok_bind]
      dsimp only
      rw [if_neg (by omega), measureLoop_eq stem (j + 1) count, measureAt_of_le (by omega),
        measureAt_of_le (by omega)]
  · rw [measureLoop, dif_neg h, measureAt_of_le (by omega)]
    rfl
termination_by stem.length - i
decreasing_by all_goals omega

theorem measure_eq (stem : Str) : measure stem = .ok (Porter.measure stem) := by
  rw [measure, measureLoop_eq, Nat.zero_add]
  rfl

theorem containsVowel_eq (word : Str) : containsVowel word = .ok (Porter.containsVowel word) := by
  obtain ⟨⟨i, hi⟩, hscan, hle, hrest, hvowel⟩ := scan_yields
    (I := fun k => containsVowelAt word k = Porter.containsVowel word)
    (fun k hk => vowelAt_eq hk 'a')
    (fun k hk hp hI => by rw [containsVowelAt_of_lt hk, hp, Bool.false_or] at hI; exact hI)
    0 (Nat.zero_le _) rfl
  rw [containsVowel, hscan, except_ok_bind, ← hrest]
  dsimp only at hle hvowel ⊢
  by_cases hlt : i < word.length
  · rw [containsVowelAt_of_lt hlt, hvowel hlt, decide_eq_true hlt]
    rfl
  · rw [containsVowelAt, List.drop_eq_nil_of_le (by omega), decide_eq_false hlt]
    rfl

/-! ## The chain -/

/-- A word without its last letters, copied. -/
theorem copy_but (str : Str) (k : Nat) :
    copy str 0 (str.length - k) [] = .ok (str.take (str.length - k)) := by
  rw [copy_front (by omega), List.nil_append]

theorem step1Plural_eq (str : Str) : step1Plural str = Porter.step1Plural str := by
  unfold step1Plural Porter.step1Plural
  simp only [hasAnySuffix_eq, copy_but, except_ok_bind]
  refine bind_congr (fun c => ?_)
  split
  · refine bind_congr (fun stem => ?_)
    cases stem with
    | some s => rfl
    | none =>
      dsimp only
      split
      · rfl
      · refine bind_congr (fun d => ?_)
        split <;> rfl
  · rfl

theorem step1Repair_eq (str : Str) : step1Repair str = Porter.step1Repair str := by
  unfold step1Repair Porter.step1Repair
  simp only [hasAnySuffix_eq, copy_but, measure_eq, except_ok_bind]
  rfl

theorem step1Past_eq (str : Str) : step1Past str = Porter.step1Past str := by
  unfold step1Past Porter.step1Past
  simp only [hasSuffix_eq, hasAnySuffix_eq, copy_but, measure_eq, containsVowel_eq, step1Repair_eq,
    except_ok_bind]
  refine bind_congr (fun stem => ?_)
  cases stem with
  | some s =>
    dsimp only
    split <;> rfl
  | none =>
    -- the stem is a front part of the word, so copying as many letters gives it back
    obtain ⟨stem, hrun, hstem⟩ := hasAnySuffix_yields str ["ed".toList, "ing".toList]
    rw [hrun, except_ok_bind, except_ok_bind]
    cases stem with
    | none => rfl
    | some s =>
      obtain ⟨-, suffix, -, hword⟩ := hstem s rfl
      have hcopy : copy str 0 s.length [] = .ok s := by
        rw [hword, copy_front (by simp), List.take_left, List.nil_append]
      simp only [hcopy, except_ok_bind]

theorem step1Y_eq (str : Str) : step1Y str = Porter.step1Y str := by
  unfold step1Y Porter.step1Y
  simp only [hasSuffix_eq, copy_but, containsVowel_eq, except_ok_bind]
  refine bind_congr (fun stem => ?_)
  cases stem with
  | some s =>
    dsimp only
    split <;> rfl
  | none => rfl

theorem step1_eq (str : Str) : step1 str = Porter.step1 str := by
  unfold step1 Porter.step1
  simp only [step1Plural_eq, step1Past_eq, step1Y_eq]

theorem replaceSuffix_eq (bound : Nat) (str : Str) :
    ∀ table, replaceSuffix bound str table = Porter.replaceSuffix bound str table
  | [] => rfl
  | (suffix, replacement) :: rest => by
    rw [replaceSuffix, Porter.replaceSuffix, hasSuffix_eq]
    refine bind_congr (fun stem => ?_)
    cases stem with
    | some s =>
      dsimp only
      rw [measure_eq, except_ok_bind, replaceSuffix_eq bound str rest]
    | none => exact replaceSuffix_eq bound str rest

theorem step5E_eq (str : Str) : step5E str = Porter.step5E str := by
  unfold step5E Porter.step5E
  simp only [copy_but, measure_eq, except_ok_bind]
  rfl

theorem step5_eq (str : Str) : step5 str = Porter.step5 str := by
  unfold step5 Porter.step5
  simp only [step5E_eq, copy_but, measure_eq, except_ok_bind]
  refine bind_congr (fun w => ?_)
  split
  · rfl
  · refine bind_congr (fun c => ?_)
    split
    · refine bind_congr (fun d => ?_)
      split
      · split <;> rfl
      · rfl
    · rfl

theorem stripSuffixes_eq (str : Str) : stripSuffixes str = Porter.stripSuffixes str := by
  have h2 : step2 = Porter.step2 := funext (fun str => replaceSuffix_eq 0 str step2Table)
  have h3 : step3 = Porter.step3 := funext (fun str => replaceSuffix_eq 0 str step3Table)
  have h4 : step4 = Porter.step4 := funext (fun str => replaceSuffix_eq 1 str step4Table)
  have h5 : step5 = Porter.step5 := funext step5_eq
  unfold stripSuffixes Porter.stripSuffixes
  rw [step1_eq, h2, h3, h4, h5]

/-- **The loops compute the chain**, on every string. -/
theorem stripAffixes_eq (E : Platform) (str : Str) :
    stripAffixes E str = Porter.stripAffixes E str := by
  unfold stripAffixes Porter.stripAffixes
  simp only [Clean_eq, stripPrefixes_eq, stripSuffixes_eq, except_ok_bind]

end ByIndex

end Porter

namespace StopWords

/-- **Exactly when cleaning throws.**  For every vector and every stop set, `clean` throws if and
    only if the empty string is in the vector and not in the stop set.  The chain it runs on a
    token is the one with the index loops, and on a token that is not empty this chain returns:
    all its `charAt`s are in range. -/
theorem clean_throws_iff (E : Platform) (v : List Str) :
    ((∃ e, clean E v = .error e) ↔ [] ∈ v ∧ [] ∉ E.stopWords) ∧
    ∀ str, stem E str = Porter.ByIndex.stripAffixes E str ∧
      (str ≠ [] → ∃ w, Porter.ByIndex.stripAffixes E str = .ok w) := by
  constructor
  · have hreturns := clean_returns_iff E v
    rw [isStopWord_iff] at hreturns
    rw [← Classical.not_imp, ← hreturns]
    cases clean E v with
    | ok ws => simp
    | error e => simp
  · intro str
    have hchain := Porter.ByIndex.stripAffixes_eq E str
    refine ⟨hchain.symm, fun hne => ?_⟩
    rw [hchain]
    exact ⟨stemOf E str, (stem_eq E hne).1⟩

/-- With the empty string among the stop words, an empty token does no harm; with the stop list of
    `stopwords.txt` it throws, while `kilos`, of which the prefix and the first step leave nothing
    for the others, is stemmed. -/
theorem clean_throws_with_stopwordsTxt :
    (¬ ∃ e, clean { asciiPlatform with stopWords := [[]] } [[], "hkust".toList] = .error e) ∧
    (∃ e, clean asciiPlatform ["hkust".toList, []] = .error e) ∧
    ∃ w, Porter.ByIndex.stripAffixes asciiPlatform "kilos".toList = .ok w := by
  have hnil : [] ∉ asciiPlatform.stopWords := fun hmem => (stopwordsTxt_lines [] hmem).1 rfl
  refine ⟨fun hthrows => ?_, ?_, ?_⟩
  · exact ((clean_throws_iff _ _).1.mp hthrows).2 List.mem_cons_self
  · exact (clean_throws_iff asciiPlatform _).1.mpr ⟨by simp, hnil⟩
  · exact ((clean_throws_iff asciiPlatform []).2 "kilos".toList).2 (by simp)

end StopWords

end SearchEngine
