/-
  The stemming chain of `Porter.java`: it never reads outside a string, and when it leaves nothing.

  Every step shortens the word it is given and indexes the result from its END, so each needs to
  know that the one before left something to index.  A step is therefore described by a `Yields`:
  from a word that is not empty it succeeds, and the word it leaves is not empty again.  There is
  ONE exception, the plural rule on the word `s` (`step1Plural_yields`); behind it the guards of
  `stripSuffixes` skip the rest.

  `hasSuffix` is where the length comes from: it only answers for a PROPER suffix, so the stem it
  hands out is never empty (`hasSuffix_yields`).  The final `e` of a word is only taken off when
  the word has a positive measure, which a word of one letter has not (`two_le_length_of_measure`).
-/
import SearchEngine.StopWords
import Mathlib.Tactic.Common

namespace SearchEngine

open Text Effect

/-- A character inside the string can be read. -/
theorem charAt_yields {s : Str} {i : Int} (h0 : 0 ≤ i) (hi : i < s.length) :
    Yields (charAt s i) (fun c => s[i.toNat]? = some c) := by
  have hlt : i.toNat < s.length := by omega
  refine ⟨s[i.toNat], ?_, List.getElem?_eq_getElem hlt⟩
  rw [charAt, if_neg (by omega), List.getElem?_eq_getElem hlt]

theorem charAt_last_yields {s : Str} (h : s ≠ []) :
    Yields (charAt s (s.length - 1)) (fun c => s.getLast? = some c) := by
  have hpos : 0 < s.length := List.length_pos_iff.mpr h
  refine (charAt_yields (by omega) (by omega)).weaken (fun c hc => ?_)
  rw [List.getLast?_eq_getElem?, ← hc]
  congr 1
  omega

/-- What is left of a longer word is not empty. -/
theorem take_ne_nil {s : Str} {k : Nat} (h : k < s.length) : s.take (s.length - k) ≠ [] := by
  rw [← List.length_pos_iff, List.length_take]
  omega

namespace Porter

/-! ## Suffixes -/

/-- The stem `hasSuffix` hands out is the word without the suffix, and not empty. -/
def StemOf (word suffix : Str) (stem : Option Str) : Prop :=
  ∀ s, stem = some s → s ≠ [] ∧ word = s ++ suffix

theorem stemOf_none (word suffix : Str) : StemOf word suffix none := fun _ h => by cases h

theorem hasSuffix_yields (word suffix : Str) :
    Yields (hasSuffix word suffix) (StemOf word suffix) := by
  unfold hasSuffix
  split
  · exact Yields.pure (stemOf_none word suffix)
  · rename_i hlen
    have tail : ∀ differ : Bool, Yields (ε := Exn)
        (if differ = true then pure none
          else pure (if word.take (word.length - suffix.length) ++ suffix = word
            then some (word.take (word.length - suffix.length)) else none))
        (StemOf word suffix) := by
      intro differ
      split
      · exact Yields.pure (stemOf_none word suffix)
      · refine Yields.pure (fun s hs => ?_)
        split at hs
        · rename_i happ
          cases hs
          exact ⟨take_ne_nil (by omega), happ.symm⟩
        · cases hs
    dsimp only
    split
    · refine (charAt_yields (by omega) (by omega)).bind (fun a _ => ?_)
      exact (charAt_yields (by omega) (by omega)).bind (fun b _ => tail (a != b))
    · exact tail false

/-- A hit of the chain is a hit of one of its suffixes. -/
theorem hasAnySuffix_yields (word : Str) :
    ∀ suffixes : List Str, Yields (hasAnySuffix word suffixes)
      (fun stem => ∀ s, stem = some s → s ≠ [] ∧ ∃ suffix ∈ suffixes, word = s ++ suffix)
  | [] => Yields.pure (fun s hs => by cases hs)
  | suffix :: rest => by
    rw [hasAnySuffix]
    refine (hasSuffix_yields word suffix).bind (fun stem hstem => ?_)
    cases stem with
    | some s =>
      obtain ⟨hne, hword⟩ := hstem s rfl
      refine Yields.pure (fun s' hs' => ?_)
      cases hs'
      exact ⟨hne, suffix, List.mem_cons_self, hword⟩
    | none =>
      refine (hasAnySuffix_yields word rest).weaken (fun stem' h s hs => ?_)
      obtain ⟨hne, suffix', hmem, hword⟩ := h s hs
      exact ⟨hne, suffix', List.mem_cons_of_mem suffix hmem, hword⟩

/-! ## Measure -/

/-- A letter has no measure. -/
theorem two_le_length_of_measure {s : Str} (h : 0 < measure s) : 2 ≤ s.length := by
  unfold measure at h
  match s with
  | [] => simp [measureFrom] at h
  | [c] =>
    rw [measureFrom] at h
    split at h <;> simp [measureFrom] at h
  | c :: d :: rest => simp

theorem cvc_yields (str : Str) : Yields (cvc str) (fun _ => True) := by
  unfold cvc
  dsimp only
  split
  · exact Yields.pure trivial
  · refine (charAt_yields (by omega) (by omega)).bind (fun c1 _ => ?_)
    refine (charAt_yields (by omega) (by omega)).bind (fun c2 _ => ?_)
    split
    · refine (charAt_yields (by omega) (by omega)).bind (fun c3 _ => ?_)
      split
      · split
        · exact (charAt_yields (by omega) (by omega)).bind (fun c0 _ => Yields.pure trivial)
        · exact (charAt_yields (by omega) (by omega)).bind (fun c4 _ => Yields.pure trivial)
      · exact Yields.pure trivial
    · exact Yields.pure trivial

/-! ## Step 1 -/

/-- **The plural rule** takes `s` away whole, and otherwise leaves something. -/
theorem step1Plural_yields {str : Str} (h : str ≠ []) :
    Yields (step1Plural str)
      (fun r => (str = ['s'] ∧ r = ([], true)) ∨ (str ≠ ['s'] ∧ r.2 = false ∧ r.1 ≠ [])) := by
  have hpos : 0 < str.length := List.length_pos_iff.mpr h
  unfold step1Plural
  refine (charAt_last_yields h).bind (fun c hc => ?_)
  split
  · rename_i hs
    refine (hasAnySuffix_yields str _).bind (fun stem hstem => ?_)
    cases stem with
    | some s =>
      -- both suffixes have at least three letters, and there is a stem in front
      obtain ⟨hne, suffix, hmem, hword⟩ := hstem s rfl
      have hsuffix : 3 ≤ suffix.length := by
        rcases List.mem_cons.mp hmem with rfl | hmem
        · decide
        · obtain rfl : suffix = "ies".toList := by simpa using hmem
          decide
      have hlen : 4 ≤ str.length := by
        have hstem : 0 < s.length := List.length_pos_iff.mpr hne
        rw [hword, List.length_append]
        omega
      refine Yields.pure (Or.inr ⟨?_, rfl, take_ne_nil (by omega)⟩)
      rintro rfl
      exact absurd hlen (by decide)
    | none =>
      dsimp only
      split
      · rename_i hone
        obtain ⟨d, rfl⟩ := List.length_eq_one_iff.mp hone
        obtain rfl : d = c := by simpa using hc
        exact Yields.pure (Or.inl ⟨by simpa using hs, rfl⟩)
      · refine (charAt_yields (by omega) (by omega)).bind (fun d _ => Yields.pure (Or.inr ?_))
        refine ⟨?_, rfl, ?_⟩
        · rintro rfl
          contradiction
        · dsimp only
          split
          · exact take_ne_nil (by omega)
          · exact h
  · rename_i hs
    refine Yields.pure (Or.inr ⟨?_, rfl, h⟩)
    rintro rfl
    exact hs (by simpa using hc.symm)

theorem step1Repair_yields {str : Str} (h : 2 ≤ str.length) :
    Yields (step1Repair str) (fun w => w ≠ []) := by
  have hne : str ≠ [] := by
    rintro rfl
    exact absurd h (by decide)
  unfold step1Repair
  refine (hasAnySuffix_yields str _).bind (fun stem _ => ?_)
  cases stem with
  | some s => exact Yields.pure (by simp)
  | none =>
    refine (charAt_yields (by omega) (by omega)).bind (fun c1 _ => ?_)
    refine (charAt_yields (by omega) (by omega)).bind (fun c2 _ => ?_)
    split
    · exact Yields.pure (take_ne_nil (by omega))
    · split
      · refine (cvc_yields str).bind (fun b _ => Yields.pure ?_)
        split
        · simp
        · exact hne
      · exact Yields.pure hne

theorem step1Past_yields {str : Str} (h : str ≠ []) :
    Yields (step1Past str) (fun r => r.1 ≠ []) := by
  unfold step1Past
  refine (hasSuffix_yields str _).bind (fun stem hstem => ?_)
  cases stem with
  | some s =>
    obtain ⟨hne, hword⟩ := hstem s rfl
    have hlen : 1 < str.length := by
      have hpos : 0 < s.length := List.length_pos_iff.mpr hne
      rw [hword, List.length_append, show "eed".toList.length = 3 from rfl]
      omega
    refine Yields.pure ?_
    dsimp only
    split
    · exact take_ne_nil hlen
    · exact h
  | none =>
    refine (hasAnySuffix_yields str _).bind (fun stem hstem => ?_)
    cases stem with
    | none => exact Yields.pure h
    | some s =>
      obtain ⟨hne, -⟩ := hstem s rfl
      have hpos : 0 < s.length := List.length_pos_iff.mpr hne
      dsimp only
      split
      · split
        · exact Yields.pure hne
        · exact (step1Repair_yields (by omega)).bind (fun w hw => Yields.pure hw)
      · exact Yields.pure h

theorem step1Y_yields {str : Str} (h : str ≠ []) : Yields (step1Y str) (fun w => w ≠ []) := by
  unfold step1Y
  refine (hasSuffix_yields str _).bind (fun stem _ => ?_)
  cases stem with
  | none => exact Yields.pure h
  | some s =>
    refine Yields.pure ?_
    split
    · simp
    · exact h

/-- **Step 1** leaves nothing of the word `s`, and something of every other word. -/
theorem step1_yields {str : Str} (h : str ≠ []) :
    Yields (step1 str) (fun w => w = [] ↔ str = ['s']) := by
  unfold step1
  refine (step1Plural_yields h).bind (fun r hr => ?_)
  rcases hr with ⟨hs, rfl⟩ | ⟨hs, hdone, hne⟩
  · exact Yields.pure ⟨fun _ => hs, fun _ => rfl⟩
  · obtain ⟨w, done⟩ := r
    obtain rfl : done = false := hdone
    refine (step1Past_yields hne).bind (fun r' hne' => ?_)
    obtain ⟨w', done'⟩ := r'
    dsimp only
    split
    · exact Yields.pure ⟨fun hw => absurd hw hne', fun hcon => absurd hcon hs⟩
    · refine (step1Y_yields hne').weaken (fun v hv => ?_)
      exact ⟨fun hcon => absurd hcon hv, fun hcon => absurd hcon hs⟩

/-! ## Steps 2 to 5 -/

theorem replaceSuffix_yields (bound : Nat) {str : Str} (h : str ≠ []) :
    ∀ table : List (Str × Str), Yields (replaceSuffix bound str table) (fun w => w ≠ [])
  | [] => Yields.pure h
  | (suffix, replacement) :: rest => by
    rw [replaceSuffix]
    refine (hasSuffix_yields str suffix).bind (fun stem hstem => ?_)
    cases stem with
    | none => exact replaceSuffix_yields bound h rest
    | some s =>
      obtain ⟨hne, -⟩ := hstem s rfl
      dsimp only
      split
      · exact Yields.pure (List.append_ne_nil_of_left_ne_nil hne replacement)
      · exact replaceSuffix_yields bound h rest

theorem step5E_yields {str : Str} (h : str ≠ []) : Yields (step5E str) (fun w => w ≠ []) := by
  -- an `e` is only taken off a word with a measure
  have hstem : 0 < measure str → str.take (str.length - 1) ≠ [] := fun hm =>
    take_ne_nil (two_le_length_of_measure hm)
  unfold step5E
  refine (charAt_last_yields h).bind (fun c _ => ?_)
  split
  · split
    · rename_i hm
      exact Yields.pure (hstem (by omega))
    · split
      · rename_i hm
        refine (cvc_yields _).bind (fun b _ => Yields.pure ?_)
        split
        · exact h
        · exact hstem (by omega)
      · exact Yields.pure h
  · exact Yields.pure h

theorem step5_yields {str : Str} (h : str ≠ []) : Yields (step5 str) (fun w => w ≠ []) := by
  unfold step5
  refine (step5E_yields h).bind (fun w hw => ?_)
  have hpos : 0 < w.length := List.length_pos_iff.mpr hw
  split
  · exact Yields.pure hw
  · refine (charAt_yields (by omega) (by omega)).bind (fun c1 _ => ?_)
    split
    · refine (charAt_yields (by omega) (by omega)).bind (fun c2 _ => ?_)
      split
      · refine Yields.pure ?_
        split
        · exact take_ne_nil (by omega)
        · exact hw
      · exact Yields.pure hw
    · exact Yields.pure hw

/-! ## The chain -/

/-- A guarded step keeps what there is: nothing stays nothing, something stays something. -/
theorem guarded_yields {step : Str → Except Exn Str}
    (hstep : ∀ str, str ≠ [] → Yields (step str) (fun w => w ≠ [])) (str : Str) :
    Yields (guarded step str) (fun w => w = [] ↔ str = []) := by
  unfold guarded
  split
  · rename_i hlen
    have hne : str ≠ [] := List.length_pos_iff.mp hlen
    refine (hstep str hne).weaken (fun w hw => ?_)
    exact ⟨fun hcon => absurd hcon hw, fun hcon => absurd hcon hne⟩
  · exact Yields.pure Iff.rfl

theorem stripSuffixes_yields {str : Str} (h : str ≠ []) :
    Yields (stripSuffixes str) (fun w => w = [] ↔ str = ['s']) := by
  unfold stripSuffixes
  refine (step1_yields h).bind (fun w₁ h₁ => ?_)
  refine (guarded_yields (fun _ hs => replaceSuffix_yields 0 hs step2Table) w₁).bind
    (fun w₂ h₂ => ?_)
  refine (guarded_yields (fun _ hs => replaceSuffix_yields 0 hs step3Table) w₂).bind
    (fun w₃ h₃ => ?_)
  refine (guarded_yields (fun _ hs => replaceSuffix_yields 1 hs step4Table) w₃).bind
    (fun w₄ h₄ => ?_)
  refine (guarded_yields (fun _ hs => step5_yields hs) w₄).weaken (fun w₅ h₅ => ?_)
  exact h₅.trans (h₄.trans (h₃.trans (h₂.trans h₁)))

/-! ## Prefixes -/

/-- The prefixes that are taken off. -/
def prefixes : List Str :=
  ["kilo".toList, "micro".toList, "milli".toList, "intra".toList, "ultra".toList,
    "mega".toList, "nano".toList, "pico".toList, "pseudo".toList]

/-- None of them opens another, so the order of the list does not matter. -/
theorem prefixes_apart : ∀ p ∈ prefixes, ∀ q ∈ prefixes, p.isPrefixOf q = true → p = q := by
  decide

theorem stripPrefixes_of_find {str : Str} {o : Option Str}
    (h : prefixes.find? (·.isPrefixOf str) = o) :
    stripPrefixes str = (o.map (fun p => str.drop p.length)).getD str := by
  unfold prefixes at h
  rw [stripPrefixes, h]
  cases o <;> rfl

/-- Either a prefix is taken off, or the word stays as it is. -/
theorem stripPrefixes_cases (str : Str) :
    (∃ p ∈ prefixes, str = p ++ stripPrefixes str) ∨ stripPrefixes str = str := by
  cases hfind : prefixes.find? (·.isPrefixOf str) with
  | none => exact Or.inr (stripPrefixes_of_find hfind)
  | some p =>
    have hpre : p.isPrefixOf str = true := by simpa using List.find?_some hfind
    refine Or.inl ⟨p, List.mem_of_find?_eq_some hfind, ?_⟩
    rw [stripPrefixes_of_find hfind]
    exact (List.prefix_iff_eq_append.mp (List.isPrefixOf_iff_prefix.mp hpre)).symm

/-- A prefix that is there is taken off. -/
theorem stripPrefixes_append {p : Str} (hp : p ∈ prefixes) (rest : Str) :
    stripPrefixes (p ++ rest) = rest := by
  have hpre : p.isPrefixOf (p ++ rest) = true :=
    List.isPrefixOf_iff_prefix.mpr (List.prefix_append p rest)
  cases hfind : prefixes.find? (·.isPrefixOf (p ++ rest)) with
  | none => exact absurd hpre (by simpa using List.find?_eq_none.mp hfind p hp)
  | some q =>
    have hq : q ∈ prefixes := List.mem_of_find?_eq_some hfind
    have hqpre : q.isPrefixOf (p ++ rest) = true := by simpa using List.find?_some hfind
    -- of two prefixes of one word, one opens the other
    obtain rfl : q = p := by
      rw [List.isPrefixOf_iff_prefix] at hpre hqpre
      rcases List.prefix_or_prefix_of_prefix hqpre hpre with h | h
      · exact prefixes_apart q hq p hp (List.isPrefixOf_iff_prefix.mpr h)
      · exact (prefixes_apart p hp q hq (List.isPrefixOf_iff_prefix.mpr h)).symm
    rw [stripPrefixes_of_find hfind]
    simp

/-- The words of which no stem is left: the empty word, a prefix, a prefix in the plural. -/
def emptied : List Str := [] :: (prefixes ++ prefixes.map (· ++ ['s']))

theorem two_lt_length_of_prefixes : ∀ p ∈ prefixes, 2 < p.length := by decide

/-- Behind the prefixes, nothing or a lone `s`: exactly the words of `emptied`. -/
theorem stripPrefixes_emptied {str : Str} (h : 2 < str.length) :
    (stripPrefixes str = [] ∨ stripPrefixes str = ['s']) ↔ str ∈ emptied := by
  have hne : str ≠ [] := by
    rintro rfl
    exact absurd h (by decide)
  constructor
  · intro hrest
    rcases stripPrefixes_cases str with ⟨p, hp, hstr⟩ | hsame
    · rcases hrest with hnil | hs
      · rw [hnil, List.append_nil] at hstr
        exact List.mem_cons_of_mem _ (List.mem_append_left _ (hstr ▸ hp))
      · rw [hs] at hstr
        exact List.mem_cons_of_mem _ (List.mem_append_right _
          (List.mem_map.mpr ⟨p, hp, hstr.symm⟩))
    · -- without a prefix the word is too long for either
      rcases hrest with hnil | hs
      · exact absurd (hsame.symm.trans hnil) hne
      · rw [← hsame, hs] at h
        exact absurd h (by decide)
  · intro hmem
    rcases List.mem_append.mp ((List.mem_cons.mp hmem).resolve_left hne) with hp | hp
    · exact Or.inl (by simpa using stripPrefixes_append hp [])
    · obtain ⟨p, hmem', rfl⟩ := List.mem_map.mp hp
      exact Or.inr (stripPrefixes_append hmem' ['s'])

/-- The letters and digits of a token, in lower case: what the stemmer works on. -/
def lettersOf (E : Platform) (str : Str) : Str := (E.toLowerCase str).filter E.isLetterOrDigit

theorem Clean_yields (E : Platform) {str : Str} (h : str ≠ []) :
    Yields (Clean E str) (fun w => w = str.filter E.isLetterOrDigit) := by
  have hpos : 0 < str.length := List.length_pos_iff.mpr h
  exact (charAt_yields (by omega) (by omega)).bind (fun _ _ => Yields.pure rfl)

/-- **Stemming is total on tokens that are not empty**, and leaves nothing of exactly those whose
    letters are among `emptied`. -/
theorem stripAffixes_yields (E : Platform) {str : Str} (h : str ≠ []) :
    Yields (stripAffixes E str) (fun w => w = [] ↔ lettersOf E str ∈ emptied) := by
  unfold stripAffixes
  refine (Clean_yields E (E.toLowerCase_ne_nil str h)).bind (fun w hw => ?_)
  change w = lettersOf E str at hw
  rw [← hw]
  dsimp only
  split
  · rename_i hlen
    have hiff := stripPrefixes_emptied hlen.2
    split
    · rename_i hne
      refine (stripSuffixes_yields hne).weaken (fun v hv => ?_)
      rw [← hiff, hv]
      exact ⟨Or.inr, fun hor => hor.resolve_left hne⟩
    · rename_i hnil
      have hnil : stripPrefixes w = [] := by simpa using hnil
      exact Yields.pure ⟨fun _ => hiff.mp (Or.inl hnil), fun _ => hnil⟩
  · -- too short for the chain: the word is its letters
    rename_i hshort
    refine Yields.pure ⟨fun hnil => by rw [hnil]; exact List.mem_cons_self, fun hmem => ?_⟩
    by_contra hne
    rcases List.mem_append.mp ((List.mem_cons.mp hmem).resolve_left hne) with hp | hp
    · exact hshort ⟨hne, two_lt_length_of_prefixes w hp⟩
    · obtain ⟨p, hmem', rfl⟩ := List.mem_map.mp hp
      have hlen := two_lt_length_of_prefixes p hmem'
      exact hshort ⟨hne, by rw [List.length_append]; omega⟩

end Porter

end SearchEngine
