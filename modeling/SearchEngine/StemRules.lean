/-
  The stemmer of `Porter.java` as a rewriting system, and what its stems look like.

  1. **Measure** — `measure` walks through the word with two inner loops that share an index.  What
     it computes is the `m` of the form `[C](VC)^m[V]` that every word has, for `C` a run of
     consonants and `V` a run of vowels (`measure_eq_iff`).

  2. **Rules** — whatever step, table or repair is at work, it replaces an ending of the word under
     a condition on what stands in front.  `Rule` lists these replacements; `stripSuffixes_rules`
     says that the five steps only ever apply them.

  3. **Shape** — no rule makes the word longer, and each puts at most four letters in the place of
     an ending.  So a stem is the letters of its token up to a prefix and at most four letters at
     the end (`stripAffixes_shape`).

  4. **Vowels** — no rule brings in a vowel where there was none.  Two may take the last one away:
     `sses`, which only looks for SOME letter in front, and the doubled letter of `yyed` or
     `yying`, whose second `y` is a vowel and whose first is not (`containsVowel_stem_iff`).
-/
import SearchEngine.CharAccess
import SearchEngine.Lib.Waves
import Mathlib.Logic.Relation
import Mathlib.Tactic.Common

namespace SearchEngine

open Text Effect Waves

namespace Porter

/-! ## Measure -/

/-- Which characters count as vowels, behind a character. -/
def kindsFrom : Option Char → Str → List Bool
  | _, [] => []
  | prev, c :: cs => vowel c (prev.getD 'a') :: kindsFrom (some c) cs

/-- Which characters of a word count as vowels. -/
def kinds (s : Str) : List Bool := kindsFrom none s

/-- Both inner loops of `measure`, behind the first character. -/
theorem measureFrom_eq_falls : ∀ (inVowels : Bool) (prev : Char) (s : Str),
    measureFrom inVowels (some prev) s = fallsFrom inVowels (kindsFrom (some prev) s)
  | _, _, [] => by simp only [measureFrom, kindsFrom, fallsFrom]
  | false, prev, c :: cs => by
    rw [measureFrom, kindsFrom, fallsFrom, Option.getD_some,
      measureFrom_eq_falls true c cs, measureFrom_eq_falls false c cs]
    cases vowel c prev <;> rfl
  | true, prev, c :: cs => by
    rw [measureFrom, kindsFrom, fallsFrom, Option.getD_some, Option.getD_some,
      measureFrom_eq_falls true c cs, measureFrom_eq_falls false c cs]
    cases vowel c prev <;> rfl

theorem measure_eq_falls (s : Str) : measure s = falls (kinds s) := by
  cases s with
  | nil => rfl
  | cons c cs =>
    rw [measure, kinds, measureFrom, kindsFrom, falls, fallsFrom, Option.getD_none,
      measureFrom_eq_falls true c cs, measureFrom_eq_falls false c cs]
    cases vowel c 'a' <;> rfl

/-- **What `measure` counts.**  For every word and number `m`, the loops of `measure` return `m` if
    and only if the word reads as a run of consonants, `m` times a run of vowels and a run of
    consonants, none of them empty, and a run of vowels. -/
theorem measure_eq_iff (stem : Str) (m : Nat) :
    ByIndex.measure stem = .ok m ↔ ∃ (c v : Nat) (ws : List (Nat × Nat)), ws.length = m ∧
      kinds stem = List.replicate c false ++ waves ws ++ List.replicate v true := by
  rw [ByIndex.measure_eq, Except.ok.injEq, measure_eq_falls]
  exact falls_eq_iff (kinds stem) m

/-- The word `trouble` as `[tr](ou bl)[e]`. -/
example : kinds "trouble".toList
    = List.replicate 2 false ++ waves [(1, 1)] ++ List.replicate 1 true := by
  decide

/-! ## Vowels -/

theorem containsVowelFrom_iff : ∀ (prev : Option Char) (s : Str),
    containsVowelFrom prev s = true ↔ true ∈ kindsFrom prev s
  | _, [] => by simp [containsVowelFrom, kindsFrom]
  | prev, c :: cs => by
    rw [containsVowelFrom, kindsFrom, Bool.or_eq_true, containsVowelFrom_iff (some c) cs,
      List.mem_cons, eq_comm (a := true)]

theorem containsVowel_iff (s : Str) : containsVowel s = true ↔ true ∈ kinds s :=
  containsVowelFrom_iff none s

/-- What stands behind a part does not change its vowels. -/
theorem kindsFrom_append : ∀ (prev : Option Char) (s t : Str),
    kindsFrom prev (s ++ t) = kindsFrom prev s ++ kindsFrom (s.getLast?.or prev) t
  | _, [], _ => rfl
  | prev, c :: cs, t => by
    have hlast : (c :: cs).getLast?.or prev = cs.getLast?.or (some c) := by
      rw [List.getLast?_cons]
      cases cs.getLast? <;> rfl
    rw [List.cons_append, kindsFrom, kindsFrom_append (some c) cs t, kindsFrom, hlast,
      List.cons_append]

theorem kinds_append (s t : Str) : kinds (s ++ t) = kinds s ++ kindsFrom s.getLast? t := by
  rw [kinds, kindsFrom_append, Option.or_none]
  rfl

theorem containsVowel_append_left {s : Str} (h : containsVowel s = true) (t : Str) :
    containsVowel (s ++ t) = true := by
  rw [containsVowel_iff] at h ⊢
  rw [kinds_append]
  exact List.mem_append_left _ h

/-- A character that is never a vowel. -/
theorem containsVowel_snoc (s : Str) {c : Char} (hc : ∀ prev, vowel c prev = false) :
    containsVowel (s ++ [c]) = containsVowel s := by
  rw [Bool.eq_iff_iff, containsVowel_iff, containsVowel_iff, kinds_append, List.mem_append,
    kindsFrom, hc]
  simp [kindsFrom]

/-- One of the five letters is a vowel wherever it stands. -/
theorem containsVowel_of_aeiou {s : Str} {c : Char} (hc : isAEIOU c = true) :
    ∀ {prev : Option Char}, c ∈ s → containsVowelFrom prev s = true := by
  induction s with
  | nil => exact fun hmem => absurd hmem List.not_mem_nil
  | cons d s ih =>
    intro prev hmem
    rw [containsVowelFrom, Bool.or_eq_true]
    rcases List.mem_cons.mp hmem with rfl | hmem
    · exact Or.inl (by rw [vowel, if_pos hc])
    · exact Or.inr (ih hmem)

theorem containsVowel_of_measure {s : Str} (h : 0 < measure s) : containsVowel s = true := by
  rw [measure_eq_falls] at h
  exact (containsVowel_iff s).mpr (mem_of_falls_pos h)

/-! ## Rules -/

/-- The plural rules: one replacement of an ending, with what has been tested. -/
inductive PluralRule : Str → Str → Prop where
  | sses {s : Str} (hs : s ≠ []) : PluralRule (s ++ "sses".toList) (s ++ "ss".toList)
  | ies {s : Str} (hs : s ≠ []) : PluralRule (s ++ "ies".toList) (s ++ "i".toList)
  | plural {s : Str} (hs : s.getLast? ≠ some 's') : PluralRule (s ++ ['s']) s

/-- The rules for the past tense. -/
inductive PastRule : Str → Str → Prop where
  | eed {s : Str} (hm : 0 < measure s) : PastRule (s ++ "eed".toList) (s ++ "ee".toList)
  /-- With or without the `e` that is put back. -/
  | past {s suffix r : Str} (hsuffix : suffix ∈ ["ed".toList, "ing".toList])
      (hv : containsVowel s = true) (hr : r ∈ [[], ['e']]) : PastRule (s ++ suffix) (s ++ r)
  /-- Together with one of two equal letters. -/
  | double {s suffix : Str} {c : Char} (hsuffix : suffix ∈ ["ed".toList, "ing".toList])
      (hv : containsVowel (s ++ [c] ++ [c]) = true) :
      PastRule (s ++ [c] ++ [c] ++ suffix) (s ++ [c])

/-- The rule for a final `y`. -/
inductive YRule : Str → Str → Prop where
  | y {s : Str} (hv : containsVowel s = true) : YRule (s ++ ['y']) (s ++ ['i'])

/-- The rules of the steps behind the first. -/
inductive LateRule : Str → Str → Prop where
  /-- A row of one of the tables. -/
  | row {s suffix r : Str} (hrow : (suffix, r) ∈ step2Table ++ step3Table ++ step4Table)
      (hm : 0 < measure s) : LateRule (s ++ suffix) (s ++ r)
  | finalE {s : Str} (hm : 0 < measure (s ++ ['e'])) : LateRule (s ++ ['e']) s
  | doubleL (s : Str) : LateRule (s ++ ['l'] ++ ['l']) (s ++ ['l'])

/-- All rules. -/
inductive Rule : Str → Str → Prop where
  | plural {w w' : Str} (h : PluralRule w w') : Rule w w'
  | past {w w' : Str} (h : PastRule w w') : Rule w w'
  | y {w w' : Str} (h : YRule w w') : Rule w w'
  | late {w w' : Str} (h : LateRule w w') : Rule w w'

/-- Any number of replacements. -/
abbrev Rules : Str → Str → Prop := Relation.ReflTransGen Rule

/-- The front of a word that an ending is cut off from. -/
theorem take_append_back (s t : Str) {k : Nat} (h : k ≤ t.length) :
    (s ++ t).take ((s ++ t).length - k) = s ++ t.take (t.length - k) := by
  rw [List.length_append, Nat.add_sub_assoc h, List.take_length_add_append]

theorem take_snoc (s : Str) (c : Char) : (s ++ [c]).take ((s ++ [c]).length - 1) = s := by
  rw [take_append_back s [c] (Nat.le_refl 1)]
  exact List.append_nil s

/-- The last character, when it can be read. -/
theorem charAt_last_ensures (s : Str) :
    Ensures (charAt s (s.length - 1)) (fun c => ∃ t, s = t ++ [c]) := by
  cases s with
  | nil => exact fun _ h => by cases h
  | cons d s =>
    refine (charAt_last_yields (List.cons_ne_nil d s)).ensures.weaken (fun c hc => ?_)
    exact List.getLast?_eq_some_iff.mp hc

/-- The last character but one. -/
theorem charAt_second_ensures (t : Str) (c : Char) :
    Ensures (charAt (t ++ [c]) ((t ++ [c]).length - 2)) (fun d => ∃ t', t = t' ++ [d]) := by
  rcases List.eq_nil_or_concat' t with rfl | ⟨t', d, rfl⟩
  · exact fun _ h => by cases h
  · have hindex : (((t' ++ [d] ++ [c]).length : Int) - 2) = (t'.length : Nat) := by
      simp only [List.length_append, List.length_singleton]
      omega
    have hlt : t'.length < (t' ++ [d] ++ [c]).length := by
      simp only [List.length_append, List.length_singleton]
      omega
    rw [hindex, ByIndex.charAt_of_lt hlt]
    refine Ensures.pure ⟨t', ?_⟩
    simp

/-! ## The steps apply rules -/

theorem step1Plural_rule (str : Str) :
    Ensures (step1Plural str) (fun r => r.1 = str ∨ PluralRule str r.1) := by
  unfold step1Plural
  refine (charAt_last_ensures str).bind (fun c hc => ?_)
  obtain ⟨t, rfl⟩ := hc
  split
  · rename_i hs
    obtain rfl : c = 's' := by simpa using hs
    refine (hasAnySuffix_yields _ _).ensures.bind (fun stem hstem => ?_)
    cases stem with
    | some s =>
      obtain ⟨hne, suffix, hmem, hword⟩ := hstem s rfl
      refine Ensures.pure (Or.inr ?_)
      show PluralRule (t ++ ['s']) ((t ++ ['s']).take ((t ++ ['s']).length - 2))
      rw [hword]
      rcases List.mem_cons.mp hmem with rfl | hmem
      · rw [take_append_back s _ (by decide)]
        exact PluralRule.sses hne
      · obtain rfl : suffix = "ies".toList := by simpa using hmem
        rw [take_append_back s _ (by decide)]
        exact PluralRule.ies hne
    | none =>
      dsimp only
      split
      · rename_i hone
        obtain rfl : t = [] := by simpa using hone
        exact Ensures.pure (Or.inr (PluralRule.plural (s := []) (by decide)))
      · refine (charAt_second_ensures t 's').bind (fun d hd => Ensures.pure ?_)
        obtain ⟨t', rfl⟩ := hd
        dsimp only
        split
        · rename_i hne
          rw [take_snoc]
          refine Or.inr (PluralRule.plural ?_)
          simpa using hne
        · exact Or.inl rfl
  · exact Ensures.pure (Or.inl rfl)

/-- What the repair does to a word. -/
theorem step1Repair_ensures (str : Str) :
    Ensures (step1Repair str) (fun w => w = str ++ ['e'] ∨ w = str ∨
      ∃ s c, str = s ++ [c] ++ [c] ∧ w = s ++ [c]) := by
  unfold step1Repair
  refine (hasAnySuffix_yields str _).ensures.bind (fun stem _ => ?_)
  cases stem with
  | some s => exact Ensures.pure (Or.inl rfl)
  | none =>
    refine (charAt_last_ensures str).bind (fun c hc => ?_)
    obtain ⟨t, rfl⟩ := hc
    refine (charAt_second_ensures t c).bind (fun d hd => ?_)
    obtain ⟨t', rfl⟩ := hd
    split
    · rename_i hdouble
      simp only [Bool.and_eq_true, beq_iff_eq] at hdouble
      obtain ⟨⟨⟨rfl, -⟩, -⟩, -⟩ := hdouble
      exact Ensures.pure (Or.inr (Or.inr ⟨t', c, rfl, take_snoc (t' ++ [c]) c⟩))
    · split
      · refine (cvc_yields _).ensures.bind (fun b _ => Ensures.pure ?_)
        split
        · exact Or.inl rfl
        · exact Or.inr (Or.inl rfl)
      · exact Ensures.pure (Or.inr (Or.inl rfl))

theorem step1Past_rule (str : Str) :
    Ensures (step1Past str) (fun r => r.1 = str ∨ PastRule str r.1) := by
  unfold step1Past
  refine (hasSuffix_yields str _).ensures.bind (fun stem hstem => ?_)
  cases stem with
  | some s =>
    obtain ⟨-, rfl⟩ := hstem s rfl
    refine Ensures.pure ?_
    dsimp only
    split
    · rename_i hm
      rw [take_append_back s _ (by decide)]
      exact Or.inr (PastRule.eed hm)
    · exact Or.inl rfl
  | none =>
    refine (hasAnySuffix_yields str _).ensures.bind (fun stem hstem => ?_)
    cases stem with
    | none => exact Ensures.pure (Or.inl rfl)
    | some s =>
      obtain ⟨-, suffix, hmem, rfl⟩ := hstem s rfl
      dsimp only
      split
      · rename_i hv
        have hcut : PastRule (s ++ suffix) s := by
          have hrule := PastRule.past hmem hv (r := []) (by simp)
          rwa [List.append_nil] at hrule
        split
        · exact Ensures.pure (Or.inr hcut)
        · refine (step1Repair_ensures s).bind (fun w hw => Ensures.pure (Or.inr ?_))
          rcases hw with rfl | rfl | ⟨s', c, rfl, rfl⟩
          · exact PastRule.past hmem hv (by simp)
          · exact hcut
          · exact PastRule.double hmem hv
      · exact Ensures.pure (Or.inl rfl)

theorem step1Y_rule (str : Str) : Ensures (step1Y str) (fun w => w = str ∨ YRule str w) := by
  unfold step1Y
  refine (hasSuffix_yields str _).ensures.bind (fun stem hstem => ?_)
  cases stem with
  | none => exact Ensures.pure (Or.inl rfl)
  | some s =>
    obtain ⟨-, rfl⟩ := hstem s rfl
    refine Ensures.pure ?_
    split
    · rename_i hv
      rw [take_snoc]
      exact Or.inr (YRule.y hv)
    · exact Or.inl rfl

/-- Any number of replacements by the steps behind the first. -/
abbrev LateRules : Str → Str → Prop := Relation.ReflTransGen LateRule

theorem replaceSuffix_rules (bound : Nat) (str : Str) :
    ∀ {table : List (Str × Str)}, (∀ row ∈ table, row ∈ step2Table ++ step3Table ++ step4Table) →
      Ensures (replaceSuffix bound str table) (LateRules str)
  | [], _ => Ensures.pure .refl
  | (suffix, replacement) :: rest, htable => by
    have hrest := replaceSuffix_rules bound str
      (fun row hrow => htable row (List.mem_cons_of_mem _ hrow))
    rw [replaceSuffix]
    refine (hasSuffix_yields str suffix).ensures.bind (fun stem hstem => ?_)
    cases stem with
    | none => exact hrest
    | some s =>
      obtain ⟨-, rfl⟩ := hstem s rfl
      dsimp only
      split
      · rename_i hm
        exact Ensures.pure (.single (LateRule.row (htable _ List.mem_cons_self) (by omega)))
      · exact hrest

theorem step5E_rules (str : Str) : Ensures (step5E str) (LateRules str) := by
  unfold step5E
  refine (charAt_last_ensures str).bind (fun c hc => ?_)
  obtain ⟨t, rfl⟩ := hc
  split
  · rename_i he
    obtain rfl : c = 'e' := by simpa using he
    rw [take_snoc]
    split
    · rename_i hm
      exact Ensures.pure (.single (LateRule.finalE (by omega)))
    · split
      · rename_i hm
        refine (cvc_yields _).ensures.bind (fun b _ => Ensures.pure ?_)
        split
        · exact .refl
        · exact .single (LateRule.finalE (by omega))
      · exact Ensures.pure .refl
  · exact Ensures.pure .refl

theorem step5_rules (str : Str) : Ensures (step5 str) (LateRules str) := by
  unfold step5
  refine (step5E_rules str).bind (fun w hw => ?_)
  split
  · exact Ensures.pure hw
  · refine (charAt_last_ensures w).bind (fun c hc => ?_)
    obtain ⟨t, rfl⟩ := hc
    split
    · rename_i hl
      obtain rfl : c = 'l' := by simpa using hl
      refine (charAt_second_ensures t 'l').bind (fun d hd => ?_)
      obtain ⟨t', rfl⟩ := hd
      split
      · rename_i hll
        obtain rfl : d = 'l' := by simpa using hll
        refine Ensures.pure ?_
        split
        · rw [take_snoc]
          exact hw.tail (LateRule.doubleL t')
        · exact hw
      · exact Ensures.pure hw
    · exact Ensures.pure hw

theorem guarded_rules {step : Str → Except Exn Str} (hstep : ∀ s, Ensures (step s) (LateRules s))
    {str w : Str} (h : LateRules str w) : Ensures (guarded step w) (LateRules str) := by
  unfold guarded
  split
  · exact (hstep w).weaken (fun w' hw' => h.trans hw')
  · exact Ensures.pure h

/-- The first step, and the rules of the others. -/
theorem stripSuffixes_ensures (str : Str) : Ensures (stripSuffixes str)
    (fun w => ∃ w₁, step1 str = .ok w₁ ∧ LateRules w₁ w) := by
  have hrows : ∀ table, table ∈ [step2Table, step3Table, step4Table] →
      ∀ row ∈ table, row ∈ step2Table ++ step3Table ++ step4Table := by
    intro table htable row hrow
    simp only [List.mem_cons, List.not_mem_nil, or_false] at htable
    rcases htable with rfl | rfl | rfl <;> simp [hrow]
  unfold stripSuffixes
  refine Ensures.bind (Q := fun w₁ => step1 str = .ok w₁) (fun _ h => h) (fun w₁ h₁ => ?_)
  suffices hlate : Ensures _ (LateRules w₁) from hlate.weaken (fun w hw => ⟨w₁, h₁, hw⟩)
  refine (guarded_rules (fun s => replaceSuffix_rules _ s (hrows _ (by simp))) .refl).bind
    (fun w₂ h₂ => ?_)
  refine (guarded_rules (fun s => replaceSuffix_rules _ s (hrows _ (by simp))) h₂).bind
    (fun w₃ h₃ => ?_)
  refine (guarded_rules (fun s => replaceSuffix_rules _ s (hrows _ (by simp))) h₃).bind
    (fun w₄ h₄ => ?_)
  exact guarded_rules step5_rules h₄

/-- The three parts of the first step. -/
theorem step1_ensures (str : Str) : Ensures (step1 str) (fun w => ∃ r₁ w₂,
    step1Plural str = .ok r₁ ∧ (w₂ = r₁.1 ∨ PastRule r₁.1 w₂) ∧ (w = w₂ ∨ YRule w₂ w)) := by
  unfold step1
  refine Ensures.bind (Q := fun r₁ => step1Plural str = .ok r₁) (fun _ h => h) (fun r₁ h₁ => ?_)
  obtain ⟨w₁, done⟩ := r₁
  dsimp only
  split
  · exact Ensures.pure ⟨(w₁, done), w₁, h₁, Or.inl rfl, Or.inl rfl⟩
  · refine (step1Past_rule w₁).bind (fun r₂ h₂ => ?_)
    obtain ⟨w₂, done'⟩ := r₂
    dsimp only
    split
    · exact Ensures.pure ⟨(w₁, done), w₂, h₁, h₂, Or.inl rfl⟩
    · exact (step1Y_rule w₂).weaken (fun w hw => ⟨(w₁, done), w₂, h₁, h₂, hw⟩)

/-- At most one replacement. -/
theorem rules_of {R : Str → Str → Prop} (hR : ∀ w w', R w w' → Rule w w') {w w' : Str}
    (h : w' = w ∨ R w w') : Rules w w' := by
  rcases h with rfl | hrule
  · exact .refl
  · exact .single (hR _ _ hrule)

/-- **The steps only apply rules.** -/
theorem stripSuffixes_rules (str : Str) : Ensures (stripSuffixes str) (Rules str) := by
  refine (stripSuffixes_ensures str).weaken (fun w hw => ?_)
  obtain ⟨w₃, h₃, hlate⟩ := hw
  obtain ⟨⟨w₁, done⟩, w₂, hplural, hpast, hy⟩ := step1_ensures str w₃ h₃
  have h₁ : Rules str w₁ := rules_of (fun _ _ => .plural) (step1Plural_rule str _ hplural)
  have h₂ : Rules w₁ w₂ := rules_of (fun _ _ => .past) hpast
  have h₃ : Rules w₂ w₃ := rules_of (fun _ _ => .y) hy
  exact ((h₁.trans h₂).trans h₃).trans
    (Relation.ReflTransGen.mono (fun _ _ h => Rule.late h) _ _ hlate)

/-! ## Shape -/

/-- A front of the word, at most four lower-case letters behind it, and not longer. -/
def CutFrom (word w : Str) : Prop :=
  ∃ u r, u <+: word ∧ w = u ++ r ∧ r.length ≤ 4 ∧ r.all Char.isLower = true ∧
    w.length ≤ word.length

theorem cutFrom_self (word : Str) : CutFrom word word :=
  ⟨word, [], List.prefix_rfl, (List.append_nil word).symm, by decide, rfl, Nat.le_refl _⟩

/-- What is put in the place of an ending. -/
def Fills (r suffix : Str) : Prop :=
  r.length ≤ suffix.length ∧ r.length ≤ 4 ∧ r.all Char.isLower = true

theorem fills_nil (suffix : Str) : Fills [] suffix := ⟨Nat.zero_le _, by decide, rfl⟩

theorem CutFrom.replace {word s suffix r : Str} (h : CutFrom word (s ++ suffix))
    (hr : Fills r suffix) : CutFrom word (s ++ r) := by
  obtain ⟨u, r₀, hu, happ, hfour, hlower, hlen⟩ := h
  obtain ⟨hle, hfour', hlower'⟩ := hr
  rw [List.length_append] at hlen
  have hlen' : (s ++ r).length ≤ word.length := by
    rw [List.length_append]
    omega
  -- the ending reaches into the front, or lies within the letters put in before
  rcases List.append_eq_append_iff.mp happ with ⟨a, rfl, -⟩ | ⟨a, rfl, rfl⟩
  · exact ⟨s, r, (List.prefix_append s a).trans hu, rfl, hfour', hlower', hlen'⟩
  · rw [List.all_append, Bool.and_eq_true] at hlower
    refine ⟨u, a ++ r, hu, List.append_assoc u a r, ?_, ?_, hlen'⟩
    · rw [List.length_append] at hfour ⊢
      omega
    · rw [List.all_append, hlower.1, hlower']
      rfl

/-- Every row of the tables shortens, or keeps the length. -/
theorem fills_row : ∀ row ∈ step2Table ++ step3Table ++ step4Table, Fills row.2 row.1 := by
  unfold Fills
  decide

theorem fills_past :
    ∀ suffix ∈ ["ed".toList, "ing".toList], ∀ r ∈ [[], ['e']], Fills r suffix := by
  unfold Fills
  decide

/-- **What a rule does to a word**, whatever it has tested. -/
theorem Rule.replaces {w w' : Str} (h : Rule w w') :
    ∃ s suffix r, w = s ++ suffix ∧ w' = s ++ r ∧ Fills r suffix := by
  cases h with
  | plural h =>
    cases h with
    | sses hs => exact ⟨_, _, _, rfl, rfl, by unfold Fills; decide⟩
    | ies hs => exact ⟨_, _, _, rfl, rfl, by unfold Fills; decide⟩
    | plural hs => exact ⟨w', ['s'], [], rfl, (List.append_nil w').symm, fills_nil _⟩
  | past h =>
    cases h with
    | eed hm => exact ⟨_, _, _, rfl, rfl, by unfold Fills; decide⟩
    | past hsuffix hv hr => exact ⟨_, _, _, rfl, rfl, fills_past _ hsuffix _ hr⟩
    | @double s suffix c hsuffix hv =>
      exact ⟨s ++ [c], [c] ++ suffix, [], by simp, (List.append_nil _).symm, fills_nil _⟩
  | y h =>
    cases h with
    | y hv => exact ⟨_, _, _, rfl, rfl, by unfold Fills; decide⟩
  | late h =>
    cases h with
    | row hrow hm => exact ⟨_, _, _, rfl, rfl, fills_row _ hrow⟩
    | finalE hm => exact ⟨w', ['e'], [], rfl, (List.append_nil w').symm, fills_nil _⟩
    | doubleL s => exact ⟨s ++ ['l'], ['l'], [], rfl, (List.append_nil _).symm, fills_nil _⟩

theorem CutFrom.rules {word w w' : Str} (h : CutFrom word w) (hrules : Rules w w') :
    CutFrom word w' := by
  induction hrules with
  | refl => exact h
  | tail _ hrule ih =>
    obtain ⟨s, suffix, r, rfl, rfl, hr⟩ := hrule.replaces
    exact ih.replace hr

/-- What becomes of the letters of a token. -/
def StemmedFrom (letters w : Str) : Prop :=
  ∃ p u r, (p = [] ∨ p ∈ prefixes) ∧ p ++ u <+: letters ∧ w = u ++ r ∧ r.length ≤ 4 ∧
    r.all Char.isLower = true ∧ p.length + w.length ≤ letters.length

theorem CutFrom.stemmedFrom {p rest w : Str} (hp : p = [] ∨ p ∈ prefixes) (h : CutFrom rest w) :
    StemmedFrom (p ++ rest) w := by
  obtain ⟨u, r, hu, rfl, hfour, hlower, hlen⟩ := h
  refine ⟨p, u, r, hp, List.prefix_append_right_inj p |>.mpr hu, rfl, hfour, hlower, ?_⟩
  have happ : (p ++ rest).length = p.length + rest.length := List.length_append
  omega

/-- **The shape of a stem.** -/
theorem stripAffixes_shape (E : Platform) (str : Str) :
    Ensures (stripAffixes E str) (StemmedFrom (lettersOf E str)) := by
  have hkeep : ∀ letters : Str, StemmedFrom letters letters := fun letters =>
    (cutFrom_self letters).stemmedFrom (p := []) (Or.inl rfl)
  unfold stripAffixes
  refine Ensures.bind (Q := fun w => w = lettersOf E str) (fun w hw => ?_) (fun w hw => ?_)
  · obtain ⟨-, -, hclean⟩ := except_bind_ok.mp hw
    cases hclean
    rfl
  · rw [← hw]
    dsimp only
    split
    · have hcut : ∀ v, CutFrom (stripPrefixes w) v → StemmedFrom w v := by
        intro v hv
        rcases stripPrefixes_cases w with ⟨p, hp, happ⟩ | hsame
        · have hstem := hv.stemmedFrom (Or.inr hp)
          rwa [← happ] at hstem
        · rw [hsame] at hv
          exact hv.stemmedFrom (p := []) (Or.inl rfl)
      split
      · refine (stripSuffixes_rules _).weaken (fun v hv => hcut v ?_)
        exact (cutFrom_self _).rules hv
      · exact Ensures.pure (hcut _ (cutFrom_self _))
    · exact Ensures.pure (hkeep w)

/-! ## Vowels of stems -/

theorem measure_snoc_e (s : Str) : measure (s ++ ['e']) = measure s := by
  rw [measure_eq_falls, measure_eq_falls, kinds_append]
  exact fallsFrom_snoc_true false (kinds s)

theorem LateRule.containsVowel_eq {w w' : Str} (h : LateRule w w') :
    containsVowel w' = containsVowel w := by
  have hfront : ∀ {s : Str} (t t' : Str), 0 < measure s →
      containsVowel (s ++ t') = containsVowel (s ++ t) := by
    intro s t t' hm
    have hv := containsVowel_of_measure hm
    rw [containsVowel_append_left hv, containsVowel_append_left hv]
  cases h with
  | row hrow hm => exact hfront _ _ hm
  | finalE hm =>
    rw [measure_snoc_e] at hm
    have heq := hfront ['e'] [] hm
    rwa [List.append_nil] at heq
  | doubleL s => rw [containsVowel_snoc (s ++ ['l']) (fun _ => rfl)]

theorem LateRules.containsVowel_eq {w w' : Str} (h : LateRules w w') :
    containsVowel w' = containsVowel w := by
  induction h with
  | refl => rfl
  | tail _ hrule ih => rw [hrule.containsVowel_eq, ih]

/-- No rule brings in the first vowel. -/
theorem Rule.containsVowel_of {w w' : Str} (h : Rule w w') (hv : containsVowel w' = true) :
    containsVowel w = true := by
  cases h with
  | plural h =>
    cases h with
    | sses hs => exact containsVowel_of_aeiou (c := 'e') rfl (by simp)
    | ies hs => exact containsVowel_of_aeiou (c := 'e') rfl (by simp)
    | plural hs => exact containsVowel_append_left hv _
  | past h =>
    cases h with
    | eed hm => exact containsVowel_of_aeiou (c := 'e') rfl (by simp)
    | past hsuffix hs hr => exact containsVowel_append_left hs _
    | double hsuffix hs => exact containsVowel_append_left hs _
  | y h =>
    cases h with
    | y hs => exact containsVowel_append_left hs _
  | late h => rwa [← h.containsVowel_eq]

theorem Rules.containsVowel_of {w w' : Str} (h : Rules w w') (hv : containsVowel w' = true) :
    containsVowel w = true := by
  induction h with
  | refl => exact hv
  | tail _ hrule ih => exact ih (hrule.containsVowel_of hv)

/-- Of two equal letters, the second is the first vowel of the word only in `yy`. -/
theorem containsVowel_doubled {s : Str} {c : Char} (h : containsVowel (s ++ [c] ++ [c]) = true) :
    containsVowel (s ++ [c]) = true ∨ (s = [] ∧ c = 'y') := by
  rw [containsVowel_iff, kinds_append, List.mem_append] at h
  rcases h with h | h
  · exact Or.inl ((containsVowel_iff _).mpr h)
  · have hvowel : vowel c c = true := by
      simpa [kindsFrom] using h
    by_cases hc : isAEIOU c = true
    · exact Or.inl (containsVowel_of_aeiou hc (by simp))
    · obtain rfl : c = 'y' := by
        by_contra hy
        rw [vowel, if_neg hc, if_neg (by simpa using hy)] at hvowel
        cases hvowel
      rcases List.eq_nil_or_concat' s with rfl | ⟨s', d, rfl⟩
      · exact Or.inr ⟨rfl, rfl⟩
      · -- behind a vowel there is one already, behind a consonant `y` is one itself
        refine Or.inl ?_
        by_cases hd : isAEIOU d = true
        · exact containsVowel_of_aeiou hd (by simp)
        · rw [containsVowel_iff, kinds_append, List.mem_append]
          refine Or.inr ?_
          simp [kindsFrom, vowel, hd]

theorem PluralRule.vowel_kept {w w' : Str} (h : PluralRule w w') (hv : containsVowel w = true) :
    containsVowel w' = true ∨
      ∃ p, p ≠ [] ∧ containsVowel p = false ∧ w = p ++ "sses".toList := by
  cases h with
  | @sses s hs =>
    cases hfront : containsVowel s with
    | true => exact Or.inl (containsVowel_append_left hfront _)
    | false => exact Or.inr ⟨s, hs, hfront, rfl⟩
  | ies hs => exact Or.inl (containsVowel_of_aeiou (c := 'i') rfl (by simp))
  | plural hs =>
    rw [containsVowel_snoc _ (fun _ => rfl)] at hv
    exact Or.inl hv

theorem PastRule.vowel_kept {w w' : Str} (h : PastRule w w') :
    containsVowel w' = true ∨ w ∈ ["yyed".toList, "yying".toList] := by
  cases h with
  | eed hm => exact Or.inl (containsVowel_of_aeiou (c := 'e') rfl (by simp))
  | past hsuffix hs hr => exact Or.inl (containsVowel_append_left hs _)
  | double hsuffix hs =>
    rcases containsVowel_doubled hs with hv | ⟨rfl, rfl⟩
    · exact Or.inl hv
    · simp only [List.mem_cons, List.not_mem_nil, or_false] at hsuffix
      rcases hsuffix with rfl | rfl <;> exact Or.inr (by decide)

/-- The words that lose their last vowel. -/
def Devowelled (str : Str) : Prop :=
  (∃ p, p ≠ [] ∧ containsVowel p = false ∧ str = p ++ "sses".toList) ∨
    str ∈ ["yyed".toList, "yying".toList, "yyeds".toList, "yyings".toList]

/-- The words whose plural part is `yyed` or `yying`. -/
theorem mem_of_plural {w w' : Str} (h : w' = w ∨ PluralRule w w')
    (hmem : w' ∈ ["yyed".toList, "yying".toList]) :
    w ∈ ["yyed".toList, "yying".toList, "yyeds".toList, "yyings".toList] := by
  have hcases : w' = "yyed".toList ∨ w' = "yying".toList := by simpa using hmem
  rcases h with rfl | hrule
  · rcases hcases with rfl | rfl <;> decide
  · cases hrule with
    | sses hs => rcases hcases with h | h <;> simpa using congrArg List.getLast? h
    | ies hs => rcases hcases with h | h <;> simpa using congrArg List.getLast? h
    | plural hs => rcases hcases with rfl | rfl <;> decide

/-- A suffix that is there is found. -/
theorem hasSuffix_append {s suffix : Str} (hs : s ≠ []) :
    hasSuffix (s ++ suffix) suffix = .ok (some s) := by
  have hpos : 0 < s.length := List.length_pos_iff.mpr hs
  have hlen : (s ++ suffix).length = s.length + suffix.length := List.length_append
  have hstem : (s ++ suffix).take ((s ++ suffix).length - suffix.length) = s := by
    rw [take_append_back s suffix (Nat.le_refl _), Nat.sub_self]
    exact List.append_nil s
  -- both ends have the same last character but one
  have hread : 1 < suffix.length → ∃ c, charAt suffix (suffix.length - 2) = .ok c ∧
      charAt (s ++ suffix) ((s ++ suffix).length - 2) = .ok c := by
    intro htwo
    have hindex : (((s ++ suffix).length : Int) - 2) = (s.length + (suffix.length - 2) : Nat) := by
      omega
    have hindex' : ((suffix.length : Int) - 2) = (suffix.length - 2 : Nat) := by
      omega
    have hlt : suffix.length - 2 < suffix.length := by omega
    refine ⟨suffix[suffix.length - 2], ?_, ?_⟩
    · rw [hindex', ByIndex.charAt_of_lt hlt]
    · rw [hindex, ByIndex.charAt_of_lt (by omega), List.getElem_append_right (by omega)]
      congr 2
      omega
  unfold hasSuffix
  rw [if_neg (by omega)]
  dsimp only
  split
  · rename_i htwo
    obtain ⟨c, hc, hc'⟩ := hread htwo
    rw [hc, hc', hstem]
    simp [except_ok_bind]
    rfl
  · rw [hstem]
    simp
    rfl

/-- **The first step on a word that loses its vowel.** -/
theorem step1_of_devowelled {str : Str} (h : Devowelled str) :
    Ensures (step1 str) (fun w => containsVowel w = false) := by
  rcases h with ⟨p, hp, hv, rfl⟩ | hmem
  · have hlast : charAt (p ++ "sses".toList) ((p ++ "sses".toList).length - 1) = .ok 's' := by
      have hindex : (((p ++ "sses".toList).length : Int) - 1) = (p.length + 3 : Nat) := by
        simp
        omega
      rw [hindex, ByIndex.charAt_of_lt (by simp), List.getElem_append_right (by omega)]
      simp
    have hplural : step1Plural (p ++ "sses".toList) = .ok (p ++ "ss".toList, false) := by
      unfold step1Plural
      rw [hlast, except_ok_bind, if_pos (by decide), hasAnySuffix, hasSuffix_append hp]
      rw [except_ok_bind]
      show Except.ok (_, false) = _
      rw [take_append_back p _ (by decide)]
      rfl
    have hno : containsVowel (p ++ "ss".toList) = false := by
      rw [show p ++ "ss".toList = p ++ ['s'] ++ ['s'] by simp, containsVowel_snoc _ (fun _ => rfl),
        containsVowel_snoc _ (fun _ => rfl), hv]
    refine (step1_ensures _).weaken (fun w hw => ?_)
    obtain ⟨r₁, w₂, hrun, hpast, hy⟩ := hw
    obtain rfl : (p ++ "ss".toList, false) = r₁ := Except.ok.inj (hplural.symm.trans hrun)
    have hrules : Rules (p ++ "ss".toList) w :=
      (rules_of (fun _ _ => .past) hpast).trans (rules_of (fun _ _ => .y) hy)
    by_contra hcon
    rw [hrules.containsVowel_of (by simpa using hcon)] at hno
    cases hno
  · have hall : ∀ str ∈ ["yyed".toList, "yying".toList, "yyeds".toList, "yyings".toList],
        step1 str = .ok ['y'] := by
      decide
    rw [hall str hmem]
    exact Ensures.pure (by decide)

/-- **The first step on any other word.** -/
theorem step1_of_not_devowelled {str : Str} (h : ¬Devowelled str)
    (hv : containsVowel str = true) : Ensures (step1 str) (fun w => containsVowel w = true) := by
  refine (step1_ensures str).weaken (fun w hw => ?_)
  obtain ⟨⟨w₁, done⟩, w₂, hrun, hpast, hy⟩ := hw
  have hplural := step1Plural_rule str _ hrun
  have h₁ : containsVowel w₁ = true := by
    rcases hplural with hsame | hrule
    · rw [show w₁ = str from hsame, hv]
    · exact (hrule.vowel_kept hv).resolve_right (fun hloses => h (Or.inl hloses))
  have h₂ : containsVowel w₂ = true := by
    rcases hpast with rfl | hrule
    · exact h₁
    · exact hrule.vowel_kept.resolve_right (fun hmem => h (Or.inr (mem_of_plural hplural hmem)))
  rcases hy with rfl | hrule
  · exact h₂
  · cases hrule with
    | y hs => exact containsVowel_append_left hs _

/-- **A stem has a vowel if its word has one, with few exceptions.**  The suffixes of every word
    that is not empty can be stripped, and what is left contains a vowel if and only if the word
    contains one and neither is some letters without a vowel before `sses`, nor `yyed`, `yying` or
    a plural of these. -/
theorem containsVowel_stem_iff (str : Str) (h : str ≠ []) :
    ∃ w, stripSuffixes str = .ok w ∧
      (containsVowel w = true ↔ containsVowel str = true ∧ ¬Devowelled str) := by
  obtain ⟨w, hrun, -⟩ := stripSuffixes_yields h
  obtain ⟨w₁, hstep, hlate⟩ := stripSuffixes_ensures str w hrun
  refine ⟨w, hrun, fun hv => ⟨?_, fun hloses => ?_⟩, fun ⟨hv, hkeeps⟩ => ?_⟩
  · exact (stripSuffixes_rules str w hrun).containsVowel_of hv
  · rw [hlate.containsVowel_eq, step1_of_devowelled hloses w₁ hstep] at hv
    cases hv
  · rw [hlate.containsVowel_eq]
    exact step1_of_not_devowelled hkeeps hv w₁ hstep

/-- Nothing but consonants is left of `tsses`. -/
theorem vowel_lost_tsses : ∃ w, stripSuffixes "tsses".toList = .ok w ∧ containsVowel w = false := by
  obtain ⟨w, hrun, hiff⟩ := containsVowel_stem_iff "tsses".toList (by decide)
  refine ⟨w, hrun, ?_⟩
  rw [← Bool.not_eq_true, hiff]
  exact fun hcon => hcon.2 (Or.inl ⟨['t'], by decide, by decide, rfl⟩)

end Porter

end SearchEngine
