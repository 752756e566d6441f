/-
  `StopWords.clean`: when it returns, and three things it was meant to do.

  A token that is not empty is always stemmed (`stripAffixes_yields`), so on such tokens `clean`
  is a filter followed by a map (`clean_eq`), and the only way to throw is to meet the empty
  token (`clean_returns_iff`): `Porter.Clean` builds a `Character` from `charAt(0)` before anyone
  asks whether the token is `""`.

  * A query or a title starts with the empty token when it is empty or opens with white space
    before a word (`Text.nil_mem_splitWs_iff`).
  * The filter looks at the token AS WRITTEN while the stemmer folds case, so a stop word with a
    capital letter is kept.
  * Nothing removes a word that stemming has emptied: it is numbered, counted and found like any
    other.
-/
import SearchEngine.Stemming
import SearchEngine.Batching
import Mathlib.Tactic.Common

namespace SearchEngine

open Text Numeral Effect

namespace StopWords

variable {E : Platform}

/-! ## What `clean` returns -/

theorem isStopWord_iff (E : Platform) (str : Str) :
    isStopWord E str = true ↔ str ∈ E.stopWords := by
  rw [isStopWord, List.contains_iff_mem]

/-- The stem of a token that is not empty. -/
def stemOf (E : Platform) (str : Str) : Str :=
  match stem E str with
  | .ok w => w
  | .error _ => []

theorem stem_eq (E : Platform) {str : Str} (h : str ≠ []) :
    stem E str = .ok (stemOf E str) ∧
      (stemOf E str = [] ↔ Porter.lettersOf E str ∈ Porter.emptied) := by
  obtain ⟨w, hw, hiff⟩ := Porter.stripAffixes_yields E h
  have hstem : stem E str = .ok w := hw
  have hof : stemOf E str = w := by rw [stemOf, hstem]
  rw [hof]
  exact ⟨hstem, hiff⟩

/-- **Without the empty token, `clean` filters and stems.** -/
theorem clean_eq : ∀ {v : List Str}, (∀ str ∈ v, str ≠ []) →
    clean E v = .ok ((v.filter (fun str => !isStopWord E str)).map (stemOf E))
  | [], _ => rfl
  | str :: rest, h => by
    have hrest := clean_eq (fun s hs => h s (List.mem_cons_of_mem str hs))
    cases hstop : isStopWord E str with
    | true =>
      rw [clean, if_pos hstop, hrest, List.filter_cons_of_neg (by simp [hstop])]
    | false =>
      rw [clean, if_neg (by simp [hstop]), hrest, (stem_eq E (h str List.mem_cons_self)).1,
        List.filter_cons_of_pos (by simp [hstop])]
      rfl

/-- The empty token cannot be stemmed. -/
theorem stem_nil (E : Platform) : stem E [] = .error .stringIndexOutOfBounds := by
  have hlower : E.toLowerCase [] = [] := E.toLowerCase_ascii [] (by simp)
  rw [stem, Porter.stripAffixes, hlower]
  rfl

/-- **When `clean` returns**: unless the empty token is there and kept. -/
theorem clean_returns_iff (E : Platform) :
    ∀ v : List Str, (∃ ws, clean E v = .ok ws) ↔ ([] ∈ v → isStopWord E [] = true)
  | [] => by simp [clean]
  | str :: rest => by
    have ih := clean_returns_iff E rest
    by_cases hstop : isStopWord E str = true
    · rw [clean, if_pos hstop, ih, List.mem_cons]
      constructor
      · rintro h (rfl | hmem)
        · exact hstop
        · exact h hmem
      · exact fun h hmem => h (Or.inr hmem)
    · rw [clean, if_neg hstop]
      by_cases hne : str = []
      · subst hne
        rw [stem_nil]
        constructor
        · rintro ⟨ws, hws⟩
          cases hws
        · exact fun h => absurd (h List.mem_cons_self) hstop
      · rw [(stem_eq E hne).1, except_ok_bind, List.mem_cons, or_iff_right (Ne.symm hne), ← ih]
        constructor
        · rintro ⟨ws, hws⟩
          cases hrest : clean E rest with
          | ok ws' => exact ⟨ws', rfl⟩
          | error e =>
            rw [hrest] at hws
            cases hws
        · rintro ⟨ws, hws⟩
          exact ⟨stemOf E str :: ws, by rw [hws]; rfl⟩

/-- The characters of a token are in ASCII, as a test that goes through the token. -/
def isAscii (t : Str) : Bool := t.all (fun c => decide (c.toNat < 128))

theorem isAscii_iff {t : Str} : isAscii t = true ↔ ∀ c ∈ t, c.toNat < 128 := by
  simp [isAscii]

/-- The lines of the stop list: none is empty, all are in ASCII and in lower case. -/
theorem stopwordsTxt_lines :
    ∀ w ∈ stopwordsTxt, w ≠ [] ∧ isAscii w = true ∧ w.map Char.toLower = w := by
  decide +kernel

theorem isStopWord_nil (h : E.stopWords = stopwordsTxt) : isStopWord E [] = false := by
  rw [← Bool.not_eq_true, isStopWord_iff, h]
  exact fun hmem => (stopwordsTxt_lines [] hmem).1 rfl

/-- The empty token ends the loop. -/
theorem clean_nil_cons (h : E.stopWords = stopwordsTxt) (rest : List Str) :
    clean E ([] :: rest) = .error .stringIndexOutOfBounds := by
  rw [clean, isStopWord_nil h, stem_nil]
  rfl

/-- **Exactly which queries and titles can be cleaned.**  With the stop list of `stopwords.txt`,
    `clean` of `s.split("\\s+")` returns if and only if `s` is not empty and does not open with
    white space — or is white space only, which splits into no token at all. -/
theorem clean_splitWs_iff (E : Platform) (h : E.stopWords = stopwordsTxt) (s : Str) :
    (∃ ws, clean E (splitWs s) = .ok ws) ↔
      s ≠ [] ∧ (startsWs s = false ∨ ∀ c ∈ s, isSpace c = true) := by
  rw [clean_returns_iff, isStopWord_nil h, nil_mem_splitWs_iff]
  cases hstarts : startsWs s <;> simp

theorem clean_splitWs_query :
    asciiPlatform.stopWords = stopwordsTxt ∧
      ∃ ws, clean asciiPlatform (splitWs "computer science ".toList) = .ok ws :=
  ⟨rfl, (clean_splitWs_iff asciiPlatform rfl "computer science ".toList).mpr (by decide)⟩

/-- The empty query throws, and so does one that opens with a blank. -/
theorem clean_throws_on_blank :
    clean asciiPlatform (splitWs "".toList) = .error .stringIndexOutOfBounds ∧
    clean asciiPlatform (splitWs " hkust".toList) = .error .stringIndexOutOfBounds ∧
    ¬ ∀ s : Str, ∃ ws, clean asciiPlatform (splitWs s) = .ok ws := by
  have hempty : clean asciiPlatform (splitWs "".toList) = .error .stringIndexOutOfBounds :=
    clean_nil_cons rfl []
  have hblank : splitWs " hkust".toList = [[], "hkust".toList] := by decide
  refine ⟨hempty, by rw [hblank, clean_nil_cons rfl], fun hall => ?_⟩
  obtain ⟨ws, hws⟩ := hall "".toList
  rw [hempty] at hws
  cases hws

/-! ## Letter case -/

/-- Folding case twice is folding it once, and stays within ASCII. -/
theorem toLower_ascii {c : Char} (h : c.toNat < 128) :
    c.toLower.toNat < 128 ∧ c.toLower.toLower = c.toLower := by
  have htable : ∀ n : Fin 128, (Char.ofNat n).toLower.toNat < 128 ∧
      (Char.ofNat n).toLower.toLower = (Char.ofNat n).toLower := by
    decide
  have hc := htable ⟨c.toNat, h⟩
  rwa [Char.ofNat_toNat] at hc

theorem toLowerCase_toLowerCase {t : Str} (h : ∀ c ∈ t, c.toNat < 128) :
    E.toLowerCase (E.toLowerCase t) = E.toLowerCase t := by
  have hlower : E.toLowerCase t = t.map Char.toLower := E.toLowerCase_ascii t h
  have hascii : ∀ c ∈ t.map Char.toLower, c.toNat < 128 := by
    intro c hc
    obtain ⟨d, hd, rfl⟩ := List.mem_map.mp hc
    exact (toLower_ascii (h d hd)).1
  rw [hlower, E.toLowerCase_ascii _ hascii, List.map_map]
  exact List.map_congr_left (fun c hc => (toLower_ascii (h c hc)).2)

/-- The stemmer does not see the case of an ASCII token. -/
theorem stemOf_toLowerCase {t : Str} (h : ∀ c ∈ t, c.toNat < 128) :
    stemOf E (E.toLowerCase t) = stemOf E t := by
  unfold stemOf stem Porter.stripAffixes
  rw [toLowerCase_toLowerCase h]

/-- The stop list is in lower case. -/
theorem toLowerCase_stopWord (h : E.stopWords = stopwordsTxt) {t : Str}
    (ht : isStopWord E t = true) : E.toLowerCase t = t := by
  rw [isStopWord_iff, h] at ht
  obtain ⟨-, hascii, hsame⟩ := stopwordsTxt_lines t ht
  rw [E.toLowerCase_ascii t (isAscii_iff.mp hascii), hsame]

/-- The tokens that are kept: as many, in both spellings, unless a stop word is hidden by its
    capital letters. -/
theorem filter_toLowerCase {v : List Str}
    (h : ∀ t ∈ v, isStopWord E (E.toLowerCase t) = isStopWord E t) :
    (v.map E.toLowerCase).filter (fun t => !isStopWord E t)
      = (v.filter (fun t => !isStopWord E t)).map E.toLowerCase := by
  rw [List.filter_map]
  congr 1
  refine List.filter_congr (fun t ht => ?_)
  show (!isStopWord E (E.toLowerCase t)) = !isStopWord E t
  rw [h t ht]

/-- Where lower case uncovers a stop word, fewer tokens are kept. -/
theorem countP_toLowerCase_lt {v : List Str} {t : Str} (ht : t ∈ v)
    (hkeep : ∀ t ∈ v, isStopWord E t = true → isStopWord E (E.toLowerCase t) = true)
    (hlower : isStopWord E (E.toLowerCase t) = true) (hstop : isStopWord E t = false) :
    v.countP (fun t => !isStopWord E (E.toLowerCase t)) < v.countP (fun t => !isStopWord E t) := by
  have hle : ∀ u : List Str, u ⊆ v → u.countP (fun t => !isStopWord E (E.toLowerCase t))
      ≤ u.countP (fun t => !isStopWord E t) := by
    intro u hu
    refine List.countP_mono_left (fun t' ht' hkept => ?_)
    cases hstop' : isStopWord E t' with
    | false => rfl
    | true =>
      rw [hkeep t' (hu ht') hstop'] at hkept
      exact hkept
  obtain ⟨front, back, rfl⟩ := List.append_of_mem ht
  have hfront := hle front (List.subset_append_left front (t :: back))
  have hback := hle back (fun t' ht' => List.mem_append_right front (List.mem_cons_of_mem t ht'))
  rw [List.countP_append, List.countP_append, List.countP_cons_of_neg (by simp [hlower]),
    List.countP_cons_of_pos (by simp [hstop])]
  omega

/-- **Exactly when stop-word removal ignores case.**  For tokens that are not empty and in ASCII,
    and the stop list of `stopwords.txt`: cleaning the tokens and cleaning them in lower case give
    the same words if and only if no token is a stop word in lower case only. -/
theorem clean_toLowerCase_iff (E : Platform) (h : E.stopWords = stopwordsTxt) (v : List Str)
    (hne : ∀ t ∈ v, t ≠ []) (hascii : ∀ t ∈ v, ∀ c ∈ t, c.toNat < 128) :
    clean E v = clean E (v.map E.toLowerCase) ↔
      ∀ t ∈ v, isStopWord E (E.toLowerCase t) = true → isStopWord E t = true := by
  have hkeep : ∀ t ∈ v, isStopWord E t = true → isStopWord E (E.toLowerCase t) = true := by
    intro t _ hstop
    rw [toLowerCase_stopWord h hstop]
    exact hstop
  have hne' : ∀ t ∈ v.map E.toLowerCase, t ≠ [] := by
    intro t ht
    obtain ⟨t', ht', rfl⟩ := List.mem_map.mp ht
    exact E.toLowerCase_ne_nil t' (hne t' ht')
  rw [clean_eq hne, clean_eq hne', Except.ok.injEq]
  constructor
  · intro heq t ht hlower
    by_contra hstop
    -- the two results differ in length already
    have hlen := congrArg List.length heq
    rw [List.length_map, List.length_map, List.filter_map, List.length_map,
      ← List.countP_eq_length_filter, ← List.countP_eq_length_filter] at hlen
    have hlt := countP_toLowerCase_lt ht hkeep hlower (by simpa using hstop)
    exact absurd hlen (Nat.ne_of_gt hlt)
  · intro hall
    have hsame : ∀ t ∈ v, isStopWord E (E.toLowerCase t) = isStopWord E t := by
      intro t ht
      rw [Bool.eq_iff_iff]
      exact ⟨hall t ht, hkeep t ht⟩
    rw [filter_toLowerCase hsame, List.map_map]
    refine List.map_congr_left (fun t ht => ?_)
    exact (stemOf_toLowerCase (hascii t (List.mem_filter.mp ht).1)).symm

/-- A page with a lone dash in its text. -/
def dashPage : Crawler :=
  Crawler.page "https://www.cse.ust.hk/".toList "News".toList "2020-05-08".toList "120".toList
    ["-".toList] []

/-- The tokens of the examples, cleaned.  Every evaluation reads the whole stop list, so they are
    made together. -/
theorem cleaned_examples :
    (∀ t ∈ ["HKUST".toList, "the".toList, "News".toList],
      isStopWord asciiPlatform (asciiPlatform.toLowerCase t) = true →
        isStopWord asciiPlatform t = true) ∧
    clean asciiPlatform ["The".toList, "news".toList] = .ok ["the".toList, "new".toList] ∧
    clean asciiPlatform (["The".toList, "news".toList].map asciiPlatform.toLowerCase)
      = .ok ["new".toList] ∧
    clean asciiPlatform ["-".toList, "Kilo".toList, "micros".toList, "news".toList]
      = .ok [[], [], [], "new".toList] ∧
    ((finalState (WordIndexer.addEntryCrawler asciiPlatform dashPage
      ⟨Stores.empty, []⟩)).stores .word)[([] : Str)]? = some "2".toList ∧
    ∀ t ∈ ["HKUST".toList, "the".toList, "kilometer".toList],
      Porter.lettersOf asciiPlatform t ∉ Porter.emptied := by
  decide +kernel

/-- Letter case in words that are not stop words does no harm. -/
theorem clean_toLowerCase_news :
    clean asciiPlatform ["HKUST".toList, "the".toList, "News".toList]
      = clean asciiPlatform (["HKUST".toList, "the".toList, "News".toList].map
          asciiPlatform.toLowerCase) := by
  have hascii : ∀ t ∈ ["HKUST".toList, "the".toList, "News".toList], isAscii t = true := by decide
  exact (clean_toLowerCase_iff asciiPlatform rfl _ (by decide)
    (fun t ht => isAscii_iff.mp (hascii t ht))).mpr cleaned_examples.1

/-- `The` is kept, `the` is not. -/
theorem clean_keeps_capital_stop_word :
    clean asciiPlatform ["The".toList, "news".toList] = .ok ["the".toList, "new".toList] ∧
    clean asciiPlatform (["The".toList, "news".toList].map asciiPlatform.toLowerCase)
      = .ok ["new".toList] ∧
    ¬ ∀ v : List Str, (∀ t ∈ v, t ≠ []) → (∀ t ∈ v, ∀ c ∈ t, c.toNat < 128) →
      clean asciiPlatform v = clean asciiPlatform (v.map asciiPlatform.toLowerCase) := by
  obtain ⟨-, hraw, hlower, -⟩ := cleaned_examples
  refine ⟨hraw, hlower, fun hall => ?_⟩
  have hascii : ∀ t ∈ ["The".toList, "news".toList], isAscii t = true := by decide
  have heq := hall ["The".toList, "news".toList] (by decide)
    (fun t ht => isAscii_iff.mp (hascii t ht))
  rw [hraw, hlower] at heq
  exact absurd heq (by decide)

/-! ## Words that stemming empties -/

/-- The empty word among the results: a token that is kept and of which nothing is left. -/
theorem nil_mem_clean_iff {v ws : List Str} (hne : ∀ t ∈ v, t ≠ []) (h : clean E v = .ok ws) :
    [] ∈ ws ↔ ∃ t ∈ v, isStopWord E t = false ∧ Porter.lettersOf E t ∈ Porter.emptied := by
  rw [clean_eq hne, Except.ok.injEq] at h
  rw [← h, List.mem_map]
  constructor
  · rintro ⟨t, ht, hnil⟩
    obtain ⟨hmem, hkept⟩ := List.mem_filter.mp ht
    exact ⟨t, hmem, by simpa using hkept, (stem_eq E (hne t hmem)).2.mp hnil⟩
  · rintro ⟨t, hmem, hkept, hletters⟩
    exact ⟨t, List.mem_filter.mpr ⟨hmem, by simpa using hkept⟩,
      (stem_eq E (hne t hmem)).2.mpr hletters⟩

/-- **Exactly when cleaning produces no empty word.**  For every vector of tokens that are not
    empty, `clean` returns words none of which is empty if and only if no token that is kept has,
    in lower case, no letter or digit at all, or just those of one of the nine prefixes or of one
    with an `s` behind it.  And the indexers number the words they are given: from a `word` store
    without the empty word, it gets no ID under exactly the same condition. -/
theorem clean_no_empty_word_iff (E : Platform) (v : List Str) (hne : ∀ t ∈ v, t ≠ []) :
    ((∃ ws, clean E v = .ok ws ∧ ∀ w ∈ ws, w ≠ []) ↔
      ∀ t ∈ v, isStopWord E t = false → Porter.lettersOf E t ∉ Porter.emptied) ∧
    ∃ ws, clean E v = .ok ws ∧
      ∀ x x', (x.stores .word)[([] : Str)]? = none →
        ws.foldlM (fun _ w => WordIndexer.addEntry w) () x = .ok () x' →
        ((x'.stores .word)[([] : Str)]? = none ↔
          ∀ t ∈ v, isStopWord E t = false → Porter.lettersOf E t ∉ Porter.emptied) := by
  have hrun := clean_eq (E := E) hne
  have hiff := nil_mem_clean_iff hne hrun
  have hcond : [] ∉ (v.filter (fun str => !isStopWord E str)).map (stemOf E) ↔
      ∀ t ∈ v, isStopWord E t = false → Porter.lettersOf E t ∉ Porter.emptied := by
    rw [hiff]
    simp
  constructor
  · rw [← hcond]
    constructor
    · rintro ⟨ws, hws, hfull⟩ hmem
      obtain rfl := Except.ok.inj (hrun.symm.trans hws)
      exact hfull [] hmem rfl
    · intro hmem
      refine ⟨_, hrun, ?_⟩
      rintro w hw rfl
      exact hmem hw
  · refine ⟨_, hrun, fun x x' hnone hloop => ?_⟩
    rw [← hcond]
    have hkey := foldlM_addID_key (t := .word) (k := []) hloop
    exact ⟨fun h => (hkey.mp h).2, fun h => hkey.mpr ⟨hnone, h⟩⟩

theorem clean_no_empty_word_news :
    ∃ ws, clean asciiPlatform ["HKUST".toList, "the".toList, "kilometer".toList] = .ok ws ∧
      ∀ w ∈ ws, w ≠ [] := by
  obtain ⟨-, -, -, -, -, hletters⟩ := cleaned_examples
  exact (clean_no_empty_word_iff asciiPlatform _ (by decide)).1.mpr
    (fun t ht _ => hletters t ht)

/-- A lone dash, a prefix, a prefix in the plural: nothing is left of any of them, and the empty
    word gets an ID like any other. -/
theorem clean_yields_empty_word :
    clean asciiPlatform ["-".toList, "Kilo".toList, "micros".toList, "news".toList]
      = .ok [[], [], [], "new".toList] ∧
    ((finalState (WordIndexer.addEntryCrawler asciiPlatform dashPage
      ⟨Stores.empty, []⟩)).stores .word)[([] : Str)]? = some "2".toList ∧
    ¬ ∀ v : List Str, (∀ t ∈ v, t ≠ []) →
      ∃ ws, clean asciiPlatform v = .ok ws ∧ ∀ w ∈ ws, w ≠ [] := by
  obtain ⟨-, -, -, hclean, hword, -⟩ := cleaned_examples
  refine ⟨hclean, hword, fun hall => ?_⟩
  obtain ⟨ws, hws, hfull⟩ :=
    hall ["-".toList, "Kilo".toList, "micros".toList, "news".toList] (by decide)
  obtain rfl := Except.ok.inj (hclean.symm.trans hws)
  exact hfull [] List.mem_cons_self rfl

end StopWords

end SearchEngine
