/-
  `freq_sq`: the norm of a page, from the counting loop to the division.

  `ForwardIndexer` adds up the squared frequencies of the CONTENT words in an `int`, writes the
  sum into the record behind five other fields, and `CosSim.getPages` reads it back from there to
  divide by its root.  Three things lie between the sum and the denominator:

  1. the accumulation wraps at 32 bits (`wordCount_eq`), so the sum survives if it fits;
  2. the sum of a page without content words is `0`, and such a page is still scored if its TITLE
     matches;
  3. the field is found by counting separators, and a separator in the date, the size or a link
     moves it (`fieldsOn_middle`, `record_readable_iff`).

  `denominator_exact_iff` puts the three together.  `cosine_bound` is what the sum is good for: set
  against the content part of the numerator, it bounds it (`Counting.sq_sum_count_le`).
-/
import SearchEngine.ForwardInverted
import SearchEngine.Lib.Counting
import Mathlib.Analysis.Real.Sqrt
import Mathlib.Tactic.Common

namespace SearchEngine

open Text Numeral Effect Postings InvertedIndexer NumberedMap ForwardIndexer Counting Records

/-! ## The sum -/

/-- The sum of the squared frequencies, without wrapping. -/
def sumOf (entries : List (Str × Nat)) : Nat := (entries.map (fun e => e.2 ^ 2)).sum

/-- **`word_count` is the sum, wrapped.** -/
theorem wordCount_eq (entries : List (Str × Nat)) :
    wordCount entries = wrap32 (sumOf entries) := by
  induction entries using List.reverseRecOn with
  | nil => decide
  | append_singleton es e ih =>
    have hstep : wordCount (es ++ [e])
        = wrap32 (wordCount es + wrap32 ((e.2 : Int) * e.2)) := by
      rw [wordCount, List.foldl_append]
      rfl
    have hsum : sumOf (es ++ [e]) = sumOf es + e.2 ^ 2 := by
      rw [sumOf, List.map_append, List.sum_append]
      rfl
    rw [hstep, ih, wrap32_add, hsum, Nat.cast_add, Nat.cast_pow, sq]

/-- The entries of a page count the IDs of its words, and IDs name words one to one. -/
theorem sumOf_entriesOf {E : Platform} {s : Stores} {cleaned : List Str} (hs : TableOk .word s)
    (hissued : ∀ w ∈ cleaned, ∃ k : Str, (s .word)[w]? = some k) :
    sumOf (entriesOf E s cleaned) = sumSquares cleaned := by
  have hcounts := counts_entriesOf E s cleaned
  rw [sumOf, sumSquares_table hcounts.keys hcounts.freq hcounts.all]
  refine sumSquares_map (fun w hw w' hw' heq => ?_)
  obtain ⟨k, hk⟩ := hissued w hw
  obtain ⟨k', hk'⟩ := hissued w' hw'
  rw [wordIDOf, wordIDOf, hk, hk'] at heq
  obtain rfl : k = k' := heq
  exact hs.1.injective hk hk'

/-! ## The field -/

/-- What a record has between its title and `word_count`. -/
def middle (date size pairs : Str) (links : List Str) : Str :=
  date ++ (sep ++ (size ++ (sep ++ (pairs ++ (sep ++ (linksText links ++ sep))))))

/-- What is left of a separator that a field ended in the middle of, or nothing. -/
def IsLeftover (t : Str) : Prop := t = [] ∨ t = ";;; ".toList

/-- A text without semicolons, with a left-over in front, is one field. -/
theorem fieldsOn_leftover {t x : Str} (ht : IsLeftover t) (hx : ';' ∉ x) (y : Str) :
    fieldsOn sep 0 ((t ++ x) ++ (sep ++ y)) = (t ++ x) :: fieldsOn sep 0 y := by
  refine fieldsOn_sep_field ?_ y
  rcases ht with rfl | rfl
  · exact clear_of_no_semicolon hx
  · intro hin
    -- a separator opens with a blank, and behind the first blank there is no semicolon
    have hblank : sep <:+: ' ' :: (x ++ [' ']) := by
      simpa [List.infix_cons_iff, sep] using hin
    have hmem : ';' ∈ ' ' :: (x ++ [' ']) := hblank.subset (by decide)
    simp [hx] at hmem

/-- Any text in front of a separator: at least one piece, and a left-over. -/
theorem exists_pieces (x : Str) : ∃ (A : List Str) (t : Str), 1 ≤ A.length ∧ IsLeftover t ∧
    ∀ y, fieldsOn sep 0 (x ++ (sep ++ y)) = A ++ fieldsOn sep 0 (t ++ y) := by
  obtain ⟨A, t, h⟩ := exists_joins blank_not_mem x
  refine ⟨A, t, ?_, h.rest.imp And.left And.left, h.join⟩
  rw [h.pieces]
  exact List.length_pos_iff.mpr (fieldsOn_ne_nil _ _ 0)

/-- **The pieces of the middle**: two or more of date and size, the pairs, one or more of the links,
    and a left-over. -/
theorem fieldsOn_middle (date size : Str) (links : List Str) :
    ∃ (A B : List Str) (t₂ t : Str), 2 ≤ A.length ∧ 1 ≤ B.length ∧ IsLeftover t₂ ∧ IsLeftover t ∧
      ∀ pairs, ';' ∉ pairs → ∀ y, fieldsOn sep 0 (middle date size pairs links ++ y)
        = A ++ ((t₂ ++ pairs) :: (B ++ fieldsOn sep 0 (t ++ y))) := by
  -- field by field, each with the left-over of the one before in front
  obtain ⟨A₁, t₁, hA₁, -, hj₁⟩ := exists_pieces date
  obtain ⟨A₂, t₂, hA₂, ht₂, hj₂⟩ := exists_pieces (t₁ ++ size)
  obtain ⟨B, t, hB, ht, hj⟩ := exists_pieces (linksText links)
  refine ⟨A₁ ++ A₂, B, t₂, t, ?_, hB, ht₂, ht, fun pairs hpairs y => ?_⟩
  · rw [List.length_append]
    omega
  · have hassoc : middle date size pairs links ++ y = date ++ (sep ++ (size ++ (sep ++ (pairs ++
        (sep ++ (linksText links ++ (sep ++ y))))))) := by
      simp [middle]
    rw [hassoc, hj₁, ← List.append_assoc t₁, hj₂, ← List.append_assoc t₂,
      fieldsOn_leftover ht₂ hpairs, hj]
    simp only [List.append_assoc]

theorem fieldsOn_of_leftover {t : Str} (ht : IsLeftover t) : fieldsOn sep 0 t = [t] := by
  rcases ht with rfl | rfl
  · rfl
  · rfl

/-- A text with a character that no number has. -/
theorem parseInt_of_mem {c : Char} {x : Str} (hc : c ∈ x) (hdigit : c.isDigit = false)
    (hminus : c ≠ '-') (hplus : c ≠ '+') : parseInt x = none := by
  have hnat : ∀ y : Str, c ∈ y → parseNat y = none := by
    intro y hy
    refine if_neg (fun h => ?_)
    exact absurd (List.all_eq_true.mp h.2 c hy) (by simp [hdigit])
  unfold parseInt
  split
  · rename_i y
    rw [hnat y ((List.mem_cons.mp hc).resolve_left hminus)]
    rfl
  · rename_i y
    rw [hnat y ((List.mem_cons.mp hc).resolve_left hplus)]
    rfl
  · rw [hnat x hc]
    rfl

theorem parseInt_leftover {t : Str} (ht : IsLeftover t) : parseInt t = none := by
  rcases ht with rfl | rfl
  · rfl
  · rfl

/-- A sum is read back when nothing stands in front of it and it fits an `int`. -/
theorem parseInt_leftover_sum_iff {t : Str} (ht : IsLeftover t) (sum : Nat) :
    parseInt (t ++ intToString (wrap32 sum)) = some (sum : Int) ↔ t = [] ∧ sum < 2 ^ 31 := by
  rcases ht with rfl | rfl
  · rw [List.nil_append, parseInt_intToString_wrap32, Option.some.injEq, wrap32_natCast_iff]
    exact ⟨fun hfits => ⟨rfl, hfits⟩, fun hfits => hfits.2⟩
  · rw [parseInt_of_mem (List.mem_append_left _ (by decide : ';' ∈ _)) (by decide) (by decide)
      (by decide)]
    simp

/-- What `getPages` parses is field 5, if it is a number. -/
theorem freqSq_ok_iff {forwardIndex : RocksDB} {p v : Str} (hv : forwardIndex[p]? = some v)
    (n : Int) :
    CosSim.freqSq forwardIndex p = .ok n ↔
      ∃ x, (fieldsOn sep 0 v)[5]? = some x ∧ parseInt x = some n := by
  have hread : CosSim.freqSq forwardIndex p = .ok n ↔
      ∃ x, (splitOn sep v)[5]? = some x ∧ parseInt x = some n := by
    rw [CosSim.freqSq, hv]
    show (vectorGet (splitOn sep v) 5 >>= _) = _ ↔ _
    rw [except_bind_ok]
    refine exists_congr (fun x => and_congr vectorGet_ok ?_)
    cases parseInt x <;> simp
  rw [hread]
  constructor
  · rintro ⟨x, hx, hparse⟩
    exact ⟨x, getElem?_of_trimPieces hx, hparse⟩
  · rintro ⟨x, hx, hparse⟩
    refine ⟨x, ?_, hparse⟩
    -- a number is not an empty piece, so it is not trimmed
    have hne : x ≠ [] := by
      rintro rfl
      cases hparse
    have hlt := (List.getElem?_eq_some_iff.mp hx).1
    exact getElem?_trimPieces (by omega) hne hx

/-- **When the sum of a page is read back**: it fits an `int` and no separator moves its field; or
    separators do, and what they move into its place happens to spell it. -/
def SumReadable (date size : Str) (links : List Str) (sum : Nat) : Prop :=
  let fields := fieldsOn sep 0 (middle date size [] links)
  if fields.length = 5 then fields[4]? = some [] ∧ sum < 2 ^ 31
  else ∃ x, fields[4]? = some x ∧ parseInt x = some (sum : Int)

/-- **Field 5 of a record**, read as a number. -/
theorem record_readable_iff {title date size pairs : Str} {links : List Str}
    (htitle : ¬ sep <:+: title ++ [' ']) (hsemi : ';' ∉ pairs) (hblank : ' ' ∈ pairs) (sum : Nat)
    (raw : Str) :
    (∃ x, (fieldsOn sep 0 (record title date size pairs (linksText links) (wrap32 sum) raw))[5]?
        = some x ∧ parseInt x = some (sum : Int)) ↔ SumReadable date size links sum := by
  have hrecord : record title date size pairs (linksText links) (wrap32 sum) raw = title ++ (sep ++
      (middle date size pairs links ++ (intToString (wrap32 sum) ++ (sep ++ raw)))) := by
    simp [record, middle]
  obtain ⟨A, B, t₂, t, hA, hB, ht₂, ht, hjoin⟩ := fieldsOn_middle date size links
  have hmiddle : fieldsOn sep 0 (middle date size [] links) = A ++ (t₂ :: (B ++ [t])) := by
    have hend := hjoin [] (by simp) []
    rw [List.append_nil, List.append_nil, List.append_nil, fieldsOn_of_leftover ht] at hend
    exact hend
  unfold SumReadable
  dsimp only
  rw [hrecord, fieldsOn_sep_field htitle, List.getElem?_cons_succ, hjoin pairs hsemi, hmiddle,
    ← List.append_assoc t, fieldsOn_leftover ht (intToString_clear _)]
  have hlen : (A ++ (t₂ :: (B ++ [t]))).length = A.length + B.length + 2 := by
    simp
    omega
  rw [hlen]
  by_cases hfront : 4 < A.length
  · -- a piece of date and size, in both
    rw [if_neg (by omega), List.getElem?_append_left hfront, List.getElem?_append_left hfront]
  · rw [List.getElem?_append_right (by omega), List.getElem?_append_right (by omega)]
    by_cases hfour : A.length = 4
    · -- the pairs, which are no number
      have hpairs : parseInt (t₂ ++ pairs) = none :=
        parseInt_of_mem (List.mem_append_right t₂ hblank) (by decide) (by decide) (by decide)
      rw [if_neg (by omega), hfour]
      simp [hpairs, parseInt_leftover ht₂]
    · rw [show 4 - A.length = (3 - A.length) + 1 by omega, List.getElem?_cons_succ,
        List.getElem?_cons_succ]
      by_cases hlinks : 3 - A.length < B.length
      · -- a piece of the links, in both
        rw [if_neg (by omega), List.getElem?_append_left hlinks, List.getElem?_append_left hlinks]
      · -- the sum itself
        rw [if_pos (by omega), List.getElem?_append_right (by omega),
          List.getElem?_append_right (by omega), show 3 - A.length - B.length = 0 by omega]
        simp only [List.getElem?_cons_zero, Option.some.injEq, exists_eq_left',
          parseInt_leftover_sum_iff ht]

/-! ## The denominators of a query -/

theorem clear_of_free {title : Str} (h : ¬ ";;;".toList <:+: title) :
    ¬ sep <:+: title ++ [' '] := by
  rintro ⟨pre, post, heq⟩
  apply h
  rcases List.eq_nil_or_concat post with rfl | ⟨post', c, rfl⟩
  · have hcut : (pre ++ " ;;;".toList) ++ [' '] = title ++ [' '] := by
      rw [← heq]
      simp [sep]
    rw [← (List.append_inj' hcut rfl).1]
    exact ⟨pre ++ [' '], [], by simp⟩
  · rw [List.concat_eq_append, ← List.append_assoc] at heq
    rw [← (List.append_inj' heq rfl).1]
    exact ⟨pre ++ [' '], ' ' :: post', by simp [sep]⟩

/-- A page with content words has pairs. -/
theorem blank_mem_pairsText {E : Platform} {s : Stores} {cleaned : List Str} (h : cleaned ≠ []) :
    ' ' ∈ pairsText (entriesOf E s cleaned) := by
  have hcounts := counts_entriesOf E s cleaned
  obtain ⟨w, hw⟩ := List.exists_mem_of_ne_nil cleaned h
  obtain ⟨e, he, -⟩ := List.mem_map.mp (hcounts.all _ (List.mem_map_of_mem hw))
  exact List.mem_flatMap.mpr ⟨e, he, by simp⟩

/-- A record of the forward run, and the sum that is read from it. -/
theorem freqSq_recorded_iff {E : Platform} {s : Stores} {p title date size : Str}
    {content links cleaned : List Str} (hs : TableOk .word s)
    (hissued : ∀ w ∈ cleaned, ∃ k : Str, (s .word)[w]? = some k)
    (htitle : ¬ sep <:+: title ++ [' '])
    (hrec : (s .forwardIndex)[p]? = some (recordOf E s title date size content links cleaned)) :
    (∃ freq, CosSim.freqSq (s .forwardIndex) p = .ok freq ∧ freq = sumSquares cleaned ∧
        0 < freq) ↔
      cleaned ≠ [] ∧ SumReadable date size links (sumSquares cleaned) := by
  have hkeys : ∀ e ∈ entriesOf E s cleaned, IsDigits e.1 :=
    fun e he => isDigits_of_mem_entries hs hissued he
  have hwc : wordCount (entriesOf E s cleaned) = wrap32 (sumSquares cleaned) := by
    rw [wordCount_eq, sumOf_entriesOf hs hissued]
  have hread : cleaned ≠ [] →
      (CosSim.freqSq (s .forwardIndex) p = .ok (sumSquares cleaned : Int) ↔
        SumReadable date size links (sumSquares cleaned)) := by
    intro hne
    rw [freqSq_ok_iff hrec, recordOf, hwc]
    exact record_readable_iff htitle (pairsText_clear hkeys) (blank_mem_pairsText hne) _ _
  constructor
  · rintro ⟨freq, hfreq, rfl, hpos⟩
    have hne : cleaned ≠ [] := sumSquares_pos_iff.mp (by exact_mod_cast hpos)
    exact ⟨hne, (hread hne).mp hfreq⟩
  · rintro ⟨hne, hsum⟩
    refine ⟨_, (hread hne).mpr hsum, rfl, ?_⟩
    exact_mod_cast sumSquares_pos_iff.mpr hne

/-- **Exactly when the denominator of a score is exact and positive.**  Index any pages with
    distinct URLs and with titles free of `;;;` on empty stores, once by each indexer.  Whatever
    the keys of a query: every page the numerators have an entry for is a page of the batch, and
    the `freq_sq` that is read for it is the sum of the squared frequencies of its content words,
    and positive, if and only if the page has a content word left after cleaning and its sum is
    readable. -/
theorem denominator_exact_iff (E : Platform) (crawlers : List Crawler)
    (hurls : (crawlers.map Crawler.url).Nodup) (ff fi : List Bool) (run : List Attempt)
    (horder : run = [⟨.forwardIndexPages crawlers, ff⟩, ⟨.invertedIndexPages crawlers, fi⟩] ∨
      run = [⟨.invertedIndexPages crawlers, fi⟩, ⟨.forwardIndexPages crawlers, ff⟩])
    (hret : NoneAborted E run Stores.empty)
    (htitles : ∀ c ∈ crawlers, ∀ title, c.extractTitle = some title → ¬ ";;;".toList <:+: title) :
    let s := runAll E run Stores.empty
    ∀ (q : List Str) (u : CosSim.Numerators) (d : Str) (n : Int),
      CosSim.accumulate (s .titleInverted) (s .contentInverted) q = .ok u → u[d]? = some n →
      ∃ c ∈ crawlers, ∃ (title date size : Str) (content links cleaned : List Str),
        c = Crawler.page c.url title date size content links ∧
        (s .document)[c.url]? = some d ∧ StopWords.clean E content = .ok cleaned ∧
        ((∃ freq, CosSim.freqSq (s .forwardIndex) d = .ok freq ∧ freq = sumSquares cleaned ∧
            0 < freq) ↔
          cleaned ≠ [] ∧ SumReadable date size links (sumSquares cleaned)) := by
  intro s q u d n hacc hn
  obtain ⟨hb, hf⟩ : Built E crawlers s ∧ Forwarded E crawlers s :=
    built_and_forwarded hurls horder hret
  obtain ⟨k, -, htouch⟩ :=
    (accumulate_some_iff (hb.ok.spelled .title) (hb.ok.spelled .content) hacc d).mp ⟨n, hn⟩
  obtain ⟨c, hc, hd, -⟩ := hb.touches_iff.mp htouch
  obtain ⟨i, hi⟩ := List.mem_iff_getElem?.mp hc
  obtain rfl : decimal (i + 1) = d := Option.some.inj ((hb.ids i c hi).symm.trans hd)
  obtain ⟨title, date, size, content, links, cleaned, hpage, hclean, hissued, hrec⟩ := hf i c hi
  have htitle : c.extractTitle = some title := by rw [hpage]; rfl
  exact ⟨c, hc, title, date, size, content, links, cleaned, hpage, hd, hclean,
    freqSq_recorded_iff (hb.ok.tables .word) hissued (clear_of_free (htitles c hc title htitle))
      hrec⟩

/-- The stores behind both runs over the pages. -/
def indexedBoth (crawlers : List Crawler) : Stores :=
  runAll asciiPlatform [⟨.forwardIndexPages crawlers, []⟩, ⟨.invertedIndexPages crawlers, []⟩]
    Stores.empty

/-- The numerators of a run that is evaluated. -/
theorem accumulate_scores {title content : RocksDB} {q : List Str} {d : Str} {n : Int}
    (h : ((CosSim.accumulate title content q).toOption.bind (fun u => u[d]?)) = some n) :
    ∃ u : CosSim.Numerators, CosSim.accumulate title content q = .ok u ∧ u[d]? = some n := by
  cases hrun : CosSim.accumulate title content q with
  | error e =>
    rw [hrun] at h
    cases h
  | ok u =>
    rw [hrun] at h
    exact ⟨u, rfl, h⟩

theorem denominator_two_pages :
    ∃ u, CosSim.accumulate (indexedBoth twoPages .titleInverted)
        (indexedBoth twoPages .contentInverted) [['1']] = .ok u ∧ u[['1']]? = some 2 ∧
      ∃ c ∈ twoPages, (indexedBoth twoPages .document)[c.url]? = some ['1'] := by
  obtain ⟨u, hrun, hscored⟩ : ∃ u, CosSim.accumulate (indexedBoth twoPages .titleInverted)
      (indexedBoth twoPages .contentInverted) [['1']] = .ok u ∧ u[['1']]? = some 2 :=
    accumulate_scores (by decide +kernel)
  obtain ⟨c, hc, title, date, size, content, links, cleaned, -, hd, -⟩ :=
    denominator_exact_iff asciiPlatform twoPages (by decide) [] [] _ (Or.inl rfl)
      twoPages_indexed (by decide) [['1']] u ['1'] 2 hrun hscored
  exact ⟨u, hrun, hscored, c, hc, hd⟩

/-- A page without a title and without words. -/
def blankPage : Crawler :=
  Crawler.page "https://www.cse.ust.hk/".toList "No Title".toList "2020-05-08".toList "0".toList
    [] []

/-- The page is found by the words of the title it was given, and its denominator is zero. -/
theorem blank_page_divides_by_zero :
    StopWords.clean asciiPlatform (splitWs "title".toList) = .ok ["titl".toList] ∧
    (indexedBoth [blankPage] .word)["titl".toList]? = some ['2'] ∧
    CosSim.freqSq (indexedBoth [blankPage] .forwardIndex) ['1'] = .ok 0 ∧
    ¬ ∀ (q : List Str) (u : CosSim.Numerators) (d : Str) (n : Int),
      CosSim.accumulate (indexedBoth [blankPage] .titleInverted)
        (indexedBoth [blankPage] .contentInverted) q = .ok u → u[d]? = some n →
      ∃ freq, CosSim.freqSq (indexedBoth [blankPage] .forwardIndex) d = .ok freq ∧ 0 < freq := by
  have hrun : StopWords.clean asciiPlatform (splitWs "title".toList) = .ok ["titl".toList] ∧
      (indexedBoth [blankPage] .word)["titl".toList]? = some ['2'] ∧
      CosSim.freqSq (indexedBoth [blankPage] .forwardIndex) ['1'] = .ok 0 ∧
      ((CosSim.accumulate (indexedBoth [blankPage] .titleInverted)
        (indexedBoth [blankPage] .contentInverted) [['2']]).toOption.bind (fun u => u[['1']]?))
        = some 2 := by
    decide +kernel
  obtain ⟨hclean, hword, hzero, hscores⟩ := hrun
  refine ⟨hclean, hword, hzero, fun hall => ?_⟩
  obtain ⟨u, hrun, hscored⟩ := accumulate_scores hscores
  obtain ⟨freq, hfreq, hpos⟩ := hall [['2']] u ['1'] 2 hrun hscored
  rw [hzero] at hfreq
  cases hfreq
  exact absurd hpos (by decide)

/-! ## The bound -/

/-- An index without values spells nothing. -/
theorem spelled_empty : Spelled ∅ := by
  intro k v h
  rw [Std.ExtTreeMap.getElem?_empty] at h
  cases h

theorem groupsAt_empty (k : Str) : groupsAt ∅ k = [] := by
  rw [groupsAt, Std.ExtTreeMap.getElem?_empty]

/-- The numerator of a page, a missing entry counting as nothing. -/
theorem accumulate_getD {title content : RocksDB} (ht : Spelled title) (hc : Spelled content)
    (q : List Str) :
    ∃ u : CosSim.Numerators, CosSim.accumulate title content q = .ok u ∧
      ∀ d : Str, u[d]?.getD 0 = (q.map (keyScore title content d)).sum := by
  obtain ⟨u, hrun, hu⟩ := accumulate_eq ht hc q
  refine ⟨u, hrun, fun d => ?_⟩
  rw [hu]
  split
  · rfl
  · rename_i hno
    refine (List.sum_eq_zero (fun x hx => ?_)).symm
    obtain ⟨k, hk, rfl⟩ := List.mem_map.mp hx
    exact keyScore_of_not_touches (fun h => hno ⟨k, hk, h⟩)

/-- What the title index and the content index contribute to the numerator of `d`: the loops run
    on the one alone and on the other alone, and together give the sum. -/
structure Contributions (title content : RocksDB) (q : List Str) (d : Str) (t u : Int) : Prop where
  titles : ∃ U, CosSim.accumulate title ∅ q = .ok U ∧ U[d]?.getD 0 = t
  contents : ∃ U, CosSim.accumulate ∅ content q = .ok U ∧ U[d]?.getD 0 = u
  both : ∃ U, CosSim.accumulate title content q = .ok U ∧ U[d]?.getD 0 = t + u

theorem contributions {title content : RocksDB} (ht : Spelled title) (hc : Spelled content)
    (q : List Str) (d : Str) :
    Contributions title content q d (q.map (fun k => 2 * (tally d (groupsAt title k) : Int))).sum
      (q.map (fun k => (tally d (groupsAt content k) : Int))).sum := by
  obtain ⟨U₁, hrun₁, hU₁⟩ := accumulate_getD ht spelled_empty q
  obtain ⟨U₂, hrun₂, hU₂⟩ := accumulate_getD spelled_empty hc q
  obtain ⟨U₃, hrun₃, hU₃⟩ := accumulate_getD ht hc q
  refine ⟨⟨U₁, hrun₁, ?_⟩, ⟨U₂, hrun₂, ?_⟩, ⟨U₃, hrun₃, ?_⟩⟩
  · rw [hU₁]
    refine congrArg List.sum (List.map_congr_left (fun k _ => ?_))
    rw [keyScore, groupsAt_empty]
    simp [tally, groupsOf]
  · rw [hU₂]
    refine congrArg List.sum (List.map_congr_left (fun k _ => ?_))
    rw [keyScore, groupsAt_empty]
    simp [tally, groupsOf]
  · rw [hU₃, ← List.sum_map_add]
    rfl

/-- The content part of a numerator counts the keys among the IDs of the page's words. -/
theorem sum_tally_content {E : Platform} {crawlers : List Crawler} {s : Stores} {i : Nat}
    {c : Crawler} {cleaned : List Str} (hb : Built E crawlers s) (hi : crawlers[i]? = some c)
    (htoks : Field.content.tokens E c = .ok cleaned)
    (hissued : ∀ w ∈ cleaned, ∃ k : Str, (s .word)[w]? = some k) (q : List Str) :
    (q.map (fun k => (tally (decimal (i + 1)) (groupsAt (s .contentInverted) k) : Int))).sum
      = ((q.map (cleaned.map (wordIDOf s)).count).sum : Nat) := by
  have hpart : ∀ k, tally (decimal (i + 1)) (groupsAt (s .contentInverted) k)
      = (cleaned.map (wordIDOf s)).count k := by
    intro k
    rw [count_wordIDOf hissued k]
    exact (hb.tally_eq hi htoks k).1
  rw [Nat.cast_list_sum, List.map_map]
  congr 1
  exact List.map_congr_left (fun k _ => by rw [hpart]; rfl)

/-- **Cosine bound.**  Index any pages with distinct URLs on empty stores, once by each indexer.
    For every page, with the frequencies its record holds, and every list of keys in which no key
    occurs more than `M` times: the square of what the content index contributes to the numerator
    is at most the sum of the squared frequencies times the number of keys times `M`.  The same
    holds of the `word_count` in the record as long as the sum fits an `int`.  For a query without
    repeated keys the cosine, as a real number, is at most `1`.  `CosSim.score` rounds four times on
    the way to it, and may end above `1` (`three_words_above_one`). -/
theorem cosine_bound (E : Platform) (crawlers : List Crawler)
    (hurls : (crawlers.map Crawler.url).Nodup) (ff fi : List Bool) (run : List Attempt)
    (horder : run = [⟨.forwardIndexPages crawlers, ff⟩, ⟨.invertedIndexPages crawlers, fi⟩] ∨
      run = [⟨.invertedIndexPages crawlers, fi⟩, ⟨.forwardIndexPages crawlers, ff⟩])
    (hret : NoneAborted E run Stores.empty) :
    let s := runAll E run Stores.empty
    ∀ c ∈ crawlers, ∃ (d title date size : Str) (content links : List Str)
        (entries : List (Str × Nat)),
      c = Crawler.page c.url title date size content links ∧
      (s .document)[c.url]? = some d ∧
      (s .forwardIndex)[d]? = some (record title date size (pairsText entries) (linksText links)
        (wordCount entries) (rawContent content)) ∧
      (sumOf entries < 2 ^ 31 → wordCount entries = sumOf entries) ∧
      ∀ (q : List Str) (M : Nat), (∀ k, q.count k ≤ M) →
        ∃ t u : Int, Contributions (s .titleInverted) (s .contentInverted) q d t u ∧
          u * u ≤ sumOf entries * q.length * M ∧
          (q.Nodup → (u : ℝ) / (√(sumOf entries) * √q.length) ≤ 1) := by
  intro s c hc
  obtain ⟨hb, hf⟩ : Built E crawlers s ∧ Forwarded E crawlers s :=
    built_and_forwarded hurls horder hret
  obtain ⟨i, hi⟩ := List.mem_iff_getElem?.mp hc
  obtain ⟨title, date, size, content, links, cleaned, hpage, hclean, hissued, hrec⟩ := hf i c hi
  have htoks : Field.content.tokens E c = .ok cleaned := by
    rw [hpage]
    exact hclean
  have hcounts := counts_entriesOf E s cleaned
  have hsum : sumOf (entriesOf E s cleaned) = sumSquares (cleaned.map (wordIDOf s)) :=
    sumSquares_table hcounts.keys hcounts.freq hcounts.all
  refine ⟨decimal (i + 1), title, date, size, content, links, entriesOf E s cleaned, hpage,
    hb.ids i c hi, hrec, fun hfits => ?_, fun q M hM => ?_⟩
  · rw [wordCount_eq, (wrap32_natCast_iff _).mpr hfits]
  · have hu := sum_tally_content hb hi htoks hissued q
    have htitle : Spelled (s .titleInverted) := hb.ok.spelled .title
    have hcontent : Spelled (s .contentInverted) := hb.ok.spelled .content
    refine ⟨_, _, contributions htitle hcontent q (decimal (i + 1)), ?_, fun hnodup => ?_⟩
    · rw [hu, hsum]
      have hle := sq_sum_count_le q (cleaned.map (wordIDOf s)) hM
      rw [sq] at hle
      exact_mod_cast hle
    · have hle := sq_sum_count_le q (cleaned.map (wordIDOf s))
        (fun k => List.nodup_iff_count_le_one.mp hnodup k)
      rw [Nat.mul_one] at hle
      rw [hu, hsum]
      refine div_le_one_of_le₀ ?_ (by positivity)
      rw [← Real.sqrt_mul (by positivity)]
      refine Real.le_sqrt_of_sq_le ?_
      exact_mod_cast hle

/-- A query of two equal words, and the first of two pages. -/
theorem cosine_bound_two_pages :
    ∃ (d : Str) (entries : List (Str × Nat)) (t u : Int),
      (indexedBoth twoPages .document)[['a']]? = some d ∧
      Contributions (indexedBoth twoPages .titleInverted) (indexedBoth twoPages .contentInverted)
        [['1'], ['1']] d t u ∧ u * u ≤ sumOf entries * 2 * 2 := by
  obtain ⟨d, title, date, size, content, links, entries, -, hd, -, -, hbound⟩ :=
    cosine_bound asciiPlatform twoPages (by decide) [] [] _ (Or.inl rfl) twoPages_indexed
      (smallPage 'a' ["ab", "ab"]) List.mem_cons_self
  have hcount : ∀ k : Str, [['1'], ['1']].count k ≤ 2 := fun k => List.count_le_length
  obtain ⟨t, u, hparts, hle, -⟩ := hbound [['1'], ['1']] 2 hcount
  exact ⟨d, entries, t, u, hd, hparts, hle⟩

/-- The numerator of a run that is evaluated, a missing entry counting as nothing. -/
theorem accumulate_getD_of_run {title content : RocksDB} {q : List Str} {d : Str} {n : Int}
    (h : (CosSim.accumulate title content q).toOption.map (fun u => u[d]?.getD 0) = some n) :
    ∃ U, CosSim.accumulate title content q = .ok U ∧ U[d]?.getD 0 = n := by
  cases hrun : CosSim.accumulate title content q with
  | error e =>
    rw [hrun] at h
    cases h
  | ok U =>
    rw [hrun] at h
    exact ⟨U, rfl, Option.some.inj h⟩

/-- A page of three words, each of them once. -/
def threeWords : Crawler := smallPage 'a' ["ab", "cd", "xy"]

/-- The page and the query of its three words: the cosine is `1`, but `√3 * √3` is below `3` in
    doubles, and the search finds the page with a score above `1`. -/
theorem three_words_above_one :
    (∃ x, CosSim.getPages asciiPlatform (indexedBoth [threeWords]) "ab cd xy".toList 1
        = .ok (some [(['1'], x)]) ∧ 1 < x) ∧
    ¬ ∀ crawlers : List Crawler, (crawlers.map Crawler.url).Nodup →
      NoneAborted asciiPlatform
        [⟨.forwardIndexPages crawlers, []⟩, ⟨.invertedIndexPages crawlers, []⟩] Stores.empty →
      ∀ (d : Str) (q : List Str) (t u freq : Int), q.Nodup →
        Contributions (indexedBoth crawlers .titleInverted)
          (indexedBoth crawlers .contentInverted) q d t u →
        CosSim.freqSq (indexedBoth crawlers .forwardIndex) d = .ok freq →
        CosSim.score u freq q.length ≤ 1 := by
  have hrun : NoneAborted asciiPlatform
        [⟨.forwardIndexPages [threeWords], []⟩, ⟨.invertedIndexPages [threeWords], []⟩]
        Stores.empty ∧
      (CosSim.getPages asciiPlatform (indexedBoth [threeWords]) "ab cd xy".toList 1).toOption
        = some (some [(['1'], CosSim.score 3 3 3)]) ∧
      (CosSim.accumulate (indexedBoth [threeWords] .titleInverted) ∅
        [['1'], ['2'], ['3']]).toOption.map (fun u => u[['1']]?.getD 0) = some 0 ∧
      (CosSim.accumulate ∅ (indexedBoth [threeWords] .contentInverted)
        [['1'], ['2'], ['3']]).toOption.map (fun u => u[['1']]?.getD 0) = some 3 ∧
      (CosSim.accumulate (indexedBoth [threeWords] .titleInverted)
        (indexedBoth [threeWords] .contentInverted)
        [['1'], ['2'], ['3']]).toOption.map (fun u => u[['1']]?.getD 0) = some (0 + 3) ∧
      CosSim.freqSq (indexedBoth [threeWords] .forwardIndex) ['1'] = .ok 3 := by
    decide +kernel
  obtain ⟨hret, hfound, htitles, hcontents, hboth, hfreq⟩ := hrun
  have habove : 1 < CosSim.score 3 3 3 ∧ ¬ CosSim.score 3 3 3 ≤ 1 := by decide +kernel
  refine ⟨⟨CosSim.score 3 3 3, ?_, habove.1⟩, fun hall => habove.2 ?_⟩
  · cases hpages : CosSim.getPages asciiPlatform (indexedBoth [threeWords]) "ab cd xy".toList 1 with
    | error e =>
      rw [hpages] at hfound
      cases hfound
    | ok res =>
      rw [hpages] at hfound
      exact congrArg Except.ok (Option.some.inj hfound)
  · have hparts : Contributions (indexedBoth [threeWords] .titleInverted)
        (indexedBoth [threeWords] .contentInverted) [['1'], ['2'], ['3']] ['1'] 0 3 :=
      ⟨accumulate_getD_of_run htitles, accumulate_getD_of_run hcontents,
        accumulate_getD_of_run hboth⟩
    exact hall [threeWords] (by decide) hret ['1'] [['1'], ['2'], ['3']] 0 3 3 (by decide) hparts
      hfreq

end SearchEngine
