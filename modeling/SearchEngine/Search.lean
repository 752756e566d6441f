/-
  The engine as a whole: what a query finds among pages that were indexed.

  Said without stores, IDs and texts: a page MATCHES a query if one of the words stands in its
  title or content; its RELEVANCE counts every occurrence of every word of the query, twice in the
  title; its NORM is the sum of the squared frequencies of its content words.  `search_exact` says
  that `getPages`, run on what the two indexers leave behind, answers with exactly the matching
  pages whose score lies above the threshold, and with that score, the relevance being counted in
  an `Integer`, which wraps.  So the answer is a function of the set of pages and of the multiset of
  words alone (`search_order_independent`), although the page IDs, the word IDs, the posting texts
  and the order of both differ.  After other runs, with pages re-indexed and calls cut short, the
  answer may miss pages; `search_sound` says that it still makes none up, and `search_throws` which
  page is to blame when there is none.
-/
import SearchEngine.Denominator
import SearchEngine.QueryResolution
import SearchEngine.Retention
import Mathlib.Tactic.Common

namespace SearchEngine

open Text Numeral Effect Postings InvertedIndexer NumberedMap ForwardIndexer Counting CosSim

variable {E : Platform} {crawlers : List Crawler} {s : Stores}

/-! ## What a query is about -/

/-- A word of the query stands in the page. -/
def Matches (E : Platform) (c : Crawler) (q : List Str) : Prop := ∃ w ∈ q, w ∈ allWords E c

/-- The occurrences of the words of the query, those in the title twice. -/
def relevance (E : Platform) (c : Crawler) (q : List Str) : Int :=
  (q.map (fun w => 2 * ((wordsIn E .title c).count w : Int) + (wordsIn E .content c).count w)).sum

/-- The sum of the squared frequencies of the content words. -/
def norm (E : Platform) (c : Crawler) : Nat := sumSquares (wordsIn E .content c)

/-- The norm of a page can be read back from its record. -/
def NormReadable (E : Platform) (c : Crawler) : Prop :=
  ∃ title date size content links, c = Crawler.page c.url title date size content links ∧
    ¬ ";;;".toList <:+: title ∧ wordsIn E .content c ≠ [] ∧
    SumReadable date size links (norm E c)

/-- The words of the pages. -/
def vocabulary (E : Platform) (crawlers : List Crawler) : List Str := crawlers.flatMap (allWords E)

/-- The words of a query that have an ID. -/
def known (s : Stores) (q : List Str) : List Str := q.filter (fun w => decide (w ∈ s .word))

/-! ## The loop over the words of a query -/

/-- Where only the last word may be unknown, none is passed over. -/
theorem isChain_of_known {word : RocksDB} :
    ∀ {q : List Str}, (∀ w ∈ q.dropLast, w ∈ word) → q.IsChain (SkipSafe word)
  | [], _ => List.isChain_nil
  | [t], _ => List.isChain_singleton t
  | t :: t' :: ts, h => by
    have ht : word[t]? ≠ none := by
      rw [← Option.isSome_iff_ne_none, Std.ExtTreeMap.isSome_getElem?_iff_mem]
      exact h t (by simp)
    rw [isChain_cons_of_known ht]
    exact isChain_of_known (fun w hw => h w (by rw [List.dropLast_cons_cons]; simp [hw]))

theorem knownIDs_eq (s : Stores) :
    ∀ q : List Str, knownIDs (s .word) q = (known s q).map (wordIDOf s)
  | [] => rfl
  | t :: q => by
    have ih := knownIDs_eq s q
    cases ht : (s .word)[t]? with
    | none =>
      have hnot : t ∉ s .word := by
        rw [← Std.ExtTreeMap.isSome_getElem?_iff_mem, ht]
        simp
      rw [knownIDs_cons_none ht, ih, known, known, List.filter_cons_of_neg (by simpa using hnot)]
    | some k =>
      have hmem : t ∈ s .word := mem_iff_get.mpr ⟨k, ht⟩
      rw [knownIDs_cons_some ht, ih, known, known, List.filter_cons_of_pos (by simpa using hmem),
        List.map_cons, wordIDOf, ht]
      rfl

/-! ## The numerators, by words -/

/-- The occurrences of an ID are those of its word. -/
theorem occurrences_eq_count (h : TableOk .word s) {w k : Str} (hw : (s .word)[w]? = some k)
    (toks : List Str) : occurrences s k toks = toks.count w := by
  refine List.countP_congr (fun w' _ => ?_)
  simp only [decide_eq_true_eq, beq_iff_eq]
  constructor
  · exact fun hw' => h.1.injective hw' hw
  · rintro rfl
    exact hw

theorem Built.tokens_wordsIn (h : Built E crawlers s) {c : Crawler} (hc : c ∈ crawlers)
    (f : Field) : f.tokens E c = .ok (wordsIn E f c) := by
  obtain ⟨toks, htoks⟩ := h.tokens c hc f
  rw [htoks, wordsIn_eq htoks]

theorem tally_eq_length (d : Str) (gs : List (DocGroup Char)) :
    tally d gs = ((groupsOf d gs).flatMap DocGroup.poss).length := by
  rw [tally, List.length_flatMap]

/-- A page has a group just when it has a position. -/
theorem tally_ne_zero_iff {d : Str} {gs : List (DocGroup Char)} (hfilled : Filled gs) :
    tally d gs ≠ 0 ↔ groupsOf d gs ≠ [] := by
  rw [tally_eq_length, ne_eq, List.length_eq_zero_iff]
  constructor
  · intro hne hnil
    rw [hnil] at hne
    exact hne rfl
  · intro hne hnil
    obtain ⟨g, hg⟩ := List.exists_mem_of_ne_nil _ hne
    obtain ⟨i, hi⟩ := List.exists_mem_of_ne_nil _ (hfilled g (List.mem_filter.mp hg).1)
    exact List.ne_nil_of_mem (List.mem_flatMap.mpr ⟨g, hg, hi⟩) hnil

/-- Only pages with an ID have groups. -/
theorem issued_of_groupsOf (hs : IndexOk s) (f : Field) {d k : Str}
    (h : groupsOf d (groupsAt (s f.db) k) ≠ []) : Issued .page d s := by
  obtain ⟨g, hg⟩ := List.exists_mem_of_ne_nil _ h
  obtain ⟨hg, hgd⟩ := List.mem_filter.mp hg
  have hdoc : g.doc = d := by simpa using hgd
  exact hdoc ▸ (hs.groupsAt_ok f k).2.2 g hg

/-- What a query credits a page with that has so many positions of each word. -/
def weight (count : Field → Str → Nat) (q : List Str) : Int :=
  (q.map (fun w => 2 * (count .title w : Int) + count .content w)).sum

/-- Words without an ID weigh nothing. -/
theorem weight_known {count : Field → Str → Nat} :
    ∀ q : List Str, (∀ w ∈ q, w ∉ s .word → ∀ f, count f w = 0) →
      weight count (known s q) = weight count q
  | [], _ => rfl
  | w :: q, h => by
    have ih := weight_known q (fun w' hw' => h w' (List.mem_cons_of_mem w hw'))
    unfold weight known at ih ⊢
    by_cases hw : w ∈ s .word
    · rw [List.filter_cons_of_pos (by simpa using hw), List.map_cons, List.sum_cons, ih,
        List.map_cons, List.sum_cons]
    · have hzero := h w List.mem_cons_self hw
      rw [List.filter_cons_of_neg (by simpa using hw), ih, List.map_cons, List.sum_cons,
        hzero .title, hzero .content]
      simp

theorem wordIDOf_eq {w : Str} (hw : w ∈ s .word) : (s .word)[w]? = some (wordIDOf s w) := by
  obtain ⟨k, hk⟩ := mem_iff_get.mp hw
  rw [wordIDOf, hk]
  rfl

/-- **The numerators, from the number of positions.**  Where the two indexes hold so many positions
    of each word of the query for a page, the page has a numerator if one of the numbers is not
    zero, and it is their weight. -/
theorem numerator_iff_of_counts (hok : IndexOk s) {q : List Str} (hq : ∀ w ∈ q, w ∈ s .word)
    {u : Numerators}
    (hu : accumulate (s .titleInverted) (s .contentInverted) (q.map (wordIDOf s)) = .ok u)
    {d : Str} {count : Field → Str → Nat}
    (hcount : ∀ f, ∀ w ∈ q, tally d (postings f s w) = count f w) (n : Int) :
    u[d]? = some n ↔ (∃ w ∈ q, ∃ f, count f w ≠ 0) ∧ n = weight count q := by
  have hspelled : Spelled (s .titleInverted) := hok.spelled .title
  have hspelled' : Spelled (s .contentInverted) := hok.spelled .content
  obtain ⟨u', hrun, hentry⟩ := accumulate_eq hspelled hspelled' (q.map (wordIDOf s))
  obtain rfl : u' = u := Except.ok.inj (hrun.symm.trans hu)
  have hvalue : ∀ f, ∀ w ∈ q, postings f s w = groupsAt (s f.db) (wordIDOf s w) := by
    intro f w hw
    rw [postings, wordIDOf_eq (hq w hw)]
  have hgroup : ∀ f, ∀ w ∈ q,
      (groupsOf d (groupsAt (s f.db) (wordIDOf s w)) ≠ [] ↔ count f w ≠ 0) := by
    intro f w hw
    rw [← hvalue f w hw, ← tally_ne_zero_iff (hok.postings_ok f w).2.1, hcount f w hw]
  -- whether the page is touched
  have htouch : (∃ k ∈ q.map (wordIDOf s), Touches (s .titleInverted) (s .contentInverted) d k) ↔
      ∃ w ∈ q, ∃ f, count f w ≠ 0 := by
    constructor
    · rintro ⟨k, hk, ht⟩
      obtain ⟨w, hw, rfl⟩ := List.mem_map.mp hk
      rcases ht with ht | ht
      · exact ⟨w, hw, .title, (hgroup .title w hw).mp ht⟩
      · exact ⟨w, hw, .content, (hgroup .content w hw).mp ht⟩
    · rintro ⟨w, hw, f, hne⟩
      refine ⟨wordIDOf s w, List.mem_map_of_mem hw, ?_⟩
      cases f with
      | title => exact Or.inl ((hgroup .title w hw).mpr hne)
      | content => exact Or.inr ((hgroup .content w hw).mpr hne)
  -- what it is credited with
  have hscore : ((q.map (wordIDOf s)).map
      (keyScore (s .titleInverted) (s .contentInverted) d)).sum = weight count q := by
    rw [List.map_map, weight]
    refine congrArg List.sum (List.map_congr_left (fun w hw => ?_))
    show 2 * (tally d (groupsAt (s Field.title.db) (wordIDOf s w)) : Int)
      + tally d (groupsAt (s Field.content.db) (wordIDOf s w)) = _
    rw [← hvalue .title w hw, ← hvalue .content w hw, hcount .title w hw, hcount .content w hw]
  rw [hentry, hscore]
  constructor
  · intro hn
    split at hn
    · rename_i hex
      exact ⟨htouch.mp hex, (Option.some.inj hn).symm⟩
    · cases hn
  · rintro ⟨hex, rfl⟩
    rw [if_pos (htouch.mpr hex)]

/-- Only pages with an ID have a numerator. -/
theorem issued_of_numerator (hok : IndexOk s) {q : List Str} {u : Numerators}
    (hu : accumulate (s .titleInverted) (s .contentInverted) q = .ok u) {d : Str} {n : Int}
    (hn : u[d]? = some n) : Issued .page d s := by
  have hspelled : Spelled (s .titleInverted) := hok.spelled .title
  have hspelled' : Spelled (s .contentInverted) := hok.spelled .content
  obtain ⟨k, -, ht | ht⟩ := (accumulate_some_iff hspelled hspelled' hu d).mp ⟨n, hn⟩
  · exact issued_of_groupsOf hok .title ht
  · exact issued_of_groupsOf hok .content ht

theorem Built.tally_wordsIn (h : Built E crawlers s) {c : Crawler} (hc : c ∈ crawlers) {d w : Str}
    (hd : (s .document)[c.url]? = some d) (hw : w ∈ s .word) (f : Field) :
    tally d (postings f s w) = (wordsIn E f c).count w := by
  obtain ⟨i, hi⟩ := List.mem_iff_getElem?.mp hc
  obtain rfl : decimal (i + 1) = d := Option.some.inj ((h.ids i c hi).symm.trans hd)
  have htally := (h.tally_eq hi (h.tokens_wordsIn hc f) (wordIDOf s w)).1
  rw [occurrences_eq_count (h.ok.tables .word) (wordIDOf_eq hw)] at htally
  rw [postings, wordIDOf_eq hw]
  exact htally

/-- The pages with an entry are those that match, and the entry is the relevance. -/
theorem Built.numerator_iff (h : Built E crawlers s) {q : List Str} (hq : ∀ w ∈ q, w ∈ s .word)
    {u : Numerators}
    (hu : accumulate (s .titleInverted) (s .contentInverted) (q.map (wordIDOf s)) = .ok u)
    (d : Str) (n : Int) :
    u[d]? = some n ↔ ∃ c ∈ crawlers, (s .document)[c.url]? = some d ∧ Matches E c q ∧
      n = relevance E c q := by
  have hnum : ∀ c ∈ crawlers, (s .document)[c.url]? = some d →
      (u[d]? = some n ↔ Matches E c q ∧ n = relevance E c q) := by
    intro c hc hd
    rw [numerator_iff_of_counts h.ok hq hu (fun f w hw => h.tally_wordsIn hc hd (hq w hw) f)]
    refine and_congr (exists_congr (fun w => and_congr_right (fun _ => ?_))) Iff.rfl
    rw [mem_allWords]
    exact exists_congr (fun f => by rw [ne_eq, List.count_eq_zero, not_not])
  constructor
  · intro hn
    obtain ⟨url, hd⟩ := issued_of_numerator h.ok hu hn
    obtain ⟨i, c, hi, -, rfl⟩ := h.numbered.page_of_issued hd
    have hc := List.mem_of_getElem? hi
    exact ⟨c, hc, hd, (hnum c hc hd).mp hn⟩
  · rintro ⟨c, hc, hd, hmatch⟩
    exact (hnum c hc hd).mpr hmatch

/-! ## The final loop -/

/-- The norm that is read for a page, zero where none can be read. -/
def normRead (forwardIndex : RocksDB) (d : Str) : Int := (freqSq forwardIndex d).toOption.getD 0

theorem normRead_eq {forwardIndex : RocksDB} {d : Str} {n : Int}
    (h : freqSq forwardIndex d = .ok n) : normRead forwardIndex d = n := by
  rw [normRead, h]
  rfl

/-- The entry of the answer for a page with this numerator. -/
def scored (forwardIndex : RocksDB) (qSize : Nat) (e : Str × Int) : Str × Float :=
  (e.1, score e.2 (normRead forwardIndex e.1) qSize)

/-- Where every norm can be read, the loop keeps the pages above the threshold. -/
theorem foldlM_score (forwardIndex : RocksDB) (qSize : Nat) (thresh : Float) :
    ∀ (es : List (Str × Int)) (cossim : List (Str × Float)),
      (∀ e ∈ es, freqSq forwardIndex e.1 = .ok (normRead forwardIndex e.1)) →
      (es.foldlM (fun cossim e => do
        let freq ← freqSq forwardIndex e.1
        let res := score e.2 freq qSize
        pure (if thresh < res then cossim ++ [(e.1, res)] else cossim)) cossim : Except Exn _)
        = .ok (cossim ++ (es.map (scored forwardIndex qSize)).filter
            (fun r => decide (thresh < r.2)))
  | [], cossim, _ => by
    rw [List.map_nil, List.filter_nil, List.append_nil]
    rfl
  | e :: es, cossim, h => by
    have ih := foldlM_score forwardIndex qSize thresh es
      (if thresh < (scored forwardIndex qSize e).2 then cossim ++ [scored forwardIndex qSize e]
        else cossim) (fun e' he' => h e' (List.mem_cons_of_mem e he'))
    rw [List.foldlM_cons, h e (by simp)]
    refine Eq.trans ih ?_
    by_cases hab : thresh < (scored forwardIndex qSize e).2
    · rw [if_pos hab, List.map_cons, List.filter_cons_of_pos (by simpa using hab),
        List.append_assoc]
      rfl
    · rw [if_neg hab, List.map_cons, List.filter_cons_of_neg (by simpa using hab)]

/-- What the loop keeps are pages with a numerator, and above the threshold. -/
theorem mem_foldlM_score {forwardIndex : RocksDB} {qSize : Nat} {thresh : Float} :
    ∀ (es : List (Str × Int)) {cossim res : List (Str × Float)},
      (es.foldlM (fun cossim e => do
        let freq ← freqSq forwardIndex e.1
        let res := score e.2 freq qSize
        pure (if thresh < res then cossim ++ [(e.1, res)] else cossim)) cossim : Except Exn _)
        = .ok res →
      ∀ r ∈ res, r ∈ cossim ∨ (r.1 ∈ es.map Prod.fst ∧ thresh < r.2)
  | [], cossim, res, h => by
    intro r hr
    rw [← Except.ok.inj h] at hr
    exact Or.inl hr
  | e :: es, cossim, res, h => by
    intro r hr
    rw [List.foldlM_cons] at h
    obtain ⟨cossim', hstep, hrest⟩ := except_bind_ok.mp h
    obtain ⟨freq, -, hpure⟩ := except_bind_ok.mp hstep
    rcases mem_foldlM_score es hrest r hr with hmem | ⟨hkey, habove⟩
    · obtain rfl := Except.ok.inj hpure
      by_cases hab : thresh < score e.2 freq qSize
      · rw [if_pos hab] at hmem
        rcases List.mem_append.mp hmem with hmem | hmem
        · exact Or.inl hmem
        · rw [List.mem_singleton.mp hmem]
          exact Or.inr ⟨List.mem_cons_self, hab⟩
      · rw [if_neg hab] at hmem
        exact Or.inl hmem
    · exact Or.inr ⟨List.mem_cons_of_mem _ hkey, habove⟩

/-- The norm that is read from the record of a page. -/
theorem Recorded.freqSq_eq {c : Crawler} {d : Str} (h : Recorded E c d s)
    (htable : TableOk .word s) (hread : NormReadable E c) :
    freqSq (s .forwardIndex) d = .ok (norm E c : Int) := by
  obtain ⟨title, date, size, content, links, cleaned, hpage, hclean, hissued, hrec⟩ := h
  obtain ⟨title', date', size', content', links', hpage', htitle, hne, hsum⟩ := hread
  rw [hpage'] at hpage
  cases hpage
  have hwords : wordsIn E .content c = cleaned := by
    apply wordsIn_eq
    rw [hpage']
    exact hclean
  rw [norm, hwords] at hsum
  rw [hwords] at hne
  obtain ⟨freq, hfreq, rfl, -⟩ := (freqSq_recorded_iff htable hissued
    (clear_of_free htitle) hrec).mpr ⟨hne, hsum⟩
  rw [hfreq, norm, hwords]

/-- The norm that is read for a page of the batch. -/
theorem Built.freqSq_eq (hb : Built E crawlers s) (hf : Forwarded E crawlers s) {c : Crawler}
    {d : Str} (hc : c ∈ crawlers) (hd : (s .document)[c.url]? = some d)
    (hread : NormReadable E c) : freqSq (s .forwardIndex) d = .ok (norm E c : Int) := by
  obtain ⟨i, hi⟩ := List.mem_iff_getElem?.mp hc
  obtain rfl : decimal (i + 1) = d := Option.some.inj ((hb.ids i c hi).symm.trans hd)
  exact (hf i c hi).freqSq_eq (hb.ok.tables .word) hread

/-! ## The answer -/

/-- An unknown word stands in no page. -/
theorem Built.known_of_mem (hb : Built E crawlers s) {c : Crawler} (hc : c ∈ crawlers)
    {w : Str} (hw : w ∈ allWords E c) : w ∈ s .word := by
  obtain ⟨f, hwf⟩ := mem_allWords.mp hw
  obtain ⟨k, hk⟩ := hb.issued c hc f _ (hb.tokens_wordsIn hc f) w hwf
  exact mem_iff_get.mpr ⟨k, hk⟩

theorem Built.matches_known (hb : Built E crawlers s) {c : Crawler} (hc : c ∈ crawlers)
    (q : List Str) : Matches E c (known s q) ↔ Matches E c q := by
  constructor
  · rintro ⟨w, hw, hmem⟩
    exact ⟨w, (List.mem_filter.mp hw).1, hmem⟩
  · rintro ⟨w, hw, hmem⟩
    exact ⟨w, List.mem_filter.mpr ⟨hw, by simpa using hb.known_of_mem hc hmem⟩, hmem⟩

theorem Built.relevance_known (hb : Built E crawlers s) {c : Crawler} (hc : c ∈ crawlers)
    (q : List Str) : relevance E c (known s q) = relevance E c q := by
  refine @weight_known s (fun f => (wordsIn E f c).count) q (fun w _ hw f => ?_)
  exact List.count_eq_zero.mpr (fun hmem => hw (hb.known_of_mem hc (mem_allWords.mpr ⟨f, hmem⟩)))

/-- **A query of which only the last word may be unknown.**  If the numerators are those of the
    relation `Entry` (page, numerator, norm), and the norms are read as it says, the answer holds
    the pages of the relation that score above the threshold. -/
theorem getPages_of_entries (hok : IndexOk s) {query : Str} {q : List Str}
    (hclean : StopWords.clean E (splitWs query) = .ok q) (thresh : Float)
    (hfirst : ∃ w ∈ q.head?, w ∈ s .word) (hrest : ∀ w ∈ q.dropLast, w ∈ s .word)
    {Entry : Str → Int → Int → Prop}
    (hentry : ∀ u, accumulate (s .titleInverted) (s .contentInverted)
        ((known s q).map (wordIDOf s)) = .ok u →
      ∀ d n, u[d]? = some n ↔ ∃ m, Entry d n m)
    (hnorm : ∀ d n m, Entry d n m → freqSq (s .forwardIndex) d = .ok m) :
    ∃ res, getPages E s query thresh = .ok (some res) ∧ (res.map Prod.fst).Nodup ∧
      ∀ d x, (d, x) ∈ res ↔ ∃ n m, Entry d n m ∧ x = score (wrap32 n) m (known s q).length ∧
        thresh < x := by
  have hchain : q.IsChain (SkipSafe (s .word)) := isChain_of_known hrest
  have hseen : unseen (s .word) q = false := by
    rw [unseen_eq_false_iff hchain]
    obtain ⟨w, hw, hmem⟩ := hfirst
    left
    refine ⟨w, hw, ?_⟩
    rw [← Option.isSome_iff_ne_none, Std.ExtTreeMap.isSome_getElem?_iff_mem]
    exact hmem
  have hresolved : resolved (s .word) q = (known s q).map (wordIDOf s) := by
    rw [(resolved_eq_knownIDs_iff _ q).mpr hchain, knownIDs_eq]
  have hspelled : Spelled (s .titleInverted) := hok.spelled .title
  have hspelled' : Spelled (s .contentInverted) := hok.spelled .content
  obtain ⟨u, hu, -⟩ := accumulate_eq hspelled hspelled' ((known s q).map (wordIDOf s))
  have hrun := cossimU_of_accumulate hu
  -- the norm of every page with an entry
  have hfreq : ∀ e ∈ (wrapped u).toList,
      freqSq (s .forwardIndex) e.1 = .ok (normRead (s .forwardIndex) e.1) := by
    intro e he
    obtain ⟨n, hn, -⟩ := mem_toList_wrapped.mp he
    obtain ⟨m, hm⟩ := (hentry u hu e.1 n).mp hn
    rw [hnorm _ _ _ hm, normRead_eq (hnorm _ _ _ hm)]
  have hscored : scorePages (s .forwardIndex) (known s q).length thresh (wrapped u) = .ok _ :=
    foldlM_score _ _ _ (wrapped u).toList [] hfreq
  rw [List.nil_append] at hscored
  refine ⟨((wrapped u).toList.map (scored (s .forwardIndex) (known s q).length)).filter
    (fun r => decide (thresh < r.2)), ?_, ?_, fun d x => ?_⟩
  · rw [getPages_eq thresh hclean, hseen, if_neg (by simp), hresolved, hrun, except_ok_bind,
      List.length_map, hscored, except_ok_bind]
  · refine List.Nodup.sublist (List.filter_sublist.map Prod.fst) ?_
    rw [List.map_map]
    show ((wrapped u).toList.map Prod.fst).Nodup
    rw [Std.ExtTreeMap.map_fst_toList_eq_keys]
    exact Std.ExtTreeMap.nodup_keys
  · rw [List.mem_filter, List.mem_map]
    constructor
    · rintro ⟨⟨e, he, heq⟩, habove⟩
      obtain ⟨n, hn, hwrap⟩ := mem_toList_wrapped.mp he
      obtain ⟨m, hm⟩ := (hentry u hu e.1 n).mp hn
      rw [scored] at heq
      obtain ⟨rfl, rfl⟩ := Prod.mk.inj heq
      refine ⟨n, m, hm, ?_, by simpa using habove⟩
      rw [hwrap, normRead_eq (hnorm _ _ _ hm)]
    · rintro ⟨n, m, hm, rfl, habove⟩
      refine ⟨⟨(d, wrap32 n), ?_, ?_⟩, by simpa using habove⟩
      · exact mem_toList_wrapped.mpr ⟨n, (hentry u hu d n).mpr ⟨m, hm⟩, rfl⟩
      · rw [scored, normRead_eq (hnorm _ _ _ hm)]

/-- **A query on stores that are built.** -/
theorem Built.answer (hb : Built E crawlers s) (hf : Forwarded E crawlers s) {query : Str}
    {q : List Str} (hclean : StopWords.clean E (splitWs query) = .ok q) (thresh : Float)
    (hfirst : ∃ w ∈ q.head?, w ∈ s .word) (hrest : ∀ w ∈ q.dropLast, w ∈ s .word)
    (hread : ∀ c ∈ crawlers, Matches E c q → NormReadable E c) :
    ∃ res, getPages E s query thresh = .ok (some res) ∧ (res.map Prod.fst).Nodup ∧
      ∀ d x, (d, x) ∈ res ↔ ∃ c ∈ crawlers, (s .document)[c.url]? = some d ∧ Matches E c q ∧
        x = score (wrap32 (relevance E c q)) (norm E c) (known s q).length ∧ thresh < x := by
  have hentry : ∀ u, accumulate (s .titleInverted) (s .contentInverted)
        ((known s q).map (wordIDOf s)) = .ok u → ∀ d n, u[d]? = some n ↔
      ∃ m : Int, ∃ c ∈ crawlers, (s .document)[c.url]? = some d ∧ Matches E c q ∧
        n = relevance E c q ∧ m = norm E c := by
    intro u hu d n
    rw [hb.numerator_iff (fun w hw => by simpa using (List.mem_filter.mp hw).2) hu]
    constructor
    · rintro ⟨c, hc, hd, hmatch, hn⟩
      rw [hb.matches_known hc] at hmatch
      rw [hb.relevance_known hc] at hn
      exact ⟨norm E c, c, hc, hd, hmatch, hn, rfl⟩
    · rintro ⟨m, c, hc, hd, hmatch, hn, -⟩
      rw [← hb.matches_known hc] at hmatch
      rw [← hb.relevance_known hc] at hn
      exact ⟨c, hc, hd, hmatch, hn⟩
  obtain ⟨res, hres, hnodup, hmem⟩ := getPages_of_entries hb.ok hclean thresh hfirst hrest hentry
    (by rintro d n m ⟨c, hc, hd, hmatch, -, rfl⟩
        exact hb.freqSq_eq hf hc hd (hread c hc hmatch))
  refine ⟨res, hres, hnodup, fun d x => (hmem d x).trans ⟨?_, ?_⟩⟩
  · rintro ⟨n, m, ⟨c, hc, hd, hmatch, rfl, rfl⟩, hx, habove⟩
    exact ⟨c, hc, hd, hmatch, hx, habove⟩
  · rintro ⟨c, hc, hd, hmatch, hx, habove⟩
    exact ⟨_, _, ⟨c, hc, hd, hmatch, rfl, rfl⟩, hx, habove⟩

theorem known_eq_self {q : List Str} (h : ∀ w ∈ q, w ∈ s .word) : known s q = q :=
  List.filter_eq_self.mpr (fun w hw => by simpa using h w hw)

/-- A query of words that all stand in some page. -/
theorem Built.answer_of_words (hb : Built E crawlers s) (hf : Forwarded E crawlers s) {query : Str}
    {q : List Str} (hclean : StopWords.clean E (splitWs query) = .ok q) (thresh : Float)
    (hne : q ≠ []) (hwords : ∀ w ∈ q, w ∈ vocabulary E crawlers)
    (hread : ∀ c ∈ crawlers, Matches E c q → NormReadable E c) :
    ∃ res, getPages E s query thresh = .ok (some res) ∧ (res.map Prod.fst).Nodup ∧
      ∀ d x, (d, x) ∈ res ↔ ∃ c ∈ crawlers, (s .document)[c.url]? = some d ∧ Matches E c q ∧
        x = score (wrap32 (relevance E c q)) (norm E c) q.length ∧ thresh < x := by
  have hknown : ∀ w ∈ q, w ∈ s .word := by
    intro w hw
    obtain ⟨c, hc, hmem⟩ := List.mem_flatMap.mp (hwords w hw)
    exact hb.known_of_mem hc hmem
  obtain ⟨w, q', rfl⟩ := List.exists_cons_of_ne_nil hne
  have hanswer := hb.answer hf hclean thresh ⟨w, rfl, hknown w (by simp)⟩
    (fun w' hw' => hknown w' (List.mem_of_mem_dropLast hw')) hread
  rw [known_eq_self hknown] at hanswer
  exact hanswer

/-- What was found, by URLs. -/
theorem Built.found_iff (hb : Built E crawlers s) {res : List (Str × Float)} {q : List Str}
    {thresh : Float}
    (hres : ∀ d x, (d, x) ∈ res ↔ ∃ c ∈ crawlers, (s .document)[c.url]? = some d ∧
      Matches E c q ∧ x = score (wrap32 (relevance E c q)) (norm E c) q.length ∧ thresh < x)
    {url : Str} {x : Float} :
    (∃ d, (s .document)[url]? = some d ∧ (d, x) ∈ res) ↔ ∃ c, c ∈ crawlers ∧ c.url = url ∧
      Matches E c q ∧ x = score (wrap32 (relevance E c q)) (norm E c) q.length ∧ thresh < x := by
  constructor
  · rintro ⟨d, hd, hmem⟩
    obtain ⟨c, hc, hcd, hrest⟩ := (hres d x).mp hmem
    exact ⟨c, hc, (hb.ok.tables .page).1.injective hcd hd, hrest⟩
  · rintro ⟨c, hc, rfl, hrest⟩
    obtain ⟨i, hi⟩ := List.mem_iff_getElem?.mp hc
    exact ⟨_, hb.ids i c hi, (hres _ x).mpr ⟨c, hc, hb.ids i c hi, hrest⟩⟩

/-! ### Two pages and the word they share -/

theorem wordsIn_smallPage (url : Char) (n : Nat) :
    wordsIn asciiPlatform .content (smallPage url (List.replicate n "ab"))
      = List.replicate n "ab".toList := by
  have htoks : Field.content.tokens asciiPlatform (smallPage url (List.replicate n "ab"))
      = .ok (List.replicate n "ab".toList) := by
    show StopWords.clean asciiPlatform ((List.replicate n "ab").map String.toList) = _
    rw [List.map_replicate, StopWords.clean_ab]
  exact wordsIn_eq htoks

theorem normReadable_smallPage (url : Char) {n : Nat} (hpos : 0 < n) (hlt : n ^ 2 < 2 ^ 31) :
    NormReadable asciiPlatform (smallPage url (List.replicate n "ab")) := by
  have hnorm : norm asciiPlatform (smallPage url (List.replicate n "ab")) = n ^ 2 := by
    rw [norm, wordsIn_smallPage, sumSquares, List.toFinset_replicate_of_ne_zero (by omega),
      Finset.sum_singleton, List.count_replicate_self]
  refine ⟨['a'], [], [], (List.replicate n "ab").map String.toList, [], rfl, by decide, ?_, ?_⟩
  · rw [wordsIn_smallPage]
    intro hnil
    have := List.replicate_eq_nil_iff _ |>.mp hnil
    omega
  · rw [hnorm]
    exact ⟨rfl, hlt⟩

theorem twoPages_words : ∀ w ∈ ["ab".toList], w ∈ vocabulary asciiPlatform twoPages := by
  intro w hw
  obtain rfl := List.mem_singleton.mp hw
  refine List.mem_flatMap.mpr ⟨smallPage 'b' ["ab"], by simp [twoPages], ?_⟩
  apply mem_allWords.mpr
  refine ⟨.content, ?_⟩
  rw [show (["ab"] : List String) = List.replicate 1 "ab" from rfl, wordsIn_smallPage 'b' 1]
  exact List.mem_singleton_self _

theorem twoPages_readable :
    ∀ c ∈ twoPages, Matches asciiPlatform c ["ab".toList] → NormReadable asciiPlatform c := by
  intro c hc _
  rcases List.mem_cons.mp hc with rfl | hc'
  · exact normReadable_smallPage 'a' (n := 2) (by decide) (by decide)
  · obtain rfl := List.mem_singleton.mp hc'
    exact normReadable_smallPage 'b' (n := 1) (by decide) (by decide)

/-! ## The search -/

/-- What stands in the vector behind the loop: IDs of words of the query, or such words. -/
theorem mem_resolved {word : RocksDB} {q : List Str} {k : Str} (hk : k ∈ resolved word q) :
    (∃ w ∈ q, word[w]? = some k) ∨ k ∈ q := by
  induction q using resolved.induct word with
  | case1 => cases hk
  | case2 t =>
    rw [resolved, Option.mem_toList] at hk
    exact Or.inl ⟨t, by simp, hk⟩
  | case3 t t' ts wID ht ih =>
    rw [resolved, ht] at hk
    rcases List.mem_cons.mp hk with rfl | hk
    · exact Or.inl ⟨t, by simp, ht⟩
    · rcases ih hk with ⟨w, hw, hid⟩ | hmem
      · exact Or.inl ⟨w, List.mem_cons_of_mem t hw, hid⟩
      · exact Or.inr (List.mem_cons_of_mem t hmem)
  | case4 t t' ts ht ih =>
    rw [resolved, ht] at hk
    rcases List.mem_cons.mp hk with rfl | hk
    · exact Or.inr (by simp)
    · rcases ih hk with ⟨w, hw, hid⟩ | hmem
      · exact Or.inl ⟨w, by simp [hw], hid⟩
      · exact Or.inr (by simp [hmem])

/-- Postings under a key stem from a page with its word. -/
theorem Sourced.page_of_touches {run : List Attempt} (hs : Sourced E run s) {d k : Str}
    (htouch : Touches (s .titleInverted) (s .contentInverted) d k) :
    ∃ a ∈ run, ∃ c ∈ a.call.inverted, (s .document)[c.url]? = some d ∧
      ∃ w ∈ allWords E c, (s .word)[w]? = some k := by
  have hgroup : ∃ f : Field, ∃ g ∈ groupsAt (s f.db) k, g.doc = d := by
    rcases htouch with hne | hne
    · obtain ⟨g, hg⟩ := List.exists_mem_of_ne_nil _ hne
      exact ⟨.title, g, (List.mem_filter.mp hg).1, by simpa using (List.mem_filter.mp hg).2⟩
    · obtain ⟨g, hg⟩ := List.exists_mem_of_ne_nil _ hne
      exact ⟨.content, g, (List.mem_filter.mp hg).1, by simpa using (List.mem_filter.mp hg).2⟩
  obtain ⟨f, g, hg, rfl⟩ := hgroup
  obtain ⟨a, ha, c, hc, w, hw, hd, hwk⟩ := hs.postings f k g hg
  exact ⟨a, ha, c, hc, hd, w, mem_allWords.mpr ⟨f, hw⟩, hwk⟩

/-- A page with postings under one of the keys is a page with a word of the query. -/
theorem Sourced.touched {run : List Attempt} (hs : Sourced E run s) {q : List Str} {d k : Str}
    (hk : k ∈ resolved (s .word) q)
    (htouch : Touches (s .titleInverted) (s .contentInverted) d k) :
    ∃ a ∈ run, ∃ c ∈ a.call.inverted, (s .document)[c.url]? = some d ∧
      ∃ w ∈ allWords E c, w ∈ q ∨ ∃ k ∈ q, (s .word)[w]? = some k := by
  obtain ⟨a, ha, c, hc, hd, w, hw, hwk⟩ := hs.page_of_touches htouch
  refine ⟨a, ha, c, hc, hd, w, hw, ?_⟩
  rcases mem_resolved hk with ⟨w', hw', hid⟩ | hraw
  · obtain rfl : w' = w := (hs.ok.tables .word).1.injective hid hwk
    exact Or.inl hw'
  · exact Or.inr ⟨k, hraw, hwk⟩

/-- A page with a numerator was indexed with a word of the query. -/
theorem Sourced.matches_of_numerator {run : List Attempt} (hs : Sourced E run s) {q : List Str}
    (hq : ∀ w ∈ q, w ∈ s .word) {u : Numerators}
    (hu : accumulate (s .titleInverted) (s .contentInverted) (q.map (wordIDOf s)) = .ok u)
    {d : Str} {n : Int} (hn : u[d]? = some n) :
    ∃ c ∈ run.flatMap (·.call.inverted), (s .document)[c.url]? = some d ∧ Matches E c q := by
  obtain ⟨k, hk, htouch⟩ := (accumulate_some_iff (hs.ok.spelled .title) (hs.ok.spelled .content)
    hu d).mp ⟨n, hn⟩
  obtain ⟨w, hw, rfl⟩ := List.mem_map.mp hk
  obtain ⟨a, ha, c, hc, hd, w', hw', hid⟩ := hs.page_of_touches htouch
  obtain rfl : w' = w := (hs.ok.tables .word).1.injective hid (wordIDOf_eq (hq w hw))
  exact ⟨c, List.mem_flatMap.mpr ⟨a, ha, hc⟩, hd, w', hw, hw'⟩

/-- **A search makes nothing up.**  After any run from empty stores, whatever was re-indexed and
    whichever `put`s failed: every page that `getPages` finds has a score above the threshold, and
    belongs to a page that a call of the run put into the inverted indexes, at the time with a word
    in its title or content that is a word of the query, or whose ID is spelled by one. -/
theorem search_sound (E : Platform) (run : List Attempt) (query : Str) (q : List Str)
    (hclean : StopWords.clean E (splitWs query) = .ok q) (thresh : Float)
    (res : List (Str × Float))
    (hres : getPages E (runAll E run Stores.empty) query thresh = .ok (some res)) :
    let s := runAll E run Stores.empty
    ∀ d x, (d, x) ∈ res → thresh < x ∧ ∃ a ∈ run, ∃ c ∈ a.call.inverted,
      (s .document)[c.url]? = some d ∧
      ∃ w ∈ allWords E c, w ∈ q ∨ ∃ k ∈ q, (s .word)[w]? = some k := by
  intro s d x hmem
  have hs : Sourced E run s := sourced_runAll E run
  rw [getPages_eq thresh hclean] at hres
  by_cases hunseen : unseen (s .word) q = true
  · rw [if_pos hunseen] at hres
    cases hres
  · rw [if_neg hunseen] at hres
    obtain ⟨u, hu, hres⟩ := except_bind_ok.mp hres
    obtain ⟨res', hscore, heq⟩ := except_bind_ok.mp hres
    obtain rfl : res' = res := Option.some.inj (Except.ok.inj heq)
    -- the page has a numerator, so it has a group under one of the keys
    rcases mem_foldlM_score u.toList hscore (d, x) hmem with hnil | ⟨hkey, habove⟩
    · cases hnil
    refine ⟨habove, ?_⟩
    obtain ⟨e, he, rfl⟩ := List.mem_map.mp hkey
    have hnum : ∃ n, u[e.1]? = some n :=
      ⟨e.2, Std.ExtTreeMap.mem_toList_iff_getElem?_eq_some.mp he⟩
    obtain ⟨k, hk, htouch⟩ := (cossimU_some_iff (hs.ok.spelled .title) (hs.ok.spelled .content)
      hu e.1).mp hnum
    exact hs.touched hk htouch

/-- The query `ab` on the two pages. -/
theorem sound_two_pages :
    let run : List Attempt :=
      [⟨.forwardIndexPages twoPages, []⟩, ⟨.invertedIndexPages twoPages, []⟩]
    ∃ res, getPages asciiPlatform (runAll asciiPlatform run Stores.empty) "ab".toList 0
        = .ok (some res) ∧ ∀ d x, (d, x) ∈ res → 0 < x := by
  intro run
  obtain ⟨hb, hf⟩ := built_and_forwarded (by decide) (Or.inl rfl) twoPages_indexed
  have hclean : StopWords.clean asciiPlatform (splitWs "ab".toList) = .ok ["ab".toList] :=
    StopWords.clean_ab 1
  obtain ⟨res, hres, -⟩ := hb.answer_of_words hf hclean 0 (by simp) twoPages_words
    twoPages_readable
  exact ⟨res, hres, fun d x hmem =>
    (search_sound asciiPlatform run "ab".toList _ hclean 0 res hres d x hmem).1⟩

/-- The words with an ID are those of the pages: both runs give IDs to no other word. -/
theorem mem_word_iff {ff fi : List Bool} {run : List Attempt}
    (horder : run = [⟨.forwardIndexPages crawlers, ff⟩, ⟨.invertedIndexPages crawlers, fi⟩] ∨
      run = [⟨.invertedIndexPages crawlers, fi⟩, ⟨.forwardIndexPages crawlers, ff⟩])
    (hb : Built E crawlers (runAll E run Stores.empty)) (w : Str) :
    w ∈ runAll E run Stores.empty .word ↔ w ∈ vocabulary E crawlers := by
  constructor
  · intro hw
    obtain ⟨id, hid⟩ := mem_iff_get.mp hw
    obtain ⟨a, ha, hmention⟩ := (sourced_runAll E run).tables .word w id hid
    have hcall : a.call = .forwardIndexPages crawlers ∨ a.call = .invertedIndexPages crawlers := by
      rcases horder with rfl | rfl <;> simp only [List.mem_cons, List.not_mem_nil, or_false] at ha
        <;> rcases ha with rfl | rfl <;> simp
    have hwords : w ∈ a.call.words E := hmention
    rcases hcall with hcall | hcall <;> rw [hcall] at hwords
    · obtain ⟨c, hc, hmem⟩ := List.mem_flatMap.mp hwords
      exact List.mem_flatMap.mpr ⟨c, hc, mem_allWords.mpr ⟨.content, hmem⟩⟩
    · exact hwords
  · intro hw
    obtain ⟨c, hc, hmem⟩ := List.mem_flatMap.mp hw
    exact hb.known_of_mem hc hmem

/-- **A search finds exactly the matching pages above the threshold.**  Index any pages with
    distinct URLs on empty stores, once by each indexer in either order.  For every query whose
    first word stands in some page, and of whose words only the last one may stand in none, such
    that the norms of the pages that match can be read back: `getPages` returns a table with one
    entry for each page that matches and whose score, its relevance as an `int` over the roots of
    its norm and of the number of words that stand in some page, is above the threshold; the entry
    is that score. -/
theorem search_exact (E : Platform) (crawlers : List Crawler)
    (hurls : (crawlers.map Crawler.url).Nodup) (ff fi : List Bool) (run : List Attempt)
    (horder : run = [⟨.forwardIndexPages crawlers, ff⟩, ⟨.invertedIndexPages crawlers, fi⟩] ∨
      run = [⟨.invertedIndexPages crawlers, fi⟩, ⟨.forwardIndexPages crawlers, ff⟩])
    (hret : NoneAborted E run Stores.empty) (query : Str) (q : List Str)
    (hclean : StopWords.clean E (splitWs query) = .ok q) (thresh : Float)
    (hfirst : ∃ w ∈ q.head?, w ∈ vocabulary E crawlers)
    (hrest : ∀ w ∈ q.dropLast, w ∈ vocabulary E crawlers)
    (hread : ∀ c ∈ crawlers, Matches E c q → NormReadable E c) :
    let s := runAll E run Stores.empty
    ∃ res, getPages E s query thresh = .ok (some res) ∧ (res.map Prod.fst).Nodup ∧
      ∀ d x, (d, x) ∈ res ↔ ∃ c ∈ crawlers, (s .document)[c.url]? = some d ∧ Matches E c q ∧
        x = score (wrap32 (relevance E c q)) (norm E c)
          (q.countP (fun w => decide (w ∈ vocabulary E crawlers))) ∧ thresh < x := by
  intro s
  obtain ⟨hb, hf⟩ : Built E crawlers s ∧ Forwarded E crawlers s :=
    built_and_forwarded hurls horder hret
  have hword : ∀ w, w ∈ s .word ↔ w ∈ vocabulary E crawlers := mem_word_iff horder hb
  have hlength : (known s q).length = q.countP (fun w => decide (w ∈ vocabulary E crawlers)) := by
    rw [known, ← List.countP_eq_length_filter]
    simp only [hword]
  obtain ⟨w, hw, hmem⟩ := hfirst
  have hanswer := hb.answer hf hclean thresh ⟨w, hw, (hword w).mpr hmem⟩
    (fun w' hw' => (hword w').mpr (hrest w' hw')) hread
  rw [hlength] at hanswer
  exact hanswer

/-- The query `ab` on the two pages that contain it. -/
theorem search_two_pages :
    let s := runAll asciiPlatform
      [⟨.forwardIndexPages twoPages, []⟩, ⟨.invertedIndexPages twoPages, []⟩] Stores.empty
    ∃ res, getPages asciiPlatform s "ab".toList 0 = .ok (some res) ∧
      (res.map Prod.fst).Nodup := by
  intro s
  obtain ⟨res, hrun, hnodup, -⟩ := search_exact asciiPlatform twoPages (by decide) [] [] _
    (Or.inl rfl) twoPages_indexed "ab".toList ["ab".toList] (StopWords.clean_ab 1) 0
    ⟨_, rfl, twoPages_words _ (List.mem_singleton_self _)⟩ (by simp) twoPages_readable
  exact ⟨res, hrun, hnodup⟩

/-- **What is found does not depend on any order.**  Index the same pages, with distinct URLs, in
    two orders and with the two indexers run in either order, and ask two queries with the same
    words in different orders, all of them words of some page, such that the norms of the pages that
    match can be read back: the answers give the same score to the same URLs. -/
theorem search_order_independent (E : Platform) (crawlers crawlers' : List Crawler)
    (hperm : crawlers'.Perm crawlers) (hurls : (crawlers.map Crawler.url).Nodup)
    (ff fi ff' fi' : List Bool) (run run' : List Attempt)
    (horder : run = [⟨.forwardIndexPages crawlers, ff⟩, ⟨.invertedIndexPages crawlers, fi⟩] ∨
      run = [⟨.invertedIndexPages crawlers, fi⟩, ⟨.forwardIndexPages crawlers, ff⟩])
    (horder' : run' = [⟨.forwardIndexPages crawlers', ff'⟩, ⟨.invertedIndexPages crawlers', fi'⟩] ∨
      run' = [⟨.invertedIndexPages crawlers', fi'⟩, ⟨.forwardIndexPages crawlers', ff'⟩])
    (hret : NoneAborted E run Stores.empty) (hret' : NoneAborted E run' Stores.empty)
    (query query' : Str) (q q' : List Str) (hclean : StopWords.clean E (splitWs query) = .ok q)
    (hclean' : StopWords.clean E (splitWs query') = .ok q') (hq : q'.Perm q) (hne : q ≠ [])
    (hwords : ∀ w ∈ q, w ∈ vocabulary E crawlers)
    (hread : ∀ c ∈ crawlers, Matches E c q → NormReadable E c) (thresh : Float) :
    ∃ res res', getPages E (runAll E run Stores.empty) query thresh = .ok (some res) ∧
      getPages E (runAll E run' Stores.empty) query' thresh = .ok (some res') ∧
      ∀ (url : Str) (x : Float),
        (∃ d, (runAll E run Stores.empty .document)[url]? = some d ∧ (d, x) ∈ res) ↔
        ∃ d, (runAll E run' Stores.empty .document)[url]? = some d ∧ (d, x) ∈ res' := by
  have hurls' : (crawlers'.map Crawler.url).Nodup := (hperm.map _).nodup_iff.mpr hurls
  obtain ⟨hb, hf⟩ := built_and_forwarded hurls horder hret
  obtain ⟨hb', hf'⟩ := built_and_forwarded hurls' horder' hret'
  have hmatch : ∀ c, Matches E c q' ↔ Matches E c q := by
    intro c
    exact exists_congr (fun w => and_congr_left (fun _ => hq.mem_iff))
  have hrelevance : ∀ c, relevance E c q' = relevance E c q := fun c => (hq.map _).sum_eq
  have hwords' : ∀ w ∈ q', w ∈ vocabulary E crawlers' := by
    intro w hw
    obtain ⟨c, hc, hmem⟩ := List.mem_flatMap.mp (hwords w (hq.mem_iff.mp hw))
    exact List.mem_flatMap.mpr ⟨c, hperm.mem_iff.mpr hc, hmem⟩
  have hne' : q' ≠ [] := fun hnil => hne (List.Perm.eq_nil (hnil ▸ hq.symm))
  obtain ⟨res, hrun, -, hres⟩ := hb.answer_of_words hf hclean thresh hne hwords hread
  obtain ⟨res', hrun', -, hres'⟩ := hb'.answer_of_words hf' hclean' thresh hne' hwords'
    (fun c hc hm => hread c (hperm.mem_iff.mp hc) ((hmatch c).mp hm))
  refine ⟨res, res', hrun, hrun', fun url x => ?_⟩
  rw [hb.found_iff hres, hb'.found_iff hres']
  refine exists_congr (fun c => ?_)
  rw [hperm.mem_iff, hmatch, hrelevance, hq.length_eq]

/-- Nothing fails either when the pages and the indexers change places. -/
theorem twoPages_reverse_indexed :
    NoneAborted asciiPlatform [⟨.invertedIndexPages twoPages.reverse, []⟩,
      ⟨.forwardIndexPages twoPages.reverse, []⟩] Stores.empty := by
  have hinverted : Runs NoFaults (InvertedIndexer.indexPages asciiPlatform twoPages.reverse) :=
    indexPages_runs (fun c hc f => tokens_twoPages c (List.mem_reverse.mp hc) f)
  have hforward : Runs NoFaults (ForwardIndexer.indexPages asciiPlatform twoPages.reverse) := by
    refine Runs.foldlM twoPages.reverse () (fun _ c hc => ?_)
    rcases List.mem_pair.mp (List.mem_reverse.mp hc) with rfl | rfl
    · exact ForwardIndexer.addEntry_runs (StopWords.clean_ab 2) _ _ _ _ _
    · exact ForwardIndexer.addEntry_runs (StopWords.clean_ab 1) _ _ _ _ _
  exact ⟨returns_of_runs (.invertedIndexPages _) hinverted _,
    returns_of_runs (.forwardIndexPages _) hforward _, trivial⟩

/-- The two pages in both orders, and the two indexers too. -/
theorem search_two_pages_reversed :
    ∃ res res',
      getPages asciiPlatform (runAll asciiPlatform [⟨.forwardIndexPages twoPages, []⟩,
        ⟨.invertedIndexPages twoPages, []⟩] Stores.empty) "ab".toList 0 = .ok (some res) ∧
      getPages asciiPlatform (runAll asciiPlatform [⟨.invertedIndexPages twoPages.reverse, []⟩,
        ⟨.forwardIndexPages twoPages.reverse, []⟩] Stores.empty) "ab".toList 0
        = .ok (some res') := by
  obtain ⟨res, res', hrun, hrun', -⟩ := search_order_independent asciiPlatform twoPages
    twoPages.reverse (List.reverse_perm _) (by decide) [] [] [] [] _ _ (Or.inl rfl) (Or.inr rfl)
    twoPages_indexed twoPages_reverse_indexed "ab".toList "ab".toList _ _ (StopWords.clean_ab 1)
    (StopWords.clean_ab 1) (List.Perm.refl _) (by simp) twoPages_words twoPages_readable 0
  exact ⟨res, res', hrun, hrun'⟩

/-! ## When a search throws -/

/-- The loop throws what reading one of the norms throws. -/
theorem foldlM_score_error {forwardIndex : RocksDB} {qSize : Nat} {thresh : Float} {x : Exn} :
    ∀ (es : List (Str × Int)) {cossim : List (Str × Float)},
      (es.foldlM (fun cossim e => do
        let freq ← freqSq forwardIndex e.1
        let res := score e.2 freq qSize
        pure (if thresh < res then cossim ++ [(e.1, res)] else cossim)) cossim : Except Exn _)
        = .error x →
      ∃ e ∈ es, freqSq forwardIndex e.1 = .error x
  | [], cossim, h => by cases h
  | e :: es, cossim, h => by
    rw [List.foldlM_cons] at h
    cases hfreq : freqSq forwardIndex e.1 with
    | error x' =>
      rw [hfreq] at h
      obtain rfl : x' = x := Except.error.inj h
      exact ⟨e, List.mem_cons_self, hfreq⟩
    | ok freq =>
      rw [hfreq] at h
      obtain ⟨e', he', hread⟩ := foldlM_score_error es h
      exact ⟨e', List.mem_cons_of_mem e he', hread⟩

/-- A norm cannot be read where there is no record, or none with a number in its place. -/
theorem freqSq_error {forwardIndex : RocksDB} {d : Str} {x : Exn}
    (h : freqSq forwardIndex d = .error x) :
    (x = .nullPointer ∧ forwardIndex[d]? = none) ∨
      (x ≠ .nullPointer ∧ ∃ v, forwardIndex[d]? = some v) := by
  unfold freqSq at h
  cases hv : forwardIndex[d]? with
  | none =>
    rw [hv] at h
    exact Or.inl ⟨(Except.error.inj h).symm, rfl⟩
  | some v =>
    refine Or.inr ⟨?_, v, rfl⟩
    rintro rfl
    rw [hv] at h
    dsimp only [vectorGet] at h
    cases hfield : (splitOn ForwardIndexer.sep v)[5]? with
    | none =>
      rw [hfield] at h
      cases h
    | some field =>
      rw [hfield, except_ok_bind] at h
      cases hint : parseInt field with
      | none =>
        rw [hint] at h
        cases h
      | some n =>
        rw [hint] at h
        cases h

/-- **Which page is to blame when a search throws.**  After any run from empty stores, whatever was
    re-indexed and whichever `put`s failed, let `getPages` throw on a query whose words can be
    cleaned.  Then there is a page that a call put into the inverted indexes, with a word that is a
    word of the query or whose ID is spelled by one, such that: it is a `NullPointerException`, and
    no call that returned put a page of this URL into the forward index; or it is another one, and
    the record of a page of this URL has no number for its norm. -/
theorem search_throws (E : Platform) (run : List Attempt) (query : Str) (q : List Str)
    (hclean : StopWords.clean E (splitWs query) = .ok q) (thresh : Float) (x : Exn)
    (hthrow : getPages E (runAll E run Stores.empty) query thresh = .error x) :
    let s := runAll E run Stores.empty
    ∃ a ∈ run, ∃ c ∈ a.call.inverted, ∃ d : Str, (s .document)[c.url]? = some d ∧
      (∃ w ∈ allWords E c, w ∈ q ∨ ∃ k ∈ q, (s .word)[w]? = some k) ∧
      ((x = .nullPointer ∧ ∀ (earlier later : List Attempt) (b : Attempt),
          run = earlier ++ b :: later →
          returns (b.outcome E (runAll E earlier Stores.empty)) = true →
          ∀ c' ∈ b.call.forwarded, c'.url ≠ c.url) ∨
        (x ≠ .nullPointer ∧ ∃ b ∈ run, ∃ c' ∈ b.call.forwarded, c'.url = c.url ∧
          Recorded E c' d s ∧ freqSq (s .forwardIndex) d = .error x)) := by
  intro s
  have hs : Sourced E run s := sourced_runAll E run
  have hspelled : Spelled (s .titleInverted) := hs.ok.spelled .title
  have hspelled' : Spelled (s .contentInverted) := hs.ok.spelled .content
  obtain ⟨v, hv, -⟩ := accumulate_eq hspelled hspelled' (resolved (s .word) q)
  obtain ⟨u, hu⟩ : ∃ u, cossimU (s .titleInverted) (s .contentInverted)
      (resolved (s .word) q) = .ok u := ⟨_, cossimU_of_accumulate hv⟩
  rw [getPages_eq thresh hclean] at hthrow
  by_cases hunseen : unseen (s .word) q = true
  · rw [if_pos hunseen] at hthrow
    cases hthrow
  · rw [if_neg hunseen, hu, except_ok_bind] at hthrow
    have hscore : scorePages (s .forwardIndex) (resolved (s .word) q).length thresh u
        = .error x := by
      cases hpages : scorePages (s .forwardIndex) (resolved (s .word) q).length thresh u with
      | ok cossim =>
        rw [hpages] at hthrow
        cases hthrow
      | error x' =>
        rw [hpages] at hthrow
        exact congrArg Except.error (Except.error.inj hthrow)
    -- the page whose norm could not be read was found by the query
    obtain ⟨e, he, hfreq⟩ := foldlM_score_error u.toList hscore
    obtain ⟨k, hk, htouch⟩ := (cossimU_some_iff hspelled hspelled' hu e.1).mp
      ⟨e.2, Std.ExtTreeMap.mem_toList_iff_getElem?_eq_some.mp he⟩
    obtain ⟨a, ha, c, hc, hd, hword⟩ := hs.touched hk htouch
    refine ⟨a, ha, c, hc, e.1, hd, hword, ?_⟩
    rcases freqSq_error hfreq with ⟨rfl, hnone⟩ | ⟨hne, v, hv⟩
    · refine Or.inl ⟨rfl, fun earlier later b hrun hret c' hc' hurl => ?_⟩
      have hentered : Entered E b.call s := by
        show Entered E b.call (runAll E run Stores.empty)
        rw [hrun]
        exact entered_runAll E earlier later b hret
      obtain ⟨p, hp, hmem⟩ := hentered.records c' hc'
      rw [hurl, hd] at hp
      obtain ⟨v, hv⟩ := mem_iff_get.mp hmem
      rw [← Option.some.inj hp, hnone] at hv
      cases hv
    · obtain ⟨b, hb, c', hc', hd', hrecorded⟩ := hs.records e.1 v hv
      have hurl : c'.url = c.url := (hs.ok.tables .page).1.injective hd' hd
      exact Or.inr ⟨hne, b, hb, c', hc', hurl, hrecorded, hfreq⟩

/-- Without any record, the first page found makes the loop throw. -/
theorem scorePages_of_no_record {forwardIndex : RocksDB}
    (hnone : ∀ d : Str, forwardIndex[d]? = none) (qSize : Nat) (thresh : Float)
    {u : Numerators} {d : Str} {n : Int} (hd : u[d]? = some n) :
    scorePages forwardIndex qSize thresh u = .error .nullPointer := by
  have hmem : (d, n) ∈ u.toList := Std.ExtTreeMap.mem_toList_iff_getElem?_eq_some.mpr hd
  unfold scorePages
  cases hlist : u.toList with
  | nil =>
    rw [hlist] at hmem
    cases hmem
  | cons e es =>
    have hfreq : freqSq forwardIndex e.1 = .error .nullPointer := by
      rw [freqSq, hnone]
    rw [List.foldlM_cons, hfreq]
    rfl

/-- Two pages that are in the inverted indexes only. -/
theorem unforwarded_pages_throw :
    let run : List Attempt := [⟨.invertedIndexPages twoPages, []⟩]
    let s := runAll asciiPlatform run Stores.empty
    getPages asciiPlatform s "ab".toList 0 = .error .nullPointer ∧
      ∃ c ∈ twoPages, ∃ d : Str, (s .document)[c.url]? = some d := by
  intro run s
  have hclean : StopWords.clean asciiPlatform (splitWs "ab".toList) = .ok ["ab".toList] :=
    StopWords.clean_ab 1
  have hb : Built asciiPlatform twoPages s :=
    built_fresh freshStart_empty (by decide) (twoPages_returns Stores.empty)
  obtain ⟨c, hc, hmem⟩ := List.mem_flatMap.mp
    (twoPages_words "ab".toList (List.mem_singleton_self _))
  obtain ⟨i, hi⟩ := List.mem_iff_getElem?.mp hc
  have hd := hb.ids i c hi
  have hknown := hb.known_of_mem hc hmem
  obtain ⟨k, hk⟩ := mem_iff_get.mp hknown
  have hid : wordIDOf s "ab".toList = k := by
    rw [wordIDOf, hk]
    rfl
  have hresolved : resolved (s .word) ["ab".toList] = ["ab".toList].map (wordIDOf s) := by
    rw [resolved, hk, List.map_singleton, hid]
    rfl
  have hthrow : getPages asciiPlatform s "ab".toList 0 = .error .nullPointer := by
    have hspelled : Spelled (s .titleInverted) := hb.ok.spelled .title
    have hspelled' : Spelled (s .contentInverted) := hb.ok.spelled .content
    have hseen : unseen (s .word) ["ab".toList] = false := by
      rw [unseen, hk]
      rfl
    obtain ⟨u, hu, -⟩ := accumulate_eq hspelled hspelled' (["ab".toList].map (wordIDOf s))
    have hnum := (hb.numerator_iff (fun w hw => by rwa [List.mem_singleton.mp hw]) hu _ _).mpr
      ⟨c, hc, hd, ⟨_, List.mem_singleton_self _, hmem⟩, rfl⟩
    have hentry : ∃ n, (wrapped u)[decimal (i + 1)]? = some n :=
      ⟨_, by rw [get_wrapped, hnum]; rfl⟩
    obtain ⟨n, hn⟩ := hentry
    have hnone : ∀ d : Str, (s .forwardIndex)[d]? = none := by
      intro d
      cases hv : (s .forwardIndex)[d]? with
      | none => rfl
      | some v =>
        obtain ⟨a, ha, c', hc', -⟩ := (sourced_runAll asciiPlatform run).records d v hv
        rw [List.mem_singleton.mp ha] at hc'
        cases hc'
    rw [getPages_eq 0 hclean, hseen, if_neg Bool.false_ne_true, hresolved,
      cossimU_of_accumulate hu, except_ok_bind, scorePages_of_no_record hnone _ _ hn]
    rfl
  refine ⟨hthrow, ?_⟩
  obtain ⟨a, ha, c', hc', d, hd', -⟩ := search_throws asciiPlatform run "ab".toList _ hclean 0
    .nullPointer hthrow
  rw [List.mem_singleton.mp ha] at hc'
  exact ⟨c', hc', d, hd'⟩

end SearchEngine
