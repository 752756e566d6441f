/-
  A whole batch: `InvertedIndexer.index_pages` on fresh stores, and run a second time.

  On fresh stores the pages get their IDs in ascending order, and a numeral that is a prefix of
  another denotes a smaller number.  So no stored ID ever extends the one being searched for,
  every posting is appended, and the index comes out EXACT (`Built`).  The source never states
  this argument; it is `Indexed.snoc`.

  On a second run the argument is gone: page 1 finds `doc10`.  `Built.again` says when a page
  is re-indexed without damage — it shares no word with a page whose ID extends its own — and
  `not_exact_again` that otherwise its positions are wrong for good.
-/
import SearchEngine.Reindexing
import Mathlib.Tactic.Common

namespace SearchEngine

open Text Numeral Postings InvertedIndexer NumberedMap Effect

/-! ## The IDs of a list of pages -/

theorem getElem?_snoc_cases {α : Type} {l : List α} {a b : α} {i : Nat}
    (h : (l ++ [a])[i]? = some b) :
    (i < l.length ∧ l[i]? = some b) ∨ (i = l.length ∧ b = a) := by
  by_cases hlt : i < l.length
  · rw [List.getElem?_append_left hlt] at h
    exact Or.inl ⟨hlt, h⟩
  · rw [List.getElem?_append_right (by omega)] at h
    obtain ⟨hi, hb⟩ := List.getElem?_eq_some_iff.mp h
    simp only [List.length_singleton] at hi
    exact Or.inr ⟨by omega, by simpa using hb.symm⟩

/-- Every page is known under the ID of its place. -/
def Known (crawlers : List Crawler) (s : Stores) : Prop :=
  ∀ i c, crawlers[i]? = some c → (s .document)[c.url]? = some (decimal (i + 1))

namespace Known

variable {crawlers : List Crawler} {i : Nat} {c : Crawler} {s s' : Stores}

theorem pageIDOf (h : Known crawlers s) (hi : crawlers[i]? = some c) :
    pageIDOf s c.url = decimal (i + 1) := by
  rw [SearchEngine.pageIDOf, h i c hi]

/-- A known page is not given an ID again. -/
theorem document (h : Known crawlers s) (hi : crawlers[i]? = some c)
    (hdoc : s' .document = s.issue .page c.url .document) : s' .document = s .document := by
  rw [hdoc, Stores.issue_of_some (t := .page) (h i c hi)]

theorem again (h : Known crawlers s) (hi : crawlers[i]? = some c)
    (hdoc : s' .document = s.issue .page c.url .document) : Known crawlers s' := by
  intro j c' hj
  rw [h.document hi hdoc]
  exact h j c' hj

end Known

/-- Page `i` of the list has the ID `i + 1`, and no other page has one. -/
structure PagesNumbered (crawlers : List Crawler) (s : Stores) : Prop where
  table : TableOk .page s
  size : (s .document).size = crawlers.length
  ids : Known crawlers s

namespace PagesNumbered

variable {crawlers done : List Crawler} {c : Crawler} {s s' : Stores}

/-- Every issued page ID belongs to a page of the list. -/
theorem page_of_issued (h : PagesNumbered crawlers s) {url id : Str}
    (hid : (s .document)[url]? = some id) :
    ∃ i c, crawlers[i]? = some c ∧ id = decimal (i + 1) ∧ c.url = url := by
  obtain ⟨n, h1, hn, rfl⟩ := h.table.1.bounded hid
  have hn' : n ≤ crawlers.length := by
    rw [← h.size]
    exact hn
  have hlt : n - 1 < crawlers.length := by omega
  have hsucc : n - 1 + 1 = n := by omega
  have hget : crawlers[n - 1]? = some crawlers[n - 1] := List.getElem?_eq_getElem hlt
  refine ⟨n - 1, crawlers[n - 1], hget, by rw [hsucc], ?_⟩
  have hids := h.ids _ _ hget
  rw [hsucc] at hids
  exact h.table.1.injective hids hid

/-- The URL of a page yet to come has no ID, and it will get the next one. -/
theorem next_id (h : PagesNumbered done s) (hnew : c.url ∉ done.map Crawler.url) :
    (s .document)[c.url]? = none ∧ pageIDOf s c.url = decimal (done.length + 1) := by
  have hnone : (s .document)[c.url]? = none := by
    cases hurl : (s .document)[c.url]? with
    | none => rfl
    | some id =>
      obtain ⟨i, c', hi, -, hc'⟩ := h.page_of_issued hurl
      exact absurd (List.mem_map.mpr ⟨c', List.mem_of_getElem? hi, hc'⟩) hnew
  exact ⟨hnone, by rw [pageIDOf, hnone, ← h.size]⟩

/-- A new page is numbered behind the others. -/
theorem snoc (h : PagesNumbered done s) (hnew : c.url ∉ done.map Crawler.url)
    (htable : TableOk .page s') (hdoc : s' .document = s.issue .page c.url .document) :
    PagesNumbered (done ++ [c]) s' := by
  obtain ⟨hnone, hp⟩ := h.next_id hnew
  refine ⟨htable, ?_, fun i c' hi => ?_⟩
  · rw [hdoc, Stores.issue_of_none (t := .page) hnone, List.length_append, ← h.size]
    exact Stores.size_issueBoth (t := .page) hnone
  · rw [hdoc]
    rcases getElem?_snoc_cases hi with ⟨-, hi⟩ | ⟨rfl, rfl⟩
    · exact Stores.issue_mono s .page .page (h.ids i c' hi)
    · rw [← hp]
      exact get_issue_page s c'.url

/-- A page of the list gets no second number. -/
theorem again (h : PagesNumbered crawlers s) {i : Nat} (hi : crawlers[i]? = some c)
    (htable : TableOk .page s') (hdoc : s' .document = s.issue .page c.url .document) :
    PagesNumbered crawlers s' :=
  ⟨htable, by rw [h.ids.document hi hdoc]; exact h.size, h.ids.again hi hdoc⟩

end PagesNumbered

/-! ## The index of a list of pages -/

/-- The stores hold exactly the index of the pages: page `i` has the ID `i + 1`, and for every
    word the positions it has in its tokens. -/
structure Built (E : Platform) (crawlers : List Crawler) (s : Stores) : Prop where
  ok : IndexOk s
  size : (s .document).size = crawlers.length
  ids : ∀ i c, crawlers[i]? = some c → (s .document)[c.url]? = some (decimal (i + 1))
  tokens : ∀ c ∈ crawlers, ∀ f : Field, ∃ toks, f.tokens E c = .ok toks
  issued : ∀ c ∈ crawlers, ∀ (f : Field) toks, f.tokens E c = .ok toks → ∀ w ∈ toks,
    ∃ k : Str, (s .word)[w]? = some k
  exact : ∀ i c, crawlers[i]? = some c → ∀ (f : Field) toks, f.tokens E c = .ok toks →
    ∀ w, Exact (decimal (i + 1)) ((positions 0 w toks).map decimal) (postings f s w)

namespace Built

variable {E : Platform} {crawlers : List Crawler} {s : Stores}

theorem numbered (h : Built E crawlers s) : PagesNumbered crawlers s :=
  ⟨h.ok.tables .page, h.size, h.ids⟩

/-- Every group belongs to a page of the list that has the word. -/
theorem page_of_group (h : Built E crawlers s) {f : Field} {w : Str} {g : DocGroup Char}
    (hg : g ∈ postings f s w) :
    ∃ i c, crawlers[i]? = some c ∧ g.doc = decimal (i + 1) ∧
      ∃ toks, f.tokens E c = .ok toks ∧ w ∈ toks := by
  obtain ⟨url, hurl⟩ := (h.ok.postings_ok f w).2.2 g hg
  obtain ⟨i, c, hi, hdoc, -⟩ := h.numbered.page_of_issued hurl
  obtain ⟨toks, htoks⟩ := h.tokens c (List.mem_of_getElem? hi) f
  refine ⟨i, c, hi, hdoc, toks, htoks, ?_⟩
  by_contra hw
  have hexact := h.exact i c hi f toks htoks w
  rw [positions_eq_nil.mpr hw, List.map_nil, exact_nil_iff] at hexact
  exact hexact g hg hdoc

/-- A page has a group in the value of each of its words. -/
theorem group_of_mem (h : Built E crawlers s) {i : Nat} {c : Crawler}
    (hi : crawlers[i]? = some c) {f : Field} {toks : List Str} (htoks : f.tokens E c = .ok toks)
    {w : Str} (hw : w ∈ toks) : ∃ g, groupsOf (decimal (i + 1)) (postings f s w) = [g] := by
  have hexact := h.exact i c hi f toks htoks w
  obtain ⟨q, qs, hpos⟩ := positions_of_mem hw
  rw [hpos, Exact, if_neg (by simp)] at hexact
  obtain ⟨ps, hps, -⟩ := hexact
  exact ⟨_, hps⟩

end Built

theorem exact_congr {p : Str} {qs : List Str} {gs gs' : List (DocGroup Char)}
    (h : groupsOf p gs = groupsOf p gs') : Exact p qs gs ↔ Exact p qs gs' := by
  rw [Exact, Exact, h]

/-! ## The first run -/

/-- What the batch starts from: no page has an ID, nothing is indexed, and the words that have
    IDs are numbered `1 … k` in both directions. -/
structure FreshStart (s : Stores) : Prop where
  document : s .document = ∅
  invertedDocument : s .invertedDocument = ∅
  titleInverted : s .titleInverted = ∅
  contentInverted : s .contentInverted = ∅
  word : TableExact .word s

theorem freshStart_empty : FreshStart Stores.empty :=
  ⟨rfl, rfl, rfl, rfl, tableExact_empty .word⟩

theorem built_nil (E : Platform) {s : Stores} (h : FreshStart s) : Built E [] s := by
  have hdb : ∀ f : Field, s f.db = ∅ := by
    intro f
    cases f with
    | title => exact h.titleInverted
    | content => exact h.contentInverted
  have hpage : TableOk .page s := by
    refine ⟨?_, ?_⟩
    · show Numbered decimal (s .document)
      rw [h.document]
      exact numbered_empty decimal
    · intro v k hk
      rw [show s Table.page.inv = ∅ from h.invertedDocument, Std.ExtTreeMap.getElem?_empty] at hk
      exact absurd hk (by simp)
  refine ⟨⟨fun t => ?_, fun f k v hv => ?_⟩, ?_, ?_, ?_, ?_, ?_⟩
  · cases t with
    | page => exact hpage
    | word => exact h.word.ok
  · rw [hdb f, Std.ExtTreeMap.getElem?_empty] at hv
    exact absurd hv (by simp)
  · rw [h.document]
    rfl
  · exact fun i c hi => absurd hi (by simp)
  · exact fun c hc => absurd hc (by simp)
  · exact fun c hc => absurd hc (by simp)
  · exact fun i c hi => absurd hi (by simp)

/-- Without a hit, every other ID keeps its groups, and the page gets exactly its positions. -/
theorem reindexed_of_no_hit {f : Field} {s : Stores} {p : Str} {toks : List Str}
    (hs : IndexOk s) (hno : ∀ w, ∀ g ∈ postings f s w, hit p g = false) (w : Str) :
    (∀ d, d ≠ p → groupsOf d (reindexed f s p toks w) = groupsOf d (postings f s w)) ∧
    Exact p ((positions 0 w toks).map decimal) (reindexed f s p toks w) := by
  have hhead : headHit f s p toks = false := by
    unfold headHit headHits
    split
    · rfl
    · exact any_hit_of_none (hno _)
  by_cases hw : w ∈ toks
  · obtain ⟨q, qs, hpos⟩ := positions_of_mem hw
    obtain ⟨hord, hfilled, -⟩ := hs.postings_ok f w
    rw [reindexed, hpos, hhead, refresh_exact_iff hfilled]
    refine ⟨fun d hd => ?_, hits_eq_zero.mpr (hno w)⟩
    refine (refresh_keeps_iff hord false q qs).mpr (Or.inl ?_) d hd
    exact fun g hg hpre => absurd hpre (not_prefix_of_hit_false (hno w g hg))
  · rw [reindexed_of_not_mem hw, positions_eq_nil.mpr hw, List.map_nil, exact_nil_iff]
    refine ⟨fun d _ => rfl, fun g hg hdoc => ?_⟩
    have hown := hit_own hdoc
    rw [hno w g hg] at hown
    exact Bool.noConfusion hown

/-- The first pages of a list are indexed exactly, and no other page is.  This leaves open which
    pages have IDs: all of the list may have theirs before the first is indexed. -/
structure Indexed (E : Platform) (done : List Crawler) (s : Stores) : Prop where
  ok : IndexOk s
  tokens : ∀ c ∈ done, ∀ f : Field, ∃ toks, f.tokens E c = .ok toks
  issued : ∀ c ∈ done, ∀ (f : Field) toks, f.tokens E c = .ok toks → ∀ w ∈ toks,
    ∃ k : Str, (s .word)[w]? = some k
  exact : ∀ i c, done[i]? = some c → ∀ (f : Field) toks, f.tokens E c = .ok toks →
    ∀ w, Exact (decimal (i + 1)) ((positions 0 w toks).map decimal) (postings f s w)
  bound : ∀ f w, ∀ g ∈ postings f s w, ∃ i, i < done.length ∧ g.doc = decimal (i + 1)

theorem Built.indexed {E : Platform} {crawlers : List Crawler} {s : Stores}
    (h : Built E crawlers s) : Indexed E crawlers s := by
  refine ⟨h.ok, h.tokens, h.issued, h.exact, fun f w g hg => ?_⟩
  obtain ⟨i, c, hi, hdoc, -⟩ := h.page_of_group hg
  exact ⟨i, (List.getElem?_eq_some_iff.mp hi).1, hdoc⟩

namespace Indexed

variable {E : Platform} {done : List Crawler} {c : Crawler} {toks : Field → List Str}
  {s s' : Stores}

theorem built (h : Indexed E done s) (hn : PagesNumbered done s) : Built E done s :=
  ⟨h.ok, hn.size, hn.ids, h.tokens, h.issued, h.exact⟩

/-- The next ID opens no ID in use: it denotes a larger number than all of them. -/
theorem no_hit (h : Indexed E done s) (f : Field) (w : Str) :
    ∀ g ∈ postings f s w, hit (decimal (done.length + 1)) g = false := by
  intro g hg
  obtain ⟨i, hlt, hdoc⟩ := h.bound f w g hg
  cases hhit : hit (decimal (done.length + 1)) g with
  | false => rfl
  | true =>
    have hpre := hit_iff.mp hhit
    rw [hdoc] at hpre
    have hle := decimal_prefix_le hpre
    omega

/-- **The next page is added exactly**: its ID is larger than all in use, so no group is found,
    nothing is removed, and every posting is appended. -/
theorem snoc (h : Indexed E done s) (hp : pageIDOf s c.url = decimal (done.length + 1))
    (hadd : EntryAdded E c toks s s') : Indexed E (done ++ [c]) s' := by
  have hstep : ∀ f w, (∀ d, d ≠ decimal (done.length + 1) →
        groupsOf d (postings f s' w) = groupsOf d (postings f s w)) ∧
      Exact (decimal (done.length + 1)) ((positions 0 w (toks f)).map decimal)
        (postings f s' w) := by
    intro f w
    rw [hadd.postings, hp]
    exact reindexed_of_no_hit h.ok (h.no_hit f) w
  have htok : ∀ f toks', f.tokens E c = .ok toks' → toks' = toks f :=
    fun f toks' ht => Except.ok.inj (ht.symm.trans (hadd.tokens f))
  refine ⟨hadd.ok, fun c' hc' f => ?_, fun c' hc' f toks' ht w hw => ?_,
    fun i c' hi f toks' ht w => ?_, fun f w g hg => ?_⟩
  · rcases List.mem_append.mp hc' with hc' | hc'
    · exact h.tokens c' hc' f
    · rw [List.mem_singleton.mp hc']
      exact ⟨toks f, hadd.tokens f⟩
  · rcases List.mem_append.mp hc' with hc' | hc'
    · obtain ⟨k, hk⟩ := h.issued c' hc' f toks' ht w hw
      exact ⟨k, hadd.words w k hk⟩
    · rw [List.mem_singleton.mp hc'] at ht
      rw [htok f toks' ht] at hw
      exact hadd.issued f w hw
  · rcases getElem?_snoc_cases hi with ⟨hlt, hi⟩ | ⟨rfl, rfl⟩
    · have hne : decimal (i + 1) ≠ decimal (done.length + 1) := by
        intro he
        have hinj := decimal_injective he
        omega
      rw [exact_congr ((hstep f w).1 _ hne)]
      exact h.exact i c' hi f toks' ht w
    · rw [htok f toks' ht]
      exact (hstep f w).2
  · rw [List.length_append, List.length_singleton]
    by_cases hd : g.doc = decimal (done.length + 1)
    · exact ⟨done.length, by omega, hd⟩
    · have hmem : g ∈ groupsOf g.doc (postings f s' w) := List.mem_filter.mpr ⟨hg, by simp⟩
      rw [(hstep f w).1 g.doc hd] at hmem
      obtain ⟨i, hlt, hdoc⟩ := h.bound f w g (List.mem_filter.mp hmem).1
      exact ⟨i, by omega, hdoc⟩

end Indexed

/-- A page with a new URL is added exactly. -/
theorem Built.snoc {E : Platform} {done : List Crawler} {c : Crawler} {toks : Field → List Str}
    {s s' : Stores} (h : Built E done s) (hnew : c.url ∉ done.map Crawler.url)
    (hadd : EntryAdded E c toks s s') : Built E (done ++ [c]) s' :=
  (h.indexed.snoc (h.numbered.next_id hnew).2 hadd).built
    (h.numbered.snoc hnew (hadd.ok.tables .page) hadd.document)

/-- The whole batch, page by page. -/
theorem built_fresh {E : Platform} {crawlers : List Crawler} {faults : List Bool} {s : Stores}
    (hs : FreshStart s) (hurls : (crawlers.map Crawler.url).Nodup)
    (hret : returns (Attempt.outcome E ⟨.invertedIndexPages crawlers, faults⟩ s) = true) :
    Built E crawlers (Attempt.after E ⟨.invertedIndexPages crawlers, faults⟩ s) := by
  obtain ⟨x, hrun, hafter⟩ := Attempt.ok_of_returns hret
  rw [hafter]
  refine foldlM_batch (I := fun done (x : World) => Built E done x.stores) ?_ crawlers [] rfl
    (built_nil E hs) hrun
  intro done c todo y y' hl hb hstep
  obtain ⟨toks, hadd⟩ := addEntry_postings hstep hb.ok
  rw [hl] at hurls
  exact hb.snoc (url_not_mem hurls) hadd

/-- **A fresh build is exact.**  From stores without pages and any numbered word table, when
    `index_pages` returns: for every page, word and index, the value of the word has a group of
    the page just when the word is among the page's cleaned tokens, with exactly its positions
    there, each once; every group is of one of the pages; and a value exists only for a word that
    occurs. -/
theorem fresh_build_exact (E : Platform) (crawlers : List Crawler) (faults : List Bool)
    (s : Stores) (hs : FreshStart s) (hurls : (crawlers.map Crawler.url).Nodup)
    (hret : returns (Attempt.outcome E ⟨.invertedIndexPages crawlers, faults⟩ s) = true) :
    let s' := Attempt.after E ⟨.invertedIndexPages crawlers, faults⟩ s
    (∀ c ∈ crawlers, ∃ p, (s' .document)[c.url]? = some p ∧
      ∀ f : Field, ∃ toks, f.tokens E c = .ok toks ∧
        (∀ w ∈ toks, ∃ k : Str, (s' .word)[w]? = some k) ∧
        ∀ w, Exact p ((positions 0 w toks).map decimal) (postings f s' w)) ∧
    (∀ (f : Field) (w : Str), ∀ g ∈ postings f s' w,
      ∃ c ∈ crawlers, (s' .document)[c.url]? = some g.doc) ∧
    (∀ (f : Field) (k v : Str), (s' f.db)[k]? = some v →
      ∃ w, (s' .word)[w]? = some k ∧
        ∃ c ∈ crawlers, ∃ toks, f.tokens E c = .ok toks ∧ w ∈ toks) := by
  intro s'
  have h : Built E crawlers s' := built_fresh hs hurls hret
  refine ⟨fun c hc => ?_, fun f w g hg => ?_, fun f k v hv => ?_⟩
  · obtain ⟨i, hi⟩ := List.mem_iff_getElem?.mp hc
    refine ⟨decimal (i + 1), h.ids i c hi, fun f => ?_⟩
    obtain ⟨toks, htoks⟩ := h.tokens c hc f
    exact ⟨toks, htoks, h.issued c hc f toks htoks, h.exact i c hi f toks htoks⟩
  · obtain ⟨i, c, hi, hdoc, -⟩ := h.page_of_group hg
    exact ⟨c, List.mem_of_getElem? hi, by rw [hdoc]; exact h.ids i c hi⟩
  · obtain ⟨⟨w, hw⟩, gs, hspell, hne, -, -⟩ := h.ok.values f k v hv
    have hpost : postings f s' w = gs := by
      rw [postings, show (s' .word)[w]? = some k from hw]
      show groupsAt (s' f.db) k = gs
      rw [groupsAt, hv]
      exact hspell.decode
    obtain ⟨g, hg⟩ := List.exists_mem_of_ne_nil gs hne
    rw [← hpost] at hg
    obtain ⟨i, c, hi, -, toks, htoks, hmem⟩ := h.page_of_group hg
    exact ⟨w, hw, c, List.mem_of_getElem? hi, toks, htoks, hmem⟩

/-- Two pages that share a word. -/
def twoPages : List Crawler := [smallPage 'a' ["ab", "ab"], smallPage 'b' ["ab"]]

theorem tokens_twoPages :
    ∀ c ∈ twoPages, ∀ f : Field, ∃ toks, f.tokens asciiPlatform c = .ok toks := by
  intro c hc f
  rcases List.mem_pair.mp hc with rfl | rfl
  · exact tokens_smallPage 'a' 2 f
  · exact tokens_smallPage 'b' 1 f

theorem twoPages_returns (s : Stores) :
    returns (Attempt.outcome asciiPlatform ⟨.invertedIndexPages twoPages, []⟩ s) = true :=
  returns_of_runs (.invertedIndexPages twoPages) (indexPages_runs tokens_twoPages) s

theorem fresh_build_two_pages :
    let s' := Attempt.after asciiPlatform ⟨.invertedIndexPages twoPages, []⟩ Stores.empty
    ∀ (f : Field) (w : Str), ∀ g ∈ postings f s' w,
      ∃ c ∈ twoPages, (s' .document)[c.url]? = some g.doc :=
  (fresh_build_exact asciiPlatform twoPages [] Stores.empty freshStart_empty (by decide)
    (twoPages_returns Stores.empty)).2.1

/-! ## The numerators of a query -/

/-- How often the word that `k` names occurs among the tokens. -/
def occurrences (s : Stores) (k : Str) (toks : List Str) : Nat :=
  toks.countP (fun w => (s .word)[w]? = some k)

/-- A page is credited with the occurrences of the word. -/
theorem Built.tally_eq {E : Platform} {crawlers : List Crawler} {s : Stores}
    (h : Built E crawlers s) {i : Nat} {c : Crawler} (hi : crawlers[i]? = some c) {f : Field}
    {toks : List Str} (htoks : f.tokens E c = .ok toks) (k : Str) :
    tally (decimal (i + 1)) (groupsAt (s f.db) k) = occurrences s k toks ∧
    (groupsOf (decimal (i + 1)) (groupsAt (s f.db) k) = [] ↔ occurrences s k toks = 0) := by
  by_cases hk : Issued .word k s
  · obtain ⟨w, hw⟩ := hk
    have hw' : (s .word)[w]? = some k := hw
    have hpost : groupsAt (s f.db) k = postings f s w := by rw [postings, hw']
    have hcount : occurrences s k toks = toks.count w := by
      refine List.countP_congr (fun w' _ => ?_)
      simp only [decide_eq_true_eq, beq_iff_eq]
      constructor
      · exact fun hw₁ => (h.ok.tables .word).1.injective hw₁ hw
      · rintro rfl
        exact hw'
    have hexact := h.exact i c hi f toks htoks w
    rw [hpost, hcount, ← length_positions w toks 0]
    by_cases hmem : w ∈ toks
    · obtain ⟨q, qs, hpos⟩ := positions_of_mem hmem
      have hlen := congrArg List.length hpos
      rw [List.length_map, List.length_cons] at hlen
      rw [hpos, Exact, if_neg (by simp)] at hexact
      obtain ⟨ps, hps, hperm⟩ := hexact
      rw [tally, hps, hlen]
      exact ⟨by simpa using hperm.length_eq, by simp⟩
    · rw [positions_eq_nil.mpr hmem, List.map_nil, Exact, if_pos rfl] at hexact
      rw [tally, hexact, positions_eq_nil.mpr hmem]
      exact ⟨rfl, by simp⟩
  · -- no word has this ID, so no value and no occurrence
    have hnone : (s f.db)[k]? = none := by
      cases hv : (s f.db)[k]? with
      | none => rfl
      | some v => exact absurd (h.ok.values f k v hv).key hk
    have hzero : occurrences s k toks = 0 :=
      List.countP_eq_zero.mpr (fun w _ hw => hk ⟨w, of_decide_eq_true hw⟩)
    rw [groupsAt, hnone, hzero]
    exact ⟨rfl, by simp [groupsOf]⟩

/-- A page has a group under a key just when one of its words has that ID. -/
theorem Built.groupsAt_ne_nil_iff {E : Platform} {crawlers : List Crawler} {s : Stores}
    (h : Built E crawlers s) (f : Field) {d k : Str} :
    groupsOf d (groupsAt (s f.db) k) ≠ [] ↔
      ∃ c ∈ crawlers, (s .document)[c.url]? = some d ∧ ∃ toks : List Str,
        f.tokens E c = .ok toks ∧ ∃ w ∈ toks, (s .word)[w]? = some k := by
  constructor
  · intro hne
    obtain ⟨g, hg⟩ := List.exists_mem_of_ne_nil _ hne
    obtain ⟨hg, hgd⟩ := List.mem_filter.mp hg
    obtain ⟨url, hurl⟩ := (h.ok.groupsAt_ok f k).2.2 g hg
    obtain ⟨i, c, hi, hdoc, -⟩ := h.numbered.page_of_issued hurl
    obtain ⟨toks, htoks⟩ := h.tokens c (List.mem_of_getElem? hi) f
    have hd : d = decimal (i + 1) := by
      rw [← hdoc]
      exact (by simpa using hgd : g.doc = d).symm
    refine ⟨c, List.mem_of_getElem? hi, by rw [hd]; exact h.ids i c hi, toks, htoks, ?_⟩
    rw [hd] at hne
    have hocc : occurrences s k toks ≠ 0 := fun h0 => hne ((h.tally_eq hi htoks k).2.mpr h0)
    obtain ⟨w, hw, hwk⟩ := List.countP_pos_iff.mp (Nat.pos_of_ne_zero hocc)
    exact ⟨w, hw, by simpa using hwk⟩
  · rintro ⟨c, hc, hd, toks, htoks, w, hw, hwk⟩ hnil
    obtain ⟨i, hi⟩ := List.mem_iff_getElem?.mp hc
    obtain rfl : decimal (i + 1) = d := Option.some.inj ((h.ids i c hi).symm.trans hd)
    have hzero := (h.tally_eq hi htoks k).2.mp hnil
    exact List.countP_eq_zero.mp hzero w hw (by simpa using hwk)

/-- A page is touched by a key just when one of its words, in title or content, has that ID. -/
theorem Built.touches_iff {E : Platform} {crawlers : List Crawler} {s : Stores}
    (h : Built E crawlers s) {d k : Str} :
    Touches (s .titleInverted) (s .contentInverted) d k ↔
      ∃ c ∈ crawlers, (s .document)[c.url]? = some d ∧ ∃ (f : Field) (toks : List Str),
        f.tokens E c = .ok toks ∧ ∃ w ∈ toks, (s .word)[w]? = some k := by
  constructor
  · rintro (ht | hc)
    · obtain ⟨c, hc, hd, htoks⟩ := (h.groupsAt_ne_nil_iff .title).mp ht
      exact ⟨c, hc, hd, .title, htoks⟩
    · obtain ⟨c, hc, hd, htoks⟩ := (h.groupsAt_ne_nil_iff .content).mp hc
      exact ⟨c, hc, hd, .content, htoks⟩
  · rintro ⟨c, hc, hd, f, htoks⟩
    cases f with
    | title => exact Or.inl ((h.groupsAt_ne_nil_iff .title).mpr ⟨c, hc, hd, htoks⟩)
    | content => exact Or.inr ((h.groupsAt_ne_nil_iff .content).mpr ⟨c, hc, hd, htoks⟩)

/-- **The numerators are the occurrence counts.**  After one `index_pages` on empty stores and for
    any list of keys, the accumulation loops run through and leave an entry for exactly the pages
    whose cleaned title or content has a word named by a key — and the entry is the sum over the
    keys, with multiplicity, of twice the occurrences in the title plus those in the content.  The
    order of the keys does not matter. -/
theorem numerators_exact (E : Platform) (crawlers : List Crawler) (faults : List Bool)
    (hurls : (crawlers.map Crawler.url).Nodup)
    (hret : returns (Attempt.outcome E ⟨.invertedIndexPages crawlers, faults⟩ Stores.empty) = true)
    (q : List Str) :
    let s := Attempt.after E ⟨.invertedIndexPages crawlers, faults⟩ Stores.empty
    ∃ u : CosSim.Numerators,
      CosSim.accumulate (s .titleInverted) (s .contentInverted) q = .ok u ∧
      (∀ d : Str, (∃ n, u[d]? = some n) ↔
        ∃ c ∈ crawlers, (s .document)[c.url]? = some d ∧ ∃ (f : Field) (toks : List Str),
          f.tokens E c = .ok toks ∧ ∃ w ∈ toks, ∃ k ∈ q, (s .word)[w]? = some k) ∧
      (∀ c ∈ crawlers, ∀ (d : Str) (n : Int) (title content : List Str),
        (s .document)[c.url]? = some d → u[d]? = some n →
        Field.title.tokens E c = .ok title → Field.content.tokens E c = .ok content →
        n = (q.map (fun k => 2 * (occurrences s k title : Int) + occurrences s k content)).sum) ∧
      ∀ q', q'.Perm q → CosSim.accumulate (s .titleInverted) (s .contentInverted) q' = .ok u := by
  intro s
  have h : Built E crawlers s := built_fresh freshStart_empty hurls hret
  have hspelled : Spelled (s .titleInverted) := h.ok.spelled .title
  have hspelled' : Spelled (s .contentInverted) := h.ok.spelled .content
  obtain ⟨u, hrun, hu⟩ := accumulate_eq hspelled hspelled' q
  refine ⟨u, hrun, fun d => ?_, fun c hc d n title content hd hn ht hcont => ?_, fun q' hperm => ?_⟩
  · rw [accumulate_some_iff hspelled hspelled' hrun]
    constructor
    · rintro ⟨k, hk, htouch⟩
      obtain ⟨c, hc, hd, f, toks, htoks, w, hw, hwk⟩ := h.touches_iff.mp htouch
      exact ⟨c, hc, hd, f, toks, htoks, w, hw, k, hk, hwk⟩
    · rintro ⟨c, hc, hd, f, toks, htoks, w, hw, k, hk, hwk⟩
      exact ⟨k, hk, h.touches_iff.mpr ⟨c, hc, hd, f, toks, htoks, w, hw, hwk⟩⟩
  · obtain ⟨i, hi⟩ := List.mem_iff_getElem?.mp hc
    obtain rfl : decimal (i + 1) = d := Option.some.inj ((h.ids i c hi).symm.trans hd)
    have hud := hu (decimal (i + 1))
    rw [hn] at hud
    split at hud
    · rw [Option.some.inj hud]
      congr 1
      refine List.map_congr_left (fun k _ => ?_)
      rw [keyScore, ← (h.tally_eq hi ht k).1, ← (h.tally_eq hi hcont k).1]
      rfl
    · exact absurd hud (by simp)
  · rw [accumulate_perm hspelled hspelled' hperm]
    exact hrun

/-- The word `ab` asked twice, on the two pages. -/
theorem numerators_two_pages :
    let s := Attempt.after asciiPlatform ⟨.invertedIndexPages twoPages, []⟩ Stores.empty
    ∃ u : CosSim.Numerators,
      CosSim.accumulate (s .titleInverted) (s .contentInverted) [['1'], ['1']] = .ok u ∧
      ∀ n, u[['1']]? = some n → n = 4 := by
  intro s
  obtain ⟨u, hrun, -, hcount, -⟩ :=
    numerators_exact asciiPlatform twoPages [] (by decide) (twoPages_returns Stores.empty)
      [['1'], ['1']]
  refine ⟨u, hrun, fun n hn => ?_⟩
  have hfacts : (s .document)[['a']]? = some ['1'] ∧ occurrences s ['1'] [] = 0 ∧
      occurrences s ['1'] ["ab".toList, "ab".toList] = 2 := by decide +kernel
  obtain ⟨hd, htitle, hcontent⟩ := hfacts
  have hsum := hcount _ List.mem_cons_self _ n _ _ hd hn (tokens_smallPage_eq 'a' 2 .title)
    (tokens_smallPage_eq 'a' 2 .content)
  have hscore : (2 * (occurrences s ['1'] (smallTokens 2 .title) : Int)
      + occurrences s ['1'] (smallTokens 2 .content)) = 2 := by
    rw [show smallTokens 2 .title = [] from rfl,
      show smallTokens 2 .content = ["ab".toList, "ab".toList] from rfl, htitle, hcontent]
    rfl
  rw [hsum, List.map_cons, List.map_singleton, hscore]
  rfl

end SearchEngine
