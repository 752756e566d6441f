/-
  The forward and the inverted index count the same tokens.

  One loop counts in a hash map, the other splices positions into strings, and each of them hands
  out word and page IDs on the way.  Two facts make them agree in EITHER order.  A batch of pages
  with distinct URLs gets the IDs `1, 2, …` in order, whichever indexer comes first; and the
  inverted index comes out exact also where the IDs were there before (`inverted_second`),
  because a page is still indexed before all pages whose ID extends its own.

  `Counts` is what the hash map holds, `Forwarded` what the forward run leaves behind, and
  `forward_inverted_agree` sets the frequencies against the groups.
-/
import SearchEngine.FreshBuild
import SearchEngine.ForwardRecord
import Mathlib.Data.List.Nodup
import Mathlib.Tactic.Common

namespace SearchEngine

open Text Numeral Effect Postings InvertedIndexer NumberedMap ForwardIndexer

/-! ## The hash map -/

/-- The map holds, for every ID of the list once, how often it occurs there. -/
structure Counts (ids : List Str) (map : List (Str × Nat)) : Prop where
  keys : (map.map Prod.fst).Nodup
  freq : ∀ e ∈ map, e.2 = ids.count e.1
  all : ∀ id ∈ ids, id ∈ map.map Prod.fst
  sum : (map.map Prod.snd).sum = ids.length

theorem bump_of_not_mem {id : Str} :
    ∀ {map : List (Str × Nat)}, id ∉ map.map Prod.fst → bump map id = map ++ [(id, 1)]
  | [], _ => rfl
  | (k, n) :: rest, h => by
    rw [List.map_cons, List.mem_cons, not_or] at h
    rw [bump, if_neg (Ne.symm h.1), bump_of_not_mem h.2]
    rfl

theorem bump_of_split {id : Str} {n : Nat} {post : List (Str × Nat)} :
    ∀ {pre : List (Str × Nat)}, id ∉ pre.map Prod.fst →
      bump (pre ++ (id, n) :: post) id = pre ++ (id, n + 1) :: post
  | [], _ => by
    show bump ((id, n) :: post) id = _
    rw [bump, if_pos rfl]
    rfl
  | (k, m) :: pre, h => by
    rw [List.map_cons, List.mem_cons, not_or] at h
    rw [List.cons_append, bump, if_neg (Ne.symm h.1), bump_of_split h.2]
    rfl

theorem count_concat (ids : List Str) (id k : Str) :
    (ids ++ [id]).count k = ids.count k + if id = k then 1 else 0 := by
  rw [List.count_append, List.count_singleton]
  simp

/-- One more ID, which the map does not hold. -/
theorem Counts.concat_new {ids : List Str} {map : List (Str × Nat)} (h : Counts ids map) {id : Str}
    (hmem : id ∉ map.map Prod.fst) : Counts (ids ++ [id]) (map ++ [(id, 1)]) := by
  have hzero : ids.count id = 0 := List.count_eq_zero.mpr (fun hid => hmem (h.all id hid))
  refine ⟨?_, fun e he => ?_, fun id' hid' => ?_, ?_⟩
  · rw [List.map_append, List.nodup_append]
    refine ⟨h.keys, by simp, ?_⟩
    rintro k hk k' hk' rfl
    obtain rfl : k = id := by simpa using hk'
    exact hmem hk
  · rw [count_concat]
    rcases List.mem_append.mp he with hold | hown
    · have hne : id ≠ e.1 := by
        intro he
        rw [he] at hmem
        exact hmem (List.mem_map_of_mem hold)
      rw [if_neg hne, Nat.add_zero]
      exact h.freq e hold
    · obtain rfl := List.mem_singleton.mp hown
      rw [if_pos rfl, hzero]
  · rw [List.map_append, List.mem_append]
    rcases List.mem_append.mp hid' with hid' | hid'
    · exact Or.inl (h.all id' hid')
    · exact Or.inr (by simpa using hid')
  · rw [List.length_append, List.map_append, List.sum_append, h.sum]
    rfl

/-- One more ID, which the map holds. -/
theorem Counts.concat_known {ids : List Str} {pre post : List (Str × Nat)} {k : Str} {n : Nat}
    (h : Counts ids (pre ++ (k, n) :: post)) (hother : ∀ e ∈ pre ++ post, k ≠ e.1) :
    Counts (ids ++ [k]) (pre ++ (k, n + 1) :: post) := by
  have hkeys : (pre ++ (k, n + 1) :: post).map Prod.fst
      = (pre ++ (k, n) :: post).map Prod.fst := by simp
  refine ⟨by rw [hkeys]; exact h.keys, fun e he => ?_, fun id' hid' => ?_, ?_⟩
  · rw [count_concat]
    rw [List.mem_append, List.mem_cons] at he
    rcases he with hpre | rfl | hpost
    · rw [if_neg (hother e (List.mem_append_left post hpre)), Nat.add_zero]
      exact h.freq e (List.mem_append_left _ hpre)
    · rw [if_pos rfl, ← h.freq (k, n) (by simp)]
    · rw [if_neg (hother e (List.mem_append_right pre hpost)), Nat.add_zero]
      exact h.freq e (List.mem_append_right pre (List.mem_cons_of_mem _ hpost))
  · rw [hkeys]
    rcases List.mem_append.mp hid' with hid' | hid'
    · exact h.all id' hid'
    · rw [List.mem_singleton.mp hid']
      simp
  · have hsum := h.sum
    rw [List.length_append, ← hsum]
    simp only [List.map_append, List.map_cons, List.sum_append, List.sum_cons,
      List.length_singleton]
    omega

/-- One more ID. -/
theorem Counts.bump {ids : List Str} {map : List (Str × Nat)} (h : Counts ids map) (id : Str) :
    Counts (ids ++ [id]) (ForwardIndexer.bump map id) := by
  by_cases hmem : id ∈ map.map Prod.fst
  · obtain ⟨⟨k, n⟩, he, hk⟩ := List.mem_map.mp hmem
    obtain rfl : k = id := hk
    obtain ⟨pre, post, rfl⟩ := List.append_of_mem he
    have hnodup := h.keys
    rw [List.map_append, List.map_cons, List.nodup_middle, List.nodup_cons, ← List.map_append]
      at hnodup
    rw [bump_of_split (fun hpre => hnodup.1 (by rw [List.map_append]; simp [hpre]))]
    exact h.concat_known (fun e hein hke => hnodup.1 (List.mem_map.mpr ⟨e, hein, hke.symm⟩))
  · rw [bump_of_not_mem hmem]
    exact h.concat_new hmem

/-- All IDs of a list. -/
theorem counts_foldl (ids : List Str) : Counts ids (ids.foldl ForwardIndexer.bump []) := by
  induction ids using List.reverseRecOn with
  | nil => exact ⟨List.nodup_nil, by simp, by simp, rfl⟩
  | append_singleton ids id ih =>
    rw [List.foldl_append]
    exact ih.bump id

/-- The order in which the pairs are written does not matter. -/
theorem Counts.perm {ids : List Str} {map map' : List (Str × Nat)} (h : Counts ids map)
    (hperm : map'.Perm map) : Counts ids map' := by
  refine ⟨(hperm.map Prod.fst).nodup_iff.mpr h.keys, fun e he => h.freq e (hperm.mem_iff.mp he),
    fun id hid => ((hperm.map Prod.fst).mem_iff).mpr (h.all id hid), ?_⟩
  rw [(hperm.map Prod.snd).sum_eq]
  exact h.sum

/-- The pairs of a page count the IDs of its words. -/
theorem counts_entriesOf (E : Platform) (s : Stores) (cleaned : List Str) :
    Counts (cleaned.map (wordIDOf s)) (entriesOf E s cleaned) :=
  (counts_foldl _).perm (E.hashOrder_perm _)

/-! ## The forward run -/

/-- The record of a page stands under `p`, with the IDs its words have now. -/
def Recorded (E : Platform) (c : Crawler) (p : Str) (s : Stores) : Prop :=
  ∃ (title date size : Str) (content links cleaned : List Str),
    c = Crawler.page c.url title date size content links ∧
    StopWords.clean E content = .ok cleaned ∧
    (∀ w ∈ cleaned, ∃ k : Str, (s .word)[w]? = some k) ∧
    (s .forwardIndex)[p]? = some (recordOf E s title date size content links cleaned)

/-- A record stays right when words are added: those of the page have their IDs. -/
theorem Recorded.mono {E : Platform} {c : Crawler} {p : Str} {s s' : Stores}
    (h : Recorded E c p s)
    (hwords : ∀ w k : Str, (s .word)[w]? = some k → (s' .word)[w]? = some k)
    (hforward : (s' .forwardIndex)[p]? = (s .forwardIndex)[p]?) : Recorded E c p s' := by
  obtain ⟨title, date, size, content, links, cleaned, hc, hclean, hissued, hrec⟩ := h
  have hids : cleaned.map (wordIDOf s') = cleaned.map (wordIDOf s) := by
    refine List.map_congr_left (fun w hw => ?_)
    obtain ⟨k, hk⟩ := hissued w hw
    rw [wordIDOf, wordIDOf, hk, hwords w k hk]
  refine ⟨title, date, size, content, links, cleaned, hc, hclean, fun w hw => ?_, ?_⟩
  · obtain ⟨k, hk⟩ := hissued w hw
    exact ⟨k, hwords w k hk⟩
  · rw [hforward, hrec, recordOf, recordOf, entriesOf, entriesOf, frequencies, frequencies, hids]

/-- The pages of the list have their records, page `i` under the ID `i + 1`. -/
def Forwarded (E : Platform) (done : List Crawler) (s : Stores) : Prop :=
  ∀ i c, done[i]? = some c → Recorded E c (decimal (i + 1)) s

theorem forwarded_nil (E : Platform) (s : Stores) : Forwarded E [] s := by
  intro i c hi
  exact absurd hi (by simp)

/-- **The next page is recorded** under its own ID, so all records before it stay. -/
theorem Forwarded.snoc {E : Platform} {done : List Crawler} {url title date size : Str}
    {content links cleaned : List Str} {s s' : Stores} (h : Forwarded E done s)
    (hp : pageIDOf s url = decimal (done.length + 1))
    (hadd : RecordAdded E url title date size content links cleaned s s') :
    Forwarded E (done ++ [Crawler.page url title date size content links]) s' := by
  intro i c hi
  rcases getElem?_snoc_cases hi with ⟨hlt, hi⟩ | ⟨rfl, rfl⟩
  · refine (h i c hi).mono hadd.words ?_
    have hne : decimal (done.length + 1) ≠ decimal (i + 1) := by
      intro he
      have hinj := decimal_injective he
      omega
    rw [hadd.forwardIndex, hp, get_insert_ne _ hne]
  · rw [← hp]
    exact ⟨title, date, size, content, links, cleaned, rfl, hadd.clean, hadd.issued, hadd.record⟩

/-- What a page of the forward run does, seen from the page. -/
theorem forwardAddEntry_cases {E : Platform} {c : Crawler} {x x' : World} {u : Unit}
    (h : ForwardIndexer.addEntry E c x = .ok u x') :
    ∃ (title date size : Str) (content links cleaned : List Str),
      c = Crawler.page c.url title date size content links ∧
      RecordAdded E c.url title date size content links cleaned x.stores x'.stores := by
  obtain ⟨title, date, size, content, links, hc⟩ := page_of_addEntry h
  rw [hc] at h
  obtain ⟨cleaned, hadd⟩ := ForwardIndexer.addEntry_ok h
  exact ⟨title, date, size, content, links, cleaned, hc, hadd⟩

/-- On stores without an index, the forward run numbers the pages and leaves the index empty. -/
theorem forward_first {E : Platform} {crawlers : List Crawler} {x x' : World} {u : Unit}
    (hurls : (crawlers.map Crawler.url).Nodup) (hx : Built E [] x.stores)
    (hdb : ∀ f : Field, x.stores f.db = ∅)
    (h : crawlers.foldlM (fun _ c => ForwardIndexer.addEntry E c) () x = .ok u x') :
    IndexOk x'.stores ∧ PagesNumbered crawlers x'.stores ∧ Forwarded E crawlers x'.stores ∧
      ∀ f : Field, x'.stores f.db = ∅ := by
  refine foldlM_batch (I := fun done (y : World) => IndexOk y.stores ∧ PagesNumbered done y.stores ∧
      Forwarded E done y.stores ∧ ∀ f : Field, y.stores f.db = ∅) ?_ crawlers [] rfl
    ⟨hx.ok, hx.numbered, forwarded_nil E x.stores, hdb⟩ h
  rintro done c todo y y' hl ⟨hok, hn, hf, hdb⟩ hstep
  obtain ⟨title, date, size, content, links, cleaned, hc, hadd⟩ := forwardAddEntry_cases hstep
  rw [hl] at hurls
  have hnew := url_not_mem hurls
  have hok' : IndexOk y'.stores := (stable_indexOk.forwardAddEntry E c).of_ok hok hstep
  have hf' : Forwarded E (done ++ [c]) y'.stores := by
    rw [hc]
    exact hf.snoc (hn.next_id hnew).2 hadd
  exact ⟨hok', hn.snoc hnew (hok'.tables .page) hadd.document, hf',
    fun f => (hadd.postings f).trans (hdb f)⟩

/-- A page that has its ID is recorded without touching the index. -/
theorem Built.recorded {E : Platform} {crawlers : List Crawler} {c : Crawler}
    {title date size : Str} {content links cleaned : List Str} {s s' : Stores}
    (h : Built E crawlers s) {i : Nat} (hi : crawlers[i]? = some c) (hok : IndexOk s')
    (hadd : RecordAdded E c.url title date size content links cleaned s s') :
    Built E crawlers s' := by
  have hn := h.numbered.again hi (hok.tables .page) hadd.document
  have hsame : ∀ f w, postings f s' w = postings f s w := fun f w =>
    postings_of_same h.ok (hok.tables .word) hadd.words (hadd.postings f) w
  refine ⟨hok, hn.size, hn.ids, h.tokens, fun c' hc' f toks ht w hw => ?_,
    fun j c' hj f toks ht w => ?_⟩
  · obtain ⟨k, hk⟩ := h.issued c' hc' f toks ht w hw
    exact ⟨k, hadd.words w k hk⟩
  · rw [hsame f w]
    exact h.exact j c' hj f toks ht w

/-- On an index that is built, the forward run leaves it alone. -/
theorem forward_second {E : Platform} {crawlers : List Crawler} {x x' : World} {u : Unit}
    (hx : Built E crawlers x.stores)
    (h : crawlers.foldlM (fun _ c => ForwardIndexer.addEntry E c) () x = .ok u x') :
    Built E crawlers x'.stores ∧ Forwarded E crawlers x'.stores := by
  refine foldlM_batch (I := fun done (y : World) => Built E crawlers y.stores ∧
      Forwarded E done y.stores) ?_ crawlers [] rfl ⟨hx, forwarded_nil E x.stores⟩ h
  rintro done c todo y y' hl ⟨hb, hf⟩ hstep
  obtain ⟨title, date, size, content, links, cleaned, hc, hadd⟩ := forwardAddEntry_cases hstep
  have hi : crawlers[done.length]? = some c := by simp [hl]
  have hok' : IndexOk y'.stores := (stable_indexOk.forwardAddEntry E c).of_ok hb.ok hstep
  refine ⟨hb.recorded hi hok' hadd, ?_⟩
  rw [hc]
  exact hf.snoc (hb.numbered.ids.pageIDOf hi) hadd

/-! ## The inverted run behind the forward run -/

/-- The pages have their IDs before the first of them is indexed, and still each is indexed
    before all pages whose ID extends its own. -/
theorem inverted_second {E : Platform} {crawlers : List Crawler} {x x' : World} {u : Unit}
    (hn : PagesNumbered crawlers x.stores) (hx : Indexed E [] x.stores)
    (hf : Forwarded E crawlers x.stores)
    (h : crawlers.foldlM (fun _ c => InvertedIndexer.addEntry E c) () x = .ok u x') :
    Built E crawlers x'.stores ∧ Forwarded E crawlers x'.stores := by
  have hend : PagesNumbered crawlers x'.stores ∧ Indexed E crawlers x'.stores ∧
      Forwarded E crawlers x'.stores := by
    refine foldlM_batch (I := fun done (y : World) => PagesNumbered crawlers y.stores ∧
      Indexed E done y.stores ∧ Forwarded E crawlers y.stores) ?_ crawlers [] rfl ⟨hn, hx, hf⟩ h
    rintro done c todo y y' hl ⟨hn, hidx, hf⟩ hstep
    obtain ⟨toks, hadd⟩ := addEntry_postings hstep hidx.ok
    have hi : crawlers[done.length]? = some c := by simp [hl]
    have hforward : y'.stores .forwardIndex = y.stores .forwardIndex := by
      rw [addEntry_others hstep (by decide) (by decide) (by intro f; cases f <;> decide),
        Stores.issue_other _ c.url (by decide) (by decide)]
    exact ⟨hn.again hi (hadd.ok.tables .page) hadd.document, hidx.snoc (hn.ids.pageIDOf hi) hadd,
      fun i c' hi' => (hf i c' hi').mono hadd.words (by rw [hforward])⟩
  exact ⟨hend.2.1.built hend.1, hend.2.2⟩

/-- An index without entries is the index of no page. -/
theorem indexed_nil (E : Platform) {s : Stores} (hok : IndexOk s) (hdb : ∀ f : Field, s f.db = ∅) :
    Indexed E [] s := by
  have hnil : ∀ f w, postings f s w = [] := by
    intro f w
    unfold postings
    split
    · rfl
    · rw [groupsAt, hdb f, Std.ExtTreeMap.getElem?_empty]
  refine ⟨hok, by simp, by simp, by simp, fun f w g hg => ?_⟩
  rw [hnil f w] at hg
  exact absurd hg (by simp)

/-! ## The two indexes side by side -/

/-- Both runs, in either order, leave the index built and every page recorded. -/
theorem built_and_forwarded {E : Platform} {crawlers : List Crawler} {ff fi : List Bool}
    {run : List Attempt} (hurls : (crawlers.map Crawler.url).Nodup)
    (horder : run = [⟨.forwardIndexPages crawlers, ff⟩, ⟨.invertedIndexPages crawlers, fi⟩] ∨
      run = [⟨.invertedIndexPages crawlers, fi⟩, ⟨.forwardIndexPages crawlers, ff⟩])
    (hret : NoneAborted E run Stores.empty) :
    Built E crawlers (runAll E run Stores.empty) ∧
      Forwarded E crawlers (runAll E run Stores.empty) := by
  rcases horder with rfl | rfl
  · obtain ⟨hret₁, hret₂, -⟩ := hret
    obtain ⟨x, hrun, hafter⟩ := Attempt.ok_of_returns hret₁
    rw [hafter] at hret₂
    obtain ⟨x', hrun', hafter'⟩ := Attempt.ok_of_returns hret₂
    have hend : runAll E [⟨.forwardIndexPages crawlers, ff⟩, ⟨.invertedIndexPages crawlers, fi⟩]
        Stores.empty = x'.stores := by
      rw [← hafter', ← hafter]
      rfl
    have hb : Built E [] Stores.empty := built_nil E freshStart_empty
    obtain ⟨hok, hn, hf, hdb⟩ :=
      forward_first (x := ⟨Stores.empty, ff⟩) hurls hb (fun f => rfl) hrun
    rw [hend]
    exact inverted_second (x := ⟨x.stores, fi⟩) hn (indexed_nil E hok hdb) hf hrun'
  · obtain ⟨hret₁, hret₂, -⟩ := hret
    have hb := built_fresh freshStart_empty hurls hret₁
    obtain ⟨x, hrun, hafter⟩ := Attempt.ok_of_returns hret₁
    rw [hafter] at hret₂ hb
    obtain ⟨x', hrun', hafter'⟩ := Attempt.ok_of_returns hret₂
    have hend : runAll E [⟨.invertedIndexPages crawlers, fi⟩, ⟨.forwardIndexPages crawlers, ff⟩]
        Stores.empty = x'.stores := by
      rw [← hafter', ← hafter]
      rfl
    rw [hend]
    exact forward_second (x := ⟨x.stores, ff⟩) hb hrun'

/-- Tokens that have IDs occur as often as their IDs do. -/
theorem count_wordIDOf {s : Stores} {cleaned : List Str}
    (hissued : ∀ w ∈ cleaned, ∃ k : Str, (s .word)[w]? = some k) (k : Str) :
    (cleaned.map (wordIDOf s)).count k = occurrences s k cleaned := by
  rw [List.count_eq_countP, List.countP_map, occurrences]
  refine List.countP_congr (fun w hw => ?_)
  obtain ⟨k', hk'⟩ := hissued w hw
  simp [wordIDOf, hk']

/-- **Forward and inverted index agree.**  Index any pages with distinct URLs on empty stores, with
    one run of each indexer in either order, both returning.  Then every page has a record whose
    pairs name each word once; the frequency of a word is the number of positions in the page's
    one group under the word's ID, a word that is not in the record has no group of the page,
    and the frequencies add up to the number of cleaned content tokens. -/
theorem forward_inverted_agree (E : Platform) (crawlers : List Crawler)
    (hurls : (crawlers.map Crawler.url).Nodup) (ff fi : List Bool) (run : List Attempt)
    (horder : run = [⟨.forwardIndexPages crawlers, ff⟩, ⟨.invertedIndexPages crawlers, fi⟩] ∨
      run = [⟨.invertedIndexPages crawlers, fi⟩, ⟨.forwardIndexPages crawlers, ff⟩])
    (hret : NoneAborted E run Stores.empty) :
    let s := runAll E run Stores.empty
    ∀ c ∈ crawlers, ∃ (p title date size : Str) (content links cleaned : List Str)
        (entries : List (Str × Nat)),
      c = Crawler.page c.url title date size content links ∧
      StopWords.clean E content = .ok cleaned ∧
      (s .document)[c.url]? = some p ∧
      (s .forwardIndex)[p]? = some (record title date size (pairsText entries) (linksText links)
        (wordCount entries) (rawContent content)) ∧
      (∀ e ∈ entries, IsDigits e.1) ∧
      (entries.map Prod.fst).Nodup ∧
      (∀ k n, (k, n) ∈ entries →
        ∃ g, groupsOf p (groupsAt (s .contentInverted) k) = [g] ∧ g.poss.length = n) ∧
      (∀ k, k ∉ entries.map Prod.fst → groupsOf p (groupsAt (s .contentInverted) k) = []) ∧
      (entries.map Prod.snd).sum = cleaned.length := by
  intro s c hc
  obtain ⟨hb, hf⟩ : Built E crawlers s ∧ Forwarded E crawlers s :=
    built_and_forwarded hurls horder hret
  obtain ⟨i, hi⟩ := List.mem_iff_getElem?.mp hc
  obtain ⟨title, date, size, content, links, cleaned, hpage, hclean, hissued, hrec⟩ := hf i c hi
  have htoks : Field.content.tokens E c = .ok cleaned := by
    rw [hpage]
    exact hclean
  have hcounts := counts_entriesOf E s cleaned
  have hkeys : ∀ e ∈ entriesOf E s cleaned, IsDigits e.1 :=
    fun e he => isDigits_of_mem_entries (hb.ok.tables .word) hissued he
  refine ⟨decimal (i + 1), title, date, size, content, links, cleaned, entriesOf E s cleaned, hpage,
    hclean, hb.ids i c hi, hrec, hkeys, hcounts.keys, fun k n hkn => ?_, fun k hk => ?_, ?_⟩
  · have hfreq : n = occurrences s k cleaned := by
      rw [← count_wordIDOf hissued k]
      exact hcounts.freq (k, n) hkn
    have hmem : k ∈ cleaned.map (wordIDOf s) := by
      have hkey := key_of_mem_foldl ((E.hashOrder_perm _).mem_iff.mp hkn)
      simpa using hkey
    obtain ⟨w, hw, hwk⟩ := List.mem_map.mp hmem
    obtain ⟨k', hk'⟩ := hissued w hw
    obtain rfl : k' = k := by
      rw [wordIDOf, hk'] at hwk
      exact hwk
    obtain ⟨g, hg⟩ := hb.group_of_mem hi htoks hw
    rw [postings, hk'] at hg
    have htally := (hb.tally_eq hi htoks k').1
    refine ⟨g, hg, ?_⟩
    rw [hfreq, ← htally, tally]
    show g.poss.length = ((groupsOf (decimal (i + 1)) (groupsAt (s .contentInverted) k')).map _).sum
    rw [show groupsOf (decimal (i + 1)) (groupsAt (s .contentInverted) k') = [g] from hg]
    rfl
  · refine ((hb.tally_eq hi htoks k).2).mpr ?_
    rw [← count_wordIDOf hissued k]
    exact List.count_eq_zero.mpr (fun hmem => hk (hcounts.all k hmem))
  · rw [hcounts.sum, List.length_map]

theorem twoPages_indexed :
    NoneAborted asciiPlatform
      [⟨.forwardIndexPages twoPages, []⟩, ⟨.invertedIndexPages twoPages, []⟩] Stores.empty := by
  have hforward : Runs NoFaults (ForwardIndexer.indexPages asciiPlatform twoPages) := by
    refine Runs.foldlM twoPages () (fun _ c hc => ?_)
    rcases List.mem_pair.mp hc with rfl | rfl
    · exact ForwardIndexer.addEntry_runs (StopWords.clean_ab 2) _ _ _ _ _
    · exact ForwardIndexer.addEntry_runs (StopWords.clean_ab 1) _ _ _ _ _
  exact ⟨returns_of_runs (.forwardIndexPages twoPages) hforward _, twoPages_returns _,
    trivial⟩

/-- The page with the word twice has one group of two positions under it. -/
theorem agree_two_pages :
    let run : List Attempt :=
      [⟨.forwardIndexPages twoPages, []⟩, ⟨.invertedIndexPages twoPages, []⟩]
    let s := runAll asciiPlatform run Stores.empty
    ∃ (p : Str) (entries : List (Str × Nat)), (s .document)[['a']]? = some p ∧
      (entries.map Prod.fst).Nodup ∧ (entries.map Prod.snd).sum = 2 ∧
      ∀ k n, (k, n) ∈ entries →
        ∃ g, groupsOf p (groupsAt (s .contentInverted) k) = [g] ∧ g.poss.length = n := by
  intro run s
  obtain ⟨p, title, date, size, content, links, cleaned, entries, hpage, hclean, hp, -, -, hnodup,
      hgroups, -, hsum⟩ :=
    forward_inverted_agree asciiPlatform twoPages (by decide) [] [] run (Or.inl rfl)
      twoPages_indexed (smallPage 'a' ["ab", "ab"]) List.mem_cons_self
  have htoks : Field.content.tokens asciiPlatform (smallPage 'a' ["ab", "ab"]) = .ok cleaned := by
    rw [hpage]
    exact hclean
  obtain rfl : smallTokens 2 .content = cleaned :=
    Except.ok.inj ((tokens_smallPage_eq 'a' 2 .content).symm.trans htoks)
  exact ⟨p, entries, hp, hnodup, hsum, hgroups⟩

end SearchEngine
