/-
  A batch of ID assignments, and the same keys one call at a time.

  A batch counts the keys of the forward store ONCE and carries the counter through its loops; a
  single call counts them again.  The counter is right as long as it moves exactly when a key is
  added, so the first key of a batch may as well be a call of its own (`assignAll_cons`), and by
  induction all of them (`assignAll_eq`).  Nothing is asked of the state: the stores may hold
  anything, and the `put`s may fail, at the same place in both.

  Each batch method is such a loop over the keys it submits, for one reason only: the words of a
  page are its title's and then its content's, with one counter through both.
-/
import SearchEngine.Repair
import Mathlib.Tactic.Common

namespace SearchEngine

open Text Numeral Effect NumberedMap

/-! ## The counter and the count -/

/-- An assignment that returns has moved the counter along with the number of keys. -/
theorem assignID_count {t : Table} {key : Str} {x x' : World} {n : Nat}
    (h : assignID t.fwd t.inv (x.stores t.fwd).size key x = .ok n x') :
    n = (x'.stores t.fwd).size := by
  rcases assignID_cases t (x.stores t.fwd).size key x with
    ⟨id, -, hrun⟩ | ⟨hnone, ⟨fs, hrun⟩ | ⟨fs, hrun⟩ | ⟨fs, hrun⟩⟩
  · rw [hrun] at h
    cases h
    rfl
  · rw [hrun] at h
    cases h
  · rw [hrun] at h
    cases h
  · rw [hrun] at h
    cases h
    exact (Stores.size_issueBoth hnone).symm

/-- The loop from the count on. -/
theorem assignAll_run (t : Table) (keys : List Str) (x : World) :
    assignAll t keys x
      = (keys.foldlM (assignID t.fwd t.inv) (x.stores t.fwd).size >>= fun _ => pure ()) x :=
  bind_run_ok (Db.count_run t.fwd x) _

theorem addID_run (t : Table) (key : Str) (x : World) :
    addID t.fwd t.inv key x
      = (assignID t.fwd t.inv (x.stores t.fwd).size key >>= fun _ => pure ()) x :=
  bind_run_ok (Db.count_run t.fwd x) _

/-- **The first key of a batch may be a call of its own.** -/
theorem assignAll_cons (t : Table) (key : Str) (keys : List Str) (x : World) :
    assignAll t (key :: keys) x = (addID t.fwd t.inv key >>= fun _ => assignAll t keys) x := by
  rw [assignAll_run, List.foldlM_cons]
  cases hrun : assignID t.fwd t.inv (x.stores t.fwd).size key x with
  | error e x' =>
    have hadd : addID t.fwd t.inv key x = .error e x' := by
      rw [addID_run]
      exact bind_run_error hrun _
    rw [bind_run_error hadd]
    exact bind_run_error (bind_run_error hrun _) _
  | ok n x' =>
    have hadd : addID t.fwd t.inv key x = .ok () x' := by
      rw [addID_run]
      exact bind_run_ok hrun _
    -- the counter the batch goes on with is what the next call counts
    obtain rfl : n = (x'.stores t.fwd).size := assignID_count hrun
    rw [bind_run_ok hadd, assignAll_run, bind_assoc]
    exact bind_run_ok hrun _

/-- **A batch is its keys, one call after the other.** -/
theorem assignAll_eq (t : Table) :
    ∀ (keys : List Str) (x : World),
      assignAll t keys x = keys.foldlM (fun _ key => addID t.fwd t.inv key) () x
  | [], x => rfl
  | key :: keys, x => by
    rw [assignAll_cons, List.foldlM_cons]
    exact bind_run_congr rfl (fun _ x' _ => assignAll_eq t keys x')

/-- Two batches in a row are one. -/
theorem assignAll_append (t : Table) (keys keys' : List Str) (x : World) :
    assignAll t (keys ++ keys') x = (assignAll t keys >>= fun _ => assignAll t keys') x := by
  rw [assignAll_eq, List.foldlM_append]
  exact bind_run_congr (assignAll_eq t keys x).symm
    (fun _ x' _ => (assignAll_eq t keys' x').symm)

/-- The keys behind a call: those before it, and its own. -/
theorem addID_key {t : Table} {key : Str} {x x' : World} {u : Unit}
    (h : addID t.fwd t.inv key x = .ok u x') (k : Str) :
    (x'.stores t.fwd)[k]? = none ↔ (x.stores t.fwd)[k]? = none ∧ k ≠ key := by
  rw [addID_ok h]
  cases hget : (x.stores t.fwd)[key]? with
  | some id =>
    rw [Stores.issue_of_some hget]
    constructor
    · intro hk
      refine ⟨hk, ?_⟩
      rintro rfl
      rw [hget] at hk
      cases hk
    · exact fun hk => hk.1
  | none =>
    rw [Stores.issue_of_none hget, Stores.issueBoth_fwd, get_insert]
    by_cases hk : key = k
    · subst hk
      simp
    · simp [hk, Ne.symm hk]

theorem foldlM_addID_key {t : Table} {k : Str} {u u' : Unit} :
    ∀ {keys : List Str} {x x' : World},
      keys.foldlM (fun _ key => addID t.fwd t.inv key) u x = .ok u' x' →
      ((x'.stores t.fwd)[k]? = none ↔ (x.stores t.fwd)[k]? = none ∧ k ∉ keys)
  | [], x, x', h => by
    obtain ⟨-, rfl⟩ := pure_ok.mp h
    simp
  | key :: keys, x, x', h => by
    obtain ⟨u₁, x₁, hadd, hrest⟩ := foldlM_cons_ok.mp h
    rw [foldlM_addID_key hrest, addID_key hadd, List.mem_cons, not_or, and_assoc]

/-! ## The methods -/

theorem indexPages_run (crawlers : List Crawler) (x : World) :
    DocumentIndexer.indexPages crawlers x = assignAll .page (crawlers.map Crawler.url) x := by
  unfold DocumentIndexer.indexPages assignAll
  simp only [List.foldlM_map]
  rfl

theorem addEntryCrawler_run {E : Platform} {c : Crawler} (h : readable E c = true) (x : World) :
    WordIndexer.addEntryCrawler E c x = assignAll .word (submitted E c) x := by
  unfold WordIndexer.addEntryCrawler assignAll
  simp only [addWords_of_readable h]
  rfl

/-- Pages that can all be read: the loops over them are one loop over their words. -/
theorem foldlM_addWords_of_readable {E : Platform} :
    ∀ (crawlers : List Crawler) (n : Nat), (∀ c ∈ crawlers, readable E c = true) →
      crawlers.foldlM (WordIndexer.addWords E) n
        = (crawlers.flatMap (submitted E)).foldlM (assignID .word .invertedWord) n
  | [], n, _ => rfl
  | c :: crawlers, n, h => by
    rw [List.foldlM_cons, List.flatMap_cons, List.foldlM_append,
      addWords_of_readable (h c List.mem_cons_self)]
    congr 1
    funext n'
    exact foldlM_addWords_of_readable crawlers n' (fun c' hc' => h c' (List.mem_cons_of_mem c hc'))

theorem indexWords_run {E : Platform} {crawlers : List Crawler}
    (h : ∀ c ∈ crawlers, readable E c = true) (x : World) :
    WordIndexer.indexWords E crawlers x = assignAll .word (crawlers.flatMap (submitted E)) x := by
  unfold WordIndexer.indexWords assignAll
  simp only [foldlM_addWords_of_readable crawlers _ h]
  rfl

/-- The batch over the pages, page by page. -/
theorem assignAll_flatMap (t : Table) {m : Crawler → IndexM Unit} {keys : Crawler → List Str} :
    ∀ (crawlers : List Crawler), (∀ c ∈ crawlers, ∀ x, m c x = assignAll t (keys c) x) →
      ∀ x, assignAll t (crawlers.flatMap keys) x = crawlers.foldlM (fun _ c => m c) () x
  | [], _, x => rfl
  | c :: crawlers, h, x => by
    have hrest := assignAll_flatMap t crawlers
      (fun c' hc' => h c' (List.mem_cons_of_mem c hc'))
    rw [List.flatMap_cons, assignAll_append, List.foldlM_cons]
    exact bind_run_congr (h c List.mem_cons_self x).symm (fun _ x' _ => hrest x')

/-- **Batch indexing equals one-at-a-time indexing.**  From any stores, and for pages whose title
    and content can be read: `index_words` runs exactly as the calls `addEntry(Crawler)` on the
    pages in order, and as the calls `addEntry(String)` on the cleaned title words and then the
    cleaned content words of each — and likewise `index_pages` of the documents, for any pages.
    The runs agree in everything: the stores they leave, and where they stop if a `put` fails. -/
theorem batch_eq_single (E : Platform) (crawlers : List Crawler) (x : World)
    (h : ∀ c ∈ crawlers, readable E c = true) :
    (WordIndexer.indexWords E crawlers x
        = crawlers.foldlM (fun _ c => WordIndexer.addEntryCrawler E c) () x ∧
      WordIndexer.indexWords E crawlers x
        = (crawlers.flatMap (submitted E)).foldlM (fun _ w => WordIndexer.addEntry w) () x) ∧
    (DocumentIndexer.indexPages crawlers x
        = crawlers.foldlM (fun _ c => DocumentIndexer.addEntry c) () x ∧
      DocumentIndexer.indexPages crawlers x
        = (crawlers.map Crawler.url).foldlM
            (fun _ s => DocumentIndexer.addEntryString s) () x) := by
  refine ⟨⟨?_, ?_⟩, ?_, ?_⟩
  · rw [indexWords_run h]
    exact assignAll_flatMap .word crawlers (fun c hc x => addEntryCrawler_run (h c hc) x) x
  · rw [indexWords_run h]
    exact assignAll_eq .word _ x
  · rw [indexPages_run, assignAll_eq, List.foldlM_map]
    rfl
  · rw [indexPages_run]
    exact assignAll_eq .page _ x

/-- Two pages that share a word with each other and between title and content. -/
def sharedWords : List Crawler :=
  [Crawler.page "https://www.cse.ust.hk/".toList "ab".toList "2020-05-08".toList "120".toList
      ["ab".toList, "ab".toList] [],
    Crawler.page "https://www.cse.ust.hk/pg/".toList "ab".toList "2020-05-08".toList "80".toList
      ["ab".toList] []]

theorem readable_page {E : Platform} {url title date size : Str} {content links ws ws' : List Str}
    (htitle : StopWords.clean E (splitWs title) = .ok ws)
    (hcontent : StopWords.clean E content = .ok ws') :
    readable E (Crawler.page url title date size content links) = true := by
  have htitles : Crawler.titleTokens E (Crawler.page url title date size content links).parser
      = .ok ws := htitle
  have hcontents : Crawler.contentTokens E (Crawler.page url title date size content links).parser
      = .ok ws' := hcontent
  rw [readable, htitles, hcontents]
  rfl

theorem batch_eq_single_shared :
    (∀ c ∈ sharedWords, readable asciiPlatform c = true) ∧
    WordIndexer.indexWords asciiPlatform sharedWords ⟨Stores.empty, []⟩
      = (sharedWords.flatMap (submitted asciiPlatform)).foldlM
          (fun _ w => WordIndexer.addEntry w) () ⟨Stores.empty, []⟩ := by
  have htitle : StopWords.clean asciiPlatform (splitWs "ab".toList) = .ok ["ab".toList] :=
    StopWords.clean_ab 1
  have hread : ∀ c ∈ sharedWords, readable asciiPlatform c = true := by
    intro c hc
    rcases List.mem_pair.mp hc with rfl | rfl
    · exact readable_page htitle (StopWords.clean_ab 2)
    · exact readable_page htitle (StopWords.clean_ab 1)
  exact ⟨hread, (batch_eq_single asciiPlatform sharedWords ⟨Stores.empty, []⟩ hread).1.2⟩

end SearchEngine
