/-
  The link indexes as a graph of URLs.

  What the two link indexes are for can be said without IDs and without texts: `recentLinks` are
  the links a URL had when it was last indexed with any, `linkers` are the URLs that link to it,
  once for each link and each indexing.  `WebOf done s` says that the stores `s`, read through the
  table of page IDs, are that graph for the pages `done`.  Every `addEntry` that returns keeps it
  (`WebOf.addEntry`), so it holds behind every run: `link_indexes_exact`.
-/
import SearchEngine.RankMass
import SearchEngine.PartialParse
import Mathlib.Tactic.Common

namespace SearchEngine

open Text Numeral Effect NumberedMap ParentChildIndexer

/-! ## The graph the pages make -/

/-- `(Vector<String>) parsed.get(4)`, empty where it throws. -/
def Crawler.links (c : Crawler) : List Str := c.parser[4]?.getD []

/-- The links of a URL when it was last indexed with any. -/
def recentLinks (done : List Crawler) (url : Str) : List Str :=
  done.foldl (fun links c => if c.url = url ∧ c.links ≠ [] then c.links else links) []

/-- The URLs that link to a URL, in the order they were indexed. -/
def linkers (done : List Crawler) (url : Str) : List Str :=
  done.flatMap (fun c => List.replicate (c.links.count url) c.url)

/-- All URLs that the pages name. -/
def mentioned (done : List Crawler) : List Str := done.flatMap (fun c => c.url :: c.links)

theorem links_of_get {c : Crawler} {links : List Str} (h : vectorGet c.parser 4 = .ok links) :
    c.links = links := by
  rw [Crawler.links, vectorGet_ok.mp h]
  rfl

theorem recentLinks_snoc (done : List Crawler) (c : Crawler) (url : Str) :
    recentLinks (done ++ [c]) url
      = if c.url = url ∧ c.links ≠ [] then c.links else recentLinks done url := by
  rw [recentLinks, List.foldl_append, List.foldl_cons, List.foldl_nil, recentLinks]

theorem linkers_snoc (done : List Crawler) (c : Crawler) (url : Str) :
    linkers (done ++ [c]) url
      = linkers done url ++ List.replicate (c.links.count url) c.url := by
  rw [linkers, List.flatMap_append, List.flatMap_singleton, linkers]

theorem mem_linkers {done : List Crawler} {url url' : Str} :
    url' ∈ linkers done url ↔ ∃ c ∈ done, c.url = url' ∧ url ∈ c.links := by
  rw [linkers, List.mem_flatMap]
  refine exists_congr (fun c => and_congr_right (fun _ => ?_))
  rw [List.mem_replicate, ne_eq, List.count_eq_zero, not_not, and_comm]
  exact and_congr_left (fun _ => eq_comm)

theorem mem_mentioned {done : List Crawler} {url : Str} :
    url ∈ mentioned done ↔ ∃ c ∈ done, url = c.url ∨ url ∈ c.links := by
  simp only [mentioned, List.mem_flatMap, List.mem_cons]

/-- Recorded links are links of a page at that URL. -/
theorem recentLinks_cases (done : List Crawler) (url : Str) :
    recentLinks done url = [] ∨ ∃ c ∈ done, c.url = url ∧ recentLinks done url = c.links := by
  induction done using List.reverseRecOn with
  | nil => exact Or.inl rfl
  | append_singleton done c ih =>
    rw [recentLinks_snoc]
    by_cases hc : c.url = url ∧ c.links ≠ []
    · rw [if_pos hc]
      exact Or.inr ⟨c, by simp, hc.1, rfl⟩
    · rw [if_neg hc]
      refine ih.imp_right ?_
      rintro ⟨c', hc', hurl, hlinks⟩
      exact ⟨c', List.mem_append_left [c] hc', hurl, hlinks⟩

/-! ## One call, by URLs -/

theorem mem_issue {s : Stores} {key url : Str} :
    url ∈ s.issue .page key .document ↔ url = key ∨ url ∈ s .document := by
  cases hkey : (s .document)[key]? with
  | some id =>
    rw [Stores.issue_of_some (t := .page) hkey]
    constructor
    · exact Or.inr
    · rintro (rfl | h)
      · exact mem_iff_get.mpr ⟨id, hkey⟩
      · exact h
  | none =>
    have hfwd := Stores.issueBoth_fwd s .page key
    rw [Stores.issue_of_none (t := .page) hkey]
    rw [show s.issueBoth .page key .document = _ from hfwd, Std.ExtTreeMap.mem_insert]
    refine or_congr ?_ Iff.rfl
    rw [Std.LawfulEqCmp.compare_eq_iff_eq]
    exact eq_comm

theorem pageIDOf_some {s : Stores} {url id : Str} (h : (s .document)[url]? = some id) :
    pageIDOf s url = id := by
  rw [pageIDOf, h]

theorem get_pageIDOf {s : Stores} {url : Str} (h : url ∈ s .document) :
    (s .document)[url]? = some (pageIDOf s url) := by
  obtain ⟨id, hid⟩ := mem_iff_get.mp h
  rw [pageIDOf_some hid, hid]

/-- Different URLs have different IDs. -/
theorem TableExact.pageIDOf_inj {s : Stores} (h : TableExact .page s) {url url' : Str}
    (hurl : url ∈ s .document) (hurl' : url' ∈ s .document) :
    pageIDOf s url = pageIDOf s url' ↔ url = url' := by
  constructor
  · intro heq
    refine h.1.injective (get_pageIDOf hurl) ?_
    rw [heq]
    exact get_pageIDOf hurl'
  · rintro rfl
    rfl

/-- The entries of `s` are still there in `s'`. -/
def KeepsIDs (s s' : Stores) : Prop :=
  ∀ url id : Str, (s .document)[url]? = some id → (s' .document)[url]? = some id

theorem KeepsIDs.mem {s s' : Stores} (h : KeepsIDs s s') {url : Str} (hurl : url ∈ s .document) :
    url ∈ s' .document := by
  obtain ⟨id, hid⟩ := mem_iff_get.mp hurl
  exact mem_iff_get.mpr ⟨id, h url id hid⟩

theorem KeepsIDs.pageIDOf {s s' : Stores} (h : KeepsIDs s s') {url : Str}
    (hurl : url ∈ s .document) : pageIDOf s' url = pageIDOf s url :=
  pageIDOf_some (h url _ (get_pageIDOf hurl))

/-- One turn of the loop over the links. -/
theorem addLink_named {P asu asu' link : Str} {x x' : World}
    (h : addLink P asu link x = .ok asu' x') :
    asu' = asu ++ (pageIDOf x'.stores link ++ sep) ∧ KeepsIDs x.stores x'.stores ∧
      ∀ url, url ∈ x'.stores .document ↔ url = link ∨ url ∈ x.stores .document := by
  obtain ⟨id, hid, rfl, hx'⟩ := addLink_ok h
  have hdoc : x'.stores .document = x.stores.issue .page link .document := by
    rw [hx', Stores.put_other _ (by decide)]
  refine ⟨by rw [pageIDOf_some hid], fun url k hk => ?_, fun url => ?_⟩
  · rw [hdoc]
    exact Stores.issue_mono x.stores .page .page hk
  · rw [hdoc, mem_issue]

/-- The loop: the text names the IDs of the links, one by one. -/
theorem foldlM_addLink_named {P : Str} :
    ∀ (links : List Str) {asu asu' : Str} {x x' : World},
      links.foldlM (addLink P) asu x = .ok asu' x' →
      asu' = asu ++ (links.map (pageIDOf x'.stores)).flatMap (· ++ sep) ∧
        KeepsIDs x.stores x'.stores ∧
        ∀ url, url ∈ x'.stores .document ↔ url ∈ links ∨ url ∈ x.stores .document
  | [], asu, asu', x, x', h => by
    obtain ⟨rfl, rfl⟩ := pure_ok.mp h
    exact ⟨by simp, fun _ _ hk => hk, fun url => by simp⟩
  | link :: links, asu, asu', x, x', h => by
    obtain ⟨asu₁, x₁, hstep, hrest⟩ := foldlM_cons_ok.mp h
    obtain ⟨rfl, hkeep, hmem⟩ := addLink_named hstep
    obtain ⟨rfl, hkeep', hmem'⟩ := foldlM_addLink_named links hrest
    have hlink : link ∈ x₁.stores .document := (hmem link).mpr (Or.inl rfl)
    refine ⟨?_, fun url k hk => hkeep' url k (hkeep url k hk), fun url => ?_⟩
    · rw [List.map_cons, List.flatMap_cons, hkeep'.pageIDOf hlink, List.append_assoc]
    · rw [hmem', hmem, List.mem_cons]
      tauto

/-- A call of `addEntry` that returns. -/
theorem addEntry_named {c : Crawler} {x x' : World} {u : Unit}
    (h : ParentChildIndexer.addEntry c x = .ok u x') :
    KeepsIDs x.stores x'.stores ∧
      (∀ url, url ∈ x'.stores .document ↔
        (url = c.url ∨ url ∈ c.links) ∨ url ∈ x.stores .document) ∧
      (c.links ≠ [] → (x'.stores .parentChildIndex)[pageIDOf x.stores c.url]?
        = some (listed (c.links.map (pageIDOf x'.stores)))) := by
  obtain ⟨links, hlinks, hrest⟩ := lift_bind_ok.mp h
  obtain ⟨P, x₁, hid, hrest₁⟩ := bind_ok.mp hrest
  obtain ⟨hx₁, hP, -⟩ := pageID_ok hid
  rw [links_of_get hlinks]
  have hkeep₁ : KeepsIDs x.stores x₁.stores := by
    intro url k hk
    rw [hx₁]
    exact Stores.issue_mono x.stores .page .page hk
  have hmem₁ : ∀ url, url ∈ x₁.stores .document ↔ url = c.url ∨ url ∈ x.stores .document := by
    intro url
    rw [hx₁, mem_issue]
  by_cases hne : 0 < links.length
  · rw [if_pos hne] at hrest₁
    obtain ⟨asu, x₂, hloop, hput⟩ := bind_ok.mp hrest₁
    obtain ⟨rfl, hkeep₂, hmem₂⟩ := foldlM_addLink_named links hloop
    have hx' := Db.put_ok hput
    have hdoc : x'.stores .document = x₂.stores .document := by
      rw [hx', Stores.put_other _ (by decide)]
    have hids : pageIDOf x'.stores = pageIDOf x₂.stores := by
      funext url
      rw [pageIDOf, hdoc, pageIDOf]
    refine ⟨fun url k hk => ?_, fun url => ?_, fun _ => ?_⟩
    · rw [hdoc]
      exact hkeep₂ url k (hkeep₁ url k hk)
    · rw [hdoc, hmem₂, hmem₁]
      tauto
    · rw [hids, hx', Stores.put_same, ← hP, get_insert_self]
      rfl
  · obtain rfl : links = [] := List.length_eq_zero_iff.mp (by omega)
    rw [if_neg hne] at hrest₁
    obtain ⟨-, rfl⟩ := pure_ok.mp hrest₁
    exact ⟨hkeep₁, fun url => by simp [hmem₁], fun hcon => absurd rfl hcon⟩

/-- The IDs that such a call lists are those of the links. -/
theorem addEntry_linked {c : Crawler} {x x' : World} {u : Unit}
    (h : ParentChildIndexer.addEntry c x = .ok u x') (hx : LinksOk x.stores) :
    LinksAdded c.url c.links (c.links.map (pageIDOf x'.stores)) x.stores x'.stores := by
  obtain ⟨links, ids, hlinks, hadd⟩ := addEntry_links h hx
  obtain ⟨-, hnamed, hrecord⟩ := addEntry_named h
  rw [← links_of_get hlinks] at hadd
  obtain rfl : ids = c.links.map (pageIDOf x'.stores) := by
    by_cases hne : c.links = []
    · rw [hne, List.map_nil, ← List.length_eq_zero_iff, hadd.length, hne, List.length_nil]
    · have hids : ids ≠ [] := by
        rw [← List.length_pos_iff, hadd.length, List.length_pos_iff]
        exact hne
      have hread := hadd.children (pageIDOf x.stores c.url)
      rw [if_pos ⟨rfl, hids⟩, SearchEngine.children, hrecord hne] at hread
      rw [← hread]
      refine splitOn_listed (by simpa using hne) (fun id hid => ?_)
      obtain ⟨link, hlink, rfl⟩ := List.mem_map.mp hid
      have hmem : link ∈ x'.stores .document := (hnamed link).mpr (Or.inl (Or.inr hlink))
      obtain ⟨n, -, -, hn⟩ := hadd.ok.page.1.bounded (get_pageIDOf hmem)
      rw [hn]
      exact isDigits_decimal n
  exact hadd

/-- Nothing but a `put` or a missing list of links can throw. -/
theorem parentChild_runs {c : Crawler} {links : List Str}
    (hlinks : vectorGet c.parser 4 = .ok links) :
    Runs NoFaults (ParentChildIndexer.addEntry c) := by
  refine Runs.lift_bind hlinks (Runs.bind (ensureID_runs .page c.url) (fun p => ?_))
  split
  · exact Runs.bind (Runs.foldlM links _ (fun asu link _ => addLink_runs p asu link))
      (fun asu => put_runs _ _ _)
  · exact Runs.pure ()

theorem parentChildPages_runs {crawlers : List Crawler}
    (h : ∀ c ∈ crawlers, ∃ links, vectorGet c.parser 4 = .ok links) :
    Runs NoFaults (ParentChildIndexer.indexPages crawlers) := by
  refine Runs.foldlM crawlers () (fun _ c hc => ?_)
  obtain ⟨links, hlinks⟩ := h c hc
  exact parentChild_runs hlinks

/-! ## The stores are the graph -/

/-- The stores, read by URLs, are the graph of the pages `done`. -/
structure WebOf (done : List Crawler) (s : Stores) : Prop where
  graph : GraphOk done s
  named : ∀ url, url ∈ s .document ↔ url ∈ mentioned done
  children : ∀ url ∈ s .document,
    children s (pageIDOf s url) = (recentLinks done url).map (pageIDOf s)
  parents : ∀ url ∈ s .document,
    parents s (pageIDOf s url) = (linkers done url).map (pageIDOf s)

theorem webOf_empty : WebOf [] Stores.empty := by
  have hnone : ∀ url : Str, url ∉ Stores.empty .document :=
    fun url => Std.ExtTreeMap.not_mem_empty
  exact ⟨graphOk_empty, fun url => by simp [hnone, mentioned],
    fun url hurl => absurd hurl (hnone url), fun url hurl => absurd hurl (hnone url)⟩

/-- IDs of different URLs are counted like the URLs. -/
theorem count_map_pageIDOf {s : Stores} (h : TableExact .page s) {urls : List Str} {url : Str}
    (hurls : ∀ u ∈ urls, u ∈ s .document) (hurl : url ∈ s .document) :
    (urls.map (pageIDOf s)).count (pageIDOf s url) = urls.count url := by
  rw [List.count_eq_countP, List.countP_map, List.count_eq_countP]
  refine List.countP_congr (fun u hu => ?_)
  simp [h.pageIDOf_inj (hurls u hu) hurl]

namespace WebOf

variable {done : List Crawler} {s : Stores}

theorem recentLinks_named (h : WebOf done s) {url link : Str}
    (hlink : link ∈ recentLinks done url) : link ∈ s .document := by
  rcases recentLinks_cases done url with hnil | ⟨c, hc, -, heq⟩
  · rw [hnil] at hlink
    cases hlink
  · rw [heq] at hlink
    exact (h.named link).mpr (mem_mentioned.mpr ⟨c, hc, Or.inr hlink⟩)

theorem linkers_named (h : WebOf done s) {url url' : Str} (hlinker : url' ∈ linkers done url) :
    url' ∈ s .document := by
  obtain ⟨c, hc, rfl, -⟩ := mem_linkers.mp hlinker
  exact (h.named c.url).mpr (mem_mentioned.mpr ⟨c, hc, Or.inl rfl⟩)

/-- A URL that is not named has no links and no linkers. -/
theorem of_not_named (h : WebOf done s) {url : Str} (hurl : url ∉ s .document) :
    recentLinks done url = [] ∧ linkers done url = [] := by
  have hno : ∀ c ∈ done, url ≠ c.url ∧ url ∉ c.links := by
    intro c hc
    constructor
    · exact fun heq => hurl ((h.named url).mpr (mem_mentioned.mpr ⟨c, hc, Or.inl heq⟩))
    · exact fun hmem => hurl ((h.named url).mpr (mem_mentioned.mpr ⟨c, hc, Or.inr hmem⟩))
  constructor
  · refine (recentLinks_cases done url).resolve_right ?_
    rintro ⟨c, hc, heq, -⟩
    exact (hno c hc).1 heq.symm
  · refine List.eq_nil_iff_forall_not_mem.mpr (fun url' hmem => ?_)
    obtain ⟨c, hc, -, hlink⟩ := mem_linkers.mp hmem
    exact (hno c hc).2 hlink

/-- An ID that is not issued yet has no record. -/
theorem of_not_issued (h : WebOf done s) {id : Str} (hid : ¬ Issued .page id s) :
    SearchEngine.children s id = [] ∧ SearchEngine.parents s id = [] := by
  constructor
  · by_contra hne
    exact hid (h.graph.issued_of_record ((h.graph.links.mem_iff_children id).mpr hne))
  · by_contra hne
    exact hid (h.graph.keys id ((h.graph.links.mem_iff_parents id).mpr hne))

/-- **One call of `addEntry`.** -/
theorem addEntry {c : Crawler} {x x' : World} {u : Unit} (hx : WebOf done x.stores)
    (h : ParentChildIndexer.addEntry c x = .ok u x') : WebOf (done ++ [c]) x'.stores := by
  have hadd := addEntry_linked h hx.graph.links
  obtain ⟨hkeep, hnamed, -⟩ := addEntry_named h
  have hgraph := hx.graph.addEntry h
  have hself := document_addEntry h
  have hP : pageIDOf x.stores c.url = pageIDOf x'.stores c.url := (pageIDOf_some hself).symm
  have hcurl : c.url ∈ x'.stores .document := mem_iff_get.mpr ⟨_, hself⟩
  have hclinks : ∀ link ∈ c.links, link ∈ x'.stores .document :=
    fun link hlink => (hnamed link).mpr (Or.inl (Or.inr hlink))
  -- what was recorded before, by the IDs of now
  have hold : ∀ url ∈ x'.stores .document,
      SearchEngine.children x.stores (pageIDOf x'.stores url)
        = (recentLinks done url).map (pageIDOf x'.stores) ∧
      SearchEngine.parents x.stores (pageIDOf x'.stores url)
        = (linkers done url).map (pageIDOf x'.stores) := by
    intro url hurl
    by_cases hurl₀ : url ∈ x.stores .document
    · rw [hkeep.pageIDOf hurl₀, hx.children url hurl₀, hx.parents url hurl₀]
      constructor
      · refine List.map_congr_left (fun link hlink => ?_)
        exact (hkeep.pageIDOf (hx.recentLinks_named hlink)).symm
      · refine List.map_congr_left (fun url' hurl' => ?_)
        exact (hkeep.pageIDOf (hx.linkers_named hurl')).symm
    · have hnot : ¬ Issued .page (pageIDOf x'.stores url) x.stores := by
        rintro ⟨url', hurl'⟩
        have hback := hgraph.exact.1.injective (hkeep url' _ hurl') (get_pageIDOf hurl)
        exact hurl₀ (mem_iff_get.mpr ⟨_, hback ▸ hurl'⟩)
      obtain ⟨hchi, hpar⟩ := hx.of_not_issued hnot
      obtain ⟨hrecent, hlinkers⟩ := hx.of_not_named hurl₀
      rw [hchi, hpar, hrecent, hlinkers]
      exact ⟨rfl, rfl⟩
  refine ⟨hgraph, fun url => ?_, fun url hurl => ?_, fun url hurl => ?_⟩
  · rw [hnamed, hx.named, mentioned, mentioned, List.flatMap_append, List.flatMap_singleton,
      List.mem_append, List.mem_cons, or_comm]
  · have hiff : (pageIDOf x'.stores url = pageIDOf x'.stores c.url ∧
        c.links.map (pageIDOf x'.stores) ≠ []) ↔ c.url = url ∧ c.links ≠ [] := by
      rw [hgraph.exact.pageIDOf_inj hurl hcurl, ne_eq, List.map_eq_nil_iff, eq_comm]
    rw [hadd.children, recentLinks_snoc, hP, (hold url hurl).1]
    by_cases hc : c.url = url ∧ c.links ≠ []
    · rw [if_pos (hiff.mpr hc), if_pos hc]
    · rw [if_neg (fun hcon => hc (hiff.mp hcon)), if_neg hc]
  · rw [hadd.parents, linkers_snoc, List.map_append, List.map_replicate, (hold url hurl).2, hP,
      count_map_pageIDOf hgraph.exact hclinks hurl]

/-- The record of a page, decoded. -/
theorem decode (h : WebOf done s) {urls : List Str} (hurls : ∀ url ∈ urls, url ∈ s .document) :
    (urls.map (pageIDOf s)).map (fun id => (s .invertedDocument)[id]?) = urls.map some := by
  rw [List.map_map]
  refine List.map_congr_left (fun url hurl => ?_)
  exact (h.graph.exact.2 _ url).mpr (get_pageIDOf (hurls url hurl))

end WebOf

/-- Whole runs of link indexing. -/
theorem webOf_linkRun {E : Platform} :
    ∀ (pages : List (Crawler × List Bool)) {done : List Crawler} {s : Stores},
      NoneAborted E (linkRun pages) s → WebOf done s →
      WebOf (done ++ pages.map Prod.fst) (runAll E (linkRun pages) s)
  | [], done, s, _, hs => by
    rw [List.map_nil, List.append_nil]
    exact hs
  | (c, fs) :: pages, done, s, hret, hs => by
    obtain ⟨x, hrun, hafter⟩ := Attempt.ok_of_returns hret.1
    have hstep : WebOf (done ++ [c]) (Attempt.after E ⟨.parentChildAddEntry c, fs⟩ s) := by
      rw [hafter]
      exact WebOf.addEntry (x := ⟨s, fs⟩) hs hrun
    have hrest := webOf_linkRun pages hret.2 hstep
    rw [List.append_assoc] at hrest
    exact hrest

/-- A batch. -/
theorem webOf_batch {E : Platform} {crawlers : List Crawler} {faults : List Bool}
    (hret : returns (Attempt.outcome E ⟨.parentChildIndexPages crawlers, faults⟩ Stores.empty)
      = true) :
    WebOf crawlers (Attempt.after E ⟨.parentChildIndexPages crawlers, faults⟩ Stores.empty) := by
  obtain ⟨x, hrun, hafter⟩ := Attempt.ok_of_returns hret
  rw [hafter]
  refine foldlM_batch (I := fun done (y : World) => WebOf done y.stores) ?_ crawlers [] rfl
    webOf_empty hrun
  intro done c todo y y' _ hy hstep
  exact hy.addEntry hstep

/-- Pages whose links can be read are indexed, if no `put` throws. -/
theorem noneAborted_linkRun {E : Platform} :
    ∀ (crawlers : List Crawler) (s : Stores),
      (∀ c ∈ crawlers, ∃ links, vectorGet c.parser 4 = .ok links) →
      NoneAborted E (linkRun (crawlers.map (fun c => (c, [])))) s
  | [], _, _ => trivial
  | c :: crawlers, s, h => by
    obtain ⟨links, hlinks⟩ := h c (by simp)
    refine ⟨returns_of_runs (.parentChildAddEntry c) (parentChild_runs hlinks) s, ?_⟩
    exact noneAborted_linkRun crawlers _ (fun c' hc' => h c' (List.mem_cons_of_mem c hc'))

/-- **The link indexes are the graph of the indexed pages.**  After any run of `addEntry` calls
    from empty stores that all return, with URLs indexed any number of times: the URLs with an ID
    are those the pages name; the children of a URL, decoded, are its links when it was last
    indexed with any, in order; and its parents, decoded, are the URLs that link to it, in the
    order of indexing, once for each link. -/
theorem link_indexes_exact (E : Platform) (pages : List (Crawler × List Bool))
    (hret : NoneAborted E (linkRun pages) Stores.empty) :
    let s := runAll E (linkRun pages) Stores.empty
    (∀ url, url ∈ s .document ↔ url ∈ mentioned (pages.map Prod.fst)) ∧
    ∀ url id : Str, (s .document)[url]? = some id →
      (children s id).map (fun k => (s .invertedDocument)[k]?)
        = (recentLinks (pages.map Prod.fst) url).map some ∧
      (parents s id).map (fun k => (s .invertedDocument)[k]?)
        = (linkers (pages.map Prod.fst) url).map some := by
  intro s
  have hweb : WebOf (pages.map Prod.fst) s := webOf_linkRun pages hret webOf_empty
  refine ⟨hweb.named, fun url id hid => ?_⟩
  have hurl : url ∈ s .document := mem_iff_get.mpr ⟨id, hid⟩
  rw [← pageIDOf_some hid, hweb.children url hurl, hweb.parents url hurl]
  exact ⟨hweb.decode (fun link hlink => hweb.recentLinks_named hlink),
    hweb.decode (fun url' hurl' => hweb.linkers_named hurl')⟩

/-- A page that is indexed twice counts as two linkers, and has its links once. -/
theorem links_of_page_indexed_twice :
    let s := runAll asciiPlatform (linkRun [(linkingPage, []), (linkingPage, [])]) Stores.empty
    ∃ a b : Str, (s .document)[['a']]? = some a ∧ (s .document)[['b']]? = some b ∧
      (children s a).map (fun k => (s .invertedDocument)[k]?) = [some ['b']] ∧
      (parents s b).map (fun k => (s .invertedDocument)[k]?) = [some ['a'], some ['a']] := by
  intro s
  have hret : NoneAborted asciiPlatform (linkRun [(linkingPage, []), (linkingPage, [])])
      Stores.empty := by
    refine noneAborted_linkRun [linkingPage, linkingPage] _ (fun c hc => ⟨[['b']], ?_⟩)
    rcases List.mem_pair.mp hc with rfl | rfl <;> rfl
  obtain ⟨hnamed, hexact⟩ := link_indexes_exact asciiPlatform _ hret
  obtain ⟨a, ha⟩ := mem_iff_get.mp ((hnamed ['a']).mpr (by decide))
  obtain ⟨b, hb⟩ := mem_iff_get.mp ((hnamed ['b']).mpr (by decide))
  exact ⟨a, b, ha, hb, (hexact ['a'] a ha).1, (hexact ['b'] b hb).2⟩

end SearchEngine
