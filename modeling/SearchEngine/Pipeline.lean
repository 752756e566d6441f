/-
  `SearchEngine.main`: crawl, then index the pages found — and the same again on the next start.

  `main` hands `crawl` the store `forwardIndex` for its visited test, but `ForwardIndexer` keys
  that store by PAGE ID.  A link of the host is never a numeral, so the test never hits and every
  run walks over the same pages again (`admissible_forwardIndex`).

  `Pipeline` are the states that any number of runs reach from empty stores, over any webs and
  with any failing `put`s; `no_recrawl_iff` says when the filter was not needed anyway.
-/
import SearchEngine.Crawl
import SearchEngine.ForwardRecord
import Mathlib.Tactic.Common

namespace SearchEngine

open Text Numeral Effect NumberedMap

/-- Where `main` starts. -/
def seed : Str := "https://www.cse.ust.hk/".toList

/-- What `main` runs: the crawl of ten pages, and the forward index of what it returns.  `none`
    is a crawl that has used up its budget of fetches. -/
def main (E : Platform) (web : Web) (budget : Nat) : IndexM (Option (List Crawler)) := do
  match ← Crawler.crawl web .forwardIndex budget 10 seed with
  | none => pure none
  | some crawlers =>
    ForwardIndexer.indexPages E crawlers
    pure (some crawlers)

/-- The stores behind any number of runs of `main`, with the web of each and whether it came to
    its end: a run whose crawl returns may still be cut short while it indexes. -/
inductive Pipeline (E : Platform) : List (Web × Bool) → Stores → Prop where
  | start : Pipeline E [] Stores.empty
  | run {runs : List (Web × Bool)} {s : Stores} (h : Pipeline E runs s) (web : Web)
      (faults : List Bool) {budget : Nat} {crawlers : List Crawler} {x : World}
      (hcrawl : Crawler.crawl web .forwardIndex budget 10 seed ⟨s, faults⟩
        = .ok (some crawlers) x) :
      Pipeline E (runs ++ [(web, returns (main E web budget ⟨s, faults⟩))])
        (finalState (main E web budget ⟨s, faults⟩)).stores

/-- The page at `url` has a forward record under its page ID. -/
def HasRecord (s : Stores) (url : Str) : Prop :=
  ∃ id : Str, (s .document)[url]? = some id ∧ id ∈ s .forwardIndex

/-! ## Records -/

/-- Every record is filed under the ID of a page of the kind `P`. -/
structure Filed (P : Str → Prop) (s : Stores) : Prop where
  page : TableOk .page s
  owner : ∀ id ∈ s .forwardIndex, ∃ url : Str, P url ∧ (s .document)[url]? = some id

theorem Filed.mono {P P' : Str → Prop} (hP : ∀ url, P url → P' url) {s : Stores} (h : Filed P s) :
    Filed P' s := by
  refine ⟨h.page, fun id hid => ?_⟩
  obtain ⟨url, hurl, hdoc⟩ := h.owner id hid
  exact ⟨url, hP url hurl, hdoc⟩

theorem filed_empty (P : Str → Prop) : Filed P Stores.empty :=
  ⟨(tableExact_empty .page).ok, fun _ hid => absurd hid Std.ExtTreeMap.not_mem_empty⟩

/-- New IDs file nothing. -/
theorem keptByIssue_filed (P : Str → Prop) : KeptByIssue (Filed P) (Filed P) := by
  have hkeep : ∀ (s s' : Stores), TableOk .page s' → s' .forwardIndex = s .forwardIndex →
      (∀ url id : Str, (s .document)[url]? = some id → (s' .document)[url]? = some id) →
      Filed P s → Filed P s' := by
    intro s s' htable hforward hdoc hs
    refine ⟨htable, fun id hid => ?_⟩
    rw [hforward] at hid
    obtain ⟨url, hurl, hget⟩ := hs.owner id hid
    exact ⟨url, hurl, hdoc url id hget⟩
  refine ⟨fun _ hs => hs, fun s t key hs hnone => ?_, fun s t key hs hnone => ?_⟩
  · refine hkeep s _ (tableOk_issueFwd hs.page hnone) ?_ (fun url id hget => ?_) hs
    · exact Stores.issueFwd_other s key (by cases t <;> decide)
    · exact (stable_entry .page url id).half s t key hget hnone
  · refine hkeep s _ (tableOk_issueBoth hs.page hnone) ?_ (fun url id hget => ?_) hs
    · exact Stores.issueBoth_other s key (by cases t <;> decide) (by cases t <;> decide)
    · exact (stable_entry .page url id).whole s t key hget hnone

/-- A record under the ID of a page of the kind `P`. -/
theorem Filed.put {P : Str → Prop} {s : Stores} (h : Filed P s) {url id : Str} (hurl : P url)
    (hid : (s .document)[url]? = some id) (v : Str) : Filed P (s.put .forwardIndex id v) := by
  have hdoc : s.put .forwardIndex id v .document = s .document := Stores.put_other _ (by decide) _ _
  refine ⟨tableOk_put (Db.isIndex_of_not_mem (by decide)) _ _ h.page, fun id' hid' => ?_⟩
  rw [Stores.put_same, Std.ExtTreeMap.mem_insert] at hid'
  rw [hdoc]
  rcases hid' with heq | hid'
  · obtain rfl : id = id' := Std.LawfulEqCmp.eq_of_compare heq
    exact ⟨url, hurl, hid⟩
  · exact h.owner id' hid'

theorem KeptByIssue.and {I I' R R' : Stores → Prop} (h : KeptByIssue I R)
    (h' : KeptByIssue I' R') : KeptByIssue (fun s => I s ∧ I' s) (fun s => R s ∧ R' s) :=
  ⟨fun s hs => ⟨h.abort s hs.1, h'.abort s hs.2⟩,
    fun s t key hs hnone => ⟨h.half s t key hs.1 hnone, h'.half s t key hs.2 hnone⟩,
    fun s t key hs hnone => ⟨h.whole s t key hs.1 hnone, h'.whole s t key hs.2 hnone⟩⟩

/-- **Indexing a page of the kind `P`** files its record under its own ID, wherever it stops. -/
theorem forwardAddEntry_filed {P : Str → Prop} (E : Platform) {c : Crawler} (hc : P c.url) :
    Preserves (fun x : World => Filed P x.stores) (ForwardIndexer.addEntry E c) := by
  have hlift : ∀ {α : Type} {I : World → Prop} (x : Except Exn α),
      (∀ x, I x → Filed P x.stores) →
      Triple I (lift x) (fun _ x => I x) (fun x => Filed P x.stores) :=
    fun x hI => Triple.lift (fun _ _ x hx => hx) (fun x hx => hI x hx)
  refine Triple.bind (hlift _ (fun _ hx => hx)) (fun content => ?_)
  refine Triple.bind (hlift _ (fun _ hx => hx)) (fun links => ?_)
  refine Triple.bind (ensureID_triple (keptByIssue_filed P) .page c.url) (fun pageID => ?_)
  refine Triple.bind (hlift _ (fun _ hx => hx.1)) (fun title => ?_)
  refine Triple.bind (hlift _ (fun _ hx => hx.1)) (fun lastModDate => ?_)
  refine Triple.bind (hlift _ (fun _ hx => hx.1)) (fun size => ?_)
  refine Triple.bind (hlift _ (fun _ hx => hx.1)) (fun cleaned => ?_)
  have hboth : KeptByIssue (fun s => Filed P s ∧ (s .document)[c.url]? = some pageID)
      (fun s => Filed P s ∧ (s .document)[c.url]? = some pageID) :=
    (keptByIssue_filed P).and (stable_entry .page c.url pageID).toKeptByIssue
  refine Triple.bind
    (Q := fun _ (x : World) => Filed P x.stores ∧ (x.stores .document)[c.url]? = some pageID)
    ?_ (fun map => ?_)
  · refine (Triple.foldlM (R := fun (x : World) => Filed P x.stores ∧
        (x.stores .document)[c.url]? = some pageID) (I := fun _ (x : World) => Filed P x.stores ∧
        (x.stores .document)[c.url]? = some pageID) cleaned [] (fun map key _ => ?_)).weaken
      (fun _ hx => hx) (fun _ _ hx => hx) (fun _ hx => hx.1)
    refine Triple.bind (ensureID_triple hboth .word key) (fun ID => ?_)
    exact Triple.pure (fun x hx => hx.1)
  · exact Db.put_triple (fun x _ hx => hx.1.put hc hx.2 _) (fun x _ hx => hx.1)

theorem indexPages_filed {P : Str → Prop} (E : Platform) {crawlers : List Crawler}
    (h : ∀ c ∈ crawlers, P c.url) :
    Preserves (fun x : World => Filed P x.stores) (ForwardIndexer.indexPages E crawlers) :=
  Triple.foldlM (I := fun _ (x : World) => Filed P x.stores) crawlers ()
    (fun _ c hc => forwardAddEntry_filed E (h c hc))

/-- A record is never taken away. -/
theorem stable_hasRecord (url : Str) :
    Stable (fun s => HasRecord s url) (fun s => HasRecord s url) := by
  have hkeep : ∀ (s s' : Stores),
      (∀ id : Str, (s .document)[url]? = some id → (s' .document)[url]? = some id) →
      (∀ id, id ∈ s .forwardIndex → id ∈ s' .forwardIndex) →
      HasRecord s url → HasRecord s' url := by
    rintro s s' hdoc hforward ⟨id, hget, hid⟩
    exact ⟨id, hdoc id hget, hforward id hid⟩
  refine KeptByIssue.stable ⟨fun _ hs => hs, fun s t key hs hnone => ?_,
    fun s t key hs hnone => ?_⟩ (fun s d k v hd hs => ?_)
  · refine hkeep s _ (fun id hget => (stable_entry .page url id).half s t key hget hnone)
      (fun id hid => ?_) hs
    rw [Stores.issueFwd_other s key (by cases t <;> decide)]
    exact hid
  · refine hkeep s _ (fun id hget => (stable_entry .page url id).whole s t key hget hnone)
      (fun id hid => ?_) hs
    rw [Stores.issueBoth_other s key (by cases t <;> decide) (by cases t <;> decide)]
    exact hid
  · refine hkeep s _ (fun id hget => ?_) (fun id hid => ?_) hs
    · have hne : d ≠ .document := (hd .page).1
      rw [Stores.put_other s hne.symm]
      exact hget
    · by_cases hdf : Db.forwardIndex = d
      · subst hdf
        rw [Stores.put_same]
        exact Std.ExtTreeMap.mem_insert.mpr (Or.inr hid)
      · rw [Stores.put_other s hdf]
        exact hid

/-- Every page that is indexed gets a record. -/
theorem forwardAddEntry_hasRecord {E : Platform} {c : Crawler} {x x' : World} {u : Unit}
    (h : ForwardIndexer.addEntry E c x = .ok u x') : HasRecord x'.stores c.url := by
  obtain ⟨title, date, size, content, links, hc⟩ := ForwardIndexer.page_of_addEntry h
  rw [hc] at h
  obtain ⟨cleaned, hadd⟩ := ForwardIndexer.addEntry_ok h
  refine ⟨pageIDOf x.stores c.url, hadd.pageID, ?_⟩
  rw [hadd.forwardIndex]
  exact Std.ExtTreeMap.mem_insert_self

theorem indexPages_hasRecord {E : Platform} {u : Unit} :
    ∀ (crawlers : List Crawler) {x x' : World},
      crawlers.foldlM (fun _ c => ForwardIndexer.addEntry E c) () x = .ok u x' →
      (∀ url, HasRecord x.stores url → HasRecord x'.stores url) ∧
      ∀ c ∈ crawlers, HasRecord x'.stores c.url
  | [], x, x', h => by
    obtain ⟨-, rfl⟩ := pure_ok.mp h
    exact ⟨fun _ hx => hx, by simp⟩
  | c :: crawlers, x, x', h => by
    obtain ⟨u₁, x₁, hstep, hrest⟩ := foldlM_cons_ok.mp h
    obtain ⟨hkeep, hall⟩ := indexPages_hasRecord crawlers hrest
    refine ⟨fun url hx => hkeep url ?_, fun c' hc' => ?_⟩
    · exact ((stable_hasRecord url).forwardAddEntry E c).of_ok hx hstep
    · rcases List.mem_cons.mp hc' with rfl | hc'
      · exact hkeep _ (forwardAddEntry_hasRecord hstep)
      · exact hall c' hc'

/-! ## The filter never hits -/

/-- The links of a page that stay on the host. -/
def hostLinks (web : Web) (url : Str) : List Str :=
  match vectorGet (web.page url).parser 4 with
  | .ok links => links.filter (fun link => contains link Crawler.host)
  | .error _ => []

/-- A link of the host is no page ID, so it has no entry in a store keyed by page IDs. -/
theorem admissible_forwardIndex {P : Str → Prop} {s : Stores} (h : Filed P s) (web : Web) :
    Crawler.admissible web .forwardIndex s = hostLinks web := by
  have hadmits : ∀ link, Crawler.admits .forwardIndex s link = contains link Crawler.host := by
    intro link
    rw [Crawler.admits]
    cases hhost : contains link Crawler.host with
    | false => rfl
    | true =>
      have hnone : (s .forwardIndex)[link]? = none := by
        rw [← Option.not_isSome_iff_eq_none, Std.ExtTreeMap.isSome_getElem?_iff_mem]
        intro hmem
        obtain ⟨url, -, hurl⟩ := h.owner link hmem
        obtain ⟨n, -, -, rfl⟩ := h.page.1.bounded hurl
        have hc : 'c' ∈ decimal n := mem_of_contains hhost 'c' (by decide)
        exact (isDigits_decimal n).not_mem (by decide) hc
      rw [hnone]
      rfl
  funext url
  unfold Crawler.admissible hostLinks
  cases vectorGet (web.page url).parser 4 with
  | error e => rfl
  | ok links => exact List.filter_congr (fun link _ => hadmits link)

/-! ## Runs of the pipeline -/

/-- The nine links that a run over the web collects. -/
def OnWalk (web : Web) (url : Str) : Prop := ∃ us, Walk (hostLinks web) 9 seed us ∧ url ∈ us

/-- What a run's crawl returns, whatever earlier runs have stored. -/
theorem crawl_of_filed {P : Str → Prop} {s : Stores} (h : Filed P s) {web : Web}
    {faults : List Bool} {crawlers : List Crawler} {x : World} :
    (∃ budget, Crawler.crawl web .forwardIndex budget 10 seed ⟨s, faults⟩
        = .ok (some crawlers) x) ↔
      x = ⟨s, faults⟩ ∧ ∃ us, Walk (hostLinks web) 9 seed us ∧
        crawlers = (seed :: us).map web.page := by
  rw [Crawler.crawl_iff]
  show x = _ ∧ (∃ us, Walk (Crawler.admissible web .forwardIndex s) 9 seed us ∧ _) ↔ _
  rw [admissible_forwardIndex h]

/-- The pages that a run's crawl returns: the seed and the walk. -/
theorem url_of_crawled {web : Web} {us : List Str} {c : Crawler}
    (hwalk : Walk (hostLinks web) 9 seed us) (hc : c ∈ (seed :: us).map web.page) :
    c.url = seed ∨ OnWalk web c.url := by
  obtain ⟨url, hurl, rfl⟩ := List.mem_map.mp hc
  rw [web.page_url]
  rcases List.mem_cons.mp hurl with rfl | hurl
  · exact Or.inl rfl
  · exact Or.inr ⟨us, hwalk, hurl⟩

/-- A run whose crawl returned goes on to index what it returned. -/
theorem main_of_crawl {E : Platform} {web : Web} {budget : Nat} {crawlers : List Crawler}
    {w x : World} (h : Crawler.crawl web .forwardIndex budget 10 seed w = .ok (some crawlers) x) :
    main E web budget w
      = (ForwardIndexer.indexPages E crawlers >>= fun _ => pure (some crawlers)) x :=
  bind_run_ok h _

/-- **The records of earlier runs** are those of the seed and of pages on their walks. -/
theorem Pipeline.filed {E : Platform} {runs : List (Web × Bool)} {s : Stores}
    (h : Pipeline E runs s) : Filed (fun url => url = seed ∨ ∃ r ∈ runs, OnWalk r.1 url) s := by
  induction h with
  | start => exact filed_empty _
  | @run runs s _ web faults budget crawlers x hcrawl ih =>
    obtain ⟨rfl, us, hwalk, rfl⟩ := (crawl_of_filed ih).mp ⟨budget, hcrawl⟩
    have hstart : Filed (fun url => url = seed ∨
        ∃ r ∈ runs ++ [(web, returns (main E web budget ⟨s, faults⟩))], OnWalk r.1 url) s := by
      refine ih.mono (fun url hurl => hurl.imp_right ?_)
      rintro ⟨r, hr, hon⟩
      exact ⟨r, List.mem_append_left _ hr, hon⟩
    have hpages : ∀ c ∈ (seed :: us).map web.page, c.url = seed ∨
        ∃ r ∈ runs ++ [(web, returns (main E web budget ⟨s, faults⟩))], OnWalk r.1 c.url :=
      fun c hc => (url_of_crawled hwalk hc).imp_right
        (fun hon => ⟨(web, _), List.mem_append_right _ (List.mem_singleton.mpr rfl), hon⟩)
    have hkeep : Preserves (fun y : World => Filed (fun url => url = seed ∨
          ∃ r ∈ runs ++ [(web, returns (main E web budget ⟨s, faults⟩))], OnWalk r.1 url) y.stores)
        (ForwardIndexer.indexPages E ((seed :: us).map web.page) >>= fun _ =>
          pure (some ((seed :: us).map web.page))) :=
      Triple.bind (indexPages_filed E hpages) (fun _ => Triple.pure (fun _ hy => hy))
    have hfinal := hkeep.finalState (s := ⟨s, faults⟩) hstart
    rw [← main_of_crawl hcrawl] at hfinal
    exact hfinal

/-- The runs that came to their end have left a record of every page they collected. -/
theorem Pipeline.hasRecord {E : Platform} {runs : List (Web × Bool)} {s : Stores}
    (h : Pipeline E runs s) {web : Web} (hweb : (web, true) ∈ runs) {url : Str}
    (hurl : OnWalk web url) : HasRecord s url := by
  induction h with
  | start => exact absurd hweb (by simp)
  | @run runs s hbefore web' faults budget crawlers x hcrawl ih =>
    obtain ⟨rfl, us, hwalk, rfl⟩ := (crawl_of_filed hbefore.filed).mp ⟨budget, hcrawl⟩
    have hmain := main_of_crawl (E := E) hcrawl
    rcases List.mem_append.mp hweb with hweb | hweb
    · have hkeep : Preserves (fun y : World => HasRecord y.stores url)
          (ForwardIndexer.indexPages E ((seed :: us).map web'.page) >>= fun _ =>
            pure (some ((seed :: us).map web'.page))) :=
        Triple.bind ((stable_hasRecord url).call E (.forwardIndexPages _))
          (fun _ => Triple.pure (fun _ hy => hy))
      rw [hmain]
      exact hkeep.finalState (ih hweb)
    · rw [List.mem_singleton, Prod.mk.injEq] at hweb
      obtain ⟨rfl, hret⟩ := hweb
      rw [hmain] at hret ⊢
      cases hrun : ForwardIndexer.indexPages E ((seed :: us).map web.page) ⟨s, faults⟩ with
      | error e y =>
        rw [bind_run_error hrun] at hret
        exact absurd hret (by simp [returns])
      | ok u y =>
        rw [bind_run_ok hrun]
        obtain ⟨us', hwalk', hmem⟩ := hurl
        obtain rfl := hwalk.unique hwalk'
        have hrec := (indexPages_hasRecord _ hrun).2 (web.page url)
          (List.mem_map_of_mem (List.mem_cons_of_mem seed hmem))
        rw [web.page_url] at hrec
        exact hrec

/-- **When no page is crawled twice.**  After any number of runs, over any webs and with any
    failing `put`s: if the walk of the next run's web meets no page but the seed on the walks of
    the earlier ones, its crawl returns no page but the seed that has a record already — and if
    the earlier runs came to their end, only then. -/
theorem no_recrawl_iff (E : Platform) (runs : List (Web × Bool)) (s : Stores)
    (h : Pipeline E runs s) (web : Web) (faults : List Bool) :
    ((∀ r ∈ runs, ∀ url, OnWalk r.1 url → OnWalk web url → url = seed) →
      ∀ budget crawlers x, Crawler.crawl web .forwardIndex budget 10 seed ⟨s, faults⟩
          = .ok (some crawlers) x →
        ∀ c ∈ crawlers, c.url ≠ seed → ¬ HasRecord s c.url) ∧
    ((∀ r ∈ runs, r.2 = true) →
      (∀ budget crawlers x, Crawler.crawl web .forwardIndex budget 10 seed ⟨s, faults⟩
          = .ok (some crawlers) x →
        ∀ c ∈ crawlers, c.url ≠ seed → ¬ HasRecord s c.url) →
      ∀ r ∈ runs, ∀ url, OnWalk r.1 url → OnWalk web url → url = seed) := by
  constructor
  · rintro hdisjoint budget crawlers x hcrawl c hc hne ⟨id, hdoc, hid⟩
    obtain ⟨-, us, hwalk, rfl⟩ := (crawl_of_filed h.filed).mp ⟨budget, hcrawl⟩
    obtain ⟨url, howner, hurl⟩ := h.filed.owner id hid
    obtain rfl : url = c.url := h.filed.page.1.injective hurl hdoc
    obtain ⟨r, hr, hon⟩ := howner.resolve_left hne
    exact hne (hdisjoint r hr _ hon ((url_of_crawled hwalk hc).resolve_left hne))
  · rintro hended hnone ⟨web', b⟩ hr url hon' ⟨us, hwalk, hmem⟩
    by_contra hne
    obtain rfl : b = true := hended _ hr
    obtain ⟨budget, hcrawl⟩ :=
      (crawl_of_filed (x := ⟨s, faults⟩) h.filed).mpr ⟨rfl, us, hwalk, rfl⟩
    refine hnone budget _ _ hcrawl (web.page url)
      (List.mem_map_of_mem (List.mem_cons_of_mem seed hmem)) ?_ ?_
    · rw [web.page_url]
      exact hne
    · rw [web.page_url]
      exact h.hasRecord hr hon'

/-- A web in which every page links to one more page. -/
def growing : Web := ⟨fun url => Crawler.page url [] [] [] [] [url ++ ['x']], fun _ => rfl⟩

/-- The page behind the seed. -/
def second : Str := seed ++ ['x']

/-- A web in which every page links back to the seed. -/
def circle : Web := ⟨fun url => Crawler.page url [] [] [] [] [seed], fun _ => rfl⟩

theorem onWalk_circle {url : Str} (h : OnWalk circle url) : url = seed := by
  have hlinks : ∀ u, hostLinks circle u = [seed] := by
    intro u
    show [seed].filter (fun link => contains link Crawler.host) = [seed]
    decide
  have hwalk : ∀ {n : Nat} {u : Str} {us : List Str}, Walk (hostLinks circle) n u us →
      ∀ w ∈ us, w = seed := by
    intro n u us hw
    induction hw with
    | enough u => simp
    | step hn _ _ ih =>
      intro w hw
      rcases List.mem_append.mp hw with hw | hw
      · have hmem := List.mem_of_mem_take hw
        rw [hlinks] at hmem
        exact List.mem_singleton.mp hmem
      · exact ih w hw
  obtain ⟨us, hus, hmem⟩ := h
  exact hwalk hus url hmem

theorem recrawl_next_to_seed :
    ∃ s, Pipeline asciiPlatform [(growing, true)] s ∧ HasRecord s second ∧
      ∃ budget crawlers x, Crawler.crawl growing .forwardIndex budget 10 seed ⟨s, []⟩
        = .ok (some crawlers) x ∧ growing.page second ∈ crawlers := by
  have hcrawl := eq_ok_of_answer (a := some ((List.range 10).map (fun n =>
      growing.page (seed ++ List.replicate n 'x'))))
    (r := Crawler.crawl growing .forwardIndex 10 10 seed ⟨Stores.empty, []⟩) (by decide +kernel)
  have hpipe := Pipeline.run (E := asciiPlatform) .start growing [] hcrawl
  have hended : returns (main asciiPlatform growing 10 ⟨Stores.empty, []⟩) = true := by
    decide +kernel
  rw [hended] at hpipe
  obtain ⟨-, us, hwalk, hpages⟩ := (crawl_of_filed (filed_empty (fun _ => True))).mp ⟨10, hcrawl⟩
  have hmem : growing.page second ∈ (seed :: us).map growing.page := by
    rw [← hpages]
    exact List.mem_map_of_mem (a := 1) (by decide)
  have hon : OnWalk growing second := (url_of_crawled hwalk hmem).resolve_left (by decide)
  obtain ⟨budget, hagain⟩ := (crawl_of_filed (x := ⟨_, []⟩) hpipe.filed).mpr ⟨rfl, us, hwalk, rfl⟩
  exact ⟨_, hpipe, hpipe.hasRecord (by simp) hon, budget, _, _, hagain, hmem⟩

/-- Behind a run over the one web, a run over the other returns nothing twice. -/
theorem no_recrawl_circle :
    ∃ s, Pipeline asciiPlatform [(growing, true)] s ∧
      ∀ budget crawlers x, Crawler.crawl circle .forwardIndex budget 10 seed ⟨s, []⟩
          = .ok (some crawlers) x →
        ∀ c ∈ crawlers, c.url ≠ seed → ¬ HasRecord s c.url := by
  obtain ⟨s, hpipe, -⟩ := recrawl_next_to_seed
  exact ⟨s, hpipe, (no_recrawl_iff asciiPlatform _ s hpipe circle []).1
    (fun _ _ _ _ hon => onWalk_circle hon)⟩

/-- The second run over the same web returns pages that the first one has indexed. -/
theorem indexed_page_crawled_again :
    ¬ ∀ (E : Platform) (runs : List (Web × Bool)) (s : Stores), Pipeline E runs s →
      ∀ (web : Web) (faults : List Bool) (budget : Nat) (crawlers : List Crawler) (x : World),
        Crawler.crawl web .forwardIndex budget 10 seed ⟨s, faults⟩ = .ok (some crawlers) x →
        ∀ c ∈ crawlers, c.url ≠ seed → ¬ HasRecord s c.url := by
  intro h
  obtain ⟨s, hpipe, hrec, budget, crawlers, x, hcrawl, hmem⟩ := recrawl_next_to_seed
  exact h asciiPlatform _ s hpipe growing [] budget crawlers x hcrawl _ hmem (by decide) hrec

end SearchEngine
