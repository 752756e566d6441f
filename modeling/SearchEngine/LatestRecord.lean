/-
  The record a page ends up with.

  `ForwardIndexer` files a record under the ID of the page, over whatever record stood there: of an
  earlier version of the page, from the same batch or from another call.  The record is the LAST
  `put` of `addEntry`, so a call that throws may have given out IDs but has filed nothing, and a
  batch that throws has filed the pages in front of the one it stopped at (`filedPages`).

  1. **What is filed** (`filedPages`, `Attempt.filed`, `filedIn`): the pages of a run that got
     their record, in order; in a run without aborts, all pages it was given
     (`filedIn_of_noneAborted`).

  2. **The invariant** (`UpToDate`): the forward index holds, for each URL, the record of the page
     that was filed last, and no other record.  Other calls keep it because they give out IDs only
     (`UpToDate.kept`), and so does the part of `addEntry` in front of its last `put`
     (`forwardAddEntry_aborts`).

  3. **The results**: after any run the forward index is the last-write-wins map of what was filed,
     and `CosSim.getPages` divides by the norm of the latest version of a page (`records_latest`);
     after any number of runs of `main` over a changing web, a page has the record of the version
     that was collected last (`main_records`).
-/
import SearchEngine.Retention
import Mathlib.Tactic.Common

namespace SearchEngine

open Text Numeral Effect InvertedIndexer NumberedMap ForwardIndexer

variable {E : Platform} {call : Call} {I : Stores → Prop} {s s' : Stores}

/-! ## What is filed -/

/-- The pages of a batch that get their record: all, or those in front of the one that throws. -/
def filedPages (E : Platform) : List Crawler → World → List Crawler
  | [], _ => []
  | c :: crawlers, x =>
    match ForwardIndexer.addEntry E c x with
    | .ok _ x' => c :: filedPages E crawlers x'
    | .error _ _ => []

/-- The pages that get their record in an attempt. -/
def Attempt.filed (E : Platform) (a : Attempt) (s : Stores) : List Crawler :=
  filedPages E a.call.forwarded ⟨s, a.faults⟩

/-- The pages that get their record in a run. -/
def filedIn (E : Platform) : List Attempt → Stores → List Crawler
  | [], _ => []
  | a :: run, s => a.filed E s ++ filedIn E run (a.after E s)

/-- The page of the URL that comes last. -/
def latest (pages : List Crawler) (url : Str) : Option Crawler :=
  pages.foldl (fun last c => if c.url = url then some c else last) none

theorem latest_snoc (pages : List Crawler) (c : Crawler) (url : Str) :
    latest (pages ++ [c]) url = if c.url = url then some c else latest pages url := by
  rw [latest, List.foldl_append, List.foldl_cons, List.foldl_nil, latest]

theorem latest_isSome {pages : List Crawler} {url : Str} :
    (∃ c, latest pages url = some c) ↔ ∃ c ∈ pages, c.url = url := by
  induction pages using List.reverseRecOn with
  | nil =>
    constructor
    · rintro ⟨c, hc⟩
      cases hc
    · rintro ⟨c, hc, -⟩
      cases hc
  | append_singleton pages c ih =>
    rw [latest_snoc]
    by_cases hurl : c.url = url
    · rw [if_pos hurl]
      exact ⟨fun _ => ⟨c, by simp, hurl⟩, fun _ => ⟨c, rfl⟩⟩
    · rw [if_neg hurl, ih]
      constructor
      · rintro ⟨c', hc', hurl'⟩
        exact ⟨c', List.mem_append_left _ hc', hurl'⟩
      · rintro ⟨c', hc', hurl'⟩
        rcases List.mem_append.mp hc' with hc' | hc'
        · exact ⟨c', hc', hurl'⟩
        · rw [List.mem_singleton.mp hc'] at hurl'
          exact absurd hurl' hurl

theorem mem_of_latest {pages : List Crawler} {url : Str} {c : Crawler}
    (h : latest pages url = some c) : c ∈ pages ∧ c.url = url := by
  induction pages using List.reverseRecOn with
  | nil => cases h
  | append_singleton pages c' ih =>
    rw [latest_snoc] at h
    by_cases hurl : c'.url = url
    · rw [if_pos hurl] at h
      obtain rfl := Option.some.inj h
      exact ⟨by simp, hurl⟩
    · rw [if_neg hurl] at h
      exact ⟨List.mem_append_left _ (ih h).1, (ih h).2⟩

/-- Pages of other URLs change nothing. -/
theorem latest_append_other {pages more : List Crawler} {url : Str}
    (h : ∀ c ∈ more, c.url ≠ url) : latest (pages ++ more) url = latest pages url := by
  induction more using List.reverseRecOn with
  | nil => rw [List.append_nil]
  | append_singleton more c ih =>
    rw [← List.append_assoc, latest_snoc, if_neg (h c (by simp))]
    exact ih (fun c' hc' => h c' (List.mem_append_left _ hc'))

/-- Pages behind all others, of which only one is of the URL. -/
theorem latest_append_of_mem {pages more : List Crawler} {url : Str} {c : Crawler} (hc : c ∈ more)
    (hurl : c.url = url) (honly : ∀ c' ∈ more, c'.url = url → c' = c) :
    latest (pages ++ more) url = some c := by
  induction more using List.reverseRecOn with
  | nil => cases hc
  | append_singleton more c' ih =>
    rw [← List.append_assoc, latest_snoc]
    by_cases hurl' : c'.url = url
    · rw [if_pos hurl', honly c' (by simp) hurl']
    · rw [if_neg hurl']
      refine ih ?_ (fun c'' hc'' => honly c'' (List.mem_append_left _ hc''))
      rcases List.mem_append.mp hc with hc | hc
      · exact hc
      · rw [List.mem_singleton.mp hc] at hurl
        exact absurd hurl hurl'

/-- A batch files a first part of its pages. -/
theorem filedPages_isPrefix : ∀ (crawlers : List Crawler) (x : World),
    filedPages E crawlers x <+: crawlers
  | [], _ => List.prefix_rfl
  | c :: crawlers, x => by
    unfold filedPages
    split
    · exact List.prefix_cons_inj c |>.mpr (filedPages_isPrefix crawlers _)
    · exact List.nil_prefix

/-- A batch that returns files all its pages. -/
theorem filedPages_of_ok : ∀ (crawlers : List Crawler) {x x' : World} {u : Unit},
    crawlers.foldlM (fun _ c => ForwardIndexer.addEntry E c) () x = .ok u x' →
      filedPages E crawlers x = crawlers
  | [], _, _, _, _ => rfl
  | c :: crawlers, x, x', u, h => by
    obtain ⟨u₁, x₁, hstep, hrest⟩ := foldlM_cons_ok.mp h
    unfold filedPages
    rw [hstep]
    show c :: filedPages E crawlers x₁ = c :: crawlers
    rw [filedPages_of_ok crawlers hrest]

/-- An attempt that returns files all its pages. -/
theorem Attempt.filed_of_returns {a : Attempt} (h : returns (a.outcome E s) = true) :
    a.filed E s = a.call.forwarded := by
  obtain ⟨x, hrun, -⟩ := Attempt.ok_of_returns h
  obtain ⟨call, faults⟩ := a
  cases call with
  | forwardAddEntry c =>
    have hbatch : [c].foldlM (fun _ c => ForwardIndexer.addEntry E c) () ⟨s, faults⟩ = .ok () x :=
      foldlM_cons_ok.mpr ⟨(), x, hrun, rfl⟩
    exact filedPages_of_ok [c] hbatch
  | forwardIndexPages crawlers => exact filedPages_of_ok crawlers hrun
  | _ => rfl

/-- A run without aborts files all pages it was given. -/
theorem filedIn_of_noneAborted : ∀ {run : List Attempt} {s : Stores}, NoneAborted E run s →
    filedIn E run s = run.flatMap (·.call.forwarded)
  | [], _, _ => rfl
  | a :: run, s, h => by
    rw [List.flatMap_cons, filedIn, a.filed_of_returns h.1, filedIn_of_noneAborted h.2]

/-- Whatever fails, a run files some of the pages it was given, in their order. -/
theorem filedIn_sublist : ∀ (run : List Attempt) (s : Stores),
    (filedIn E run s).Sublist (run.flatMap (·.call.forwarded))
  | [], _ => List.Sublist.refl []
  | a :: run, s => by
    rw [List.flatMap_cons, filedIn]
    exact (filedPages_isPrefix _ _).sublist.append (filedIn_sublist run _)

/-! ## The forward index holds the latest records -/

/-- The latest page filed for a URL has its record, and there are no other records. -/
structure UpToDate (E : Platform) (pages : List Crawler) (s : Stores) : Prop where
  ok : IndexOk s
  record : ∀ url c, latest pages url = some c →
    ∃ p : Str, (s .document)[url]? = some p ∧ Recorded E c p s
  only : ∀ p ∈ s .forwardIndex, ∃ c ∈ pages, (s .document)[c.url]? = some p

theorem upToDate_empty (E : Platform) : UpToDate E [] Stores.empty where
  ok := indexOk_empty
  record url c hc := by cases hc
  only p hp := absurd hp Std.ExtTreeMap.not_mem_empty

namespace UpToDate

variable {pages : List Crawler}

/-- New IDs do no harm. -/
theorem grow (h : UpToDate E pages s) (hok : IndexOk s') (hgrows : Grows s s')
    (hsame : s' .forwardIndex = s .forwardIndex) : UpToDate E pages s' where
  ok := hok
  record url c hc := by
    obtain ⟨p, hp, hrec⟩ := h.record url c hc
    exact ⟨p, hgrows .page url p hp, hrec.mono (hgrows .word) (by rw [hsame])⟩
  only p hp := by
    rw [hsame] at hp
    obtain ⟨c, hc, hid⟩ := h.only p hp
    exact ⟨c, hc, hgrows .page c.url p hid⟩

/-- A call that files nothing keeps the records, write by write. -/
theorem kept (hcall : call.forwarded = []) : Kept E call (UpToDate E pages) := by
  intro s s' hwrite h
  refine h.grow (kept_indexOk E call s s' hwrite h.ok) hwrite.grows ?_
  rcases hwrite.forwardIndex_cases with hsame | ⟨c, hc, -⟩
  · exact hsame
  · rw [hcall] at hc
    cases hc

/-- **A page is filed** over the record of its URL, and over no other. -/
theorem snoc (h : UpToDate E pages s) {c : Crawler} {title date size : Str}
    {content links cleaned : List Str}
    (hc : c = Crawler.page c.url title date size content links) (hok : IndexOk s')
    (hadd : RecordAdded E c.url title date size content links cleaned s s') :
    UpToDate E (pages ++ [c]) s' := by
  have hdocument : ∀ url id : Str, (s .document)[url]? = some id →
      (s' .document)[url]? = some id := by
    intro url id hid
    rw [hadd.document]
    exact Stores.issue_mono s .page .page hid
  refine ⟨hok, fun url c' hlast => ?_, fun p hp => ?_⟩
  · rw [latest_snoc] at hlast
    by_cases hurl : c.url = url
    · rw [if_pos hurl] at hlast
      obtain rfl := Option.some.inj hlast
      rw [← hurl]
      exact ⟨_, hadd.pageID, title, date, size, content, links, cleaned, hc, hadd.clean,
        hadd.issued, hadd.record⟩
    · rw [if_neg hurl] at hlast
      obtain ⟨p, hp, hrec⟩ := h.record url c' hlast
      -- the IDs of two URLs differ, so the new record stands elsewhere
      have hne : pageIDOf s c.url ≠ p := by
        intro he
        have hid := hadd.pageID
        rw [he] at hid
        exact hurl ((hok.tables .page).1.injective hid (hdocument url p hp))
      refine ⟨p, hdocument url p hp, hrec.mono hadd.words ?_⟩
      rw [hadd.forwardIndex, get_insert_ne _ hne]
  · rw [hadd.forwardIndex, Std.ExtTreeMap.mem_insert] at hp
    rcases hp with hself | hp
    · rw [← Std.LawfulEqCmp.eq_of_compare hself]
      exact ⟨c, by simp, hadd.pageID⟩
    · obtain ⟨c', hc', hid⟩ := h.only p hp
      exact ⟨c', List.mem_append_left _ hc', hdocument c'.url p hid⟩

end UpToDate

/-- In front of its last `put`, `addEntry` makes no other writes than those of `call`, if `call`
    may number the page and its words: what these keep still holds when it throws. -/
theorem forwardAddEntry_aborts (h : Kept E call I) {c : Crawler}
    (hurl : call.Mentions E .page c.url)
    (hwords : ∀ w ∈ wordsIn E .content c, call.Mentions E .word w) :
    Triple (fun x => I x.stores) (ForwardIndexer.addEntry E c) (fun _ _ => True)
      (fun x => I x.stores) := by
  refine Triple.lift_bind (fun _ hx => hx) (fun content hcontent => ?_)
  refine Triple.lift_bind (fun _ hx => hx) (fun links _ => ?_)
  refine Triple.bind ((h.ensureID (t := .page) hurl).weaken (fun _ hx => hx)
    (fun _ _ hx => hx.1) (fun _ hx => hx)) (fun p => ?_)
  refine Triple.lift_bind (fun _ hx => hx) (fun title _ => ?_)
  refine Triple.lift_bind (fun _ hx => hx) (fun date _ => ?_)
  refine Triple.lift_bind (fun _ hx => hx) (fun size _ => ?_)
  refine Triple.lift_bind (fun _ hx => hx) (fun cleaned hclean => ?_)
  have htoks : Field.content.tokens E c = .ok cleaned :=
    except_bind_ok.mpr ⟨content, hcontent, hclean⟩
  refine Triple.bind (Q := fun _ (x : World) => I x.stores) ?_ (fun map => ?_)
  · refine Triple.foldlM (I := fun _ (x : World) => I x.stores) cleaned [] (fun map w hw => ?_)
    refine Triple.bind ((h.ensureID (t := .word) (hwords w ((mem_wordsIn htoks).mpr hw))).weaken
      (fun _ hx => hx) (fun _ _ hx => hx.1) (fun _ hx => hx)) (fun id => ?_)
    exact Triple.pure (fun x hx => hx)
  · exact Db.put_triple (fun _ _ _ => trivial) (fun _ _ hx => hx)

/-- A page that throws leaves the records as they are. -/
theorem UpToDate.addEntry_error {pages : List Crawler} {c : Crawler} {x x' : World} {e : Exn}
    (h : UpToDate E pages x.stores) (hrun : ForwardIndexer.addEntry E c x = .error e x') :
    UpToDate E pages x'.stores := by
  -- the inverted indexer numbers the same page and words, and files nothing
  have hkept : Kept E (.invertedAddEntry c) (UpToDate E pages) := UpToDate.kept rfl
  have hend := forwardAddEntry_aborts hkept (c := c) (List.mem_singleton_self c.url)
    (fun w hw => mem_allWords.mpr ⟨.content, hw⟩) x h
  rw [hrun] at hend
  exact hend

theorem UpToDate.addEntry_ok {pages : List Crawler} {c : Crawler} {x x' : World} {u : Unit}
    (h : UpToDate E pages x.stores) (hrun : ForwardIndexer.addEntry E c x = .ok u x') :
    UpToDate E (pages ++ [c]) x'.stores := by
  obtain ⟨title, date, size, content, links, cleaned, hc, hadd⟩ := forwardAddEntry_cases hrun
  exact h.snoc hc ((stable_indexOk.forwardAddEntry E c).of_ok h.ok hrun) hadd

/-- A batch, wherever it stops. -/
theorem UpToDate.batch : ∀ (crawlers : List Crawler) {pages : List Crawler} {x : World},
    UpToDate E pages x.stores → UpToDate E (pages ++ filedPages E crawlers x)
      (finalState (crawlers.foldlM (fun _ c => ForwardIndexer.addEntry E c) () x)).stores
  | [], pages, x, h => by
    rw [filedPages, List.append_nil]
    exact h
  | c :: crawlers, pages, x, h => by
    rw [List.foldlM_cons, filedPages]
    cases hrun : ForwardIndexer.addEntry E c x with
    | ok u x₁ =>
      have hrest := UpToDate.batch crawlers (h.addEntry_ok hrun)
      rw [List.append_assoc] at hrest
      rw [bind_run_ok hrun]
      exact hrest
    | error e x₁ =>
      rw [bind_run_error hrun]
      show UpToDate E (pages ++ []) x₁.stores
      rw [List.append_nil]
      exact h.addEntry_error hrun

/-- **An attempt**, whatever it calls and wherever it stops. -/
theorem UpToDate.attempt {pages : List Crawler} (h : UpToDate E pages s) (a : Attempt) :
    UpToDate E (pages ++ a.filed E s) (a.after E s) := by
  have hother : a.call.forwarded = [] → UpToDate E (pages ++ a.filed E s) (a.after E s) := by
    intro hcall
    rw [Attempt.filed, hcall, filedPages, List.append_nil]
    exact (UpToDate.kept hcall).after h
  obtain ⟨call, faults⟩ := a
  cases call with
  | forwardAddEntry c =>
    have hbatch := UpToDate.batch (E := E) [c] (x := ⟨s, faults⟩) h
    -- a batch of one page ends where the page ends
    have hend : finalState ([c].foldlM (fun _ c => ForwardIndexer.addEntry E c) () ⟨s, faults⟩)
        = finalState (ForwardIndexer.addEntry E c ⟨s, faults⟩) := by
      rw [List.foldlM_cons]
      cases hrun : ForwardIndexer.addEntry E c ⟨s, faults⟩ with
      | ok u x =>
        rw [bind_run_ok hrun]
        rfl
      | error e x =>
        rw [bind_run_error hrun]
    rw [hend] at hbatch
    exact hbatch
  | forwardIndexPages crawlers => exact UpToDate.batch crawlers h
  | _ => exact hother rfl

/-- **A run.** -/
theorem UpToDate.runAll : ∀ (run : List Attempt) {pages : List Crawler} {s : Stores},
    UpToDate E pages s → UpToDate E (pages ++ filedIn E run s) (runAll E run s)
  | [], pages, s, h => by
    rw [filedIn, List.append_nil]
    exact h
  | a :: run, pages, s, h => by
    have hrest := UpToDate.runAll run (h.attempt a)
    rw [List.append_assoc] at hrest
    exact hrest

theorem upToDate_runAll (E : Platform) (run : List Attempt) :
    UpToDate E (filedIn E run Stores.empty) (SearchEngine.runAll E run Stores.empty) :=
  UpToDate.runAll run (upToDate_empty E)

/-! ## The norm of the latest version -/

/-- A record of safe texts gives `getPages` the number behind the norm. -/
theorem Recorded.norm_read {url title date size : Str} {content links : List Str} {p : Str}
    (h : Recorded E (Crawler.page url title date size content links) p s) (htable : TableOk .word s)
    (hsafe : RecordSafe title date size links) :
    ∃ cleaned, StopWords.clean E content = .ok cleaned ∧
      CosSim.freqSq (s .forwardIndex) p = .ok (wordCount (entriesOf E s cleaned)) := by
  obtain ⟨title', date', size', content', links', cleaned, hc, hclean, hissued, hrec⟩ := h
  cases hc
  have hkeys : ∀ e ∈ entriesOf E s cleaned, IsDigits e.1 :=
    fun e he => isDigits_of_mem_entries htable hissued he
  exact ⟨cleaned, hclean,
    freqSq_of_readsBack hrec (readsBack_of_safe hsafe hkeys (rawContent content))⟩

/-- **The forward index is the last-write-wins map of what was filed.**  Take any run from empty
    stores: all indexers in any order, pages again and again, any `put` failing.  The pages with a
    record are those that were filed; the record of a URL is, as a whole, that of the page filed
    last for it, with the IDs its words have now; and where its texts are safe, its norm is what
    `getPages` divides by.  What is filed is, in order, some of what the calls were given, and all
    of it if they return. -/
theorem records_latest (E : Platform) (run : List Attempt) :
    let s := runAll E run Stores.empty
    let pages := filedIn E run Stores.empty
    (∀ p : Str, p ∈ s .forwardIndex ↔ ∃ c ∈ pages, (s .document)[c.url]? = some p) ∧
    (∀ url c, latest pages url = some c →
      ∃ p : Str, (s .document)[url]? = some p ∧ Recorded E c p s) ∧
    (∀ url title date size content links, RecordSafe title date size links →
      latest pages url = some (Crawler.page url title date size content links) →
      ∃ p cleaned, (s .document)[url]? = some p ∧ StopWords.clean E content = .ok cleaned ∧
        CosSim.freqSq (s .forwardIndex) p = .ok (wordCount (entriesOf E s cleaned))) ∧
    pages.Sublist (run.flatMap (·.call.forwarded)) ∧
    (NoneAborted E run Stores.empty → pages = run.flatMap (·.call.forwarded)) := by
  intro s pages
  have h : UpToDate E pages s := upToDate_runAll E run
  refine ⟨fun p => ⟨h.only p, ?_⟩, h.record, ?_, filedIn_sublist run _, filedIn_of_noneAborted⟩
  · rintro ⟨c, hc, hp⟩
    obtain ⟨c', hlast⟩ := latest_isSome.mpr ⟨c, hc, rfl⟩
    obtain ⟨p', hp', _, _, _, _, _, _, -, -, -, hrec⟩ := h.record c.url c' hlast
    obtain rfl : p = p' := Option.some.inj (hp.symm.trans hp')
    exact mem_iff_get.mpr ⟨_, hrec⟩
  · intro url title date size content links hsafe hlast
    obtain ⟨p, hp, hrec⟩ := h.record url _ hlast
    obtain ⟨cleaned, hclean, hnorm⟩ := hrec.norm_read (h.ok.tables .word) hsafe
    exact ⟨p, cleaned, hp, hclean, hnorm⟩

/-- A page in two versions, the first one without words. -/
def twoVersions : List Crawler :=
  [Crawler.page ['u'] ['t'] ['d'] ['0'] [] [],
    Crawler.page ['u'] ['t'] ['d'] ['0'] ["ab".toList] []]

/-- Behind a batch with both versions, the norm of the page is that of the second one. -/
theorem norm_of_second_version :
    let s := runAll asciiPlatform [⟨.forwardIndexPages twoVersions, []⟩] Stores.empty
    ∃ p : Str, (s .document)[['u']]? = some p ∧ CosSim.freqSq (s .forwardIndex) p = .ok 1 := by
  intro s
  have hnone : StopWords.clean asciiPlatform [] = .ok [] := rfl
  have hword : StopWords.clean asciiPlatform ["ab".toList] = .ok ["ab".toList] :=
    StopWords.clean_ab 1
  obtain ⟨-, -, hnorm, -, hall⟩ :=
    records_latest asciiPlatform [⟨.forwardIndexPages twoVersions, []⟩]
  have hret : NoneAborted asciiPlatform [⟨.forwardIndexPages twoVersions, []⟩] Stores.empty := by
    refine ⟨returns_of_runs (.forwardIndexPages _) ?_ Stores.empty, trivial⟩
    refine Runs.foldlM _ () (fun _ c hc => ?_)
    rcases List.mem_pair.mp hc with rfl | rfl
    · exact ForwardIndexer.addEntry_runs hnone _ _ _ _ _
    · exact ForwardIndexer.addEntry_runs hword _ _ _ _ _
  have hsafe : RecordSafe ['t'] ['d'] ['0'] [] := ⟨by decide, by decide, by decide⟩
  obtain ⟨p, cleaned, hp, hclean, hnorm⟩ := hnorm ['u'] ['t'] ['d'] ['0'] ["ab".toList] [] hsafe
    (by rw [hall hret]; rfl)
  obtain rfl : ["ab".toList] = cleaned := Except.ok.inj (hword.symm.trans hclean)
  exact ⟨p, hp, hnorm⟩

/-! ## Runs of `main` -/

/-- The pages that a run of `main` over the web collects: the seed, and those on its walk. -/
def Collects (web : Web) (url : Str) : Prop := url = seed ∨ OnWalk web url

/-- What the runs of `main` have filed: pages as they were collected, and of each URL last the page
    of the last run that collected it, if that run came to its end. -/
structure Tracks (runs : List (Web × Bool)) (pages : List Crawler) : Prop where
  collected : ∀ c ∈ pages, ∃ r ∈ runs, Collects r.1 c.url ∧ c = r.1.page c.url
  last : ∀ earlier web later, runs = earlier ++ (web, true) :: later → ∀ url, Collects web url →
    (∀ r ∈ later, ¬ Collects r.1 url) → latest pages url = some (web.page url)

theorem tracks_nil : Tracks [] [] where
  collected c hc := absurd hc List.not_mem_nil
  last earlier web later h := by
    cases earlier <;> cases h

/-- The pages of one more run, or a first part of them. -/
theorem Tracks.snoc {runs : List (Web × Bool)} {pages filed : List Crawler} (h : Tracks runs pages)
    {web : Web} {us : List Str} {ended : Bool} (hwalk : Walk (hostLinks web) 9 seed us)
    (hpart : filed <+: (seed :: us).map web.page)
    (hall : ended = true → filed = (seed :: us).map web.page) :
    Tracks (runs ++ [(web, ended)]) (pages ++ filed) := by
  have hfiled : ∀ c ∈ filed, Collects web c.url ∧ c = web.page c.url := by
    intro c hc
    have hmem : c ∈ (seed :: us).map web.page := hpart.subset hc
    refine ⟨url_of_crawled hwalk hmem, ?_⟩
    obtain ⟨url, -, rfl⟩ := List.mem_map.mp hmem
    rw [web.page_url]
  refine ⟨fun c hc => ?_, fun earlier web' later hruns url hurl hlater => ?_⟩
  · rcases List.mem_append.mp hc with hc | hc
    · obtain ⟨r, hr, hcollected⟩ := h.collected c hc
      exact ⟨r, List.mem_append_left _ hr, hcollected⟩
    · exact ⟨(web, ended), by simp, hfiled c hc⟩
  · rcases List.eq_nil_or_concat later with rfl | ⟨later, r, rfl⟩
    · -- the run that collected the page is this one
      obtain ⟨rfl, hrun⟩ := List.append_inj' hruns rfl
      obtain ⟨rfl, rfl⟩ := Prod.mk.inj (List.singleton_inj.mp hrun)
      have hmem : url ∈ seed :: us := by
        rcases hurl with rfl | ⟨us', hwalk', hmem⟩
        · exact List.mem_cons_self
        · rw [hwalk.unique hwalk']
          exact List.mem_cons_of_mem seed hmem
      rw [hall rfl]
      refine latest_append_of_mem (List.mem_map_of_mem hmem) (web.page_url url) ?_
      intro c hc hcurl
      rw [← hall rfl] at hc
      rw [← hcurl]
      exact (hfiled c hc).2
    · -- or an earlier one, and this one has left the page alone
      rw [List.concat_eq_append, ← List.cons_append, ← List.append_assoc] at hruns
      obtain ⟨rfl, hrun⟩ := List.append_inj' hruns rfl
      obtain rfl := List.singleton_inj.mp hrun
      rw [List.concat_eq_append] at hlater
      have hother : ∀ c ∈ filed, c.url ≠ url := by
        rintro c hc rfl
        exact hlater (web, ended) (by simp) (hfiled c hc).1
      rw [latest_append_other hother]
      exact h.last earlier web' later rfl url hurl
        (fun r hr => hlater r (List.mem_append_left _ hr))

/-- The records behind the runs of `main`. -/
theorem Pipeline.tracked {runs : List (Web × Bool)} (h : Pipeline E runs s) :
    ∃ pages, UpToDate E pages s ∧ Tracks runs pages := by
  induction h with
  | start => exact ⟨[], upToDate_empty E, tracks_nil⟩
  | @run runs s hbefore web faults budget crawlers x hcrawl ih =>
    obtain ⟨pages, hpages, htracks⟩ := ih
    obtain ⟨rfl, us, hwalk, rfl⟩ := (crawl_of_filed hbefore.filed).mp ⟨budget, hcrawl⟩
    have hmain := main_of_crawl (E := E) hcrawl
    have hbatch : UpToDate E (pages ++ filedPages E ((seed :: us).map web.page) ⟨s, faults⟩)
        (finalState (ForwardIndexer.indexPages E ((seed :: us).map web.page)
          ⟨s, faults⟩)).stores := UpToDate.batch _ hpages
    have hpart := filedPages_isPrefix (E := E) ((seed :: us).map web.page) ⟨s, faults⟩
    refine ⟨_, ?_, htracks.snoc hwalk hpart (fun hended => ?_)⟩
    · rw [hmain]
      cases hrun : ForwardIndexer.indexPages E ((seed :: us).map web.page) ⟨s, faults⟩ with
      | ok u y =>
        rw [hrun] at hbatch
        rw [bind_run_ok hrun]
        exact hbatch
      | error e y =>
        rw [hrun] at hbatch
        rw [bind_run_error hrun]
        exact hbatch
    · rw [hmain] at hended
      cases hrun : ForwardIndexer.indexPages E ((seed :: us).map web.page) ⟨s, faults⟩ with
      | ok u y => exact filedPages_of_ok _ hrun
      | error e y =>
        rw [bind_run_error hrun] at hended
        cases hended

/-- **What `main` keeps of a changing web.**  After any number of runs of `main`, each over a web
    of its own, any of them broken off while indexing: every record is that of a page as some run
    collected it; and a page that a run collected and filed to its end has the record of that very
    version until a later run collects it anew. -/
theorem main_records (E : Platform) (runs : List (Web × Bool)) (s : Stores)
    (h : Pipeline E runs s) :
    (∀ p ∈ s .forwardIndex, ∃ r ∈ runs, ∃ url, Collects r.1 url ∧
      (s .document)[url]? = some p ∧ Recorded E (r.1.page url) p s) ∧
    ∀ earlier web later, runs = earlier ++ (web, true) :: later → ∀ url, Collects web url →
      (∀ r ∈ later, ¬ Collects r.1 url) →
        ∃ p : Str, (s .document)[url]? = some p ∧ Recorded E (web.page url) p s := by
  obtain ⟨pages, hpages, htracks⟩ := h.tracked
  refine ⟨fun p hp => ?_, fun earlier web later hruns url hurl hlater => ?_⟩
  · obtain ⟨c, hc, hid⟩ := hpages.only p hp
    obtain ⟨c', hlast⟩ := latest_isSome.mpr ⟨c, hc, rfl⟩
    obtain ⟨hc', hurl⟩ := mem_of_latest hlast
    obtain ⟨r, hr, hcollects, hpage⟩ := htracks.collected c' hc'
    obtain ⟨p', hp', hrec⟩ := hpages.record c.url c' hlast
    obtain rfl : p = p' := Option.some.inj (hid.symm.trans hp')
    rw [hpage] at hrec
    rw [← hurl] at hp'
    exact ⟨r, hr, c'.url, hcollects, hp', hrec⟩
  · exact hpages.record url _ (htracks.last earlier web later hruns url hurl hlater)

/-- The page behind the seed has the record of its version. -/
theorem second_page_recorded :
    ∃ s, Pipeline asciiPlatform [(growing, true)] s ∧ ∃ p : Str,
      (s .document)[second]? = some p ∧ Recorded asciiPlatform (growing.page second) p s := by
  obtain ⟨s, hpipe, ⟨id, hid, hrecord⟩, -⟩ := recrawl_next_to_seed
  obtain ⟨url, howner, hurl⟩ := hpipe.filed.owner id hrecord
  obtain rfl : url = second := hpipe.filed.page.1.injective hurl hid
  have hon : OnWalk growing second := by
    obtain ⟨r, hr, hon⟩ := howner.resolve_left (by decide)
    rw [List.mem_singleton.mp hr] at hon
    exact hon
  exact ⟨s, hpipe, (main_records asciiPlatform _ s hpipe).2 [] growing [] rfl second (Or.inr hon)
    (fun _ hr => absurd hr List.not_mem_nil)⟩

end SearchEngine
