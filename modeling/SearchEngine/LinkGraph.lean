/-
  The link graph is referentially complete, and the ranks cover it.

  Five stores written by three classes meet here.  `GraphOk done s` is what the link indexing of
  the pages `done` leaves behind: whoever is named as a parent HAS a record of children, whoever
  has a record or a parent HAS a page ID, and a record lists as many children as the page had
  links when it was last indexed with any.  `GraphOk.addEntry` is the step, and it is kept because
  the record is only left out when there are no links, hence no new parents either.

  On top of it `Initialize` writes a rank for every page ID, and a turn of a sweep only rewrites
  ranks that are there (`Ranked.turns`), so no sweep ever meets a `null`: `ranks_never_missing`.
-/
import SearchEngine.LinkIndexes
import SearchEngine.Convergence
import Mathlib.Tactic.Common

namespace SearchEngine

open Text Numeral Effect NumberedMap ParentChildIndexer

/-! ## Records and keys -/

/-- `links` are those of the last page at `url` that was indexed with any. -/
def MostRecent (pages : List Crawler) (url : Str) (links : List Str) : Prop :=
  ∃ before c later, pages = before ++ c :: later ∧ c.url = url ∧
    vectorGet c.parser 4 = .ok links ∧ links ≠ [] ∧
    ∀ c' ∈ later, c'.url = url → ∀ links', vectorGet c'.parser 4 = .ok links' → links' = []

theorem MostRecent.url_mem {pages : List Crawler} {url : Str} {links : List Str}
    (h : MostRecent pages url links) : url ∈ pages.map Crawler.url := by
  obtain ⟨before, c, later, rfl, rfl, -⟩ := h
  exact List.mem_map_of_mem (by simp)

/-- A page without links, or at another URL, does not count. -/
theorem MostRecent.snoc {pages : List Crawler} {url : Str} {links : List Str} {c : Crawler}
    (h : MostRecent pages url links)
    (hc : c.url = url → ∀ links', vectorGet c.parser 4 = .ok links' → links' = []) :
    MostRecent (pages ++ [c]) url links := by
  obtain ⟨before, c₀, later, rfl, hurl, hget, hne, hlater⟩ := h
  refine ⟨before, c₀, later ++ [c], by simp, hurl, hget, hne, fun c' hc' => ?_⟩
  rcases List.mem_append.mp hc' with hc' | hc'
  · exact hlater c' hc'
  · rw [List.mem_singleton.mp hc']
    exact hc

theorem mostRecent_last {pages : List Crawler} {links : List Str} {c : Crawler}
    (hget : vectorGet c.parser 4 = .ok links) (hne : links ≠ []) :
    MostRecent (pages ++ [c]) c.url links :=
  ⟨pages, c, [], rfl, rfl, hget, hne, by simp⟩

theorem mem_iff_get {db : RocksDB} {k : Str} : k ∈ db ↔ ∃ v : Str, db[k]? = some v := by
  rw [← Std.ExtTreeMap.isSome_getElem?_iff_mem, Option.isSome_iff_exists]

/-- Whoever has a parent has a page ID. -/
def KeysIssued (s : Stores) : Prop := ∀ c ∈ s .parentChildIndexInverted, Issued .page c s

theorem Issued.issue {id : Str} {s : Stores} (h : Issued .page id s) (key : Str) :
    Issued .page id (s.issue .page key) := by
  obtain ⟨k, hk⟩ := h
  exact ⟨k, Stores.issue_mono s .page .page hk⟩

/-- Issuing a page ID and entering a parent under an issued ID. -/
theorem KeysIssued.addLink {P asu asu' link : Str} {x x' : World} (hx : KeysIssued x.stores)
    (h : ParentChildIndexer.addLink P asu link x = .ok asu' x') : KeysIssued x'.stores := by
  obtain ⟨id, hid, -, hx'⟩ := addLink_ok h
  have hfwd : x'.stores .document = x.stores.issue .page link .document := by
    rw [hx', Stores.put_other _ (by decide)]
  intro c hc
  rw [hx', Stores.put_same, Std.ExtTreeMap.mem_insert] at hc
  rcases hc with hc | hc
  · obtain rfl : id = c := Std.LawfulEqCmp.eq_of_compare hc
    exact ⟨link, hid⟩
  · rw [Stores.issue_other _ link (by decide) (by decide)] at hc
    obtain ⟨k, hk⟩ := (hx c hc).issue link
    exact ⟨k, by rw [← hk]; exact congrArg (·[k]?) hfwd⟩

theorem KeysIssued.foldlM_addLink {P : Str} :
    ∀ (links : List Str) {asu asu' : Str} {x x' : World}, KeysIssued x.stores →
      links.foldlM (ParentChildIndexer.addLink P) asu x = .ok asu' x' → KeysIssued x'.stores
  | [], _, _, _, _, hx, h => by
    obtain ⟨-, rfl⟩ := pure_ok.mp h
    exact hx
  | link :: links, _, _, _, _, hx, h => by
    obtain ⟨asu₁, x₁, hstep, hrest⟩ := foldlM_cons_ok.mp h
    exact foldlM_addLink links (hx.addLink hstep) hrest

theorem KeysIssued.addEntry {c : Crawler} {x x' : World} {u : Unit} (hx : KeysIssued x.stores)
    (h : ParentChildIndexer.addEntry c x = .ok u x') : KeysIssued x'.stores := by
  obtain ⟨links, -, hrest⟩ := lift_bind_ok.mp h
  obtain ⟨P, x₁, hid, hrest₁⟩ := bind_ok.mp hrest
  obtain ⟨hx₁, -, -⟩ := pageID_ok hid
  have hkeys₁ : KeysIssued x₁.stores := by
    intro c hc
    rw [hx₁, Stores.issue_other _ _ (by decide) (by decide)] at hc
    rw [hx₁]
    exact (hx c hc).issue _
  by_cases hne : 0 < links.length
  · rw [if_pos hne] at hrest₁
    obtain ⟨asu, x₂, hloop, hput⟩ := bind_ok.mp hrest₁
    have hkeys₂ := hkeys₁.foldlM_addLink links hloop
    intro c hc
    rw [Db.put_ok hput, Stores.put_other _ (by decide)] at hc
    obtain ⟨k, hk⟩ := hkeys₂ c hc
    refine ⟨k, ?_⟩
    rw [Db.put_ok hput, Stores.put_other _ (by decide)]
    exact hk
  · rw [if_neg hne] at hrest₁
    obtain ⟨-, rfl⟩ := pure_ok.mp hrest₁
    exact hkeys₁

/-- The page itself has the ID it was given in front of the loop. -/
theorem document_addEntry {c : Crawler} {x x' : World} {u : Unit}
    (h : ParentChildIndexer.addEntry c x = .ok u x') :
    (x'.stores .document)[c.url]? = some (pageIDOf x.stores c.url) := by
  obtain ⟨links, hlinks, hrest⟩ := lift_bind_ok.mp h
  obtain ⟨P, x₁, hid, hrest₁⟩ := bind_ok.mp hrest
  obtain ⟨-, hP, hget⟩ := pageID_ok hid
  -- with the ID in place the same call would do the same, and no call changes an entry
  have hhit : DocumentIndexer.pageID c.url x₁ = .ok P x₁ :=
    bind_ok.mpr ⟨some P, x₁, by rw [← hget]; rfl, rfl⟩
  have hagain : ParentChildIndexer.addEntry c x₁ = .ok u x' :=
    lift_bind_ok.mpr ⟨links, hlinks, bind_ok.mpr ⟨P, x₁, hhit, hrest₁⟩⟩
  rw [← hP]
  exact ((stable_entry .page c.url P).parentChildAddEntry c).of_ok hget hagain

/-! ## The invariant of the link indexing -/

/-- What indexing the links of the pages `done` leaves behind. -/
structure GraphOk (done : List Crawler) (s : Stores) : Prop where
  links : LinksOk s
  exact : TableExact .page s
  keys : KeysIssued s
  parents : ∀ c, ∀ p ∈ parents s c, p ∈ s .parentChildIndex
  recorded : ∀ p v : Str, (s .parentChildIndex)[p]? = some v →
    ∃ url links, (s .document)[url]? = some p ∧ MostRecent done url links ∧
      (splitOn sep v).length = links.length
  unranked : s .pageRankIndex = ∅

theorem graphOk_empty : GraphOk [] Stores.empty := by
  refine ⟨linksOk_empty, tableExact_empty .page, fun c hc => ?_, fun c p hp => ?_,
    fun p v hv => ?_, rfl⟩
  · exact absurd hc Std.ExtTreeMap.not_mem_empty
  · rw [parents, show (Stores.empty .parentChildIndexInverted)[c]? = none from
      Std.ExtTreeMap.getElem?_empty] at hp
    exact absurd hp (by simp)
  · rw [show (Stores.empty .parentChildIndex)[p]? = none from Std.ExtTreeMap.getElem?_empty] at hv
    exact absurd hv (by simp)

/-- No call of an indexer writes a rank. -/
theorem stable_unranked :
    Stable (fun s => s .pageRankIndex = ∅) (fun s => s .pageRankIndex = ∅) := by
  have hput : ∀ (s : Stores) (d : Db) k v, d ≠ .pageRankIndex → s .pageRankIndex = ∅ →
      s.put d k v .pageRankIndex = ∅ := by
    intro s d k v hd hs
    rw [Stores.put_other s hd.symm]
    exact hs
  refine ⟨⟨fun s hs => hs, fun s t key hs _ => ?_, fun s t key hs _ => ?_⟩, ?_, ?_, ?_, ?_⟩
  · exact hput _ _ _ _ (by cases t <;> decide) hs
  · exact hput _ _ _ _ (by cases t <;> decide) (hput _ _ _ _ (by cases t <;> decide) hs)
  · exact fun s k v hs => hput _ _ _ _ (by decide) hs
  · exact fun s k v hs => hput _ _ _ _ (by decide) hs
  · exact fun s k v hs => hput _ _ _ _ (by decide) hs
  · exact fun s f _ _ _ hs _ _ => hput _ _ _ _ (by cases f <;> decide) hs

/-- The number of children is the number of pieces of the record. -/
theorem length_children {s : Stores} {p v : Str} (h : (s .parentChildIndex)[p]? = some v) :
    (children s p).length = (splitOn sep v).length := by
  rw [children, h]
  exact List.length_map _

theorem LinksOk.mem_iff_children {s : Stores} (h : LinksOk s) (p : Str) :
    p ∈ s .parentChildIndex ↔ SearchEngine.children s p ≠ [] := by
  rw [ne_eq, h.children_eq_nil_iff, ← Std.ExtTreeMap.isSome_getElem?_iff_mem,
    Option.isSome_iff_ne_none]

theorem LinksOk.mem_iff_parents {s : Stores} (h : LinksOk s) (c : Str) :
    c ∈ s .parentChildIndexInverted ↔ SearchEngine.parents s c ≠ [] := by
  rw [ne_eq, h.parents_eq_nil_iff, ← Std.ExtTreeMap.isSome_getElem?_iff_mem,
    Option.isSome_iff_ne_none]

namespace GraphOk

variable {done : List Crawler} {s : Stores}

/-- A page with a record has an ID. -/
theorem issued_of_record (h : GraphOk done s) {p : Str} (hp : p ∈ s .parentChildIndex) :
    Issued .page p s := by
  obtain ⟨v, hv⟩ := mem_iff_get.mp hp
  obtain ⟨url, links, hurl, -⟩ := h.recorded p v hv
  exact ⟨url, hurl⟩

/-- Issued page IDs are the keys of the inverted table. -/
theorem issued_iff (h : GraphOk done s) (p : Str) :
    Issued .page p s ↔ p ∈ s .invertedDocument := by
  rw [mem_iff_get]
  exact exists_congr (fun key => (h.exact.2 p key).symm)

/-- **One call of `addEntry`.** -/
theorem addEntry {c : Crawler} {x x' : World} {u : Unit} (hx : GraphOk done x.stores)
    (h : ParentChildIndexer.addEntry c x = .ok u x') : GraphOk (done ++ [c]) x'.stores := by
  obtain ⟨links, ids, hlinks, hadd⟩ := addEntry_links h hx.links
  have hdoc : ∀ key id : Str, (x.stores .document)[key]? = some id →
      (x'.stores .document)[key]? = some id :=
    fun key id hk => ((stable_entry .page key id).parentChildAddEntry c).of_ok hk h
  have hself := document_addEntry h
  have hids : ids = [] ↔ links = [] := by
    rw [← List.length_eq_zero_iff, hadd.length, List.length_eq_zero_iff]
  refine ⟨hadd.ok, ((stable_tableExact .page).parentChildAddEntry c).of_ok hx.exact h,
    hx.keys.addEntry h, fun k p hp => ?_, fun p v hv => ?_,
    (stable_unranked.parentChildAddEntry c).of_ok hx.unranked h⟩
  · -- a parent from before keeps its record, and a new one has just been given one
    rw [hadd.ok.mem_iff_children, hadd.children]
    rw [hadd.parents k] at hp
    by_cases hnew : p = pageIDOf x.stores c.url ∧ ids ≠ []
    · rw [if_pos hnew]
      exact hnew.2
    · rw [if_neg hnew, ← hx.links.mem_iff_children]
      rcases List.mem_append.mp hp with hp | hp
      · exact hx.parents k p hp
      · obtain ⟨hcount, rfl⟩ := List.mem_replicate.mp hp
        refine absurd ⟨rfl, fun hnil => hcount ?_⟩ hnew
        rw [hnil, List.count_nil]
  · have hlen := length_children hv
    rw [hadd.children] at hlen
    by_cases hnew : p = pageIDOf x.stores c.url ∧ ids ≠ []
    · rw [if_pos hnew] at hlen
      refine ⟨c.url, links, by rw [hnew.1]; exact hself, ?_, by rw [← hlen, hadd.length]⟩
      exact mostRecent_last hlinks (fun hnil => hnew.2 (hids.mpr hnil))
    · rw [if_neg hnew] at hlen
      have hold : p ∈ x.stores .parentChildIndex := by
        have hp : p ∈ x'.stores .parentChildIndex := mem_iff_get.mpr ⟨v, hv⟩
        rw [hadd.ok.mem_iff_children, hadd.children, if_neg hnew] at hp
        exact (hx.links.mem_iff_children p).mpr hp
      obtain ⟨v₀, hv₀⟩ := mem_iff_get.mp hold
      obtain ⟨url, links₀, hurl, hrecent, hlen₀⟩ := hx.recorded p v₀ hv₀
      refine ⟨url, links₀, hdoc url p hurl, hrecent.snoc ?_, ?_⟩
      · rintro rfl links' hlinks'
        obtain rfl : links = links' := Except.ok.inj (hlinks.symm.trans hlinks')
        rw [← hids]
        by_contra hne
        refine hnew ⟨?_, hne⟩
        rw [pageIDOf, hurl]
      · rw [← hlen, length_children hv₀, hlen₀]

end GraphOk

/-- **Whole runs** of link indexing. -/
theorem graphOk_linkRun {E : Platform} :
    ∀ (pages : List (Crawler × List Bool)) {done : List Crawler} {s : Stores},
      NoneAborted E (linkRun pages) s → GraphOk done s →
      GraphOk (done ++ pages.map Prod.fst) (runAll E (linkRun pages) s)
  | [], done, s, _, hs => by
    rw [List.map_nil, List.append_nil]
    exact hs
  | (c, fs) :: pages, done, s, hret, hs => by
    obtain ⟨x, hrun, hafter⟩ := Attempt.ok_of_returns hret.1
    have hstep : GraphOk (done ++ [c]) (Attempt.after E ⟨.parentChildAddEntry c, fs⟩ s) := by
      rw [hafter]
      exact GraphOk.addEntry (x := ⟨s, fs⟩) hs hrun
    have hrest := graphOk_linkRun pages hret.2 hstep
    rw [List.append_assoc] at hrest
    exact hrest

namespace PageRankIndexer

variable {R : Type} {A : RankArithmetic R}

/-! ## The ranks -/

/-- The loop of `Initialize`. -/
theorem foldlM_initialize :
    ∀ (ks : List Str) {x x' : World} {u : Unit},
      ks.foldlM (fun _ key => Db.pageRankIndex.put key ['1']) () x = .ok u x' →
      (∀ d, d ≠ .pageRankIndex → x'.stores d = x.stores d) ∧
      ∀ k : Str, (x'.stores .pageRankIndex)[k]?
        = if k ∈ ks then some ['1'] else (x.stores .pageRankIndex)[k]?
  | [], x, x', u, h => by
    obtain ⟨-, rfl⟩ := pure_ok.mp h
    exact ⟨fun d _ => rfl, fun k => by simp⟩
  | key :: ks, x, x', u, h => by
    obtain ⟨u₁, x₁, hput, hrest⟩ := foldlM_cons_ok.mp h
    obtain ⟨hframe, hranks⟩ := foldlM_initialize ks hrest
    have hx₁ := Db.put_ok hput
    refine ⟨fun d hd => ?_, fun k => ?_⟩
    · rw [hframe d hd, hx₁, Stores.put_other _ hd]
    · rw [hranks k, hx₁, Stores.put_same, get_insert]
      by_cases hk : k ∈ ks
      · simp [hk]
      · by_cases hkey : key = k
        · simp [hkey]
        · simp [hk, hkey, Ne.symm hkey]

/-- The stores `s` have the links of `s₀`, and a rank for every page ID of `s₀`. -/
structure Ranked (A : RankArithmetic R) (s₀ s : Stores) : Prop where
  frame : ∀ d, d ≠ .pageRankIndex → s d = s₀ d
  keys : ∀ k, k ∈ s .pageRankIndex ↔ k ∈ s₀ .invertedDocument
  readable : ∀ k ∈ s .pageRankIndex, ∃ rank, storedRank A s k = .ok rank

/-- `Initialize` gives every page the rank one. -/
theorem initializeRanks_ok {s₀ : Stores} {faults : List Bool} {x : World} {u : Unit}
    (hempty : s₀ .pageRankIndex = ∅) (h : initializeRanks ⟨s₀, faults⟩ = .ok u x) :
    Ranked A s₀ x.stores ∧ ∀ k ∈ x.stores .pageRankIndex, storedRank A x.stores k = .ok A.one := by
  obtain ⟨hframe, hranks⟩ := foldlM_initialize _ h
  have hyes : ∀ k ∈ s₀ .invertedDocument, (x.stores .pageRankIndex)[k]? = some ['1'] := by
    intro k hk
    rw [hranks k]
    exact if_pos (Std.ExtTreeMap.mem_keys.mpr hk)
  have hno : ∀ k, k ∉ s₀ .invertedDocument → (x.stores .pageRankIndex)[k]? = none := by
    intro k hk
    rw [hranks k, if_neg (fun hmem => hk (Std.ExtTreeMap.mem_keys.mp hmem))]
    show (s₀ .pageRankIndex)[k]? = none
    rw [hempty, Std.ExtTreeMap.getElem?_empty]
  have hkeys : ∀ k, k ∈ x.stores .pageRankIndex ↔ k ∈ s₀ .invertedDocument := by
    intro k
    rw [mem_iff_get]
    by_cases hk : k ∈ s₀ .invertedDocument
    · simp [hk, hyes k hk]
    · simp [hk, hno k hk]
  have hone : ∀ k ∈ x.stores .pageRankIndex, storedRank A x.stores k = .ok A.one := by
    intro k hk
    rw [storedRank, Stores.fetch, hyes k ((hkeys k).mp hk), except_ok_bind, A.valueOf_one]
  exact ⟨⟨hframe, hkeys, fun k hk => ⟨A.one, hone k hk⟩⟩, hone⟩

/-- The shares of parents that all have a rank and a record can be added up. -/
theorem foldlM_shares {s : Stores} :
    ∀ (ps : List Str) (rank : R), (∀ p ∈ ps, ∃ share, computePageRank A s p = .ok share) →
      ∃ rank', (ps.foldlM (fun rank parent => do
        let share ← computePageRank A s parent
        .ok (A.add rank share)) rank : Except Exn R) = .ok rank'
  | [], rank, _ => ⟨rank, rfl⟩
  | p :: ps, rank, h => by
    obtain ⟨share, hshare⟩ := h p (by simp)
    obtain ⟨rank', hrest⟩ :=
      foldlM_shares ps (A.add rank share) (fun q hq => h q (List.mem_cons_of_mem p hq))
    refine ⟨rank', ?_⟩
    rw [List.foldlM_cons, hshare]
    exact hrest

namespace Ranked

variable {done : List Crawler} {s₀ s : Stores}

/-- Every parent has what `computePageRank` reads. -/
theorem share_ok (h : Ranked A s₀ s) (hs₀ : GraphOk done s₀) {p : Str}
    (hp : p ∈ s₀ .parentChildIndex) : ∃ share, computePageRank A s p = .ok share := by
  have hrank : p ∈ s .pageRankIndex :=
    (h.keys p).mpr ((hs₀.issued_iff p).mp (hs₀.issued_of_record hp))
  obtain ⟨rank, hrank⟩ := h.readable p hrank
  obtain ⟨v, hv⟩ := mem_iff_get.mp hp
  refine ⟨A.div rank (splitOn sep v).length, ?_⟩
  rw [computePageRank, hrank, except_ok_bind, Stores.fetch, h.frame _ (by decide), hv]
  rfl

theorem parents_recorded (hs₀ : GraphOk done s₀) {c v p : Str}
    (hv : (s₀ .parentChildIndexInverted)[c]? = some v) (hp : p ∈ splitOn sep v) :
    p ∈ s₀ .parentChildIndex := by
  refine hs₀.parents c p ?_
  rw [parents, hv]
  exact hp

/-- Nothing a turn reads is missing. -/
theorem newRank_ok (h : Ranked A s₀ s) (hs₀ : GraphOk done s₀) {c v : Str}
    (hv : (s₀ .parentChildIndexInverted)[c]? = some v) : ∃ rank, newRank A s v = .ok rank := by
  obtain ⟨rank, hfold⟩ := foldlM_shares (A := A) (splitOn sep v) A.zero
    (fun p hp => h.share_ok hs₀ (parents_recorded hs₀ hv hp))
  refine ⟨A.damp rank, ?_⟩
  rw [newRank, hfold]
  rfl

theorem mem_of_key (h : Ranked A s₀ s) (hs₀ : GraphOk done s₀) {c v : Str}
    (hv : (s₀ .parentChildIndexInverted)[c]? = some v) : c ∈ s .pageRankIndex :=
  (h.keys c).mpr ((hs₀.issued_iff c).mp (hs₀.keys c (mem_iff_get.mpr ⟨v, hv⟩)))

/-- Overwriting a rank that is there. -/
theorem put (h : Ranked A s₀ s) {c : Str} (hc : c ∈ s .pageRankIndex) (rank : R) :
    Ranked A s₀ (s.put .pageRankIndex c (A.toText rank)) := by
  have hmem : ∀ k, k ∈ s.put .pageRankIndex c (A.toText rank) .pageRankIndex ↔
      k ∈ s .pageRankIndex := by
    intro k
    rw [Stores.put_same, Std.ExtTreeMap.mem_insert]
    constructor
    · rintro (heq | hk)
      · obtain rfl : c = k := Std.LawfulEqCmp.eq_of_compare heq
        exact hc
      · exact hk
    · exact Or.inr
  refine ⟨fun d hd => ?_, fun k => (hmem k).trans (h.keys k), fun k hk => ?_⟩
  · rw [Stores.put_other _ hd]
    exact h.frame d hd
  · by_cases hkc : k = c
    · exact ⟨rank, by rw [hkc, storedRank_put_same]⟩
    · rw [storedRank_put_ne _ hkc]
      exact h.readable k ((hmem k).mp hk)

end Ranked

/-! ## Sweeps that stop anywhere -/

variable [DecidableEq R]

/-- Some number of whole sweeps, and then a sweep that stops at any page. -/
def SweptTo (A : RankArithmetic R) (x x' : World) : Prop :=
  ∃ hist x₁ es rest flags, Sweeps A x hist x₁ ∧
    (x₁.stores .parentChildIndexInverted).toList = es ++ rest ∧ Turns A es x₁ flags x'

/-- **The rule for sweeps**: what every turn for a key of `ParentChildIndexInverted` keeps. -/
theorem SweptTo.invariant {I : World → Prop} {x x' : World} (h : SweptTo A x x')
    (step : ∀ y e equal y', I y → e ∈ (x.stores .parentChildIndexInverted).toList →
      indexRank A e y = .ok equal y' → I y') (hI : I x) : I x' := by
  have hturns : ∀ {es : List (Str × Str)} {y y' : World} {flags : List Bool},
      Turns A es y flags y' → (∀ e ∈ es, e ∈ (x.stores .parentChildIndexInverted).toList) →
      I y → I y' := by
    intro es y y' flags hrun
    induction hrun with
    | nil y => exact fun _ hy => hy
    | cons hturn _ ih =>
      intro hes hy
      refine ih (fun e he => hes e (List.mem_cons_of_mem _ he)) ?_
      exact step _ _ _ _ hy (hes _ List.mem_cons_self) hturn
  have hsweeps : ∀ {y y' : World} {hist : List (List Bool)}, Sweeps A y hist y' →
      y.stores .parentChildIndexInverted = x.stores .parentChildIndexInverted → I y →
      y'.stores .parentChildIndexInverted = x.stores .parentChildIndexInverted ∧ I y' := by
    intro y y' hist hrun
    induction hrun with
    | nil y => exact fun hlinks hy => ⟨hlinks, hy⟩
    | cons hswept _ ih =>
      intro hlinks hy
      refine ih ((Turns.frame hswept (by decide)).trans hlinks) ?_
      exact hturns hswept (fun e he => by rw [← hlinks]; exact he) hy
  obtain ⟨hist, x₁, es, rest, flags, hhist, hlist, hlast⟩ := h
  obtain ⟨hlinks, hx₁⟩ := hsweeps hhist rfl hI
  refine hturns hlast (fun e he => ?_) hx₁
  rw [← hlinks, hlist]
  exact List.mem_append_left rest he

theorem Ranked.sweptTo {done : List Crawler} {s₀ : Stores} {x x' : World}
    (hx : Ranked A s₀ x.stores) (hs₀ : GraphOk done s₀) (h : SweptTo A x x') :
    Ranked A s₀ x'.stores := by
  refine h.invariant (I := fun y => Ranked A s₀ y.stores) (fun y e equal y' hy he hturn => ?_) hx
  obtain ⟨rank, rankD, -, -, -, hy'⟩ := indexRank_ok hturn
  rw [hx.frame _ (by decide)] at he
  have hkey := Std.ExtTreeMap.mem_toList_iff_getElem?_eq_some.mp he
  rw [hy']
  exact hy.put (hy.mem_of_key hs₀ hkey) rank

/-- `Initialize` returns if no `put` throws. -/
theorem initializeRanks_returns (s : Stores) :
    ∃ s', initializeRanks ⟨s, []⟩ = .ok () ⟨s', []⟩ := by
  obtain ⟨u, ⟨s', fs⟩, hrun, hfs⟩ := Runs.foldlM (P := NoFaults) (s .invertedDocument).keys ()
    (fun _ key _ => put_runs .pageRankIndex key ['1']) ⟨s, []⟩ rfl
  obtain rfl : fs = [] := hfs
  exact ⟨s', hrun⟩

/-- So does every turn on ranks that are there, and all of them behind each other. -/
theorem turns_exist {done : List Crawler} {s₀ : Stores} (hs₀ : GraphOk done s₀) :
    ∀ (es : List (Str × Str)) {s : Stores}, (∀ e ∈ es, e ∈ (s₀ .parentChildIndexInverted).toList) →
      Ranked A s₀ s → ∃ flags x', Turns A es ⟨s, []⟩ flags x'
  | [], s, _, _ => ⟨[], ⟨s, []⟩, .nil _⟩
  | e :: es, s, hes, hs => by
    have hget := Std.ExtTreeMap.mem_toList_iff_getElem?_eq_some.mp (hes e (by simp))
    have hmem := hs.mem_of_key hs₀ hget
    obtain ⟨rank, hnew⟩ := hs.newRank_ok hs₀ hget
    obtain ⟨rankD, hold⟩ := hs.readable e.1 hmem
    have hturn : indexRank A e ⟨s, []⟩
        = .ok (decide (rank = rankD)) ⟨s.put .pageRankIndex e.1 (A.toText rank), []⟩ := by
      refine bind_ok.mpr ⟨rank, _, look_ok.mpr ⟨hnew, rfl⟩, ?_⟩
      exact bind_ok.mpr ⟨rankD, _, look_ok.mpr ⟨hold, rfl⟩, rfl⟩
    obtain ⟨flags, x', hrest⟩ := turns_exist hs₀ es
      (fun e' he' => hes e' (List.mem_cons_of_mem e he')) (hs.put hmem rank)
    exact ⟨_ :: flags, x', .cons hturn hrest⟩

/-- **The first sweep can be made**, whatever the links. -/
theorem exists_first_sweep {done : List Crawler} {s₀ : Stores} (hs₀ : GraphOk done s₀) :
    ∃ x flags x', initializeRanks ⟨s₀, []⟩ = .ok () x ∧ Swept A x flags x' := by
  obtain ⟨s, hinit⟩ := initializeRanks_returns s₀
  obtain ⟨hranked, -⟩ := initializeRanks_ok (A := A) hs₀.unranked hinit
  have hlinks : s .parentChildIndexInverted = s₀ .parentChildIndexInverted :=
    hranked.frame _ (by decide)
  obtain ⟨flags, x', hturns⟩ := turns_exist hs₀ (s .parentChildIndexInverted).toList
    (fun e he => hlinks ▸ he) hranked
  exact ⟨⟨s, []⟩, flags, x', hinit, hturns⟩

/-- **No record is ever missing.**  After any run of `addEntry` calls that all return, after
    `Initialize` and any number of sweeps, stopped at any page: every key of the inverted link
    index has a rank, every parent has a rank and a record of children, the divisor is the number
    of links of the most recent indexing with any, so at least one, and whatever a turn reads is
    there; the pages with a rank are those with an ID. -/
theorem ranks_never_missing (E : Platform) (A : RankArithmetic R)
    (pages : List (Crawler × List Bool)) (hret : NoneAborted E (linkRun pages) Stores.empty)
    (faults : List Bool) (x x' : World)
    (hinit : initializeRanks ⟨runAll E (linkRun pages) Stores.empty, faults⟩ = .ok () x)
    (hswept : SweptTo A x x') :
    (∀ c v : Str, (x'.stores .parentChildIndexInverted)[c]? = some v →
      c ∈ x'.stores .pageRankIndex ∧
      (∃ rank, newRank A x'.stores v = .ok rank) ∧
      (∃ rankD, storedRank A x'.stores c = .ok rankD) ∧
      ∀ p ∈ splitOn sep v, p ∈ x'.stores .pageRankIndex ∧
        ∃ child url links, (x'.stores .parentChildIndex)[p]? = some child ∧
          (x'.stores .document)[url]? = some p ∧
          MostRecent (pages.map Prod.fst) url links ∧
          (splitOn sep child).length = links.length ∧ 1 ≤ (splitOn sep child).length) ∧
    ∀ k, k ∈ x'.stores .pageRankIndex ↔ k ∈ x'.stores .invertedDocument := by
  have hgraph : GraphOk (pages.map Prod.fst) (runAll E (linkRun pages) Stores.empty) :=
    graphOk_linkRun pages hret graphOk_empty
  obtain ⟨hranked, -⟩ := initializeRanks_ok (A := A) hgraph.unranked hinit
  have hranked' := hranked.sweptTo hgraph hswept
  refine ⟨fun c v hv => ?_, fun k => ?_⟩
  · rw [hranked'.frame _ (by decide)] at hv
    have hc := hranked'.mem_of_key hgraph hv
    refine ⟨hc, hranked'.newRank_ok hgraph hv, hranked'.readable c hc, fun p hp => ?_⟩
    have hrec := Ranked.parents_recorded hgraph hv hp
    have hissued := hgraph.issued_of_record hrec
    refine ⟨(hranked'.keys p).mpr ((hgraph.issued_iff p).mp hissued), ?_⟩
    obtain ⟨child, hchild⟩ := mem_iff_get.mp hrec
    obtain ⟨url, links, hurl, hrecent, hlen⟩ := hgraph.recorded p child hchild
    refine ⟨child, url, links, ?_, ?_, hrecent, hlen, ?_⟩
    · rw [hranked'.frame _ (by decide)]
      exact hchild
    · rw [hranked'.frame _ (by decide)]
      exact hurl
    · obtain ⟨-, c, -, -, -, -, hne, -⟩ := hrecent
      rw [hlen]
      exact List.length_pos_iff.mpr hne
  · rw [hranked'.keys k, hranked'.frame _ (by decide)]

/-- Two pages with a chain of links, ranked and swept once. -/
theorem chained_links_never_missing :
    ∃ x x', initializeRanks ⟨runAll asciiPlatform (linkRun chainedPages) Stores.empty, []⟩
        = .ok () x ∧ SweptTo fractions x x' ∧
      (∀ c v : Str, (x'.stores .parentChildIndexInverted)[c]? = some v →
        ∃ rank, newRank fractions x'.stores v = .ok rank) ∧
      ∀ k, k ∈ x'.stores .pageRankIndex ↔ k ∈ x'.stores .invertedDocument := by
  obtain ⟨x, flags, x', hinit, hswept⟩ :=
    exists_first_sweep (A := fractions) (graphOk_linkRun _ chainedPages_returns graphOk_empty)
  have hreached : SweptTo fractions x x' :=
    ⟨[flags], x', [], _, [], .cons hswept (.nil x'), rfl, .nil x'⟩
  obtain ⟨hthere, hkeys⟩ := ranks_never_missing asciiPlatform fractions chainedPages
    chainedPages_returns [] x x' hinit hreached
  exact ⟨x, x', hinit, hreached, fun c v hv => (hthere c v hv).2.1, hkeys⟩

end PageRankIndexer

end SearchEngine
