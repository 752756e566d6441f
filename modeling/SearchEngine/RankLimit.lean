/-
  What the sweeps of `index_ranks` compute.

  `PageRank crawlers rank` is the specification, by URLs and without any store: a URL that nobody
  links to has the rank one, any other one `0.15` and `0.85` of the shares of its linkers.  With
  exact ranks the sweeps over the link indexes of `crawlers` are passes of a `System` that takes
  at most `0.85` of every page, whatever the links, because a page hands on each of its shares
  once (`rankSystem`).  So the specification has ONE solution, the ranks in the store close in on
  it by a factor of `0.85` a sweep, and the store is a fixed point just when it has reached it:
  `ranks_converge`.
-/
import SearchEngine.UnlinkedPages
import SearchEngine.WebGraph
import SearchEngine.Lib.Contraction
import Mathlib.Tactic.Common

namespace SearchEngine

open Text Numeral Effect NumberedMap ParentChildIndexer PageRankIndexer InPlace LinkFlow

/-- The rank of every URL, for the pages that were indexed. -/
def PageRank (crawlers : List Crawler) (rank : Str → ℚ) : Prop :=
  ∀ url, rank url = if linkers crawlers url = [] then 1 else
    0.15 + 0.85 * ((linkers crawlers url).map
      (fun v => rank v / (recentLinks crawlers v).length)).sum

variable {A : RankArithmetic ℚ} {done : List Crawler} {s₀ s : Stores}

/-! ## The sweeps as a system -/

theorem nodup_linkedPageIDs (s : Stores) : (linkedPageIDs s).Nodup := Std.ExtTreeMap.nodup_keys

/-- Whoever is linked has an ID. -/
theorem issued_of_linked (h : GraphOk done s₀) {c : Str} (hc : c ∈ linkedPageIDs s₀) :
    c ∈ s₀ .invertedDocument :=
  (h.issued_iff c).mp (h.keys c (Std.ExtTreeMap.mem_keys.mp hc))

/-- The links of a page, counted by where they lead, are at most all its links. -/
theorem sum_linked_count_le (h : GraphOk done s₀) (hconv : LinksConverse s₀) (p : Str) :
    ((linkedPageIDs s₀).map (fun c => ((children s₀ p).count c : ℚ))).sum
      ≤ (children s₀ p).length := by
  have hsub : (linkedPageIDs s₀).toFinset ⊆ (linkGraph s₀ h hconv).nodes :=
    fun c hc => mem_nodes.mpr (issued_of_linked h (List.mem_toFinset.mp hc))
  have hall : ∑ c ∈ (linkGraph s₀ h hconv).nodes, (children s₀ p).count c
      = (children s₀ p).length := by
    convert (linkGraph s₀ h hconv).sum_count_out p <;> rfl
  have hcount : ((linkedPageIDs s₀).map (fun c => (children s₀ p).count c)).sum
      ≤ (children s₀ p).length := by
    rw [← List.sum_toFinset _ (nodup_linkedPageIDs s₀), ← hall]
    exact Finset.sum_le_sum_of_subset hsub
  have hcast : ((linkedPageIDs s₀).map (fun c => ((children s₀ p).count c : ℚ))).sum
      = (((linkedPageIDs s₀).map (fun c => (children s₀ p).count c)).sum : Nat) := by
    rw [Nat.cast_list_sum, List.map_map]
    rfl
  rw [hcast]
  exact_mod_cast hcount

/-- The linked pages, each taking `0.85` of the shares of its parents. -/
def rankSystem (s₀ : Stores) (h : GraphOk done s₀) (hconv : LinksConverse s₀) : System Str ℚ where
  nodes := (linkGraph s₀ h hconv).nodes
  keys := linkedPageIDs s₀
  base := fun _ => 0.15
  part := fun c p => 0.85 * ((children s₀ p).count c / (children s₀ p).length)
  damping := 0.85
  nodup := nodup_linkedPageIDs s₀
  keys_sub := fun _ hc => mem_nodes.mpr (issued_of_linked h hc)
  part_nonneg := fun c p => by positivity
  column_le := by
    intro p _
    have hcount := sum_linked_count_le h hconv p
    have hle := mul_le_mul_of_nonneg_right hcount
      (inv_nonneg.mpr (Nat.cast_nonneg (α := ℚ) (children s₀ p).length))
    have hone : ((children s₀ p).length : ℚ) * ((children s₀ p).length : ℚ)⁻¹ ≤ 1 :=
      mul_inv_le_one
    simp only [div_eq_mul_inv]
    rw [List.sum_map_mul_left, List.sum_map_mul_right]
    linarith
  damping_nonneg := by norm_num
  damping_lt := by norm_num

theorem arriving_eq_sum (h : GraphOk done s₀) (hconv : LinksConverse s₀) (r : Str → ℚ) (c : Str) :
    arriving s₀ r c = ∑ p ∈ (linkGraph s₀ h hconv).nodes,
      (children s₀ p).count c • (r p / (children s₀ p).length) := by
  convert (linkGraph s₀ h hconv).inflow_eq_sum r c <;> rfl

theorem feed_rankSystem (h : GraphOk done s₀) (hconv : LinksConverse s₀) :
    (rankSystem s₀ h hconv).feed = dampedRank s₀ := by
  funext r c
  rw [dampedRank, arriving_eq_sum h hconv, Finset.mul_sum]
  refine congrArg (0.15 + ·) (Finset.sum_congr rfl (fun p _ => ?_))
  show 0.85 * _ * r p = _
  rw [nsmul_eq_mul]
  ring

/-! ## Ranks by IDs and by URLs -/

/-- The ranks of the pages, by their URLs; one where there is no page. -/
def byURL (s : Stores) (r : Str → ℚ) (url : Str) : ℚ :=
  if url ∈ s .document then r (pageIDOf s url) else 1

/-- The ranks of the URLs, by their IDs; one where there is no page. -/
def byID (s : Stores) (rank : Str → ℚ) (p : Str) : ℚ :=
  match (s .invertedDocument)[p]? with
  | some url => rank url
  | none => 1

theorem byURL_named {r : Str → ℚ} {url : Str} (h : url ∈ s .document) :
    byURL s r url = r (pageIDOf s url) := if_pos h

theorem byID_of_not_mem {rank : Str → ℚ} {p : Str} (h : p ∉ s .invertedDocument) :
    byID s rank p = 1 := by
  have hnone : (s .invertedDocument)[p]? = none := by
    rw [← Option.not_isSome_iff_eq_none, Std.ExtTreeMap.isSome_getElem?_iff_mem]
    exact h
  rw [byID, hnone]

theorem WebOf.byID_pageIDOf (h : WebOf done s) {rank : Str → ℚ} {url : Str}
    (hurl : url ∈ s .document) : byID s rank (pageIDOf s url) = rank url := by
  have hget : (s .invertedDocument)[pageIDOf s url]? = some url :=
    (h.graph.exact.2 (pageIDOf s url) url).mpr (get_pageIDOf hurl)
  rw [byID, hget]

/-- What arrives at a URL comes from its linkers. -/
theorem WebOf.arriving_eq (h : WebOf done s₀) {r rank : Str → ℚ}
    (hr : ∀ url ∈ s₀ .document, rank url = r (pageIDOf s₀ url)) {url : Str}
    (hurl : url ∈ s₀ .document) :
    arriving s₀ r (pageIDOf s₀ url)
      = ((linkers done url).map (fun v => rank v / (recentLinks done v).length)).sum := by
  rw [arriving, h.parents url hurl, List.map_map]
  refine congrArg List.sum (List.map_congr_left (fun v hv => ?_))
  have hnamed := h.linkers_named hv
  rw [Function.comp_apply, h.children v hnamed, List.length_map, hr v hnamed]

/-- Every page is the page of a URL. -/
theorem WebOf.exists_url (h : WebOf done s₀) {p : Str} (hp : p ∈ s₀ .invertedDocument) :
    ∃ url ∈ s₀ .document, pageIDOf s₀ url = p := by
  obtain ⟨url, hurl⟩ := mem_iff_get.mp hp
  have hget := (h.graph.exact.2 p url).mp hurl
  exact ⟨url, mem_iff_get.mpr ⟨p, hget⟩, pageIDOf_some hget⟩

theorem WebOf.mem_invertedDocument (h : WebOf done s₀) {url : Str} (hurl : url ∈ s₀ .document) :
    pageIDOf s₀ url ∈ s₀ .invertedDocument :=
  mem_iff_get.mpr ⟨url, (h.graph.exact.2 _ url).mpr (get_pageIDOf hurl)⟩

theorem WebOf.linked_iff (h : WebOf done s₀) {url : Str} (hurl : url ∈ s₀ .document) :
    pageIDOf s₀ url ∈ linkedPageIDs s₀ ↔ linkers done url ≠ [] := by
  rw [mem_linkedPageIDs h.graph, h.parents url hurl, ne_eq, List.map_eq_nil_iff]

/-- **The specification is the fixed point of the system.** -/
theorem WebOf.pageRank_iff (h : WebOf done s₀) (hconv : LinksConverse s₀) {r rank : Str → ℚ}
    (hr : ∀ url ∈ s₀ .document, rank url = r (pageIDOf s₀ url))
    (hrank : ∀ url, url ∉ s₀ .document → rank url = 1)
    (hout : ∀ p, p ∉ s₀ .invertedDocument → r p = 1) :
    PageRank done rank ↔ (rankSystem s₀ h.graph hconv).Agree r (fun _ => 1) ∧
      (rankSystem s₀ h.graph hconv).Fixed r := by
  have hurls : PageRank done rank ↔ ∀ url ∈ s₀ .document, r (pageIDOf s₀ url)
      = if linkers done url = [] then 1 else dampedRank s₀ r (pageIDOf s₀ url) := by
    constructor
    · intro hspec url hurl
      rw [← hr url hurl, hspec url, dampedRank, h.arriving_eq hr hurl]
    · intro hspec url
      by_cases hurl : url ∈ s₀ .document
      · rw [hr url hurl, hspec url hurl, dampedRank, h.arriving_eq hr hurl]
      · rw [hrank url hurl, if_pos (h.of_not_named hurl).2]
  rw [hurls, System.Fixed, feed_rankSystem]
  constructor
  · intro hspec
    refine ⟨fun p hp => ?_, fun c hc => ?_⟩
    · by_cases hissued : p ∈ s₀ .invertedDocument
      · obtain ⟨url, hurl, rfl⟩ := h.exists_url hissued
        rw [hspec url hurl, if_pos (not_not.mp (fun hne => hp ((h.linked_iff hurl).mpr hne)))]
      · exact hout p hissued
    · obtain ⟨url, hurl, rfl⟩ := h.exists_url (issued_of_linked h.graph hc)
      exact (hspec url hurl).trans (if_neg ((h.linked_iff hurl).mp hc))
  · rintro ⟨hagree, hfixed⟩ url hurl
    by_cases hlinkers : linkers done url = []
    · rw [if_pos hlinkers]
      exact hagree _ (fun hmem => (h.linked_iff hurl).mp hmem hlinkers)
    · rw [if_neg hlinkers]
      exact hfixed _ ((h.linked_iff hurl).mpr hlinkers)

/-! ## The solution -/

/-- **The specification has exactly one solution**: the fixed point of the system. -/
theorem WebOf.existsUnique_pageRank (h : WebOf done s₀) (hconv : LinksConverse s₀) :
    ∃ limit, PageRank done (byURL s₀ limit) ∧
      (∀ rank, PageRank done rank → rank = byURL s₀ limit) ∧
      (rankSystem s₀ h.graph hconv).Agree limit (fun _ => 1) ∧
      (rankSystem s₀ h.graph hconv).Fixed limit := by
  obtain ⟨limit, ⟨hagree, hfixed⟩, hunique⟩ :=
    (rankSystem s₀ h.graph hconv).existsUnique_fixed (fun _ => 1)
  have hout : ∀ p, p ∉ s₀ .invertedDocument → limit p = 1 :=
    fun p hp => hagree p (fun hmem => hp (issued_of_linked h.graph hmem))
  refine ⟨limit, ?_, fun rank hrank => ?_, hagree, hfixed⟩
  · exact (h.pageRank_iff hconv (fun url hurl => byURL_named hurl) (fun url hurl => if_neg hurl)
      hout).mpr ⟨hagree, hfixed⟩
  · have hone : ∀ url, url ∉ s₀ .document → rank url = 1 := by
      intro url hurl
      rw [hrank url, if_pos (h.of_not_named hurl).2]
    -- another solution, by IDs, is another fixed point
    have heq : byID s₀ rank = limit :=
      hunique _ ((h.pageRank_iff hconv (r := byID s₀ rank)
        (fun url hurl => (h.byID_pageIDOf hurl).symm) hone
        (fun p hp => byID_of_not_mem hp)).mp hrank)
    funext url
    by_cases hurl : url ∈ s₀ .document
    · rw [byURL_named hurl, ← heq, h.byID_pageIDOf hurl]
    · rw [hone url hurl, byURL, if_neg hurl]

/-! ## Sums over URLs -/

/-- A sum over the URLs of what is zero at the pages without a parent. -/
theorem WebOf.sum_urls_eq (h : WebOf done s₀) {g : Str → ℚ}
    (hzero : ∀ p, p ∉ linkedPageIDs s₀ → g p = 0) :
    ((s₀ .document).keys.map (fun url => g (pageIDOf s₀ url))).sum
      = ((linkedPageIDs s₀).map g).sum := by
  have hmem : ∀ {url : Str}, url ∈ (s₀ .document).keys ↔ url ∈ s₀ .document :=
    Std.ExtTreeMap.mem_keys
  have hinj : ((s₀ .document).keys.map (pageIDOf s₀)).Nodup := by
    refine Std.ExtTreeMap.nodup_keys.map_on (fun url hurl url' hurl' heq => ?_)
    exact (h.graph.exact.pageIDOf_inj (hmem.mp hurl) (hmem.mp hurl')).mp heq
  have hsub : (linkedPageIDs s₀).toFinset ⊆ ((s₀ .document).keys.map (pageIDOf s₀)).toFinset := by
    intro p hp
    obtain ⟨url, hurl, rfl⟩ := h.exists_url (issued_of_linked h.graph (List.mem_toFinset.mp hp))
    exact List.mem_toFinset.mpr (List.mem_map_of_mem (hmem.mpr hurl))
  calc ((s₀ .document).keys.map (fun url => g (pageIDOf s₀ url))).sum
      = (((s₀ .document).keys.map (pageIDOf s₀)).map g).sum := by
        rw [List.map_map]
        rfl
    _ = ∑ p ∈ ((s₀ .document).keys.map (pageIDOf s₀)).toFinset, g p :=
        (List.sum_toFinset g hinj).symm
    _ = ∑ p ∈ (linkedPageIDs s₀).toFinset, g p := by
        refine (Finset.sum_subset hsub (fun p _ hp => ?_)).symm
        exact hzero p (fun hmem => hp (List.mem_toFinset.mpr hmem))
    _ = ((linkedPageIDs s₀).map g).sum := List.sum_toFinset g (nodup_linkedPageIDs s₀)

/-! ## The sweeps close in -/

/-- Where the ranks are `r`, the store is a fixed point just when the system is. -/
theorem RanksAre.fixedPoint_iff {r : Str → ℚ} (hs : RanksAre A s₀ s r) (hA : A.Exact)
    (h : GraphOk done s₀) (hconv : LinksConverse s₀) :
    FixedPoint A s ↔ (rankSystem s₀ h hconv).Fixed r := by
  obtain ⟨hranked, hr⟩ := hs
  rw [System.Fixed, feed_rankSystem]
  constructor
  · intro hfix c hc
    obtain ⟨v, hv⟩ := mem_iff_get.mp (Std.ExtTreeMap.mem_keys.mp hc)
    obtain ⟨rank, hnew, hold⟩ := hfix c v (by rw [hranked.frame _ (by decide)]; exact hv)
    rw [newRank_arriving h hA hranked.frame hr hv] at hnew
    rw [hr c (issued_of_linked h hc)] at hold
    exact (Except.ok.inj hold).trans (Except.ok.inj hnew).symm
  · intro hfix c v hv
    rw [hranked.frame _ (by decide)] at hv
    have hc : c ∈ linkedPageIDs s₀ := Std.ExtTreeMap.mem_keys.mpr (mem_iff_get.mpr ⟨v, hv⟩)
    refine ⟨dampedRank s₀ r c, newRank_arriving h hA hranked.frame hr hv, ?_⟩
    rw [hr c (issued_of_linked h hc), hfix c hc]

/-- The distance in the system, by URLs. -/
theorem WebOf.sum_gap_eq (h : WebOf done s₀) (hconv : LinksConverse s₀) {r limit : Str → ℚ}
    (hr : (rankSystem s₀ h.graph hconv).Agree r limit) :
    ((s₀ .document).keys.map (fun url => |r (pageIDOf s₀ url) - byURL s₀ limit url|)).sum
      = (rankSystem s₀ h.graph hconv).distance r limit := by
  have hsum := h.sum_urls_eq (g := gap r limit) (fun p hp => by
    rw [gap, hr p hp, sub_self, abs_zero])
  refine Eq.trans (congrArg List.sum (List.map_congr_left (fun url hurl => ?_))) hsum
  rw [gap, byURL_named (Std.ExtTreeMap.mem_keys.mp hurl)]

/-- The ranks are those of the limit just when they are the limit, for every URL. -/
theorem WebOf.eq_limit_iff (h : WebOf done s₀) (hconv : LinksConverse s₀) {r limit : Str → ℚ}
    (hs : RanksAre A s₀ s r) (hr : (rankSystem s₀ h.graph hconv).Agree r limit) :
    r = limit ↔ ∀ url id : Str, (s₀ .document)[url]? = some id →
      storedRank A s id = .ok (byURL s₀ limit url) := by
  have hstored : ∀ url ∈ s₀ .document, storedRank A s (pageIDOf s₀ url)
      = .ok (r (pageIDOf s₀ url)) := fun url hurl => hs.2 _ (h.mem_invertedDocument hurl)
  constructor
  · rintro rfl url id hid
    have hurl : url ∈ s₀ .document := mem_iff_get.mpr ⟨id, hid⟩
    rw [byURL_named hurl, ← hstored url hurl, pageIDOf_some hid]
  · intro hall
    funext p
    by_cases hp : p ∈ s₀ .invertedDocument
    · obtain ⟨url, hurl, rfl⟩ := h.exists_url hp
      have hlimit := hall url _ (get_pageIDOf hurl)
      rw [hstored url hurl, byURL_named hurl] at hlimit
      exact Except.ok.inj hlimit
    · exact hr p (fun hmem => hp (issued_of_linked h.graph hmem))

/-- **The sweeps close in** on the solution, from the ranks of one. -/
theorem WebOf.close_in (h : WebOf done s₀) (hconv : LinksConverse s₀) (hA : A.Exact) :
    ∃ limit, PageRank done limit ∧ (∀ rank, PageRank done rank → rank = limit) ∧
      ∀ (faults : List Bool) (x : World) (hist : List (List Bool)) (x' : World),
        initializeRanks ⟨s₀, faults⟩ = .ok () x → Sweeps A x hist x' →
        (∃ rank : Str → ℚ,
          (∀ url id : Str, (s₀ .document)[url]? = some id →
            storedRank A x'.stores id = .ok (rank url)) ∧
          ((s₀ .document).keys.map (fun url => |rank url - limit url|)).sum
            ≤ 20 / 3 * 0.85 ^ hist.length
              * ((s₀ .document).keys.map (fun url => |1 - limit url|)).sum) ∧
        (FixedPoint A x'.stores ↔ ∀ url id : Str, (s₀ .document)[url]? = some id →
          storedRank A x'.stores id = .ok (limit url)) := by
  obtain ⟨limit, hlimit, hunique, hagree, hfixed⟩ := h.existsUnique_pageRank hconv
  refine ⟨byURL s₀ limit, hlimit, hunique, fun faults x hist x' hinit hsweeps => ?_⟩
  -- the ranks behind the sweeps, and that the pages without parents have the limit already
  have hranks := RanksAre.sweeps hsweeps hA h.graph (RanksAre.initialize_one hA h.graph hinit)
  rw [← feed_rankSystem h.graph hconv] at hranks
  have hone : (rankSystem s₀ h.graph hconv).Agree (fun _ => 1) limit :=
    fun p hp => (hagree p hp).symm
  have hkept : (rankSystem s₀ h.graph hconv).Agree
      ((pass (rankSystem s₀ h.graph hconv).feed (linkedPageIDs s₀))^[hist.length]
        (fun _ => 1)) limit :=
    fun p hp => (iterate_pass_of_not_mem hp _ _).trans (hone p hp)
  refine ⟨⟨fun url => (pass (rankSystem s₀ h.graph hconv).feed
      (linkedPageIDs s₀))^[hist.length] (fun _ => 1) (pageIDOf s₀ url), fun url id hid => ?_, ?_⟩,
    ?_⟩
  · have hurl : url ∈ s₀ .document := mem_iff_get.mpr ⟨id, hid⟩
    rw [← pageIDOf_some hid]
    exact hranks.2 _ (h.mem_invertedDocument hurl)
  · have hclose := System.distance_iterate_le hone hfixed hist.length
    rw [show (rankSystem s₀ h.graph hconv).damping = 0.85 from rfl,
      show (rankSystem s₀ h.graph hconv).keys = linkedPageIDs s₀ from rfl] at hclose
    rw [h.sum_gap_eq hconv hkept, h.sum_gap_eq hconv hone]
    linarith
  · rw [hranks.fixedPoint_iff hA h.graph hconv, ← h.eq_limit_iff hconv hranks hkept]
    constructor
    · exact fun hfix => hfix.unique hfixed hkept
    · intro heq
      rw [heq]
      exact hfixed

/-- **The sweeps compute PageRank.**  For pages with distinct URLs and any links, indexed once on
    empty stores, the rank equations of the pages have exactly one solution; after `Initialize`
    and `n` whole sweeps with exact ranks every URL has a rank, all of them together are off the
    solution by at most `20/3 * 0.85 ^ n` times what the ranks of one are off; and no further
    sweep would change a rank just when every rank is the solution. -/
theorem ranks_converge (E : Platform) (crawlers : List Crawler) (faults : List Bool)
    (hurls : (crawlers.map Crawler.url).Nodup)
    (hret : returns (Attempt.outcome E ⟨.parentChildIndexPages crawlers, faults⟩ Stores.empty)
      = true)
    (A : RankArithmetic ℚ) (hA : A.Exact) :
    let s₀ := Attempt.after E ⟨.parentChildIndexPages crawlers, faults⟩ Stores.empty
    ∃ limit, PageRank crawlers limit ∧ (∀ rank, PageRank crawlers rank → rank = limit) ∧
      ∀ (faults' : List Bool) (x : World) (hist : List (List Bool)) (x' : World),
        initializeRanks ⟨s₀, faults'⟩ = .ok () x → Sweeps A x hist x' →
        (∃ rank : Str → ℚ,
          (∀ url id : Str, (s₀ .document)[url]? = some id →
            storedRank A x'.stores id = .ok (rank url)) ∧
          ((s₀ .document).keys.map (fun url => |rank url - limit url|)).sum
            ≤ 20 / 3 * 0.85 ^ hist.length
              * ((s₀ .document).keys.map (fun url => |1 - limit url|)).sum) ∧
        (FixedPoint A x'.stores ↔ ∀ url id : Str, (s₀ .document)[url]? = some id →
          storedRank A x'.stores id = .ok (limit url)) := by
  intro s₀
  have hweb : WebOf crawlers s₀ := webOf_batch hret
  exact hweb.close_in (graphOk_fresh hurls hret).2 hA

theorem links_linkedPages : ∀ c ∈ linkedPages, ∃ links, vectorGet c.parser 4 = .ok links := by
  intro c hc
  exact ⟨c.links, by rcases List.mem_pair.mp hc with rfl | rfl <;> rfl⟩

/-- Two pages that link to themselves, one of them to a third one, behind one sweep. -/
theorem converge_linked_pages :
    let s₀ := Attempt.after asciiPlatform ⟨.parentChildIndexPages linkedPages, []⟩ Stores.empty
    ∃ limit x flags x', PageRank linkedPages limit ∧ initializeRanks ⟨s₀, []⟩ = .ok () x ∧
      Swept fractions x flags x' ∧ ∃ rank : Str → ℚ,
        (∀ url id : Str, (s₀ .document)[url]? = some id →
          storedRank fractions x'.stores id = .ok (rank url)) ∧
        ((s₀ .document).keys.map (fun url => |rank url - limit url|)).sum
          ≤ 20 / 3 * 0.85 ^ 1 * ((s₀ .document).keys.map (fun url => |1 - limit url|)).sum := by
  intro s₀
  have hret := returns_of_runs (E := asciiPlatform) (.parentChildIndexPages linkedPages)
    (parentChildPages_runs links_linkedPages) Stores.empty
  obtain ⟨limit, hlimit, -, hclose⟩ := ranks_converge asciiPlatform linkedPages [] (by decide) hret
    fractions exact_fractions
  obtain ⟨x, flags, x', hinit, hswept⟩ :=
    exists_first_sweep (A := fractions) (webOf_batch hret).graph
  obtain ⟨⟨rank, hrank, hsum⟩, -⟩ := hclose [] x [flags] x' hinit (.cons hswept (.nil x'))
  exact ⟨limit, x, flags, x', hlimit, hinit, hswept, rank, hrank, hsum⟩

/-! ## The order of the pages -/

/-- With distinct URLs the recorded links are those of the one page at the URL. -/
theorem recentLinks_of_mem {crawlers : List Crawler} (hurls : (crawlers.map Crawler.url).Nodup)
    {c : Crawler} (hc : c ∈ crawlers) : recentLinks crawlers c.url = c.links := by
  rcases recentLinks_cases crawlers c.url with hnil | ⟨c', hc', hurl, heq⟩
  · induction crawlers using List.reverseRecOn with
    | nil => cases hc
    | append_singleton done d ih =>
      rw [List.map_append, List.map_singleton, List.nodup_append] at hurls
      rw [recentLinks_snoc] at hnil ⊢
      by_cases hd : d.url = c.url ∧ d.links ≠ []
      · rw [if_pos hd] at hnil
        exact absurd hnil hd.2
      · rw [if_neg hd] at hnil ⊢
        rcases List.mem_append.mp hc with hc | hc
        · exact ih hurls.1 hc hnil
        · obtain rfl := List.mem_singleton.mp hc
          rw [hnil]
          by_contra hne
          exact hd ⟨rfl, fun hcon => hne hcon.symm⟩
  · rw [heq, List.inj_on_of_nodup_map hurls hc' hc hurl]

/-- **The rank equations do not depend on the order of the pages.** -/
theorem pageRank_perm {crawlers crawlers' : List Crawler} (hperm : crawlers.Perm crawlers')
    (hurls : (crawlers.map Crawler.url).Nodup) (rank : Str → ℚ) :
    PageRank crawlers rank ↔ PageRank crawlers' rank := by
  have hurls' : (crawlers'.map Crawler.url).Nodup := (hperm.map _).nodup_iff.mp hurls
  have hlinkers : ∀ url, (linkers crawlers url).Perm (linkers crawlers' url) :=
    fun url => hperm.flatMap_right _
  have hrecent : ∀ url, ∀ v ∈ linkers crawlers url,
      recentLinks crawlers v = recentLinks crawlers' v := by
    intro url v hv
    obtain ⟨c, hc, rfl, -⟩ := mem_linkers.mp hv
    rw [recentLinks_of_mem hurls hc, recentLinks_of_mem hurls' (hperm.mem_iff.mp hc)]
  have hsum : ∀ url, ((linkers crawlers url).map
      (fun v => rank v / (recentLinks crawlers v).length)).sum
      = ((linkers crawlers' url).map (fun v => rank v / (recentLinks crawlers' v).length)).sum := by
    intro url
    rw [List.map_congr_left (fun v hv => by rw [hrecent url v hv])]
    exact ((hlinkers url).map _).sum_eq
  have hnil : ∀ url, linkers crawlers url = [] ↔ linkers crawlers' url = [] := by
    intro url
    rw [← List.length_eq_zero_iff, ← List.length_eq_zero_iff, (hlinkers url).length_eq]
  unfold PageRank
  simp only [hsum, hnil]

/-- One of the terms of the bound. -/
theorem le_sum_gap {db : RocksDB} {rank limit : Str → ℚ} {url : Str} (hurl : url ∈ db) :
    |rank url - limit url| ≤ (db.keys.map (fun url => |rank url - limit url|)).sum := by
  refine List.single_le_sum (fun a ha => ?_) _
    (List.mem_map_of_mem (Std.ExtTreeMap.mem_keys.mpr hurl))
  obtain ⟨v, -, rfl⟩ := List.mem_map.mp ha
  exact abs_nonneg _

/-- **The order in which the pages are indexed does not matter** in the long run, for exact ranks.
    Index the same pages, with distinct URLs, in two orders on empty stores: the URLs with an ID are
    the same, although their IDs and the order of the sweeps differ; and there is a constant such
    that behind any `n` sweeps over the one and `m` sweeps over the other, both in exact arithmetic,
    the two ranks of every URL are apart by at most `0.85 ^ n + 0.85 ^ m` times the constant.  In
    doubles the sums are rounded in the order of the parents, so the ranks may stay apart. -/
theorem rank_order_independent (E : Platform) (crawlers crawlers' : List Crawler)
    (hperm : crawlers.Perm crawlers') (hurls : (crawlers.map Crawler.url).Nodup)
    (faults faults' : List Bool)
    (hret : returns (Attempt.outcome E ⟨.parentChildIndexPages crawlers, faults⟩ Stores.empty)
      = true)
    (hret' : returns (Attempt.outcome E ⟨.parentChildIndexPages crawlers', faults'⟩ Stores.empty)
      = true)
    (A : RankArithmetic ℚ) (hA : A.Exact) :
    let s := Attempt.after E ⟨.parentChildIndexPages crawlers, faults⟩ Stores.empty
    let s' := Attempt.after E ⟨.parentChildIndexPages crawlers', faults'⟩ Stores.empty
    (∀ url, url ∈ s .document ↔ url ∈ s' .document) ∧
    ∃ bound : ℚ, ∀ (fs fs' : List Bool) (x y x' y' : World) (hist hist' : List (List Bool)),
      initializeRanks ⟨s, fs⟩ = .ok () x → Sweeps A x hist x' →
      initializeRanks ⟨s', fs'⟩ = .ok () y → Sweeps A y hist' y' →
      ∀ url id id' : Str, (s .document)[url]? = some id → (s' .document)[url]? = some id' →
        ∃ rank rank', storedRank A x'.stores id = .ok rank ∧
          storedRank A y'.stores id' = .ok rank' ∧
          |rank - rank'| ≤ bound * (0.85 ^ hist.length + 0.85 ^ hist'.length) := by
  intro s s'
  have hurls' : (crawlers'.map Crawler.url).Nodup := (hperm.map _).nodup_iff.mp hurls
  have hweb : WebOf crawlers s := webOf_batch hret
  have hweb' : WebOf crawlers' s' := webOf_batch hret'
  obtain ⟨limit, hlimit, -, hclose⟩ := hweb.close_in (graphOk_fresh hurls hret).2 hA
  obtain ⟨limit', -, hunique', hclose'⟩ := hweb'.close_in (graphOk_fresh hurls' hret').2 hA
  -- both close in on the same ranks
  obtain rfl : limit = limit' := hunique' limit ((pageRank_perm hperm hurls limit).mp hlimit)
  have hnonneg : ∀ db : RocksDB, 0 ≤ (db.keys.map (fun url => |1 - limit url|)).sum := by
    intro db
    refine List.sum_nonneg (fun a ha => ?_)
    obtain ⟨v, -, rfl⟩ := List.mem_map.mp ha
    exact abs_nonneg _
  have hC := hnonneg (s .document)
  have hC' := hnonneg (s' .document)
  refine ⟨fun url => ?_, 20 / 3 * (((s .document).keys.map (fun url => |1 - limit url|)).sum
    + ((s' .document).keys.map (fun url => |1 - limit url|)).sum), ?_⟩
  · rw [hweb.named, hweb'.named]
    exact (hperm.flatMap_right _).mem_iff
  · intro fs fs' x y x' y' hist hist' hinit hsweeps hinit' hsweeps' url id id' hid hid'
    obtain ⟨⟨rank, hrank, hsum⟩, -⟩ := hclose fs x hist x' hinit hsweeps
    obtain ⟨⟨rank', hrank', hsum'⟩, -⟩ := hclose' fs' y hist' y' hinit' hsweeps'
    refine ⟨rank url, rank' url, hrank url id hid, hrank' url id' hid', ?_⟩
    have hfar := (le_sum_gap (mem_iff_get.mpr ⟨id, hid⟩)).trans hsum
    have hfar' := (le_sum_gap (mem_iff_get.mpr ⟨id', hid'⟩)).trans hsum'
    have htriangle := abs_sub_le (rank url) (limit url) (rank' url)
    rw [abs_sub_comm (limit url)] at htriangle
    have hpow : (0 : ℚ) ≤ 0.85 ^ hist.length := by positivity
    have hpow' : (0 : ℚ) ≤ 0.85 ^ hist'.length := by positivity
    have hcross := mul_nonneg hC' hpow
    have hcross' := mul_nonneg hC hpow'
    linarith

/-- Two pages in both orders, behind one sweep each. -/
theorem order_independent_linked_pages :
    let s := Attempt.after asciiPlatform ⟨.parentChildIndexPages linkedPages, []⟩ Stores.empty
    let s' := Attempt.after asciiPlatform ⟨.parentChildIndexPages linkedPages.reverse, []⟩
      Stores.empty
    ∃ bound x flags x' y flags' y', initializeRanks ⟨s, []⟩ = .ok () x ∧
      Swept fractions x flags x' ∧ initializeRanks ⟨s', []⟩ = .ok () y ∧
      Swept fractions y flags' y' ∧
      ∃ id id' rank rank', (s .document)[['b']]? = some id ∧ (s' .document)[['b']]? = some id' ∧
        storedRank fractions x'.stores id = .ok rank ∧
        storedRank fractions y'.stores id' = .ok rank' ∧
        |rank - rank'| ≤ bound * (0.85 ^ 1 + 0.85 ^ 1) := by
  intro s s'
  have hret := returns_of_runs (E := asciiPlatform) (.parentChildIndexPages linkedPages)
    (parentChildPages_runs links_linkedPages) Stores.empty
  have hret' := returns_of_runs (E := asciiPlatform) (.parentChildIndexPages linkedPages.reverse)
    (parentChildPages_runs (fun c hc => links_linkedPages c (List.mem_reverse.mp hc))) Stores.empty
  obtain ⟨hsame, bound, hbound⟩ := rank_order_independent asciiPlatform linkedPages
    linkedPages.reverse linkedPages.reverse_perm.symm (by decide) [] [] hret hret' fractions
    exact_fractions
  obtain ⟨x, flags, x', hinit, hswept⟩ :=
    exists_first_sweep (A := fractions) (webOf_batch hret).graph
  obtain ⟨y, flags', y', hinit', hswept'⟩ :=
    exists_first_sweep (A := fractions) (webOf_batch hret').graph
  have hb : ['b'] ∈ s .document := ((webOf_batch hret).named ['b']).mpr (by decide)
  obtain ⟨id, hid⟩ := mem_iff_get.mp hb
  obtain ⟨id', hid'⟩ := mem_iff_get.mp ((hsame ['b']).mp hb)
  obtain ⟨rank, rank', hrank, hrank', hle⟩ := hbound [] [] x y x' y' [flags] [flags'] hinit
    (.cons hswept (.nil x')) hinit' (.cons hswept' (.nil y')) ['b'] id id' hid hid'
  exact ⟨bound, x, flags, x', y, flags', y', hinit, hswept, hinit', hswept', id, id', rank, rank',
    hid, hid', hrank, hrank', hle⟩

end SearchEngine
