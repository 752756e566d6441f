/-
  Rank mass: what the link indexes conserve, and the bound it puts on all ranks.

  Indexed once, with distinct URLs, no record of children is ever overwritten, so the two link
  indexes stay CONVERSES of each other and form a `LinkGraph`.  With exact ranks
  `computePageRank` is the share of that graph and the sum in a turn its inflow
  (`newRank_exact`); conservation and the bound are then those of the graph, `sum_inflow` and
  `UnderEnvelope`.
-/
import SearchEngine.LinkGraph
import SearchEngine.Lib.LinkFlow
import Mathlib.Order.Interval.Finset.Nat
import Mathlib.Tactic.Linarith
import Mathlib.Tactic.NormNum
import Mathlib.Tactic.Common

namespace SearchEngine

open Text Numeral Effect NumberedMap ParentChildIndexer PageRankIndexer LinkFlow

/-! ## The graph of a batch with distinct URLs -/

/-- A page that was not indexed yet has no record to overwrite. -/
theorem GraphOk.children_of_new {done : List Crawler} {s : Stores} {url : Str}
    (h : GraphOk done s) (hnew : url ∉ done.map Crawler.url) :
    children s (pageIDOf s url) = [] := by
  by_contra hne
  obtain ⟨v, hv⟩ := mem_iff_get.mp ((h.links.mem_iff_children _).mpr hne)
  obtain ⟨url', links, hurl', hrecent, -⟩ := h.recorded _ v hv
  unfold pageIDOf at hurl'
  cases hurl : (s .document)[url]? with
  | none =>
    rw [hurl] at hurl'
    exact h.exact.1.next_fresh decimal_injective url' hurl'
  | some id =>
    rw [hurl] at hurl'
    obtain rfl : url' = url := h.exact.1.injective hurl' hurl
    exact hnew hrecent.url_mem

/-- The whole batch, page by page. -/
theorem graphOk_fresh {E : Platform} {crawlers : List Crawler} {faults : List Bool}
    (hurls : (crawlers.map Crawler.url).Nodup)
    (hret : returns (Attempt.outcome E ⟨.parentChildIndexPages crawlers, faults⟩ Stores.empty)
      = true) :
    GraphOk crawlers (Attempt.after E ⟨.parentChildIndexPages crawlers, faults⟩ Stores.empty) ∧
    LinksConverse (Attempt.after E ⟨.parentChildIndexPages crawlers, faults⟩ Stores.empty) := by
  obtain ⟨x, hrun, hafter⟩ := Attempt.ok_of_returns hret
  rw [hafter]
  refine foldlM_batch (I := fun done (y : World) => GraphOk done y.stores ∧ LinksConverse y.stores)
    ?_ crawlers [] rfl ⟨graphOk_empty, linksConverse_empty⟩ hrun
  rintro done c todo y y' hl ⟨hy, hconv⟩ hstep
  obtain ⟨links, ids, -, hadd⟩ := addEntry_links hstep hy.links
  rw [hl] at hurls
  have hnone := hy.children_of_new (url_not_mem hurls)
  exact ⟨hy.addEntry hstep, (hadd.converse_iff hconv).mpr (Or.inr hnone)⟩

/-- The pages with an ID and their links. -/
def linkGraph {done : List Crawler} (s : Stores) (h : GraphOk done s) (hconv : LinksConverse s) :
    LinkGraph Str where
  nodes := (s .invertedDocument).keys.toFinset
  out := children s
  into := parents s
  converse := fun p c => by convert hconv p c
  closed := by
    intro p c hc
    have hp : p ∈ parents s c := by
      rw [← List.count_pos_iff, ← hconv, List.count_pos_iff]
      exact hc
    have hrec := h.parents c p hp
    have hkey : c ∈ s .parentChildIndexInverted :=
      (h.links.mem_iff_parents c).mpr (List.ne_nil_of_mem hp)
    rw [List.mem_toFinset, List.mem_toFinset, Std.ExtTreeMap.mem_keys, Std.ExtTreeMap.mem_keys,
      ← h.issued_iff, ← h.issued_iff]
    exact ⟨h.issued_of_record hrec, h.keys c hkey⟩

section Graph

variable {done : List Crawler} {s : Stores} {h : GraphOk done s} {hconv : LinksConverse s}

theorem mem_nodes {p : Str} : p ∈ (linkGraph s h hconv).nodes ↔ p ∈ s .invertedDocument := by
  rw [linkGraph, List.mem_toFinset, Std.ExtTreeMap.mem_keys]

/-- There are as many nodes as pages: the IDs are `1 … n`. -/
theorem card_nodes : (linkGraph s h hconv).nodes.card = (s .document).size := by
  have himage : (linkGraph s h hconv).nodes
      = (Finset.Icc 1 (s .document).size).image decimal := by
    ext p
    rw [mem_nodes, ← h.issued_iff, Finset.mem_image]
    constructor
    · rintro ⟨key, hkey⟩
      obtain ⟨n, h1, hn, rfl⟩ := h.exact.1.bounded hkey
      exact ⟨n, Finset.mem_Icc.mpr ⟨h1, hn⟩, rfl⟩
    · rintro ⟨n, hn, rfl⟩
      obtain ⟨h1, hn⟩ := Finset.mem_Icc.mp hn
      exact h.exact.1.covered n h1 hn
  rw [himage, Finset.card_image_of_injective _ decimal_injective, Nat.card_Icc]
  omega

variable (h hconv) in
/-- A sum over the keys of a store, all of them pages. -/
theorem sum_keys_eq {db : RocksDB} (f : Str → ℚ) (hsub : ∀ k ∈ db, k ∈ s .invertedDocument) :
    (db.keys.map f).sum = ∑ k ∈ (linkGraph s h hconv).nodes with k ∈ db, f k := by
  have hfilter : {k ∈ (linkGraph s h hconv).nodes | k ∈ db} = db.keys.toFinset := by
    ext k
    rw [Finset.mem_filter, mem_nodes, List.mem_toFinset, Std.ExtTreeMap.mem_keys]
    exact ⟨fun hk => hk.2, fun hk => ⟨hsub k hk, hk⟩⟩
  rw [hfilter, List.sum_toFinset f Std.ExtTreeMap.nodup_keys]

end Graph

/-! ## Exact ranks on the graph -/

section Exact

variable {A : RankArithmetic ℚ} {done : List Crawler} {s₀ s : Stores} {r : Str → ℚ}
  (h : GraphOk done s₀) (hconv : LinksConverse s₀)

/-- What the parents of a page hand on to it, where `r` are the ranks. -/
def arriving (s : Stores) (r : Str → ℚ) (c : Str) : ℚ :=
  ((parents s c).map (fun p => r p / (children s p).length)).sum

theorem foldlM_exact (hA : A.Exact) {share : Str → ℚ} :
    ∀ (ps : List Str) (rank : ℚ), (∀ p ∈ ps, computePageRank A s p = .ok (share p)) →
      (ps.foldlM (fun rank parent => do
        let share ← computePageRank A s parent
        .ok (A.add rank share)) rank : Except Exn ℚ) = .ok (rank + (ps.map share).sum)
  | [], rank, _ => by
    rw [List.map_nil, List.sum_nil, add_zero]
    rfl
  | p :: ps, rank, hps => by
    have ih := foldlM_exact hA ps (A.add rank (share p))
      (fun q hq => hps q (List.mem_cons_of_mem p hq))
    rw [List.foldlM_cons, hps p (by simp), List.map_cons, List.sum_cons, ← add_assoc,
      ← hA.add rank (share p)]
    exact ih

/-- What `computePageRank` reads, and what it makes of it. -/
theorem computePageRank_exact (hA : A.Exact) {p : Str} (hp : p ∈ s .parentChildIndex)
    (hr : storedRank A s p = .ok (r p)) :
    computePageRank A s p = .ok (r p / (children s p).length) := by
  obtain ⟨v, hv⟩ := mem_iff_get.mp hp
  rw [computePageRank, hr, except_ok_bind, Stores.fetch, hv, length_children hv, ← hA.div]
  rfl

include h in
/-- The parents of a page hand on their shares. -/
theorem computePageRank_share (hA : A.Exact) (hlinks : ∀ d, d ≠ .pageRankIndex → s d = s₀ d)
    (hr : ∀ p ∈ s₀ .invertedDocument, storedRank A s p = .ok (r p)) {c v p : Str}
    (hv : (s₀ .parentChildIndexInverted)[c]? = some v) (hp : p ∈ splitOn sep v) :
    computePageRank A s p = .ok (r p / (children s₀ p).length) := by
  have hrec : p ∈ s₀ .parentChildIndex := Ranked.parents_recorded h hv hp
  have hnode := (h.issued_iff p).mp (h.issued_of_record hrec)
  have hchildren : children s p = children s₀ p := by
    rw [children, children, hlinks _ (by decide)]
  rw [← hlinks _ (by decide)] at hrec
  rw [computePageRank_exact hA hrec (hr p hnode), hchildren]

theorem inflow_eq {c v : Str} (hv : (s₀ .parentChildIndexInverted)[c]? = some v) :
    (linkGraph s₀ h hconv).inflow r c
      = ((splitOn sep v).map ((linkGraph s₀ h hconv).share r)).sum := by
  have hparents : parents s₀ c = splitOn sep v := by rw [parents, hv]
  show ((parents s₀ c).map _).sum = _
  rw [hparents]

/-- Nothing arrives at a page without a parent. -/
theorem inflow_of_not_mem {c : Str} (hc : c ∉ s₀ .parentChildIndexInverted) :
    (linkGraph s₀ h hconv).inflow r c = 0 := by
  have hv : (s₀ .parentChildIndexInverted)[c]? = none := by
    rw [← Option.not_isSome_iff_eq_none, Std.ExtTreeMap.isSome_getElem?_iff_mem]
    exact hc
  show ((parents s₀ c).map _).sum = 0
  rw [parents, hv]
  rfl

include h in
/-- A turn computes the shares that arrive at a page, damped. -/
theorem newRank_arriving (hA : A.Exact) (hlinks : ∀ d, d ≠ .pageRankIndex → s d = s₀ d)
    (hr : ∀ p ∈ s₀ .invertedDocument, storedRank A s p = .ok (r p)) {c v : Str}
    (hv : (s₀ .parentChildIndexInverted)[c]? = some v) :
    newRank A s v = .ok (0.15 + 0.85 * arriving s₀ r c) := by
  have hfold := foldlM_exact hA (splitOn sep v) A.zero
    (fun p hp => computePageRank_share h hA hlinks hr hv hp)
  have hsum : arriving s₀ r c
      = ((splitOn sep v).map (fun p => r p / (children s₀ p).length)).sum := by
    rw [arriving, parents, hv]
  rw [newRank, hfold, hsum, hA.zero, zero_add, ← hA.damp]
  rfl

/-- **A turn computes the inflow**, damped. -/
theorem newRank_exact (hA : A.Exact) (hlinks : ∀ d, d ≠ .pageRankIndex → s d = s₀ d)
    (hr : ∀ p ∈ s₀ .invertedDocument, storedRank A s p = .ok (r p)) {c v : Str}
    (hv : (s₀ .parentChildIndexInverted)[c]? = some v) :
    newRank A s v = .ok (0.15 + 0.85 * (linkGraph s₀ h hconv).inflow r c) :=
  newRank_arriving h hA hlinks hr hv

include h hconv in
/-- A rank assignment, spread over the links. -/
theorem sum_shares (hA : A.Exact) (hlinks : ∀ d, d ≠ .pageRankIndex → s d = s₀ d)
    (hr : ∀ p ∈ s₀ .invertedDocument, storedRank A s p = .ok (r p)) :
    ∃ shares, (s₀ .parentChildIndexInverted).toList.mapM
        (fun e => (splitOn sep e.2).mapM (computePageRank A s)) = .ok shares ∧
      (shares.map List.sum).sum = ((s₀ .parentChildIndex).keys.map r).sum := by
  have hget : ∀ e ∈ (s₀ .parentChildIndexInverted).toList,
      (s₀ .parentChildIndexInverted)[e.1]? = some e.2 :=
    fun e he => Std.ExtTreeMap.mem_toList_iff_getElem?_eq_some.mp he
  refine ⟨(s₀ .parentChildIndexInverted).toList.map
    (fun e => (splitOn sep e.2).map ((linkGraph s₀ h hconv).share r)), ?_, ?_⟩
  · refine mapM_ok (fun e he => mapM_ok (fun p hp => ?_))
    exact computePageRank_share h hA hlinks hr (hget e he) hp
  · have hkeys : ∀ c ∈ s₀ .parentChildIndexInverted, c ∈ s₀ .invertedDocument :=
      fun c hc => (h.issued_iff c).mp (h.keys c hc)
    have hrecs : ∀ p ∈ s₀ .parentChildIndex, p ∈ s₀ .invertedDocument :=
      fun p hp => (h.issued_iff p).mp (h.issued_of_record hp)
    -- what is summed per key is the inflow of the key, and other pages have none
    have hper : ((s₀ .parentChildIndexInverted).toList.map
        (fun e => ((splitOn sep e.2).map ((linkGraph s₀ h hconv).share r)).sum))
        = (s₀ .parentChildIndexInverted).keys.map ((linkGraph s₀ h hconv).inflow r) := by
      rw [← Std.ExtTreeMap.map_fst_toList_eq_keys, List.map_map]
      exact List.map_congr_left (fun e he => (inflow_eq h hconv (hget e he)).symm)
    rw [List.map_map]
    calc ((s₀ .parentChildIndexInverted).toList.map
          (fun e => ((splitOn sep e.2).map ((linkGraph s₀ h hconv).share r)).sum)).sum
        = ∑ c ∈ (linkGraph s₀ h hconv).nodes with c ∈ s₀ .parentChildIndexInverted,
            (linkGraph s₀ h hconv).inflow r c := by
          rw [hper, sum_keys_eq h hconv _ hkeys]
      _ = ∑ c ∈ (linkGraph s₀ h hconv).nodes, (linkGraph s₀ h hconv).inflow r c := by
          refine Finset.sum_filter_of_ne (fun c _ hne => ?_)
          by_contra hc
          exact hne (inflow_of_not_mem h hconv hc)
      _ = ∑ p ∈ (linkGraph s₀ h hconv).nodes with (linkGraph s₀ h hconv).out p ≠ [], r p :=
          (linkGraph s₀ h hconv).sum_inflow r
      _ = ∑ p ∈ (linkGraph s₀ h hconv).nodes with p ∈ s₀ .parentChildIndex, r p := by
          refine Finset.sum_congr (Finset.filter_congr (fun p _ => ?_)) (fun _ _ => rfl)
          exact (h.links.mem_iff_children p).symm
      _ = ((s₀ .parentChildIndex).keys.map r).sum := (sum_keys_eq h hconv _ hrecs).symm

include h hconv in
/-- A fixed point where every page has a parent and a link. -/
theorem sum_fixedPoint (hA : A.Exact) (hlinks : ∀ d, d ≠ .pageRankIndex → s d = s₀ d)
    (hr : ∀ p ∈ s₀ .invertedDocument, storedRank A s p = .ok (r p))
    (hall : ∀ p ∈ s₀ .invertedDocument, p ∈ s₀ .parentChildIndexInverted ∧
      p ∈ s₀ .parentChildIndex) (hfix : FixedPoint A s) :
    ((s₀ .invertedDocument).keys.map r).sum = (s₀ .document).size := by
  have heq : ∀ p ∈ (linkGraph s₀ h hconv).nodes,
      r p = 0.15 + 0.85 * (linkGraph s₀ h hconv).inflow r p := by
    intro p hp
    have hnode := mem_nodes.mp hp
    obtain ⟨v, hv⟩ := mem_iff_get.mp (hall p hnode).1
    obtain ⟨rank, hnew, hold⟩ := hfix p v (by rw [hlinks _ (by decide)]; exact hv)
    rw [newRank_exact h hconv hA hlinks hr hv] at hnew
    rw [hr p hnode] at hold
    rw [Except.ok.inj hold, Except.ok.inj hnew]
  have hmass : ∑ c ∈ (linkGraph s₀ h hconv).nodes, (linkGraph s₀ h hconv).inflow r c
      = ∑ p ∈ (linkGraph s₀ h hconv).nodes, r p := by
    rw [LinkGraph.sum_inflow]
    refine Finset.sum_filter_of_ne (fun p hp _ => ?_)
    exact (h.links.mem_iff_children p).mp (hall p (mem_nodes.mp hp)).2
  have hsum : ∑ p ∈ (linkGraph s₀ h hconv).nodes, r p
      = 0.15 * (s₀ .document).size + 0.85 * ∑ p ∈ (linkGraph s₀ h hconv).nodes, r p := by
    calc ∑ p ∈ (linkGraph s₀ h hconv).nodes, r p
        = ∑ p ∈ (linkGraph s₀ h hconv).nodes,
            (0.15 + 0.85 * (linkGraph s₀ h hconv).inflow r p) := Finset.sum_congr rfl heq
      _ = 0.15 * (s₀ .document).size + 0.85 * ∑ p ∈ (linkGraph s₀ h hconv).nodes, r p := by
          rw [Finset.sum_add_distrib, Finset.sum_const, card_nodes, ← Finset.mul_sum, hmass,
            nsmul_eq_mul, mul_comm]
  have hkeys : ((s₀ .invertedDocument).keys.map r).sum
      = ∑ p ∈ (linkGraph s₀ h hconv).nodes, r p := by
    rw [sum_keys_eq h hconv _ (fun _ hk => hk)]
    exact Finset.sum_filter_of_ne (fun p hp _ => mem_nodes.mp hp)
  rw [hkeys]
  linarith

end Exact

/-! ## Conservation -/

/-- **Rank mass is conserved.**  Pages with distinct URLs and any links, indexed once on empty
    stores; exact ranks `r` for all page IDs, stored in any way.  Then what `computePageRank` gives
    for the entries of all values of the inverted link index sums to the ranks of the pages with a
    record; and if every page has a parent and a link and the ranks are a fixed point of the
    update, they sum to the number of pages. -/
theorem rank_mass_conserved (E : Platform) (A : RankArithmetic ℚ) (hA : A.Exact)
    (crawlers : List Crawler) (faults : List Bool) (hurls : (crawlers.map Crawler.url).Nodup)
    (hret : returns (Attempt.outcome E ⟨.parentChildIndexPages crawlers, faults⟩ Stores.empty)
      = true)
    (s : Stores)
    (hlinks : ∀ d, d ≠ .pageRankIndex →
      s d = Attempt.after E ⟨.parentChildIndexPages crawlers, faults⟩ Stores.empty d)
    (r : Str → ℚ) (hr : ∀ p ∈ s .invertedDocument, storedRank A s p = .ok (r p)) :
    (∃ shares, (s .parentChildIndexInverted).toList.mapM
        (fun e => (splitOn sep e.2).mapM (computePageRank A s)) = .ok shares ∧
      (shares.map List.sum).sum = ((s .parentChildIndex).keys.map r).sum) ∧
    ((∀ p ∈ s .invertedDocument, p ∈ s .parentChildIndexInverted ∧ p ∈ s .parentChildIndex) →
      FixedPoint A s → ((s .invertedDocument).keys.map r).sum = (s .document).size) := by
  obtain ⟨hgraph, hconv⟩ := graphOk_fresh hurls hret
  rw [hlinks .invertedDocument (by decide)] at hr
  rw [hlinks .parentChildIndexInverted (by decide), hlinks .parentChildIndex (by decide),
    hlinks .invertedDocument (by decide), hlinks .document (by decide)]
  exact ⟨sum_shares hgraph hconv hA hlinks hr,
    fun hall hfix => sum_fixedPoint hgraph hconv hA hlinks hr hall hfix⟩

/-- Two pages that link to each other. -/
def mutualPages : List Crawler :=
  [Crawler.page ['a'] ['a'] [] [] [] [['b']], Crawler.page ['b'] ['b'] [] [] [] [['a']]]

/-- Their links indexed. -/
def mutualStores : Stores :=
  Attempt.after asciiPlatform ⟨.parentChildIndexPages mutualPages, []⟩ Stores.empty

/-- Both pages keep their rank of one, and the ranks sum to the number of pages. -/
theorem mass_mutual_pages :
    ∃ s : Stores, FixedPoint fractions s ∧
      ((s .invertedDocument).keys.map (fun _ => (1 : ℚ))).sum = (s .document).size := by
  have hret : returns (Attempt.outcome asciiPlatform ⟨.parentChildIndexPages mutualPages, []⟩
      Stores.empty) = true := by decide +kernel
  obtain ⟨hgraph, -⟩ := graphOk_fresh (E := asciiPlatform) (by decide) hret
  have hinit := eq_ok_of_answer (a := ()) (r := initializeRanks ⟨mutualStores, []⟩)
    (by decide +kernel)
  obtain ⟨hranked, hone⟩ := initializeRanks_ok (A := fractions) hgraph.unranked hinit
  have hlinks := hranked.frame
  have hr : ∀ p ∈ (finalState (initializeRanks ⟨mutualStores, []⟩)).stores .invertedDocument,
      storedRank fractions (finalState (initializeRanks ⟨mutualStores, []⟩)).stores p
        = .ok ((fun _ => (1 : ℚ)) p) := by
    intro p hp
    rw [hlinks _ (by decide)] at hp
    exact hone p ((hranked.keys p).mpr hp)
  have hmem : ∀ p ∈ (finalState (initializeRanks ⟨mutualStores, []⟩)).stores
      .invertedDocument, p = ['1'] ∨ p = ['2'] := by
    intro p hp
    have hkeys : ((finalState (initializeRanks ⟨mutualStores, []⟩)).stores
        .invertedDocument).keys = [['1'], ['2']] := by decide +kernel
    exact List.mem_pair.mp (hkeys ▸ Std.ExtTreeMap.mem_keys.mpr hp)
  have hlist : ((finalState (initializeRanks ⟨mutualStores, []⟩)).stores
      .parentChildIndexInverted).toList = [(['1'], ['2']), (['2'], ['1'])] := by decide +kernel
  have hfix :
      FixedPoint fractions (finalState (initializeRanks ⟨mutualStores, []⟩)).stores := by
    intro c v hv
    have hcv := Std.ExtTreeMap.mem_toList_iff_getElem?_eq_some.mpr hv
    rw [hlist] at hcv
    rcases List.mem_pair.mp hcv with hcv | hcv
    · cases hcv
      exact ⟨1, by decide +kernel, by decide +kernel⟩
    · cases hcv
      exact ⟨1, by decide +kernel, by decide +kernel⟩
  have hmass := rank_mass_conserved asciiPlatform fractions exact_fractions mutualPages []
    (by decide) hret _ hlinks (fun _ => 1) hr
  refine ⟨_, hfix, hmass.2 (fun p hp => ?_) hfix⟩
  rcases hmem p hp with rfl | rfl
  · exact ⟨by decide +kernel, by decide +kernel⟩
  · exact ⟨by decide +kernel, by decide +kernel⟩

/-! ## The bound -/

/-- The ranks in the stores `s` are `r`, and `r` stays under the envelope of the graph. -/
def Enveloped (A : RankArithmetic ℚ) {done : List Crawler} {s₀ : Stores} (h : GraphOk done s₀)
    (hconv : LinksConverse s₀) (s : Stores) : Prop :=
  Ranked A s₀ s ∧ ∃ t r, (linkGraph s₀ h hconv).UnderEnvelope 0.15 0.85 t r ∧
    ∀ p ∈ s₀ .invertedDocument, storedRank A s p = .ok (r p)

section Bound

variable {A : RankArithmetic ℚ} {done : List Crawler} {s₀ : Stores} {h : GraphOk done s₀}
  {hconv : LinksConverse s₀}

/-- All ranks start at one. -/
theorem enveloped_initialize (hA : A.Exact) {faults : List Bool} {x : World} {u : Unit}
    (hinit : initializeRanks ⟨s₀, faults⟩ = .ok u x) : Enveloped A h hconv x.stores := by
  obtain ⟨hranked, hone⟩ := initializeRanks_ok (A := A) h.unranked hinit
  refine ⟨hranked, 0, fun _ => 1, fun p => ⟨by norm_num, le_refl 1⟩, fun p hp => ?_⟩
  rw [← hA.one]
  exact hone p ((hranked.keys p).mpr hp)

/-- One turn updates one page in place. -/
theorem Enveloped.turn (hA : A.Exact) {e : Str × Str} {x x' : World} {equal : Bool}
    (hx : Enveloped A h hconv x.stores) (he : e ∈ (s₀ .parentChildIndexInverted).toList)
    (hturn : indexRank A e x = .ok equal x') : Enveloped A h hconv x'.stores := by
  obtain ⟨hranked, t, r, hunder, hr⟩ := hx
  obtain ⟨rank, rankD, hnew, -, -, hx'⟩ := indexRank_ok hturn
  have hget := Std.ExtTreeMap.mem_toList_iff_getElem?_eq_some.mp he
  rw [newRank_exact h hconv hA hranked.frame hr hget] at hnew
  obtain rfl := Except.ok.inj hnew
  rw [hx']
  refine ⟨hranked.put (hranked.mem_of_key h hget) _, t + 1, _,
    hunder.update (by norm_num) (by norm_num) (by norm_num) e.1, fun p hp => ?_⟩
  by_cases hpe : p = e.1
  · subst hpe
    rw [storedRank_put_same, Function.update_self]
  · rw [storedRank_put_ne _ hpe, Function.update_of_ne hpe]
    exact hr p hp

/-- Under the envelope every rank is bounded by the number of pages. -/
theorem Enveloped.bound {s : Stores} (hs : Enveloped A h hconv s) {k : Str}
    (hk : k ∈ s .pageRankIndex) :
    ∃ rank, storedRank A s k = .ok rank ∧ 0.15 ≤ rank ∧ rank ≤ 20 / 3 * (s₀ .document).size := by
  obtain ⟨hranked, t, r, hunder, hr⟩ := hs
  have hnode := (hranked.keys k).mp hk
  obtain ⟨hlow, hup⟩ := hunder k
  refine ⟨r k, hr k hnode, hlow, ?_⟩
  have hmax := (linkGraph s₀ h hconv).envelope_le (d := (0.85 : ℚ)) (by norm_num) (by norm_num) t
    (mem_nodes.mpr hnode)
  rw [card_nodes] at hmax
  calc r k ≤ ((s₀ .document).size : ℚ) / (1 - 0.85) := hup.trans hmax
    _ = 20 / 3 * (s₀ .document).size := by ring

end Bound

/-- **Ranks stay bounded.**  Pages with distinct URLs, indexed once on empty stores, `Initialize`,
    any number of sweeps with exact ranks, stopped at any page: every stored rank is a number
    between `0.15` and `20/3` times the number of pages. -/
theorem ranks_bounded (E : Platform) (crawlers : List Crawler) (faults : List Bool)
    (hurls : (crawlers.map Crawler.url).Nodup)
    (hret : returns (Attempt.outcome E ⟨.parentChildIndexPages crawlers, faults⟩ Stores.empty)
      = true)
    (A : RankArithmetic ℚ) (hA : A.Exact) (faults' : List Bool) (x x' : World)
    (hinit : initializeRanks
        ⟨Attempt.after E ⟨.parentChildIndexPages crawlers, faults⟩ Stores.empty, faults'⟩
      = .ok () x)
    (hswept : SweptTo A x x') (k v : Str) (hv : (x'.stores .pageRankIndex)[k]? = some v) :
    ∃ rank, A.valueOf v = some rank ∧ 0.15 ≤ rank ∧
      rank ≤ 20 / 3 * (Attempt.after E ⟨.parentChildIndexPages crawlers, faults⟩ Stores.empty
        .document).size := by
  obtain ⟨hgraph, hconv⟩ := graphOk_fresh hurls hret
  have hx : Enveloped A hgraph hconv x.stores := enveloped_initialize hA hinit
  have hx' : Enveloped A hgraph hconv x'.stores := by
    refine hswept.invariant (I := fun y => Enveloped A hgraph hconv y.stores)
      (fun y e equal y' hy he hturn => ?_) hx
    rw [hx.1.frame _ (by decide)] at he
    exact hy.turn hA he hturn
  obtain ⟨rank, hrank, hlow, hup⟩ := hx'.bound (mem_iff_get.mpr ⟨v, hv⟩)
  refine ⟨rank, ?_, hlow, hup⟩
  rw [storedRank, Stores.fetch, hv, except_ok_bind] at hrank
  cases hval : A.valueOf v with
  | none =>
    rw [hval] at hrank
    cases hrank
  | some rank' =>
    rw [hval] at hrank
    exact congrArg some (Except.ok.inj hrank)

/-- The ranks of two pages and a third one they link to, behind one sweep. -/
theorem bounded_linked_pages :
    ∃ x x' v, initializeRanks ⟨Attempt.after asciiPlatform
        ⟨.parentChildIndexPages PageRankIndexer.linkedPages, []⟩ Stores.empty, []⟩ = .ok () x ∧
      SweptTo fractions x x' ∧ (x'.stores .pageRankIndex)[['2']]? = some v ∧
      ∃ rank, fractions.valueOf v = some rank ∧ 0.15 ≤ rank ∧
        rank ≤ 20 / 3 * (Attempt.after asciiPlatform
          ⟨.parentChildIndexPages PageRankIndexer.linkedPages, []⟩ Stores.empty
          .document).size := by
  have hinit := eq_ok_of_answer (a := ()) (r := initializeRanks ⟨Attempt.after asciiPlatform
    ⟨.parentChildIndexPages PageRankIndexer.linkedPages, []⟩ Stores.empty, []⟩) (by decide +kernel)
  have hsweep := eq_ok_of_answer (a := ⟨1, false⟩) (r := sweep fractions 3 ⟨0, false⟩ (finalState
    (initializeRanks ⟨Attempt.after asciiPlatform
      ⟨.parentChildIndexPages PageRankIndexer.linkedPages, []⟩ Stores.empty, []⟩)))
    (by decide +kernel)
  obtain ⟨flags, hswept, -⟩ := sweep_ok.mp hsweep
  have hreached : SweptTo fractions _ _ :=
    ⟨[flags], _, [], _, [], .cons hswept (.nil _), rfl, .nil _⟩
  have hget : ((finalState (sweep fractions 3 ⟨0, false⟩ (finalState (initializeRanks
      ⟨Attempt.after asciiPlatform ⟨.parentChildIndexPages PageRankIndexer.linkedPages, []⟩
        Stores.empty, []⟩)))).stores .pageRankIndex)[['2']]? = some "23/40".toList := by
    decide +kernel
  exact ⟨_, _, _, hinit, hreached, hget, ranks_bounded asciiPlatform _ [] (by decide +kernel)
    (by decide +kernel) fractions exact_fractions [] _ _ hinit hreached ['2'] _ hget⟩

end SearchEngine
