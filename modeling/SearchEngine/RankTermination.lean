/-
  `index_ranks` on links without cycles.

  The counter of `index_ranks` only stops it when ranks stay the same, to the last bit.  Where no
  page can be reached from itself, that happens whatever the arithmetic does: a turn is a function
  of the ranks of the parents (`rankOf`), so the pages settle one behind the other
  (`settled_of_acyclic`), also with ranks that are rounded, overflow or are no numbers at all.
  Behind as many sweeps as there are linked pages the ranks are a fixed point, and the next sweep
  at the latest fills the counter: `index_ranks_acyclic`.
-/
import SearchEngine.RankLimit
import SearchEngine.Lib.Settling
import Mathlib.Tactic.Common

namespace SearchEngine

open Text Numeral Effect NumberedMap ParentChildIndexer PageRankIndexer InPlace

variable {R : Type} {A : RankArithmetic R} {done : List Crawler} {s₀ s : Stores}

/-! ## A turn, for any arithmetic -/

/-- The rank a turn gives to a page, where `r` are the ranks before it. -/
def rankOf (A : RankArithmetic R) (s : Stores) (r : Str → R) (c : Str) : R :=
  A.damp ((parents s c).foldl
    (fun rank p => A.add rank (A.div (r p) (children s p).length)) A.zero)

theorem dependsOn_rankOf (A : RankArithmetic R) (s : Stores) :
    DependsOn (rankOf A s) (parents s) := by
  intro r r' c h
  unfold rankOf
  apply congrArg A.damp
  apply List.foldl_ext
  intro rank p hp
  rw [h p hp]

/-- The loop over the parents, where all shares can be read. -/
theorem foldlM_shares_eq {share : Str → R} :
    ∀ (ps : List Str) (rank : R), (∀ p ∈ ps, computePageRank A s p = .ok (share p)) →
      (ps.foldlM (fun rank parent => do
        let share ← computePageRank A s parent
        .ok (A.add rank share)) rank : Except Exn R)
        = .ok (ps.foldl (fun rank p => A.add rank (share p)) rank)
  | [], rank, _ => rfl
  | p :: ps, rank, h => by
    rw [List.foldlM_cons, h p (by simp)]
    exact foldlM_shares_eq ps _ (fun q hq => h q (List.mem_cons_of_mem p hq))

/-- The stores `s` have the links of `s₀`, and `r` are the ranks of its pages. -/
def HasRanks (A : RankArithmetic R) (s₀ s : Stores) (r : Str → R) : Prop :=
  Ranked A s₀ s ∧ ∀ p ∈ s₀ .invertedDocument, storedRank A s p = .ok (r p)

namespace HasRanks

variable {r : Str → R}

theorem newRank_eq (hs : HasRanks A s₀ s r) (hs₀ : GraphOk done s₀) {c v : Str}
    (hv : (s₀ .parentChildIndexInverted)[c]? = some v) :
    newRank A s v = .ok (rankOf A s₀ r c) := by
  have hshare : ∀ p ∈ splitOn sep v,
      computePageRank A s p = .ok (A.div (r p) (children s₀ p).length) := by
    intro p hp
    have hrec := Ranked.parents_recorded hs₀ hv hp
    obtain ⟨child, hchild⟩ := mem_iff_get.mp hrec
    have hissued := (hs₀.issued_iff p).mp (hs₀.issued_of_record hrec)
    rw [computePageRank, hs.2 p hissued, except_ok_bind, Stores.fetch,
      hs.1.frame _ (by decide), hchild, length_children hchild]
    rfl
  have hparents : parents s₀ c = splitOn sep v := by rw [parents, hv]
  rw [newRank, foldlM_shares_eq _ _ hshare, rankOf, hparents]
  rfl

variable [DecidableEq R]

/-- One turn, with its flag. -/
theorem turn {e : Str × Str} {x x' : World} {equal : Bool} (hx : HasRanks A s₀ x.stores r)
    (hs₀ : GraphOk done s₀) (he : e ∈ (s₀ .parentChildIndexInverted).toList)
    (h : indexRank A e x = .ok equal x') :
    HasRanks A s₀ x'.stores (Function.update r e.1 (rankOf A s₀ r e.1)) ∧
      equal = decide (rankOf A s₀ r e.1 = r e.1) := by
  obtain ⟨rank, rankD, hnew, hold, hequal, hx'⟩ := indexRank_ok h
  have hget := Std.ExtTreeMap.mem_toList_iff_getElem?_eq_some.mp he
  have hmem := hx.1.mem_of_key hs₀ hget
  rw [hx.newRank_eq hs₀ hget] at hnew
  obtain rfl := Except.ok.inj hnew
  rw [hx.2 e.1 ((hx.1.keys e.1).mp hmem)] at hold
  obtain rfl := Except.ok.inj hold
  refine ⟨?_, hequal⟩
  rw [hx']
  refine ⟨hx.1.put hmem _, fun p hp => ?_⟩
  by_cases hpe : p = e.1
  · subst hpe
    rw [storedRank_put_same, Function.update_self]
  · rw [storedRank_put_ne _ hpe, Function.update_of_ne hpe]
    exact hx.2 p hp

/-- The turns for a list of pages. -/
theorem turns {es : List (Str × Str)} {x x' : World} {flags : List Bool}
    (h : Turns A es x flags x') (hs₀ : GraphOk done s₀)
    (hes : ∀ e ∈ es, e ∈ (s₀ .parentChildIndexInverted).toList) (hx : HasRanks A s₀ x.stores r) :
    HasRanks A s₀ x'.stores (pass (rankOf A s₀) (es.map Prod.fst) r) := by
  induction h generalizing r with
  | nil x => exact hx
  | cons hturn _ ih =>
    have hstep := (hx.turn hs₀ (hes _ List.mem_cons_self) hturn).1
    exact ih (fun e he => hes e (List.mem_cons_of_mem _ he)) hstep

/-- Turns where every page has what it would be given. -/
theorem turns_stable {es : List (Str × Str)} {x x' : World} {flags : List Bool}
    (h : Turns A es x flags x') (hs₀ : GraphOk done s₀)
    (hes : ∀ e ∈ es, e ∈ (s₀ .parentChildIndexInverted).toList) (hx : HasRanks A s₀ x.stores r)
    (hfixed : ∀ e ∈ es, rankOf A s₀ r e.1 = r e.1) : ∀ b ∈ flags, b = true := by
  induction h with
  | nil x => exact fun b hb => by cases hb
  | cons hturn _ ih =>
    obtain ⟨hstep, hflag⟩ := hx.turn hs₀ (hes _ List.mem_cons_self) hturn
    have hself := hfixed _ List.mem_cons_self
    rw [hself, Function.update_eq_self] at hstep
    intro b hb
    rcases List.mem_cons.mp hb with rfl | hb
    · rw [hflag, decide_eq_true hself]
    · exact ih (fun e he => hes e (List.mem_cons_of_mem _ he)) hstep
        (fun e he => hfixed e (List.mem_cons_of_mem _ he)) b hb

/-- One sweep is one pass. -/
theorem swept {x x' : World} {flags : List Bool} (hx : HasRanks A s₀ x.stores r)
    (hs₀ : GraphOk done s₀) (h : Swept A x flags x') :
    HasRanks A s₀ x'.stores (pass (rankOf A s₀) (linkedPageIDs s₀) r) := by
  unfold Swept at h
  rw [hx.1.frame _ (by decide)] at h
  have hpass := turns h hs₀ (fun e he => he) hx
  rw [Std.ExtTreeMap.map_fst_toList_eq_keys] at hpass
  exact hpass

theorem swept_stable {x x' : World} {flags : List Bool} (hx : HasRanks A s₀ x.stores r)
    (hs₀ : GraphOk done s₀) (h : Swept A x flags x')
    (hfixed : ∀ c ∈ linkedPageIDs s₀, rankOf A s₀ r c = r c) : ∀ b ∈ flags, b = true := by
  unfold Swept at h
  rw [hx.1.frame _ (by decide)] at h
  refine turns_stable h hs₀ (fun e he => he) hx (fun e he => hfixed e.1 ?_)
  rw [linkedPageIDs, ← Std.ExtTreeMap.map_fst_toList_eq_keys]
  exact List.mem_map_of_mem he

/-- Sweeps in a row. -/
theorem sweeps {x x' : World} {hist : List (List Bool)} (h : Sweeps A x hist x')
    (hs₀ : GraphOk done s₀) (hx : HasRanks A s₀ x.stores r) :
    HasRanks A s₀ x'.stores ((pass (rankOf A s₀) (linkedPageIDs s₀))^[hist.length] r) := by
  induction h generalizing r with
  | nil x => exact hx
  | cons hswept _ ih =>
    rw [List.length_cons, Function.iterate_succ_apply]
    exact ih (hx.swept hs₀ hswept)

end HasRanks

/-! ## Sweeps can be made -/

section Exist

variable [DecidableEq R]

theorem indexRank_noFaults {e : Str × Str} {x x' : World} {equal : Bool}
    (h : indexRank A e x = .ok equal x') (hx : NoFaults x) : NoFaults x' := by
  obtain ⟨rank, x₁, hlook, hrest⟩ := bind_ok.mp h
  obtain ⟨-, rfl⟩ := look_ok.mp hlook
  obtain ⟨rankD, x₂, hlook₂, hrest₂⟩ := bind_ok.mp hrest
  obtain ⟨-, rfl⟩ := look_ok.mp hlook₂
  obtain ⟨u, x₃, hput, hpure⟩ := bind_ok.mp hrest₂
  obtain ⟨-, rfl⟩ := pure_ok.mp hpure
  obtain ⟨u', x₄, hput', hx₄⟩ := put_runs .pageRankIndex e.1 (A.toText rank) x hx
  rw [hput'] at hput
  cases hput
  exact hx₄

theorem turns_noFaults {es : List (Str × Str)} {x x' : World} {flags : List Bool}
    (h : Turns A es x flags x') (hx : NoFaults x) : NoFaults x' := by
  induction h with
  | nil x => exact hx
  | cons hturn _ ih => exact ih (indexRank_noFaults hturn hx)

/-- Any number of sweeps can be made, if no `put` throws. -/
theorem sweeps_exist (hs₀ : GraphOk done s₀) :
    ∀ (n : Nat) {x : World}, NoFaults x → Ranked A s₀ x.stores →
      ∃ hist x', hist.length = n ∧ Sweeps A x hist x'
  | 0, x, _, _ => ⟨[], x, rfl, .nil x⟩
  | n + 1, ⟨s, fs⟩, hfaults, hx => by
    obtain rfl : fs = [] := hfaults
    have hlinks : s .parentChildIndexInverted = s₀ .parentChildIndexInverted :=
      hx.frame _ (by decide)
    obtain ⟨flags, x₁, hturns⟩ := turns_exist hs₀ (s .parentChildIndexInverted).toList
      (fun e he => hlinks ▸ he) hx
    have hswept : Swept A ⟨s, []⟩ flags x₁ := hturns
    have hreached : SweptTo A ⟨s, []⟩ x₁ :=
      ⟨[flags], x₁, [], _, [], .cons hswept (.nil x₁), rfl, .nil x₁⟩
    obtain ⟨hist, x', hlen, hsweeps⟩ :=
      sweeps_exist hs₀ n (turns_noFaults hturns rfl) (hx.sweptTo hs₀ hreached)
    exact ⟨flags :: hist, x', by rw [List.length_cons, hlen], .cons hswept hsweeps⟩

end Exist

/-! ## Links without cycles -/

/-- `link` is a link of a page at `url`. -/
def LinksTo (crawlers : List Crawler) (url link : Str) : Prop :=
  ∃ c ∈ crawlers, c.url = url ∧ link ∈ c.links

/-- No page can be reached from itself. -/
def LinksAcyclic (crawlers : List Crawler) : Prop :=
  ∀ url, ¬ Relation.TransGen (LinksTo crawlers) url url

/-- The URL of a page. -/
def urlOf (s : Stores) (p : Str) : Str := (s .invertedDocument)[p]?.getD []

theorem WebOf.urlOf_pageIDOf (h : WebOf done s) {url : Str} (hurl : url ∈ s .document) :
    urlOf s (pageIDOf s url) = url := by
  have hget : (s .invertedDocument)[pageIDOf s url]? = some url :=
    (h.graph.exact.2 (pageIDOf s url) url).mpr (get_pageIDOf hurl)
  rw [urlOf, hget]
  rfl

theorem WebOf.acyclic_parents (h : WebOf done s) (hacyclic : LinksAcyclic done) :
    Acyclic (SearchEngine.parents s) := by
  intro c hcycle
  refine hacyclic (urlOf s c) (hcycle.lift (urlOf s) (fun p c hp => ?_))
  have hc : c ∈ linkedPageIDs s :=
    (mem_linkedPageIDs h.graph c).mpr (List.ne_nil_of_mem hp)
  obtain ⟨url, hurl, rfl⟩ := h.exists_url (issued_of_linked h.graph hc)
  rw [h.parents url hurl] at hp
  obtain ⟨v, hv, rfl⟩ := List.mem_map.mp hp
  show LinksTo done (urlOf s (pageIDOf s v)) (urlOf s (pageIDOf s url))
  rw [h.urlOf_pageIDOf hurl, h.urlOf_pageIDOf (h.linkers_named hv)]
  exact mem_linkers.mp hv

/-- There is a linked page just when some page has a link. -/
theorem WebOf.size_pos_iff (h : WebOf done s) :
    0 < (s .parentChildIndexInverted).size ↔ ∃ c ∈ done, c.links ≠ [] := by
  rw [← Std.ExtTreeMap.length_keys, List.length_pos_iff_exists_mem]
  constructor
  · rintro ⟨p, hp⟩
    obtain ⟨url, hurl, rfl⟩ := h.exists_url (issued_of_linked h.graph hp)
    obtain ⟨v, hv⟩ := List.exists_mem_of_ne_nil _ ((h.linked_iff hurl).mp hp)
    obtain ⟨c, hc, -, hlink⟩ := mem_linkers.mp hv
    exact ⟨c, hc, List.ne_nil_of_mem hlink⟩
  · rintro ⟨c, hc, hne⟩
    obtain ⟨link, hlink⟩ := List.exists_mem_of_ne_nil _ hne
    have hurl : link ∈ s .document := (h.named link).mpr (mem_mentioned.mpr ⟨c, hc, Or.inr hlink⟩)
    refine ⟨pageIDOf s link, (h.linked_iff hurl).mpr (List.ne_nil_of_mem (a := c.url) ?_)⟩
    exact mem_linkers.mpr ⟨c, hc, rfl, hlink⟩

theorem HasRanks.fixedPoint {r : Str → R} (hs : HasRanks A s₀ s r) (hs₀ : GraphOk done s₀)
    (hfixed : ∀ c ∈ linkedPageIDs s₀, rankOf A s₀ r c = r c) : FixedPoint A s := by
  intro c v hv
  rw [hs.1.frame _ (by decide)] at hv
  have hc : c ∈ linkedPageIDs s₀ := Std.ExtTreeMap.mem_keys.mpr (mem_iff_get.mpr ⟨v, hv⟩)
  refine ⟨rankOf A s₀ r c, hs.newRank_eq hs₀ hv, ?_⟩
  rw [hs.2 c (issued_of_linked hs₀ hc), hfixed c hc]

/-- Behind as many sweeps as there are linked pages, every page has what a turn would give it. -/
theorem HasRanks.fixed_of_acyclic [DecidableEq R] {r : Str → R} (hs₀ : GraphOk done s₀)
    (hacyclic : Acyclic (parents s₀)) {x x' : World} {hist : List (List Bool)}
    (h : Sweeps A x hist x') (hlen : (s₀ .parentChildIndexInverted).size ≤ hist.length)
    (hx : HasRanks A s₀ x.stores r) :
    ∃ r', HasRanks A s₀ x'.stores r' ∧ ∀ c ∈ linkedPageIDs s₀, rankOf A s₀ r' c = r' c := by
  have hkeys : (linkedPageIDs s₀).length = (s₀ .parentChildIndexInverted).size :=
    Std.ExtTreeMap.length_keys
  refine ⟨_, HasRanks.sweeps h hs₀ hx, fixed_of_pass_eq (nodup_linkedPageIDs s₀) ?_⟩
  intro c _
  have hsettled := settled_of_acyclic (w := r) (dependsOn_rankOf A s₀) hacyclic
    (nodup_linkedPageIDs s₀) c
  rw [← Function.iterate_succ_apply' (pass (rankOf A s₀) (linkedPageIDs s₀)),
    hsettled (hist.length + 1) (by omega), hsettled hist.length (by omega)]

/-- **Without cycles `index_ranks` ends, whatever the arithmetic, if there is a link at all.**  For
    every run of `addEntry` calls that all return, from empty stores, whose pages do not link back
    to themselves, directly or through others, after `Initialize`, with stores that do not fail:
    whenever as many sweeps as there are linked pages have been made, the ranks are a fixed point;
    `index_ranks` returns within one sweep more if some page has a link; and if no page has one,
    it never returns. -/
theorem index_ranks_acyclic [DecidableEq R] (E : Platform) (A : RankArithmetic R)
    (pages : List (Crawler × List Bool)) (hret : NoneAborted E (linkRun pages) Stores.empty)
    (hacyclic : LinksAcyclic (pages.map Prod.fst)) (x : World)
    (hinit : initializeRanks ⟨runAll E (linkRun pages) Stores.empty, []⟩ = .ok () x) :
    let linked := (runAll E (linkRun pages) Stores.empty .parentChildIndexInverted).size
    (∀ hist x', Sweeps A x hist x' → linked ≤ hist.length → FixedPoint A x'.stores) ∧
    ((∃ c ∈ pages.map Prod.fst, c.links ≠ []) →
      ∃ n x', n ≤ linked + 1 ∧ indexRanks A n x = .ok (some ()) x') ∧
    ((∀ c ∈ pages.map Prod.fst, c.links = []) →
      ∀ budget x', indexRanks A budget x ≠ .ok (some ()) x') := by
  intro linked
  have hweb : WebOf (pages.map Prod.fst) (runAll E (linkRun pages) Stores.empty) :=
    webOf_linkRun pages hret webOf_empty
  have hparents := hweb.acyclic_parents hacyclic
  obtain ⟨hranked, hone⟩ := initializeRanks_ok (A := A) hweb.graph.unranked hinit
  have hx : HasRanks A (runAll E (linkRun pages) Stores.empty) x.stores (fun _ => A.one) :=
    ⟨hranked, fun p hp => hone p ((hranked.keys p).mpr hp)⟩
  have hsize : (x.stores .parentChildIndexInverted).size = linked := by
    rw [hranked.frame _ (by decide)]
  refine ⟨fun hist x' hsweeps hlen => ?_, fun hlink => ?_, fun hno budget x' hrun => ?_⟩
  · obtain ⟨r, hr, hfixed⟩ := HasRanks.fixed_of_acyclic hweb.graph hparents hsweeps hlen hx
    exact hr.fixedPoint hweb.graph hfixed
  · have hpos : 0 < linked := hweb.size_pos_iff.mpr hlink
    obtain ⟨s, hinit'⟩ := initializeRanks_returns (runAll E (linkRun pages) Stores.empty)
    have hfaults : NoFaults x := by
      rw [hinit'] at hinit
      cases hinit
      exact rfl
    obtain ⟨hist, x₁, hlen, hsweeps⟩ := sweeps_exist hweb.graph (linked + 1) hfaults hranked
    -- the last of these sweeps changes nothing
    obtain ⟨pre, flags, rfl⟩ : ∃ pre flags, hist = pre ++ [flags] := by
      rcases List.eq_nil_or_concat hist with rfl | ⟨pre, flags, rfl⟩
      · cases hlen
      · exact ⟨pre, flags, by simp⟩
    obtain ⟨x₀, hpre, hlast⟩ := hsweeps.exists_last
    rw [List.length_append, List.length_singleton] at hlen
    obtain ⟨r, hr, hfixed⟩ :=
      HasRanks.fixed_of_acyclic hweb.graph hparents hpre (by omega) hx
    have hall := hr.swept_stable hweb.graph hlast hfixed
    have hfull : flags.count true = linked := by
      rw [count_true_of_stable hall, hlast.length, hpre.size_eq, hsize]
    have htotal : linked ≤ unchanged (pre ++ [flags]) := by
      rw [unchanged_append, unchanged_cons, hfull]
      omega
    obtain ⟨before, flags', after, heq, hcross⟩ := exists_crossing hpos _ htotal
    rw [heq] at hsweeps
    obtain ⟨x₂, hcrossed, -⟩ := hsweeps.split
    obtain ⟨x₃, hbefore, hswept⟩ := hcrossed.exists_last
    rw [← hsize] at hcross
    refine ⟨before.length + 1, x₂, ?_, returns_of_crossing hbefore hswept hcross⟩
    have hcut := congrArg List.length heq
    simp only [List.length_append, List.length_singleton] at hcut
    omega
  · obtain ⟨flags, hlast⟩ := exists_lastSweep hrun
    obtain ⟨hist, -, hlt, -⟩ := lastSweep_iff.mp hlast
    obtain ⟨c, hc, hne⟩ := hweb.size_pos_iff.mp (by omega : 0 < linked)
    exact hne (hno c hc)

/-- Two pages with a chain of links: three sweeps are enough. -/
theorem chained_links_end :
    ∃ x n x', initializeRanks ⟨runAll asciiPlatform (linkRun chainedPages) Stores.empty, []⟩
        = .ok () x ∧
      n ≤ (runAll asciiPlatform (linkRun chainedPages) Stores.empty
        .parentChildIndexInverted).size + 1 ∧
      indexRanks fractions n x = .ok (some ()) x' := by
  have hacyclic : LinksAcyclic (chainedPages.map Prod.fst) := by
    -- every link leads on in the alphabet
    have hends : ∀ url link, LinksTo (chainedPages.map Prod.fst) url link →
        (url.headD 'a').toNat < (link.headD 'a').toNat := by
      rintro url link ⟨c, hc, rfl, hlink⟩
      rcases List.mem_pair.mp hc with rfl | rfl
      · rcases List.mem_pair.mp hlink with rfl | rfl
        · decide
        · decide
      · obtain rfl := List.mem_singleton.mp hlink
        decide
    intro url hcycle
    have hless : Relation.TransGen (fun m n : Nat => m < n) (url.headD 'a').toNat
        (url.headD 'a').toNat :=
      Relation.TransGen.lift (fun u : Str => (u.headD 'a').toNat) hends _ _ hcycle
    rw [Relation.transGen_eq_self] at hless
    exact lt_irrefl _ hless
  obtain ⟨s, hinit⟩ :=
    initializeRanks_returns (runAll asciiPlatform (linkRun chainedPages) Stores.empty)
  obtain ⟨-, hends, -⟩ := index_ranks_acyclic asciiPlatform fractions chainedPages
    chainedPages_returns hacyclic ⟨s, []⟩ hinit
  obtain ⟨n, x', hn, hrun⟩ := hends ⟨_, List.mem_cons_self, by decide⟩
  exact ⟨⟨s, []⟩, n, x', hinit, hn, hrun⟩

end SearchEngine
