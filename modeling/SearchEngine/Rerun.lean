/-
  `index_pages` run a second time on the same pages.

  Every page now goes through the removal path.  If no page shares a word with a page whose ID
  EXTENDS its own (page 1 with page 10, page 2 with page 21, ...), each group is cut out and
  written anew and the index is what it was (`Built.again`).  If one does, the first such page
  takes over a group of the other and keeps the wrong number of positions for good: the pages
  still to come have larger IDs and cannot reach its groups (`groupsOf_again`).

  `rerun_unchanged_iff` draws the line exactly, counting positions with multiplicity.
-/
import SearchEngine.FreshBuild
import Mathlib.Tactic.Common

namespace SearchEngine

open Text Numeral Postings InvertedIndexer NumberedMap Effect

/-! ## One page again -/

variable {E : Platform} {crawlers : List Crawler} {s s' : Stores} {i : Nat} {c : Crawler}
  {toks : Field → List Str}

/-- Page `i` shares no word with a page whose ID extends its own. -/
def SharesNothing (E : Platform) (crawlers : List Crawler) (i : Nat) : Prop :=
  ∀ (f : Field) (j : Nat) (c c' : Crawler) (ts ts' : List Str),
    crawlers[i]? = some c → crawlers[j]? = some c' → i ≠ j →
    decimal (i + 1) <+: decimal (j + 1) →
    f.tokens E c = .ok ts → f.tokens E c' = .ok ts' → ∀ w ∈ ts, w ∉ ts'

/-- Pages before the one that is indexed are out of its reach. -/
theorem groupsOf_again (h : Known crawlers s) (hi : crawlers[i]? = some c)
    (hadd : EntryAdded E c toks s s') {n : Nat} (hn : n < i) (f : Field) (w : Str) :
    groupsOf (decimal (n + 1)) (postings f s' w) = groupsOf (decimal (n + 1)) (postings f s w) := by
  rw [hadd.postings, reindexed, h.pageIDOf hi]
  refine groupsOf_refresh _ (fun hpre => ?_) _ _ _
  have hle := decimal_prefix_le hpre
  omega

namespace Built

/-- The page's own group is found at its first token. -/
theorem headHit_again (h : Built E crawlers s) (hi : crawlers[i]? = some c) {f : Field}
    {ts : List Str} (hts : f.tokens E c = .ok ts) (hne : ts ≠ []) :
    headHit f s (decimal (i + 1)) ts = true := by
  cases hcons : ts with
  | nil => exact absurd hcons hne
  | cons w ts' =>
    obtain ⟨g, hg⟩ := h.group_of_mem hi hts (w := w) (by rw [hcons]; simp)
    have hmem : g ∈ groupsOf (decimal (i + 1)) (postings f s w) := by rw [hg]; simp
    obtain ⟨hmem, hdoc⟩ := List.mem_filter.mp hmem
    exact List.any_eq_true.mpr ⟨g, hmem, hit_own (by simpa using hdoc)⟩

/-- Sharing nothing, the search for the page's ID finds no group but its own. -/
theorem hit_again (h : Built E crawlers s) (hi : crawlers[i]? = some c)
    (hshare : SharesNothing E crawlers i) {f : Field} {ts : List Str}
    (hts : f.tokens E c = .ok ts) {w : Str} (hw : w ∈ ts) :
    ∀ g ∈ postings f s w, decimal (i + 1) <+: g.doc → g.doc = decimal (i + 1) := by
  intro g hg hpre
  obtain ⟨j, c', hj, hdoc, ts', hts', hw'⟩ := h.page_of_group hg
  by_cases hij : i = j
  · rw [hij]
    exact hdoc
  · rw [hdoc] at hpre
    exact absurd hw' (hshare f j c c' ts ts' hi hj hij hpre hts hts' w hw)

/-- **A page that shares nothing is re-indexed without damage.** -/
theorem again (h : Built E crawlers s) (hi : crawlers[i]? = some c)
    (hshare : SharesNothing E crawlers i) (hadd : EntryAdded E c toks s s') :
    Built E crawlers s' := by
  have hknown : Known crawlers s := h.ids
  have hp := hknown.pageIDOf hi
  refine ⟨hadd.ok, ?_, hknown.again hi hadd.document, h.tokens, fun c' hc' f ts hts w hw => ?_,
    fun j c' hj f ts hts w => ?_⟩
  · rw [hknown.document hi hadd.document]
    exact h.size
  · obtain ⟨k, hk⟩ := h.issued c' hc' f ts hts w hw
    exact ⟨k, hadd.words w k hk⟩
  · rw [hadd.postings, hp]
    by_cases hw : w ∈ toks f
    · obtain ⟨q, qs, hpos⟩ := positions_of_mem hw
      obtain ⟨hord, hfilled, -⟩ := h.ok.postings_ok f w
      have hown := h.hit_again hi hshare (hadd.tokens f) hw
      by_cases hij : i = j
      · -- the page itself: its one group is cut out and written anew
        subst hij
        obtain rfl : c = c' := Option.some.inj (hi.symm.trans hj)
        obtain rfl : toks f = ts := Except.ok.inj ((hadd.tokens f).symm.trans hts)
        have hone : hits (decimal (i + 1)) (postings f s w) = 1 := by
          obtain ⟨g, hg⟩ := h.group_of_mem hi hts hw
          rw [hits_eq_length_groupsOf hown, hg]
          rfl
        rw [reindexed, hpos, h.headHit_again hi hts (List.ne_nil_of_mem hw),
          refresh_exact_iff hfilled]
        exact Or.inl hone
      · have hne : decimal (j + 1) ≠ decimal (i + 1) := by
          intro he
          have hinj := decimal_injective he
          omega
        rw [reindexed, hpos, exact_congr
          ((refresh_keeps_iff hord _ q qs).mpr (Or.inl hown) _ hne)]
        exact h.exact j c' hj f ts hts w
    · rw [reindexed_of_not_mem hw]
      exact h.exact j c' hj f ts hts w

/-- **A page that shares a word ends up with wrong positions.** -/
theorem not_exact_again (h : Built E crawlers s) (hi : crawlers[i]? = some c)
    (hshare : ¬ SharesNothing E crawlers i) (hadd : EntryAdded E c toks s s') :
    ∃ (f : Field) (w : Str),
      ¬ Exact (decimal (i + 1)) ((positions 0 w (toks f)).map decimal) (postings f s' w) := by
  unfold SharesNothing at hshare
  push Not at hshare
  obtain ⟨f, j, c₀, c', ts, ts', hi', hj, hij, hpre, hts, hts', w, hw, hw'⟩ := hshare
  obtain rfl : c = c₀ := Option.some.inj (hi.symm.trans hi')
  obtain rfl : toks f = ts := Except.ok.inj ((hadd.tokens f).symm.trans hts)
  have hknown : Known crawlers s := h.ids
  refine ⟨f, w, ?_⟩
  obtain ⟨q, qs, hpos⟩ := positions_of_mem hw
  rw [hadd.postings, hknown.pageIDOf hi, reindexed, hpos,
    h.headHit_again hi hts (List.ne_nil_of_mem hw),
    refresh_exact_iff (h.ok.postings_ok f w).2.1, if_pos rfl]
  -- two groups are found: the page's own, and the one of the longer ID
  have hgroup : ∀ n c₁ ts₁, crawlers[n]? = some c₁ → f.tokens E c₁ = .ok ts₁ → w ∈ ts₁ →
      decimal (i + 1) <+: decimal (n + 1) →
      ∃ g ∈ (postings f s w).filter (hit (decimal (i + 1))), g.doc = decimal (n + 1) := by
    intro n c₁ ts₁ hn hts₁ hw₁ hpre₁
    obtain ⟨g, hg⟩ := h.group_of_mem hn hts₁ hw₁
    have hmem : g ∈ groupsOf (decimal (n + 1)) (postings f s w) := by rw [hg]; simp
    obtain ⟨hmem, hdoc⟩ := List.mem_filter.mp hmem
    have hdoc' : g.doc = decimal (n + 1) := by simpa using hdoc
    exact ⟨g, List.mem_filter.mpr ⟨hmem, hit_iff.mpr (by rw [hdoc']; exact hpre₁)⟩, hdoc'⟩
  obtain ⟨g, hg, hgd⟩ := hgroup i c _ hi hts hw List.prefix_rfl
  obtain ⟨g', hg', hgd'⟩ := hgroup j c' ts' hj hts' hw' hpre
  rw [hits, List.countP_eq_length_filter]
  rintro (hone | ⟨hzero, -⟩)
  · obtain ⟨a, ha⟩ := List.length_eq_one_iff.mp hone
    rw [ha, List.mem_singleton] at hg hg'
    rw [hg, ← hg', hgd'] at hgd
    have hinj := decimal_injective hgd
    omega
  · rw [List.length_eq_zero_iff.mp hzero] at hg
    exact absurd hg (by simp)

end Built

/-! ## All pages again -/

/-- What a page index holds: the positions decoded for a page under a word. -/
def decoded (f : Field) (s : Stores) (p w : Str) : List Str :=
  (groupsOf p (postings f s w)).flatMap DocGroup.poss

/-- In shape, the positions are right as a list just when the groups are. -/
theorem decoded_perm_iff (hs : IndexOk s) {f : Field} {p w : Str} {qs : List Str} :
    (decoded f s p w).Perm qs ↔ Exact p qs (postings f s w) := by
  obtain ⟨hord, hfilled, -⟩ := hs.postings_ok f w
  have hdoc : ∀ g ∈ groupsOf p (postings f s w), g.doc = p ∧ g.poss ≠ [] := by
    intro g hg
    obtain ⟨hg, hgp⟩ := List.mem_filter.mp hg
    exact ⟨by simpa using hgp, hfilled g hg⟩
  have hpair : (groupsOf p (postings f s w)).Pairwise (fun g h => ¬ h.doc <+: g.doc) :=
    List.Pairwise.filter _ hord
  rw [decoded, Exact]
  -- by the order of the groups there is at most one
  rcases hgs : groupsOf p (postings f s w) with _ | ⟨g, _ | ⟨g', gs⟩⟩
  · by_cases hqs : qs = []
    · simp [hqs]
    · simp only [List.flatMap_nil, if_neg hqs, List.nil_perm]
      refine ⟨fun h => absurd h hqs, ?_⟩
      rintro ⟨ps, h, -⟩
      exact absurd h (by simp)
  · obtain ⟨hgp, hgne⟩ := hdoc g (by simp [hgs])
    rw [List.flatMap_singleton]
    by_cases hqs : qs = []
    · rw [if_pos hqs, hqs, List.perm_nil]
      exact ⟨fun h => absurd h hgne, fun h => absurd h (by simp)⟩
    · rw [if_neg hqs]
      constructor
      · exact fun h => ⟨g.poss, by rw [← hgp], h⟩
      · rintro ⟨ps, hps, hperm⟩
        rw [(List.cons.inj hps).1]
        exact hperm
  · rw [hgs] at hpair
    have hne := (List.pairwise_cons.mp hpair).1 g' (by simp)
    rw [(hdoc g (by simp [hgs])).1, (hdoc g' (by simp [hgs])).1] at hne
    exact absurd List.prefix_rfl hne

/-- Through the rest of the batch, the pages before it keep their groups. -/
theorem groupsOf_rest {done todo : List Crawler} {x x' : World} {u : Unit}
    (hall : crawlers = done ++ todo) (hknown : Known crawlers x.stores) (hok : IndexOk x.stores)
    (h : todo.foldlM (fun _ c => InvertedIndexer.addEntry E c) () x = .ok u x') {n : Nat}
    (hn : n < done.length) (f : Field) (w : Str) :
    groupsOf (decimal (n + 1)) (postings f x'.stores w)
      = groupsOf (decimal (n + 1)) (postings f x.stores w) := by
  have hend := foldlM_batch (I := fun done' (y : World) => Known crawlers y.stores ∧
      IndexOk y.stores ∧ n < done'.length ∧
      groupsOf (decimal (n + 1)) (postings f y.stores w)
        = groupsOf (decimal (n + 1)) (postings f x.stores w))
    ?_ todo done hall ⟨hknown, hok, hn, rfl⟩ h
  · exact hend.2.2.2
  · rintro done' c todo' y y' hl ⟨hknown, hok, hn, hsame⟩ hstep
    obtain ⟨toks, hadd⟩ := addEntry_postings hstep hok
    have hi : crawlers[done'.length]? = some c := by simp [hl]
    refine ⟨hknown.again hi hadd.document, hadd.ok, ?_, ?_⟩
    · rw [List.length_append]
      omega
    · rw [groupsOf_again hknown hi hadd hn f w]
      exact hsame

/-- The batch again, from its page `done.length` on: exact if those pages share nothing, and
    otherwise one of them has wrong positions at the end. -/
theorem again_run {u : Unit} :
    ∀ (todo done : List Crawler) (x x' : World), crawlers = done ++ todo →
      Built E crawlers x.stores →
      todo.foldlM (fun _ c => InvertedIndexer.addEntry E c) () x = .ok u x' →
      ((∀ n, done.length ≤ n → SharesNothing E crawlers n) ∧ Built E crawlers x'.stores) ∨
      ((∃ n, ¬ SharesNothing E crawlers n) ∧
        ∃ n c, crawlers[n]? = some c ∧ ∃ (f : Field) (ts : List Str) (w : Str),
          f.tokens E c = .ok ts ∧
          ¬ Exact (decimal (n + 1)) ((positions 0 w ts).map decimal) (postings f x'.stores w))
  | [], done, x, x', hall, hb, h => by
    obtain ⟨-, rfl⟩ := pure_ok.mp h
    refine Or.inl ⟨fun n hn f j c c' ts ts' hc => ?_, hb⟩
    have hlen : crawlers.length = done.length := by simp [hall]
    have hlt := (List.getElem?_eq_some_iff.mp hc).1
    omega
  | c :: todo, done, x, x', hall, hb, h => by
    obtain ⟨u₁, x₁, hstep, hrest⟩ := foldlM_cons_ok.mp h
    obtain ⟨toks, hadd⟩ := addEntry_postings hstep hb.ok
    have hi : crawlers[done.length]? = some c := by simp [hall]
    have hall' : crawlers = (done ++ [c]) ++ todo := by simp [hall]
    by_cases hshare : SharesNothing E crawlers done.length
    · rcases again_run todo (done ++ [c]) x₁ x' hall' (hb.again hi hshare hadd) hrest with
        ⟨hall₁, hb'⟩ | hbad
      · refine Or.inl ⟨fun n hn => ?_, hb'⟩
        by_cases hnd : n = done.length
        · rw [hnd]
          exact hshare
        · refine hall₁ n ?_
          rw [List.length_append, List.length_singleton]
          omega
      · exact Or.inr hbad
    · obtain ⟨f, w, hbad⟩ := hb.not_exact_again hi hshare hadd
      have hknown : Known crawlers x.stores := hb.ids
      refine Or.inr ⟨⟨_, hshare⟩, done.length, c, hi, f, toks f, w, hadd.tokens f, ?_⟩
      have hkept := groupsOf_rest hall' (hknown.again hi hadd.document) hadd.ok hrest
        (n := done.length) (by simp) f w
      rw [exact_congr hkept]
      exact hbad

/-- No page shares a word with a page whose ID extends its own. -/
def NoShare (E : Platform) (crawlers : List Crawler) : Prop := ∀ i, SharesNothing E crawlers i

/-- Two exact indexes of the same pages decode to the same positions. -/
theorem Built.decoded_perm {s₁ s₂ : Stores} (h₁ : Built E crawlers s₁) (h₂ : Built E crawlers s₂)
    (f : Field) (p w : Str) : (decoded f s₂ p w).Perm (decoded f s₁ p w) := by
  by_cases hp : ∃ n c, crawlers[n]? = some c ∧ p = decimal (n + 1)
  · obtain ⟨n, c, hn, rfl⟩ := hp
    obtain ⟨ts, hts⟩ := h₁.tokens c (List.mem_of_getElem? hn) f
    exact ((decoded_perm_iff h₂.ok).mpr (h₂.exact n c hn f ts hts w)).trans
      ((decoded_perm_iff h₁.ok).mpr (h₁.exact n c hn f ts hts w)).symm
  · -- not an ID of one of the pages: no group in either index
    have hnil : ∀ s, Built E crawlers s → decoded f s p w = [] := by
      intro s h
      rw [decoded, groupsOf_eq_nil_of_not_mem, List.flatMap_nil]
      intro g hg hgp
      obtain ⟨n, c, hn, hdoc, -⟩ := h.page_of_group hg
      exact hp ⟨n, c, hn, by rw [← hgp, hdoc]⟩
    rw [hnil s₁ h₁, hnil s₂ h₂]

/-- **Running `index_pages` a second time.**  When the first run on empty stores returned, a
    second run without faults returns too.  And whenever a second run returns: the positions
    decoded for every page and word are the same as after the first run, with multiplicity, if
    and only if no page shares a cleaned title word or content word with a page whose ID extends
    its own; in that case the sets of positions are the same. -/
theorem rerun_unchanged_iff (E : Platform) (crawlers : List Crawler) (faults : List Bool)
    (hurls : (crawlers.map Crawler.url).Nodup)
    (hret : returns
      (Attempt.outcome E ⟨.invertedIndexPages crawlers, faults⟩ Stores.empty) = true) :
    let s₁ := Attempt.after E ⟨.invertedIndexPages crawlers, faults⟩ Stores.empty
    returns (Attempt.outcome E ⟨.invertedIndexPages crawlers, []⟩ s₁) = true ∧
    ∀ faults', returns (Attempt.outcome E ⟨.invertedIndexPages crawlers, faults'⟩ s₁) = true →
      let s₂ := Attempt.after E ⟨.invertedIndexPages crawlers, faults'⟩ s₁
      ((∀ (f : Field) (p w : Str), (decoded f s₂ p w).Perm (decoded f s₁ p w)) ↔
        NoShare E crawlers) ∧
      (NoShare E crawlers →
        ∀ (f : Field) (p w q : Str), q ∈ decoded f s₂ p w ↔ q ∈ decoded f s₁ p w) := by
  intro s₁
  have h₁ : Built E crawlers s₁ := built_fresh freshStart_empty hurls hret
  constructor
  · exact returns_of_runs (.invertedIndexPages crawlers) (indexPages_runs h₁.tokens) s₁
  · intro faults' hret' s₂
    obtain ⟨x, hrun, hafter⟩ := Attempt.ok_of_returns hret'
    have hs₂ : s₂ = x.stores := hafter
    have hunch : NoShare E crawlers → ∀ (f : Field) (p w : Str),
        (decoded f s₂ p w).Perm (decoded f s₁ p w) := by
      intro hno f p w
      rcases again_run crawlers [] ⟨s₁, faults'⟩ x rfl h₁ hrun with ⟨-, hb⟩ | ⟨⟨n, hn⟩, -⟩
      · rw [hs₂]
        exact h₁.decoded_perm hb f p w
      · exact absurd (hno n) hn
    refine ⟨⟨fun hsame => ?_, hunch⟩, fun hno f p w q => (hunch hno f p w).mem_iff⟩
    rcases again_run crawlers [] ⟨s₁, faults'⟩ x rfl h₁ hrun with
      ⟨hno, -⟩ | ⟨-, n, c, hn, f, ts, w, hts, hbad⟩
    · exact fun n => hno n (Nat.zero_le n)
    · have hok₂ : IndexOk x.stores :=
        (stable_indexOk.call E (.invertedIndexPages crawlers)).of_ok (s := ⟨s₁, faults'⟩) h₁.ok hrun
      refine absurd ((decoded_perm_iff hok₂).mp ?_) hbad
      rw [← hs₂]
      exact (hsame f _ w).trans ((decoded_perm_iff h₁.ok).mpr (h₁.exact n c hn f ts hts w))

/-- The two pages again: every position stays. -/
theorem rerun_two_pages :
    let s₁ := Attempt.after asciiPlatform ⟨.invertedIndexPages twoPages, []⟩ Stores.empty
    let s₂ := Attempt.after asciiPlatform ⟨.invertedIndexPages twoPages, []⟩ s₁
    ∀ (f : Field) (p w : Str), (decoded f s₂ p w).Perm (decoded f s₁ p w) := by
  intro s₁ s₂
  obtain ⟨hagain, hall⟩ :=
    rerun_unchanged_iff asciiPlatform twoPages [] (by decide) (twoPages_returns Stores.empty)
  refine ((hall [] hagain).1).mpr (fun i f j c c' ts ts' hi hj hne hprefix => ?_)
  -- neither of the IDs `1` and `2` extends the other
  have hlen : i < 2 ∧ j < 2 :=
    ⟨(List.getElem?_eq_some_iff.mp hi).1, (List.getElem?_eq_some_iff.mp hj).1⟩
  obtain rfl | rfl : i = 0 ∨ i = 1 := by omega
  · obtain rfl : j = 1 := by omega
    exact absurd hprefix (by decide)
  · obtain rfl : j = 0 := by omega
    exact absurd hprefix (by decide)

/-- Ten pages, of which the first and the last share the word `ab`. -/
def tenCrawlers : List Crawler :=
  smallPage 'a' ["ab"] :: ['b', 'c', 'd', 'e', 'f', 'g', 'h', 'i'].map (fun url => smallPage url [])
    ++ [smallPage 'j' ["ab"]]

/-- The second run gives page 1 a position `10` that no run has seen. -/
theorem rerun_adds_position :
    ¬ ∀ (E : Platform) (crawlers : List Crawler), (crawlers.map Crawler.url).Nodup →
      returns (Attempt.outcome E ⟨.invertedIndexPages crawlers, []⟩ Stores.empty) = true →
      let s₁ := Attempt.after E ⟨.invertedIndexPages crawlers, []⟩ Stores.empty
      let s₂ := Attempt.after E ⟨.invertedIndexPages crawlers, []⟩ s₁
      ∀ (f : Field) (p w q : Str), q ∈ decoded f s₂ p w ↔ q ∈ decoded f s₁ p w := by
  intro h
  let s₁ := Attempt.after asciiPlatform ⟨.invertedIndexPages tenCrawlers, []⟩ Stores.empty
  let s₂ := Attempt.after asciiPlatform ⟨.invertedIndexPages tenCrawlers, []⟩ s₁
  have hrun : returns (Attempt.outcome asciiPlatform ⟨.invertedIndexPages tenCrawlers, []⟩
        Stores.empty) = true ∧
      decimal 10 ∈ decoded .content s₂ (decimal 1) "ab".toList ∧
      decimal 10 ∉ decoded .content s₁ (decimal 1) "ab".toList := by
    decide +kernel
  obtain ⟨hret, hafter, hbefore⟩ := hrun
  have hsame := h asciiPlatform tenCrawlers (by decide) hret .content (decimal 1) "ab".toList
    (decimal 10)
  exact hbefore (hsame.mp hafter)

end SearchEngine
