/-
  Pages without parents, among the others.

  `Initialize` gives every page the rank one, and a sweep only goes through the pages with parents:
  a page without any keeps its one for ever, while a linked page can fall below it.  On the link
  graph a sweep is one `pass` of updates in place (`RanksAre.sweeps`), so the ranks behind any
  number of sweeps are a function of the graph alone.  `unlinked_lowest_iff` says for which graphs
  the unlinked pages rank lowest: one pass over the graph tells it for all numbers of sweeps,
  because passes are monotone.
-/
import SearchEngine.RankMass
import SearchEngine.Lib.InPlace
import Mathlib.Tactic.Common

namespace SearchEngine

open Text Numeral Effect NumberedMap ParentChildIndexer PageRankIndexer InPlace

variable {A : RankArithmetic ℚ} {done : List Crawler} {s₀ : Stores}

/-! ## A turn on the graph -/

/-- The rank a turn gives to a page, where `r` are the ranks before it. -/
def dampedRank (s : Stores) (r : Str → ℚ) (c : Str) : ℚ := 0.15 + 0.85 * arriving s r c

theorem arriving_mono (s : Stores) : Monotone (arriving s) := by
  intro r r' hr c
  refine List.sum_le_sum (fun p _ => ?_)
  exact div_le_div_of_nonneg_right (hr p) (Nat.cast_nonneg _)

theorem dampedRank_mono (s : Stores) : Monotone (dampedRank s) := by
  intro r r' hr c
  have harrive := arriving_mono s hr c
  unfold dampedRank
  linarith

/-- A rank of one is kept just when shares of at least one arrive. -/
theorem one_le_dampedRank_iff {s : Stores} {r : Str → ℚ} {c : Str} :
    1 ≤ dampedRank s r c ↔ 1 ≤ arriving s r c := by
  unfold dampedRank
  constructor
  · intro h
    linarith
  · intro h
    linarith

/-- The pages with parents, in the order of a sweep. -/
def linkedPageIDs (s : Stores) : List Str := (s .parentChildIndexInverted).keys

/-! ## Sweeps are passes over the graph -/

/-- The stores `s` have the links of `s₀`, and `r` are the ranks of its pages. -/
def RanksAre (A : RankArithmetic ℚ) (s₀ s : Stores) (r : Str → ℚ) : Prop :=
  Ranked A s₀ s ∧ ∀ p ∈ s₀ .invertedDocument, storedRank A s p = .ok (r p)

namespace RanksAre

/-- `Initialize`. -/
theorem initialize_one (hA : A.Exact) (hs₀ : GraphOk done s₀) {faults : List Bool} {x : World}
    {u : Unit} (h : initializeRanks ⟨s₀, faults⟩ = .ok u x) :
    RanksAre A s₀ x.stores (fun _ => 1) := by
  obtain ⟨hranked, hone⟩ := initializeRanks_ok (A := A) hs₀.unranked h
  refine ⟨hranked, fun p hp => ?_⟩
  rw [hone p ((hranked.keys p).mpr hp), hA.one]

/-- One turn. -/
theorem turn {e : Str × Str} {x x' : World} {equal : Bool} {r : Str → ℚ}
    (hx : RanksAre A s₀ x.stores r) (hA : A.Exact) (hs₀ : GraphOk done s₀)
    (he : e ∈ (s₀ .parentChildIndexInverted).toList) (h : indexRank A e x = .ok equal x') :
    RanksAre A s₀ x'.stores (Function.update r e.1 (dampedRank s₀ r e.1)) := by
  obtain ⟨hranked, hr⟩ := hx
  obtain ⟨rank, rankD, hnew, -, -, hx'⟩ := indexRank_ok h
  have hget := Std.ExtTreeMap.mem_toList_iff_getElem?_eq_some.mp he
  rw [newRank_arriving hs₀ hA hranked.frame hr hget] at hnew
  obtain rfl := Except.ok.inj hnew
  rw [hx']
  refine ⟨hranked.put (hranked.mem_of_key hs₀ hget) _, fun p hp => ?_⟩
  by_cases hpe : p = e.1
  · subst hpe
    rw [storedRank_put_same, Function.update_self]
    rfl
  · rw [storedRank_put_ne _ hpe, Function.update_of_ne hpe]
    exact hr p hp

/-- The turns for a list of pages. -/
theorem turns {es : List (Str × Str)} {x x' : World} {flags : List Bool}
    (h : Turns A es x flags x') (hA : A.Exact) (hs₀ : GraphOk done s₀)
    (hes : ∀ e ∈ es, e ∈ (s₀ .parentChildIndexInverted).toList) {r : Str → ℚ}
    (hx : RanksAre A s₀ x.stores r) :
    RanksAre A s₀ x'.stores (pass (dampedRank s₀) (es.map Prod.fst) r) := by
  induction h generalizing r with
  | nil x => exact hx
  | cons hturn _ ih =>
    have hstep := hx.turn hA hs₀ (hes _ List.mem_cons_self) hturn
    exact ih (fun e he => hes e (List.mem_cons_of_mem _ he)) hstep

/-- One sweep is one pass. -/
theorem swept {x x' : World} {flags : List Bool} {r : Str → ℚ} (hx : RanksAre A s₀ x.stores r)
    (hA : A.Exact) (hs₀ : GraphOk done s₀) (h : Swept A x flags x') :
    RanksAre A s₀ x'.stores (pass (dampedRank s₀) (linkedPageIDs s₀) r) := by
  unfold Swept at h
  rw [hx.1.frame _ (by decide)] at h
  have hpass := turns h hA hs₀ (fun e he => he) hx
  rw [Std.ExtTreeMap.map_fst_toList_eq_keys] at hpass
  exact hpass

/-- **Sweeps in a row.** -/
theorem sweeps {x x' : World} {hist : List (List Bool)} (h : Sweeps A x hist x') (hA : A.Exact)
    (hs₀ : GraphOk done s₀) {r : Str → ℚ} (hx : RanksAre A s₀ x.stores r) :
    RanksAre A s₀ x'.stores ((pass (dampedRank s₀) (linkedPageIDs s₀))^[hist.length] r) := by
  induction h generalizing r with
  | nil x => exact hx
  | cons hswept _ ih =>
    rw [List.length_cons, Function.iterate_succ_apply]
    exact ih (hx.swept hA hs₀ hswept)

end RanksAre

/-! ## Exactly when the unlinked pages rank lowest -/

/-- No page without parents ranks above a page with parents. -/
def UnlinkedLowest (A : RankArithmetic ℚ) (s : Stores) : Prop :=
  ∀ p ∈ s .invertedDocument, parents s p = [] → ∀ c ∈ s .invertedDocument, parents s c ≠ [] →
    ∃ rank rank', storedRank A s p = .ok rank ∧ storedRank A s c = .ok rank' ∧ rank ≤ rank'

/-- Every linked page is fed: going through them in order, with one for every page at first, shares
    of at least one arrive at each page, and from there on it hands on what arrived, damped. -/
def Fed (s : Stores) : Prop :=
  EachTurn (dampedRank s) (fun r c => 1 ≤ arriving s r c) (linkedPageIDs s) (fun _ => 1)

theorem fed_iff (s : Stores) :
    Fed s ↔ (fun _ => 1) ≤ pass (dampedRank s) (linkedPageIDs s) (fun _ => 1) := by
  have hnd : (linkedPageIDs s).Nodup := Std.ExtTreeMap.nodup_keys
  rw [le_pass_iff hnd]
  refine eachTurn_congr hnd (fun r c _ hone => ?_)
  rw [hone, one_le_dampedRank_iff]

/-- It is enough that the parents of each linked page have few links: that the reciprocals of their
    numbers of links add up to at least one. -/
theorem fed_of_reciprocals {s : Stores} (h : ∀ c ∈ linkedPageIDs s, 1 ≤ arriving s (fun _ => 1) c) :
    Fed s := by
  refine eachTurn_of_le (w := fun _ => 1) (fun r hr c hc => ?_) (le_refl _)
  have harrive : 1 ≤ arriving s r c := (h c hc).trans (arriving_mono s hr c)
  exact ⟨harrive, one_le_dampedRank_iff.mpr harrive⟩

theorem mem_linkedPageIDs (hs₀ : GraphOk done s₀) (c : Str) :
    c ∈ linkedPageIDs s₀ ↔ parents s₀ c ≠ [] := by
  rw [linkedPageIDs, Std.ExtTreeMap.mem_keys, hs₀.links.mem_iff_parents]

/-- The order of the ranks, told by the ranks of the linked pages alone: the unlinked ones have
    kept the one. -/
theorem RanksAre.unlinkedLowest_iff (hs₀ : GraphOk done s₀) {s : Stores} {k : Nat}
    (hs : RanksAre A s₀ s ((pass (dampedRank s₀) (linkedPageIDs s₀))^[k] (fun _ => 1))) :
    UnlinkedLowest A s ↔ (∀ p ∈ s₀ .invertedDocument, parents s₀ p ≠ []) ∨
      (fun _ => 1) ≤ (pass (dampedRank s₀) (linkedPageIDs s₀))^[k] (fun _ => 1) := by
  obtain ⟨hranked, hr⟩ := hs
  have hparents : ∀ p, parents s p = parents s₀ p := by
    intro p
    rw [parents, parents, hranked.frame _ (by decide)]
  have hkept : ∀ p, parents s₀ p = [] →
      (pass (dampedRank s₀) (linkedPageIDs s₀))^[k] (fun _ => 1) p = 1 := by
    intro p hp
    refine iterate_pass_of_not_mem (fun hmem => ?_) _ k
    exact (mem_linkedPageIDs hs₀ p).mp hmem hp
  unfold UnlinkedLowest
  simp only [hparents, hranked.frame .invertedDocument (by decide)]
  constructor
  · intro hlow
    by_cases hall : ∀ p ∈ s₀ .invertedDocument, parents s₀ p ≠ []
    · exact Or.inl hall
    · push Not at hall
      obtain ⟨p, hp, hnone⟩ := hall
      refine Or.inr (fun c => ?_)
      by_cases hc : parents s₀ c = []
      · rw [hkept c hc]
      · have hissued : c ∈ s₀ .invertedDocument :=
          (hs₀.issued_iff c).mp (hs₀.keys c ((hs₀.links.mem_iff_parents c).mpr hc))
        obtain ⟨rank, rank', hrank, hrank', hle⟩ := hlow p hp hnone c hissued hc
        rw [hr p hp, hkept p hnone] at hrank
        rw [hr c hissued] at hrank'
        calc (1 : ℚ) = rank := Except.ok.inj hrank
          _ ≤ rank' := hle
          _ = _ := (Except.ok.inj hrank').symm
  · rintro (hall | hone) p hp hnone c hc hlinked
    · exact absurd hnone (hall p hp)
    · refine ⟨_, _, hr p hp, hr c hc, ?_⟩
      rw [hkept p hnone]
      exact hone c

/-- **Unlinked pages rank lowest, exactly when there are none or every linked page is fed.**  For
    every run of `addEntry` calls from empty stores and exact ranks: after `Initialize` and any
    number of complete sweeps, at least one, no page without a parent ranks above a page with one
    — if and only if every page has a parent, or the shares of at least one arrive at every linked
    page of the graph. -/
theorem unlinked_lowest_iff (E : Platform) (A : RankArithmetic ℚ) (hA : A.Exact)
    (pages : List (Crawler × List Bool)) (hret : NoneAborted E (linkRun pages) Stores.empty) :
    (∀ (faults : List Bool) (x : World) (hist : List (List Bool)) (x' : World),
      initializeRanks ⟨runAll E (linkRun pages) Stores.empty, faults⟩ = .ok () x →
      Sweeps A x hist x' → hist ≠ [] → UnlinkedLowest A x'.stores) ↔
    (∀ p ∈ runAll E (linkRun pages) Stores.empty .invertedDocument,
      parents (runAll E (linkRun pages) Stores.empty) p ≠ []) ∨
      Fed (runAll E (linkRun pages) Stores.empty) := by
  have hgraph : GraphOk (pages.map Prod.fst) (runAll E (linkRun pages) Stores.empty) :=
    graphOk_linkRun pages hret graphOk_empty
  rw [fed_iff]
  constructor
  · intro hlow
    -- the first sweep of a run in which every `put` returns
    obtain ⟨x, flags, x', hinit, hswept⟩ := exists_first_sweep (A := A) hgraph
    have hone := RanksAre.initialize_one hA hgraph hinit
    have hsweeps : Sweeps A x [flags] x' := .cons hswept (.nil x')
    have hranks := RanksAre.sweeps hsweeps hA hgraph hone
    exact (hranks.unlinkedLowest_iff hgraph).mp (hlow [] _ _ _ hinit hsweeps (by simp))
  · intro hcond faults x hist x' hinit hsweeps _
    have hranks := RanksAre.sweeps hsweeps hA hgraph (RanksAre.initialize_one hA hgraph hinit)
    refine (hranks.unlinkedLowest_iff hgraph).mpr (hcond.imp_right (fun hone => ?_))
    exact le_iterate_pass (dampedRank_mono _) hone hist.length

/-- One page that links to another one: the linked page is fed, and keeps the one too. -/
theorem unlinked_lowest_one_link :
    ∃ x hist x', initializeRanks
        ⟨runAll asciiPlatform (linkRun [(linkingPage, [])]) Stores.empty, []⟩ = .ok () x ∧
      Sweeps fractions x hist x' ∧ hist ≠ [] ∧
      parents x'.stores ['1'] = [] ∧ parents x'.stores ['2'] ≠ [] ∧
      UnlinkedLowest fractions x'.stores := by
  have hret : NoneAborted asciiPlatform (linkRun [(linkingPage, [])]) Stores.empty :=
    ⟨by decide +kernel, trivial⟩
  have hgraph := graphOk_linkRun _ hret graphOk_empty
  have hfed : Fed (runAll asciiPlatform (linkRun [(linkingPage, [])]) Stores.empty) :=
    fed_of_reciprocals (by decide +kernel)
  obtain ⟨x, flags, x', hinit, hswept⟩ := exists_first_sweep (A := fractions) hgraph
  have hsweeps : Sweeps fractions x [flags] x' := .cons hswept (.nil x')
  have hparents : ∀ p, parents x'.stores p
      = parents (runAll asciiPlatform (linkRun [(linkingPage, [])]) Stores.empty) p := by
    intro p
    obtain ⟨hranked, -⟩ := RanksAre.sweeps hsweeps exact_fractions hgraph
      (RanksAre.initialize_one exact_fractions hgraph hinit)
    rw [parents, parents, hranked.frame _ (by decide)]
  exact ⟨x, [flags], x', hinit, hsweeps, by simp, by rw [hparents]; decide +kernel,
    by rw [hparents]; decide +kernel,
    (unlinked_lowest_iff asciiPlatform fractions exact_fractions _ hret).mpr (Or.inr hfed) []
      x [flags] x' hinit hsweeps (by simp)⟩

/-- A page that links to two others. -/
def forkingPage : Crawler := Crawler.page ['a'] ['a'] [] [] [] [['b'], ['c']]

/-- It halves its rank between them: theirs fall to `0.575`, and its own stays one, although no
    page links to it. -/
theorem unlinked_page_ranks_highest :
    ¬ ∀ (E : Platform) (A : RankArithmetic ℚ) (pages : List (Crawler × List Bool))
        (faults : List Bool) (x : World) (hist : List (List Bool)) (x' : World),
      A.Exact → NoneAborted E (linkRun pages) Stores.empty →
      initializeRanks ⟨runAll E (linkRun pages) Stores.empty, faults⟩ = .ok () x →
      Sweeps A x hist x' → hist ≠ [] → UnlinkedLowest A x'.stores := by
  intro h
  have hret : NoneAborted asciiPlatform (linkRun [(forkingPage, [])]) Stores.empty :=
    ⟨by decide +kernel, trivial⟩
  have hinit := eq_ok_of_answer (a := ()) (r := initializeRanks
    ⟨runAll asciiPlatform (linkRun [(forkingPage, [])]) Stores.empty, []⟩) (by decide +kernel)
  have hsweep := eq_ok_of_answer (a := ⟨0, false⟩) (r := sweep fractions 2 ⟨0, false⟩
    (finalState (initializeRanks
      ⟨runAll asciiPlatform (linkRun [(forkingPage, [])]) Stores.empty, []⟩))) (by decide +kernel)
  obtain ⟨flags, hswept, -⟩ := sweep_ok.mp hsweep
  have hlow := h asciiPlatform fractions _ [] _ _ _ exact_fractions hret hinit
    (.cons hswept (.nil _)) (by simp)
  obtain ⟨rank, rank', hrank, hrank', hle⟩ := hlow ['1'] (by decide +kernel) (by decide +kernel)
    ['2'] (by decide +kernel) (by decide +kernel)
  have hone : storedRank fractions (finalState (sweep fractions 2 ⟨0, false⟩ (finalState
      (initializeRanks ⟨runAll asciiPlatform (linkRun [(forkingPage, [])]) Stores.empty,
        []⟩)))).stores ['1'] = .ok 1 := by decide +kernel
  have hfallen : storedRank fractions (finalState (sweep fractions 2 ⟨0, false⟩ (finalState
      (initializeRanks ⟨runAll asciiPlatform (linkRun [(forkingPage, [])]) Stores.empty,
        []⟩)))).stores ['2'] = .ok 0.575 := by decide +kernel
  rw [hone] at hrank
  rw [hfallen] at hrank'
  obtain rfl := Except.ok.inj hrank
  obtain rfl := Except.ok.inj hrank'
  exact absurd hle (by norm_num)

end SearchEngine
