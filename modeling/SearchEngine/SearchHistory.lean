/-
  What a search finds after any history of indexing.

  Three results meet here.  The two inverted indexes hold, for each page, the fold of its versions
  (`PageHistory`); the forward index holds the record of the version that was filed last
  (`LatestRecord`); and `CosSim.getPages` turns the one into numerators and the other into norms
  (`Search`).  The two need not be about the same version: positions of words that are long gone
  are still counted, over the norm of the latest version.

  `search_histories` says exactly which pages a query finds then, and with which scores.  The pages
  ever indexed with a word of the query must have IDs that are apart; `search_histories_of_few` is
  the case of up to nine URLs, where all IDs are.
-/
import SearchEngine.Search
import SearchEngine.LatestRecord
import SearchEngine.PageHistory
import Mathlib.Tactic.Common

namespace SearchEngine

open Text Numeral Effect Postings InvertedIndexer NumberedMap ForwardIndexer CosSim

variable {E : Platform} {done : List Crawler} {s : Stores} {q : List Str}

/-- The page was indexed under a word of the query, and still is. -/
def Recalled (E : Platform) (done : List Crawler) (url : Str) (q : List Str) : Prop :=
  ∃ w ∈ q, ∃ f : Field, history E f done url w ≠ []

/-- The positions that the page has under the words of the query, those in the title twice. -/
def recallScore (E : Platform) (done : List Crawler) (url : Str) (q : List Str) : Int :=
  (q.map (fun w => 2 * ((history E .title done url w).length : Int)
    + (history E .content done url w).length)).sum

/-- The pages ever indexed with a word of the query have IDs that are apart. -/
def ApartFor (E : Platform) (done : List Crawler) (s : Stores) (q : List Str) : Prop :=
  ∀ c ∈ done, Matches E c q → ∀ p : Str, (s .document)[c.url]? = some p → Apart s p

theorem apartFor_of_size (htable : TableOk .page s) (hfew : (s .document).size ≤ 9) :
    ApartFor E done s q :=
  fun c _ _ _ hp => apart_of_size htable hfew ⟨c.url, hp⟩

theorem ApartFor.known (h : ApartFor E done s q) : ApartFor E done s (known s q) := by
  rintro c hc ⟨w, hw, hword⟩
  exact h c hc ⟨w, (List.mem_filter.mp hw).1, hword⟩

/-- A page with positions under a word of the query is such a page. -/
theorem ApartFor.of_history (h : ApartFor E done s q) {f : Field} {url p w : Str} (hw : w ∈ q)
    (hne : history E f done url w ≠ []) (hp : (s .document)[url]? = some p) : Apart s p := by
  obtain ⟨c, hc, rfl, hword⟩ := mem_of_history_ne_nil hne
  exact h c hc ⟨w, hw, mem_allWords.mpr ⟨f, hword⟩⟩ p hp

/-! ## Positions and numerators -/

namespace Shelved

/-- The value of a word, seen from a page. -/
theorem tally_history (h : Shelved E done s) {url d : Str} (hd : (s .document)[url]? = some d)
    (hapart : Apart s d) (f : Field) (w : Str) :
    tally d (postings f s w) = (history E f done url w).length := by
  have hdecoded : (groupsOf d (postings f s w)).flatMap DocGroup.poss
      = (history E f done url w).map decimal := h.decoded f url d w hd hapart
  rw [tally_eq_length, hdecoded, List.length_map]

/-- A word of the query without an ID has no positions. -/
theorem history_of_unknown (h : Shelved E done s) (hapart : ApartFor E done s q) (url : Str)
    {w : Str} (hw : w ∈ q) (hunknown : w ∉ s .word) (f : Field) :
    history E f done url w = [] := by
  cases hurl : (s .document)[url]? with
  | none => exact h.history_of_none hurl f w
  | some d =>
    by_contra hne
    have hnone : (s .word)[w]? = none := by
      rw [← Option.not_isSome_iff_eq_none, Std.ExtTreeMap.isSome_getElem?_iff_mem]
      exact hunknown
    have hdecoded := h.decoded f url d w hurl (hapart.of_history hw hne hurl)
    rw [SearchEngine.decoded, postings, hnone] at hdecoded
    exact hne (List.map_eq_nil_iff.mp hdecoded.symm)

theorem recalled_known (h : Shelved E done s) (hapart : ApartFor E done s q) (url : Str) :
    Recalled E done url (known s q) ↔ Recalled E done url q := by
  constructor
  · rintro ⟨w, hw, hpos⟩
    exact ⟨w, (List.mem_filter.mp hw).1, hpos⟩
  · rintro ⟨w, hw, f, hpos⟩
    refine ⟨w, List.mem_filter.mpr ⟨hw, ?_⟩, f, hpos⟩
    rw [decide_eq_true_eq]
    by_contra hunknown
    exact hpos (h.history_of_unknown hapart url hw hunknown f)

theorem recallScore_known (h : Shelved E done s) (hapart : ApartFor E done s q) (url : Str) :
    recallScore E done url (known s q) = recallScore E done url q := by
  refine @weight_known s (fun f w => (history E f done url w).length) q (fun w hw hunknown f => ?_)
  exact List.length_eq_zero_iff.mpr (h.history_of_unknown hapart url hw hunknown f)

/-- **The pages with a numerator are those recalled**, and it is what is recalled of them. -/
theorem numerator_iff {run : List Attempt} (h : Shelved E (run.flatMap (·.call.inverted)) s)
    (hs : Sourced E run s) (hapart : ApartFor E (run.flatMap (·.call.inverted)) s q)
    (hq : ∀ w ∈ q, w ∈ s .word) {u : Numerators}
    (hu : accumulate (s .titleInverted) (s .contentInverted) (q.map (wordIDOf s)) = .ok u)
    (d : Str) (n : Int) :
    u[d]? = some n ↔ ∃ url, (s .document)[url]? = some d ∧
      Recalled E (run.flatMap (·.call.inverted)) url q ∧
      n = recallScore E (run.flatMap (·.call.inverted)) url q := by
  have hnum : ∀ url, (s .document)[url]? = some d → Apart s d →
      (u[d]? = some n ↔ Recalled E (run.flatMap (·.call.inverted)) url q ∧
        n = recallScore E (run.flatMap (·.call.inverted)) url q) := by
    intro url hd had
    rw [numerator_iff_of_counts h.ok hq hu (fun f w _ => h.tally_history hd had f w)]
    refine and_congr (exists_congr (fun w => and_congr_right (fun _ => ?_))) Iff.rfl
    exact exists_congr (fun f => by rw [ne_eq, List.length_eq_zero_iff])
  constructor
  · intro hn
    obtain ⟨c, hc, hd, hmatch⟩ := hs.matches_of_numerator hq hu hn
    exact ⟨c.url, hd, (hnum c.url hd (hapart c hc hmatch d hd)).mp hn⟩
  · rintro ⟨url, hd, hrecalled, hn⟩
    obtain ⟨w, hw, f, hne⟩ := id hrecalled
    exact (hnum url hd (hapart.of_history hw hne hd)).mpr ⟨hrecalled, hn⟩

/-! ## The answer -/

/-- A query on stores that hold the histories and the latest records. -/
theorem answer {run : List Attempt} (h : Shelved E (run.flatMap (·.call.inverted)) s)
    (hs : Sourced E run s) (hpages : UpToDate E (run.flatMap (·.call.forwarded)) s) {query : Str}
    (hclean : StopWords.clean E (splitWs query) = .ok q) (thresh : Float)
    (hfirst : ∃ w ∈ q.head?, w ∈ s .word) (hrest : ∀ w ∈ q.dropLast, w ∈ s .word)
    (hapart : ApartFor E (run.flatMap (·.call.inverted)) s q)
    (hread : ∀ url, Recalled E (run.flatMap (·.call.inverted)) url q →
      ∃ c, latest (run.flatMap (·.call.forwarded)) url = some c ∧ NormReadable E c) :
    let indexed := run.flatMap (·.call.inverted)
    let filed := run.flatMap (·.call.forwarded)
    ∃ res, getPages E s query thresh = .ok (some res) ∧ (res.map Prod.fst).Nodup ∧
      ∀ d x, (d, x) ∈ res ↔ ∃ url c, (s .document)[url]? = some d ∧
        Recalled E indexed url q ∧ latest filed url = some c ∧
        x = score (wrap32 (recallScore E indexed url q)) (norm E c) (known s q).length ∧
        thresh < x := by
  intro indexed filed
  have hentry : ∀ u, accumulate (s .titleInverted) (s .contentInverted)
        ((SearchEngine.known s q).map (wordIDOf s)) = .ok u → ∀ d n, u[d]? = some n ↔
      ∃ m : Int, ∃ url c, (s .document)[url]? = some d ∧ Recalled E indexed url q ∧
        latest filed url = some c ∧ n = recallScore E indexed url q ∧ m = norm E c := by
    intro u hu d n
    rw [h.numerator_iff hs hapart.known (fun w hw => by simpa using (List.mem_filter.mp hw).2) hu]
    constructor
    · rintro ⟨url, hd, hrecalled, hn⟩
      rw [h.recalled_known hapart] at hrecalled
      rw [h.recallScore_known hapart] at hn
      obtain ⟨c, hlast, -⟩ := hread url hrecalled
      exact ⟨norm E c, url, c, hd, hrecalled, hlast, hn, rfl⟩
    · rintro ⟨m, url, c, hd, hrecalled, -, hn, -⟩
      rw [← h.recalled_known hapart] at hrecalled
      rw [← h.recallScore_known hapart] at hn
      exact ⟨url, hd, hrecalled, hn⟩
  have hnorm : ∀ (d : Str) (n m : Int), (∃ url c, (s .document)[url]? = some d ∧
      Recalled E indexed url q ∧ latest filed url = some c ∧
        n = recallScore E indexed url q ∧ m = norm E c) →
      freqSq (s .forwardIndex) d = .ok m := by
    rintro d n m ⟨url, c, hd, hrecalled, hlast, -, rfl⟩
    obtain ⟨c', hlast', hreadable⟩ := hread url hrecalled
    obtain rfl : c = c' := Option.some.inj (hlast.symm.trans hlast')
    obtain ⟨p, hp, hrec⟩ := hpages.record url c hlast
    obtain rfl : d = p := Option.some.inj (hd.symm.trans hp)
    exact hrec.freqSq_eq (h.ok.tables .word) hreadable
  obtain ⟨res, hres, hnodup, hmem⟩ :=
    getPages_of_entries h.ok hclean thresh hfirst hrest hentry hnorm
  refine ⟨res, hres, hnodup, fun d x => (hmem d x).trans ⟨?_, ?_⟩⟩
  · rintro ⟨n, m, ⟨url, c, hd, hrecalled, hlast, rfl, rfl⟩, hx, habove⟩
    exact ⟨url, c, hd, hrecalled, hlast, hx, habove⟩
  · rintro ⟨url, c, hd, hrecalled, hlast, hx, habove⟩
    exact ⟨_, _, ⟨url, c, hd, hrecalled, hlast, rfl, rfl⟩, hx, habove⟩

end Shelved

/-- The forward index is up to date with what was filed. -/
theorem upToDate_of_noneAborted {run : List Attempt} (hret : NoneAborted E run Stores.empty) :
    UpToDate E (run.flatMap (·.call.forwarded)) (runAll E run Stores.empty) := by
  have hfiled := upToDate_runAll E run
  rwa [filedIn_of_noneAborted hret] at hfiled

/-- **What a search finds after any history.**  Take any run of all indexers from empty stores
    whose calls return, with pages indexed and filed any number of times and in any versions; and
    any query of whose words at most the last has no ID, the first having one.  Let the IDs of the
    pages ever indexed with a word of the query neither open another page's ID nor open with one,
    and let each page that is recalled be filed, last in a version whose norm can be read back.
    Then the search returns exactly one entry for each recalled page whose score is above the
    threshold: what is recalled of it, as an `int`, over the roots of the norm of the version filed
    last and of the number of words with an ID. -/
theorem search_histories (E : Platform) (run : List Attempt)
    (hret : NoneAborted E run Stores.empty)
    (query : Str) (q : List Str) (hclean : StopWords.clean E (splitWs query) = .ok q)
    (thresh : Float) (hfirst : ∃ w ∈ q.head?, w ∈ runAll E run Stores.empty .word)
    (hrest : ∀ w ∈ q.dropLast, w ∈ runAll E run Stores.empty .word)
    (hapart : ApartFor E (run.flatMap (·.call.inverted)) (runAll E run Stores.empty) q)
    (hread : ∀ url, Recalled E (run.flatMap (·.call.inverted)) url q →
      ∃ c, latest (run.flatMap (·.call.forwarded)) url = some c ∧ NormReadable E c) :
    let s := runAll E run Stores.empty
    let indexed := run.flatMap (·.call.inverted)
    let filed := run.flatMap (·.call.forwarded)
    ∃ res, getPages E s query thresh = .ok (some res) ∧ (res.map Prod.fst).Nodup ∧
      ∀ d x, (d, x) ∈ res ↔ ∃ url c, (s .document)[url]? = some d ∧
        Recalled E indexed url q ∧ latest filed url = some c ∧
        x = score (wrap32 (recallScore E indexed url q)) (norm E c) (known s q).length ∧
        thresh < x :=
  (shelved_runAll run (shelved_empty E) hret).answer (sourced_runAll E run)
    (upToDate_of_noneAborted hret) hclean thresh hfirst hrest hapart hread

/-- The case of up to nine URLs with an ID. -/
theorem search_histories_of_few (E : Platform) (run : List Attempt)
    (hret : NoneAborted E run Stores.empty)
    (hfew : (runAll E run Stores.empty .document).size ≤ 9)
    (query : Str) (q : List Str) (hclean : StopWords.clean E (splitWs query) = .ok q)
    (thresh : Float) (hfirst : ∃ w ∈ q.head?, w ∈ runAll E run Stores.empty .word)
    (hrest : ∀ w ∈ q.dropLast, w ∈ runAll E run Stores.empty .word)
    (hread : ∀ url, Recalled E (run.flatMap (·.call.inverted)) url q →
      ∃ c, latest (run.flatMap (·.call.forwarded)) url = some c ∧ NormReadable E c) :
    let s := runAll E run Stores.empty
    let indexed := run.flatMap (·.call.inverted)
    let filed := run.flatMap (·.call.forwarded)
    ∃ res, getPages E s query thresh = .ok (some res) ∧ (res.map Prod.fst).Nodup ∧
      ∀ d x, (d, x) ∈ res ↔ ∃ url c, (s .document)[url]? = some d ∧
        Recalled E indexed url q ∧ latest filed url = some c ∧
        x = score (wrap32 (recallScore E indexed url q)) (norm E c) (known s q).length ∧
        thresh < x := by
  have htable : TableOk .page (runAll E run Stores.empty) := Reachable.tableOk ⟨run, rfl⟩ .page
  exact (shelved_runAll run (shelved_empty E) hret).answer (sourced_runAll E run)
    (upToDate_of_noneAborted hret) hclean thresh hfirst hrest (apartFor_of_size htable hfew) hread

/-- A page that is indexed in one version and filed in a longer one: a search finds it, if at all,
    with the one position of the former over the norm of the latter. -/
theorem found_with_another_norm :
    let run := [⟨.invertedAddEntry (smallPage 'a' ["ab"]), []⟩,
      ⟨.forwardAddEntry (smallPage 'a' ["ab", "ab"]), []⟩]
    let s := runAll asciiPlatform run Stores.empty
    ∃ res, getPages asciiPlatform s "ab".toList 0 = .ok (some res) ∧
      ∀ d x, (d, x) ∈ res → x = score 1 4 1 := by
  intro run s
  have hrun : NoneAborted asciiPlatform run Stores.empty := by
    refine ⟨returns_of_runs (.invertedAddEntry _) (addEntry_runs (tokens_smallPage 'a' 1)) _,
      returns_of_runs (.forwardAddEntry _) ?_ _, trivial⟩
    exact ForwardIndexer.addEntry_runs (StopWords.clean_ab 2) _ _ _ _ _
  have hstores : (s .document).size ≤ 9 ∧ (s .word)["ab".toList]? = some (decimal 1) := by
    decide +kernel
  obtain ⟨hfew, hword⟩ := hstores
  have hmem : "ab".toList ∈ s .word := mem_iff_get.mpr ⟨_, hword⟩
  -- only the one page has a history
  have honly : ∀ url, Recalled asciiPlatform [smallPage 'a' ["ab"]] url ["ab".toList] →
      url = ['a'] := by
    rintro url ⟨w, -, f, hne⟩
    by_contra hurl
    refine hne (congrFun (history_of_not_mem (fun c hc => ?_)) w)
    rw [List.mem_singleton.mp hc]
    exact fun he => hurl he.symm
  have hlatest : latest [smallPage 'a' ["ab", "ab"]] ['a'] = some (smallPage 'a' ["ab", "ab"]) :=
    rfl
  have htable : TableOk .page s := Reachable.tableOk ⟨run, rfl⟩ .page
  obtain ⟨res, hres, -, hentries⟩ := search_histories asciiPlatform run hrun "ab".toList
    ["ab".toList] (StopWords.clean_ab 1) 0 ⟨_, rfl, hmem⟩ (by simp) (apartFor_of_size htable hfew)
    (fun url hrecalled => by
      rw [honly url hrecalled]
      exact ⟨_, hlatest, normReadable_smallPage 'a' (n := 2) (by decide) (by decide)⟩)
  refine ⟨res, hres, fun d x hx => ?_⟩
  obtain ⟨url, c, -, hrecalled, hlast, hx, -⟩ := (hentries d x).mp hx
  rw [honly url hrecalled] at hlast hx
  obtain rfl : smallPage 'a' ["ab", "ab"] = c := Option.some.inj (hlatest.symm.trans hlast)
  have hvalues : recallScore asciiPlatform [smallPage 'a' ["ab"]] ['a'] ["ab".toList] = 1 ∧
      norm asciiPlatform (smallPage 'a' ["ab", "ab"]) = 4 := by
    decide +kernel
  have hknown : known s ["ab".toList] = ["ab".toList] :=
    known_eq_self (fun w hw => by rw [List.mem_singleton.mp hw]; exact hmem)
  rw [hknown] at hx
  refine hx.trans ?_
  show score (wrap32 (recallScore asciiPlatform [smallPage 'a' ["ab"]] ['a'] ["ab".toList]))
    (norm asciiPlatform (smallPage 'a' ["ab", "ab"])) 1 = score 1 4 1
  rw [hvalues.1, hvalues.2]
  rfl

end SearchEngine
