/-
  What the inverted indexes hold of a page that is indexed again and again.

  `InvertedIndexer.addEntry` edits texts: it looks for `doc<ID>`, cuts groups out, splices numbers
  in, and carries two flags through its loop.  For a page whose ID neither opens another page's ID
  nor opens with one (`Apart`: every page, as long as there are no more than nine), all of this
  comes to a step on ONE page, a map from words to positions (`rerecord`):

  * if the first token is a word the page is not indexed under, the positions of every token are
    put in front of what is there;
  * if it is, the positions of every token replace what is there, except that a token the page was
    not indexed under loses its first position when it has more than one;
  * in either case, words that are no longer tokens keep their positions.

  `index_histories` is the refinement: after any run of all indexers whose calls return, what the
  two inverted indexes say of such a page is the fold of this step over its versions.
-/
import SearchEngine.Retention
import SearchEngine.Rerun
import Mathlib.Tactic.Common

namespace SearchEngine

open Text Numeral Effect Postings InvertedIndexer NumberedMap

variable {E : Platform} {call : Call} {s s' : Stores}

/-! ## The abstract page -/

/-- Is the page indexed under the first token? -/
def headKnown (page : Str → List Nat) : List Str → Bool
  | [] => false
  | w :: _ => !(page w).isEmpty

/-- The page is indexed with the tokens. -/
def rerecord (toks : List Str) (page : Str → List Nat) (w : Str) : List Nat :=
  rerecorded (headKnown page toks) (page w) (positions 0 w toks)

/-- The page at the URL, version by version. -/
def history (E : Platform) (f : Field) (done : List Crawler) (url : Str) : Str → List Nat :=
  done.foldl (fun page c => if c.url = url then rerecord (wordsIn E f c) page else page)
    (fun _ => [])

theorem history_snoc (f : Field) (done : List Crawler) (c : Crawler) (url : Str) :
    history E f (done ++ [c]) url
      = if c.url = url then rerecord (wordsIn E f c) (history E f done url)
        else history E f done url := by
  rw [history, List.foldl_append, List.foldl_cons, List.foldl_nil, history]

theorem history_of_not_mem {f : Field} {done : List Crawler} {url : Str}
    (h : ∀ c ∈ done, c.url ≠ url) : history E f done url = fun _ => [] := by
  induction done using List.reverseRecOn with
  | nil => rfl
  | append_singleton done c ih =>
    rw [history_snoc, if_neg (h c (by simp))]
    exact ih (fun c' hc' => h c' (List.mem_append_left _ hc'))

theorem rerecord_of_not_mem {toks : List Str} {w : Str} (hw : w ∉ toks) (page : Str → List Nat) :
    rerecord toks page w = page w := by
  rw [rerecord, positions_eq_nil.mpr hw]
  rfl

/-- A page has positions of no words but those of its versions. -/
theorem mem_of_history_ne_nil {f : Field} {done : List Crawler} {url w : Str}
    (h : history E f done url w ≠ []) : ∃ c ∈ done, c.url = url ∧ w ∈ wordsIn E f c := by
  induction done using List.reverseRecOn with
  | nil => exact absurd rfl h
  | append_singleton done c ih =>
    have hearlier : history E f done url w ≠ [] →
        ∃ c' ∈ done ++ [c], c'.url = url ∧ w ∈ wordsIn E f c' := by
      intro hne
      obtain ⟨c', hc', hrest⟩ := ih hne
      exact ⟨c', List.mem_append_left _ hc', hrest⟩
    rw [history_snoc] at h
    by_cases hurl : c.url = url
    · rw [if_pos hurl] at h
      by_cases hw : w ∈ wordsIn E f c
      · exact ⟨c, by simp, hurl, hw⟩
      · rw [rerecord_of_not_mem hw] at h
        exact hearlier h
    · rw [if_neg hurl] at h
      exact hearlier h

/-! ## IDs that do not extend each other -/

/-- The ID neither opens another page's ID nor opens with one. -/
def Apart (s : Stores) (p : Str) : Prop :=
  ∀ q, Issued .page q s → p <+: q ∨ q <+: p → q = p

/-- Up to nine IDs have one digit each. -/
theorem apart_of_size (htable : TableOk .page s) (hfew : (s .document).size ≤ 9) {p : Str}
    (hp : Issued .page p s) : Apart s p := by
  have hdigit : ∀ p, Issued .page p s → p.length = 1 := by
    rintro p ⟨url, hp⟩
    obtain ⟨n, -, hn, rfl⟩ := htable.1.bounded hp
    have hone : ∀ n ≤ 9, (decimal n).length = 1 := by decide
    exact hone n (Nat.le_trans hn hfew)
  rintro q hq (hpq | hqp)
  · exact (hpq.eq_of_length (by rw [hdigit p hp, hdigit q hq])).symm
  · exact hqp.eq_of_length (by rw [hdigit p hp, hdigit q hq])

/-- An ID that is apart has been so before. -/
theorem Apart.of_grows {p : Str} (h : Apart s' p)
    (hgrows : ∀ url id : Str, (s .document)[url]? = some id → (s' .document)[url]? = some id) :
    Apart s p := by
  rintro q ⟨url, hq⟩ hpre
  exact h q ⟨url, hgrows url q hq⟩ hpre

/-! ## The indexes hold the histories -/

/-- What the indexes say of each page whose ID is apart is its history. -/
structure Shelved (E : Platform) (done : List Crawler) (s : Stores) : Prop where
  ok : IndexOk s
  named : ∀ c ∈ done, c.url ∈ s .document
  decoded : ∀ (f : Field) (url p w : Str), (s .document)[url]? = some p → Apart s p →
    decoded f s p w = (history E f done url w).map decimal

theorem decoded_of_fresh (hs : IndexOk s) {p : Str} (hp : ¬ Issued .page p s) (f : Field)
    (w : Str) : decoded f s p w = [] := by
  have hnone : groupsOf p (postings f s w) = [] :=
    groupsOf_eq_nil_of_not_mem (fun g hg hgp => hp (hgp ▸ (hs.postings_ok f w).2.2 g hg))
  rw [decoded, hnone]
  rfl

theorem shelved_empty (E : Platform) : Shelved E [] Stores.empty where
  ok := indexOk_empty
  named c hc := absurd hc List.not_mem_nil
  decoded f url p w hp _ := by
    have hnone : (Stores.empty .document)[url]? = none := Std.ExtTreeMap.getElem?_empty
    rw [hnone] at hp
    cases hp

namespace Shelved

variable {done : List Crawler}

/-- A URL without an ID has no history. -/
theorem history_of_none (h : Shelved E done s) {url : Str} (hurl : (s .document)[url]? = none)
    (f : Field) (w : Str) : history E f done url w = [] := by
  rw [history_of_not_mem]
  rintro c hc rfl
  obtain ⟨p, hp⟩ := mem_iff_get.mp (h.named c hc)
  rw [hurl] at hp
  cases hp

/-- The ID that a page has later on: it has it already, or no group bears it yet. -/
theorem decoded_of_later (h : Shelved E done s) (htable : TableOk .page s')
    (hgrows : ∀ url id : Str, (s .document)[url]? = some id → (s' .document)[url]? = some id)
    (f : Field) {url p : Str} (w : Str) (hp : (s' .document)[url]? = some p) (hapart : Apart s' p) :
    SearchEngine.decoded f s p w = (history E f done url w).map decimal := by
  cases hurl : (s .document)[url]? with
  | some p₀ =>
    obtain rfl : p₀ = p := Option.some.inj ((hgrows url p₀ hurl).symm.trans hp)
    exact h.decoded f url p₀ w hurl (hapart.of_grows hgrows)
  | none =>
    have hfresh : ¬ Issued .page p s := by
      rintro ⟨url', hurl'⟩
      obtain rfl := htable.1.injective (hgrows url' p hurl') hp
      rw [show (s .document)[url']? = some p from hurl'] at hurl
      cases hurl
    rw [decoded_of_fresh h.ok hfresh, h.history_of_none hurl]
    rfl

/-- A write of a call that indexes no page here leaves what the indexes say. -/
theorem kept (hcall : call.inverted = []) : Kept E call (Shelved E done) := by
  intro s s' hwrite h
  have hok : IndexOk s' := kept_indexOk E call s s' hwrite h.ok
  have hsame : ∀ f w, postings f s' w = postings f s w := by
    intro f w
    refine postings_of_same h.ok (hok.tables .word) (hwrite.grows .word) ?_ w
    rcases hwrite.index_cases f with hdb | ⟨c, hc, -⟩
    · exact hdb
    · rw [hcall] at hc
      cases hc
  refine ⟨hok, fun c hc => ?_, fun f url p w hp hapart => ?_⟩
  · obtain ⟨p, hp⟩ := mem_iff_get.mp (h.named c hc)
    exact mem_iff_get.mpr ⟨p, hwrite.grows .page c.url p hp⟩
  · rw [SearchEngine.decoded, hsame f w]
    exact h.decoded_of_later (hok.tables .page) (hwrite.grows .page) f w hp hapart

/-- The search for the page's ID in the value of the first token. -/
theorem headHit_eq (h : Shelved E done s) {p url : Str} (f : Field)
    (halone : ∀ w, ∀ g ∈ postings f s w, p <+: g.doc → g.doc = p)
    (hp : ∀ w, SearchEngine.decoded f s p w = (history E f done url w).map decimal) :
    ∀ toks : List Str, headHit f s p toks = headKnown (history E f done url) toks
  | [] => rfl
  | w :: _ => by
    show (postings f s w).any (hit p) = !(history E f done url w).isEmpty
    obtain ⟨-, hfilled, -⟩ := h.ok.postings_ok f w
    have hempty : (history E f done url w).isEmpty = (SearchEngine.decoded f s p w).isEmpty := by
      rw [hp w, List.isEmpty_map]
    rw [hempty]
    cases hhit : (postings f s w).any (hit p) with
    | true =>
      obtain ⟨g, hg, hgp⟩ := List.any_eq_true.mp hhit
      have hmem : g ∈ groupsOf p (postings f s w) :=
        List.mem_filter.mpr ⟨hg, by simpa using halone w g hg (hit_iff.mp hgp)⟩
      obtain ⟨q, hq⟩ := List.exists_mem_of_ne_nil _ (hfilled g hg)
      have hne : SearchEngine.decoded f s p w ≠ [] :=
        List.ne_nil_of_mem (List.mem_flatMap.mpr ⟨g, hmem, hq⟩)
      simpa using hne
    | false =>
      have hnone : ∀ g ∈ postings f s w, hit p g = false := by
        intro g hg
        simpa using List.any_eq_false.mp hhit g hg
      rw [SearchEngine.decoded, groupsOf_own_of_none hnone]
      rfl

/-- **A page is indexed**: its own map takes the step, the others stay. -/
theorem snoc (h : Shelved E done s) {c : Crawler} {toks : Field → List Str}
    (hadd : EntryAdded E c toks s s') : Shelved E (done ++ [c]) s' := by
  have hgrows : ∀ url id : Str, (s .document)[url]? = some id →
      (s' .document)[url]? = some id := by
    intro url id hid
    rw [hadd.document]
    exact Stores.issue_mono s .page .page hid
  -- what the indexes say so far of each page, under the ID it has now
  have hbefore : ∀ (f : Field) {url p : Str} (w : Str), (s' .document)[url]? = some p →
      Apart s' p → SearchEngine.decoded f s p w = (history E f done url w).map decimal :=
    h.decoded_of_later (hadd.ok.tables .page) hgrows
  refine ⟨hadd.ok, fun c' hc' => ?_, fun f url p w hp hapart => ?_⟩
  · rcases List.mem_append.mp hc' with hc' | hc'
    · obtain ⟨p, hp⟩ := mem_iff_get.mp (h.named c' hc')
      exact mem_iff_get.mpr ⟨p, hgrows c'.url p hp⟩
    · rw [List.mem_singleton.mp hc']
      exact mem_iff_get.mpr ⟨_, hadd.pageID⟩
  · rw [history_snoc, SearchEngine.decoded, hadd.postings f w, reindexed]
    by_cases hurl : c.url = url
    · -- the page itself: the search for its ID stops at no other group
      subst hurl
      obtain rfl : pageIDOf s c.url = p := Option.some.inj (hadd.pageID.symm.trans hp)
      have halone : ∀ w, ∀ g ∈ postings f s w, pageIDOf s c.url <+: g.doc →
          g.doc = pageIDOf s c.url := by
        intro w g hg hpre
        obtain ⟨url, hurl⟩ := (h.ok.postings_ok f w).2.2 g hg
        exact hapart g.doc ⟨url, hgrows url g.doc hurl⟩ (Or.inl hpre)
      have hpage := fun w => hbefore f w hadd.pageID hapart
      obtain ⟨hord, hfilled, -⟩ := h.ok.postings_ok f w
      rw [if_pos rfl, flatMap_poss_refresh hord hfilled (halone w),
        h.headHit_eq f halone hpage, rerecord, wordsIn_eq (hadd.tokens f), ← rerecorded_map,
        ← hpage w, SearchEngine.decoded]
    · -- another page: the ID that is searched for does not open its ID
      have hopens : ¬ pageIDOf s c.url <+: p := by
        intro hpre
        have hsame := hapart _ ⟨c.url, hadd.pageID⟩ (Or.inr hpre)
        rw [← hsame] at hp
        exact hurl ((hadd.ok.tables .page).1.injective hadd.pageID hp)
      rw [if_neg hurl, groupsOf_refresh _ hopens]
      exact hbefore f w hp hapart

/-- A batch that returns. -/
theorem batch {u : Unit} : ∀ (crawlers : List Crawler) {done : List Crawler} {x x' : World},
    Shelved E done x.stores → InvertedIndexer.indexPages E crawlers x = .ok u x' →
      Shelved E (done ++ crawlers) x'.stores
  | [], done, x, x', h, hrun => by
    obtain ⟨-, rfl⟩ := pure_ok.mp hrun
    rw [List.append_nil]
    exact h
  | c :: crawlers, done, x, x', h, hrun => by
    obtain ⟨u₁, x₁, hstep, hrest⟩ := foldlM_cons_ok.mp hrun
    obtain ⟨toks, hadd⟩ := addEntry_postings hstep h.ok
    rw [List.append_cons]
    exact batch crawlers (h.snoc hadd) hrest

/-- **A call that returns.** -/
theorem attempt (h : Shelved E done s) {a : Attempt} (hret : returns (a.outcome E s) = true) :
    Shelved E (done ++ a.call.inverted) (a.after E s) := by
  obtain ⟨x, hrun, hafter⟩ := Attempt.ok_of_returns hret
  have hother : a.call.inverted = [] → Shelved E (done ++ a.call.inverted) (a.after E s) := by
    intro hcall
    rw [hcall, List.append_nil]
    exact (Shelved.kept hcall).after h
  obtain ⟨call, faults⟩ := a
  cases call with
  | invertedAddEntry c =>
    obtain ⟨toks, hadd⟩ := addEntry_postings hrun h.ok
    rw [hafter]
    exact h.snoc hadd
  | invertedIndexPages crawlers =>
    rw [hafter]
    exact batch crawlers h hrun
  | _ => exact hother rfl

end Shelved

/-- **A run whose calls return.** -/
theorem shelved_runAll : ∀ (run : List Attempt) {done : List Crawler} {s : Stores},
    Shelved E done s → NoneAborted E run s →
      Shelved E (done ++ run.flatMap (·.call.inverted)) (runAll E run s)
  | [], done, s, h, _ => by
    rw [List.flatMap_nil, List.append_nil]
    exact h
  | a :: run, done, s, h, hret => by
    have hrest := shelved_runAll run (h.attempt hret.1) hret.2
    rw [List.append_assoc] at hrest
    exact hrest

/-- **The inverted indexes hold the histories of the pages.**  Take any run of all indexers from
    empty stores whose calls return, with pages indexed any number of times and in any versions.
    Then for each URL whose ID neither opens another page's ID nor opens with one, and so for each
    URL with an ID as long as there are no more than nine, each word and both indexes: the positions
    decoded are those of the page's history, latest first. -/
theorem index_histories (E : Platform) (run : List Attempt)
    (hret : NoneAborted E run Stores.empty) :
    let s := runAll E run Stores.empty
    let indexed := run.flatMap (·.call.inverted)
    (∀ (f : Field) (url p w : Str), (s .document)[url]? = some p → Apart s p →
      decoded f s p w = (history E f indexed url w).map decimal) ∧
    ((s .document).size ≤ 9 → ∀ (f : Field) (url p w : Str), (s .document)[url]? = some p →
      decoded f s p w = (history E f indexed url w).map decimal) := by
  intro s indexed
  have htable : TableOk .page s := Reachable.tableOk ⟨run, rfl⟩ .page
  have hshelved : Shelved E indexed s := shelved_runAll run (shelved_empty E) hret
  exact ⟨hshelved.decoded, fun hfew f url p w hp =>
    hshelved.decoded f url p w hp (apart_of_size htable hfew ⟨url, hp⟩)⟩

/-- Page 2 of ten, indexed twice, the second time with a new word that occurs two times: the word
    loses its first position. -/
theorem first_position_lost :
    let run := tenPages ++ [⟨.invertedAddEntry (smallPage 'b' ["ab"]), []⟩,
      ⟨.invertedAddEntry (smallPage 'b' ["ab", "xy", "xy"]), []⟩]
    let s := runAll asciiPlatform run Stores.empty
    decoded .content s (decimal 2) "xy".toList = [decimal 3] := by
  intro run s
  have hrun : NoneAborted asciiPlatform run Stores.empty ∧ (s .document).size = 10 ∧
      (s .document)[['b']]? = some (decimal 2) := by
    decide +kernel
  obtain ⟨hret, hsize, hid⟩ := hrun
  -- `2` is apart from all other IDs up to `10`
  have hapart : Apart s (decimal 2) := by
    rintro q ⟨url, hq⟩ hpre
    have htable : TableOk .page s := Reachable.tableOk ⟨run, rfl⟩ .page
    obtain ⟨n, -, hn, rfl⟩ := htable.1.bounded hq
    have hten : ∀ n ≤ 10, decimal 2 <+: decimal n ∨ decimal n <+: decimal 2 →
        decimal n = decimal 2 := by decide
    exact hten n (hsize ▸ hn) hpre
  rw [(index_histories asciiPlatform run hret).1 .content ['b'] (decimal 2) "xy".toList hid hapart]
  decide +kernel

end SearchEngine
