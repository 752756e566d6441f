/-
  Indexing a page again: exactly when other pages keep their postings, and exactly when the
  page's own postings are replaced.

  `InvertedIndexer.addEntry` looks for `doc<ID>` as a SUBSTRING, so `doc1` is found in `doc10`;
  and it removes stale groups only if the first token of the page has one.  Both slips show up
  as side conditions on the state before the call:

  * `FrameSafe`   — no value of the page's words holds a longer ID that starts with the page's
                    (or nothing is removed, and the page's own group comes first);
  * `ReplaceSafe` — no group of the page is left in the value of a word that is gone, and the
                    groups found are one each if the first token's value has one, none if not.

  `addEntry_keeps_others_iff` and `addEntry_replaces_iff` say that these are not only enough
  but NECESSARY, in every reachable state and for every call that returns.
-/
import SearchEngine.PostingLoop
import Mathlib.Tactic.Common

namespace SearchEngine

open Text Numeral Postings InvertedIndexer Effect

/-! ## The postings of a word in a reachable state -/

theorem Spells.filled {v : Str} {gs : List (DocGroup Char)} (h : Spells v gs) : Filled gs := by
  obtain ⟨chs, -, -, rfl⟩ := h
  intro g hg
  obtain ⟨c, -, rfl⟩ := List.mem_map.mp hg
  exact c.poss_ne_nil

theorem IndexOk.postings_ok {s : Stores} (h : IndexOk s) (f : Field) (w : Str) :
    Ordered (postings f s w) ∧ Filled (postings f s w) ∧
      ∀ g ∈ postings f s w, Issued .page g.doc s := by
  unfold postings
  cases (s .word)[w]? with
  | none =>
    exact ⟨List.Pairwise.nil, fun g hg => absurd hg (by simp), fun g hg => absurd hg (by simp)⟩
  | some k =>
    obtain ⟨hspell, hord, hdocs⟩ := h.groupsAt_ok f k
    refine ⟨hord, ?_, hdocs⟩
    unfold SpellsAt at hspell
    split at hspell
    · show Filled (groupsAt (s f.db) k)
      rw [hspell]
      exact fun g hg => absurd hg (by simp)
    · exact hspell.filled

/-- What an attempt of `addEntry` that returned has done. -/
theorem entryAdded_of_returns {E : Platform} {c : Crawler} {faults : List Bool} {s : Stores}
    (hs : IndexOk s) (h : returns (Attempt.outcome E ⟨.invertedAddEntry c, faults⟩ s) = true) :
    ∃ toks, EntryAdded E c toks s (Attempt.after E ⟨.invertedAddEntry c, faults⟩ s) := by
  obtain ⟨x, hrun, hafter⟩ := Attempt.ok_of_returns h
  rw [hafter]
  exact addEntry_postings hrun hs

/-! ## The other pages -/

/-- Every other page has the same groups before and after. -/
def KeepsOthers (url : Str) (s s' : Stores) : Prop :=
  ∀ (f : Field) (w url' q : Str), url' ≠ url → (s' .document)[url']? = some q →
    groupsOf q (postings f s' w) = groupsOf q (postings f s w)

/-- In the value of every word of the page, no longer ID starts with the page's ID — unless
    nothing will be removed and the page has a group of its own. -/
def FrameSafe (E : Platform) (s : Stores) (c : Crawler) : Prop :=
  ∀ (f : Field) (toks : List Str), f.tokens E c = .ok toks → ∀ w ∈ toks,
    (∀ g ∈ postings f s w, pageIDOf s c.url <+: g.doc → g.doc = pageIDOf s c.url) ∨
    (headHit f s (pageIDOf s c.url) toks = false ∧
      ∃ g ∈ postings f s w, g.doc = pageIDOf s c.url)

theorem groupsOf_eq_nil_of_not_mem {d : Str} {gs : List (DocGroup Char)}
    (h : ∀ g ∈ gs, g.doc ≠ d) : groupsOf d gs = [] :=
  List.filter_eq_nil_iff.mpr (fun g hg hd => h g hg (by simpa using hd))

/-- The positions of a token, as the loop writes them. -/
theorem positions_of_mem {w : Str} {toks : List Str} (hw : w ∈ toks) :
    ∃ q qs, (positions 0 w toks).map decimal = q :: qs := by
  cases h : (positions 0 w toks).map decimal with
  | nil => exact absurd hw (positions_eq_nil.mp (List.map_eq_nil_iff.mp h))
  | cons q qs => exact ⟨q, qs, rfl⟩

theorem reindexed_of_not_mem {f : Field} {s : Stores} {p w : Str} {toks : List Str}
    (hw : w ∉ toks) : reindexed f s p toks w = postings f s w := by
  rw [reindexed, positions_eq_nil.mpr hw]
  rfl

/-- Every other page keeps its postings just when every other ID does. -/
theorem keepsOthers_iff {E : Platform} {c : Crawler} {toks : Field → List Str} {s s' : Stores}
    (hs : IndexOk s) (h : EntryAdded E c toks s s') :
    KeepsOthers c.url s s' ↔
      ∀ f w d, d ≠ pageIDOf s c.url →
        groupsOf d (postings f s' w) = groupsOf d (postings f s w) := by
  constructor
  · intro hkeep f w d hd
    by_cases hissued : Issued .page d s'
    · obtain ⟨url', hurl'⟩ := hissued
      refine hkeep f w url' d (fun he => hd ?_) hurl'
      rw [he] at hurl'
      exact Option.some.inj (hurl'.symm.trans h.pageID)
    · -- an ID that is not issued has no group, neither before nor after
      have hafter : groupsOf d (postings f s' w) = [] :=
        groupsOf_eq_nil_of_not_mem (fun g hg hgd => hissued (hgd ▸ (h.ok.postings_ok f w).2.2 g hg))
      have hbefore : groupsOf d (postings f s w) = [] := by
        refine groupsOf_eq_nil_of_not_mem (fun g hg hgd => hissued ?_)
        obtain ⟨url', hurl'⟩ := (hs.postings_ok f w).2.2 g hg
        refine ⟨url', ?_⟩
        show (s' .document)[url']? = some d
        rw [h.document, ← hgd]
        exact Stores.issue_mono s .page .page hurl'
      rw [hafter, hbefore]
  · intro hkeep f w url' q hne hq
    refine hkeep f w q (fun he => hne ?_)
    rw [he] at hq
    exact (h.ok.tables .page).1.injective hq h.pageID

/-- **Exactly when indexing a page leaves all other pages alone.**  In every state a run reaches,
    a call of `addEntry` that returns keeps every other page's postings of every word in both
    indexes if and only if `FrameSafe` held before the call. -/
theorem addEntry_keeps_others_iff (E : Platform) (run : List Attempt) (c : Crawler)
    (faults : List Bool)
    (hret : returns (Attempt.outcome E ⟨.invertedAddEntry c, faults⟩
      (runAll E run Stores.empty)) = true) :
    KeepsOthers c.url (runAll E run Stores.empty)
        (Attempt.after E ⟨.invertedAddEntry c, faults⟩ (runAll E run Stores.empty)) ↔
      FrameSafe E (runAll E run Stores.empty) c := by
  have hs : IndexOk (runAll E run Stores.empty) := Reachable.indexOk ⟨run, rfl⟩
  revert hret hs
  generalize runAll E run Stores.empty = s
  intro hret hs
  obtain ⟨toks, h⟩ := entryAdded_of_returns hs hret
  rw [keepsOthers_iff hs h]
  constructor
  · intro hkeep f toks' htoks' w hw
    obtain rfl : toks f = toks' := Except.ok.inj ((h.tokens f).symm.trans htoks')
    obtain ⟨q, qs, hpos⟩ := positions_of_mem hw
    refine (refresh_keeps_iff (hs.postings_ok f w).1 _ q qs).mp (fun d hd => ?_)
    rw [← hkeep f w d hd, h.postings, reindexed, hpos]
  · intro hsafe f w d hd
    rw [h.postings]
    by_cases hw : w ∈ toks f
    · obtain ⟨q, qs, hpos⟩ := positions_of_mem hw
      rw [reindexed, hpos]
      exact (refresh_keeps_iff (hs.postings_ok f w).1 _ q qs).mpr
        (hsafe f (toks f) (h.tokens f) w hw) d hd
    · rw [reindexed_of_not_mem hw]

/-- A page with the stop word `a` for a title and no links. -/
def smallPage (url : Char) (words : List String) : Crawler :=
  Crawler.page [url] ['a'] [] [] (words.map String.toList) []

/-- Its tokens, where its words are all `ab`. -/
def smallTokens (n : Nat) : Field → List Str
  | .title => []
  | .content => List.replicate n "ab".toList

theorem tokens_smallPage_eq (url : Char) (n : Nat) (f : Field) :
    f.tokens asciiPlatform (smallPage url (List.replicate n "ab")) = .ok (smallTokens n f) := by
  cases f with
  | title =>
    show StopWords.clean asciiPlatform (splitWs ['a']) = .ok []
    decide +kernel
  | content =>
    show StopWords.clean asciiPlatform ((List.replicate n "ab").map String.toList) = _
    rw [List.map_replicate, StopWords.clean_ab]
    rfl

theorem tokens_smallPage (url : Char) (n : Nat) (f : Field) :
    ∃ toks, f.tokens asciiPlatform (smallPage url (List.replicate n "ab")) = .ok toks :=
  ⟨_, tokens_smallPage_eq url n f⟩

/-- Page 2 is indexed with the word of page 1. -/
theorem keeps_others_second_page :
    let s := runAll asciiPlatform [⟨.invertedAddEntry (smallPage 'a' ["ab"]), []⟩] Stores.empty
    KeepsOthers ['b'] s
      (Attempt.after asciiPlatform ⟨.invertedAddEntry (smallPage 'b' ["ab"]), []⟩ s) := by
  intro s
  refine (addEntry_keeps_others_iff asciiPlatform [⟨.invertedAddEntry (smallPage 'a' ["ab"]), []⟩]
    (smallPage 'b' ["ab"]) []
    (returns_of_runs (.invertedAddEntry _) (addEntry_runs (tokens_smallPage 'b' 1)) _)).mpr ?_
  intro f toks htoks w hw
  obtain rfl : smallTokens 1 f = toks :=
    Except.ok.inj ((tokens_smallPage_eq 'b' 1 f).symm.trans htoks)
  cases f with
  | title => cases hw
  | content =>
    obtain rfl := List.mem_singleton.mp hw
    exact Or.inl (by decide +kernel)

/-- Ten pages with IDs, the tenth of them indexed. -/
def tenPages : List Attempt :=
  ['a', 'b', 'c', 'd', 'e', 'f', 'g', 'h', 'i', 'j'].map
      (fun url => ⟨.documentAddEntryString [url], []⟩) ++
    [⟨.invertedAddEntry (smallPage 'j' ["ab"]), []⟩]

/-- Page 1 is indexed for the first time, with a word of page 10: `doc10` loses its group. -/
theorem page_one_takes_from_page_ten :
    ¬ ∀ (E : Platform) (run : List Attempt) (c : Crawler) (faults : List Bool),
      returns (Attempt.outcome E ⟨.invertedAddEntry c, faults⟩
        (runAll E run Stores.empty)) = true →
      KeepsOthers c.url (runAll E run Stores.empty)
        (Attempt.after E ⟨.invertedAddEntry c, faults⟩ (runAll E run Stores.empty)) := by
  intro h
  let s := runAll asciiPlatform tenPages Stores.empty
  let s' := Attempt.after asciiPlatform ⟨.invertedAddEntry (smallPage 'a' ["ab"]), []⟩ s
  have hrun : returns (Attempt.outcome asciiPlatform
        ⟨.invertedAddEntry (smallPage 'a' ["ab"]), []⟩ s) = true ∧
      (s' .document)[['j']]? = some (decimal 10) ∧
      groupsOf (decimal 10) (postings .content s' "ab".toList)
        ≠ groupsOf (decimal 10) (postings .content s "ab".toList) := by
    decide +kernel
  obtain ⟨hret, hid, hlost⟩ := hrun
  exact hlost (h asciiPlatform tenPages (smallPage 'a' ["ab"]) [] hret .content "ab".toList ['j']
    (decimal 10) (by decide) hid)

/-! ## The page itself -/

/-- The page's groups are what the tokens say: for every word, the positions it has now. -/
def Replaces (E : Platform) (c : Crawler) (s s' : Stores) : Prop :=
  ∀ (f : Field) (toks : List Str), f.tokens E c = .ok toks → ∀ w : Str,
    Exact (pageIDOf s c.url) ((positions 0 w toks).map decimal) (postings f s' w)

/-- Words that are gone have no group of the page; for the words of the page, the search for its
    ID finds nothing at all when the first token's value has no hit — and when it has one, finds
    exactly one group for each word, except that a word occurring once may have none. -/
def ReplaceSafe (E : Platform) (s : Stores) (c : Crawler) : Prop :=
  ∀ (f : Field) (toks : List Str), f.tokens E c = .ok toks →
    (∀ w, w ∉ toks → ∀ g ∈ postings f s w, g.doc ≠ pageIDOf s c.url) ∧
    ∀ w ∈ toks,
      if headHit f s (pageIDOf s c.url) toks then
        hits (pageIDOf s c.url) (postings f s w) = 1 ∨
          (hits (pageIDOf s c.url) (postings f s w) = 0 ∧ toks.count w = 1)
      else hits (pageIDOf s c.url) (postings f s w) = 0

theorem length_positions (w : Str) :
    ∀ (toks : List Str) (i : Nat), (positions i w toks).length = toks.count w
  | [], i => rfl
  | t :: toks, i => by
    rw [positions]
    by_cases ht : t = w
    · rw [if_pos ht, ht, List.count_cons_self, List.length_cons, length_positions w toks]
    · rw [if_neg ht, List.count_cons_of_ne ht, length_positions w toks]

theorem exact_nil_iff {p : Str} {gs : List (DocGroup Char)} :
    Exact p [] gs ↔ ∀ g ∈ gs, g.doc ≠ p := by
  rw [Exact, if_pos rfl]
  constructor
  · intro h g hg hgp
    have hmem : g ∈ groupsOf p gs := List.mem_filter.mpr ⟨hg, by simpa using hgp⟩
    rw [h] at hmem
    exact absurd hmem (by simp)
  · exact groupsOf_eq_nil_of_not_mem

/-- **Exactly when re-indexing replaces.**  In every state a run reaches, a call of `addEntry`
    that returns leaves, for every word and in both indexes, exactly the positions of the word in
    the page's new tokens if and only if `ReplaceSafe` held before the call. -/
theorem addEntry_replaces_iff (E : Platform) (run : List Attempt) (c : Crawler)
    (faults : List Bool)
    (hret : returns (Attempt.outcome E ⟨.invertedAddEntry c, faults⟩
      (runAll E run Stores.empty)) = true) :
    Replaces E c (runAll E run Stores.empty)
        (Attempt.after E ⟨.invertedAddEntry c, faults⟩ (runAll E run Stores.empty)) ↔
      ReplaceSafe E (runAll E run Stores.empty) c := by
  have hs : IndexOk (runAll E run Stores.empty) := Reachable.indexOk ⟨run, rfl⟩
  revert hret hs
  generalize runAll E run Stores.empty = s
  intro hret hs
  obtain ⟨toks, h⟩ := entryAdded_of_returns hs hret
  -- word by word: a word that is gone, and a word of the page
  have hgone : ∀ f w, w ∉ toks f →
      (Exact (pageIDOf s c.url) ((positions 0 w (toks f)).map decimal)
        (postings f (Attempt.after E ⟨.invertedAddEntry c, faults⟩ s) w) ↔
        ∀ g ∈ postings f s w, g.doc ≠ pageIDOf s c.url) := by
    intro f w hw
    rw [h.postings, reindexed_of_not_mem hw, positions_eq_nil.mpr hw]
    exact exact_nil_iff
  have hthere : ∀ f w, w ∈ toks f →
      (Exact (pageIDOf s c.url) ((positions 0 w (toks f)).map decimal)
        (postings f (Attempt.after E ⟨.invertedAddEntry c, faults⟩ s) w) ↔
        if headHit f s (pageIDOf s c.url) (toks f) then
          hits (pageIDOf s c.url) (postings f s w) = 1 ∨
            (hits (pageIDOf s c.url) (postings f s w) = 0 ∧ (toks f).count w = 1)
        else hits (pageIDOf s c.url) (postings f s w) = 0) := by
    intro f w hw
    obtain ⟨q, qs, hpos⟩ := positions_of_mem hw
    have hone : qs = [] ↔ (toks f).count w = 1 := by
      have hlen := congrArg List.length hpos
      rw [List.length_map, length_positions, List.length_cons] at hlen
      rw [← List.length_eq_zero_iff]
      omega
    rw [h.postings, reindexed, hpos, refresh_exact_iff (hs.postings_ok f w).2.1, hone]
  constructor
  · intro hrep f toks' htoks'
    obtain rfl : toks f = toks' := Except.ok.inj ((h.tokens f).symm.trans htoks')
    exact ⟨fun w hw => (hgone f w hw).mp (hrep f _ htoks' w),
      fun w hw => (hthere f w hw).mp (hrep f _ htoks' w)⟩
  · intro hsafe f toks' htoks' w
    obtain rfl : toks f = toks' := Except.ok.inj ((h.tokens f).symm.trans htoks')
    obtain ⟨h1, h2⟩ := hsafe f _ htoks'
    by_cases hw : w ∈ toks f
    · exact (hthere f w hw).mpr (h2 w hw)
    · exact (hgone f w hw).mpr (h1 w hw)

/-- Page 1 is indexed again, with its word twice. -/
theorem replaces_second_indexing :
    let s := runAll asciiPlatform [⟨.invertedAddEntry (smallPage 'a' ["ab"]), []⟩] Stores.empty
    Replaces asciiPlatform (smallPage 'a' ["ab", "ab"]) s
      (Attempt.after asciiPlatform ⟨.invertedAddEntry (smallPage 'a' ["ab", "ab"]), []⟩ s) := by
  intro s
  refine (addEntry_replaces_iff asciiPlatform [⟨.invertedAddEntry (smallPage 'a' ["ab"]), []⟩]
    (smallPage 'a' ["ab", "ab"]) []
    (returns_of_runs (.invertedAddEntry _) (addEntry_runs (tokens_smallPage 'a' 2)) _)).mpr ?_
  -- the first call has written under the word `ab` of the content index only
  have hfirst : (s .word).toList = [("ab".toList, ['1'])] ∧ postings .title s "ab".toList = [] ∧
      headHit .content s (pageIDOf s ['a']) (smallTokens 2 .content) = true ∧
      hits (pageIDOf s ['a']) (postings .content s "ab".toList) = 1 := by
    decide +kernel
  obtain ⟨hlist, htitle, hhead, hhits⟩ := hfirst
  have hnone : ∀ w, w ≠ "ab".toList → ∀ f, postings f s w = [] := by
    intro w hw f
    unfold postings
    cases hk : (s .word)[w]? with
    | none => rfl
    | some k =>
      have hmem := Std.ExtTreeMap.mem_toList_iff_getElem?_eq_some.mpr hk
      rw [hlist] at hmem
      exact absurd (Prod.mk.inj (List.mem_singleton.mp hmem)).1 hw
  intro f toks htoks
  obtain rfl : smallTokens 2 f = toks :=
    Except.ok.inj ((tokens_smallPage_eq 'a' 2 f).symm.trans htoks)
  refine ⟨fun w hw g hg => ?_, fun w hw => ?_⟩
  · by_cases hab : w = "ab".toList
    · subst hab
      cases f with
      | title =>
        rw [htitle] at hg
        cases hg
      | content => exact absurd List.mem_cons_self hw
    · rw [hnone w hab f] at hg
      cases hg
  · cases f with
    | title => cases hw
    | content =>
      obtain rfl := List.eq_of_mem_replicate hw
      exact (if_pos hhead).mpr (Or.inl hhits)

/-- The run indexed the page, with whatever title and content it had then. -/
def AlreadyIndexed (E : Platform) (url : Str) (run : List Attempt) : Prop :=
  ∃ (before after : List Attempt) (c : Crawler) (faults : List Bool),
    run = before ++ ⟨.invertedAddEntry c, faults⟩ :: after ∧ c.url = url ∧
    returns (Attempt.outcome E ⟨.invertedAddEntry c, faults⟩
      (runAll E before Stores.empty)) = true

/-- A page indexed with the word `ab` is indexed again with the word `xy` in its place: the old
    position of `ab` survives. -/
theorem vanished_word_survives :
    ¬ ∀ (E : Platform) (run : List Attempt) (c : Crawler) (faults : List Bool),
      AlreadyIndexed E c.url run →
      returns (Attempt.outcome E ⟨.invertedAddEntry c, faults⟩
        (runAll E run Stores.empty)) = true →
      Replaces E c (runAll E run Stores.empty)
        (Attempt.after E ⟨.invertedAddEntry c, faults⟩ (runAll E run Stores.empty)) := by
  intro h
  let s := runAll asciiPlatform [⟨.invertedAddEntry (smallPage 'a' ["ab"]), []⟩] Stores.empty
  let s' := Attempt.after asciiPlatform ⟨.invertedAddEntry (smallPage 'a' ["xy"]), []⟩ s
  have hrun : returns (Attempt.outcome asciiPlatform
        ⟨.invertedAddEntry (smallPage 'a' ["ab"]), []⟩ Stores.empty) = true ∧
      returns (Attempt.outcome asciiPlatform
        ⟨.invertedAddEntry (smallPage 'a' ["xy"]), []⟩ s) = true ∧
      Field.content.tokens asciiPlatform (smallPage 'a' ["xy"]) = .ok ["xy".toList] ∧
      ¬ ∀ g ∈ postings .content s' "ab".toList, g.doc ≠ pageIDOf s ['a'] := by
    decide +kernel
  obtain ⟨hfirst, hsecond, htoks, hleft⟩ := hrun
  have hurl : ∀ words words', (smallPage 'a' words).url = (smallPage 'a' words').url :=
    fun _ _ => rfl
  have hrep := h asciiPlatform [⟨.invertedAddEntry (smallPage 'a' ["ab"]), []⟩]
    (smallPage 'a' ["xy"]) [] ⟨[], [], smallPage 'a' ["ab"], [], rfl, hurl _ _, hfirst⟩ hsecond
    .content ["xy".toList] htoks "ab".toList
  rw [show positions 0 "ab".toList ["xy".toList] = [] by decide] at hrep
  rw [List.map_nil, exact_nil_iff] at hrep
  exact hleft hrep

end SearchEngine
