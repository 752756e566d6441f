/-
  What a page that cannot be parsed leaves behind.

  `Crawler.parser` swallows its exceptions and returns the parts it has, so the indexers find out
  by a missing part, or by a token that cannot be stemmed.  Where that happens decides what is
  left in the stores:

  * `ParentChildIndexer` reads its part before the first `put`, and nothing fails behind it;
  * `ForwardIndexer` reads its parts first too, but STEMS the content after the page has its ID;
  * `WordIndexer` has filed the words of the title before it looks at the content;
  * `InvertedIndexer` assigns the page's ID before it looks at any part, and writes the title's
    postings before it looks at the content.

  `no_trace_iff` gives for each method, in every state of the stores and for every page, exactly
  when it leaves no trace.  All `put`s succeed here; only the page is at fault.
-/
import SearchEngine.ValueRewrite
import SearchEngine.ForwardRecord
import Mathlib.Tactic.Common

namespace SearchEngine

open Text Numeral Effect InvertedIndexer NumberedMap ForwardIndexer

/-- The call returns, or it throws with every store as it was. -/
def LeavesNoTrace (E : Platform) (call : Call) (s : Stores) : Prop :=
  returns (Attempt.outcome E ⟨call, []⟩ s) = true ∨ Attempt.after E ⟨call, []⟩ s = s

theorem noTrace_of_runs {E : Platform} {call : Call} (h : Runs NoFaults (call.exec E))
    (s : Stores) : LeavesNoTrace E call s := by
  exact Or.inl (returns_of_runs call h s)

/-- A call that throws: what counts is the stores it throws in. -/
theorem noTrace_iff_of_error {E : Platform} {call : Call} {s : Stores} {e : Exn} {x : World}
    (h : call.exec E ⟨s, []⟩ = .error e x) : LeavesNoTrace E call s ↔ x.stores = s := by
  unfold LeavesNoTrace Attempt.after Attempt.outcome
  rw [h]
  exact or_iff_right (by simp [returns])

/-- An assignment leaves the stores alone just when there is nothing to assign. -/
theorem Stores.issue_eq_self_iff {s : Stores} {t : Table} {key : Str} :
    s.issue t key = s ↔ ∃ id, (s t.fwd)[key]? = some id := by
  cases hget : (s t.fwd)[key]? with
  | some id => exact ⟨fun _ => ⟨id, rfl⟩, fun _ => issue_of_some hget⟩
  | none =>
    refine ⟨fun h => ?_, fun h => absurd h (by simp)⟩
    have hfwd := congrFun h t.fwd
    rw [issue_of_none hget, issueBoth_fwd] at hfwd
    rw [← hfwd, get_insert_self] at hget
    cases hget

/-! ## `ParentChildIndexer` -/

theorem addLink_runs (p asu link : Str) :
    Runs NoFaults (ParentChildIndexer.addLink p asu link) := by
  refine Runs.bind (ensureID_runs .page link) (fun child => ?_)
  refine Runs.bind ?_ (fun _ => Runs.pure _)
  refine Runs.bind (get_runs _ _) (fun existed => ?_)
  cases existed with
  | none => exact put_runs _ _ _
  | some parents => exact put_runs _ _ _

theorem parentChild_no_trace (E : Platform) (s : Stores) (c : Crawler) :
    LeavesNoTrace E (.parentChildAddEntry c) s := by
  cases hlinks : vectorGet c.parser 4 with
  | error e => exact (noTrace_iff_of_error (lift_run_error hlinks _ _)).mpr rfl
  | ok links =>
    refine noTrace_of_runs (Runs.lift_bind hlinks ?_) s
    refine Runs.bind (ensureID_runs .page c.url) (fun p => ?_)
    split
    · exact Runs.bind (Runs.foldlM links _ (fun asu link _ => addLink_runs p asu link))
        (fun asu => put_runs _ _ _)
    · exact Runs.pure ()

/-! ## `ForwardIndexer` -/

/-- The content can be stemmed, or the page has its ID. -/
def ForwardSafe (E : Platform) (s : Stores) (c : Crawler) : Prop :=
  ∀ content links, vectorGet c.parser 3 = .ok content → vectorGet c.parser 4 = .ok links →
    (∃ cleaned, StopWords.clean E content = .ok cleaned) ∨ ∃ p, (s .document)[c.url]? = some p

theorem forward_no_trace_iff (E : Platform) (s : Stores) (c : Crawler) :
    LeavesNoTrace E (.forwardAddEntry c) s ↔ ForwardSafe E s c := by
  cases hcontent : vectorGet c.parser 3 with
  | error e =>
    rw [noTrace_iff_of_error (lift_run_error hcontent _ _)]
    refine iff_of_true rfl (fun content links h _ => ?_)
    rw [hcontent] at h
    cases h
  | ok content =>
    cases hlinks : vectorGet c.parser 4 with
    | error e =>
      rw [noTrace_iff_of_error ((lift_run_ok hcontent _ _).trans (lift_run_error hlinks _ _))]
      refine iff_of_true rfl (fun content' links _ h => ?_)
      rw [hlinks] at h
      cases h
    | ok links =>
      obtain ⟨title, date, size, content', hc⟩ := page_of_links hlinks
      obtain rfl : content' = content := by
        rw [hc] at hcontent
        exact Except.ok.inj hcontent
      cases hclean : StopWords.clean E content' with
      | ok cleaned =>
        refine iff_of_true ?_ (fun content'' links' h _ => Or.inl ⟨cleaned, ?_⟩)
        · rw [hc]
          refine noTrace_of_runs ?_ s
          exact ForwardIndexer.addEntry_runs hclean _ _ _ _ _
        · rw [hcontent] at h
          rw [← Except.ok.inj h]
          exact hclean
      | error e =>
        -- the page has its ID by the time the content is stemmed
        obtain ⟨p, x, hid, -⟩ := ensureID_runs .page c.url ⟨s, []⟩ rfl
        obtain ⟨hx, -, -⟩ := pageID_ok hid
        have hrun : (Call.forwardAddEntry c).exec E ⟨s, []⟩ = .error e x := by
          refine (lift_run_ok hcontent _ _).trans ((lift_run_ok hlinks _ _).trans ?_)
          refine (bind_run_ok hid _).trans ?_
          rw [hc]
          exact lift_run_error hclean _ _
        rw [noTrace_iff_of_error hrun, hx, Stores.issue_eq_self_iff]
        constructor
        · exact fun h content'' links' _ _ => Or.inr h
        · intro h
          rcases h content' links hcontent hlinks with ⟨cleaned, hok⟩ | h
          · rw [hclean] at hok
            cases hok
          · exact h

/-! ## `WordIndexer` -/

theorem assignID_runs (t : Table) (n : Nat) (key : Str) :
    Runs NoFaults (assignID t.fwd t.inv n key) := by
  refine Runs.bind (get_runs _ _) (fun o => ?_)
  cases o with
  | some id => exact Runs.pure _
  | none =>
    refine Runs.bind (put_runs _ _ _) (fun _ => ?_)
    exact Runs.bind (put_runs _ _ _) (fun _ => Runs.pure _)

/-- An assignment: what is there stays, the key is there in the end, and if it was there before,
    nothing has happened. -/
theorem assignID_ok {t : Table} {key : Str} {n n' : Nat} {x x' : World}
    (h : assignID t.fwd t.inv n key x = .ok n' x') :
    (∀ key' id : Str, (x.stores t.fwd)[key']? = some id → (x'.stores t.fwd)[key']? = some id) ∧
    (∃ id, (x'.stores t.fwd)[key]? = some id) ∧
    ((∃ id, (x.stores t.fwd)[key]? = some id) → x' = x) := by
  rcases assignID_cases t n key x with ⟨id, hid, hrun⟩ | ⟨hnone, hrun | hrun | hrun⟩
  · rw [hrun] at h
    cases h
    exact ⟨fun _ _ hk => hk, ⟨id, hid⟩, fun _ => rfl⟩
  · obtain ⟨fs, hrun⟩ := hrun
    rw [hrun] at h
    cases h
  · obtain ⟨fs, hrun⟩ := hrun
    rw [hrun] at h
    cases h
  · obtain ⟨fs, hrun⟩ := hrun
    rw [hrun] at h
    cases h
    have hfwd : ((x.stores.put t.fwd key (decimal (n + 1))).put t.inv (decimal (n + 1)) key) t.fwd
        = (x.stores t.fwd).insert key (decimal (n + 1)) := by
      rw [Stores.put_other _ (t.inv_ne_fwd t).symm, Stores.put_same]
    dsimp only
    rw [hfwd]
    refine ⟨fun key' id hk => Stores.get_insert_of_none hnone hk, ?_, ?_⟩
    · exact ⟨decimal (n + 1), get_insert_self _ _ _⟩
    · rintro ⟨id, hid⟩
      rw [hnone] at hid
      cases hid

/-- A loop of assignments, likewise. -/
theorem foldlM_assignID_ok {t : Table} :
    ∀ (keys : List Str) (n n' : Nat) (x x' : World),
      keys.foldlM (assignID t.fwd t.inv) n x = .ok n' x' →
      (∀ key id : Str, (x.stores t.fwd)[key]? = some id → (x'.stores t.fwd)[key]? = some id) ∧
      (∀ key ∈ keys, ∃ id, (x'.stores t.fwd)[key]? = some id) ∧
      ((∀ key ∈ keys, ∃ id, (x.stores t.fwd)[key]? = some id) → x' = x)
  | [], n, n', x, x', h => by
    obtain ⟨-, rfl⟩ := pure_ok.mp h
    exact ⟨fun _ _ hk => hk, by simp, fun _ => rfl⟩
  | key :: keys, n, n', x, x', h => by
    obtain ⟨n₁, x₁, hstep, hrest⟩ := foldlM_cons_ok.mp h
    obtain ⟨hmono₁, ⟨id, hid⟩, hsame₁⟩ := assignID_ok hstep
    obtain ⟨hmono, hall, hsame⟩ := foldlM_assignID_ok keys n₁ n' x₁ x' hrest
    refine ⟨fun key' id' hk => hmono key' id' (hmono₁ key' id' hk), fun key' hkey' => ?_,
      fun hknown => ?_⟩
    · rcases List.mem_cons.mp hkey' with rfl | hkey'
      · exact ⟨id, hmono _ _ hid⟩
      · exact hall key' hkey'
    · obtain rfl : x₁ = x := hsame₁ (hknown key List.mem_cons_self)
      exact hsame (fun key' hkey' => hknown key' (List.mem_cons_of_mem key hkey'))

/-- The title cannot be read, or the content can, or the title has no new word. -/
def WordSafe (E : Platform) (s : Stores) (c : Crawler) : Prop :=
  ∀ title, Crawler.titleTokens E c.parser = .ok title →
    (∃ content, Crawler.contentTokens E c.parser = .ok content) ∨
      ∀ w ∈ title, ∃ k, (s .word)[w]? = some k

theorem word_no_trace_iff (E : Platform) (s : Stores) (c : Crawler) :
    LeavesNoTrace E (.wordAddEntryCrawler c) s ↔ WordSafe E s c := by
  have hcount := Db.count_run .word ⟨s, []⟩
  have hwords : ∀ toks : List Str, ∀ n,
      Runs NoFaults (toks.foldlM (assignID .word .invertedWord) n) :=
    fun toks n => Runs.foldlM toks n (fun n w _ => assignID_runs .word n w)
  cases htitle : Crawler.titleTokens E c.parser with
  | error e =>
    have hrun : (Call.wordAddEntryCrawler c).exec E ⟨s, []⟩ = .error e ⟨s, []⟩ :=
      (bind_run_ok hcount _).trans (bind_run_error (lift_run_error htitle _ _) _)
    rw [noTrace_iff_of_error hrun]
    refine iff_of_true rfl (fun title h => ?_)
    rw [htitle] at h
    cases h
  | ok title =>
    cases hcontent : Crawler.contentTokens E c.parser with
    | ok content =>
      refine iff_of_true (noTrace_of_runs ?_ s) (fun _ _ => Or.inl ⟨content, hcontent⟩)
      refine Runs.bind (fun x hx => ⟨_, x, Db.count_run .word x, hx⟩) (fun n => ?_)
      refine Runs.bind (Runs.lift_bind htitle ?_) (fun _ => Runs.pure ())
      exact Runs.bind (hwords title n) (fun n' => Runs.lift_bind hcontent (hwords content n'))
    | error e =>
      obtain ⟨n', x, hloop, -⟩ := hwords title (s .word).size ⟨s, []⟩ rfl
      obtain ⟨-, hall, hsame⟩ := foldlM_assignID_ok (t := .word) title _ n' _ x hloop
      have hrun : (Call.wordAddEntryCrawler c).exec E ⟨s, []⟩ = .error e x := by
        refine (bind_run_ok hcount _).trans (bind_run_error ?_ _)
        refine (lift_run_ok htitle _ _).trans ((bind_run_ok hloop _).trans ?_)
        exact lift_run_error hcontent _ _
      rw [noTrace_iff_of_error hrun]
      constructor
      · intro hx title' htitle'
        obtain rfl : title = title' := Except.ok.inj (htitle.symm.trans htitle')
        refine Or.inr (fun w hw => ?_)
        rw [← hx]
        exact hall w hw
      · intro h
        rcases h title htitle with ⟨content, hok⟩ | hknown
        · rw [hcontent] at hok
          cases hok
        · rw [hsame hknown]

/-! ## `InvertedIndexer` -/

/-- With known words the loop over an index touches the index alone. -/
theorem foldlM_addToken_known {f : Field} {p : Str} :
    ∀ (toks : List Str) (v v' : Loop) (x x' : World),
      toks.foldlM (addToken f p) v x = .ok v' x' →
      (∀ w ∈ toks, ∃ k : Str, (x.stores .word)[w]? = some k) →
      ∀ d, d ≠ f.db → x'.stores d = x.stores d
  | [], v, v', x, x', h, _ => by
    obtain ⟨-, rfl⟩ := pure_ok.mp h
    exact fun _ _ => rfl
  | w :: toks, v, v', x, x', h, hknown => by
    obtain ⟨v₁, x₁, hstep, hrest⟩ := foldlM_cons_ok.mp h
    obtain ⟨k, -, hx₁, -⟩ := addToken_ok hstep
    obtain ⟨k', hk'⟩ := hknown w (by simp)
    have hsame : ∀ d, d ≠ f.db → x₁.stores d = x.stores d := by
      intro d hd
      rw [hx₁, Stores.put_other _ hd, Stores.issue_of_some (t := .word) hk']
    intro d hd
    have hknown₁ : ∀ w' ∈ toks, ∃ k : Str, (x₁.stores .word)[w']? = some k := by
      rw [hsame .word f.db_ne_word.symm]
      exact fun w' hw' => hknown w' (List.mem_cons_of_mem w hw')
    rw [foldlM_addToken_known toks v₁ v' x₁ x' hrest hknown₁ d hd, hsame d hd]

/-- The postings of a title stand in the index as the loop would write them: every word has an ID,
    and the value under it is the page's group with the positions of that ID and nothing else. -/
def TitleSettled (s : Stores) (p : Str) (title : List Str) : Prop :=
  ∀ w ∈ title, 'd' ∉ p ∧ ∃ k, (s .word)[w]? = some k ∧
    (s .titleInverted)[k]?
      = some (docTag p ++ positionsText ((positions 0 k (title.map (wordIDOf s))).map decimal))

/-- Title and content can be read; or the page has its ID, and the title cannot be read or is
    settled. -/
def InvertedSafe (E : Platform) (s : Stores) (c : Crawler) : Prop :=
  (∃ title content, Field.title.tokens E c = .ok title ∧ Field.content.tokens E c = .ok content) ∨
  ∃ p, (s .document)[c.url]? = some p ∧
    ∀ title, Field.title.tokens E c = .ok title → TitleSettled s p title

theorem map_wordIDOf {s : Stores} {toks ids : List Str}
    (h : List.Forall₂ (fun w k => (s .word)[w]? = some k) toks ids) :
    toks.map (wordIDOf s) = ids := by
  induction h with
  | nil => rfl
  | cons hk _ ih =>
    rw [List.map_cons, ih, wordIDOf, hk]
    rfl

/-- **The title's loop leaves no trace** just when the title is settled. -/
theorem title_loop_iff {p : Str} {title : List Str} {s : Stores} {x : World} {u : Unit}
    (h : addTokens .title p title ⟨s, []⟩ = .ok u x) : x.stores = s ↔ TitleSettled s p title := by
  obtain ⟨v', x₁, hloop, hpure⟩ := bind_ok.mp h
  obtain ⟨-, rfl⟩ := pure_ok.mp hpure
  obtain ⟨ids, hids, htexts, hext⟩ := foldlM_addToken_texts title _ v' _ x₁ hloop
  constructor
  · intro hx w hw
    rw [hx] at hids htexts
    have hmap := map_wordIDOf hids
    obtain ⟨k, hk⟩ := exists_of_forall₂ hids w hw
    have hmem : k ∈ ids := by
      rw [← hmap]
      refine List.mem_map.mpr ⟨w, hw, ?_⟩
      rw [wordIDOf, hk]
      rfl
    obtain ⟨hp, hval⟩ := (rewrites_eq_iff p ids _).mp (fun k => (htexts k).symm) k hmem
    exact ⟨hp, k, hk, by rw [hmap]; exact hval⟩
  · intro hset
    have hknown : ∀ w ∈ title, ∃ k : Str, (s .word)[w]? = some k := by
      intro w hw
      obtain ⟨-, k, hk, -⟩ := hset w hw
      exact ⟨k, hk⟩
    have hothers := foldlM_addToken_known title _ v' _ x₁ hloop hknown
    have hmap : title.map (wordIDOf s) = ids := by
      rw [← map_wordIDOf hids]
      refine List.map_congr_left (fun w _ => ?_)
      rw [wordIDOf, wordIDOf, hothers .word (by decide)]
    have hsettled : ∀ k ∈ ids, 'd' ∉ p ∧ (s .titleInverted)[k]?
        = some (docTag p ++ positionsText ((positions 0 k ids).map decimal)) := by
      intro k hk
      rw [← hmap] at hk
      obtain ⟨w, hw, rfl⟩ := List.mem_map.mp hk
      obtain ⟨hp, k, hk, hval⟩ := hset w hw
      rw [hmap] at hval
      rw [wordIDOf, hk]
      exact ⟨hp, hval⟩
    funext d
    by_cases hd : d = .titleInverted
    · subst hd
      refine Std.ExtTreeMap.ext_getElem? (fun k => (htexts k).trans ?_)
      exact (rewrites_eq_iff p ids _).mpr hsettled k
    · exact hothers d hd

theorem inverted_no_trace_iff (E : Platform) (s : Stores) (c : Crawler) :
    LeavesNoTrace E (.invertedAddEntry c) s ↔ InvertedSafe E s c := by
  obtain ⟨p, x, hid, hx0⟩ := ensureID_runs .page c.url ⟨s, []⟩ rfl
  obtain ⟨hx, hp, hget⟩ := pageID_ok hid
  cases htitle : Field.title.tokens E c with
  | error e =>
    have hrun : (Call.invertedAddEntry c).exec E ⟨s, []⟩ = .error e x :=
      (bind_run_ok hid _).trans (lift_run_error htitle _ _)
    rw [noTrace_iff_of_error hrun, hx, Stores.issue_eq_self_iff]
    constructor
    · rintro ⟨id, hid⟩
      refine Or.inr ⟨id, hid, fun title h => ?_⟩
      rw [htitle] at h
      cases h
    · rintro (⟨title, content, h, -⟩ | ⟨id, hid, -⟩)
      · rw [htitle] at h
        cases h
      · exact ⟨id, hid⟩
  | ok title =>
    cases hcontent : Field.content.tokens E c with
    | ok content =>
      refine iff_of_true (noTrace_of_runs ?_ s) (Or.inl ⟨title, content, htitle, hcontent⟩)
      refine addEntry_runs (fun f => ?_)
      cases f with
      | title => exact ⟨title, htitle⟩
      | content => exact ⟨content, hcontent⟩
    | error e =>
      obtain ⟨u, x₁, hloop, -⟩ := addTokens_runs .title p title x hx0
      have hrun : (Call.invertedAddEntry c).exec E ⟨s, []⟩ = .error e x₁ := by
        refine (bind_run_ok hid _).trans ((lift_run_ok htitle _ _).trans ?_)
        exact (bind_run_ok hloop _).trans (lift_run_error hcontent _ _)
      -- the page's ID is written before the title, and it stays
      have hafter : (x₁.stores .document)[c.url]? = some p := by
        rw [(addTokens_extends hloop).others .document (by decide) (by decide) (by decide)]
        exact hget
      have hstart : ∀ id : Str, (s .document)[c.url]? = some id → p = id ∧ x = ⟨s, []⟩ := by
        intro id hknown
        rw [Stores.issue_of_some (t := .page) hknown] at hx
        rw [pageIDOf, hknown] at hp
        obtain ⟨xs, xf⟩ := x
        obtain rfl : xs = s := hx
        obtain rfl : xf = [] := hx0
        exact ⟨hp, rfl⟩
      rw [noTrace_iff_of_error hrun]
      constructor
      · intro hsame
        rw [hsame] at hafter
        obtain ⟨-, rfl⟩ := hstart p hafter
        refine Or.inr ⟨p, hafter, fun title' htitle' => ?_⟩
        obtain rfl : title = title' := Except.ok.inj (htitle.symm.trans htitle')
        exact (title_loop_iff hloop).mp hsame
      · rintro (⟨-, content, -, h⟩ | ⟨id, hknown, hset⟩)
        · rw [hcontent] at h
          cases h
        · obtain ⟨rfl, rfl⟩ := hstart id hknown
          exact (title_loop_iff hloop).mpr (hset title htitle)

/-! ## All four -/

/-- The inverted indexer is the most demanding of the four. -/
theorem InvertedSafe.forwardSafe {E : Platform} {s : Stores} {c : Crawler}
    (h : InvertedSafe E s c) : ForwardSafe E s c := by
  intro content links hcontent _
  rcases h with ⟨-, cleaned, -, hclean⟩ | ⟨p, hp, -⟩
  · refine Or.inl ⟨cleaned, ?_⟩
    replace hclean : (vectorGet c.parser 3 >>= StopWords.clean E) = .ok cleaned := hclean
    rw [hcontent, except_ok_bind] at hclean
    exact hclean
  · exact Or.inr ⟨p, hp⟩

theorem InvertedSafe.wordSafe {E : Platform} {s : Stores} {c : Crawler}
    (h : InvertedSafe E s c) : WordSafe E s c := by
  intro title htitle
  rcases h with ⟨-, content, -, hcontent⟩ | ⟨p, -, hset⟩
  · exact Or.inl ⟨content, hcontent⟩
  · refine Or.inr (fun w hw => ?_)
    obtain ⟨-, k, hk, -⟩ := hset title htitle w hw
    exact ⟨k, hk⟩

/-- **Exactly when a page leaves no trace.**  In every state of the stores and for every outcome of
    `Crawler.parser`, `addEntry` of the four indexers returns, or throws with every store as it
    was, under these conditions and no others: none for `ParentChildIndexer`; for `ForwardIndexer`
    that the content can be stemmed or the page has its ID; for `WordIndexer` that the content can
    be read or the title has nothing new; for `InvertedIndexer` that title and content can be
    read, or the page has its ID and its title leaves the title index as it is.  This last
    condition is that of all four together. -/
theorem no_trace_iff (E : Platform) (s : Stores) (c : Crawler) :
    (LeavesNoTrace E (.forwardAddEntry c) s ↔ ForwardSafe E s c) ∧
    (LeavesNoTrace E (.invertedAddEntry c) s ↔ InvertedSafe E s c) ∧
    LeavesNoTrace E (.parentChildAddEntry c) s ∧
    (LeavesNoTrace E (.wordAddEntryCrawler c) s ↔ WordSafe E s c) ∧
    ((LeavesNoTrace E (.forwardAddEntry c) s ∧ LeavesNoTrace E (.invertedAddEntry c) s ∧
      LeavesNoTrace E (.parentChildAddEntry c) s ∧ LeavesNoTrace E (.wordAddEntryCrawler c) s) ↔
      InvertedSafe E s c) := by
  have hforward := forward_no_trace_iff E s c
  have hinverted := inverted_no_trace_iff E s c
  have hparent := parentChild_no_trace E s c
  have hword := word_no_trace_iff E s c
  refine ⟨hforward, hinverted, hparent, hword, fun h => hinverted.mp h.2.1, fun h => ?_⟩
  exact ⟨hforward.mpr h.forwardSafe, hinverted.mpr h, hparent, hword.mpr h.wordSafe⟩

/-- A page of which nothing can be extracted: `InvertedIndexer.addEntry` throws, and `document` has
    its URL all the same. -/
theorem unparsed_page_leaves_id :
    ¬ ∀ (E : Platform) (s : Stores) (c : Crawler),
      LeavesNoTrace E (.forwardAddEntry c) s ∧ LeavesNoTrace E (.invertedAddEntry c) s ∧
      LeavesNoTrace E (.parentChildAddEntry c) s ∧ LeavesNoTrace E (.wordAddEntryCrawler c) s := by
  intro h
  obtain ⟨-, hinv, -, -⟩ := h asciiPlatform Stores.empty ⟨['u'], none, none, none, none, none⟩
  rcases hinv with hret | hsame
  · revert hret
    decide +kernel
  · have hdoc := congrFun hsame .document
    have hget : (Attempt.after asciiPlatform
        ⟨.invertedAddEntry ⟨['u'], none, none, none, none, none⟩, []⟩ Stores.empty
        .document)[['u']]? = some ['1'] := by decide +kernel
    rw [hdoc] at hget
    exact absurd hget (by decide +kernel)

end SearchEngine
