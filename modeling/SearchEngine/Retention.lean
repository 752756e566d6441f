/-
  What a call has entered stays.

  Pages are indexed again, calls break off before any `put`, and postings of one page can be taken
  away on behalf of another.  All the same the two ID tables, the records and the link indexes
  never lose anything: `Retained s s'` is an order on the stores that every single write respects
  (`Write.retained`), so every run does (`retained_runAll`).

  A call that RETURNS has entered all it was given (`Entered`): its keys into the tables, a record
  for each of its pages, its links in both directions.  Behind it anything may happen, and all of
  it is still there (`nothing_lost`).  This is the other half of `stores_sourced`; together they
  say exactly which URLs and words have an ID (`tables_exact`).
-/
import SearchEngine.Provenance
import SearchEngine.Pipeline
import SearchEngine.Batching
import Mathlib.Tactic.Common

namespace SearchEngine

open Text Numeral Effect Postings InvertedIndexer NumberedMap

variable {E : Platform} {call : Call} {s s' s'' : Stores}

/-! ## An order that writes respect -/

/-- All of `s` but the postings is still there in `s'`. -/
structure Retained (s s' : Stores) : Prop where
  entries : Grows s s'
  records : ∀ p ∈ s .forwardIndex, p ∈ s' .forwardIndex
  children : ∀ p ∈ s .parentChildIndex, p ∈ s' .parentChildIndex
  parents : ∀ k, ∀ p ∈ parents s k, p ∈ SearchEngine.parents s' k

theorem Retained.refl (s : Stores) : Retained s s :=
  ⟨fun _ _ _ hid => hid, fun _ hp => hp, fun _ hp => hp, fun _ _ hp => hp⟩

theorem Retained.trans (h : Retained s s') (h' : Retained s' s'') : Retained s s'' :=
  ⟨fun t key id hid => h'.entries t key id (h.entries t key id hid),
    fun p hp => h'.records p (h.records p hp), fun p hp => h'.children p (h.children p hp),
    fun k p hp => h'.parents k p (h.parents k p hp)⟩

/-- The stores can be read back: postings, and links. -/
def Readable (s : Stores) : Prop := IndexOk s ∧ LinksOk s

theorem readable_empty : Readable Stores.empty := ⟨indexOk_empty, linksOk_empty⟩

/-- What a write does to the parents of a page. -/
theorem Write.parents_kept (h : Write E call s s') (hs : Readable s) :
    (∀ c v : Str, (s' .parentChildIndexInverted)[c]? = some v →
      ∃ ps, ps ≠ [] ∧ (∀ p ∈ ps, IsDigits p) ∧ v = joined ps) ∧
    ∀ k, ∀ p ∈ parents s k, p ∈ parents s' k := by
  rcases h.parents_cases with hsame | ⟨c, -, link, -, p, k, hp, -, hput⟩
  · rw [hsame]
    refine ⟨hs.2.parents, fun k p hp => ?_⟩
    unfold parents
    rw [hsame]
    exact hp
  · have hdigits : IsDigits p := hs.1.isDigits (t := .page) ⟨c.url, hp⟩
    obtain ⟨hok, hparents⟩ := hs.2.put_parent hdigits k
    rw [← Stores.put_same s .parentChildIndexInverted] at hput
    refine ⟨fun c' v hv => ?_, fun k' p' hp' => ?_⟩
    · rw [hput] at hv
      exact hok.parents c' v hv
    · have hread := hparents k'
      unfold parents at hread ⊢
      rw [hput, hread]
      split
      · exact List.mem_append_left _ hp'
      · exact hp'

/-- What a write does to the children of a page. -/
theorem Write.children_kept (h : Write E call s s') (hs : Readable s) :
    ∀ p v : Str, (s' .parentChildIndex)[p]? = some v →
      ∃ cs, cs ≠ [] ∧ (∀ c ∈ cs, IsDigits c) ∧ v = listed cs := by
  rcases h.children_cases with hsame | ⟨c, -, p, hne, -, hlinks, hput⟩
  · rw [hsame]
    exact hs.2.children
  · intro p' v hv
    rw [hput, get_insert] at hv
    split at hv
    · refine ⟨_, by simpa using hne, fun id hid => ?_, (Option.some.inj hv).symm⟩
      obtain ⟨link, hlink, rfl⟩ := List.mem_map.mp hid
      exact hs.1.isDigits (t := .page) ⟨link, get_pageIDOf (hlinks link hlink)⟩
    · exact hs.2.children p' v hv

/-- **A write respects the order.** -/
theorem Write.retained (h : Write E call s s') (hs : Readable s) :
    Readable s' ∧ Retained s s' := by
  have hok : IndexOk s' := kept_indexOk E call s s' h hs.1
  obtain ⟨hparents, hkept⟩ := h.parents_kept hs
  refine ⟨⟨hok, hok.tables .page, h.children_kept hs, hparents⟩, h.grows, fun p hp => ?_,
    fun p hp => ?_, hkept⟩
  · rcases h.forwardIndex_cases with hsame | ⟨c, -, p', v, -, -, hput⟩
    · rwa [hsame]
    · rw [hput]
      exact Std.ExtTreeMap.mem_insert.mpr (Or.inr hp)
  · rcases h.children_cases with hsame | ⟨c, -, p', -, -, -, hput⟩
    · rwa [hsame]
    · rw [hput]
      exact Std.ExtTreeMap.mem_insert.mpr (Or.inr hp)

/-- **So does an attempt**, wherever it stops. -/
theorem Attempt.retained (a : Attempt) (hs : Readable s) :
    Readable (a.after E s) ∧ Retained s (a.after E s) :=
  Kept.after (I := fun s' => Readable s' ∧ Retained s s')
    (fun _ _ hwrite hs' => ⟨(hwrite.retained hs'.1).1, hs'.2.trans (hwrite.retained hs'.1).2⟩)
    ⟨hs, Retained.refl s⟩

theorem retained_runAll (E : Platform) : ∀ (run : List Attempt) {s : Stores}, Readable s →
    Readable (runAll E run s) ∧ Retained s (runAll E run s)
  | [], s, hs => ⟨hs, Retained.refl s⟩
  | a :: run, s, hs => by
    obtain ⟨hs₁, hkept₁⟩ := a.retained (E := E) hs
    obtain ⟨hs₂, hkept₂⟩ := retained_runAll E run hs₁
    exact ⟨hs₂, hkept₁.trans hkept₂⟩

/-! ## What a call that returns has entered -/

/-- All that the call was given, but for the postings. -/
structure Entered (E : Platform) (call : Call) (s : Stores) : Prop where
  urls : ∀ url ∈ call.urls, url ∈ s .document
  words : ∀ w ∈ call.words E, w ∈ s .word
  records : ∀ c ∈ call.forwarded, HasRecord s c.url
  children : ∀ c ∈ call.linked, c.links ≠ [] →
    ∃ p : Str, (s .document)[c.url]? = some p ∧ p ∈ s .parentChildIndex
  parents : ∀ c ∈ call.linked, ∀ link ∈ c.links, ∃ p k : Str,
    (s .document)[c.url]? = some p ∧ (s .document)[link]? = some k ∧ p ∈ parents s k

/-- It stays entered. -/
theorem Entered.mono (h : Entered E call s) (hkept : Retained s s') : Entered E call s' where
  urls url hurl := by
    obtain ⟨id, hid⟩ := mem_iff_get.mp (h.urls url hurl)
    exact mem_iff_get.mpr ⟨id, hkept.entries .page url id hid⟩
  words w hw := by
    obtain ⟨id, hid⟩ := mem_iff_get.mp (h.words w hw)
    exact mem_iff_get.mpr ⟨id, hkept.entries .word w id hid⟩
  records c hc := by
    obtain ⟨id, hid, hrecord⟩ := h.records c hc
    exact ⟨id, hkept.entries .page _ id hid, hkept.records id hrecord⟩
  children c hc hne := by
    obtain ⟨p, hp, hchildren⟩ := h.children c hc hne
    exact ⟨p, hkept.entries .page _ p hp, hkept.children p hchildren⟩
  parents c hc link hlink := by
    obtain ⟨p, k, hp, hk, hparent⟩ := h.parents c hc link hlink
    exact ⟨p, k, hkept.entries .page _ p hp, hkept.entries .page _ k hk,
      hkept.parents k p hparent⟩

/-- A batch has entered what its pages would have, one by one. -/
theorem entered_batch (one : Crawler → Call) (all : List Crawler → Call)
    (hexec : ∀ crawlers, (all crawlers).exec E = crawlers.foldlM (fun _ c => (one c).exec E) ())
    (hone : ∀ c {x x' : World}, (one c).exec E x = .ok () x' → Readable x.stores →
      Entered E (one c) x'.stores) :
    ∀ (crawlers : List Crawler) {x x' : World}, (all crawlers).exec E x = .ok () x' →
      Readable x.stores → ∀ c ∈ crawlers, Entered E (one c) x'.stores
  | [], _, _, _, _ => fun _ hc => absurd hc List.not_mem_nil
  | c :: crawlers, x, x', hrun, hx => by
    rw [hexec] at hrun
    obtain ⟨u, x₁, hstep, hrest⟩ := foldlM_cons_ok.mp hrun
    -- the first page and the rest of the batch are attempts of their own
    have hfirst : Attempt.after E ⟨one c, x.faults⟩ x.stores = x₁.stores := by
      show (finalState ((one c).exec E x)).stores = x₁.stores
      rw [hstep]
      rfl
    have hlater : Attempt.after E ⟨all crawlers, x₁.faults⟩ x₁.stores = x'.stores := by
      show (finalState ((all crawlers).exec E x₁)).stores = x'.stores
      rw [hexec, hrest]
      rfl
    have hx₁ : Readable x₁.stores := hfirst ▸ (Attempt.retained ⟨one c, x.faults⟩ hx).1
    have hkept : Retained x₁.stores x'.stores :=
      hlater ▸ (Attempt.retained ⟨all crawlers, x₁.faults⟩ hx₁).2
    intro c' hc'
    rcases List.mem_cons.mp hc' with rfl | hc'
    · exact (hone c' hstep hx).mono hkept
    · refine entered_batch one all hexec hone crawlers (x := x₁) ?_ hx₁ c' hc'
      rw [hexec]
      exact hrest

/-- A call that indexes no page and no link. -/
theorem entered_keys (hforwarded : call.forwarded = []) (hlinked : call.linked = [])
    (hurls : ∀ url ∈ call.urls, url ∈ s .document) (hwords : ∀ w ∈ call.words E, w ∈ s .word) :
    Entered E call s where
  urls := hurls
  words := hwords
  records c hc := by
    rw [hforwarded] at hc
    cases hc
  children c hc := by
    rw [hlinked] at hc
    cases hc
  parents c hc := by
    rw [hlinked] at hc
    cases hc

/-- Each key that is numbered in turn. -/
theorem mem_of_foldlM {t : Table} {keys : List Str} {n n' : Nat} {x x' : World}
    (h : keys.foldlM (assignID t.fwd t.inv) n x = .ok n' x') {key : Str} (hkey : key ∈ keys) :
    key ∈ x'.stores t.fwd := by
  obtain ⟨-, hall, -⟩ := foldlM_assignID_ok keys n n' x x' h
  exact mem_iff_get.mpr (hall key hkey)

theorem mem_of_addID {t : Table} {key : Str} {x x' : World} {u : Unit}
    (h : addID t.fwd t.inv key x = .ok u x') : key ∈ x'.stores t.fwd := by
  obtain ⟨n, x₁, -, h⟩ := bind_ok.mp h
  obtain ⟨n', x₂, hassign, hpure⟩ := bind_ok.mp h
  obtain ⟨-, rfl⟩ := pure_ok.mp hpure
  obtain ⟨-, hid, -⟩ := assignID_ok hassign
  exact mem_iff_get.mpr hid

/-- The words of a page. -/
theorem addWords_enters {c : Crawler} {n n' : Nat} {x x' : World}
    (h : WordIndexer.addWords E n c x = .ok n' x') :
    (∀ w k : Str, (x.stores .word)[w]? = some k → (x'.stores .word)[w]? = some k) ∧
      ∀ w ∈ allWords E c, w ∈ x'.stores .word := by
  obtain ⟨title, htitle, h⟩ := lift_bind_ok.mp h
  obtain ⟨n₁, x₁, hloop, h⟩ := bind_ok.mp h
  obtain ⟨content, hcontent, hloop'⟩ := lift_bind_ok.mp h
  obtain ⟨hmono, hall, -⟩ := foldlM_assignID_ok (t := .word) title n n₁ x x₁ hloop
  obtain ⟨hmono', hall', -⟩ := foldlM_assignID_ok (t := .word) content n₁ n' x₁ x' hloop'
  refine ⟨fun w k hk => hmono' w k (hmono w k hk), fun w hw => mem_iff_get.mpr ?_⟩
  obtain ⟨f, hw⟩ := mem_allWords.mp hw
  cases f with
  | title =>
    obtain ⟨k, hk⟩ := hall w ((mem_wordsIn (f := .title) htitle).mp hw)
    exact ⟨k, hmono' w k hk⟩
  | content => exact hall' w ((mem_wordsIn (f := .content) hcontent).mp hw)

theorem foldlM_addWords_enters : ∀ (crawlers : List Crawler) {n n' : Nat} {x x' : World},
    crawlers.foldlM (WordIndexer.addWords E) n x = .ok n' x' →
    (∀ w k : Str, (x.stores .word)[w]? = some k → (x'.stores .word)[w]? = some k) ∧
      ∀ c ∈ crawlers, ∀ w ∈ allWords E c, w ∈ x'.stores .word
  | [], _, _, x, x', h => by
    obtain ⟨-, rfl⟩ := pure_ok.mp h
    exact ⟨fun _ _ hk => hk, fun _ hc => absurd hc List.not_mem_nil⟩
  | c :: crawlers, n, n', x, x', h => by
    obtain ⟨n₁, x₁, hstep, hrest⟩ := foldlM_cons_ok.mp h
    obtain ⟨hmono, hmem⟩ := addWords_enters hstep
    obtain ⟨hmono', hmem'⟩ := foldlM_addWords_enters crawlers hrest
    refine ⟨fun w k hk => hmono' w k (hmono w k hk), fun c' hc' w hw => ?_⟩
    rcases List.mem_cons.mp hc' with rfl | hc'
    · obtain ⟨k, hk⟩ := mem_iff_get.mp (hmem w hw)
      exact mem_iff_get.mpr ⟨k, hmono' w k hk⟩
    · exact hmem' c' hc' w hw

/-- A page with a record. -/
theorem entered_forward {c : Crawler} {x x' : World}
    (h : ForwardIndexer.addEntry E c x = .ok () x') :
    Entered E (.forwardAddEntry c) x'.stores := by
  obtain ⟨title, date, size, content, links, cleaned, hc, hadd⟩ := forwardAddEntry_cases h
  have htoks : Field.content.tokens E c = .ok cleaned := by
    rw [hc]
    exact hadd.clean
  refine ⟨fun url hurl => ?_, fun w hw => ?_, fun c' hc' => ?_,
    fun _ hc' => absurd hc' List.not_mem_nil, fun _ hc' => absurd hc' List.not_mem_nil⟩
  · rw [List.mem_singleton.mp hurl]
    exact mem_iff_get.mpr ⟨_, hadd.pageID⟩
  · exact mem_iff_get.mpr (hadd.issued w ((mem_wordsIn htoks).mp hw))
  · rw [List.mem_singleton.mp hc']
    exact forwardAddEntry_hasRecord h

theorem entered_inverted {c : Crawler} {x x' : World}
    (h : InvertedIndexer.addEntry E c x = .ok () x') (hx : Readable x.stores) :
    Entered E (.invertedAddEntry c) x'.stores := by
  obtain ⟨toks, hadd⟩ := addEntry_postings h hx.1
  refine entered_keys rfl rfl (fun url hurl => ?_) (fun w hw => ?_)
  · rw [List.mem_singleton.mp hurl]
    exact mem_iff_get.mpr ⟨_, hadd.pageID⟩
  · obtain ⟨f, hw⟩ := mem_allWords.mp hw
    exact mem_iff_get.mpr (hadd.issued f w ((mem_wordsIn (hadd.tokens f)).mp hw))

/-- A page with its links. -/
theorem entered_links {c : Crawler} {x x' : World}
    (h : ParentChildIndexer.addEntry c x = .ok () x') (hx : Readable x.stores) :
    Entered E (.parentChildAddEntry c) x'.stores := by
  obtain ⟨-, hnamed, hrecord⟩ := addEntry_named h
  have hadd := addEntry_linked h hx.2
  have hself := document_addEntry h
  refine ⟨fun url hurl => ?_, fun _ hw => absurd hw List.not_mem_nil,
    fun _ hc' => absurd hc' List.not_mem_nil, fun c' hc' hne => ?_, fun c' hc' link hlink => ?_⟩
  · exact (hnamed url).mpr (Or.inl (List.mem_cons.mp hurl))
  · obtain rfl := List.mem_singleton.mp hc'
    exact ⟨_, hself, mem_iff_get.mpr ⟨_, hrecord hne⟩⟩
  · obtain rfl := List.mem_singleton.mp hc'
    have hmem : link ∈ x'.stores .document := (hnamed link).mpr (Or.inl (Or.inr hlink))
    refine ⟨_, _, hself, get_pageIDOf hmem, ?_⟩
    rw [hadd.parents]
    refine List.mem_append_right _ (List.mem_replicate.mpr ⟨?_, rfl⟩)
    exact (List.count_pos_iff.mpr (List.mem_map_of_mem hlink)).ne'

/-- **A call that returns has entered all it was given.** -/
theorem entered_of_ok {x x' : World} (h : call.exec E x = .ok () x') (hx : Readable x.stores) :
    Entered E call x'.stores := by
  cases call with
  | documentAddEntry c =>
    refine entered_keys rfl rfl (fun url hurl => ?_) (fun _ hw => absurd hw List.not_mem_nil)
    rw [List.mem_singleton.mp hurl]
    exact mem_of_addID (t := .page) h
  | documentAddEntryString s =>
    refine entered_keys rfl rfl (fun url hurl => ?_) (fun _ hw => absurd hw List.not_mem_nil)
    rw [List.mem_singleton.mp hurl]
    exact mem_of_addID (t := .page) h
  | documentIndexPages crawlers =>
    refine entered_keys rfl rfl (fun url hurl => ?_) (fun _ hw => absurd hw List.not_mem_nil)
    obtain ⟨n, x₁, -, h⟩ := bind_ok.mp h
    obtain ⟨n', x₂, hloop, hpure⟩ := bind_ok.mp h
    obtain ⟨-, rfl⟩ := pure_ok.mp hpure
    rw [← List.foldlM_map] at hloop
    exact mem_of_foldlM (t := .page) hloop hurl
  | wordAddEntry newWord =>
    refine entered_keys rfl rfl (fun _ hurl => absurd hurl List.not_mem_nil) (fun w hw => ?_)
    rw [List.mem_singleton.mp hw]
    exact mem_of_addID (t := .word) h
  | wordAddEntryCrawler c =>
    refine entered_keys rfl rfl (fun _ hurl => absurd hurl List.not_mem_nil) (fun w hw => ?_)
    obtain ⟨n, x₁, -, h⟩ := bind_ok.mp h
    obtain ⟨n', x₂, hwords, hpure⟩ := bind_ok.mp h
    obtain ⟨-, rfl⟩ := pure_ok.mp hpure
    exact (addWords_enters hwords).2 w hw
  | wordIndexWords crawlers =>
    refine entered_keys rfl rfl (fun _ hurl => absurd hurl List.not_mem_nil) (fun w hw => ?_)
    obtain ⟨n, x₁, -, h⟩ := bind_ok.mp h
    obtain ⟨n', x₂, hloop, hpure⟩ := bind_ok.mp h
    obtain ⟨-, rfl⟩ := pure_ok.mp hpure
    obtain ⟨c, hc, hw⟩ := List.mem_flatMap.mp hw
    exact (foldlM_addWords_enters crawlers hloop).2 c hc w hw
  | forwardAddEntry c => exact entered_forward h
  | forwardIndexPages crawlers =>
    have hall := entered_batch .forwardAddEntry .forwardIndexPages (fun _ => rfl)
      (fun c _ _ hrun _ => entered_forward hrun) crawlers h hx
    refine ⟨fun url hurl => ?_, fun w hw => ?_, fun c hc => ?_,
      fun _ hc => absurd hc List.not_mem_nil, fun _ hc => absurd hc List.not_mem_nil⟩
    · obtain ⟨c, hc, rfl⟩ := List.mem_map.mp hurl
      exact (hall c hc).urls _ (List.mem_singleton_self c.url)
    · obtain ⟨c, hc, hw⟩ := List.mem_flatMap.mp hw
      exact (hall c hc).words w hw
    · exact (hall c hc).records c (List.mem_singleton_self c)
  | invertedAddEntry c => exact entered_inverted h hx
  | invertedIndexPages crawlers =>
    have hall := entered_batch .invertedAddEntry .invertedIndexPages (fun _ => rfl)
      (fun c _ _ hrun hx => entered_inverted hrun hx) crawlers h hx
    refine entered_keys rfl rfl (fun url hurl => ?_) (fun w hw => ?_)
    · obtain ⟨c, hc, rfl⟩ := List.mem_map.mp hurl
      exact (hall c hc).urls _ (List.mem_singleton_self c.url)
    · obtain ⟨c, hc, hw⟩ := List.mem_flatMap.mp hw
      exact (hall c hc).words w hw
  | parentChildAddEntry c => exact entered_links h hx
  | parentChildIndexPages crawlers =>
    have hall := entered_batch .parentChildAddEntry .parentChildIndexPages (fun _ => rfl)
      (fun c _ _ hrun hx => entered_links hrun hx) crawlers h hx
    refine ⟨fun url hurl => ?_, fun _ hw => absurd hw List.not_mem_nil,
      fun _ hc => absurd hc List.not_mem_nil, fun c hc => ?_, fun c hc => ?_⟩
    · obtain ⟨c, hc, hurl⟩ := mem_mentioned.mp hurl
      exact (hall c hc).urls url (List.mem_cons.mpr hurl)
    · exact (hall c hc).children c (List.mem_singleton_self c)
    · exact (hall c hc).parents c (List.mem_singleton_self c)

/-- Any attempt of a run that returned, with all that came behind it. -/
theorem entered_runAll (E : Platform) (earlier later : List Attempt) (a : Attempt)
    (hret : returns (a.outcome E (runAll E earlier Stores.empty)) = true) :
    Entered E a.call (runAll E (earlier ++ a :: later) Stores.empty) := by
  obtain ⟨hx, -⟩ := retained_runAll E earlier readable_empty
  obtain ⟨x, hrun, hafter⟩ := Attempt.ok_of_returns hret
  have hentered : Entered E a.call (a.after E (runAll E earlier Stores.empty)) := by
    rw [hafter]
    exact entered_of_ok hrun hx
  have hlater := retained_runAll E later (a.retained (E := E) hx).1
  rw [runAll, List.foldl_append]
  exact hentered.mono hlater.2

/-- **Nothing is lost.**  Take any run from empty stores and any call in it that returned.
    Whatever came before and behind, other pages and the same ones, broken off anywhere: every URL
    and word the call mentions has an ID at the end; each page it put into the forward index has a
    record under its ID; each page it put into the link indexes has children if it had links, and
    is among the parents of each of its links. -/
theorem nothing_lost (E : Platform) (earlier later : List Attempt) (a : Attempt)
    (hret : returns (a.outcome E (runAll E earlier Stores.empty)) = true) :
    let s := runAll E (earlier ++ a :: later) Stores.empty
    (∀ (t : Table) (key : Str), a.call.Mentions E t key → key ∈ s t.fwd) ∧
    (∀ c ∈ a.call.forwarded, ∃ p : Str, (s .document)[c.url]? = some p ∧ p ∈ s .forwardIndex) ∧
    (∀ c ∈ a.call.linked, c.links ≠ [] →
      ∃ p : Str, (s .document)[c.url]? = some p ∧ p ∈ s .parentChildIndex) ∧
    ∀ c ∈ a.call.linked, ∀ link ∈ c.links, ∃ p k : Str,
      (s .document)[c.url]? = some p ∧ (s .document)[link]? = some k ∧ p ∈ parents s k := by
  intro s
  have h : Entered E a.call s := entered_runAll E earlier later a hret
  refine ⟨fun t key hkey => ?_, h.records, h.children, h.parents⟩
  cases t with
  | page => exact h.urls key hkey
  | word => exact h.words key hkey

/-- A page is still a parent of its link after a second attempt at it has failed at once. -/
theorem parent_kept_after_failure :
    let s := runAll asciiPlatform ([] ++ ⟨.parentChildAddEntry linkingPage, []⟩ ::
      [⟨.parentChildAddEntry linkingPage, [true]⟩]) Stores.empty
    ∃ p k : Str, (s .document)[['a']]? = some p ∧ (s .document)[['b']]? = some k ∧
      p ∈ parents s k := by
  intro s
  have hret : NoneAborted asciiPlatform (linkRun [(linkingPage, [])]) Stores.empty := by
    refine noneAborted_linkRun [linkingPage] _ (fun c hc => ⟨[['b']], ?_⟩)
    rw [List.mem_singleton.mp hc]
    rfl
  obtain ⟨-, -, -, hparents⟩ := nothing_lost asciiPlatform []
    [⟨.parentChildAddEntry linkingPage, [true]⟩] ⟨.parentChildAddEntry linkingPage, []⟩ hret.1
  exact hparents linkingPage (List.mem_singleton_self _) ['b'] (List.mem_singleton_self _)

/-- Any attempt of a run without aborts is one that returned. -/
theorem NoneAborted.split : ∀ {run : List Attempt} {s : Stores}, NoneAborted E run s →
    ∀ a ∈ run, ∃ earlier later, run = earlier ++ a :: later ∧
      returns (a.outcome E (runAll E earlier s)) = true
  | [], _, _ => fun _ ha => absurd ha List.not_mem_nil
  | b :: run, s, h => by
    intro a ha
    rcases List.mem_cons.mp ha with rfl | ha
    · exact ⟨[], run, rfl, h.1⟩
    · obtain ⟨earlier, later, rfl, hret⟩ := h.2.split a ha
      exact ⟨b :: earlier, later, rfl, hret⟩

/-- **Exactly what is mentioned has an ID.**  After any run from empty stores whose calls all
    return, of all indexers in any order: the URLs with an ID are those that the calls name, and
    the words with an ID are those of the pages whose words the calls index. -/
theorem tables_exact (E : Platform) (run : List Attempt) (hret : NoneAborted E run Stores.empty)
    (t : Table) (key : Str) :
    key ∈ runAll E run Stores.empty t.fwd ↔ ∃ a ∈ run, a.call.Mentions E t key := by
  constructor
  · intro hkey
    obtain ⟨id, hid⟩ := mem_iff_get.mp hkey
    exact (sourced_runAll E run).tables t key id hid
  · rintro ⟨a, ha, hkey⟩
    obtain ⟨earlier, later, rfl, hreturned⟩ := hret.split a ha
    have hentered := entered_runAll E earlier later a hreturned
    cases t with
    | page => exact hentered.urls key hkey
    | word => exact hentered.words key hkey

/-- The pages of a batch have IDs, and no other page has. -/
theorem tables_two_pages :
    let s := runAll asciiPlatform
      [⟨.forwardIndexPages twoPages, []⟩, ⟨.invertedIndexPages twoPages, []⟩] Stores.empty
    ['a'] ∈ s .document ∧ ['c'] ∉ s .document := by
  intro s
  have hiff := tables_exact asciiPlatform _ twoPages_indexed .page
  have hurls : twoPages.map Crawler.url = [['a'], ['b']] := rfl
  refine ⟨(hiff ['a']).mpr ⟨_, List.mem_cons_self, ?_⟩, fun hmem => ?_⟩
  · show ['a'] ∈ twoPages.map Crawler.url
    rw [hurls]
    decide
  · obtain ⟨a, ha, hkey⟩ := (hiff ['c']).mp hmem
    replace hkey : ['c'] ∈ twoPages.map Crawler.url := by
      rcases List.mem_pair.mp ha with rfl | rfl
      · exact hkey
      · exact hkey
    rw [hurls] at hkey
    exact absurd hkey (by decide)

end SearchEngine
