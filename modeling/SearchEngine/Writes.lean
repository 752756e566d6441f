/-
  What a call may write, one `put` at a time.

  A call of an indexer runs through loops, flags and lookups, and it may be cut short before any of
  its `put`s.  All that matters to the stores is a relation: `Write E call s s'` lists the six
  kinds of `put` a call can make and what is known at each of them, namely which page of the call
  it is for, and that the IDs it uses are in the tables already.  `attempt_writes` is the
  refinement: whatever the faults, an attempt takes the stores along a path of such writes, and
  stops somewhere on it.  So an invariant of whole runs has to be checked on six single `put`s,
  and on nothing else (`Kept.after`).
-/
import SearchEngine.WebGraph
import SearchEngine.ForwardInverted
import Mathlib.Logic.Relation
import Mathlib.Tactic.Common

namespace SearchEngine

open Text Numeral Effect InvertedIndexer NumberedMap

/-! ## What a call is given -/

/-- The cleaned words of a page's title or content. -/
def wordsIn (E : Platform) (f : Field) (c : Crawler) : List Str :=
  match f.tokens E c with
  | .ok toks => toks
  | .error _ => []

/-- The cleaned words of a page, title and content. -/
def allWords (E : Platform) (c : Crawler) : List Str := wordsIn E .title c ++ wordsIn E .content c

theorem mem_allWords {E : Platform} {c : Crawler} {w : Str} :
    w ∈ allWords E c ↔ ∃ f : Field, w ∈ wordsIn E f c := by
  rw [allWords, List.mem_append]
  constructor
  · rintro (hw | hw)
    · exact ⟨.title, hw⟩
    · exact ⟨.content, hw⟩
  · rintro ⟨f, hw⟩
    cases f with
    | title => exact Or.inl hw
    | content => exact Or.inr hw

theorem wordsIn_eq {E : Platform} {f : Field} {c : Crawler} {toks : List Str}
    (htoks : f.tokens E c = .ok toks) : wordsIn E f c = toks := by
  rw [wordsIn, htoks]

theorem mem_wordsIn {E : Platform} {f : Field} {c : Crawler} {toks : List Str}
    (htoks : f.tokens E c = .ok toks) {w : Str} : w ∈ wordsIn E f c ↔ w ∈ toks := by
  rw [wordsIn_eq htoks]

namespace Call

/-- The pages that go into the inverted indexes. -/
def inverted : Call → List Crawler
  | .invertedAddEntry c => [c]
  | .invertedIndexPages crawlers => crawlers
  | _ => []

/-- The pages that get a record. -/
def forwarded : Call → List Crawler
  | .forwardAddEntry c => [c]
  | .forwardIndexPages crawlers => crawlers
  | _ => []

/-- The pages that go into the link indexes. -/
def linked : Call → List Crawler
  | .parentChildAddEntry c => [c]
  | .parentChildIndexPages crawlers => crawlers
  | _ => []

/-- The URLs a call may give an ID to. -/
def urls : Call → List Str
  | .documentAddEntry c => [c.url]
  | .documentAddEntryString s => [s]
  | .documentIndexPages crawlers => crawlers.map Crawler.url
  | .forwardAddEntry c => [c.url]
  | .forwardIndexPages crawlers => crawlers.map Crawler.url
  | .invertedAddEntry c => [c.url]
  | .invertedIndexPages crawlers => crawlers.map Crawler.url
  | .parentChildAddEntry c => c.url :: c.links
  | .parentChildIndexPages crawlers => mentioned crawlers
  | _ => []

/-- The words a call may give an ID to. -/
def words (E : Platform) : Call → List Str
  | .wordAddEntry newWord => [newWord]
  | .wordAddEntryCrawler c => allWords E c
  | .wordIndexWords crawlers => crawlers.flatMap (allWords E)
  | .forwardAddEntry c => wordsIn E .content c
  | .forwardIndexPages crawlers => crawlers.flatMap (wordsIn E .content)
  | .invertedAddEntry c => allWords E c
  | .invertedIndexPages crawlers => crawlers.flatMap (allWords E)
  | _ => []

/-- The keys a call may enter into a table. -/
def Mentions (E : Platform) (call : Call) : Table → Str → Prop
  | .page, key => key ∈ call.urls
  | .word, key => key ∈ call.words E

end Call

/-! ## The writes -/

/-- One `put` of a call. -/
inductive Write (E : Platform) (call : Call) (s : Stores) : Stores → Prop
  /-- A key without an ID gets the next one. -/
  | number (t : Table) (key : Str) (hkey : call.Mentions E t key)
      (hnew : (s t.fwd)[key]? = none) : Write E call s (s.issueFwd t key)
  /-- An ID is entered into the inverse table. -/
  | inverse (t : Table) (key id : Str) (hkey : call.Mentions E t key)
      (hid : (s t.fwd)[key]? = some id) : Write E call s (s.put t.inv id key)
  /-- The value of a word is rewritten for a page that has the word. -/
  | posting (f : Field) (c : Crawler) (w p k : Str) (v : Loop) (hc : c ∈ call.inverted)
      (hw : w ∈ wordsIn E f c) (hp : (s .document)[c.url]? = some p)
      (hk : (s .word)[w]? = some k) :
      Write E call s (s.put f.db k (newValue p k v (s f.db)[k]?).1)
  /-- The record of a page, with the IDs its words have by now. -/
  | record (c : Crawler) (p v : Str) (hc : c ∈ call.forwarded)
      (hp : (s .document)[c.url]? = some p) (hv : Recorded E c p (s.put .forwardIndex p v)) :
      Write E call s (s.put .forwardIndex p v)
  /-- A page is entered among the parents of one of its links. -/
  | parent (c : Crawler) (link p k : Str) (hc : c ∈ call.linked) (hlink : link ∈ c.links)
      (hp : (s .document)[c.url]? = some p) (hk : (s .document)[link]? = some k) :
      Write E call s (s.put .parentChildIndexInverted k
        (newParents (s .parentChildIndexInverted)[k]? p))
  /-- The children of a page, all its links. -/
  | children (c : Crawler) (p : Str) (hc : c ∈ call.linked) (hne : c.links ≠ [])
      (hp : (s .document)[c.url]? = some p) (hlinks : ∀ link ∈ c.links, link ∈ s .document) :
      Write E call s (s.put .parentChildIndex p (listed (c.links.map (pageIDOf s))))

/-- What holds before a write of the call holds behind it. -/
def Kept (E : Platform) (call : Call) (I : Stores → Prop) : Prop :=
  ∀ s s', Write E call s s' → I s → I s'

variable {E : Platform} {call : Call} {I : Stores → Prop}

/-- No write changes or removes an entry of the two tables. -/
theorem kept_entry (E : Platform) (call : Call) (t : Table) (key id : Str) :
    Kept E call (fun s => (s t.fwd)[key]? = some id) := by
  intro s s' hwrite hs
  show (s' t.fwd)[key]? = some id
  have hindex : ∀ {d : Db} (k v : Str), d ≠ t.fwd → (s.put d k v t.fwd)[key]? = some id := by
    intro d k v hd
    rw [Stores.put_other s (Ne.symm hd)]
    exact hs
  cases hwrite with
  | number t' key' hkey hnew =>
    by_cases ht : t' = t
    · subst ht
      rw [Stores.issueFwd_fwd]
      exact Stores.get_insert_of_none hnew hs
    · rw [Stores.issueFwd_other s key' (Table.fwd_ne_of_ne (Ne.symm ht))]
      exact hs
  | inverse t' key' id' hkey hid => exact hindex _ _ (t'.inv_ne_fwd t)
  | posting f c w p k v hc hw hp hk => exact hindex _ _ (f.db_ne_fwd t)
  | record c p v hc hp hv => exact hindex _ _ (by cases t <;> decide)
  | parent c link p k hc hlink hp hk => exact hindex _ _ (by cases t <;> decide)
  | children c p hc hne hp hlinks => exact hindex _ _ (by cases t <;> decide)

theorem Kept.and {J : Stores → Prop} (h : Kept E call I) (h' : Kept E call J) :
    Kept E call (fun s => I s ∧ J s) :=
  fun s s' hwrite hs => ⟨h s s' hwrite hs.1, h' s s' hwrite hs.2⟩

/-! ## Every call is made of writes -/

namespace Kept

theorem assignID (h : Kept E call I) {t : Table} {key : Str} (hkey : call.Mentions E t key)
    (n : Nat) : Triple (AtCount I t n) (assignID t.fwd t.inv n key) (AtCount I t)
      (fun x => I x.stores) := by
  rintro x ⟨hI, rfl⟩
  rcases assignID_cases t (x.stores t.fwd).size key x with
    ⟨id, -, hrun⟩ | ⟨hnone, ⟨fs, hrun⟩ | ⟨fs, hrun⟩ | ⟨fs, hrun⟩⟩
  · rw [hrun]
    exact ⟨hI, rfl⟩
  · rw [hrun]
    exact hI
  · rw [hrun]
    exact h _ _ (.number t key hkey hnone) hI
  · rw [hrun]
    refine ⟨?_, (Stores.size_issueBoth hnone).symm⟩
    have hfwd : (x.stores.issueFwd t key t.fwd)[key]?
        = some (decimal ((x.stores t.fwd).size + 1)) := by
      rw [Stores.issueFwd_fwd]
      exact get_insert_self _ _ _
    exact h _ _ (.inverse t key _ hkey hfwd) (h _ _ (.number t key hkey hnone) hI)

theorem addID (h : Kept E call I) {t : Table} {key : Str} (hkey : call.Mentions E t key) :
    Triple (fun x => I x.stores) (addID t.fwd t.inv key) (fun _ x => I x.stores)
      (fun x => I x.stores) := by
  refine Triple.bind (count_atCount t) (fun n => ?_)
  refine Triple.bind (h.assignID hkey n) (fun n' => ?_)
  exact Triple.pure (fun x hx => hx.1)

theorem ensureID (h : Kept E call I) {t : Table} {key : Str} (hkey : call.Mentions E t key) :
    Triple (fun x => I x.stores) (ensureID t.fwd t.inv key)
      (fun id x => I x.stores ∧ (x.stores t.fwd)[key]? = some id) (fun x => I x.stores) := by
  refine Triple.bind (Db.get_triple (R := fun (x : World) => I x.stores)) (fun o => ?_)
  cases o with
  | some id => exact Triple.pure (fun x hx => ⟨hx.1, hx.2.symm⟩)
  | none =>
    refine Triple.bind ((h.addID hkey).weaken (fun x hx => hx.1) (fun _ _ hx => hx)
      (fun _ hx => hx)) (fun _ => ?_)
    exact Db.fetch_triple

/-- One turn of the posting loop. -/
theorem addToken (h : Kept E call I) {f : Field} {c : Crawler} (hc : c ∈ call.inverted)
    {w : Str} (hw : w ∈ wordsIn E f c) (hword : call.Mentions E .word w) (p : Str) (v : Loop) :
    Triple (fun x => I x.stores ∧ (x.stores .document)[c.url]? = some p)
      (InvertedIndexer.addToken f p v w)
      (fun _ x => I x.stores ∧ (x.stores .document)[c.url]? = some p) (fun x => I x.stores) := by
  have hentry : Kept E call (fun s => (s .document)[c.url]? = some p) :=
    kept_entry E call .page c.url p
  refine Triple.bind (((h.and hentry).ensureID (t := .word) hword).weaken (fun _ hx => hx)
    (fun _ _ hx => hx) (fun _ hx => hx.1)) (fun k => ?_)
  refine Triple.bind (Db.get_triple (R := fun (x : World) => I x.stores)) (fun value => ?_)
  refine Triple.bind
    (Q := fun _ (x : World) => I x.stores ∧ (x.stores .document)[c.url]? = some p) ?_
    (fun _ => Triple.pure (fun x hx => hx))
  apply Db.put_triple
  · rintro x fs ⟨⟨hx, hk⟩, hvalue⟩
    rw [hvalue]
    exact (h.and hentry) _ _ (.posting f c w p k v hc hw hx.2 hk) hx
  · rintro x fs ⟨⟨hx, -⟩, -⟩
    exact hx.1

theorem addTokens (h : Kept E call I) {f : Field} {c : Crawler} (hc : c ∈ call.inverted)
    {toks : List Str} (htoks : f.tokens E c = .ok toks)
    (hwords : ∀ w ∈ allWords E c, call.Mentions E .word w) (p : Str) :
    Triple (fun x => I x.stores ∧ (x.stores .document)[c.url]? = some p)
      (InvertedIndexer.addTokens f p toks)
      (fun _ x => I x.stores ∧ (x.stores .document)[c.url]? = some p) (fun x => I x.stores) := by
  have hmem : ∀ w ∈ toks, w ∈ wordsIn E f c := fun w hw => (mem_wordsIn htoks).mpr hw
  refine Triple.bind (Triple.foldlM (I := fun _ (x : World) => I x.stores ∧
      (x.stores .document)[c.url]? = some p) toks Loop.init (fun v w hw =>
    h.addToken hc (hmem w hw) (hwords w (mem_allWords.mpr ⟨f, hmem w hw⟩)) p v)) (fun _ => ?_)
  exact Triple.pure (fun x hx => hx)

theorem invertedAddEntry (h : Kept E call I) {c : Crawler} (hc : c ∈ call.inverted)
    (hurl : call.Mentions E .page c.url)
    (hwords : ∀ w ∈ allWords E c, call.Mentions E .word w) :
    Triple (fun x => I x.stores) (InvertedIndexer.addEntry E c) (fun _ x => I x.stores)
      (fun x => I x.stores) := by
  refine Triple.bind (h.ensureID (t := .page) hurl) (fun p => ?_)
  refine Triple.lift_bind (fun _ hx => hx.1) (fun title htitle => ?_)
  refine Triple.bind (h.addTokens hc htitle hwords p) (fun _ => ?_)
  refine Triple.lift_bind (fun _ hx => hx.1) (fun content hcontent => ?_)
  exact (h.addTokens hc hcontent hwords p).weaken (fun _ hx => hx)
    (fun _ _ hx => hx.1) (fun _ hx => hx)

theorem forwardAddEntry (h : Kept E call I) {c : Crawler} (hc : c ∈ call.forwarded)
    (hurl : call.Mentions E .page c.url)
    (hwords : ∀ w ∈ wordsIn E .content c, call.Mentions E .word w) :
    Triple (fun x => I x.stores) (ForwardIndexer.addEntry E c) (fun _ x => I x.stores)
      (fun x => I x.stores) := by
  refine Triple.lift_bind (fun _ hx => hx) (fun content hcontent => ?_)
  refine Triple.lift_bind (fun _ hx => hx) (fun links hlinks => ?_)
  refine Triple.bind (h.ensureID (t := .page) hurl) (fun p => ?_)
  refine Triple.lift_bind (fun _ hx => hx.1) (fun title htitle => ?_)
  refine Triple.lift_bind (fun _ hx => hx.1) (fun date hdate => ?_)
  refine Triple.lift_bind (fun _ hx => hx.1) (fun size hsize => ?_)
  refine Triple.lift_bind (fun _ hx => hx.1) (fun cleaned hclean => ?_)
  -- the page is complete, and its cleaned words are those of the call
  obtain ⟨title', date', size', content', hpage⟩ := ForwardIndexer.page_of_links hlinks
  have htitle' : title' = title := by
    rw [hpage] at htitle
    exact Except.ok.inj htitle
  have hdate' : date' = date := by
    rw [hpage] at hdate
    exact Except.ok.inj hdate
  have hsize' : size' = size := by
    rw [hpage] at hsize
    exact Except.ok.inj hsize
  have hcontent' : content' = content := by
    rw [hpage] at hcontent
    exact Except.ok.inj hcontent
  subst htitle' hdate' hsize' hcontent'
  have htoks : Field.content.tokens E c = .ok cleaned := by
    rw [hpage]
    exact hclean
  have hmem : ∀ w ∈ cleaned, w ∈ wordsIn E .content c := fun w hw => (mem_wordsIn htoks).mpr hw
  have hJ : Kept E call (fun s => I s ∧ (s .document)[c.url]? = some p) :=
    h.and (kept_entry E call .page c.url p)
  -- the counting loop, and what it has counted
  have hcount : Triple (fun x => I x.stores ∧ (x.stores .document)[c.url]? = some p)
      (ForwardIndexer.countWords cleaned)
      (fun _ x => I x.stores ∧ (x.stores .document)[c.url]? = some p) (fun x => I x.stores) := by
    refine Triple.foldlM (I := fun _ (x : World) => I x.stores ∧
      (x.stores .document)[c.url]? = some p) cleaned [] (fun map w hw => ?_)
    refine Triple.bind ((hJ.ensureID (t := .word) (hwords w (hmem w hw))).weaken
      (fun _ hx => hx) (fun _ _ hx => hx.1) (fun _ hx => hx.1)) (fun id => ?_)
    exact Triple.pure (fun x hx => hx)
  have hcounted : ∀ (x : World) map x', (I x.stores ∧ (x.stores .document)[c.url]? = some p) →
      ForwardIndexer.countWords cleaned x = .ok map x' →
      map = ForwardIndexer.frequencies x'.stores cleaned ∧
        ∀ w ∈ cleaned, ∃ k : Str, (x'.stores .word)[w]? = some k := by
    intro x map x' _ hrun
    obtain ⟨hmap, -, hissued, -⟩ := ForwardIndexer.countWords_ok cleaned [] map x x' hrun
    exact ⟨hmap, hissued⟩
  refine Triple.bind (hcount.and_ok hcounted) (fun map => ?_)
  apply Db.put_triple
  · rintro x fs ⟨⟨hI, hp⟩, hmap, hissued⟩
    refine h _ _ (.record c p _ hc hp ?_) hI
    refine ⟨title', date', size', content', links, cleaned, hpage, hclean, ?_, ?_⟩
    · exact hissued
    · rw [Stores.put_same, get_insert_self, hmap]
      rfl
  · exact fun x fs hx => hx.1.1

theorem addLink (h : Kept E call I) {c : Crawler} (hc : c ∈ call.linked) {link : Str}
    (hlink : link ∈ c.links) (hurl : call.Mentions E .page link) (p asu : Str) :
    Triple (fun x => I x.stores ∧ (x.stores .document)[c.url]? = some p)
      (ParentChildIndexer.addLink p asu link)
      (fun _ x => I x.stores ∧ (x.stores .document)[c.url]? = some p) (fun x => I x.stores) := by
  have hJ : Kept E call (fun s => I s ∧ (s .document)[c.url]? = some p) :=
    h.and (kept_entry E call .page c.url p)
  refine Triple.bind ((hJ.ensureID (t := .page) hurl).weaken (fun _ hx => hx)
    (fun _ _ hx => hx) (fun _ hx => hx.1)) (fun k => ?_)
  refine Triple.bind
    (Q := fun _ (x : World) => I x.stores ∧ (x.stores .document)[c.url]? = some p) ?_
    (fun _ => Triple.pure (fun x hx => hx))
  refine Triple.bind (Db.get_triple (R := fun (x : World) => I x.stores)) (fun existed => ?_)
  have hput : Triple (fun (x : World) => ((I x.stores ∧ (x.stores .document)[c.url]? = some p) ∧
        (x.stores .document)[link]? = some k) ∧
        existed = (x.stores .parentChildIndexInverted)[k]?)
      (Db.parentChildIndexInverted.put k (newParents existed p))
      (fun _ x => I x.stores ∧ (x.stores .document)[c.url]? = some p) (fun x => I x.stores) := by
    apply Db.put_triple
    · rintro x fs ⟨⟨hx, hk⟩, rfl⟩
      exact hJ _ _ (.parent c link p k hc hlink hx.2 hk) hx
    · rintro x fs ⟨⟨hx, -⟩, -⟩
      exact hx.1
  cases existed with
  | none => exact hput
  | some text => exact hput

theorem parentChildAddEntry (h : Kept E call I) {c : Crawler} (hc : c ∈ call.linked)
    (hurl : call.Mentions E .page c.url) (hlinked : ∀ link ∈ c.links, call.Mentions E .page link) :
    Triple (fun x => I x.stores) (ParentChildIndexer.addEntry c) (fun _ x => I x.stores)
      (fun x => I x.stores) := by
  refine Triple.lift_bind (fun _ hx => hx) (fun links hlinks => ?_)
  have heq : c.links = links := links_of_get hlinks
  subst heq
  refine Triple.bind (h.ensureID (t := .page) hurl) (fun p => ?_)
  split
  · rename_i hpos
    have hloop := Triple.foldlM (I := fun _ (x : World) => I x.stores ∧
      (x.stores .document)[c.url]? = some p) (R := fun (x : World) => I x.stores) c.links [' ']
      (fun asu link hlink => h.addLink hc hlink (hlinked link hlink) p asu)
    have hlisted : ∀ (x : World) asu x', (I x.stores ∧ (x.stores .document)[c.url]? = some p) →
        c.links.foldlM (ParentChildIndexer.addLink p) [' '] x = .ok asu x' →
        asu = listed (c.links.map (pageIDOf x'.stores)) ∧
          ∀ link ∈ c.links, link ∈ x'.stores .document := by
      intro x asu x' _ hrun
      obtain ⟨rfl, -, hnamed⟩ := foldlM_addLink_named c.links hrun
      exact ⟨rfl, fun link hlink => (hnamed link).mpr (Or.inl hlink)⟩
    refine Triple.bind (hloop.and_ok hlisted) (fun asu => ?_)
    apply Db.put_triple
    · rintro x fs ⟨⟨hI, hp⟩, rfl, hnamed⟩
      exact h _ _ (.children c p hc (List.ne_nil_of_length_pos hpos) hp hnamed) hI
    · exact fun x fs hx => hx.1.1
  · exact Triple.pure (fun x hx => hx.1)

theorem addWords (h : Kept E call I) {c : Crawler}
    (hwords : ∀ w ∈ allWords E c, call.Mentions E .word w) (n : Nat) :
    Triple (AtCount I .word n) (WordIndexer.addWords E n c) (AtCount I .word)
      (fun x => I x.stores) := by
  have hwords' : ∀ (f : Field) toks, f.tokens E c = .ok toks →
      ∀ w ∈ toks, call.Mentions E .word w :=
    fun f toks htoks w hw => hwords w (mem_allWords.mpr ⟨f, (mem_wordsIn htoks).mpr hw⟩)
  refine Triple.lift_bind (fun _ hx => hx.1) (fun title htitle => ?_)
  refine Triple.bind (Triple.foldlM title n
    (fun n w hw => h.assignID (hwords' .title title htitle w hw) n)) (fun n' => ?_)
  refine Triple.lift_bind (fun _ hx => hx.1) (fun content hcontent => ?_)
  exact Triple.foldlM content n'
    (fun n w hw => h.assignID (hwords' .content content hcontent w hw) n)

/-- **Every call is made of its writes**: what they keep holds at every exit. -/
theorem exec (h : Kept E call I) :
    Preserves (fun x : World => I x.stores) (call.exec E) := by
  cases call with
  | documentAddEntry c => exact h.addID (t := .page) (by simp [Call.Mentions, Call.urls])
  | documentAddEntryString s => exact h.addID (t := .page) (by simp [Call.Mentions, Call.urls])
  | documentIndexPages crawlers =>
    refine Triple.bind (count_atCount .page) (fun n => ?_)
    refine Triple.bind (Triple.foldlM crawlers n (fun n c hc => h.assignID (t := .page) ?_ n))
      (fun _ => Triple.pure (fun x hx => hx.1))
    exact List.mem_map_of_mem hc
  | wordAddEntry newWord => exact h.addID (t := .word) (by simp [Call.Mentions, Call.words])
  | wordAddEntryCrawler c =>
    refine Triple.bind (count_atCount .word) (fun n => ?_)
    exact Triple.bind (h.addWords (fun w hw => hw) n) (fun _ => Triple.pure (fun x hx => hx.1))
  | wordIndexWords crawlers =>
    refine Triple.bind (count_atCount .word) (fun n => ?_)
    refine Triple.bind (Triple.foldlM crawlers n (fun n c hc => h.addWords (fun w hw => ?_) n))
      (fun _ => Triple.pure (fun x hx => hx.1))
    exact List.mem_flatMap.mpr ⟨c, hc, hw⟩
  | forwardAddEntry c =>
    exact h.forwardAddEntry (List.mem_singleton_self c) (List.mem_singleton_self c.url)
      (fun w hw => hw)
  | forwardIndexPages crawlers =>
    refine Triple.foldlM (I := fun _ (x : World) => I x.stores) crawlers () (fun _ c hc => ?_)
    exact h.forwardAddEntry hc (List.mem_map_of_mem hc)
      (fun w hw => List.mem_flatMap.mpr ⟨c, hc, hw⟩)
  | invertedAddEntry c =>
    exact h.invertedAddEntry (List.mem_singleton_self c) (List.mem_singleton_self c.url)
      (fun w hw => hw)
  | invertedIndexPages crawlers =>
    refine Triple.foldlM (I := fun _ (x : World) => I x.stores) crawlers () (fun _ c hc => ?_)
    exact h.invertedAddEntry hc (List.mem_map_of_mem hc)
      (fun w hw => List.mem_flatMap.mpr ⟨c, hc, hw⟩)
  | parentChildAddEntry c =>
    exact h.parentChildAddEntry (List.mem_singleton_self c) List.mem_cons_self
      (fun link hlink => List.mem_cons_of_mem c.url hlink)
  | parentChildIndexPages crawlers =>
    refine Triple.foldlM (I := fun _ (x : World) => I x.stores) crawlers () (fun _ c hc => ?_)
    exact h.parentChildAddEntry hc (mem_mentioned.mpr ⟨c, hc, Or.inl rfl⟩)
      (fun link hlink => mem_mentioned.mpr ⟨c, hc, Or.inr hlink⟩)

/-- What the writes of a call keep, every attempt at it keeps. -/
theorem after {a : Attempt} (h : Kept E a.call I) {s : Stores} (hs : I s) : I (a.after E s) :=
  h.exec.finalState (s := ⟨s, a.faults⟩) hs

end Kept

/-- **An attempt is a path of writes**, whatever fails and wherever it is cut short. -/
theorem attempt_writes (E : Platform) (a : Attempt) (s : Stores) :
    Relation.ReflTransGen (Write E a.call) s (a.after E s) :=
  Kept.after (I := Relation.ReflTransGen (Write E a.call) s)
    (fun _ _ hwrite hs => hs.tail hwrite) Relation.ReflTransGen.refl

end SearchEngine
