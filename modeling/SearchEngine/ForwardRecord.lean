/-
  The forward record, written by `ForwardIndexer.addEntry` and read by `CosSim.getPages`.

  Title, date, size and links go into the record UNESCAPED.  The reader splits at `" ;;; "` and
  takes field 5 for the number behind the norm, so a separator in one of them shifts everything
  behind it.  The fields the indexer writes itself — pairs and `word_count` — are digits, blanks
  and a sign, and never do harm (`pairsText_clear`, `intToString_clear`).

  `forward_record_iff` gives the condition on the four texts under which every record reads back,
  whatever the content; it is about the texts with one blank behind them, since the blank of the
  next separator completes a field that ends in `" ;;;"`.
-/
import SearchEngine.IdAssignment
import SearchEngine.CosSim
import SearchEngine.Lib.Records
import Mathlib.Tactic.Common

namespace SearchEngine

open Text Numeral Effect Records NumberedMap

namespace ForwardIndexer

/-! ## What a call stores -/

/-- The ID of a word. -/
def wordIDOf (s : Stores) (w : Str) : Str := (s .word)[w]?.getD []

/-- The frequency map of the tokens, under their IDs. -/
def frequencies (s : Stores) (toks : List Str) : List (Str × Nat) :=
  (toks.map (wordIDOf s)).foldl bump []

/-- The counting loop extends the word table, and counts under the IDs the words end up with. -/
theorem countWords_ok :
    ∀ (toks : List Str) (map map' : List (Str × Nat)) (x x' : World),
      toks.foldlM countWord map x = .ok map' x' →
      map' = (toks.map (wordIDOf x'.stores)).foldl bump map ∧
      (∀ w k : Str, (x.stores .word)[w]? = some k → (x'.stores .word)[w]? = some k) ∧
      (∀ w ∈ toks, ∃ k : Str, (x'.stores .word)[w]? = some k) ∧
      ∀ d, d ≠ .word → d ≠ .invertedWord → x'.stores d = x.stores d
  | [], map, map', x, x', h => by
    obtain ⟨rfl, rfl⟩ := pure_ok.mp h
    exact ⟨rfl, fun _ _ hw => hw, fun w hw => absurd hw (by simp), fun _ _ _ => rfl⟩
  | w :: toks, map, map', x, x', h => by
    obtain ⟨map₁, x₁, hstep, hrest⟩ := foldlM_cons_ok.mp h
    obtain ⟨id, x₂, hid, hpure⟩ := bind_ok.mp hstep
    obtain ⟨rfl, rfl⟩ := pure_ok.mp hpure
    obtain ⟨hx₂, hk⟩ := ensureID_ok (t := .word) hid
    obtain ⟨hmap, hmono, hissued, hothers⟩ := countWords_ok toks _ map' x₂ x' hrest
    have hmono₂ : ∀ w k : Str, (x.stores .word)[w]? = some k →
        (x₂.stores .word)[w]? = some k := by
      rw [hx₂]
      exact fun w' k' hw' => Stores.issue_mono x.stores .word .word hw'
    have hid' : wordIDOf x'.stores w = id := by
      rw [wordIDOf, hmono w id hk]
      rfl
    refine ⟨?_, fun w' k' hw' => hmono w' k' (hmono₂ w' k' hw'), fun w' hw' => ?_,
      fun d h1 h2 => ?_⟩
    · rw [hmap, List.map_cons, hid', List.foldl_cons]
    · rcases List.mem_cons.mp hw' with rfl | hw'
      · exact ⟨id, hmono w' id hk⟩
      · exact hissued w' hw'
    · rw [hothers d h1 h2, hx₂, Stores.issue_other _ w h1 h2]

/-- The pairs a page writes. -/
def entriesOf (E : Platform) (s : Stores) (cleaned : List Str) : List (Str × Nat) :=
  E.hashOrder (frequencies s cleaned)

/-- The record a page gets, the IDs of its words being those of `s`. -/
def recordOf (E : Platform) (s : Stores) (title date size : Str)
    (content links cleaned : List Str) : Str :=
  record title date size (pairsText (entriesOf E s cleaned)) (linksText links)
    (wordCount (entriesOf E s cleaned)) (rawContent content)

/-- What a call of `addEntry` that returns has done. -/
structure RecordAdded (E : Platform) (url title date size : Str) (content links cleaned : List Str)
    (s s' : Stores) : Prop where
  clean : StopWords.clean E content = .ok cleaned
  document : s' .document = s.issue .page url .document
  words : ∀ w k : Str, (s .word)[w]? = some k → (s' .word)[w]? = some k
  issued : ∀ w ∈ cleaned, ∃ k : Str, (s' .word)[w]? = some k
  forwardIndex : s' .forwardIndex = (s .forwardIndex).insert (pageIDOf s url)
    (recordOf E s' title date size content links cleaned)
  postings : ∀ f : Field, s' f.db = s f.db

namespace RecordAdded

variable {E : Platform} {url title date size : Str} {content links cleaned : List Str}
  {s s' : Stores}

theorem pageID (h : RecordAdded E url title date size content links cleaned s s') :
    (s' .document)[url]? = some (pageIDOf s url) := by
  rw [h.document]
  exact get_issue_page s url

theorem record (h : RecordAdded E url title date size content links cleaned s s') :
    (s' .forwardIndex)[pageIDOf s url]?
      = some (recordOf E s' title date size content links cleaned) := by
  rw [h.forwardIndex]
  exact get_insert_self _ _ _

end RecordAdded

/-- **What a call of `addEntry` that returns has stored.** -/
theorem addEntry_ok {E : Platform} {url title date size : Str} {content links : List Str}
    {x x' : World} {u : Unit}
    (h : addEntry E (Crawler.page url title date size content links) x = .ok u x') :
    ∃ cleaned, RecordAdded E url title date size content links cleaned x.stores x'.stores := by
  obtain ⟨content', hcontent, h⟩ := lift_bind_ok.mp h
  obtain rfl : content = content' := Except.ok.inj hcontent
  obtain ⟨links', hlinks, h⟩ := lift_bind_ok.mp h
  obtain rfl : links = links' := Except.ok.inj hlinks
  obtain ⟨p, x₁, hid, h⟩ := bind_ok.mp h
  replace hid : DocumentIndexer.pageID url x = .ok p x₁ := hid
  obtain ⟨hx₁, hp, -⟩ := pageID_ok hid
  obtain ⟨title', htitle, h⟩ := lift_bind_ok.mp h
  obtain rfl : title = title' := Except.ok.inj htitle
  obtain ⟨date', hdate, h⟩ := lift_bind_ok.mp h
  obtain rfl : date = date' := Except.ok.inj hdate
  obtain ⟨size', hsize, h⟩ := lift_bind_ok.mp h
  obtain rfl : size = size' := Except.ok.inj hsize
  obtain ⟨cleaned, hclean, h⟩ := lift_bind_ok.mp h
  obtain ⟨map, x₂, hcount, hput⟩ := bind_ok.mp h
  obtain ⟨hmap, hmono, hissued, hothers⟩ := countWords_ok cleaned [] map x₁ x₂ hcount
  have hstores := Db.put_ok hput
  -- behind the page ID only the word tables and the record are written
  have hkeep : ∀ d, d ≠ .forwardIndex → x'.stores d = x₂.stores d := by
    intro d hd
    rw [hstores, Stores.put_other _ hd]
  have hpage : ∀ d, d ≠ .document → d ≠ .invertedDocument → x₁.stores d = x.stores d := by
    intro d h1 h2
    rw [hx₁, Stores.issue_other _ url h1 h2]
  have hids : wordIDOf x'.stores = wordIDOf x₂.stores := by
    funext w
    rw [wordIDOf, wordIDOf, hkeep .word (by decide)]
  refine ⟨cleaned, hclean, ?_, fun w k hw => ?_, ?_, ?_, fun f => ?_⟩
  · rw [hkeep .document (by decide), hothers .document (by decide) (by decide), hx₁]
  · rw [hkeep .word (by decide)]
    exact hmono w k (by rw [hpage .word (by decide) (by decide)]; exact hw)
  · rw [hkeep .word (by decide)]
    exact hissued
  · rw [recordOf, entriesOf, frequencies, hids, ← hmap, hstores, Stores.put_same,
      hothers .forwardIndex (by decide) (by decide), hpage .forwardIndex (by decide) (by decide),
      hp]
  · rw [hkeep f.db (by cases f <;> decide), hothers f.db (by cases f <;> decide)
      (by cases f <;> decide), hpage f.db (by cases f <;> decide) (by cases f <;> decide)]

/-- A call that returns had a complete page to work on. -/
theorem page_of_links {c : Crawler} {links : List Str} (h : vectorGet c.parser 4 = .ok links) :
    ∃ (title date size : Str) (content : List Str),
      c = Crawler.page c.url title date size content links := by
  obtain ⟨url, title, date, size, content, links'⟩ := c
  cases title with
  | none => cases h
  | some title =>
    cases date with
    | none => cases h
    | some date =>
      cases size with
      | none => cases h
      | some size =>
        cases content with
        | none => cases h
        | some content =>
          cases links' with
          | none => cases h
          | some links' =>
            obtain rfl : links' = links := Except.ok.inj h
            exact ⟨title, date, size, content, rfl⟩

theorem page_of_addEntry {E : Platform} {c : Crawler} {x x' : World} {u : Unit}
    (h : addEntry E c x = .ok u x') :
    ∃ (title date size : Str) (content links : List Str),
      c = Crawler.page c.url title date size content links := by
  obtain ⟨content, -, h⟩ := lift_bind_ok.mp h
  obtain ⟨links, hlinks, -⟩ := lift_bind_ok.mp h
  obtain ⟨title, date, size, content', hc⟩ := page_of_links hlinks
  exact ⟨title, date, size, content', links, hc⟩

/-- Without faults, a call on a page whose content can be cleaned returns. -/
theorem addEntry_runs {E : Platform} {content cleaned : List Str}
    (hclean : StopWords.clean E content = .ok cleaned) (url title date size : Str)
    (links : List Str) :
    Runs NoFaults (addEntry E (Crawler.page url title date size content links)) := by
  refine Runs.lift_bind (a := content) rfl ?_
  refine Runs.lift_bind (a := links) rfl ?_
  refine Runs.bind (ensureID_runs .page url) (fun p => ?_)
  refine Runs.lift_bind (a := title) rfl ?_
  refine Runs.lift_bind (a := date) rfl ?_
  refine Runs.lift_bind (a := size) rfl ?_
  refine Runs.lift_bind hclean ?_
  refine Runs.bind (Runs.foldlM cleaned [] (fun map w _ => ?_)) (fun map => put_runs _ _ _)
  exact Runs.bind (ensureID_runs .word w) (fun id => Runs.pure _)

/-! ## The fields the indexer writes itself -/

theorem blank_not_mem : ' ' ∉ ";;;".toList := by decide

/-- Without a semicolon there is no separator. -/
theorem clear_of_no_semicolon {x : Str} (h : ';' ∉ x) : ¬ sep <:+: x ++ [' '] := by
  intro hin
  have hmem : ';' ∈ x ++ [' '] := hin.subset (by decide)
  rcases List.mem_append.mp hmem with hx | hx
  · exact h hx
  · exact absurd hx (by decide)

theorem key_of_mem_bump {id : Str} {e : Str × Nat} :
    ∀ {map : List (Str × Nat)}, e ∈ bump map id → e.1 = id ∨ ∃ e' ∈ map, e'.1 = e.1
  | [], h => by
    obtain rfl : e = (id, 1) := by simpa [bump] using h
    exact Or.inl rfl
  | (k, n) :: rest, h => by
    rw [bump] at h
    split at h
    · rename_i hk
      rcases List.mem_cons.mp h with rfl | h
      · exact Or.inl hk
      · exact Or.inr ⟨e, List.mem_cons_of_mem _ h, rfl⟩
    · rcases List.mem_cons.mp h with rfl | h
      · exact Or.inr ⟨(k, n), by simp, rfl⟩
      · rcases key_of_mem_bump h with hid | ⟨e', he', hkey⟩
        · exact Or.inl hid
        · exact Or.inr ⟨e', List.mem_cons_of_mem _ he', hkey⟩

theorem key_of_mem_foldl {e : Str × Nat} :
    ∀ {ids : List Str} {map : List (Str × Nat)}, e ∈ ids.foldl bump map →
      e.1 ∈ ids ∨ ∃ e' ∈ map, e'.1 = e.1
  | [], map, h => Or.inr ⟨e, h, rfl⟩
  | id :: ids, map, h => by
    have hrest : e ∈ ids.foldl bump (bump map id) := h
    rcases key_of_mem_foldl hrest with hmem | ⟨e', he', hkey⟩
    · exact Or.inl (List.mem_cons_of_mem _ hmem)
    · rcases key_of_mem_bump he' with hid | ⟨e'', he'', hkey'⟩
      · exact Or.inl (by rw [← hkey, hid]; simp)
      · exact Or.inr ⟨e'', he'', hkey'.trans hkey⟩

/-- Every key of the written pairs is a numeral. -/
theorem isDigits_of_mem_entries {E : Platform} {s : Stores} {cleaned : List Str}
    (htable : TableOk .word s) (hissued : ∀ w ∈ cleaned, ∃ k : Str, (s .word)[w]? = some k)
    {e : Str × Nat} (he : e ∈ entriesOf E s cleaned) : IsDigits e.1 := by
  have he' : e ∈ frequencies s cleaned := (E.hashOrder_perm _).mem_iff.mp he
  rcases key_of_mem_foldl he' with hmem | ⟨e'', he'', -⟩
  · obtain ⟨w, hw, hid⟩ := List.mem_map.mp hmem
    obtain ⟨k, hk⟩ := hissued w hw
    obtain ⟨n, -, -, rfl⟩ := htable.1.bounded hk
    rw [← hid, wordIDOf, hk]
    exact isDigits_decimal n
  · exact absurd he'' (by simp)

theorem pairsText_clear {entries : List (Str × Nat)} (h : ∀ e ∈ entries, IsDigits e.1) :
    ';' ∉ pairsText entries := by
  intro hmem
  obtain ⟨e, he, hchar⟩ := List.mem_flatMap.mp hmem
  rcases List.mem_append.mp hchar with hchar | hchar
  · rcases List.mem_append.mp hchar with hchar | hchar
    · exact (h e he).not_mem (by decide) hchar
    · rcases List.mem_cons.mp hchar with hchar | hchar
      · exact absurd hchar (by decide)
      · exact (isDigits_decimal _).not_mem (by decide) hchar
  · exact absurd hchar (by decide)

theorem intToString_clear (z : Int) : ';' ∉ intToString z := by
  cases z with
  | ofNat n => exact (isDigits_decimal n).not_mem (by decide)
  | negSucc n =>
    intro hmem
    rcases List.mem_cons.mp hmem with hmem | hmem
    · exact absurd hmem (by decide)
    · exact (isDigits_decimal (n + 1)).not_mem (by decide) hmem

theorem intToString_ne_nil (z : Int) : intToString z ≠ [] := by
  cases z with
  | ofNat n => exact (isDigits_decimal n).1
  | negSucc n => exact List.cons_ne_nil _ _

/-- `word_count` is an `int`, so what is printed is read back. -/
theorem parseInt_wordCount (entries : List (Str × Nat)) :
    parseInt (intToString (wordCount entries)) = some (wordCount entries) := by
  have hwrap : ∃ z, wordCount entries = wrap32 z := by
    rcases List.eq_nil_or_concat entries with rfl | ⟨es, e, rfl⟩
    · exact ⟨0, by decide⟩
    · exact ⟨_, by rw [wordCount, List.concat_eq_append, List.foldl_append]; rfl⟩
  obtain ⟨z, hz⟩ := hwrap
  rw [hz]
  exact parseInt_intToString_wrap32 z

/-! ## Reading a record -/

/-- **The condition on the texts of a page.**  With one blank behind it, the title holds no
    separator, nor do the links; and date and size, joined by one, hold no other. -/
def RecordSafe (title date size : Str) (links : List Str) : Prop :=
  ¬ sep <:+: title ++ [' '] ∧
  (fieldsOn sep 0 ((date ++ (sep ++ size)) ++ [' '])).length = 2 ∧
  ¬ sep <:+: linksText links ++ [' ']

theorem fieldsOn_sep_field {x : Str} (h : ¬ sep <:+: x ++ [' ']) (y : Str) :
    fieldsOn sep 0 (x ++ (sep ++ y)) = x :: fieldsOn sep 0 y :=
  fieldsOn_field blank_not_mem h y

theorem head_fieldsOn_sep_iff (x y : Str) :
    (fieldsOn sep 0 (x ++ (sep ++ y))).head? = some x ↔ ¬ sep <:+: x ++ [' '] :=
  head_fieldsOn_iff blank_not_mem y x

/-- Date and size, with the separator between them, in front of the next one: at least two pieces,
    and how many there are with a blank behind tells whether the rest starts cleanly. -/
theorem fieldsOn_date_size (date size : Str) :
    ∃ (A : List Str) (t : Str), 2 ≤ A.length ∧
      ((t = [] ∧ (fieldsOn sep 0 ((date ++ (sep ++ size)) ++ [' '])).length = A.length) ∨
       (t = ";;; ".toList ∧
        (fieldsOn sep 0 ((date ++ (sep ++ size)) ++ [' '])).length = A.length + 1)) ∧
      ∀ y, fieldsOn sep 0 ((date ++ (sep ++ size)) ++ (sep ++ y))
        = A ++ fieldsOn sep 0 (t ++ y) := by
  obtain ⟨A, t, h⟩ := exists_joins blank_not_mem (date ++ (sep ++ size))
  refine ⟨A, t, ?_, h.rest, h.join⟩
  have hin : sep <:+: date ++ (sep ++ size) := ⟨date, size, by simp⟩
  have hne : (fieldsOn sep 0 (date ++ (sep ++ size))).length ≠ 1 :=
    fun hone => (length_fieldsOn_eq_one_iff (by decide) _).mp hone hin
  have hpos : (fieldsOn sep 0 (date ++ (sep ++ size))).length ≠ 0 :=
    fun h0 => fieldsOn_ne_nil sep _ 0 (List.length_eq_zero_iff.mp h0)
  have hpieces : A.length = (fieldsOn sep 0 (date ++ (sep ++ size))).length := h.pieces
  omega

theorem record_eq (title date size pairs links : Str) (wc : Int) (raw : Str) :
    record title date size pairs links wc raw
      = title ++ (sep ++ ((date ++ (sep ++ size)) ++ (sep ++ (pairs ++ (sep ++ (links ++
          (sep ++ (intToString wc ++ (sep ++ raw))))))))) := by
  simp [record]

/-- A safe record splits into its fields. -/
theorem fieldsOn_record {title date size : Str} {links : List Str}
    (h : RecordSafe title date size links) {pairs : Str} (hpairs : ';' ∉ pairs) (wc : Int)
    (raw : Str) :
    ∃ a b, fieldsOn sep 0 (record title date size pairs (linksText links) wc raw)
      = title :: a :: b :: pairs :: linksText links :: intToString wc :: fieldsOn sep 0 raw := by
  obtain ⟨htitle, hcount, hlinks⟩ := h
  obtain ⟨A, t, hlen, hrest, hjoin⟩ := fieldsOn_date_size date size
  have hA : t = [] ∧ A.length = 2 := by
    rcases hrest with ⟨ht, hrest⟩ | ⟨-, hrest⟩
    · exact ⟨ht, by omega⟩
    · omega
  obtain ⟨rfl, hA2⟩ := hA
  obtain ⟨a, b, rfl⟩ := List.length_eq_two.mp hA2
  refine ⟨a, b, ?_⟩
  rw [record_eq, fieldsOn_sep_field htitle, hjoin, List.nil_append,
    fieldsOn_sep_field (clear_of_no_semicolon hpairs), fieldsOn_sep_field hlinks,
    fieldsOn_sep_field (clear_of_no_semicolon (intToString_clear wc))]
  rfl

/-- What the reader must find: six fields or more, with the title, the pairs, the links and the
    number at their places, and the number readable. -/
def ReadsBack (title pairs : Str) (links : List Str) (wc : Int) (v : Str) : Prop :=
  6 ≤ (splitOn sep v).length ∧ (splitOn sep v)[0]? = some title ∧
  (splitOn sep v)[3]? = some pairs ∧ (splitOn sep v)[4]? = some (linksText links) ∧
  (splitOn sep v)[5]? = some (intToString wc) ∧ parseInt (intToString wc) = some wc

/-- A safe record reads back. -/
theorem readsBack_of_safe {title date size : Str} {links : List Str}
    (h : RecordSafe title date size links) {entries : List (Str × Nat)}
    (hkeys : ∀ e ∈ entries, IsDigits e.1) (raw : Str) :
    ReadsBack title (pairsText entries) links (wordCount entries)
      (record title date size (pairsText entries) (linksText links) (wordCount entries) raw) := by
  obtain ⟨a, b, hfields⟩ := fieldsOn_record h (pairsText_clear hkeys) (wordCount entries) raw
  obtain ⟨rest, hrest⟩ := trimPieces_keeps [title, a, b, pairsText entries, linksText links]
    (intToString_ne_nil (wordCount entries)) (fieldsOn sep 0 raw) (by simp)
  have hsplit : splitOn sep
      (record title date size (pairsText entries) (linksText links) (wordCount entries) raw)
      = title :: a :: b :: pairsText entries :: linksText links ::
          intToString (wordCount entries) :: rest := by
    rw [splitOn, hfields]
    exact hrest
  unfold ReadsBack
  rw [hsplit]
  exact ⟨by simp, rfl, rfl, rfl, rfl, parseInt_wordCount entries⟩

/-- If two records of the same texts, one of them without pairs, both read back, the texts are
    safe. -/
theorem safe_of_readsBack {title date size : Str} {links : List Str} {pairs raw raw' : Str}
    {wc wc' : Int} (hpairs : pairs ≠ [])
    (h : ReadsBack title [] links wc (record title date size [] (linksText links) wc raw))
    (h' : ReadsBack title pairs links wc'
      (record title date size pairs (linksText links) wc' raw')) :
    RecordSafe title date size links := by
  obtain ⟨-, h0, h3, h4, -, -⟩ := h
  obtain ⟨-, -, h3', -, -, -⟩ := h'
  replace h0 := getElem?_of_trimPieces h0
  replace h3 := getElem?_of_trimPieces h3
  replace h4 := getElem?_of_trimPieces h4
  replace h3' := getElem?_of_trimPieces h3'
  rw [record_eq] at h0 h3 h4 h3'
  -- the title comes back, so it is clear
  have htitle : ¬ sep <:+: title ++ [' '] := by
    rw [← List.head?_eq_getElem?] at h0
    exact (head_fieldsOn_sep_iff title _).mp h0
  rw [fieldsOn_sep_field htitle, List.getElem?_cons_succ] at h3 h4 h3'
  -- date and size make two pieces: a third one would be the pairs field of both records
  obtain ⟨A, t, hlen, hrest, hjoin⟩ := fieldsOn_date_size date size
  rw [hjoin] at h3 h4 h3'
  have hA2 : A.length = 2 := by
    by_contra hne
    have hlt : 2 < A.length := by omega
    rw [List.getElem?_append_left hlt] at h3 h3'
    rw [h3] at h3'
    exact hpairs (Option.some.inj h3').symm
  rw [List.getElem?_append_right (by omega), hA2] at h3 h4
  have ht : t = [] := by
    rcases hrest with ⟨ht, -⟩ | ⟨ht, -⟩
    · exact ht
    · -- otherwise the pairs field would start with what is left of a separator
      have hleft : ¬ sep <:+: ";;; ".toList ++ [' '] := by decide
      rw [ht, List.nil_append, fieldsOn_sep_field hleft] at h3
      exact absurd (Option.some.inj h3) (by decide)
  subst ht
  refine ⟨htitle, ?_, ?_⟩
  · rcases hrest with ⟨-, hrest⟩ | ⟨ht, -⟩
    · rw [hrest, hA2]
    · exact absurd ht (by decide)
  · -- and behind the pairs, the links come back
    have hsep : fieldsOn sep 0 ([] ++ (sep ++ (linksText links ++
          (sep ++ (intToString wc ++ (sep ++ raw)))))) =
        [] :: fieldsOn sep 0 (linksText links ++ (sep ++ (intToString wc ++ (sep ++ raw)))) :=
      fieldsOn_sep (by decide) _
    rw [List.nil_append, hsep] at h4
    refine (head_fieldsOn_sep_iff _ (intToString wc ++ (sep ++ raw))).mp ?_
    rw [List.head?_eq_getElem?]
    exact h4

end ForwardIndexer

/-! ## Every record -/

open ForwardIndexer

/-- The record of a page reads back: its title, the pairs written for its content, its links and
    their `word_count`, which `CosSim.getPages` then gets from field 5. -/
def RecordReadsBack (E : Platform) (url title : Str) (content links : List Str) (s : Stores) :
    Prop :=
  ∃ (p v : Str) (cleaned : List Str), (s .document)[url]? = some p ∧
    (s .forwardIndex)[p]? = some v ∧ StopWords.clean E content = .ok cleaned ∧
    ReadsBack title (pairsText (entriesOf E s cleaned)) links
      (wordCount (entriesOf E s cleaned)) v ∧
    CosSim.freqSq (s .forwardIndex) p = .ok (wordCount (entriesOf E s cleaned))

/-- Field 5 is what `getPages` parses. -/
theorem freqSq_of_readsBack {forwardIndex : RocksDB} {p v title pairs : Str} {links : List Str}
    {wc : Int} (hv : forwardIndex[p]? = some v) (h : ReadsBack title pairs links wc v) :
    CosSim.freqSq forwardIndex p = .ok wc := by
  obtain ⟨-, -, -, -, h5, hparse⟩ := h
  have hget : vectorGet (splitOn sep v) 5 = .ok (intToString wc) := by rw [vectorGet, h5]
  rw [CosSim.freqSq, hv]
  show (vectorGet (splitOn sep v) 5 >>= _) = _
  rw [hget, except_ok_bind, hparse]

/-- In a reachable state, a safe page's record reads back. -/
theorem recordReadsBack_of_safe {E : Platform} {url title date size : Str}
    {content links : List Str} {faults : List Bool} {s : Stores} (hs : TableOk .word s)
    (hsafe : RecordSafe title date size links)
    (hret : returns (Attempt.outcome E
      ⟨.forwardAddEntry (Crawler.page url title date size content links), faults⟩ s) = true) :
    RecordReadsBack E url title content links (Attempt.after E
      ⟨.forwardAddEntry (Crawler.page url title date size content links), faults⟩ s) := by
  obtain ⟨x, hrun, hafter⟩ := Attempt.ok_of_returns hret
  rw [hafter]
  have htable : TableOk .word x.stores :=
    ((stable_tableOk .word).call E _).of_ok (s := ⟨s, faults⟩) hs hrun
  obtain ⟨cleaned, hadd⟩ := ForwardIndexer.addEntry_ok hrun
  have hkeys : ∀ e ∈ entriesOf E x.stores cleaned, IsDigits e.1 :=
    fun e he => isDigits_of_mem_entries htable hadd.issued he
  have hread := readsBack_of_safe hsafe hkeys (rawContent content)
  exact ⟨pageIDOf s url, _, cleaned, hadd.pageID, hadd.record, hadd.clean, hread,
    freqSq_of_readsBack hadd.record hread⟩

/-- The record a page gets on empty stores, if it reads back. -/
theorem readsBack_on_empty {E : Platform} {url title date size : Str}
    {content links cleaned : List Str}
    (h : returns (Attempt.outcome E
        ⟨.forwardAddEntry (Crawler.page url title date size content links), []⟩ Stores.empty)
        = true →
      RecordReadsBack E url title content links (Attempt.after E
        ⟨.forwardAddEntry (Crawler.page url title date size content links), []⟩ Stores.empty))
    (hclean : StopWords.clean E content = .ok cleaned) :
    ∃ s, ReadsBack title (pairsText (entriesOf E s cleaned)) links
      (wordCount (entriesOf E s cleaned))
      (record title date size (pairsText (entriesOf E s cleaned)) (linksText links)
        (wordCount (entriesOf E s cleaned)) (rawContent content)) := by
  have hret : returns (Attempt.outcome E
      ⟨.forwardAddEntry (Crawler.page url title date size content links), []⟩ Stores.empty)
      = true :=
    returns_of_runs (.forwardAddEntry _)
      (ForwardIndexer.addEntry_runs hclean url title date size links) Stores.empty
  obtain ⟨p, v, cleaned', hp, hv, hclean', hread, -⟩ := h hret
  obtain ⟨x, hrun, hafter⟩ := Attempt.ok_of_returns hret
  obtain ⟨cleaned'', hadd⟩ := ForwardIndexer.addEntry_ok hrun
  obtain rfl : cleaned = cleaned' := Except.ok.inj (hclean.symm.trans hclean')
  obtain rfl : cleaned = cleaned'' := Except.ok.inj (hclean.symm.trans hadd.clean)
  rw [hafter] at hp hv hread
  obtain rfl : p = _ := Option.some.inj (hp.symm.trans hadd.pageID)
  obtain rfl : v = _ := Option.some.inj (hv.symm.trans hadd.record)
  exact ⟨x.stores, hread⟩

/-- **Exactly when forward records read back.**  For every title, date, size and link list: the
    record of the page reads back for every content, in every state a run reaches and for every
    call that returns, if and only if the four texts are safe. -/
theorem forward_record_iff (title date size : Str) (links : List Str) :
    (∀ (E : Platform) (run : List Attempt) (url : Str) (content : List Str) (faults : List Bool),
      returns (Attempt.outcome E
        ⟨.forwardAddEntry (Crawler.page url title date size content links), faults⟩
        (runAll E run Stores.empty)) = true →
      RecordReadsBack E url title content links (Attempt.after E
        ⟨.forwardAddEntry (Crawler.page url title date size content links), faults⟩
        (runAll E run Stores.empty))) ↔
    RecordSafe title date size links := by
  constructor
  · intro h
    -- a page without content has no pairs, a page with one word has some
    have hnone : StopWords.clean asciiPlatform [] = .ok [] := rfl
    have hone : StopWords.clean asciiPlatform ["ab".toList] = .ok ["ab".toList] :=
      StopWords.clean_ab 1
    obtain ⟨s, hread⟩ := readsBack_on_empty (h asciiPlatform [] ['u'] [] []) hnone
    obtain ⟨s', hread'⟩ := readsBack_on_empty (h asciiPlatform [] ['u'] ["ab".toList] []) hone
    exact safe_of_readsBack (by simp [entriesOf, frequencies, asciiPlatform, bump, pairsText])
      hread hread'
  · intro hsafe E run url content faults hret
    exact recordReadsBack_of_safe (Reachable.tableOk ⟨run, rfl⟩ .word) hsafe hret

/-- A title with a separator in it is cut off there. -/
theorem title_with_separator_cut :
    ¬ ∀ (E : Platform) (run : List Attempt) (url title date size : Str) (content links : List Str)
        (faults : List Bool),
      returns (Attempt.outcome E
        ⟨.forwardAddEntry (Crawler.page url title date size content links), faults⟩
        (runAll E run Stores.empty)) = true →
      RecordReadsBack E url title content links (Attempt.after E
        ⟨.forwardAddEntry (Crawler.page url title date size content links), faults⟩
        (runAll E run Stores.empty)) := by
  intro h
  have hnone : StopWords.clean asciiPlatform [] = .ok [] := rfl
  obtain ⟨s, -, h0, -⟩ :=
    readsBack_on_empty (h asciiPlatform [] ['u'] "a ;;; b".toList ['d'] ['s'] [] [] []) hnone
  rw [show entriesOf asciiPlatform s [] = [] from rfl] at h0
  revert h0
  decide +kernel

end SearchEngine
