/-
  What the five extractions make of a page, and which pages can be indexed.

  The page itself is fetched and parsed by a library; a `Response` is what the library and the
  connection answer.  Two comparisons of the source are by reference: `bean.getText() != ""` is
  false for the constant `""` alone, so an empty text that was built for the call counts as a text.

  `extractWords` cuts the content with a `StringTokenizer`, which yields no empty token, so of all
  that the indexers clean only a TITLE can throw.  `extracted_batch_returns_iff` gives the exact
  condition under which a batch goes through all three indexers.
-/
import SearchEngine.BreadthFirst
import SearchEngine.Cleaning
import Mathlib.Tactic.Common

namespace SearchEngine

open Text Numeral Effect

/-! ## The tokens of a text -/

/-- The delimiters of `new StringTokenizer(str)`. -/
def isDelimiter (c : Char) : Bool :=
  c == ' ' || c == '\t' || c == '\n' || c == '\r' || c == '\x0c'

/-- `while (st.hasMoreTokens()) result.add(st.nextToken())`: skip the delimiters, then scan up to
    the next one. -/
def stringTokens (s : Str) : List Str :=
  match _h : s.dropWhile isDelimiter with
  | [] => []
  | c :: cs =>
    (c :: cs.takeWhile (fun c => !isDelimiter c))
      :: stringTokens (cs.dropWhile (fun c => !isDelimiter c))
termination_by s.length
decreasing_by
  have hle := (List.dropWhile_sublist isDelimiter (l := s)).length_le
  have hle' := (List.dropWhile_sublist (fun c => !isDelimiter c) (l := cs)).length_le
  rw [_h, List.length_cons] at hle
  omega

/-- No token is empty. -/
theorem nil_not_mem_stringTokens (s : Str) : [] ∉ stringTokens s := by
  induction s using stringTokens.induct with
  | case1 s h =>
    rw [stringTokens, h]
    simp
  | case2 s c cs h ih =>
    rw [stringTokens, h]
    simp [ih]

/-! ## The extractions -/

/-- What `bean.getText()` gives: `null`, the constant `""`, or a string built for the call. -/
inductive BeanText where
  | null
  | constant
  | built (text : Str)

/-- What the library and the connection answer for a URL; `none` is an exception. -/
structure Response where
  titleText : BeanText
  dateText : BeanText
  lastModified : Option Int
  contentLength : Option Int
  today : Str
  strings : Option Str
  links : Option (List Str)

namespace Response

/-- `extractTitle()`. -/
def extractTitle (r : Response) : Str :=
  match r.titleText with
  | .built text => text
  | .null => "No Title".toList
  | .constant => "No Title".toList

/-- `extractLastModDate()`. -/
def extractLastModDate (r : Response) : Option Str :=
  match r.dateText with
  -- `null` is not `""`, and is dereferenced
  | .null => none
  | .built text => (Crawler.substring text 16 26).toOption
  | .constant => r.lastModified.map (fun n => if n ≠ 0 then intToString n else r.today)

/-- `extractSize()`. -/
def extractSize (r : Response) : Option Str := r.contentLength.map intToString

/-- `extractWords()`. -/
def extractWords (r : Response) : Option (List Str) := r.strings.map stringTokens

/-- The page at `url`. -/
def crawler (r : Response) (url : Str) : Crawler :=
  ⟨url, some r.extractTitle, r.extractLastModDate, r.extractSize, r.extractWords, r.links⟩

/-- There is a date: the footer, where the page has one, is long enough (in characters, see
    `Crawler.substring`), and otherwise the connection gives one. -/
def Dated (r : Response) : Prop :=
  match r.dateText with
  | .null => False
  | .built text => 26 ≤ text.length
  | .constant => r.lastModified ≠ none

/-- Nothing throws. -/
def Complete (r : Response) : Prop :=
  r.Dated ∧ r.contentLength ≠ none ∧ r.strings ≠ none ∧ r.links ≠ none

theorem extractLastModDate_iff (r : Response) : r.extractLastModDate ≠ none ↔ r.Dated := by
  unfold extractLastModDate Dated
  cases r.dateText with
  | null => simp
  | constant => simp
  | built text =>
    show (Crawler.substring text 16 26).toOption ≠ none ↔ 26 ≤ text.length
    rw [Crawler.substring]
    by_cases hlen : 26 ≤ text.length
    · rw [if_pos (by omega)]
      simp [hlen, Except.toOption]
    · rw [if_neg (by omega)]
      simp [hlen, Except.toOption]

/-- The links are parsed just when nothing before them throws either. -/
theorem links_parsed_iff (r : Response) (url : Str) :
    (∃ links, vectorGet (r.crawler url).parser 4 = .ok links) ↔ r.Complete := by
  constructor
  · rintro ⟨links, hlinks⟩
    obtain ⟨title, date, size, words, hpage⟩ := ForwardIndexer.page_of_links hlinks
    have hdate : r.extractLastModDate = some date := congrArg Crawler.extractLastModDate hpage
    have hsize : r.contentLength.map intToString = some size :=
      congrArg Crawler.extractSize hpage
    have hwords : r.strings.map stringTokens = some words :=
      congrArg Crawler.extractWords hpage
    have hlinks' : r.links = some links := congrArg Crawler.extractLinks hpage
    refine ⟨r.extractLastModDate_iff.mp (by rw [hdate]; simp), ?_, ?_, by rw [hlinks']; simp⟩
    · rintro hnone
      rw [hnone] at hsize
      cases hsize
    · rintro hnone
      rw [hnone] at hwords
      cases hwords
  · rintro ⟨hdated, hlength, hstrings, hlinks⟩
    obtain ⟨date, hdate⟩ := Option.ne_none_iff_exists'.mp (r.extractLastModDate_iff.mpr hdated)
    obtain ⟨n, hn⟩ := Option.ne_none_iff_exists'.mp hlength
    obtain ⟨text, htext⟩ := Option.ne_none_iff_exists'.mp hstrings
    obtain ⟨links, hlinks⟩ := Option.ne_none_iff_exists'.mp hlinks
    refine ⟨links, ?_⟩
    rw [crawler, hdate, hlinks, extractSize, hn, extractWords, htext]
    rfl

end Response

/-! ## Which batches go through -/

variable {E : Platform} {crawlers : List Crawler} {s : Stores}

/-- A batch that returned has run every one of its pages. -/
theorem all_of_returns {m : Crawler → IndexM Unit} {P : Crawler → Prop} {x x' : World} {u : Unit}
    (hstep : ∀ c x x', m c x = .ok () x' → P c)
    (h : crawlers.foldlM (fun _ c => m c) () x = .ok u x') : ∀ c ∈ crawlers, P c := by
  refine foldlM_batch (I := fun done (_ : World) => ∀ c ∈ done, P c) ?_ crawlers [] rfl
    (by simp) h
  intro done c todo y y' _ hdone hrun c' hc'
  rcases List.mem_append.mp hc' with hc' | hc'
  · exact hdone c' hc'
  · rw [List.mem_singleton.mp hc']
    exact hstep c y y' hrun

/-- The forward index, on stores that do not fail. -/
theorem forward_returns_iff :
    returns (Attempt.outcome E ⟨.forwardIndexPages crawlers, []⟩ s) = true ↔
      ∀ c ∈ crawlers, (∃ links, vectorGet c.parser 4 = .ok links) ∧
        ∃ toks, Field.content.tokens E c = .ok toks := by
  constructor
  · intro h
    obtain ⟨x, hrun, -⟩ := Attempt.ok_of_returns h
    refine all_of_returns (fun c y y' hstep => ?_) hrun
    obtain ⟨title, date, size, content, links, cleaned, hpage, hadd⟩ := forwardAddEntry_cases hstep
    rw [hpage]
    exact ⟨⟨links, rfl⟩, cleaned, hadd.clean⟩
  · intro h
    apply returns_of_runs (.forwardIndexPages crawlers)
    refine Runs.foldlM crawlers () (fun _ c hc => ?_)
    obtain ⟨⟨links, hlinks⟩, toks, htoks⟩ := h c hc
    obtain ⟨title, date, size, content, hpage⟩ := ForwardIndexer.page_of_links hlinks
    rw [hpage] at htoks ⊢
    exact ForwardIndexer.addEntry_runs htoks _ _ _ _ _

/-- The inverted indexes, on stores that do not fail. -/
theorem inverted_returns_iff :
    returns (Attempt.outcome E ⟨.invertedIndexPages crawlers, []⟩ s) = true ↔
      ∀ c ∈ crawlers, ∀ f : Field, ∃ toks, f.tokens E c = .ok toks := by
  constructor
  · intro h
    obtain ⟨x, hrun, -⟩ := Attempt.ok_of_returns h
    refine all_of_returns (fun c y y' hstep f => ?_) hrun
    obtain ⟨title, content, -, -, htitle, hcontent, -⟩ := addEntry_stages hstep
    cases f with
    | title => exact ⟨title, htitle⟩
    | content => exact ⟨content, hcontent⟩
  · intro h
    exact returns_of_runs (.invertedIndexPages crawlers) (indexPages_runs h) s

/-- The link indexes, on stores that do not fail. -/
theorem links_return_iff :
    returns (Attempt.outcome E ⟨.parentChildIndexPages crawlers, []⟩ s) = true ↔
      ∀ c ∈ crawlers, ∃ links, vectorGet c.parser 4 = .ok links := by
  constructor
  · intro h
    obtain ⟨x, hrun, -⟩ := Attempt.ok_of_returns h
    refine all_of_returns (fun c y y' hstep => ?_) hrun
    obtain ⟨links, hlinks, -⟩ := lift_bind_ok.mp hstep
    exact ⟨links, hlinks⟩
  · intro h
    exact returns_of_runs (.parentChildIndexPages crawlers) (parentChildPages_runs h) s

/-- **Exactly which batches go through all indexers.**  Let the stop words be those of
    `stopwords.txt`, the pages of a batch be extracted from any responses, and the stores, whatever
    they hold, not fail.  Then the forward index, the
    inverted indexes and the link indexes can be made of the batch, one after the other, if and
    only if every response is complete and no title opens with white space or is empty; a title of
    white space alone does no harm. -/
theorem extracted_batch_returns_iff (E : Platform) (hstop : E.stopWords = StopWords.stopwordsTxt)
    (pages : List (Str × Response)) (s : Stores) :
    let crawlers := pages.map (fun p => p.2.crawler p.1)
    NoneAborted E [⟨.forwardIndexPages crawlers, []⟩, ⟨.invertedIndexPages crawlers, []⟩,
      ⟨.parentChildIndexPages crawlers, []⟩] s ↔
    ∀ p ∈ pages, p.2.Complete ∧ p.2.extractTitle ≠ [] ∧
      (startsWs p.2.extractTitle = false ∨ ∀ c ∈ p.2.extractTitle, isSpace c = true) := by
  intro crawlers
  have htitle : ∀ p : Str × Response, (∃ toks, Field.title.tokens E (p.2.crawler p.1) = .ok toks) ↔
      p.2.extractTitle ≠ [] ∧
        (startsWs p.2.extractTitle = false ∨ ∀ c ∈ p.2.extractTitle, isSpace c = true) :=
    fun p => StopWords.clean_splitWs_iff E hstop p.2.extractTitle
  -- the content of a complete page is made of tokens
  have hcontent : ∀ p : Str × Response, p.2.Complete →
      ∃ toks, Field.content.tokens E (p.2.crawler p.1) = .ok toks := by
    intro p hp
    obtain ⟨links, hlinks⟩ := (p.2.links_parsed_iff p.1).mpr hp
    obtain ⟨title, date, size, words, hpage⟩ := ForwardIndexer.page_of_links hlinks
    have hwords : p.2.strings.map stringTokens = some words :=
      congrArg Crawler.extractWords hpage
    obtain ⟨text, -, rfl⟩ := Option.map_eq_some_iff.mp hwords
    rw [hpage]
    refine (StopWords.clean_returns_iff E (stringTokens text)).mpr (fun hmem => ?_)
    exact absurd hmem (nil_not_mem_stringTokens text)
  show _ ∧ _ ∧ _ ∧ True ↔ _
  rw [forward_returns_iff, inverted_returns_iff, links_return_iff]
  constructor
  · rintro ⟨hforward, hinverted, hlinks, -⟩ p hp
    have hmem : p.2.crawler p.1 ∈ crawlers := List.mem_map_of_mem hp
    exact ⟨(p.2.links_parsed_iff p.1).mp (hlinks _ hmem), (htitle p).mp (hinverted _ hmem .title)⟩
  · intro h
    have hparsed : ∀ c ∈ crawlers, ∃ links, vectorGet c.parser 4 = .ok links := by
      intro c hc
      obtain ⟨p, hp, rfl⟩ := List.mem_map.mp hc
      exact (p.2.links_parsed_iff p.1).mpr (h p hp).1
    refine ⟨fun c hc => ⟨hparsed c hc, ?_⟩, fun c hc f => ?_, hparsed, trivial⟩
    · obtain ⟨p, hp, rfl⟩ := List.mem_map.mp hc
      exact hcontent p (h p hp).1
    · obtain ⟨p, hp, rfl⟩ := List.mem_map.mp hc
      cases f with
      | title => exact (htitle p).mpr (h p hp).2
      | content => exact hcontent p (h p hp).1

/-- A page without a title, and with a footer. -/
def untitled : Response :=
  ⟨.constant, .built "Last updated on 2020-05-08".toList, none, some 0, [], some "a page".toList,
    some []⟩

theorem untitled_page_indexed :
    NoneAborted asciiPlatform [⟨.forwardIndexPages [untitled.crawler ['a']], []⟩,
      ⟨.invertedIndexPages [untitled.crawler ['a']], []⟩,
      ⟨.parentChildIndexPages [untitled.crawler ['a']], []⟩] Stores.empty := by
  refine (extracted_batch_returns_iff asciiPlatform rfl [(['a'], untitled)] Stores.empty).mpr ?_
  intro p hp
  rw [List.mem_singleton.mp hp]
  refine ⟨⟨?_, by simp [untitled], by simp [untitled], by simp [untitled]⟩, by decide,
    Or.inl (by decide)⟩
  show 26 ≤ "Last updated on 2020-05-08".toList.length
  decide

end SearchEngine
