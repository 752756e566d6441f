/-
  Which words get an ID.

  A word enters the table raw, through `WordIndexer.addEntry(String)`, or out of the title or the
  content of a page, and then it went through `StopWords.clean`.  `words_stemmed` follows it back
  through the whole engine: behind every word with an ID, whatever has been run, there is a token
  of a page, as it stood there, that is no stop word and has the word for its stem; and the word
  has the shape that `Porter.stripAffixes_shape` gives it.
-/
import SearchEngine.StemRules
import SearchEngine.Retention
import SearchEngine.Search
import Mathlib.Tactic.Common

namespace SearchEngine

open Text Effect

variable {E : Platform}

namespace StopWords

/-- Every word that `clean` returns is the stem of a token it was given. -/
theorem mem_clean : ∀ {v ws : List Str}, clean E v = .ok ws → ∀ w ∈ ws,
    ∃ token ∈ v, isStopWord E token = false ∧ stem E token = .ok w
  | [], ws, h => by
    cases h
    exact fun w hw => absurd hw List.not_mem_nil
  | str :: rest, ws, h => by
    intro w hw
    have hrest : ∀ {ws'}, clean E rest = .ok ws' → w ∈ ws' →
        ∃ token ∈ str :: rest, isStopWord E token = false ∧ stem E token = .ok w := by
      intro ws' hclean hmem
      obtain ⟨token, htoken, hstem⟩ := mem_clean hclean w hmem
      exact ⟨token, List.mem_cons_of_mem str htoken, hstem⟩
    rw [clean] at h
    split at h
    · exact hrest h hw
    · rename_i hstop
      obtain ⟨w', hstem, h⟩ := except_bind_ok.mp h
      obtain ⟨ws', hclean, h⟩ := except_bind_ok.mp h
      cases h
      rcases List.mem_cons.mp hw with rfl | hw
      · exact ⟨str, List.mem_cons_self, by simpa using hstop, hstem⟩
      · exact hrest hclean hw

end StopWords

namespace Porter

/-- The letters put in for an ending are letters to the platform, too. -/
theorem isLetterOrDigit_of_isLower {c : Char} (h : c.isLower = true) :
    E.isLetterOrDigit c = true := by
  have hbounds : (decide (c.val ≥ 'a'.val) && decide (c.val ≤ 'z'.val)) = true := h
  have hle : c.toNat ≤ 'z'.toNat := of_decide_eq_true (Bool.and_eq_true_iff.mp hbounds).2
  have hlt : c.toNat < 128 := Nat.lt_of_le_of_lt hle (by decide)
  rw [E.isLetterOrDigit_ascii c hlt]
  show (c.isUpper || c.isLower || c.isDigit) = true
  rw [h, Bool.or_true, Bool.true_or]

/-- A stem is made of letters and digits. -/
theorem StemmedFrom.isLetterOrDigit {str w : Str} (h : StemmedFrom (lettersOf E str) w) :
    ∀ c ∈ w, E.isLetterOrDigit c = true := by
  obtain ⟨p, u, r, -, hpre, rfl, -, hlower, -⟩ := h
  intro c hc
  rcases List.mem_append.mp hc with hc | hc
  · have hmem : c ∈ lettersOf E str := hpre.subset (List.mem_append_right p hc)
    exact (List.mem_filter.mp hmem).2
  · exact isLetterOrDigit_of_isLower (List.all_eq_true.mp hlower c hc)

end Porter

/-- The tokens of a page as they stand in its title and content. -/
def Crawler.rawTokens (c : Crawler) : List Str :=
  (c.extractTitle.map splitWs).getD [] ++ c.extractWords.getD []

/-- The pages whose words a call may give an ID to. -/
def Call.worded : Call → List Crawler
  | .wordAddEntryCrawler c => [c]
  | .wordIndexWords crawlers => crawlers
  | .forwardAddEntry c => [c]
  | .forwardIndexPages crawlers => crawlers
  | .invertedAddEntry c => [c]
  | .invertedIndexPages crawlers => crawlers
  | _ => []

/-- Where the words of a call come from. -/
theorem mem_words {call : Call} {w : Str} (h : w ∈ call.words E) :
    call = .wordAddEntry w ∨ ∃ c ∈ call.worded, w ∈ allWords E c := by
  have hcontent : ∀ c, w ∈ wordsIn E .content c → w ∈ allWords E c :=
    fun c hw => mem_allWords.mpr ⟨.content, hw⟩
  cases call with
  | wordAddEntry newWord => exact Or.inl (by rw [List.mem_singleton.mp h])
  | wordAddEntryCrawler c => exact Or.inr ⟨c, List.mem_singleton_self c, h⟩
  | wordIndexWords crawlers => exact Or.inr (List.mem_flatMap.mp h)
  | forwardAddEntry c => exact Or.inr ⟨c, List.mem_singleton_self c, hcontent c h⟩
  | forwardIndexPages crawlers =>
    obtain ⟨c, hc, hw⟩ := List.mem_flatMap.mp h
    exact Or.inr ⟨c, hc, hcontent c hw⟩
  | invertedAddEntry c => exact Or.inr ⟨c, List.mem_singleton_self c, h⟩
  | invertedIndexPages crawlers => exact Or.inr (List.mem_flatMap.mp h)
  | documentAddEntry c => cases h
  | documentAddEntryString s => cases h
  | documentIndexPages crawlers => cases h
  | parentChildAddEntry c => cases h
  | parentChildIndexPages crawlers => cases h

/-- The first part that `parser` returns is the title. -/
theorem Crawler.title_of_parser {c : Crawler} {part : List Str} {title : Str}
    (hpart : vectorGet c.parser 0 = .ok part) (htitle : vectorGet part 0 = .ok title) :
    c.extractTitle = some title := by
  unfold Crawler.parser at hpart
  cases h : c.extractTitle with
  | none =>
    rw [h] at hpart
    cases hpart
  | some title' =>
    rw [h] at hpart
    obtain rfl : [title'] = part := Except.ok.inj hpart
    obtain rfl : title' = title := Except.ok.inj htitle
    rfl

/-- The fourth part are the words of the content. -/
theorem Crawler.words_of_parser {c : Crawler} {words : List Str}
    (h : vectorGet c.parser 3 = .ok words) : c.extractWords = some words := by
  obtain ⟨url, title, date, size, content, links⟩ := c
  rcases title with _ | title
  · cases h
  rcases date with _ | date
  · cases h
  rcases size with _ | size
  · cases h
  rcases content with _ | content
  · cases h
  exact congrArg some (Except.ok.inj h)

/-- A word of a page is the stem of one of its tokens. -/
theorem stem_of_mem {c : Crawler} {w : Str} (h : w ∈ allWords E c) :
    ∃ token ∈ c.rawTokens, StopWords.isStopWord E token = false ∧
      StopWords.stem E token = .ok w := by
  obtain ⟨f, hw⟩ := mem_allWords.mp h
  obtain ⟨toks, htoks⟩ : ∃ toks, f.tokens E c = .ok toks := by
    cases htoks : f.tokens E c with
    | ok toks => exact ⟨toks, rfl⟩
    | error e =>
      rw [wordsIn, htoks] at hw
      cases hw
  rw [mem_wordsIn htoks] at hw
  cases f with
  | title =>
    obtain ⟨part, hpart, hclean⟩ := except_bind_ok.mp htoks
    obtain ⟨title, htitle, hclean⟩ := except_bind_ok.mp hclean
    obtain ⟨token, htoken, hstem⟩ := StopWords.mem_clean hclean w hw
    refine ⟨token, List.mem_append_left _ ?_, hstem⟩
    rw [Crawler.title_of_parser hpart htitle]
    exact htoken
  | content =>
    obtain ⟨words, hwords, hclean⟩ := except_bind_ok.mp htoks
    obtain ⟨token, htoken, hstem⟩ := StopWords.mem_clean hclean w hw
    refine ⟨token, List.mem_append_right _ ?_, hstem⟩
    rw [Crawler.words_of_parser hwords]
    exact htoken

/-- **Every word is a stem.**  After any run from empty stores, its calls in any order, pages
    re-indexed at will, any `put` failing: a word with an ID was given to
    `WordIndexer.addEntry(String)` as it is, or it is the stem of a token, no stop word, in the
    title or content of a page of the run.  Such a word is made of letters and digits; it is the
    letters of the token, in lower case, without one of the listed prefixes, up to at most four
    letters at the end; and it is not longer. -/
theorem words_stemmed (E : Platform) (run : List Attempt) (w : Str)
    (h : w ∈ runAll E run Stores.empty .word) :
    (∃ a ∈ run, a.call = .wordAddEntry w) ∨
    ∃ a ∈ run, ∃ c ∈ a.call.worded, ∃ token ∈ c.rawTokens,
      StopWords.isStopWord E token = false ∧ StopWords.stem E token = .ok w ∧
      (∀ ch ∈ w, E.isLetterOrDigit ch = true) ∧
      ∃ p u r, (p = [] ∨ p ∈ Porter.prefixes) ∧ p ++ u <+: Porter.lettersOf E token ∧
        w = u ++ r ∧ r.length ≤ 4 ∧ p.length + w.length ≤ (Porter.lettersOf E token).length := by
  obtain ⟨id, hid⟩ := mem_iff_get.mp h
  obtain ⟨a, ha, hmention⟩ := (sourced_runAll E run).tables .word w id hid
  rcases mem_words hmention with hraw | ⟨c, hc, hw⟩
  · exact Or.inl ⟨a, ha, hraw⟩
  · obtain ⟨token, htoken, hstop, hstem⟩ := stem_of_mem hw
    have hshape := Porter.stripAffixes_shape E token w hstem
    refine Or.inr ⟨a, ha, c, hc, token, htoken, hstop, hstem, hshape.isLetterOrDigit, ?_⟩
    obtain ⟨p, u, r, hp, hpre, happ, hfour, -, hlen⟩ := hshape
    exact ⟨p, u, r, hp, hpre, happ, hfour, hlen⟩

/-- The one word of two small pages. -/
theorem two_pages_stemmed : ∃ c ∈ twoPages, ∃ token ∈ c.rawTokens,
    StopWords.stem asciiPlatform token = .ok "ab".toList := by
  have hentered := entered_runAll asciiPlatform [] [] ⟨.invertedIndexPages twoPages, []⟩
    (twoPages_returns _)
  have hword := hentered.words "ab".toList (twoPages_words _ (List.mem_singleton_self _))
  rcases words_stemmed asciiPlatform [⟨.invertedIndexPages twoPages, []⟩] "ab".toList hword with
    ⟨a, ha, hraw⟩ | ⟨a, ha, c, hc, token, htoken, -, hstem, -⟩
  · rw [List.mem_singleton.mp ha] at hraw
    cases hraw
  · rw [List.mem_singleton.mp ha] at hc
    exact ⟨c, hc, token, htoken, hstem⟩

end SearchEngine
