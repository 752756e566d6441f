/-
  `Crawler.java`: one page of the web, as the indexers see it.

  A `Crawler` value is a URL together with what the five extractions yield at the moment the
  page is parsed (`none` for an extraction that throws).  The web itself is outside the engine;
  a page whose content changes between two calls is two `Crawler` values with one URL.
-/
import SearchEngine.StopWords
import Mathlib.Tactic.Common

namespace SearchEngine

open Text

/-- A crawled page: its URL and the outcome of each extraction. -/
structure Crawler where
  url : Str
  extractTitle : Option Str
  extractLastModDate : Option Str
  extractSize : Option Str
  extractWords : Option (List Str)
  extractLinks : Option (List Str)
  deriving DecidableEq

namespace Crawler

/-- `parser()`: the parts are added one after the other, and the first extraction that throws
    ends the method with the parts added so far. -/
def parser (c : Crawler) : List (List Str) :=
  match c.extractTitle with
  | none => []
  | some title =>
    [title] ::
      match c.extractLastModDate with
      | none => []
      | some lastModDate =>
        [lastModDate] ::
          match c.extractSize with
          | none => []
          | some size =>
            [size] ::
              match c.extractWords with
              | none => []
              | some words =>
                words ::
                  match c.extractLinks with
                  | none => []
                  | some links => [links]

/-- `url.replaceFirst("s", "")`: the address `extractSize` and `extractLastModDate` connect to. -/
def connectionURL (c : Crawler) : Str := replaceFirst ['s'] [] c.url

/-- A page whose extractions all succeed. -/
def page (url title lastModDate size : Str) (words links : List Str) : Crawler :=
  ⟨url, some title, some lastModDate, some size, some words, some links⟩

/-- `StopWords.clean(p.get(0).get(0).split("\\s+"))`. -/
def titleTokens (E : Platform) (p : List (List Str)) : Except Exn (List Str) := do
  let title ← vectorGet p 0
  let titleWords ← vectorGet title 0
  StopWords.clean E (splitWs titleWords)

/-- `StopWords.clean(p.get(3))`. -/
def contentTokens (E : Platform) (p : List (List Str)) : Except Exn (List Str) := do
  let words ← vectorGet p 3
  StopWords.clean E words

end Crawler

/-- In a batch with distinct URLs, the URL of the next page is not among those before it. -/
theorem url_not_mem {done todo : List Crawler} {c : Crawler}
    (h : ((done ++ c :: todo).map Crawler.url).Nodup) : c.url ∉ done.map Crawler.url := by
  intro hmem
  rw [List.map_append, List.map_cons] at h
  exact (List.nodup_append.mp h).2.2 _ hmem _ (by simp) rfl

end SearchEngine
