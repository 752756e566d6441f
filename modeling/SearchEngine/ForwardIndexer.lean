/-
  `ForwardIndexer.java`: one record per page.

  A record joins seven fields with the separator `" ;;; "`: title, date, size, the
  `ID freq` pairs, the links, the sum of the squared frequencies (`word_count`, a 32-bit `int`
  that wraps), and the first fifty raw tokens.  Nothing is escaped.
-/
import SearchEngine.DocumentIndexer
import Mathlib.Tactic.Common

namespace SearchEngine

open Text Numeral Effect

namespace ForwardIndexer

/-- The field separator. -/
def sep : Str := " ;;; ".toList

/-- The frequency map: an ID that is not there yet enters with `1`. -/
def bump (map : List (Str × Nat)) (ID : Str) : List (Str × Nat) :=
  match map with
  | [] => [(ID, 1)]
  | (k, n) :: rest => if k = ID then (k, n + 1) :: rest else (k, n) :: bump rest ID

/-- The `ID freq` pairs as they are written. -/
def pairsText (entries : List (Str × Nat)) : Str :=
  entries.flatMap (fun e => e.1 ++ ' ' :: decimal e.2 ++ [' '])

/-- The accumulation of `word_count` in a Java `int`. -/
def wordCount (entries : List (Str × Nat)) : Int :=
  entries.foldl (fun wc e => wrap32 (wc + wrap32 ((e.2 : Int) * e.2))) 0

/-- The links as they are written. -/
def linksText (links : List Str) : Str := links.flatMap (· ++ [' '])

/-- The first fifty raw tokens as they are written. -/
def rawContent (content : List Str) : Str := (content.take 50).flatMap (· ++ [' '])

/-- The record of a page. -/
def record (title lastModDate size pairs links : Str) (wc : Int) (raw : Str) : Str :=
  title ++ (sep ++ (lastModDate ++ (sep ++ (size ++ (sep ++ (pairs ++ (sep ++ (links ++
    (sep ++ (intToString wc ++ (sep ++ raw)))))))))))

/-- One turn of the counting loop. -/
def countWord (map : List (Str × Nat)) (key : Str) : IndexM (List (Str × Nat)) := do
  let ID ← WordIndexer.wordID key
  pure (bump map ID)

/-- The counting loop over the cleaned content. -/
def countWords (content : List Str) : IndexM (List (Str × Nat)) := content.foldlM countWord []

/-- `addEntry(Crawler c)`. -/
def addEntry (E : Platform) (c : Crawler) : IndexM Unit := do
  let parsed := c.parser
  let content ← lift (vectorGet parsed 3)
  let links ← lift (vectorGet parsed 4)
  let pageID ← DocumentIndexer.pageID c.url
  let title ← lift (vectorGet parsed 0 >>= (vectorGet · 0))
  let lastModDate ← lift (vectorGet parsed 1 >>= (vectorGet · 0))
  let size ← lift (vectorGet parsed 2 >>= (vectorGet · 0))
  let cleaned ← lift (StopWords.clean E content)
  let map ← countWords cleaned
  let entries := E.hashOrder map
  Db.forwardIndex.put pageID
    (record title lastModDate size (pairsText entries) (linksText links) (wordCount entries)
      (rawContent content))

/-- `index_pages()`. -/
def indexPages (E : Platform) (crawlers : List Crawler) : IndexM Unit :=
  crawlers.foldlM (fun _ c => addEntry E c) ()

end ForwardIndexer

end SearchEngine
