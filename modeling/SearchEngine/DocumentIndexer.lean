/-
  `DocumentIndexer.java` and `WordIndexer.java`: issuing page and word IDs.

  The next ID is never stored.  A single call counts the keys of the forward store and issues
  the next numeral; a batch counts once and carries the counter through its loop.  Both classes
  run the same code on their own pair of stores, so the ID assignment is written once
  (`assignID`, `addID`, `ensureID`) and each method is that code at its own pair.

  The two `put`s of an assignment are not atomic: an abort can fall between them.

  `lastID` is an `Integer` in the source and has no bound here: the two agree as long as a store has
  fewer than `2 ^ 31` keys.
-/
import SearchEngine.Crawler
import Mathlib.Tactic.Common

namespace SearchEngine

open Text Numeral Effect

/-- One assignment: unless `key` is there, issue the numeral behind `lastID` and put both
    directions.  Returns the counter. -/
def assignID (fwd inv : Db) (lastID : Nat) (key : Str) : IndexM Nat := do
  match ← fwd.get key with
  | some _ => pure lastID
  | none =>
    fwd.put key (decimal (lastID + 1))
    inv.put (decimal (lastID + 1)) key
    pure (lastID + 1)

/-- Count the keys, then assign. -/
def addID (fwd inv : Db) (key : Str) : IndexM Unit := do
  let lastID ← fwd.count
  let _ ← assignID fwd inv lastID key

/-- The ID of `key`, assigned on the fly when there is none. -/
def ensureID (fwd inv : Db) (key : Str) : IndexM Str := do
  match ← fwd.get key with
  | some ID => pure ID
  | none =>
    addID fwd inv key
    fwd.fetch key

namespace DocumentIndexer

/-- `addEntry(String s)`. -/
def addEntryString (s : Str) : IndexM Unit := addID .document .invertedDocument s

/-- `addEntry(Crawler c)`. -/
def addEntry (c : Crawler) : IndexM Unit := addID .document .invertedDocument c.url

/-- `index_pages()`: one counter for the whole batch. -/
def indexPages (crawlers : List Crawler) : IndexM Unit := do
  let lastID ← Db.document.count
  let _ ← crawlers.foldlM (fun lastID c => assignID .document .invertedDocument lastID c.url) lastID

/-- `document.get(url)`, through `addEntry` when there is no ID yet. -/
def pageID (url : Str) : IndexM Str := ensureID .document .invertedDocument url

end DocumentIndexer

namespace WordIndexer

/-- `addEntry(String new_word)`. -/
def addEntry (newWord : Str) : IndexM Unit := addID .word .invertedWord newWord

/-- The title and content loops over one page, with the counter carried through both. -/
def addWords (E : Platform) (lastID : Nat) (c : Crawler) : IndexM Nat := do
  let p := c.parser
  let title ← lift (Crawler.titleTokens E p)
  let lastID ← title.foldlM (assignID .word .invertedWord) lastID
  let content ← lift (Crawler.contentTokens E p)
  content.foldlM (assignID .word .invertedWord) lastID

/-- `addEntry(Crawler c)`. -/
def addEntryCrawler (E : Platform) (c : Crawler) : IndexM Unit := do
  let lastID ← Db.word.count
  let _ ← addWords E lastID c

/-- `index_words()`: one counter for all pages. -/
def indexWords (E : Platform) (crawlers : List Crawler) : IndexM Unit := do
  let lastID ← Db.word.count
  let _ ← crawlers.foldlM (addWords E) lastID

/-- `word.get(w)`, through `addEntry` when there is no ID yet. -/
def wordID (w : Str) : IndexM Str := ensureID .word .invertedWord w

end WordIndexer

end SearchEngine
