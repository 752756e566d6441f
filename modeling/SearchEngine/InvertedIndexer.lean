/-
  `InvertedIndexer.java`: the two inverted indexes.

  A value is a text of page groups, `doc<ID> pos pos ...`, positions counted from `1`.  The
  title loop and the content loop are the same code on two stores (`Field`).  For every token
  the loop finds the page's group by SUBSTRING SEARCH for `doc<ID>`, cuts it out up to the next
  `d` when it is left over from an earlier indexing (the flags `rewrite` and `refreshed`), and
  then appends a new group or splices the position in right behind `doc<ID>`.
-/
import SearchEngine.DocumentIndexer
import Mathlib.Tactic.Common

namespace SearchEngine

open Text Numeral Effect

/-- Which of the two inverted indexes. -/
inductive Field where
  | title
  | content
  deriving DecidableEq, Repr

namespace Field

/-- The store of an index. -/
def db : Field → Db
  | .title => .titleInverted
  | .content => .contentInverted

/-- The tokens a page contributes to an index. -/
def tokens (E : Platform) (f : Field) (c : Crawler) : Except Exn (List Str) :=
  match f with
  | .title => Crawler.titleTokens E c.parser
  | .content => Crawler.contentTokens E c.parser

end Field

namespace InvertedIndexer

/-- `"doc" + pageID`. -/
def docTag (pageID : Str) : Str := "doc".toList ++ pageID

/-- `"doc" + pageID + " " + (i+1)`. -/
def firstPosting (pageID : Str) (i : Nat) : Str := docTag pageID ++ ' ' :: decimal (i + 1)

/-- The variables of the loop: the position, and the two flags of the re-indexing logic. -/
structure Loop where
  i : Nat
  rewrite : Bool
  refreshed : List Str
  deriving DecidableEq

/-- The loop variables on entry. -/
def Loop.init : Loop := ⟨0, false, []⟩

/-- The removal: from `loc` up to the next `d` behind it, or to the end. -/
def removeGroup (tempVal : Str) (loc : Nat) : Str :=
  let endLoc := loc + 1 + (tempVal.drop (loc + 1)).findIdx (· == 'd')
  tempVal.take loc ++ tempVal.drop endLoc

/-- The update once stale postings are out of the way: append a group, or splice the position
    in behind the tag. -/
def addPosting (pageID : Str) (i : Nat) (tempVal : Str) : Option Nat → Str
  | none =>
    if tempVal = [] ∨ tempVal = [' '] then firstPosting pageID i
    else tempVal ++ ' ' :: firstPosting pageID i
  | some loc =>
    let splitLoc := loc + (docTag pageID).length
    tempVal.take splitLoc ++ ' ' :: decimal (i + 1) ++ tempVal.drop splitLoc

/-- The new value of a word, and the flags behind it. -/
def newValue (pageID wordID : Str) (v : Loop) (value : Option Str) : Str × Bool × List Str :=
  match value with
  | none => (firstPosting pageID v.i, v.rewrite, v.refreshed)
  | some tempVal =>
    match indexOf (docTag pageID) tempVal with
    | none => (addPosting pageID v.i tempVal none, v.rewrite, v.refreshed)
    | some loc =>
      -- if the page already exist, remove
      if (v.i = 0 ∨ v.rewrite = true) ∧ wordID ∉ v.refreshed then
        let tempVal := removeGroup tempVal loc
        (addPosting pageID v.i tempVal (indexOf (docTag pageID) tempVal), true,
          v.refreshed ++ [wordID])
      else (addPosting pageID v.i tempVal (some loc), v.rewrite, v.refreshed)

/-- One turn of the loop. -/
def addToken (f : Field) (pageID : Str) (v : Loop) (w : Str) : IndexM Loop := do
  let wordID ← WordIndexer.wordID w
  let value ← f.db.get wordID
  let (value, rewrite, refreshed) := newValue pageID wordID v value
  f.db.put wordID value
  pure ⟨v.i + 1, rewrite, refreshed⟩

/-- The loop over one token list. -/
def addTokens (f : Field) (pageID : Str) (tokens : List Str) : IndexM Unit := do
  let _ ← tokens.foldlM (addToken f pageID) Loop.init

/-- `addEntry(Crawler c)`. -/
def addEntry (E : Platform) (c : Crawler) : IndexM Unit := do
  let pageID ← DocumentIndexer.pageID c.url
  let title ← lift (Field.title.tokens E c)
  addTokens .title pageID title
  let content ← lift (Field.content.tokens E c)
  addTokens .content pageID content

/-- `index_pages()`. -/
def indexPages (E : Platform) (crawlers : List Crawler) : IndexM Unit :=
  crawlers.foldlM (fun _ c => addEntry E c) ()

end InvertedIndexer

end SearchEngine
