/-
  `ParentChildIndexer.java`: the two link indexes.

  `ParentChildIndex[p]` is OVERWRITTEN with the children of `p`, each ID followed by `;;`, a
  blank in front; `ParentChildIndexInverted[c]` is APPENDED to, the parents of `c` separated by
  `;;`.  The two branches of the source differ only in whether the child's ID is issued on the
  fly, and in the order of two updates that do not meet.
-/
import SearchEngine.DocumentIndexer
import Mathlib.Tactic.Common

namespace SearchEngine

open Text Numeral Effect

namespace ParentChildIndexer

/-- The separator of both indexes. -/
def sep : Str := ";;".toList

/-- Enter `pageID` among the parents of `child`. -/
def addParent (child pageID : Str) : IndexM Unit := do
  match ← Db.parentChildIndexInverted.get child with
  | none => Db.parentChildIndexInverted.put child pageID
  | some existed => Db.parentChildIndexInverted.put child (existed ++ sep ++ pageID)

/-- One turn of the loop over the links; `asu` is the text of the children so far. -/
def addLink (pageID asu link : Str) : IndexM Str := do
  let pageIDChild ← DocumentIndexer.pageID link
  addParent pageIDChild pageID
  pure (asu ++ pageIDChild ++ sep)

/-- `addEntry(Crawler c)`. -/
def addEntry (c : Crawler) : IndexM Unit := do
  let links ← lift (vectorGet c.parser 4)
  let pageID ← DocumentIndexer.pageID c.url
  if 0 < links.length then
    let asu ← links.foldlM (addLink pageID) [' ']
    Db.parentChildIndex.put pageID asu
  else pure ()

/-- `index_pages()`. -/
def indexPages (crawlers : List Crawler) : IndexM Unit :=
  crawlers.foldlM (fun _ c => addEntry c) ()

end ParentChildIndexer

end SearchEngine
