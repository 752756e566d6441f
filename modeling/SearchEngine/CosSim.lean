/-
  `CosSim.java`: answering a query.

  `getPages` cleans the query, replaces the words by their IDs IN PLACE (`resolveLoop`: an
  unknown word is removed from the vector while the index moves on), walks the posting texts of
  the remaining keys with a cursor for the last page seen (`accumulateList`), and divides by the
  norm it reads back from the forward record.  The map `cossim_u` holds `Integer`s, which wrap, and
  the scores are doubles.

  The loops take the addition of the counts as a parameter.  `getPages` runs them with the addition
  of `int`s (`cossimU`); `accumulate`, the same loops over the integers, is what can be said about
  them apart from overflow, and `cossimU_eq` (in `Accumulation`) that the one is the other, wrapped.
-/
import SearchEngine.InvertedIndexer
import SearchEngine.ForwardIndexer
import Mathlib.Tactic.Common

namespace SearchEngine

open Text Numeral

namespace CosSim

/-- The loop that maps words to word IDs: `q.set(i, wID)` or `q.remove(i)`, and `i++` either
    way.  The flag is `no_match`. -/
def resolveLoop (word : RocksDB) (q : List Str) (i : Nat) (noMatch : Bool) : List Str × Bool :=
  if h : i < q.length then
    match word[q[i]]? with
    | some wID => resolveLoop word (q.set i wID) (i + 1) false
    | none => resolveLoop word (q.eraseIdx i) (i + 1) noMatch
  else (q, noMatch)
termination_by q.length - i
decreasing_by
  · rw [List.length_set]; omega
  · rw [List.length_eraseIdx]; split <;> omega

/-- `cossim_u`. -/
abbrev Numerators := Std.ExtTreeMap Str Int compare

/-- Is the token a page tag?  `t.length() > 3 && t.substring(0,3).equals("doc")` -/
def isDocToken (t : Str) : Bool := 3 < t.length && t.take 3 == "doc".toList

/-- The addition of two `int`s. -/
def addInt (m n : Int) : Int := wrap32 (m + n)

/-- The accumulation over one posting text, `lastDoc` being the cursor.  Reading `cossim_u` at
    a missing key unboxes `null`. -/
def accumulateList (plus : Int → Int → Int) (weight : Int) :
    List Str → Str → Numerators → Except Exn Numerators
  | [], _, u => .ok u
  | t :: ts, lastDoc, u =>
    if isDocToken t then
      accumulateList plus weight ts (t.drop 3) (u.insertIfNew (t.drop 3) 0)
    else
      match u[lastDoc]? with
      | none => .error .nullPointer
      | some n => accumulateList plus weight ts lastDoc (u.insert lastDoc (plus n weight))

/-- The accumulation over the value of one key in one index, if it has one. -/
def accumulateValue (plus : Int → Int → Int) (weight : Int) (value : Option Str)
    (u : Numerators) : Except Exn Numerators :=
  match value with
  | none => .ok u
  | some text => accumulateList plus weight (splitWs text) [] u

/-- One turn of the loop over the keys of the query: titles count twice. -/
def accumulateKey (plus : Int → Int → Int) (titleInverted contentInverted : RocksDB)
    (u : Numerators) (k : Str) : Except Exn Numerators := do
  let u ← accumulateValue plus 2 titleInverted[k]? u
  accumulateValue plus 1 contentInverted[k]? u

/-- The accumulation loops, over the integers. -/
def accumulate (titleInverted contentInverted : RocksDB) (q : List Str) :
    Except Exn Numerators :=
  q.foldlM (accumulateKey (· + ·) titleInverted contentInverted) ∅

/-- The accumulation loops as they run, on `Integer`s. -/
def cossimU (titleInverted contentInverted : RocksDB) (q : List Str) : Except Exn Numerators :=
  q.foldlM (accumulateKey addInt titleInverted contentInverted) ∅

/-- `Integer.parseInt(fwd.get(5))` on the record of a page. -/
def freqSq (forwardIndex : RocksDB) (key : Str) : Except Exn Int :=
  match forwardIndex[key]? with
  | none => .error .nullPointer
  | some fwdStr => do
    let field ← vectorGet (splitOn ForwardIndexer.sep fwdStr) 5
    match parseInt field with
    | some n => .ok n
    | none => .error .numberFormat

/-- `cossim_u / ( sqrt(freq_sq) * sqrt(q.size()) )`. -/
def score (u freq : Int) (qSize : Nat) : Float :=
  Float.ofInt u / (Float.sqrt (Float.ofInt freq) * Float.sqrt (Float.ofNat qSize))

/-- The final loop: keep the pages that score above the threshold. -/
def scorePages (forwardIndex : RocksDB) (qSize : Nat) (thresh : Float) (u : Numerators) :
    Except Exn (List (Str × Float)) :=
  u.toList.foldlM
    (fun cossim e => do
      let freq ← freqSq forwardIndex e.1
      let res := score e.2 freq qSize
      pure (if thresh < res then cossim ++ [(e.1, res)] else cossim))
    []

/-- `getPages(thresh)`; `none` is the `null` of a query without a match. -/
def getPages (E : Platform) (s : Stores) (query : Str) (thresh : Float) :
    Except Exn (Option (List (Str × Float))) := do
  let q ← StopWords.clean E (splitWs query)
  let (q, noMatch) := resolveLoop (s .word) q 0 true
  if noMatch then pure none
  else
    let u ← cossimU (s .titleInverted) (s .contentInverted) q
    let cossim ← scorePages (s .forwardIndex) q.length thresh u
    pure (some cossim)

end CosSim

end SearchEngine
