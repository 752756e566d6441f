/-
  `PageRankIndexer.java`: ranks over the two link indexes.

  Ranks are stored as TEXT.  `Initialize` writes `"1"` for every page; a sweep goes through the
  pages with parents in key order and overwrites each rank in place, so later pages of a sweep
  already see the new ranks of earlier ones.  `index_ranks` sweeps until its counter of unchanged
  ranks hits the number of keys — a counter that is set to zero once, before the FIRST sweep.

  The arithmetic is a parameter: what the methods need of `Double` is collected in
  `RankArithmetic`, so that the same code runs on doubles, on exact rationals or on anything else.
-/
import SearchEngine.ParentChildIndexer
import SearchEngine.Lib.Loop
import Mathlib.Tactic.Common

namespace SearchEngine

open Text Numeral Effect

/-- The operations on ranks, and how a rank is written: `toText` for `Double.toString` and
    `valueOf` for `Double.valueOf`, which throws (`none`) on a text that is no number. -/
structure RankArithmetic (R : Type) where
  valueOf : Str → Option R
  toText : R → Str
  one : R
  zero : R
  add : R → R → R
  /-- `rankD / Child.length` -/
  div : R → Nat → R
  /-- `(0.15) + (0.85*rank)` -/
  damp : R → R
  valueOf_one : valueOf ['1'] = some one
  valueOf_toText : ∀ r, valueOf (toText r) = some r

/-- A computation that only looks at the stores. -/
def look {α : Type} (f : Stores → Except Exn α) : IndexM α := fun x => lift (f x.stores) x

/-- `new String(db.get(key))`: a `null` is dereferenced. -/
def Stores.fetch (s : Stores) (d : Db) (key : Str) : Except Exn Str :=
  match (s d)[key]? with
  | some v => .ok v
  | none => .error .nullPointer

namespace PageRankIndexer

open ParentChildIndexer (sep)

/-- `Initialize()`. -/
def initializeRanks : IndexM Unit := fun x =>
  (x.stores .invertedDocument).keys.foldlM (fun _ key => Db.pageRankIndex.put key ['1']) () x

variable {R : Type} (A : RankArithmetic R)

/-- `Double.valueOf(new String(PageRankIndex.get(key)))`. -/
def storedRank (s : Stores) (key : Str) : Except Exn R := do
  let rankS ← s.fetch .pageRankIndex key
  match A.valueOf rankS with
  | some rankD => .ok rankD
  | none => .error .numberFormat

/-- `computePageRank`: the rank of a parent, shared out over its children. -/
def computePageRank (s : Stores) (parent : Str) : Except Exn R := do
  let rankD ← storedRank A s parent
  let child ← s.fetch .parentChildIndex parent
  .ok (A.div rankD (splitOn sep child).length)

/-- The loop over the parents of a page, and the damping behind it. -/
def newRank (s : Stores) (value : Str) : Except Exn R := do
  let rank ← (splitOn sep value).foldlM
    (fun rank parent => do
      let share ← computePageRank A s parent
      .ok (A.add rank share)) A.zero
  .ok (A.damp rank)

variable [DecidableEq R]

/-- One turn of a sweep: recompute the rank of a page and store it.  Returns whether
    `rank.equals(rankD)`. -/
def indexRank (entry : Str × Str) : IndexM Bool := do
  let rank ← look (fun s => newRank A s entry.2)
  let rankD ← look (fun s => storedRank A s entry.1)
  Db.pageRankIndex.put entry.1 (A.toText rank)
  pure (decide (rank = rankD))

/-- The local variables of `index_ranks` that outlive a sweep. -/
structure Convergence where
  convergenum : Nat
  converge : Bool
  deriving DecidableEq

/-- The values they start from. -/
def Convergence.init : Convergence := ⟨0, false⟩

/-- The counter behind one turn. -/
def Convergence.tick (total : Nat) (v : Convergence) (equal : Bool) : Convergence :=
  if equal then
    ⟨v.convergenum + 1, if v.convergenum + 1 = total then true else v.converge⟩
  else v

/-- The body of the loop of a sweep. -/
def sweepTurn (total : Nat) (v : Convergence) (entry : Str × Str) : IndexM Convergence := do
  let equal ← indexRank A entry
  pure (v.tick total equal)

/-- One sweep over `ParentChildIndexInverted`. -/
def sweep (total : Nat) (v : Convergence) : IndexM Convergence := fun x =>
  (x.stores .parentChildIndexInverted).toList.foldlM (sweepTurn A total) v x

/-- The body of the `do ... while(Converge == false)`. -/
def sweepRound (total : Nat) (v : Convergence) : IndexM (Round Convergence Unit) := do
  let v ← sweep A total v
  pure (if v.converge then .done () else .again v)

/-- `index_ranks()`, with a budget of sweeps. -/
def indexRanks (budget : Nat) : IndexM (Option Unit) := do
  let total ← Db.parentChildIndexInverted.count
  loop (sweepRound A total) budget Convergence.init

end PageRankIndexer

end SearchEngine
