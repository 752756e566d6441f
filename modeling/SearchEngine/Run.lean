/-
  Whole runs: any sequence of indexer calls, any of their `put`s failing.

  An `Attempt` is one call of a public method together with its schedule of faults.  A run goes
  through its attempts one after the other, each starting from whatever stores the one before
  left, be it by returning or by throwing half-way.  `Reachable` is what such runs reach from
  empty stores, and `Reachable.induct` the one induction every invariant is proved by.
-/
import SearchEngine.InvertedIndexer
import SearchEngine.ForwardIndexer
import SearchEngine.ParentChildIndexer
import Mathlib.Tactic.Common

namespace SearchEngine

open Text Effect

/-- A call of one of the indexers. -/
inductive Call where
  | documentAddEntry (c : Crawler)
  | documentAddEntryString (s : Str)
  | documentIndexPages (crawlers : List Crawler)
  | wordAddEntry (newWord : Str)
  | wordAddEntryCrawler (c : Crawler)
  | wordIndexWords (crawlers : List Crawler)
  | forwardAddEntry (c : Crawler)
  | forwardIndexPages (crawlers : List Crawler)
  | invertedAddEntry (c : Crawler)
  | invertedIndexPages (crawlers : List Crawler)
  | parentChildAddEntry (c : Crawler)
  | parentChildIndexPages (crawlers : List Crawler)

/-- The method a call runs. -/
def Call.exec (E : Platform) : Call → IndexM Unit
  | .documentAddEntry c => DocumentIndexer.addEntry c
  | .documentAddEntryString s => DocumentIndexer.addEntryString s
  | .documentIndexPages crawlers => DocumentIndexer.indexPages crawlers
  | .wordAddEntry newWord => WordIndexer.addEntry newWord
  | .wordAddEntryCrawler c => WordIndexer.addEntryCrawler E c
  | .wordIndexWords crawlers => WordIndexer.indexWords E crawlers
  | .forwardAddEntry c => ForwardIndexer.addEntry E c
  | .forwardIndexPages crawlers => ForwardIndexer.indexPages E crawlers
  | .invertedAddEntry c => InvertedIndexer.addEntry E c
  | .invertedIndexPages crawlers => InvertedIndexer.indexPages E crawlers
  | .parentChildAddEntry c => ParentChildIndexer.addEntry c
  | .parentChildIndexPages crawlers => ParentChildIndexer.indexPages crawlers

/-- A call, and which of its `put`s throw. -/
structure Attempt where
  call : Call
  faults : List Bool

namespace Attempt

variable (E : Platform)

/-- The outcome of an attempt. -/
def outcome (a : Attempt) (s : Stores) : EStateM.Result Exn World Unit :=
  a.call.exec E ⟨s, a.faults⟩

/-- The stores an attempt leaves behind. -/
def after (a : Attempt) (s : Stores) : Stores := (finalState (a.outcome E s)).stores

/-- An attempt that returned ran its method to the end. -/
theorem ok_of_returns {E : Platform} {a : Attempt} {s : Stores}
    (h : returns (a.outcome E s) = true) :
    ∃ x : World, a.call.exec E ⟨s, a.faults⟩ = .ok () x ∧ a.after E s = x.stores := by
  unfold after
  unfold outcome at h ⊢
  cases hrun : a.call.exec E ⟨s, a.faults⟩ with
  | ok u x => exact ⟨x, rfl, rfl⟩
  | error e x =>
    rw [hrun] at h
    exact absurd h (by simp [returns])

end Attempt

/-- The stores behind a run. -/
def runAll (E : Platform) (run : List Attempt) (s : Stores) : Stores :=
  run.foldl (fun s a => a.after E s) s

/-- Every attempt of the run returned normally. -/
def NoneAborted (E : Platform) : List Attempt → Stores → Prop
  | [], _ => True
  | a :: run, s => returns (a.outcome E s) = true ∧ NoneAborted E run (a.after E s)

instance decidableNoneAborted (E : Platform) :
    ∀ (run : List Attempt) (s : Stores), Decidable (NoneAborted E run s)
  | [], _ => inferInstanceAs (Decidable True)
  | a :: run, s =>
    have := decidableNoneAborted E run (a.after E s)
    inferInstanceAs (Decidable (_ ∧ _))

/-- The stores that runs from empty stores reach. -/
def Reachable (E : Platform) (s : Stores) : Prop := ∃ run, s = runAll E run Stores.empty

theorem runAll_induct {E : Platform} {I : Stores → Prop}
    (step : ∀ a s, I s → I (Attempt.after E a s)) :
    ∀ (run : List Attempt) (s : Stores), I s → I (runAll E run s)
  | [], _, hs => hs
  | a :: run, s, hs => runAll_induct step run (a.after E s) (step a s hs)

/-- **The induction over runs**: what holds of empty stores and is kept by every attempt holds
    of every reachable state. -/
theorem Reachable.induct {E : Platform} {I : Stores → Prop} (init : I Stores.empty)
    (step : ∀ a s, I s → I (Attempt.after E a s)) {s : Stores} (h : Reachable E s) : I s := by
  obtain ⟨run, rfl⟩ := h
  exact runAll_induct step run Stores.empty init

/-- An invariant of the stores, kept by every call, is kept by every attempt. -/
theorem after_of_preserves {E : Platform} {I : Stores → Prop}
    (h : ∀ call : Call, Preserves (fun w : World => I w.stores) (call.exec E)) (a : Attempt)
    (s : Stores) (hs : I s) : I (a.after E s) :=
  (h a.call).finalState (s := ⟨s, a.faults⟩) hs

end SearchEngine
