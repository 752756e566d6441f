/-
  The RocksDB stores, and the programs that run over them.

  Each of the engine's ten databases is a finite map from strings to strings, ordered by key
  (RocksDB's bytewise order; for UTF-8 text that is the order of the code points).  Byte arrays
  and strings are identified: `s.getBytes()` and `new String(bytes)` undo each other.

  A call runs against a `World`: the stores, and a schedule of `faults` saying which of the
  coming `put`s throw.  A throwing `put` leaves its store as it was; whatever the call wrote
  before stays written.  A schedule that has run out stands for stores that no longer fail.
-/
import SearchEngine.Lib.Text
import SearchEngine.Lib.Numeral
import SearchEngine.Lib.Effect
import SearchEngine.Lib.NumberedMap
import Mathlib.Tactic.Common

namespace SearchEngine

open Text Numeral Effect

/-- The exceptions that can leave one of the modelled methods. -/
inductive Exn where
  | rocksDB
  | arrayIndexOutOfBounds
  | stringIndexOutOfBounds
  | nullPointer
  | numberFormat
  deriving DecidableEq, Repr

/-- The databases opened by `SearchEngine.main`. -/
inductive Db where
  | document
  | invertedDocument
  | word
  | invertedWord
  | forwardIndex
  | titleInverted
  | contentInverted
  | parentChildIndex
  | parentChildIndexInverted
  | pageRankIndex
  deriving DecidableEq, Repr

/-- One database: a finite map, iterated in key order. -/
abbrev RocksDB := Std.ExtTreeMap Str Str compare

/-- All databases together. -/
abbrev Stores := Db → RocksDB

namespace Stores

/-- No database holds anything. -/
def empty : Stores := fun _ => ∅

/-- One `put` that succeeds. -/
def put (s : Stores) (d : Db) (k v : Str) : Stores :=
  fun d' => if d' = d then (s d).insert k v else s d'

@[simp] theorem put_same (s : Stores) (d : Db) (k v : Str) : s.put d k v d = (s d).insert k v :=
  if_pos rfl

theorem put_other (s : Stores) {d d' : Db} (h : d' ≠ d) (k v : Str) : s.put d k v d' = s d' :=
  if_neg h

end Stores

/-- The stores, and which of the coming `put`s throw. -/
structure World where
  stores : Stores
  faults : List Bool

/-- A method of one of the indexers. -/
abbrev IndexM := EStateM Exn World

namespace Db

/-- `db.get(key)`; `none` is Java's `null`. -/
def get (d : Db) (k : Str) : IndexM (Option Str) := fun w => .ok ((w.stores d)[k]?) w

/-- `db.put(key, value)`. -/
def put (d : Db) (k v : Str) : IndexM Unit := fun w =>
  match w.faults with
  | true :: fs => .error .rocksDB { w with faults := fs }
  | false :: fs => .ok () { stores := w.stores.put d k v, faults := fs }
  | [] => .ok () { w with stores := w.stores.put d k v }

/-- The loop `for(iter.seekToFirst(); iter.isValid(); iter.next()) lastID++;`. -/
def count (d : Db) : IndexM Nat := fun w =>
  .ok ((w.stores d).keys.foldl (fun lastID _ => lastID + 1) 0) w

/-- `db.get(key)` where the caller goes on to use the bytes: a `null` is dereferenced. -/
def fetch (d : Db) (k : Str) : IndexM Str := fun w =>
  match (w.stores d)[k]? with
  | some v => .ok v w
  | none => .error .nullPointer w

theorem count_run (d : Db) (w : World) : d.count w = .ok (w.stores d).size w := by
  have hfold : ∀ (l : List Str) (n : Nat),
      l.foldl (fun lastID _ => lastID + 1) n = n + l.length := by
    intro l
    induction l with
    | nil => exact fun n => rfl
    | cons a l ih => intro n; rw [List.foldl_cons, ih, List.length_cons]; omega
  rw [count, hfold, Std.ExtTreeMap.length_keys, Nat.zero_add]

theorem fetch_run_some {d : Db} {k v : Str} {w : World} (h : (w.stores d)[k]? = some v) :
    d.fetch k w = .ok v w := by
  rw [fetch, h]

/-- A `put` either throws and leaves the stores alone, or returns with the binding in place. -/
theorem put_cases (d : Db) (k v : Str) (w : World) :
    (∃ fs, d.put k v w = .error .rocksDB ⟨w.stores, fs⟩) ∨
    (∃ fs, d.put k v w = .ok () ⟨w.stores.put d k v, fs⟩) := by
  obtain ⟨s, fs⟩ := w
  match fs with
  | true :: fs => exact Or.inl ⟨fs, rfl⟩
  | false :: fs => exact Or.inr ⟨fs, rfl⟩
  | [] => exact Or.inr ⟨[], rfl⟩

theorem put_ok {d : Db} {k v : Str} {w w' : World} {u : Unit} (h : d.put k v w = .ok u w') :
    w'.stores = w.stores.put d k v := by
  rcases put_cases d k v w with ⟨fs, hrun⟩ | ⟨fs, hrun⟩
  · rw [hrun] at h
    cases h
  · rw [hrun] at h
    cases h
    rfl

theorem get_ok {d : Db} {k : Str} {w w' : World} {o : Option Str} (h : d.get k w = .ok o w') :
    o = (w.stores d)[k]? ∧ w' = w := by
  cases h
  exact ⟨rfl, rfl⟩

theorem fetch_ok {d : Db} {k v : Str} {w w' : World} (h : d.fetch k w = .ok v w') :
    (w.stores d)[k]? = some v ∧ w' = w := by
  unfold fetch at h
  split at h
  · rename_i v' hget
    cases h
    exact ⟨hget, rfl⟩
  · cases h

/-- The rule for `put`: the postcondition is checked at the stores it leaves behind. -/
theorem put_triple {d : Db} {k v : Str} {P : World → Prop} {Q : World → Prop} {R : World → Prop}
    (hok : ∀ w fs, P w → Q ⟨w.stores.put d k v, fs⟩) (herr : ∀ w fs, P w → R ⟨w.stores, fs⟩) :
    Triple P (d.put k v) (fun _ w => Q w) R := by
  intro w hw
  rcases put_cases d k v w with ⟨fs, hrun⟩ | ⟨fs, hrun⟩
  · rw [hrun]
    exact herr w fs hw
  · rw [hrun]
    exact hok w fs hw

theorem get_triple {d : Db} {k : Str} {P : World → Prop} {R : World → Prop} :
    Triple P (d.get k) (fun o w => P w ∧ o = (w.stores d)[k]?) R :=
  fun _ hw => ⟨hw, rfl⟩

theorem count_triple {d : Db} {P : World → Prop} {R : World → Prop} :
    Triple P d.count (fun n w => P w ∧ n = (w.stores d).size) R := by
  intro w hw
  rw [count_run]
  exact ⟨hw, rfl⟩

theorem fetch_triple {d : Db} {k : Str} {P : World → Prop} :
    Triple P (d.fetch k) (fun v w => P w ∧ (w.stores d)[k]? = some v) P := by
  intro w hw
  unfold fetch
  cases hget : (w.stores d)[k]? with
  | none => exact hw
  | some v => exact ⟨hw, hget⟩

end Db

/-- `vector.get(i)`. -/
def vectorGet {α : Type} (v : List α) (i : Nat) : Except Exn α :=
  match v[i]? with
  | some a => .ok a
  | none => .error .arrayIndexOutOfBounds

theorem vectorGet_ok {α : Type} {v : List α} {i : Nat} {a : α} :
    vectorGet v i = .ok a ↔ v[i]? = some a := by
  unfold vectorGet
  cases v[i]? <;> simp

end SearchEngine
