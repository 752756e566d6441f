/-
  The accumulation loops of `CosSim.getPages`, over values that spell groups.

  The loop re-tokenises a posting text and carries the last page seen as a cursor.  On a text of
  chunks the cursor is always set before a position is read, so nothing is ever read at the
  missing key `""`, and each group credits its page with the weight once per position
  (`accumulateList_chunks`).  `accumulate_eq` sums that up over the keys of a query.

  The code adds `Integer`s, which wrap at every step.  Wrapping is a homomorphism, so that wrapping
  the sums once is the same (`cossimU_eq`), whatever texts the loops run over and also where they
  throw.
-/
import SearchEngine.PostingText
import Mathlib.Algebra.BigOperators.Group.List.Basic
import Mathlib.Tactic.Common

namespace SearchEngine

open Text Numeral Postings InvertedIndexer CosSim NumberedMap

/-- How many positions the page `d` has in the groups. -/
def tally (d : Str) (gs : List (DocGroup Char)) : Nat :=
  ((groupsOf d gs).map (fun g => g.poss.length)).sum

/-- What the groups make of the entry of `d`. -/
def credited (weight : Int) (d : Str) (gs : List (DocGroup Char)) (o : Option Int) : Option Int :=
  if groupsOf d gs = [] then o else some (o.getD 0 + weight * tally d gs)

theorem credited_cons (weight : Int) (d : Str) (g : DocGroup Char) (gs : List (DocGroup Char))
    (o : Option Int) :
    credited weight d (g :: gs) o = credited weight d gs (credited weight d [g] o) := by
  by_cases hd : g.doc = d
  · have hcons : groupsOf d (g :: gs) = g :: groupsOf d gs := groupsOf_cons_eq hd gs
    have hone : groupsOf d [g] = [g] := groupsOf_cons_eq hd []
    have hsum : tally d (g :: gs) = g.poss.length + tally d gs := by
      rw [tally, hcons]
      rfl
    have hsum1 : tally d [g] = g.poss.length := by
      rw [tally, hone]
      exact Nat.add_zero _
    rw [credited, if_neg (by rw [hcons]; simp), hsum]
    rw [show credited weight d [g] o = some (o.getD 0 + weight * g.poss.length) by
      rw [credited, if_neg (by rw [hone]; simp), hsum1]]
    rw [credited]
    by_cases hgs : groupsOf d gs = []
    · rw [if_pos hgs, tally, hgs]
      simp
    · rw [if_neg hgs]
      simp only [Option.getD_some, Int.natCast_add, Int.mul_add, Int.add_assoc]
  · have hcons : groupsOf d (g :: gs) = groupsOf d gs := groupsOf_cons_ne hd gs
    have hone : groupsOf d [g] = [] := groupsOf_cons_ne hd []
    rw [credited, credited, credited, if_pos hone, tally, tally, hcons]

/-! ## One value -/

/-- The cursor stands at `d`: every position is credited to `d`. -/
theorem accumulateList_poss (weight : Int) (d : Str) (ts : List Str) :
    ∀ (qs : List Str), (∀ q ∈ qs, IsDigits q) → ∀ (u : Numerators) (n : Int), u[d]? = some n →
      ∃ u' : Numerators,
        accumulateList (· + ·) weight (qs ++ ts) d u = accumulateList (· + ·) weight ts d u' ∧
        u'[d]? = some (n + weight * qs.length) ∧ ∀ e, e ≠ d → u'[e]? = u[e]?
  | [], _, u, n, hn => ⟨u, rfl, by simpa using hn, fun _ _ => rfl⟩
  | q :: qs, hq, u, n, hn => by
    have hdoc := isDocToken_of_isDigits (hq q (by simp))
    obtain ⟨u', hrun, hself, hother⟩ := accumulateList_poss weight d ts qs
      (fun x hx => hq x (List.mem_cons_of_mem q hx)) (u.insert d (n + weight)) (n + weight)
      (get_insert_self u d _)
    refine ⟨u', ?_, ?_, fun e he => ?_⟩
    · rw [List.cons_append, accumulateList, if_neg (by simp [hdoc]), hn]
      exact hrun
    · rw [hself, List.length_cons, Int.natCast_add, Int.mul_add]
      congr 1
      simp only [Int.natCast_one, Int.mul_one]
      omega
    · rw [hother e he, get_insert_ne u (Ne.symm he)]

/-- One chunk credits its page, wherever the cursor stood. -/
theorem accumulateList_chunk (weight : Int) (c : Chunk) (ts : List Str) (last : Str)
    (u : Numerators) :
    ∃ u' : Numerators,
      accumulateList (· + ·) weight (c.tokens ++ ts) last u
        = accumulateList (· + ·) weight ts c.group.doc u' ∧
      ∀ d, u'[d]? = credited weight d [c.group] u[d]? := by
  have hdrop : (docTag c.group.doc).drop 3 = c.group.doc := rfl
  have hget : (u.insertIfNew c.group.doc 0)[c.group.doc]? = some (u[c.group.doc]?.getD 0) := by
    rw [get_insertIfNew, if_pos rfl]
  obtain ⟨u', hrun, hself, hother⟩ := accumulateList_poss weight c.group.doc ts c.group.poss
    c.poss_digits _ _ hget
  refine ⟨u', ?_, fun d => ?_⟩
  · rw [Chunk.tokens, List.cons_append, accumulateList,
      if_pos (isDocToken_docTag c.doc_digits.1), hdrop]
    exact hrun
  · by_cases hd : c.group.doc = d
    · subst hd
      have hone : groupsOf c.group.doc [c.group] = [c.group] := groupsOf_cons_eq rfl []
      rw [hself, credited, if_neg (by rw [hone]; simp), tally, hone]
      simp
    · have hone : groupsOf d [c.group] = [] := groupsOf_cons_ne hd []
      rw [hother d (Ne.symm hd), get_insertIfNew, if_neg hd, credited, if_pos hone]

/-- **The loop over a text never fails**, and credits every page with its positions. -/
theorem accumulateList_chunks (weight : Int) :
    ∀ (chs : List Chunk) (last : Str) (u : Numerators),
      ∃ u' : Numerators,
        accumulateList (· + ·) weight (chs.flatMap Chunk.tokens) last u = .ok u' ∧
        ∀ d, u'[d]? = credited weight d (chs.map Chunk.group) u[d]?
  | [], last, u => ⟨u, rfl, fun d => rfl⟩
  | c :: chs, last, u => by
    obtain ⟨u₁, hrun₁, hu₁⟩ := accumulateList_chunk weight c (chs.flatMap Chunk.tokens) last u
    obtain ⟨u₂, hrun₂, hu₂⟩ := accumulateList_chunks weight chs c.group.doc u₁
    refine ⟨u₂, ?_, fun d => ?_⟩
    · rw [List.flatMap_cons, hrun₁, hrun₂]
    · rw [hu₂, hu₁, List.map_cons, ← credited_cons]

/-! ## All keys -/

/-- Every value of an index spells groups, at least one. -/
def Spelled (db : RocksDB) : Prop := ∀ k v : Str, db[k]? = some v → ∃ gs, Spells v gs ∧ gs ≠ []

theorem accumulateValue_eq {db : RocksDB} (h : Spelled db) (weight : Int) (k : Str)
    (u : Numerators) :
    ∃ u' : Numerators, accumulateValue (· + ·) weight db[k]? u = .ok u' ∧
      ∀ d, u'[d]? = credited weight d (groupsAt db k) u[d]? := by
  cases hv : db[k]? with
  | none =>
    have hgs : groupsAt db k = [] := by rw [groupsAt, hv]
    exact ⟨u, rfl, fun d => by rw [hgs]; rfl⟩
  | some v =>
    obtain ⟨gs, hspell, hne⟩ := h k v hv
    have hgs : groupsAt db k = gs := by
      rw [groupsAt, hv]
      exact hspell.decode
    obtain ⟨chs, hsep, rfl, rfl⟩ := hspell
    rw [accumulateValue, splitWs_chunksText (by rintro rfl; exact hne rfl) hsep, hgs]
    exact accumulateList_chunks weight chs [] u

/-- What one key of the query adds for the page `d`. -/
def keyScore (title content : RocksDB) (d k : Str) : Int :=
  2 * tally d (groupsAt title k) + tally d (groupsAt content k)

/-- The page `d` has a group under `k`. -/
def Touches (title content : RocksDB) (d k : Str) : Prop :=
  groupsOf d (groupsAt title k) ≠ [] ∨ groupsOf d (groupsAt content k) ≠ []

instance (title content : RocksDB) (d k : Str) : Decidable (Touches title content d k) :=
  inferInstanceAs (Decidable (_ ∨ _))

theorem tally_eq_zero {d : Str} {gs : List (DocGroup Char)} (h : groupsOf d gs = []) :
    tally d gs = 0 := by
  rw [tally, h]
  rfl

theorem accumulateKey_eq {title content : RocksDB} (ht : Spelled title) (hc : Spelled content)
    (k : Str) (u : Numerators) :
    ∃ u' : Numerators, accumulateKey (· + ·) title content u k = .ok u' ∧
      ∀ d, u'[d]? = if Touches title content d k then
        some (u[d]?.getD 0 + keyScore title content d k) else u[d]? := by
  obtain ⟨u₁, hrun₁, hu₁⟩ := accumulateValue_eq ht 2 k u
  obtain ⟨u₂, hrun₂, hu₂⟩ := accumulateValue_eq hc 1 k u₁
  refine ⟨u₂, ?_, fun d => ?_⟩
  · rw [accumulateKey, hrun₁]
    exact hrun₂
  · rw [hu₂, hu₁, keyScore]
    by_cases h1 : groupsOf d (groupsAt title k) = []
    · by_cases h2 : groupsOf d (groupsAt content k) = []
      · simp [credited, Touches, h1, h2]
      · simp [credited, Touches, h1, h2, tally_eq_zero h1]
    · by_cases h2 : groupsOf d (groupsAt content k) = []
      · simp [credited, Touches, h1, h2, tally_eq_zero h2]
      · simp [credited, Touches, h1, h2, Int.add_assoc]

theorem keyScore_of_not_touches {title content : RocksDB} {d k : Str}
    (h : ¬ Touches title content d k) : keyScore title content d k = 0 := by
  unfold Touches at h
  push Not at h
  rw [keyScore, tally_eq_zero h.1, tally_eq_zero h.2]
  rfl

theorem accumulate_from {title content : RocksDB} (ht : Spelled title) (hc : Spelled content) :
    ∀ (q : List Str) (u : Numerators),
      ∃ u' : Numerators, q.foldlM (accumulateKey (· + ·) title content) u = .ok u' ∧
        ∀ d, u'[d]? = if ∃ k ∈ q, Touches title content d k then
          some (u[d]?.getD 0 + (q.map (keyScore title content d)).sum) else u[d]?
  | [], u => ⟨u, rfl, fun d => by simp⟩
  | k :: q, u => by
    obtain ⟨u₁, hrun₁, hu₁⟩ := accumulateKey_eq ht hc k u
    obtain ⟨u₂, hrun₂, hu₂⟩ := accumulate_from ht hc q u₁
    refine ⟨u₂, ?_, fun d => ?_⟩
    · rw [List.foldlM_cons, hrun₁]
      exact hrun₂
    · rw [hu₂, hu₁, List.map_cons, List.sum_cons]
      -- an untouched key adds nothing, a touched one sets the entry
      by_cases hk : Touches title content d k
      · have hex : ∃ k' ∈ k :: q, Touches title content d k' := ⟨k, by simp, hk⟩
        rw [if_pos hk, if_pos hex, Option.getD_some]
        by_cases hq : ∃ k' ∈ q, Touches title content d k'
        · rw [if_pos hq, Int.add_assoc]
        · have hzero : (q.map (keyScore title content d)).sum = 0 := by
            refine List.sum_eq_zero (fun x hx => ?_)
            obtain ⟨k', hk', rfl⟩ := List.mem_map.mp hx
            exact keyScore_of_not_touches (fun h => hq ⟨k', hk', h⟩)
          rw [if_neg hq, hzero, Int.add_zero]
      · have hiff : (∃ k' ∈ k :: q, Touches title content d k') ↔
            ∃ k' ∈ q, Touches title content d k' := by
          simp [hk]
        rw [if_neg hk, keyScore_of_not_touches hk, Int.zero_add]
        simp only [hiff]

/-- **The accumulation loops never fail**, and leave one entry for every page that has a group
    under some key of the query: the sum over the keys, with multiplicity. -/
theorem accumulate_eq {title content : RocksDB} (ht : Spelled title) (hc : Spelled content)
    (q : List Str) :
    ∃ u : Numerators, accumulate title content q = .ok u ∧
      ∀ d : Str, u[d]? = if ∃ k ∈ q, Touches title content d k then
        some (q.map (keyScore title content d)).sum else none := by
  obtain ⟨u, hrun, hu⟩ := accumulate_from ht hc q ∅
  refine ⟨u, hrun, fun d => ?_⟩
  rw [hu, Std.ExtTreeMap.getElem?_empty, Option.getD_none, Int.zero_add]

/-- Which pages have an entry. -/
theorem accumulate_some_iff {title content : RocksDB} (ht : Spelled title) (hc : Spelled content)
    {q : List Str} {u : Numerators} (h : accumulate title content q = .ok u) (d : Str) :
    (∃ n, u[d]? = some n) ↔ ∃ k ∈ q, Touches title content d k := by
  obtain ⟨u', hrun, hu⟩ := accumulate_eq ht hc q
  obtain rfl : u' = u := Except.ok.inj (hrun.symm.trans h)
  rw [hu d]
  by_cases hex : ∃ k ∈ q, Touches title content d k
  · rw [if_pos hex]
    exact ⟨fun _ => hex, fun _ => ⟨_, rfl⟩⟩
  · rw [if_neg hex]
    refine ⟨?_, fun hex' => absurd hex' hex⟩
    rintro ⟨n, hn⟩
    exact absurd hn (by simp)

/-- The order of the keys does not matter. -/
theorem accumulate_perm {title content : RocksDB} (ht : Spelled title) (hc : Spelled content)
    {q q' : List Str} (hperm : q'.Perm q) :
    accumulate title content q' = accumulate title content q := by
  obtain ⟨u, hrun, hu⟩ := accumulate_eq ht hc q
  obtain ⟨u', hrun', hu'⟩ := accumulate_eq ht hc q'
  have hsame : u' = u := by
    refine Std.ExtTreeMap.ext_getElem? (fun d => ?_)
    have hex : (∃ k ∈ q', Touches title content d k) ↔ ∃ k ∈ q, Touches title content d k := by
      simp only [hperm.mem_iff]
    have hsum : (q'.map (keyScore title content d)).sum = (q.map (keyScore title content d)).sum :=
      (hperm.map _).sum_eq
    rw [hu', hu, hsum]
    simp only [hex]
  rw [hrun, hrun', hsame]

/-! ## The loops as they run -/

/-- The counts as `Integer`s. -/
def wrapped (u : Numerators) : Numerators := u.map (fun _ n => wrap32 n)

@[simp] theorem get_wrapped (u : Numerators) (d : Str) : (wrapped u)[d]? = u[d]?.map wrap32 :=
  Std.ExtTreeMap.getElem?_map

theorem wrapped_empty : wrapped ∅ = ∅ := by
  refine Std.ExtTreeMap.ext_getElem? (fun d => ?_)
  rw [get_wrapped, Std.ExtTreeMap.getElem?_empty]
  rfl

theorem wrapped_insert (u : Numerators) (d : Str) (n : Int) :
    wrapped (u.insert d n) = (wrapped u).insert d (wrap32 n) := by
  refine Std.ExtTreeMap.ext_getElem? (fun e => ?_)
  rw [get_wrapped, get_insert, get_insert]
  split
  · rfl
  · rw [get_wrapped]

theorem wrapped_insertIfNew (u : Numerators) (d : Str) :
    wrapped (u.insertIfNew d 0) = (wrapped u).insertIfNew d 0 := by
  refine Std.ExtTreeMap.ext_getElem? (fun e => ?_)
  rw [get_wrapped, get_insertIfNew, get_insertIfNew, get_wrapped]
  split
  · cases u[e]? <;> rfl
  · rfl

theorem addInt_wrap32 (m n : Int) : addInt (wrap32 m) n = wrap32 (m + n) :=
  Int.bmod_add_bmod

/-- **The loop over a text, on `Integer`s**: what the loop over the integers gives, wrapped; and it
    throws where that one does. -/
theorem accumulateList_addInt (weight : Int) :
    ∀ (ts : List Str) (last : Str) (u : Numerators),
      accumulateList addInt weight ts last (wrapped u)
        = (accumulateList (· + ·) weight ts last u).map wrapped
  | [], last, u => rfl
  | t :: ts, last, u => by
    rw [accumulateList, accumulateList]
    by_cases ht : isDocToken t = true
    · rw [if_pos ht, if_pos ht, ← wrapped_insertIfNew]
      exact accumulateList_addInt weight ts _ _
    · rw [if_neg ht, if_neg ht, get_wrapped]
      cases u[last]? with
      | none => rfl
      | some n =>
        show accumulateList addInt weight ts last
          ((wrapped u).insert last (addInt (wrap32 n) weight)) = _
        rw [addInt_wrap32, ← wrapped_insert]
        exact accumulateList_addInt weight ts last _

theorem accumulateValue_addInt (weight : Int) (value : Option Str) (u : Numerators) :
    accumulateValue addInt weight value (wrapped u)
      = (accumulateValue (· + ·) weight value u).map wrapped := by
  cases value with
  | none => rfl
  | some text => exact accumulateList_addInt weight (splitWs text) [] u

theorem accumulateKey_addInt (title content : RocksDB) (u : Numerators) (k : Str) :
    accumulateKey addInt title content (wrapped u) k
      = (accumulateKey (· + ·) title content u k).map wrapped := by
  rw [accumulateKey, accumulateKey, accumulateValue_addInt]
  cases accumulateValue (· + ·) 2 title[k]? u with
  | error x => rfl
  | ok u₁ => exact accumulateValue_addInt 1 content[k]? u₁

theorem cossimU_from (title content : RocksDB) :
    ∀ (q : List Str) (u : Numerators),
      q.foldlM (accumulateKey addInt title content) (wrapped u)
        = (q.foldlM (accumulateKey (· + ·) title content) u).map wrapped
  | [], u => rfl
  | k :: q, u => by
    rw [List.foldlM_cons, List.foldlM_cons, accumulateKey_addInt]
    cases accumulateKey (· + ·) title content u k with
    | error x => rfl
    | ok u₁ => exact cossimU_from title content q u₁

/-- **The accumulation loops on `Integer`s**: over any texts, they throw where the loops over the
    integers do, and otherwise leave the same entries, wrapped. -/
theorem cossimU_eq (title content : RocksDB) (q : List Str) :
    cossimU title content q = (accumulate title content q).map wrapped := by
  rw [cossimU, ← wrapped_empty]
  exact cossimU_from title content q ∅

theorem cossimU_of_accumulate {title content : RocksDB} {q : List Str} {u : Numerators}
    (h : accumulate title content q = .ok u) : cossimU title content q = .ok (wrapped u) := by
  rw [cossimU_eq, h]
  rfl

/-- Which pages have an entry, on `Integer`s. -/
theorem cossimU_some_iff {title content : RocksDB} (ht : Spelled title) (hc : Spelled content)
    {q : List Str} {u : Numerators} (h : cossimU title content q = .ok u) (d : Str) :
    (∃ n, u[d]? = some n) ↔ ∃ k ∈ q, Touches title content d k := by
  obtain ⟨v, hv, -⟩ := accumulate_eq ht hc q
  obtain rfl : wrapped v = u := Except.ok.inj ((cossimU_of_accumulate hv).symm.trans h)
  rw [← accumulate_some_iff ht hc hv d, get_wrapped]
  cases v[d]? <;> simp

/-- An entry of the wrapped counts. -/
theorem mem_toList_wrapped {u : Numerators} {e : Str × Int} :
    e ∈ (wrapped u).toList ↔ ∃ n, u[e.1]? = some n ∧ wrap32 n = e.2 := by
  obtain ⟨d, m⟩ := e
  rw [Std.ExtTreeMap.mem_toList_iff_getElem?_eq_some, get_wrapped, Option.map_eq_some_iff]

end SearchEngine
