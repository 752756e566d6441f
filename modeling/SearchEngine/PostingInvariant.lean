/-
  The representation invariant of the two inverted indexes.

  Removal, append and splice work on substrings that may match a LONGER page ID, so that the IDs
  of one value stay distinct is not obvious.  What carries it is the order of the groups: an
  earlier ID never extends a later one (`Postings.Ordered`).  Together with the shape of the
  text and the provenance of the IDs this is `IndexOk`, and every call keeps it, returning or
  aborted (`stable_indexOk`).

  The headline `postings_well_formed`: in every state a run reaches, each value is a non-empty
  sequence of groups of distinct, issued pages, and the accumulation loops of
  `CosSim.getPages` run through for every query.
-/
import SearchEngine.IdAssignment
import SearchEngine.Accumulation
import Mathlib.Tactic.Common

namespace SearchEngine

open Text Numeral Postings InvertedIndexer NumberedMap

/-- A value as the invariant wants it: it spells groups, at least one, in order, of issued
    pages — and it is filed under an issued word ID. -/
structure ValueOk (s : Stores) (k v : Str) : Prop where
  key : Issued .word k s
  spells : ∃ gs, Spells v gs ∧ gs ≠ [] ∧ Ordered gs ∧ ∀ g ∈ gs, Issued .page g.doc s

/-- **The invariant**: numbered tables, and every value of either index in shape. -/
structure IndexOk (s : Stores) : Prop where
  tables : ∀ t, TableOk t s
  values : ∀ (f : Field) (k v : Str), (s f.db)[k]? = some v → ValueOk s k v

theorem indexOk_empty : IndexOk Stores.empty := by
  refine ⟨fun t => (tableExact_empty t).ok, fun f k v h => ?_⟩
  have hnone : (Stores.empty f.db)[k]? = none := Std.ExtTreeMap.getElem?_empty
  rw [hnone] at h
  exact absurd h (by simp)

/-- The invariant looks at the tables, the two indexes and which IDs are issued. -/
theorem IndexOk.of_same {s s' : Stores} (h : IndexOk s) (htables : ∀ t, TableOk t s')
    (hdb : ∀ f : Field, s' f.db = s f.db) (hissued : ∀ t id, Issued t id s → Issued t id s') :
    IndexOk s' := by
  refine ⟨htables, fun f k v hv => ?_⟩
  rw [hdb f] at hv
  obtain ⟨hkey, gs, hspell, hne, hord, hdocs⟩ := h.values f k v hv
  exact ⟨hissued _ _ hkey, gs, hspell, hne, hord, fun g hg => hissued _ _ (hdocs g hg)⟩

/-- A write to a store that is neither a table nor one of the two indexes. -/
theorem IndexOk.put_other {s : Stores} (h : IndexOk s) {d : Db} (hd : d.IsIndex)
    (hf : ∀ f : Field, f.db ≠ d) (k v : Str) : IndexOk (s.put d k v) :=
  h.of_same (fun t => tableOk_put hd k v (h.tables t))
    (fun f => Stores.put_other s (hf f) k v)
    (fun t _ hid => issued_put_index (hd t).1 hid)

/-- An issued page ID is a numeral. -/
theorem IndexOk.isDigits {s : Stores} (h : IndexOk s) {t : Table} {id : Str}
    (hid : Issued t id s) : IsDigits id := by
  obtain ⟨key, hkey⟩ := hid
  obtain ⟨n, -, -, rfl⟩ := (h.tables t).1.bounded hkey
  exact isDigits_decimal n

/-- The groups under a key: what its value spells, in order, of issued pages. -/
theorem IndexOk.groupsAt_ok {s : Stores} (h : IndexOk s) (f : Field) (k : Str) :
    SpellsAt (s f.db)[k]? (groupsAt (s f.db) k) ∧ Ordered (groupsAt (s f.db) k) ∧
      ∀ g ∈ groupsAt (s f.db) k, Issued .page g.doc s := by
  unfold groupsAt
  cases hv : (s f.db)[k]? with
  | none => exact ⟨rfl, List.Pairwise.nil, fun g hg => absurd hg (by simp)⟩
  | some v =>
    obtain ⟨-, gs, hspell, -, hord, hdocs⟩ := h.values f k v hv
    show Spells v (decode v) ∧ Ordered (decode v) ∧ ∀ g ∈ decode v, _
    rw [hspell.decode]
    exact ⟨hspell, hord, hdocs⟩

/-! ## One turn keeps the groups in shape -/

theorem ordered_turnGroups {p k : Str} {v : Loop} {gs : List (DocGroup Char)} (h : Ordered gs) :
    Ordered (turnGroups p k v gs) := by
  unfold turnGroups
  split
  · exact h.remove.add
  · exact h.add

theorem doc_of_mem_turnGroups {p k : Str} {v : Loop} {gs : List (DocGroup Char)}
    {g : DocGroup Char} (hg : g ∈ turnGroups p k v gs) :
    g.doc = p ∨ ∃ g' ∈ gs, g'.doc = g.doc := by
  unfold turnGroups at hg
  rcases doc_of_mem_add hg with h | ⟨g', hg', hdoc⟩
  · exact Or.inl h
  · refine Or.inr ⟨g', ?_, hdoc⟩
    split at hg'
    · exact List.mem_of_mem_eraseP hg'
    · exact hg'

theorem turnGroups_ne_nil {p k : Str} {v : Loop} {gs : List (DocGroup Char)} :
    turnGroups p k v gs ≠ [] := by
  unfold turnGroups
  generalize (if cuts p k v gs = true then remove p gs else gs) = hs
  cases hs with
  | nil => simp [add]
  | cons h hs =>
    rw [add]
    split <;> simp

/-- The new value of a word is in shape again. -/
theorem IndexOk.newValue_ok {s : Stores} (h : IndexOk s) (f : Field) {p k : Str} (v : Loop)
    (hp : Issued .page p s) (hk : Issued .word k s) :
    ValueOk s k (newValue p k v (s f.db)[k]?).1 := by
  obtain ⟨hspell, hord, hdocs⟩ := h.groupsAt_ok f k
  obtain ⟨hnew, -⟩ := newValue_spells (h.isDigits hp) k v hspell
  refine ⟨hk, _, hnew, turnGroups_ne_nil, ordered_turnGroups hord, fun g hg => ?_⟩
  rcases doc_of_mem_turnGroups hg with hgp | ⟨g', hg', hdoc⟩
  · rw [hgp]
    exact hp
  · rw [← hdoc]
    exact hdocs g' hg'

/-- A well-shaped value may be filed. -/
theorem IndexOk.put {s : Stores} (h : IndexOk s) (f : Field) {k v : Str} (hv : ValueOk s k v) :
    IndexOk (s.put f.db k v) := by
  have hissued : ∀ t id, Issued t id s → Issued t id (s.put f.db k v) :=
    fun t _ hid => issued_put_index (f.db_isIndex t).1 hid
  refine ⟨fun t => tableOk_put f.db_isIndex k v (h.tables t), fun f' k' v' hget => ?_⟩
  have hold : ValueOk s k' v' := by
    by_cases hf : f'.db = f.db
    · rw [hf, Stores.put_same, get_insert] at hget
      by_cases hk : k = k'
      · rw [if_pos hk] at hget
        rw [← hk, ← Option.some.inj hget]
        exact hv
      · rw [if_neg hk, ← hf] at hget
        exact h.values f' k' v' hget
    · rw [Stores.put_other s hf] at hget
      exact h.values f' k' v' hget
  obtain ⟨hkey, gs, hspell, hne, hord, hdocs⟩ := hold
  exact ⟨hissued _ _ hkey, gs, hspell, hne, hord, fun g hg => hissued _ _ (hdocs g hg)⟩

/-! ## Every call -/

/-- **The invariant survives every call**, aborts included. -/
theorem stable_indexOk : Stable IndexOk IndexOk where
  abort _ h := h
  half s t key h hnone :=
    h.of_same (fun t' => tableOk_issueFwd (h.tables t') hnone)
      (fun f => Stores.issueFwd_other s key (f.db_isIndex t).1)
      (fun t' id hid => (keptByIssue_issued t' id).half s t key hid hnone)
  whole s t key h hnone :=
    h.of_same (fun t' => tableOk_issueBoth (h.tables t') hnone)
      (fun f => Stores.issueBoth_other s key (f.db_isIndex t).1 (f.db_isIndex t).2)
      (fun t' id hid => (keptByIssue_issued t' id).whole s t key hid hnone)
  forward s k v h :=
    h.put_other (Db.isIndex_of_not_mem (by decide)) (by intro f; cases f <;> decide) k v
  children s k v h :=
    h.put_other (Db.isIndex_of_not_mem (by decide)) (by intro f; cases f <;> decide) k v
  parents s k v h :=
    h.put_other (Db.isIndex_of_not_mem (by decide)) (by intro f; cases f <;> decide) k v
  posting s f p k v h hp hk := h.put f (h.newValue_ok f v hp hk)

theorem Reachable.indexOk {E : Platform} {s : Stores} (h : Reachable E s) : IndexOk s :=
  h.induct indexOk_empty (fun a s hs => stable_indexOk.after E a s hs)

theorem IndexOk.spelled {s : Stores} (h : IndexOk s) (f : Field) : Spelled (s f.db) := by
  intro k v hv
  obtain ⟨-, gs, hspell, hne, -, -⟩ := h.values f k v hv
  exact ⟨gs, hspell, hne⟩

/-- The tokens of a value, from the groups it spells. -/
theorem Spells.splitWs {v : Str} {gs : List (DocGroup Char)} (h : Spells v gs) (hne : gs ≠ []) :
    splitWs v = gs.flatMap (fun g => docTag g.doc :: g.poss) ∧
      ∀ g ∈ gs, g.poss ≠ [] ∧ ∀ q ∈ g.poss, IsDigits q := by
  obtain ⟨chs, hsep, rfl, rfl⟩ := h
  have hchs : chs ≠ [] := by
    rintro rfl
    exact hne rfl
  constructor
  · rw [splitWs_chunksText hchs hsep, List.flatMap_map]
    rfl
  · intro g hg
    obtain ⟨c, -, rfl⟩ := List.mem_map.mp hg
    exact ⟨c.poss_ne_nil, c.poss_digits⟩

/-- **Posting lists are well formed in every reachable state.**  After any run — any pages in any
    order, re-indexed at will, interleaved with ID assignments — each value of either index is,
    split on white space, a non-empty sequence of groups: a tag `doc<n>` with `n` an ID in
    `document`, then at least one token, all of them digits; the IDs of one value are pairwise
    distinct.  Hence no accumulation loop of `CosSim.getPages` reads `cossim_u` at a missing
    key, whatever the query. -/
theorem postings_well_formed (E : Platform) (run : List Attempt) :
    let s := runAll E run Stores.empty
    (∀ (f : Field) (k v : Str), (s f.db)[k]? = some v →
      ∃ gs : List (DocGroup Char), gs ≠ [] ∧
        splitWs v = gs.flatMap (fun g => docTag g.doc :: g.poss) ∧
        (∀ g ∈ gs, (∃ url : Str, (s .document)[url]? = some g.doc) ∧ g.poss ≠ [] ∧
          ∀ q ∈ g.poss, IsDigits q) ∧
        (gs.map DocGroup.doc).Nodup) ∧
    (∀ q : List Str, ∃ u, CosSim.accumulate (s .titleInverted) (s .contentInverted) q = .ok u) := by
  intro s
  have hs : IndexOk s := Reachable.indexOk ⟨run, rfl⟩
  constructor
  · intro f k v hv
    obtain ⟨-, gs, hspell, hne, hord, hdocs⟩ := hs.values f k v hv
    obtain ⟨hsplit, hposs⟩ := hspell.splitWs hne
    exact ⟨gs, hne, hsplit, fun g hg => ⟨hdocs g hg, hposs g hg⟩, hord.nodup⟩
  · intro q
    obtain ⟨u, hrun, -⟩ := accumulate_eq (hs.spelled .title) (hs.spelled .content) q
    exact ⟨u, hrun⟩

end SearchEngine
