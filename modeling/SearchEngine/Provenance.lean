/-
  Where everything in the stores comes from.

  Runs may re-index pages, damage postings (a page whose ID is a prefix of another one's), and
  break off before any `put`.  Nevertheless nothing is ever made up.  `Sourced` says of every entry
  of every store which page of the run it stems from: an ID from a URL or word that a call
  mentions, a group of postings from a page with that word, a record from one page as a whole, a
  child or parent from a link.  It is checked on the single writes of `Write`, so it holds in every
  state that any run reaches (`stores_sourced`), and it carries over to what a query can find there
  (`search_sound`).
-/
import SearchEngine.Writes
import SearchEngine.QueryResolution
import Mathlib.Tactic.Common

namespace SearchEngine

open Text Numeral Effect Postings InvertedIndexer NumberedMap CosSim

variable {E : Platform} {call : Call} {s s' : Stores}

/-! ## What a write does to one store -/

/-- The IDs of `s` are IDs of `s'`. -/
def Grows (s s' : Stores) : Prop :=
  ∀ (t : Table) (key id : Str), (s t.fwd)[key]? = some id → (s' t.fwd)[key]? = some id

namespace Write

theorem grows (h : Write E call s s') : Grows s s' :=
  fun t key id hid => kept_entry E call t key id s s' h hid

/-- A new entry of a table is a key the call mentions. -/
theorem table_cases (h : Write E call s s') {t : Table} {key id : Str}
    (hid : (s' t.fwd)[key]? = some id) : (s t.fwd)[key]? = some id ∨ call.Mentions E t key := by
  have hindex : ∀ {d : Db} (k v : Str), d ≠ t.fwd → (s.put d k v t.fwd)[key]? = some id →
      (s t.fwd)[key]? = some id := by
    intro d k v hd hput
    rw [Stores.put_other s (Ne.symm hd)] at hput
    exact hput
  cases h with
  | number t' key' hkey hnew =>
    by_cases ht : t' = t
    · subst ht
      rw [Stores.issueFwd_fwd, get_insert] at hid
      by_cases hk : key' = key
      · subst hk
        exact Or.inr hkey
      · rw [if_neg hk] at hid
        exact Or.inl hid
    · rw [Stores.issueFwd_other s key' (Table.fwd_ne_of_ne (Ne.symm ht))] at hid
      exact Or.inl hid
  | inverse t' key' id' hkey hid' => exact Or.inl (hindex _ _ (t'.inv_ne_fwd t) hid)
  | posting f c w p k v hc hw hp hk => exact Or.inl (hindex _ _ (f.db_ne_fwd t) hid)
  | record c p v hc hp hv => exact Or.inl (hindex _ _ (by cases t <;> decide) hid)
  | parent c link p k hc hlink hp hk => exact Or.inl (hindex _ _ (by cases t <;> decide) hid)
  | children c p hc hne hp hlinks => exact Or.inl (hindex _ _ (by cases t <;> decide) hid)

/-- A write leaves an inverted index alone, or rewrites one of its values. -/
theorem index_cases (h : Write E call s s') (f : Field) : s' f.db = s f.db ∨
    ∃ c ∈ call.inverted, ∃ w ∈ wordsIn E f c, ∃ (p k : Str) (v : Loop),
      (s .document)[c.url]? = some p ∧ (s .word)[w]? = some k ∧
      s' f.db = (s f.db).insert k (newValue p k v (s f.db)[k]?).1 := by
  cases h with
  | number t key hkey hnew => exact Or.inl (Stores.issueFwd_other s key (f.db_isIndex t).1)
  | inverse t key id hkey hid => exact Or.inl (Stores.put_other s (f.db_isIndex t).2 _ _)
  | posting f' c w p k v hc hw hp hk =>
    by_cases hf : f = f'
    · subst hf
      exact Or.inr ⟨c, hc, w, hw, p, k, v, hp, hk, Stores.put_same s f.db _ _⟩
    · exact Or.inl (Stores.put_other s (by cases f <;> cases f' <;> simp_all [Field.db]) _ _)
  | record c p v hc hp hv => exact Or.inl (Stores.put_other s (by cases f <;> decide) _ _)
  | parent c link p k hc hlink hp hk =>
    exact Or.inl (Stores.put_other s (by cases f <;> decide) _ _)
  | children c p hc hne hp hlinks =>
    exact Or.inl (Stores.put_other s (by cases f <;> decide) _ _)

/-- A write leaves the forward index alone, or files the record of a page. -/
theorem forwardIndex_cases (h : Write E call s s') : s' .forwardIndex = s .forwardIndex ∨
    ∃ c ∈ call.forwarded, ∃ p v : Str, (s .document)[c.url]? = some p ∧ Recorded E c p s' ∧
      s' .forwardIndex = (s .forwardIndex).insert p v := by
  cases h with
  | number t key hkey hnew => exact Or.inl (Stores.issueFwd_other s key (by cases t <;> decide))
  | inverse t key id hkey hid =>
    exact Or.inl (Stores.put_other s (by cases t <;> decide) _ _)
  | posting f c w p k v hc hw hp hk =>
    exact Or.inl (Stores.put_other s (by cases f <;> decide) _ _)
  | record c p v hc hp hv =>
    exact Or.inr ⟨c, hc, p, v, hp, hv, Stores.put_same s .forwardIndex _ _⟩
  | parent c link p k hc hlink hp hk => exact Or.inl (Stores.put_other s (by decide) _ _)
  | children c p hc hne hp hlinks => exact Or.inl (Stores.put_other s (by decide) _ _)

/-- A write leaves the parents alone, or enters one. -/
theorem parents_cases (h : Write E call s s') :
    s' .parentChildIndexInverted = s .parentChildIndexInverted ∨
    ∃ c ∈ call.linked, ∃ link ∈ c.links, ∃ p k : Str, (s .document)[c.url]? = some p ∧
      (s .document)[link]? = some k ∧ s' .parentChildIndexInverted
        = (s .parentChildIndexInverted).insert k
            (newParents (s .parentChildIndexInverted)[k]? p) := by
  cases h with
  | number t key hkey hnew => exact Or.inl (Stores.issueFwd_other s key (by cases t <;> decide))
  | inverse t key id hkey hid =>
    exact Or.inl (Stores.put_other s (by cases t <;> decide) _ _)
  | posting f c w p k v hc hw hp hk =>
    exact Or.inl (Stores.put_other s (by cases f <;> decide) _ _)
  | record c p v hc hp hv => exact Or.inl (Stores.put_other s (by decide) _ _)
  | parent c link p k hc hlink hp hk =>
    exact Or.inr ⟨c, hc, link, hlink, p, k, hp, hk, Stores.put_same s _ _ _⟩
  | children c p hc hne hp hlinks => exact Or.inl (Stores.put_other s (by decide) _ _)

/-- A write leaves the children alone, or files those of a page. -/
theorem children_cases (h : Write E call s s') :
    s' .parentChildIndex = s .parentChildIndex ∨
    ∃ c ∈ call.linked, ∃ p : Str, c.links ≠ [] ∧ (s .document)[c.url]? = some p ∧
      (∀ link ∈ c.links, link ∈ s .document) ∧
      s' .parentChildIndex
        = (s .parentChildIndex).insert p (listed (c.links.map (pageIDOf s))) := by
  cases h with
  | number t key hkey hnew => exact Or.inl (Stores.issueFwd_other s key (by cases t <;> decide))
  | inverse t key id hkey hid =>
    exact Or.inl (Stores.put_other s (by cases t <;> decide) _ _)
  | posting f c w p k v hc hw hp hk =>
    exact Or.inl (Stores.put_other s (by cases f <;> decide) _ _)
  | record c p v hc hp hv => exact Or.inl (Stores.put_other s (by decide) _ _)
  | parent c link p k hc hlink hp hk => exact Or.inl (Stores.put_other s (by decide) _ _)
  | children c p hc hne hp hlinks =>
    exact Or.inr ⟨c, hc, p, hne, hp, hlinks, Stores.put_same s _ _ _⟩

end Write

/-! ## The invariant of the inverted indexes, write by write -/

/-- An ID that is in the table may be entered into the inverse table. -/
theorem tableOk_inverse {t t' : Table} {key id : Str} (h : TableOk t s)
    (hid : (s t'.fwd)[key]? = some id) : TableOk t (s.put t'.inv id key) := by
  have hfwd : s.put t'.inv id key t.fwd = s t.fwd := Stores.put_other s (t'.inv_ne_fwd t).symm _ _
  unfold TableOk
  rw [hfwd]
  refine ⟨h.1, ?_⟩
  by_cases ht : t' = t
  · subst ht
    rw [Stores.put_same]
    intro v k hv
    rw [get_insert] at hv
    by_cases hv' : id = v
    · subst hv'
      rw [if_pos rfl] at hv
      rw [← Option.some.inj hv]
      exact hid
    · rw [if_neg hv'] at hv
      exact h.2 v k hv
  · rw [Stores.put_other s (Table.inv_ne_of_ne (Ne.symm ht))]
    exact h.2

theorem kept_indexOk (E : Platform) (call : Call) : Kept E call IndexOk := by
  intro s s' h hs
  have hissued : ∀ t id, Issued t id s → Issued t id s' :=
    fun t id ⟨key, hkey⟩ => ⟨key, h.grows t key id hkey⟩
  cases h with
  | number t key hkey hnew => exact stable_indexOk.half s t key hs hnew
  | inverse t key id hkey hid =>
    exact hs.of_same (fun t' => tableOk_inverse (hs.tables t') hid)
      (fun f => Stores.put_other s (f.db_isIndex t).2 _ _) hissued
  | posting f c w p k v hc hw hp hk =>
    exact stable_indexOk.posting s f p k v hs ⟨c.url, hp⟩ ⟨w, hk⟩
  | record c p v hc hp hv => exact stable_indexOk.forward s p v hs
  | parent c link p k hc hlink hp hk => exact stable_indexOk.parents s k _ hs
  | children c p hc hne hp hlinks => exact stable_indexOk.children s p _ hs

/-! ## Where things come from -/

/-- Every entry of every store stems from a page of the run. -/
structure Sourced (E : Platform) (run : List Attempt) (s : Stores) : Prop where
  ok : IndexOk s
  tables : ∀ (t : Table) (key id : Str), (s t.fwd)[key]? = some id →
    ∃ a ∈ run, a.call.Mentions E t key
  postings : ∀ (f : Field) (k : Str), ∀ g ∈ groupsAt (s f.db) k, ∃ a ∈ run,
    ∃ c ∈ a.call.inverted, ∃ w ∈ wordsIn E f c,
      (s .document)[c.url]? = some g.doc ∧ (s .word)[w]? = some k
  records : ∀ p v : Str, (s .forwardIndex)[p]? = some v → ∃ a ∈ run, ∃ c ∈ a.call.forwarded,
    (s .document)[c.url]? = some p ∧ Recorded E c p s
  children : ∀ p v : Str, (s .parentChildIndex)[p]? = some v → ∃ a ∈ run, ∃ c ∈ a.call.linked,
    (s .document)[c.url]? = some p ∧ c.links ≠ [] ∧ (∀ link ∈ c.links, link ∈ s .document) ∧
      v = listed (c.links.map (pageIDOf s))
  parents : ∀ k v : Str, (s .parentChildIndexInverted)[k]? = some v → ∃ ps : List Str,
    ps ≠ [] ∧ v = joined ps ∧ ∀ p ∈ ps, ∃ a ∈ run, ∃ c ∈ a.call.linked, ∃ link ∈ c.links,
      (s .document)[c.url]? = some p ∧ (s .document)[link]? = some k

theorem sourced_empty (E : Platform) (run : List Attempt) : Sourced E run Stores.empty := by
  have hnone : ∀ (d : Db) (k : Str), (Stores.empty d)[k]? = none :=
    fun d k => Std.ExtTreeMap.getElem?_empty
  refine ⟨indexOk_empty, fun t key id h => ?_, fun f k g h => ?_, fun p v h => ?_,
    fun p v h => ?_, fun k v h => ?_⟩
  · rw [hnone] at h
    cases h
  · rw [groupsAt, hnone] at h
    cases h
  · rw [hnone] at h
    cases h
  · rw [hnone] at h
    cases h
  · rw [hnone] at h
    cases h

namespace Sourced

variable {run : List Attempt}

/-- A rewritten value has groups of the page and of pages it had before. -/
theorem write_postings (hs : Sourced E run s) {a : Attempt} (ha : a ∈ run)
    (h : Write E a.call s s') (f : Field) (k : Str) :
    ∀ g ∈ groupsAt (s' f.db) k, ∃ a ∈ run, ∃ c ∈ a.call.inverted, ∃ w ∈ wordsIn E f c,
      (s' .document)[c.url]? = some g.doc ∧ (s' .word)[w]? = some k := by
  intro g hg
  have hold : g.doc ∈ (groupsAt (s f.db) k).map DocGroup.doc → ∃ a ∈ run,
      ∃ c ∈ a.call.inverted, ∃ w ∈ wordsIn E f c,
        (s' .document)[c.url]? = some g.doc ∧ (s' .word)[w]? = some k := by
    intro hmem
    obtain ⟨g', hg', hdoc⟩ := List.mem_map.mp hmem
    obtain ⟨a', ha', c, hc, w, hw, hd, hk⟩ := hs.postings f k g' hg'
    rw [hdoc] at hd
    exact ⟨a', ha', c, hc, w, hw, h.grows .page _ _ hd, h.grows .word _ _ hk⟩
  rcases h.index_cases f with hsame | ⟨c, hc, w, hw, p, k', v, hp, hk', hput⟩
  · rw [hsame] at hg
    exact hold (List.mem_map_of_mem hg)
  · by_cases hk : k' = k
    · subst hk
      obtain ⟨hspell, -⟩ := newValue_spells (hs.ok.isDigits (t := .page) ⟨c.url, hp⟩) k' v
        (hs.ok.groupsAt_ok f k').1
      rw [groupsAt, hput, get_insert_self] at hg
      replace hg : g ∈ decode (newValue p k' v (s f.db)[k']?).1 := hg
      rw [hspell.decode] at hg
      rcases doc_of_mem_turnGroups hg with hdoc | ⟨g', hg', hdoc⟩
      · rw [hdoc]
        exact ⟨a, ha, c, hc, w, hw, h.grows .page _ _ hp, h.grows .word _ _ hk'⟩
      · exact hold (List.mem_map.mpr ⟨g', hg', hdoc⟩)
    · rw [groupsAt, hput, get_insert_ne _ hk] at hg
      exact hold (List.mem_map_of_mem hg)

/-- A record is that of a page of this call, or an older one, which stays right. -/
theorem write_records (hs : Sourced E run s) {a : Attempt} (ha : a ∈ run)
    (h : Write E a.call s s') (p v : Str) (hv : (s' .forwardIndex)[p]? = some v) :
    ∃ a ∈ run, ∃ c ∈ a.call.forwarded, (s' .document)[c.url]? = some p ∧ Recorded E c p s' := by
  have hold : (s' .forwardIndex)[p]? = (s .forwardIndex)[p]? → ∃ a ∈ run,
      ∃ c ∈ a.call.forwarded, (s' .document)[c.url]? = some p ∧ Recorded E c p s' := by
    intro hsame
    rw [hsame] at hv
    obtain ⟨a', ha', c, hc, hd, hrec⟩ := hs.records p v hv
    exact ⟨a', ha', c, hc, h.grows .page _ _ hd, hrec.mono (h.grows .word) hsame⟩
  rcases h.forwardIndex_cases with hsame | ⟨c, hc, p', v', hp, hrec, hput⟩
  · exact hold (by rw [hsame])
  · by_cases hpp : p' = p
    · subst hpp
      exact ⟨a, ha, c, hc, h.grows .page _ _ hp, hrec⟩
    · exact hold (by rw [hput, get_insert_ne _ hpp])

/-- Children are the links of a page of this call, or older ones, whose IDs have not changed. -/
theorem write_children (hs : Sourced E run s) {a : Attempt} (ha : a ∈ run)
    (h : Write E a.call s s') (p v : Str) (hv : (s' .parentChildIndex)[p]? = some v) :
    ∃ a ∈ run, ∃ c ∈ a.call.linked, (s' .document)[c.url]? = some p ∧ c.links ≠ [] ∧
      (∀ link ∈ c.links, link ∈ s' .document) ∧ v = listed (c.links.map (pageIDOf s')) := by
  have hkeep : KeepsIDs s s' := fun url id hid => h.grows .page url id hid
  have hids : ∀ {links : List Str}, (∀ link ∈ links, link ∈ s .document) →
      links.map (pageIDOf s') = links.map (pageIDOf s) :=
    fun hlinks => List.map_congr_left (fun link hlink => hkeep.pageIDOf (hlinks link hlink))
  have hold : (s' .parentChildIndex)[p]? = (s .parentChildIndex)[p]? → ∃ a ∈ run,
      ∃ c ∈ a.call.linked, (s' .document)[c.url]? = some p ∧ c.links ≠ [] ∧
        (∀ link ∈ c.links, link ∈ s' .document) ∧ v = listed (c.links.map (pageIDOf s')) := by
    intro hsame
    rw [hsame] at hv
    obtain ⟨a', ha', c, hc, hd, hne, hlinks, rfl⟩ := hs.children p v hv
    exact ⟨a', ha', c, hc, h.grows .page _ _ hd, hne, fun link hl => hkeep.mem (hlinks link hl),
      by rw [hids hlinks]⟩
  rcases h.children_cases with hsame | ⟨c, hc, p', hne, hp, hlinks, hput⟩
  · exact hold (by rw [hsame])
  · by_cases hpp : p' = p
    · subst hpp
      rw [hput, get_insert_self] at hv
      exact ⟨a, ha, c, hc, h.grows .page _ _ hp, hne, fun link hl => hkeep.mem (hlinks link hl),
        by rw [hids hlinks, ← Option.some.inj hv]⟩
    · exact hold (by rw [hput, get_insert_ne _ hpp])

/-- The parents of a page are those before, and perhaps a page of this call. -/
theorem write_parents (hs : Sourced E run s) {a : Attempt} (ha : a ∈ run)
    (h : Write E a.call s s') (k v : Str) (hv : (s' .parentChildIndexInverted)[k]? = some v) :
    ∃ ps : List Str, ps ≠ [] ∧ v = joined ps ∧ ∀ p ∈ ps, ∃ a ∈ run, ∃ c ∈ a.call.linked,
      ∃ link ∈ c.links, (s' .document)[c.url]? = some p ∧ (s' .document)[link]? = some k := by
  have hold : ∀ v, (s .parentChildIndexInverted)[k]? = some v →
      ∃ ps : List Str, ps ≠ [] ∧ v = joined ps ∧ ∀ p ∈ ps, ∃ a ∈ run, ∃ c ∈ a.call.linked,
        ∃ link ∈ c.links, (s' .document)[c.url]? = some p ∧ (s' .document)[link]? = some k := by
    intro v hv
    obtain ⟨ps, hne, rfl, hps⟩ := hs.parents k v hv
    refine ⟨ps, hne, rfl, fun p hp => ?_⟩
    obtain ⟨a', ha', c, hc, link, hlink, hd, hk⟩ := hps p hp
    exact ⟨a', ha', c, hc, link, hlink, h.grows .page _ _ hd, h.grows .page _ _ hk⟩
  rcases h.parents_cases with hsame | ⟨c, hc, link, hlink, p, k', hp, hk', hput⟩
  · rw [hsame] at hv
    exact hold v hv
  · by_cases hkk : k' = k
    · subst hkk
      rw [hput, get_insert_self] at hv
      obtain rfl := Option.some.inj hv
      have hnew : ∃ a ∈ run, ∃ c ∈ a.call.linked, ∃ link ∈ c.links,
          (s' .document)[c.url]? = some p ∧ (s' .document)[link]? = some k' :=
        ⟨a, ha, c, hc, link, hlink, h.grows .page _ _ hp, h.grows .page _ _ hk'⟩
      cases hex : (s .parentChildIndexInverted)[k']? with
      | none =>
        refine ⟨[p], by simp, rfl, fun q hq => ?_⟩
        rw [List.mem_singleton.mp hq]
        exact hnew
      | some existed =>
        obtain ⟨ps, hne, rfl, hps⟩ := hold existed hex
        refine ⟨ps ++ [p], by simp, (joined_concat p hne).symm, fun q hq => ?_⟩
        rcases List.mem_append.mp hq with hq | hq
        · exact hps q hq
        · rw [List.mem_singleton.mp hq]
          exact hnew
    · rw [hput, get_insert_ne _ hkk] at hv
      exact hold v hv

/-- **One write makes nothing up.** -/
theorem write (hs : Sourced E run s) {a : Attempt} (ha : a ∈ run) (h : Write E a.call s s') :
    Sourced E run s' where
  ok := kept_indexOk E a.call s s' h hs.ok
  tables t key id hid := by
    rcases h.table_cases hid with hid | hmention
    · exact hs.tables t key id hid
    · exact ⟨a, ha, hmention⟩
  postings := hs.write_postings ha h
  records := hs.write_records ha h
  children := hs.write_children ha h
  parents := hs.write_parents ha h

/-- So neither does a run, of which only attempts of `run` are made. -/
theorem runAll (hs : Sourced E run s) :
    ∀ {part : List Attempt}, (∀ a ∈ part, a ∈ run) → Sourced E run (runAll E part s) := by
  intro part
  induction part generalizing s with
  | nil => exact fun _ => hs
  | cons a part ih =>
    intro hpart
    have ha : a ∈ run := hpart a List.mem_cons_self
    have hafter : Sourced E run (a.after E s) :=
      Kept.after (fun s₁ s₂ hwrite hs₁ => hs₁.write ha hwrite) hs
    exact ih hafter (fun b hb => hpart b (List.mem_cons_of_mem a hb))

end Sourced

theorem sourced_runAll (E : Platform) (run : List Attempt) :
    Sourced E run (runAll E run Stores.empty) :=
  (sourced_empty E run).runAll (fun _ ha => ha)

/-- The children of a page, read back. -/
theorem Sourced.children_eq {run : List Attempt} (hs : Sourced E run s) {p : Str}
    (hp : p ∈ s .parentChildIndex) : ∃ a ∈ run, ∃ c ∈ a.call.linked,
      (s .document)[c.url]? = some p ∧ SearchEngine.children s p = c.links.map (pageIDOf s) := by
  obtain ⟨v, hv⟩ := mem_iff_get.mp hp
  obtain ⟨a, ha, c, hc, hd, hne, hlinks, rfl⟩ := hs.children p v hv
  refine ⟨a, ha, c, hc, hd, ?_⟩
  have hdigits : ∀ id ∈ c.links.map (pageIDOf s), IsDigits id := by
    intro id hid
    obtain ⟨link, hlink, rfl⟩ := List.mem_map.mp hid
    exact hs.ok.isDigits (t := .page) ⟨link, get_pageIDOf (hlinks link hlink)⟩
  unfold SearchEngine.children
  rw [hv]
  exact splitOn_listed (by simpa using hne) hdigits

/-- The parents of a page, read back. -/
theorem Sourced.parents_of {run : List Attempt} (hs : Sourced E run s) {k p : Str}
    (hp : p ∈ SearchEngine.parents s k) : ∃ a ∈ run, ∃ c ∈ a.call.linked, ∃ link ∈ c.links,
      (s .document)[c.url]? = some p ∧ (s .document)[link]? = some k := by
  unfold SearchEngine.parents at hp
  cases hv : (s .parentChildIndexInverted)[k]? with
  | none =>
    rw [hv] at hp
    cases hp
  | some v =>
    obtain ⟨ps, hne, rfl, hps⟩ := hs.parents k v hv
    have hdigits : ∀ q ∈ ps, IsDigits q := by
      intro q hq
      obtain ⟨a, -, c, -, link, -, hd, -⟩ := hps q hq
      exact hs.ok.isDigits (t := .page) ⟨c.url, hd⟩
    rw [hv] at hp
    replace hp : p ∈ splitOn ParentChildIndexer.sep (joined ps) := hp
    rw [splitOn_joined hne hdigits] at hp
    exact hps p hp

/-- **Nothing in the stores is made up.**  Take any run from empty stores, its calls in any order,
    pages re-indexed at will, any `put` failing.  Then each URL and word with an ID is one that a
    call of the run mentions; each group of postings is of a page that a call put into the inverted
    indexes and that has the word in its title, or content; each record is, as a whole, the record
    of a page a call put into the forward index, with the IDs its words have now; the children of a
    page are all the links of such a page; and each parent of a page is a page that links to it. -/
theorem stores_sourced (E : Platform) (run : List Attempt) :
    let s := runAll E run Stores.empty
    (∀ (t : Table) (key : Str), key ∈ s t.fwd → ∃ a ∈ run, a.call.Mentions E t key) ∧
    (∀ (f : Field) (k : Str), ∀ g ∈ groupsAt (s f.db) k, ∃ a ∈ run, ∃ c ∈ a.call.inverted,
      ∃ w ∈ wordsIn E f c, (s .document)[c.url]? = some g.doc ∧ (s .word)[w]? = some k) ∧
    (∀ p ∈ s .forwardIndex, ∃ a ∈ run, ∃ c ∈ a.call.forwarded,
      (s .document)[c.url]? = some p ∧ Recorded E c p s) ∧
    (∀ p ∈ s .parentChildIndex, ∃ a ∈ run, ∃ c ∈ a.call.linked,
      (s .document)[c.url]? = some p ∧ children s p = c.links.map (pageIDOf s)) ∧
    (∀ k, ∀ p ∈ parents s k, ∃ a ∈ run, ∃ c ∈ a.call.linked, ∃ link ∈ c.links,
      (s .document)[c.url]? = some p ∧ (s .document)[link]? = some k) := by
  intro s
  have hs : Sourced E run s := sourced_runAll E run
  refine ⟨fun t key hkey => ?_, hs.postings, fun p hp => ?_, fun p hp => hs.children_eq hp,
    fun k p hp => hs.parents_of hp⟩
  · obtain ⟨id, hid⟩ := mem_iff_get.mp hkey
    exact hs.tables t key id hid
  · obtain ⟨v, hv⟩ := mem_iff_get.mp hp
    exact hs.records p v hv

end SearchEngine
