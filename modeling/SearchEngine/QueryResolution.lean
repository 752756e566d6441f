/-
  From query words to word IDs: the loop that edits the vector it walks.

  `CosSim.getPages` replaces each word by its ID in place.  An unknown word is REMOVED — and the
  index moves on all the same, so the word that slides into its place is never looked at.
  `resolveLoop_eq` says what the loop comes to, as a recursion without indices: behind an
  unknown word one token is copied as it is (`resolved`), and whether it is a key is not
  recorded (`unseen`).

  `query_resolved_iff` then tells exactly for which queries the result is the list of the IDs of
  the known words and `null` is returned for the right queries.
-/
import SearchEngine.CosSim
import Mathlib.Data.List.Chain
import Mathlib.Tactic.Common

namespace SearchEngine

open Text CosSim Effect

namespace CosSim

/-- The vector behind the loop. -/
def resolved (word : RocksDB) : List Str → List Str
  | [] => []
  | [t] => word[t]?.toList
  | t :: t' :: ts =>
    match word[t]? with
    | some wID => wID :: resolved word (t' :: ts)
    | none => t' :: resolved word ts

/-- The loop saw no key. -/
def unseen (word : RocksDB) : List Str → Bool
  | [] => true
  | [t] => word[t]?.isNone
  | t :: _ :: ts =>
    match word[t]? with
    | some _ => false
    | none => unseen word ts

/-- **The loop without indices.**  `pre` is the part that has been walked. -/
theorem resolveLoop_eq (word : RocksDB) :
    ∀ (rest pre : List Str) (noMatch : Bool),
      resolveLoop word (pre ++ rest) pre.length noMatch
        = (pre ++ resolved word rest, noMatch && unseen word rest)
  | [], pre, noMatch => by
    rw [resolveLoop, dif_neg (by simp)]
    simp [resolved, unseen]
  | t :: rest, pre, noMatch => by
    have hlt : pre.length < (pre ++ t :: rest).length := by simp
    have hget : (pre ++ t :: rest)[pre.length] = t := by simp
    have hnext : ∀ u : Str, (pre ++ [u]).length = pre.length + 1 := by simp
    rw [resolveLoop, dif_pos hlt, hget]
    cases hw : word[t]? with
    | some wID =>
      -- the word is replaced, and the walk goes on behind it
      have hset : (pre ++ t :: rest).set pre.length wID = (pre ++ [wID]) ++ rest := by simp
      show resolveLoop word ((pre ++ t :: rest).set pre.length wID) (pre.length + 1) false = _
      rw [hset, ← hnext wID, resolveLoop_eq word rest (pre ++ [wID]) false]
      cases rest with
      | nil => simp [resolved, unseen, hw]
      | cons t' ts => simp [resolved, unseen, hw]
    | none =>
      have herase : (pre ++ t :: rest).eraseIdx pre.length = pre ++ rest := by
        rw [List.eraseIdx_append_of_length_le (Nat.le_refl _), Nat.sub_self]
        rfl
      show resolveLoop word ((pre ++ t :: rest).eraseIdx pre.length) (pre.length + 1) noMatch = _
      rw [herase]
      cases rest with
      | nil =>
        rw [List.append_nil, resolveLoop, dif_neg (by omega)]
        simp [resolved, unseen, hw]
      | cons t' ts =>
        -- the word behind it slides into its place, and is passed over
        have hslide : pre ++ t' :: ts = (pre ++ [t']) ++ ts := by simp
        rw [hslide, ← hnext t', resolveLoop_eq word ts (pre ++ [t']) noMatch]
        simp [resolved, unseen, hw]

theorem resolveLoop_start (word : RocksDB) (q : List Str) :
    resolveLoop word q 0 true = (resolved word q, unseen word q) :=
  resolveLoop_eq word q [] true

/-- The IDs of the known words, in order and with multiplicity. -/
def knownIDs (word : RocksDB) (q : List Str) : List Str := q.filterMap (fun t => word[t]?)

theorem knownIDs_cons_some {word : RocksDB} {t wID : Str} (h : word[t]? = some wID)
    (ts : List Str) : knownIDs word (t :: ts) = wID :: knownIDs word ts :=
  List.filterMap_cons_some h

theorem knownIDs_cons_none {word : RocksDB} {t : Str} (h : word[t]? = none) (ts : List Str) :
    knownIDs word (t :: ts) = knownIDs word ts :=
  List.filterMap_cons_none h

theorem length_knownIDs_le (word : RocksDB) (q : List Str) :
    (knownIDs word q).length ≤ (resolved word q).length := by
  induction q using resolved.induct word with
  | case1 => exact Nat.le_refl _
  | case2 t =>
    rw [knownIDs, resolved, List.filterMap_cons]
    cases word[t]? with
    | none => simp
    | some wID => simp
  | case3 t t' ts wID hw ih =>
    rw [knownIDs_cons_some hw, resolved, hw, List.length_cons, List.length_cons]
    exact Nat.succ_le_succ ih
  | case4 t t' ts hw ih =>
    have hone : (knownIDs word (t' :: ts)).length ≤ (knownIDs word ts).length + 1 := by
      rw [knownIDs, knownIDs, List.filterMap_cons]
      split <;> simp
    rw [knownIDs_cons_none hw, resolved, hw, List.length_cons]
    exact Nat.le_trans hone (Nat.succ_le_succ ih)

/-- A token is passed over without harm if it is a key and its own ID. -/
def SkipSafe (word : RocksDB) (u t : Str) : Prop := word[u]? = none → word[t]? = some t

theorem isChain_cons_of_known {word : RocksDB} {t : Str} {ts : List Str}
    (ht : word[t]? ≠ none) :
    (t :: ts).IsChain (SkipSafe word) ↔ ts.IsChain (SkipSafe word) := by
  cases ts with
  | nil => simp
  | cons t' ts =>
    rw [List.isChain_cons_cons]
    exact ⟨fun h => h.2, fun h => ⟨fun hno => absurd hno ht, h⟩⟩

/-- **Exactly when the vector holds the right IDs**: whatever stands behind an unknown word is a
    key and its own ID. -/
theorem resolved_eq_knownIDs_iff (word : RocksDB) (q : List Str) :
    resolved word q = knownIDs word q ↔ q.IsChain (SkipSafe word) := by
  induction q using resolved.induct word with
  | case1 => simp [resolved, knownIDs]
  | case2 t =>
    have hone : resolved word [t] = knownIDs word [t] := by
      rw [resolved, knownIDs, List.filterMap_cons]
      cases word[t]? with
      | none => rfl
      | some wID => rfl
    exact ⟨fun _ => List.isChain_singleton t, fun _ => hone⟩
  | case3 t t' ts wID hw ih =>
    have hknown : word[t]? ≠ none := by rw [hw]; simp
    rw [isChain_cons_of_known hknown, ← ih, resolved, hw, knownIDs_cons_some hw]
    exact ⟨fun h => (List.cons.inj h).2, fun h => congrArg (wID :: ·) h⟩
  | case4 t t' ts hw ih =>
    have hlen := length_knownIDs_le word ts
    rw [List.isChain_cons_cons, resolved, hw, knownIDs_cons_none hw]
    cases hw' : word[t']? with
    | none =>
      -- a raw token is left over: the vector is too long
      rw [knownIDs_cons_none hw']
      constructor
      · intro h
        have hcount := congrArg List.length h
        rw [List.length_cons] at hcount
        omega
      · intro h
        have hself := h.1 hw
        rw [hw'] at hself
        exact absurd hself (by simp)
    | some wID =>
      have hknown : word[t']? ≠ none := by rw [hw']; simp
      rw [knownIDs_cons_some hw', isChain_cons_of_known hknown, ← ih]
      constructor
      · intro h
        obtain ⟨hhead, htail⟩ := List.cons.inj h
        exact ⟨fun _ => by rw [hw', hhead], htail⟩
      · rintro ⟨hself, htail⟩
        have hid : wID = t' := by
          have hself' := hself hw
          rw [hw'] at hself'
          exact Option.some.inj hself'
        rw [hid]
        exact congrArg (t' :: ·) htail

/-! ## The flag -/

/-- The first word is a key, or two keys stand next to each other. -/
def KeySeen (word : RocksDB) (q : List Str) : Prop :=
  (∃ t ∈ q.head?, word[t]? ≠ none) ∨
  ∃ a b, [a, b] <:+: q ∧ word[a]? ≠ none ∧ word[b]? ≠ none

theorem unseen_of_no_key {word : RocksDB} {q : List Str} (h : ∀ t ∈ q, word[t]? = none) :
    unseen word q = true := by
  induction q using unseen.induct word with
  | case1 => rfl
  | case2 t => rw [unseen, h t (by simp)]; rfl
  | case3 t t' ts wID hw =>
    rw [h t (by simp)] at hw
    exact absurd hw (by simp)
  | case4 t t' ts hw ih =>
    rw [unseen, hw]
    exact ih (fun x hx => h x (List.mem_cons_of_mem t (List.mem_cons_of_mem t' hx)))

theorem not_keySeen_nil (word : RocksDB) : ¬ KeySeen word [] := by
  rintro (⟨t, ht, -⟩ | ⟨a, b, hab, -⟩)
  · simp at ht
  · simp at hab

theorem keySeen_singleton (word : RocksDB) (t : Str) : KeySeen word [t] ↔ word[t]? ≠ none := by
  constructor
  · rintro (⟨t', ht', hne⟩ | ⟨a, b, hab, -⟩)
    · obtain rfl : t = t' := by simpa using ht'
      exact hne
    · have hlen := hab.length_le
      simp at hlen
  · exact fun hne => Or.inl ⟨t, rfl, hne⟩

/-- An unknown word and a key behind it: the key only counts for the word that follows. -/
theorem keySeen_skip {word : RocksDB} {t t' : Str} {ts : List Str} (hw : word[t]? = none)
    (hknown : word[t']? ≠ none) : KeySeen word (t :: t' :: ts) ↔ KeySeen word ts := by
  constructor
  · rintro (⟨b, hb, hne⟩ | ⟨a, b, hab, hna, hnb⟩)
    · obtain rfl : t = b := by simpa using hb
      exact absurd hw hne
    · rcases List.infix_cons_iff.mp hab with hab | hab
      · have hat : a = t := (List.cons_prefix_cons.mp hab).1
        rw [hat] at hna
        exact absurd hw hna
      · rcases List.infix_cons_iff.mp hab with hab | hab
        · obtain ⟨-, hb⟩ := List.cons_prefix_cons.mp hab
          obtain ⟨ts', hts'⟩ := hb
          exact Or.inl ⟨b, by rw [← hts']; rfl, hnb⟩
        · exact Or.inr ⟨a, b, hab, hna, hnb⟩
  · rintro (⟨b, hb, hne⟩ | ⟨a, b, hab, hne⟩)
    · obtain ⟨ts', rfl⟩ : ∃ ts', ts = b :: ts' := by
        cases ts with
        | nil => simp at hb
        | cons c ts => exact ⟨ts, by rw [show c = b by simpa using hb]⟩
      exact Or.inr ⟨t', b, ⟨[t], ts', by simp⟩, hknown, hne⟩
    · exact Or.inr ⟨a, b, hab.trans ⟨[t, t'], [], by simp⟩, hne⟩

/-- When passing over does no harm, a key is seen just when it comes first or follows a key. -/
theorem unseen_eq_false_iff {word : RocksDB} {q : List Str} (h : q.IsChain (SkipSafe word)) :
    unseen word q = false ↔ KeySeen word q := by
  induction q using unseen.induct word with
  | case1 => exact ⟨fun h => Bool.noConfusion h, fun h => absurd h (not_keySeen_nil word)⟩
  | case2 t =>
    rw [unseen, keySeen_singleton]
    cases word[t]? with
    | none => simp
    | some wID => simp
  | case3 t t' ts wID hw =>
    rw [unseen, hw]
    exact ⟨fun _ => Or.inl ⟨t, rfl, by rw [hw]; simp⟩, fun _ => rfl⟩
  | case4 t t' ts hw ih =>
    obtain ⟨hself, htail⟩ := List.isChain_cons_cons.mp h
    have hknown : word[t']? ≠ none := by rw [hself hw]; simp
    rw [unseen, hw, keySeen_skip hw hknown]
    show unseen word ts = false ↔ _
    exact ih ((isChain_cons_of_known hknown).mp htail)

/-- What follows the loop. -/
theorem getPages_eq {E : Platform} {s : Stores} {query : Str} (thresh : Float) {q : List Str}
    (hclean : StopWords.clean E (splitWs query) = .ok q) :
    getPages E s query thresh
      = if unseen (s .word) q then .ok none
        else cossimU (s .titleInverted) (s .contentInverted) (resolved (s .word) q) >>= fun u =>
          scorePages (s .forwardIndex) (resolved (s .word) q).length thresh u >>= fun cossim =>
            .ok (some cossim) := by
  rw [getPages, hclean, except_ok_bind, resolveLoop_start]
  rfl

/-- `getPages` returns `null` just when the loop saw no key. -/
theorem getPages_null_iff {E : Platform} {s : Stores} {query : Str} {thresh : Float}
    {q : List Str} (hclean : StopWords.clean E (splitWs query) = .ok q) :
    getPages E s query thresh = .ok none ↔ unseen (s .word) q = true := by
  rw [getPages_eq thresh hclean]
  cases unseen (s .word) q with
  | true => simp
  | false =>
    refine ⟨fun h => ?_, fun h => Bool.noConfusion h⟩
    rw [if_neg Bool.false_ne_true] at h
    -- what the later stages return is never `null`
    cases hu : cossimU (s .titleInverted) (s .contentInverted) (resolved (s .word) q) with
    | error e =>
      rw [hu] at h
      cases h
    | ok u =>
      rw [hu, except_ok_bind] at h
      cases hc : scorePages (s .forwardIndex) (resolved (s .word) q).length thresh u with
      | error e =>
        rw [hc] at h
        cases h
      | ok cossim =>
        rw [hc] at h
        cases h

end CosSim

/-- **Exactly when a query is resolved completely.**  For every word table and every query with
    cleaned tokens `q`: the loop ends with the IDs of exactly the known tokens, in order and with
    multiplicity, and `null` is returned just for queries without a known token, if and only if
    every token right behind an unknown one is a key and its own ID — and, should any token be a
    key, the first token is one or two keys stand next to each other. -/
theorem query_resolved_iff (E : Platform) (s : Stores) (query : Str) (thresh : Float)
    (q : List Str) (hclean : StopWords.clean E (splitWs query) = .ok q) :
    ((resolveLoop (s .word) q 0 true).1 = knownIDs (s .word) q ∧
      (getPages E s query thresh = .ok none ↔ ∀ t ∈ q, (s .word)[t]? = none)) ↔
    (q.IsChain (SkipSafe (s .word)) ∧
      ((∃ t ∈ q, (s .word)[t]? ≠ none) → KeySeen (s .word) q)) := by
  rw [getPages_null_iff hclean, resolveLoop_start, resolved_eq_knownIDs_iff]
  refine and_congr_right (fun hchain => ?_)
  rw [← unseen_eq_false_iff hchain]
  constructor
  · rintro hflag ⟨t, ht, hne⟩
    cases hu : unseen (s .word) q with
    | false => rfl
    | true => exact absurd (hflag.mp hu t ht) hne
  · intro hseen
    refine ⟨fun hu t ht => ?_, fun hno => unseen_of_no_key hno⟩
    by_contra hne
    rw [hseen ⟨t, ht, hne⟩] at hu
    exact Bool.noConfusion hu

/-- A table that knows the word `ab`, under the ID `1`. -/
def oneWord : Stores := Stores.empty.put .word "ab".toList ['1']

/-- The query `ab xy`, with `xy` unknown: the unknown word is the last, so none is passed over. -/
theorem known_word_resolved :
    (resolveLoop (oneWord .word) ["ab".toList, "xy".toList] 0 true).1
        = knownIDs (oneWord .word) ["ab".toList, "xy".toList] ∧
      (getPages asciiPlatform oneWord "ab xy".toList 0 = .ok none ↔
        ∀ t ∈ ["ab".toList, "xy".toList], (oneWord .word)[t]? = none) := by
  have hknown : (oneWord .word)["ab".toList]? ≠ none := by decide +kernel
  refine (query_resolved_iff asciiPlatform oneWord "ab xy".toList 0 ["ab".toList, "xy".toList]
    (by decide +kernel)).mpr ⟨?_, fun _ => ?_⟩
  · rw [isChain_cons_of_known hknown]
    exact List.isChain_singleton _
  · exact Or.inl ⟨_, rfl, hknown⟩

/-- The query `xy ab`, with `xy` unknown: `ab` is left in the vector as it is, and the query is
    answered as if it had no match. -/
theorem known_word_passed_over :
    ¬ ∀ (E : Platform) (s : Stores) (query : Str) (thresh : Float) (q : List Str),
      StopWords.clean E (splitWs query) = .ok q →
      (resolveLoop (s .word) q 0 true).1 = knownIDs (s .word) q ∧
      (getPages E s query thresh = .ok none ↔ ∀ t ∈ q, (s .word)[t]? = none) := by
  intro h
  have hq := (h asciiPlatform oneWord "xy ab".toList 0 ["xy".toList, "ab".toList]
    (by decide +kernel)).1
  rw [resolveLoop_start] at hq
  revert hq
  decide +kernel

end SearchEngine
