/-
  When the loop over a page's tokens writes back the value it found.

  Everything here is about TEXTS, whatever they spell and whatever the page's ID looks like.  Of
  the two ways to update a value one makes it longer; only a removal can make up for that.  So a
  value comes out as it was just when the removal took all of it away: it was the page's group
  and nothing else, with the positions the loop is about to write (`rewritten_iff`).

  The argument counts the letter `d`.  A removal takes out exactly one, a splice puts none in,
  an appended group as many as its tag has.
-/
import SearchEngine.PostingLoop
import Mathlib.Tactic.Common

namespace SearchEngine

open Text Numeral InvertedIndexer

/-! ## Recording a position -/

/-- Record the position `q` in a text: behind the first tag found, or in a new group. -/
def recordAt (p q t : Str) : Str :=
  match indexOf (docTag p) t with
  | none =>
    if t = [] ∨ t = [' '] then docTag p ++ ' ' :: q else t ++ ' ' :: (docTag p ++ ' ' :: q)
  | some loc =>
    t.take (loc + (docTag p).length) ++ ' ' :: q ++ t.drop (loc + (docTag p).length)

theorem addPosting_eq (p : Str) (i : Nat) (t : Str) :
    addPosting p i t (indexOf (docTag p) t) = recordAt p (decimal (i + 1)) t := by
  unfold recordAt addPosting firstPosting
  cases indexOf (docTag p) t <;> rfl

/-- Several positions, as they stand in the end: the latest first. -/
def positionsText (qs : List Str) : Str := qs.reverse.flatMap (' ' :: ·)

theorem positionsText_cons (q : Str) (qs : List Str) :
    positionsText (q :: qs) = positionsText qs ++ ' ' :: q := by
  simp [positionsText]

theorem d_not_mem_positionsText {qs : List Str} (h : ∀ q ∈ qs, 'd' ∉ q) :
    'd' ∉ positionsText qs := by
  intro hmem
  obtain ⟨q, hq, hd⟩ := List.mem_flatMap.mp hmem
  rcases List.mem_cons.mp hd with hd | hd
  · exact absurd hd (by decide)
  · exact h q (List.mem_reverse.mp hq) hd

theorem docTag_eq (p : Str) : docTag p = 'd' :: ("oc".toList ++ p) := rfl

/-- Into nothing, or a lone blank, goes the group alone. -/
theorem recordAt_of_blank {p t : Str} (h : indexOf (docTag p) t = none)
    (hblank : t = [] ∨ t = [' ']) (q : Str) : recordAt p q t = docTag p ++ ' ' :: q := by
  rw [recordAt, h]
  exact if_pos hblank

/-- Without the tag, the group goes behind the text. -/
theorem recordAt_of_miss {p t : Str} (h : indexOf (docTag p) t = none)
    (hblank : ¬ (t = [] ∨ t = [' '])) (q : Str) :
    recordAt p q t = t ++ ' ' :: (docTag p ++ ' ' :: q) := by
  rw [recordAt, h]
  exact if_neg hblank

/-- A splice goes in behind the first tag. -/
theorem recordAt_of_hit {p a z : Str}
    (h : indexOf (docTag p) (a ++ (docTag p ++ z)) = some a.length) (q : Str) :
    recordAt p q (a ++ (docTag p ++ z)) = a ++ (docTag p ++ (' ' :: q ++ z)) := by
  have htake : (a ++ (docTag p ++ z)).take (a.length + (docTag p).length) = a ++ docTag p := by
    rw [← List.append_assoc, List.take_left' (by simp)]
  have hdrop : (a ++ (docTag p ++ z)).drop (a.length + (docTag p).length) = z := by
    rw [← List.append_assoc, List.drop_left' (by simp)]
  unfold recordAt
  rw [h]
  show List.take _ _ ++ ' ' :: q ++ List.drop _ _ = _
  rw [htake, hdrop]
  simp

/-- The tag of an appended group. -/
theorem docTag_infix_appended (p t q : Str) : docTag p <:+: t ++ ' ' :: (docTag p ++ ' ' :: q) :=
  ⟨t ++ [' '], ' ' :: q, by simp⟩

/-- So do all that follow: the first tag stays the first. -/
theorem foldl_recordAt {p a : Str} :
    ∀ (qs : List Str) {z : Str}, indexOf (docTag p) (a ++ (docTag p ++ z)) = some a.length →
      qs.foldl (fun t q => recordAt p q t) (a ++ (docTag p ++ z))
        = a ++ (docTag p ++ (positionsText qs ++ z))
  | [], z, _ => rfl
  | q :: qs, z, h => by
    rw [List.foldl_cons, recordAt_of_hit h, foldl_recordAt qs (indexOf_replace _ h),
      positionsText_cons]
    simp

theorem count_docTag (p x : Str) :
    (docTag p ++ x).count 'd' = 1 + p.count 'd' + x.count 'd' := by
  rw [docTag_eq]
  simp [List.count_append]
  omega

/-- Recording in a text that has the tag puts no `d` in. -/
theorem count_foldl_recordAt {p t : Str} {qs : List Str} (hqs : ∀ q ∈ qs, 'd' ∉ q)
    (h : docTag p <:+: t) :
    (qs.foldl (fun t q => recordAt p q t) t).count 'd' = t.count 'd' := by
  obtain ⟨a, z, rfl, hn⟩ := indexOf_of_infix h
  rw [foldl_recordAt qs hn]
  simp [List.count_append, List.count_eq_zero.mpr (d_not_mem_positionsText hqs)]

/-! ## Removing a group -/

/-- A text up to its first `d`. -/
theorem split_at_d (s : Str) :
    ∃ b c, s = b ++ c ∧ 'd' ∉ b ∧ (∀ x ∈ c.head?, x = 'd') ∧
      s.findIdx (· == 'd') = b.length := by
  induction s with
  | nil => exact ⟨[], [], rfl, by simp, by simp, rfl⟩
  | cons x s ih =>
    by_cases hx : x = 'd'
    · exact ⟨[], x :: s, rfl, by simp, by simpa using hx, by simp [List.findIdx_cons, hx]⟩
    · obtain ⟨b, c, rfl, hb, hc, hidx⟩ := ih
      refine ⟨x :: b, c, rfl, ?_, hc, ?_⟩
      · rw [List.mem_cons, not_or]
        exact ⟨Ne.symm hx, hb⟩
      · rw [List.findIdx_cons, hidx, beq_false_of_ne hx]
        rfl

/-- What a removal leaves of a text: the tag goes, and everything up to the next `d`. -/
theorem removeGroup_split (p a z : Str) :
    ∃ b c, "oc".toList ++ p ++ z = b ++ c ∧ 'd' ∉ b ∧ (∀ x ∈ c.head?, x = 'd') ∧
      removeGroup (a ++ (docTag p ++ z)) a.length = a ++ c := by
  obtain ⟨b, c, hsplit, hb, hc, hidx⟩ := split_at_d ("oc".toList ++ p ++ z)
  refine ⟨b, c, hsplit, hb, hc, ?_⟩
  have htext : a ++ (docTag p ++ z) = (a ++ 'd' :: b) ++ c := by
    rw [docTag_eq, List.cons_append, hsplit]
    simp
  have hdrop : (a ++ (docTag p ++ z)).drop (a.length + 1) = "oc".toList ++ p ++ z := by
    rw [← List.drop_drop, List.drop_left]
    rfl
  have hend : a.length + 1 + b.length = (a ++ 'd' :: b).length := by
    simp
    omega
  rw [removeGroup, hdrop, hidx, List.take_left, hend, htext, List.drop_left]

/-- The tag and the text up to the next `d` hold one `d` between them. -/
theorem count_of_split {p a z b c : Str} (hsplit : "oc".toList ++ p ++ z = b ++ c) (hb : 'd' ∉ b) :
    (a ++ (docTag p ++ z)).count 'd' = (a ++ c).count 'd' + 1 := by
  have htext : a ++ (docTag p ++ z) = a ++ 'd' :: (b ++ c) := by
    rw [docTag_eq, List.cons_append, hsplit]
  rw [htext]
  simp [List.count_append, List.count_eq_zero.mpr hb]
  omega

/-! ## A value that comes out as it was -/

/-- The page's group and nothing else: removed and written again. -/
theorem rewritten_of_own {p q : Str} {qs : List Str} (hp : 'd' ∉ p) (hqs : ∀ x ∈ q :: qs, 'd' ∉ x) :
    qs.foldl (fun t q => recordAt p q t)
        (recordAt p q (removeGroup (docTag p ++ positionsText (q :: qs)) 0))
      = docTag p ++ positionsText (q :: qs) := by
  obtain ⟨b, c, hsplit, -, hc, hrem⟩ := removeGroup_split p [] (positionsText (q :: qs))
  have hno : 'd' ∉ "oc".toList ++ p ++ positionsText (q :: qs) := by
    simp only [List.mem_append, not_or]
    exact ⟨⟨by decide, hp⟩, d_not_mem_positionsText hqs⟩
  have hnil : c = [] := by
    cases c with
    | nil => rfl
    | cons x c =>
      obtain rfl : x = 'd' := hc x rfl
      rw [hsplit] at hno
      exact absurd (by simp) hno
  have hfirst : recordAt p q [] = [] ++ (docTag p ++ ' ' :: q) :=
    recordAt_of_blank (indexOf_nil (by simp [docTag])) (Or.inl rfl) q
  rw [hnil] at hrem
  rw [show removeGroup (docTag p ++ positionsText (q :: qs)) 0 = [] from hrem, hfirst,
    foldl_recordAt qs (indexOf_front (List.prefix_append _ _)), positionsText_cons]
  rfl

/-- What begins with a `d` stands behind a text without one. -/
theorem suffix_of_d_not_mem {u z b c : Str} (hu : 'd' ∉ u) (h : u ++ z = b ++ 'd' :: c) :
    'd' :: c <:+ z := by
  have hends : 'd' :: c <:+ u ++ z := ⟨b, h.symm⟩
  rcases List.suffix_or_suffix_of_suffix hends (List.suffix_append u z) with hcz | ⟨e, he⟩
  · exact hcz
  · cases e with
    | nil => exact ⟨[], he.symm⟩
    | cons y e =>
      obtain rfl : y = 'd' := (List.cons.inj he).1
      rw [← he, ← List.append_assoc] at h
      rw [List.append_cancel_right h] at hu
      exact absurd (by simp) hu

/-- So it is longer than what follows the last `d` of a text it ends. -/
theorem length_lt_of_d_not_mem {u v c : Str} (hu : 'd' ∉ u) (h : 'd' :: c <:+ v ++ u) :
    u.length < ('d' :: c).length := by
  by_contra hle
  have hcu : 'd' :: c <:+ u :=
    List.suffix_of_suffix_length_le h (List.suffix_append v u) (by omega)
  exact hu (hcu.subset List.mem_cons_self)

/-- A group appended to what a removal left does not give the text back: the `d` behind the
    removed group would have to come after the appended one. -/
theorem append_not_rewritten {p a z b c q : Str} {qs : List Str} (hp : 'd' ∉ p)
    (hqs : ∀ x ∈ q :: qs, 'd' ∉ x)
    (hloc : indexOf (docTag p) (a ++ (docTag p ++ z)) = some a.length)
    (hsplit : "oc".toList ++ p ++ z = b ++ c) (hc : ∀ x ∈ c.head?, x = 'd')
    (hnone : indexOf (docTag p) (a ++ c) = none) :
    qs.foldl (fun t q => recordAt p q t) ((a ++ c) ++ ' ' :: (docTag p ++ ' ' :: q))
      ≠ a ++ (docTag p ++ z) := by
  intro h
  obtain ⟨a', z', hfirst, hn⟩ := indexOf_of_infix (docTag_infix_appended p (a ++ c) q)
  rw [hfirst, foldl_recordAt qs hn] at h
  -- the first tag is where it was, so what stands around it can be compared
  have hlen : a'.length = a.length := by
    have hn' := indexOf_replace (positionsText qs ++ z') hn
    rw [h, hloc] at hn'
    exact (Option.some.inj hn').symm
  obtain ⟨rfl, hz⟩ := List.append_inj h hlen
  replace hz : positionsText qs ++ z' = z := List.append_cancel_left hz
  have htail : c ++ ' ' :: (docTag p ++ ' ' :: q) = docTag p ++ z' := by
    rw [List.append_assoc] at hfirst
    exact List.append_cancel_left hfirst
  cases c with
  | nil => exact absurd (List.cons.inj htail).1 (by decide)
  | cons x c =>
    obtain rfl : x = 'd' := hc x rfl
    have hshort : ('d' :: c).length < (docTag p).length := by
      by_contra hle
      have hopens : 'd' :: c <+: docTag p ++ z' := by
        rw [← htail]
        exact List.prefix_append _ _
      have hpre : docTag p <+: 'd' :: c :=
        List.prefix_of_prefix_length_le (List.prefix_append _ _) hopens (by omega)
      exact indexOf_eq_none_iff.mp hnone (hpre.isInfix.trans (List.suffix_append _ _).isInfix)
    -- the rest of the text ends in `c`, and so does what stands behind the first tag
    have hsuffix : 'd' :: c <:+ z' := by
      have hoc : 'd' ∉ "oc".toList ++ p ++ positionsText qs := by
        simp only [List.mem_append, not_or]
        exact ⟨⟨by decide, hp⟩, d_not_mem_positionsText (fun x hx => hqs x (by simp [hx]))⟩
      rw [← hz, ← List.append_assoc] at hsplit
      exact suffix_of_d_not_mem hoc hsplit
    have hlong : ("oc".toList ++ p ++ ' ' :: q).length < ('d' :: c).length := by
      have hafter : 'd' ∉ "oc".toList ++ p ++ ' ' :: q := by
        simp only [List.mem_append, List.mem_cons, not_or]
        exact ⟨⟨by decide, hp⟩, by decide, hqs q (by simp)⟩
      have hwhole : docTag p ++ z'
          = ('d' :: c ++ [' ', 'd']) ++ ("oc".toList ++ p ++ ' ' :: q) := by
        rw [← htail]
        simp [docTag]
      have hends := hsuffix.trans (List.suffix_append (docTag p) z')
      rw [hwhole] at hends
      exact length_lt_of_d_not_mem hafter hends
    simp [docTag] at hlong hshort
    omega

/-- **When a value is rewritten to itself.**  A value in which the page is found, its group removed
    and the positions `q :: qs` recorded one after the other, comes out as it was just when it was
    the page's group with these positions and nothing else — and the tag holds no second `d`. -/
theorem rewritten_iff {p a z q : Str} {qs : List Str}
    (hloc : indexOf (docTag p) (a ++ (docTag p ++ z)) = some a.length)
    (hqs : ∀ x ∈ q :: qs, 'd' ∉ x) :
    qs.foldl (fun t q => recordAt p q t)
        (recordAt p q (removeGroup (a ++ (docTag p ++ z)) a.length)) = a ++ (docTag p ++ z) ↔
      'd' ∉ p ∧ a ++ (docTag p ++ z) = docTag p ++ positionsText (q :: qs) := by
  constructor
  · intro h
    obtain ⟨b, c, hsplit, hb, hc, hrem⟩ := removeGroup_split p a z
    rw [hrem] at h
    have hcount := count_of_split (a := a) hsplit hb
    have hpos : (positionsText (q :: qs)).count 'd' = 0 :=
      List.count_eq_zero.mpr (d_not_mem_positionsText hqs)
    cases hhit : indexOf (docTag p) (a ++ c) with
    | some n =>
      -- a splice puts no `d` back
      have hin : docTag p <:+: a ++ c := by
        by_contra hno
        rw [indexOf_eq_none_iff.mpr hno] at hhit
        cases hhit
      have hall := count_foldl_recordAt hqs hin
      rw [List.foldl_cons, h] at hall
      omega
    | none =>
      have hq0 : (' ' :: q).count 'd' = 0 := by
        rw [List.count_cons_of_ne (by decide)]
        exact List.count_eq_zero.mpr (hqs q (by simp))
      by_cases hblank : a ++ c = [] ∨ a ++ c = [' ']
      · -- the removal took everything
        have hgone : (a ++ c).count 'd' = 0 := by
          rcases hblank with hblank | hblank <;> rw [hblank] <;> rfl
        have hfirst : recordAt p q (a ++ c) = [] ++ (docTag p ++ ' ' :: q) :=
          recordAt_of_blank hhit hblank q
        rw [hfirst, foldl_recordAt qs (indexOf_front (List.prefix_append _ _)),
          ← positionsText_cons, List.nil_append] at h
        refine ⟨?_, h.symm⟩
        rw [← h, count_docTag, hpos, hgone] at hcount
        exact List.count_eq_zero.mp (by omega)
      · rw [recordAt_of_miss hhit hblank] at h
        have htagged := docTag_infix_appended p (a ++ c) q
        have hp : 'd' ∉ p := by
          have hall := congrArg (List.count 'd') h
          rw [count_foldl_recordAt (fun x hx => hqs x (by simp [hx])) htagged, hcount,
            List.count_append,
            List.count_cons_of_ne (by decide), count_docTag, hq0] at hall
          exact List.count_eq_zero.mp (by omega)
        exact absurd h (append_not_rewritten hp hqs hloc hsplit hc hhit)
  · rintro ⟨hp, hv⟩
    have hfront : indexOf (docTag p) (a ++ (docTag p ++ z)) = some 0 := by
      rw [hv]
      exact indexOf_front (List.prefix_append _ _)
    have hnil : a.length = 0 := Option.some.inj (hloc.symm.trans hfront)
    rw [hnil, hv]
    exact rewritten_of_own hp hqs

/-! ## The loop -/

/-- The value is there, and the page is found in it. -/
def Tagged (p : Str) (value : Option Str) : Prop := ∃ t, value = some t ∧ docTag p <:+: t

theorem tagged_recordAt (p q t : Str) : Tagged p (some (recordAt p q t)) := by
  refine ⟨_, rfl, ?_⟩
  cases hhit : indexOf (docTag p) t with
  | none =>
    by_cases hblank : t = [] ∨ t = [' ']
    · rw [recordAt_of_blank hhit hblank]
      exact (List.prefix_append _ _).isInfix
    · rw [recordAt_of_miss hhit hblank]
      exact docTag_infix_appended p t q
  | some n =>
    obtain ⟨a, z, rfl, rfl⟩ := indexOf_split hhit
    rw [recordAt_of_hit hhit]
    exact ⟨a, ' ' :: q ++ z, by simp⟩

/-- The search finds the page in a tagged value. -/
theorem Tagged.found {p : Str} {value : Option Str} (h : Tagged p value) :
    ∃ a z, value = some (a ++ (docTag p ++ z)) ∧
      indexOf (docTag p) (a ++ (docTag p ++ z)) = some a.length := by
  obtain ⟨t, rfl, hin⟩ := h
  obtain ⟨a, z, rfl, hn⟩ := indexOf_of_infix hin
  exact ⟨a, z, rfl, hn⟩

/-- Does a turn of the key `k` remove what it finds? -/
def Removes (k : Str) (v : Loop) : Prop := (v.i = 0 ∨ v.rewrite = true) ∧ k ∉ v.refreshed

theorem newValue_of_removes {p k t : Str} {v : Loop} {loc : Nat}
    (hhit : indexOf (docTag p) t = some loc) (h : Removes k v) :
    newValue p k v (some t)
      = (recordAt p (decimal (v.i + 1)) (removeGroup t loc), true, v.refreshed ++ [k]) := by
  rw [newValue, hhit, ← addPosting_eq]
  exact if_pos h

theorem newValue_of_keeps {p k t : Str} {v : Loop}
    (h : indexOf (docTag p) t = none ∨ ¬ Removes k v) :
    newValue p k v (some t) = (recordAt p (decimal (v.i + 1)) t, v.rewrite, v.refreshed) := by
  rw [newValue, ← addPosting_eq]
  cases hhit : indexOf (docTag p) t with
  | none => rfl
  | some loc =>
    rw [hhit] at h
    exact if_neg (h.resolve_left (by simp))

/-- Every turn leaves a tagged value. -/
theorem tagged_newValue (p k : Str) (v : Loop) (value : Option Str) :
    Tagged p (some (newValue p k v value).1) := by
  cases value with
  | none => exact ⟨_, rfl, (List.prefix_append _ _).isInfix⟩
  | some t =>
    cases hhit : indexOf (docTag p) t with
    | none =>
      rw [newValue_of_keeps (Or.inl hhit)]
      exact tagged_recordAt p _ t
    | some loc =>
      by_cases hrem : Removes k v
      · rw [newValue_of_removes hhit hrem]
        exact tagged_recordAt p _ _
      · rw [newValue_of_keeps (Or.inr hrem)]
        exact tagged_recordAt p _ t

theorem rewrites_of_not_mem {p k : Str} :
    ∀ {ks : List Str} (v : Loop) (G : Str → Option Str), k ∉ ks → rewrites p ks v G k = G k
  | [], _, _, _ => rfl
  | k' :: ks, v, G, h => by
    rw [List.mem_cons, not_or] at h
    rw [rewrites, rewrites_of_not_mem _ _ h.2, Function.update_of_ne h.1]

/-- Tags stay, and every key of the list gets one. -/
theorem tagged_rewrites {p k : Str} :
    ∀ (ks : List Str) (v : Loop) (G : Str → Option Str), k ∈ ks ∨ Tagged p (G k) →
      Tagged p (rewrites p ks v G k)
  | [], _, _, h => by
    rcases h with h | h
    · exact absurd h (by simp)
    · exact h
  | k' :: ks, v, G, h => by
    rw [rewrites]
    refine tagged_rewrites ks _ _ ?_
    by_cases hk : k = k'
    · subst hk
      rw [Function.update_self]
      exact Or.inr (tagged_newValue p k v (G k))
    · rw [Function.update_of_ne hk]
      rcases h with h | h
      · exact Or.inl ((List.mem_cons.mp h).resolve_left hk)
      · exact Or.inr h

/-- Where the page is found in the value of every key ahead, the first removal is at the first
    token, and from then on every key loses its group at its first turn. -/
def Removing (v : Loop) : Prop := v.rewrite = true ∨ (v.i = 0 ∧ v.refreshed = [])

theorem Removing.removes_iff {v : Loop} (h : Removing v) (k : Str) :
    Removes k v ↔ k ∉ v.refreshed := by
  refine ⟨fun hrem => hrem.2, fun hk => ⟨?_, hk⟩⟩
  rcases h with h | h
  · exact Or.inr h
  · exact Or.inl h.1

/-- One turn on a tagged value: the flags behind it. -/
theorem Removing.turn {v : Loop} (h : Removing v) {p k : Str} {value : Option Str}
    (ht : Tagged p value) :
    (newValue p k v value).2.1 = true ∧
    ∀ k', k' ∈ (newValue p k v value).2.2 ↔ k' ∈ v.refreshed ∨ k' = k := by
  obtain ⟨a, z, rfl, hhit⟩ := ht.found
  by_cases hk : k ∈ v.refreshed
  · rw [newValue_of_keeps (Or.inr (fun hrem => (h.removes_iff k).mp hrem hk))]
    constructor
    · rcases h with h | ⟨-, h⟩
      · exact h
      · rw [h] at hk
        exact absurd hk (by simp)
    · intro k'
      refine ⟨Or.inl, ?_⟩
      rintro (hk' | rfl)
      · exact hk'
      · exact hk
  · rw [newValue_of_removes hhit ((h.removes_iff k).mpr hk)]
    exact ⟨rfl, fun k' => by simp⟩

/-- Remove the group and record the positions, if there are any. -/
def rewritten (p : Str) : List Str → Str → Str
  | [], t => t
  | q :: qs, t =>
    qs.foldl (fun t q => recordAt p q t)
      (recordAt p q (removeGroup t ((indexOf (docTag p) t).getD 0)))

/-- **The loop on tagged values, key by key.** -/
theorem rewrites_of_tagged {p k : Str} :
    ∀ (ks : List Str) (v : Loop) (G : Str → Option Str) (t : Str), Removing v →
      (∀ k' ∈ ks, Tagged p (G k')) → G k = some t →
      rewrites p ks v G k = some
        (if k ∈ v.refreshed then
          ((positions v.i k ks).map decimal).foldl (fun t q => recordAt p q t) t
        else rewritten p ((positions v.i k ks).map decimal) t)
  | [], v, G, t, _, _, ht => by
    rw [rewrites, ht]
    split <;> rfl
  | k' :: ks, v, G, t, hv, htag, ht => by
    obtain ⟨hrew, hfresh⟩ := hv.turn (htag k' (by simp))
    have htag' : ∀ k'' ∈ ks,
        Tagged p (Function.update G k' (some (newValue p k' v (G k')).1) k'') := by
      intro k'' hk''
      by_cases hkk : k'' = k'
      · rw [hkk, Function.update_self]
        exact tagged_newValue p k' v (G k')
      · rw [Function.update_of_ne hkk]
        exact htag k'' (by simp [hk''])
    rw [rewrites, positions]
    by_cases hkk : k' = k
    · -- a turn of this key
      subst hkk
      rw [if_pos rfl, List.map_cons,
        rewrites_of_tagged ks _ _ _ (Or.inl hrew) htag' (Function.update_self _ _ _),
        if_pos ((hfresh k').mpr (Or.inr rfl)), ht]
      obtain ⟨a, z, hval, hhit⟩ := (htag k' (by simp)).found
      obtain rfl : t = a ++ (docTag p ++ z) := Option.some.inj (ht.symm.trans hval)
      by_cases hmem : k' ∈ v.refreshed
      · rw [if_pos hmem, newValue_of_keeps (Or.inr (fun hrem => (hv.removes_iff k').mp hrem hmem))]
        rfl
      · rw [if_neg hmem, newValue_of_removes hhit ((hv.removes_iff k').mpr hmem), rewritten, hhit]
        rfl
    · -- another key's turn
      have hkeep : k ∈ (newValue p k' v (G k')).2.2 ↔ k ∈ v.refreshed := by
        rw [hfresh]
        exact or_iff_left (Ne.symm hkk)
      rw [if_neg hkk, rewrites_of_tagged ks _ _ t (Or.inl hrew) htag'
        (by rw [Function.update_of_ne (Ne.symm hkk)]; exact ht)]
      simp only [hkeep]

theorem d_not_mem_decimal (ns : List Nat) : ∀ q ∈ ns.map decimal, 'd' ∉ q := by
  intro q hq
  obtain ⟨n, -, rfl⟩ := List.mem_map.mp hq
  exact (isDigits_decimal n).not_mem (by decide)

/-- **When the loop writes back what it found**: the value of every key is the page's group with
    the key's positions and nothing else. -/
theorem rewrites_eq_iff (p : Str) (ks : List Str) (G : Str → Option Str) :
    (∀ k, rewrites p ks Loop.init G k = G k) ↔
      ∀ k ∈ ks, 'd' ∉ p ∧
        G k = some (docTag p ++ positionsText ((positions 0 k ks).map decimal)) := by
  have hinit : Removing Loop.init := Or.inr ⟨rfl, rfl⟩
  have hone : (∀ k ∈ ks, Tagged p (G k)) → ∀ k ∈ ks,
      (rewrites p ks Loop.init G k = G k ↔
        'd' ∉ p ∧ G k = some (docTag p ++ positionsText ((positions 0 k ks).map decimal))) := by
    intro htag k hk
    obtain ⟨a, z, hval, hhit⟩ := (htag k hk).found
    rw [rewrites_of_tagged ks Loop.init G _ hinit htag hval, if_neg (by simp [Loop.init]), hval]
    show some (rewritten p ((positions 0 k ks).map decimal) _) = _ ↔ _
    have hd := d_not_mem_decimal (positions 0 k ks)
    cases hpos : (positions 0 k ks).map decimal with
    | nil => exact absurd hk (positions_eq_nil.mp (List.map_eq_nil_iff.mp hpos))
    | cons q qs =>
      rw [hpos] at hd
      rw [rewritten, hhit, Option.some.injEq, Option.some.injEq]
      exact rewritten_iff hhit hd
  constructor
  · intro h
    have htag : ∀ k ∈ ks, Tagged p (G k) := by
      intro k hk
      rw [← h k]
      exact tagged_rewrites ks Loop.init G (Or.inl hk)
    exact fun k hk => (hone htag k hk).mp (h k)
  · intro h k
    have htag : ∀ k ∈ ks, Tagged p (G k) := by
      intro k hk
      exact ⟨_, (h k hk).2, (List.prefix_append _ _).isInfix⟩
    by_cases hk : k ∈ ks
    · exact (hone htag k hk).mpr (h k hk)
    · exact rewrites_of_not_mem Loop.init G hk

example : rewrites ['1'] [['7']] Loop.init (fun _ => some "doc1 1".toList) ['7']
    = some "doc1 1".toList := by decide

end SearchEngine
