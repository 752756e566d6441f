/-
  Records: fields joined by a separator that is set off by blanks.

  The separator is `" " + core + " "` with no blank inside `core`.  Its one overlap with itself
  is the blank, so a field can spoil a record in two ways only: by containing the separator, or
  by ENDING in `" " + core`, whose missing blank the next separator supplies.  Both are said at
  once by looking at the field with one blank behind it:

  * `head_fieldsOn_iff` — a field comes back whole iff the separator does not occur in it so
    extended;
  * `exists_joins`      — how any text in front of a separator splits, whatever comes behind: the
    number of pieces, and whether the rest starts cleanly or with a left-over `core + " "`.
-/
import SearchEngine.Lib.Text
import Mathlib.Tactic.Common

namespace SearchEngine.Records

open SearchEngine.Text

/-- A separator set off by blanks. -/
def blankSep (core : Str) : Str := ' ' :: (core ++ [' '])

theorem blankSep_ne_nil (core : Str) : blankSep core ≠ [] := by simp [blankSep]

/-! ## Pieces -/

/-- One piece means no separator. -/
theorem length_fieldsOn_eq_one_iff {sep : Str} (hsep : sep ≠ []) :
    ∀ z : Str, (fieldsOn sep 0 z).length = 1 ↔ ¬ sep <:+: z
  | [] => by simp [fieldsOn, hsep]
  | c :: z => by
    have ih := length_fieldsOn_eq_one_iff hsep z
    rw [fieldsOn, List.infix_cons_iff]
    by_cases hp : sep <+: c :: z
    · have hlen : (fieldsOn sep (sep.length - 1) z).length ≠ 0 :=
        fun h => fieldsOn_ne_nil sep z _ (List.length_eq_zero_iff.mp h)
      rw [if_pos (List.isPrefixOf_iff_prefix.mpr hp), List.length_cons]
      simp only [hp, true_or, not_true_eq_false, iff_false]
      omega
    · rw [if_neg (fun h => hp (List.isPrefixOf_iff_prefix.mp h)), List.length_modifyHead, ih]
      simp [hp]

theorem fieldsOn_cons_of_not {sep z : Str} {c : Char} (h : ¬ sep <+: c :: z) :
    fieldsOn sep 0 (c :: z) = (fieldsOn sep 0 z).modifyHead (c :: ·) := by
  rw [fieldsOn, if_neg (fun hp => h (List.isPrefixOf_iff_prefix.mp hp))]

/-- Trailing empty pieces are dropped, so a piece of the split is a piece. -/
theorem getElem?_of_trimPieces {fs : List Str} {i : Nat} {f : Str}
    (h : (trimPieces fs)[i]? = some f) : fs[i]? = some f := by
  have hpre : trimPieces fs <+: fs := by
    unfold trimPieces
    split
    · exact List.prefix_rfl
    · exact List.rdropWhile_prefix _ _
  obtain ⟨rest, hrest⟩ := hpre
  have hlt := (List.getElem?_eq_some_iff.mp h).1
  rw [← hrest, List.getElem?_append_left hlt]
  exact h

/-- Up to a piece that is not empty, everything stays. -/
theorem trimPieces_keeps (pre : List Str) {x : Str} (hx : x ≠ []) (rest : List Str)
    (hlen : 2 ≤ (pre ++ x :: rest).length) :
    ∃ rest', trimPieces (pre ++ x :: rest) = pre ++ x :: rest' := by
  rw [trimPieces_of_two_le hlen]
  clear hlen
  induction rest using List.reverseRecOn with
  | nil => exact ⟨[], rdropWhile_isEmpty_concat hx⟩
  | append_singleton rest y ih =>
    have hassoc : pre ++ x :: (rest ++ [y]) = (pre ++ x :: rest) ++ [y] := by simp
    rw [hassoc]
    cases y with
    | nil =>
      rw [List.rdropWhile_concat_pos _ _ _ (by rfl)]
      exact ih
    | cons c y =>
      rw [rdropWhile_isEmpty_concat (by simp)]
      exact ⟨rest ++ [c :: y], by simp⟩

/-- A piece that is not empty keeps its place. -/
theorem getElem?_trimPieces {fs : List Str} {i : Nat} {x : Str} (hlen : 2 ≤ fs.length)
    (hx : x ≠ []) (h : fs[i]? = some x) : (trimPieces fs)[i]? = some x := by
  obtain ⟨hlt, hget⟩ := List.getElem?_eq_some_iff.mp h
  have hsplit : fs = fs.take i ++ x :: fs.drop (i + 1) := by
    rw [← hget, ← List.drop_eq_getElem_cons hlt, List.take_append_drop]
  obtain ⟨rest, hrest⟩ := trimPieces_keeps (fs.take i) hx (fs.drop (i + 1))
    (by rw [← hsplit]; exact hlen)
  have htake : (fs.take i).length = i := by
    rw [List.length_take]
    omega
  rw [← hsplit] at hrest
  rw [hrest, List.getElem?_append_right (by omega), htake, Nat.sub_self]
  rfl

/-! ## A text in front of a separator -/

variable {core : Str}

/-- Behind a text that goes on with a blank, no more than that blank can belong to a separator
    that starts inside the text. -/
theorem blankSep_prefix_iff (hcore : ' ' ∉ core) {x : Str} (hx : x ≠ []) (z : Str) :
    blankSep core <+: x ++ ' ' :: z ↔ blankSep core <+: x ++ [' '] := by
  constructor
  · intro h
    have hx' : x ++ [' '] <+: x ++ ' ' :: z := ⟨z, by simp⟩
    rcases List.prefix_or_prefix_of_prefix h hx' with h' | h'
    · exact h'
    · -- a separator longer than that would have a blank inside
      obtain ⟨c, x', rfl⟩ := List.exists_cons_of_ne_nil hx
      obtain ⟨r, hr⟩ := h'
      rw [blankSep, List.cons_append, List.cons_append] at hr
      obtain ⟨-, hr⟩ := List.cons.inj hr
      cases hrev : r using List.reverseRecOn with
      | nil =>
        refine ⟨[], ?_⟩
        rw [hrev, List.append_nil] at hr
        rw [List.append_nil, blankSep, List.cons_append, ← hr]
        rw [blankSep] at h
        have hc := (List.cons_prefix_cons.mp h).1
        rw [hc]
      | append_singleton r b =>
        rw [hrev, ← List.append_assoc] at hr
        obtain ⟨hcore', -⟩ := List.append_inj' hr rfl
        exact absurd (by rw [← hcore']; simp) hcore
  · rintro ⟨r, hr⟩
    exact ⟨r ++ z, by rw [← List.append_assoc, hr]; simp⟩

/-- **A field comes back whole** iff the separator does not occur in it, with one blank behind. -/
theorem head_fieldsOn_iff (hcore : ' ' ∉ core) (y : Str) :
    ∀ x : Str, (fieldsOn (blankSep core) 0 (x ++ (blankSep core ++ y))).head? = some x ↔
      ¬ blankSep core <:+: x ++ [' ']
  | [] => by
    have hlen : ¬ blankSep core <:+: [' '] := by
      intro h
      have hle := h.length_le
      simp [blankSep] at hle
    rw [List.nil_append, fieldsOn_sep (blankSep_ne_nil core)]
    simp [hlen]
  | c :: x => by
    have ih := head_fieldsOn_iff hcore y x
    have hiff : blankSep core <+: c :: (x ++ (blankSep core ++ y)) ↔
        blankSep core <+: c :: (x ++ [' ']) :=
      blankSep_prefix_iff hcore (x := c :: x) (by simp) (core ++ [' '] ++ y)
    rw [List.cons_append, List.cons_append, List.infix_cons_iff, ← hiff]
    by_cases hp : blankSep core <+: c :: (x ++ (blankSep core ++ y))
    · rw [fieldsOn, if_pos (List.isPrefixOf_iff_prefix.mpr hp)]
      simp [hp]
    · rw [fieldsOn_cons_of_not hp]
      simp only [hp, false_or, ← ih]
      cases hfs : fieldsOn (blankSep core) 0 (x ++ (blankSep core ++ y)) with
      | nil => exact absurd hfs (fieldsOn_ne_nil _ _ _)
      | cons f fs => simp

/-- A field without the separator is peeled off. -/
theorem fieldsOn_field (hcore : ' ' ∉ core) {x : Str} (h : ¬ blankSep core <:+: x ++ [' '])
    (y : Str) :
    fieldsOn (blankSep core) 0 (x ++ (blankSep core ++ y)) = x :: fieldsOn (blankSep core) 0 y := by
  refine fieldsOn_append_sep (blankSep_ne_nil core) (fun u v hx hv hp => h ?_)
  have hp' := (blankSep_prefix_iff hcore hv (core ++ [' '] ++ y)).mp hp
  rw [hx, List.append_assoc]
  exact hp'.isInfix.trans (List.suffix_append u _).isInfix

/-- How the text `x` splits in front of a separator, whatever comes behind: into the pieces `A`,
    as many as it has by itself, and the rest starts with `t` — nothing, or what is left of the
    separator when the text has used up its first blank. -/
structure Joins (core x : Str) (A : List Str) (t : Str) : Prop where
  pieces : A.length = (fieldsOn (blankSep core) 0 x).length
  rest : (t = [] ∧ (fieldsOn (blankSep core) 0 (x ++ [' '])).length = A.length) ∨
    (t = core ++ [' '] ∧ (fieldsOn (blankSep core) 0 (x ++ [' '])).length = A.length + 1)
  join : ∀ y, fieldsOn (blankSep core) 0 (x ++ (blankSep core ++ y))
    = A ++ fieldsOn (blankSep core) 0 (t ++ y)

theorem length_fieldsOn_of_short {x : Str} (h : x.length < (blankSep core).length) :
    (fieldsOn (blankSep core) 0 x).length = 1 := by
  rw [length_fieldsOn_eq_one_iff (blankSep_ne_nil core)]
  intro hin
  have hle := hin.length_le
  omega

theorem joins_nil (core : Str) : Joins core [] [[]] [] where
  pieces := rfl
  rest := Or.inl ⟨rfl, length_fieldsOn_of_short (by simp [blankSep])⟩
  join y := fieldsOn_sep (blankSep_ne_nil core) y

/-- A whole separator in front of the text makes one more piece. -/
theorem Joins.sep {r : Str} {A : List Str} {t : Str} (h : Joins core r A t) :
    Joins core (blankSep core ++ r) ([] :: A) t where
  pieces := by
    rw [fieldsOn_sep (blankSep_ne_nil core), List.length_cons, List.length_cons, h.pieces]
  rest := by
    rw [List.append_assoc, fieldsOn_sep (blankSep_ne_nil core), List.length_cons, List.length_cons]
    rcases h.rest with ⟨ht, hcount⟩ | ⟨ht, hcount⟩
    · exact Or.inl ⟨ht, by rw [hcount]⟩
    · exact Or.inr ⟨ht, by rw [hcount]⟩
  join y := by
    rw [List.append_assoc, fieldsOn_sep (blankSep_ne_nil core), h.join y, List.cons_append]

/-- The separator less its last blank borrows the blank of the next one. -/
theorem joins_cut (core : Str) : Joins core (' ' :: core) [[]] (core ++ [' ']) where
  pieces := (length_fieldsOn_of_short (by simp [blankSep])).symm
  rest := by
    refine Or.inr ⟨rfl, ?_⟩
    have htwo := fieldsOn_sep (blankSep_ne_nil core) []
    rw [List.append_nil] at htwo
    show (fieldsOn (blankSep core) 0 (blankSep core)).length = _
    rw [htwo]
    rfl
  join y := by
    have htext : (' ' :: core) ++ (blankSep core ++ y) = blankSep core ++ (core ++ [' '] ++ y) := by
      simp [blankSep]
    rw [htext, fieldsOn_sep (blankSep_ne_nil core)]
    rfl

/-- A character where no separator starts goes to the first piece. -/
theorem Joins.cons (hcore : ' ' ∉ core) {x : Str} {A : List Str} {t : Str} {c : Char}
    (h : Joins core x A t) (hfull : ¬ blankSep core <+: c :: x)
    (hblank : ¬ blankSep core <+: c :: (x ++ [' '])) :
    Joins core (c :: x) (A.modifyHead (c :: ·)) t where
  pieces := by
    rw [fieldsOn_cons_of_not hfull, List.length_modifyHead, List.length_modifyHead, h.pieces]
  rest := by
    rw [List.cons_append, fieldsOn_cons_of_not hblank, List.length_modifyHead,
      List.length_modifyHead]
    exact h.rest
  join y := by
    have hno : ¬ blankSep core <+: c :: (x ++ (blankSep core ++ y)) := fun hp =>
      hblank ((blankSep_prefix_iff hcore (x := c :: x) (by simp) (core ++ [' '] ++ y)).mp hp)
    rw [List.cons_append, fieldsOn_cons_of_not hno, h.join y]
    cases A with
    | nil =>
      have hnil := fieldsOn_ne_nil (blankSep core) x 0
      exact absurd (List.length_eq_zero_iff.mp h.pieces.symm) hnil
    | cons a A => rfl

/-- **Every text joins in one of these ways.** -/
theorem exists_joins (hcore : ' ' ∉ core) (x : Str) : ∃ A t, Joins core x A t := by
  induction hn : x.length using Nat.strong_induction_on generalizing x with
  | _ n ih =>
    match x, hn with
    | [], _ => exact ⟨_, _, joins_nil core⟩
    | c :: x, hn =>
      have hlen : x.length + 1 = n := hn
      by_cases hfull : blankSep core <+: c :: x
      · obtain ⟨r, hr⟩ := hfull
        have hshort : r.length < n := by
          have hcount := congrArg List.length hr
          rw [List.length_append, List.length_cons] at hcount
          have hpos : 0 < (blankSep core).length := List.length_pos_iff.mpr (blankSep_ne_nil core)
          omega
        obtain ⟨A, t, h⟩ := ih r.length hshort r rfl
        rw [← hr]
        exact ⟨_, _, h.sep⟩
      · by_cases hblank : blankSep core <+: c :: (x ++ [' '])
        · have hall : (' ' :: core) ++ [' '] = (c :: x) ++ [' '] := by
            have hconcat : blankSep core <+: (c :: x) ++ [' '] := hblank
            rcases List.prefix_concat_iff.mp hconcat with h | h
            · exact h
            · exact absurd h hfull
          rw [← (List.append_inj' hall rfl).1]
          exact ⟨_, _, joins_cut core⟩
        · obtain ⟨A, t, h⟩ := ih x.length (by omega) x rfl
          exact ⟨_, _, h.cons hcore hfull hblank⟩

end SearchEngine.Records
