/-
  Posting lists addressed by prefix: grouped postings whose groups are found by the first name
  that EXTENDS the one searched for.

  A posting list is a list of groups, each a document name with its positions.  Searching for
  the name `p` stops at the first group whose name has `p` as a prefix (`hit`), be it `p` itself
  or a longer name.  Two operations act on that group:

  * `remove p`  drops it;
  * `add p q`   records position `q`: the group found is taken over under the name `p`, the rest
                of its name glued to `q`; with no group found, a new one is appended.

  `refresh c p done qs` is a whole re-recording of the positions `qs`: before the first of them
  that finds a hit, the hit is removed — if `c` says so and unless that was `done` before.

  * `Ordered` — an earlier name never extends a later one.  This is the invariant that makes the
    names distinct AND puts a name in front of its extensions; all operations keep it.
  * `refresh_keeps_iff` — exactly when every other document keeps its postings.
  * `refresh_exact_iff` — exactly when `p` ends up with the positions `qs`.
  * `flatMap_poss_refresh` — the positions that `p` ends up with, where no other name opens with it.
-/
import Mathlib.Data.List.Basic
import Mathlib.Data.List.Perm.Basic
import Mathlib.Tactic.Common

namespace SearchEngine.Postings

variable {α : Type} [DecidableEq α]

/-- A document's group: its name and its positions, the latest first. -/
structure DocGroup (α : Type) where
  doc : List α
  poss : List (List α)
  deriving DecidableEq

/-- The search for `p` stops here. -/
def hit (p : List α) (g : DocGroup α) : Bool := p.isPrefixOf g.doc

theorem hit_iff {p : List α} {g : DocGroup α} : hit p g = true ↔ p <+: g.doc :=
  List.isPrefixOf_iff_prefix

theorem not_prefix_of_hit_false {p : List α} {g : DocGroup α} (h : hit p g = false) :
    ¬ p <+: g.doc := by
  intro hp
  rw [hit_iff.mpr hp] at h
  exact Bool.noConfusion h

/-- A group that bears the name `p` is found. -/
theorem hit_own {p : List α} {g : DocGroup α} (h : g.doc = p) : hit p g = true :=
  hit_iff.mpr (by subst h; exact List.prefix_rfl)

/-- Drop the first group found. -/
def remove (p : List α) (gs : List (DocGroup α)) : List (DocGroup α) := gs.eraseP (hit p)

/-- Record a position in the first group found, or in a new group. -/
def add (p q : List α) : List (DocGroup α) → List (DocGroup α)
  | [] => [⟨p, [q]⟩]
  | g :: gs =>
    if hit p g then ⟨p, (q ++ g.doc.drop p.length) :: g.poss⟩ :: gs else g :: add p q gs

/-- Re-record the positions `qs`. -/
def refresh (c : Bool) (p : List α) : Bool → List (List α) → List (DocGroup α) → List (DocGroup α)
  | _, [], gs => gs
  | done, q :: qs, gs =>
    if c && !done && gs.any (hit p) then refresh c p true qs (add p q (remove p gs))
    else refresh c p done qs (add p q gs)

/-- How many groups a search for `p` could stop at. -/
def hits (p : List α) (gs : List (DocGroup α)) : Nat := gs.countP (hit p)

/-- The groups of the document `d`. -/
def groupsOf (d : List α) (gs : List (DocGroup α)) : List (DocGroup α) :=
  gs.filter (fun g => g.doc = d)

/-- Every group has a position. -/
def Filled (gs : List (DocGroup α)) : Prop := ∀ g ∈ gs, g.poss ≠ []

/-- An earlier name never extends a later one. -/
def Ordered (gs : List (DocGroup α)) : Prop := gs.Pairwise (fun g h => ¬ h.doc <+: g.doc)

/-! ## The first hit -/

/-- Either nothing is found, or the list splits at the first hit. -/
theorem first_hit (p : List α) (gs : List (DocGroup α)) :
    (∀ g ∈ gs, hit p g = false) ∨
    ∃ pre g post, gs = pre ++ g :: post ∧ (∀ h ∈ pre, hit p h = false) ∧ hit p g = true := by
  induction gs with
  | nil => exact Or.inl (fun g hg => absurd hg (by simp))
  | cons g gs ih =>
    by_cases hg : hit p g = true
    · exact Or.inr ⟨[], g, gs, rfl, fun h hh => absurd hh (by simp), hg⟩
    · have hg' : hit p g = false := by simpa using hg
      rcases ih with hno | ⟨pre, g', post, rfl, hpre, hg''⟩
      · refine Or.inl (fun h hh => ?_)
        rcases List.mem_cons.mp hh with rfl | hh
        · exact hg'
        · exact hno h hh
      · refine Or.inr ⟨g :: pre, g', post, rfl, fun h hh => ?_, hg''⟩
        rcases List.mem_cons.mp hh with rfl | hh
        · exact hg'
        · exact hpre h hh

/-- A list with a hit in it splits at the first one. -/
theorem split_of_mem {p : List α} {gs : List (DocGroup α)} {k : DocGroup α} (hk : k ∈ gs)
    (hit_k : hit p k = true) :
    ∃ pre g post, gs = pre ++ g :: post ∧ (∀ h ∈ pre, hit p h = false) ∧ hit p g = true := by
  rcases first_hit p gs with hno | hsplit
  · rw [hno k hk] at hit_k
    exact Bool.noConfusion hit_k
  · exact hsplit

theorem no_hit_append {p : List α} {gs hs : List (DocGroup α)} (hgs : ∀ g ∈ gs, hit p g = false)
    (hhs : ∀ g ∈ hs, hit p g = false) : ∀ g ∈ gs ++ hs, hit p g = false := by
  intro g hg
  rcases List.mem_append.mp hg with hg | hg
  · exact hgs g hg
  · exact hhs g hg

theorem any_hit_of_none {p : List α} {gs : List (DocGroup α)} (h : ∀ g ∈ gs, hit p g = false) :
    gs.any (hit p) = false :=
  List.any_eq_false.mpr (fun g hg => by rw [h g hg]; exact Bool.false_ne_true)

theorem any_hit_of_split {p : List α} {pre post : List (DocGroup α)} {g : DocGroup α}
    (hg : hit p g = true) : (pre ++ g :: post).any (hit p) = true :=
  List.any_eq_true.mpr ⟨g, by simp, hg⟩

theorem hits_eq_zero {p : List α} {gs : List (DocGroup α)} :
    hits p gs = 0 ↔ ∀ g ∈ gs, hit p g = false := by
  rw [hits, List.countP_eq_zero]
  simp

theorem hits_split {p : List α} {pre : List (DocGroup α)} {g : DocGroup α}
    (hpre : ∀ h ∈ pre, hit p h = false) (hg : hit p g = true) (post : List (DocGroup α)) :
    hits p (pre ++ g :: post) = hits p post + 1 := by
  have h0 : pre.countP (hit p) = 0 := hits_eq_zero.mpr hpre
  rw [hits, List.countP_append, h0, List.countP_cons_of_pos hg, Nat.zero_add, hits]

theorem add_of_none {p : List α} (q : List α) :
    ∀ {gs : List (DocGroup α)}, (∀ g ∈ gs, hit p g = false) → add p q gs = gs ++ [⟨p, [q]⟩]
  | [], _ => rfl
  | g :: gs, h => by
    have hg : ¬ hit p g = true := by rw [h g List.mem_cons_self]; exact Bool.false_ne_true
    rw [add, if_neg hg, add_of_none q (fun x hx => h x (List.mem_cons_of_mem g hx))]
    rfl

theorem add_of_split {p : List α} (q : List α) :
    ∀ {pre post : List (DocGroup α)} {g : DocGroup α}, (∀ h ∈ pre, hit p h = false) →
      hit p g = true →
      add p q (pre ++ g :: post)
        = pre ++ ⟨p, (q ++ g.doc.drop p.length) :: g.poss⟩ :: post
  | [], post, g, _, hg => by rw [List.nil_append, List.nil_append, add, if_pos hg]
  | h :: pre, post, g, hpre, hg => by
    have hh : ¬ hit p h = true := by rw [hpre h List.mem_cons_self]; exact Bool.false_ne_true
    rw [List.cons_append, List.cons_append, add, if_neg hh,
      add_of_split q (fun x hx => hpre x (List.mem_cons_of_mem h hx)) hg]

theorem remove_of_none {p : List α} {gs : List (DocGroup α)} (h : ∀ g ∈ gs, hit p g = false) :
    remove p gs = gs :=
  List.eraseP_of_forall_not (fun g hg => by rw [h g hg]; exact Bool.false_ne_true)

theorem remove_of_split {p : List α} {pre post : List (DocGroup α)} {g : DocGroup α}
    (hpre : ∀ h ∈ pre, hit p h = false) (hg : hit p g = true) :
    remove p (pre ++ g :: post) = pre ++ post := by
  have hpre' : ∀ h ∈ pre, ¬ hit p h = true := fun h hh => by
    rw [hpre h hh]; exact Bool.false_ne_true
  rw [remove, List.eraseP_append_right _ hpre', List.eraseP_cons_of_pos hg]

/-! ## The order of the names is an invariant -/

theorem Ordered.remove {p : List α} {gs : List (DocGroup α)} (h : Ordered gs) :
    Ordered (remove p gs) :=
  List.Pairwise.sublist List.eraseP_sublist h

theorem Ordered.add {p q : List α} {gs : List (DocGroup α)} (h : Ordered gs) :
    Ordered (add p q gs) := by
  rcases first_hit p gs with hno | ⟨pre, g, post, rfl, hpre, hg⟩
  · -- a new group: no name before it extends `p`
    rw [add_of_none q hno]
    refine List.pairwise_append.mpr ⟨h, List.pairwise_singleton _ _, fun x hx y hy => ?_⟩
    obtain rfl := List.mem_singleton.mp hy
    exact not_prefix_of_hit_false (hno x hx)
  · -- a group taken over: `p` is shorter than the name it replaces
    rw [add_of_split q hpre hg]
    obtain ⟨h1, h2, h3⟩ := List.pairwise_append.mp h
    obtain ⟨h4, h5⟩ := List.pairwise_cons.mp h2
    refine List.pairwise_append.mpr ⟨h1, List.pairwise_cons.mpr ⟨fun y hy hyp => ?_, h5⟩, ?_⟩
    · exact h4 y hy (hyp.trans (hit_iff.mp hg))
    · intro x hx y hy
      rcases List.mem_cons.mp hy with rfl | hy
      · exact not_prefix_of_hit_false (hpre x hx)
      · exact h3 x hx y (List.mem_cons_of_mem g hy)

omit [DecidableEq α] in
/-- Distinct groups have distinct names. -/
theorem Ordered.nodup {gs : List (DocGroup α)} (h : Ordered gs) : (gs.map DocGroup.doc).Nodup := by
  refine List.pairwise_map.mpr (h.imp (fun {g k} hgk heq => ?_))
  exact hgk (heq ▸ List.prefix_rfl)

/-- Behind a group that bears the name `p`, and only there, can be extensions of `p`. -/
theorem Ordered.own_first {p : List α} {pre post : List (DocGroup α)} {g : DocGroup α}
    (h : Ordered (pre ++ g :: post)) (hg : hit p g = true)
    (hown : ∃ k ∈ pre ++ g :: post, k.doc = p) (hpre : ∀ k ∈ pre, hit p k = false) :
    g.doc = p := by
  obtain ⟨k, hk, hkp⟩ := hown
  rcases List.mem_append.mp hk with hk | hk
  · exact absurd (hit_iff.mp (hit_own hkp)) (not_prefix_of_hit_false (hpre k hk))
  · rcases List.mem_cons.mp hk with rfl | hk
    · exact hkp
    · have hgk := (List.pairwise_cons.mp (List.pairwise_append.mp h).2.1).1 k hk
      rw [hkp] at hgk
      exact absurd (hit_iff.mp hg) hgk

/-- The names after recording: `p`, and names that were there. -/
theorem doc_of_mem_add {p q : List α} {gs : List (DocGroup α)} {k : DocGroup α}
    (hk : k ∈ add p q gs) : k.doc = p ∨ ∃ g ∈ gs, g.doc = k.doc := by
  rcases first_hit p gs with hno | ⟨pre, g, post, rfl, hpre, hg⟩
  · rw [add_of_none q hno] at hk
    rcases List.mem_append.mp hk with hk | hk
    · exact Or.inr ⟨k, hk, rfl⟩
    · obtain rfl := List.mem_singleton.mp hk
      exact Or.inl rfl
  · rw [add_of_split q hpre hg] at hk
    rcases List.mem_append.mp hk with hk | hk
    · exact Or.inr ⟨k, List.mem_append_left _ hk, rfl⟩
    · rcases List.mem_cons.mp hk with rfl | hk
      · exact Or.inl rfl
      · exact Or.inr ⟨k, List.mem_append_right _ (List.mem_cons_of_mem g hk), rfl⟩

/-! ## What a re-recording comes to -/

/-- Record positions one after the other. -/
def adds (p : List α) (qs : List (List α)) (gs : List (DocGroup α)) : List (DocGroup α) :=
  qs.foldl (fun gs q => add p q gs) gs

/-- Once nothing is to be removed any more, re-recording is recording. -/
theorem refresh_eq_adds {c d : Bool} (p : List α) (h : c = false ∨ d = true) :
    ∀ (qs : List (List α)) (gs : List (DocGroup α)), refresh c p d qs gs = adds p qs gs
  | [], gs => rfl
  | q :: qs, gs => by
    have hcond : ¬ (c && !d && gs.any (hit p)) = true := by
      rcases h with rfl | rfl <;> simp
    rw [refresh, if_neg hcond]
    exact refresh_eq_adds p h qs (add p q gs)

/-- Recording into a group that already bears the name. -/
theorem adds_own (p : List α) {pre : List (DocGroup α)} (hpre : ∀ h ∈ pre, hit p h = false)
    (post : List (DocGroup α)) :
    ∀ (qs ps : List (List α)),
      adds p qs (pre ++ ⟨p, ps⟩ :: post) = pre ++ ⟨p, qs.reverse ++ ps⟩ :: post
  | [], ps => rfl
  | q :: qs, ps => by
    show adds p qs (add p q (pre ++ ⟨p, ps⟩ :: post)) = _
    rw [add_of_split q hpre (hit_own rfl)]
    simp only [List.drop_length, List.append_nil]
    rw [adds_own p hpre post qs (q :: ps), List.reverse_cons, List.append_assoc]
    rfl

/-- With no group found, recording makes one group of all positions. -/
theorem adds_of_none {p : List α} {gs : List (DocGroup α)} (h : ∀ g ∈ gs, hit p g = false)
    (q : List α) (qs : List (List α)) :
    adds p (q :: qs) gs = gs ++ [⟨p, (q :: qs).reverse⟩] := by
  show adds p qs (add p q gs) = _
  rw [add_of_none q h, adds_own p h [] qs [q], List.reverse_cons]

/-- With a group found, recording takes that group over. -/
theorem adds_of_split {p : List α} {pre post : List (DocGroup α)} {g : DocGroup α}
    (hpre : ∀ h ∈ pre, hit p h = false) (hg : hit p g = true) (q : List α)
    (qs : List (List α)) :
    adds p (q :: qs) (pre ++ g :: post)
      = pre ++ ⟨p, qs.reverse ++ (q ++ g.doc.drop p.length) :: g.poss⟩ :: post := by
  show adds p qs (add p q (pre ++ g :: post)) = _
  rw [add_of_split q hpre hg, adds_own p hpre post qs]

/-- Removing: a hit is dropped before the first position is recorded. -/
theorem refresh_of_hit {p : List α} {gs : List (DocGroup α)} (h : gs.any (hit p) = true)
    (q : List α) (qs : List (List α)) :
    refresh true p false (q :: qs) gs = adds p (q :: qs) (remove p gs) := by
  rw [refresh, if_pos (by simpa using h)]
  exact refresh_eq_adds p (Or.inr rfl) qs _

/-- Removing without a hit: the first position makes a group, and the second finds it there,
    takes it for a left-over and drops it. -/
theorem refresh_of_none {p : List α} {gs : List (DocGroup α)} (h : ∀ g ∈ gs, hit p g = false)
    (q : List α) : ∀ qs : List (List α),
      refresh true p false (q :: qs) gs
        = gs ++ [⟨p, (if qs = [] then [q] else qs.reverse)⟩]
  | [] => by
    rw [refresh, if_neg (by simp [any_hit_of_none h]), add_of_none q h]
    rfl
  | q' :: qs => by
    have hown : hit p (⟨p, [q]⟩ : DocGroup α) = true := hit_own rfl
    rw [refresh, if_neg (by simp [any_hit_of_none h]), add_of_none q h,
      refresh_of_hit (any_hit_of_split hown), remove_of_split h hown, List.append_nil,
      adds_of_none h, if_neg (by simp)]

/-! ## Other documents -/

theorem groupsOf_append (d : List α) (gs hs : List (DocGroup α)) :
    groupsOf d (gs ++ hs) = groupsOf d gs ++ groupsOf d hs :=
  List.filter_append _ _

theorem groupsOf_cons_ne {d : List α} {g : DocGroup α} (h : g.doc ≠ d) (gs : List (DocGroup α)) :
    groupsOf d (g :: gs) = groupsOf d gs :=
  List.filter_cons_of_neg (by simpa using h)

theorem groupsOf_cons_eq {d : List α} {g : DocGroup α} (h : g.doc = d) (gs : List (DocGroup α)) :
    groupsOf d (g :: gs) = g :: groupsOf d gs :=
  List.filter_cons_of_pos (by simpa using h)

/-- A document that `p` does not open is out of reach of `add` ... -/
theorem groupsOf_add {p q d : List α} (hd : ¬ p <+: d) (gs : List (DocGroup α)) :
    groupsOf d (add p q gs) = groupsOf d gs := by
  have hpd : p ≠ d := fun h => hd (by subst h; exact List.prefix_rfl)
  rcases first_hit p gs with hno | ⟨pre, g, post, rfl, hpre, hg⟩
  · rw [add_of_none q hno, groupsOf_append, groupsOf_cons_ne hpd]
    exact List.append_nil _
  · have hgd : g.doc ≠ d := fun h => hd (by rw [← h]; exact hit_iff.mp hg)
    rw [add_of_split q hpre hg, groupsOf_append, groupsOf_append, groupsOf_cons_ne hpd,
      groupsOf_cons_ne hgd]

/-- ... and of `remove` ... -/
theorem groupsOf_remove {p d : List α} (hd : ¬ p <+: d) (gs : List (DocGroup α)) :
    groupsOf d (remove p gs) = groupsOf d gs := by
  rcases first_hit p gs with hno | ⟨pre, g, post, rfl, hpre, hg⟩
  · rw [remove_of_none hno]
  · have hgd : g.doc ≠ d := fun h => hd (by rw [← h]; exact hit_iff.mp hg)
    rw [remove_of_split hpre hg, groupsOf_append, groupsOf_append, groupsOf_cons_ne hgd]

/-- ... hence of a whole re-recording. -/
theorem groupsOf_refresh {p d : List α} (c : Bool) (hd : ¬ p <+: d) :
    ∀ (qs : List (List α)) (done : Bool) (gs : List (DocGroup α)),
      groupsOf d (refresh c p done qs gs) = groupsOf d gs
  | [], _, _ => rfl
  | q :: qs, done, gs => by
    rw [refresh]
    split
    · rw [groupsOf_refresh c hd qs, groupsOf_add hd, groupsOf_remove hd]
    · rw [groupsOf_refresh c hd qs, groupsOf_add hd]

theorem length_groupsOf_add {p q d : List α} (hd : d ≠ p) (gs : List (DocGroup α)) :
    (groupsOf d (add p q gs)).length ≤ (groupsOf d gs).length := by
  rcases first_hit p gs with hno | ⟨pre, g, post, rfl, hpre, hg⟩
  · rw [add_of_none q hno, groupsOf_append, groupsOf_cons_ne (Ne.symm hd)]
    exact Nat.le_of_eq (congrArg List.length (List.append_nil (groupsOf d gs)))
  · rw [add_of_split q hpre hg, groupsOf_append, groupsOf_append, groupsOf_cons_ne (Ne.symm hd),
      List.length_append, List.length_append]
    have hle : (groupsOf d post).length ≤ (groupsOf d (g :: post)).length :=
      ((List.sublist_cons_self g post).filter _).length_le
    omega

/-- **No re-recording of `p` gives another document a group.** -/
theorem length_groupsOf_refresh {p d : List α} (c : Bool) (hd : d ≠ p) :
    ∀ (qs : List (List α)) (done : Bool) (gs : List (DocGroup α)),
      (groupsOf d (refresh c p done qs gs)).length ≤ (groupsOf d gs).length
  | [], _, _ => Nat.le_refl _
  | q :: qs, done, gs => by
    rw [refresh]
    split
    · calc (groupsOf d (refresh c p true qs (add p q (remove p gs)))).length
          ≤ (groupsOf d (add p q (remove p gs))).length := length_groupsOf_refresh c hd qs true _
        _ ≤ (groupsOf d (remove p gs)).length := length_groupsOf_add hd _
        _ ≤ (groupsOf d gs).length := (List.eraseP_sublist.filter _).length_le
    · exact Nat.le_trans (length_groupsOf_refresh c hd qs done _) (length_groupsOf_add hd gs)

theorem length_groupsOf_adds {p d : List α} (hd : d ≠ p) (qs : List (List α))
    (gs : List (DocGroup α)) :
    (groupsOf d (adds p qs gs)).length ≤ (groupsOf d gs).length := by
  rw [← refresh_eq_adds (c := false) (d := false) p (Or.inl rfl)]
  exact length_groupsOf_refresh false hd qs false gs

/-- The first hit loses its group when it is taken over under the name `p`. -/
theorem length_groupsOf_takeover {p : List α} {pre : List (DocGroup α)} {g : DocGroup α}
    (hpre : ∀ h ∈ pre, hit p h = false) (hg : hit p g = true) (hgp : g.doc ≠ p)
    (post : List (DocGroup α)) (q : List α) (qs : List (List α)) :
    (groupsOf g.doc (adds p (q :: qs) (pre ++ g :: post))).length
      < (groupsOf g.doc (pre ++ g :: post)).length := by
  rw [adds_of_split hpre hg, groupsOf_append, groupsOf_append, groupsOf_cons_ne (Ne.symm hgp),
    groupsOf_cons_eq rfl, List.length_append, List.length_append, List.length_cons]
  omega

/-- Where no longer name opens with `p`, every other document keeps its groups. -/
theorem refresh_keeps_of_alone {p : List α} {gs : List (DocGroup α)}
    (halone : ∀ g ∈ gs, p <+: g.doc → g.doc = p) (c : Bool) (qs : List (List α)) {d : List α}
    (hd : d ≠ p) : groupsOf d (refresh c p false qs gs) = groupsOf d gs := by
  by_cases hpd : p <+: d
  · -- an extension of `p` has no group before, hence none after
    have hnil : groupsOf d gs = [] := by
      refine List.filter_eq_nil_iff.mpr (fun g hg hgd => ?_)
      have hgd' : g.doc = d := by simpa using hgd
      exact hd (hgd'.symm.trans (halone g hg (by rw [hgd']; exact hpd)))
    have hle := length_groupsOf_refresh c hd qs false gs
    rw [hnil] at hle
    rw [hnil]
    exact List.length_eq_zero_iff.mp (Nat.le_zero.mp hle)
  · exact groupsOf_refresh c hpd _ _ _

/-- Where `p` has a group of its own, recording finds that one. -/
theorem adds_keeps_of_own {p : List α} {gs : List (DocGroup α)} (hord : Ordered gs)
    (hown : ∃ g ∈ gs, g.doc = p) (q : List α) (qs : List (List α)) {d : List α} (hd : d ≠ p) :
    groupsOf d (adds p (q :: qs) gs) = groupsOf d gs := by
  rcases first_hit p gs with hno | ⟨pre, g, post, rfl, hpre, hg⟩
  · obtain ⟨k, hk, hkp⟩ := hown
    exact absurd (hit_iff.mp (hit_own hkp)) (not_prefix_of_hit_false (hno k hk))
  · have hgp : g.doc = p := hord.own_first hg hown hpre
    rw [adds_of_split hpre hg, groupsOf_append, groupsOf_append, groupsOf_cons_ne (Ne.symm hd),
      groupsOf_cons_ne (fun h => hd (h.symm.trans hgp))]

/-- Removing loses a document as soon as a longer name opens with `p`. -/
theorem remove_adds_loses {p : List α} {gs : List (DocGroup α)} (hord : Ordered gs)
    {k : DocGroup α} (hk : k ∈ gs) (hkp : p <+: k.doc) (hkne : k.doc ≠ p) (q : List α)
    (qs : List (List α)) :
    ∃ d, d ≠ p ∧ groupsOf d (adds p (q :: qs) (remove p gs)) ≠ groupsOf d gs := by
  obtain ⟨pre, g, post, rfl, hpre, hg⟩ := split_of_mem hk (hit_iff.mpr hkp)
  rw [remove_of_split hpre hg]
  by_cases hgp : g.doc = p
  · -- `p` itself is removed, and the extension behind it taken over
    have hkpost : k ∈ post := by
      rcases List.mem_append.mp hk with hk | hk
      · exact absurd hkp (not_prefix_of_hit_false (hpre k hk))
      · rcases List.mem_cons.mp hk with rfl | hk
        · exact absurd hgp hkne
        · exact hk
    obtain ⟨pre', g', post', rfl, hpre', hg'⟩ := split_of_mem hkpost (hit_iff.mpr hkp)
    have hgp' : g'.doc ≠ p := by
      intro he
      have hgg := (List.pairwise_cons.mp (List.pairwise_append.mp hord).2.1).1 g' (by simp)
      rw [he, hgp] at hgg
      exact hgg List.prefix_rfl
    refine ⟨g'.doc, hgp', fun hkeep => ?_⟩
    have hlt := length_groupsOf_takeover (no_hit_append hpre hpre') hg' hgp' post' q qs
    rw [List.append_assoc, hkeep, groupsOf_append, groupsOf_append,
      groupsOf_cons_ne (fun h => hgp' (h.symm.trans hgp))] at hlt
    exact Nat.lt_irrefl _ hlt
  · -- the first hit is removed, and nothing brings it back
    refine ⟨g.doc, hgp, fun hkeep => ?_⟩
    have hle := length_groupsOf_adds hgp (q :: qs) (pre ++ post)
    rw [hkeep, groupsOf_append, groupsOf_append, groupsOf_cons_eq rfl, List.length_append,
      List.length_append, List.length_cons] at hle
    omega

/-- **Exactly when every other document keeps its postings**: no extension of `p` is there — or
    nothing is removed and `p`'s own group is there to be found first. -/
theorem refresh_keeps_iff {p : List α} {gs : List (DocGroup α)} (hord : Ordered gs) (c : Bool)
    (q : List α) (qs : List (List α)) :
    (∀ d, d ≠ p → groupsOf d (refresh c p false (q :: qs) gs) = groupsOf d gs) ↔
    (∀ g ∈ gs, p <+: g.doc → g.doc = p) ∨ (c = false ∧ ∃ g ∈ gs, g.doc = p) := by
  constructor
  · intro hkeep
    by_contra hcon
    push Not at hcon
    obtain ⟨⟨k, hk, hkp, hkne⟩, hc⟩ := hcon
    obtain ⟨pre, g, post, rfl, hpre, hg⟩ := split_of_mem hk (hit_iff.mpr hkp)
    cases c with
    | false =>
      -- nothing is removed: the first hit, not `p` itself, is taken over
      have hgp : g.doc ≠ p := hc rfl g (by simp)
      have hlt := length_groupsOf_takeover hpre hg hgp post q qs
      rw [← refresh_eq_adds (c := false) (d := false) p (Or.inl rfl), hkeep g.doc hgp] at hlt
      exact Nat.lt_irrefl _ hlt
    | true =>
      obtain ⟨d, hd, hlost⟩ := remove_adds_loses hord hk hkp hkne q qs
      rw [← refresh_of_hit (any_hit_of_split hg)] at hlost
      exact hlost (hkeep d hd)
  · rintro (halone | ⟨rfl, hown⟩) d hd
    · exact refresh_keeps_of_alone halone c (q :: qs) hd
    · rw [refresh_eq_adds p (Or.inl rfl)]
      exact adds_keeps_of_own hord hown q qs hd

/-! ## The document itself -/

/-- The document `p` has exactly one group, and its positions are `qs` in some order — or no
    group when there is no position. -/
def Exact (p : List α) (qs : List (List α)) (gs : List (DocGroup α)) : Prop :=
  if qs = [] then groupsOf p gs = [] else ∃ ps, groupsOf p gs = [⟨p, ps⟩] ∧ ps.Perm qs

theorem groupsOf_own_of_none {p : List α} {gs : List (DocGroup α)}
    (h : ∀ g ∈ gs, hit p g = false) : groupsOf p gs = [] := by
  refine List.filter_eq_nil_iff.mpr (fun g hg hgp => ?_)
  exact not_prefix_of_hit_false (h g hg) (hit_iff.mp (hit_own (by simpa using hgp)))

/-- A group appended where none was found is the document's only one. -/
theorem groupsOf_own_append {p : List α} {gs : List (DocGroup α)}
    (h : ∀ g ∈ gs, hit p g = false) (ps : List (List α)) :
    groupsOf p (gs ++ [⟨p, ps⟩]) = [⟨p, ps⟩] := by
  rw [groupsOf_append, groupsOf_own_of_none h, groupsOf_cons_eq (g := ⟨p, ps⟩) rfl]
  rfl

/-- Where no longer name opens with `p`, the hits are the groups of `p`. -/
theorem hits_eq_length_groupsOf {p : List α} {gs : List (DocGroup α)}
    (halone : ∀ g ∈ gs, p <+: g.doc → g.doc = p) : hits p gs = (groupsOf p gs).length := by
  have hfilter : gs.filter (hit p) = groupsOf p gs := by
    refine List.filter_congr (fun g hg => ?_)
    rw [Bool.eq_iff_iff, hit_iff, decide_eq_true_eq]
    exact ⟨halone g hg, fun hd => hd ▸ List.prefix_rfl⟩
  rw [hits, List.countP_eq_length_filter, hfilter]

/-- A group that was taken over has more positions than were recorded. -/
theorem not_exact_of_takeover {p : List α} {pre post : List (DocGroup α)} {g : DocGroup α}
    (hpre : ∀ h ∈ pre, hit p h = false) (hg : hit p g = true) (hne : g.poss ≠ []) (q : List α)
    (qs : List (List α)) :
    ¬ ∃ ps, groupsOf p (adds p (q :: qs) (pre ++ g :: post)) = [⟨p, ps⟩] ∧
      ps.Perm (q :: qs) := by
  rintro ⟨ps, hps, hperm⟩
  rw [adds_of_split hpre hg, groupsOf_append, groupsOf_own_of_none hpre, List.nil_append,
    groupsOf_cons_eq (g := ⟨p, _⟩) rfl] at hps
  obtain ⟨hgroup, -⟩ := List.cons.inj hps
  have hlen := hperm.length_eq
  rw [← (DocGroup.mk.inj hgroup).2] at hlen
  have hpos : 0 < g.poss.length := List.length_pos_iff.mpr hne
  simp only [List.length_append, List.length_reverse, List.length_cons] at hlen
  omega

/-- Recording alone is right just when there was no hit. -/
theorem adds_exact_iff {p : List α} {gs : List (DocGroup α)} (hfilled : Filled gs) (q : List α)
    (qs : List (List α)) : Exact p (q :: qs) (adds p (q :: qs) gs) ↔ hits p gs = 0 := by
  rw [Exact, if_neg (by simp)]
  rcases first_hit p gs with hno | ⟨pre, g, post, rfl, hpre, hg⟩
  · rw [adds_of_none hno, groupsOf_own_append hno]
    exact ⟨fun _ => hits_eq_zero.mpr hno, fun _ => ⟨_, rfl, List.reverse_perm _⟩⟩
  · have hhits := hits_split hpre hg post
    constructor
    · exact fun h => absurd h (not_exact_of_takeover hpre hg (hfilled g (by simp)) q qs)
    · intro h
      omega

/-- **Exactly when `p` ends up with the positions recorded.**  Without removal there must be no
    hit; with removal one hit is right, and so is none as long as there is one position only. -/
theorem refresh_exact_iff {p : List α} {gs : List (DocGroup α)} (hfilled : Filled gs) (c : Bool)
    (q : List α) (qs : List (List α)) :
    Exact p (q :: qs) (refresh c p false (q :: qs) gs) ↔
    if c then hits p gs = 1 ∨ (hits p gs = 0 ∧ qs = []) else hits p gs = 0 := by
  cases c with
  | false =>
    rw [refresh_eq_adds p (Or.inl rfl), adds_exact_iff hfilled, if_neg Bool.false_ne_true]
  | true =>
    rw [if_pos rfl]
    rcases first_hit p gs with hno | ⟨pre, g, post, rfl, hpre, hg⟩
    · -- no hit: the group of the first position is dropped when a second one comes
      have h0 : hits p gs = 0 := hits_eq_zero.mpr hno
      rw [Exact, if_neg (by simp), refresh_of_none hno, groupsOf_own_append hno]
      constructor
      · rintro ⟨ps, hps, hperm⟩
        refine Or.inr ⟨h0, ?_⟩
        by_contra hqs
        have hlen := hperm.length_eq
        rw [← (DocGroup.mk.inj (List.cons.inj hps).1).2, if_neg hqs, List.length_reverse,
          List.length_cons] at hlen
        omega
      · rintro (h | ⟨-, rfl⟩)
        · omega
        · exact ⟨[q], rfl, List.Perm.refl _⟩
    · -- the first hit is removed, and the rest must have none
      have hhits := hits_split hpre hg post
      have h0 : pre.countP (hit p) = 0 := hits_eq_zero.mpr hpre
      have hrest : hits p (pre ++ post) = hits p post := by
        rw [hits, List.countP_append, h0, Nat.zero_add, hits]
      have hfilled' : Filled (pre ++ post) := by
        intro k hk
        refine hfilled k ?_
        rcases List.mem_append.mp hk with hk | hk
        · exact List.mem_append_left _ hk
        · exact List.mem_append_right _ (List.mem_cons_of_mem g hk)
      rw [refresh_of_hit (any_hit_of_split hg), remove_of_split hpre hg, adds_exact_iff hfilled',
        hrest]
      constructor
      · exact fun h => Or.inl (by omega)
      · rintro (h | ⟨h, -⟩) <;> omega

/-! ## The document among names that do not extend it -/

/-- What re-recording comes to for one document: without removal the new positions go in front of
    the old ones, with removal they replace them.  A document without positions is no exception to
    the removal: its first new position is dropped when a second one comes. -/
def rerecorded {β : Type} (c : Bool) (old : List β) : List β → List β
  | [] => old
  | q :: qs =>
    if c then if old = [] ∧ qs ≠ [] then qs.reverse else (q :: qs).reverse
    else (q :: qs).reverse ++ old

theorem rerecorded_map {β γ : Type} (f : β → γ) (c : Bool) (old : List β) : ∀ qs : List β,
    rerecorded c (old.map f) (qs.map f) = (rerecorded c old qs).map f
  | [] => rfl
  | q :: qs => by
    cases c with
    | false => simp [rerecorded]
    | true =>
      by_cases hdrop : old = [] ∧ qs ≠ []
      · simp [rerecorded, hdrop]
      · have hdrop' : ¬ (old.map f = [] ∧ qs.map f ≠ []) := by
          rwa [List.map_eq_nil_iff, ne_eq, List.map_eq_nil_iff]
        show (if old.map f = [] ∧ qs.map f ≠ [] then _ else (f q :: qs.map f).reverse)
          = (if old = [] ∧ qs ≠ [] then _ else (q :: qs).reverse).map f
        rw [if_neg hdrop', if_neg hdrop, ← List.map_cons, List.map_reverse]

/-- A group with no other group of its name. -/
theorem groupsOf_own_split {p : List α} {pre post : List (DocGroup α)}
    (hpre : ∀ h ∈ pre, hit p h = false) (hpost : ∀ h ∈ post, hit p h = false)
    (ps : List (List α)) : groupsOf p (pre ++ ⟨p, ps⟩ :: post) = [⟨p, ps⟩] := by
  rw [groupsOf_append, groupsOf_own_of_none hpre, groupsOf_cons_eq (g := ⟨p, ps⟩) rfl,
    groupsOf_own_of_none hpost]
  rfl

/-- **Re-recording, seen from the document**, where no longer name opens with its own. -/
theorem flatMap_poss_refresh {p : List α} {gs : List (DocGroup α)} (hord : Ordered gs)
    (hfilled : Filled gs) (halone : ∀ g ∈ gs, p <+: g.doc → g.doc = p) (c : Bool) :
    ∀ qs : List (List α), (groupsOf p (refresh c p false qs gs)).flatMap DocGroup.poss
      = rerecorded c ((groupsOf p gs).flatMap DocGroup.poss) qs
  | [] => rfl
  | q :: qs => by
    rcases first_hit p gs with hno | ⟨pre, g, post, rfl, hpre, hg⟩
    · -- the document has no group yet
      rw [groupsOf_own_of_none hno]
      cases c with
      | false =>
        rw [refresh_eq_adds p (Or.inl rfl), adds_of_none hno, groupsOf_own_append hno]
        simp [rerecorded]
      | true =>
        rw [refresh_of_none hno, groupsOf_own_append hno]
        by_cases hqs : qs = []
        · simp [rerecorded, hqs]
        · simp [rerecorded, hqs]
    · -- the group found is its own, and the only one
      obtain ⟨doc, ps⟩ := g
      obtain rfl : doc = p := halone ⟨doc, ps⟩ (by simp) (hit_iff.mp hg)
      have hpost : ∀ h ∈ post, hit doc h = false := by
        intro h hh
        rw [Bool.eq_false_iff]
        intro hhit
        have heq : h.doc = doc := halone h (by simp [hh]) (hit_iff.mp hhit)
        have hlt := (List.pairwise_cons.mp (List.pairwise_append.mp hord).2.1).1 h hh
        rw [heq] at hlt
        exact hlt List.prefix_rfl
      have hne : ps ≠ [] := hfilled ⟨doc, ps⟩ (by simp)
      rw [groupsOf_own_split hpre hpost]
      cases c with
      | false =>
        rw [refresh_eq_adds doc (Or.inl rfl), adds_of_split hpre hg,
          groupsOf_own_split hpre hpost]
        simp [rerecorded]
      | true =>
        rw [refresh_of_hit (any_hit_of_split hg), remove_of_split hpre hg,
          adds_of_none (no_hit_append hpre hpost),
          groupsOf_own_append (no_hit_append hpre hpost)]
        simp [rerecorded, hne]

end SearchEngine.Postings
