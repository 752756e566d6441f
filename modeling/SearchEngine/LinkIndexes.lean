/-
  The two link indexes: children of a page, parents of a page.

  Read back, `ParentChildIndex[p]` is the list of the children of `p` and
  `ParentChildIndexInverted[c]` the list of the parents of `c`.  A call of
  `ParentChildIndexer.addEntry` OVERWRITES the first for its page and APPENDS to the second once
  per link (`addEntry_links`), so the two stay converses of each other just as long as nothing is
  overwritten: a page with a record must not be indexed again with links.

  `link_indexes_converse_iff` states this over whole runs, in both directions.
-/
import SearchEngine.IdAssignment
import Mathlib.Tactic.Common

namespace SearchEngine

open Text Numeral Effect NumberedMap ParentChildIndexer

/-! ## The two texts -/

/-- IDs joined by the separator, as the parents are written. -/
def joined : List Str → Str
  | [] => []
  | [p] => p
  | p :: q :: ps => p ++ (sep ++ joined (q :: ps))

/-- A blank, then each ID with a separator behind it, as the children are written. -/
def listed (cs : List Str) : Str := ' ' :: cs.flatMap (· ++ sep)

theorem joined_concat (q : Str) :
    ∀ {ps : List Str}, ps ≠ [] → joined (ps ++ [q]) = joined ps ++ sep ++ q
  | [], h => absurd rfl h
  | [p], _ => by simp [joined]
  | p :: r :: ps, _ => by
    have hne : r :: ps ≠ [] := by simp
    have ih := joined_concat q hne
    show p ++ (sep ++ joined ((r :: ps) ++ [q])) = (p ++ (sep ++ joined (r :: ps))) ++ sep ++ q
    rw [ih]
    simp

theorem clear_digits {x : Str} (h : IsDigits x) (y : Str) : Clear sep x y :=
  clear_of_not_mem (h.not_mem (by decide))

theorem fieldsOn_digits {x : Str} (h : IsDigits x) : fieldsOn sep 0 x = [x] := by
  have happ := fieldsOn_append x [] (clear_digits h [])
  rw [List.append_nil] at happ
  rw [happ]
  simp [fieldsOn]

theorem fieldsOn_joined :
    ∀ {ps : List Str}, ps ≠ [] → (∀ p ∈ ps, IsDigits p) → fieldsOn sep 0 (joined ps) = ps
  | [], h, _ => absurd rfl h
  | [p], _, hd => fieldsOn_digits (hd p (by simp))
  | p :: q :: ps, _, hd => by
    rw [joined, fieldsOn_append_sep (by decide) (clear_digits (hd p (by simp)) _),
      fieldsOn_joined (by simp) (fun x hx => hd x (List.mem_cons_of_mem p hx))]

theorem splitOn_joined {ps : List Str} (hne : ps ≠ []) (hd : ∀ p ∈ ps, IsDigits p) :
    splitOn sep (joined ps) = ps := by
  rw [splitOn, fieldsOn_joined hne hd]
  exact trimPieces_of_filled (fun p hp => (hd p hp).1)

theorem fieldsOn_listed :
    ∀ {cs : List Str}, (∀ c ∈ cs, IsDigits c) →
      fieldsOn sep 0 (cs.flatMap (· ++ sep)) = cs ++ [[]]
  | [], _ => rfl
  | c :: cs, hd => by
    rw [List.flatMap_cons, List.append_assoc,
      fieldsOn_append_sep (by decide) (clear_digits (hd c (by simp)) _),
      fieldsOn_listed (fun x hx => hd x (List.mem_cons_of_mem c hx)), List.cons_append]

theorem trim_digits {x : Str} (h : IsDigits x) : trim x = x := by
  have hgt : ∀ c ∈ x, ¬ (c ≤ ' ') := by
    intro c hc hle
    have hdig := h.2 c hc
    have h48 : '0' ≤ c := by
      simp only [Char.isDigit, Bool.and_eq_true, decide_eq_true_eq] at hdig
      exact hdig.1
    exact absurd (Char.le_trans h48 hle) (by decide)
  have hdrop : x.dropWhile (· ≤ ' ') = x := by
    cases x with
    | nil => rfl
    | cons c x => exact List.dropWhile_cons_of_neg (by simpa using hgt c (by simp))
  rw [trim, hdrop]
  rcases List.eq_nil_or_concat x with rfl | ⟨y, c, rfl⟩
  · rfl
  · rw [List.concat_eq_append] at hgt ⊢
    exact List.rdropWhile_concat_neg _ _ _ (by simpa using hgt c (by simp))

theorem trim_blank {x : Str} : trim (' ' :: x) = trim x := by
  rw [trim, trim, List.dropWhile_cons_of_pos (by decide)]

/-- The children read back. -/
theorem splitOn_listed {cs : List Str} (hne : cs ≠ []) (hd : ∀ c ∈ cs, IsDigits c) :
    (splitOn sep (listed cs)).map trim = cs := by
  cases cs with
  | nil => exact absurd rfl hne
  | cons c cs =>
    have hrest := fieldsOn_listed hd
    have hblank : Clear sep [' '] ((c :: cs).flatMap (· ++ sep)) := clear_of_not_mem (by decide)
    have hfields : fieldsOn sep 0 (listed (c :: cs)) = ((' ' :: c) :: cs) ++ [[]] := by
      have happ := fieldsOn_append [' '] ((c :: cs).flatMap (· ++ sep)) hblank
      rw [hrest] at happ
      exact happ
    have htrim : trimPieces (((' ' :: c) :: cs) ++ [[]]) = (' ' :: c) :: cs := by
      rw [trimPieces_of_two_le (by simp), List.rdropWhile_concat_pos _ _ _ (by rfl)]
      refine rdropWhile_isEmpty_of_filled (fun p hp => ?_)
      rcases List.mem_cons.mp hp with rfl | hp
      · simp
      · exact (hd p (List.mem_cons_of_mem c hp)).1
    rw [splitOn, hfields, htrim, List.map_cons, trim_blank, trim_digits (hd c (by simp))]
    congr 1
    calc cs.map trim = cs.map id :=
          List.map_congr_left (fun x hx => trim_digits (hd x (List.mem_cons_of_mem c hx)))
      _ = cs := List.map_id cs

/-! ## The two indexes, read back -/

/-- The children of `p`: split on `;;`, surrounding blanks trimmed. -/
def children (s : Stores) (p : Str) : List Str :=
  match (s .parentChildIndex)[p]? with
  | none => []
  | some v => (splitOn sep v).map trim

/-- The parents of `c`: split on `;;`. -/
def parents (s : Stores) (c : Str) : List Str :=
  match (s .parentChildIndexInverted)[c]? with
  | none => []
  | some v => splitOn sep v

/-- Every record is written from a non-empty list of IDs. -/
structure LinksOk (s : Stores) : Prop where
  page : TableOk .page s
  children : ∀ p v : Str, (s .parentChildIndex)[p]? = some v →
    ∃ cs, cs ≠ [] ∧ (∀ c ∈ cs, IsDigits c) ∧ v = listed cs
  parents : ∀ c v : Str, (s .parentChildIndexInverted)[c]? = some v →
    ∃ ps, ps ≠ [] ∧ (∀ p ∈ ps, IsDigits p) ∧ v = joined ps

theorem linksOk_empty : LinksOk Stores.empty := by
  refine ⟨(tableExact_empty .page).ok, fun p v h => ?_, fun c v h => ?_⟩
  · rw [show (Stores.empty .parentChildIndex)[p]? = none from Std.ExtTreeMap.getElem?_empty] at h
    exact absurd h (by simp)
  · rw [show (Stores.empty .parentChildIndexInverted)[c]? = none from
      Std.ExtTreeMap.getElem?_empty] at h
    exact absurd h (by simp)

/-- A page has a record just when it has children. -/
theorem LinksOk.children_eq_nil_iff {s : Stores} (h : LinksOk s) (p : Str) :
    SearchEngine.children s p = [] ↔ (s .parentChildIndex)[p]? = none := by
  unfold SearchEngine.children
  cases hv : (s .parentChildIndex)[p]? with
  | none => simp
  | some v =>
    obtain ⟨cs, hne, hd, rfl⟩ := h.children p v hv
    simp only [splitOn_listed hne hd, reduceCtorEq, iff_false]
    exact hne

/-- A page is a key of the inverted index just when it has parents. -/
theorem LinksOk.parents_eq_nil_iff {s : Stores} (h : LinksOk s) (c : Str) :
    SearchEngine.parents s c = [] ↔ (s .parentChildIndexInverted)[c]? = none := by
  unfold SearchEngine.parents
  cases hv : (s .parentChildIndexInverted)[c]? with
  | none => simp
  | some v =>
    obtain ⟨ps, hne, hd, rfl⟩ := h.parents c v hv
    simp only [splitOn_joined hne hd, reduceCtorEq, iff_false]
    exact hne

/-! ## One call -/

/-- The parents of a page with one more. -/
def newParents (existed : Option Str) (pageID : Str) : Str :=
  match existed with
  | none => pageID
  | some existed => existed ++ sep ++ pageID

/-- One turn of the loop over the links. -/
theorem addLink_ok {P asu asu' link : Str} {x x' : World}
    (h : addLink P asu link x = .ok asu' x') :
    ∃ id, (x'.stores .document)[link]? = some id ∧ asu' = asu ++ (id ++ sep) ∧
      x'.stores = (x.stores.issue .page link).put .parentChildIndexInverted id
        (newParents (x.stores .parentChildIndexInverted)[id]? P) := by
  obtain ⟨id, x₁, hid, hrest⟩ := bind_ok.mp h
  obtain ⟨hx₁, hk⟩ := ensureID_ok (t := .page) hid
  obtain ⟨u, x₂, hparent, hpure⟩ := bind_ok.mp hrest
  obtain ⟨rfl, rfl⟩ := pure_ok.mp hpure
  obtain ⟨o, x₃, hget, hput⟩ := bind_ok.mp hparent
  obtain ⟨ho, rfl⟩ := Db.get_ok hget
  rw [hx₁, Stores.issue_other _ link (by decide) (by decide)] at ho
  have hx₂ : x₂.stores = x₃.stores.put .parentChildIndexInverted id (newParents o P) := by
    cases o with
    | none => exact Db.put_ok hput
    | some existed => exact Db.put_ok hput
  refine ⟨id, ?_, by simp, by rw [hx₂, hx₁, ho]⟩
  rw [hx₂, Stores.put_other _ (by decide)]
  exact hk

/-- Entering a parent keeps the records in shape, and appends it to the list of one page. -/
theorem LinksOk.put_parent {s : Stores} (h : LinksOk s) {P : Str} (hP : IsDigits P) (id : Str) :
    LinksOk (s.put .parentChildIndexInverted id
      (newParents (s .parentChildIndexInverted)[id]? P)) ∧
    ∀ c, SearchEngine.parents (s.put .parentChildIndexInverted id
        (newParents (s .parentChildIndexInverted)[id]? P)) c
      = if id = c then SearchEngine.parents s c ++ [P] else SearchEngine.parents s c := by
  -- the new text, and the list it reads back to
  have hnew : ∃ ps, ps ≠ [] ∧ (∀ p ∈ ps, IsDigits p) ∧
      newParents (s .parentChildIndexInverted)[id]? P = joined ps ∧
      ps = SearchEngine.parents s id ++ [P] := by
    unfold SearchEngine.parents
    cases hv : (s .parentChildIndexInverted)[id]? with
    | none => exact ⟨[P], by simp, by simpa using hP, rfl, rfl⟩
    | some v =>
      obtain ⟨ps, hne, hd, rfl⟩ := h.parents id v hv
      refine ⟨ps ++ [P], by simp, fun p hp => ?_, (joined_concat P hne).symm, ?_⟩
      · rcases List.mem_append.mp hp with hp | hp
        · exact hd p hp
        · rw [List.mem_singleton.mp hp]
          exact hP
      · show ps ++ [P] = splitOn sep (joined ps) ++ [P]
        rw [splitOn_joined hne hd]
  obtain ⟨ps, hne, hd, htext, hps⟩ := hnew
  have hindex : Db.IsIndex .parentChildIndexInverted := Db.isIndex_of_not_mem (by decide)
  constructor
  · refine ⟨tableOk_put hindex _ _ h.page, fun p v hv => ?_, fun c v hv => ?_⟩
    · rw [Stores.put_other s (by decide)] at hv
      exact h.children p v hv
    · rw [Stores.put_same, get_insert] at hv
      by_cases hc : id = c
      · rw [if_pos hc] at hv
        exact ⟨ps, hne, hd, (Option.some.inj hv).symm.trans htext⟩
      · rw [if_neg hc] at hv
        exact h.parents c v hv
  · intro c
    rw [SearchEngine.parents, Stores.put_same, get_insert]
    by_cases hc : id = c
    · subst hc
      rw [if_pos rfl, if_pos rfl]
      show splitOn sep (newParents _ P) = _
      rw [htext, splitOn_joined hne hd, hps]
    · rw [if_neg hc, if_neg hc]
      rfl

/-- Writing the children of a page keeps the records in shape, and replaces one list. -/
theorem LinksOk.put_children {s : Stores} (h : LinksOk s) (P : Str) {cs : List Str} (hne : cs ≠ [])
    (hd : ∀ c ∈ cs, IsDigits c) :
    LinksOk (s.put .parentChildIndex P (listed cs)) ∧
      (∀ p, SearchEngine.children (s.put .parentChildIndex P (listed cs)) p
        = if p = P then cs else SearchEngine.children s p) ∧
      ∀ c, SearchEngine.parents (s.put .parentChildIndex P (listed cs)) c
        = SearchEngine.parents s c := by
  have hindex : Db.IsIndex .parentChildIndex := Db.isIndex_of_not_mem (by decide)
  refine ⟨⟨tableOk_put hindex _ _ h.page, fun p v hv => ?_, fun c v hv => ?_⟩, fun p => ?_,
    fun c => ?_⟩
  · rw [Stores.put_same, get_insert] at hv
    by_cases hp : P = p
    · rw [if_pos hp] at hv
      exact ⟨cs, hne, hd, (Option.some.inj hv).symm⟩
    · rw [if_neg hp] at hv
      exact h.children p v hv
  · rw [Stores.put_other s (by decide)] at hv
    exact h.parents c v hv
  · rw [SearchEngine.children, Stores.put_same, get_insert]
    by_cases hp : p = P
    · rw [if_pos hp.symm, if_pos hp]
      exact splitOn_listed hne hd
    · rw [if_neg (Ne.symm hp), if_neg hp]
      rfl
  · rw [SearchEngine.parents, SearchEngine.parents, Stores.put_other s (by decide)]

/-- Issuing a page ID leaves the records alone. -/
theorem LinksOk.issue {s : Stores} (h : LinksOk s) (key : Str) :
    LinksOk (s.issue .page key) ∧
      (∀ c, SearchEngine.parents (s.issue .page key) c = SearchEngine.parents s c) ∧
      ∀ p, SearchEngine.children (s.issue .page key) p = SearchEngine.children s p := by
  have hpci : s.issue .page key .parentChildIndex = s .parentChildIndex :=
    Stores.issue_other s key (by decide) (by decide)
  have hpcii : s.issue .page key .parentChildIndexInverted = s .parentChildIndexInverted :=
    Stores.issue_other s key (by decide) (by decide)
  have hpage : TableOk .page (s.issue .page key) := by
    cases hkey : (s Table.page.fwd)[key]? with
    | some id =>
      rw [Stores.issue_of_some hkey]
      exact h.page
    | none =>
      rw [Stores.issue_of_none hkey]
      exact tableOk_issueBoth h.page hkey
  refine ⟨⟨hpage, ?_, ?_⟩, fun c => ?_, fun p => ?_⟩
  · rw [hpci]
    exact h.children
  · rw [hpcii]
    exact h.parents
  · rw [SearchEngine.parents, SearchEngine.parents, hpcii]
  · rw [SearchEngine.children, SearchEngine.children, hpci]

/-- **The loop over the links**: the text grows by the children's IDs, and each child gets the
    page as a parent once per link. -/
theorem foldlM_addLink_ok {P : Str} (hP : IsDigits P) :
    ∀ (links : List Str) (asu asu' : Str) (x x' : World),
      links.foldlM (addLink P) asu x = .ok asu' x' → LinksOk x.stores →
      ∃ ids : List Str, ids.length = links.length ∧ (∀ id ∈ ids, IsDigits id) ∧
        asu' = asu ++ ids.flatMap (· ++ sep) ∧ LinksOk x'.stores ∧
        (∀ p, children x'.stores p = children x.stores p) ∧
        ∀ c, parents x'.stores c = parents x.stores c ++ List.replicate (ids.count c) P
  | [], asu, asu', x, x', h, hx => by
    obtain ⟨rfl, rfl⟩ := pure_ok.mp h
    exact ⟨[], rfl, by simp, by simp, hx, fun p => rfl, fun c => by simp⟩
  | link :: links, asu, asu', x, x', h, hx => by
    obtain ⟨asu₁, x₁, hstep, hrest⟩ := foldlM_cons_ok.mp h
    obtain ⟨id, hid, rfl, hx₁⟩ := addLink_ok hstep
    obtain ⟨hissue, hpar, hchi⟩ := hx.issue link
    have hinv : x.stores.issue .page link .parentChildIndexInverted
        = x.stores .parentChildIndexInverted :=
      Stores.issue_other _ link (by decide) (by decide)
    obtain ⟨hput, hput'⟩ := hissue.put_parent hP id
    rw [hinv, ← hx₁] at hput hput'
    obtain ⟨ids, hlen, hdig, rfl, hok, hchi', hpar'⟩ :=
      foldlM_addLink_ok hP links _ asu' x₁ x' hrest hput
    have hiddig : IsDigits id := by
      obtain ⟨n, -, -, rfl⟩ := hput.page.1.bounded hid
      exact isDigits_decimal n
    refine ⟨id :: ids, by simp [hlen], ?_, by simp, hok, fun p => ?_, fun c => ?_⟩
    · intro k hk
      rcases List.mem_cons.mp hk with rfl | hk
      · exact hiddig
      · exact hdig k hk
    · rw [hchi', ← hchi p, hx₁, children, Stores.put_other _ (by decide), children]
    · rw [hpar', hput', hpar]
      by_cases hc : id = c
      · rw [if_pos hc, hc, List.count_cons_self, List.replicate_succ, List.append_assoc]
        rfl
      · rw [if_neg hc, List.count_cons_of_ne hc]

/-- What a call that returns does to the two indexes: `ids` are the children of the page, one for
    each link. -/
structure LinksAdded (url : Str) (links ids : List Str) (s s' : Stores) : Prop where
  ok : LinksOk s'
  length : ids.length = links.length
  children : ∀ p, children s' p
    = if p = pageIDOf s url ∧ ids ≠ [] then ids else SearchEngine.children s p
  parents : ∀ c, parents s' c
    = SearchEngine.parents s c ++ List.replicate (ids.count c) (pageIDOf s url)

/-- **One call of `addEntry`.** -/
theorem addEntry_links {c : Crawler} {x x' : World} {u : Unit}
    (h : ParentChildIndexer.addEntry c x = .ok u x') (hx : LinksOk x.stores) :
    ∃ links ids, vectorGet c.parser 4 = .ok links ∧
      LinksAdded c.url links ids x.stores x'.stores := by
  obtain ⟨links, hlinks, hrest⟩ := lift_bind_ok.mp h
  obtain ⟨P, x₂, hid, hrest₂⟩ := bind_ok.mp hrest
  obtain ⟨hx₂, hPid, hP⟩ := pageID_ok hid
  obtain ⟨hissue, hpar, hchi⟩ := hx.issue c.url
  rw [← hx₂] at hissue hpar hchi
  have hPdig : IsDigits P := by
    obtain ⟨n, -, -, rfl⟩ := hissue.page.1.bounded hP
    exact isDigits_decimal n
  by_cases hne : 0 < links.length
  · rw [if_pos hne] at hrest₂
    obtain ⟨asu, x₃, hloop, hput⟩ := bind_ok.mp hrest₂
    obtain ⟨ids, hlen, hdig, rfl, hok, hchi', hpar'⟩ :=
      foldlM_addLink_ok hPdig links _ asu x₂ x₃ hloop hissue
    have hids : ids ≠ [] := by
      rw [← List.length_pos_iff, hlen]
      exact hne
    obtain ⟨hok'', hchi'', hpar''⟩ := hok.put_children P hids hdig
    have hstores : x'.stores = x₃.stores.put .parentChildIndex P (listed ids) := Db.put_ok hput
    rw [← hstores] at hok'' hchi'' hpar''
    refine ⟨links, ids, hlinks, hok'', hlen, fun p => ?_, fun k => ?_⟩
    · rw [hchi'', hchi', hchi, ← hPid]
      by_cases hp : p = P
      · rw [if_pos hp, if_pos ⟨hp, hids⟩]
      · rw [if_neg hp, if_neg (fun hcon => hp hcon.1)]
    · rw [hpar'', hpar', hpar, ← hPid]
  · rw [if_neg hne] at hrest₂
    obtain ⟨-, rfl⟩ := pure_ok.mp hrest₂
    refine ⟨links, [], hlinks, hissue, ?_, fun p => ?_, fun k => ?_⟩
    · simp only [List.length_nil]
      omega
    · rw [if_neg (by simp)]
      exact hchi p
    · rw [hpar k]
      simp

/-! ## Whole runs -/

/-- The two indexes are converses of each other, with multiplicity. -/
def LinksConverse (s : Stores) : Prop :=
  ∀ p c : Str, (children s p).count c = (parents s c).count p

/-- Indexing the page does not overwrite a record: it has no links, or no record yet. -/
def StepSafe (s : Stores) (c : Crawler) : Prop :=
  ∀ links, vectorGet c.parser 4 = .ok links →
    links = [] ∨ (s .parentChildIndex)[pageIDOf s c.url]? = none

theorem linksConverse_empty : LinksConverse Stores.empty := by
  intro p c
  rw [children, parents,
    show (Stores.empty .parentChildIndex)[p]? = none from Std.ExtTreeMap.getElem?_empty,
    show (Stores.empty .parentChildIndexInverted)[c]? = none from Std.ExtTreeMap.getElem?_empty]
  rfl

/-- A call keeps the indexes converse just when there was nothing to overwrite: the parents of
    `c` gain the page as often as `c` is a new child, so the old children are owed. -/
theorem LinksAdded.converse_iff {url : Str} {links ids : List Str} {s s' : Stores}
    (h : LinksAdded url links ids s s') (hs : LinksConverse s) :
    LinksConverse s' ↔ ids = [] ∨ SearchEngine.children s (pageIDOf s url) = [] := by
  have hcount : ∀ p c : Str, (SearchEngine.parents s' c).count p
      = (SearchEngine.children s p).count c + if p = pageIDOf s url then ids.count c else 0 := by
    intro p c
    rw [h.parents c, List.count_append, ← hs p c, List.count_replicate]
    by_cases hp : p = pageIDOf s url
    · subst hp
      simp
    · rw [if_neg hp, if_neg (by simpa using fun hcon => hp hcon.symm)]
  constructor
  · intro hconv
    by_cases hids : ids = []
    · exact Or.inl hids
    · refine Or.inr (List.eq_nil_iff_forall_not_mem.mpr (fun c hc => ?_))
      have hpos : 0 < (SearchEngine.children s (pageIDOf s url)).count c :=
        List.count_pos_iff.mpr hc
      have heq := hconv (pageIDOf s url) c
      rw [hcount, if_pos rfl, h.children, if_pos ⟨rfl, hids⟩] at heq
      omega
  · intro hsafe p c
    rw [hcount, h.children]
    by_cases hp : p = pageIDOf s url
    · subst hp
      rcases hsafe with rfl | hnil
      · simp
      · rw [hnil, if_pos rfl, List.count_nil, Nat.zero_add]
        by_cases hids : ids = []
        · simp [hids]
        · rw [if_pos ⟨rfl, hids⟩]
    · rw [if_neg hp, if_neg (fun hcon => hp hcon.1), Nat.add_zero]

/-- **One step of a run.** -/
theorem step_converse_iff {E : Platform} {c : Crawler} {faults : List Bool} {s : Stores}
    (hret : returns (Attempt.outcome E ⟨.parentChildAddEntry c, faults⟩ s) = true)
    (hok : LinksOk s) (hs : LinksConverse s) :
    LinksOk (Attempt.after E ⟨.parentChildAddEntry c, faults⟩ s) ∧
    (LinksConverse (Attempt.after E ⟨.parentChildAddEntry c, faults⟩ s) ↔ StepSafe s c) := by
  obtain ⟨x, hrun, hafter⟩ := Attempt.ok_of_returns hret
  rw [hafter]
  obtain ⟨links, ids, hlinks, hadd⟩ := addEntry_links (x := ⟨s, faults⟩) hrun hok
  refine ⟨hadd.ok, (hadd.converse_iff hs).trans ?_⟩
  rw [hok.children_eq_nil_iff, ← List.length_eq_zero_iff, hadd.length, List.length_eq_zero_iff]
  constructor
  · intro h links' hlinks'
    rw [hlinks] at hlinks'
    obtain rfl : links = links' := Except.ok.inj hlinks'
    exact h
  · exact fun h => h links hlinks

/-- The run that indexes the links of the pages, one after the other. -/
def linkRun (pages : List (Crawler × List Bool)) : List Attempt :=
  pages.map (fun pg => ⟨.parentChildAddEntry pg.1, pg.2⟩)

/-- From any stores with converse indexes on, the indexes stay so just as long as every step is
    safe. -/
theorem linkRun_converse_iff {E : Platform} :
    ∀ (pages : List (Crawler × List Bool)) (s : Stores), NoneAborted E (linkRun pages) s →
      LinksOk s → LinksConverse s →
      ((∀ n, LinksConverse (runAll E (linkRun (pages.take n)) s)) ↔
        ∀ n c fs, pages[n]? = some (c, fs) → StepSafe (runAll E (linkRun (pages.take n)) s) c)
  | [], s, _, _, hs => by
    refine ⟨fun _ n c fs h => absurd h (by simp), fun _ n => ?_⟩
    rw [List.take_nil]
    exact hs
  | (c, fs) :: pages, s, hret, hok, hs => by
    obtain ⟨hok', hstep⟩ := step_converse_iff hret.1 hok hs
    have ih := linkRun_converse_iff pages _ hret.2 hok'
    constructor
    · intro hall
      -- behind the first page the indexes are converse, so the induction goes on from there
      have hs' : LinksConverse (Attempt.after E ⟨.parentChildAddEntry c, fs⟩ s) := hall 1
      have hrest := (ih hs').mp (fun n => hall (n + 1))
      intro n c' fs' hn
      cases n with
      | zero =>
        obtain ⟨rfl, rfl⟩ : c = c' ∧ fs = fs' := by simpa using hn
        exact hstep.mp hs'
      | succ n => exact hrest n c' fs' hn
    · intro hsafe n
      have hs' := hstep.mpr (hsafe 0 c fs rfl)
      cases n with
      | zero => exact hs
      | succ n => exact (ih hs').mpr (fun n c' fs' hn => hsafe (n + 1) c' fs' hn) n

/-- **Exactly when the link indexes are converses.**  In every run of `addEntry` calls that all
    return, from empty stores on: the two indexes are converses of each other in every state
    reached, if and only if every call met a page without links, or without a record yet. -/
theorem link_indexes_converse_iff (E : Platform) (pages : List (Crawler × List Bool))
    (hret : NoneAborted E (linkRun pages) Stores.empty) :
    (∀ n, LinksConverse (runAll E (linkRun (pages.take n)) Stores.empty)) ↔
      ∀ n c fs, pages[n]? = some (c, fs) →
        StepSafe (runAll E (linkRun (pages.take n)) Stores.empty) c :=
  linkRun_converse_iff pages Stores.empty hret linksOk_empty linksConverse_empty

/-- A page at `a` that links to `b`. -/
def linkingPage : Crawler := Crawler.page ['a'] ['a'] [] [] [] [['b']]

/-- A page at `a` that links to `b` and `c`, and the page at `b`, which links to `c` too. -/
def chainedPages : List (Crawler × List Bool) :=
  [(Crawler.page ['a'] ['a'] [] [] [] [['b'], ['c']], []),
    (Crawler.page ['b'] ['b'] [] [] [] [['c']], [])]

theorem chainedPages_returns : NoneAborted asciiPlatform (linkRun chainedPages) Stores.empty := by
  decide +kernel

theorem converse_chained_pages :
    LinksConverse (runAll asciiPlatform (linkRun chainedPages) Stores.empty) := by
  refine (link_indexes_converse_iff asciiPlatform chainedPages chainedPages_returns).mpr ?_ 2
  intro n c fs hn
  -- neither page has a record of children when it is indexed
  match n, hn with
  | 0, hn =>
    obtain ⟨rfl, rfl⟩ := Prod.mk.inj (Option.some.inj hn)
    exact fun links _ => Or.inr (by decide +kernel)
  | 1, hn =>
    obtain ⟨rfl, rfl⟩ := Prod.mk.inj (Option.some.inj hn)
    exact fun links _ => Or.inr (by decide +kernel)

/-- Indexing the page again leaves it two times among the parents of `b`, with `b` its child
    once. -/
theorem parent_entered_twice :
    ¬ ∀ (E : Platform) (pages : List (Crawler × List Bool)),
      NoneAborted E (linkRun pages) Stores.empty →
      LinksConverse (runAll E (linkRun pages) Stores.empty) := by
  intro h
  have hret : NoneAborted asciiPlatform (linkRun [(linkingPage, []), (linkingPage, [])])
      Stores.empty := ⟨by decide +kernel, by decide +kernel, trivial⟩
  have hconv := h asciiPlatform _ hret ['1'] ['2']
  revert hconv
  decide +kernel

end SearchEngine
