/-
  `Crawler.crawl`: collecting pages, and when it ends.

  The variable `i` of the source is two things at once: the index of the page to expand and the
  number of links added so far.  It starts at `0` with one page collected, and only moves when a
  link is added, so the page that is expanded is always THE LAST ONE collected (`Visit.Ok`) — and
  a page that adds nothing is expanded again, forever.

  `Walk` says this without the loop: from a page on to its last admissible link, until enough
  links are collected.  `crawl_iff`: the pages `crawl` returns are those of a walk, and it returns
  just when there is one.
-/
import SearchEngine.Crawler
import SearchEngine.Lib.Loop
import Mathlib.Tactic.Common

namespace SearchEngine

open Text Numeral Effect

/-- What the web answers: the page at every URL. -/
structure Web where
  page : Str → Crawler
  page_url : ∀ url, (page url).url = url

namespace Crawler

/-- The only host that is followed. -/
def host : Str := "cse.ust.hk".toList

/-- The vector `crawlers` and the variable `i`. -/
structure Visit where
  crawlers : List Crawler
  i : Nat

variable (web : Web) (db : Db) (bound : Int)

/-- The body of the loop over the links, with the second half of its guard in front: behind a
    link that reaches the bound, the rest is passed over. -/
def visitLink (v : Visit) (link : Str) : IndexM Visit :=
  if (v.i : Int) < bound then
    if contains link host then do
      match ← db.get link with
      | none => pure ⟨v.crawlers ++ [web.page link], v.i + 1⟩
      | some _ => pure v
    else pure v
  else pure v

/-- One round of the outer loop. -/
def crawlRound (v : Visit) : IndexM (Round Visit (List Crawler)) :=
  if v.i < v.crawlers.length ∧ (v.i : Int) < bound then do
    let c ← lift (vectorGet v.crawlers v.i)
    let links ← lift (vectorGet c.parser 4)
    let v ← links.foldlM (visitLink web db bound) v
    pure (.again v)
  else pure (.done v.crawlers)

/-- `crawl(limit, document)` on the page at `url`, with a budget of page fetches; `db` is the
    store that the caller passes in as `document`. -/
def crawl (budget : Nat) (limit : Int) (url : Str) : IndexM (Option (List Crawler)) :=
  loop (crawlRound web db (wrap32 (limit - 1))) budget ⟨[web.page url], 0⟩

/-! ## Walks -/

/-- The test a link has to pass: it is of the host, and has no entry in the store. -/
def admits (s : Stores) (link : Str) : Bool := contains link host && (s db)[link]?.isNone

/-- The links that `crawl` adds for a page. -/
def admissible (s : Stores) (url : Str) : List Str :=
  match vectorGet (web.page url).parser 4 with
  | .ok links => links.filter (admits db s)
  | .error _ => []

end Crawler

/-- Collect the links of a page, go to the last of them, and so on until `n` links are there. -/
inductive Walk (links : Str → List Str) : Nat → Str → List Str → Prop where
  | enough (u : Str) : Walk links 0 u []
  | step {n : Nat} {u v : Str} {us : List Str} (hn : 0 < n) (h : (links u).getLast? = some v)
      (rest : Walk links (n - (links u).length) v us) : Walk links n u ((links u).take n ++ us)

/-- A walk that has enough may stand anywhere. -/
theorem Walk.of_enough {links : Str → List Str} {n : Nat} {u v : Str} {us : List Str}
    (h : Walk links n u us) (hn : n = 0) : Walk links n v us := by
  subst hn
  cases h with
  | enough => exact .enough v
  | step hn => omega

theorem Walk.unique {links : Str → List Str} {n : Nat} {u : Str} {us us' : List Str}
    (h : Walk links n u us) (h' : Walk links n u us') : us = us' := by
  induction h generalizing us' with
  | enough u =>
    cases h' with
    | enough => rfl
    | step hn => omega
  | step hn hlast _ ih =>
    cases h' with
    | enough => omega
    | step _ hlast' rest' =>
      obtain rfl := Option.some.inj (hlast.symm.trans hlast')
      rw [ih rest']

namespace Crawler

variable {web : Web} {db : Db} {bound : Int}

/-! ## The loop over the links -/

/-- How many more links the bound allows. -/
def remaining (bound : Int) (i : Nat) : Nat := (bound - i).toNat

theorem remaining_pos_iff {i : Nat} : 0 < remaining bound i ↔ (i : Int) < bound := by
  unfold remaining
  omega

theorem remaining_add (bound : Int) (i k : Nat) :
    remaining bound (i + k) = remaining bound i - k := by
  unfold remaining
  omega

theorem visitLink_of_admits {cs : List Crawler} {i : Nat} {link : Str} {x : World}
    (hi : (i : Int) < bound) (h : admits db x.stores link = true) :
    visitLink web db bound ⟨cs, i⟩ link x = .ok ⟨cs ++ [web.page link], i + 1⟩ x := by
  rw [admits, Bool.and_eq_true] at h
  have hget : (x.stores db)[link]? = none := Option.isNone_iff_eq_none.mp h.2
  rw [visitLink, if_pos hi, if_pos h.1]
  exact bind_ok.mpr ⟨none, x, by rw [← hget]; rfl, rfl⟩

theorem visitLink_of_not {cs : List Crawler} {i : Nat} {link : Str} {x : World}
    (h : ¬ (i : Int) < bound ∨ admits db x.stores link = false) :
    visitLink web db bound ⟨cs, i⟩ link x = .ok ⟨cs, i⟩ x := by
  rw [visitLink]
  by_cases hi : (i : Int) < bound
  · rw [if_pos hi]
    have hno := h.resolve_left (fun hcon => hcon hi)
    by_cases hhost : contains link host = true
    · rw [if_pos hhost]
      rw [admits, hhost, Bool.true_and] at hno
      cases hget : (x.stores db)[link]? with
      | none =>
        rw [hget] at hno
        exact absurd hno (by decide)
      | some v => exact bind_ok.mpr ⟨some v, x, by rw [← hget]; rfl, rfl⟩
    · rw [if_neg hhost]
      rfl
  · rw [if_neg hi]
    rfl

/-- The links that are added: the first ones that pass the test, as many as the bound allows. -/
theorem foldlM_visitLink (x : World) :
    ∀ (links : List Str) (cs : List Crawler) (i : Nat),
      links.foldlM (visitLink web db bound) ⟨cs, i⟩ x
        = .ok ⟨cs ++ ((links.filter (admits db x.stores)).take (remaining bound i)).map web.page,
            i + ((links.filter (admits db x.stores)).take (remaining bound i)).length⟩ x
  | [], cs, i => by simp [pure, EStateM.pure]
  | link :: links, cs, i => by
    rw [List.foldlM_cons]
    by_cases hi : (i : Int) < bound
    · cases hadm : admits db x.stores link with
      | true =>
        obtain ⟨m, hm⟩ : ∃ m, remaining bound i = m + 1 :=
          Nat.exists_eq_add_one.mpr (remaining_pos_iff.mpr hi)
        have hm' : remaining bound (i + 1) = m := by
          rw [remaining_add, hm]
          omega
        rw [bind_run_ok (visitLink_of_admits hi hadm), foldlM_visitLink x links, hm', hm,
          List.filter_cons_of_pos hadm, List.take_succ_cons]
        simp [Nat.add_assoc, Nat.add_comm]
      | false =>
        rw [bind_run_ok (visitLink_of_not (Or.inr hadm)), foldlM_visitLink x links,
          List.filter_cons_of_neg (by rw [hadm]; decide)]
    · have hzero : remaining bound i = 0 := by
        rw [← remaining_pos_iff] at hi
        omega
      rw [bind_run_ok (visitLink_of_not (Or.inl hi)), foldlM_visitLink x links, hzero,
        List.take_zero, List.take_zero]

/-! ## One round -/

/-- The page that is expanded next is the last one collected, the one at `u`. -/
structure Visit.Ok (web : Web) (v : Visit) (u : Str) : Prop where
  length : v.crawlers.length = v.i + 1
  current : v.crawlers[v.i]? = some (web.page u)

/-- The variables behind a round that expands the page at `u`. -/
def Visit.next (web : Web) (db : Db) (bound : Int) (s : Stores) (v : Visit) (u : Str) : Visit :=
  ⟨v.crawlers ++ ((admissible web db s u).take (remaining bound v.i)).map web.page,
    v.i + ((admissible web db s u).take (remaining bound v.i)).length⟩

theorem crawlRound_of_full {v : Visit} {x : World} (h : remaining bound v.i = 0) :
    crawlRound web db bound v x = .ok (.done v.crawlers) x := by
  have hi : ¬ (v.i : Int) < bound := by
    rw [← remaining_pos_iff]
    omega
  rw [crawlRound, if_neg (fun hcon => hi hcon.2)]
  rfl

/-- A round begins with the links of the page at `u`. -/
theorem crawlRound_start (db : Db) (x : World) {v : Visit} {u : Str} (hv : v.Ok web u)
    (h : 0 < remaining bound v.i) :
    crawlRound web db bound v x
      = (lift (vectorGet (web.page u).parser 4) >>= fun links =>
          links.foldlM (visitLink web db bound) v >>= fun v => pure (.again v)) x := by
  have hguard : v.i < v.crawlers.length ∧ (v.i : Int) < bound :=
    ⟨by rw [hv.length]; omega, remaining_pos_iff.mp h⟩
  have hcurrent : vectorGet v.crawlers v.i = .ok (web.page u) := by
    rw [vectorGet, hv.current]
  rw [crawlRound, if_pos hguard]
  exact lift_run_ok hcurrent _ x

/-- A page that was parsed: the round collects its links. -/
theorem crawlRound_parsed (db : Db) (x : World) {v : Visit} {u : Str} {links : List Str}
    (hv : v.Ok web u) (h : 0 < remaining bound v.i)
    (hlinks : vectorGet (web.page u).parser 4 = .ok links) :
    crawlRound web db bound v x = .ok (.again (v.next web db bound x.stores u)) x := by
  rw [crawlRound_start db x hv h, lift_run_ok hlinks,
    bind_run_ok (foldlM_visitLink x links v.crawlers v.i)]
  unfold Visit.next admissible
  rw [hlinks]
  rfl

/-- A round either throws, because the page could not be parsed, or collects its links. -/
theorem crawlRound_cases (db : Db) (x : World) {v : Visit} {u : Str} (hv : v.Ok web u)
    (h : 0 < remaining bound v.i) :
    (admissible web db x.stores u = [] ∧ ∃ e, crawlRound web db bound v x = .error e x) ∨
    crawlRound web db bound v x = .ok (.again (v.next web db bound x.stores u)) x := by
  cases hparse : vectorGet (web.page u).parser 4 with
  | error e =>
    refine Or.inl ⟨by rw [admissible, hparse], e, ?_⟩
    rw [crawlRound_start db x hv h, lift_run_error hparse]
  | ok links => exact Or.inr (crawlRound_parsed db x hv h hparse)

/-- A round that adds links goes on to the last of them. -/
theorem Visit.Ok.next {v : Visit} {u w : Str} {s : Stores} (hv : v.Ok web u)
    (h : ((admissible web db s u).take (remaining bound v.i)).getLast? = some w) :
    (v.next web db bound s u).Ok web w := by
  constructor
  · show (v.crawlers ++ List.map _ _).length = v.i + _ + 1
    rw [List.length_append, List.length_map, hv.length]
    omega
  · have hlen : (v.next web db bound s u).i = (v.next web db bound s u).crawlers.length - 1 := by
      show v.i + _ = (v.crawlers ++ List.map _ _).length - 1
      rw [List.length_append, List.length_map, hv.length]
      omega
    rw [hlen, ← List.getLast?_eq_getElem?]
    show (v.crawlers ++ List.map _ _).getLast? = _
    rw [List.getLast?_append, List.getLast?_map, h]
    rfl

/-- A page without an admissible link changes nothing. -/
theorem Visit.next_of_nil {v : Visit} {u : Str} {s : Stores}
    (h : admissible web db s u = []) : v.next web db bound s u = v := by
  rw [Visit.next, h]
  simp

/-- The last admissible link, and the last one that is added: the same, unless the bound is
    reached. -/
theorem exists_last {us : List Str} {i : Nat} (hne : us ≠ []) (hpos : 0 < remaining bound i) :
    ∃ w w', us.getLast? = some w ∧ (us.take (remaining bound i)).getLast? = some w' ∧
      (w' = w ∨ remaining bound i - us.length = 0) := by
  have htake : us.take (remaining bound i) ≠ [] := by
    rw [ne_eq, List.take_eq_nil_iff]
    rintro (hzero | hnil)
    · omega
    · exact hne hnil
  refine ⟨us.getLast hne, (us.take (remaining bound i)).getLast htake,
    List.getLast?_eq_some_getLast hne, List.getLast?_eq_some_getLast htake, ?_⟩
  by_cases hlen : us.length ≤ remaining bound i
  · exact Or.inl (by simp only [List.take_of_length_le hlen])
  · exact Or.inr (by omega)

theorem remaining_next {v : Visit} {u : Str} {s : Stores} :
    remaining bound (v.next web db bound s u).i
      = remaining bound v.i - (admissible web db s u).length := by
  show remaining bound (v.i + _) = _
  rw [remaining_add, List.length_take]
  omega

/-! ## The whole crawl -/

/-- A loop that leaves has walked. -/
theorem walk_of_loop {x x' : World} {out : List Crawler} :
    ∀ {budget : Nat} {v : Visit} {u : Str}, v.Ok web u →
      loop (crawlRound web db bound) budget v x = .ok (some out) x' →
      x' = x ∧ ∃ us, Walk (admissible web db x.stores) (remaining bound v.i) u us ∧
        out = v.crawlers ++ us.map web.page
  | 0, v, u, _, h => by cases h
  | budget + 1, v, u, hv, h => by
    by_cases hfull : remaining bound v.i = 0
    · rw [loop_of_done (crawlRound_of_full hfull)] at h
      cases h
      refine ⟨rfl, [], ?_, by simp⟩
      rw [hfull]
      exact .enough u
    · have hpos : 0 < remaining bound v.i := by omega
      rcases crawlRound_cases db x hv hpos with ⟨-, e, hrun⟩ | hrun
      · have hthrow : loop (crawlRound web db bound) (budget + 1) v x = .error e x :=
          bind_run_error hrun _
        rw [hthrow] at h
        cases h
      · rw [loop_of_again hrun] at h
        by_cases hnil : admissible web db x.stores u = []
        · -- the same round again, with less budget
          rw [Visit.next_of_nil hnil] at h
          exact walk_of_loop hv h
        · obtain ⟨w, w', hw, hw', hsame⟩ := exists_last hnil hpos
          obtain ⟨hx, us, hwalk, rfl⟩ := walk_of_loop (hv.next hw') h
          rw [remaining_next] at hwalk
          refine ⟨hx, (admissible web db x.stores u).take (remaining bound v.i) ++ us, ?_, ?_⟩
          · refine .step hpos hw ?_
            rcases hsame with rfl | hzero
            · exact hwalk
            · exact hwalk.of_enough hzero
          · rw [List.map_append, ← List.append_assoc]
            rfl

/-- A walk is walked by the loop. -/
theorem loop_of_walk {x : World} {n : Nat} {u : Str} {us : List Str}
    (h : Walk (admissible web db x.stores) n u us) :
    ∀ {v : Visit} {u' : Str}, v.Ok web u' → n = remaining bound v.i → (u' = u ∨ n = 0) →
      ∃ budget, loop (crawlRound web db bound) budget v x
        = .ok (some (v.crawlers ++ us.map web.page)) x := by
  induction h with
  | enough u =>
    intro v u' hv hn _
    refine ⟨1, ?_⟩
    rw [loop_of_done (crawlRound_of_full hn.symm)]
    simp
  | @step n u w us hpos hw _ ih =>
    rintro v u' hv rfl hu
    obtain rfl : u' = u := hu.resolve_right (by omega)
    have hnil : admissible web db x.stores u' ≠ [] := by
      intro hcon
      rw [hcon] at hw
      cases hw
    obtain ⟨w₁, w', hw₁, hw', hsame⟩ := exists_last hnil hpos
    obtain rfl : w₁ = w := Option.some.inj (hw₁.symm.trans hw)
    have hrun := (crawlRound_cases db x hv hpos).resolve_left
      (fun hcon => hnil hcon.1)
    obtain ⟨budget, hloop⟩ := ih (hv.next hw') remaining_next.symm hsame
    refine ⟨budget + 1, ?_⟩
    rw [loop_of_again hrun, hloop, List.map_append, ← List.append_assoc]
    rfl

/-- **What `crawl` returns, and when**: the pages of a walk from the seed. -/
theorem crawl_iff {web : Web} {db : Db} {limit : Int} {url : Str} {x x' : World}
    {out : List Crawler} :
    (∃ budget, crawl web db budget limit url x = .ok (some out) x') ↔
      x' = x ∧ ∃ us, Walk (admissible web db x.stores) (wrap32 (limit - 1)).toNat url us ∧
        out = (url :: us).map web.page := by
  have hstart : (⟨[web.page url], 0⟩ : Visit).Ok web url := ⟨rfl, rfl⟩
  have hremaining : remaining (wrap32 (limit - 1)) 0 = (wrap32 (limit - 1)).toNat := by
    unfold remaining
    omega
  constructor
  · rintro ⟨budget, hrun⟩
    obtain ⟨hx, us, hwalk, rfl⟩ := walk_of_loop hstart hrun
    rw [hremaining] at hwalk
    exact ⟨hx, us, hwalk, rfl⟩
  · rintro ⟨rfl, us, hwalk, rfl⟩
    exact loop_of_walk hwalk hstart hremaining.symm (Or.inl rfl)

/-! ## Exactly when a crawl ends -/

/-- **A crawl ends just when its walk does.**  For every web, seed, store and limit: `crawl`
    returns after finitely many fetches if and only if, going from the seed to the last admissible
    link of each page, no page without an admissible link is met before `limit - 1` links are
    collected. -/
theorem crawl_returns_iff (web : Web) (db : Db) (limit : Int) (url : Str) (x : World) :
    (∃ budget out x', crawl web db budget limit url x = .ok (some out) x') ↔
      ∃ us, Walk (admissible web db x.stores) (wrap32 (limit - 1)).toNat url us := by
  constructor
  · rintro ⟨budget, out, x', hrun⟩
    obtain ⟨-, us, hwalk, -⟩ := crawl_iff.mp ⟨budget, hrun⟩
    exact ⟨us, hwalk⟩
  · rintro ⟨us, hwalk⟩
    obtain ⟨budget, hrun⟩ := crawl_iff.mpr ⟨rfl, us, hwalk, rfl⟩
    exact ⟨budget, _, x, hrun⟩

/-- A web of pages without links. -/
def deadEnds : Web := ⟨fun url => Crawler.page url [] [] [] [] [], fun _ => rfl⟩

/-- A seed without links is expanded forever. -/
theorem crawl_never_returns :
    ¬ ∀ (web : Web) (db : Db) (limit : Int) (url : Str) (x : World),
      (∀ u, ∃ links, vectorGet (web.page u).parser 4 = .ok links) →
      ∃ budget out x', crawl web db budget limit url x = .ok (some out) x' := by
  intro h
  obtain ⟨budget, out, x', hrun⟩ := h deadEnds .forwardIndex 10 "https://www.cse.ust.hk/".toList
    ⟨Stores.empty, []⟩ (fun u => ⟨[], rfl⟩)
  obtain ⟨-, us, hwalk, -⟩ := crawl_iff.mp ⟨budget, hrun⟩
  have hbound : (wrap32 (10 - 1)).toNat = 9 := by decide
  rw [hbound] at hwalk
  cases hwalk with
  | step hn hlast => cases hlast

end Crawler

end SearchEngine
