/-
  `Crawler.crawlers`: the other way to collect pages.

  Here the page to expand has a variable `k` of its own, so pages are expanded in the order in
  which they were collected: breadth first.  But `i` still counts two things: it moves with every
  link AND once more behind every page, so each page that is expanded takes one link off the
  budget (`Flood`).  No link is ever rejected.  A link of the host that has an entry in the store
  is meant to be skipped unless its date has changed, but the test compares two fresh strings by
  reference, and before that it cuts ten characters out of the entry: what is no record with an
  early first separator throws.

  Every round moves `i`, so unlike `crawl` the method always ends (`loop_ends`).
-/
import SearchEngine.CrawlResult
import SearchEngine.Provenance
import Mathlib.Tactic.Common

namespace SearchEngine

open Text Numeral Effect NumberedMap

namespace Crawler

/-! ## The method -/

/-- `s.substring(from, to)`, counted in characters.  Java counts UTF-16 units, two for a character
    beyond the first 65536; the texts that are cut here are dates and what stands before them. -/
def substring (s : Str) (b e : Int) : Except Exn Str :=
  if 0 ≤ b ∧ b ≤ e ∧ e ≤ s.length then .ok ((s.take e.toNat).drop b.toNat)
  else .error .stringIndexOutOfBounds

/-- `data.indexOf(";;;", 0)`, a missing one being `-1`; in characters, as above. -/
def firstSeparator (data : Str) : Int :=
  match indexOf ";;;".toList data with
  | some n => n
  | none => -1

/-- What is done about a link of the host with an entry: its page is parsed for the date, and the
    date in the entry is cut out.  The two are compared by reference, so they always differ. -/
def compareDates (web : Web) (link data : Str) : Except Exn Unit := do
  let date ← vectorGet (web.page link).parser 1
  let _ ← substring data (firstSeparator data) 10
  let _ ← vectorGet date 0

/-- The vector `crawlers` and the variables `i` and `k`. -/
structure Tour where
  crawlers : List Crawler
  i : Nat
  k : Nat

variable (web : Web) (db : Db) (num : Int)

/-- `crawlers.add(…)`, and `i++`. -/
def Tour.add (t : Tour) (link : Str) : Tour := ⟨t.crawlers ++ [web.page link], t.i + 1, t.k⟩

/-- The body of the loop over the links, with the second half of its guard in front. -/
def collectLink (t : Tour) (link : Str) : IndexM Tour :=
  if (t.i : Int) < num then do
    match ← db.get link with
    | some data =>
      if contains link host then do
        lift (compareDates web link data)
        pure (t.add web link)
      else pure (t.add web link)
    | none => pure (t.add web link)
  else pure t

/-- One round of the outer loop. -/
def crawlersRound (t : Tour) : IndexM (Round Tour (List Crawler)) :=
  if (t.i : Int) < num then do
    let c ← lift (vectorGet t.crawlers t.k)
    let links ← lift (vectorGet c.parser 4)
    let t ← links.foldlM (collectLink web db num) t
    pure (.again ⟨t.crawlers, t.i + 1, t.k + 1⟩)
  else pure (.done t.crawlers)

/-- `crawlers(num, document)` on the page at `url`, with a budget of rounds; `db` is the store that
    the caller passes in as `document`. -/
def crawlers (budget : Nat) (num : Int) (url : Str) : IndexM (Option (List Crawler)) :=
  loop (crawlersRound web db (wrap32 (num - 1))) budget ⟨[web.page url], 0, 0⟩

/-- The link can be collected: the test does not throw. -/
def Fits (s : Stores) (link : Str) : Prop :=
  ∀ data : Str, (s db)[link]? = some data → contains link host = true →
    compareDates web link data = .ok ()

end Crawler

/-- Take a page off the queue and put its links there, until `n` is used up: one for each link, and
    one for the page. -/
inductive Flood (links : Str → Option (List Str)) (Fits : Str → Prop) :
    Nat → List Str → List Str → Prop where
  | enough (queue : List Str) : Flood links Fits 0 queue []
  | step {n : Nat} {u : Str} {queue ls us : List Str} (hn : 0 < n) (h : links u = some ls)
      (hfits : ∀ l ∈ ls.take n, Fits l)
      (rest : Flood links Fits (n - (ls.length + 1)) (queue ++ ls.take n) us) :
      Flood links Fits n (u :: queue) (ls.take n ++ us)

namespace Crawler

variable {web : Web} {db : Db} {num : Int}

/-! ## The loop over the links -/

theorem collectLink_of_full {t : Tour} {link : Str} {x : World} (h : ¬ (t.i : Int) < num) :
    collectLink web db num t link x = .ok t x := by
  rw [collectLink, if_neg h]
  rfl

/-- A link is added, unless the test throws. -/
theorem collectLink_cases {t : Tour} (link : Str) (x : World) (h : (t.i : Int) < num) :
    (Fits web db x.stores link ∧ collectLink web db num t link x = .ok (t.add web link) x) ∨
    (¬ Fits web db x.stores link ∧ ∃ e, collectLink web db num t link x = .error e x) := by
  have hget : db.get link x = .ok (x.stores db)[link]? x := rfl
  rw [collectLink, if_pos h, bind_run_ok hget]
  unfold Fits
  cases (x.stores db)[link]? with
  | none =>
    refine Or.inl ⟨fun data hdata => ?_, rfl⟩
    cases hdata
  | some data =>
    cases hhost : contains link host with
    | false =>
      refine Or.inl ⟨fun data _ htrue => ?_, rfl⟩
      cases htrue
    | true =>
      show (_ ∧ (if true = true then _ else _ : IndexM Tour) x = _) ∨ _
      rw [if_pos rfl]
      cases hdates : compareDates web link data with
      | ok u =>
        refine Or.inl ⟨fun data' hdata' _ => ?_, rfl⟩
        rw [← Option.some.inj hdata', hdates]
      | error e =>
        refine Or.inr ⟨fun hfits => ?_, e, lift_run_error hdates _ x⟩
        rw [hfits data rfl rfl] at hdates
        cases hdates

/-- The loop collects as many links as the bound allows, or throws at one of them. -/
theorem foldlM_collectLink (web : Web) (db : Db) (x : World) :
    ∀ (links : List Str) (t : Tour),
      ((∀ l ∈ links.take (remaining num t.i), Fits web db x.stores l) ∧
        links.foldlM (collectLink web db num) t x
          = .ok ⟨t.crawlers ++ (links.take (remaining num t.i)).map web.page,
              t.i + (links.take (remaining num t.i)).length, t.k⟩ x) ∨
      ((∃ l ∈ links.take (remaining num t.i), ¬ Fits web db x.stores l) ∧
        ∃ e, links.foldlM (collectLink web db num) t x = .error e x)
  | [], t => by
    refine Or.inl ⟨by simp, ?_⟩
    simp [pure, EStateM.pure]
  | link :: links, t => by
    rw [List.foldlM_cons]
    by_cases hi : (t.i : Int) < num
    · obtain ⟨m, hm⟩ : ∃ m, remaining num t.i = m + 1 :=
        Nat.exists_eq_add_one.mpr (remaining_pos_iff.mpr hi)
      have hm' : remaining num (t.add web link).i = m := by
        show remaining num (t.i + 1) = m
        rw [remaining_add, hm]
        omega
      rw [hm, List.take_succ_cons]
      rcases collectLink_cases link x hi with ⟨hfits, hrun⟩ | ⟨hnot, e, hrun⟩
      · rw [bind_run_ok hrun]
        rcases foldlM_collectLink web db x links (t.add web link) with
          ⟨hall, hrest⟩ | ⟨⟨l, hl, hno⟩, hrest⟩
        · rw [hm'] at hall hrest
          refine Or.inl ⟨fun l hl => ?_, ?_⟩
          · rcases List.mem_cons.mp hl with rfl | hl
            · exact hfits
            · exact hall l hl
          · rw [hrest]
            simp only [Tour.add, List.append_assoc, List.singleton_append, List.map_cons,
              List.length_cons, EStateM.Result.ok.injEq, Tour.mk.injEq, true_and, and_true]
            omega
        · rw [hm'] at hl
          exact Or.inr ⟨⟨l, List.mem_cons_of_mem link hl, hno⟩, hrest⟩
      · exact Or.inr ⟨⟨link, List.mem_cons_self, hnot⟩, e, bind_run_error hrun _⟩
    · have hzero : remaining num t.i = 0 := by
        rw [← remaining_pos_iff] at hi
        omega
      rw [bind_run_ok (collectLink_of_full hi)]
      have ih := foldlM_collectLink web db x links t
      rw [hzero, List.take_zero] at ih ⊢
      exact ih

/-! ## One round -/

/-- The links of a page, if they were parsed. -/
def parsedLinks (web : Web) (u : Str) : Option (List Str) := (web.page u).parser[4]?

/-- The pages that are still to be expanded are those at the URLs of the queue. -/
def Tour.Ok (web : Web) (t : Tour) (queue : List Str) : Prop :=
  t.k ≤ t.crawlers.length ∧ t.crawlers.drop t.k = queue.map web.page

theorem crawlersRound_of_full {t : Tour} {x : World} (h : remaining num t.i = 0) :
    crawlersRound web db num t x = .ok (.done t.crawlers) x := by
  have hi : ¬ (t.i : Int) < num := by
    rw [← remaining_pos_iff]
    omega
  rw [crawlersRound, if_neg hi]
  rfl

/-- With nothing left to expand, the vector is read behind its end. -/
theorem crawlersRound_of_empty (db : Db) (x : World) {t : Tour} (ht : t.Ok web [])
    (h : 0 < remaining num t.i) : ∃ e, crawlersRound web db num t x = .error e x := by
  have hget : vectorGet t.crawlers t.k = .error .arrayIndexOutOfBounds := by
    have hlen : t.crawlers.length ≤ t.k := List.drop_eq_nil_iff.mp ht.2
    rw [vectorGet, List.getElem?_eq_none hlen]
  rw [crawlersRound, if_pos (remaining_pos_iff.mp h)]
  exact ⟨_, lift_run_error hget _ x⟩

/-- The variables behind a round that expands a page with these links. -/
def Tour.next (web : Web) (num : Int) (t : Tour) (ls : List Str) : Tour :=
  ⟨t.crawlers ++ (ls.take (remaining num t.i)).map web.page,
    t.i + (ls.take (remaining num t.i)).length + 1, t.k + 1⟩

/-- A round expands the first page of the queue, or throws. -/
theorem crawlersRound_cases (db : Db) (x : World) {t : Tour} {u : Str} {queue : List Str}
    (ht : t.Ok web (u :: queue)) (h : 0 < remaining num t.i) :
    (∃ ls, parsedLinks web u = some ls ∧
      (∀ l ∈ ls.take (remaining num t.i), Fits web db x.stores l) ∧
      crawlersRound web db num t x = .ok (.again (t.next web num ls)) x) ∨
    ((∀ ls, parsedLinks web u = some ls →
        ¬ ∀ l ∈ ls.take (remaining num t.i), Fits web db x.stores l) ∧
      ∃ e, crawlersRound web db num t x = .error e x) := by
  have hcurrent : vectorGet t.crawlers t.k = .ok (web.page u) := by
    have hget : (t.crawlers.drop t.k)[0]? = some (web.page u) := by rw [ht.2]; rfl
    rw [List.getElem?_drop, Nat.add_zero] at hget
    exact vectorGet_ok.mpr hget
  rw [crawlersRound, if_pos (remaining_pos_iff.mp h), lift_run_ok hcurrent]
  unfold parsedLinks
  cases hparse : vectorGet (web.page u).parser 4 with
  | error e =>
    refine Or.inr ⟨fun ls hls => ?_, e, rfl⟩
    rw [vectorGet_ok.mpr hls] at hparse
    cases hparse
  | ok ls =>
    have hls := vectorGet_ok.mp hparse
    rcases foldlM_collectLink web db x ls t with
      ⟨hall, hrun⟩ | ⟨⟨l, hl, hno⟩, e, hrun⟩
    · refine Or.inl ⟨ls, hls, hall, ?_⟩
      exact bind_run_ok hrun _
    · refine Or.inr ⟨fun ls' hls' hall => ?_, e, ?_⟩
      · obtain rfl : ls = ls' := Option.some.inj (hls.symm.trans hls')
        exact hno (hall l hl)
      · exact bind_run_error hrun _

theorem Tour.Ok.next {t : Tour} {u : Str} {queue : List Str} (ht : t.Ok web (u :: queue))
    (ls : List Str) : (t.next web num ls).Ok web (queue ++ ls.take (remaining num t.i)) := by
  have hlt : t.k < t.crawlers.length := by
    have hlen := congrArg List.length ht.2
    rw [List.length_drop, List.length_map, List.length_cons] at hlen
    omega
  constructor
  · show t.k + 1 ≤ (t.crawlers ++ List.map _ _).length
    rw [List.length_append]
    omega
  · show (t.crawlers ++ List.map _ _).drop (t.k + 1) = _
    rw [List.drop_append_of_le_length (by omega), ← List.tail_drop, ht.2, List.map_cons,
      List.tail_cons, List.map_append]

theorem remaining_tour_next {t : Tour} {ls : List Str} :
    remaining num (t.next web num ls).i = remaining num t.i - (ls.length + 1) := by
  show remaining num (t.i + _ + 1) = _
  rw [Nat.add_assoc, remaining_add, List.length_take]
  omega

/-! ## The whole method -/

/-- Every round moves `i`, so a budget of one round more than the bound allows is enough. -/
theorem loop_ends (db : Db) (x x' : World) :
    ∀ {budget : Nat} {t : Tour} {queue : List Str}, t.Ok web queue →
      remaining num t.i < budget → loop (crawlersRound web db num) budget t x ≠ .ok none x'
  | 0, t, queue, _, h => by omega
  | budget + 1, t, queue, ht, h => by
    by_cases hfull : remaining num t.i = 0
    · rw [loop_of_done (crawlersRound_of_full hfull)]
      simp
    · have hpos : 0 < remaining num t.i := by omega
      cases queue with
      | nil =>
        obtain ⟨e, hrun⟩ := crawlersRound_of_empty db x ht hpos
        rw [loop_of_error hrun]
        simp
      | cons u queue =>
        rcases crawlersRound_cases db x ht hpos with ⟨ls, -, -, hrun⟩ | ⟨-, e, hrun⟩
        · rw [loop_of_again hrun]
          refine loop_ends db x x' (ht.next ls) ?_
          rw [remaining_tour_next]
          omega
        · rw [loop_of_error hrun]
          simp

/-- A loop that leaves has flooded. -/
theorem flood_of_loop {x x' : World} {out : List Crawler} :
    ∀ {budget : Nat} {t : Tour} {queue : List Str}, t.Ok web queue →
      loop (crawlersRound web db num) budget t x = .ok (some out) x' →
      x' = x ∧ ∃ us, Flood (parsedLinks web) (Fits web db x.stores) (remaining num t.i) queue us ∧
        out = t.crawlers ++ us.map web.page
  | 0, t, queue, _, h => by cases h
  | budget + 1, t, queue, ht, h => by
    by_cases hfull : remaining num t.i = 0
    · rw [loop_of_done (crawlersRound_of_full hfull)] at h
      cases h
      refine ⟨rfl, [], ?_, by simp⟩
      rw [hfull]
      exact .enough queue
    · have hpos : 0 < remaining num t.i := by omega
      cases queue with
      | nil =>
        obtain ⟨e, hrun⟩ := crawlersRound_of_empty db x ht hpos
        rw [loop_of_error hrun] at h
        cases h
      | cons u queue =>
        rcases crawlersRound_cases db x ht hpos with ⟨ls, hls, hfits, hrun⟩ | ⟨-, e, hrun⟩
        · rw [loop_of_again hrun] at h
          obtain ⟨hx, us, hflood, rfl⟩ := flood_of_loop (ht.next ls) h
          rw [remaining_tour_next] at hflood
          refine ⟨hx, _, .step hpos hls hfits hflood, ?_⟩
          rw [List.map_append, ← List.append_assoc]
          rfl
        · rw [loop_of_error hrun] at h
          cases h

/-- A flood is run through by the loop, within the same budget. -/
theorem loop_of_flood {x : World} {n : Nat} {queue us : List Str}
    (h : Flood (parsedLinks web) (Fits web db x.stores) n queue us) :
    ∀ {t : Tour} {budget : Nat}, t.Ok web queue → n = remaining num t.i → n < budget →
      loop (crawlersRound web db num) budget t x
        = .ok (some (t.crawlers ++ us.map web.page)) x := by
  induction h with
  | enough queue =>
    intro t budget ht hn hbudget
    obtain ⟨b, rfl⟩ : ∃ b, budget = b + 1 := Nat.exists_eq_add_one.mpr (by omega)
    rw [loop_of_done (crawlersRound_of_full hn.symm)]
    simp
  | @step n u queue ls us hpos hls hfits _ ih =>
    rintro t budget ht rfl hbudget
    obtain ⟨b, rfl⟩ : ∃ b, budget = b + 1 := Nat.exists_eq_add_one.mpr (by omega)
    rcases crawlersRound_cases db x ht hpos with ⟨ls', hls', -, hrun⟩ | ⟨hnot, -⟩
    · obtain rfl : ls = ls' := Option.some.inj (hls.symm.trans hls')
      rw [loop_of_again hrun, ih (ht.next ls) remaining_tour_next.symm (by omega),
        List.map_append, ← List.append_assoc]
      rfl
    · exact absurd hfits (hnot ls hls)

end Crawler

/-! ## The shape of a flood -/

/-- What it takes to expand these pages: one for each link, and one for each page. -/
def cost (links : Str → List Str) (us : List Str) : Nat :=
  (us.map (fun u => (links u).length + 1)).sum

theorem cost_cons (links : Str → List Str) (u : Str) (us : List Str) :
    cost links (u :: us) = (links u).length + 1 + cost links us := by
  rw [cost, List.map_cons, List.sum_cons, cost]

theorem length_le_cost (links : Str → List Str) :
    ∀ us : List Str, us.length ≤ cost links us
  | [] => Nat.le_refl 0
  | u :: us => by
    have ih := length_le_cost links us
    rw [cost_cons, List.length_cons]
    omega

/-- The pages that a flood expands, by their number `m`: the first `m` of all pages, just as many as
    the budget pays for. -/
structure Expands (links : Str → Option (List Str)) (n m : Nat) (all : List Str) : Prop where
  le : m ≤ all.length
  parsed : ∀ u ∈ all.take m, ∃ ls, links u = some ls
  enough : n ≤ cost (fun u => (links u).getD []) (all.take m)
  least : ∀ m' < m, cost (fun u => (links u).getD []) (all.take m') < n

/-- Behind the first page, the rest of the pages is expanded with the rest of the budget. -/
theorem Expands.cons {links : Str → Option (List Str)} {n m : Nat} {u : Str} {all ls : List Str}
    (hn : 0 < n) (hu : links u = some ls) (h : Expands links (n - (ls.length + 1)) m all) :
    Expands links n (m + 1) (u :: all) := by
  have hlength : ((links u).getD []).length = ls.length := by rw [hu]; rfl
  refine ⟨by rw [List.length_cons]; exact Nat.succ_le_succ h.le, fun v hv => ?_, ?_,
    fun m' hm' => ?_⟩
  · rw [List.take_succ_cons] at hv
    rcases List.mem_cons.mp hv with rfl | hv
    · exact ⟨ls, hu⟩
    · exact h.parsed v hv
  · have henough := h.enough
    rw [List.take_succ_cons, cost_cons, hlength]
    omega
  · cases m' with
    | zero => exact hn
    | succ m' =>
      have hleast := h.least m' (by omega)
      rw [List.take_succ_cons, cost_cons, hlength]
      omega

/-- With budget left, at most that many pages are expanded. -/
theorem Expands.le_budget {links : Str → Option (List Str)} {n m : Nat} {all : List Str}
    (h : Expands links n m all) : m ≤ n := by
  cases m with
  | zero => exact Nat.zero_le n
  | succ m =>
    have hleast := h.least m (by omega)
    have hlen := length_le_cost (fun u => (links u).getD []) (all.take m)
    have hle := h.le
    rw [List.length_take] at hlen
    omega

/-- **What is collected are the links of the pages that are expanded**, in their order, less one
    for each page that is expanded before the last. -/
theorem Flood.shape {links : Str → Option (List Str)} {Fits : Str → Prop} {n : Nat}
    {queue us : List Str} (h : Flood links Fits n queue us) :
    (∀ u ∈ us, Fits u) ∧ ∃ m, Expands links n m (queue ++ us) ∧
      us = (((queue ++ us).take m).flatMap (fun u => (links u).getD [])).take (n + 1 - m) := by
  induction h with
  | enough queue => exact ⟨by simp, 0, ⟨by simp, by simp, by simp [cost], by simp⟩, by simp⟩
  | @step n u queue ls us hn hu hfits _ ih =>
    obtain ⟨hrest, m, hexp, hus⟩ := ih
    have hall : u :: queue ++ (ls.take n ++ us) = u :: (queue ++ ls.take n ++ us) := by simp
    refine ⟨fun v hv => ?_, m + 1, ?_, ?_⟩
    · rcases List.mem_append.mp hv with hv | hv
      · exact hfits v hv
      · exact hrest v hv
    · rw [hall]
      exact hexp.cons hn hu
    · rw [hall, List.take_succ_cons, List.flatMap_cons, hu, Option.getD_some,
        List.take_append]
      generalize hflat : ((queue ++ ls.take n ++ us).take m).flatMap
        (fun u => (links u).getD []) = flat at hus ⊢
      have hle := hexp.le_budget
      by_cases hlast : n ≤ ls.length + 1
      · -- the budget ends within this page
        have hm : m = 0 := by omega
        subst hm
        have hnil : flat = [] := by
          rw [← hflat]
          simp
        rw [hus, hnil, List.take_nil, List.take_nil, Nat.zero_add, Nat.add_sub_cancel]
      · have hfull : ls.take n = ls.take (n + 1 - (m + 1)) := by
          rw [List.take_of_length_le (by omega), List.take_of_length_le (by omega)]
        have hbudget : n - (ls.length + 1) + 1 - m = n + 1 - (m + 1) - ls.length := by omega
        rw [hus, hfull, hbudget]

namespace Crawler

variable {web : Web} {db : Db} {num : Int}

/-! ## What the method returns -/

/-- The budget of a call with `num` pages. -/
theorem remaining_start (h1 : 1 ≤ num) (hint : num < 2 ^ 31) :
    remaining (wrap32 (num - 1)) 0 = (num - 1).toNat := by
  rw [wrap32_of_fits (by omega) (by omega)]
  unfold remaining
  omega

theorem tour_start (web : Web) (url : Str) : (⟨[web.page url], 0, 0⟩ : Tour).Ok web [url] :=
  ⟨Nat.zero_le _, rfl⟩

/-- What `crawlers` returns: the seed, and what a flood from there collects. -/
theorem crawlers_iff {url : Str} {x : World} (h1 : 1 ≤ num) (hint : num < 2 ^ 31) {budget : Nat}
    (hbudget : num ≤ budget) (out : List Crawler) :
    (∃ x', crawlers web db budget num url x = .ok (some out) x') ↔
      ∃ us, Flood (parsedLinks web) (Fits web db x.stores) (num - 1).toNat [url] us ∧
        out = (url :: us).map web.page := by
  rw [← remaining_start h1 hint]
  constructor
  · rintro ⟨x', hrun⟩
    obtain ⟨-, us, hflood, hout⟩ := flood_of_loop (tour_start web url) hrun
    exact ⟨us, hflood, hout⟩
  · rintro ⟨us, hflood, rfl⟩
    have hlt : remaining (wrap32 (num - 1)) 0 < budget := by
      rw [remaining_start h1 hint]
      omega
    exact ⟨x, loop_of_flood hflood (tour_start web url) rfl hlt⟩

/-- **When `crawlers` returns.**  For every web, seed and store and every `int` number from `1` on:
    `num` rounds are enough for the method to return or to throw, and it returns if and only if its
    flood goes through: until `num - 1` is used up, by one for each link and one for each page
    expanded, there is a page left to expand, its links were parsed, and the test of no link
    throws. -/
theorem crawlers_returns_iff (web : Web) (db : Db) (num : Int) (url : Str) (x : World)
    (h1 : 1 ≤ num) (hint : num < 2 ^ 31) (budget : Nat) (hbudget : num ≤ budget) :
    (∀ x', crawlers web db budget num url x ≠ .ok none x') ∧
    ((∃ out x', crawlers web db budget num url x = .ok (some out) x') ↔
      ∃ us, Flood (parsedLinks web) (Fits web db x.stores) (num - 1).toNat [url] us) := by
  have hlt : remaining (wrap32 (num - 1)) 0 < budget := by
    rw [remaining_start h1 hint]
    omega
  refine ⟨fun x' => loop_ends db x x' (tour_start web url) hlt, ?_⟩
  simp only [crawlers_iff h1 hint hbudget]
  constructor
  · rintro ⟨out, us, hflood, -⟩
    exact ⟨us, hflood⟩
  · rintro ⟨us, hflood⟩
    exact ⟨_, us, hflood, rfl⟩

/-- Three pages of a web in which every page links to the two below it. -/
theorem descending_flooded (db : Db) : Flood (parsedLinks descending)
    (Fits descending db Stores.empty) 3 [home] [home ++ ['x'], home ++ ['y']] := by
  refine Flood.step (by decide) (show _ = some [home ++ ['x'], home ++ ['y']] from rfl) ?_
    (.enough _)
  intro l _ data hdata
  rw [show (Stores.empty db)[l]? = none from Std.ExtTreeMap.getElem?_empty] at hdata
  cases hdata

theorem crawlers_return_descending :
    ∃ out x', crawlers descending .document 4 4 home ⟨Stores.empty, []⟩ = .ok (some out) x' :=
  (crawlers_returns_iff descending .document 4 home ⟨Stores.empty, []⟩ (by decide) (by decide) 4
    (by decide)).2.mpr ⟨_, descending_flooded .document⟩

/-- What it takes to expand these pages. -/
def expandCost (cs : List Crawler) : Nat := (cs.map (fun c => c.links.length + 1)).sum

theorem expandCost_map (web : Web) (us : List Str) :
    expandCost (us.map web.page) = cost (fun u => (parsedLinks web u).getD []) us := by
  rw [expandCost, List.map_map]
  rfl

/-- **The pages come breadth first.**  If `crawlers` returns on an `int` number from `1` on, then
    for some number `m` of pages expanded: the first `m` pages of the result were parsed, and the
    result is the seed and the first `num - m` of their links, page by page; `m` is the least number
    of pages such that their links and the pages themselves together are `num - 1` or more. -/
theorem crawlers_breadth_first (web : Web) (db : Db) (num : Int) (url : Str) (x x' : World)
    (h1 : 1 ≤ num) (hint : num < 2 ^ 31) (budget : Nat) (out : List Crawler)
    (hrun : crawlers web db budget num url x = .ok (some out) x') :
    ∃ m ≤ out.length, (∀ c ∈ out.take m, ∃ links, vectorGet c.parser 4 = .ok links) ∧
      out = web.page url ::
        (((out.take m).flatMap Crawler.links).take (num - m).toNat).map web.page ∧
      num - 1 ≤ expandCost (out.take m) ∧ ∀ m' < m, expandCost (out.take m') < num - 1 := by
  obtain ⟨-, us, hflood, hout⟩ := flood_of_loop (tour_start web url) hrun
  rw [show remaining _ (Tour.i ⟨[web.page url], 0, 0⟩) = (num - 1).toNat from
    remaining_start h1 hint] at hflood
  obtain ⟨-, m, hexp, hus⟩ := hflood.shape
  replace hout : out = ([url] ++ us).map web.page := hout
  subst hout
  have hbudget : (num - 1).toNat + 1 - m = (num - m).toNat := by omega
  refine ⟨m, by rw [List.length_map]; exact hexp.le, fun c hc => ?_, ?_, ?_, fun m' hm' => ?_⟩
  · rw [← List.map_take] at hc
    obtain ⟨u, hu, rfl⟩ := List.mem_map.mp hc
    obtain ⟨ls, hls⟩ := hexp.parsed u hu
    exact ⟨ls, vectorGet_ok.mpr hls⟩
  · have hlinks : ((([url] ++ us).map web.page).take m).flatMap Crawler.links
        = (([url] ++ us).take m).flatMap (fun u => (parsedLinks web u).getD []) := by
      rw [← List.map_take, List.flatMap_map]
      rfl
    rw [hlinks, ← hbudget, ← hus]
    rfl
  · rw [← List.map_take, expandCost_map]
    have henough := hexp.enough
    omega
  · rw [← List.map_take, expandCost_map]
    have hleast := hexp.least m' hm'
    omega

theorem breadth_first_descending :
    ∃ out x', crawlers descending .document 4 4 home ⟨Stores.empty, []⟩ = .ok (some out) x' ∧
      ∃ m ≤ out.length, (4 : Int) - 1 ≤ expandCost (out.take m) := by
  obtain ⟨x', hrun⟩ : ∃ x', crawlers descending .document 4 4 home ⟨Stores.empty, []⟩
      = .ok (some ([home, home ++ ['x'], home ++ ['y']].map descending.page)) x' :=
    (crawlers_iff (by decide) (by decide) (by decide) _).mpr
      ⟨_, descending_flooded .document, rfl⟩
  obtain ⟨m, hm, -, -, hcost, -⟩ := crawlers_breadth_first descending .document 4 home
    ⟨Stores.empty, []⟩ x' (by decide) (by decide) 4 _ hrun
  exact ⟨_, x', hrun, m, hm, hcost⟩

/-! ## On the stores of a run -/

variable {E : Platform} {run : List Attempt} {s : Stores}

/-- An ID is no record: the test throws for every link of the host that has one. -/
theorem fits_document_iff (hs : Sourced E run s) (web : Web) (link : Str) :
    Fits web .document s link ↔ ¬ (contains link host = true ∧ link ∈ s .document) := by
  constructor
  · rintro hfits ⟨hhost, hmem⟩
    obtain ⟨id, hid⟩ := mem_iff_get.mp hmem
    have hdigits : IsDigits id := hs.ok.isDigits (t := .page) ⟨link, hid⟩
    have hnone : indexOf ";;;".toList id = none := by
      rw [indexOf_eq_none_iff]
      rintro ⟨pre, post, rfl⟩
      exact hdigits.not_mem (c := ';') (by decide) (by simp)
    have hsub : substring id (firstSeparator id) 10 = .error .stringIndexOutOfBounds := by
      rw [firstSeparator, hnone, substring]
      exact if_neg (fun h => absurd h.1 (by decide))
    have hrun := hfits id hid hhost
    rw [compareDates, hsub] at hrun
    obtain ⟨date, -, hrest⟩ := except_bind_ok.mp hrun
    cases hrest
  · intro hnot data hdata hhost
    exact absurd ⟨hhost, mem_iff_get.mpr ⟨data, hdata⟩⟩ hnot

/-- The forward index is keyed by IDs: no link of the host is a key. -/
theorem fits_forwardIndex (hs : Sourced E run s) (web : Web) (link : Str) :
    Fits web .forwardIndex s link := by
  intro data hdata hhost
  obtain ⟨a, -, c, -, hid, -⟩ := hs.records link data hdata
  have hdigits : IsDigits link := hs.ok.isDigits (t := .page) ⟨c.url, hid⟩
  exact absurd (mem_of_contains hhost 'c' (by decide)) (hdigits.not_mem (by decide))

/-- **What the store does for the crawl.**  After any run of the indexers from empty stores, and for
    an `int` number from `1` on: given the table of page IDs, `crawlers` returns no page of the host
    that has an ID already, except perhaps for the seed; it throws instead, at the first one it
    comes to.  Given the forward index, it returns what it returns with empty stores, whatever was
    indexed. -/
theorem crawlers_on_indexed (E : Platform) (run : List Attempt) (faults : List Bool) (web : Web)
    (num : Int) (url : Str) (h1 : 1 ≤ num) (hint : num < 2 ^ 31) (budget : Nat)
    (hbudget : num ≤ budget) :
    let s := runAll E run Stores.empty
    (∀ out x', crawlers web .document budget num url ⟨s, faults⟩ = .ok (some out) x' →
      ∀ c ∈ out.tail, contains c.url host = true → c.url ∉ s .document) ∧
    ∀ out, (∃ x', crawlers web .forwardIndex budget num url ⟨s, faults⟩ = .ok (some out) x') ↔
      ∃ x', crawlers web .forwardIndex budget num url ⟨Stores.empty, faults⟩
        = .ok (some out) x' := by
  intro s
  have hs : Sourced E run s := sourced_runAll E run
  have hempty : Sourced E run Stores.empty := sourced_empty E run
  constructor
  · intro out x' hrun c hc hhost hmem
    obtain ⟨us, hflood, rfl⟩ := (crawlers_iff h1 hint hbudget out).mp ⟨x', hrun⟩
    obtain ⟨u, hu, rfl⟩ := List.mem_map.mp hc
    have hfits := hflood.shape.1 u hu
    rw [web.page_url] at hhost hmem
    exact (fits_document_iff hs web u).mp hfits ⟨hhost, hmem⟩
  · have hall : ∀ {s : Stores}, Sourced E run s → Fits web .forwardIndex s = fun _ => True :=
      fun hs => funext (fun link => eq_true (fits_forwardIndex hs web link))
    intro out
    rw [crawlers_iff h1 hint hbudget, crawlers_iff h1 hint hbudget, hall hs, hall hempty]

theorem crawl_on_indexed_home :
    let s := runAll asciiPlatform [⟨.documentAddEntryString home, []⟩] Stores.empty
    ∀ out x', crawlers descending .document 4 4 home ⟨s, []⟩ = .ok (some out) x' →
      ∀ c ∈ out.tail, contains c.url host = true → c.url ∉ s .document :=
  (crawlers_on_indexed asciiPlatform [⟨.documentAddEntryString home, []⟩] [] descending 4 home
    (by decide) (by decide) 4 (by decide)).1

end Crawler

end SearchEngine
