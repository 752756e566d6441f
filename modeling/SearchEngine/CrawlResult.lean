/-
  What `Crawler.crawl` returns, and how the pages it returns are fetched.

  By `crawl_iff` the result is the seed and the links of a `Walk`, so its shape is that of walks:
  as many links as were asked for (`Walk.length`), each a link of a page before it
  (`Walk.exists_parent`).

  A candidate is tested against the STORE, never against the vector, so a page can be collected
  again as soon as a page expanded later links back to it.  `BackLink` says so in terms of the
  links alone, and `Walk.nodup_iff` that nothing else brings a repetition about.

  Size and date of a page are asked for at `url.replaceFirst("s", "")`, which turns `https` into
  `http` and takes an `s` out of the HOST where the scheme is `http` already.
-/
import SearchEngine.Crawl
import Mathlib.Tactic.Common

namespace SearchEngine

open Text Numeral Effect

namespace Walk

variable {links : Str → List Str} {n : Nat} {u : Str} {us : List Str}

/-! ## The shape of a walk -/

theorem length (h : Walk links n u us) : us.length = n := by
  induction h with
  | enough => rfl
  | step hn hlast _ ih =>
    rw [List.length_append, List.length_take, ih]
    omega

/-- **Every link of a walk is a link of a page before it.** -/
theorem exists_parent (h : Walk links n u us) :
    ∀ {k : Nat} {w : Str}, us[k]? = some w → ∃ p ∈ u :: us.take k, w ∈ links p := by
  induction h with
  | enough => simp
  | @step n u v us hn hlast rest ih =>
    intro k w hw
    by_cases hk : k < ((links u).take n).length
    · rw [List.getElem?_append_left hk] at hw
      exact ⟨u, List.mem_cons_self, List.mem_of_mem_take (List.mem_of_getElem? hw)⟩
    · have hk : ((links u).take n).length ≤ k := by omega
      rw [List.getElem?_append_right hk] at hw
      obtain ⟨p, hp, hlink⟩ := ih hw
      refine ⟨p, List.mem_cons_of_mem u ?_, hlink⟩
      rw [List.take_append, List.take_of_length_le hk, List.mem_append]
      rcases List.mem_cons.mp hp with rfl | hp
      · -- the walk goes on, so the page it goes on from was collected
        have hrest : 0 < n - (links u).length := by
          have hlen := rest.length
          have hpos : 0 < us.length := List.length_pos_iff.mpr (by rintro rfl; simp at hw)
          omega
        rw [List.take_of_length_le (by omega)]
        exact Or.inl (List.mem_of_getLast? hlast)
      · exact Or.inr hp

/-! ## Links that lead back -/

/-- The page that is expanded in round `j`: from the first one on, the last link of each. -/
def expanded (links : Str → List Str) (u : Str) : Nat → Option Str
  | 0 => some u
  | j + 1 => (links u).getLast?.bind (fun v => expanded links v j)

/-- How many links the pages expanded before round `j` have. -/
def collected (links : Str → List Str) (u : Str) : Nat → Nat
  | 0 => 0
  | j + 1 => (links u).length + ((links u).getLast?.map (fun v => collected links v j)).getD 0

/-- Of the `n` links that are asked for, one that an expanded page contributes is in `seen`, or is
    a link of a page expanded before it. -/
def LeadsBack (links : Str → List Str) (n : Nat) (u : Str) (seen : List Str) : Prop :=
  ∃ j p w, expanded links u j = some p ∧ w ∈ (links p).take (n - collected links u j) ∧
    (w ∈ seen ∨ ∃ i q, i < j ∧ expanded links u i = some q ∧ w ∈ links q)

/-- A back link of the walk from `u`: to `u` itself, or to a link of an earlier page. -/
def BackLink (links : Str → List Str) (n : Nat) (u : Str) : Prop := LeadsBack links n u [u]

/-- The links that lead back are those of the first page into `seen`, and those of the pages from
    the second on, with the links of the first as seen. -/
theorem leadsBack_step {v : Str} (hlast : (links u).getLast? = some v) (seen : List Str) :
    LeadsBack links n u seen ↔
      (∃ w ∈ (links u).take n, w ∈ seen) ∨
      LeadsBack links (n - (links u).length) v (seen ++ (links u).take n) := by
  have hnext : ∀ j, expanded links u (j + 1) = expanded links v j := by
    intro j
    rw [expanded, hlast, Option.bind_some]
  have hcollected : ∀ j, n - collected links u (j + 1)
      = n - (links u).length - collected links v j := by
    intro j
    rw [collected, hlast, Option.map_some, Option.getD_some]
    omega
  constructor
  · rintro ⟨j, p, w, hp, hw, hback⟩
    cases j with
    | zero =>
      obtain rfl := Option.some.inj hp
      rcases hback with hseen | ⟨i, q, hi, -⟩
      · exact Or.inl ⟨w, hw, hseen⟩
      · omega
    | succ j =>
      rw [hnext] at hp
      rw [hcollected] at hw
      refine Or.inr ⟨j, p, w, hp, hw, ?_⟩
      rcases hback with hseen | ⟨i, q, hi, hq, hlink⟩
      · exact Or.inl (List.mem_append_left _ hseen)
      · cases i with
        | zero =>
          obtain rfl := Option.some.inj hq
          -- the bound lets later pages contribute, so it took all links of the first
          have hn : (links u).length ≤ n := by
            by_contra hcon
            rw [show n - (links u).length = 0 by omega, Nat.zero_sub, List.take_zero] at hw
            cases hw
          rw [List.take_of_length_le hn]
          exact Or.inl (List.mem_append_right _ hlink)
        | succ i =>
          rw [hnext] at hq
          exact Or.inr ⟨i, q, by omega, hq, hlink⟩
  · rintro (⟨w, hw, hseen⟩ | ⟨j, p, w, hp, hw, hback⟩)
    · exact ⟨0, u, w, rfl, hw, Or.inl hseen⟩
    · rw [← hnext] at hp
      rw [← hcollected] at hw
      refine ⟨j + 1, p, w, hp, hw, ?_⟩
      rcases hback with hseen | ⟨i, q, hi, hq, hlink⟩
      · rcases List.mem_append.mp hseen with hseen | hseen
        · exact Or.inl hseen
        · exact Or.inr ⟨0, u, by omega, rfl, List.mem_of_mem_take hseen⟩
      · rw [← hnext] at hq
        exact Or.inr ⟨i + 1, q, by omega, hq, hlink⟩

/-- A walk that has enough leads nowhere. -/
theorem not_leadsBack_zero (links : Str → List Str) (u : Str) (seen : List Str) :
    ¬ LeadsBack links 0 u seen := by
  rintro ⟨j, p, w, -, hw, -⟩
  rw [Nat.zero_sub, List.take_zero] at hw
  cases hw

/-- **What repeats**: with link lists that repeat nothing, what a walk adds to the pages seen
    repeats nothing either, unless it leads back. -/
theorem nodup_append_iff (h : Walk links n u us) (hlinks : ∀ u, (links u).Nodup) :
    ∀ {seen : List Str}, seen.Nodup → ((seen ++ us).Nodup ↔ ¬ LeadsBack links n u seen) := by
  induction h with
  | enough u =>
    intro seen hseen
    rw [List.append_nil]
    exact ⟨fun _ => not_leadsBack_zero links u seen, fun _ => hseen⟩
  | @step n u v us hn hlast _ ih =>
    intro seen hseen
    rw [leadsBack_step hlast, ← List.append_assoc, not_or]
    by_cases hback : ∃ w ∈ (links u).take n, w ∈ seen
    · obtain ⟨w, hw, hmem⟩ := hback
      constructor
      · intro hnodup
        have hfront := (List.nodup_append.mp hnodup).1
        exact absurd rfl ((List.nodup_append.mp hfront).2.2 w hmem w hw)
      · exact fun hno => absurd ⟨w, hw, hmem⟩ hno.1
    · have hfront : (seen ++ (links u).take n).Nodup := by
        refine List.nodup_append.mpr ⟨hseen, (hlinks u).sublist (List.take_sublist n _), ?_⟩
        rintro w hmem w' hw rfl
        exact hback ⟨w, hw, hmem⟩
      rw [ih hfront]
      exact ⟨fun hno => ⟨hback, hno⟩, fun hno => hno.2⟩

theorem nodup_iff (h : Walk links n u us) (hlinks : ∀ u, (links u).Nodup) :
    (u :: us).Nodup ↔ ¬ BackLink links n u :=
  h.nodup_append_iff hlinks (List.pairwise_singleton _ u)

end Walk

namespace Crawler

variable {web : Web} {db : Db} {bound : Int}

/-! ## No page twice -/

/-- The link lists of the web repeat nothing. -/
def DistinctLinks (web : Web) : Prop :=
  ∀ u links, vectorGet (web.page u).parser 4 = .ok links → links.Nodup

theorem nodup_admissible (h : DistinctLinks web) (s : Stores) (u : Str) :
    (admissible web db s u).Nodup := by
  unfold admissible
  cases hparse : vectorGet (web.page u).parser 4 with
  | error e => exact List.nodup_nil
  | ok links => exact (h u links hparse).filter _

theorem map_url_page (urls : List Str) : (urls.map web.page).map Crawler.url = urls := by
  rw [List.map_map]
  exact (List.map_congr_left (fun u _ => web.page_url u)).trans (List.map_id urls)

/-- **Exactly when no page is crawled twice.**  For every web whose link lists repeat nothing, every
    seed, store and limit: if `crawl` returns, the URLs it returns are pairwise distinct if and
    only if no page it expands contributes a link to the seed or to an admissible link of a page
    expanded before it. -/
theorem crawl_distinct_iff (web : Web) (db : Db) (budget : Nat) (limit : Int) (seed : Str)
    (x x' : World) (out : List Crawler) (hweb : DistinctLinks web)
    (h : crawl web db budget limit seed x = .ok (some out) x') :
    (out.map Crawler.url).Nodup ↔
      ¬ Walk.BackLink (admissible web db x.stores) (wrap32 (limit - 1)).toNat seed := by
  obtain ⟨-, us, hwalk, rfl⟩ := crawl_iff.mp ⟨budget, h⟩
  rw [map_url_page]
  exact hwalk.nodup_iff (fun u => nodup_admissible hweb x.stores u)

/-- The home page. -/
def home : Str := "https://www.cse.ust.hk/".toList

/-- A web in which every page links to two pages below it. -/
def descending : Web :=
  ⟨fun url => Crawler.page url [] [] [] [] [url ++ ['x'], url ++ ['y']], fun _ => rfl⟩

/-- Four pages of it: the home page, the two below it, and one below the last. -/
def fourBelow : List Str := [home, home ++ ['x'], home ++ ['y'], home ++ ['y', 'x']]

theorem descending_crawled :
    ∃ x', crawl descending .document 3 4 home ⟨Stores.empty, []⟩
      = .ok (some (fourBelow.map descending.page)) x' :=
  ⟨_, eq_ok_of_answer (by decide +kernel)⟩

/-- A web in which every page links to the home page. -/
def homing : Web := ⟨fun url => Crawler.page url [] [] [] [] [home], fun _ => rfl⟩

theorem crawl_distinct_descending :
    ∃ x', crawl descending .document 3 4 home ⟨Stores.empty, []⟩
        = .ok (some (fourBelow.map descending.page)) x' ∧
      ¬ Walk.BackLink (admissible descending .document Stores.empty)
        (wrap32 (4 - 1)).toNat home := by
  have hdistinct : DistinctLinks descending := by
    intro u links h
    cases h
    simp
  obtain ⟨x', hrun⟩ := descending_crawled
  refine ⟨x', hrun, ?_⟩
  refine (crawl_distinct_iff descending .document 3 4 home _ _ _ hdistinct hrun).mp ?_
  rw [map_url_page]
  decide

/-- The home page links to itself, and is collected again. -/
theorem crawl_collects_home_twice :
    ¬ ∀ (web : Web) (db : Db) (budget : Nat) (limit : Int) (seed : Str) (x x' : World)
        (out : List Crawler), DistinctLinks web →
      crawl web db budget limit seed x = .ok (some out) x' → (out.map Crawler.url).Nodup := by
  intro hall
  have hdistinct : DistinctLinks homing := by
    intro u links h
    cases h
    exact List.pairwise_singleton _ _
  have hrun := eq_ok_of_answer (a := some ([home, home].map homing.page))
    (r := crawl homing .document 2 2 home ⟨Stores.empty, []⟩) (by decide +kernel)
  have hnodup := hall homing .document 2 2 home _ _ _ hdistinct hrun
  exact absurd hnodup (by decide +kernel)

/-! ## The shape of the result -/

section Shape

variable (hparse : ∀ u, ∃ links, vectorGet (web.page u).parser 4 = .ok links)

include hparse

/-- A round never throws, and if it goes on, the next page to expand is there. -/
theorem crawlRound_ok (db : Db) (x : World) {v : Visit} {u : Str} (hv : v.Ok web u) :
    crawlRound web db bound v x = .ok (.done v.crawlers) x ∨
    ∃ v₁ u₁, crawlRound web db bound v x = .ok (.again v₁) x ∧ v₁.Ok web u₁ := by
  by_cases hfull : remaining bound v.i = 0
  · exact Or.inl (crawlRound_of_full hfull)
  · have hpos : 0 < remaining bound v.i := by omega
    obtain ⟨links, hlinks⟩ := hparse u
    refine Or.inr ⟨v.next web db bound x.stores u, ?_⟩
    by_cases hnil : admissible web db x.stores u = []
    · exact ⟨u, crawlRound_parsed db x hv hpos hlinks, by rw [Visit.next_of_nil hnil]; exact hv⟩
    · obtain ⟨w, w', -, hw', -⟩ := exists_last hnil hpos
      exact ⟨w', crawlRound_parsed db x hv hpos hlinks, hv.next hw'⟩

/-- **The invariant of the outer loop**, over any number of rounds. -/
theorem rounds_ok {n : Nat} {x x' : World} {v v' : Visit}
    (h : Rounds (crawlRound web db bound) n v x v' x') :
    ∀ {u : Str}, v.Ok web u → x' = x ∧ ∃ u', v'.Ok web u' := by
  induction h with
  | zero v x => exact fun hv => ⟨rfl, _, hv⟩
  | succ hround _ ih =>
    intro u hv
    rcases crawlRound_ok hparse db _ hv with hrun | ⟨v₁, u₁, hrun, hv₁⟩
    · rw [hrun] at hround
      cases hround
    · rw [hrun] at hround
      cases hround
      exact ih hv₁

/-- Nor does the loop, whatever its budget. -/
theorem loop_crawlRound_ok (db : Db) (x : World) :
    ∀ (budget : Nat) {v : Visit} {u : Str}, v.Ok web u →
      ∃ out, loop (crawlRound web db bound) budget v x = .ok out x
  | 0, v, u, _ => ⟨none, rfl⟩
  | budget + 1, v, u, hv => by
    rcases crawlRound_ok hparse db x hv with hrun | ⟨v₁, u₁, hrun, hv₁⟩
    · exact ⟨some v.crawlers, loop_of_done hrun⟩
    · rw [loop_of_again hrun]
      exact loop_crawlRound_ok db x budget hv₁

end Shape

/-- The vector and the variable `i` at some moment of `crawl`: between two rounds of the outer loop,
    or behind the first links of the page that is expanded. -/
def Moment (web : Web) (db : Db) (bound : Int) (seed : Str) (x : World) (v : Visit) : Prop :=
  ∃ n w x', Rounds (crawlRound web db bound) n ⟨[web.page seed], 0⟩ x w x' ∧
    (v = w ∨ ∃ c links k x'', vectorGet w.crawlers w.i = .ok c ∧ vectorGet c.parser 4 = .ok links ∧
      (links.take k).foldlM (visitLink web db bound) w x' = .ok v x'')

/-- **The shape of a crawl.**  For every web whose pages can be parsed, every seed, every store and
    every `int` limit from `1` on: at every moment of `crawl` the vector has `i + 1` elements, no
    index is out of range (nothing throws), and if `crawl` returns, the result has `limit`
    elements, the first is the seed, and every other one is of the host, is not a key of the store
    and is a link of an earlier one. -/
theorem crawl_shape (web : Web) (db : Db) (limit : Int) (seed : Str) (x : World)
    (hparse : ∀ u, ∃ links, vectorGet (web.page u).parser 4 = .ok links) (h1 : 1 ≤ limit)
    (hint : limit < 2 ^ 31) :
    (∀ v, Moment web db (wrap32 (limit - 1)) seed x v → v.crawlers.length = v.i + 1) ∧
    (∀ budget, ∃ out, crawl web db budget limit seed x = .ok out x) ∧
    ∀ (budget : Nat) (out : List Crawler) (x' : World),
      crawl web db budget limit seed x = .ok (some out) x' →
      (out.length : Int) = limit ∧ out[0]? = some (web.page seed) ∧
      ∀ (k : Nat) (c : Crawler), out[k + 1]? = some c →
        contains c.url host = true ∧ (x.stores db)[c.url]? = none ∧
        ∃ j ≤ k, ∃ p links, out[j]? = some p ∧ vectorGet p.parser 4 = .ok links ∧
          c.url ∈ links := by
  have hstart : (⟨[web.page seed], 0⟩ : Visit).Ok web seed := ⟨rfl, rfl⟩
  refine ⟨?_, fun budget => loop_crawlRound_ok hparse db x budget hstart, ?_⟩
  · rintro v ⟨n, w, x', hrounds, rfl | ⟨c, links, k, x'', -, -, hlinks⟩⟩
    · obtain ⟨-, u, hv⟩ := rounds_ok hparse hrounds hstart
      exact hv.length
    · obtain ⟨-, u, hw⟩ := rounds_ok hparse hrounds hstart
      obtain ⟨cs, i⟩ := w
      have hlen : cs.length = i + 1 := hw.length
      rw [foldlM_visitLink] at hlinks
      cases hlinks
      show (cs ++ List.map _ _).length = i + _ + 1
      rw [List.length_append, List.length_map, hlen]
      omega
  · intro budget out x' hrun
    obtain ⟨-, us, hwalk, rfl⟩ := crawl_iff.mp ⟨budget, hrun⟩
    rw [wrap32_of_fits (by omega) (by omega)] at hwalk
    refine ⟨?_, rfl, ?_⟩
    · rw [List.length_map, List.length_cons, hwalk.length]
      omega
    · intro k c hc
      rw [List.map_cons, List.getElem?_cons_succ, List.getElem?_map] at hc
      obtain ⟨w, hw, rfl⟩ := Option.map_eq_some_iff.mp hc
      obtain ⟨p, hp, hlink⟩ := hwalk.exists_parent hw
      rw [web.page_url]
      -- the pages before `w` are the first of the result
      rw [← List.take_succ_cons] at hp
      obtain ⟨j, hj, hget⟩ := List.mem_take_iff_getElem.mp hp
      obtain ⟨links, hlinks⟩ := hparse p
      rw [admissible, hlinks] at hlink
      obtain ⟨hmem, hadmits⟩ := List.mem_filter.mp hlink
      rw [admits, Bool.and_eq_true] at hadmits
      refine ⟨hadmits.1, Option.isNone_iff_eq_none.mp hadmits.2, j, by omega, web.page p, links,
        ?_, hlinks, hmem⟩
      rw [List.getElem?_map, List.getElem?_eq_getElem (by omega), hget]
      rfl

theorem crawl_shape_descending :
    (∀ u, ∃ links, vectorGet (descending.page u).parser 4 = .ok links) ∧
    ∃ out x', crawl descending .document 3 4 home ⟨Stores.empty, []⟩ = .ok (some out) x' ∧
      (out.length : Int) = 4 := by
  have hparse : ∀ u, ∃ links, vectorGet (descending.page u).parser 4 = .ok links :=
    fun u => ⟨[u ++ ['x'], u ++ ['y']], rfl⟩
  obtain ⟨x', hrun⟩ := descending_crawled
  refine ⟨hparse, _, x', hrun, ?_⟩
  exact ((crawl_shape descending .document 4 home ⟨Stores.empty, []⟩ hparse (by decide)
    (by decide)).2.2 3 _ _ hrun).1

/-! ## The address a page is fetched from -/

/-- The two schemes. -/
def http : Str := "http".toList

def https : Str := "https".toList

def separator : Str := "://".toList

/-- **Exactly which pages are connected to.**  For every URL of scheme `http` or `https` that
    `crawl` can admit, the address that `extractSize` and `extractLastModDate` open is the URL with
    its scheme replaced by `http` if and only if the scheme is `https`. -/
theorem connectionURL_iff (c : Crawler) (scheme rest : Str)
    (hscheme : scheme = http ∨ scheme = https) (hurl : c.url = scheme ++ (separator ++ rest))
    (hhost : contains c.url host = true) :
    c.connectionURL = http ++ (separator ++ rest) ↔ scheme = https := by
  rw [connectionURL]
  rcases hscheme with rfl | rfl
  · -- no `s` in the scheme: the first one is the host's or stands before it
    have hs : 's' ∈ c.url := mem_of_contains hhost 's' (by decide)
    have hsrest : 's' ∈ rest := by
      rw [hurl, ← List.append_assoc] at hs
      exact (List.mem_append.mp hs).resolve_left (by decide)
    obtain ⟨pre, post, rfl, hpre⟩ := List.eq_append_cons_of_mem hsrest
    have hclear : 's' ∉ http ++ (separator ++ pre) := by
      rw [← List.append_assoc, List.mem_append, not_or]
      exact ⟨by decide, hpre⟩
    have hsplit : c.url = http ++ (separator ++ pre) ++ 's' :: post := by
      rw [hurl, List.append_assoc, List.append_assoc]
    rw [hsplit, replaceFirst_char [] hclear]
    constructor
    · intro heq
      have hlen := congrArg List.length heq
      simp only [List.length_append, List.length_cons, List.length_nil] at hlen
      omega
    · exact fun heq => absurd heq (by decide)
  · have hsplit : c.url = http ++ 's' :: (separator ++ rest) := hurl
    rw [hsplit, replaceFirst_char [] (by decide)]
    simp

theorem connectionURL_home :
    (descending.page home).connectionURL = http ++ (separator ++ "www.cse.ust.hk/".toList) :=
  (connectionURL_iff (descending.page home) https "www.cse.ust.hk/".toList (Or.inr rfl) rfl
    (by decide)).mpr rfl

/-- An `http` page of the department is looked for at another host. -/
theorem connectionURL_other_host :
    (descending.page "http://www.cse.ust.hk/".toList).connectionURL
      = "http://www.ce.ust.hk/".toList ∧
    ¬ ∀ (c : Crawler) (scheme rest : Str), scheme = http ∨ scheme = https →
      c.url = scheme ++ (separator ++ rest) → contains c.url host = true →
      c.connectionURL = http ++ (separator ++ rest) := by
  refine ⟨by decide, fun hall => ?_⟩
  have heq := hall (descending.page "http://www.cse.ust.hk/".toList) http
    "www.cse.ust.hk/".toList (Or.inl rfl) rfl (by decide)
  exact absurd heq (by decide)

end Crawler

end SearchEngine
