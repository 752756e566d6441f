/-
  What `InvertedIndexer.addEntry` does to the postings of each word.

  The loop carries two flags through all tokens of a page, but word by word its effect is simple
  (`turns_init`): the groups of the word are RE-RECORDED (`Postings.refresh`) with the positions
  of the word, and whether stale groups are removed was decided once, at the first token — if
  the search for the page's ID found anything in ITS value (`headHit`).

  `addEntry_postings` is that statement about the method itself, for every word, both indexes
  and any call that returns.  Below it lies the loop on the texts (`rewrites`), which needs no
  invariant.
-/
import SearchEngine.PostingInvariant
import Mathlib.Tactic.Common

namespace SearchEngine

open Text Numeral Postings InvertedIndexer NumberedMap Effect

/-! ## The loop on groups -/

/-- The positions of `a` in a list, counted from `i + 1`. -/
def positions {α : Type} [DecidableEq α] (i : Nat) (a : α) : List α → List Nat
  | [] => []
  | b :: bs => if b = a then (i + 1) :: positions (i + 1) a bs else positions (i + 1) a bs

/-- The loop over a list of keys, on groups. -/
def turns (p : Str) : List Str → Loop → (Str → List (DocGroup Char)) → Str → List (DocGroup Char)
  | [], _, G => G
  | k :: ks, v, G =>
    turns p ks (turnLoop p k v (G k)) (Function.update G k (turnGroups p k v (G k)))

/-- The loop over a list of keys, on the texts themselves. -/
def rewrites (p : Str) : List Str → Loop → (Str → Option Str) → Str → Option Str
  | [], _, G => G
  | k :: ks, v, G =>
    rewrites p ks ⟨v.i + 1, (newValue p k v (G k)).2.1, (newValue p k v (G k)).2.2⟩
      (Function.update G k (some (newValue p k v (G k)).1))

/-- As long as the texts spell groups, both loops say the same. -/
theorem rewrites_spells {p : Str} (hp : IsDigits p) :
    ∀ (ks : List Str) (v : Loop) {G : Str → Option Str} {Γ : Str → List (DocGroup Char)},
      (∀ k, SpellsAt (G k) (Γ k)) → ∀ k, SpellsAt (rewrites p ks v G k) (turns p ks v Γ k)
  | [], _, _, _, h => h
  | k :: ks, v, G, Γ, h => by
    obtain ⟨hspell, hloop⟩ := newValue_spells hp k v (h k)
    rw [rewrites, turns, hloop]
    refine rewrites_spells hp ks _ (fun k' => ?_)
    by_cases hk : k' = k
    · subst hk
      rw [Function.update_self, Function.update_self]
      exact hspell
    · rw [Function.update_of_ne hk, Function.update_of_ne hk]
      exact h k'

/-- What a value spells is what is read off it. -/
theorem SpellsAt.groupsAt_eq {db : RocksDB} {k : Str} {gs : List (DocGroup Char)}
    (h : SpellsAt db[k]? gs) : groupsAt db k = gs := by
  unfold groupsAt
  cases hv : db[k]? with
  | none =>
    rw [hv] at h
    exact h.symm
  | some v =>
    rw [hv] at h
    exact h.decode

/-- Behind the first token the flag `rewrite` does not change any more. -/
theorem turnLoop_rewrite {p k : Str} {v : Loop} {gs : List (DocGroup Char)} (hi : v.i ≠ 0) :
    (turnLoop p k v gs).rewrite = v.rewrite := by
  unfold turnLoop
  by_cases hcut : cuts p k v gs = true
  · rw [if_pos hcut]
    rcases (cuts_iff.mp hcut).1.1 with h | h
    · exact absurd h hi
    · exact h.symm
  · rw [if_neg hcut]

theorem turnLoop_i {p k : Str} {v : Loop} {gs : List (DocGroup Char)} :
    (turnLoop p k v gs).i = v.i + 1 := by
  unfold turnLoop
  split <;> rfl

/-- A turn enters no key but its own. -/
theorem mem_turnLoop_refreshed {p k k' : Str} {v : Loop} {gs : List (DocGroup Char)}
    (hk : k' ≠ k) : k' ∈ (turnLoop p k v gs).refreshed ↔ k' ∈ v.refreshed := by
  unfold turnLoop
  split
  · simp [hk]
  · rfl

/-- The loop behind its first token, key by key. -/
theorem turns_of_pos (p k : Str) :
    ∀ (ks : List Str) (v : Loop) (G : Str → List (DocGroup Char)), v.i ≠ 0 →
      turns p ks v G k
        = refresh v.rewrite p (decide (k ∈ v.refreshed)) ((positions v.i k ks).map decimal) (G k)
  | [], v, G, _ => rfl
  | k' :: ks, v, G, hi => by
    have hi' : (turnLoop p k' v (G k')).i ≠ 0 := by rw [turnLoop_i]; omega
    rw [turns, turns_of_pos p k ks _ _ hi', turnLoop_rewrite hi, turnLoop_i, positions]
    by_cases hk : k' = k
    · -- a turn of this key
      subst hk
      rw [if_pos rfl, Function.update_self, List.map_cons, refresh]
      have hcut : cuts p k' v (G k')
          = (v.rewrite && !decide (k' ∈ v.refreshed) && (G k').any (hit p)) := by
        have hi0 : (v.i == 0) = false := beq_false_of_ne hi
        simp [cuts, hi0]
      by_cases hc : cuts p k' v (G k') = true
      · rw [← hcut, if_pos hc, turnGroups, if_pos hc, turnLoop, if_pos hc]
        simp
      · rw [← hcut, if_neg hc, turnGroups, if_neg hc, turnLoop, if_neg hc]
    · -- another key's turn
      rw [if_neg hk, Function.update_of_ne (Ne.symm hk)]
      congr 1
      exact decide_eq_decide.mpr (mem_turnLoop_refreshed (Ne.symm hk))

/-- Does the search for `p` find something in the value of the first key? -/
def headHits (p : Str) (G : Str → List (DocGroup Char)) : List Str → Bool
  | [] => false
  | k :: _ => (G k).any (hit p)

/-- **The loop, key by key**: the positions of the key are re-recorded, with removal or without
    as the first key decided. -/
theorem turns_init (p k : Str) (ks : List Str) (G : Str → List (DocGroup Char)) :
    turns p ks Loop.init G k
      = refresh (headHits p G ks) p false ((positions 0 k ks).map decimal) (G k) := by
  cases ks with
  | nil => rfl
  | cons k₀ ks =>
    have hcut : cuts p k₀ Loop.init (G k₀) = (G k₀).any (hit p) := by
      simp [cuts, Loop.init]
    have hi : (turnLoop p k₀ Loop.init (G k₀)).i ≠ 0 := by rw [turnLoop_i]; omega
    rw [turns, turns_of_pos p k ks _ _ hi, turnLoop_i, positions, headHits]
    cases hhit : (G k₀).any (hit p) with
    | false =>
      rw [turnLoop, turnGroups, hcut, hhit]
      by_cases hk : k₀ = k
      · subst hk
        rw [if_pos rfl, Function.update_self, List.map_cons, refresh, hhit]
        rfl
      · rw [if_neg hk, Function.update_of_ne (Ne.symm hk)]
        rfl
    | true =>
      rw [turnLoop, turnGroups, hcut, hhit]
      by_cases hk : k₀ = k
      · subst hk
        simp only [if_true, Function.update_self, List.map_cons, refresh, hhit]
        simp [Loop.init]
      · rw [if_neg hk, Function.update_of_ne (Ne.symm hk)]
        simp [Loop.init, Ne.symm hk]

theorem positions_eq_nil {α : Type} [DecidableEq α] {a : α} :
    ∀ {l : List α} {i : Nat}, positions i a l = [] ↔ a ∉ l
  | [], i => by simp [positions]
  | b :: bs, i => by
    rw [positions]
    by_cases hb : b = a
    · simp [hb]
    · rw [if_neg hb, positions_eq_nil]
      simp [Ne.symm hb]

/-- Renaming the elements keeps positions, as long as nothing is confused with `a`. -/
theorem positions_forall₂ {α β : Type} [DecidableEq α] [DecidableEq β] {R : α → β → Prop} {a : α}
    {b : β} (hR : ∀ a' b', R a' b' → (a' = a ↔ b' = b)) {as : List α} {bs : List β}
    (h : List.Forall₂ R as bs) : ∀ i : Nat, positions i b bs = positions i a as := by
  induction h with
  | nil => exact fun i => rfl
  | @cons a' b' as bs hab _ ih =>
    intro i
    rw [positions, positions, ih]
    by_cases ha : a' = a
    · rw [if_pos ha, if_pos ((hR a' b' hab).mp ha)]
    · rw [if_neg ha, if_neg (fun hb => ha ((hR a' b' hab).mpr hb))]

/-! ## The loop of the method -/

/-- What the loop over one index may touch: new words, and the index itself. -/
structure Extends (f : Field) (s s' : Stores) : Prop where
  words : ∀ w k : Str, (s .word)[w]? = some k → (s' .word)[w]? = some k
  others : ∀ d, d ≠ .word → d ≠ .invertedWord → d ≠ f.db → s' d = s d

theorem Extends.trans {f : Field} {s s' s'' : Stores} (h : Extends f s s')
    (h' : Extends f s' s'') : Extends f s s'' :=
  ⟨fun w k hw => h'.words w k (h.words w k hw),
    fun d h1 h2 h3 => (h'.others d h1 h2 h3).trans (h.others d h1 h2 h3)⟩

theorem Field.db_ne_word (f : Field) : f.db ≠ .word := f.db_ne_fwd .word

/-- One turn of the loop: the word gets its ID, and the value under it is replaced. -/
theorem addToken_ok {f : Field} {p w : Str} {v v' : Loop} {x x' : World}
    (h : addToken f p v w x = .ok v' x') :
    ∃ k, (x'.stores .word)[w]? = some k ∧
      x'.stores = (x.stores.issue .word w).put f.db k (newValue p k v (x.stores f.db)[k]?).1 ∧
      v' = ⟨v.i + 1, (newValue p k v (x.stores f.db)[k]?).2.1,
        (newValue p k v (x.stores f.db)[k]?).2.2⟩ := by
  obtain ⟨k, x₁, hid, hrest⟩ := bind_ok.mp h
  obtain ⟨hx₁, hk⟩ := ensureID_ok (t := .word) hid
  obtain ⟨value, x₂, hget, hrest₂⟩ := bind_ok.mp hrest
  obtain ⟨hvalue, rfl⟩ := Db.get_ok hget
  rw [hx₁, Stores.issue_other _ w (f.db_isIndex .word).1 (f.db_isIndex .word).2] at hvalue
  refine ⟨k, ?_⟩
  rw [← hvalue]
  rcases hnew : newValue p k v value with ⟨value', rewrite, refreshed⟩
  rw [hnew] at hrest₂
  obtain ⟨u, x₃, hput, hpure⟩ := bind_ok.mp hrest₂
  obtain ⟨rfl, rfl⟩ := pure_ok.mp hpure
  have hx₃ := Db.put_ok hput
  refine ⟨?_, by rw [hx₃, hx₁], rfl⟩
  rw [hx₃, Stores.put_other _ f.db_ne_word.symm]
  exact hk

/-- An assignment keeps the invariant. -/
theorem IndexOk.issue {s : Stores} (h : IndexOk s) (t : Table) (key : Str) :
    IndexOk (s.issue t key) := by
  cases hkey : (s t.fwd)[key]? with
  | some id =>
    rw [Stores.issue_of_some hkey]
    exact h
  | none =>
    rw [Stores.issue_of_none hkey]
    exact stable_indexOk.whole s t key h hkey

/-- **The loop of the method is the loop on texts**, at the IDs the words end up with. -/
theorem foldlM_addToken_texts {f : Field} {p : Str} :
    ∀ (toks : List Str) (v v' : Loop) (x x' : World),
      toks.foldlM (addToken f p) v x = .ok v' x' →
      ∃ ids : List Str, List.Forall₂ (fun w k => (x'.stores .word)[w]? = some k) toks ids ∧
        (∀ k, (x'.stores f.db)[k]? = rewrites p ids v (fun k => (x.stores f.db)[k]?) k) ∧
        Extends f x.stores x'.stores
  | [], v, v', x, x', h => by
    obtain ⟨rfl, rfl⟩ := pure_ok.mp h
    exact ⟨[], .nil, fun k => rfl, ⟨fun _ _ hw => hw, fun _ _ _ _ => rfl⟩⟩
  | w :: toks, v, v', x, x', h => by
    obtain ⟨v₁, x₁, hstep, hrest⟩ := foldlM_cons_ok.mp h
    obtain ⟨k, hk, hx₁, hv₁⟩ := addToken_ok hstep
    -- the stores behind the first token
    have hdb : x.stores.issue .word w f.db = x.stores f.db :=
      Stores.issue_other _ w (f.db_isIndex .word).1 (f.db_isIndex .word).2
    have hext : Extends f x.stores x₁.stores := by
      rw [hx₁]
      refine ⟨fun w' k' hw' => ?_, fun d h1 h2 h3 => ?_⟩
      · rw [Stores.put_other _ f.db_ne_word.symm]
        exact Stores.issue_mono x.stores .word .word hw'
      · rw [Stores.put_other _ h3, Stores.issue_other _ w h1 h2]
    have hG : (fun k' => (x₁.stores f.db)[k']?)
        = Function.update (fun k' => (x.stores f.db)[k']?) k
            (some (newValue p k v (x.stores f.db)[k]?).1) := by
      funext k'
      rw [hx₁, Stores.put_same, hdb, get_insert]
      by_cases hkk : k = k'
      · subst hkk
        rw [if_pos rfl, Function.update_self]
      · rw [if_neg hkk, Function.update_of_ne (Ne.symm hkk)]
    -- and the rest of the loop from there
    obtain ⟨ids, hids, htexts, hext'⟩ := foldlM_addToken_texts toks v₁ v' x₁ x' hrest
    refine ⟨k :: ids, .cons (hext'.words w k hk) hids, fun k' => ?_, hext.trans hext'⟩
    rw [htexts, hG, hv₁, rewrites]

theorem addTokens_extends {f : Field} {p : Str} {toks : List Str} {x x' : World} {u : Unit}
    (h : addTokens f p toks x = .ok u x') : Extends f x.stores x'.stores := by
  obtain ⟨v', x₁, hloop, hpure⟩ := bind_ok.mp h
  obtain ⟨-, rfl⟩ := pure_ok.mp hpure
  obtain ⟨-, -, -, hext⟩ := foldlM_addToken_texts toks _ v' x x₁ hloop
  exact hext

/-- **The loop of the method is the loop on groups**, where the values spell groups. -/
theorem foldlM_addToken_ok {f : Field} {p : Str} {toks : List Str} {v v' : Loop} {x x' : World}
    (h : toks.foldlM (addToken f p) v x = .ok v' x') (hx : IndexOk x.stores)
    (hp : Issued .page p x.stores) :
    ∃ ids : List Str, List.Forall₂ (fun w k => (x'.stores .word)[w]? = some k) toks ids ∧
      (∀ k, groupsAt (x'.stores f.db) k = turns p ids v (groupsAt (x.stores f.db)) k) ∧
      Extends f x.stores x'.stores ∧ IndexOk x'.stores := by
  obtain ⟨ids, hids, htexts, hext⟩ := foldlM_addToken_texts toks v v' x x' h
  have hok : IndexOk x'.stores ∧ Issued .page p x'.stores :=
    (Triple.foldlM toks v (fun v w _ => stable_indexOk.addToken f p v w)).of_ok ⟨hx, hp⟩ h
  refine ⟨ids, hids, fun k => ?_, hext, hok.1⟩
  have hspell := rewrites_spells (hx.isDigits hp) ids v (fun k => (hx.groupsAt_ok f k).1) k
  rw [← htexts k] at hspell
  exact hspell.groupsAt_eq

/-! ## Word by word -/

/-- The postings of a word are the groups under the ID it ends up with: a word that is new by
    then has no value yet. -/
theorem postings_eq_groupsAt {s s' : Stores} (hs : IndexOk s) (hs' : TableOk .word s')
    (hmono : ∀ w k : Str, (s .word)[w]? = some k → (s' .word)[w]? = some k) (f : Field)
    {w k : Str} (hk : (s' .word)[w]? = some k) : postings f s w = groupsAt (s f.db) k := by
  unfold postings
  cases hw : (s .word)[w]? with
  | some k₀ =>
    have hk₀ := hmono w k₀ hw
    rw [hk] at hk₀
    rw [Option.some.inj hk₀]
  | none =>
    show [] = groupsAt (s f.db) k
    unfold groupsAt
    cases hv : (s f.db)[k]? with
    | none => rfl
    | some v =>
      obtain ⟨w₀, hw₀⟩ := (hs.values f k v hv).key
      obtain rfl : w₀ = w := hs'.1.injective (hmono w₀ k hw₀) hk
      rw [show (s .word)[w₀]? = some k from hw₀] at hw
      exact absurd hw (by simp)

/-- A word without an ID had none before. -/
theorem none_of_mono {s s' : Stores}
    (hmono : ∀ w k : Str, (s .word)[w]? = some k → (s' .word)[w]? = some k) {w : Str}
    (h : (s' .word)[w]? = none) : (s .word)[w]? = none := by
  cases hw : (s .word)[w]? with
  | none => rfl
  | some k =>
    rw [hmono w k hw] at h
    exact absurd h (by simp)

/-- Words that come up do not touch the postings of an index that is left alone. -/
theorem postings_of_same {s s' : Stores} (hs : IndexOk s) (hs' : TableOk .word s')
    (hmono : ∀ w k : Str, (s .word)[w]? = some k → (s' .word)[w]? = some k) {f : Field}
    (hdb : s' f.db = s f.db) (w : Str) : postings f s' w = postings f s w := by
  cases hw : (s' .word)[w]? with
  | some k =>
    rw [postings_eq_groupsAt hs hs' hmono f hw, postings, hw]
    show groupsAt (s' f.db) k = _
    rw [hdb]
  | none =>
    rw [postings, postings, hw, none_of_mono hmono hw]

/-- Does the search for `p` find something in the value of the first token? -/
def headHit (f : Field) (s : Stores) (p : Str) (toks : List Str) : Bool :=
  headHits p (postings f s) toks

/-- What re-indexing the page `p` with the tokens `toks` makes of the postings of `w`. -/
def reindexed (f : Field) (s : Stores) (p : Str) (toks : List Str) (w : Str) :
    List (DocGroup Char) :=
  refresh (headHit f s p toks) p false ((positions 0 w toks).map decimal) (postings f s w)

theorem exists_of_forall₂ {α β : Type} {R : α → β → Prop} {as : List α} {bs : List β}
    (h : List.Forall₂ R as bs) : ∀ a ∈ as, ∃ b, R a b := by
  induction h with
  | nil => exact fun a ha => absurd ha (by simp)
  | @cons a' b' as bs hab _ ih =>
    intro a ha
    rcases List.mem_cons.mp ha with rfl | ha
    · exact ⟨b', hab⟩
    · exact ih a ha

/-- **One loop, word by word.** -/
theorem addTokens_postings {f : Field} {p : Str} {toks : List Str} {x x' : World} {u : Unit}
    (h : addTokens f p toks x = .ok u x') (hx : IndexOk x.stores) (hp : Issued .page p x.stores) :
    (∀ w, postings f x'.stores w = reindexed f x.stores p toks w) ∧
    (∀ w ∈ toks, ∃ k : Str, (x'.stores .word)[w]? = some k) ∧
    Extends f x.stores x'.stores ∧ IndexOk x'.stores := by
  obtain ⟨v', x₁, hloop, hpure⟩ := bind_ok.mp h
  obtain ⟨-, rfl⟩ := pure_ok.mp hpure
  obtain ⟨ids, hids, hgroups, hext, hok⟩ := foldlM_addToken_ok hloop hx hp
  have htable : TableOk .word x₁.stores := hok.tables .word
  have hissued := exists_of_forall₂ hids
  refine ⟨fun w => ?_, hissued, hext, hok⟩
  cases hw : (x₁.stores .word)[w]? with
  | none =>
    -- the word has no ID even now: it is no token, and it had no ID before
    have hno : w ∉ toks := by
      intro hmem
      obtain ⟨k, hk⟩ := hissued w hmem
      rw [hw] at hk
      exact absurd hk (by simp)
    rw [reindexed, positions_eq_nil.mpr hno, postings, postings, hw, none_of_mono hext.words hw]
    rfl
  | some k =>
    have hpos : positions 0 k ids = positions 0 w toks := by
      refine positions_forall₂ (fun w' k' hk' => ?_) hids 0
      constructor
      · rintro rfl
        rw [hw] at hk'
        exact (Option.some.inj hk').symm
      · rintro rfl
        exact htable.1.injective hk' hw
    have hhead : headHits p (groupsAt (x.stores f.db)) ids = headHit f x.stores p toks := by
      cases hids with
      | nil => rfl
      | cons hk₀ _ =>
        show (groupsAt _ _).any _ = (postings _ _ _).any _
        rw [postings_eq_groupsAt hx htable hext.words f hk₀]
    have hpost : postings f x₁.stores w = groupsAt (x₁.stores f.db) k := by
      rw [postings, hw]
    rw [hpost, hgroups, turns_init, hpos, hhead, reindexed,
      postings_eq_groupsAt hx htable hext.words f hw]

/-! ## The method -/

/-- What a call of `addEntry` that returns has done, `toks` being the cleaned tokens. -/
structure EntryAdded (E : Platform) (c : Crawler) (toks : Field → List Str) (s s' : Stores) :
    Prop where
  tokens : ∀ f : Field, f.tokens E c = .ok (toks f)
  document : s' .document = s.issue .page c.url .document
  words : ∀ w k : Str, (s .word)[w]? = some k → (s' .word)[w]? = some k
  issued : ∀ f, ∀ w ∈ toks f, ∃ k : Str, (s' .word)[w]? = some k
  postings : ∀ f w, postings f s' w = reindexed f s (pageIDOf s c.url) (toks f) w
  ok : IndexOk s'

theorem EntryAdded.pageID {E : Platform} {c : Crawler} {toks : Field → List Str} {s s' : Stores}
    (h : EntryAdded E c toks s s') : (s' .document)[c.url]? = some (pageIDOf s c.url) := by
  rw [h.document]
  exact get_issue_page s c.url

/-- The two token lists of a page. -/
def bothTokens (title content : List Str) : Field → List Str
  | .title => title
  | .content => content

/-- A loop over one index leaves the postings of the other alone, and what is looked up there. -/
theorem reindexed_of_same {s s' : Stores} {f : Field} (h : ∀ w, postings f s' w = postings f s w)
    (p : Str) (toks : List Str) (w : Str) : reindexed f s' p toks w = reindexed f s p toks w := by
  have hfun : postings f s' = postings f s := funext h
  rw [reindexed, reindexed, headHit, headHit, hfun]

/-- The stages of a call that returns: the page ID, the title, the content. -/
theorem addEntry_stages {E : Platform} {c : Crawler} {x x' : World} {u : Unit}
    (h : addEntry E c x = .ok u x') :
    ∃ (title content : List Str) (x₁ x₂ : World),
      Field.title.tokens E c = .ok title ∧ Field.content.tokens E c = .ok content ∧
      x₁.stores = x.stores.issue .page c.url ∧
      addTokens .title (pageIDOf x.stores c.url) title x₁ = .ok () x₂ ∧
      addTokens .content (pageIDOf x.stores c.url) content x₂ = .ok () x' := by
  obtain ⟨p, x₁, hid, h⟩ := bind_ok.mp h
  obtain ⟨hx₁, rfl, -⟩ := pageID_ok hid
  obtain ⟨title, htitle, h⟩ := lift_bind_ok.mp h
  obtain ⟨u₁, x₂, hloop, h⟩ := bind_ok.mp h
  obtain ⟨content, hcontent, hloop'⟩ := lift_bind_ok.mp h
  exact ⟨title, content, x₁, x₂, htitle, hcontent, hx₁, hloop, hloop'⟩

/-- Behind the page ID, a call writes to the word tables and its two indexes alone. -/
theorem addEntry_others {E : Platform} {c : Crawler} {x x' : World} {u : Unit}
    (h : addEntry E c x = .ok u x') {d : Db} (hword : d ≠ .word) (hinv : d ≠ .invertedWord)
    (hindex : ∀ f : Field, d ≠ f.db) : x'.stores d = x.stores.issue .page c.url d := by
  obtain ⟨title, content, x₁, x₂, -, -, hx₁, hloop, hloop'⟩ := addEntry_stages h
  rw [(addTokens_extends hloop').others d hword hinv (hindex .content),
    (addTokens_extends hloop).others d hword hinv (hindex .title), hx₁]

/-- **The refinement**: word by word, `addEntry` re-records the positions of the page. -/
theorem addEntry_postings {E : Platform} {c : Crawler} {x x' : World} {u : Unit}
    (h : addEntry E c x = .ok u x') (hx : IndexOk x.stores) :
    ∃ toks, EntryAdded E c toks x.stores x'.stores := by
  obtain ⟨title, content, x₁, x₃, htitle, hcontent, hx₁, hloop, hloop'⟩ := addEntry_stages h
  have hp : (x₁.stores .document)[c.url]? = some (pageIDOf x.stores c.url) := by
    rw [hx₁]
    exact get_issue_page x.stores c.url
  have hok₁ : IndexOk x₁.stores := by
    rw [hx₁]
    exact hx.issue .page c.url
  obtain ⟨hpost, hiss, hext, hok₃⟩ := addTokens_postings hloop hok₁ ⟨c.url, hp⟩
  have hp₃ : Issued .page (pageIDOf x.stores c.url) x₃.stores :=
    ⟨c.url, by
      show (x₃.stores .document)[c.url]? = _
      rw [hext.others .document (by decide) (by decide) (by decide)]
      exact hp⟩
  obtain ⟨hpost', hiss', hext', hok'⟩ := addTokens_postings hloop' hok₃ hp₃
  have hword₁ : ∀ w k : Str, (x.stores .word)[w]? = some k → (x₁.stores .word)[w]? = some k := by
    rw [hx₁]
    exact fun w k hw => Stores.issue_mono x.stores .page .word hw
  have hsame₁ : ∀ f w, postings f x₁.stores w = postings f x.stores w := by
    intro f w
    refine postings_of_same hx (hok₁.tables .word) hword₁ ?_ w
    rw [hx₁, Stores.issue_other _ c.url (f.db_isIndex .page).1 (f.db_isIndex .page).2]
  have hsame₃ : ∀ w, postings .content x₃.stores w = postings .content x₁.stores w :=
    postings_of_same hok₁ (hok₃.tables .word) hext.words
      (hext.others .contentInverted (by decide) (by decide) (by decide))
  have hsame' : ∀ w, postings .title x'.stores w = postings .title x₃.stores w :=
    postings_of_same hok₃ (hok'.tables .word) hext'.words
      (hext'.others .titleInverted (by decide) (by decide) (by decide))
  refine ⟨bothTokens title content, ?_, ?_, ?_, ?_, ?_, hok'⟩
  · intro f
    cases f with
    | title => exact htitle
    | content => exact hcontent
  · exact addEntry_others h (by decide) (by decide) (by intro f; cases f <;> decide)
  · exact fun w k hw => hext'.words w k (hext.words w k (hword₁ w k hw))
  · intro f w hw
    cases f with
    | title =>
      obtain ⟨k, hk⟩ := hiss w hw
      exact ⟨k, hext'.words w k hk⟩
    | content => exact hiss' w hw
  · intro f w
    cases f with
    | title => rw [hsame', hpost, reindexed_of_same (hsame₁ .title)]; rfl
    | content =>
      rw [hpost', reindexed_of_same (fun w => (hsame₃ w).trans (hsame₁ .content w))]
      rfl

/-! ## Without faults, every call on complete pages returns -/

theorem addTokens_runs (f : Field) (p : Str) (toks : List Str) :
    Runs NoFaults (addTokens f p toks) := by
  refine Runs.bind (Runs.foldlM toks _ (fun v w _ => ?_)) (fun _ => Runs.pure ())
  refine Runs.bind (ensureID_runs .word w) (fun k => ?_)
  refine Runs.bind (get_runs f.db k) (fun value => ?_)
  exact Runs.bind (put_runs f.db k _) (fun _ => Runs.pure _)

theorem addEntry_runs {E : Platform} {c : Crawler}
    (h : ∀ f : Field, ∃ toks, f.tokens E c = .ok toks) :
    Runs NoFaults (InvertedIndexer.addEntry E c) := by
  obtain ⟨title, htitle⟩ := h .title
  obtain ⟨content, hcontent⟩ := h .content
  refine Runs.bind (ensureID_runs .page c.url) (fun p => ?_)
  refine Runs.lift_bind htitle ?_
  refine Runs.bind (addTokens_runs .title p title) (fun _ => ?_)
  exact Runs.lift_bind hcontent (addTokens_runs .content p content)

/-- A batch of such pages. -/
theorem indexPages_runs {E : Platform} {crawlers : List Crawler}
    (h : ∀ c ∈ crawlers, ∀ f : Field, ∃ toks, f.tokens E c = .ok toks) :
    Runs NoFaults (InvertedIndexer.indexPages E crawlers) :=
  Runs.foldlM crawlers () (fun _ c hc => addEntry_runs (h c hc))

end SearchEngine
