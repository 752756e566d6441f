/-
  IDs over whole runs: what an assignment can do to the stores, and what no call can undo.

  `assignID_cases` lists the four things one assignment can do — find the key, fail at the first
  `put`, fail between the two, succeed — and every fact about IDs is derived from that list.
  `Stable I R` collects what has to be checked of an invariant `I` (and of an abort condition
  `R`): one assignment keeps it, and so does each kind of write the index stores see.  From it,
  `Stable.call` walks through all twelve calls once and for all.

  The headline `ids_bijective`: in every reachable state each ID table is numbered `1 … n`, its
  entries are never changed, and its inverse table is sound — and exact if nothing was aborted.
-/
import SearchEngine.Run
import Mathlib.Tactic.Common

namespace SearchEngine

open Text Numeral Effect NumberedMap

/-! ## The two ID tables -/

/-- The page IDs and the word IDs. -/
inductive Table where
  | page
  | word
  deriving DecidableEq, Repr

namespace Table

/-- The store that is counted. -/
def fwd : Table → Db
  | page => .document
  | word => .word

/-- The store that turns it around. -/
def inv : Table → Db
  | page => .invertedDocument
  | word => .invertedWord

theorem inv_ne_fwd (t t' : Table) : t.inv ≠ t'.fwd := by
  cases t <;> cases t' <;> decide

theorem fwd_ne_of_ne {t t' : Table} (h : t ≠ t') : t.fwd ≠ t'.fwd := by
  revert h
  cases t <;> cases t' <;> decide

theorem inv_ne_of_ne {t t' : Table} (h : t ≠ t') : t.inv ≠ t'.inv := by
  revert h
  cases t <;> cases t' <;> decide

end Table

/-- `id` is the ID of some key. -/
def Issued (t : Table) (id : Str) (s : Stores) : Prop := ∃ key : Str, (s t.fwd)[key]? = some id

/-- The forward half of an assignment. -/
def Stores.issueFwd (s : Stores) (t : Table) (key : Str) : Stores :=
  s.put t.fwd key (decimal ((s t.fwd).size + 1))

/-- A whole assignment. -/
def Stores.issueBoth (s : Stores) (t : Table) (key : Str) : Stores :=
  (s.issueFwd t key).put t.inv (decimal ((s t.fwd).size + 1)) key

/-- What an assignment that succeeds leaves behind, be the key new or not. -/
def Stores.issue (s : Stores) (t : Table) (key : Str) : Stores :=
  match (s t.fwd)[key]? with
  | some _ => s
  | none => s.issueBoth t key

namespace Stores

theorem issueFwd_fwd (s : Stores) (t : Table) (key : Str) :
    s.issueFwd t key t.fwd = (s t.fwd).insert key (decimal ((s t.fwd).size + 1)) :=
  put_same s _ _ _

theorem issueFwd_other (s : Stores) {t : Table} (key : Str) {d : Db} (h : d ≠ t.fwd) :
    s.issueFwd t key d = s d :=
  put_other s h _ _

theorem issueBoth_fwd (s : Stores) (t : Table) (key : Str) :
    s.issueBoth t key t.fwd = (s t.fwd).insert key (decimal ((s t.fwd).size + 1)) := by
  rw [issueBoth, put_other _ (t.inv_ne_fwd t).symm, issueFwd_fwd]

theorem size_issueBoth {s : Stores} {t : Table} {key : Str} (h : (s t.fwd)[key]? = none) :
    (s.issueBoth t key t.fwd).size = (s t.fwd).size + 1 := by
  rw [issueBoth_fwd, size_insert_of_none h]

theorem issueBoth_inv (s : Stores) (t : Table) (key : Str) :
    s.issueBoth t key t.inv = (s t.inv).insert (decimal ((s t.fwd).size + 1)) key := by
  rw [issueBoth, put_same, issueFwd_other s key (t.inv_ne_fwd t)]

theorem issueBoth_other (s : Stores) {t : Table} (key : Str) {d : Db} (hf : d ≠ t.fwd)
    (hi : d ≠ t.inv) : s.issueBoth t key d = s d := by
  rw [issueBoth, put_other _ hi, issueFwd_other s key hf]

/-- A new entry in the forward store, half or whole, leaves the entries there alone. -/
theorem get_insert_of_none {db : RocksDB} {key k id v : Str} (hnone : db[key]? = none)
    (hk : db[k]? = some id) : (db.insert key v)[k]? = some id := by
  have hne : key ≠ k := fun he => by rw [he, hk] at hnone; exact absurd hnone (by simp)
  rw [get_insert_ne db hne]
  exact hk

theorem issue_of_some {s : Stores} {t : Table} {key id : Str} (h : (s t.fwd)[key]? = some id) :
    s.issue t key = s := by
  rw [issue, h]

theorem issue_of_none {s : Stores} {t : Table} {key : Str} (h : (s t.fwd)[key]? = none) :
    s.issue t key = s.issueBoth t key := by
  rw [issue, h]

theorem issue_mono (s : Stores) (t t' : Table) {key k id : Str} (h : (s t'.fwd)[k]? = some id) :
    (s.issue t key t'.fwd)[k]? = some id := by
  cases hkey : (s t.fwd)[key]? with
  | some id' =>
    rw [issue_of_some hkey]
    exact h
  | none =>
    rw [issue_of_none hkey]
    by_cases ht : t = t'
    · subst ht
      rw [issueBoth_fwd]
      exact get_insert_of_none hkey h
    · rw [issueBoth_other s key (Table.fwd_ne_of_ne (Ne.symm ht)) (t.inv_ne_fwd t').symm]
      exact h

theorem issue_other (s : Stores) {t : Table} (key : Str) {d : Db} (hf : d ≠ t.fwd)
    (hi : d ≠ t.inv) : s.issue t key d = s d := by
  cases hkey : (s t.fwd)[key]? with
  | some id => rw [issue_of_some hkey]
  | none =>
    rw [issue_of_none hkey]
    exact issueBoth_other s key hf hi

end Stores

/-! ## What one assignment can do -/

/-- **The inversion of an assignment.** -/
theorem assignID_cases (t : Table) (lastID : Nat) (key : Str) (w : World) :
    (∃ id, (w.stores t.fwd)[key]? = some id ∧ assignID t.fwd t.inv lastID key w = .ok lastID w) ∨
    ((w.stores t.fwd)[key]? = none ∧
      ((∃ fs, assignID t.fwd t.inv lastID key w = .error .rocksDB ⟨w.stores, fs⟩) ∨
       (∃ fs, assignID t.fwd t.inv lastID key w
          = .error .rocksDB ⟨w.stores.put t.fwd key (decimal (lastID + 1)), fs⟩) ∨
       (∃ fs, assignID t.fwd t.inv lastID key w
          = .ok (lastID + 1) ⟨(w.stores.put t.fwd key (decimal (lastID + 1))).put t.inv
              (decimal (lastID + 1)) key, fs⟩))) := by
  have hgetRun : t.fwd.get key w = .ok (w.stores t.fwd)[key]? w := rfl
  cases hget : (w.stores t.fwd)[key]? with
  | some id =>
    rw [hget] at hgetRun
    exact Or.inl ⟨id, rfl, bind_run_ok hgetRun _⟩
  | none =>
    rw [hget] at hgetRun
    refine Or.inr ⟨rfl, ?_⟩
    rw [assignID, bind_run_ok hgetRun]
    show (∃ fs, (t.fwd.put key (decimal (lastID + 1)) >>= _) w = _) ∨ _
    rcases Db.put_cases t.fwd key (decimal (lastID + 1)) w with ⟨fs, h1⟩ | ⟨fs, h1⟩
    · exact Or.inl ⟨fs, bind_run_error h1 _⟩
    · rcases Db.put_cases t.inv (decimal (lastID + 1)) key
        ⟨w.stores.put t.fwd key (decimal (lastID + 1)), fs⟩ with ⟨fs', h2⟩ | ⟨fs', h2⟩
      · exact Or.inr (Or.inl ⟨fs', (bind_run_ok h1 _).trans (bind_run_error h2 _)⟩)
      · exact Or.inr (Or.inr ⟨fs', (bind_run_ok h1 _).trans (bind_run_ok h2 _)⟩)

/-- One assignment keeps `I`; if it is cut short, `R` holds. -/
structure KeptByIssue (I R : Stores → Prop) : Prop where
  abort : ∀ s, I s → R s
  half : ∀ s t (key : Str), I s → (s t.fwd)[key]? = none → R (s.issueFwd t key)
  whole : ∀ s t (key : Str), I s → (s t.fwd)[key]? = none → I (s.issueBoth t key)

variable {I R : Stores → Prop}

/-- The counter stands at the number of keys of the forward store. -/
def AtCount (I : Stores → Prop) (t : Table) (n : Nat) (w : World) : Prop :=
  I w.stores ∧ n = (w.stores t.fwd).size

theorem assignID_triple (h : KeptByIssue I R) (t : Table) (n : Nat) (key : Str) :
    Triple (AtCount I t n) (assignID t.fwd t.inv n key) (AtCount I t) (fun w => R w.stores) := by
  rintro w ⟨hI, rfl⟩
  rcases assignID_cases t (w.stores t.fwd).size key w with
    ⟨id, -, hrun⟩ | ⟨hnone, ⟨fs, hrun⟩ | ⟨fs, hrun⟩ | ⟨fs, hrun⟩⟩
  · rw [hrun]
    exact ⟨hI, rfl⟩
  · rw [hrun]
    exact h.abort _ hI
  · rw [hrun]
    exact h.half w.stores t key hI hnone
  · rw [hrun]
    refine ⟨h.whole w.stores t key hI hnone, ?_⟩
    exact (Stores.size_issueBoth hnone).symm

theorem count_atCount (t : Table) :
    Triple (fun w => I w.stores) t.fwd.count (AtCount I t) (fun w => R w.stores) :=
  Db.count_triple

theorem addID_triple (h : KeptByIssue I R) (t : Table) (key : Str) :
    Triple (fun w => I w.stores) (addID t.fwd t.inv key) (fun _ w => I w.stores)
      (fun w => R w.stores) := by
  refine Triple.bind (count_atCount t) (fun n => ?_)
  refine Triple.bind (assignID_triple h t n key) (fun n' => ?_)
  exact Triple.pure (fun w hw => hw.1)

theorem ensureID_triple (h : KeptByIssue I R) (t : Table) (key : Str) :
    Triple (fun w => I w.stores) (ensureID t.fwd t.inv key)
      (fun id w => I w.stores ∧ (w.stores t.fwd)[key]? = some id) (fun w => R w.stores) := by
  refine Triple.bind (Db.get_triple (R := fun (w : World) => R w.stores)) (fun o => ?_)
  cases o with
  | some id => exact Triple.pure (fun w hw => ⟨hw.1, hw.2.symm⟩)
  | none =>
    refine Triple.bind
      ((addID_triple h t key).weaken (fun w hw => hw.1) (fun _ _ hw => hw) (fun _ hw => hw))
      (fun _ => ?_)
    exact Db.fetch_triple.weaken (fun w hw => hw) (fun _ _ hw => hw) (fun w hw => h.abort _ hw)

/-! ## Successful assignments -/

theorem addID_ok {t : Table} {key : Str} {w w' : World} {u : Unit}
    (h : addID t.fwd t.inv key w = .ok u w') : w'.stores = w.stores.issue t key := by
  obtain ⟨n, w₁, hcount, hrest⟩ := bind_ok.mp h
  rw [Db.count_run] at hcount
  cases hcount
  obtain ⟨n', w₂, hassign, hpure⟩ := bind_ok.mp hrest
  obtain ⟨-, rfl⟩ := pure_ok.mp hpure
  rcases assignID_cases t (w.stores t.fwd).size key w with
    ⟨id, hget, hrun⟩ | ⟨hnone, ⟨fs, hrun⟩ | ⟨fs, hrun⟩ | ⟨fs, hrun⟩⟩
  · rw [hrun] at hassign
    cases hassign
    rw [Stores.issue, hget]
  · rw [hrun] at hassign
    cases hassign
  · rw [hrun] at hassign
    cases hassign
  · rw [hrun] at hassign
    cases hassign
    rw [Stores.issue, hnone]
    rfl

theorem ensureID_ok {t : Table} {key id : Str} {w w' : World}
    (h : ensureID t.fwd t.inv key w = .ok id w') :
    w'.stores = w.stores.issue t key ∧ (w'.stores t.fwd)[key]? = some id := by
  obtain ⟨o, w₁, hget, hrest⟩ := bind_ok.mp h
  obtain ⟨ho, rfl⟩ := Db.get_ok hget
  cases o with
  | some id' =>
    obtain ⟨rfl, rfl⟩ := pure_ok.mp hrest
    exact ⟨by rw [Stores.issue, ← ho], ho.symm⟩
  | none =>
    obtain ⟨u, w₂, hadd, hfetch⟩ := bind_ok.mp hrest
    obtain ⟨hid, rfl⟩ := Db.fetch_ok hfetch
    exact ⟨addID_ok hadd, hid⟩

/-- The ID a page has, or is about to be given. -/
def pageIDOf (s : Stores) (url : Str) : Str :=
  match (s .document)[url]? with
  | some id => id
  | none => decimal ((s .document).size + 1)

theorem get_issue_page (s : Stores) (url : Str) :
    (s.issue .page url .document)[url]? = some (pageIDOf s url) := by
  unfold pageIDOf
  cases hurl : (s .document)[url]? with
  | some id =>
    rw [Stores.issue_of_some (t := .page) hurl]
    exact hurl
  | none =>
    rw [Stores.issue_of_none (t := .page) hurl]
    show (s.issueBoth .page url Table.page.fwd)[url]? = _
    rw [Stores.issueBoth_fwd]
    exact get_insert_self _ _ _

/-- What a call of `DocumentIndexer.pageID` that returns has done. -/
theorem pageID_ok {url p : Str} {x x' : World} (h : DocumentIndexer.pageID url x = .ok p x') :
    x'.stores = x.stores.issue .page url ∧ p = pageIDOf x.stores url ∧
      (x'.stores .document)[url]? = some p := by
  obtain ⟨hx', hp⟩ := ensureID_ok (t := .page) h
  refine ⟨hx', ?_, hp⟩
  rw [hx'] at hp
  exact Option.some.inj (hp.symm.trans (get_issue_page x.stores url))

/-! ## Assignments without faults -/

/-- No `put` will throw. -/
def NoFaults (x : World) : Prop := x.faults = []

/-- An attempt at a method that throws only if a `put` does. -/
theorem returns_of_runs {E : Platform} (call : Call) (h : Runs NoFaults (call.exec E))
    (s : Stores) : returns (Attempt.outcome E ⟨call, []⟩ s) = true := by
  obtain ⟨u, x, hrun, -⟩ := h ⟨s, []⟩ rfl
  rw [Attempt.outcome, hrun]
  rfl

theorem put_runs (d : Db) (k v : Str) : Runs NoFaults (d.put k v) := by
  rintro ⟨s, fs⟩ hfs
  obtain rfl : fs = [] := hfs
  exact ⟨(), _, rfl, rfl⟩

theorem get_runs (d : Db) (k : Str) : Runs NoFaults (d.get k) := fun x hx => ⟨_, x, rfl, hx⟩

theorem ensureID_runs (t : Table) (key : Str) : Runs NoFaults (ensureID t.fwd t.inv key) := by
  rintro ⟨s, fs⟩ hfs
  obtain rfl : fs = [] := hfs
  cases hget : (s t.fwd)[key]? with
  | some id =>
    refine ⟨id, ⟨s, []⟩, bind_ok.mpr ⟨some id, ⟨s, []⟩, ?_, rfl⟩, rfl⟩
    rw [← hget]
    rfl
  | none =>
    have hadd : addID t.fwd t.inv key ⟨s, []⟩ = .ok () ⟨s.issueBoth t key, []⟩ := by
      refine bind_ok.mpr ⟨_, _, Db.count_run t.fwd ⟨s, []⟩, ?_⟩
      refine bind_ok.mpr ⟨(s t.fwd).size + 1, ⟨s.issueBoth t key, []⟩, ?_, rfl⟩
      exact bind_ok.mpr ⟨none, ⟨s, []⟩, by rw [← hget]; rfl, rfl⟩
    have hfetch : t.fwd.fetch key ⟨s.issueBoth t key, []⟩
        = .ok (decimal ((s t.fwd).size + 1)) ⟨s.issueBoth t key, []⟩ := by
      refine Db.fetch_run_some ?_
      show (s.issueBoth t key t.fwd)[key]? = _
      rw [Stores.issueBoth_fwd]
      exact get_insert_self _ _ _
    refine ⟨_, _, bind_ok.mpr ⟨none, ⟨s, []⟩, ?_, bind_ok.mpr ⟨(), _, hadd, hfetch⟩⟩, rfl⟩
    rw [← hget]
    rfl

/-! ## Every call, once and for all -/

/-- What has to be checked of an invariant: it survives an assignment, and each kind of write
    that the index stores see.  Group updates come with the IDs they are about. -/
structure Stable (I R : Stores → Prop) : Prop extends KeptByIssue I R where
  forward : ∀ s k v, I s → I (s.put .forwardIndex k v)
  children : ∀ s k v, I s → I (s.put .parentChildIndex k v)
  parents : ∀ s k v, I s → I (s.put .parentChildIndexInverted k v)
  posting : ∀ s (f : Field) pageID wordID v, I s → Issued .page pageID s → Issued .word wordID s →
    I (s.put f.db wordID (InvertedIndexer.newValue pageID wordID v (s f.db)[wordID]?).1)

/-- An issued ID stays issued. -/
theorem keptByIssue_issued (t : Table) (id : Str) : KeptByIssue (Issued t id) (Issued t id) := by
  have hinsert : ∀ (s : Stores) (t' : Table) (key : Str), Issued t id s →
      (s t'.fwd)[key]? = none → Issued t id (s.issueFwd t' key) := by
    rintro s t' key ⟨k, hk⟩ hnone
    refine ⟨k, ?_⟩
    by_cases ht : t' = t
    · subst ht
      rw [Stores.issueFwd_fwd]
      exact Stores.get_insert_of_none hnone hk
    · rw [Stores.issueFwd_other s key (Table.fwd_ne_of_ne (Ne.symm ht))]
      exact hk
  refine ⟨fun s hs => hs, hinsert, fun s t' key hs hnone => ?_⟩
  obtain ⟨k, hk⟩ := hinsert s t' key hs hnone
  exact ⟨k, by rw [Stores.issueBoth, Stores.put_other _ (t'.inv_ne_fwd t).symm]; exact hk⟩

/-- Invariant and issued ID together. -/
theorem KeptByIssue.and_issued (h : KeptByIssue I R) (t : Table) (id : Str) :
    KeptByIssue (fun s => I s ∧ Issued t id s) R where
  abort s hs := h.abort s hs.1
  half s t' key hs hnone := h.half s t' key hs.1 hnone
  whole s t' key hs hnone :=
    ⟨h.whole s t' key hs.1 hnone, (keptByIssue_issued t id).whole s t' key hs.2 hnone⟩

theorem issued_put_index {t : Table} {id : Str} {s : Stores} {d : Db} {k v : Str}
    (hd : d ≠ t.fwd) (h : Issued t id s) : Issued t id (s.put d k v) := by
  obtain ⟨key, hkey⟩ := h
  exact ⟨key, by rw [Stores.put_other s (Ne.symm hd)]; exact hkey⟩

theorem Field.db_ne_fwd (f : Field) (t : Table) : f.db ≠ t.fwd := by
  cases f <;> cases t <;> decide

namespace Stable

/-- One turn of the posting loop. -/
theorem addToken (h : Stable I R) (f : Field) (pageID : Str) (v : InvertedIndexer.Loop)
    (w : Str) :
    Triple (fun x => I x.stores ∧ Issued .page pageID x.stores)
      (InvertedIndexer.addToken f pageID v w)
      (fun _ x => I x.stores ∧ Issued .page pageID x.stores) (fun x => R x.stores) := by
  refine Triple.bind (ensureID_triple (h.and_issued .page pageID) .word w) (fun wordID => ?_)
  refine Triple.bind (Db.get_triple (R := fun (x : World) => R x.stores)) (fun value => ?_)
  refine Triple.bind (Q := fun _ (x : World) => I x.stores ∧ Issued .page pageID x.stores) ?_
    (fun _ => Triple.pure (fun x hx => hx))
  apply Db.put_triple
  · rintro x fs ⟨⟨⟨hI, hpage⟩, hword⟩, hvalue⟩
    refine ⟨?_, issued_put_index (f.db_ne_fwd .page) hpage⟩
    rw [hvalue]
    exact h.posting x.stores f pageID wordID v hI hpage ⟨w, hword⟩
  · rintro x fs ⟨⟨⟨hI, -⟩, -⟩, -⟩
    exact h.abort _ hI

theorem addTokens (h : Stable I R) (f : Field) (pageID : Str) (tokens : List Str) :
    Triple (fun x => I x.stores ∧ Issued .page pageID x.stores)
      (InvertedIndexer.addTokens f pageID tokens)
      (fun _ x => I x.stores ∧ Issued .page pageID x.stores) (fun x => R x.stores) := by
  refine Triple.bind
    (Triple.foldlM (I := fun _ (x : World) => I x.stores ∧ Issued .page pageID x.stores) tokens
      InvertedIndexer.Loop.init (fun v w _ => h.addToken f pageID v w)) (fun _ => ?_)
  exact Triple.pure (fun x hx => hx)

theorem invertedAddEntry (h : Stable I R) (E : Platform) (c : Crawler) :
    Triple (fun x => I x.stores) (InvertedIndexer.addEntry E c) (fun _ x => I x.stores)
      (fun x => R x.stores) := by
  refine Triple.bind (ensureID_triple h.toKeptByIssue .page c.url) (fun pageID => ?_)
  refine Triple.bind
    (Triple.lift (Q := fun _ (x : World) => I x.stores ∧ Issued .page pageID x.stores)
      (fun _ _ x hx => ⟨hx.1, _, hx.2⟩) (fun x hx => h.abort _ hx.1)) (fun title => ?_)
  refine Triple.bind (h.addTokens .title pageID title) (fun _ => ?_)
  refine Triple.bind (Triple.lift (fun _ _ x hx => hx) (fun x hx => h.abort _ hx.1))
    (fun content => ?_)
  exact (h.addTokens .content pageID content).weaken (fun _ hx => hx) (fun _ _ hx => hx.1)
    (fun _ hx => hx)

theorem forwardAddEntry (h : Stable I R) (E : Platform) (c : Crawler) :
    Triple (fun x => I x.stores) (ForwardIndexer.addEntry E c) (fun _ x => I x.stores)
      (fun x => R x.stores) := by
  have hlift : ∀ {α : Type} (x : Except Exn α),
      Triple (fun x : World => I x.stores) (lift x) (fun _ x => I x.stores)
        (fun x => R x.stores) :=
    fun x => Triple.lift (fun _ _ x hx => hx) (fun x hx => h.abort _ hx)
  refine Triple.bind (hlift _) (fun content => ?_)
  refine Triple.bind (hlift _) (fun links => ?_)
  refine Triple.bind
    ((ensureID_triple h.toKeptByIssue .page c.url).weaken (fun _ hx => hx) (fun _ _ hx => hx.1)
      (fun _ hx => hx)) (fun pageID => ?_)
  refine Triple.bind (hlift _) (fun title => ?_)
  refine Triple.bind (hlift _) (fun lastModDate => ?_)
  refine Triple.bind (hlift _) (fun size => ?_)
  refine Triple.bind (hlift _) (fun cleaned => ?_)
  refine Triple.bind (Q := fun _ (x : World) => I x.stores) ?_ (fun map => ?_)
  · refine Triple.foldlM (I := fun _ (x : World) => I x.stores) cleaned [] (fun map key _ => ?_)
    refine Triple.bind (ensureID_triple h.toKeptByIssue .word key) (fun ID => ?_)
    exact Triple.pure (fun x hx => hx.1)
  · exact Db.put_triple (fun x _ hx => h.forward _ _ _ hx) (fun x _ hx => h.abort _ hx)

theorem parentChildAddEntry (h : Stable I R) (c : Crawler) :
    Triple (fun x => I x.stores) (ParentChildIndexer.addEntry c) (fun _ x => I x.stores)
      (fun x => R x.stores) := by
  have hpage : ∀ url, Triple (fun x => I x.stores) (DocumentIndexer.pageID url)
      (fun _ x => I x.stores) (fun x => R x.stores) := fun url =>
    (ensureID_triple h.toKeptByIssue .page url).weaken (fun _ hx => hx) (fun _ _ hx => hx.1)
      (fun _ hx => hx)
  have hparent : ∀ child pageID, Triple (fun x => I x.stores)
      (ParentChildIndexer.addParent child pageID) (fun _ x => I x.stores)
      (fun x => R x.stores) := by
    intro child pageID
    refine Triple.bind
      ((Db.get_triple (R := fun (x : World) => R x.stores)).weaken (fun _ hx => hx)
        (fun _ _ hx => hx.1) (fun _ hx => hx)) (fun o => ?_)
    cases o with
    | none => exact Db.put_triple (fun x _ hx => h.parents _ _ _ hx) (fun x _ hx => h.abort _ hx)
    | some existed =>
      exact Db.put_triple (fun x _ hx => h.parents _ _ _ hx) (fun x _ hx => h.abort _ hx)
  refine Triple.bind (Triple.lift (fun _ _ x hx => hx) (fun x hx => h.abort _ hx))
    (fun links => ?_)
  refine Triple.bind (hpage c.url) (fun pageID => ?_)
  show Triple _ (if 0 < links.length then _ else _) _ _
  split
  · refine Triple.bind (Q := fun _ (x : World) => I x.stores) ?_ (fun asu => ?_)
    · refine Triple.foldlM (I := fun _ (x : World) => I x.stores) links [' '] (fun asu link _ => ?_)
      refine Triple.bind (hpage link) (fun child => ?_)
      refine Triple.bind (hparent child pageID) (fun _ => ?_)
      exact Triple.pure (fun x hx => hx)
    · exact Db.put_triple (fun x _ hx => h.children _ _ _ hx) (fun x _ hx => h.abort _ hx)
  · exact Triple.pure (fun x hx => hx)

theorem addWords (h : Stable I R) (E : Platform) (n : Nat) (c : Crawler) :
    Triple (AtCount I .word n) (WordIndexer.addWords E n c) (AtCount I .word)
      (fun x => R x.stores) := by
  refine Triple.bind (Triple.lift (fun _ _ x hx => hx) (fun x hx => h.abort _ hx.1))
    (fun title => ?_)
  refine Triple.bind
    (Triple.foldlM title n (fun n w _ => assignID_triple h.toKeptByIssue .word n w))
    (fun n' => ?_)
  refine Triple.bind (Triple.lift (fun _ _ x hx => hx) (fun x hx => h.abort _ hx.1))
    (fun content => ?_)
  exact Triple.foldlM content n' (fun n w _ => assignID_triple h.toKeptByIssue .word n w)

/-- **Every call keeps a stable invariant.** -/
theorem call (h : Stable I R) (E : Platform) (call : Call) :
    Triple (fun x => I x.stores) (call.exec E) (fun _ x => I x.stores) (fun x => R x.stores) := by
  have hloop : ∀ (crawlers : List Crawler) (m : Crawler → IndexM Unit),
      (∀ c, Triple (fun x => I x.stores) (m c) (fun _ x => I x.stores) (fun x => R x.stores)) →
      Triple (fun x => I x.stores) (crawlers.foldlM (fun _ c => m c) ())
        (fun _ x => I x.stores) (fun x => R x.stores) :=
    fun crawlers m hm =>
      Triple.foldlM (I := fun _ (x : World) => I x.stores) crawlers () (fun _ c _ => hm c)
  cases call with
  | documentAddEntry c => exact addID_triple h.toKeptByIssue .page c.url
  | documentAddEntryString s => exact addID_triple h.toKeptByIssue .page s
  | documentIndexPages crawlers =>
    refine Triple.bind (count_atCount .page) (fun n => ?_)
    refine Triple.bind (Triple.foldlM crawlers n
      (fun n c _ => assignID_triple h.toKeptByIssue .page n c.url)) (fun _ => ?_)
    exact Triple.pure (fun x hx => hx.1)
  | wordAddEntry newWord => exact addID_triple h.toKeptByIssue .word newWord
  | wordAddEntryCrawler c =>
    refine Triple.bind (count_atCount .word) (fun n => ?_)
    refine Triple.bind (h.addWords E n c) (fun _ => ?_)
    exact Triple.pure (fun x hx => hx.1)
  | wordIndexWords crawlers =>
    refine Triple.bind (count_atCount .word) (fun n => ?_)
    refine Triple.bind (Triple.foldlM crawlers n (fun n c _ => h.addWords E n c)) (fun _ => ?_)
    exact Triple.pure (fun x hx => hx.1)
  | forwardAddEntry c => exact h.forwardAddEntry E c
  | forwardIndexPages crawlers => exact hloop crawlers _ (h.forwardAddEntry E)
  | invertedAddEntry c => exact h.invertedAddEntry E c
  | invertedIndexPages crawlers => exact hloop crawlers _ (h.invertedAddEntry E)
  | parentChildAddEntry c => exact h.parentChildAddEntry c
  | parentChildIndexPages crawlers => exact hloop crawlers _ h.parentChildAddEntry

/-- A stable invariant is kept by every attempt. -/
theorem after {I : Stores → Prop} (h : Stable I I) (E : Platform) (a : Attempt) (s : Stores)
    (hs : I s) : I (a.after E s) :=
  after_of_preserves (fun call => h.call E call) a s hs

end Stable

/-! ## The ID tables over whole runs -/

/-- A store that holds no IDs. -/
def Db.IsIndex (d : Db) : Prop := ∀ t : Table, d ≠ t.fwd ∧ d ≠ t.inv

theorem Db.isIndex_of_not_mem {d : Db}
    (h : d ∉ [Db.document, .invertedDocument, .word, .invertedWord]) : d.IsIndex := by
  intro t
  cases t <;> exact ⟨fun he => h (by simp [he, Table.fwd]), fun he => h (by simp [he, Table.inv])⟩

theorem Field.db_isIndex (f : Field) : f.db.IsIndex := by
  cases f <;> exact Db.isIndex_of_not_mem (by decide)

/-- An invariant that only looks at the ID tables needs no check at the index writes. -/
theorem KeptByIssue.stable (h : KeptByIssue I R)
    (hput : ∀ (s : Stores) d k v, d.IsIndex → I s → I (s.put d k v)) : Stable I R where
  toKeptByIssue := h
  forward s k v hs := hput s _ k v (Db.isIndex_of_not_mem (by decide)) hs
  children s k v hs := hput s _ k v (Db.isIndex_of_not_mem (by decide)) hs
  parents s k v hs := hput s _ k v (Db.isIndex_of_not_mem (by decide)) hs
  posting s f _ _ _ hs _ _ := hput s _ _ _ f.db_isIndex hs

/-- The table is numbered and its inverse table sound. -/
def TableOk (t : Table) (s : Stores) : Prop :=
  Numbered decimal (s t.fwd) ∧ Inverse (s t.inv) (s t.fwd)

/-- The table is numbered and its inverse table exact. -/
def TableExact (t : Table) (s : Stores) : Prop :=
  Numbered decimal (s t.fwd) ∧ ExactInverse (s t.inv) (s t.fwd)

theorem TableExact.ok {t : Table} {s : Stores} (h : TableExact t s) : TableOk t s :=
  ⟨h.1, fun v k => (h.2 v k).mp⟩

theorem tableExact_empty (t : Table) : TableExact t Stores.empty :=
  ⟨numbered_empty decimal, exactInverse_empty⟩

/-- The tables do not see a write to an index store. -/
theorem tableOk_put {t : Table} {s : Stores} {d : Db} (hd : d.IsIndex) (k v : Str)
    (h : TableOk t s) : TableOk t (s.put d k v) := by
  unfold TableOk
  rw [Stores.put_other s (hd t).1.symm, Stores.put_other s (hd t).2.symm]
  exact h

theorem tableExact_put {t : Table} {s : Stores} {d : Db} (hd : d.IsIndex) (k v : Str)
    (h : TableExact t s) : TableExact t (s.put d k v) := by
  unfold TableExact
  rw [Stores.put_other s (hd t).1.symm, Stores.put_other s (hd t).2.symm]
  exact h

theorem tableOk_issueFwd {t t' : Table} {s : Stores} {key : Str} (h : TableOk t s)
    (hnone : (s t'.fwd)[key]? = none) : TableOk t (s.issueFwd t' key) := by
  unfold TableOk
  by_cases ht : t = t'
  · subst ht
    rw [Stores.issueFwd_fwd, Stores.issueFwd_other s key (t.inv_ne_fwd t)]
    exact ⟨h.1.insert decimal_injective hnone, h.2.insert_fwd hnone _⟩
  · rw [Stores.issueFwd_other s key (Table.fwd_ne_of_ne ht),
      Stores.issueFwd_other s key (t.inv_ne_fwd t')]
    exact h

theorem tableOk_issueBoth {t t' : Table} {s : Stores} {key : Str} (h : TableOk t s)
    (hnone : (s t'.fwd)[key]? = none) : TableOk t (s.issueBoth t' key) := by
  unfold TableOk
  by_cases ht : t = t'
  · subst ht
    rw [Stores.issueBoth_fwd, Stores.issueBoth_inv]
    exact ⟨h.1.insert decimal_injective hnone, h.2.insert_both hnone _⟩
  · rw [Stores.issueBoth_other s key (Table.fwd_ne_of_ne ht) (t'.inv_ne_fwd t).symm,
      Stores.issueBoth_other s key (t.inv_ne_fwd t') (Table.inv_ne_of_ne ht)]
    exact h

theorem tableExact_issueBoth {t t' : Table} {s : Stores} {key : Str} (h : TableExact t s)
    (hnone : (s t'.fwd)[key]? = none) : TableExact t (s.issueBoth t' key) := by
  unfold TableExact
  by_cases ht : t = t'
  · subst ht
    rw [Stores.issueBoth_fwd, Stores.issueBoth_inv]
    exact ⟨h.1.insert decimal_injective hnone,
      h.2.insert_both hnone (h.1.next_fresh decimal_injective)⟩
  · rw [Stores.issueBoth_other s key (Table.fwd_ne_of_ne ht) (t'.inv_ne_fwd t).symm,
      Stores.issueBoth_other s key (t.inv_ne_fwd t') (Table.inv_ne_of_ne ht)]
    exact h

/-- The numbering survives everything, aborts included. -/
theorem stable_tableOk (t : Table) : Stable (TableOk t) (TableOk t) :=
  KeptByIssue.stable
    ⟨fun _ hs => hs, fun _ _ _ hs hnone => tableOk_issueFwd hs hnone,
      fun _ _ _ hs hnone => tableOk_issueBoth hs hnone⟩
    (fun _ _ k v hd hs => tableOk_put hd k v hs)

/-- Exactness survives every call that returns. -/
theorem stable_tableExact (t : Table) : Stable (TableExact t) (fun _ => True) :=
  KeptByIssue.stable
    ⟨fun _ _ => trivial, fun _ _ _ _ _ => trivial,
      fun _ _ _ hs hnone => tableExact_issueBoth hs hnone⟩
    (fun _ _ k v hd hs => tableExact_put hd k v hs)

/-- An entry of a table is never changed. -/
theorem stable_entry (t : Table) (key id : Str) :
    Stable (fun s => (s t.fwd)[key]? = some id) (fun s => (s t.fwd)[key]? = some id) := by
  have hmono : ∀ (s : Stores) (t' : Table) (k : Str), (s t.fwd)[key]? = some id →
      (s t'.fwd)[k]? = none → (s.issueFwd t' k t.fwd)[key]? = some id := by
    intro s t' k hs hnone
    by_cases ht : t = t'
    · subst ht
      rw [Stores.issueFwd_fwd]
      exact Stores.get_insert_of_none hnone hs
    · rw [Stores.issueFwd_other s k (Table.fwd_ne_of_ne ht)]
      exact hs
  refine KeptByIssue.stable ⟨fun _ hs => hs, hmono, fun s t' k hs hnone => ?_⟩
    (fun s d k v hd hs => ?_)
  · rw [Stores.issueBoth, Stores.put_other _ (t'.inv_ne_fwd t).symm]
    exact hmono s t' k hs hnone
  · rw [Stores.put_other s (hd t).1.symm]
    exact hs

theorem Reachable.tableOk {E : Platform} {s : Stores} (h : Reachable E s) (t : Table) :
    TableOk t s :=
  h.induct (tableExact_empty t).ok (fun a s hs => (stable_tableOk t).after E a s hs)

/-- A run without an abort keeps a table exact. -/
theorem tableExact_runAll {E : Platform} {t : Table} :
    ∀ (run : List Attempt) (s : Stores), NoneAborted E run s → TableExact t s →
      TableExact t (runAll E run s)
  | [], _, _, hs => hs
  | a :: run, s, ⟨hret, hrest⟩, hs => by
    apply tableExact_runAll run (a.after E s) hrest
    obtain ⟨x, hrun, hafter⟩ := Attempt.ok_of_returns hret
    rw [hafter]
    exact ((stable_tableExact t).call E a.call).of_ok hs hrun

/-- **ID bijection over whole runs, with failures.**  Whatever the calls and wherever their
    `put`s throw: each ID table is injective, its values are exactly the numerals `1 … n`, no
    later call changes an entry or gives its ID to another key, every entry of the inverse table
    turns around an entry of the table — and all of them are turned around when no call was
    aborted. -/
theorem ids_bijective (E : Platform) (t : Table) (run later : List Attempt) :
    let s := runAll E run Stores.empty
    let s' := runAll E later s
    (∀ (k k' id : Str), (s t.fwd)[k]? = some id → (s t.fwd)[k']? = some id → k = k') ∧
    (∀ id : Str, (∃ k : Str, (s t.fwd)[k]? = some id) ↔
      ∃ n, 1 ≤ n ∧ n ≤ (s t.fwd).size ∧ id = decimal n) ∧
    (∀ k id : Str, (s t.fwd)[k]? = some id → (s' t.fwd)[k]? = some id ∧
      ∀ k' : Str, (s' t.fwd)[k']? = some id → k' = k) ∧
    (∀ id k : Str, (s t.inv)[id]? = some k → (s t.fwd)[k]? = some id) ∧
    (NoneAborted E run Stores.empty →
      ∀ id k : Str, (s t.inv)[id]? = some k ↔ (s t.fwd)[k]? = some id) := by
  intro s s'
  have hs : TableOk t s := Reachable.tableOk ⟨run, rfl⟩ t
  have hs' : TableOk t s' :=
    runAll_induct (fun a s hs => (stable_tableOk t).after E a s hs) later s hs
  refine ⟨fun k k' id hk hk' => hs.1.injective hk hk', fun id => ⟨?_, ?_⟩, fun k id hk => ?_,
    hs.2, fun hnone => ?_⟩
  · rintro ⟨k, hk⟩
    exact hs.1.bounded hk
  · rintro ⟨n, h1, hn, rfl⟩
    exact hs.1.covered n h1 hn
  · have hk' : (s' t.fwd)[k]? = some id :=
      runAll_induct (I := fun s => (s t.fwd)[k]? = some id)
        (fun a s hs => (stable_entry t k id).after E a s hs) later s hk
    exact ⟨hk', fun k' h' => hs'.1.injective h' hk'⟩
  · exact (tableExact_runAll run Stores.empty hnone (tableExact_empty t)).2

end SearchEngine
