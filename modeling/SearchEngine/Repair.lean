/-
  What an interrupted assignment leaves behind, and why no later call repairs it.

  An assignment is TWO `put`s, forward table first.  Cut short at the first, it leaves nothing;
  cut short between the two, it leaves a key with an ID that nothing turns around, an ORPHAN.  A
  later call for the same key looks at the forward table alone, finds the ID and is content, so an
  orphan stays one forever (`stable_orphan`).

  Every call of `DocumentIndexer` and `WordIndexer` comes down to one loop over the keys it
  submits (`exec_eq_assignAll`).  A schedule of faults cuts that loop between two `put`s just when
  `inverseFault` says so, and `repaired_iff` puts this together over whole runs.
-/
import SearchEngine.IdAssignment
import Mathlib.Tactic.Common

namespace SearchEngine

open Text Numeral Effect NumberedMap

/-! ## The keys of a call -/

/-- The words a page submits: its title, and its content unless that cannot be read. -/
def submitted (E : Platform) (c : Crawler) : List Str :=
  match Crawler.titleTokens E c.parser with
  | .error _ => []
  | .ok title =>
    match Crawler.contentTokens E c.parser with
    | .error _ => title
    | .ok content => title ++ content

/-- Can both parts of the page be read? -/
def readable (E : Platform) (c : Crawler) : Bool :=
  (Crawler.titleTokens E c.parser).isOk && (Crawler.contentTokens E c.parser).isOk

/-- The words a batch of pages submits, up to the page that ends it. -/
def submittedAll (E : Platform) : List Crawler → List Str
  | [] => []
  | c :: cs => submitted E c ++ if readable E c then submittedAll E cs else []

/-- The table a call of one of the two ID indexers works on. -/
def Call.table : Call → Option Table
  | .documentAddEntry _ => some .page
  | .documentAddEntryString _ => some .page
  | .documentIndexPages _ => some .page
  | .wordAddEntry _ => some .word
  | .wordAddEntryCrawler _ => some .word
  | .wordIndexWords _ => some .word
  | _ => none

/-- The keys it submits, in order. -/
def Call.keys (E : Platform) : Call → List Str
  | .documentAddEntry c => [c.url]
  | .documentAddEntryString s => [s]
  | .documentIndexPages crawlers => crawlers.map Crawler.url
  | .wordAddEntry newWord => [newWord]
  | .wordAddEntryCrawler c => submitted E c
  | .wordIndexWords crawlers => submittedAll E crawlers
  | _ => []

/-- Count the keys, then assign one after the other. -/
def assignAll (t : Table) (keys : List Str) : IndexM Unit := do
  let lastID ← t.fwd.count
  let _ ← keys.foldlM (assignID t.fwd t.inv) lastID

theorem finalState_bind_pure {α β : Type} (m : IndexM α) (f : α → β) (x : World) :
    finalState ((m >>= fun a => pure (f a)) x) = finalState (m x) := by
  cases hrun : m x with
  | ok a x' => rw [bind_run_ok hrun]; rfl
  | error e x' => rw [bind_run_error hrun]; rfl

/-- Programs that stop in the same state still do so with more in front of them. -/
theorem finalState_bind_congr {α β γ : Type} {m : IndexM α} {f : α → IndexM β} {g : α → IndexM γ}
    {x : World} (h : ∀ a x', m x = .ok a x' → finalState (f a x') = finalState (g a x')) :
    finalState ((m >>= f) x) = finalState ((m >>= g) x) := by
  cases hrun : m x with
  | ok a x' => rw [bind_run_ok hrun, bind_run_ok hrun, h a x' hrun]
  | error e x' =>
    rw [bind_run_error hrun, bind_run_error hrun]
    rfl

/-- A page that can be read: both loops are one. -/
theorem addWords_of_readable {E : Platform} {c : Crawler} (h : readable E c = true) (n : Nat) :
    WordIndexer.addWords E n c = (submitted E c).foldlM (assignID .word .invertedWord) n := by
  unfold readable at h
  unfold WordIndexer.addWords submitted
  cases htitle : Crawler.titleTokens E c.parser with
  | error e =>
    rw [htitle] at h
    exact absurd h (by simp [Except.isOk, Except.toBool])
  | ok title =>
    cases hcontent : Crawler.contentTokens E c.parser with
    | error e =>
      rw [hcontent] at h
      exact absurd h (by simp [Except.isOk, Except.toBool])
    | ok content =>
      simp only [htitle, hcontent, List.foldlM_append]
      rfl

/-- A page that cannot: the words in front are submitted, and then the call throws. -/
theorem addWords_of_not_readable {E : Platform} {c : Crawler} (h : readable E c = false) (n : Nat)
    (x : World) :
    ∃ e, WordIndexer.addWords E n c x
      = .error e (finalState ((submitted E c).foldlM (assignID .word .invertedWord) n x)) := by
  unfold readable at h
  unfold WordIndexer.addWords submitted
  cases htitle : Crawler.titleTokens E c.parser with
  | error e => exact ⟨e, rfl⟩
  | ok title =>
    cases hcontent : Crawler.contentTokens E c.parser with
    | ok content =>
      rw [htitle, hcontent] at h
      exact absurd h (by simp [Except.isOk, Except.toBool])
    | error e =>
      show ∃ e', (title.foldlM (assignID .word .invertedWord) n >>= fun _ => throw e) x = _
      cases hrun : title.foldlM (assignID .word .invertedWord) n x with
      | ok n' x' => exact ⟨e, bind_run_ok hrun _⟩
      | error e' x' => exact ⟨e', bind_run_error hrun _⟩

theorem foldlM_addWords (E : Platform) :
    ∀ (crawlers : List Crawler) (n : Nat) (x : World),
      finalState (crawlers.foldlM (WordIndexer.addWords E) n x)
        = finalState ((submittedAll E crawlers).foldlM (assignID .word .invertedWord) n x)
  | [], n, x => rfl
  | c :: crawlers, n, x => by
    rw [List.foldlM_cons, submittedAll]
    cases hread : readable E c with
    | true =>
      rw [if_pos rfl, List.foldlM_append, addWords_of_readable hread]
      exact finalState_bind_congr (fun n' x' _ => foldlM_addWords E crawlers n' x')
    | false =>
      obtain ⟨e, hrun⟩ := addWords_of_not_readable hread n x
      rw [bind_run_error hrun, if_neg (by decide), List.append_nil]
      rfl

/-- **Every call of the two ID indexers** stops where the plain loop over its keys stops. -/
theorem exec_eq_assignAll {E : Platform} {call : Call} {t : Table} (h : call.table = some t)
    (x : World) : finalState (call.exec E x) = finalState (assignAll t (call.keys E) x) := by
  have hone : ∀ (t : Table) (key : Str),
      finalState (addID t.fwd t.inv key x) = finalState (assignAll t [key] x) := by
    intro t key
    refine finalState_bind_congr (fun n x' _ => ?_)
    rw [finalState_bind_pure, finalState_bind_pure, List.foldlM_cons]
    exact (finalState_bind_pure _ id x').symm
  cases call with
  | documentAddEntry c =>
    obtain rfl := Option.some.inj h
    exact hone .page c.url
  | documentAddEntryString s =>
    obtain rfl := Option.some.inj h
    exact hone .page s
  | documentIndexPages crawlers =>
    obtain rfl := Option.some.inj h
    refine finalState_bind_congr (fun n x' _ => ?_)
    rw [finalState_bind_pure, finalState_bind_pure]
    show _ = finalState ((crawlers.map Crawler.url).foldlM
      (assignID .document .invertedDocument) n x')
    rw [List.foldlM_map]
  | wordAddEntry newWord =>
    obtain rfl := Option.some.inj h
    exact hone .word newWord
  | wordAddEntryCrawler c =>
    obtain rfl := Option.some.inj h
    refine finalState_bind_congr (fun n x' _ => ?_)
    rw [finalState_bind_pure, finalState_bind_pure]
    cases hread : readable E c with
    | true => rw [addWords_of_readable hread]; rfl
    | false =>
      obtain ⟨e, hrun⟩ := addWords_of_not_readable hread n x'
      rw [hrun]
      rfl
  | wordIndexWords crawlers =>
    obtain rfl := Option.some.inj h
    refine finalState_bind_congr (fun n x' _ => ?_)
    rw [finalState_bind_pure, finalState_bind_pure]
    exact foldlM_addWords E crawlers n x'
  | forwardAddEntry c => cases h
  | forwardIndexPages crawlers => cases h
  | invertedAddEntry c => cases h
  | invertedIndexPages crawlers => cases h
  | parentChildAddEntry c => cases h
  | parentChildIndexPages crawlers => cases h

/-! ## One loop -/

/-- The keys of the list that are not in the table yet, each once: those that get an ID. -/
def newKeys (t : Table) (s : Stores) (keys : List Str) : List Str :=
  (keys.filter (fun key => (s t.fwd)[key]?.isNone)).eraseDups

/-- With `n` assignments of two `put`s each ahead: is the first `put` that throws one into the
    inverse table? -/
def inverseFault : Nat → List Bool → Bool
  | 0, _ => false
  | _ + 1, false :: true :: _ => true
  | n + 1, false :: false :: faults => inverseFault n faults
  | _ + 1, _ => false

theorem newKeys_cons_of_some {t : Table} {s : Stores} {key id : Str} (keys : List Str)
    (h : (s t.fwd)[key]? = some id) : newKeys t s (key :: keys) = newKeys t s keys := by
  rw [newKeys, List.filter_cons_of_neg (by simp [h]), newKeys]

theorem newKeys_cons_of_none {t : Table} {s : Stores} {key : Str} (keys : List Str)
    (h : (s t.fwd)[key]? = none) :
    newKeys t s (key :: keys) = key :: newKeys t (s.issueBoth t key) keys := by
  have hstep : ∀ k : Str, ((s.issueBoth t key t.fwd)[k]?.isNone)
      = ((s t.fwd)[k]?.isNone && !k == key) := by
    intro k
    rw [Stores.issueBoth_fwd, get_insert]
    by_cases hk : key = k
    · subst hk
      simp
    · simp [hk, Ne.symm hk]
  rw [newKeys, List.filter_cons_of_pos (by rw [h]; rfl), List.eraseDups_cons, List.filter_filter,
    newKeys]
  simp only [hstep, Bool.and_comm]

/-- An assignment that is cut short between its two `put`s. -/
theorem not_exact_issueFwd {t : Table} {s : Stores} {key : Str} (h : TableExact t s)
    (hnone : (s t.fwd)[key]? = none) : ¬ TableExact t (s.issueFwd t key) := by
  intro hexact
  have hget : (s.issueFwd t key t.fwd)[key]? = some (decimal ((s t.fwd).size + 1)) := by
    rw [Stores.issueFwd_fwd]
    exact get_insert_self _ _ _
  have hinv := (hexact.2 _ _).mpr hget
  rw [Stores.issueFwd_other s key (t.inv_ne_fwd t), h.2, hnone] at hinv
  exact absurd hinv (by simp)

/-- **An assignment for a new key**, told by its schedule: both `put`s succeed, the first one
    throws, or the second one does. -/
theorem assignID_of_none {t : Table} {s : Stores} {key : Str} (hnone : (s t.fwd)[key]? = none)
    (faults : List Bool) :
    (∃ fs, assignID t.fwd t.inv (s t.fwd).size key ⟨s, faults⟩
        = .ok ((s t.fwd).size + 1) ⟨s.issueBoth t key, fs⟩ ∧
      ∀ n, inverseFault (n + 1) faults = inverseFault n fs) ∨
    (∃ fs, assignID t.fwd t.inv (s t.fwd).size key ⟨s, faults⟩ = .error .rocksDB ⟨s, fs⟩ ∧
      ∀ n, inverseFault (n + 1) faults = false) ∨
    (∃ fs, assignID t.fwd t.inv (s t.fwd).size key ⟨s, faults⟩
        = .error .rocksDB ⟨s.issueFwd t key, fs⟩ ∧
      ∀ n, inverseFault (n + 1) faults = true) := by
  have hstart : ∀ f : Option Str → IndexM Nat,
      (t.fwd.get key >>= f) ⟨s, faults⟩ = f none ⟨s, faults⟩ :=
    fun f => bind_run_ok (by rw [← hnone]; rfl) f
  have hnil : ∀ n, inverseFault n [] = false := by
    intro n
    cases n <;> rfl
  rcases faults with _ | ⟨_ | _, _ | ⟨_ | _, fs⟩⟩
  · exact Or.inl ⟨[], hstart _, fun n => (hnil n).symm⟩
  · exact Or.inl ⟨[], hstart _, fun n => (hnil n).symm⟩
  · exact Or.inl ⟨fs, hstart _, fun n => rfl⟩
  · exact Or.inr (Or.inr ⟨fs, hstart _, fun n => rfl⟩)
  · exact Or.inr (Or.inl ⟨[], hstart _, fun n => rfl⟩)
  · exact Or.inr (Or.inl ⟨false :: fs, hstart _, fun n => rfl⟩)
  · exact Or.inr (Or.inl ⟨true :: fs, hstart _, fun n => rfl⟩)

/-- **The loop**: from an exact table on, the table is exact where the loop stops, unless a `put`
    into the inverse table was the first one to throw. -/
theorem assign_loop {t : Table} :
    ∀ (keys : List Str) (s : Stores) (faults : List Bool), TableExact t s →
      (TableExact t (finalState
          (keys.foldlM (assignID t.fwd t.inv) (s t.fwd).size ⟨s, faults⟩)).stores ↔
        inverseFault (newKeys t s keys).length faults = false)
  | [], s, faults, hs => ⟨fun _ => rfl, fun _ => hs⟩
  | key :: keys, s, faults, hs => by
    rw [List.foldlM_cons]
    cases hget : (s t.fwd)[key]? with
    | some id =>
      have hrun : assignID t.fwd t.inv (s t.fwd).size key ⟨s, faults⟩
          = .ok (s t.fwd).size ⟨s, faults⟩ :=
        bind_ok.mpr ⟨some id, ⟨s, faults⟩, by rw [← hget]; rfl, rfl⟩
      rw [bind_run_ok hrun, newKeys_cons_of_some keys hget]
      exact assign_loop keys s faults hs
    | none =>
      rw [newKeys_cons_of_none keys hget, List.length_cons]
      rcases assignID_of_none hget faults with ⟨fs, hrun, hfault⟩ | ⟨fs, hrun, hfault⟩ |
        ⟨fs, hrun, hfault⟩
      · rw [bind_run_ok hrun, hfault, ← Stores.size_issueBoth hget]
        exact assign_loop keys _ fs (tableExact_issueBoth hs hget)
      · rw [bind_run_error hrun, hfault]
        exact ⟨fun _ => rfl, fun _ => hs⟩
      · rw [bind_run_error hrun, hfault]
        exact ⟨fun hcon => absurd hcon (not_exact_issueFwd hs hget), fun hcon => by cases hcon⟩

/-! ## Orphans -/

/-- `key` has the ID `id`, which nothing turns around. -/
def Orphan (t : Table) (key id : Str) (s : Stores) : Prop :=
  TableOk t s ∧ (s t.fwd)[key]? = some id ∧ (s t.inv)[id]? = none

/-- A numbered table that is not exact has an orphan. -/
theorem exists_orphan {t : Table} {s : Stores} (h : TableOk t s) (hnot : ¬ TableExact t s) :
    ∃ key id, Orphan t key id s := by
  by_contra hno
  refine hnot ⟨h.1, fun id key => ⟨h.2 id key, fun hkey => ?_⟩⟩
  cases hinv : (s t.inv)[id]? with
  | none => exact absurd ⟨key, id, h, hkey, hinv⟩ hno
  | some key' =>
    obtain rfl : key' = key := h.1.injective (h.2 id key' hinv) hkey
    rfl

theorem Orphan.not_exact {t : Table} {key id : Str} {s : Stores} (h : Orphan t key id s) :
    ¬ TableExact t s := by
  intro hexact
  have hinv := (hexact.2 id key).mpr h.2.1
  rw [h.2.2] at hinv
  exact absurd hinv (by simp)

/-- **Nothing repairs an orphan**: later IDs are other IDs. -/
theorem stable_orphan (t : Table) (key id : Str) : Stable (Orphan t key id) (Orphan t key id) := by
  have hfwd : ∀ (s : Stores) (t' : Table) (k : Str), Orphan t key id s →
      (s t'.fwd)[k]? = none → Orphan t key id (s.issueFwd t' k) := by
    rintro s t' k ⟨hok, hkey, hinv⟩ hnone
    refine ⟨tableOk_issueFwd hok hnone, (stable_entry t key id).half s t' k hkey hnone, ?_⟩
    rw [Stores.issueFwd_other s k (t.inv_ne_fwd t')]
    exact hinv
  refine KeptByIssue.stable ⟨fun _ hs => hs, hfwd, ?_⟩ ?_
  · rintro s t' k ⟨hok, hkey, hinv⟩ hnone
    refine ⟨tableOk_issueBoth hok hnone, (stable_entry t key id).whole s t' k hkey hnone, ?_⟩
    by_cases ht : t = t'
    · subst ht
      rw [Stores.issueBoth_inv, get_insert_ne _ ?_]
      · exact hinv
      · rintro rfl
        exact hok.1.next_fresh decimal_injective key hkey
    · rw [Stores.issueBoth_other s k (t.inv_ne_fwd t') (Table.inv_ne_of_ne ht)]
      exact hinv
  · rintro s d k v hd ⟨hok, hkey, hinv⟩
    refine ⟨tableOk_put hd k v hok, ?_, ?_⟩
    · rw [Stores.put_other s (hd t).1.symm]
      exact hkey
    · rw [Stores.put_other s (hd t).2.symm]
      exact hinv

/-! ## Whole runs -/

/-- The attempt, made in the stores `s`, is not cut short between two `put`s. -/
def Attempt.Clean (E : Platform) (t : Table) (a : Attempt) (s : Stores) : Prop :=
  inverseFault (newKeys t s (a.call.keys E)).length a.faults = false

instance (E : Platform) (t : Table) (a : Attempt) (s : Stores) : Decidable (a.Clean E t s) :=
  inferInstanceAs (Decidable (_ = _))

/-- **One step of a run.** -/
theorem exact_after_iff {E : Platform} {t : Table} {a : Attempt} {s : Stores}
    (ht : a.call.table = some t) (hs : TableExact t s) :
    TableExact t (a.after E s) ↔ a.Clean E t s := by
  have hfinal : a.after E s = (finalState ((a.call.keys E).foldlM (assignID t.fwd t.inv)
      (s t.fwd).size ⟨s, a.faults⟩)).stores := by
    unfold Attempt.after Attempt.outcome
    rw [exec_eq_assignAll ht, assignAll, bind_run_ok (Db.count_run t.fwd ⟨s, a.faults⟩),
      finalState_bind_pure]
  rw [hfinal]
  exact assign_loop _ s a.faults hs

/-- From an exact table on, a run leaves an exact table just when every step was clean. -/
theorem exact_runAll_iff {E : Platform} {t : Table} :
    ∀ (run : List Attempt) (s : Stores), (∀ a ∈ run, a.call.table = some t) → TableExact t s →
      (TableExact t (runAll E run s) ↔
        ∀ (n : Nat) (a : Attempt), run[n]? = some a → a.Clean E t (runAll E (run.take n) s))
  | [], s, _, hs => ⟨fun _ n a h => absurd h (by simp), fun _ => hs⟩
  | a :: run, s, htable, hs => by
    have hstep := exact_after_iff (E := E) (htable a (by simp)) hs
    have htail : ∀ b ∈ run, b.call.table = some t :=
      fun b hb => htable b (List.mem_cons_of_mem a hb)
    constructor
    · intro hexact
      -- an orphan behind the first step would still be there
      have hfirst : TableExact t (a.after E s) := by
        by_contra hnot
        obtain ⟨key, id, horphan⟩ :=
          exists_orphan ((stable_tableOk t).after E a s hs.ok) hnot
        exact (runAll_induct (fun b s' hs' => (stable_orphan t key id).after E b s' hs') run _
          horphan).not_exact hexact
      intro n b hn
      cases n with
      | zero =>
        obtain rfl : a = b := by simpa using hn
        exact hstep.mp hfirst
      | succ n => exact (exact_runAll_iff run _ htail hfirst).mp hexact n b hn
    · intro hclean
      have hfirst := hstep.mpr (hclean 0 a rfl)
      exact (exact_runAll_iff run _ htail hfirst).mpr (fun n b hn => hclean (n + 1) b hn)

/-- **When a later call repairs.**  For every run of calls of one of the two ID indexers, from
    empty stores on and with any failing `put`s, and all calls afterwards that return: the inverse
    table is the exact inverse of the table if and only if in no call of the run the first `put`
    that threw was one into the inverse table. -/
theorem repaired_iff (E : Platform) (t : Table) (run later : List Attempt)
    (htable : ∀ a ∈ run, a.call.table = some t)
    (hlater : NoneAborted E later (runAll E run Stores.empty)) :
    ExactInverse (runAll E later (runAll E run Stores.empty) t.inv)
        (runAll E later (runAll E run Stores.empty) t.fwd) ↔
      ∀ (n : Nat) (a : Attempt), run[n]? = some a →
        a.Clean E t (runAll E (run.take n) Stores.empty) := by
  have hok : TableOk t (runAll E run Stores.empty) := Reachable.tableOk ⟨run, rfl⟩ t
  have hok' : TableOk t (runAll E later (runAll E run Stores.empty)) :=
    runAll_induct (fun a s hs => (stable_tableOk t).after E a s hs) later _ hok
  rw [← exact_runAll_iff run Stores.empty htable (tableExact_empty t)]
  constructor
  · intro hinv
    by_contra hnot
    obtain ⟨key, id, horphan⟩ := exists_orphan hok hnot
    exact (runAll_induct (fun a s hs => (stable_orphan t key id).after E a s hs) later _
      horphan).not_exact ⟨hok'.1, hinv⟩
  · intro hexact
    exact (tableExact_runAll later _ hlater hexact).2

/-- A first `put` that throws is made up for. -/
theorem repaired_first_put :
    ExactInverse
      (runAll asciiPlatform [⟨.documentAddEntryString ['a'], []⟩]
        (runAll asciiPlatform [⟨.documentAddEntryString ['a'], [true]⟩] Stores.empty)
        Table.page.inv)
      (runAll asciiPlatform [⟨.documentAddEntryString ['a'], []⟩]
        (runAll asciiPlatform [⟨.documentAddEntryString ['a'], [true]⟩] Stores.empty)
        Table.page.fwd) := by
  refine (repaired_iff asciiPlatform .page [⟨.documentAddEntryString ['a'], [true]⟩]
    [⟨.documentAddEntryString ['a'], []⟩] (by simp [Call.table])
    ⟨by decide +kernel, trivial⟩).mpr (fun n a hn => ?_)
  cases n with
  | zero =>
    obtain rfl : _ = a := by simpa using hn
    decide +kernel
  | succ n => exact absurd hn (by simp)

/-- A second one is not: the URL has an ID without an entry in `invertedDocument`, and the call
    that is repeated sees the ID and leaves it so. -/
theorem orphan_never_repaired :
    ¬ ∀ (E : Platform) (t : Table) (run later : List Attempt),
      (∀ a ∈ run, a.call.table = some t) → NoneAborted E later (runAll E run Stores.empty) →
      (∀ a ∈ run, ∀ key ∈ a.call.keys E, ∃ b ∈ later, key ∈ b.call.keys E) →
      ExactInverse (runAll E later (runAll E run Stores.empty) t.inv)
        (runAll E later (runAll E run Stores.empty) t.fwd) := by
  intro h
  have hinv := h asciiPlatform .page [⟨.documentAddEntryString ['a'], [false, true]⟩]
    [⟨.documentAddEntryString ['a'], []⟩] (by simp [Call.table]) ⟨by decide +kernel, trivial⟩
    (by simp [Call.keys])
  have hentry := (hinv ['1'] ['a']).mpr (by decide +kernel)
  revert hentry
  decide +kernel

end SearchEngine
