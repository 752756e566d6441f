/-
  When `index_ranks` stops.

  One turn recomputes the rank of one page and says whether it stayed the same; a sweep is one
  turn for every key of `ParentChildIndexInverted`, and leaves behind a list of such flags.  The
  counter of `index_ranks` is set to zero ONCE and then counts the flags of all sweeps together,
  so the loop stops behind the sweep in which the unchanged ranks of the whole history reach the
  number of keys (`rounds_sweeps`, `sweepRound_done`), which need not be a sweep that changed
  nothing.

  `convergence_sound_iff` says exactly when the stop can be trusted, `stable_sweep_is_last_iff`
  when a sweep that changes nothing is the last one.
-/
import SearchEngine.ExactRanks
import Mathlib.Tactic.Common

namespace SearchEngine

open Text Numeral Effect NumberedMap

namespace PageRankIndexer

variable {R : Type} {A : RankArithmetic R}

/-! ## One turn -/

theorem look_ok {α : Type} {f : Stores → Except Exn α} {a : α} {x x' : World} :
    look f x = .ok a x' ↔ f x.stores = .ok a ∧ x = x' :=
  lift_ok

section Turn

variable [DecidableEq R]

/-- What one turn reads, answers and writes. -/
theorem indexRank_ok {e : Str × Str} {x x' : World} {equal : Bool}
    (h : indexRank A e x = .ok equal x') :
    ∃ rank rankD, newRank A x.stores e.2 = .ok rank ∧ storedRank A x.stores e.1 = .ok rankD ∧
      equal = decide (rank = rankD) ∧
      x'.stores = x.stores.put .pageRankIndex e.1 (A.toText rank) := by
  obtain ⟨rank, x₁, hlook, hrest⟩ := bind_ok.mp h
  obtain ⟨hnew, rfl⟩ := look_ok.mp hlook
  obtain ⟨rankD, x₂, hlook₂, hrest₂⟩ := bind_ok.mp hrest
  obtain ⟨hold, rfl⟩ := look_ok.mp hlook₂
  obtain ⟨u, x₃, hput, hpure⟩ := bind_ok.mp hrest₂
  obtain ⟨rfl, rfl⟩ := pure_ok.mp hpure
  exact ⟨rank, rankD, hnew, hold, rfl, Db.put_ok hput⟩

end Turn

/-! ## Ranks, read back -/

theorem storedRank_put_same (s : Stores) (key : Str) (r : R) :
    storedRank A (s.put .pageRankIndex key (A.toText r)) key = .ok r := by
  rw [storedRank, Stores.fetch, Stores.put_same, get_insert_self, except_ok_bind, A.valueOf_toText]

theorem storedRank_put_ne (s : Stores) {key key' : Str} (h : key' ≠ key) (v : Str) :
    storedRank A (s.put .pageRankIndex key v) key' = storedRank A s key' := by
  rw [storedRank, storedRank, Stores.fetch, Stores.fetch, Stores.put_same,
    get_insert_ne _ (Ne.symm h)]

/-- The update only sees the ranks that are stored, and the children of the parents. -/
theorem newRank_congr {s s' : Stores} (hrank : ∀ key, storedRank A s' key = storedRank A s key)
    (hchild : s' .parentChildIndex = s .parentChildIndex) (value : Str) :
    newRank A s' value = newRank A s value := by
  have hparent : ∀ parent, computePageRank A s' parent = computePageRank A s parent := by
    intro parent
    rw [computePageRank, computePageRank, hrank, Stores.fetch, Stores.fetch, hchild]
  simp only [newRank, hparent]

/-- No rank changes any more: what the update computes is what is stored. -/
def FixedPoint (A : RankArithmetic R) (s : Stores) : Prop :=
  ∀ c v : Str, (s .parentChildIndexInverted)[c]? = some v →
    ∃ rank, newRank A s v = .ok rank ∧ storedRank A s c = .ok rank

/-! ## Sweeps -/

section Sweeps

variable [DecidableEq R]

/-- Turns for a list of pages, with the flag of each. -/
inductive Turns (A : RankArithmetic R) :
    List (Str × Str) → World → List Bool → World → Prop where
  | nil (x : World) : Turns A [] x [] x
  | cons {e : Str × Str} {es : List (Str × Str)} {x x₁ x' : World} {equal : Bool}
      {flags : List Bool} (h : indexRank A e x = .ok equal x₁) (rest : Turns A es x₁ flags x') :
      Turns A (e :: es) x (equal :: flags) x'

/-- One whole sweep, with the flag of each key. -/
def Swept (A : RankArithmetic R) (x : World) (flags : List Bool) (x' : World) : Prop :=
  Turns A (x.stores .parentChildIndexInverted).toList x flags x'

/-- Sweeps in a row, with the flags of each. -/
inductive Sweeps (A : RankArithmetic R) : World → List (List Bool) → World → Prop where
  | nil (x : World) : Sweeps A x [] x
  | cons {x x₁ x' : World} {flags : List Bool} {hist : List (List Bool)}
      (h : Swept A x flags x₁) (rest : Sweeps A x₁ hist x') : Sweeps A x (flags :: hist) x'

/-- How many ranks the sweeps of a history left unchanged, counted over all of them. -/
def unchanged (hist : List (List Bool)) : Nat := hist.flatten.count true

theorem unchanged_cons (flags : List Bool) (hist : List (List Bool)) :
    unchanged (flags :: hist) = flags.count true + unchanged hist := by
  rw [unchanged, List.flatten_cons, List.count_append, unchanged]

theorem unchanged_append (hist hist' : List (List Bool)) :
    unchanged (hist ++ hist') = unchanged hist + unchanged hist' := by
  rw [unchanged, List.flatten_append, List.count_append, unchanged, unchanged]

theorem count_le_unchanged {flags : List Bool} {hist : List (List Bool)} (h : flags ∈ hist) :
    flags.count true ≤ unchanged hist := by
  obtain ⟨pre, post, rfl⟩ := List.append_of_mem h
  rw [unchanged_append, unchanged_cons]
  omega

theorem stable_of_not_mem {flags : List Bool} (h : false ∉ flags) : ∀ b ∈ flags, b = true := by
  intro b hb
  cases b with
  | true => rfl
  | false => exact absurd hb h

theorem count_true_of_stable {flags : List Bool} (h : ∀ b ∈ flags, b = true) :
    flags.count true = flags.length :=
  List.count_eq_length.mpr (fun b hb => (h b hb).symm)

namespace Turns

theorem length {es : List (Str × Str)} {x x' : World} {flags : List Bool}
    (h : Turns A es x flags x') : flags.length = es.length := by
  induction h with
  | nil x => rfl
  | cons _ _ ih => rw [List.length_cons, List.length_cons, ih]

/-- Only ranks are written. -/
theorem frame {es : List (Str × Str)} {x x' : World} {flags : List Bool}
    (h : Turns A es x flags x') {d : Db} (hd : d ≠ .pageRankIndex) :
    x'.stores d = x.stores d := by
  induction h with
  | nil x => rfl
  | cons hturn _ ih =>
    obtain ⟨rank, rankD, -, -, -, hx₁⟩ := indexRank_ok hturn
    rw [ih, hx₁, Stores.put_other _ hd]

theorem unique {es : List (Str × Str)} {x x₁ x₂ : World} {flags₁ flags₂ : List Bool}
    (h₁ : Turns A es x flags₁ x₁) (h₂ : Turns A es x flags₂ x₂) : flags₁ = flags₂ ∧ x₁ = x₂ := by
  induction h₁ generalizing flags₂ with
  | nil x =>
    cases h₂
    exact ⟨rfl, rfl⟩
  | cons hturn _ ih =>
    cases h₂ with
    | cons hturn' rest' =>
      rw [hturn] at hturn'
      cases hturn'
      obtain ⟨rfl, rfl⟩ := ih rest'
      exact ⟨rfl, rfl⟩

/-- Turns that change nothing: the stored ranks mean the same as before, and each one is what the
    update computes. -/
theorem of_stable {es : List (Str × Str)} {x x' : World} {flags : List Bool}
    (h : Turns A es x flags x') (hall : ∀ b ∈ flags, b = true) :
    (∀ key, storedRank A x'.stores key = storedRank A x.stores key) ∧
    ∀ e ∈ es, ∃ rank, newRank A x.stores e.2 = .ok rank ∧
      storedRank A x.stores e.1 = .ok rank := by
  induction h with
  | nil x => exact ⟨fun key => rfl, by simp⟩
  | @cons e es x x₁ x' equal flags hturn rest ih =>
    obtain ⟨ihrank, ihnew⟩ := ih (fun b hb => hall b (List.mem_cons_of_mem equal hb))
    obtain ⟨rank, rankD, hnew, hold, hequal, hx₁⟩ := indexRank_ok hturn
    obtain rfl : rank = rankD := by
      rw [hall equal List.mem_cons_self] at hequal
      exact of_decide_eq_true hequal.symm
    -- the text of the rank may be a new one, its value is not
    have hsame : ∀ key, storedRank A x₁.stores key = storedRank A x.stores key := by
      intro key
      rw [hx₁]
      by_cases hkey : key = e.1
      · rw [hkey, storedRank_put_same, hold]
      · rw [storedRank_put_ne _ hkey]
    have hchild : x₁.stores .parentChildIndex = x.stores .parentChildIndex := by
      rw [hx₁, Stores.put_other _ (by decide)]
    refine ⟨fun key => (ihrank key).trans (hsame key), fun e' he' => ?_⟩
    rcases List.mem_cons.mp he' with rfl | he'
    · exact ⟨rank, hnew, hold⟩
    · obtain ⟨rank', hnew', hold'⟩ := ihnew e' he'
      rw [newRank_congr hsame hchild] at hnew'
      rw [hsame] at hold'
      exact ⟨rank', hnew', hold'⟩

end Turns

namespace Swept

theorem length {x x' : World} {flags : List Bool} (h : Swept A x flags x') :
    flags.length = (x.stores .parentChildIndexInverted).size := by
  rw [Turns.length h, Std.ExtTreeMap.length_toList]

theorem size_eq {x x' : World} {flags : List Bool} (h : Swept A x flags x') :
    (x'.stores .parentChildIndexInverted).size = (x.stores .parentChildIndexInverted).size := by
  rw [Turns.frame h (by decide)]

/-- Behind a sweep that changed nothing, the ranks are a fixed point. -/
theorem fixedPoint {x x' : World} {flags : List Bool} (h : Swept A x flags x')
    (hall : ∀ b ∈ flags, b = true) : FixedPoint A x'.stores := by
  obtain ⟨hrank, hnew⟩ := Turns.of_stable h hall
  intro c v hv
  rw [Turns.frame h (by decide)] at hv
  obtain ⟨rank, hr, hs⟩ := hnew (c, v) (Std.ExtTreeMap.mem_toList_iff_getElem?_eq_some.mpr hv)
  refine ⟨rank, ?_, ?_⟩
  · rw [newRank_congr hrank (Turns.frame h (by decide))]
    exact hr
  · rw [hrank]
    exact hs

end Swept

namespace Sweeps

theorem snoc {x x₁ x' : World} {hist : List (List Bool)} {flags : List Bool}
    (h : Sweeps A x hist x₁) (hlast : Swept A x₁ flags x') : Sweeps A x (hist ++ [flags]) x' := by
  induction h with
  | nil x => exact .cons hlast (.nil x')
  | cons hfirst _ ih => exact .cons hfirst (ih hlast)

/-- A history can be cut anywhere. -/
theorem split {x x' : World} {hist post : List (List Bool)} (h : Sweeps A x (hist ++ post) x') :
    ∃ x₁, Sweeps A x hist x₁ ∧ Sweeps A x₁ post x' := by
  induction hist generalizing x with
  | nil => exact ⟨x, .nil x, h⟩
  | cons flags hist ih =>
    cases h with
    | cons hfirst hrest =>
      obtain ⟨x₁, hhist, hpost⟩ := ih hrest
      exact ⟨x₁, .cons hfirst hhist, hpost⟩

/-- The last sweep of a history that is not empty. -/
theorem exists_last {x x' : World} {hist : List (List Bool)} {flags : List Bool}
    (h : Sweeps A x (hist ++ [flags]) x') : ∃ x₁, Sweeps A x hist x₁ ∧ Swept A x₁ flags x' := by
  obtain ⟨x₁, hhist, hlast⟩ := h.split
  cases hlast with
  | cons hswept hrest =>
    cases hrest
    exact ⟨x₁, hhist, hswept⟩

/-- Sweeps are determined by the state they start from: of two histories one goes on from the
    other. -/
theorem comparable {x x₁ x₂ : World} {hist₁ hist₂ : List (List Bool)} (h₁ : Sweeps A x hist₁ x₁)
    (h₂ : Sweeps A x hist₂ x₂) : hist₁ <+: hist₂ ∨ hist₂ <+: hist₁ := by
  induction h₁ generalizing hist₂ with
  | nil x => exact Or.inl (List.nil_prefix)
  | cons hfirst _ ih =>
    cases h₂ with
    | nil => exact Or.inr (List.nil_prefix)
    | cons hfirst' hrest' =>
      obtain ⟨rfl, rfl⟩ := Turns.unique hfirst hfirst'
      rw [List.prefix_cons_inj, List.prefix_cons_inj]
      exact ih hrest'

theorem size_eq {x x' : World} {hist : List (List Bool)} (h : Sweeps A x hist x') :
    (x'.stores .parentChildIndexInverted).size = (x.stores .parentChildIndexInverted).size := by
  induction h with
  | nil x => rfl
  | cons hfirst _ ih => rw [ih, hfirst.size_eq]

theorem length {x x' : World} {hist : List (List Bool)} (h : Sweeps A x hist x') :
    ∀ flags ∈ hist, flags.length = (x.stores .parentChildIndexInverted).size := by
  induction h with
  | nil x => simp
  | cons hfirst _ ih =>
    intro flags' hmem
    rcases List.mem_cons.mp hmem with rfl | hmem
    · exact hfirst.length
    · rw [ih flags' hmem, hfirst.size_eq]

end Sweeps

/-! ## The counter -/

/-- The counter behind a sweep.  It goes up by one at a time, so the flag `Converge` is set just
    when it was below the total before and is not any more. -/
theorem foldl_tick (total : Nat) :
    ∀ (flags : List Bool) (n : Nat) (b : Bool),
      flags.foldl (Convergence.tick total) ⟨n, b⟩
        = ⟨n + flags.count true, b || decide (n < total ∧ total ≤ n + flags.count true)⟩
  | [], n, b => by
    have hno : ¬ (n < total ∧ total ≤ n) := by omega
    simp [hno]
  | false :: flags, n, b => by
    show flags.foldl (Convergence.tick total) ⟨n, b⟩ = _
    rw [foldl_tick total flags n b, List.count_cons_of_ne (by decide)]
  | true :: flags, n, b => by
    show flags.foldl (Convergence.tick total) ⟨n + 1, if n + 1 = total then true else b⟩ = _
    rw [foldl_tick total flags (n + 1), List.count_cons_self]
    have hsum : n + 1 + flags.count true = n + (flags.count true + 1) := by omega
    rw [hsum]
    by_cases hhit : n + 1 = total
    · have hnow : n < total ∧ total ≤ n + (flags.count true + 1) := by omega
      simp [hhit, hnow]
    · have hiff : (n + 1 < total ∧ total ≤ n + (flags.count true + 1)) ↔
          (n < total ∧ total ≤ n + (flags.count true + 1)) := by omega
      rw [if_neg hhit, decide_eq_decide.mpr hiff]

theorem foldlM_sweepTurn {total : Nat} {v' : Convergence} {x' : World} :
    ∀ {es : List (Str × Str)} {v : Convergence} {x : World},
      es.foldlM (sweepTurn A total) v x = .ok v' x' ↔
        ∃ flags, Turns A es x flags x' ∧ v' = flags.foldl (Convergence.tick total) v
  | [], v, x => by
    rw [List.foldlM_nil, pure_ok]
    constructor
    · rintro ⟨rfl, rfl⟩
      exact ⟨[], .nil x, rfl⟩
    · rintro ⟨flags, hturns, rfl⟩
      cases hturns
      exact ⟨rfl, rfl⟩
  | e :: es, v, x => by
    rw [foldlM_cons_ok]
    constructor
    · rintro ⟨v₁, x₁, hturn, hrest⟩
      obtain ⟨equal, x₂, hrank, hpure⟩ := bind_ok.mp hturn
      obtain ⟨rfl, rfl⟩ := pure_ok.mp hpure
      obtain ⟨flags, hturns, rfl⟩ := foldlM_sweepTurn.mp hrest
      exact ⟨equal :: flags, .cons hrank hturns, rfl⟩
    · rintro ⟨flags, hturns, rfl⟩
      cases hturns with
      | @cons _ _ _ x₁ _ equal flags hrank hrest =>
        refine ⟨v.tick total equal, x₁, bind_ok.mpr ⟨equal, x₁, hrank, rfl⟩, ?_⟩
        exact foldlM_sweepTurn.mpr ⟨flags, hrest, rfl⟩

/-- A sweep is one turn for each key, and the counter follows its flags. -/
theorem sweep_ok {total n : Nat} {v' : Convergence} {x x' : World} :
    sweep A total ⟨n, false⟩ x = .ok v' x' ↔
      ∃ flags, Swept A x flags x' ∧
        v' = ⟨n + flags.count true, decide (n < total ∧ total ≤ n + flags.count true)⟩ := by
  have hfold : ∀ flags : List Bool, flags.foldl (Convergence.tick total) ⟨n, false⟩
      = ⟨n + flags.count true, decide (n < total ∧ total ≤ n + flags.count true)⟩ := by
    intro flags
    rw [foldl_tick, Bool.false_or]
  simp only [← hfold]
  exact foldlM_sweepTurn

/-- A round is a sweep, and leaves the loop when the counter crosses `total` in it. -/
theorem sweepRound_ok {total n : Nat} {r : Round Convergence Unit} {x x' : World} :
    sweepRound A total ⟨n, false⟩ x = .ok r x' ↔
      ∃ flags, Swept A x flags x' ∧ r = if n < total ∧ total ≤ n + flags.count true then .done ()
        else .again ⟨n + flags.count true, false⟩ := by
  constructor
  · intro h
    obtain ⟨v₁, x₁, hsweep, hpure⟩ := bind_ok.mp h
    obtain ⟨flags, hswept, rfl⟩ := sweep_ok.mp hsweep
    obtain ⟨hround, rfl⟩ := pure_ok.mp hpure
    refine ⟨flags, hswept, ?_⟩
    rw [← hround]
    by_cases hstop : n < total ∧ total ≤ n + flags.count true
    · simp [hstop]
    · simp [hstop]
  · rintro ⟨flags, hswept, rfl⟩
    refine bind_ok.mpr ⟨_, x', sweep_ok.mpr ⟨flags, hswept, rfl⟩, pure_ok.mpr ⟨?_, rfl⟩⟩
    by_cases hstop : n < total ∧ total ≤ n + flags.count true
    · simp [hstop]
    · simp [hstop]

theorem sweepRound_again {total n : Nat} {v' : Convergence} {x x' : World} :
    sweepRound A total ⟨n, false⟩ x = .ok (.again v') x' ↔
      ∃ flags, Swept A x flags x' ∧ ¬ (n < total ∧ total ≤ n + flags.count true) ∧
        v' = ⟨n + flags.count true, false⟩ := by
  rw [sweepRound_ok]
  refine exists_congr (fun flags => and_congr_right (fun _ => ?_))
  split
  · rename_i hstop
    constructor
    · intro h
      cases h
    · exact fun h => absurd hstop h.1
  · rename_i hgo
    rw [Round.again.injEq]
    exact ⟨fun h => ⟨hgo, h⟩, fun h => h.2⟩

theorem sweepRound_done {total n : Nat} {x x' : World} :
    sweepRound A total ⟨n, false⟩ x = .ok (.done ()) x' ↔
      ∃ flags, Swept A x flags x' ∧ n < total ∧ total ≤ n + flags.count true := by
  rw [sweepRound_ok]
  refine exists_congr (fun flags => and_congr_right (fun _ => ?_))
  split
  · rename_i hstop
    exact ⟨fun _ => hstop, fun _ => rfl⟩
  · rename_i hgo
    constructor
    · intro h
      cases h
    · exact fun h => absurd h hgo

/-- **The rounds that go on** are sweeps, and the counter has counted all of their flags. -/
theorem rounds_sweeps {total k n : Nat} {v v' : Convergence} {x x' : World}
    (h : Rounds (sweepRound A total) k v x v' x') (hv : v = ⟨n, false⟩) :
    ∃ hist, hist.length = k ∧ Sweeps A x hist x' ∧ v' = ⟨n + unchanged hist, false⟩ ∧
      (n < total → n + unchanged hist < total) := by
  induction h generalizing n with
  | zero v x =>
    subst hv
    exact ⟨[], rfl, .nil x, rfl, id⟩
  | succ hround _ ih =>
    subst hv
    obtain ⟨flags, hswept, hstop, rfl⟩ := sweepRound_again.mp hround
    obtain ⟨hist, hlen, hsweeps, rfl, hlt⟩ := ih rfl
    have hsum : n + unchanged (flags :: hist) = n + flags.count true + unchanged hist := by
      rw [unchanged_cons, Nat.add_assoc]
    rw [← hsum] at hlt
    refine ⟨flags :: hist, by rw [List.length_cons, hlen], .cons hswept hsweeps, by rw [hsum], ?_⟩
    intro hn
    exact hlt (by omega)

/-- The other way round: sweeps go on as long as the counter stays below the total. -/
theorem rounds_of_sweeps {total n : Nat} {x x' : World} {hist : List (List Bool)}
    (h : Sweeps A x hist x') (hlt : n + unchanged hist < total ∨ total ≤ n) :
    Rounds (sweepRound A total) hist.length ⟨n, false⟩ x ⟨n + unchanged hist, false⟩ x' := by
  induction h generalizing n with
  | nil x => exact .zero _ x
  | @cons x x₁ x' flags hist hswept _ ih =>
    rw [unchanged_cons] at hlt ⊢
    rw [← Nat.add_assoc] at hlt ⊢
    refine .succ (sweepRound_again.mpr ⟨flags, hswept, by omega, rfl⟩) (ih ?_)
    omega

/-! ## The last sweep -/

/-- `index_ranks` comes to its sweep number `k`, with `x₁` the state in front of it. -/
def StartsSweep (A : RankArithmetic R) (x : World) (k : Nat) (x₁ : World) : Prop :=
  ∃ v, Rounds (sweepRound A (x.stores .parentChildIndexInverted).size) k Convergence.init x v x₁

/-- `index_ranks` returns, and `flags` are those of its last sweep. -/
def LastSweep (A : RankArithmetic R) (x : World) (flags : List Bool) (x' : World) : Prop :=
  ∃ k x₁, StartsSweep A x k x₁ ∧ Swept A x₁ flags x' ∧ indexRanks A (k + 1) x = .ok (some ()) x'

theorem indexRanks_eq (budget : Nat) (x : World) :
    indexRanks A budget x
      = loop (sweepRound A (x.stores .parentChildIndexInverted).size) budget Convergence.init x :=
  bind_run_ok (Db.count_run .parentChildIndexInverted x) _

theorem startsSweep_iff {x x₁ : World} {k : Nat} :
    StartsSweep A x k x₁ ↔ ∃ hist, hist.length = k ∧ Sweeps A x hist x₁ ∧
      (unchanged hist < (x.stores .parentChildIndexInverted).size ∨
        (x.stores .parentChildIndexInverted).size = 0) := by
  constructor
  · rintro ⟨v, hrounds⟩
    obtain ⟨hist, hlen, hsweeps, -, hlt⟩ := rounds_sweeps (n := 0) hrounds rfl
    refine ⟨hist, hlen, hsweeps, ?_⟩
    omega
  · rintro ⟨hist, rfl, hsweeps, hlt⟩
    exact ⟨_, rounds_of_sweeps (n := 0) hsweeps (by omega)⟩

/-- The history up to the sweep that carries the counter over the total. -/
def Crossing (total : Nat) (hist : List (List Bool)) (flags : List Bool) : Prop :=
  unchanged hist < total ∧ total ≤ unchanged hist + flags.count true

/-- The loop leaves behind the sweep that carries the counter over the total. -/
theorem returns_of_crossing {x x₁ x' : World} {hist : List (List Bool)} {flags : List Bool}
    (hhist : Sweeps A x hist x₁) (hswept : Swept A x₁ flags x')
    (hcross : Crossing (x.stores .parentChildIndexInverted).size hist flags) :
    indexRanks A (hist.length + 1) x = .ok (some ()) x' := by
  have hrounds : Rounds (sweepRound A (x.stores .parentChildIndexInverted).size) hist.length
      Convergence.init x ⟨unchanged hist, false⟩ x₁ := by
    have h := rounds_of_sweeps (n := 0) hhist (Or.inl (by rw [Nat.zero_add]; exact hcross.1))
    rwa [Nat.zero_add] at h
  rw [indexRanks_eq, hrounds.loop_eq 1]
  exact loop_of_done (sweepRound_done.mpr ⟨flags, hswept, hcross⟩)

/-- **When the loop leaves**, told by the flags alone. -/
theorem lastSweep_iff {x x' : World} {flags : List Bool} :
    LastSweep A x flags x' ↔ ∃ hist, Sweeps A x (hist ++ [flags]) x' ∧
      Crossing (x.stores .parentChildIndexInverted).size hist flags := by
  constructor
  · rintro ⟨k, x₁, ⟨v, hrounds⟩, hswept, hret⟩
    obtain ⟨hist, -, hsweeps, rfl, -⟩ := rounds_sweeps (n := 0) hrounds rfl
    rw [indexRanks_eq, hrounds.loop_eq 1, Nat.zero_add] at hret
    obtain ⟨r, x₂, hround, hrest⟩ := bind_ok.mp hret
    cases r with
    | again v => cases hrest
    | done b =>
      obtain ⟨-, rfl⟩ := pure_ok.mp hrest
      obtain ⟨flags', hswept', hlt, hle⟩ := sweepRound_done.mp hround
      obtain ⟨rfl, -⟩ := Turns.unique hswept hswept'
      exact ⟨hist, hsweeps.snoc hswept, hlt, hle⟩
  · rintro ⟨hist, hsweeps, hcross⟩
    obtain ⟨x₁, hhist, hswept⟩ := hsweeps.exists_last
    exact ⟨hist.length, x₁, startsSweep_iff.mpr ⟨hist, rfl, hhist, Or.inl hcross.1⟩, hswept,
      returns_of_crossing hhist hswept hcross⟩

/-- A return has a last sweep. -/
theorem exists_lastSweep {budget : Nat} {x x' : World}
    (h : indexRanks A budget x = .ok (some ()) x') : ∃ flags, LastSweep A x flags x' := by
  rw [indexRanks_eq] at h
  obtain ⟨k, v, x₁, hrounds, hdone⟩ := rounds_of_loop h
  obtain ⟨hist, -, hsweeps, rfl, -⟩ := rounds_sweeps (n := 0) hrounds rfl
  rw [Nat.zero_add] at hdone
  obtain ⟨flags, hswept, hcross⟩ := sweepRound_done.mp hdone
  exact ⟨flags, lastSweep_iff.mpr ⟨hist, hsweeps.snoc hswept, hcross⟩⟩

/-- A counter that ends at the total or above crosses it in one of the sweeps. -/
theorem exists_crossing {total : Nat} (hpos : 0 < total) (hist : List (List Bool))
    (h : total ≤ unchanged hist) :
    ∃ pre flags post, hist = pre ++ [flags] ++ post ∧ Crossing total pre flags := by
  induction hist using List.reverseRecOn with
  | nil =>
    have hzero : unchanged [] = 0 := rfl
    omega
  | append_singleton hist flags ih =>
    by_cases hbefore : total ≤ unchanged hist
    · obtain ⟨pre, flags', post, rfl, hcross⟩ := ih hbefore
      exact ⟨pre, flags', post ++ [flags], by simp, hcross⟩
    · refine ⟨hist, flags, [], by simp, by omega, ?_⟩
      rw [unchanged_append, unchanged_cons] at h
      exact h

/-- It crosses only once. -/
theorem Crossing.unique {total : Nat} {hist hist' : List (List Bool)} {flags flags' : List Bool}
    (h : Crossing total hist flags) (h' : Crossing total hist' flags')
    (hpre : hist ++ [flags] <+: hist' ++ [flags']) : flags = flags' := by
  rcases List.prefix_concat_iff.mp hpre with heq | ⟨post, rfl⟩
  · exact (List.append_inj' heq rfl).2 |> List.singleton_inj.mp
  · obtain ⟨-, hle⟩ := h
    obtain ⟨hlt, -⟩ := h'
    rw [unchanged_append, unchanged_append, unchanged_cons] at hlt
    omega

/-! ## Exactly when the stop can be trusted -/

/-- **A return means a fixed point, exactly when the counter is not filled up piecemeal.**  For
    every arithmetic, graph and ranks: whenever `index_ranks` returns, its last sweep left every
    rank unchanged and the ranks are a fixed point — if and only if sweeps from the start that
    all changed some rank never leave, added up over all of them, as many ranks unchanged as
    there are pages with parents. -/
theorem convergence_sound_iff (A : RankArithmetic R) (x : World) :
    (∀ budget x', indexRanks A budget x = .ok (some ()) x' →
      ∃ flags, LastSweep A x flags x' ∧ (∀ b ∈ flags, b = true) ∧ FixedPoint A x'.stores) ↔
    ∀ hist x', Sweeps A x hist x' → hist ≠ [] → (∀ flags ∈ hist, false ∈ flags) →
      unchanged hist < (x.stores .parentChildIndexInverted).size := by
  constructor
  · intro hsound hist x' hsweeps hne hchange
    by_contra hlt
    -- the sweeps are not empty: there is a key
    have hpos : 0 < (x.stores .parentChildIndexInverted).size := by
      obtain ⟨flags, hflags⟩ := List.exists_mem_of_ne_nil hist hne
      rw [← hsweeps.length flags hflags]
      exact List.length_pos_of_mem (hchange flags hflags)
    obtain ⟨pre, flags, post, rfl, hcross⟩ := exists_crossing hpos hist (Nat.le_of_not_lt hlt)
    obtain ⟨x₂, hpre, -⟩ := hsweeps.split
    obtain ⟨x₁, hhist, hswept⟩ := hpre.exists_last
    obtain ⟨flags', hlast, hall, -⟩ := hsound _ x₂ (returns_of_crossing hhist hswept hcross)
    obtain ⟨hist', hsweeps', hcross'⟩ := lastSweep_iff.mp hlast
    obtain rfl : flags = flags' := by
      rcases hpre.comparable hsweeps' with h | h
      · exact hcross.unique hcross' h
      · exact (hcross'.unique hcross h).symm
    exact absurd (hall false (hchange flags (by simp))) (by decide)
  · intro hbelow budget x' hret
    obtain ⟨flags, hlast⟩ := exists_lastSweep hret
    obtain ⟨hist, hsweeps, hlt, hle⟩ := lastSweep_iff.mp hlast
    obtain ⟨x₁, hhist, hswept⟩ := hsweeps.exists_last
    have hall : ∀ b ∈ flags, b = true := by
      by_contra hcon
      -- no sweep of the history is all stable, or the counter would have crossed before
      have hchange : ∀ flags' ∈ hist ++ [flags], false ∈ flags' := by
        intro flags' hmem
        rcases List.mem_append.mp hmem with hmem | hmem
        · by_contra hno
          have hfull := count_true_of_stable (stable_of_not_mem hno)
          rw [hhist.length flags' hmem] at hfull
          have hmax := count_le_unchanged hmem
          omega
        · rw [List.mem_singleton.mp hmem]
          by_contra hno
          exact hcon (stable_of_not_mem hno)
      have hsum := hbelow _ x' hsweeps (by simp) hchange
      rw [unchanged_append, unchanged_cons] at hsum
      have hnil : unchanged [] = 0 := rfl
      omega
    exact ⟨flags, hlast, hall, hswept.fixedPoint hall⟩

/-- A page that links to itself, and one that links to itself and to a third one. -/
def linkedPages : List Crawler :=
  [Crawler.page ['a'] ['a'] [] [] [] [['a']], Crawler.page ['b'] ['b'] [] [] [] [['b'], ['c']]]

/-- Their links indexed and the ranks initialised. -/
def linkedPagesRanked : World :=
  finalState ((do ParentChildIndexer.indexPages linkedPages; initializeRanks) ⟨Stores.empty, []⟩)

/-- The first page never moves, so it alone fills the counter in three sweeps, while the rank of
    the second one is still falling. -/
theorem stops_before_fixed_point :
    ¬ ∀ (A : RankArithmetic ℚ) (x : World) (budget : Nat) (x' : World),
      indexRanks A budget x = .ok (some ()) x' →
        ∃ flags, LastSweep A x flags x' ∧ (∀ b ∈ flags, b = true) ∧ FixedPoint A x'.stores := by
  intro h
  have hret : indexRanks fractions 3 linkedPagesRanked
      = .ok (some ()) (finalState (indexRanks fractions 3 linkedPagesRanked)) :=
    eq_ok_of_answer (by decide +kernel)
  obtain ⟨-, -, -, hfixed⟩ := h fractions linkedPagesRanked 3 _ hret
  have hget : ((finalState (indexRanks fractions 3 linkedPagesRanked)).stores
      .parentChildIndexInverted)[['2']]? = some ['2'] := by decide +kernel
  obtain ⟨rank, hnew, hold⟩ := hfixed ['2'] ['2'] hget
  have hne : (newRank fractions (finalState (indexRanks fractions 3 linkedPagesRanked)).stores
        ['2']).toOption
      ≠ (storedRank fractions (finalState (indexRanks fractions 3 linkedPagesRanked)).stores
        ['2']).toOption := by decide +kernel
  exact hne (by rw [hnew, hold])

/-- **A sweep that changes nothing is the last one, exactly when there is a link.**  For every
    arithmetic, graph and ranks: each sweep that `index_ranks` comes to and that leaves every rank
    unchanged ends it — if and only if some page has a parent. -/
theorem stable_sweep_is_last_iff (A : RankArithmetic R) (x : World) :
    (∀ k x₁ flags x', StartsSweep A x k x₁ → Swept A x₁ flags x' → (∀ b ∈ flags, b = true) →
      indexRanks A (k + 1) x = .ok (some ()) x') ↔
    0 < (x.stores .parentChildIndexInverted).size := by
  constructor
  · intro hlast
    by_contra hzero
    have hnil : (x.stores .parentChildIndexInverted).toList = [] := by
      rw [← List.length_eq_zero_iff, Std.ExtTreeMap.length_toList]
      omega
    have hswept : Swept A x [] x := by
      unfold Swept
      rw [hnil]
      exact .nil x
    have hret := hlast 0 x [] x ⟨_, .zero _ x⟩ hswept (by simp)
    obtain ⟨flags, hflags⟩ := exists_lastSweep hret
    obtain ⟨hist, -, hlt, -⟩ := lastSweep_iff.mp hflags
    omega
  · intro hpos k x₁ flags x' hstart hswept hall
    obtain ⟨hist, rfl, hhist, hlt⟩ := startsSweep_iff.mp hstart
    refine returns_of_crossing hhist hswept ⟨by omega, ?_⟩
    rw [count_true_of_stable hall, hswept.length, hhist.size_eq]
    omega

/-- Without any link the first sweep has nothing to change, and the loop goes on. -/
theorem empty_graph_never_stops :
    ¬ ∀ (A : RankArithmetic ℚ) (x : World) (k : Nat) (x₁ : World) (flags : List Bool)
        (x' : World), StartsSweep A x k x₁ → Swept A x₁ flags x' → (∀ b ∈ flags, b = true) →
      indexRanks A (k + 1) x = .ok (some ()) x' := by
  intro h
  have hswept : Swept fractions ⟨Stores.empty, []⟩ [] ⟨Stores.empty, []⟩ := .nil _
  have hret := h fractions ⟨Stores.empty, []⟩ 0 _ [] _ ⟨_, .zero _ _⟩ hswept (by simp)
  have hnone : answer (indexRanks fractions 1 ⟨Stores.empty, []⟩) = some none := by
    decide +kernel
  rw [Nat.zero_add] at hret
  rw [hret] at hnone
  cases hnone

end Sweeps

end PageRankIndexer

end SearchEngine
