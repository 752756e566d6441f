/-
  Runs of a list of Booleans: how often `true` falls to `false`.

  `falls` counts the falls in one pass.  Read from the other side, a list of Booleans is a run of
  `false`, then a number of WAVES, each some `true` and some `false`, then a run of `true`; the
  number of waves is the number of falls (`falls_eq_iff`), whichever way the list is read so.
-/
import Mathlib.Tactic.Common

namespace SearchEngine.Waves

/-- How often `true` is followed by `false`, in a list that `prev` stands in front of. -/
def fallsFrom : Bool → List Bool → Nat
  | _, [] => 0
  | prev, b :: l => fallsFrom b l + (if prev && !b then 1 else 0)

def falls (l : List Bool) : Nat := fallsFrom false l

/-- A pair stands for one `true` more than its first, and one `false` more than its second. -/
def waves (ws : List (Nat × Nat)) : List Bool :=
  ws.flatMap (fun w => List.replicate (w.1 + 1) true ++ List.replicate (w.2 + 1) false)

theorem waves_cons (w : Nat × Nat) (ws : List (Nat × Nat)) : waves (w :: ws)
    = List.replicate (w.1 + 1) true ++ List.replicate (w.2 + 1) false ++ waves ws := by
  rw [waves, List.flatMap_cons]
  rfl

/-! ## Counting the falls of waves -/

theorem fallsFrom_replicate (b : Bool) :
    ∀ (n : Nat) (l : List Bool), fallsFrom b (List.replicate n b ++ l) = fallsFrom b l
  | 0, _ => rfl
  | n + 1, l => by
    rw [List.replicate_succ, List.cons_append, fallsFrom, fallsFrom_replicate b n l]
    cases b <;> rfl

theorem falls_wave (p q : Nat) (l : List Bool) :
    falls (List.replicate (p + 1) true ++ List.replicate (q + 1) false ++ l) = falls l + 1 := by
  rw [falls, List.append_assoc, List.replicate_succ, List.cons_append, fallsFrom,
    fallsFrom_replicate, List.replicate_succ, List.cons_append, fallsFrom, fallsFrom_replicate]
  rfl

theorem falls_waves (l : List Bool) :
    ∀ ws : List (Nat × Nat), falls (waves ws ++ l) = falls l + ws.length
  | [] => rfl
  | w :: ws => by
    rw [waves_cons, List.append_assoc, falls_wave, falls_waves l ws, List.length_cons]
    omega

theorem falls_replicate_true (v : Nat) : falls (List.replicate v true) = 0 := by
  cases v with
  | zero => rfl
  | succ v =>
    have hrest := fallsFrom_replicate true v []
    rw [List.append_nil] at hrest
    show fallsFrom true (List.replicate v true) + 0 = 0
    rw [hrest]
    rfl

/-! ## Reading a list as waves -/

/-- Every list is a run of `false`, waves, and a run of `true`. -/
theorem exists_waves : ∀ l : List Bool, ∃ (c v : Nat) (ws : List (Nat × Nat)),
    l = List.replicate c false ++ waves ws ++ List.replicate v true
  | [] => ⟨0, 0, [], rfl⟩
  | false :: l => by
    obtain ⟨c, v, ws, rfl⟩ := exists_waves l
    exact ⟨c + 1, v, ws, by rw [List.replicate_succ]; rfl⟩
  | true :: l => by
    obtain ⟨c, v, ws, rfl⟩ := exists_waves l
    cases c with
    | succ c =>
      -- the run of `false` closes a wave of its own
      refine ⟨0, v, (0, c) :: ws, ?_⟩
      rw [waves_cons]
      simp
    | zero =>
      cases ws with
      | nil =>
        refine ⟨0, v + 1, [], ?_⟩
        rw [List.replicate_succ]
        rfl
      | cons w ws =>
        refine ⟨0, v, (w.1 + 1, w.2) :: ws, ?_⟩
        rw [waves_cons, waves_cons]
        simp [List.replicate_succ]

/-- **The falls of a list are its waves**, however it is read as waves. -/
theorem falls_eq_iff (l : List Bool) (m : Nat) :
    falls l = m ↔ ∃ (c v : Nat) (ws : List (Nat × Nat)), ws.length = m ∧
      l = List.replicate c false ++ waves ws ++ List.replicate v true := by
  have hcount : ∀ (c v : Nat) (ws : List (Nat × Nat)),
      falls (List.replicate c false ++ waves ws ++ List.replicate v true) = ws.length := by
    intro c v ws
    rw [List.append_assoc, falls, fallsFrom_replicate]
    show falls (waves ws ++ List.replicate v true) = ws.length
    rw [falls_waves, falls_replicate_true, Nat.zero_add]
  constructor
  · rintro rfl
    obtain ⟨c, v, ws, rfl⟩ := exists_waves l
    exact ⟨c, v, ws, (hcount c v ws).symm, rfl⟩
  · rintro ⟨c, v, ws, rfl, rfl⟩
    exact hcount c v ws

/-! ## Falls at an end -/

/-- A fall is a fall of some `true`. -/
theorem mem_of_falls_pos : ∀ {l : List Bool}, 0 < falls l → true ∈ l
  | [], h => absurd h (by decide)
  | true :: l, _ => List.mem_cons_self
  | false :: l, h => List.mem_cons_of_mem _ (mem_of_falls_pos (l := l) h)

/-- A `true` at the end adds no fall. -/
theorem fallsFrom_snoc_true : ∀ (b : Bool) (l : List Bool),
    fallsFrom b (l ++ [true]) = fallsFrom b l
  | b, [] => by cases b <;> rfl
  | b, d :: l => by rw [List.cons_append, fallsFrom, fallsFrom, fallsFrom_snoc_true d l]

end SearchEngine.Waves
