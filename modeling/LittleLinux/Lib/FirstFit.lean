import Mathlib.Tactic

/-!
# First-fit search

A search for the first run of `n` free positions below `total`. `FirstRun free total n s` says
that the run at `s` is the one a first-fit search finds. A loop that visits the positions in
order, counting consecutive free ones, keeps `ScanInv`; the three lemmas about it are the
three things that can happen at a position (`ScanInv.extend`, `ScanInv.found`,
`ScanInv.reset`), and `ScanInv.not_exists` is what the loop knows when it runs off the end.
-/

namespace LittleLinux

/-- The `n` positions from `s` on are free. -/
def FreeRun (free : ℕ → Prop) (n s : ℕ) : Prop := ∀ i, s ≤ i → i < s + n → free i

/-- `s` is the least start of a run of `n` free positions, and the run ends by `total`. -/
structure FirstRun (free : ℕ → Prop) (total n s : ℕ) : Prop where
  fits : s + n ≤ total
  run : FreeRun free n s
  least : ∀ s' < s, ¬ FreeRun free n s'

theorem FirstRun.unique {free : ℕ → Prop} {total n s s' : ℕ} (h : FirstRun free total n s)
    (h' : FirstRun free total n s') : s = s' := by
  refine le_antisymm ?_ ?_
  · exact Nat.le_of_not_lt fun hlt => h.least s' hlt h'.run
  · exact Nat.le_of_not_lt fun hlt => h'.least s hlt h.run

/-- Before position `i`, with `c` free positions counted since `start`. -/
structure ScanInv (free : ℕ → Prop) (n i start c : ℕ) : Prop where
  lt : c < n
  le : c ≤ i
  run : FreeRun free c (i - c)
  maximal : c < i → ¬ free (i - c - 1)
  start_eq : c ≠ 0 → start = i - c
  none : ∀ s, s + n ≤ i → ¬ FreeRun free n s

namespace ScanInv

variable {free : ℕ → Prop} {n i start c : ℕ}

theorem init (hn : 0 < n) (start : ℕ) : ScanInv free n 0 start 0 where
  lt := hn
  le := le_refl 0
  run := fun _ _ _ => by omega
  maximal := fun h => absurd h (lt_irrefl 0)
  start_eq := fun h => absurd rfl h
  none := fun _ _ => by omega

/-- The counted positions together with a free one at `i`. -/
private theorem run_succ (h : ScanInv free n i start c) (hi : free i) :
    FreeRun free (c + 1) (i - c) := by
  intro j hj hj'
  have hle := h.le
  rcases eq_or_ne j i with rfl | hne
  · exact hi
  · exact h.run j hj (by omega)

/-- No run ends at `i` while the count stays below `n`. -/
private theorem not_run_of_lt (h : ScanInv free n i start c) (hc : c + 1 < n) :
    ∀ s, s + n ≤ i + 1 → ¬ FreeRun free n s := by
  intro s hs hrun
  rcases Nat.lt_or_ge i (s + n) with hlt | hge
  · -- such a run would contain the position just before the counted ones
    have hle := h.le
    exact h.maximal (by omega) (hrun (i - c - 1) (by omega) (by omega))
  · exact h.none s hge hrun

/-- A free position that does not complete the run. -/
theorem extend (h : ScanInv free n i start c) (hi : free i) (hc : c + 1 < n) :
    ScanInv free n (i + 1) (if c = 0 then i else start) (c + 1) where
  lt := hc
  le := Nat.succ_le_succ h.le
  run := by
    rw [Nat.add_sub_add_right]
    exact h.run_succ hi
  maximal := fun hlt => by
    rw [Nat.add_sub_add_right]
    exact h.maximal (by omega)
  start_eq := fun _ => by
    split_ifs with h0
    · omega
    · rw [h.start_eq h0]
      omega
  none := h.not_run_of_lt hc

/-- A free position that completes the run: the run found is the first one. -/
theorem found (h : ScanInv free n i start c) (hi : free i) (hc : c + 1 = n) {total : ℕ}
    (ht : i < total) : FirstRun free total n (if c = 0 then i else start) := by
  have hle := h.le
  have hs : (if c = 0 then i else start) = i - c := by
    split_ifs with h0
    · omega
    · exact h.start_eq h0
  rw [hs]
  refine ⟨by omega, hc ▸ h.run_succ hi, fun s hlt => h.none s (by omega)⟩

/-- A position that is not free. -/
theorem reset (h : ScanInv free n i start c) (hi : ¬ free i) : ScanInv free n (i + 1) start 0 where
  lt := Nat.zero_lt_of_lt h.lt
  le := Nat.zero_le _
  run := fun _ _ _ => by omega
  maximal := fun _ => by simpa using hi
  start_eq := fun h0 => absurd rfl h0
  none := fun s hs hrun => by
    rcases Nat.lt_or_ge i (s + n) with hlt | hge
    · have hpos := h.lt
      exact hi (hrun i (by omega) hlt)
    · exact h.none s hge hrun

/-- At the end of the positions there is no run. -/
theorem not_exists {total : ℕ} (h : ScanInv free n total start c) (s : ℕ) :
    ¬ FirstRun free total n s :=
  fun hf => h.none s hf.fits hf.run

end ScanInv

end LittleLinux
