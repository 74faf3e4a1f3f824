import Mathlib.Tactic

/-!
# Loops and chains

`loop step n s` runs a loop from the state `s` for at most `n` passes: each pass goes on with
a new state or leaves with a result. A loop that never leaves gives no result for any number
of passes. `stateAfter step n s` is the state that it has come to by then.

`chain f a k` is the `k`-th element of the list that starts at `a` and is linked by the
partial map `f`, and `chainList f a` is the list of those with a next one. Over a bounded set
of elements, a chain ends exactly when it visits no element twice.
-/

namespace LittleLinux

universe u v

variable {σ : Type u} {β : Type v}

/-- What one pass of a loop does. -/
inductive Pass (σ : Type u) (β : Type v)
  | next (s : σ)
  | leave (b : β)

/-- Run a loop for at most `n` passes. -/
def loop (step : σ → Pass σ β) : ℕ → σ → Option β
  | 0, _ => none
  | n + 1, s =>
    match step s with
    | .next s => loop step n s
    | .leave b => some b

section Loop

variable {step : σ → Pass σ β} {n m : ℕ} {s s' : σ} {b : β}

theorem loop_succ_of_next (h : step s = .next s') : loop step (n + 1) s = loop step n s' := by
  rw [loop, h]

theorem loop_succ_of_leave (h : step s = .leave b) : loop step (n + 1) s = some b := by
  rw [loop, h]

/-- More passes do not change the result. -/
theorem loop_mono (h : loop step n s = some b) (hnm : n ≤ m) : loop step m s = some b := by
  induction n generalizing m s with
  | zero => exact absurd h (by simp [loop])
  | succ n ih =>
    obtain ⟨m, rfl⟩ : ∃ m', m = m' + 1 := ⟨m - 1, by omega⟩
    cases hs : step s with
    | next t =>
      rw [loop_succ_of_next hs] at h ⊢
      exact ih h (by omega)
    | leave c =>
      rw [loop_succ_of_leave hs] at h ⊢
      exact h

/-- What every pass keeps holds of the result, when leaving establishes it. -/
theorem loop_invariant {I : σ → Prop} {Q : β → Prop}
    (hnext : ∀ s s', I s → step s = .next s' → I s') (hleave : ∀ s b, I s → step s = .leave b → Q b)
    (hs : I s) (h : loop step n s = some b) : Q b := by
  induction n generalizing s with
  | zero => exact absurd h (by simp [loop])
  | succ n ih =>
    cases hstep : step s with
    | next t =>
      rw [loop_succ_of_next hstep] at h
      exact ih (hnext s t hs hstep) h
    | leave c =>
      rw [loop_succ_of_leave hstep] at h
      obtain rfl := Option.some.inj h
      exact hleave s c hs hstep

/-- A loop that can always go on never ends. -/
theorem loop_eq_none {I : σ → Prop} (hnext : ∀ s, I s → ∃ s', step s = .next s' ∧ I s') (hs : I s) :
    loop step n s = none := by
  induction n generalizing s with
  | zero => rfl
  | succ n ih =>
    obtain ⟨t, hstep, ht⟩ := hnext s hs
    rw [loop_succ_of_next hstep]
    exact ih ht

/-- The state that at most `n` passes of a loop come to, when the result is a state as well. -/
def stateAfter (step : σ → Pass σ σ) : ℕ → σ → σ
  | 0, s => s
  | n + 1, s =>
    match step s with
    | .next s => stateAfter step n s
    | .leave s => s

section StateAfter

variable {step : σ → Pass σ σ} {n : ℕ} {s s' b : σ}

theorem stateAfter_succ_of_next (h : step s = .next s') :
    stateAfter step (n + 1) s = stateAfter step n s' := by
  rw [stateAfter, h]

theorem stateAfter_succ_of_leave (h : step s = .leave b) : stateAfter step (n + 1) s = b := by
  rw [stateAfter, h]

/-- What holds while the loop runs and when it leaves holds of every state that it comes to. -/
theorem stateAfter_invariant {I Q : σ → Prop} (hrun : ∀ s, I s → Q s)
    (hnext : ∀ s s', I s → step s = .next s' → I s') (hleave : ∀ s b, I s → step s = .leave b → Q b)
    (hs : I s) : Q (stateAfter step n s) := by
  induction n generalizing s with
  | zero => exact hrun s hs
  | succ n ih =>
    cases hstep : step s with
    | next t =>
      rw [stateAfter_succ_of_next hstep]
      exact ih (hnext s t hs hstep)
    | leave c =>
      rw [stateAfter_succ_of_leave hstep]
      exact hleave s c hs hstep

end StateAfter

end Loop

/-! ### Chains -/

section Chain

variable {f : ℕ → Option ℕ} {a b : ℕ} {i j k : ℕ}

/-- The `k`-th element of the chain of `f` from `a`. -/
def chain (f : ℕ → Option ℕ) (a : ℕ) : ℕ → Option ℕ
  | 0 => some a
  | k + 1 => (chain f a k).bind f

/-- The chain comes to an end. -/
def ChainEnds (f : ℕ → Option ℕ) (a : ℕ) : Prop := ∃ k, chain f a k = none

/-- The chain visits no element twice. -/
def NoRepeat (f : ℕ → Option ℕ) (a : ℕ) : Prop :=
  ∀ i j c, i < j → chain f a i = some c → chain f a j ≠ some c

/-- The chain from the next element is the rest of the chain. -/
theorem chain_of_next (h : f a = some b) (k : ℕ) : chain f a (k + 1) = chain f b k := by
  induction k with
  | zero => exact h
  | succ k ih => rw [chain, ih, chain]

theorem chainEnds_iff_of_next (h : f a = some b) : ChainEnds f a ↔ ChainEnds f b := by
  constructor
  · rintro ⟨k, hk⟩
    cases k with
    | zero => exact absurd hk (by simp [chain])
    | succ k => exact ⟨k, by rwa [chain_of_next h] at hk⟩
  · rintro ⟨k, hk⟩
    exact ⟨k + 1, by rwa [chain_of_next h]⟩

theorem chainEnds_of_eq_none (h : f a = none) : ChainEnds f a := ⟨1, h⟩

theorem chain_eq_none_of_le (h : chain f a i = none) (hij : i ≤ j) : chain f a j = none := by
  induction j, hij using Nat.le_induction with
  | base => exact h
  | succ j _ ih => rw [chain, ih, Option.bind_none]

/-- A chain that comes back to an element repeats from there on. -/
theorem chain_add_of_eq (h : chain f a i = chain f a j) (k : ℕ) :
    chain f a (i + k) = chain f a (j + k) := by
  induction k with
  | zero => exact h
  | succ k ih => rw [← add_assoc, ← add_assoc, chain, chain, ih]

theorem chain_add_mul {d : ℕ} (h : chain f a i = chain f a (i + d)) (n : ℕ) :
    chain f a (i + n * d) = chain f a i := by
  induction n with
  | zero => simp
  | succ n ih =>
    rw [show i + (n + 1) * d = i + d + n * d by ring, ← chain_add_of_eq h, ih]

/-- **Finite chains.** A chain of numbers below a bound ends exactly when it visits no number
twice. -/
theorem chainEnds_iff_noRepeat {N : ℕ} (ha : a < N) (hf : ∀ c d, f c = some d → d < N) :
    ChainEnds f a ↔ NoRepeat f a := by
  constructor
  · rintro ⟨k, hk⟩ i j c hij hi hj
    obtain ⟨d, rfl⟩ := Nat.exists_eq_add_of_lt hij
    have hloop := chain_add_mul (d := d + 1) (hi.trans hj.symm) k
    rw [chain_eq_none_of_le hk (show k ≤ i + k * (d + 1) by nlinarith), hi] at hloop
    exact absurd hloop (by simp)
  · intro hno
    by_contra hends
    -- otherwise the chain is an injection of the naturals into the numbers below the bound
    have hsome : ∀ k, ∃ c, chain f a k = some c := by
      intro k
      cases h : chain f a k with
      | none => exact absurd ⟨k, h⟩ hends
      | some c => exact ⟨c, rfl⟩
    choose g hg using hsome
    have hlt : ∀ k, g k < N := by
      intro k
      cases k with
      | zero =>
        have : some a = some (g 0) := hg 0
        rwa [← Option.some.inj this]
      | succ k =>
        have h := hg (k + 1)
        rw [chain, hg k, Option.bind_some] at h
        exact hf _ _ h
    obtain ⟨i, j, hne, hij⟩ := Finite.exists_ne_map_eq_of_infinite fun k => (⟨g k, hlt k⟩ : Fin N)
    have hg_eq : g i = g j := congrArg Fin.val hij
    rcases Nat.lt_or_gt_of_ne hne with hlt | hlt
    · exact hno i j (g i) hlt (hg i) (by rw [hg j, hg_eq])
    · exact hno j i (g j) hlt (hg j) (by rw [hg i, hg_eq])

end Chain

end LittleLinux
