import LittleLinux.Lib.Run

/-!
# Runs that act on one key at a time

`keyedStep key f` applies an event to a map: the value at the key of the event becomes
`f e` of the value there, and every other value stays. The value at a key after a run is
therefore decided by the last event with that key, and by the value it found.

`exists_since` holds of every run: a property that does not hold at the start but does at the
end was established by some step for the last time, and has held since.
-/

namespace LittleLinux

universe u v w

section Keyed

variable {κ : Type u} [DecidableEq κ] {ε : Type v} {α : Type w} {key : ε → κ} {f : ε → α → α}
  {m : κ → α} {e : ε} {k : κ} {es : List ε}

/-- Apply an event to the value at its key. -/
def keyedStep (key : ε → κ) (f : ε → α → α) (m : κ → α) (e : ε) : κ → α :=
  Function.update m (key e) (f e (m (key e)))

theorem keyedStep_of_eq (h : key e = k) : keyedStep key f m e k = f e (m k) := by
  subst h
  exact Function.update_self ..

theorem keyedStep_of_ne (h : key e ≠ k) : keyedStep key f m e k = m k :=
  Function.update_of_ne (Ne.symm h) _ _

theorem foldl_keyedStep_of_forall_ne (h : ∀ e ∈ es, key e ≠ k) :
    es.foldl (keyedStep key f) m k = m k := by
  induction es generalizing m with
  | nil => rfl
  | cons e es ih =>
    rw [List.foldl_cons, ih fun e' he' => h e' (List.mem_cons_of_mem e he'),
      keyedStep_of_ne (h e List.mem_cons_self)]

/-- The last event with the key decides. -/
theorem foldl_keyedStep_last {before after : List ε} (he : key e = k)
    (h : ∀ e' ∈ after, key e' ≠ k) :
    (before ++ e :: after).foldl (keyedStep key f) m k =
      f e (before.foldl (keyedStep key f) m k) := by
  rw [List.foldl_append, List.foldl_cons, foldl_keyedStep_of_forall_ne h, keyedStep_of_eq he]

/-- A run without the key, or its last event with the key. -/
theorem forall_ne_or_exists_last (key : ε → κ) (es : List ε) (k : κ) :
    (∀ e ∈ es, key e ≠ k) ∨
      ∃ before e after, es = before ++ e :: after ∧ key e = k ∧ ∀ e' ∈ after, key e' ≠ k := by
  induction es using List.reverseRecOn with
  | nil => exact Or.inl (by simp)
  | append_singleton es e ih =>
    by_cases he : key e = k
    · exact Or.inr ⟨es, e, [], rfl, he, by simp⟩
    · obtain hnone | ⟨before, e', after, rfl, he', hafter⟩ := ih
      · refine Or.inl fun e' he' => ?_
        obtain hmem | hmem := List.mem_append.1 he'
        · exact hnone e' hmem
        · rwa [List.mem_singleton.1 hmem]
      · refine Or.inr ⟨before, e', after ++ [e], by simp, he', fun e'' he'' => ?_⟩
        obtain hmem | hmem := List.mem_append.1 he''
        · exact hafter e'' hmem
        · rwa [List.mem_singleton.1 hmem]

end Keyed

/-- **Since.** What does not hold at the start of a run but holds at its end was established by
some step, and holds after every step from there on. -/
theorem exists_since {σ : Type u} {α : Type v} {step : σ → α → σ} {P : σ → Prop} {s : σ}
    {as : List α} (hs : ¬P s) (hend : P (as.foldl step s)) :
    ∃ before a after, as = before ++ a :: after ∧ ¬P (before.foldl step s) ∧
      ∀ later, later <+: after → P ((before ++ a :: later).foldl step s) := by
  induction as using List.reverseRecOn with
  | nil => exact absurd hend hs
  | append_singleton as b ih =>
    by_cases hlast : P (as.foldl step s)
    · obtain ⟨before, a, after, rfl, hbefore, hsince⟩ := ih hlast
      refine ⟨before, a, after ++ [b], by simp, hbefore, fun later hlater => ?_⟩
      obtain hpre | rfl := List.prefix_concat_iff.1 hlater |>.symm
      · exact hsince later hpre
      · simpa using hend
    · refine ⟨as, b, [], rfl, hlast, fun later hlater => ?_⟩
      obtain rfl := List.prefix_nil.1 hlater
      exact hend

end LittleLinux
