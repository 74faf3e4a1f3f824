import Mathlib.Tactic

/-!
# Runs of a deterministic machine

A run is the left fold of a step function over a list of inputs. `Along step C s as` says
that the condition `C` holds of every step of the run from `s`, in the state the step is
taken from. `Along.invariant` is the one induction every result about whole runs uses: what
a step under the condition preserves, the run preserves.
-/

namespace LittleLinux

universe u v

variable {σ : Type u} {α : Type v}

/-- Every step of the run of `as` from `s` meets the condition `C`. -/
def Along (step : σ → α → σ) (C : σ → α → Prop) : σ → List α → Prop
  | _, [] => True
  | s, a :: as => C s a ∧ Along step C (step s a) as

instance Along.decidable (step : σ → α → σ) (C : σ → α → Prop) [∀ s a, Decidable (C s a)] :
    ∀ s as, Decidable (Along step C s as)
  | _, [] => isTrue trivial
  | s, a :: as =>
    have := Along.decidable step C (step s a) as
    inferInstanceAs (Decidable (C s a ∧ Along step C (step s a) as))

namespace Along

variable {step : σ → α → σ} {C : σ → α → Prop}

/-- **The invariant rule.** -/
theorem invariant {I : σ → Prop} (hstep : ∀ s a, I s → C s a → I (step s a)) :
    ∀ {s : σ} {as : List α}, I s → Along step C s as → I (as.foldl step s) := by
  intro s as
  induction as generalizing s with
  | nil => exact fun hs _ => hs
  | cons a as ih => exact fun hs h => ih (hstep s a hs h.1) h.2

/-- A run made of two. -/
theorem append_iff {s : σ} {as bs : List α} :
    Along step C s (as ++ bs) ↔ Along step C s as ∧ Along step C (as.foldl step s) bs := by
  induction as generalizing s with
  | nil => simp [Along]
  | cons a as ih => simp only [List.cons_append, Along, ih, List.foldl_cons, and_assoc]

/-- A run with one more step. -/
theorem concat_iff {s : σ} {as : List α} {a : α} :
    Along step C s (as ++ [a]) ↔ Along step C s as ∧ C (as.foldl step s) a := by
  rw [append_iff]
  simp only [Along, and_true]

/-- A condition that is always met is met along every run. -/
theorem of_forall (h : ∀ s a, C s a) : ∀ (s : σ) (as : List α), Along step C s as
  | _, [] => trivial
  | s, a :: as => ⟨h s a, of_forall h _ as⟩

/-- A condition on the inputs alone. -/
theorem of_mem {P : α → Prop} : ∀ (s : σ) {as : List α}, (∀ a ∈ as, P a) →
    Along step (fun _ a => P a) s as
  | _, [], _ => trivial
  | _, _ :: _, h => ⟨h _ List.mem_cons_self, of_mem _ fun b hb => h b (List.mem_cons_of_mem _ hb)⟩

/-- A weaker condition. -/
theorem imp {D : σ → α → Prop} (h : ∀ s a, C s a → D s a) : ∀ {s : σ} {as : List α},
    Along step C s as → Along step D s as
  | _, [], _ => trivial
  | _, _ :: _, has => ⟨h _ _ has.1, has.2.imp h⟩

theorem and {D : σ → α → Prop} : ∀ {s : σ} {as : List α}, Along step C s as →
    Along step D s as → Along step (fun s a => C s a ∧ D s a) s as
  | _, [], _, _ => trivial
  | _, _ :: _, h, h' => ⟨⟨h.1, h'.1⟩, h.2.and h'.2⟩

/-- A condition that is exactly what a step under an input of `P` needs to keep `I`: it is met
along a run of such inputs exactly when `I` holds all along it. -/
theorem iff_forall_prefix_of_mem {I : σ → Prop} {P : α → Prop}
    (hstep : ∀ s a, P a → I s → (I (step s a) ↔ C s a)) :
    ∀ {s : σ} {as : List α}, (∀ a ∈ as, P a) → I s →
      ((∀ pre, pre <+: as → I (pre.foldl step s)) ↔ Along step C s as) := by
  intro s as
  induction as generalizing s with
  | nil =>
    intro _ hs
    refine ⟨fun _ => trivial, fun _ pre hpre => ?_⟩
    rwa [List.prefix_nil.1 hpre]
  | cons a as ih =>
    intro hP hs
    have hmem : P a := hP a List.mem_cons_self
    have hrest : ∀ b ∈ as, P b := fun b hb => hP b (List.mem_cons_of_mem a hb)
    constructor
    · intro h
      have hnext : I (step s a) := h [a] (List.prefix_cons_inj a |>.2 (List.nil_prefix))
      refine ⟨(hstep s a hmem hs).1 hnext, (ih hrest hnext).1 fun pre hpre => ?_⟩
      exact h (a :: pre) ((List.prefix_cons_inj a).2 hpre)
    · rintro ⟨ha, has⟩ pre hpre
      have hnext := (hstep s a hmem hs).2 ha
      cases pre with
      | nil => exact hs
      | cons b pre =>
        obtain ⟨rfl, hpre'⟩ := List.cons_prefix_cons.1 hpre
        exact (ih hrest hnext).2 has pre hpre'

/-- Two conditions that agree wherever `I` holds, and of which the second keeps `I`, are met along
the same runs. -/
theorem iff_of_mem {I : σ → Prop} {D : σ → α → Prop} {P : α → Prop}
    (hiff : ∀ s a, P a → I s → (C s a ↔ D s a)) (hstep : ∀ s a, P a → I s → D s a → I (step s a)) :
    ∀ {s : σ} {as : List α}, (∀ a ∈ as, P a) → I s → (Along step C s as ↔ Along step D s as) := by
  intro s as
  induction as generalizing s with
  | nil => exact fun _ _ => Iff.rfl
  | cons a as ih =>
    intro hP hs
    have hmem : P a := hP a List.mem_cons_self
    refine (and_congr_left' (hiff s a hmem hs)).trans (and_congr_right fun hD => ?_)
    exact ih (fun b hb => hP b (List.mem_cons_of_mem a hb)) (hstep s a hmem hs hD)

/-- A condition that is exactly what a step needs to keep `I`: it is met along a run exactly
when `I` holds all along it. -/
theorem iff_forall_prefix {I : σ → Prop} (hstep : ∀ s a, I s → (I (step s a) ↔ C s a)) {s : σ}
    {as : List α} (hs : I s) :
    (∀ pre, pre <+: as → I (pre.foldl step s)) ↔ Along step C s as :=
  iff_forall_prefix_of_mem (P := fun _ => True) (fun s a _ => hstep s a) (fun _ _ => trivial) hs

end Along

end LittleLinux
