import LittleLinux.Lib.Run

/-!
# Simulation of one machine by another

Two machines take the same inputs and answer each of them. `answers` is the list of the answers
along a run. When a relation between their states is kept by every step that meets the
condition, and related states give the same answer, the two machines give the same answers along
every run whose steps meet it.

The second machine may leave open what it answers. It is a relation then, and `Allows` says that it can
give these answers to these inputs.
-/

namespace LittleLinux

universe u v w x

variable {σ : Type u} {τ : Type v} {α : Type w} {β : Type x}

/-- The answers along the run of `as` from `s`. -/
def answers (step : σ → α → β × σ) : σ → List α → List β
  | _, [] => []
  | s, a :: as => (step s a).1 :: answers step (step s a).2 as

/-- **The simulation rule.** -/
theorem answers_eq_of_simulation {step : σ → α → β × σ} {step' : τ → α → β × τ}
    {R : σ → τ → Prop} {C : σ → α → Prop}
    (hsim : ∀ s t a, R s t → C s a →
      (step s a).1 = (step' t a).1 ∧ R (step s a).2 (step' t a).2) :
    ∀ {s : σ} {t : τ} {as : List α}, R s t → Along (fun s a => (step s a).2) C s as →
      answers step s as = answers step' t as := by
  intro s t as
  induction as generalizing s t with
  | nil => exact fun _ _ => rfl
  | cons a as ih =>
    rintro hst ⟨ha, has⟩
    obtain ⟨hanswer, hnext⟩ := hsim s t a hst ha
    rw [answers, answers, hanswer, ih hnext has]

/-- A machine that may choose: it can give the answers to the inputs, from the state `t` on. -/
inductive Allows (step : τ → α → β → τ → Prop) : τ → List α → List β → Prop
  | nil {t : τ} : Allows step t [] []
  | cons {t t' : τ} {a : α} {b : β} {as : List α} {bs : List β} (h : step t a b t')
    (hrest : Allows step t' as bs) : Allows step t (a :: as) (b :: bs)

/-- **The simulation rule** for a machine that may choose. -/
theorem allows_answers_of_simulation {step : σ → α → β × σ} {step' : τ → α → β → τ → Prop}
    {R : σ → τ → Prop} {C : σ → α → Prop}
    (hsim : ∀ s t a, R s t → C s a → ∃ t', step' t a (step s a).1 t' ∧ R (step s a).2 t') :
    ∀ {s : σ} {t : τ} {as : List α}, R s t → Along (fun s a => (step s a).2) C s as →
      Allows step' t as (answers step s as) := by
  intro s t as
  induction as generalizing s t with
  | nil => exact fun _ _ => .nil
  | cons a as ih =>
    rintro hst ⟨ha, has⟩
    obtain ⟨t', hstep, hnext⟩ := hsim s t a hst ha
    exact .cons hstep (ih hnext has)

end LittleLinux
