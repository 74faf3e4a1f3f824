import Mathlib.Tactic

/-!
# Words

The words of a text are its maximal non-empty parts without the separator, in order:
`words sep l` is `List.splitOn` without the empty pieces. The laws below read a text from the
front, one separator or one word at a time.
-/

namespace LittleLinux

universe u

variable {α : Type u} [DecidableEq α] {sep : α} {w l : List α}

/-- The words of a text. -/
def words (sep : α) (l : List α) : List (List α) := (l.splitOn sep).filter (· ≠ [])

@[simp]
theorem words_nil : words sep ([] : List α) = [] := by
  simp [words]

theorem words_append_sep (w l : List α) : words sep (w ++ sep :: l) = words sep w ++ words sep l := by
  rw [words, List.splitOn_eq_splitOnP, List.splitOnP_append_cons _ _ (by simp), List.filter_append]
  simp only [words, List.splitOn_eq_splitOnP]

@[simp]
theorem words_cons_sep (l : List α) : words sep (sep :: l) = words sep l := by
  have h : words sep ([] ++ sep :: l) = words sep [] ++ words sep l := words_append_sep [] l
  simpa using h

theorem words_eq_singleton (hne : w ≠ []) (h : sep ∉ w) : words sep w = [w] := by
  have hall : ∀ c ∈ w, (c == sep) = false := fun c hc => by
    rw [beq_eq_false_iff_ne]
    rintro rfl
    exact h hc
  rw [words, List.splitOn_eq_splitOnP, List.splitOnP_eq_singleton hall]
  simp [hne]

theorem words_word_sep (hne : w ≠ []) (h : sep ∉ w) (l : List α) :
    words sep (w ++ sep :: l) = w :: words sep l := by
  rw [words_append_sep, words_eq_singleton hne h, List.singleton_append]

/-- Separators at the front are skipped. -/
theorem words_append_of_forall_sep {spaces : List α} (h : ∀ c ∈ spaces, c = sep) (l : List α) :
    words sep (spaces ++ l) = words sep l := by
  induction spaces with
  | nil => rfl
  | cons c spaces ih =>
    rw [h c List.mem_cons_self, List.cons_append, words_cons_sep,
      ih fun d hd => h d (List.mem_cons_of_mem c hd)]

end LittleLinux
