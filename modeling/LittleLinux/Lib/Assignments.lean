import Mathlib.Data.List.Basic
import Mathlib.Tactic

/-!
# Logs of assignments

What a map contains after a list of assignments can be said without a map: the value at a key is
that of its last assignment (`lastValue`), and the keys come in the order in which they were assigned to
for the first time (`firstOrder`). A program that keeps such a map is compared with the two after one
more assignment.
-/

namespace LittleLinux

universe u v

variable {κ : Type u} {α : Type v} [DecidableEq κ] {log : List (κ × α)} {k k' : κ}

/-- The value that was last assigned to `k`. -/
def lastValue (log : List (κ × α)) (k : κ) : Option α := log.reverse.lookup k

/-- The keys, in the order of their first assignments. -/
def firstOrder (log : List (κ × α)) : List κ := (log.map Prod.fst).eraseDups

theorem lastValue_append_self (log : List (κ × α)) (k : κ) (a : α) :
    lastValue (log ++ [(k, a)]) k = some a := by
  rw [lastValue, List.reverse_append, List.reverse_singleton, List.singleton_append,
    List.lookup_cons_self]

theorem lastValue_append_of_ne (log : List (κ × α)) (hne : k' ≠ k) (a : α) :
    lastValue (log ++ [(k, a)]) k' = lastValue log k' := by
  have hbeq : (k' == k) = false := beq_eq_false_iff_ne.2 hne
  rw [lastValue, List.reverse_append, List.reverse_singleton, List.singleton_append, List.lookup_cons,
    hbeq, lastValue]

theorem mem_firstOrder : k ∈ firstOrder log ↔ ∃ a, (k, a) ∈ log := by
  simp [firstOrder]

/-- A key that was not assigned to has no value. -/
theorem lastValue_of_notMem (h : k ∉ firstOrder log) : lastValue log k = none := by
  rw [lastValue, List.lookup_eq_none_iff]
  intro e he
  rw [bne_iff_ne]
  rintro rfl
  exact h (mem_firstOrder.2 ⟨e.2, List.mem_reverse.1 he⟩)

theorem firstOrder_append_of_mem (h : k ∈ firstOrder log) (a : α) :
    firstOrder (log ++ [(k, a)]) = firstOrder log := by
  rw [firstOrder, List.mem_eraseDups] at h
  rw [firstOrder, List.map_append, List.eraseDups_append]
  simp [firstOrder, List.removeAll, h]

theorem firstOrder_append_of_notMem (h : k ∉ firstOrder log) (a : α) :
    firstOrder (log ++ [(k, a)]) = firstOrder log ++ [k] := by
  rw [firstOrder, List.mem_eraseDups] at h
  rw [firstOrder, List.map_append, List.eraseDups_append]
  simp [firstOrder, List.removeAll, h, List.eraseDups_cons]

theorem nodup_firstOrder (log : List (κ × α)) : (firstOrder log).Nodup := by
  induction log using List.reverseRecOn with
  | nil => exact List.nodup_nil
  | append_singleton log e ih =>
    by_cases h : e.1 ∈ firstOrder log
    · rw [firstOrder_append_of_mem h]
      exact ih
    · rw [firstOrder_append_of_notMem h]
      exact List.nodup_append.2 ⟨ih, List.nodup_singleton _, fun a ha b hb => by
        rw [List.mem_singleton.1 hb]
        exact ne_of_mem_of_not_mem ha h⟩

end LittleLinux
