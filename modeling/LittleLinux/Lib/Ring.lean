import Mathlib.Tactic

/-!
# Circular buffers

A circular buffer of `cap` slots is followed through the log of everything ever put into it:
element `i` of the log went to slot `i % cap`. `RingHolds cap buf log r` says that the buffer
still holds every element of the log from position `r` on. Putting one element keeps it as
long as fewer than `cap` elements are held, and taking the oldest one always keeps it.
-/

namespace LittleLinux

universe u

variable {α : Type u} {cap r : ℕ} {buf : ℕ → α} {log : List α}

/-- The slots of `buf` hold the elements of `log` from position `r` on. -/
def RingHolds (cap : ℕ) (buf : ℕ → α) (log : List α) (r : ℕ) : Prop :=
  ∀ (i : ℕ) (h : i < log.length), r ≤ i → buf (i % cap) = log[i]

/-- Positions less than `cap` apart have different slots. -/
theorem mod_ne_of_lt {i j : ℕ} (hij : i < j) (hj : j < i + cap) : i % cap ≠ j % cap := by
  intro he
  have hd : cap ∣ j - i := (Nat.modEq_iff_dvd' hij.le).1 he
  have := Nat.le_of_dvd (by omega) hd
  omega

namespace RingHolds

theorem nil : RingHolds cap buf [] r := fun _ h => absurd h (by simp)

/-- Taking the oldest element. -/
theorem pop (h : RingHolds cap buf log r) : RingHolds cap buf log (r + 1) :=
  fun i hi hr => h i hi (by omega)

/-- Putting an element while fewer than `cap` are held. -/
theorem push (h : RingHolds cap buf log r) (hroom : log.length < r + cap) (c : α) :
    RingHolds cap (Function.update buf (log.length % cap) c) (log ++ [c]) r := by
  intro i hi hr
  rw [List.length_append, List.length_singleton] at hi
  rcases Nat.lt_succ_iff_lt_or_eq.1 hi with hlt | rfl
  · -- an older element sits in another slot
    rw [Function.update_of_ne (mod_ne_of_lt hlt (by omega)), h i hlt hr,
      List.getElem_append_left hlt]
  · rw [Function.update_self, List.getElem_append_right le_rfl]
    simp

end RingHolds

end LittleLinux
