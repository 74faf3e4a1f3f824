import Mathlib.Data.List.Basic
import Mathlib.Tactic

/-!
# Doubly linked lists in a heap

A list is threaded through a heap of nodes: `next a` is the node after `a` and `prev a` the one
before it, `none` at the ends. `Linked next prev before start l` says that from `start` the links lead
through the nodes of `l` to the end, and that the back links agree, the first one leading to
`before`. The links of other nodes do not matter (`Linked.congr`), so a change is followed through
the lists by what it touches: a node is pushed at the front (`Linked.push`) or linked in behind the last
one (`Linked.append`).
-/

namespace LittleLinux

universe u

variable {α : Type u}

/-- From `start` the links lead through `l` to the end, and the back links agree. -/
def Linked (next prev : α → Option α) : Option α → Option α → List α → Prop
  | _, start, [] => start = none
  | before, start, a :: l => start = some a ∧ prev a = before ∧ Linked next prev (some a) (next a) l

namespace Linked

variable {next prev next' prev' : α → Option α} {before start : Option α} {l : List α} {a b : α}

/-- The links of the nodes of the list are all that matters. -/
theorem congr (h : Linked next prev before start l) (hnext : ∀ a ∈ l, next' a = next a)
    (hprev : ∀ a ∈ l, prev' a = prev a) : Linked next' prev' before start l := by
  induction l generalizing before start with
  | nil => exact h
  | cons a l ih =>
    obtain ⟨hstart, hback, hrest⟩ := h
    refine ⟨hstart, (hprev a List.mem_cons_self).trans hback, ?_⟩
    rw [hnext a List.mem_cons_self]
    exact ih hrest (fun b hb => hnext b (List.mem_cons_of_mem a hb))
      fun b hb => hprev b (List.mem_cons_of_mem a hb)

/-- A list starts at its first node. -/
theorem start_eq (h : Linked next prev before start l) : start = l.head? := by
  cases l with
  | nil => exact h
  | cons a l => exact h.1

/-- The back link of the first node is changed along with `before`. -/
theorem rebase (h : Linked next prev before start l) {before' : Option α}
    (hnext : ∀ a ∈ l, next' a = next a) (hhead : ∀ a, l.head? = some a → prev' a = before')
    (hprev : ∀ a ∈ l.tail, prev' a = prev a) : Linked next' prev' before' start l := by
  cases l with
  | nil => exact h
  | cons a l =>
    obtain ⟨hstart, -, hrest⟩ := h
    refine ⟨hstart, hhead a rfl, ?_⟩
    rw [hnext a List.mem_cons_self]
    exact hrest.congr (fun b hb => hnext b (List.mem_cons_of_mem a hb)) hprev

/-- **A node is pushed at the front**: its forward link leads to the old start, and the back link of
the old first node to it. -/
theorem push (h : Linked next prev before start l) (hnext : next' a = start)
    (hprev : prev' a = before) (hold : ∀ b ∈ l, next' b = next b)
    (hhead : ∀ b, l.head? = some b → prev' b = some a) (htail : ∀ b ∈ l.tail, prev' b = prev b) :
    Linked next' prev' before (some a) (a :: l) := by
  refine ⟨rfl, hprev, ?_⟩
  rw [hnext]
  exact h.rebase hold hhead htail

/-- **A node is linked in behind the last one**, which is `b`. -/
theorem append (h : Linked next prev before start (l ++ [b])) (hlast : next' b = some a)
    (hend : next' a = none) (hprev : prev' a = some b)
    (hnext : ∀ c ∈ l, next' c = next c) (hback : ∀ c ∈ l ++ [b], prev' c = prev c) :
    Linked next' prev' before start (l ++ [b, a]) := by
  induction l generalizing before start with
  | nil =>
    obtain ⟨hstart, hb, -⟩ := h
    refine ⟨hstart, (hback b List.mem_cons_self).trans hb, ?_⟩
    rw [hlast]
    exact ⟨rfl, hprev, hend⟩
  | cons c l ih =>
    obtain ⟨hstart, hc, hrest⟩ := h
    refine ⟨hstart, (hback c List.mem_cons_self).trans hc, ?_⟩
    rw [hnext c List.mem_cons_self]
    exact ih hrest (fun d hd => hnext d (List.mem_cons_of_mem c hd))
      fun d hd => hback d (List.mem_cons_of_mem c hd)

end Linked

/-- The nodes from `start` on, at most `n` of them. -/
def followLinks (next : α → Option α) : ℕ → Option α → List α
  | 0, _ => []
  | _ + 1, none => []
  | n + 1, some a => a :: followLinks next n (next a)

/-- A list is what following its links gives. -/
theorem Linked.followLinks_eq {next prev : α → Option α} {before start : Option α} {l : List α}
    (h : Linked next prev before start l) {n : ℕ} (hn : l.length ≤ n) : followLinks next n start = l := by
  induction l generalizing before start n with
  | nil =>
    obtain rfl := h
    cases n <;> rfl
  | cons a l ih =>
    obtain ⟨rfl, -, hrest⟩ := h
    cases n with
    | zero => exact absurd hn (by simp)
    | succ n => rw [followLinks, ih hrest (Nat.le_of_succ_le_succ hn)]

/-- How many nodes there are from `start` on, when every link back is right and there are at most `n`. -/
def countLinked [DecidableEq α] (next prev : α → Option α) : ℕ → Option α → Option α → Option ℕ
  | _, _, none => some 0
  | 0, _, some _ => none
  | n + 1, before, some a =>
    if prev a = before then (countLinked next prev n (some a) (next a)).map (· + 1) else none

theorem Linked.countLinked_eq [DecidableEq α] {next prev : α → Option α} {before start : Option α}
    {l : List α} (h : Linked next prev before start l) {n : ℕ} (hn : l.length ≤ n) :
    countLinked next prev n before start = some l.length := by
  induction l generalizing before start n with
  | nil =>
    obtain rfl := h
    cases n <;> rfl
  | cons a l ih =>
    obtain ⟨rfl, hprev, hrest⟩ := h
    cases n with
    | zero => exact absurd hn (by simp)
    | succ n =>
      rw [countLinked, if_pos hprev, ih hrest (Nat.le_of_succ_le_succ hn)]
      rfl

/-- The first node from `start` on that passes a test, among at most `n`. -/
def findLinked (next : α → Option α) (test : α → Bool) : ℕ → Option α → Option α
  | 0, _ => none
  | _ + 1, none => none
  | n + 1, some a => if test a then some a else findLinked next test n (next a)

theorem Linked.findLinked_eq {next prev : α → Option α} {before start : Option α} {l : List α}
    (h : Linked next prev before start l) (test : α → Bool) {n : ℕ} (hn : l.length ≤ n) :
    findLinked next test n start = l.find? test := by
  induction l generalizing before start n with
  | nil =>
    obtain rfl := h
    cases n <;> rfl
  | cons a l ih =>
    obtain ⟨rfl, -, hrest⟩ := h
    cases n with
    | zero => exact absurd hn (by simp)
    | succ n =>
      rw [findLinked, List.find?_cons, ih hrest (Nat.le_of_succ_le_succ hn)]
      cases test a <;> rfl

end LittleLinux
