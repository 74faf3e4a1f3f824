import Mathlib.Tactic

/-!
# First-fit allocation from a list of free blocks

The allocator as its callers see it, without a memory. A store is a list of free blocks, each an
address and a size, and a range of fresh memory that is taken one pool at a time. A block takes
`hd` bytes more than its size, and what is left of a block stays on the list when it can hold a
header and `least` bytes.

`alloc` says what a request of `r` bytes does: the first block that can hold it is used
(`takeFirst_eq_some`); if there is none, and a pool can hold it, it comes from a new pool; and a
request that no pool can hold uses up all the pools. `alloc_grow` is the recursion a program that
adds pool after pool performs, `alloc_isSome_iff` says when a request succeeds.
-/

namespace LittleLinux

section FreeStore

variable (hd least pool : ℕ)

/-- Free blocks in list order, the end of the memory taken so far, and the limit it may not pass. -/
@[ext]
structure FreeStore where
  free : List (ℕ × ℕ)
  brk : ℕ
  limit : ℕ

/-- The block that a request of `r` bytes gets out of `b`. -/
def granted (r : ℕ) (b : ℕ × ℕ) : ℕ × ℕ := (b.1, if hd + least ≤ b.2 - r then r else b.2)

/-- What stays on the list of a block `b` out of which `r` bytes are handed out. -/
def remainder (r : ℕ) (b : ℕ × ℕ) : List (ℕ × ℕ) :=
  if hd + least ≤ b.2 - r then [(b.1 + hd + r, b.2 - r - hd)] else []

/-- Hand out `r` bytes of the first block that can hold them. -/
def takeFirst (r : ℕ) : List (ℕ × ℕ) → Option ((ℕ × ℕ) × List (ℕ × ℕ))
  | [] => none
  | b :: F =>
    if r ≤ b.2 then some (granted hd least r b, remainder hd least r b ++ F)
    else (takeFirst r F).map fun x => (x.1, b :: x.2)

namespace FreeStore

/-- The block that a new pool is. -/
def poolBlock (s : FreeStore) : ℕ × ℕ := (s.brk, pool - hd)

/-- Take a new pool: it becomes the first free block. -/
def grow (s : FreeStore) : FreeStore :=
  { s with free := s.poolBlock hd pool :: s.free, brk := s.brk + pool }

/-- Take all the pools that fit below the limit. -/
def exhaust (s : FreeStore) : FreeStore := (grow hd pool)^[(s.limit - s.brk) / pool] s

/-- A request of `r` bytes: the block, if there is one, and the store behind it. -/
def alloc (r : ℕ) (s : FreeStore) : Option (ℕ × ℕ) × FreeStore :=
  match takeFirst hd least r s.free with
  | some x => (some x.1, { s with free := x.2 })
  | none =>
    if r ≤ pool - hd ∧ s.brk + pool ≤ s.limit then
      (some (granted hd least r (s.poolBlock hd pool)),
        { s with
          free := remainder hd least r (s.poolBlock hd pool) ++ s.free
          brk := s.brk + pool })
    else (none, s.exhaust hd pool)

/-- Give a block back: it becomes the first of the list. -/
def release (b : ℕ × ℕ) (s : FreeStore) : FreeStore := { s with free := b :: s.free }

end FreeStore

variable {hd least pool} {r : ℕ} {F F₁ F₂ : List (ℕ × ℕ)} {b : ℕ × ℕ}

theorem takeFirst_eq_none_iff : takeFirst hd least r F = none ↔ ∀ b ∈ F, b.2 < r := by
  induction F with
  | nil => simp [takeFirst]
  | cons b F ih =>
    rw [takeFirst, List.forall_mem_cons, ← ih]
    split
    · simp
      omega
    · simp
      omega

/-- The first block that can hold the request is the one used, and the others keep their order
and sizes. -/
theorem takeFirst_eq_some (hF₁ : ∀ c ∈ F₁, c.2 < r) (hb : r ≤ b.2) :
    takeFirst hd least r (F₁ ++ b :: F₂) =
      some (granted hd least r b, F₁ ++ remainder hd least r b ++ F₂) := by
  induction F₁ with
  | nil => simp [takeFirst, hb]
  | cons c F₁ ih =>
    have hc : ¬r ≤ c.2 := Nat.not_le.2 (hF₁ c List.mem_cons_self)
    rw [List.cons_append, takeFirst, if_neg hc, ih fun x hx => hF₁ x (List.mem_cons_of_mem c hx)]
    simp

/-- A list has no block for the request, or a first one. -/
theorem exists_first_fit (r : ℕ) (F : List (ℕ × ℕ)) :
    (∀ b ∈ F, b.2 < r) ∨
      ∃ F₁ b F₂, F = F₁ ++ b :: F₂ ∧ (∀ c ∈ F₁, c.2 < r) ∧ r ≤ b.2 := by
  induction F with
  | nil => exact .inl (by simp)
  | cons b F ih =>
    rcases Nat.lt_or_ge b.2 r with hlt | hge
    · rcases ih with hall | ⟨F₁, c, F₂, rfl, hall, hc⟩
      · exact .inl (List.forall_mem_cons.2 ⟨hlt, hall⟩)
      · exact .inr ⟨b :: F₁, c, F₂, rfl, List.forall_mem_cons.2 ⟨hlt, hall⟩, hc⟩
    · exact .inr ⟨[], b, F, rfl, by simp, hge⟩

namespace FreeStore

variable {s : FreeStore}

theorem alloc_of_fit (hs : s.free = F₁ ++ b :: F₂) (hF₁ : ∀ c ∈ F₁, c.2 < r) (hb : r ≤ b.2) :
    s.alloc hd least pool r =
      (some (granted hd least r b), { s with free := F₁ ++ remainder hd least r b ++ F₂ }) := by
  rw [alloc, hs, takeFirst_eq_some hF₁ hb]

/-- No block can hold the request and there is no pool left. -/
theorem alloc_of_full (hpool : 0 < pool) (hs : ∀ b ∈ s.free, b.2 < r)
    (hfull : s.limit < s.brk + pool) : s.alloc hd least pool r = (none, s) := by
  have hn : (s.limit - s.brk) / pool = 0 := Nat.div_eq_of_lt (by omega)
  have hcond : ¬(r ≤ pool - hd ∧ s.brk + pool ≤ s.limit) := fun h => absurd h.2 (by omega)
  rw [alloc, takeFirst_eq_none_iff.2 hs, exhaust, hn]
  exact if_neg hcond

/-- No block can hold the request, and no pool can. -/
theorem alloc_of_large (hs : ∀ b ∈ s.free, b.2 < r) (hlarge : pool - hd < r) :
    s.alloc hd least pool r = (none, s.exhaust hd pool) := by
  have hcond : ¬(r ≤ pool - hd ∧ s.brk + pool ≤ s.limit) := fun h => absurd h.1 (by omega)
  rw [alloc, takeFirst_eq_none_iff.2 hs]
  exact if_neg hcond

/-- **The recursion.** Without a block for the request, taking a pool first changes nothing. -/
theorem alloc_grow (hpool : 0 < pool) (hs : ∀ b ∈ s.free, b.2 < r)
    (hfit : s.brk + pool ≤ s.limit) :
    (s.grow hd pool).alloc hd least pool r = s.alloc hd least pool r := by
  rcases Nat.lt_or_ge (pool - hd) r with hlarge | hle
  · -- the pool is too small as well: all of them are used up
    have hgrown : ∀ b ∈ (s.grow hd pool).free, b.2 < r := List.forall_mem_cons.2 ⟨hlarge, hs⟩
    have hn : (s.limit - s.brk) / pool = (s.limit - (s.brk + pool)) / pool + 1 := by
      rw [← Nat.add_div_right _ hpool]
      congr 1
      omega
    rw [alloc_of_large hs hlarge, alloc_of_large hgrown hlarge, exhaust, exhaust, hn,
      Function.iterate_succ_apply]
    rfl
  · have hnil : ∀ c ∈ ([] : List (ℕ × ℕ)), c.2 < r := by simp
    rw [alloc_of_fit (s := s.grow hd pool) rfl hnil hle, alloc, takeFirst_eq_none_iff.2 hs]
    dsimp only
    rw [if_pos ⟨hle, hfit⟩]
    rfl

theorem limit_iterate_grow (n : ℕ) (s : FreeStore) : ((grow hd pool)^[n] s).limit = s.limit := by
  induction n generalizing s with
  | zero => rfl
  | succ n ih =>
    rw [Function.iterate_succ_apply, ih]
    rfl

theorem brk_iterate_grow (n : ℕ) (s : FreeStore) :
    ((grow hd pool)^[n] s).brk = s.brk + n * pool := by
  induction n generalizing s with
  | zero => simp
  | succ n ih =>
    rw [Function.iterate_succ_apply, ih, grow]
    ring

/-- The limit never changes. -/
@[simp]
theorem limit_alloc (r : ℕ) (s : FreeStore) : (s.alloc hd least pool r).2.limit = s.limit := by
  unfold alloc
  split
  · rfl
  · split
    · rfl
    · exact limit_iterate_grow _ s

/-- A request never gives memory back, and never takes memory behind the limit. -/
theorem brk_alloc (r : ℕ) (s : FreeStore) :
    s.brk ≤ (s.alloc hd least pool r).2.brk ∧
      (s.brk ≤ s.limit → (s.alloc hd least pool r).2.brk ≤ s.limit) := by
  unfold alloc
  split
  · exact ⟨le_refl _, id⟩
  · split
    · next h => exact ⟨Nat.le_add_right _ _, fun _ => h.2⟩
    · have hmul := Nat.div_mul_le_self (s.limit - s.brk) pool
      rw [exhaust, brk_iterate_grow]
      exact ⟨Nat.le_add_right _ _, fun hs => by omega⟩

/-- **A request fails only when it must**: it succeeds exactly if a free block can hold it, or a
pool can and there is one left. -/
theorem alloc_isSome_iff :
    (s.alloc hd least pool r).1.isSome ↔
      (∃ b ∈ s.free, r ≤ b.2) ∨ (r ≤ pool - hd ∧ s.brk + pool ≤ s.limit) := by
  rcases exists_first_fit r s.free with hall | ⟨F₁, b, F₂, hs, hF₁, hb⟩
  · have hno : ¬∃ b ∈ s.free, r ≤ b.2 := fun ⟨b, hb, hle⟩ => absurd (hall b hb) (by omega)
    rw [alloc, takeFirst_eq_none_iff.2 hall]
    dsimp only
    split
    · next h => exact ⟨fun _ => .inr h, fun _ => rfl⟩
    · next h => exact ⟨fun hsome => absurd hsome (by simp), fun hor => (hor.elim hno h).elim⟩
  · rw [alloc_of_fit hs hF₁ hb]
    exact ⟨fun _ => .inl ⟨b, by simp [hs], hb⟩, fun _ => rfl⟩

end FreeStore

end FreeStore

end LittleLinux
