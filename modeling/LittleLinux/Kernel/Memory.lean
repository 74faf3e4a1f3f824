import Mathlib.Tactic

/-!
# Allocation as the file system sees it

The file system code calls `malloc` and `free` and looks at nothing but whether `malloc`
answered NULL. `Memory` records that much: `grants n` says whether the `n`-th call succeeds
(an arbitrary pattern of failures is an arbitrary `grants`), a granted call gets an address
no earlier call got, and `free` logs the address it was given. Addresses are not handed out
twice, so an address names one allocation for the whole of a run, and is rather the name of
an object than a place in memory.

The allocator itself is modelled in `Kernel/Malloc.lean`. It puts a released block at the head
of its free list and hands it out again. `Kernel/HeapCalls.lean` connects the two: as long as
nothing but live objects is released, a live object has a block of its own.
-/

namespace LittleLinux

/-- The address of a heap object. `0` is the one object with static storage, the root
directory; a null pointer is `none`. -/
abbrev Ptr := ℕ

/-- The allocation state. -/
structure Memory where
  grants : ℕ → Bool
  calls : ℕ
  freed : List Ptr

namespace Memory

/-- `malloc(size)`: NULL for size zero or when the call is not granted. -/
def malloc (mem : Memory) (size : ℕ) : Option Ptr × Memory :=
  if size = 0 then (none, mem)
  else (if mem.grants mem.calls then some (mem.calls + 1) else none,
    { mem with calls := mem.calls + 1 })

/-- `free(p)`. -/
def free (mem : Memory) (p : Ptr) : Memory := { mem with freed := p :: mem.freed }

/-- No call fails. -/
def Unfailing (mem : Memory) : Prop := ∀ n, mem.grants n = true

/-- The first address that has not been handed out. -/
def next (mem : Memory) : Ptr := mem.calls + 1

@[simp]
theorem grants_malloc (mem : Memory) (size : ℕ) : (mem.malloc size).2.grants = mem.grants := by
  simp only [malloc]
  split <;> rfl

@[simp]
theorem freed_malloc (mem : Memory) (size : ℕ) : (mem.malloc size).2.freed = mem.freed := by
  simp only [malloc]
  split <;> rfl

@[simp]
theorem grants_free (mem : Memory) (p : Ptr) : (mem.free p).grants = mem.grants := rfl

@[simp]
theorem calls_free (mem : Memory) (p : Ptr) : (mem.free p).calls = mem.calls := rfl

@[simp]
theorem next_free (mem : Memory) (p : Ptr) : (mem.free p).next = mem.next := rfl

theorem next_le_next_malloc (mem : Memory) (size : ℕ) : mem.next ≤ (mem.malloc size).2.next := by
  simp only [malloc, next]
  split <;> simp

/-- A granted address is the first unused one, and is used from then on. -/
theorem malloc_eq_some {mem : Memory} {size : ℕ} {p : Ptr} (h : (mem.malloc size).1 = some p) :
    p = mem.next ∧ (mem.malloc size).2.next = p + 1 := by
  simp only [malloc, next] at h ⊢
  split at h
  · simp at h
  · rename_i hs
    simp only [hs, if_false]
    split at h
    · obtain rfl := Option.some.inj h
      simp
    · simp at h

theorem Unfailing.malloc_isSome {mem : Memory} (hm : mem.Unfailing) {size : ℕ} (hs : size ≠ 0) :
    (mem.malloc size).1 = some mem.next := by
  simp [malloc, hs, hm mem.calls, next]

theorem Unfailing.malloc {mem : Memory} (hm : mem.Unfailing) (size : ℕ) :
    (mem.malloc size).2.Unfailing := by
  intro n
  rw [grants_malloc]
  exact hm n

/-- The state `n` calls later, with nothing released. -/
def skip (mem : Memory) (n : ℕ) : Memory := { mem with calls := mem.calls + n }

/-- The next `n` calls succeed. -/
def Grants (mem : Memory) (n : ℕ) : Prop := ∀ k < n, mem.grants (mem.calls + k) = true

instance (mem : Memory) (n : ℕ) : Decidable (mem.Grants n) :=
  inferInstanceAs (Decidable (∀ k < n, _))

@[simp]
theorem next_skip (mem : Memory) (n : ℕ) : (mem.skip n).next = mem.next + n :=
  Nat.add_right_comm mem.calls n 1

theorem skip_skip (mem : Memory) (m n : ℕ) : (mem.skip m).skip n = mem.skip (m + n) := by
  simp only [skip, Nat.add_assoc]

theorem malloc_of_ne_zero (mem : Memory) {size : ℕ} (h : size ≠ 0) :
    mem.malloc size = (if mem.grants mem.calls then some mem.next else none, mem.skip 1) := by
  rw [malloc, if_neg h]
  rfl

theorem grants_zero (mem : Memory) : mem.Grants 0 := fun k hk => absurd hk (Nat.not_lt_zero k)

theorem grants_add (mem : Memory) (m n : ℕ) :
    mem.Grants (m + n) ↔ mem.Grants m ∧ (mem.skip m).Grants n := by
  constructor
  · intro h
    refine ⟨fun k hk => h k (by omega), fun k hk => ?_⟩
    have := h (m + k) (by omega)
    rwa [← Nat.add_assoc] at this
  · rintro ⟨hm, hn⟩ k hk
    by_cases hlt : k < m
    · exact hm k hlt
    · have := hn (k - m) (by omega)
      rwa [skip, Nat.add_assoc, Nat.add_sub_cancel' (Nat.not_lt.1 hlt)] at this

theorem grants_one (mem : Memory) : mem.Grants 1 ↔ mem.grants mem.calls = true := by
  refine ⟨fun h => h 0 Nat.one_pos, fun h k hk => ?_⟩
  obtain rfl := Nat.lt_one_iff.1 hk
  exact h

theorem Unfailing.grants {mem : Memory} (hm : mem.Unfailing) (n : ℕ) : mem.Grants n :=
  fun _ _ => hm _

/-- A call handed the address out. -/
def HandedOut (mem : Memory) (p : Ptr) : Prop := 0 < p ∧ p ≤ mem.calls ∧ mem.grants (p - 1) = true

instance (mem : Memory) (p : Ptr) : Decidable (mem.HandedOut p) := inferInstanceAs (Decidable (_ ∧ _))

/-- The address was handed out, and was not released. -/
def Live (mem : Memory) (p : Ptr) : Prop := mem.HandedOut p ∧ p ∉ mem.freed

instance (mem : Memory) (p : Ptr) : Decidable (mem.Live p) := inferInstanceAs (Decidable (_ ∧ _))

/-- What was handed out stays so. -/
theorem HandedOut.mono {mem mem' : Memory} {p : Ptr} (h : mem.HandedOut p)
    (hgrants : mem'.grants = mem.grants) (hcalls : mem.calls ≤ mem'.calls) : mem'.HandedOut p :=
  ⟨h.1, h.2.1.trans hcalls, hgrants ▸ h.2.2⟩

/-- The addresses of the next `n` calls, when these succeed. -/
theorem Grants.handedOut {mem mem' : Memory} {n p : ℕ} (h : mem.Grants n)
    (hgrants : mem'.grants = mem.grants) (hcalls : mem'.calls = mem.calls + n) (hle : mem.next ≤ p)
    (hlt : p < mem.next + n) : mem'.HandedOut p := by
  have hbounds : mem.calls + 1 ≤ p ∧ p < mem.calls + 1 + n := ⟨hle, hlt⟩
  have hcall := h (p - mem.calls - 1) (by omega)
  rw [show mem.calls + (p - mem.calls - 1) = p - 1 by omega] at hcall
  have hpos : 0 < p ∧ p ≤ mem'.calls := by omega
  exact ⟨hpos.1, hpos.2, hgrants ▸ hcall⟩

end Memory

/-- An allocator that never fails. -/
def ampleMemory : Memory := ⟨fun _ => true, 0, []⟩

end LittleLinux
