import LittleLinux.Kernel.MallocTiling

/-!
# The pools of the heap and the installed memory

`malloc_init` takes its limit as `_end` plus the installed memory, in 32 bits, and compares it with
another 32-bit sum before each pool. The pools that `malloc_init` and any number of calls of
`expand_heap` obtain therefore lie between `_end` and the end of the installed memory for some
memory sizes only. `poolsInRam_iff` says for which: the last pool below the limit has to end inside
the memory, and the request behind it has to be refused.
-/

namespace LittleLinux

namespace Malloc

/-- The static variables at the first request of `malloc_init`. -/
def bootHeap (mem : ByteMemory) (_end totalMb : ℕ) : Heap :=
  ⟨mem, 0, _end, u32 (_end + u32 (totalMb * 1024 * 1024))⟩

/-- The pool that a request in the state `h` obtains, if it is granted. -/
def poolOf (h : Heap) : List ℕ :=
  if (requestMemory h poolSize).1 = 0 then [] else [(requestMemory h poolSize).1]

/-- The pools that `k` calls of `expand_heap` obtain. -/
def expandPools : ℕ → Heap → List ℕ
  | 0, _ => []
  | k + 1, h => poolOf h ++ expandPools k (expandHeap h).2

/-- The pools that `malloc_init` and `k` calls of `expand_heap` obtain. -/
def pools (mem : ByteMemory) (_end totalMb k : ℕ) : List ℕ :=
  poolOf (bootHeap mem _end totalMb) ++ expandPools k (mallocInit mem _end totalMb)

/-- The pools at the addresses `as` lie between `_end` and the end of the installed memory, end
before the addresses wrap around, and do not overlap. -/
def PoolsInRam (_end totalMb : ℕ) (as : List ℕ) : Prop :=
  (∀ a ∈ as, _end ≤ a ∧ a + poolSize ≤ totalMb * 2 ^ 20 ∧ a + poolSize < 2 ^ 32) ∧
    as.Pairwise fun a b => Apart (a, poolSize) (b, poolSize)

/-- `heap_max`. -/
def heapLimit (_end totalMb : ℕ) : ℕ := (_end + totalMb * 2 ^ 20) % 2 ^ 32

/-- The number of pools that fit between `_end` and `heap_max`. -/
def poolCount (_end totalMb : ℕ) : ℕ := (heapLimit _end totalMb - _end) / poolSize

/-! ### A request as arithmetic -/

section Requests

variable {h : Heap}

/-- A request looks at `heap_brk` and `heap_max` alone. -/
theorem requestMemory_eq (h : Heap) :
    requestMemory h poolSize =
      if h.heapMax < u32 (h.heapBrk + poolSize) then (0, h)
      else (h.heapBrk, { h with heapBrk := u32 (h.heapBrk + poolSize) }) := by
  simp only [requestMemory, alignUp_poolSize, gt_iff_lt]

theorem expandHeap_refused (hlt : h.heapMax < u32 (h.heapBrk + poolSize)) :
    poolOf h = [] ∧ (expandHeap h).2 = h := by
  have hreq := requestMemory_eq h
  rw [if_pos hlt] at hreq
  simp [poolOf, expandHeap, hreq]

theorem expandHeap_granted (hle : u32 (h.heapBrk + poolSize) ≤ h.heapMax) :
    poolOf h = (if h.heapBrk = 0 then [] else [h.heapBrk]) ∧
      (expandHeap h).2.heapBrk = u32 (h.heapBrk + poolSize) ∧
      (expandHeap h).2.heapMax = h.heapMax := by
  have hreq := requestMemory_eq h
  rw [if_neg (Nat.not_lt.2 hle)] at hreq
  rcases eq_or_ne h.heapBrk 0 with hz | hz
  · simp [poolOf, expandHeap, hreq, hz]
  · simp [poolOf, expandHeap, hreq, hz, addPool, Heap.setSize, Heap.setNext]

/-- `malloc_init` is a call of `expand_heap` at boot. -/
theorem mallocInit_eq (mem : ByteMemory) (_end totalMb : ℕ) :
    mallocInit mem _end totalMb = (expandHeap (bootHeap mem _end totalMb)).2 := by
  have hcall : ∀ r : ℕ × Heap, (if r.1 = 0 then r.2 else addPool r.2 r.1) =
      (if r.1 = 0 then (false, r.2) else (true, addPool r.2 r.1)).2 := by
    intro r
    split
    · rfl
    · rfl
  exact hcall (requestMemory (bootHeap mem _end totalMb) poolSize)

theorem pools_eq (mem : ByteMemory) (_end totalMb k : ℕ) :
    pools mem _end totalMb k = expandPools (k + 1) (bootHeap mem _end totalMb) := by
  rw [pools, mallocInit_eq, expandPools]

end Requests

/-! ### All the pools -/

section Pools

variable {E M n : ℕ}

/-- While the requests stay below the limit, the pools lie one behind the other; if the one behind
the `n`-th is refused, there are no others. -/
theorem mem_expandPools (hbelow : ∀ j < n, E + (j + 1) * poolSize ≤ M) (hM : M < 2 ^ 32)
    (hrefused : M < u32 (E + (n + 1) * poolSize)) :
    ∀ (k : ℕ) {j : ℕ} {h : Heap}, j ≤ n → h.heapBrk = E + j * poolSize → h.heapMax = M →
      (∀ a ∈ expandPools k h, ∃ i, j ≤ i ∧ i < n ∧ a = E + i * poolSize) ∧
        (expandPools k h).Pairwise fun a b => Apart (a, poolSize) (b, poolSize) := by
  intro k
  induction k with
  | zero => exact fun _ _ _ => ⟨by simp [expandPools], List.Pairwise.nil⟩
  | succ k ih =>
    intro j h hj hbrk hmax
    have hnext : h.heapBrk + poolSize = E + (j + 1) * poolSize := by
      rw [hbrk]
      ring
    -- the next pool still fits, or the heap is refused and stays as it is for every later call
    rcases Nat.lt_or_ge j n with hlt | hge
    · have hu : u32 (h.heapBrk + poolSize) = E + (j + 1) * poolSize := by
        rw [hnext]
        exact Nat.mod_eq_of_lt (lt_of_le_of_lt (hbelow j hlt) hM)
      obtain ⟨hpool, hbrk', hmax'⟩ := expandHeap_granted (h := h) (by
        rw [hu, hmax]
        exact hbelow j hlt)
      obtain ⟨hmem, hpair⟩ := ih hlt (hbrk'.trans hu) (hmax'.trans hmax)
      have hhead : ∀ a ∈ poolOf h, a = E + j * poolSize := by
        intro a ha
        rw [hpool] at ha
        split at ha
        · simp at ha
        · rw [List.mem_singleton.1 ha, hbrk]
      refine ⟨fun a ha => ?_, List.pairwise_append.2 ⟨?_, hpair, fun a ha b hb => ?_⟩⟩
      · rcases List.mem_append.1 ha with ha | ha
        · exact ⟨j, le_refl j, hlt, hhead a ha⟩
        · obtain ⟨i, hi, hin, rfl⟩ := hmem a ha
          exact ⟨i, by omega, hin, rfl⟩
      · rw [hpool]
        split
        · exact List.Pairwise.nil
        · exact List.pairwise_singleton _ _
      · obtain ⟨i, hi, -, rfl⟩ := hmem b hb
        -- later pools start where this one ends, or beyond
        have hstep : (j + 1) * poolSize ≤ i * poolSize := Nat.mul_le_mul_right poolSize hi
        rw [hhead a ha]
        refine .inl ?_
        dsimp only
        linarith
    · obtain rfl : j = n := le_antisymm hj hge
      obtain ⟨hpool, hsame⟩ := expandHeap_refused (h := h) (by rwa [hnext, hmax])
      rw [expandPools, hpool, hsame]
      exact ih hj hbrk hmax

/-- While the requests stay below the limit, each of them is granted. -/
theorem mem_expandPools_of_granted (hM : M < 2 ^ 32)
    (hbelow : ∀ j < n, E + (j + 1) * poolSize ≤ M) (hgranted : u32 (E + (n + 1) * poolSize) ≤ M)
    (hne : E + n * poolSize ≠ 0) :
    ∀ (i : ℕ) {j : ℕ} {h : Heap}, j + i = n → h.heapBrk = E + j * poolSize → h.heapMax = M →
      E + n * poolSize ∈ expandPools (i + 1) h := by
  intro i
  induction i with
  | zero =>
    intro j h hj hbrk hmax
    obtain rfl : j = n := hj
    have hnext : h.heapBrk + poolSize = E + (j + 1) * poolSize := by
      rw [hbrk]
      ring
    obtain ⟨hpool, -⟩ := expandHeap_granted (h := h) (by rwa [hnext, hmax])
    rw [expandPools, hpool, hbrk, if_neg hne]
    simp
  | succ i ih =>
    intro j h hj hbrk hmax
    have hnext : h.heapBrk + poolSize = E + (j + 1) * poolSize := by
      rw [hbrk]
      ring
    have hlt : j < n := by omega
    have hu : u32 (h.heapBrk + poolSize) = E + (j + 1) * poolSize := by
      rw [hnext]
      exact Nat.mod_eq_of_lt (lt_of_le_of_lt (hbelow j hlt) hM)
    obtain ⟨-, hbrk', hmax'⟩ := expandHeap_granted (h := h) (by
      rw [hu, hmax]
      exact hbelow j hlt)
    rw [expandPools]
    exact List.mem_append_right _ (ih (by omega) (hbrk'.trans hu) (hmax'.trans hmax))

end Pools

/-! ### When the heap stays inside the memory -/

theorem heapMax_bootHeap (mem : ByteMemory) (_end totalMb : ℕ) :
    (bootHeap mem _end totalMb).heapMax = heapLimit _end totalMb := by
  have hbytes : totalMb * 1024 * 1024 = totalMb * 2 ^ 20 := by ring
  rw [bootHeap, heapLimit, u32, u32, hbytes, Nat.add_mod_mod]

/-- The pools before the `poolCount`-th end below the limit, and that one does not. -/
theorem poolCount_spec (_end totalMb : ℕ) :
    (∀ j < poolCount _end totalMb, _end + (j + 1) * poolSize ≤ heapLimit _end totalMb) ∧
      heapLimit _end totalMb < _end + (poolCount _end totalMb + 1) * poolSize := by
  have hpos : 0 < poolSize := by
    rw [poolSize_eq]
    decide
  constructor
  · intro j hj
    have hle : (j + 1) * poolSize ≤ heapLimit _end totalMb - _end :=
      (Nat.le_div_iff_mul_le hpos).1 hj
    have hpool : 0 < (j + 1) * poolSize := Nat.mul_pos (Nat.succ_pos j) hpos
    omega
  · have hlt : heapLimit _end totalMb - _end < (poolCount _end totalMb + 1) * poolSize :=
      (Nat.div_lt_iff_lt_mul hpos).1 (Nat.lt_succ_self _)
    omega

/-- **The heap stays inside the installed memory** exactly if the pools that fit below `heap_max`
end inside it, and the request behind them is refused. -/
theorem poolsInRam_iff (mem : ByteMemory) (_end totalMb : ℕ) :
    (∀ k, PoolsInRam _end totalMb (pools mem _end totalMb k)) ↔
      (poolCount _end totalMb = 0 ∨
          _end + poolCount _end totalMb * poolSize ≤ totalMb * 2 ^ 20) ∧
        heapLimit _end totalMb < (_end + (poolCount _end totalMb + 1) * poolSize) % 2 ^ 32 := by
  obtain ⟨hfit, hlast⟩ := poolCount_spec _end totalMb
  have hlimit : heapLimit _end totalMb < 2 ^ 32 := Nat.mod_lt _ (by decide)
  have hmax := heapMax_bootHeap mem _end totalMb
  have hbrk : (bootHeap mem _end totalMb).heapBrk = _end + 0 * poolSize := by
    rw [Nat.zero_mul, Nat.add_zero]
    rfl
  generalize hn : poolCount _end totalMb = n at hfit hlast ⊢
  constructor
  · intro hram
    constructor
    · rcases Nat.eq_zero_or_pos n with hz | hpos
      · exact .inl hz
      · -- the last pool below the limit is one of them, unless it is at address 0
        obtain ⟨m, rfl⟩ : ∃ m, n = m + 1 := ⟨n - 1, by omega⟩
        refine .inr ?_
        rcases eq_or_ne (_end + m * poolSize) 0 with h0 | hne
        · have hz : _end = 0 := by omega
          have hle := hfit m (Nat.lt_succ_self m)
          have hmod : heapLimit _end totalMb ≤ totalMb * 2 ^ 20 := by
            rw [heapLimit, hz, Nat.zero_add]
            exact Nat.mod_le _ _
          exact hle.trans hmod
        · have hu : u32 (_end + (m + 1) * poolSize) ≤ heapLimit _end totalMb := by
            have hle := hfit m (Nat.lt_succ_self m)
            rw [u32, Nat.mod_eq_of_lt (by omega)]
            exact hle
          have hmem := mem_expandPools_of_granted hlimit
            (fun j hj => hfit j (by omega)) hu hne m (Nat.zero_add m) hbrk hmax
          rw [← pools_eq] at hmem
          have hin := ((hram m).1 _ hmem).2.1
          calc _end + (m + 1) * poolSize = _end + m * poolSize + poolSize := by ring
            _ ≤ totalMb * 2 ^ 20 := hin
    · by_contra hge
      have hgranted : u32 (_end + (n + 1) * poolSize) ≤ heapLimit _end totalMb := by
        simpa [u32] using hge
      -- the address of the request behind them has wrapped around
      have hwrap : 2 ^ 32 ≤ _end + (n + 1) * poolSize := by
        by_contra hlt
        rw [u32, Nat.mod_eq_of_lt (by omega)] at hgranted
        omega
      have hsplit : _end + (n + 1) * poolSize = _end + n * poolSize + poolSize := by ring
      have hne : _end + n * poolSize ≠ 0 := by
        have hsize := poolSize_eq
        omega
      have hmem := mem_expandPools_of_granted hlimit hfit hgranted hne n (Nat.zero_add n)
        hbrk hmax
      rw [← pools_eq] at hmem
      have hin := ((hram n).1 _ hmem).2.2
      omega
  · rintro ⟨hinside, hrefused⟩ k
    obtain ⟨hmem, hpair⟩ := mem_expandPools hfit hlimit hrefused (k + 1) (Nat.zero_le n) hbrk hmax
    rw [pools_eq]
    refine ⟨fun a ha => ?_, hpair⟩
    obtain ⟨i, -, hi, rfl⟩ := hmem a ha
    have hsplit : _end + (i + 1) * poolSize = _end + i * poolSize + poolSize := by ring
    have hle : (i + 1) * poolSize ≤ n * poolSize := Nat.mul_le_mul_right poolSize hi
    have hbelow' := hfit i hi
    rcases hinside with hz | hinside
    · omega
    · exact ⟨Nat.le_add_right _ _, by omega, by omega⟩

/-- With 128 MiB of memory and an image that ends at 2 MiB, the eighth pool ends at 130 MiB. -/
theorem pools_beyond_memory :
    ¬PoolsInRam 0x00200000 128 (pools (fun _ => 0) 0x00200000 128 7) := by
  intro hram
  have hmem : 0x07200000 ∈ pools (fun _ => 0) 0x00200000 128 7 := by decide +kernel
  have hin := (hram.1 _ hmem).2.1
  rw [poolSize_eq] at hin
  omega

end Malloc

end LittleLinux
