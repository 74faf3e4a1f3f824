import LittleLinux.Kernel.MallocTiling

/-!
# The allocator refines a list of free blocks

`malloc.c` keeps its free list in the memory it manages. Read without that memory, a heap is a
`FreeStore`: the blocks met by following `next` from `free_list`, `heap_brk` and `heap_max`. What
`malloc` and `free` do to it is `FreeStore.alloc` and `FreeStore.release`, and no byte that a
caller keeps in a live block changes on the way (`malloc_free_refine_store`). When a request
succeeds, and which block it gets, is then a fact about lists (`malloc_succeeds_iff`).
-/

namespace LittleLinux

namespace Malloc

variable {E : ℕ} {h h' : Heap} {F L : List (ℕ × ℕ)} {s : AllocState}

/-! ### One call -/

/-- The heap that a request leaves behind, read without its memory. -/
theorem Allocated.store {res : Option (ℕ × ℕ) × FreeStore} (ha : Allocated E L h res h') :
    h'.store = res.2 := by
  rw [ha.inv.store, ha.brk, ha.limit]

theorem heapBrk_free (h : Heap) (p : ℕ) : (free h p).heapBrk = h.heapBrk := by
  have hlink : ∀ block,
      Heap.heapBrk { h.setNext block h.freeList with freeList := block } = h.heapBrk :=
    fun _ => rfl
  rcases eq_or_ne p 0 with hp | hp
  · rw [free, if_pos hp]
  · rw [free, if_neg hp]
    exact hlink _

/-- `free` gives the block back to the store. -/
theorem store_free {b : ℕ × ℕ} (hi : HeapInv E h F (b :: L)) :
    (free h (b.1 + headerSize)).store = h.store.release b := by
  rw [(free_spec hi).store, hi.store, heapBrk_free, heapMax_free]
  rfl

/-- `free` writes to the header of the block alone. -/
theorem mem_free {b : ℕ × ℕ} (hi : HeapInv E h F (b :: L)) {x : ℕ} (hx : OutsideBlock x b) :
    (free h (b.1 + headerSize)).mem x = h.mem x := by
  have hb := hi.bounds (b := b) (by simp)
  have hbrk := hi.brk_lt
  have hblock : u32 (b.1 + headerSize + 2 ^ 32 - headerSize) = b.1 := by
    rw [show b.1 + headerSize + 2 ^ 32 - headerSize = b.1 + 2 ^ 32 by omega, u32,
      Nat.add_mod_right]
    exact Nat.mod_eq_of_lt (by omega)
  have hwrite : (h.setNext b.1 h.freeList).mem x = h.mem x := by
    simp only [OutsideBlock] at hx
    exact mem_setNext (by omega)
  rw [free, if_neg (by simp [headerSize]), hblock]
  exact hwrite

/-! ### When `malloc` succeeds -/

theorem Tiled.heapInv (ht : Tiled E s F) (hE : 0 < E)
    (hroom : s.heap.heapMax + poolSize < 2 ^ 32) : HeapInv E s.heap F s.liveBlocks where
  end_pos := hE
  chain := ht.chain
  live_size := by
    intro b hb
    obtain ⟨p, -, rfl⟩ := List.mem_map.1 hb
    rfl
  tiles := ht.tiles
  sizes := ht.sizes
  brk_le := ht.brk_le
  brk_lt := by
    have := ht.brk_le
    omega

/-- A request that the rounding does not wrap around is rounded up to a multiple of eight. -/
theorem reqSize_eq {size : ℕ} (hpos : 0 < size) (hsize : size ≤ 2 ^ 32 - 8) :
    reqSize size = (size + 7) / 8 * 8 := by
  have hup : alignUp size = (size + 7) / 8 * 8 := by
    rw [alignUp_eq, u32, Nat.mod_eq_of_lt (by omega)]
  rw [reqSize, hup, if_neg (by omega)]

/-- **`malloc` returns, and fails only when it must.** In a tiled heap with room for a pool behind
`heap_max` it returns for every size; the pointer is not NULL exactly if a free block can hold the
rounded size, or a pool can and one is left. If there is such a block, the first one of the list is
used, no pool is taken, and the other blocks keep their order and sizes. -/
theorem malloc_succeeds_iff (hE : 0 < E) (ht : Tiled E s F)
    (hroom : s.heap.heapMax + 16 * 2 ^ 20 < 2 ^ 32) {size : ℕ} (hpos : 0 < size)
    (hsize : size ≤ 2 ^ 32 - 8) :
    ∃ p h', malloc s.heap size = some (p, h') ∧
      (p ≠ 0 ↔ (∃ b ∈ F, (size + 7) / 8 * 8 ≤ b.2) ∨
        ((size + 7) / 8 * 8 ≤ 16 * 2 ^ 20 - 8 ∧
          s.heap.heapBrk + 16 * 2 ^ 20 ≤ s.heap.heapMax)) ∧
      ∀ F₁ b F₂, F = F₁ ++ b :: F₂ → (∀ c ∈ F₁, c.2 < (size + 7) / 8 * 8) →
        (size + 7) / 8 * 8 ≤ b.2 →
          p = b.1 + 8 ∧ h'.heapBrk = s.heap.heapBrk ∧
            (h'.freeBlocks = F₁ ++ F₂ ∨
              h'.freeBlocks = F₁ ++ (b.1 + 8 + (size + 7) / 8 * 8,
                b.2 - (size + 7) / 8 * 8 - 8) :: F₂) := by
  have hpool : (16 * 2 ^ 20 : ℕ) = poolSize := by
    rw [poolSize_eq]
    norm_num
  rw [hpool] at hroom ⊢
  rw [← reqSize_eq hpos hsize]
  have hi := ht.heapInv hE hroom
  have halloc : s.heap.alloc size =
      (FreeStore.mk F s.heap.heapBrk s.heap.heapMax).alloc headerSize 8 poolSize
        (reqSize size) := by
    rw [Heap.alloc, if_neg (by omega), hi.store]
  -- from here on the abstract free store decides; the header words only have to follow it
  obtain ⟨h', hm, ha⟩ := malloc_allocated hi fun _ => fitsWord_of_room hi hroom size
  refine ⟨_, h', hm, ?_, fun F₁ b F₂ hF hF₁ hb => ?_⟩
  · have hsome : blockPointer (s.heap.alloc size).1 ≠ 0 ↔ (s.heap.alloc size).1.isSome := by
      cases (s.heap.alloc size).1 with
      | none => simp [blockPointer]
      | some b => simp [blockPointer, headerSize]
    rw [hsome, halloc]
    exact FreeStore.alloc_isSome_iff
  · rw [FreeStore.alloc_of_fit hF hF₁ hb] at halloc
    have hbrk := ha.brk
    have hfree := ha.inv.freeBlocks
    rw [halloc] at hbrk hfree ⊢
    refine ⟨rfl, hbrk, ?_⟩
    rw [hfree, remainder]
    split
    · exact .inr (by simp [headerSize])
    · exact .inl (by simp)

/-- A request of a fresh heap of 32 MiB is served. -/
theorem malloc_succeeds_iff_freshHeap :
    ∃ p h', malloc (mallocInit (fun _ => 0) 0x00100000 32) 24 = some (p, h') ∧ p ≠ 0 := by
  have hinit := allocInv_init (fun _ => 0) 0x00100000 32 (by norm_num)
    (by norm_num) (by rw [poolSize_eq]; norm_num)
  obtain ⟨F, ht⟩ := hinit.1.tiled
  obtain ⟨p, h', hm, hiff, -⟩ := malloc_succeeds_iff (by norm_num) ht
    (by rw [hinit.2]; norm_num) (show 0 < 24 by norm_num) (by norm_num)
  exact ⟨p, h', hm, hiff.2 (.inr ⟨by norm_num, by decide +kernel⟩)⟩

/-! ### Runs -/

/-- The user area of the block `p` holds the same bytes. -/
def SameArea (h h' : Heap) (p : ℕ) : Prop :=
  ∀ x, p ≤ x → x < p + h.size (p - headerSize) → h'.mem x = h.mem x

instance : DecidablePred FitsWord := fun res =>
  inferInstanceAs (Decidable (res.2.brk < 2 ^ 32 ∧ (res.1 = none → res.2.brk + poolSize < 2 ^ 32)))

instance (s : AllocState) : (op : AllocOp) → Decidable (op.NoWrap s)
  | .malloc size => inferInstanceAs (Decidable (size ≠ 0 → FitsWord (s.heap.alloc size)))
  | .free _ => isTrue trivial
  | .store _ _ => isTrue trivial

theorem AllocInv.malloc_refines (hs : AllocInv E s) {size : ℕ}
    (hword : AllocOp.NoWrap s (.malloc size)) :
    ∃ h', LittleLinux.Malloc.malloc s.heap size =
        some (blockPointer (s.heap.alloc size).1, h') ∧
      h'.store = (s.heap.alloc size).2 ∧ ∀ p ∈ s.live, SameArea s.heap h' p := by
  obtain ⟨⟨F, hi⟩, hge⟩ := hs
  obtain ⟨h', hm, ha⟩ := malloc_allocated hi hword
  refine ⟨h', hm, ha.store, fun p hp x hlo hhi => ?_⟩
  have hp8 := hge p hp
  exact ha.bytes _ (List.mem_map_of_mem hp) x (by dsimp only; omega) (by dsimp only; omega)

theorem AllocInv.free_refines (hs : AllocInv E s) {p : ℕ} (hp : p ∈ s.live) :
    (LittleLinux.Malloc.free s.heap p).store =
        s.heap.store.release (p - headerSize, s.heap.size (p - headerSize)) ∧
      ∀ q ∈ s.live, q ≠ p → SameArea s.heap (LittleLinux.Malloc.free s.heap p) q := by
  obtain ⟨⟨F, hi⟩, hge⟩ := hs
  have hperm : s.liveBlocks.Perm ((p - headerSize, s.heap.size (p - headerSize)) ::
      (AllocState.mk s.heap (s.live.erase p)).liveBlocks) :=
    (List.perm_cons_erase hp).map _
  have hi' := hi.perm_live hperm
  have hstore := store_free hi'
  rw [Nat.sub_add_cancel (hge p hp)] at hstore
  refine ⟨hstore, fun q hq hne x hlo hhi => ?_⟩
  have hout : OutsideBlock x (p - headerSize, s.heap.size (p - headerSize)) := by
    have hq' : (q - headerSize, s.heap.size (q - headerSize)) ∈
        (AllocState.mk s.heap (s.live.erase p)).liveBlocks :=
      List.mem_map_of_mem ((List.mem_erase_of_ne hne).2 hq)
    have hpair := (List.pairwise_append.mp (List.pairwise_map.mp hi'.tiles.pairwise)).2.1
    have hapart := (List.pairwise_cons.1 hpair).1 _ hq'
    have hq8 := hge q hq
    simp only [Apart, extent] at hapart
    simp only [OutsideBlock]
    omega
  have hmem := mem_free hi' hout
  rwa [Nat.sub_add_cancel (hge p hp)] at hmem

/-- **The allocator never writes into live data.** In every state that `malloc_init` and a
sequence of calls and of stores of the callers into their own blocks reach without an address
passing `2 ^ 32`: a further `malloc` that does not wrap either, and a `free` of a live pointer,
change no byte of the user area of another live block, and turn the free list that memory holds
into the one that `alloc` and `release` say. -/
theorem malloc_free_refine_store (mem : ByteMemory) {E totalMb : ℕ} (hE : 0 < E)
    (hmax : E + totalMb * 2 ^ 20 < 2 ^ 32) (hpool : E + 16 * 2 ^ 20 < 2 ^ 32)
    {ops : List AllocOp}
    (hops : Along allocStep (fun s op => op.Legal s ∧ op.NoWrap s)
      ⟨mallocInit mem E totalMb, []⟩ ops) :
    let s := ops.foldl allocStep ⟨mallocInit mem E totalMb, []⟩
    (∀ size, AllocOp.NoWrap s (.malloc size) →
      ∃ h', malloc s.heap size = some (blockPointer (s.heap.alloc size).1, h') ∧
        h'.store = (s.heap.alloc size).2 ∧ ∀ p ∈ s.live, SameArea s.heap h' p) ∧
    ∀ p ∈ s.live,
      (free s.heap p).store =
          s.heap.store.release (p - headerSize, s.heap.size (p - headerSize)) ∧
        ∀ q ∈ s.live, q ≠ p → SameArea s.heap (free s.heap p) q := by
  intro s
  have hpool' : E + poolSize < 2 ^ 32 := by
    rw [poolSize_eq]
    omega
  have hinv : AllocInv E s := Along.invariant (fun _ _ hs h => hs.step h.1 h.2)
    (allocInv_init mem E totalMb hE hmax hpool').1 hops
  exact ⟨fun size hword => hinv.malloc_refines hword, fun p hp => hinv.free_refines hp⟩

/-- Two blocks taken and the first of them given back; the other one is live. -/
theorem malloc_free_refine_store_twoBlocks :
    let s := ([.malloc 24, .malloc 100, .store 0x00100030 7, .free 0x00100008] :
      List AllocOp).foldl allocStep ⟨mallocInit (fun _ => 0) 0x00100000 32, []⟩
    s.live = [0x00100028] ∧ s.heap.freeBlocks.map Prod.fst = [0x00100000, 0x00100090] ∧
      ∀ size, AllocOp.NoWrap s (.malloc size) →
        ∃ h', malloc s.heap size = some (blockPointer (s.heap.alloc size).1, h') ∧
          h'.store = (s.heap.alloc size).2 ∧ ∀ p ∈ s.live, SameArea s.heap h' p :=
  ⟨by decide +kernel, by decide +kernel,
    (malloc_free_refine_store (fun _ => 0) (by norm_num) (by norm_num) (by norm_num)
      (by decide +kernel)).1⟩

end Malloc

end LittleLinux
