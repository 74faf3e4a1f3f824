import LittleLinux.Dfs.BlockSafety

/-!
# The exact effect of the block calls

On a store without faults `dfs_free_file_blocks` clears the bits of its blocks and
`dfs_alloc_file_blocks` sets those of the first run that its scan sees. What the scan sees is
the bitmap, except that its first byte may come from the static variables (`Disk.seen`).

A number of blocks is counted twice here: `ceilBlocks` rounds up, `blocksFor` does so in 64-bit
arithmetic, where a size in the last kilobyte of the range gives no block at all. For a release
this is the one thing that can go wrong (`dfsFreeFileBlocks_exact_iff`). An allocation is first
fit when the scan sees the run that is first on the disk and its address fits in 32 bits
(`dfsAllocFileBlocks_firstFit_iff`).
-/

namespace LittleLinux

/-! ### Sizes -/

/-- The number of blocks for `size` bytes. -/
def ceilBlocks (size : ℕ) : ℕ := (size + 1023) / DFS_BLOCK_SIZE

theorem blocksFor_of_lt {size : ℕ} (h : size + 1023 < 2 ^ 64) : blocksFor size = ceilBlocks size := by
  unfold blocksFor ceilBlocks DFS_BLOCK_SIZE
  rw [Nat.mod_eq_of_lt (by omega)]
  rfl

/-- In the last kilobyte of the range the sum wraps around. -/
theorem blocksFor_of_ge {size : ℕ} (h : 2 ^ 64 ≤ size + 1023) (hlt : size < 2 ^ 64) :
    blocksFor size = 0 ∧ 2 ^ 32 ≤ ceilBlocks size := by
  unfold blocksFor ceilBlocks DFS_BLOCK_SIZE
  omega

/-! ### Requests on a store without faults -/

section Reliable

variable {st : Store} {id : PartId}

theorem readBitmapByte_of_lt (hst : st.Reliable) {off : ℕ} (h : off < st.size id) :
    (readBitmapByte st id off).1 = some (st.bytes id off) := by
  have hread : (st.read id off 1).1 = some fun i => st.bytes id (off + i) :=
    hst.read_eq (by norm_num) (by omega)
  rw [readBitmapByte, hread]
  rfl

theorem readBitmapByte_of_ge {off : ℕ} (h : st.size id ≤ off) :
    (readBitmapByte st id off).1 = none := by
  have hread : (st.read id off 1).1 = none := if_neg fun ha => by
    have := ha.2.2
    omega
  rw [readBitmapByte, hread]
  rfl

theorem writeBitmapByte_of_lt (hst : st.Reliable) {off : ℕ} (h : off < st.size id) (v : UInt8) :
    (writeBitmapByte st id off v).1 = true ∧
      (writeBitmapByte st id off v).2.bytes id = (st.bytes id).putBytes off 1 fun _ => v := by
  have hok : (writeBitmapByte st id off v).1 = true :=
    decide_eq_true ⟨hst _, by norm_num, by omega⟩
  rcases writeBitmapByte_bytes st id off v with h | h
  · exact h
  · rw [hok] at h
    exact absurd h.1 (by simp)

theorem readSuperblock_of_le (hst : st.Reliable) (h : sizeofSuperblock ≤ st.size id) :
    (readSuperblock st id).1 = some (Superblock.decode (st.bytes id)) := by
  have hread : (st.read id 0 sizeofSuperblock).1 = some fun i => st.bytes id (0 + i) :=
    hst.read_eq (by decide) (by omega)
  rw [readSuperblock, hread]
  simp only [Option.map_some, Nat.zero_add]

end Reliable

/-! ### Release -/

/-- One byte of the bitmap, read and written back with the bit of block `i` cleared. -/
theorem blockUsed_clearByte {st : Store} {id : PartId} (hst : st.Reliable) {base i : ℕ}
    (hoff : base + i / 8 < st.size id) (j : ℕ) :
    BlockUsed ((writeBitmapByte (readBitmapByte st id (base + i / 8)).2 id (base + i / 8)
        (st.bytes id (base + i / 8) &&& ~~~(bitOf i))).2.bytes id) base j ↔
      BlockUsed (st.bytes id) base j ∧ j ≠ i := by
  have hst' : (readBitmapByte st id (base + i / 8)).2.Reliable := hst
  obtain ⟨-, hbytes⟩ := writeBitmapByte_of_lt hst' hoff
    (st.bytes id (base + i / 8) &&& ~~~(bitOf i))
  rw [hbytes]
  exact blockUsed_clear

/-- The exact effect of clearing blocks. A byte of the bitmap beyond the end of the partition
cannot be read, and its blocks are skipped. -/
theorem clearBlocks_exact (id : PartId) {base total : ℕ} (hw : bitmapEnd base total ≤ 2 ^ 32)
    (n block : ℕ) (st : Store) (hst : st.Reliable) (j : ℕ) :
    BlockUsed ((clearBlocks id base total n block st).bytes id) base j ↔
      BlockUsed (st.bytes id) base j ∧
        ¬ (block ≤ j ∧ j < block + n ∧ j < total ∧ base + j / 8 < st.size id) := by
  induction n generalizing block st with
  | zero =>
    rw [clearBlocks]
    exact (and_iff_left (by omega)).symm
  | succ n ih =>
    rw [clearBlocks]
    rcases Nat.lt_or_ge block total with hlt | hge
    · rw [if_neg (by omega)]
      simp only [byteOff_eq hw hlt]
      rcases Nat.lt_or_ge (base + block / 8) (st.size id) with hoff | hoff
      · simp only [readBitmapByte_of_lt hst hoff]
        rw [ih, blockUsed_clearByte hst hoff, and_assoc]
        · refine and_congr_right fun _ => ?_
          change j ≠ block ∧ ¬ (_ ∧ _ ∧ _ ∧ _ < st.size id) ↔ _
          by_cases hj : j = block
          · subst hj
            simp [hlt, hoff]
          · simp only [ne_eq, hj, not_false_iff, true_and]
            exact not_congr (by omega)
        · exact hst
      · simp only [readBitmapByte_of_ge hoff]
        rw [ih]
        · change _ ∧ ¬ (_ ∧ _ ∧ _ ∧ _ < st.size id) ↔ _
          refine and_congr_right fun _ => not_congr ?_
          by_cases hj : j = block
          · subst hj
            omega
          · omega
        · exact hst
    · rw [if_pos hge]
      exact (and_iff_left (by omega)).symm

/-- The blocks of a release of `n` blocks at `startAddr`. -/
def FreedBlock (sb : Superblock) (startAddr n j : ℕ) : Prop :=
  sb.dataStart ≤ startAddr ∧ (startAddr - sb.dataStart) / DFS_BLOCK_SIZE ≤ j ∧
    j < (startAddr - sb.dataStart) / DFS_BLOCK_SIZE + n ∧ j < sb.blockCount

/-- **What a release does**: the bits of its blocks are cleared, and nothing else changes. -/
theorem dfsFreeFileBlocks_exact {st : Store} {id : PartId} {sb : Superblock}
    (hsb : Superblock.decode (st.bytes id) = sb) (hst : st.Reliable)
    (hsuper : sizeofSuperblock ≤ st.size id)
    (hw : bitmapEnd sb.bitmapStart sb.blockCount ≤ 2 ^ 32) (startAddr size : ℕ) :
    BitmapChange id sb.bitmapStart (bitmapEnd sb.bitmapStart sb.blockCount) st
        (dfsFreeFileBlocks st id startAddr size) ∧
      ∀ j, BlockUsed ((dfsFreeFileBlocks st id startAddr size).bytes id) sb.bitmapStart j ↔
        BlockUsed (st.bytes id) sb.bitmapStart j ∧
          ¬ (FreedBlock sb startAddr (blocksFor size) j ∧ sb.bitmapStart + j / 8 < st.size id) := by
  rw [dfsFreeFileBlocks, readSuperblock_of_le hst hsuper, hsb]
  dsimp only
  split_ifs with hlt
  · refine ⟨.read id 0 sizeofSuperblock, fun j => ?_⟩
    exact (and_iff_left fun h => absurd h.1.1 (by omega)).symm
  · obtain ⟨hch, -⟩ := clearBlocks_spec id hw (blocksFor size)
      ((startAddr - sb.dataStart) / DFS_BLOCK_SIZE) (readSuperblock st id).2
    refine ⟨.trans (.read id 0 sizeofSuperblock) hch, fun j => ?_⟩
    refine (clearBlocks_exact id hw _ _ (readSuperblock st id).2 hst j).trans ?_
    unfold FreedBlock
    change _ ∧ ¬ (_ ∧ _ ∧ _ ∧ _ < st.size id) ↔ _
    refine and_congr_right fun _ => not_congr ?_
    constructor
    · rintro ⟨h₁, h₂, h₃, h₄⟩
      exact ⟨⟨by omega, h₁, h₂, h₃⟩, h₄⟩
    · rintro ⟨⟨-, h₁, h₂, h₃⟩, h₄⟩
      exact ⟨h₁, h₂, h₃, h₄⟩

/-- The bits determine the bytes. -/
theorem eq_of_blockUsed {m m' : ByteMemory} {base : ℕ}
    (h : ∀ j, BlockUsed m base j ↔ BlockUsed m' base j) {x : ℕ} (hx : base ≤ x) : m x = m' x := by
  refine UInt8.toNat_inj.mp (Nat.eq_of_testBit_eq fun k => ?_)
  rcases Nat.lt_or_ge k 8 with hk | hk
  · have hbit := h (8 * (x - base) + k)
    rw [BlockUsed, BlockUsed, show base + (8 * (x - base) + k) / 8 = x by omega,
      show (8 * (x - base) + k) % 8 = k by omega] at hbit
    exact Bool.eq_iff_iff.mpr hbit
  · have hpow : 2 ^ 8 ≤ 2 ^ k := Nat.pow_le_pow_right (by norm_num) hk
    have hm := (m x).toNat_lt
    have hm' := (m' x).toNat_lt
    rw [Nat.testBit_lt_two_pow (by omega), Nat.testBit_lt_two_pow (by omega)]

/-- A change of the bitmap that leaves every bit as it was changes no byte. -/
theorem BitmapChange.bytes_eq {id : PartId} {base hi : ℕ} {st st' : Store}
    (h : BitmapChange id base hi st st')
    (hbits : ∀ j, BlockUsed (st'.bytes id) base j ↔ BlockUsed (st.bytes id) base j) :
    st'.bytes = st.bytes := by
  funext id' x
  rcases eq_or_ne id' id with rfl | hne
  · rcases Nat.lt_or_ge x base with hx | hx
    · exact h.outside x (.inl hx)
    · exact eq_of_blockUsed hbits hx
  · rw [h.others id' hne]

/-- The bitmap of the superblock lies inside the partition, behind the superblock and below
4 GiB. -/
structure BitmapInside (st : Store) (id : PartId) : Prop where
  after : sizeofSuperblock ≤ (Superblock.decode (st.bytes id)).bitmapStart
  inside : bitmapEnd (Superblock.decode (st.bytes id)).bitmapStart
    (Superblock.decode (st.bytes id)).blockCount ≤ st.size id
  below : bitmapEnd (Superblock.decode (st.bytes id)).bitmapStart
    (Superblock.decode (st.bytes id)).blockCount ≤ 2 ^ 32

/-- A release that clears the bits of its `n` blocks, changes nothing else, and does nothing when
it is repeated. -/
structure FreesExactly (st : Store) (id : PartId) (startAddr size : ℕ) : Prop where
  bits : ∀ j, BlockUsed ((dfsFreeFileBlocks st id startAddr size).bytes id)
      (Superblock.decode (st.bytes id)).bitmapStart j ↔
    BlockUsed (st.bytes id) (Superblock.decode (st.bytes id)).bitmapStart j ∧
      ¬ FreedBlock (Superblock.decode (st.bytes id)) startAddr (ceilBlocks size) j
  others : ∀ id' ≠ id, (dfsFreeFileBlocks st id startAddr size).bytes id' = st.bytes id'
  outside : ∀ x, x < (Superblock.decode (st.bytes id)).bitmapStart ∨
      bitmapEnd (Superblock.decode (st.bytes id)).bitmapStart
        (Superblock.decode (st.bytes id)).blockCount ≤ x →
    (dfsFreeFileBlocks st id startAddr size).bytes id x = st.bytes id x
  twice : (dfsFreeFileBlocks (dfsFreeFileBlocks st id startAddr size) id startAddr size).bytes =
    (dfsFreeFileBlocks st id startAddr size).bytes

theorem BitmapInside.super_le {st : Store} {id : PartId} (h : BitmapInside st id) :
    sizeofSuperblock ≤ st.size id := by
  have hafter := h.after
  have hinside := h.inside
  unfold bitmapEnd at hinside
  omega

/-- Every block of the bitmap has its byte inside the partition, so none is skipped. -/
theorem BitmapInside.blockUsed_free {st : Store} {id : PartId} (h : BitmapInside st id)
    (hst : st.Reliable) (startAddr size j : ℕ) :
    BlockUsed ((dfsFreeFileBlocks st id startAddr size).bytes id)
        (Superblock.decode (st.bytes id)).bitmapStart j ↔
      BlockUsed (st.bytes id) (Superblock.decode (st.bytes id)).bitmapStart j ∧
        ¬ FreedBlock (Superblock.decode (st.bytes id)) startAddr (blocksFor size) j := by
  rw [(dfsFreeFileBlocks_exact rfl hst h.super_le h.below startAddr size).2 j]
  refine and_congr_right fun _ => not_congr (and_iff_left_of_imp fun hf => ?_)
  exact (byteOff_lt_bitmapEnd _ hf.2.2.2).trans h.inside

/-- A second release of the same blocks finds nothing to do. -/
theorem BitmapInside.free_free {st : Store} {id : PartId} (h : BitmapInside st id)
    (hst : st.Reliable) (startAddr size : ℕ) :
    (dfsFreeFileBlocks (dfsFreeFileBlocks st id startAddr size) id startAddr size).bytes =
      (dfsFreeFileBlocks st id startAddr size).bytes := by
  obtain ⟨hch, -⟩ := dfsFreeFileBlocks_exact rfl hst h.super_le h.below startAddr size
  have hfirst := h.blockUsed_free hst startAddr size
  set st' := dfsFreeFileBlocks st id startAddr size with hst'
  have hsb : Superblock.decode (st'.bytes id) = Superblock.decode (st.bytes id) :=
    hch.superblock_eq (le_trans (by decide) h.after) id
  have hrel : st'.Reliable := fun n => by rw [hch.fault]; exact hst n
  have hsuper : sizeofSuperblock ≤ st'.size id := by
    rw [hch.size_eq]
    exact h.super_le
  obtain ⟨hch', hbits⟩ := dfsFreeFileBlocks_exact hsb hrel hsuper h.below startAddr size
  refine hch'.bytes_eq fun j => ?_
  rw [hbits, hfirst]
  exact and_iff_left_of_imp fun hj hf => hj.2 hf.1

/-- **A release touches its own bits only**: it clears the bits of its blocks and nothing else,
once and for all, unless the size lies in the last kilobyte of the 64-bit range and there is a
marked block to release. -/
theorem dfsFreeFileBlocks_exact_iff (st : Store) (id : PartId) (hst : st.Reliable)
    (hmap : BitmapInside st id) (startAddr size : ℕ) (hsize : size < 2 ^ 64) :
    FreesExactly st id startAddr size ↔
      size + 1023 < 2 ^ 64 ∨ startAddr < (Superblock.decode (st.bytes id)).dataStart ∨
        ∀ j, (startAddr - (Superblock.decode (st.bytes id)).dataStart) / DFS_BLOCK_SIZE ≤ j →
          j < (Superblock.decode (st.bytes id)).blockCount →
          ¬ BlockUsed (st.bytes id) (Superblock.decode (st.bytes id)).bitmapStart j := by
  have hcount := (Superblock.decode_fits (st.bytes id)).blockCount
  have hfreed := hmap.blockUsed_free hst startAddr size
  obtain ⟨hch, -⟩ := dfsFreeFileBlocks_exact rfl hst hmap.super_le hmap.below startAddr size
  constructor
  · intro h
    by_contra hn
    push Not at hn
    obtain ⟨hover, hdata, j, hj, hlt, hused⟩ := hn
    -- no block is released, although the block `j` is one of those to be released
    obtain ⟨hzero, hceil⟩ := blocksFor_of_ge hover hsize
    have hb := h.bits j
    rw [hfreed, hzero] at hb
    have hceil : j < ceilBlocks size := (hlt.trans hcount).trans_le hceil
    refine (hb.mp ⟨hused, fun hf => ?_⟩).2 ⟨hdata, hj, Nat.lt_add_left _ hceil, hlt⟩
    have := hf.2.2.1
    omega
  · intro h
    refine ⟨fun j => ?_, hch.others, hch.outside, hmap.free_free hst startAddr size⟩
    rw [hfreed]
    rcases Nat.lt_or_ge (size + 1023) (2 ^ 64) with hlt | hge
    · rw [blocksFor_of_lt hlt]
    · obtain ⟨hzero, -⟩ := blocksFor_of_ge hge hsize
      refine and_congr_right fun hused => not_congr ⟨fun hf => ?_, fun hf => ?_⟩
      · have := hf.2.2.1
        rw [hzero] at this
        have := hf.2.1
        omega
      · rcases h with h | h | h
        · omega
        · exact absurd hf.1 (by omega)
        · exact absurd hused (h j hf.2.1 hf.2.2.2)

/-- A formatted partition with its first block allocated. -/
def oneBlockStore : Store := (dfsAllocFileBlocks formattedState.disk part0 1024).2.store

theorem oneBlockStore_reliable : oneBlockStore.Reliable := fun _ => rfl

theorem oneBlockStore_bitmapInside : BitmapInside oneBlockStore part0 where
  after := by decide +kernel
  inside := by decide +kernel
  below := by decide +kernel

theorem dfsFreeFileBlocks_exact_iff_oneBlock : FreesExactly oneBlockStore part0 143206400 1024 :=
  (dfsFreeFileBlocks_exact_iff oneBlockStore part0 oneBlockStore_reliable
    oneBlockStore_bitmapInside 143206400 1024 (by norm_num)).mpr (.inl (by norm_num))

/-- Released with the largest size of all, the block stays marked. -/
theorem dfsFreeFileBlocks_frees_nothing :
    oneBlockStore.Reliable ∧ BitmapInside oneBlockStore part0 ∧
      ¬ FreesExactly oneBlockStore part0 143206400 (2 ^ 64 - 1) := by
  refine ⟨oneBlockStore_reliable, oneBlockStore_bitmapInside, fun h => ?_⟩
  have hused : BlockUsed ((dfsFreeFileBlocks oneBlockStore part0 143206400 (2 ^ 64 - 1)).bytes part0)
      (Superblock.decode (oneBlockStore.bytes part0)).bitmapStart 0 := by
    decide +kernel
  refine ((h.bits 0).mp hused).2 ?_
  unfold FreedBlock
  decide +kernel

/-! ### Allocation -/

/-- The bitmap at `base` as a scan sees it: the byte at `base` comes from the static variables
when they hold that offset, and offsets are cut to 32 bits. -/
def Disk.seen (d : Disk) (id : PartId) (base : ℕ) : ByteMemory := fun x =>
  if x = base ∧ d.lastByteOff = base then d.byteVal else d.store.bytes id (x % 2 ^ 32)

theorem Disk.sees_seen (d : Disk) (id : PartId) {base : ℕ} (hbase : base < 2 ^ 32) (total : ℕ) :
    Sees d id base total (d.seen id base) 0 where
  here := by
    rw [Nat.add_zero, Nat.mod_eq_of_lt hbase, Disk.seen, Nat.mod_eq_of_lt hbase]
    simp only [true_and]
  later := fun k hk _ => by
    rw [Disk.seen, if_neg fun h => by omega]

/-- One byte of the bitmap, read and written back with the bit of block `i` set. Where the offset
wraps around, the byte lies before the bitmap. -/
theorem blockUsed_setByte {st : Store} {id : PartId} (hst : st.Reliable) {base i : ℕ}
    (hbase : base < 2 ^ 32) (hi : i < 2 ^ 32) (hoff : (base + i / 8) % 2 ^ 32 < st.size id) (j : ℕ) :
    BlockUsed ((writeBitmapByte (readBitmapByte st id ((base + i / 8) % 2 ^ 32)).2 id
        ((base + i / 8) % 2 ^ 32) (st.bytes id ((base + i / 8) % 2 ^ 32) ||| bitOf i)).2.bytes id)
        base j ↔
      BlockUsed (st.bytes id) base j ∨ j = i ∧ base + i / 8 < 2 ^ 32 := by
  have hst' : (readBitmapByte st id ((base + i / 8) % 2 ^ 32)).2.Reliable := hst
  obtain ⟨-, hbytes⟩ := writeBitmapByte_of_lt hst' hoff
    (st.bytes id ((base + i / 8) % 2 ^ 32) ||| bitOf i)
  rw [hbytes]
  rcases Nat.lt_or_ge (base + i / 8) (2 ^ 32) with hlt | hge
  · rw [Nat.mod_eq_of_lt hlt, and_iff_left hlt]
    exact blockUsed_set
  · rw [BlockUsed, ByteMemory.putBytes_of_notMem (by omega)]
    exact (or_iff_left fun h => by omega).symm

/-- The exact effect of marking blocks whose bytes can be read. -/
theorem markBlocks_exact (id : PartId) {base : ℕ} (hbase : base < 2 ^ 32) (n block : ℕ)
    (st : Store) (hst : st.Reliable) (hle : block + n ≤ 2 ^ 32)
    (hoff : ∀ j, block ≤ j → j < block + n → (base + j / 8) % 2 ^ 32 < st.size id) :
    (markBlocks id base n block st).1 = true ∧
      ∀ j, BlockUsed ((markBlocks id base n block st).2.bytes id) base j ↔
        BlockUsed (st.bytes id) base j ∨ block ≤ j ∧ j < block + n ∧ base + j / 8 < 2 ^ 32 := by
  induction n generalizing block st with
  | zero => exact ⟨rfl, fun j => (or_iff_left (by omega)).symm⟩
  | succ n ih =>
    have hblock := hoff block (le_refl _) (by omega)
    rw [markBlocks]
    simp only [readBitmapByte_of_lt hst hblock]
    have hst' : (readBitmapByte st id ((base + block / 8) % 2 ^ 32)).2.Reliable := hst
    obtain ⟨hok, -⟩ := writeBitmapByte_of_lt hst' hblock
      (st.bytes id ((base + block / 8) % 2 ^ 32) ||| bitOf block)
    rw [if_pos hok]
    obtain ⟨hrest, hbits⟩ := ih (block + 1)
      (writeBitmapByte (readBitmapByte st id ((base + block / 8) % 2 ^ 32)).2 id
        ((base + block / 8) % 2 ^ 32) (st.bytes id ((base + block / 8) % 2 ^ 32) ||| bitOf block)).2
      hst (by omega) fun j hj hj' => hoff j (by omega) (by omega)
    refine ⟨hrest, fun j => ?_⟩
    rw [hbits, blockUsed_setByte hst hbase (by omega) hblock, or_assoc]
    refine or_congr_right ?_
    constructor <;> intro h <;> omega

/-- Marking stops at a block whose byte cannot be read. -/
theorem markBlocks_of_ge {id : PartId} {base n block : ℕ} {st : Store}
    (h : st.size id ≤ (base + block / 8) % 2 ^ 32) (hn : 0 < n) :
    (markBlocks id base n block st).1 = false ∧ SameBytes st (markBlocks id base n block st).2 := by
  obtain ⟨n, rfl⟩ := Nat.exists_eq_add_of_lt hn
  rw [Nat.zero_add, markBlocks]
  simp only [readBitmapByte_of_ge h]
  exact ⟨trivial, rfl, rfl, rfl, rfl⟩

/-- The run that an allocation of `n` blocks takes: the first one that the scan sees, when every
byte of the bitmap up to its end can be read. -/
structure SeesRun (d : Disk) (id : PartId) (sb : Superblock) (n s : ℕ) : Prop where
  pos : 0 < n
  first : FirstRun (fun j => ¬ BlockUsed (d.seen id sb.bitmapStart) sb.bitmapStart j) sb.blockCount n s
  readable : ∀ j < s + n, (sb.bitmapStart + j / 8) % 2 ^ 32 < d.store.size id

theorem SeesRun.unique {d : Disk} {id : PartId} {sb : Superblock} {n s s' : ℕ}
    (h : SeesRun d id sb n s) (h' : SeesRun d id sb n s') : s = s' :=
  h.first.unique h'.first

/-- Which run is taken depends on the static variables, the bytes of the partition and its size. -/
theorem SeesRun.congr {d d' : Disk} {id : PartId} {sb : Superblock} {n s : ℕ}
    (h : SeesRun d id sb n s) (hbytes : d'.store.bytes = d.store.bytes)
    (hsectors : d'.store.sectors = d.store.sectors) (hlast : d'.lastByteOff = d.lastByteOff)
    (hval : d'.byteVal = d.byteVal) : SeesRun d' id sb n s := by
  have hseen : d'.seen id sb.bitmapStart = d.seen id sb.bitmapStart := by
    funext x
    rw [Disk.seen, Disk.seen, hlast, hval, hbytes]
  refine ⟨h.pos, hseen ▸ h.first, fun j hj => ?_⟩
  rw [Store.size, hsectors]
  exact h.readable j hj

/-- What a scan found, whether or not requests failed: a run that is taken, or one that is too
short, or one whose first byte cannot be read. In the last two cases there is no run to take. -/
theorem scanBlocks_found {d : Disk} {id : PartId} {sb : Superblock}
    (hbase : sb.bitmapStart < 2 ^ 32)
    (hmap : bitmapEnd sb.bitmapStart sb.blockCount ≤ 2 ^ 32 ∨
      bitmapEnd sb.bitmapStart sb.blockCount ≤ d.store.size id) {n : ℕ} (hn : 0 < n)
    (hle : n ≤ sb.blockCount) {f : ℕ × ℕ}
    (hf : (scanBlocks id sb.bitmapStart n sb.blockCount 0 0 0 d).1 = some f) :
    (f.2 = n ∧ SeesRun d id sb n f.1) ∨
      ((∀ s, ¬ SeesRun d id sb n s) ∧
        (f.2 < n ∨ d.store.size id ≤ (sb.bitmapStart + f.1 / 8) % 2 ^ 32)) := by
  have hscan := scanBlocks_scanned id n sb.blockCount 0 0 0 d (Nat.zero_add _)
    (d.sees_seen id hbase sb.blockCount) (ScanInv.init hn 0)
  rcases hscan.found f hf with ⟨hc, hfirst, hread⟩ | ⟨hc, hnone⟩
  · rcases Nat.lt_or_ge sb.bitmapStart (d.store.size id) with hlt | hge
    · refine .inl ⟨hc, hn, hfirst, fun j hj => ?_⟩
      rcases hread j (Nat.zero_le j) hj with h | ⟨h, -⟩
      · exact h
      · rw [h, Nat.zero_div, Nat.add_zero, Nat.mod_eq_of_lt hbase]
        exact hlt
    · -- the whole bitmap lies beyond the end; the scan saw its first byte in the static variables
      have hwrap : bitmapEnd sb.bitmapStart sb.blockCount ≤ 2 ^ 32 := by
        have := byteOff_lt_bitmapEnd sb.bitmapStart (show 0 < sb.blockCount by omega)
        omega
      have hoff : ∀ j < f.1 + n, d.store.size id ≤ (sb.bitmapStart + j / 8) % 2 ^ 32 := fun j hj => by
        rw [byteOff_eq hwrap (lt_of_lt_of_le hj hfirst.fits)]
        omega
      refine .inr ⟨fun s' hs => ?_, .inr (hoff f.1 (by omega))⟩
      have := hs.readable 0 (by omega)
      have := hoff 0 (by omega)
      omega
  · exact .inr ⟨fun s hs => hnone s hs.first, .inl hc⟩

/-- The scan of an allocation, and the marking that follows it. -/
theorem scanBlocks_seesRun {d : Disk} {id : PartId} {sb : Superblock} (hst : d.store.Reliable)
    (hbase : sb.bitmapStart < 2 ^ 32)
    (hmap : bitmapEnd sb.bitmapStart sb.blockCount ≤ 2 ^ 32 ∨
      bitmapEnd sb.bitmapStart sb.blockCount ≤ d.store.size id) {n : ℕ} (hn : 0 < n)
    (hle : n ≤ sb.blockCount) :
    SameBytes d.store (scanBlocks id sb.bitmapStart n sb.blockCount 0 0 0 d).2.store ∧
      ((∃ s, (scanBlocks id sb.bitmapStart n sb.blockCount 0 0 0 d).1 = some (s, n) ∧
          SeesRun d id sb n s) ∨
        ((∀ s, ¬ SeesRun d id sb n s) ∧
          ∀ f, (scanBlocks id sb.bitmapStart n sb.blockCount 0 0 0 d).1 = some f →
            f.2 < n ∨ d.store.size id ≤ (sb.bitmapStart + f.1 / 8) % 2 ^ 32)) := by
  obtain ⟨hsame, -, hfailed⟩ := scanBlocks_scanned id n sb.blockCount 0 0 0 d (Nat.zero_add _)
    (d.sees_seen id hbase sb.blockCount) (ScanInv.init hn 0)
  refine ⟨hsame, ?_⟩
  rcases hr : (scanBlocks id sb.bitmapStart n sb.blockCount 0 0 0 d).1 with _ | ⟨s, c⟩
  · obtain ⟨j, -, hge, hbefore⟩ := hfailed hr hst
    refine .inr ⟨fun s hs => ?_, fun f hf => by simp at hf⟩
    have := hs.readable j (hbefore s hs.first.run)
    omega
  · rcases scanBlocks_found hbase hmap hn hle hr with ⟨hc, hsees⟩ | ⟨hnone, hshort⟩
    · obtain rfl : c = n := hc
      exact .inl ⟨s, rfl, hsees⟩
    · refine .inr ⟨hnone, fun f hf => ?_⟩
      obtain rfl := Option.some.inj hf
      exact hshort

/-- **What an allocation does**: it takes the run that its scan sees, sets the bits of the run
and answers with its address, cut to 32 bits; or there is no such run, and it changes
nothing. -/
theorem dfsAllocFileBlocks_exact {d : Disk} {id : PartId} {sb : Superblock}
    (hsb : Superblock.decode (d.store.bytes id) = sb) (hst : d.store.Reliable)
    (hsuper : sizeofSuperblock ≤ d.store.size id)
    (hmap : bitmapEnd sb.bitmapStart sb.blockCount ≤ 2 ^ 32 ∨
      bitmapEnd sb.bitmapStart sb.blockCount ≤ d.store.size id) (size : ℕ) :
    (∃ s, SeesRun d id sb (blocksFor size) s ∧
        (dfsAllocFileBlocks d id size).1 = (sb.dataStart + s * DFS_BLOCK_SIZE) % 2 ^ 32 ∧
        (bitmapEnd sb.bitmapStart sb.blockCount ≤ 2 ^ 32 →
          BitmapChange id sb.bitmapStart (bitmapEnd sb.bitmapStart sb.blockCount) d.store
            (dfsAllocFileBlocks d id size).2.store) ∧
        ∀ j, BlockUsed ((dfsAllocFileBlocks d id size).2.store.bytes id) sb.bitmapStart j ↔
          BlockUsed (d.store.bytes id) sb.bitmapStart j ∨
            s ≤ j ∧ j < s + blocksFor size ∧ sb.bitmapStart + j / 8 < 2 ^ 32) ∨
      ((∀ s, ¬ SeesRun d id sb (blocksFor size) s) ∧ (dfsAllocFileBlocks d id size).1 = 0 ∧
        SameBytes d.store (dfsAllocFileBlocks d id size).2.store) := by
  have hfits := Superblock.decode_fits (d.store.bytes id)
  rw [hsb] at hfits
  have hread : SameBytes d.store (readSuperblock d.store id).2 := ⟨rfl, rfl, rfl, rfl⟩
  rw [dfsAllocFileBlocks, readSuperblock_of_le hst hsuper, hsb]
  dsimp only
  -- no run is seen for a need of no block or of more blocks than there are
  by_cases hneed : blocksFor size = 0 ∨ blocksFor size > sb.blockCount
  · rw [if_pos hneed]
    refine .inr ⟨fun s hs => ?_, rfl, hread⟩
    have := hs.pos
    have := hs.first.fits
    omega
  rw [if_neg hneed]
  have hrel : { d with store := (readSuperblock d.store id).2 }.store.Reliable := hst
  obtain ⟨hsame, hscan⟩ := scanBlocks_seesRun hrel hfits.bitmapStart hmap (show 0 < blocksFor size by omega) (by omega)
  set r := scanBlocks id sb.bitmapStart (blocksFor size) sb.blockCount 0 0 0
    { d with store := (readSuperblock d.store id).2 } with hr
  have hscanned : SameBytes d.store r.2.store := hread.trans hsame
  have hrel : r.2.store.Reliable := fun n => by rw [hscanned.fault]; exact hst n
  have hsize : r.2.store.size id = d.store.size id := by
    rw [Store.size, Store.size, hscanned.sectors]
  -- the scan found a run, or it stopped: without a candidate, or with one cut short by a bitmap byte
  -- that cannot be read
  rcases hscan with ⟨s, hfound, hsees⟩ | ⟨hnone, hfound⟩
  · have hcount := hfits.blockCount
    have hfit := hsees.first.fits
    have hoff : ∀ j, s ≤ j → j < s + blocksFor size →
        (sb.bitmapStart + j / 8) % 2 ^ 32 < r.2.store.size id := fun j _ hj => by
      rw [hsize]
      exact hsees.readable j hj
    obtain ⟨hok, hbits⟩ := markBlocks_exact id hfits.bitmapStart (blocksFor size) s r.2.store hrel
      (by omega) hoff
    rw [hscanned.bytes] at hbits
    rw [hfound]
    simp only [lt_irrefl, if_false, hok, if_true]
    refine .inl ⟨s, hsees.congr rfl rfl rfl rfl, rfl, fun hw => ?_, hbits⟩
    exact (hscanned.bitmapChange _ _ _).trans (markBlocks_spec id hw _ _ _ hfit).1
  · refine .inr ⟨fun s hs => hnone s (hs.congr rfl rfl rfl rfl), ?_⟩
    rcases hf : r.1 with _ | f
    · exact ⟨rfl, hscanned⟩
    dsimp only
    rcases hfound f hf with hlt | hge
    · rw [if_pos hlt]
      exact ⟨rfl, hscanned⟩
    · by_cases hlt : f.2 < blocksFor size
      · rw [if_pos hlt]
        exact ⟨rfl, hscanned⟩
      · rw [if_neg hlt]
        -- the first mark then falls behind the partition too, so nothing is marked
        have hge' : r.2.store.size id ≤ (sb.bitmapStart + f.1 / 8) % 2 ^ 32 := by
          rw [hsize]
          exact hge
        obtain ⟨hfail, hmark⟩ := markBlocks_of_ge hge' (show 0 < blocksFor size by omega)
        exact ⟨if_neg (by simp [hfail]), hscanned.trans hmark⟩

/-! ### First fit -/

section FirstFit

variable (d : Disk) (id : PartId) (size : ℕ)

/-- `s` starts the first run of clear blocks on the disk that is long enough for `size` bytes. -/
def DiskRun (s : ℕ) : Prop :=
  FirstRun (BlockClear d.store id (Superblock.decode (d.store.bytes id)).bitmapStart)
    (Superblock.decode (d.store.bytes id)).blockCount (ceilBlocks size) s

/-- The same in the bitmap that the scan sees. -/
def SeenRun (s : ℕ) : Prop :=
  FirstRun (fun j => ¬ BlockUsed (d.seen id (Superblock.decode (d.store.bytes id)).bitmapStart)
      (Superblock.decode (d.store.bytes id)).bitmapStart j)
    (Superblock.decode (d.store.bytes id)).blockCount (ceilBlocks size) s

/-- An allocation that takes the first run on the disk, sets exactly its bits and answers with its
address, and that answers `0`, with the bitmap as it was, when there is no such run and only
then. -/
structure AllocatesFirstFit : Prop where
  found : ∀ s, DiskRun d id size s →
    (dfsAllocFileBlocks d id size).1 =
        (Superblock.decode (d.store.bytes id)).dataStart + s * DFS_BLOCK_SIZE ∧
      ∀ j, BlockUsed ((dfsAllocFileBlocks d id size).2.store.bytes id)
          (Superblock.decode (d.store.bytes id)).bitmapStart j ↔
        BlockUsed (d.store.bytes id) (Superblock.decode (d.store.bytes id)).bitmapStart j ∨
          s ≤ j ∧ j < s + ceilBlocks size
  zero_iff : (dfsAllocFileBlocks d id size).1 = 0 ↔ ∀ s, ¬ DiskRun d id size s
  none : (∀ s, ¬ DiskRun d id size s) →
    ∀ j, BlockUsed ((dfsAllocFileBlocks d id size).2.store.bytes id)
        (Superblock.decode (d.store.bytes id)).bitmapStart j ↔
      BlockUsed (d.store.bytes id) (Superblock.decode (d.store.bytes id)).bitmapStart j

/-- The first run on the disk is the one that the scan sees, its address is a 32-bit number other
than `0`, and so are the offsets of its bytes. -/
structure RunVisible (s : ℕ) : Prop where
  disk : DiskRun d id size s
  seen : SeenRun d id size s
  addr_pos : 0 < (Superblock.decode (d.store.bytes id)).dataStart + s * DFS_BLOCK_SIZE
  addr_lt : (Superblock.decode (d.store.bytes id)).dataStart + s * DFS_BLOCK_SIZE < 2 ^ 32
  below : ∀ j, s ≤ j → j < s + ceilBlocks size →
    (Superblock.decode (d.store.bytes id)).bitmapStart + j / 8 < 2 ^ 32

/-- There is no run on the disk. The scan sees none either, or one whose blocks are marked already
and whose address comes out as `0`. -/
structure NoRunVisible : Prop where
  disk : ∀ s, ¬ DiskRun d id size s
  seen : ∀ s, SeenRun d id size s →
    ((Superblock.decode (d.store.bytes id)).dataStart + s * DFS_BLOCK_SIZE) % 2 ^ 32 = 0 ∧
      ∀ j, s ≤ j → j < s + ceilBlocks size →
        (Superblock.decode (d.store.bytes id)).bitmapStart + j / 8 < 2 ^ 32 →
        BlockUsed (d.store.bytes id) (Superblock.decode (d.store.bytes id)).bitmapStart j

end FirstFit

/-- A run of blocks that were clear and are set is the run that was marked. -/
theorem eq_of_marked {used used' below : ℕ → Prop} {n s s' : ℕ} (hn : 0 < n)
    (hbits : ∀ j, used' j ↔ used j ∨ s ≤ j ∧ j < s + n ∧ below j)
    (hbits' : ∀ j, used' j ↔ used j ∨ s' ≤ j ∧ j < s' + n) (hfree : FreeRun (fun j => ¬ used j) n s') :
    s' = s ∧ ∀ j, s ≤ j → j < s + n → below j := by
  have hmem : ∀ j, s' ≤ j → j < s' + n → s ≤ j ∧ j < s + n ∧ below j := fun j h h' =>
    ((hbits j).mp ((hbits' j).mpr (.inr ⟨h, h'⟩))).resolve_left (hfree j h h')
  have hfirst := hmem s' (le_refl _) (by omega)
  have hlast := hmem (s' + n - 1) (by omega) (by omega)
  obtain rfl : s' = s := by omega
  exact ⟨rfl, fun j h h' => (hmem j h h').2.2⟩

/-- The allocation took the run at `s`. -/
theorem allocatesFirstFit_iff_of_taken {d : Disk} {id : PartId} {size s : ℕ}
    (hn : 0 < ceilBlocks size) (hseen : SeenRun d id size s)
    (hret : (dfsAllocFileBlocks d id size).1 =
      ((Superblock.decode (d.store.bytes id)).dataStart + s * DFS_BLOCK_SIZE) % 2 ^ 32)
    (hbits : ∀ j, BlockUsed ((dfsAllocFileBlocks d id size).2.store.bytes id)
        (Superblock.decode (d.store.bytes id)).bitmapStart j ↔
      BlockUsed (d.store.bytes id) (Superblock.decode (d.store.bytes id)).bitmapStart j ∨
        s ≤ j ∧ j < s + ceilBlocks size ∧
          (Superblock.decode (d.store.bytes id)).bitmapStart + j / 8 < 2 ^ 32) :
    AllocatesFirstFit d id size ↔ (∃ s, RunVisible d id size s) ∨ NoRunVisible d id size := by
  constructor
  · intro h
    by_cases hrun : ∃ s', DiskRun d id size s'
    · obtain ⟨s', hdisk⟩ := hrun
      obtain ⟨haddr, hbits'⟩ := h.found s' hdisk
      -- the blocks marked are those of the run that is on the disk, so both start alike
      obtain ⟨rfl, hbelow⟩ := eq_of_marked hn hbits hbits' hdisk.run
      have hne : (dfsAllocFileBlocks d id size).1 ≠ 0 := fun h0 => h.zero_iff.mp h0 s' hdisk
      refine .inl ⟨s', hdisk, hseen, by omega, ?_, hbelow⟩
      rw [haddr] at hret
      rw [hret]
      exact Nat.mod_lt _ (by norm_num)
    · rw [not_exists] at hrun
      refine .inr ⟨hrun, fun s' hs' => ?_⟩
      -- no run on the disk, but one seen in the cached byte: the answer must still be 0, and
      -- its blocks in use before the call
      obtain rfl : s' = s := hs'.unique hseen
      refine ⟨hret ▸ h.zero_iff.mpr hrun, fun j hj hj' hlt => ?_⟩
      exact (h.none hrun j).mp ((hbits j).mpr (.inr ⟨hj, hj', hlt⟩))
  · rintro (⟨s', hvis⟩ | hno)
    · obtain rfl : s' = s := hvis.seen.unique hseen
      rw [Nat.mod_eq_of_lt hvis.addr_lt] at hret
      have hpos := hvis.addr_pos
      refine ⟨fun s hs => ?_, ⟨fun h0 => by omega, fun hnone => absurd hvis.disk (hnone s')⟩,
        fun hnone => absurd hvis.disk (hnone s')⟩
      obtain rfl : s = s' := hs.unique hvis.disk
      refine ⟨hret, fun j => (hbits j).trans (or_congr_right ?_)⟩
      exact ⟨fun hj => ⟨hj.1, hj.2.1⟩, fun hj => ⟨hj.1, hj.2, hvis.below j hj.1 hj.2⟩⟩
    · obtain ⟨hzero, hmarked⟩ := hno.seen s hseen
      refine ⟨fun s' hs' => absurd hs' (hno.disk s'), ⟨fun _ => hno.disk, fun _ => by rw [hret, hzero]⟩,
        fun _ j => (hbits j).trans (or_iff_left_of_imp fun hj => ?_)⟩
      exact hmarked j hj.1 hj.2.1 hj.2.2

/-- The allocation saw no run. -/
theorem allocatesFirstFit_iff_of_none {d : Disk} {id : PartId} {size : ℕ}
    (hseen : ∀ s, ¬ SeenRun d id size s) (hret : (dfsAllocFileBlocks d id size).1 = 0)
    (hsame : SameBytes d.store (dfsAllocFileBlocks d id size).2.store) :
    AllocatesFirstFit d id size ↔ (∃ s, RunVisible d id size s) ∨ NoRunVisible d id size := by
  constructor
  · intro h
    exact .inr ⟨h.zero_iff.mp hret, fun s hs => absurd hs (hseen s)⟩
  · rintro (⟨s, hvis⟩ | hno)
    · exact absurd hvis.seen (hseen s)
    · refine ⟨fun s hs => absurd hs (hno.disk s), ⟨fun _ => hno.disk, fun _ => hret⟩, fun _ j => ?_⟩
      rw [hsame.bytes]

/-- **Allocation is first fit** on the bitmap of the moment, whatever calls came before, if and
only if the static variables show the scan the run that is first on the disk and its address is
a 32-bit number. -/
theorem dfsAllocFileBlocks_firstFit_iff (d : Disk) (id : PartId) (hst : d.store.Reliable)
    (hsuper : sizeofSuperblock ≤ d.store.size id)
    (hmap : bitmapEnd (Superblock.decode (d.store.bytes id)).bitmapStart
      (Superblock.decode (d.store.bytes id)).blockCount ≤ d.store.size id)
    (size : ℕ) (hpos : 0 < size) (hsize : size < 2 ^ 64) :
    AllocatesFirstFit d id size ↔ (∃ s, RunVisible d id size s) ∨ NoRunVisible d id size := by
  have hexact := dfsAllocFileBlocks_exact rfl hst hsuper (.inr hmap) size
  have hcount := (Superblock.decode_fits (d.store.bytes id)).blockCount
  rcases Nat.lt_or_ge (size + 1023) (2 ^ 64) with hlt | hge
  · rw [blocksFor_of_lt hlt] at hexact
    rcases hexact with ⟨s, hsees, hret, -, hbits⟩ | ⟨hnone, hret, hsame⟩
    · exact allocatesFirstFit_iff_of_taken hsees.pos hsees.first hret hbits
    · refine allocatesFirstFit_iff_of_none (fun s hs => hnone s ⟨?_, hs, fun j hj => ?_⟩) hret hsame
      · unfold ceilBlocks DFS_BLOCK_SIZE
        omega
      · have hin := byteOff_lt_bitmapEnd (Superblock.decode (d.store.bytes id)).bitmapStart
          (lt_of_lt_of_le hj hs.fits)
        have := Nat.mod_le ((Superblock.decode (d.store.bytes id)).bitmapStart + j / 8) (2 ^ 32)
        omega
  · -- no partition has as many blocks as such a size needs
    obtain ⟨hzero, hceil⟩ := blocksFor_of_ge hge hsize
    rw [hzero] at hexact
    rcases hexact with ⟨s, hsees, -⟩ | ⟨-, hret, hsame⟩
    · exact absurd hsees.pos (lt_irrefl 0)
    · refine allocatesFirstFit_iff_of_none (fun s hs => ?_) hret hsame
      have := hs.fits
      omega

theorem dfsAllocFileBlocks_firstFit_formatted : AllocatesFirstFit formattedState.disk part0 1024 := by
  have hrun : FreeRun (fun j => j = 0) (ceilBlocks 1024) 0 := fun j _ hj => by
    rw [show ceilBlocks 1024 = 1 from rfl] at hj
    omega
  refine (dfsAllocFileBlocks_firstFit_iff formattedState.disk part0 (fun _ => rfl) (by decide +kernel)
    (by decide +kernel) 1024 (by norm_num) (by norm_num)).mpr (.inl ⟨0, ?_, ?_, ?_, ?_, ?_⟩)
  · refine ⟨by decide +kernel, fun j h h' => ?_, fun s h => absurd h (Nat.not_lt_zero s)⟩
    rw [hrun j h h']
    unfold BlockClear
    decide +kernel
  · refine ⟨by decide +kernel, fun j h h' => ?_, fun s h => absurd h (Nat.not_lt_zero s)⟩
    rw [hrun j h h']
    decide +kernel
  · decide +kernel
  · decide +kernel
  · intro j h h'
    rw [hrun j h h']
    decide +kernel

/-- The second of two allocations of one block does not get the second block: the static variables
still show the first one clear. -/
theorem dfsAllocFileBlocks_not_firstFit :
    oneBlockStore.Reliable ∧ BitmapInside oneBlockStore part0 ∧
      ¬ AllocatesFirstFit (dfsAllocFileBlocks formattedState.disk part0 1024).2 part0 1024 := by
  have hdisk : DiskRun (dfsAllocFileBlocks formattedState.disk part0 1024).2 part0 1024 1 := by
    refine ⟨by decide +kernel, fun j hj hj' => ?_, fun s hs hrun => ?_⟩
    · rw [show ceilBlocks 1024 = 1 from rfl] at hj'
      obtain rfl : j = 1 := by omega
      unfold BlockClear
      decide +kernel
    · obtain rfl : s = 0 := by omega
      refine hrun 0 (le_refl 0) (by decide) ?_
      decide +kernel
  refine ⟨oneBlockStore_reliable, oneBlockStore_bitmapInside, fun h => ?_⟩
  obtain ⟨haddr, -⟩ := h.found 1 hdisk
  revert haddr
  decide +kernel

end LittleLinux
