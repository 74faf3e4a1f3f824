import LittleLinux.Dfs.BlockExact
import LittleLinux.Dfs.FormatLayout
import LittleLinux.Dfs.Sync

/-!
# What syncing a file does

`dfs_sync_file` on a formatted partition of a store without faults. A changed file goes through
three phases: its old blocks are released, new ones are allocated, and the data is written there
(`dfsSyncFile_of_dirty`). The release counts the blocks by the present length, the allocator sees
the bitmap as `Disk.seen` says, and the address goes through a `uint32_t` and an `int`.

`dfsSyncFile_writesOut_iff` says when a sync that reports success has written the file, and
`dfsSyncFile_keepsOthers_iff` when a sync releases the blocks of its file and no others.
-/

namespace LittleLinux

/-! ### Formatted partitions -/

/-- A partition that `dfs_format` has formatted. -/
structure DfsPartition (st : Store) (id : PartId) : Prop where
  formatted : Formatted st id
  sectors_lt : st.sectors id < 2 ^ 32
  super_le : sizeofSuperblock ≤ st.size id

namespace DfsPartition

variable {st st' : Store} {id : PartId}

theorem of_bitmapChange {lo hi : ℕ} (h : DfsPartition st id) (hch : BitmapChange id lo hi st st')
    (hlo : 28 ≤ lo) : DfsPartition st' id where
  formatted := h.formatted.of_bitmapChange hch hlo
  sectors_lt := by rw [hch.sectors]; exact h.sectors_lt
  super_le := by rw [hch.size_eq]; exact h.super_le

theorem noWrap (h : DfsPartition st id) :
    NoWrap (Superblock.decode (st.bytes id)).bitmapStart
      (Superblock.decode (st.bytes id)).blockCount := by
  rw [h.formatted]
  exact formatSuperblock_noWrap _

theorem bitmapStart_eq (h : DfsPartition st id) :
    (Superblock.decode (st.bytes id)).bitmapStart = 143180312 := by
  rw [h.formatted, formatSuperblock_bitmapStart]

/-- A partition that the data does not start beyond has its bitmap before the data. -/
theorem bitmapEnd_le (h : DfsPartition st id)
    (hin : (Superblock.decode (st.bytes id)).dataStart ≤ st.size id) :
    bitmapEnd (Superblock.decode (st.bytes id)).bitmapStart
        (Superblock.decode (st.bytes id)).blockCount ≤
      (Superblock.decode (st.bytes id)).dataStart := by
  have hsec := h.sectors_lt
  have hstart := h.bitmapStart_eq
  rw [h.formatted, Store.size] at hin hstart ⊢
  have hdata := formatSuperblock_dataStart hsec
  rcases Nat.lt_or_ge (st.sectors id) 279684 with hlt | hge
  · have := (formatSuperblock_of_lt hlt).1
    omega
  · have hcount := formatSuperblock_blockCount_of_le hsec hge
    generalize formatSuperblock (st.sectors id * 512) = sb at *
    rw [hstart, hdata]
    unfold bitmapEnd
    simp only [DFS_BLOCK_SIZE] at hcount
    omega

theorem dataStart_lt (h : DfsPartition st id) :
    143180312 < (Superblock.decode (st.bytes id)).dataStart ∧
      (Superblock.decode (st.bytes id)).dataStart < 2 ^ 30 := by
  have hdata := formatSuperblock_dataStart h.sectors_lt
  have hsec := h.sectors_lt
  rw [h.formatted, Store.size, hdata]
  omega

end DfsPartition

/-! ### The phases of a sync -/

/-- A sync of the entry releases blocks. -/
def Releases (finfo : RamfsFileInfo) : Prop :=
  finfo.length ≠ 0 ∧ finfo.type = RAMFS_TYPE_DIRTY ∧ finfo.driveAddr ≠ 0

instance (finfo : RamfsFileInfo) : Decidable (Releases finfo) :=
  inferInstanceAs (Decidable (_ ∧ _ ∧ _))

/-- The disk after the first phase: the blocks at the old address are released, as many as the
present length needs. -/
def releasedDisk (d : Disk) (finfo : RamfsFileInfo) (id : PartId) : Disk :=
  if Releases finfo then
    { d with store := dfsFreeFileBlocks d.store id (toU32 finfo.driveAddr) (toU64 finfo.length) }
  else d

/-- The second phase: new blocks. -/
def allocatedDisk (d : Disk) (finfo : RamfsFileInfo) (id : PartId) : ℕ × Disk :=
  dfsAllocFileBlocks (releasedDisk d finfo id) id (toU64 finfo.length)

/-- A changed file goes through all three phases. -/
theorem dfsSyncFile_of_dirty {d : Disk} {finfo : RamfsFileInfo} {id : PartId}
    (hlen : finfo.length ≠ 0) (htype : finfo.type = RAMFS_TYPE_DIRTY) :
    dfsSyncFile d finfo id =
      if (allocatedDisk d finfo id).1 = 0 then (-2, finfo, (allocatedDisk d finfo id).2)
      else writeFileData (allocatedDisk d finfo id).2
        { finfo with driveAddr := toI32 (allocatedDisk d finfo id).1 } id
        (allocatedDisk d finfo id).1 := by
  rw [dfsSyncFile, if_neg (by rw [htype]; simp [hlen, RAMFS_TYPE_DIRTY, RAMFS_FOLDER_TYPE_DISK_CLEAN])]
  by_cases haddr : finfo.driveAddr = 0
  · have hrel : releasedDisk d finfo id = d := if_neg fun h => h.2.2 haddr
    rw [allocatedDisk, hrel]
    simp [haddr, toU32]
  · have hrel : releasedDisk d finfo id = { d with
        store := dfsFreeFileBlocks d.store id (toU32 finfo.driveAddr) (toU64 finfo.length) } :=
      if_pos ⟨hlen, htype, haddr⟩
    rw [allocatedDisk, hrel]
    simp [haddr, htype]

/-- The blocks that the first phase is for. -/
def ReleasedBlock (sb : Superblock) (finfo : RamfsFileInfo) (j : ℕ) : Prop :=
  Releases finfo ∧ FreedBlock sb (toU32 finfo.driveAddr) (blocksFor (toU64 finfo.length)) j

theorem releasedDisk_spec {d : Disk} {id : PartId} (hst : d.store.Reliable)
    (hpart : DfsPartition d.store id) (finfo : RamfsFileInfo) :
    BitmapChange id (Superblock.decode (d.store.bytes id)).bitmapStart
        (bitmapEnd (Superblock.decode (d.store.bytes id)).bitmapStart
          (Superblock.decode (d.store.bytes id)).blockCount) d.store
        (releasedDisk d finfo id).store ∧
      ∀ j, BlockUsed ((releasedDisk d finfo id).store.bytes id)
          (Superblock.decode (d.store.bytes id)).bitmapStart j ↔
        BlockUsed (d.store.bytes id) (Superblock.decode (d.store.bytes id)).bitmapStart j ∧
          ¬ (ReleasedBlock (Superblock.decode (d.store.bytes id)) finfo j ∧
            (Superblock.decode (d.store.bytes id)).bitmapStart + j / 8 < d.store.size id) := by
  rw [releasedDisk]
  split_ifs with hrel
  · obtain ⟨hch, hbits⟩ := dfsFreeFileBlocks_exact rfl hst hpart.super_le hpart.noWrap.bitmapEnd_le
      (toU32 finfo.driveAddr) (toU64 finfo.length)
    refine ⟨hch, fun j => (hbits j).trans ?_⟩
    simp only [ReleasedBlock, hrel, true_and]
  · exact ⟨.refl _ _ _ _, fun j => (and_iff_left fun h => hrel h.1.1).symm⟩

/-- What the first phase leaves for the others. -/
theorem releasedDisk_partition {d : Disk} {id : PartId} (hst : d.store.Reliable)
    (hpart : DfsPartition d.store id) (finfo : RamfsFileInfo) :
    (releasedDisk d finfo id).store.Reliable ∧ DfsPartition (releasedDisk d finfo id).store id ∧
      Superblock.decode ((releasedDisk d finfo id).store.bytes id) =
        Superblock.decode (d.store.bytes id) ∧
      (releasedDisk d finfo id).store.size = d.store.size := by
  obtain ⟨hch, -⟩ := releasedDisk_spec hst hpart finfo
  have hlo : 28 ≤ (Superblock.decode (d.store.bytes id)).bitmapStart := by
    rw [hpart.bitmapStart_eq]
    norm_num
  refine ⟨fun n => by rw [hch.fault]; exact hst n, hpart.of_bitmapChange hch hlo,
    hch.superblock_eq hlo id, hch.size_eq⟩

/-- The address of block `s`, as `dfs_alloc_file_blocks` returns it. -/
def blockAddress (sb : Superblock) (s : ℕ) : ℕ := (sb.dataStart + s * DFS_BLOCK_SIZE) % 2 ^ 32

theorem blockAddress_lt (sb : Superblock) (s : ℕ) : blockAddress sb s < 2 ^ 32 :=
  Nat.mod_lt _ (by norm_num)

/-- **What the second phase does.** -/
theorem allocatedDisk_cases {d : Disk} {id : PartId} (hst : d.store.Reliable)
    (hpart : DfsPartition d.store id) (finfo : RamfsFileInfo) :
    (∃ s, SeesRun (releasedDisk d finfo id) id (Superblock.decode (d.store.bytes id))
          (blocksFor (toU64 finfo.length)) s ∧
        (allocatedDisk d finfo id).1 = blockAddress (Superblock.decode (d.store.bytes id)) s ∧
        BitmapChange id (Superblock.decode (d.store.bytes id)).bitmapStart
          (bitmapEnd (Superblock.decode (d.store.bytes id)).bitmapStart
            (Superblock.decode (d.store.bytes id)).blockCount) d.store
          (allocatedDisk d finfo id).2.store ∧
        ∀ j, BlockUsed ((allocatedDisk d finfo id).2.store.bytes id)
            (Superblock.decode (d.store.bytes id)).bitmapStart j ↔
          BlockUsed ((releasedDisk d finfo id).store.bytes id)
              (Superblock.decode (d.store.bytes id)).bitmapStart j ∨
            s ≤ j ∧ j < s + blocksFor (toU64 finfo.length)) ∨
      ((∀ s, ¬ SeesRun (releasedDisk d finfo id) id (Superblock.decode (d.store.bytes id))
          (blocksFor (toU64 finfo.length)) s) ∧ (allocatedDisk d finfo id).1 = 0 ∧
        SameBytes (releasedDisk d finfo id).store (allocatedDisk d finfo id).2.store) := by
  obtain ⟨hch, -⟩ := releasedDisk_spec hst hpart finfo
  obtain ⟨hrel, hpart', hsb, -⟩ := releasedDisk_partition hst hpart finfo
  have hw := hpart.noWrap.bitmapEnd_le
  rcases dfsAllocFileBlocks_exact hsb hrel hpart'.super_le (.inl hw) (toU64 finfo.length) with
    ⟨s, hsees, hret, hch', hbits⟩ | hnone
  · refine .inl ⟨s, hsees, hret, hch.trans (hch' hw), fun j => (hbits j).trans ?_⟩
    refine or_congr_right ⟨fun h => ⟨h.1, h.2.1⟩, fun h => ⟨h.1, h.2, ?_⟩⟩
    exact (byteOff_lt_bitmapEnd _ (h.2.trans_le hsees.first.fits)).trans hw
  · exact .inr hnone

/-- The third phase, on a store without faults: the data is written when its range lies inside
the partition. -/
theorem writeFileData_cases {d : Disk} {finfo : RamfsFileInfo} {buf : Buffer}
    (hst : d.store.Reliable) (hptr : finfo.ptr = some buf) (id : PartId) (addr : ℕ) :
    (0 < toI32 finfo.length ∧ addr + toI32 finfo.length ≤ d.store.size id ∧
        (writeFileData d finfo id addr).1 = 0 ∧
        (writeFileData d finfo id addr).2.1 = { finfo with type := RAMFS_FOLDER_TYPE_DISK_CLEAN } ∧
        (writeFileData d finfo id addr).2.2.store.bytes id =
          (d.store.bytes id).putBytes addr (toI32 finfo.length).toNat fun i => buf.bytes.getD i 0) ∨
      (¬ (0 < toI32 finfo.length ∧ addr + toI32 finfo.length ≤ d.store.size id) ∧
        (writeFileData d finfo id addr).1 = -3 ∧ (writeFileData d finfo id addr).2.1 = finfo ∧
        (writeFileData d finfo id addr).2.2.store.bytes = d.store.bytes) := by
  rw [writeFileData, hptr]
  dsimp only
  by_cases hin : 0 < toI32 finfo.length ∧ addr + toI32 finfo.length ≤ d.store.size id
  · obtain ⟨hok, hbytes⟩ :
        (d.store.write id addr (toI32 finfo.length) fun i => buf.bytes.getD i 0).1 = true ∧ _ :=
      hst.write_eq hin.1 hin.2
    rw [if_pos hok, if_pos hok, hbytes, Function.update_self]
    exact .inl ⟨hin.1, hin.2, rfl, rfl, rfl⟩
  · have hno : (d.store.write id addr (toI32 finfo.length) fun i => buf.bytes.getD i 0).1 = false :=
      decide_eq_false fun ha => hin ha.2
    rw [if_neg (by rw [hno]; simp), if_neg (by rw [hno]; simp)]
    exact .inr ⟨hin, rfl, rfl, Store.write_eq_false hno⟩

theorem writeFileData_driveAddr (d : Disk) (finfo : RamfsFileInfo) (id : PartId) (addr : ℕ) :
    (writeFileData d finfo id addr).2.1.driveAddr = finfo.driveAddr := by
  rw [writeFileData]
  dsimp only
  split_ifs <;> rfl

/-- The third phase changes nothing before its address. -/
theorem writeFileData_bytes_of_lt (d : Disk) (finfo : RamfsFileInfo) (id : PartId) {addr x : ℕ}
    (h : x < addr) :
    (writeFileData d finfo id addr).2.2.store.bytes id x = d.store.bytes id x := by
  rw [writeFileData]
  rcases finfo.ptr with _ | buf
  · rfl
  · exact Store.write_bytes_of_notMem (.inl h)

theorem toI32_of_ge {x : ℤ} (h : 2 ^ 31 ≤ x) (hlt : x < 2 ^ 32) : toI32 x = x - 2 ^ 32 := by
  unfold toI32
  rw [Int.bmod_def]
  split_ifs <;> omega

/-- A length that fits in a `size_t` is a positive `int` below 2 GiB only. -/
theorem toI32_pos_iff {x : ℤ} (hpos : 0 < x) (hlt : x < 2 ^ 32) : 0 < toI32 x ↔ x < 2 ^ 31 := by
  constructor
  · intro h
    by_contra hge
    rw [toI32_of_ge (by omega) hlt] at h
    omega
  · intro h
    rwa [toI32_of_mem (by omega) h]

/-! ### Success means written -/

/-- An entry as `fs_write` and `fs_backspace` leave it, with its data in `buf`. -/
structure Edited (finfo : RamfsFileInfo) (buf : Buffer) : Prop where
  tag : finfo.type = if finfo.driveAddr = 0 then RAMFS_TYPE_NEW else RAMFS_TYPE_DIRTY
  pos : 0 < finfo.length
  lt : finfo.length < 2 ^ 32
  ptr : finfo.ptr = some buf
  length_eq : buf.bytes.length = finfo.length

/-- The data of the entry lies on the partition `m` at its address, which starts a data block, and
the blocks of its range are marked. -/
structure WrittenOut (sb : Superblock) (m : ByteMemory) (finfo : RamfsFileInfo) (buf : Buffer) :
    Prop where
  addr_ne : finfo.driveAddr ≠ 0
  data : ∀ i : ℕ, i < finfo.length → m (finfo.driveAddr.toNat + i) = buf.bytes.getD i 0
  blocks : ∃ k : ℕ, finfo.driveAddr = (sb.dataStart + k * DFS_BLOCK_SIZE : ℕ) ∧
    ∀ j, k ≤ j → j < k + ceilBlocks finfo.length.toNat → BlockUsed m sb.bitmapStart j

/-- The address of the run of `n` blocks at `s`, as an `int`, is that of a data block, and the `n`
blocks from there on are marked in `m` or lie in the run. -/
def LandsOnBlocks (sb : Superblock) (m : ByteMemory) (n s : ℕ) : Prop :=
  blockAddress sb s < 2 ^ 31 ∧ ∃ k, blockAddress sb s = sb.dataStart + k * DFS_BLOCK_SIZE ∧
    ∀ j, k ≤ j → j < k + n → BlockUsed m sb.bitmapStart j ∨ s ≤ j ∧ j < s + n

/-- Below 2 GiB the address is the one of the run itself. -/
theorem landsOnBlocks_of_lt {sb : Superblock} {s : ℕ} (h : sb.dataStart + s * DFS_BLOCK_SIZE < 2 ^ 31)
    (m : ByteMemory) (n : ℕ) : LandsOnBlocks sb m n s := by
  have haddr : blockAddress sb s = sb.dataStart + s * DFS_BLOCK_SIZE :=
    Nat.mod_eq_of_lt (h.trans (by norm_num))
  exact ⟨by rw [haddr]; exact h, s, haddr, fun j hj hj' => .inr ⟨hj, hj'⟩⟩

/-- A 32-bit address is kept by an `int` below 2 GiB only. -/
theorem lt_of_toI32_nonneg {a : ℕ} (ha : a < 2 ^ 32) (h : 0 ≤ toI32 a) : a < 2 ^ 31 := by
  by_contra hge
  rw [toI32_of_ge (by omega) (by omega)] at h
  omega

/-- The third phase wrote the data at the address of the run at `s`. -/
theorem writtenOut_iff {sb : Superblock} {m rel : ByteMemory} {finfo : RamfsFileInfo}
    (buf : Buffer) {s : ℕ} (hpos : 0 < finfo.length) (hne : blockAddress sb s ≠ 0)
    (hfits : s + ceilBlocks finfo.length.toNat ≤ sb.blockCount)
    (hend : sb.dataStart ≤ blockAddress sb s →
      bitmapEnd sb.bitmapStart sb.blockCount ≤ sb.dataStart)
    (hbits : ∀ j, BlockUsed m sb.bitmapStart j ↔ BlockUsed rel sb.bitmapStart j ∨
      s ≤ j ∧ j < s + ceilBlocks finfo.length.toNat) :
    WrittenOut sb
        (m.putBytes (blockAddress sb s) finfo.length.toNat fun i => buf.bytes.getD i 0)
        { finfo with driveAddr := toI32 (blockAddress sb s), type := RAMFS_FOLDER_TYPE_DISK_CLEAN }
        buf ↔
      LandsOnBlocks sb rel (ceilBlocks finfo.length.toNat) s := by
  have hlt := blockAddress_lt sb s
  have hle : blockAddress sb s ≤ sb.dataStart + s * DFS_BLOCK_SIZE := Nat.mod_le _ _
  -- the blocks of the written range have their bits before the data
  have hbefore : ∀ k j, blockAddress sb s = sb.dataStart + k * DFS_BLOCK_SIZE → k ≤ j →
      j < k + ceilBlocks finfo.length.toNat →
      (BlockUsed (m.putBytes (blockAddress sb s) finfo.length.toNat fun i => buf.bytes.getD i 0)
          sb.bitmapStart j ↔ BlockUsed m sb.bitmapStart j) := by
    intro k j hk hj hj'
    have hks : k ≤ s := by
      simp only [DFS_BLOCK_SIZE] at hk hle
      omega
    have hbyte := byteOff_lt_bitmapEnd sb.bitmapStart (show j < sb.blockCount by omega)
    have hstart := hend (by omega)
    rw [BlockUsed, BlockUsed, ByteMemory.putBytes_of_notMem (.inl (by omega))]
  constructor
  · intro h
    obtain ⟨k, hk, hmarked⟩ := h.blocks
    dsimp only at hk hmarked
    have hsmall : blockAddress sb s < 2 ^ 31 := by
      refine lt_of_toI32_nonneg hlt ?_
      rw [hk]
      exact Int.natCast_nonneg _
    have haddr : blockAddress sb s = sb.dataStart + k * DFS_BLOCK_SIZE := by
      rw [toI32_of_mem (by omega) (by omega)] at hk
      exact_mod_cast hk
    refine ⟨hsmall, k, haddr, fun j hj hj' => ?_⟩
    exact (hbits j).mp ((hbefore k j haddr hj hj').mp (hmarked j hj hj'))
  · rintro ⟨hsmall, k, haddr, hmarked⟩
    have hint : toI32 (blockAddress sb s) = (blockAddress sb s : ℕ) :=
      toI32_of_mem (by omega) (by omega)
    constructor
    · dsimp only
      rw [hint]
      exact_mod_cast hne
    · dsimp only
      intro i hi
      rw [hint, Int.toNat_natCast]
      exact ByteMemory.putBytes_add (by omega)
    · refine ⟨k, by dsimp only; rw [hint, haddr], fun j hj hj' => ?_⟩
      exact (hbefore k j haddr hj hj').mpr ((hbits j).mpr (hmarked j hj hj'))

/-- If the third phase is reached and its range lies inside the partition, the address survives. -/
def AddressLands (d : Disk) (id : PartId) (finfo : RamfsFileInfo) (s : ℕ) : Prop :=
  finfo.length < 2 ^ 31 → blockAddress (Superblock.decode (d.store.bytes id)) s ≠ 0 →
    blockAddress (Superblock.decode (d.store.bytes id)) s + finfo.length ≤ d.store.size id →
    LandsOnBlocks (Superblock.decode (d.store.bytes id))
      ((releasedDisk d finfo id).store.bytes id) (ceilBlocks finfo.length.toNat) s

theorem Edited.blocksFor_eq {finfo : RamfsFileInfo} {buf : Buffer} (h : Edited finfo buf) :
    blocksFor (toU64 finfo.length) = ceilBlocks finfo.length.toNat := by
  have hpos := h.pos
  have hlt := h.lt
  have h64 : toU64 finfo.length = finfo.length.toNat := by
    unfold toU64
    omega
  rw [h64, blocksFor_of_lt (by omega)]

/-- The case that the second phase took the run at `s`. -/
theorem writesOut_iff_of_taken {d : Disk} {id : PartId} {finfo : RamfsFileInfo} {buf : Buffer}
    {s : ℕ} (hst : d.store.Reliable) (hpart : DfsPartition d.store id) (hedit : Edited finfo buf)
    (hdirty : finfo.type = RAMFS_TYPE_DIRTY)
    (hfits : s + ceilBlocks finfo.length.toNat ≤ (Superblock.decode (d.store.bytes id)).blockCount)
    (haddr : (allocatedDisk d finfo id).1 = blockAddress (Superblock.decode (d.store.bytes id)) s)
    (hch : BitmapChange id (Superblock.decode (d.store.bytes id)).bitmapStart
      (bitmapEnd (Superblock.decode (d.store.bytes id)).bitmapStart
        (Superblock.decode (d.store.bytes id)).blockCount) d.store (allocatedDisk d finfo id).2.store)
    (hbits : ∀ j, BlockUsed ((allocatedDisk d finfo id).2.store.bytes id)
        (Superblock.decode (d.store.bytes id)).bitmapStart j ↔
      BlockUsed ((releasedDisk d finfo id).store.bytes id)
          (Superblock.decode (d.store.bytes id)).bitmapStart j ∨
        s ≤ j ∧ j < s + ceilBlocks finfo.length.toNat) :
    ((dfsSyncFile d finfo id).1 = 0 →
        WrittenOut (Superblock.decode (d.store.bytes id))
          ((dfsSyncFile d finfo id).2.2.store.bytes id) (dfsSyncFile d finfo id).2.1 buf) ↔
      AddressLands d id finfo s := by
  have hpos := hedit.pos
  have hsmall := toI32_pos_iff hpos hedit.lt
  have hdata := hpart.bitmapEnd_le
  rw [dfsSyncFile_of_dirty hpos.ne' hdirty, haddr, AddressLands]
  generalize Superblock.decode (d.store.bytes id) = sb at *
  -- an address that wraps to 0 reads as a refusal
  by_cases hne : blockAddress sb s = 0
  · rw [if_pos hne]
    exact ⟨fun _ _ h => absurd hne h, fun _ h => by simp at h⟩
  rw [if_neg hne]
  have hrel : (allocatedDisk d finfo id).2.store.Reliable := fun n => by rw [hch.fault]; exact hst n
  have hptr : { finfo with driveAddr := toI32 (blockAddress sb s) }.ptr = some buf := hedit.ptr
  -- the data is written, or the write is refused for its length or its end
  rcases writeFileData_cases hrel hptr id (blockAddress sb s) with
    ⟨hlen, hin, hret, hentry, hbytes⟩ | ⟨hno, hret, -⟩
  · dsimp only at hlen hin hbytes
    have hlt := hsmall.mp hlen
    have hint : toI32 finfo.length = finfo.length := toI32_of_mem (by omega) hlt
    rw [hint] at hin hbytes
    rw [hch.size_eq] at hin
    have hend : sb.dataStart ≤ blockAddress sb s →
        bitmapEnd sb.bitmapStart sb.blockCount ≤ sb.dataStart := fun hle => hdata (by omega)
    have hiff := writtenOut_iff buf hpos hne hfits hend hbits
    rw [hret, hentry, hbytes, hiff]
    exact ⟨fun h _ _ _ => h rfl, fun h _ => h hlt hne hin⟩
  · rw [hret]
    refine ⟨fun _ hlt _ hin => absurd ⟨hsmall.mpr hlt, ?_⟩ hno, fun _ h => by simp at h⟩
    dsimp only
    rw [toI32_of_mem (by omega) hlt, hch.size_eq]
    exact hin

/-- **Success means written**: a sync that answers `0` has written the data to marked blocks at the
address it leaves in the entry, if and only if the entry is tagged `DIRTY` (one tagged `NEW` is
taken for a clean one) and the address of its new blocks survives as an `int`. -/
theorem dfsSyncFile_writesOut_iff (d : Disk) (id : PartId) (hst : d.store.Reliable)
    (hpart : DfsPartition d.store id) (finfo : RamfsFileInfo) (buf : Buffer)
    (hedit : Edited finfo buf) :
    ((dfsSyncFile d finfo id).1 = 0 →
        WrittenOut (Superblock.decode (d.store.bytes id))
          ((dfsSyncFile d finfo id).2.2.store.bytes id) (dfsSyncFile d finfo id).2.1 buf) ↔
      finfo.type = RAMFS_TYPE_DIRTY ∧
        ∀ s, SeesRun (releasedDisk d finfo id) id (Superblock.decode (d.store.bytes id))
          (ceilBlocks finfo.length.toNat) s → AddressLands d id finfo s := by
  by_cases hdirty : finfo.type = RAMFS_TYPE_DIRTY
  · rw [and_iff_right hdirty]
    have hcases := allocatedDisk_cases hst hpart finfo
    rw [hedit.blocksFor_eq] at hcases
    rcases hcases with ⟨s, hsees, haddr, hch, hbits⟩ | ⟨hnone, hzero, -⟩
    · rw [writesOut_iff_of_taken hst hpart hedit hdirty hsees.first.fits haddr hch hbits]
      exact ⟨fun h s' hs' => hsees.unique hs' ▸ h, fun h => h s hsees⟩
    · rw [dfsSyncFile_of_dirty hedit.pos.ne' hdirty, if_pos hzero]
      exact ⟨fun _ s hs => absurd hs (hnone s), fun _ h => by simp at h⟩
  · -- the entry is tagged `NEW`: nothing is done, and its address stays `0`
    have hnew : finfo.driveAddr = 0 ∧ finfo.type = RAMFS_TYPE_NEW := by
      have htag := hedit.tag
      split_ifs at htag with h0
      · exact ⟨h0, htag⟩
      · exact absurd htag hdirty
    have hskip : dfsSyncFile d finfo id = (0, finfo, d) := by
      rw [dfsSyncFile, if_pos (.inr hnew.2)]
    rw [hskip]
    exact ⟨fun h => absurd hnew.1 (h rfl).addr_ne, fun h => absurd h.1 hdirty⟩

/-- The disk with its first block allocated. -/
def oneBlockDisk : Disk := (dfsAllocFileBlocks formattedState.disk part0 1024).2

theorem oneBlockDisk_partition : DfsPartition oneBlockDisk.store part0 where
  formatted := by
    unfold Formatted
    decide +kernel
  sectors_lt := by decide +kernel
  super_le := by decide +kernel

/-- A file of one byte, changed since it was written to the block at `addr`. -/
def changedFile (addr : ℤ) : RamfsFileInfo where
  name := .ofBytes [102]
  type := if addr = 0 then RAMFS_TYPE_NEW else RAMFS_TYPE_DIRTY
  length := 1
  ptr := some ⟨0, [120]⟩
  driveAddr := addr

theorem changedFile_edited (addr : ℤ) : Edited (changedFile addr) ⟨0, [120]⟩ :=
  ⟨rfl, show (0 : ℤ) < 1 by norm_num, show (1 : ℤ) < 2 ^ 32 by norm_num, rfl, rfl⟩

theorem dfsSyncFile_writesOut_changedFile :
    (dfsSyncFile oneBlockDisk (changedFile 143206400) part0).1 = 0 ∧
      WrittenOut (Superblock.decode (oneBlockDisk.store.bytes part0))
        ((dfsSyncFile oneBlockDisk (changedFile 143206400) part0).2.2.store.bytes part0)
        (dfsSyncFile oneBlockDisk (changedFile 143206400) part0).2.1 ⟨0, [120]⟩ := by
  have hok : (dfsSyncFile oneBlockDisk (changedFile 143206400) part0).1 = 0 := by decide +kernel
  refine ⟨hok, (dfsSyncFile_writesOut_iff oneBlockDisk part0 oneBlockStore_reliable
    oneBlockDisk_partition _ _ (changedFile_edited _)).mpr ⟨by decide, fun s hs _ _ _ => ?_⟩ hok⟩
  -- the partition is too small for an address beyond 2 GiB
  have hend : (Superblock.decode (oneBlockDisk.store.bytes part0)).dataStart +
      (Superblock.decode (oneBlockDisk.store.bytes part0)).blockCount * DFS_BLOCK_SIZE < 2 ^ 31 := by
    decide +kernel
  have hle : s ≤ (Superblock.decode (oneBlockDisk.store.bytes part0)).blockCount :=
    (Nat.le_add_right _ _).trans hs.first.fits
  refine landsOnBlocks_of_lt (lt_of_le_of_lt (Nat.add_le_add_left ?_ _) hend) _ _
  exact Nat.mul_le_mul_right _ hle

/-- A file that was never written: its sync answers `0` and leaves the address `0`. -/
theorem dfsSyncFile_skips_new :
    oneBlockDisk.store.Reliable ∧ DfsPartition oneBlockDisk.store part0 ∧
      Edited (changedFile 0) ⟨0, [120]⟩ ∧
      ¬ ((dfsSyncFile oneBlockDisk (changedFile 0) part0).1 = 0 →
        WrittenOut (Superblock.decode (oneBlockDisk.store.bytes part0))
          ((dfsSyncFile oneBlockDisk (changedFile 0) part0).2.2.store.bytes part0)
          (dfsSyncFile oneBlockDisk (changedFile 0) part0).2.1 ⟨0, [120]⟩) :=
  ⟨oneBlockStore_reliable, oneBlockDisk_partition, changedFile_edited 0,
    fun h => (h rfl).addr_ne rfl⟩

/-! ### A sync and the blocks of others -/

/-- The block `j` belongs to the extent of `size` bytes at `addr`. -/
def InExtent (sb : Superblock) (addr size j : ℕ) : Prop :=
  sb.dataStart ≤ addr ∧ (addr - sb.dataStart) / DFS_BLOCK_SIZE ≤ j ∧
    j < (addr - sb.dataStart) / DFS_BLOCK_SIZE + ceilBlocks size

/-- A file of `size` bytes lies at `addr`, on whole blocks that are marked. -/
structure Occupies (st : Store) (id : PartId) (addr size : ℕ) : Prop where
  inside : (Superblock.decode (st.bytes id)).dataStart ≤ addr ∧ addr + size ≤ st.size id
  aligned : (addr - (Superblock.decode (st.bytes id)).dataStart) % DFS_BLOCK_SIZE = 0
  block_lt : ∀ j, InExtent (Superblock.decode (st.bytes id)) addr size j →
    j < (Superblock.decode (st.bytes id)).blockCount
  marked : ∀ j, InExtent (Superblock.decode (st.bytes id)) addr size j →
    BlockUsed (st.bytes id) (Superblock.decode (st.bytes id)).bitmapStart j

/-- Files, given by address and size, that occupy blocks of their own. -/
structure OwnBlocks (st : Store) (id : PartId) (files : List (ℕ × ℕ)) : Prop where
  occupies : ∀ e ∈ files, Occupies st id e.1 e.2
  disjoint : files.Pairwise fun e f => ∀ j,
    InExtent (Superblock.decode (st.bytes id)) e.1 e.2 j →
      ¬ InExtent (Superblock.decode (st.bytes id)) f.1 f.2 j

/-- A sync of an entry that had `oldSize` bytes when it was last written releases the blocks of
those bytes, takes those of its new extent, and leaves the blocks of the other files marked. -/
structure SyncsOwnBlocks (d : Disk) (id : PartId) (finfo : RamfsFileInfo) (oldSize : ℕ)
    (others : List (ℕ × ℕ)) : Prop where
  released : ∀ j, BlockUsed ((releasedDisk d finfo id).store.bytes id)
      (Superblock.decode (d.store.bytes id)).bitmapStart j ↔
    BlockUsed (d.store.bytes id) (Superblock.decode (d.store.bytes id)).bitmapStart j ∧
      ¬ InExtent (Superblock.decode (d.store.bytes id)) (toU32 finfo.driveAddr) oldSize j
  marked : (allocatedDisk d finfo id).1 ≠ 0 → ∀ j,
    BlockUsed ((allocatedDisk d finfo id).2.store.bytes id)
        (Superblock.decode (d.store.bytes id)).bitmapStart j ↔
      BlockUsed ((releasedDisk d finfo id).store.bytes id)
          (Superblock.decode (d.store.bytes id)).bitmapStart j ∨
        InExtent (Superblock.decode (d.store.bytes id))
          (toU32 (dfsSyncFile d finfo id).2.1.driveAddr) finfo.length.toNat j
  failed : (allocatedDisk d finfo id).1 = 0 → ∀ j,
    BlockUsed ((allocatedDisk d finfo id).2.store.bytes id)
        (Superblock.decode (d.store.bytes id)).bitmapStart j ↔
      BlockUsed ((releasedDisk d finfo id).store.bytes id)
        (Superblock.decode (d.store.bytes id)).bitmapStart j
  others : ∀ e ∈ others, ∀ j, InExtent (Superblock.decode (d.store.bytes id)) e.1 e.2 j →
    BlockUsed ((dfsSyncFile d finfo id).2.2.store.bytes id)
      (Superblock.decode (d.store.bytes id)).bitmapStart j

/-- What a sync needs to release its own blocks and no others: the new length takes at least as
many blocks as the old one, none of the blocks that it would take behind them is marked, and the
run that the allocator then takes starts below 4 GiB. -/
structure KeepsToItself (d : Disk) (id : PartId) (finfo : RamfsFileInfo) (oldSize : ℕ) : Prop where
  grows : ceilBlocks oldSize ≤ ceilBlocks finfo.length.toNat
  free : ∀ j, InExtent (Superblock.decode (d.store.bytes id)) (toU32 finfo.driveAddr)
      finfo.length.toNat j →
    ¬ InExtent (Superblock.decode (d.store.bytes id)) (toU32 finfo.driveAddr) oldSize j →
    j < (Superblock.decode (d.store.bytes id)).blockCount →
    ¬ BlockUsed (d.store.bytes id) (Superblock.decode (d.store.bytes id)).bitmapStart j
  addr_lt : ∀ s, SeesRun (releasedDisk d finfo id) id (Superblock.decode (d.store.bytes id))
      (ceilBlocks finfo.length.toNat) s →
    (Superblock.decode (d.store.bytes id)).dataStart + s * DFS_BLOCK_SIZE < 2 ^ 32

/-- Only the first byte of the bitmap can be seen wrongly. -/
theorem SeesRun.clear_of_le {d : Disk} {id : PartId} {sb : Superblock} {n s : ℕ}
    (h : SeesRun d id sb n s) (hw : bitmapEnd sb.bitmapStart sb.blockCount ≤ 2 ^ 32) (hs : 8 ≤ s) :
    FreeRun (fun j => ¬ BlockUsed (d.store.bytes id) sb.bitmapStart j) n s := by
  intro j hj hj'
  have hclear := h.first.run j hj hj'
  have hlt : j < sb.blockCount := hj'.trans_le h.first.fits
  have hbyte : d.seen id sb.bitmapStart (sb.bitmapStart + j / 8) =
      d.store.bytes id (sb.bitmapStart + j / 8) := by
    rw [Disk.seen, if_neg fun hx => by omega, byteOff_eq hw hlt]
  rwa [BlockUsed, hbyte] at hclear

/-- An address beyond 4 GiB belongs to a block far behind the first byte of the bitmap. -/
theorem le_of_addr_ge {sb : Superblock} {s : ℕ} (hdata : sb.dataStart < 2 ^ 30)
    (h : 2 ^ 32 ≤ sb.dataStart + s * DFS_BLOCK_SIZE) : 8 ≤ s := by
  simp only [DFS_BLOCK_SIZE] at h
  omega

/-- An extent at the cut address of a run is the run only if nothing was cut. -/
theorem addr_lt_of_inExtent {sb : Superblock} {s size : ℕ} (hn : 0 < ceilBlocks size)
    (h : ∀ j, s ≤ j → j < s + ceilBlocks size → InExtent sb (blockAddress sb s) size j) :
    sb.dataStart + s * DFS_BLOCK_SIZE < 2 ^ 32 := by
  obtain ⟨hle, hfirst, -⟩ := h s (le_refl s) (by omega)
  obtain ⟨-, -, hlast⟩ := h (s + ceilBlocks size - 1) (by omega) (by omega)
  unfold blockAddress DFS_BLOCK_SIZE at *
  omega

theorem toU32_toI32 {a : ℕ} (h : a < 2 ^ 32) : toU32 (toI32 a) = a := by
  rcases Nat.lt_or_ge a (2 ^ 31) with hlt | hge
  · rw [toI32_of_mem (by omega) (by omega), toU32_of_lt h]
  · rw [toI32_of_ge (by omega) (by omega)]
    unfold toU32
    omega

/-- An entry that is to be synced, as the claim about the blocks of others takes it: changed, with
an address, and a length that a `size_t` holds. -/
structure Changed (finfo : RamfsFileInfo) : Prop where
  dirty : finfo.type = RAMFS_TYPE_DIRTY
  addr_ne : finfo.driveAddr ≠ 0
  nonneg : 0 ≤ finfo.length
  lt : finfo.length < 2 ^ 32

theorem Changed.blocksFor_eq {finfo : RamfsFileInfo} (h : Changed finfo) :
    blocksFor (toU64 finfo.length) = ceilBlocks finfo.length.toNat := by
  have hnonneg := h.nonneg
  have hlt := h.lt
  have h64 : toU64 finfo.length = finfo.length.toNat := by
    unfold toU64
    omega
  rw [h64, blocksFor_of_lt (by omega)]

/-- The first phase of a file that lies on the disk, block by block. -/
theorem Changed.blockUsed_released {d : Disk} {id : PartId} {finfo : RamfsFileInfo} {oldSize : ℕ}
    (h : Changed finfo) (hst : d.store.Reliable) (hpart : DfsPartition d.store id)
    (hold : Occupies d.store id (toU32 finfo.driveAddr) oldSize) (j : ℕ) :
    BlockUsed ((releasedDisk d finfo id).store.bytes id)
        (Superblock.decode (d.store.bytes id)).bitmapStart j ↔
      BlockUsed (d.store.bytes id) (Superblock.decode (d.store.bytes id)).bitmapStart j ∧
        ¬ (InExtent (Superblock.decode (d.store.bytes id)) (toU32 finfo.driveAddr)
          finfo.length.toNat j ∧ j < (Superblock.decode (d.store.bytes id)).blockCount) := by
  have hend := hpart.bitmapEnd_le (hold.inside.1.trans ((Nat.le_add_right _ _).trans hold.inside.2))
  rw [(releasedDisk_spec hst hpart finfo).2 j]
  refine and_congr_right fun _ => not_congr ?_
  constructor
  · rintro ⟨⟨-, hblock⟩, -⟩
    rw [FreedBlock, h.blocksFor_eq] at hblock
    exact ⟨⟨hblock.1, hblock.2.1, hblock.2.2.1⟩, hblock.2.2.2⟩
  · rintro ⟨hblock, hlt⟩
    have hlen : finfo.length ≠ 0 := fun h0 => by
      have h₁ := hblock.2.1
      have h₂ := hblock.2.2
      rw [h0, show ceilBlocks (0 : ℤ).toNat = 0 from rfl] at h₂
      omega
    refine ⟨⟨⟨hlen, h.dirty, h.addr_ne⟩, ?_⟩, ?_⟩
    · rw [FreedBlock, h.blocksFor_eq]
      exact ⟨hblock.1, hblock.2.1, hblock.2.2, hlt⟩
    · have := byteOff_lt_bitmapEnd (Superblock.decode (d.store.bytes id)).bitmapStart hlt
      have := hold.inside
      omega

/-- The first phase releases the old extent and nothing else. -/
theorem Changed.released_iff {d : Disk} {id : PartId} {finfo : RamfsFileInfo} {oldSize : ℕ}
    (h : Changed finfo) (hst : d.store.Reliable) (hpart : DfsPartition d.store id)
    (hold : Occupies d.store id (toU32 finfo.driveAddr) oldSize) :
    (∀ j, BlockUsed ((releasedDisk d finfo id).store.bytes id)
        (Superblock.decode (d.store.bytes id)).bitmapStart j ↔
      BlockUsed (d.store.bytes id) (Superblock.decode (d.store.bytes id)).bitmapStart j ∧
        ¬ InExtent (Superblock.decode (d.store.bytes id)) (toU32 finfo.driveAddr) oldSize j) ↔
      ceilBlocks oldSize ≤ ceilBlocks finfo.length.toNat ∧
        ∀ j, InExtent (Superblock.decode (d.store.bytes id)) (toU32 finfo.driveAddr)
            finfo.length.toNat j →
          ¬ InExtent (Superblock.decode (d.store.bytes id)) (toU32 finfo.driveAddr) oldSize j →
          j < (Superblock.decode (d.store.bytes id)).blockCount →
          ¬ BlockUsed (d.store.bytes id) (Superblock.decode (d.store.bytes id)).bitmapStart j := by
  have hbits := h.blockUsed_released hst hpart hold
  obtain ⟨⟨hdata, -⟩, -, hlt, hmarked⟩ := hold
  constructor
  · intro hrel
    refine ⟨Nat.le_of_not_lt fun hn => ?_, fun j hnew hnold hj hused => ?_⟩
    · -- the last block of the old extent is not released
      have hlast : InExtent (Superblock.decode (d.store.bytes id)) (toU32 finfo.driveAddr) oldSize
          ((toU32 finfo.driveAddr - (Superblock.decode (d.store.bytes id)).dataStart) /
            DFS_BLOCK_SIZE + ceilBlocks oldSize - 1) := by
        refine ⟨hdata, ?_⟩
        generalize (toU32 finfo.driveAddr - _) / DFS_BLOCK_SIZE = k
        omega
      refine ((hrel _).mp ((hbits _).mpr ⟨hmarked _ hlast, fun hb => ?_⟩)).2 hlast
      have := hb.1.2.2
      omega
    · exact ((hbits j).mp ((hrel j).mpr ⟨hused, hnold⟩)).2 ⟨hnew, hj⟩
  · rintro ⟨hgrow, hfree⟩ j
    rw [hbits j]
    refine and_congr_right fun hused => not_congr ⟨fun hb => ?_, fun hb => ⟨⟨hb.1, hb.2.1, ?_⟩, hlt j hb⟩⟩
    · by_contra hnold
      exact hfree j hb.1 hnold hb.2 hused
    · exact hb.2.2.trans_le (Nat.add_le_add_left hgrow _)

/-- The second phase takes the blocks of the new extent and nothing else. -/
theorem Changed.marked_iff {d : Disk} {id : PartId} {finfo : RamfsFileInfo} (h : Changed finfo)
    (hst : d.store.Reliable) (hpart : DfsPartition d.store id) :
    (((allocatedDisk d finfo id).1 ≠ 0 → ∀ j,
        BlockUsed ((allocatedDisk d finfo id).2.store.bytes id)
            (Superblock.decode (d.store.bytes id)).bitmapStart j ↔
          BlockUsed ((releasedDisk d finfo id).store.bytes id)
              (Superblock.decode (d.store.bytes id)).bitmapStart j ∨
            InExtent (Superblock.decode (d.store.bytes id))
              (toU32 (dfsSyncFile d finfo id).2.1.driveAddr) finfo.length.toNat j) ∧
      ((allocatedDisk d finfo id).1 = 0 → ∀ j,
        BlockUsed ((allocatedDisk d finfo id).2.store.bytes id)
            (Superblock.decode (d.store.bytes id)).bitmapStart j ↔
          BlockUsed ((releasedDisk d finfo id).store.bytes id)
            (Superblock.decode (d.store.bytes id)).bitmapStart j)) ↔
      ∀ s, SeesRun (releasedDisk d finfo id) id (Superblock.decode (d.store.bytes id))
          (ceilBlocks finfo.length.toNat) s →
        (Superblock.decode (d.store.bytes id)).dataStart + s * DFS_BLOCK_SIZE < 2 ^ 32 := by
  have hcases := allocatedDisk_cases hst hpart finfo
  have hw := hpart.noWrap.bitmapEnd_le
  have hstart := hpart.dataStart_lt
  rw [h.blocksFor_eq] at hcases
  rcases hcases with ⟨s, hsees, haddr, -, hbits⟩ | ⟨hnone, hzero, hsame⟩
  · have hlen : finfo.length ≠ 0 := fun h0 => by
      have := hsees.pos
      rw [h0, show ceilBlocks (0 : ℤ).toNat = 0 from rfl] at this
      omega
    have hfield : (allocatedDisk d finfo id).1 ≠ 0 →
        toU32 (dfsSyncFile d finfo id).2.1.driveAddr =
          blockAddress (Superblock.decode (d.store.bytes id)) s := fun hne => by
      rw [dfsSyncFile_of_dirty hlen h.dirty, if_neg hne, writeFileData_driveAddr, haddr]
      dsimp only
      rw [toU32_toI32 (blockAddress_lt _ s)]
    generalize Superblock.decode (d.store.bytes id) = sb at *
    constructor
    · rintro ⟨hmarked, hfailed⟩ s' hs'
      obtain rfl := hsees.unique hs'
      by_contra hge
      -- the run is clear on the disk, so its blocks are those that the second phase marked
      have hclear := hsees.clear_of_le hw (le_of_addr_ge hstart.2 (Nat.le_of_not_lt hge))
      by_cases hne : (allocatedDisk d finfo id).1 = 0
      · have hset := (hfailed hne s).mp ((hbits s).mpr (.inr ⟨le_refl s, by have := hsees.pos; omega⟩))
        exact hclear s (le_refl s) (by have := hsees.pos; omega) hset
      · refine hge (addr_lt_of_inExtent hsees.pos fun j hj hj' => ?_)
        have hset := (hmarked hne j).mp ((hbits j).mpr (.inr ⟨hj, hj'⟩))
        rw [hfield hne] at hset
        exact hset.resolve_left (hclear j hj hj')
    · intro hlt
      have hcut : blockAddress sb s = sb.dataStart + s * DFS_BLOCK_SIZE :=
        Nat.mod_eq_of_lt (hlt s hsees)
      refine ⟨fun hne j => ?_, fun h0 => ?_⟩
      · rw [hfield hne, hcut, hbits j, InExtent, Nat.add_sub_cancel_left,
          Nat.mul_div_cancel _ (by decide)]
        exact or_congr_right (and_iff_right (Nat.le_add_right _ _)).symm
      · rw [haddr, hcut] at h0
        omega
  · refine ⟨fun _ s hs => absurd hs (hnone s), fun _ => ⟨fun hne => absurd hzero hne, fun _ j => ?_⟩⟩
    rw [hsame.bytes]

/-- The third phase writes behind the bitmap, so the bits are as the second phase left them. -/
theorem Changed.blockUsed_synced {d : Disk} {id : PartId} {finfo : RamfsFileInfo} (h : Changed finfo)
    (hst : d.store.Reliable) (hpart : DfsPartition d.store id)
    (hin : (Superblock.decode (d.store.bytes id)).dataStart ≤ d.store.size id)
    (haddr : ∀ s, SeesRun (releasedDisk d finfo id) id (Superblock.decode (d.store.bytes id))
        (ceilBlocks finfo.length.toNat) s →
      (Superblock.decode (d.store.bytes id)).dataStart + s * DFS_BLOCK_SIZE < 2 ^ 32)
    (hlen : finfo.length ≠ 0) {j : ℕ} (hj : j < (Superblock.decode (d.store.bytes id)).blockCount) :
    BlockUsed ((dfsSyncFile d finfo id).2.2.store.bytes id)
        (Superblock.decode (d.store.bytes id)).bitmapStart j ↔
      BlockUsed ((allocatedDisk d finfo id).2.store.bytes id)
        (Superblock.decode (d.store.bytes id)).bitmapStart j := by
  have hcases := allocatedDisk_cases hst hpart finfo
  have hend := hpart.bitmapEnd_le hin
  rw [h.blocksFor_eq] at hcases
  rw [dfsSyncFile_of_dirty hlen h.dirty]
  split_ifs with h0
  · exact Iff.rfl
  · rcases hcases with ⟨s, hsees, hret, -⟩ | ⟨-, hzero, -⟩
    · have hcut : blockAddress (Superblock.decode (d.store.bytes id)) s =
          (Superblock.decode (d.store.bytes id)).dataStart + s * DFS_BLOCK_SIZE :=
        Nat.mod_eq_of_lt (haddr s hsees)
      have hbyte := byteOff_lt_bitmapEnd (Superblock.decode (d.store.bytes id)).bitmapStart hj
      rw [BlockUsed, BlockUsed, writeFileData_bytes_of_lt]
      rw [hret, hcut]
      omega
    · exact absurd hzero h0

/-- **A sync and the blocks of others**: the sync of a changed file releases its old extent, takes
its new one and leaves the other files' blocks marked, if and only if its new length takes at least
as many blocks as the old one, there is nothing marked directly behind them, and the new address
fits in 32 bits. -/
theorem dfsSyncFile_ownBlocks_iff (d : Disk) (id : PartId) (hst : d.store.Reliable)
    (hpart : DfsPartition d.store id) (finfo : RamfsFileInfo) (hchanged : Changed finfo)
    (oldSize : ℕ) (others : List (ℕ × ℕ))
    (hown : OwnBlocks d.store id ((toU32 finfo.driveAddr, oldSize) :: others)) :
    SyncsOwnBlocks d id finfo oldSize others ↔ KeepsToItself d id finfo oldSize := by
  have hold := hown.occupies _ List.mem_cons_self
  have hreleased := hchanged.released_iff hst hpart hold
  have hmarked := hchanged.marked_iff hst hpart
  constructor
  · intro h
    obtain ⟨hgrow, hfree⟩ := hreleased.mp h.released
    exact ⟨hgrow, hfree, hmarked.mp ⟨h.marked, h.failed⟩⟩
  · intro h
    have hbits := hreleased.mpr ⟨h.grows, h.free⟩
    obtain ⟨hset, hfailed⟩ := hmarked.mpr h.addr_lt
    refine ⟨hbits, hset, hfailed, fun e he j hj => ?_⟩
    have hother := hown.occupies e (List.mem_cons_of_mem _ he)
    have hnold := fun hj' => (List.pairwise_cons.mp hown.disjoint).1 e he j hj' hj
    by_cases hlen : finfo.length = 0
    · rw [dfsSyncFile, if_pos (.inl hlen)]
      exact hother.marked j hj
    · have hin := hold.inside.1.trans ((Nat.le_add_right _ _).trans hold.inside.2)
      rw [hchanged.blockUsed_synced hst hpart hin h.addr_lt hlen (hother.block_lt j hj)]
      have hkept := (hbits j).mpr ⟨hother.marked j hj, hnold⟩
      by_cases h0 : (allocatedDisk d finfo id).1 = 0
      · exact (hfailed h0 j).mpr hkept
      · exact (hset h0 j).mpr (.inl hkept)

/-- Two files of nine blocks each, one behind the other. -/
def nineBlockDisk : Disk := (nineBlockOps.foldl blockStep formattedState).disk

/-- The first of them, with a new length. -/
def changedNine (length : ℤ) : RamfsFileInfo where
  name := .ofBytes [102]
  type := RAMFS_TYPE_DIRTY
  length := length
  ptr := some ⟨0, List.replicate length.toNat 120⟩
  driveAddr := 143206400

theorem nineBlockDisk_partition : DfsPartition nineBlockDisk.store part0 where
  formatted := by
    unfold Formatted
    decide +kernel
  sectors_lt := by decide +kernel
  super_le := by decide +kernel

theorem nineBlockDisk_reliable : nineBlockDisk.store.Reliable := fun n => by
  have h : nineBlockDisk.store.fault = fun _ => false := by rfl
  rw [h]

theorem nineBlockDisk_superblock :
    Superblock.decode (nineBlockDisk.store.bytes part0) =
      ⟨DFS_MAGIC, 4096, 1, 536, 143180312, 143206400, 64950⟩ := by
  decide +kernel

theorem nineBlockDisk_occupies (block : ℕ) (hblock : block ≤ 9) :
    Occupies nineBlockDisk.store part0 (143206400 + block * 1024) 9216 := by
  have hused : ∀ j < 18, BlockUsed (nineBlockDisk.store.bytes part0) 143180312 j := by decide +kernel
  have hsize : nineBlockDisk.store.size part0 = 209715200 := by decide +kernel
  have hceil : ceilBlocks 9216 = 9 := by decide
  constructor <;> rw [nineBlockDisk_superblock]
  · dsimp only
    omega
  · simp only [DFS_BLOCK_SIZE]
    omega
  · rintro j ⟨-, -, hj⟩
    simp only [DFS_BLOCK_SIZE, hceil] at hj ⊢
    omega
  · rintro j ⟨-, -, hj⟩
    refine hused j ?_
    simp only [DFS_BLOCK_SIZE, hceil] at hj
    omega

theorem nineBlockDisk_ownBlocks :
    OwnBlocks nineBlockDisk.store part0 [(143206400, 9216), (143215616, 9216)] where
  occupies := fun e he => by
    rcases List.mem_pair.mp he with rfl | rfl
    · exact nineBlockDisk_occupies 0 (by norm_num)
    · exact nineBlockDisk_occupies 9 (by norm_num)
  disjoint := by
    have hceil : ceilBlocks 9216 = 9 := by decide
    rw [nineBlockDisk_superblock, List.pairwise_pair]
    rintro j ⟨-, -, hj⟩ ⟨-, hj', -⟩
    simp only [DFS_BLOCK_SIZE, hceil] at hj hj'
    omega

theorem changedNine_changed {length : ℤ} (h₀ : 0 ≤ length) (h₁ : length < 2 ^ 32) :
    Changed (changedNine length) :=
  ⟨rfl, show (143206400 : ℤ) ≠ 0 by norm_num, h₀, h₁⟩

theorem dfsSyncFile_ownBlocks_sameBlocks :
    SyncsOwnBlocks nineBlockDisk part0 (changedNine 9000) 9216 [(143215616, 9216)] := by
  have haddr : toU32 (changedNine 9000).driveAddr = 143206400 := by decide
  refine (dfsSyncFile_ownBlocks_iff nineBlockDisk part0 nineBlockDisk_reliable
    nineBlockDisk_partition (changedNine 9000) (changedNine_changed (by norm_num) (by norm_num)) 9216
    [(143215616, 9216)] (by rw [haddr]; exact nineBlockDisk_ownBlocks)).mpr ⟨?_, ?_, ?_⟩
  · decide
  · exact fun j hnew hnold => absurd hnew hnold
  · intro s hs
    have hfits := hs.first.fits
    rw [nineBlockDisk_superblock] at hfits ⊢
    simp only [DFS_BLOCK_SIZE] at hfits ⊢
    omega

/-- The first file grows by one block, and its sync releases the first block of the second. -/
theorem dfsSyncFile_releases_neighbour :
    nineBlockDisk.store.Reliable ∧ DfsPartition nineBlockDisk.store part0 ∧
      Changed (changedNine 10000) ∧
      OwnBlocks nineBlockDisk.store part0 [(143206400, 9216), (143215616, 9216)] ∧
      ¬ SyncsOwnBlocks nineBlockDisk part0 (changedNine 10000) 9216 [(143215616, 9216)] := by
  refine ⟨nineBlockDisk_reliable, nineBlockDisk_partition,
    changedNine_changed (by norm_num) (by norm_num), nineBlockDisk_ownBlocks, fun h => ?_⟩
  have hkept := (h.released 9).mpr
  rw [nineBlockDisk_superblock] at hkept
  have hgone : ¬ BlockUsed ((releasedDisk nineBlockDisk (changedNine 10000) part0).store.bytes part0)
      143180312 9 := by
    decide +kernel
  refine hgone (hkept ⟨by decide +kernel, ?_⟩)
  unfold InExtent
  decide +kernel

end LittleLinux
