import LittleLinux.Dfs.BlockSafety

/-!
# The layout that formatting leaves

`dfs_format` divides the partition into superblock, folder table, bitmap and data. The folder
table alone takes 143 MB, but the only size that is refused is one below 1 MiB; and the data
starts at a multiple of 512 while blocks have 1024 bytes, so that the last block may stick out.
`dfsFormat_layoutSound_iff` says for which numbers of sectors the layout is sound.
-/

namespace LittleLinux

/-! ### The numbers of the superblock -/

section Numbers

variable {sectors : ℕ}

/-- A sector count is a 32-bit number, so no number of blocks wraps around. -/
theorem blockCount_of_sectors (h : sectors < 2 ^ 32) :
    sectors * 512 / DFS_BLOCK_SIZE % 2 ^ 32 = sectors / 2 := by
  unfold DFS_BLOCK_SIZE
  omega

theorem formatSuperblock_bitmapStart (n : ℕ) : (formatSuperblock n).bitmapStart = 143180312 := rfl

theorem formatSuperblock_rootPointer (n : ℕ) : (formatSuperblock n).rootPointer = 536 := rfl

theorem formatSuperblock_dataStart (h : sectors < 2 ^ 32) :
    (formatSuperblock (sectors * 512)).dataStart =
      (((sectors / 2 + 7) / 8 + 535) / 512 + 279649) * 512 := by
  have hstart : sizeofSuperblock + DFS_MAX_FOLDERS * sizeofDiskFolder = 143180312 := rfl
  simp only [formatSuperblock, blockCount_of_sectors h, hstart]
  omega

/-- The number of data blocks, in the words of the source: a difference of 32-bit numbers. -/
theorem formatSuperblock_blockCount (h : sectors < 2 ^ 32) :
    (formatSuperblock (sectors * 512)).blockCount =
      toU32 ((sectors / 2 : ℕ) -
        ((formatSuperblock (sectors * 512)).dataStart / DFS_BLOCK_SIZE : ℕ)) := by
  rw [← blockCount_of_sectors h]
  rfl

/-- From 279684 sectors on there is room for the data, and the count is what it should be. -/
theorem formatSuperblock_blockCount_of_le (h : sectors < 2 ^ 32) (hle : 279684 ≤ sectors) :
    (formatSuperblock (sectors * 512)).blockCount +
      (formatSuperblock (sectors * 512)).dataStart / DFS_BLOCK_SIZE = sectors / 2 := by
  have hdata := formatSuperblock_dataStart h
  rw [formatSuperblock_blockCount h]
  unfold DFS_BLOCK_SIZE toU32
  omega

/-- Below that the count wraps around, and the data would start beyond the end. -/
theorem formatSuperblock_of_lt (hlt : sectors < 279684) :
    sectors * 512 < (formatSuperblock (sectors * 512)).dataStart ∧
      sectors / 2 < (formatSuperblock (sectors * 512)).blockCount := by
  have h : sectors < 2 ^ 32 := by omega
  have hdata := formatSuperblock_dataStart h
  -- near the bound the bitmap takes 35 sectors
  have hstart : sectors / 2 < (formatSuperblock (sectors * 512)).dataStart / 1024 := by
    rcases Nat.lt_or_ge (sectors / 2) 139800 with hsmall | hlarge
    · omega
    · have hq : ((sectors / 2 + 7) / 8 + 535) / 512 = 35 := by omega
      omega
  refine ⟨by omega, ?_⟩
  rw [formatSuperblock_blockCount h]
  have hlt : (formatSuperblock (sectors * 512)).dataStart < 2 ^ 31 := by omega
  unfold DFS_BLOCK_SIZE toU32
  omega

end Numbers

/-! ### Soundness -/

/-- Superblock, folder table, bitmap and data follow each other without overlap inside a partition
of `size` bytes, the bitmap has a bit for every data block, and the numbers are those of the same
computation without a bound on its numbers. -/
structure LayoutSound (sb : Superblock) (size : ℕ) : Prop where
  superblock : sizeofSuperblock ≤ sb.rootPointer
  folders : sb.rootPointer + DFS_MAX_FOLDERS * sizeofDiskFolder ≤ sb.bitmapStart
  bitmap : sb.bitmapStart ≤ sb.dataStart
  bits : sb.blockCount ≤ 8 * (sb.dataStart - sb.bitmapStart)
  data : sb.dataStart + sb.blockCount * DFS_BLOCK_SIZE ≤ size
  dataStart_eq : sb.dataStart = (sb.bitmapStart + (size / DFS_BLOCK_SIZE + 7) / 8 + 511) / 512 * 512
  blockCount_eq : sb.blockCount + sb.dataStart / DFS_BLOCK_SIZE = size / DFS_BLOCK_SIZE

theorem formatSuperblock_layoutSound_iff {sectors : ℕ} (h : sectors < 2 ^ 32) :
    LayoutSound (formatSuperblock (sectors * 512)) (sectors * 512) ↔
      279684 ≤ sectors ∧ (sectors % 2 = 1 ∨ ((sectors / 2 + 7) / 8 + 535) / 512 % 2 = 1) := by
  have hdata := formatSuperblock_dataStart h
  have hbitmap := formatSuperblock_bitmapStart (sectors * 512)
  constructor
  · intro hs
    have hend := hs.data
    rcases Nat.lt_or_ge sectors 279684 with hlt | hge
    · have := (formatSuperblock_of_lt hlt).1
      omega
    · have hcount := formatSuperblock_blockCount_of_le h hge
      refine ⟨hge, ?_⟩
      simp only [DFS_BLOCK_SIZE] at hend hcount
      omega
  · rintro ⟨hge, hpar⟩
    have hcount := formatSuperblock_blockCount_of_le h hge
    have hroot := formatSuperblock_rootPointer (sectors * 512)
    generalize formatSuperblock (sectors * 512) = sb at *
    have hblocks : sectors * 512 / 1024 = sectors / 2 := by omega
    refine ⟨?_, ?_, ?_, ?_, ?_, ?_, ?_⟩ <;>
      simp only [DFS_BLOCK_SIZE, sizeofSuperblock, DFS_MAX_FOLDERS, sizeofDiskFolder, hblocks] at hcount ⊢
    · omega
    · omega
    · omega
    · omega
    · omega
    · rw [hdata, hbitmap]
      omega
    · exact hcount

/-- **The layout is sound** exactly on the partitions of at least 279684 sectors whose data starts
at a multiple of the block size or that have a sector to spare. -/
theorem dfsFormat_layoutSound_iff (mem : Memory) (st : Store) (id : PartId)
    (hsec : st.sectors id < 2 ^ 32) (hok : (dfsFormat mem st id).1 = 0) :
    LayoutSound (Superblock.decode ((dfsFormat mem st id).2.2.bytes id)) (st.size id) ↔
      279684 ≤ st.sectors id ∧
        (st.sectors id % 2 = 1 ∨ ((st.sectors id / 2 + 7) / 8 + 535) / 512 % 2 = 1) := by
  obtain ⟨hsectors, -, hformatted⟩ := dfsFormat_spec mem st id
  have hsb := hformatted hok
  rw [Formatted, Store.size, hsectors] at hsb
  rw [hsb, Store.size]
  exact formatSuperblock_layoutSound_iff hsec

theorem dfsFormat_layoutSound_boot :
    LayoutSound (formattedState.superblock part0) (bootDisk.store.size part0) :=
  (dfsFormat_layoutSound_iff ampleMemory bootDisk.store part0 (by decide) (by decide +kernel)).mpr
    (by decide)

/-- A partition of 1 MiB. -/
def smallStore : Store := ⟨fun _ => 2048, fun _ _ => 0, fun _ => false, 0, []⟩

/-- A partition of 1 MiB is formatted with success, and its bitmap starts beyond its end. -/
theorem dfsFormat_layout_unsound :
    (dfsFormat ampleMemory smallStore part0).1 = 0 ∧
      ¬ LayoutSound (Superblock.decode ((dfsFormat ampleMemory smallStore part0).2.2.bytes part0))
        (smallStore.size part0) := by
  refine ⟨by decide +kernel, fun h => ?_⟩
  have hend := h.data
  revert hend
  decide +kernel

end LittleLinux
