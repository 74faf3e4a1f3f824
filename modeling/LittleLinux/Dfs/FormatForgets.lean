import LittleLinux.Dfs.BlockExact
import LittleLinux.Dfs.FormatLayout
import LittleLinux.Dfs.Sync

/-!
# What formatting forgets

`dfs_format` writes the superblock, the record of the root and, when `malloc` grants it a buffer
and the partition has room, a cleared bitmap. The other 4095 records of the folder table stay as
they were. `dfsFormat_forgets_iff` compares two runs on the same partition: they leave file
systems that cannot be told apart if and only if neither of the former contents had anything in
the places that formatting leaves alone.
-/

namespace LittleLinux

/-! ### Contents of a partition -/

/-- The disk with the contents `m` on the partition `id`. -/
def Disk.setContents (d : Disk) (id : PartId) (m : ByteMemory) : Disk :=
  { d with store := { d.store with bytes := Function.update d.store.bytes id m } }

/-- The disk after `dfs_format`, with what it returned. -/
def Disk.format (d : Disk) (mem : Memory) (id : PartId) : ℤ × Disk :=
  ((dfsFormat mem d.store id).1, { d with store := (dfsFormat mem d.store id).2.2 })

/-- The offset of a record of the folder table. -/
def slotOffset (k : ℕ) : ℕ := sizeofSuperblock + k * sizeofDiskFolder

/-- The record `k` of the folder table. -/
def slotRecord (m : ByteMemory) (k : ℕ) : DiskFolder :=
  DiskFolder.decode fun i => m (slotOffset k + i)

/-- A file system without a past: the root is there and empty, no other record inside the partition
is in use, and no bit of the bitmap inside the partition is set. -/
structure FreshSystem (st : Store) (id : PartId) : Prop where
  root : slotRecord (st.bytes id) 0 = rootRecord
  unused : ∀ k, 0 < k → k < DFS_MAX_FOLDERS → slotOffset k + sizeofDiskFolder ≤ st.size id →
    (slotRecord (st.bytes id) k).used = 0
  clear : ∀ j < (Superblock.decode (st.bytes id)).blockCount,
    (Superblock.decode (st.bytes id)).bitmapStart + j / 8 < st.size id →
    ¬ BlockUsed (st.bytes id) (Superblock.decode (st.bytes id)).bitmapStart j

/-! ### What formatting writes -/

/-- The number of bytes of the bitmap that `dfs_format` clears on a partition of `size` bytes. -/
def bitmapBytes (size : ℕ) : ℕ := (size / DFS_BLOCK_SIZE % 2 ^ 32 + 7) % 2 ^ 32 / 8

/-- The bitmap is cleared: there is a buffer for it and room in the partition. -/
def ClearsBitmap (mem : Memory) (size : ℕ) : Prop :=
  mem.grants mem.calls = true ∧ (formatSuperblock size).bitmapStart + bitmapBytes size ≤ size

instance (mem : Memory) (size : ℕ) : Decidable (ClearsBitmap mem size) :=
  inferInstanceAs (Decidable (_ ∧ _))

/-- **What `dfs_format` does** on a partition of at least 1 MiB. -/
theorem dfsFormat_exact (mem : Memory) {st : Store} {id : PartId} (hst : st.Reliable)
    (hsec : st.sectors id < 2 ^ 32) (hsize : 2 ^ 20 ≤ st.size id) :
    (dfsFormat mem st id).1 = 0 ∧ (dfsFormat mem st id).2.2.fault = st.fault ∧
      (∀ i < sizeofDiskFolder,
        (dfsFormat mem st id).2.2.bytes id (sizeofSuperblock + i) = rootRecord.encode i) ∧
      ∀ x, slotOffset 1 ≤ x → (dfsFormat mem st id).2.2.bytes id x =
        if ClearsBitmap mem (st.size id) ∧ (formatSuperblock (st.size id)).bitmapStart ≤ x ∧
            x < (formatSuperblock (st.size id)).bitmapStart + bitmapBytes (st.size id) then 0
        else st.bytes id x := by
  have hblocks : ¬ st.size id / DFS_BLOCK_SIZE % 2 ^ 32 < 1024 := by
    rw [Store.size, blockCount_of_sectors hsec]
    unfold Store.size at hsize
    omega
  rw [dfsFormat, if_neg hblocks]
  set sb := formatSuperblock (st.size id) with hsb
  set w := st.write id 0 sizeofSuperblock sb.encode with hw
  have hwok : w.1 = true := (hst.write_eq (by decide) (by simp [sizeofSuperblock]; omega)).1
  set r := w.2.write id sb.rootPointer sizeofDiskFolder rootRecord.encode with hr
  have hroot : sb.rootPointer = 536 := rfl
  obtain ⟨hrok, hrbytes⟩ : r.1 = true ∧ r.2.bytes = Function.update w.2.bytes id
      ((w.2.bytes id).putBytes sb.rootPointer (sizeofDiskFolder : ℤ).toNat rootRecord.encode) := by
    have hrel : w.2.Reliable := hst
    refine hrel.write_eq (by decide) ?_
    change ((536 : ℕ) : ℤ) + (34956 : ℕ) ≤ (st.size id : ℕ)
    omega
  -- the root record is in place, and nothing behind it has changed yet
  have hrecord : ∀ i < sizeofDiskFolder, r.2.bytes id (sizeofSuperblock + i) = rootRecord.encode i :=
    fun i hi => by
      rw [hrbytes, Function.update_self]
      exact ByteMemory.putBytes_add hi
  have hbehind : ∀ x, slotOffset 1 ≤ x → r.2.bytes id x = st.bytes id x := fun x hx => by
    have hslot : slotOffset 1 = 35492 := rfl
    rw [Store.write_bytes_of_notMem (.inr ?_), Store.write_bytes_of_notMem (.inr ?_)]
    · change 0 + 536 ≤ x
      omega
    · change 536 + 34956 ≤ x
      omega
  have hne : bitmapBytes (st.size id) ≠ 0 := by
    unfold bitmapBytes
    rw [Store.size, blockCount_of_sectors hsec]
    unfold Store.size at hsize
    omega
  dsimp only
  rw [if_neg (show ¬ w.1 = false by simp [hwok]), if_neg (show ¬ r.1 = false by simp [hrok])]
  have hmalloc : (mem.malloc (bitmapBytes (st.size id))).1 =
      if mem.grants mem.calls then some (mem.calls + 1) else none := by
    rw [Memory.malloc, if_neg hne]
  rw [bitmapBytes] at hmalloc
  by_cases hgrant : mem.grants mem.calls = true
  · rw [hmalloc, if_pos hgrant]
    refine ⟨rfl, rfl, fun i hi => ?_, fun x hx => ?_⟩
    · dsimp only
      rw [Store.write_bytes_of_notMem (.inl ?_), hrecord i hi]
      change 536 + i < 143180312
      unfold sizeofDiskFolder at hi
      omega
    · have hrel : r.2.Reliable := hst
      dsimp only
      rw [hrel.write_apply, hbehind x hx]
      refine if_congr (iff_of_eq ?_) rfl rfl
      simp only [ClearsBitmap, hgrant, true_and, ← hsb]
      have hsize' : r.2.size id = st.size id := rfl
      rw [hsize', Int.toNat_natCast, ← Int.natCast_add, Int.ofNat_le]
      rfl
  · rw [hmalloc, if_neg hgrant]
    refine ⟨rfl, rfl, hrecord, fun x hx => ?_⟩
    rw [if_neg fun h => hgrant h.1.1]
    exact hbehind x hx

/-- What formatting leaves alone holds no trace of a file system: no record behind the root is in
use, and no bit of the bitmap is set that is not cleared. -/
structure Forgettable (mem : Memory) (size : ℕ) (m : ByteMemory) : Prop where
  unused : ∀ k, 0 < k → k < DFS_MAX_FOLDERS → slotOffset k + sizeofDiskFolder ≤ size →
    (slotRecord m k).used = 0
  clear : ∀ j < (formatSuperblock size).blockCount, (formatSuperblock size).bitmapStart + j / 8 < size →
    ¬ (ClearsBitmap mem size ∧ j / 8 < bitmapBytes size) →
    ¬ BlockUsed m (formatSuperblock size).bitmapStart j

section Format

variable {mem : Memory} {st : Store} {id : PartId}

theorem rootRecord_fits : rootRecord.Fits where
  name := by decide
  used := by decide
  subfolders_le := by decide
  files_le := by decide
  subfolders := fun e he => absurd he (List.not_mem_nil)
  files := fun e he => absurd he (List.not_mem_nil)

theorem slotRecord_root {m : ByteMemory}
    (h : ∀ i < sizeofDiskFolder, m (sizeofSuperblock + i) = rootRecord.encode i) :
    slotRecord m 0 = rootRecord := by
  refine (DiskFolder.decode_congr (fun i hi => ?_) (by decide) (by decide)).symm.trans
    (DiskFolder.decode_encode rootRecord_fits)
  rw [slotOffset, Nat.zero_mul, Nat.add_zero, h i hi]

/-- The records behind the root are as they were. -/
theorem slotRecord_used_format (hst : st.Reliable) (hsec : st.sectors id < 2 ^ 32)
    (hsize : 2 ^ 20 ≤ st.size id) {k : ℕ} (hk : 0 < k) (hk' : k < DFS_MAX_FOLDERS) :
    (slotRecord ((dfsFormat mem st id).2.2.bytes id) k).used = (slotRecord (st.bytes id) k).used := by
  obtain ⟨-, -, -, hbytes⟩ := dfsFormat_exact mem hst hsec hsize
  simp only [slotRecord, DiskFolder.decode]
  refine ByteMemory.getLE_congr fun i hi => ?_
  have hbehind : slotOffset 1 ≤ slotOffset k + (128 + i) ∧
      slotOffset k + (128 + i) < (formatSuperblock (st.size id)).bitmapStart := by
    rw [formatSuperblock_bitmapStart]
    simp only [slotOffset, sizeofSuperblock, sizeofDiskFolder, DFS_MAX_FOLDERS] at hk' ⊢
    omega
  rw [hbytes _ hbehind.1, if_neg fun h => by omega]

/-- The bits are as they were, where they are not cleared. -/
theorem blockUsed_format (hst : st.Reliable) (hsec : st.sectors id < 2 ^ 32)
    (hsize : 2 ^ 20 ≤ st.size id) (j : ℕ) :
    BlockUsed ((dfsFormat mem st id).2.2.bytes id) (formatSuperblock (st.size id)).bitmapStart j ↔
      ¬ (ClearsBitmap mem (st.size id) ∧ j / 8 < bitmapBytes (st.size id)) ∧
        BlockUsed (st.bytes id) (formatSuperblock (st.size id)).bitmapStart j := by
  obtain ⟨-, -, -, hbytes⟩ := dfsFormat_exact mem hst hsec hsize
  have hbehind : slotOffset 1 ≤ (formatSuperblock (st.size id)).bitmapStart + j / 8 := by
    rw [formatSuperblock_bitmapStart]
    exact le_trans (by decide) (Nat.le_add_right _ _)
  rw [BlockUsed, hbytes _ hbehind]
  by_cases h : ClearsBitmap mem (st.size id) ∧ j / 8 < bitmapBytes (st.size id)
  · rw [if_pos ⟨h.1, Nat.le_add_right _ _, Nat.add_lt_add_left h.2 _⟩]
    simp [h]
  · rw [if_neg fun h' => h ⟨h'.1, Nat.lt_of_add_lt_add_left h'.2.2⟩]
    exact (and_iff_right h).symm

/-- **When a formatted partition is fresh.** -/
theorem freshSystem_format_iff (hst : st.Reliable) (hsec : st.sectors id < 2 ^ 32)
    (hsize : 2 ^ 20 ≤ st.size id) :
    FreshSystem (dfsFormat mem st id).2.2 id ↔ Forgettable mem (st.size id) (st.bytes id) := by
  obtain ⟨hret, -, hroot, -⟩ := dfsFormat_exact mem hst hsec hsize
  obtain ⟨hsectors, -, hformatted⟩ := dfsFormat_spec mem st id
  have hsize' : (dfsFormat mem st id).2.2.size id = st.size id := by
    rw [Store.size, Store.size, hsectors]
  have hsb : Superblock.decode ((dfsFormat mem st id).2.2.bytes id) = formatSuperblock (st.size id) := by
    rw [← hsize']
    exact hformatted hret
  constructor
  · intro h
    refine ⟨fun k hk hk' hin => ?_, fun j hj hin hkept hused => ?_⟩
    · rw [← slotRecord_used_format hst hsec hsize hk hk']
      exact h.unused k hk hk' (by rw [hsize']; exact hin)
    · refine h.clear j (by rw [hsb]; exact hj) (by rw [hsb, hsize']; exact hin) ?_
      rw [hsb]
      exact (blockUsed_format hst hsec hsize j).mpr ⟨hkept, hused⟩
  · intro h
    refine ⟨slotRecord_root hroot, fun k hk hk' hin => ?_, fun j hj hin hused => ?_⟩
    · rw [slotRecord_used_format hst hsec hsize hk hk']
      exact h.unused k hk hk' (by rw [← hsize']; exact hin)
    · rw [hsb] at hj hin hused
      rw [hsize'] at hin
      obtain ⟨hkept, hused⟩ := (blockUsed_format hst hsec hsize j).mp hused
      exact h.clear j hj hin hkept hused

end Format

/-! ### What a fresh file system answers -/

/-- One record of the scan for a free one. -/
theorem findFolderSlot_of_read {id : PartId} {folderEnd fuel offset : ℕ} {st : Store} {b : ByteMemory}
    (hend : (offset + sizeofDiskFolder) % 2 ^ 32 ≤ folderEnd)
    (hread : (st.read id offset sizeofDiskFolder).1 = some b) :
    findFolderSlot id folderEnd (fuel + 1) offset st =
      if (DiskFolder.decode b).used = 0 then (offset, (st.read id offset sizeofDiskFolder).2)
      else findFolderSlot id folderEnd fuel ((offset + sizeofDiskFolder) % 2 ^ 32)
        (st.read id offset sizeofDiskFolder).2 := by
  rw [findFolderSlot, if_pos hend]
  dsimp only
  rw [hread]

/-- The first free record of a fresh file system is the one behind the root. -/
theorem FreshSystem.dfsAllocFolderSlot_eq {st : Store} {id : PartId} (h : FreshSystem st id)
    (hst : st.Reliable) (hf : Formatted st id) (hsize : 2 ^ 20 ≤ st.size id) :
    (dfsAllocFolderSlot st id).1 = slotOffset 1 := by
  have hsuper : (readSuperblock st id).1 = some (formatSuperblock (st.size id)) := by
    rw [readSuperblock_of_le hst (by unfold sizeofSuperblock; omega), hf]
  have hread : ∀ (st' : Store) (k : ℕ), SameBytes st st' →
      slotOffset k + sizeofDiskFolder ≤ st.size id →
      (st'.read id (slotOffset k) sizeofDiskFolder).1 =
        some fun i => st.bytes id (slotOffset k + i) := fun st' k hsame hin => by
    rw [← hsame.bytes]
    refine Store.Reliable.read_eq (fun n => by rw [hsame.fault]; exact hst n) (by decide) ?_
    rw [Store.size, hsame.sectors]
    exact_mod_cast hin
  have hsame : SameBytes st (readSuperblock st id).2 := ⟨rfl, rfl, rfl, rfl⟩
  have hsame' : SameBytes st ((readSuperblock st id).2.read id (slotOffset 0) sizeofDiskFolder).2 :=
    ⟨rfl, rfl, rfl, rfl⟩
  have hin₀ : slotOffset 0 + sizeofDiskFolder ≤ st.size id := le_trans (by decide) hsize
  have hin₁ : slotOffset 1 + sizeofDiskFolder ≤ st.size id := le_trans (by decide) hsize
  rw [dfsAllocFolderSlot, hsuper]
  dsimp only
  -- the root is in use, the record behind it is not
  have hfuel : (formatSuperblock (st.size id)).bitmapStart / sizeofDiskFolder + 1 = 4095 + 1 + 1 := by
    rw [formatSuperblock_bitmapStart]
    decide
  rw [hfuel, show (formatSuperblock (st.size id)).rootPointer = slotOffset 0 from rfl,
    findFolderSlot_of_read (by rw [formatSuperblock_bitmapStart]; decide) (hread _ 0 hsame hin₀),
    if_neg (by rw [← slotRecord, h.root]; decide),
    show (slotOffset 0 + sizeofDiskFolder) % 2 ^ 32 = slotOffset 1 from rfl,
    findFolderSlot_of_read (by rw [formatSuperblock_bitmapStart]; decide)
      (hread _ 1 hsame' hin₁),
    ← slotRecord, if_pos (h.unused 1 (by norm_num) (by decide) hin₁)]

/-- Two disks that agree in their static variables and in every bit that can be read show a scan the
same run. -/
theorem SeesRun.transfer {d₁ d₂ : Disk} {id : PartId} {sb : Superblock} {n s : ℕ}
    (h : SeesRun d₁ id sb n s) (hw : bitmapEnd sb.bitmapStart sb.blockCount ≤ 2 ^ 32)
    (hsectors : d₂.store.sectors = d₁.store.sectors) (hlast : d₂.lastByteOff = d₁.lastByteOff)
    (hval : d₂.byteVal = d₁.byteVal)
    (hbits : ∀ j < sb.blockCount, sb.bitmapStart + j / 8 < d₁.store.size id →
      (BlockUsed (d₂.store.bytes id) sb.bitmapStart j ↔
        BlockUsed (d₁.store.bytes id) sb.bitmapStart j)) :
    SeesRun d₂ id sb n s := by
  have hfits := h.first.fits
  have hseen : ∀ j < s + n, (BlockUsed (d₂.seen id sb.bitmapStart) sb.bitmapStart j ↔
      BlockUsed (d₁.seen id sb.bitmapStart) sb.bitmapStart j) := fun j hj => by
    have hoff := byteOff_eq hw (show j < sb.blockCount by omega)
    have hread := h.readable j hj
    rw [hoff] at hread
    simp only [BlockUsed, Disk.seen, hlast, hval, hoff]
    split_ifs
    · exact Iff.rfl
    · exact hbits j (by omega) hread
  have hsize : d₂.store.size id = d₁.store.size id := by rw [Store.size, Store.size, hsectors]
  refine ⟨h.pos, ⟨hfits, fun j hj hj' => ?_, fun s' hs' hrun => ?_⟩, fun j hj => ?_⟩
  · exact (not_congr (hseen j hj')).mpr (h.first.run j hj hj')
  · refine h.first.least s' hs' fun j hj hj' => ?_
    exact (not_congr (hseen j (by omega))).mp (hrun j hj hj')
  · rw [hsize]
    exact h.readable j hj

/-- Two fresh file systems on partitions of the same size give the same blocks. -/
theorem FreshSystem.dfsAllocFileBlocks_eq {d₁ d₂ : Disk} {id : PartId}
    (h₁ : FreshSystem d₁.store id) (h₂ : FreshSystem d₂.store id) (hst₁ : d₁.store.Reliable)
    (hst₂ : d₂.store.Reliable) (hf₁ : Formatted d₁.store id) (hf₂ : Formatted d₂.store id)
    (hsize : 2 ^ 20 ≤ d₁.store.size id) (hsectors : d₂.store.sectors = d₁.store.sectors)
    (hlast : d₂.lastByteOff = d₁.lastByteOff) (hval : d₂.byteVal = d₁.byteVal) (size : ℕ) :
    (dfsAllocFileBlocks d₁ id size).1 = (dfsAllocFileBlocks d₂ id size).1 := by
  have hsize₂ : d₂.store.size id = d₁.store.size id := by rw [Store.size, Store.size, hsectors]
  have hw := (formatSuperblock_noWrap (d₁.store.size id)).bitmapEnd_le
  have hsuper : sizeofSuperblock ≤ d₁.store.size id := le_trans (by decide) hsize
  have hclear₁ := h₁.clear
  have hclear₂ := h₂.clear
  rw [Formatted, hsize₂] at hf₂
  rw [hf₁] at hclear₁
  rw [hf₂, hsize₂] at hclear₂
  have hexact₁ := dfsAllocFileBlocks_exact hf₁ hst₁ hsuper (.inl hw) size
  have hexact₂ := dfsAllocFileBlocks_exact hf₂ hst₂ (by rw [hsize₂]; exact hsuper) (.inl hw) size
  generalize formatSuperblock (d₁.store.size id) = sb at *
  have hiff : ∀ s, SeesRun d₁ id sb (blocksFor size) s ↔ SeesRun d₂ id sb (blocksFor size) s := by
    refine fun s => ⟨fun h => h.transfer hw hsectors hlast hval fun j hj hin => ?_,
      fun h => h.transfer hw hsectors.symm hlast.symm hval.symm fun j hj hin => ?_⟩
    · exact iff_of_false (hclear₂ j hj hin) (hclear₁ j hj hin)
    · rw [hsize₂] at hin
      exact iff_of_false (hclear₁ j hj hin) (hclear₂ j hj hin)
  rcases hexact₁ with ⟨s, hsees, hret, -⟩ | ⟨hnone, hret, -⟩
  · rcases hexact₂ with ⟨s', hsees', hret', -⟩ | ⟨hnone', -⟩
    · rw [hret, hret', hsees'.unique ((hiff s).mp hsees)]
    · exact absurd ((hiff s).mp hsees) (hnone' s)
  · rcases hexact₂ with ⟨s', hsees', -⟩ | ⟨-, hret', -⟩
    · exact absurd ((hiff s').mpr hsees') (hnone s')
    · rw [hret, hret']

/-! ### Two runs -/

/-- Formatting the partition with the contents `m₁` and with the contents `m₂`: if both runs report
success, they leave fresh file systems, which answer the two allocators alike. -/
def FormatForgets (d : Disk) (id : PartId) (m₁ m₂ : ByteMemory) (mem₁ mem₂ : Memory) : Prop :=
  let r₁ := (d.setContents id m₁).format mem₁ id
  let r₂ := (d.setContents id m₂).format mem₂ id
  r₁.1 = 0 → r₂.1 = 0 →
    FreshSystem r₁.2.store id ∧ FreshSystem r₂.2.store id ∧
      (dfsAllocFolderSlot r₁.2.store id).1 = (dfsAllocFolderSlot r₂.2.store id).1 ∧
      ∀ size, (dfsAllocFileBlocks r₁.2 id size).1 = (dfsAllocFileBlocks r₂.2 id size).1

/-- **Formatting forgets the past** if and only if the partition is too small to be formatted, or
both former contents are forgettable: no record of the folder table behind the root was in use, and
the bitmap is cleared or was clear. -/
theorem dfsFormat_forgets_iff (d : Disk) (id : PartId) (hst : d.store.Reliable)
    (hsec : d.store.sectors id < 2 ^ 32) (m₁ m₂ : ByteMemory) (mem₁ mem₂ : Memory) :
    FormatForgets d id m₁ m₂ mem₁ mem₂ ↔ d.store.size id < 2 ^ 20 ∨
      (Forgettable mem₁ (d.store.size id) m₁ ∧ Forgettable mem₂ (d.store.size id) m₂) := by
  rcases Nat.lt_or_ge (d.store.size id) (2 ^ 20) with hsmall | hsize
  -- fewer than 1024 blocks: `dfs_format` refuses, and nothing is asked of the two systems
  · have hblocks : d.store.size id / DFS_BLOCK_SIZE % 2 ^ 32 < 1024 := by
      unfold DFS_BLOCK_SIZE
      omega
    refine iff_of_true (fun h₁ _ => ?_) (.inl hsmall)
    have hret : ((d.setContents id m₁).format mem₁ id).1 = -1 := by
      change (dfsFormat mem₁ (d.setContents id m₁).store id).1 = -1
      rw [dfsFormat]
      exact congrArg Prod.fst (if_pos hblocks)
    rw [hret] at h₁
    exact absurd h₁ (by norm_num)
  -- either run alone decides whether its system is fresh; two fresh systems answer alike
  · have hm : ∀ m, (d.setContents id m).store.bytes id = m := fun m => Function.update_self _ _ _
    have hfresh : ∀ m mem, FreshSystem ((d.setContents id m).format mem id).2.store id ↔
        Forgettable mem (d.store.size id) m := fun m mem => by
      have hiff := @freshSystem_format_iff mem (d.setContents id m).store id hst hsec hsize
      rwa [hm] at hiff
    have hexact : ∀ m mem, _ := fun m mem =>
      @dfsFormat_exact mem (d.setContents id m).store id hst hsec hsize
    have hspec : ∀ m mem, _ := fun m mem => dfsFormat_spec mem (d.setContents id m).store id
    rw [or_iff_right (by omega)]
    constructor
    · intro h
      obtain ⟨h₁, h₂, -⟩ := h (hexact m₁ mem₁).1 (hexact m₂ mem₂).1
      exact ⟨(hfresh m₁ mem₁).mp h₁, (hfresh m₂ mem₂).mp h₂⟩
    · rintro ⟨h₁, h₂⟩ - -
      have hsize' : ∀ m mem, 2 ^ 20 ≤ ((d.setContents id m).format mem id).2.store.size id :=
        fun m mem => by
          rw [Store.size]
          change _ ≤ (dfsFormat mem (d.setContents id m).store id).2.2.sectors id * 512
          rw [(hspec m mem).1]
          exact hsize
      have hrel : ∀ m mem, ((d.setContents id m).format mem id).2.store.Reliable := fun m mem n => by
        change (dfsFormat mem (d.setContents id m).store id).2.2.fault n = false
        rw [(hexact m mem).2.1]
        exact hst n
      have hformatted : ∀ m mem, Formatted ((d.setContents id m).format mem id).2.store id :=
        fun m mem => (hspec m mem).2.2 (hexact m mem).1
      have hf₁ := (hfresh m₁ mem₁).mpr h₁
      have hf₂ := (hfresh m₂ mem₂).mpr h₂
      refine ⟨hf₁, hf₂, ?_, fun size => ?_⟩
      · rw [hf₁.dfsAllocFolderSlot_eq (hrel _ _) (hformatted _ _) (hsize' _ _),
          hf₂.dfsAllocFolderSlot_eq (hrel _ _) (hformatted _ _) (hsize' _ _)]
      · exact hf₁.dfsAllocFileBlocks_eq hf₂ (hrel _ _) (hrel _ _) (hformatted _ _) (hformatted _ _)
          (hsize' _ _) ((hspec m₂ mem₂).1.trans (hspec m₁ mem₁).1.symm) rfl rfl size

/-- Contents whose bitmap is full and whose folder table is empty. -/
def fullBitmap : ByteMemory := fun x => if x < 143180312 then 0 else 255

/-- Contents with one record in use, the one behind the root. -/
def oneFolder : ByteMemory := fun x => if x = 35620 then 1 else 0

theorem slotRecord_used_of_zero {m : ByteMemory} {k : ℕ} (h : ∀ i < 4, m (slotOffset k + (128 + i)) = 0) :
    (slotRecord m k).used = 0 := by
  have hzero : ByteMemory.getLE (fun i => m (slotOffset k + i)) 128 4 =
      ByteMemory.getLE (fun _ => 0) 128 4 := ByteMemory.getLE_congr h
  exact hzero.trans (by decide)

theorem forgettable_fullBitmap : Forgettable ampleMemory (bootDisk.store.size part0) fullBitmap where
  unused := fun k _ hk _ => by
    refine slotRecord_used_of_zero fun i hi => if_pos ?_
    simp only [slotOffset, sizeofSuperblock, sizeofDiskFolder, DFS_MAX_FOLDERS] at hk ⊢
    omega
  clear := fun j hj _ hkept => by
    have hcount : (formatSuperblock (bootDisk.store.size part0)).blockCount = 64950 := by decide +kernel
    have hbytes : bitmapBytes (bootDisk.store.size part0) = 25600 := by decide +kernel
    exact absurd ⟨by decide +kernel, by omega⟩ hkept

theorem forgettable_zero : Forgettable ampleMemory (bootDisk.store.size part0) fun _ => 0 where
  unused := fun k _ _ _ => slotRecord_used_of_zero fun i hi => rfl
  clear := fun j _ _ _ => by simp [BlockUsed]

theorem dfsFormat_forgets_fullBitmap :
    FormatForgets bootDisk part0 (fun _ => 0) fullBitmap ampleMemory ampleMemory :=
  (dfsFormat_forgets_iff bootDisk part0 (fun _ => rfl) (by decide) (fun _ => 0) fullBitmap ampleMemory
    ampleMemory).mpr (.inr ⟨forgettable_zero, forgettable_fullBitmap⟩)

/-- The folder of the former file system is still there, and the allocator passes over its slot. -/
theorem dfsFormat_remembers_folder :
    ((bootDisk.setContents part0 fun _ => 0).format ampleMemory part0).1 = 0 ∧
      ((bootDisk.setContents part0 oneFolder).format ampleMemory part0).1 = 0 ∧
      ¬ FormatForgets bootDisk part0 (fun _ => 0) oneFolder ampleMemory ampleMemory := by
  have hret₁ : ((bootDisk.setContents part0 fun _ => 0).format ampleMemory part0).1 = 0 := by
    decide +kernel
  have hret₂ : ((bootDisk.setContents part0 oneFolder).format ampleMemory part0).1 = 0 := by
    decide +kernel
  refine ⟨hret₁, hret₂, fun h => ?_⟩
  obtain ⟨-, -, hslots, -⟩ := h hret₁ hret₂
  revert hslots
  decide +kernel

end LittleLinux
