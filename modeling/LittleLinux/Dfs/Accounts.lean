import LittleLinux.Dfs.NewFolders
import LittleLinux.Dfs.SyncFile

/-!
# Accounting for blocks

Whether every marked block belongs to the extent of some file. `Accounted` says so for a list of
file entries and a set of blocks of other files. A sync keeps it, one file after the other
(`accounted_syncFiles`): the release takes the old extent out of the bitmap, the allocation puts
the new one in, and where there is no room the old extent is out already.

What does not keep it are the calls between two syncs that take blocks away from an extent
without knowing of the bitmap: `fs_rm`, and `fs_write` and `fs_backspace` when they shorten a
file.
-/

namespace LittleLinux

open ChainTable

/-! ### Extents and accounts -/

/-- The block `j` lies in the extent of the entry, the blocks of its length from its address on. -/
def FileBlock (sb : Superblock) (finfo : RamfsFileInfo) (j : ℕ) : Prop :=
  FreedBlock sb (toU32 finfo.driveAddr) (blocksFor (toU64 finfo.length)) j

/-- The block `j` is marked, and its bit lies inside the partition. -/
def Marked (st : Store) (id : PartId) (sb : Superblock) (j : ℕ) : Prop :=
  j < sb.blockCount ∧ sb.bitmapStart + j / 8 < st.size id ∧
    BlockUsed (st.bytes id) sb.bitmapStart j

/-- Every marked block belongs to one of the entries or is one of `others`. -/
def Accounted (st : Store) (id : PartId) (sb : Superblock) (others : Set ℕ)
    (l : List RamfsFileInfo) : Prop :=
  ∀ j, Marked st id sb j → j ∈ others ∨ ∃ finfo ∈ l, FileBlock sb finfo j

/-- From `st` to `st'` nothing before the bitmap changed. -/
structure BehindRecords (id : PartId) (st st' : Store) : Prop where
  sectors : st'.sectors = st.sectors
  fault : st'.fault = st.fault
  super : ∀ x < 28, st'.bytes id x = st.bytes id x

/-- A partition on which addresses are not cut, on a store without faults. -/
structure SmallPartition (st : Store) (id : PartId) : Prop where
  reliable : st.Reliable
  part : DfsPartition st id
  below : (Superblock.decode (st.bytes id)).dataStart +
    (Superblock.decode (st.bytes id)).blockCount * DFS_BLOCK_SIZE ≤ 2 ^ 32

section Store

variable {st st' st'' : Store} {id : PartId} {sb : Superblock}

theorem BehindRecords.refl (id : PartId) (st : Store) : BehindRecords id st st :=
  ⟨rfl, rfl, fun _ _ => rfl⟩

theorem BehindRecords.trans (h : BehindRecords id st st') (h' : BehindRecords id st' st'') :
    BehindRecords id st st'' :=
  ⟨h'.sectors.trans h.sectors, h'.fault.trans h.fault,
    fun x hx => (h'.super x hx).trans (h.super x hx)⟩

theorem BehindRecords.superblock_eq (h : BehindRecords id st st') :
    Superblock.decode (st'.bytes id) = Superblock.decode (st.bytes id) :=
  Superblock.decode_congr h.super

theorem BehindRecords.size_eq (h : BehindRecords id st st') : st'.size = st.size := by
  funext id'
  rw [Store.size, Store.size, h.sectors]

theorem SmallPartition.of_behind (hs : SmallPartition st id) (h : BehindRecords id st st') :
    SmallPartition st' id where
  reliable := fun n => by rw [h.fault]; exact hs.reliable n
  part :=
    { formatted := by
        rw [Formatted, h.superblock_eq, h.size_eq]
        exact hs.part.formatted
      sectors_lt := by rw [h.sectors]; exact hs.part.sectors_lt
      super_le := by rw [h.size_eq]; exact hs.part.super_le }
  below := by rw [h.superblock_eq]; exact hs.below

/-- The bits inside the partition lie before the data. -/
theorem DfsPartition.byteOff_lt (h : DfsPartition st id) {j : ℕ}
    (hj : j < (Superblock.decode (st.bytes id)).blockCount)
    (hin : (Superblock.decode (st.bytes id)).bitmapStart + j / 8 < st.size id) :
    (Superblock.decode (st.bytes id)).bitmapStart + j / 8 <
      (Superblock.decode (st.bytes id)).dataStart := by
  rcases Nat.le_total (Superblock.decode (st.bytes id)).dataStart (st.size id) with hle | hle
  · have := byteOff_lt_bitmapEnd (Superblock.decode (st.bytes id)).bitmapStart hj
    have := h.bitmapEnd_le hle
    omega
  · omega

end Store

/-! ### One file -/

section File

variable {d : Disk} {id : PartId} {finfo : RamfsFileInfo}

theorem writeFileData_length (d : Disk) (finfo : RamfsFileInfo) (id : PartId) (addr : ℕ) :
    (writeFileData d finfo id addr).2.1.length = finfo.length := by
  rw [writeFileData]
  dsimp only
  split_ifs <;> rfl

theorem writeFileData_store (d : Disk) (finfo : RamfsFileInfo) (id : PartId) (addr : ℕ) :
    (writeFileData d finfo id addr).2.2.store.sectors = d.store.sectors ∧
      (writeFileData d finfo id addr).2.2.store.fault = d.store.fault := by
  rw [writeFileData]
  rcases finfo.ptr with _ | buf <;> exact ⟨rfl, rfl⟩

/-- An entry that `dfs_sync_file` has nothing to do for. -/
theorem dfsSyncFile_of_idle (h : finfo.length = 0 ∨ finfo.type = RAMFS_FOLDER_TYPE_DISK_CLEAN) :
    dfsSyncFile d finfo id = (0, finfo, d) := by
  rw [dfsSyncFile, if_pos h]

/-- Before the sync of a file the superblock, and after it the same. -/
theorem behindRecords_dfsSyncFile (hs : SmallPartition d.store id) (htag : IsDirtyTag finfo.type) :
    BehindRecords id d.store (dfsSyncFile d finfo id).2.2.store := by
  by_cases hidle : finfo.length = 0 ∨ finfo.type = RAMFS_FOLDER_TYPE_DISK_CLEAN
  · rw [dfsSyncFile_of_idle hidle]
    exact .refl id d.store
  obtain ⟨hlen, hclean⟩ := not_or.mp hidle
  have hdirty : finfo.type = RAMFS_TYPE_DIRTY := htag.resolve_left hclean
  obtain ⟨hrel, -⟩ := releasedDisk_spec hs.reliable hs.part finfo
  have hstart := hs.part.bitmapStart_eq
  have hdata := hs.part.dataStart_lt
  -- the bitmap lies behind the superblock's fields
  have hchange : ∀ {lo hi st'}, 28 ≤ lo → BitmapChange id lo hi d.store st' →
      BehindRecords id d.store st' := fun hlo hch =>
    ⟨hch.sectors, hch.fault, fun x hx => hch.outside x (.inl (by omega))⟩
  rw [dfsSyncFile_of_dirty hlen hdirty]
  rcases allocatedDisk_cases hs.reliable hs.part finfo with
    ⟨s, hsees, hret, hch, -⟩ | ⟨-, hzero, hsame⟩
  · have hbehind := hchange (by rw [hstart]; norm_num) hch
    split_ifs with h0
    · exact hbehind
    · refine hbehind.trans ?_
      obtain ⟨hsec, hfault⟩ := writeFileData_store (allocatedDisk d finfo id).2
        { finfo with driveAddr := toI32 (allocatedDisk d finfo id).1 } id (allocatedDisk d finfo id).1
      have hfits := hsees.first.fits
      have hpos := hsees.pos
      have hbelow := hs.below
      have hcut : blockAddress (Superblock.decode (d.store.bytes id)) s =
          (Superblock.decode (d.store.bytes id)).dataStart + s * DFS_BLOCK_SIZE :=
        Nat.mod_eq_of_lt (by unfold DFS_BLOCK_SIZE at *; omega)
      refine ⟨hsec, hfault, fun x hx => writeFileData_bytes_of_lt _ _ _ ?_⟩
      rw [hret, hcut]
      omega
  · rw [if_pos hzero]
    have hbehind := hchange (by rw [hstart]; norm_num) hrel
    exact ⟨hsame.sectors.trans hbehind.sectors, hsame.fault.trans hbehind.fault,
      fun x hx => by rw [hsame.bytes]; exact hbehind.super x hx⟩

/-- **What the sync of a file does to the accounts**: a block that is marked after it lies in the new
extent of the file, or it was marked before and the file has not lost it. -/
theorem marked_dfsSyncFile (hs : SmallPartition d.store id) (htag : IsDirtyTag finfo.type) {j : ℕ}
    (hj : Marked (dfsSyncFile d finfo id).2.2.store id (Superblock.decode (d.store.bytes id)) j) :
    FileBlock (Superblock.decode (d.store.bytes id)) (dfsSyncFile d finfo id).2.1 j ∨
      Marked d.store id (Superblock.decode (d.store.bytes id)) j ∧
        ¬ FileBlock (Superblock.decode (d.store.bytes id)) finfo j ∨
      Marked d.store id (Superblock.decode (d.store.bytes id)) j ∧
        (dfsSyncFile d finfo id).2.1 = finfo := by
  have hbehind := behindRecords_dfsSyncFile hs htag
  obtain ⟨hlt, hin, hused⟩ := hj
  rw [hbehind.size_eq] at hin
  by_cases hidle : finfo.length = 0 ∨ finfo.type = RAMFS_FOLDER_TYPE_DISK_CLEAN
  · rw [dfsSyncFile_of_idle hidle] at hused ⊢
    exact .inr (.inr ⟨⟨hlt, hin, hused⟩, rfl⟩)
  obtain ⟨hlen, hclean⟩ := not_or.mp hidle
  have hdirty : finfo.type = RAMFS_TYPE_DIRTY := htag.resolve_left hclean
  have hbefore := hs.part.byteOff_lt hlt hin
  have hdata := hs.part.dataStart_lt
  have hbelow := hs.below
  obtain ⟨-, hreleased⟩ := releasedDisk_spec hs.reliable hs.part finfo
  -- a bit that the release leaves set is one that the file has not
  have hkept : BlockUsed ((releasedDisk d finfo id).store.bytes id)
      (Superblock.decode (d.store.bytes id)).bitmapStart j →
      Marked d.store id (Superblock.decode (d.store.bytes id)) j ∧
        ¬ FileBlock (Superblock.decode (d.store.bytes id)) finfo j := fun h => by
    obtain ⟨hold, hnot⟩ := (hreleased j).mp h
    refine ⟨⟨hlt, hin, hold⟩, fun hblock => hnot ⟨⟨⟨hlen, hdirty, fun h0 => ?_⟩, hblock⟩, hin⟩⟩
    have hle := hblock.1
    rw [h0, show toU32 0 = 0 from rfl] at hle
    omega
  rw [dfsSyncFile_of_dirty hlen hdirty] at hused ⊢
  rcases allocatedDisk_cases hs.reliable hs.part finfo with
    ⟨s, hsees, hret, -, hbits⟩ | ⟨-, hzero, hsame⟩
  · have hfits := hsees.first.fits
    have hpos := hsees.pos
    have hcut : blockAddress (Superblock.decode (d.store.bytes id)) s =
        (Superblock.decode (d.store.bytes id)).dataStart + s * DFS_BLOCK_SIZE :=
      Nat.mod_eq_of_lt (by unfold DFS_BLOCK_SIZE at *; omega)
    have hne : (allocatedDisk d finfo id).1 ≠ 0 := by
      rw [hret, hcut]
      omega
    rw [if_neg hne] at hused ⊢
    rw [BlockUsed, writeFileData_bytes_of_lt, ← BlockUsed, hbits] at hused
    · rcases hused with hused | ⟨hsj, hjs⟩
      · exact .inr (.inl (hkept hused))
      · refine .inl ?_
        rw [FileBlock, writeFileData_driveAddr, writeFileData_length]
        dsimp only
        rw [toU32_toI32 (hret ▸ blockAddress_lt _ s), hret, hcut]
        refine ⟨Nat.le_add_right _ _, ?_, ?_, hlt⟩ <;>
          rw [Nat.add_sub_cancel_left, Nat.mul_div_cancel _ (by decide)]
        · exact hsj
        · exact hjs
    · rw [hret, hcut]
      omega
  · rw [if_pos hzero] at hused ⊢
    rw [hsame.bytes] at hused
    exact .inr (.inl (hkept hused))

end File

/-! ### All files of a folder -/

/-- What the loop over the files does with one of them. -/
def syncEntry (id : PartId) (d : Disk) (finfo : RamfsFileInfo) : RamfsFileInfo × Disk :=
  if IsDirtyTag finfo.type then (dfsSyncFile d finfo id).2 else (finfo, d)

theorem syncFiles_eq (s : Fs) (p : Ptr) (id : PartId) :
    syncFiles s p id =
      (s.modifyFolder p (·.setFileMap ((s.folders p).fileMap.mapAccum (syncEntry id) s.disk).1)).setDisk
        ((s.folders p).fileMap.mapAccum (syncEntry id) s.disk).2 :=
  rfl

/-- The visit of one entry moves it from the accounts that are to come to those that are settled. -/
theorem accounted_syncEntry {d : Disk} {id : PartId} (hs : SmallPartition d.store id)
    {others : Set ℕ} {finfo : RamfsFileInfo} {l : List RamfsFileInfo}
    (h : Accounted d.store id (Superblock.decode (d.store.bytes id)) others (finfo :: l)) :
    BehindRecords id d.store (syncEntry id d finfo).2.store ∧
      Accounted (syncEntry id d finfo).2.store id (Superblock.decode (d.store.bytes id))
        (others ∪ {j | FileBlock (Superblock.decode (d.store.bytes id)) (syncEntry id d finfo).1 j}) l := by
  rw [syncEntry]
  split_ifs with htag
  · refine ⟨behindRecords_dfsSyncFile hs htag, fun j hj => ?_⟩
    rcases marked_dfsSyncFile hs htag hj with hnew | ⟨hold, hnot⟩ | ⟨hold, hsame⟩
    · exact .inl (.inr hnew)
    · rcases h j hold with hother | ⟨f, hf, hblock⟩
      · exact .inl (.inl hother)
      · rcases List.mem_cons.mp hf with rfl | hf
        · exact absurd hblock hnot
        · exact .inr ⟨f, hf, hblock⟩
    · rcases h j hold with hother | ⟨f, hf, hblock⟩
      · exact .inl (.inl hother)
      · rcases List.mem_cons.mp hf with rfl | hf
        · refine .inl (.inr ?_)
          rw [Set.mem_ofPred_eq, hsame]
          exact hblock
        · exact .inr ⟨f, hf, hblock⟩
  · refine ⟨.refl id d.store, fun j hj => ?_⟩
    rcases h j hj with hother | ⟨f, hf, hblock⟩
    · exact .inl (.inl hother)
    · rcases List.mem_cons.mp hf with rfl | hf
      · exact .inl (.inr hblock)
      · exact .inr ⟨f, hf, hblock⟩

/-- The visits of a chain of entries keep the accounts. -/
theorem accounted_mapAccumChain {id : PartId} {sb : Superblock} (c : List (Node CString RamfsFileInfo)) :
    ∀ {d : Disk} {others : Set ℕ}, SmallPartition d.store id →
      Superblock.decode (d.store.bytes id) = sb →
      Accounted d.store id sb others (c.map Node.value) →
      BehindRecords id d.store (mapAccumChain (syncEntry id) c d).2.store ∧
        Accounted (mapAccumChain (syncEntry id) c d).2.store id sb others
          ((mapAccumChain (syncEntry id) c d).1.map Node.value) := by
  induction c with
  | nil => exact fun _ _ h => ⟨.refl _ _, h⟩
  | cons nd c ih =>
    rintro d others hs rfl h
    obtain ⟨hbehind, hstep⟩ := accounted_syncEntry hs h
    obtain ⟨hrest, hacc⟩ := ih (hs.of_behind hbehind) hbehind.superblock_eq hstep
    refine ⟨hbehind.trans hrest, fun j hj => ?_⟩
    rw [mapAccumChain, List.map_cons]
    rcases hacc j hj with (hother | hnew) | ⟨f, hf, hblock⟩
    · exact .inl hother
    · exact .inr ⟨_, List.mem_cons_self, hnew⟩
    · exact .inr ⟨f, List.mem_cons_of_mem _ hf, hblock⟩

/-- The entries of a folder. -/
def fileEntries (f : RamfsFoder) : List RamfsFileInfo := f.fileMap.nodes.map Node.value

/-- **The loop over the files keeps the accounts.** -/
theorem accounted_syncFiles {s : Fs} {p : Ptr} {id : PartId} (hs : SmallPartition s.disk.store id)
    {others : Set ℕ}
    (h : Accounted s.disk.store id (Superblock.decode (s.disk.store.bytes id)) others
      (fileEntries (s.folders p))) :
    BehindRecords id s.disk.store (syncFiles s p id).disk.store ∧
      Accounted (syncFiles s p id).disk.store id (Superblock.decode (s.disk.store.bytes id)) others
        (fileEntries ((syncFiles s p id).folders p)) := by
  obtain ⟨hnodes, hstate⟩ := mapAccum_eq (s.folders p).fileMap (syncEntry id) s.disk
  obtain ⟨hbehind, hacc⟩ := accounted_mapAccumChain (s.folders p).fileMap.nodes hs rfl h
  rw [syncFiles_eq]
  have hentries : fileEntries (((s.modifyFolder p (·.setFileMap
      ((s.folders p).fileMap.mapAccum (syncEntry id) s.disk).1)).setDisk
        ((s.folders p).fileMap.mapAccum (syncEntry id) s.disk).2).folders p) =
      (mapAccumChain (syncEntry id) (s.folders p).fileMap.nodes s.disk).1.map Node.value := by
    rw [← hnodes, Fs.setDisk_folders, s.modifyFolder_self p]
    rfl
  rw [hentries]
  change BehindRecords id _ ((s.folders p).fileMap.mapAccum (syncEntry id) s.disk).2.store ∧
    Accounted ((s.folders p).fileMap.mapAccum (syncEntry id) s.disk).2.store id _ _ _
  rw [hstate]
  exact ⟨hbehind, hacc⟩

end LittleLinux
