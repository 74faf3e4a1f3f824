import LittleLinux.Dfs.MountTable

/-!
# Which partition a synchronisation writes to

`dfs_sync_folder` looks its mount up again at every folder, and takes the first entry of the
table as soon as the folder is the root of any mount. So everything it writes goes to the
partition of the first entry, whichever mount it is called for. `OnlyWrites id` says that all
write requests between two states of the store are addressed to `id`, and that every other
partition keeps its bytes.
-/

namespace LittleLinux

open ChainTable

/-- All writes from `st` to `st'` go to the partition `id`. -/
structure OnlyWrites (id : PartId) (st st' : Store) : Prop where
  log : ∃ ids, st'.writes = ids ++ st.writes ∧ ∀ x ∈ ids, x = id
  others : ∀ id', id' ≠ id → st'.bytes id' = st.bytes id'

namespace OnlyWrites

variable {id : PartId} {st st' st'' : Store}

theorem refl (id : PartId) (st : Store) : OnlyWrites id st st :=
  ⟨⟨[], rfl, fun _ hx => absurd hx List.not_mem_nil⟩, fun _ _ => rfl⟩

theorem trans (h : OnlyWrites id st st') (h' : OnlyWrites id st' st'') : OnlyWrites id st st'' := by
  obtain ⟨ids, hlog, hids⟩ := h.log
  obtain ⟨ids', hlog', hids'⟩ := h'.log
  refine ⟨⟨ids' ++ ids, by rw [hlog', hlog, List.append_assoc], fun x hx => ?_⟩, fun id' hne => ?_⟩
  · rcases List.mem_append.1 hx with hx | hx
    · exact hids' x hx
    · exact hids x hx
  · rw [h'.others id' hne, h.others id' hne]

/-- The log of the new requests, read off from its length. -/
theorem take (h : OnlyWrites id st st') :
    ∀ x ∈ st'.writes.take (st'.writes.length - st.writes.length), x = id := by
  obtain ⟨ids, hlog, hids⟩ := h.log
  rw [hlog, List.length_append, Nat.add_sub_cancel, List.take_left]
  exact hids

theorem read (id : PartId) (st : Store) (id' : PartId) (off : ℕ) (len : ℤ) :
    OnlyWrites id st (st.read id' off len).2 :=
  ⟨⟨[], rfl, fun _ hx => absurd hx List.not_mem_nil⟩, fun _ _ => rfl⟩

theorem write (id : PartId) (st : Store) (off : ℕ) (len : ℤ) (data : ByteMemory) :
    OnlyWrites id st (st.write id off len data).2 :=
  ⟨⟨[id], rfl, fun _ hx => List.mem_singleton.1 hx⟩, fun _ hne => Store.write_bytes_of_ne hne⟩

theorem refuse (id : PartId) (st : Store) : OnlyWrites id st (st.refuse id).2 :=
  ⟨⟨[id], rfl, fun _ hx => List.mem_singleton.1 hx⟩, fun _ _ => rfl⟩

end OnlyWrites

/-! ### Blocks and slots -/

section Blocks

variable (id : PartId)

theorem onlyWrites_cachedByte (d : Disk) (off : ℕ) :
    OnlyWrites id d.store (cachedByte d id off).2.store := by
  rw [cachedByte]
  split_ifs
  · dsimp only
    cases (readBitmapByte d.store id off).1 with
    | none => exact OnlyWrites.read id d.store id off 1
    | some v => exact OnlyWrites.read id d.store id off 1
  · exact OnlyWrites.refl id d.store

theorem onlyWrites_scanBlocks (base need remaining i start consecutive : ℕ) (d : Disk) :
    OnlyWrites id d.store (scanBlocks id base need remaining i start consecutive d).2.store := by
  induction remaining generalizing i start consecutive d with
  | zero => exact OnlyWrites.refl id d.store
  | succ remaining ih =>
    have hbyte := onlyWrites_cachedByte id d ((base + i / 8) % 2 ^ 32)
    rw [scanBlocks]
    dsimp only
    cases (cachedByte d id ((base + i / 8) % 2 ^ 32)).1 with
    | none => exact hbyte
    | some v =>
      dsimp only
      by_cases hfree : v &&& bitOf i = 0
      · rw [if_pos hfree]
        by_cases hfound : consecutive + 1 = need
        · rw [if_pos hfound]
          exact hbyte
        · rw [if_neg hfound]
          exact hbyte.trans (ih _ _ _ _)
      · rw [if_neg hfree]
        exact hbyte.trans (ih _ _ _ _)

theorem onlyWrites_markBlocks (base n block : ℕ) (st : Store) :
    OnlyWrites id st (markBlocks id base n block st).2 := by
  induction n generalizing block st with
  | zero => exact OnlyWrites.refl id st
  | succ n ih =>
    have hread := OnlyWrites.read id st id ((base + block / 8) % 2 ^ 32) 1
    rw [markBlocks]
    dsimp only
    cases (readBitmapByte st id ((base + block / 8) % 2 ^ 32)).1 with
    | none => exact hread
    | some v =>
      have hwrite := hread.trans (OnlyWrites.write id (st.read id ((base + block / 8) % 2 ^ 32) 1).2
        ((base + block / 8) % 2 ^ 32) 1 fun _ => v ||| bitOf block)
      dsimp only
      split_ifs
      · exact hwrite.trans (ih _ _)
      · exact hwrite

theorem onlyWrites_clearBlocks (base blockCount n block : ℕ) (st : Store) :
    OnlyWrites id st (clearBlocks id base blockCount n block st) := by
  induction n generalizing block st with
  | zero => exact OnlyWrites.refl id st
  | succ n ih =>
    have hread := OnlyWrites.read id st id ((base + block / 8) % 2 ^ 32) 1
    rw [clearBlocks]
    split_ifs
    · exact OnlyWrites.refl id st
    · dsimp only
      cases (readBitmapByte st id ((base + block / 8) % 2 ^ 32)).1 with
      | none => exact hread.trans (ih _ _)
      | some v => exact (hread.trans (OnlyWrites.write id _ _ 1 _)).trans (ih _ _)

theorem onlyWrites_dfsAllocFileBlocks (d : Disk) (size : ℕ) :
    OnlyWrites id d.store (dfsAllocFileBlocks d id size).2.store := by
  have hread := OnlyWrites.read id d.store id 0 sizeofSuperblock
  rw [dfsAllocFileBlocks]
  dsimp only
  cases (readSuperblock d.store id).1 with
  | none => exact hread
  | some sb =>
    dsimp only
    split_ifs
    · exact hread
    · have hscan := hread.trans (onlyWrites_scanBlocks id sb.bitmapStart (blocksFor size) sb.blockCount
        0 0 0 { d with store := (readSuperblock d.store id).2 })
      revert hscan
      generalize scanBlocks id sb.bitmapStart (blocksFor size) sb.blockCount 0 0 0
        { d with store := (readSuperblock d.store id).2 } = r
      obtain ⟨o, d'⟩ := r
      intro hscan
      cases o with
      | none => exact hscan
      | some found =>
        dsimp only
        by_cases hfound : found.2 < blocksFor size
        · rw [if_pos hfound]
          exact hscan
        · rw [if_neg hfound]
          exact hscan.trans (onlyWrites_markBlocks id _ _ _ _)

theorem onlyWrites_dfsFreeFileBlocks (st : Store) (addr size : ℕ) :
    OnlyWrites id st (dfsFreeFileBlocks st id addr size) := by
  have hread := OnlyWrites.read id st id 0 sizeofSuperblock
  rw [dfsFreeFileBlocks]
  cases (readSuperblock st id).1 with
  | none => exact hread
  | some sb =>
    dsimp only
    split_ifs
    · exact hread
    · exact hread.trans (onlyWrites_clearBlocks id _ _ _ _ _)

theorem findFolderSlot_writes (folderEnd fuel off : ℕ) (st : Store) :
    (findFolderSlot id folderEnd fuel off st).2.writes = st.writes ∧
      (findFolderSlot id folderEnd fuel off st).2.bytes = st.bytes := by
  induction fuel generalizing off st with
  | zero => exact ⟨rfl, rfl⟩
  | succ fuel ih =>
    rw [findFolderSlot]
    split_ifs
    · dsimp only
      cases (st.read id off sizeofDiskFolder).1 with
      | none => exact ih _ _
      | some b =>
        dsimp only
        split_ifs
        · exact ⟨rfl, rfl⟩
        · exact ih _ _
    · exact ⟨rfl, rfl⟩

/-- The search for a slot writes nothing. -/
theorem dfsAllocFolderSlot_writes (st : Store) :
    (dfsAllocFolderSlot st id).2.writes = st.writes ∧ (dfsAllocFolderSlot st id).2.bytes = st.bytes := by
  rw [dfsAllocFolderSlot]
  cases (readSuperblock st id).1 with
  | none => exact ⟨rfl, rfl⟩
  | some sb =>
    dsimp only
    generalize sb.bitmapStart / sizeofDiskFolder + 1 = fuel
    exact findFolderSlot_writes id _ fuel _ _

end Blocks

/-! ### Files -/

section Files

variable (id : PartId)

theorem onlyWrites_writeFileData (d : Disk) (finfo : RamfsFileInfo) (addr : ℕ) :
    OnlyWrites id d.store (writeFileData d finfo id addr).2.2.store := by
  rw [writeFileData]
  dsimp only
  cases finfo.ptr with
  | none => exact OnlyWrites.refuse id d.store
  | some buf => exact OnlyWrites.write id d.store _ _ _

theorem onlyWrites_dfsSyncFile (d : Disk) (finfo : RamfsFileInfo) :
    OnlyWrites id d.store (dfsSyncFile d finfo id).2.2.store := by
  rw [dfsSyncFile]
  dsimp only
  have hfree : OnlyWrites id d.store
      (if decide (finfo.type = RAMFS_TYPE_DIRTY ∧ finfo.driveAddr ≠ 0) = true then
        { d with
          store := dfsFreeFileBlocks d.store id (toU32 finfo.driveAddr) (toU64 finfo.length) }
      else d).store := by
    split_ifs
    · exact onlyWrites_dfsFreeFileBlocks id d.store _ _
    · exact OnlyWrites.refl id d.store
  revert hfree
  generalize (if decide (finfo.type = RAMFS_TYPE_DIRTY ∧ finfo.driveAddr ≠ 0) = true then _ else d) = d'
  intro hfree
  have halloc := hfree.trans (onlyWrites_dfsAllocFileBlocks id d' (toU64 finfo.length))
  split_ifs
  · exact OnlyWrites.refl id d.store
  · exact halloc
  · exact halloc.trans (onlyWrites_writeFileData id _ _ _)
  · exact hfree.trans (onlyWrites_writeFileData id _ _ _)

theorem onlyWrites_syncFiles (s : Fs) (p : Ptr) :
    OnlyWrites id s.disk.store (syncFiles s p id).disk.store := by
  rw [syncFiles]
  refine mapAccum_state (P := fun d : Disk => OnlyWrites id s.disk.store d.store) (fun d finfo hd => ?_) _
    (OnlyWrites.refl id _)
  split_ifs
  · exact hd.trans (onlyWrites_dfsSyncFile id d finfo)
  · exact hd

end Files

/-! ### Folders -/

section Folders

variable {s : Fs}

/-- The mount that `dfs_sync_folder` settles on is the first entry, for every folder. -/
theorem findSyncMount_eq_zero (h : RootsMarked s) {p : Ptr} {i : ℕ} (hi : findSyncMount s p = some i) :
    i = 0 := by
  rw [findSyncMount] at hi
  have hpred := List.find?_some hi
  have hlt : i < s.mountCount := List.mem_range.1 (List.mem_of_find?_eq_some hi)
  have hroot : (s.folders p).isMountRoot = true := by
    rw [Bool.or_eq_true, decide_eq_true_eq] at hpred
    rcases hpred with rfl | hroot
    · exact (h i hlt).2
    · exact hroot
  obtain ⟨n, hn⟩ : ∃ n, s.mountCount = n + 1 := Nat.exists_eq_succ_of_ne_zero (Nat.ne_of_gt
    (Nat.lt_of_le_of_lt (Nat.zero_le i) hlt))
  rw [hn, List.range_succ_eq_map, List.find?_cons_of_pos (by simp [hroot])] at hi
  exact (Option.some.inj hi).symm

/-- The root of a mount finds the first entry. -/
theorem findSyncMount_root (h : RootsMarked s) {k : ℕ} (hk : k < s.mountCount) :
    findSyncMount s (s.mountTable k).rootDir = some 0 := by
  cases hf : findSyncMount s (s.mountTable k).rootDir with
  | none =>
    rw [findSyncMount, List.find?_eq_none] at hf
    exact absurd (hf k (List.mem_range.2 hk)) (by simp)
  | some i => rw [findSyncMount_eq_zero h hf]

theorem RootsMarked.quiet {s' : Fs} (h : RootsMarked s) (hq : Quiet s s') : RootsMarked s' :=
  h.frame (hq.frame _)

theorem onlyWrites_claimSlot (s : Fs) (p : Ptr) (id : PartId) :
    OnlyWrites id s.disk.store (claimSlot s p id).2.disk.store ∧
      ∀ t, (claimSlot s p id).1 = some t → OnlyWrites id s.disk.store t.disk.store := by
  obtain ⟨hlog, hbytes⟩ := dfsAllocFolderSlot_writes id s.disk.store
  have hslot : OnlyWrites id s.disk.store (dfsAllocFolderSlot s.disk.store id).2 :=
    ⟨⟨[], hlog, fun _ hx => absurd hx List.not_mem_nil⟩, fun id' _ => congrFun hbytes id'⟩
  rw [claimSlot]
  dsimp only
  split_ifs
  · exact ⟨hslot, fun t ht => absurd ht (by simp)⟩
  · refine ⟨hslot, fun t ht => ?_⟩
    obtain rfl := Option.some.inj ht
    exact hslot
  · refine ⟨OnlyWrites.refl id _, fun t ht => ?_⟩
    obtain rfl := Option.some.inj ht
    exact OnlyWrites.refl id _

theorem onlyWrites_writeBack (s : Fs) (p : Ptr) (id : PartId) :
    OnlyWrites id s.disk.store (writeBack s p id).disk.store := by
  have hsave := OnlyWrites.write id s.disk.store (toU32 (s.folders p).driveAddr) sizeofDiskFolder
    (diskRecord (s.folders p)).encode
  rw [writeBack]
  split_ifs
  · exact hsave
  · exact hsave

/-- Everything was written to the first entry so far. -/
structure WritesFirst (s t : Fs) : Prop where
  marked : RootsMarked t
  mountTable : t.mountTable = s.mountTable
  only : OnlyWrites (s.mountTable 0).part s.disk.store t.disk.store

theorem WritesFirst.refl (h : RootsMarked s) : WritesFirst s s := ⟨h, rfl, OnlyWrites.refl _ _⟩

theorem WritesFirst.next {t u : Fs} (h : WritesFirst s t) (hq : Quiet t u)
    (hwrites : OnlyWrites (s.mountTable 0).part t.disk.store u.disk.store) : WritesFirst s u :=
  ⟨h.marked.quiet hq, hq.mountTable.trans h.mountTable, h.only.trans hwrites⟩

/-- Whatever folder it is called for, `dfs_sync_folder` finds the first entry. -/
theorem writesFirst_syncFolder (fuel : ℕ) {t : Fs} (h : WritesFirst s t) (p : Ptr) :
    WritesFirst s (syncFolder fuel t p).2 := by
  refine syncFolder_preserves (P := WritesFirst s) (Q := fun id => id = (s.mountTable 0).part)
    ?_ ?_ ?_ ?_ ?_ fuel p h
  · intro u q i hu hi
    rw [findSyncMount_eq_zero hu.marked hi, hu.mountTable]
  · rintro u q _ hu rfl
    exact hu.next (quiet_claimSlot u q _).1 (onlyWrites_claimSlot u q _).1
  · rintro u q _ v hu rfl hv
    exact hu.next ((quiet_claimSlot u q _).2 v hv) ((onlyWrites_claimSlot u q _).2 v hv)
  · rintro u q _ hu rfl
    exact hu.next (quiet_syncFiles u q _) (onlyWrites_syncFiles _ u q)
  · rintro u q _ hu rfl
    exact hu.next (quiet_writeBack u q _) (onlyWrites_writeBack u q _)

/-- **Everything goes to the first entry.** Whatever folder it is called for, `dfs_sync_folder`
writes only to the partition of the first entry of the mount table. -/
theorem onlyWrites_syncFolder (fuel : ℕ) (h : RootsMarked s) (p : Ptr) :
    OnlyWrites (s.mountTable 0).part s.disk.store (syncFolder fuel s p).2.disk.store :=
  (writesFirst_syncFolder fuel (WritesFirst.refl h) p).only

/-- The contents of a folder go to the first entry too. -/
theorem onlyWrites_syncContents (fuel : ℕ) (h : RootsMarked s) (p : Ptr) :
    OnlyWrites (s.mountTable 0).part s.disk.store
      (syncContents fuel s p (s.mountTable 0).part).disk.store := by
  refine (syncContents_preserves (P := WritesFirst s) (fun t q ht => writesFirst_syncFolder fuel ht q)
    (fun t q ht => ?_) (WritesFirst.refl h) p).only
  exact ht.next (quiet_syncFiles t q _) (onlyWrites_syncFiles _ t q)

/-- A dirty folder that has its slot is written back, its record last. -/
theorem writes_syncFolder (fuel : ℕ) {p : Ptr} {i : ℕ} {u : Fs} (hfind : findSyncMount s p = some i)
    (hdirty : IsDirtyType (s.folders p).type)
    (hclaim : (claimSlot s p (s.mountTable i).part).1 = some u) :
    (syncFolder (fuel + 1) s p).2.disk.store.writes = (s.mountTable i).part ::
      (syncContents fuel u p (s.mountTable i).part).disk.store.writes := by
  rw [syncFolder_of_dirty hfind hdirty]
  revert hclaim
  generalize claimSlot s p (s.mountTable i).part = r
  obtain ⟨o, t⟩ := r
  rintro rfl
  dsimp only
  rw [writeBack]
  split_ifs
  · rfl
  · rfl

/-- The slot of a folder is missing exactly when it is new, has no address, and there is none
left. -/
theorem claimSlot_eq_none_iff (s : Fs) (p : Ptr) (id : PartId) :
    (claimSlot s p id).1 = none ↔ (s.folders p).type = RAMFS_FOLDER_TYPE_NEW ∧
      (s.folders p).driveAddr = 0 ∧ (dfsAllocFolderSlot s.disk.store id).1 = 0 := by
  rw [claimSlot]
  dsimp only
  by_cases hnew : (s.folders p).type = RAMFS_FOLDER_TYPE_NEW ∧ (s.folders p).driveAddr = 0
  · rw [if_pos hnew]
    dsimp only
    by_cases hslot : (dfsAllocFolderSlot s.disk.store id).1 = 0
    · rw [if_pos hslot]
      exact iff_of_true rfl ⟨hnew.1, hnew.2, hslot⟩
    · rw [if_neg hslot]
      exact iff_of_false (by simp) fun h => hslot h.2.2
  · rw [if_neg hnew]
    exact iff_of_false (by simp) fun h => hnew ⟨h.1, h.2.1⟩

/-- Synchronising the tree of mount `k` writes only to its partition. -/
def SyncIsolated (s : Fs) (k : ℕ) : Prop :=
  OnlyWrites (s.mountTable k).part s.disk.store
    (dfsSyncFolder s (s.mountTable k).rootDir).2.disk.store

/-- A folder that is not dirty, or gets no slot, is not written. -/
theorem onlyWrites_of_clean (h : RootsMarked s) {k : ℕ} (hk : k < s.mountCount) (id : PartId)
    (hclean : ¬IsDirtyType (s.folders (s.mountTable k).rootDir).type ∨
      (claimSlot s (s.mountTable k).rootDir (s.mountTable 0).part).1 = none) :
    OnlyWrites id s.disk.store (dfsSyncFolder s (s.mountTable k).rootDir).2.disk.store := by
  by_cases hdirty : IsDirtyType (s.folders (s.mountTable k).rootDir).type
  · have hnone := hclean.resolve_left (not_not.2 hdirty)
    obtain ⟨hnew, haddr, hslot⟩ := (claimSlot_eq_none_iff s _ _).1 hnone
    obtain ⟨hlog, hbytes⟩ := dfsAllocFolderSlot_writes (s.mountTable 0).part s.disk.store
    rw [dfsSyncFolder, syncFolder_of_dirty (findSyncMount_root h hk) hdirty, claimSlot,
      if_pos ⟨hnew, haddr⟩]
    dsimp only
    rw [if_pos hslot]
    exact ⟨⟨[], hlog, fun _ hx => absurd hx List.not_mem_nil⟩, fun id' _ => congrFun hbytes id'⟩
  · rw [dfsSyncFolder, syncFolder_of_clean (.inl hdirty)]
    exact OnlyWrites.refl id _

/-- **When a synchronisation keeps to its partition.** In a table of mounts on different
partitions, synchronising mount `k` writes only to its partition exactly when `k` is the first
entry, or nothing is written at all: the root is not dirty, or it is a new folder without an
address and the first partition has no slot for it. -/
theorem dfsSyncFolder_isolated_iff (s : Fs) (hroots : RootsMarked s)
    (hparts : ∀ i < s.mountCount, ∀ j < s.mountCount,
      (s.mountTable i).part = (s.mountTable j).part → i = j) (k : ℕ) (hk : k < s.mountCount) :
    SyncIsolated s k ↔ k = 0 ∨ ¬IsDirtyType (s.folders (s.mountTable k).rootDir).type ∨
      ((s.folders (s.mountTable k).rootDir).type = RAMFS_FOLDER_TYPE_NEW ∧
        (s.folders (s.mountTable k).rootDir).driveAddr = 0 ∧
        (dfsAllocFolderSlot s.disk.store (s.mountTable 0).part).1 = 0) := by
  rw [← claimSlot_eq_none_iff]
  constructor
  · intro h
    by_contra hnot
    rw [not_or, not_or, not_not] at hnot
    obtain ⟨hne, hdirty, hslot⟩ := hnot
    obtain ⟨u, hu⟩ := Option.ne_none_iff_exists'.1 hslot
    -- the record is the last thing that is written, and goes to the first partition
    have hlast := writes_syncFolder s.mem.next (findSyncMount_root hroots hk) hdirty hu
    have hq := (quiet_claimSlot s (s.mountTable k).rootDir (s.mountTable 0).part).2 u hu
    have hcontents := onlyWrites_syncContents s.mem.next (hroots.quiet hq) (s.mountTable k).rootDir
    rw [congrFun hq.mountTable 0] at hcontents
    obtain ⟨ids, hlog, hids⟩ := h.log
    obtain ⟨ids₀, hlog₀, -⟩ :=
      (((onlyWrites_claimSlot s (s.mountTable k).rootDir (s.mountTable 0).part).2 u hu).trans
        hcontents).log
    rw [hlog₀, ← List.cons_append] at hlast
    have hcons : ids = (s.mountTable 0).part :: ids₀ :=
      List.append_cancel_right (hlog.symm.trans hlast)
    have hpart := hids (s.mountTable 0).part (hcons ▸ List.mem_cons_self)
    exact hne (hparts 0 (Nat.lt_of_le_of_lt (Nat.zero_le k) hk) k hk hpart).symm
  · rintro (rfl | hclean)
    · exact onlyWrites_syncFolder _ hroots _
    · exact onlyWrites_of_clean hroots hk _ hclean

end Folders

/-! ### Two partitions -/

def part1 : PartId := ⟨0, 1⟩

/-- Two formatted partitions, mounted on `/a` and `/b`, and a new file on the second. -/
def twoPartsState : Fs :=
  [FsOp.mkdir (.ofBytes [97]) none, .mkdir (.ofBytes [98]) none,
    .mount (.ofBytes [47, 97]) part0, .mount (.ofBytes [47, 98]) part1,
    .touch (.ofBytes [102]) (some (.ofBytes [47, 98, 47, 98]))].foldl fsStep
      (initState ampleMemory ([part0, part1].foldl formatStep (ampleMemory, bootDisk.store)).2)

theorem twoPartsState_parts : ∀ i < twoPartsState.mountCount, ∀ j < twoPartsState.mountCount,
    (twoPartsState.mountTable i).part = (twoPartsState.mountTable j).part → i = j := by
  rw [show twoPartsState.mountCount = 2 by decide +kernel]
  have hparts : (twoPartsState.mountTable 0).part = part0 ∧ (twoPartsState.mountTable 1).part = part1 := by
    decide +kernel
  intro i hi j hj h
  interval_cases i <;> interval_cases j
  · rfl
  · rw [hparts.1, hparts.2] at h
    exact absurd h (by decide)
  · rw [hparts.1, hparts.2] at h
    exact absurd h (by decide)
  · rfl

theorem dfsSyncFolder_isolated_iff_twoParts :
    0 < twoPartsState.mountCount ∧ SyncIsolated twoPartsState 0 :=
  ⟨by decide +kernel, (dfsSyncFolder_isolated_iff twoPartsState (rootsMarked_run _ _ _)
    twoPartsState_parts 0 (by decide +kernel)).2 (.inl rfl)⟩

/-- Synchronising the second mount writes its root to the first partition. -/
theorem dfsSyncFolder_writes_first_partition :
    ¬∀ (s : Fs) (k : ℕ), RootsMarked s → (∀ i < s.mountCount, ∀ j < s.mountCount,
      (s.mountTable i).part = (s.mountTable j).part → i = j) → k < s.mountCount → SyncIsolated s k := by
  intro h
  have hiso := h twoPartsState 1 (rootsMarked_run _ _ _) twoPartsState_parts (by decide +kernel)
  exact absurd hiso.take (by decide +kernel)

end LittleLinux
