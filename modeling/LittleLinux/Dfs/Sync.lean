import LittleLinux.Dfs.Folder

/-!
# Synchronisation

`dfs_sync_file`, `dfs_alloc_folder_slot`, `dfs_sync_folder` and `dfs_sync_all`. The recursion of
`dfs_sync_folder` follows the subfolder pointers; it is bounded by the number of objects that
were ever allocated, which no chain of distinct folders exceeds.

The tags are compared as the source compares them. In particular `dfs_sync_file` takes a file
whose tag is `RAMFS_FOLDER_TYPE_DISK_CLEAN` for one that needs no writing, and that number is
`RAMFS_TYPE_NEW`.
-/

namespace LittleLinux

/-! ### Files -/

/-- The write at the end of `dfs_sync_file`: the data of the entry goes to `addr`. -/
def writeFileData (d : Disk) (finfo : RamfsFileInfo) (id : PartId) (addr : ℕ) :
    ℤ × RamfsFileInfo × Disk :=
  let w := match finfo.ptr with
    | some buf => d.store.write id addr (toI32 finfo.length) fun i => buf.bytes.getD i 0
    | none => d.store.refuse id
  (if w.1 then 0 else -3,
    if w.1 then { finfo with type := RAMFS_FOLDER_TYPE_DISK_CLEAN } else finfo,
    { d with store := w.2 })

/-- `dfs_sync_file`. -/
def dfsSyncFile (d : Disk) (finfo : RamfsFileInfo) (id : PartId) : ℤ × RamfsFileInfo × Disk :=
  if finfo.length = 0 ∨ finfo.type = RAMFS_FOLDER_TYPE_DISK_CLEAN then (0, finfo, d)
  else
    -- a changed file gives its old blocks back first, by its present length
    let release := decide (finfo.type = RAMFS_TYPE_DIRTY ∧ finfo.driveAddr ≠ 0)
    let d := if release then
        { d with
          store := dfsFreeFileBlocks d.store id (toU32 finfo.driveAddr) (toU64 finfo.length) }
      else d
    if release ∨ toU32 finfo.driveAddr = 0 then
      let a := dfsAllocFileBlocks d id (toU64 finfo.length)
      if a.1 = 0 then (-2, finfo, a.2)
      else writeFileData a.2 { finfo with driveAddr := toI32 a.1 } id a.1
    else writeFileData d finfo id (toU32 finfo.driveAddr)

/-! ### Folder slots -/

/-- The scan for a record that is not in use, from `offset` on. -/
def findFolderSlot (id : PartId) (folderEnd : ℕ) : (fuel offset : ℕ) → Store → ℕ × Store
  | 0, _, st => (0, st)
  | fuel + 1, offset, st =>
    if (offset + sizeofDiskFolder) % 2 ^ 32 ≤ folderEnd then
      let r := st.read id offset sizeofDiskFolder
      match r.1 with
      | some b =>
        if (DiskFolder.decode b).used = 0 then (offset, r.2)
        else findFolderSlot id folderEnd fuel ((offset + sizeofDiskFolder) % 2 ^ 32) r.2
      | none => findFolderSlot id folderEnd fuel ((offset + sizeofDiskFolder) % 2 ^ 32) r.2
    else (0, st)

/-- `dfs_alloc_folder_slot`. The fuel is the number of records that fit below the bitmap. -/
def dfsAllocFolderSlot (st : Store) (id : PartId) : ℕ × Store :=
  let r := readSuperblock st id
  match r.1 with
  | none => (0, r.2)
  | some sb =>
    findFolderSlot id sb.bitmapStart (sb.bitmapStart / sizeofDiskFolder + 1) sb.rootPointer r.2

/-! ### Folders -/

/-- The mount that `dfs_sync_folder` settles on: the first entry whose root is the folder, or
the first entry at all when the folder is the root of some mount. -/
def findSyncMount (s : Fs) (p : Ptr) : Option ℕ :=
  (List.range s.mountCount).find? fun i =>
    decide ((s.mountTable i).rootDir = p) || (s.folders p).isMountRoot

/-- The loop of `dfs_sync_folder` over the files of a folder. -/
def syncFiles (s : Fs) (p : Ptr) (id : PartId) : Fs :=
  let r := (s.folders p).fileMap.mapAccum
    (fun d finfo => if IsDirtyTag finfo.type then (dfsSyncFile d finfo id).2 else (finfo, d)) s.disk
  (s.modifyFolder p (·.setFileMap r.1)).setDisk r.2

/-- The slot that a new folder takes; `none` when there is none left. -/
def claimSlot (s : Fs) (p : Ptr) (id : PartId) : Option Fs × Fs :=
  let f := s.folders p
  if f.type = RAMFS_FOLDER_TYPE_NEW ∧ f.driveAddr = 0 then
    let a := dfsAllocFolderSlot s.disk.store id
    let s := s.setStore a.2
    (if a.1 = 0 then none else some (s.modifyFolder p (·.setDriveAddr a.1)), s)
  else (some s, s)

/-- `dfs_sync_folder`, with a bound on the depth of its recursion. -/
def syncFolder : ℕ → Fs → Ptr → ℤ × Fs
  | 0, s, _ => (0, s)
  | fuel + 1, s, p =>
    if (s.folders p).type = RAMFS_FOLDER_TYPE_MEM then (0, s)
    else
      match findSyncMount s p with
      | none => (-1, s)
      | some i =>
        let id := (s.mountTable i).part
        if IsDirtyType (s.folders p).type then
          match claimSlot s p id with
          | (none, s) => (-2, s)
          | (some s, _) =>
            let s := (s.folders p).foderMap.nodes.foldl (fun s nd =>
              if IsDirtyType (s.folders nd.value.ptr).type then (syncFolder fuel s nd.value.ptr).2
              else s) s
            let s := syncFiles s p id
            let w := dfsSaveFolderToDisk s p id
            (0, if w.1 then w.2.modifyFolder p (·.setType RAMFS_FOLDER_TYPE_DISK_CLEAN) else w.2)
        else (0, s)

/-- `dfs_sync_folder`. -/
def dfsSyncFolder (s : Fs) (p : Ptr) : ℤ × Fs := syncFolder (s.mem.next + 1) s p

/-- `dfs_sync_all`. -/
def dfsSyncAll (s : Fs) : Fs :=
  (List.range s.mountCount).foldl (fun s i => (dfsSyncFolder s (s.mountTable i).rootDir).2) s

/-! ### What a synchronisation does -/

/-- The middle of `dfs_sync_folder`: the dirty subfolders, and then the files. -/
def syncContents (fuel : ℕ) (s : Fs) (p : Ptr) (id : PartId) : Fs :=
  syncFiles ((s.folders p).foderMap.nodes.foldl (fun s nd =>
    if IsDirtyType (s.folders nd.value.ptr).type then (syncFolder fuel s nd.value.ptr).2 else s) s) p id

/-- The end of `dfs_sync_folder`: the record is written, and the folder is clean when that
succeeded. -/
def writeBack (s : Fs) (p : Ptr) (id : PartId) : Fs :=
  let w := dfsSaveFolderToDisk s p id
  if w.1 then w.2.modifyFolder p (·.setType RAMFS_FOLDER_TYPE_DISK_CLEAN) else w.2

theorem not_mem_of_dirty {t : UInt8} (h : IsDirtyType t) : t ≠ RAMFS_FOLDER_TYPE_MEM := by
  rintro rfl
  exact absurd h (by decide)

section Rules

variable {s : Fs} {p : Ptr}

/-- A folder without changes, or without a mount, is left alone. -/
theorem syncFolder_of_clean (h : ¬ IsDirtyType (s.folders p).type ∨ findSyncMount s p = none)
    (fuel : ℕ) : (syncFolder fuel s p).2 = s := by
  rcases fuel with _ | fuel
  · rfl
  rw [syncFolder]
  by_cases hmem : (s.folders p).type = RAMFS_FOLDER_TYPE_MEM
  · rw [if_pos hmem]
  rw [if_neg hmem]
  rcases hfind : findSyncMount s p with _ | i
  · rfl
  · dsimp only
    rw [if_neg (h.resolve_right (by simp [hfind]))]

/-- A dirty folder gets its slot, or is given up; its contents are written back, and its record
last. -/
theorem syncFolder_of_dirty {i : ℕ} (hi : findSyncMount s p = some i)
    (hdirty : IsDirtyType (s.folders p).type) (fuel : ℕ) :
    syncFolder (fuel + 1) s p =
      match claimSlot s p (s.mountTable i).part with
      | (none, t) => (-2, t)
      | (some u, _) =>
        (0, writeBack (syncContents fuel u p (s.mountTable i).part) p (s.mountTable i).part) := by
  rw [syncFolder, if_neg (not_mem_of_dirty hdirty), hi]
  dsimp only
  rw [if_pos hdirty]
  rfl

/-- **What one call does**: nothing, or it claims a slot in vain, or it writes the folder back. -/
theorem syncFolder_cases (fuel : ℕ) (s : Fs) (p : Ptr) :
    (syncFolder (fuel + 1) s p).2 = s ∨ ∃ i, findSyncMount s p = some i ∧
      IsDirtyType (s.folders p).type ∧
      ((syncFolder (fuel + 1) s p).2 = (claimSlot s p (s.mountTable i).part).2 ∨
        ∃ u, (claimSlot s p (s.mountTable i).part).1 = some u ∧ (syncFolder (fuel + 1) s p).2 =
          writeBack (syncContents fuel u p (s.mountTable i).part) p (s.mountTable i).part) := by
  by_cases hclean : ¬ IsDirtyType (s.folders p).type ∨ findSyncMount s p = none
  · exact .inl (syncFolder_of_clean hclean _)
  rw [not_or, not_not] at hclean
  obtain ⟨i, hi⟩ := Option.ne_none_iff_exists'.mp hclean.2
  refine .inr ⟨i, hi, hclean.1, ?_⟩
  rw [syncFolder_of_dirty hi hclean.1]
  generalize claimSlot s p (s.mountTable i).part = r
  obtain ⟨o, t⟩ := r
  cases o with
  | none => exact .inl rfl
  | some u => exact .inr ⟨u, rfl, rfl⟩

/-- Subfolders without changes are left alone. -/
theorem foldl_syncFolder_of_clean (fuel : ℕ) {l : List (ChainTable.Node CString RamfsFoderInfo)}
    (hl : ∀ nd ∈ l, ¬ IsDirtyType (s.folders nd.value.ptr).type ∨
      findSyncMount s nd.value.ptr = none) :
    l.foldl (fun s nd =>
      if IsDirtyType (s.folders nd.value.ptr).type then (syncFolder fuel s nd.value.ptr).2
      else s) s = s := by
  induction l with
  | nil => rfl
  | cons nd l ih =>
    rw [List.foldl_cons, syncFolder_of_clean (hl nd List.mem_cons_self), ite_self]
    exact ih fun nd' hnd' => hl nd' (List.mem_cons_of_mem _ hnd')

/-- The contents of a folder keep what the calls for the subfolders and the files keep. -/
theorem syncContents_preserves {P : Fs → Prop} {fuel : ℕ} {id : PartId}
    (hfolder : ∀ s p, P s → P (syncFolder fuel s p).2) (hfiles : ∀ s p, P s → P (syncFiles s p id))
    (hs : P s) (p : Ptr) : P (syncContents fuel s p id) := by
  refine hfiles _ p ?_
  generalize (s.folders p).foderMap.nodes = l
  induction l generalizing s with
  | nil => exact hs
  | cons nd l ih =>
    rw [List.foldl_cons]
    split_ifs
    · exact ih (hfolder s nd.value.ptr hs)
    · exact ih hs

/-- **What every part of a synchronisation keeps, the whole keeps.** `Q` holds of the partitions that
are written to. -/
theorem syncFolder_preserves {P : Fs → Prop} {Q : PartId → Prop}
    (hid : ∀ s p i, P s → findSyncMount s p = some i → Q (s.mountTable i).part)
    (hfail : ∀ s p id, P s → Q id → P (claimSlot s p id).2)
    (hclaim : ∀ s p id u, P s → Q id → (claimSlot s p id).1 = some u → P u)
    (hfiles : ∀ s p id, P s → Q id → P (syncFiles s p id))
    (hback : ∀ s p id, P s → Q id → P (writeBack s p id)) (fuel : ℕ) (p : Ptr) (hs : P s) :
    P (syncFolder fuel s p).2 := by
  induction fuel generalizing s p with
  | zero => exact hs
  | succ fuel ih =>
    obtain hsame | ⟨i, hi, -, hfailed | ⟨u, hu, hwritten⟩⟩ := syncFolder_cases fuel s p
    · rwa [hsame]
    · rw [hfailed]
      exact hfail s p _ hs (hid s p i hs hi)
    · have hpart := hid s p i hs hi
      rw [hwritten]
      refine hback _ p _ ?_ hpart
      exact syncContents_preserves (fun s p hs => ih p hs) (fun s p hs => hfiles s p _ hs hpart)
        (hclaim s p _ u hs hpart hu) p

end Rules

end LittleLinux
