import LittleLinux.Dfs.FailedLoad
import LittleLinux.Ramfs.Directory

/-!
# The allocator along a run

Which allocations are granted is decided by the pattern of the allocator alone. No call of the file
system replaces it (`grants_fsStep`), so an allocator that never fails goes on never to fail.
-/

namespace LittleLinux

open ChainTable

variable {s : Fs} {dir : Ptr}

/-! ### Tables -/

theorem NamedTable.grants_delete {V : Type} (T : NamedTable V) (mem : Memory)
    (map : Table BUCKETS CString V) (key : CString) : (T.delete mem map key).2.2.grants = mem.grants := by
  rw [NamedTable.delete]
  dsimp only
  cases findNode T.streq djb2Bucket map key with
  | none => rfl
  | some nd => rfl

theorem grants_tableDestroy {V : Type} (mem : Memory) (map : Table BUCKETS CString V) :
    (tableDestroy mem map).2.grants = mem.grants := by
  rw [tableDestroy]
  dsimp only
  generalize map.nodes = l
  induction l generalizing mem with
  | nil => rfl
  | cons nd l ih => exact ih (mem.free nd.addr)

theorem grants_freeData (mem : Memory) (info : RamfsFileInfo) :
    (freeData mem info).grants = mem.grants := by
  rw [freeData.eq_def]
  cases info.ptr with
  | none => rfl
  | some buf => rfl

/-! ### Loading -/

theorem grants_addSubfolder (s : Fs) (dir sub : Ptr) (node : RamfsFoder) (info : RamfsFoderInfo) :
    (addSubfolder s dir sub node info).mem.grants = s.mem.grants := by
  rw [addSubfolder, Fs.setMem_mem]
  exact foderTable.grants_insert _ _ _ _

theorem grants_loadSubfolders (known : Bool) (mount : Option ℕ) (parent : Option Ptr) (dir : Ptr)
    (es : List DiskFoderInfo) (s : Fs) :
    (loadSubfolders known mount parent dir es s).2.mem.grants = s.mem.grants := by
  induction es generalizing s with
  | nil => rfl
  | cons e es ih =>
    have hmalloc := s.mem.grants_malloc sizeofRamfsFoder
    rw [loadSubfolders]
    split_ifs
    · exact ih s
    · dsimp only
      cases (s.mem.malloc sizeofRamfsFoder).1 with
      | none => exact hmalloc
      | some sub => exact (ih _).trans ((grants_addSubfolder _ _ _ _ _).trans hmalloc)

theorem grants_loadFiles (known : Bool) (dir : Ptr) (es : List DiskFileInfo) (s : Fs) :
    (loadFiles known dir es s).mem.grants = s.mem.grants := by
  induction es generalizing s with
  | nil => rfl
  | cons e es ih =>
    rw [loadFiles]
    split_ifs
    · exact ih s
    · refine (ih _).trans ?_
      rw [addFile, Fs.setMem_mem]
      exact fileTable.grants_insert _ _ _ _

theorem grants_dfsLoadFolderChildren (s : Fs) (dir : Ptr) :
    (dfsLoadFolderChildren s dir).2.mem.grants = s.mem.grants := by
  rw [dfsLoadFolderChildren]
  dsimp only
  split_ifs
  · rfl
  · rfl
  · cases (s.folders dir).mount with
    | none => rfl
    | some m =>
      dsimp only
      cases (s.disk.store.read (s.mountTable m).part (toU32 (s.folders dir).driveAddr)
        sizeofDiskFolder).1 with
      | none => rfl
      | some b =>
        dsimp only
        split_ifs
        · rfl
        · exact grants_loadSubfolders _ _ _ _ _ _
        · exact (grants_loadFiles _ _ _ _).trans (grants_loadSubfolders _ _ _ _ _ _)

theorem grants_dfsLoadFolderFromDisk (s : Fs) (dir : Ptr) (id : PartId) (off : ℕ) :
    (dfsLoadFolderFromDisk s dir id off).2.mem.grants = s.mem.grants := by
  rw [dfsLoadFolderFromDisk]
  dsimp only
  cases (s.disk.store.read id off sizeofDiskFolder).1 with
  | none => rfl
  | some b =>
    dsimp only
    split_ifs
    · rfl
    · exact grants_loadSubfolders _ _ _ _ _ _
    · exact (grants_loadFiles _ _ _ _).trans (grants_loadSubfolders _ _ _ _ _ _)

theorem grants_lazyLoadDirectory (s : Fs) (dir : Ptr) :
    (lazyLoadDirectory s dir).mem.grants = s.mem.grants := by
  rw [lazyLoadDirectory]
  split_ifs
  · exact grants_dfsLoadFolderChildren s dir
  · rfl

theorem grants_dfsLoadFileData (mem : Memory) (st : Store) (info : RamfsFileInfo) (id : PartId) :
    (dfsLoadFileData mem st info id).2.2.1.grants = mem.grants := by
  have hmalloc := mem.grants_malloc (toU32 info.length)
  rw [dfsLoadFileData]
  split_ifs
  · rfl
  · dsimp only
    cases (mem.malloc (toU32 info.length)).1 with
    | none => exact hmalloc
    | some data =>
      dsimp only
      cases (st.read id (toU64 info.driveAddr) (toI32 info.length)).1 with
      | none => exact hmalloc
      | some b => exact hmalloc

theorem grants_loadData (s : Fs) (dir : Ptr) (name : CString) (info : RamfsFileInfo) :
    (loadData s dir name info).2.mem.grants = s.mem.grants := by
  rw [loadData]
  cases (s.folders dir).mount with
  | none => rfl
  | some m => exact grants_dfsLoadFileData _ _ _ _

/-! ### The calls -/

theorem grants_mkdirIn (s : Fs) (dir : Ptr) (name : CString) :
    (mkdirIn s dir name).2.mem.grants = s.mem.grants := by
  rw [← grants_lazyLoadDirectory s dir, mkdirIn]
  dsimp only
  generalize lazyLoadDirectory s dir = u
  generalize (if (u.folders dir).mount = none then RAMFS_FOLDER_TYPE_MEM else RAMFS_FOLDER_TYPE_NEW) =
    type
  have hmalloc := u.mem.grants_malloc sizeofRamfsFoder
  split_ifs
  · rfl
  · rfl
  · cases (u.mem.malloc sizeofRamfsFoder).1 with
    | none => exact hmalloc
    | some newDir =>
      dsimp only
      split_ifs
      all_goals exact (foderTable.grants_insert _ _ _ ⟨name, type, newDir, 0⟩).trans hmalloc

theorem grants_rmdirIn (s : Fs) (dir : Ptr) (name : CString) :
    (rmdirIn s dir name).2.mem.grants = s.mem.grants := by
  rw [← grants_lazyLoadDirectory s dir, rmdirIn]
  dsimp only
  generalize lazyLoadDirectory s dir = u
  cases ramfsHashmapFind (u.folders dir).foderMap name with
  | none => rfl
  | some info =>
    dsimp only
    split_ifs
    · rfl
    · exact (grants_tableDestroy _ _).trans
        ((grants_tableDestroy _ _).trans (foderTable.grants_delete _ _ _))

theorem grants_touchIn (s : Fs) (dir : Ptr) (name : CString) :
    (touchIn s dir name).2.mem.grants = s.mem.grants := by
  rw [← grants_lazyLoadDirectory s dir, touchIn]
  dsimp only
  generalize lazyLoadDirectory s dir = u
  generalize (if (u.folders dir).mount = none then RAMFS_TYPE_MEM else RAMFS_TYPE_NEW) = type
  split_ifs
  · rfl
  · rfl
  all_goals exact fileTable.grants_insert _ _ _ ⟨name, type, 0, none, 0⟩

theorem grants_rmIn (s : Fs) (dir : Ptr) (name : CString) :
    (rmIn s dir name).2.mem.grants = s.mem.grants := by
  rw [← grants_lazyLoadDirectory s dir, rmIn]
  dsimp only
  generalize lazyLoadDirectory s dir = u
  cases ramfsFileHashmapFind (u.folders dir).fileMap name with
  | none => rfl
  | some info =>
    dsimp only
    split_ifs
    all_goals exact (fileTable.grants_delete _ _ _).trans (grants_freeData _ _)

theorem grants_writeIn (s : Fs) (dir : Ptr) (name : CString) (data : Data) :
    (writeIn s dir name data).2.mem.grants = s.mem.grants := by
  rw [← grants_lazyLoadDirectory s dir, writeIn]
  dsimp only
  generalize lazyLoadDirectory s dir = u
  cases ramfsFileHashmapFind (u.folders dir).fileMap name with
  | none => rfl
  | some info =>
    dsimp only
    split_ifs
    all_goals exact (Memory.grants_malloc _ _).trans (grants_freeData _ _)

theorem grants_catIn (s : Fs) (dir : Ptr) (name : CString) :
    (catIn s dir name).2.mem.grants = s.mem.grants := by
  rw [← grants_lazyLoadDirectory s dir]
  rcases catIn_cases (rfl : lazyLoadDirectory s dir = _) name with heq | ⟨info, text, -, heq⟩
  · rw [heq]
  · rw [heq]
    exact grants_loadData _ _ _ _

theorem grants_cutFile (s : Fs) (dir : Ptr) (name : CString) (info : RamfsFileInfo) (count : ℤ) :
    (cutFile s dir name info count).2.mem.grants = s.mem.grants := by
  rw [cutFile]
  dsimp only
  generalize (if count > info.length then toI32 info.length else count) = n
  have hmalloc := s.mem.grants_malloc (toU32 (info.length - n))
  split_ifs
  · rfl
  · exact grants_freeData _ _
  · cases (s.mem.malloc (toU32 (info.length - n))).1 with
    | none => exact hmalloc
    | some q => exact (grants_freeData _ _).trans hmalloc

theorem grants_backspaceIn (s : Fs) (dir : Ptr) (name : CString) (count : ℤ) :
    (backspaceIn s dir name count).2.mem.grants = s.mem.grants := by
  rw [← grants_lazyLoadDirectory s dir, backspaceIn]
  dsimp only
  generalize lazyLoadDirectory s dir = u
  cases ramfsFileHashmapFind (u.folders dir).fileMap name with
  | none => rfl
  | some info =>
    have hload := grants_loadData u dir name info
    dsimp only
    generalize loadData u dir name info = l at hload
    split_ifs
    · exact hload
    · cases ramfsFileHashmapFind (l.2.folders dir).fileMap name with
      | none => exact hload
      | some info => exact (grants_cutFile _ _ _ _ _).trans hload

/-- A synchronisation allocates nothing. -/
theorem mem_syncFolder (fuel : ℕ) (s : Fs) (p : Ptr) : (syncFolder fuel s p).2.mem = s.mem := by
  refine syncFolder_preserves (P := fun t => t.mem = s.mem) (Q := fun _ => True)
    (fun _ _ _ _ _ => trivial) ?_ ?_ (fun t q id ht _ => ht) ?_ fuel p rfl
  · intro t q id ht _
    rw [claimSlot]
    dsimp only
    split_ifs <;> exact ht
  · intro t q id u ht _ hu
    rw [claimSlot] at hu
    dsimp only at hu
    split_ifs at hu
    · obtain rfl := Option.some.inj hu
      exact ht
    · obtain rfl := Option.some.inj hu
      exact ht
  · intro t q id ht _
    rw [writeBack, dfsSaveFolderToDisk]
    dsimp only
    split_ifs <;> exact ht

theorem grants_attachRoot (s : Fs) (dir rootDir : Ptr) (path : CString) (id : PartId) (addr : ℤ) :
    (attachRoot s dir rootDir path id addr).2.mem.grants = s.mem.grants := by
  obtain ⟨ins, hins, ⟨-, heq⟩ | ⟨-, heq⟩⟩ := attachRoot_cases s dir rootDir path id addr
  all_goals
    rw [heq, hins]
    exact foderTable.grants_insert _ _ _ ⟨lastComponent path, RAMFS_FOLDER_TYPE_DISK_CLEAN, rootDir, addr⟩

theorem grants_dfsMount (s : Fs) (path : CString) (id : PartId) :
    (dfsMount s path id).2.mem.grants = s.mem.grants := by
  have hmalloc := s.mem.grants_malloc sizeofRamfsFoder
  rw [dfsMount]
  cases ramfsGetDirByAbsPath s path with
  | none => rfl
  | some dir =>
    dsimp only
    split_ifs
    · rfl
    cases (readSuperblock s.disk.store id).1 with
    | none => rfl
    | some sb =>
      dsimp only
      split_ifs
      · rfl
      cases (s.mem.malloc sizeofRamfsFoder).1 with
      | none => exact hmalloc
      | some root =>
        dsimp only
        generalize ht : ((s.setStore (readSuperblock s.disk.store id).2).setMem
          (s.mem.malloc sizeofRamfsFoder).2).setFolder root RamfsFoder.zero = t
        have hload : (dfsLoadFolderFromDisk t root id sb.rootPointer).2.mem.grants = s.mem.grants := by
          rw [grants_dfsLoadFolderFromDisk, ← ht]
          exact hmalloc
        generalize dfsLoadFolderFromDisk t root id sb.rootPointer = l at hload
        by_cases hok : l.1 ≠ 0
        · rw [if_pos hok]
          exact hload
        rw [if_neg hok]
        exact (grants_attachRoot (markRoot l.2 root l.2.mountCount) dir root path id
          (toI32 sb.rootPointer)).trans hload

theorem grants_freeFolderTree (fuel : ℕ) (s : Fs) (p : Ptr) :
    (freeFolderTree fuel s p).mem.grants = s.mem.grants := by
  induction fuel generalizing s p with
  | zero => rfl
  | succ fuel ih =>
    have hkids : ∀ (l : List (Node CString RamfsFoderInfo)) (s : Fs),
        (l.foldl (fun s nd => freeFolderTree fuel s nd.value.ptr) s).mem.grants = s.mem.grants := by
      intro l
      induction l with
      | nil => exact fun _ => rfl
      | cons nd l ihl => exact fun s => (ihl _).trans (ih s nd.value.ptr)
    have hfiles : ∀ (l : List (Node CString RamfsFileInfo)) (mem : Memory),
        (l.foldl (fun m nd => freeData m nd.value) mem).grants = mem.grants := by
      intro l
      induction l with
      | nil => exact fun _ => rfl
      | cons nd l ihl => exact fun mem => (ihl _).trans (grants_freeData mem nd.value)
    rw [freeFolderTree]
    exact (grants_tableDestroy _ _).trans ((grants_tableDestroy _ _).trans
      ((hfiles _ _).trans (hkids _ s)))

theorem grants_dfsUmount (s : Fs) (path : CString) :
    (dfsUmount s path).2.mem.grants = s.mem.grants := by
  rw [dfsUmount]
  cases (List.range s.mountCount).find? fun i => streq (s.mountTable i).path path with
  | none => rfl
  | some idx =>
    have hsync : (dfsSyncFolder s (s.mountTable idx).rootDir).2.mem = s.mem := mem_syncFolder _ s _
    dsimp only
    generalize (dfsSyncFolder s (s.mountTable idx).rootDir).2 = t at hsync
    rw [← hsync]
    refine (grants_freeFolderTree _ _ _).trans ?_
    cases ramfsGetDirByAbsPath t (umountParent (s.mountTable idx).path).1 with
    | none => rfl
    | some dir => exact foderTable.grants_delete _ _ _

/-- **No call changes the pattern.** -/
theorem grants_fsStep (s : Fs) (op : FsOp) : (fsStep s op).mem.grants = s.mem.grants := by
  obtain ⟨r, hcase, hstep⟩ := fsStep_cases s op
  rw [hstep]
  cases hcase with
  | refused => rfl
  | mkdir => exact grants_mkdirIn s _ _
  | cd => rfl
  | rm => exact grants_rmIn s _ _
  | rmdir => exact grants_rmdirIn s _ _
  | touch => exact grants_touchIn s _ _
  | write => exact grants_writeIn s _ _ _
  | cat => exact grants_catIn s _ _
  | backspace => exact grants_backspaceIn s _ _ _
  | syncFolder p => exact congrArg Memory.grants (mem_syncFolder _ s p)
  | syncAll =>
    dsimp only
    rw [dfsSyncAll]
    clear hstep
    generalize List.range s.mountCount = l
    induction l generalizing s with
    | nil => rfl
    | cons i l ih => exact (ih _).trans (congrArg Memory.grants (mem_syncFolder _ s _))
  | mount path id => exact grants_dfsMount s path id
  | umount path => exact grants_dfsUmount s path

theorem grants_run (s : Fs) (ops : List FsOp) : (ops.foldl fsStep s).mem.grants = s.mem.grants := by
  induction ops generalizing s with
  | nil => rfl
  | cons op ops ih => exact (ih _).trans (grants_fsStep s op)

end LittleLinux
