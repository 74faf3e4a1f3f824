import LittleLinux.Dfs.Accounts
import LittleLinux.Dfs.Dirty
import LittleLinux.Dfs.TableLaws

/-!
# Which histories leak blocks

A folder of a mounted disk, and runs of calls on its files with syncs in between.
`blocksAccounted_run` says that every marked block belongs to a file in every state of a run in
which no call takes a marked block out of the extent of its file. That is what `fs_rm` does with
every file that has blocks, and `fs_write` and `fs_backspace` with every file that comes to need
fewer of them: the entry is dropped or its length replaced, the bitmap is not looked at, and the
sync that follows releases the extent that the entry has by then. `fsRm_leaks_block` is the
shortest such history.
-/

namespace LittleLinux

open ChainTable

/-! ### What a call leaves alone -/

/-- From `s` to `t` the disks keep their bytes, and `dir` its address. -/
structure StaysPut (dir : Ptr) (s t : Fs) : Prop where
  store : SameBytes s.disk.store t.disk.store
  driveAddr : (t.folders dir).driveAddr = (s.folders dir).driveAddr

/-- The address of the folder is the same. -/
def SameAddr (f g : RamfsFoder) : Prop := g.driveAddr = f.driveAddr

theorem frameRel_sameAddr : FrameRel SameAddr := ⟨fun _ => rfl, fun h h' => h'.trans h⟩

theorem tableRel_sameAddr : TableRel SameAddr := ⟨fun _ _ => rfl, fun _ _ => rfl⟩

section StaysPut

variable {s t u : Fs} {dir : Ptr} {name : CString}

theorem StaysPut.refl (dir : Ptr) (s : Fs) : StaysPut dir s s := ⟨.refl _, rfl⟩

theorem StaysPut.trans (h : StaysPut dir s t) (h' : StaysPut dir t u) : StaysPut dir s u :=
  ⟨h.store.trans h'.store, h'.driveAddr.trans h.driveAddr⟩

theorem staysPut_onlyMem (h : OnlyMem s t) : StaysPut dir s t := by
  obtain ⟨mem, -, rfl⟩ := h
  exact ⟨.refl _, rfl⟩

theorem markDirty_driveAddr (f : RamfsFoder) : (markDirty f).driveAddr = f.driveAddr := by
  rw [markDirty]
  split_ifs <;> rfl

theorem staysPut_putFiles (s : Fs) (dir : Ptr) (map : RamfsFileHashmap) (mem : Memory) :
    StaysPut dir s (putFiles s dir map mem) :=
  ⟨.refl _, by rw [putFiles_folder, markDirty_driveAddr]; rfl⟩

theorem staysPut_storesFile (h : StoresFile s dir name t) : StaysPut dir s t := by
  obtain ⟨data, length, mem, -, -, -, -, rfl⟩ := h
  exact staysPut_putFiles s dir _ mem

theorem loadSubfolders_disk (known : Bool) (mount : Option ℕ) (parent : Option Ptr) (dir : Ptr)
    (es : List DiskFoderInfo) (s : Fs) :
    (loadSubfolders known mount parent dir es s).2.disk = s.disk := by
  induction es generalizing s with
  | nil => rfl
  | cons e es ih =>
    rw [loadSubfolders]
    split_ifs
    · exact ih s
    · dsimp only
      cases (s.mem.malloc sizeofRamfsFoder).1 with
      | none => rfl
      | some sub => exact (ih _).trans rfl

theorem loadFiles_disk (known : Bool) (dir : Ptr) (es : List DiskFileInfo) (s : Fs) :
    (loadFiles known dir es s).disk = s.disk := by
  induction es generalizing s with
  | nil => rfl
  | cons e es ih =>
    rw [loadFiles]
    split_ifs
    · exact ih s
    · exact (ih _).trans rfl

/-- Loading the children of a folder reads, and no more. -/
theorem sameBytes_lazyLoadDirectory (s : Fs) (dir : Ptr) :
    SameBytes s.disk.store (lazyLoadDirectory s dir).disk.store := by
  rw [lazyLoadDirectory]
  split_ifs
  · obtain ⟨st, hst, heq⟩ | ⟨m, es, st, hst, heq⟩ | ⟨m, es, fs, st, hst, heq⟩ :=
      dfsLoadFolderChildren_cases s dir <;> rw [heq]
    · exact hst
    · rw [loadSubfolders_disk]
      exact hst
    · rw [loadFiles_disk, loadSubfolders_disk]
      exact hst
  · exact .refl _

theorem staysPut_lazyLoadDirectory (hdir : dir < s.mem.next) :
    StaysPut dir s (lazyLoadDirectory s dir) :=
  ⟨sameBytes_lazyLoadDirectory s dir,
    (frame_lazyLoadDirectory frameRel_sameAddr tableRel_sameAddr le_rfl).folders dir hdir⟩

theorem sameBytes_dfsLoadFileData (mem : Memory) (st : Store) (info : RamfsFileInfo) (id : PartId) :
    SameBytes st (dfsLoadFileData mem st info id).2.2.2 := by
  rw [dfsLoadFileData]
  split_ifs
  · exact .refl st
  · dsimp only
    cases (mem.malloc (toU32 info.length)).1 with
    | none => exact .refl st
    | some q =>
      dsimp only
      cases (st.read id (toU64 info.driveAddr) (toI32 info.length)).1 with
      | none => exact ⟨rfl, rfl, rfl, rfl⟩
      | some b => exact ⟨rfl, rfl, rfl, rfl⟩

theorem staysPut_loadData (s : Fs) (dir : Ptr) (name : CString) (info : RamfsFileInfo) :
    StaysPut dir s (loadData s dir name info).2 := by
  rw [loadData]
  cases (s.folders dir).mount with
  | none => exact .refl dir s
  | some m =>
    refine ⟨sameBytes_dfsLoadFileData s.mem s.disk.store info (s.mountTable m).part, ?_⟩
    change ((modifyFile s dir name _).folders dir).driveAddr = _
    rw [modifyFile, Fs.modifyFolder_self]
    rfl

end StaysPut

/-! ### What a call does to the accounts -/

/-- The superblock of the partition. -/
def superblockOf (s : Fs) (id : PartId) : Superblock := Superblock.decode (s.disk.store.bytes id)

/-- Every marked block of the partition belongs to a file of `dir`, or is one of `others`, the
blocks of the files of other folders. -/
def BlocksAccounted (s : Fs) (dir : Ptr) (id : PartId) (others : Set ℕ) : Prop :=
  Accounted s.disk.store id (superblockOf s id) others (fileEntries (s.folders dir))

/-- At the length `n` the file of that name still has every marked block that it has. -/
def KeepsExtent (s : Fs) (dir : Ptr) (id : PartId) (name : CString) (n : RamfsFileInfo → ℤ) : Prop :=
  ∀ finfo, ramfsFileHashmapFind (s.folders dir).fileMap name = some finfo → ∀ j,
    Marked s.disk.store id (superblockOf s id) j → FileBlock (superblockOf s id) finfo j →
    FileBlock (superblockOf s id) { finfo with length := n finfo } j

/-- The length that `fs_backspace` leaves. -/
def cutLength (count : ℤ) (finfo : RamfsFileInfo) : ℤ :=
  toU32 (finfo.length - if count > finfo.length then toI32 finfo.length else count)

section Accounts

variable {s t u : Fs} {dir : Ptr} {id : PartId} {others : Set ℕ} {name : CString}

theorem Marked.of_same {st st' : Store} {sb : Superblock} {j : ℕ} (hsame : SameBytes st st')
    (h : Marked st' id sb j) : Marked st id sb j := by
  obtain ⟨hlt, hin, hused⟩ := h
  rw [Store.size, hsame.sectors] at hin
  rw [hsame.bytes] at hused
  exact ⟨hlt, hin, hused⟩

/-- The accounts are kept when the bitmap is and every extent is covered. -/
theorem BlocksAccounted.of_covered (h : BlocksAccounted s dir id others)
    (hsame : SameBytes s.disk.store t.disk.store)
    (hcover : ∀ finfo ∈ fileEntries (s.folders dir), ∀ j,
      Marked s.disk.store id (superblockOf s id) j → FileBlock (superblockOf s id) finfo j →
      ∃ finfo' ∈ fileEntries (t.folders dir), FileBlock (superblockOf s id) finfo' j) :
    BlocksAccounted t dir id others := by
  have hsb : superblockOf t id = superblockOf s id := by rw [superblockOf, hsame.bytes, superblockOf]
  intro j hj
  rw [hsb] at hj ⊢
  have hj := hj.of_same hsame
  rcases h j hj with hother | ⟨finfo, hmem, hblock⟩
  · exact .inl hother
  · exact .inr (hcover finfo hmem j hj hblock)

/-- A call that leaves the entries alone, or adds some. -/
theorem BlocksAccounted.mono (h : BlocksAccounted s dir id others)
    (hsame : SameBytes s.disk.store t.disk.store)
    (hsub : ∀ nd ∈ (s.folders dir).fileMap.nodes, nd ∈ (t.folders dir).fileMap.nodes) :
    BlocksAccounted t dir id others := by
  refine h.of_covered hsame fun finfo hmem j _ hblock => ?_
  obtain ⟨nd, hnd, rfl⟩ := List.mem_map.mp hmem
  exact ⟨nd.value, List.mem_map_of_mem (hsub nd hnd), hblock⟩

theorem BlocksAccounted.onlyMem (h : BlocksAccounted s dir id others) (hst : OnlyMem s t) :
    BlocksAccounted t dir id others := by
  obtain ⟨mem, -, rfl⟩ := hst
  exact h

/-- A folder without entries that is loaded: what is marked belongs to others. -/
theorem BlocksAccounted.lazyLoad (h : BlocksAccounted s dir id others) (hdir : dir < s.mem.next)
    (hcount : Counted (s.folders dir).fileMap) :
    BlocksAccounted (lazyLoadDirectory s dir) dir id others := by
  by_cases hload : (s.folders dir).type = RAMFS_FOLDER_TYPE_DISK_CLEAN ∧
      (s.folders dir).foderMap.count = 0 ∧ (s.folders dir).fileMap.count = 0
  · refine h.mono (staysPut_lazyLoadDirectory hdir).store fun nd hnd => ?_
    rw [hcount.nodes_eq_nil hload.2.2] at hnd
    exact absurd hnd List.not_mem_nil
  · rw [lazyLoadDirectory, if_neg hload]
    exact h

theorem BlocksAccounted.touch (h : BlocksAccounted u dir id others)
    (hu : lazyLoadDirectory s dir = u) (name : CString) :
    BlocksAccounted (touchIn s dir name).2 dir id others := by
  rcases touchIn_cases hu name with hmem | ⟨map, mem, -, -, hadds, heq⟩
  · exact h.onlyMem hmem
  · rw [heq]
    refine h.mono (staysPut_putFiles u dir map mem).store fun nd hnd => ?_
    rw [putFiles_fileMap]
    exact hadds.mem_of_mem hnd

/-- The entry that is found under the name is replaced. -/
theorem BlocksAccounted.modify {g : RamfsFileInfo → RamfsFileInfo} {info : RamfsFileInfo}
    (h : BlocksAccounted u dir id others)
    (hfind : ramfsFileHashmapFind (u.folders dir).fileMap name = some info)
    (hkeep : ∀ j, Marked u.disk.store id (superblockOf u id) j → FileBlock (superblockOf u id) info j →
      FileBlock (superblockOf u id) (g info) j)
    (hsame : SameBytes u.disk.store t.disk.store)
    (hmap : (t.folders dir).fileMap = ramfsFileHashmapModify (u.folders dir).fileMap name g) :
    BlocksAccounted t dir id others := by
  obtain ⟨nd, hnd, rfl⟩ := Option.map_eq_some_iff.mp hfind
  obtain ⟨rest, hold, hnew⟩ := nodes_modify_perm hnd g
  refine h.of_covered hsame fun finfo hmem j hj hblock => ?_
  obtain ⟨nd', hnd', rfl⟩ := List.mem_map.mp hmem
  have hin : ∀ nd'' : Node CString RamfsFileInfo, nd'' ∈ { nd with value := g nd.value } :: rest →
      nd''.value ∈ fileEntries (t.folders dir) := fun nd'' hnd'' => by
    rw [fileEntries, hmap]
    exact List.mem_map_of_mem (hnew.mem_iff.mpr hnd'')
  rcases List.mem_cons.mp (hold.mem_iff.mp hnd') with rfl | hrest
  · exact ⟨_, hin _ List.mem_cons_self, hkeep j hj hblock⟩
  · exact ⟨_, hin nd' (List.mem_cons_of_mem _ hrest), hblock⟩

theorem not_fileBlock_zero {sb : Superblock} {finfo : RamfsFileInfo} {j : ℕ} :
    ¬ FileBlock sb { finfo with length := 0 } j := by
  rintro ⟨-, hle, hlt, -⟩
  rw [show blocksFor (toU64 (0 : ℤ)) = 0 from rfl, Nat.add_zero] at hlt
  exact absurd hle (not_le.mpr hlt)

theorem BlocksAccounted.rm (h : BlocksAccounted u dir id others) (hu : lazyLoadDirectory s dir = u)
    (hkeep : KeepsExtent u dir id name fun _ => 0) :
    BlocksAccounted (rmIn s dir name).2 dir id others := by
  rcases rmIn_cases hu name with heq | ⟨map, mem, -, -, ⟨nd, hnd, hperm, -⟩, heq⟩ <;> rw [heq]
  · exact h
  refine h.of_covered (staysPut_putFiles u dir map mem).store fun finfo hmem j hj hblock => ?_
  obtain ⟨nd', hnd', rfl⟩ := List.mem_map.mp hmem
  rcases List.mem_cons.mp (hperm.mem_iff.mp hnd') with rfl | hrest
  · have hfind : ramfsFileHashmapFind (u.folders dir).fileMap name = some nd'.value :=
      congrArg (Option.map Node.value) hnd
    exact absurd (hkeep nd'.value hfind j hj hblock) not_fileBlock_zero
  · refine ⟨nd'.value, ?_, hblock⟩
    rw [fileEntries, putFiles_fileMap]
    exact List.mem_map_of_mem hrest

theorem BlocksAccounted.write (h : BlocksAccounted u dir id others)
    (hu : lazyLoadDirectory s dir = u) {data : Data}
    (hkeep : KeepsExtent u dir id name fun _ => data.1.length) :
    BlocksAccounted (writeIn s dir name data).2 dir id others := by
  rw [writeIn, hu]
  dsimp only
  cases hfind : ramfsFileHashmapFind (u.folders dir).fileMap name with
  | none => exact h
  | some info =>
    dsimp only
    generalize (freeData u.mem info).malloc data.1.length = a
    split_ifs
    · exact h
    · rw [modifyFile_markDirty]
      exact h.modify hfind (hkeep info hfind) (.refl _) (putFiles_fileMap u dir _ _)

/-- The end of `fs_backspace`. -/
theorem BlocksAccounted.cut {info : RamfsFileInfo} (h : BlocksAccounted u dir id others)
    (hfind : ramfsFileHashmapFind (u.folders dir).fileMap name = some info) {count : ℤ}
    (hkeep : KeepsExtent u dir id name (cutLength count)) :
    BlocksAccounted (cutFile u dir name info count).2 dir id others := by
  have hkeep := hkeep info hfind
  rw [cutLength] at hkeep
  rw [cutFile]
  dsimp only
  by_cases hlen : info.length = 0
  · rw [if_pos hlen]
    exact h
  rw [if_neg hlen]
  generalize toU32 (info.length - if count > info.length then toI32 info.length else count) = n at hkeep
  by_cases hzero : n = 0
  · rw [if_pos hzero, modifyFile_markDirty]
    refine h.modify hfind (fun j hj hblock => ?_) (.refl _) (putFiles_fileMap u dir _ _)
    have hblock := hkeep j hj hblock
    rw [hzero] at hblock
    exact hblock
  · rw [if_neg hzero]
    obtain ⟨_ | q, mem⟩ := u.mem.malloc n
    · exact h
    · dsimp only
      rw [modifyFile_markDirty]
      exact h.modify hfind hkeep (.refl _) (putFiles_fileMap u dir _ _)

/-- Loading the data of a file changes no length and no address. -/
theorem BlocksAccounted.load {info : RamfsFileInfo} (h : BlocksAccounted u dir id others)
    (hfind : ramfsFileHashmapFind (u.folders dir).fileMap name = some info) :
    BlocksAccounted (loadData u dir name info).2 dir id others := by
  have hput := staysPut_loadData u dir name info
  revert hput
  rw [loadData]
  cases (u.folders dir).mount with
  | none => exact fun _ => h
  | some m =>
    intro hput
    obtain ⟨data, heq⟩ := dfsLoadFileData_fst u.mem u.disk.store info (u.mountTable m).part
    refine h.modify hfind (g := fun _ =>
      (dfsLoadFileData u.mem u.disk.store info (u.mountTable m).part).2.1) (fun j _ hblock => ?_)
      hput.store ?_
    · rw [heq]
      exact hblock
    · change ((modifyFile u dir name _).folders dir).fileMap = _
      rw [modifyFile, Fs.modifyFolder_self]
      rfl

theorem BlocksAccounted.backspace (h : BlocksAccounted u dir id others)
    (hu : lazyLoadDirectory s dir = u) {count : ℤ}
    (hkeep : KeepsExtent u dir id name (cutLength count)) :
    BlocksAccounted (backspaceIn s dir name count).2 dir id others := by
  rw [backspaceIn, hu]
  dsimp only
  cases hfind : ramfsFileHashmapFind (u.folders dir).fileMap name with
  | none => exact h
  | some info =>
    dsimp only
    obtain ⟨data, hfind'⟩ := find_loadData hfind
    have hput := staysPut_loadData u dir name info
    have hload := h.load hfind
    have hkeep' : KeepsExtent (loadData u dir name info).2 dir id name (cutLength count) := by
      intro finfo hfinfo j hj
      obtain rfl := Option.some.inj (hfind'.symm.trans hfinfo)
      have hsb : superblockOf (loadData u dir name info).2 id = superblockOf u id := by
        rw [superblockOf, hput.store.bytes, superblockOf]
      rw [hsb] at hj ⊢
      exact hkeep info hfind j (hj.of_same hput.store)
    generalize loadData u dir name info = l at hfind' hload hkeep'
    split_ifs
    · exact hload
    · rw [hfind']
      exact hload.cut hfind' hkeep'

end Accounts

/-! ### A mounted folder -/

/-- A folder of a mounted tree, and the partition that its sync writes to if it does. A folder that
is written back has its slot. -/
structure BlockFolder (s : Fs) (dir : Ptr) (id : PartId) : Prop where
  lt : dir < s.mem.next
  marked : RootsMarked s
  counted : AllTables Counted Counted s
  part : ∀ i, findSyncMount s dir = some i → (s.mountTable i).part = id
  slot : findSyncMount s dir ≠ none → ∃ k < DFS_MAX_FOLDERS, (s.folders dir).driveAddr = slotOffset k
  small : SmallPartition s.disk.store id

section Folder

variable {s t : Fs} {dir : Ptr} {id : PartId} {others : Set ℕ}

theorem SameBytes.behind {st st' : Store} (h : SameBytes st st') (id : PartId) :
    BehindRecords id st st' :=
  ⟨h.sectors, h.fault, fun x _ => by rw [h.bytes]⟩

theorem findSyncMount_congr (hf : Frame SamePlace s.mem.next s t) (hdir : dir < s.mem.next) :
    findSyncMount t dir = findSyncMount s dir := by
  rw [findSyncMount, findSyncMount, hf.mountCount, hf.mountTable, (hf.folders dir hdir).isMountRoot]

/-- What every call that stays in the folder keeps. -/
theorem BlockFolder.step (h : BlockFolder s dir id) {op : FsOp} (hop : op.IsLocal)
    (hbehind : BehindRecords id s.disk.store (fsStep s op).disk.store)
    (haddr : ((fsStep s op).folders dir).driveAddr = (s.folders dir).driveAddr) :
    BlockFolder (fsStep s op) dir id := by
  have hf := frame_fsStep s hop
  have hmount := findSyncMount_congr hf h.lt
  refine ⟨h.lt.trans_le hf.next_le, h.marked.step op, countedLaws.step h.counted op, ?_, ?_,
    h.small.of_behind hbehind⟩
  · rw [hmount, hf.mountTable]
    exact h.part
  · rw [hmount, haddr]
    exact h.slot

theorem slotOffset_pos (k : ℕ) : slotOffset k ≠ 0 := by
  rw [slotOffset, sizeofSuperblock]
  omega

theorem slotOffset_lt {k : ℕ} (hk : k < DFS_MAX_FOLDERS) :
    slotOffset k + sizeofDiskFolder ≤ 143180312 := by
  rw [DFS_MAX_FOLDERS] at hk
  rw [slotOffset, sizeofSuperblock, sizeofDiskFolder]
  omega

/-- The record of the folder is written to its slot, before the bitmap. -/
theorem BlocksAccounted.writeBack (h : BlocksAccounted s dir id others)
    (hsmall : SmallPartition s.disk.store id)
    (hslot : ∃ k < DFS_MAX_FOLDERS, (s.folders dir).driveAddr = slotOffset k) :
    BehindRecords id s.disk.store (writeBack s dir id).disk.store ∧
      BlocksAccounted (writeBack s dir id) dir id others := by
  obtain ⟨k, hk, haddr⟩ := hslot
  have hle := slotOffset_lt hk
  have hpos : 536 ≤ slotOffset k := Nat.le_add_right _ _
  have hoff : toU32 (s.folders dir).driveAddr = slotOffset k := by
    rw [haddr, toU32_natCast]
    exact Nat.mod_eq_of_lt (by omega)
  have hstart := hsmall.part.bitmapStart_eq
  set w := s.disk.store.write id (toU32 (s.folders dir).driveAddr) sizeofDiskFolder
    (diskRecord (s.folders dir)).encode with hw
  have hbytes : ∀ x, x < 28 ∨ 143180312 ≤ x → w.2.bytes id x = s.disk.store.bytes id x := by
    intro x hx
    rw [hw, hoff]
    exact Store.write_bytes_of_notMem (by rw [Int.toNat_natCast]; omega)
  have hbehind : BehindRecords id s.disk.store w.2 := ⟨rfl, rfl, fun x hx => hbytes x (.inl hx)⟩
  -- the tag of the folder is not looked at
  have hstore : (LittleLinux.writeBack s dir id).disk.store = w.2 := by
    rw [LittleLinux.writeBack]
    split_ifs <;> rfl
  have hfiles : fileEntries ((LittleLinux.writeBack s dir id).folders dir) =
      fileEntries (s.folders dir) := by
    rw [LittleLinux.writeBack]
    split_ifs
    · rw [Fs.modifyFolder_self]
      rfl
    · rfl
  rw [BlocksAccounted, superblockOf, hstore, hfiles, hbehind.superblock_eq, ← superblockOf]
  refine ⟨hbehind, fun j hj => h j ?_⟩
  obtain ⟨hlt, hin, hused⟩ := hj
  rw [hbehind.size_eq] at hin
  rw [BlockUsed, hbytes _ (.inr (by rw [superblockOf, hstart]; omega)), ← BlockUsed] at hused
  exact ⟨hlt, hin, hused⟩

/-- **A sync keeps the accounts.** -/
theorem BlockFolder.sync (h : BlockFolder s dir id) (hacc : BlocksAccounted s dir id others)
    (hkids : ∀ c ∈ kids s dir, (s.folders c).isMountRoot = true → ¬ IsDirtyType (s.folders c).type) :
    BehindRecords id s.disk.store (dfsSyncFolder s dir).2.disk.store ∧
      ((dfsSyncFolder s dir).2.folders dir).driveAddr = (s.folders dir).driveAddr ∧
      BlocksAccounted (dfsSyncFolder s dir).2 dir id others := by
  by_cases hidle : ¬ IsDirtyType (s.folders dir).type ∨ findSyncMount s dir = none
  · rw [dfsSyncFolder, syncFolder_of_clean hidle]
    exact ⟨.refl _ _, rfl, hacc⟩
  obtain ⟨hdirty, hfind⟩ := not_or.mp hidle
  obtain ⟨i, hi⟩ := Option.ne_none_iff_exists'.mp hfind
  obtain ⟨k, hk, haddr⟩ := h.slot hfind
  have hclaim : claimSlot s dir (s.mountTable i).part = (some s, s) := by
    rw [claimSlot]
    exact if_neg fun hnew => slotOffset_pos k (by exact_mod_cast haddr.symm.trans hnew.2)
  have hclean : ∀ c ∈ kids s dir, ¬ IsDirtyType (s.folders c).type ∨ findSyncMount s c = none :=
    fun c hc => by
      by_cases hroot : (s.folders c).isMountRoot = true
      · exact .inl (hkids c hc hroot)
      · refine .inr (Option.eq_none_iff_forall_ne_some.mpr fun i hi => hroot ?_)
        exact isMountRoot_of_findSyncMount h.marked hi
  rw [dfsSyncFolder, syncFolder_of_dirty hi (not_not.mp hdirty), hclaim]
  dsimp only
  rw [syncContents_of_clean hclean, h.part i hi]
  obtain ⟨hbehind, hfiles⟩ := accounted_syncFiles h.small hacc
  have haddr' := (addrsKept_syncFiles s dir id).driveAddr dir
  have hacc' : BlocksAccounted (syncFiles s dir id) dir id others := by
    rw [BlocksAccounted, superblockOf, hbehind.superblock_eq]
    exact hfiles
  obtain ⟨hwrite, hdone⟩ := hacc'.writeBack (h.small.of_behind hbehind)
    ⟨k, hk, haddr'.trans haddr⟩
  exact ⟨hbehind.trans hwrite, ((addrsKept_writeBack _ dir id).driveAddr dir).trans haddr', hdone⟩

end Folder

/-! ### Histories -/

/-- A call on the files of the folder `dir`, or its sync. -/
def FsOp.OnFiles (dir : Ptr) (s : Fs) : FsOp → Prop
  | .touch name path | .rm name path | .backspace name _ path =>
    ∀ r, parsePath s name path = .ok r → r.1 = dir
  | .write _ _ path => ∀ p, fromDir s path = some p → p = dir
  | .syncFolder p => p = dir
  | _ => False

/-- The call takes no marked block away from a file, and loses no buffer. A sync meets no other mount
below the folder that is to be written back, which would be written to the same partition. -/
def FsOp.KeepsBlocks (dir : Ptr) (id : PartId) (s : Fs) : FsOp → Prop
  | .rm name path => ∀ r, parsePath s name path = .ok r →
    KeepsExtent (lazyLoadDirectory s dir) dir id r.2 fun _ => 0
  | .write name data path =>
    KeepsExtent (lazyLoadDirectory s dir) dir id name (fun _ => data.1.length) ∧
      ¬(FsOp.write name data path).Loses s
  | .backspace name count path => 0 < count → ∀ r, parsePath s name path = .ok r →
    KeepsExtent (lazyLoadDirectory s dir) dir id r.2 (cutLength count)
  | .syncFolder _ =>
    ∀ c ∈ kids s dir, (s.folders c).isMountRoot = true → ¬ IsDirtyType (s.folders c).type
  | _ => True

section Histories

variable {s : Fs} {dir : Ptr} {id : PartId} {others : Set ℕ}

/-- **One call.** -/
theorem BlockFolder.call (h : BlockFolder s dir id) (hacc : BlocksAccounted s dir id others)
    {op : FsOp} (hon : op.OnFiles dir s) (hkeep : op.KeepsBlocks dir id s) :
    BlockFolder (fsStep s op) dir id ∧ BlocksAccounted (fsStep s op) dir id others := by
  have hload := hacc.lazyLoad h.lt (h.counted dir).2
  have hput := staysPut_lazyLoadDirectory h.lt
  -- a call on a file leaves the disks and the address alone
  have hdone : op.IsLocal → StaysPut dir s (fsStep s op) → BlockFolder (fsStep s op) dir id :=
    fun hop hs => h.step hop (hs.store.behind id) hs.driveAddr
  obtain ⟨r, hcase, hstep⟩ := fsStep_cases s op
  rw [hstep] at hdone ⊢
  cases hcase with
  | refused => exact ⟨h, hacc⟩
  | @touch _ _ r hparse =>
    obtain rfl : r.1 = dir := hon _ hparse
    refine ⟨hdone trivial (hput.trans ?_), hload.touch rfl r.2⟩
    rcases touchIn_cases rfl r.2 with hmem | ⟨map, mem, -, -, -, heq⟩
    · exact staysPut_onlyMem hmem
    · exact heq ▸ staysPut_putFiles _ r.1 map mem
  | @rm _ _ r hparse =>
    obtain rfl : r.1 = dir := hon _ hparse
    refine ⟨hdone trivial (hput.trans ?_), hload.rm rfl (hkeep _ hparse)⟩
    rcases rmIn_cases rfl r.2 with heq | ⟨map, mem, -, -, -, heq⟩
    · exact heq ▸ .refl r.1 _
    · exact heq ▸ staysPut_putFiles _ r.1 map mem
  | @write name data _ p hdir =>
    obtain rfl : p = dir := hon p hdir
    refine ⟨hdone trivial (hput.trans ?_), hload.write rfl hkeep.1⟩
    rcases writeIn_cases rfl name data with hmem | ⟨-, hstores⟩
    · exact staysPut_onlyMem hmem
    · exact staysPut_storesFile hstores
  | @backspace _ count _ r hparse hpos =>
    obtain rfl : r.1 = dir := hon _ hparse
    refine ⟨hdone trivial (hput.trans ?_), hload.backspace rfl (hkeep hpos _ hparse)⟩
    rcases backspaceIn_cases rfl r.2 count with heq | ⟨info, -, hmem | ⟨-, hstores⟩⟩
    · exact heq ▸ .refl r.1 _
    · exact (staysPut_loadData _ r.1 r.2 info).trans (staysPut_onlyMem hmem)
    · exact (staysPut_loadData _ r.1 r.2 info).trans (staysPut_storesFile hstores)
  | syncFolder p =>
    obtain rfl : p = dir := hon
    obtain ⟨hbehind, haddr, hsynced⟩ := h.sync hacc hkeep
    have hnext : BlockFolder (fsStep s (.syncFolder p)) p id := h.step trivial hbehind haddr
    exact ⟨hnext, hsynced⟩
  | _ => exact hon.elim

/-- **No block leaks** in a history whose calls stay in bounds and take no marked block away from a file:
in every state that it reaches, after a final sync as between two of them, every marked block belongs
to a file. -/
theorem blocksAccounted_run (h : BlockFolder s dir id) (hacc : BlocksAccounted s dir id others)
    (ops : List FsOp)
    (hops : Along fsStep (fun t op => op.InBounds t ∧ op.OnFiles dir t ∧ op.KeepsBlocks dir id t) s ops) :
    BlocksAccounted (ops.foldl fsStep s) dir id others :=
  (Along.invariant (I := fun t => BlockFolder t dir id ∧ BlocksAccounted t dir id others)
    (fun _ _ ht hop => ht.1.call ht.2 hop.2.1 hop.2.2) ⟨h, hacc⟩ hops).2

end Histories

/-! ### A file that is rewritten, and one that is removed -/

/-- A formatted disk whose root holds the file `f`, of 1024 bytes in the first block. -/
def oneFileStore : Store :=
  ((formattedState.disk.store.write part0 536 sizeofDiskFolder (DiskFolder.encode
    ⟨slashString, 1, [], [⟨.ofBytes [102], 1024, 143206400⟩]⟩)).2.write part0 143180312 1
    fun _ => 1).2

/-- The disk is mounted on `/a/m`: its root is the folder 7, the path of which is `/a/m/m`. -/
def oneFileState : Fs := (mountOps.take 5).foldl fsStep (initState ampleMemory oneFileStore)

def oneFilePath : CString := .ofBytes [47, 97, 47, 109, 47, 109]

theorem oneFileState_bytes : oneFileState.disk.store.bytes = oneFileStore.bytes := by rfl

theorem oneFileState_superblock :
    superblockOf oneFileState part0 = ⟨DFS_MAGIC, 4096, 1, 536, 143180312, 143206400, 64950⟩ := by
  decide +kernel

theorem oneFileState_blockFolder : BlockFolder oneFileState 7 part0 where
  lt := by decide +kernel
  marked := rootsMarked_run _ _ _
  counted := countedLaws.run _ _ _
  part := fun i hi => by
    have hfind : findSyncMount oneFileState 7 = some 0 := by decide +kernel
    obtain rfl := Option.some.inj (hfind.symm.trans hi)
    decide +kernel
  slot := fun _ => ⟨0, by decide, by decide +kernel⟩
  small :=
    { reliable := fun n => by
        have h : oneFileState.disk.store.fault = fun _ => false := by rfl
        rw [h]
      part :=
        { formatted := by
            unfold Formatted
            decide +kernel
          sectors_lt := by decide +kernel
          super_le := by decide +kernel }
      below := by decide +kernel }

/-- Only the first bit of the bitmap is set. -/
theorem oneFileState_marked {j : ℕ}
    (h : Marked oneFileState.disk.store part0 (superblockOf oneFileState part0) j) : j = 0 := by
  obtain ⟨-, -, hused⟩ := h
  have hrel : formattedState.disk.store.Reliable := fun _ => rfl
  have hzero : ∀ x, 143180312 < x → oneFileStore.bytes part0 x = 0 := by
    intro x hx
    have hslot : slotOffset 1 = 35492 := rfl
    rw [oneFileStore, Store.write_bytes_of_notMem (.inr (by simpa using by omega)),
      Store.write_bytes_of_notMem (.inr (by rw [Int.toNat_natCast, sizeofDiskFolder]; omega))]
    have hformat := dfsFormat_exact ampleMemory (show bootDisk.store.Reliable from fun _ => rfl)
      (show bootDisk.store.sectors part0 < 2 ^ 32 by decide)
      (show 2 ^ 20 ≤ bootDisk.store.size part0 by decide)
    refine (hformat.2.2.2 x (by omega)).trans ?_
    split_ifs <;> rfl
  rw [oneFileState_superblock, oneFileState_bytes, BlockUsed] at hused
  dsimp only at hused
  have hlt : j < 8 := by
    by_contra hge
    rw [hzero _ (by omega)] at hused
    simp at hused
  have hbyte : oneFileStore.bytes part0 143180312 = 1 := by decide +kernel
  rw [show 143180312 + j / 8 = 143180312 by omega, hbyte] at hused
  revert hused
  interval_cases j <;> decide

theorem oneFileState_find : ramfsFileHashmapFind (oneFileState.folders 7).fileMap ⟨[102], by decide⟩ =
    some ⟨⟨[102], by decide⟩, 0, 1024, none, 143206400⟩ := by
  decide +kernel

theorem oneFileState_blocksAccounted : BlocksAccounted oneFileState 7 part0 ∅ := by
  intro j hj
  obtain rfl := oneFileState_marked hj
  obtain ⟨nd, hnd, hvalue⟩ := fileTable.exists_of_find oneFileState_find
  refine .inr ⟨nd.value, List.mem_map_of_mem hnd, ?_⟩
  rw [hvalue, oneFileState_superblock]
  unfold FileBlock FreedBlock
  decide +kernel

/-- `fs_write` of one byte to the file, and a sync. -/
def rewriteFileOps : List FsOp :=
  [.write (.ofBytes [102]) (Data.byte 120) (some oneFilePath), .syncFolder 7]

theorem rewriteFileOps_inBounds :
    Along fsStep (fun t op => op.InBounds t) oneFileState rewriteFileOps := by
  decide +kernel

theorem blocksAccounted_run_rewrite :
    BlocksAccounted (rewriteFileOps.foldl fsStep oneFileState) 7 part0 ∅ := by
  have hdir : fromDir oneFileState (some oneFilePath) = some 7 := by decide +kernel
  have hcount : (oneFileState.folders 7).fileMap.count ≠ 0 := by decide +kernel
  have hloaded : lazyLoadDirectory oneFileState 7 = oneFileState := by
    rw [lazyLoadDirectory, if_neg fun h => hcount h.2.2]
  refine blocksAccounted_run oneFileState_blockFolder oneFileState_blocksAccounted rewriteFileOps
    (rewriteFileOps_inBounds.and
      ⟨⟨fun p hp => Option.some.inj (hp.symm.trans hdir), ?_, ?_⟩, ⟨rfl, fun c hc => ?_⟩, trivial⟩)
  · rw [hloaded]
    intro finfo hfind j _ hblock
    obtain rfl := Option.some.inj (oneFileState_find.symm.trans hfind)
    exact hblock
  · rintro ⟨p, -, info, buf, -, -, -, hgrants⟩
    exact absurd hgrants (by decide +kernel)
  · have hkids : kids (fsStep oneFileState
        (.write (.ofBytes [102]) (Data.byte 120) (some oneFilePath))) 7 = [] := by
      decide +kernel
    rw [hkids] at hc
    exact absurd hc List.not_mem_nil

/-- `fs_rm` of the file, and a sync. -/
def removeFileOps : List FsOp := [.rm (.ofBytes [102]) (some oneFilePath), .syncFolder 7]

/-- The file is gone, its block is still marked, and so it stays. -/
theorem fsRm_leaks_block :
    BlockFolder oneFileState 7 part0 ∧ BlocksAccounted oneFileState 7 part0 ∅ ∧
      Along fsStep (fun t op => op.OnFiles 7 t) oneFileState removeFileOps ∧
      ¬ BlocksAccounted (removeFileOps.foldl fsStep oneFileState) 7 part0 ∅ := by
  refine ⟨oneFileState_blockFolder, oneFileState_blocksAccounted, ⟨fun r hr => ?_, rfl, trivial⟩,
    fun h => ?_⟩
  · have hdir : (parsePath oneFileState (.ofBytes [102]) (some oneFilePath)).toOption.map Prod.fst =
        some 7 := by
      decide +kernel
    rw [hr] at hdir
    exact Option.some.inj hdir
  · have hnone : (fileEntries ((removeFileOps.foldl fsStep oneFileState).folders 7)).length = 0 := by
      decide +kernel
    rcases h 0 ⟨by decide +kernel, by decide +kernel, by decide +kernel⟩ with hother | ⟨finfo, hmem, -⟩
    · exact hother
    · rw [List.length_eq_zero_iff.mp hnone] at hmem
      exact absurd hmem List.not_mem_nil

end LittleLinux
