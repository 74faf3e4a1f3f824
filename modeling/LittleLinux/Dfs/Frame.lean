import LittleLinux.Dfs.Mount

/-!
# What a call leaves alone

`Frame R n s s'` says that from `s` to `s'` addresses were only handed out, every folder below
the address `n` is related by `R` to what it was, and the mount table is the same. With
equality for `R` nothing below `n` is touched; with `SamePlace` the fields that say where a
folder belongs (`mount`, `parent`, `isMountRoot`) are kept, which is so for every call: they
are set when the object is made and never again. Only `dfs_mount` and `dfs_umount` change the
table.
-/

namespace LittleLinux

/-- The fields that place a folder are the same. -/
structure SamePlace (f g : RamfsFoder) : Prop where
  mount : g.mount = f.mount
  parent : g.parent = f.parent
  isMountRoot : g.isMountRoot = f.isMountRoot

theorem SamePlace.refl (f : RamfsFoder) : SamePlace f f := ⟨rfl, rfl, rfl⟩

theorem SamePlace.trans {f g h : RamfsFoder} (h₁ : SamePlace f g) (h₂ : SamePlace g h) :
    SamePlace f h :=
  ⟨h₂.mount.trans h₁.mount, h₂.parent.trans h₁.parent, h₂.isMountRoot.trans h₁.isMountRoot⟩

/-- What a frame needs of its relation. -/
structure FrameRel (R : RamfsFoder → RamfsFoder → Prop) : Prop where
  refl : ∀ f, R f f
  trans : ∀ {f g h}, R f g → R g h → R f h

theorem frameRel_eq : FrameRel (· = ·) := ⟨fun _ => rfl, fun h h' => h.trans h'⟩

theorem frameRel_samePlace : FrameRel SamePlace := ⟨SamePlace.refl, SamePlace.trans⟩

/-- Every folder below `n` is related to what it was, and the mount table is the same. -/
structure Frame (R : RamfsFoder → RamfsFoder → Prop) (n : ℕ) (s s' : Fs) : Prop where
  next_le : s.mem.next ≤ s'.mem.next
  folders : ∀ p < n, R (s.folders p) (s'.folders p)
  mountTable : s'.mountTable = s.mountTable
  mountCount : s'.mountCount = s.mountCount
  mountWrites : s'.mountWrites = s.mountWrites

namespace Frame

variable {R : RamfsFoder → RamfsFoder → Prop} (hR : FrameRel R) {n : ℕ} {s s' s'' : Fs}

include hR in
theorem refl (n : ℕ) (s : Fs) : Frame R n s s := ⟨le_refl _, fun _ _ => hR.refl _, rfl, rfl, rfl⟩

include hR in
theorem trans (h : Frame R n s s') (h' : Frame R n s' s'') : Frame R n s s'' where
  next_le := h.next_le.trans h'.next_le
  folders := fun p hp => hR.trans (h.folders p hp) (h'.folders p hp)
  mountTable := h'.mountTable.trans h.mountTable
  mountCount := h'.mountCount.trans h.mountCount
  mountWrites := h'.mountWrites.trans h.mountWrites

include hR in
/-- A change of the disks. -/
theorem setDisk (n : ℕ) (s : Fs) (d : Disk) : Frame R n s (s.setDisk d) :=
  ⟨le_refl _, fun _ _ => hR.refl _, rfl, rfl, rfl⟩

include hR in
theorem setStore (n : ℕ) (s : Fs) (st : Store) : Frame R n s (s.setStore st) :=
  setDisk hR n s _

include hR in
/-- A change of the allocator. -/
theorem setMem (n : ℕ) (s : Fs) {mem : Memory} (hmem : s.mem.next ≤ mem.next) :
    Frame R n s (s.setMem mem) :=
  ⟨hmem, fun _ _ => hR.refl _, rfl, rfl, rfl⟩

include hR in
/-- A change of one folder, which is not framed or changes as the frame allows. -/
theorem modifyFolder (n : ℕ) (s : Fs) {p : Ptr} {g : RamfsFoder → RamfsFoder}
    (hg : n ≤ p ∨ ∀ f, R f (g f)) : Frame R n s (s.modifyFolder p g) := by
  refine ⟨le_refl _, fun q hq => ?_, rfl, rfl, rfl⟩
  rcases eq_or_ne q p with rfl | hne
  · rw [Fs.modifyFolder_self]
    exact hg.elim (fun hle => absurd hq (by omega)) fun hg => hg _
  · rw [Fs.modifyFolder_of_ne s g hne]
    exact hR.refl _

include hR in
/-- A change of an object that is not framed. -/
theorem setFolder {n : ℕ} (s : Fs) {p : Ptr} (hp : n ≤ p) (f : RamfsFoder) :
    Frame R n s (s.setFolder p f) :=
  modifyFolder hR n s (g := fun _ => f) (Or.inl hp)

end Frame

/-! ### The allocator under the tables -/

section Next

variable {V : Type} (T : NamedTable V) (mem : Memory) (map : ChainTable.Table BUCKETS CString V)
  (key : CString) (v : V)

theorem next_le_insert : mem.next ≤ (T.insert mem map key v).2.2.next := by
  simp only [NamedTable.insert]
  split_ifs
  · exact le_refl _
  · exact mem.next_le_next_malloc _

theorem next_delete : (T.delete mem map key).2.2.next = mem.next := by
  simp only [NamedTable.delete]
  split <;> rfl

theorem next_tableDestroy : (tableDestroy mem map).2.next = mem.next := by
  simp only [tableDestroy]
  induction map.nodes generalizing mem with
  | nil => rfl
  | cons nd l ih =>
    rw [List.foldl_cons, ih]
    rfl

theorem next_freeData (finfo : RamfsFileInfo) : (freeData mem finfo).next = mem.next := by
  rw [freeData]
  split <;> rfl

end Next

/-! ### Loading -/

/-- The relation admits changes of the two tables of a folder. -/
structure TableRel (R : RamfsFoder → RamfsFoder → Prop) : Prop where
  foderMap : ∀ (map : RamfsHashmap) (f : RamfsFoder), R f (f.setFoderMap map)
  fileMap : ∀ (map : RamfsFileHashmap) (f : RamfsFoder), R f (f.setFileMap map)

theorem tableRel_samePlace : TableRel SamePlace :=
  ⟨fun _ _ => ⟨rfl, rfl, rfl⟩, fun _ _ => ⟨rfl, rfl, rfl⟩⟩

section Loading

variable {R : RamfsFoder → RamfsFoder → Prop} (hR : FrameRel R) {n : ℕ} {s : Fs} {dir : Ptr}

include hR in
theorem frame_addSubfolder {sub : Ptr} (hsub : n ≤ sub) (hdir : n ≤ dir ∨ TableRel R)
    (node : RamfsFoder) (info : RamfsFoderInfo) :
    Frame R n s (addSubfolder s dir sub node info) := by
  refine (Frame.setFolder hR s hsub node).trans hR ?_
  refine Frame.trans hR ?_ (Frame.setMem hR n _ (next_le_insert _ _ _ _ _))
  exact Frame.modifyFolder hR n _ (hdir.imp id fun hT => hT.foderMap _)

include hR in
theorem frame_addFile (hdir : n ≤ dir ∨ TableRel R) (finfo : RamfsFileInfo) :
    Frame R n s (addFile s dir finfo) := by
  refine Frame.trans hR ?_ (Frame.setMem hR n _ (next_le_insert _ _ _ _ _))
  exact Frame.modifyFolder hR n _ (hdir.imp id fun hT => hT.fileMap _)

include hR in
theorem frame_loadSubfolders {known : Bool} {mount : Option ℕ} {parent : Option Ptr}
    (hdir : n ≤ dir ∨ TableRel R) (es : List DiskFoderInfo) (hn : n ≤ s.mem.next) :
    Frame R n s (loadSubfolders known mount parent dir es s).2 := by
  induction es generalizing s with
  | nil => exact Frame.refl hR n s
  | cons e es ih =>
    rw [loadSubfolders]
    split_ifs
    · exact ih hn
    · dsimp only
      have hmem := Frame.setMem hR n s (s.mem.next_le_next_malloc sizeofRamfsFoder)
      cases ha : (s.mem.malloc sizeofRamfsFoder).1 with
      | none => exact hmem
      | some sub =>
        obtain ⟨rfl, -⟩ := Memory.malloc_eq_some ha
        refine Frame.trans hR (hmem.trans hR (frame_addSubfolder hR hn hdir _ _)) (ih ?_)
        exact (hn.trans hmem.next_le).trans (frame_addSubfolder hR hn hdir _ _).next_le

include hR in
theorem frame_loadFiles {known : Bool} (hdir : n ≤ dir ∨ TableRel R) (es : List DiskFileInfo) :
    Frame R n s (loadFiles known dir es s) := by
  induction es generalizing s with
  | nil => exact Frame.refl hR n s
  | cons e es ih =>
    rw [loadFiles]
    split_ifs
    · exact ih
    · exact (frame_addFile hR hdir _).trans hR ih

include hR in
/-- The folder that is loaded is new itself, so nothing framed is touched. -/
theorem frame_dfsLoadFolderFromDisk (hdir : n ≤ dir) (hn : n ≤ s.mem.next) (id : PartId)
    (off : ℕ) : Frame R n s (dfsLoadFolderFromDisk s dir id off).2 := by
  have hread := Frame.setStore hR n s (s.disk.store.read id off sizeofDiskFolder).2
  rw [dfsLoadFolderFromDisk]
  cases (s.disk.store.read id off sizeofDiskFolder).1 with
  | none => exact hread
  | some b =>
    dsimp only
    split_ifs
    · exact hread
    · refine Frame.trans hR ?_ (frame_loadSubfolders hR (Or.inl hdir) _ hn)
      exact hread.trans hR (Frame.modifyFolder hR n _ (Or.inl hdir))
    · refine Frame.trans hR ?_ (frame_loadFiles hR (Or.inl hdir) _)
      refine Frame.trans hR ?_ (frame_loadSubfolders hR (Or.inl hdir) _ hn)
      exact hread.trans hR (Frame.modifyFolder hR n _ (Or.inl hdir))

include hR in
theorem frame_dfsLoadFolderChildren (hT : TableRel R) (hn : n ≤ s.mem.next) :
    Frame R n s (dfsLoadFolderChildren s dir).2 := by
  rw [dfsLoadFolderChildren]
  dsimp only
  split_ifs
  · exact Frame.refl hR n s
  · exact Frame.refl hR n s
  · cases (s.folders dir).mount with
    | none => exact Frame.refl hR n s
    | some m =>
      dsimp only
      have hread := Frame.setStore hR n s (s.disk.store.read (s.mountTable m).part
        (toU32 (s.folders dir).driveAddr) sizeofDiskFolder).2
      cases (s.disk.store.read (s.mountTable m).part (toU32 (s.folders dir).driveAddr)
        sizeofDiskFolder).1 with
      | none => exact hread
      | some b =>
        dsimp only
        split_ifs
        · exact hread
        · exact hread.trans hR (frame_loadSubfolders hR (Or.inr hT) _ hn)
        · refine hread.trans hR (Frame.trans hR ?_ (frame_loadFiles hR (Or.inr hT) _))
          exact frame_loadSubfolders hR (Or.inr hT) _ hn

include hR in
theorem frame_lazyLoadDirectory (hT : TableRel R) (hn : n ≤ s.mem.next) :
    Frame R n s (lazyLoadDirectory s dir) := by
  rw [lazyLoadDirectory]
  split_ifs
  · exact frame_dfsLoadFolderChildren hR hT hn
  · exact Frame.refl hR n s

end Loading

/-! ### Mounting -/

/-- Mark the root of a new mount as one. -/
def markRoot (s : Fs) (rootDir : Ptr) (index : ℕ) : Fs :=
  s.modifyFolder rootDir fun f => { f with isMountRoot := true, mount := some index }

/-- The object of the new root, before anything is loaded into it. -/
def newRoot (s : Fs) (st : Store) : Fs :=
  ((s.setStore st).setMem (s.mem.malloc sizeofRamfsFoder).2).setFolder s.mem.next RamfsFoder.zero

/-- The end of `dfs_mount`: the new root `rootDir` is entered into the table of `dir` and into
the mount table. -/
def attachRoot (s : Fs) (dir rootDir : Ptr) (path : CString) (id : PartId) (addr : ℤ) : ℤ × Fs :=
  let last := lastComponent path
  let ins := ramfsHashmapInsert s.mem (s.folders dir).foderMap last
    ⟨last, RAMFS_FOLDER_TYPE_DISK_CLEAN, rootDir, addr⟩
  if ins.1 = false then (-7, s.setMem (ins.2.2.free rootDir))
  else
    (0, ((s.modifyFolder dir (·.setFoderMap ins.2.1)).setMem ins.2.2).pushMount ⟨path, id, rootDir⟩)

/-- What `dfs_mount` does, once for all: it fails before anything is loaded, or the load of the
new root fails, or the new root is loaded and attached. -/
theorem dfsMount_cases (s : Fs) (path : CString) (id : PartId) :
    (∃ st mem, (dfsMount s path id).1 ≠ 0 ∧ s.mem.next ≤ mem.next ∧ mem.freed = s.mem.freed ∧
      (dfsMount s path id).2 = (s.setStore st).setMem mem) ∨
    ∃ dir sb st, ramfsGetDirByAbsPath s path = some dir ∧
      isDirectoryEmpty (s.folders dir) = true ∧
      readSuperblock s.disk.store id = (some sb, st) ∧ sb.magic = DFS_MAGIC ∧
      (s.mem.malloc sizeofRamfsFoder).1 = some s.mem.next ∧
      ((dfsMount s path id = (-6, (dfsLoadFolderFromDisk (newRoot s st) s.mem.next id
            sb.rootPointer).2.setMem ((dfsLoadFolderFromDisk (newRoot s st) s.mem.next id
            sb.rootPointer).2.mem.free s.mem.next))) ∨
        (dfsLoadFolderFromDisk (newRoot s st) s.mem.next id sb.rootPointer).1 = 0 ∧
        dfsMount s path id = attachRoot
          (markRoot (dfsLoadFolderFromDisk (newRoot s st) s.mem.next id sb.rootPointer).2 s.mem.next
            (dfsLoadFolderFromDisk (newRoot s st) s.mem.next id sb.rootPointer).2.mountCount)
          dir s.mem.next path id (toI32 sb.rootPointer)) := by
  have hmalloc := s.mem.next_le_next_malloc sizeofRamfsFoder
  rw [dfsMount]
  -- every check before the root is made leaves the folders alone
  cases hdir : ramfsGetDirByAbsPath s path with
  | none => exact Or.inl ⟨s.disk.store, s.mem, by simp, le_refl _, rfl, rfl⟩
  | some dir =>
    dsimp only
    by_cases hempty : isDirectoryEmpty (s.folders dir) = false
    · rw [if_pos hempty]
      exact Or.inl ⟨s.disk.store, s.mem, by simp, le_refl _, rfl, rfl⟩
    rw [if_neg hempty]
    cases hsb : readSuperblock s.disk.store id with
    | mk o st =>
      cases o with
      | none => exact Or.inl ⟨st, s.mem, by simp, le_refl _, rfl, rfl⟩
      | some sb =>
        dsimp only
        by_cases hmagic : sb.magic ≠ DFS_MAGIC
        · rw [if_pos hmagic]
          exact Or.inl ⟨st, s.mem, by simp, le_refl _, rfl, rfl⟩
        rw [if_neg hmagic]
        cases ha : (s.mem.malloc sizeofRamfsFoder).1 with
        | none => exact Or.inl ⟨st, _, by simp, hmalloc, s.mem.freed_malloc _, rfl⟩
        | some rootDir =>
          obtain ⟨rfl, -⟩ := Memory.malloc_eq_some ha
          dsimp only
          rw [show ((s.setStore st).setMem (s.mem.malloc sizeofRamfsFoder).2).setFolder s.mem.next
            RamfsFoder.zero = newRoot s st from rfl]
          refine Or.inr ⟨dir, sb, st, rfl, by simpa using hempty, rfl, not_not.1 hmagic, rfl, ?_⟩
          -- a failed load gives the new root back
          by_cases hload : (dfsLoadFolderFromDisk (newRoot s st) s.mem.next id sb.rootPointer).1 = 0
          · exact Or.inr ⟨hload, if_neg (not_not.2 hload)⟩
          · exact Or.inl (if_pos hload)

/-- A root that is attached is entered into the folder table of `dir` and into the mount
table; one that is not is released. -/
theorem attachRoot_cases (s : Fs) (dir rootDir : Ptr) (path : CString) (id : PartId) (addr : ℤ) :
    ∃ ins, ins = ramfsHashmapInsert s.mem (s.folders dir).foderMap (lastComponent path)
        ⟨lastComponent path, RAMFS_FOLDER_TYPE_DISK_CLEAN, rootDir, addr⟩ ∧
      ((ins.1 = false ∧ attachRoot s dir rootDir path id addr =
          (-7, s.setMem (ins.2.2.free rootDir))) ∨
        (ins.1 = true ∧ attachRoot s dir rootDir path id addr =
          (0, ((s.modifyFolder dir (·.setFoderMap ins.2.1)).setMem ins.2.2).pushMount
            ⟨path, id, rootDir⟩))) := by
  refine ⟨_, rfl, ?_⟩
  rw [attachRoot]
  split_ifs with hins
  · exact Or.inl ⟨hins, rfl⟩
  · exact Or.inr ⟨by simpa using hins, rfl⟩

section NewRoot

variable {R : RamfsFoder → RamfsFoder → Prop} (hR : FrameRel R) (s : Fs) (st : Store) (id : PartId)
  (off : ℕ)

include hR in
/-- Loading the new root touches nothing that existed. -/
theorem frame_loadRoot :
    Frame R s.mem.next s (dfsLoadFolderFromDisk (newRoot s st) s.mem.next id off).2 := by
  have hmalloc := s.mem.next_le_next_malloc sizeofRamfsFoder
  have hmem := (Frame.setStore hR s.mem.next s st).trans hR (Frame.setMem hR s.mem.next _ hmalloc)
  have hnew := hmem.trans hR (Frame.setFolder hR _ (le_refl s.mem.next) RamfsFoder.zero)
  exact hnew.trans hR (frame_dfsLoadFolderFromDisk hR (le_refl s.mem.next) hmalloc id off)

include hR in
theorem frame_newRoot (index : ℕ) :
    Frame R s.mem.next s
      (markRoot (dfsLoadFolderFromDisk (newRoot s st) s.mem.next id off).2 s.mem.next index) :=
  (frame_loadRoot hR s st id off).trans hR (Frame.modifyFolder hR s.mem.next _ (Or.inl le_rfl))

theorem lt_next_loadRoot (hmalloc : (s.mem.malloc sizeofRamfsFoder).1 = some s.mem.next) :
    s.mem.next < (dfsLoadFolderFromDisk (newRoot s st) s.mem.next id off).2.mem.next := by
  have hload : Frame (· = ·) s.mem.next (newRoot s st)
      (dfsLoadFolderFromDisk (newRoot s st) s.mem.next id off).2 :=
    frame_dfsLoadFolderFromDisk frameRel_eq (le_refl s.mem.next)
      (s.mem.next_le_next_malloc sizeofRamfsFoder) id off
  calc s.mem.next < s.mem.next + 1 := Nat.lt_succ_self _
    _ = (newRoot s st).mem.next := (Memory.malloc_eq_some hmalloc).2.symm
    _ ≤ _ := hload.next_le

end NewRoot

end LittleLinux
