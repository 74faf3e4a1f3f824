import LittleLinux.Lib.ChainNodes
import LittleLinux.Dfs.Frame

/-!
# Calls that leave the directories alone

`Quiet s s'` says that from `s` to `s'` no folder table changed, no folder was moved, the
working directory and the mount table are the same, and the only addresses released are those
of file nodes and file data, or new ones. `dfs_sync_folder` is quiet, and so is what every
call on a file does once its directory is loaded.
-/

namespace LittleLinux

open ChainTable

/-- The addresses that the file table of a folder holds: its nodes, and their data. -/
def FileAddr (f : RamfsFoder) (a : Ptr) : Prop :=
  ∃ nd ∈ f.fileMap.nodes, a = nd.addr ∨ ∃ buf, nd.value.ptr = some buf ∧ a = buf.addr

/-- Only file tables, tags and disk addresses may differ. -/
structure Quiet (s s' : Fs) : Prop where
  next_le : s.mem.next ≤ s'.mem.next
  foderMap : ∀ p, (s'.folders p).foderMap = (s.folders p).foderMap
  place : ∀ p, SamePlace (s.folders p) (s'.folders p)
  fileAddr : ∀ p a, FileAddr (s'.folders p) a →
    (∃ q, FileAddr (s.folders q) a) ∨ s.mem.next ≤ a ∧ a < s'.mem.next
  freed : ∀ a ∈ s'.mem.freed, a ∈ s.mem.freed ∨ (∃ q, FileAddr (s.folders q) a) ∨
    s.mem.next ≤ a ∧ a < s'.mem.next
  currentDir : s'.currentDir = s.currentDir
  mountTable : s'.mountTable = s.mountTable
  mountCount : s'.mountCount = s.mountCount
  mountWrites : s'.mountWrites = s.mountWrites

namespace Quiet

variable {s s' s'' : Fs}

theorem refl (s : Fs) : Quiet s s where
  next_le := le_refl _
  foderMap := fun _ => rfl
  place := fun _ => SamePlace.refl _
  fileAddr := fun p _ h => Or.inl ⟨p, h⟩
  freed := fun _ h => Or.inl h
  currentDir := rfl
  mountTable := rfl
  mountCount := rfl
  mountWrites := rfl

theorem trans (h : Quiet s s') (h' : Quiet s' s'') : Quiet s s'' where
  next_le := h.next_le.trans h'.next_le
  foderMap := fun p => (h'.foderMap p).trans (h.foderMap p)
  place := fun p => (h.place p).trans (h'.place p)
  fileAddr := by
    intro p a ha
    rcases h'.fileAddr p a ha with ⟨q, hq⟩ | ⟨hle, hlt⟩
    · rcases h.fileAddr q a hq with hq | ⟨hle, hlt⟩
      · exact Or.inl hq
      · exact Or.inr ⟨hle, hlt.trans_le h'.next_le⟩
    · exact Or.inr ⟨h.next_le.trans hle, hlt⟩
  freed := by
    intro a ha
    rcases h'.freed a ha with ha | ⟨q, hq⟩ | ⟨hle, hlt⟩
    · rcases h.freed a ha with ha | hq | ⟨hle, hlt⟩
      · exact Or.inl ha
      · exact Or.inr (Or.inl hq)
      · exact Or.inr (Or.inr ⟨hle, hlt.trans_le h'.next_le⟩)
    · rcases h.fileAddr q a hq with hq | ⟨hle, hlt⟩
      · exact Or.inr (Or.inl hq)
      · exact Or.inr (Or.inr ⟨hle, hlt.trans_le h'.next_le⟩)
    · exact Or.inr (Or.inr ⟨h.next_le.trans hle, hlt⟩)
  currentDir := h'.currentDir.trans h.currentDir
  mountTable := h'.mountTable.trans h.mountTable
  mountCount := h'.mountCount.trans h.mountCount
  mountWrites := h'.mountWrites.trans h.mountWrites

/-- A quiet call keeps the place of every folder. -/
theorem frame (h : Quiet s s') (n : ℕ) : Frame SamePlace n s s' :=
  ⟨h.next_le, fun p _ => h.place p, h.mountTable, h.mountCount, h.mountWrites⟩

/-- A change of one folder and of the allocator. -/
theorem of_folder (s : Fs) (p : Ptr) (g : RamfsFoder → RamfsFoder) {mem : Memory}
    (hnext : s.mem.next ≤ mem.next) (hmap : (g (s.folders p)).foderMap = (s.folders p).foderMap)
    (hplace : SamePlace (s.folders p) (g (s.folders p)))
    (hfile : ∀ a, FileAddr (g (s.folders p)) a →
      FileAddr (s.folders p) a ∨ s.mem.next ≤ a ∧ a < mem.next)
    (hfreed : ∀ a ∈ mem.freed, a ∈ s.mem.freed ∨ FileAddr (s.folders p) a ∨
      s.mem.next ≤ a ∧ a < mem.next) :
    Quiet s ((s.modifyFolder p g).setMem mem) where
  next_le := hnext
  foderMap := by
    intro q
    rcases eq_or_ne q p with rfl | hne
    · rw [Fs.setMem_folders, Fs.modifyFolder_self, hmap]
    · rw [Fs.setMem_folders, Fs.modifyFolder_of_ne s g hne]
  place := by
    intro q
    rcases eq_or_ne q p with rfl | hne
    · rw [Fs.setMem_folders, Fs.modifyFolder_self]
      exact hplace
    · rw [Fs.setMem_folders, Fs.modifyFolder_of_ne s g hne]
      exact SamePlace.refl _
  fileAddr := by
    intro q a ha
    rcases eq_or_ne q p with rfl | hne
    · rw [Fs.setMem_folders, Fs.modifyFolder_self] at ha
      exact (hfile a ha).imp (fun h => ⟨q, h⟩) id
    · rw [Fs.setMem_folders, Fs.modifyFolder_of_ne s g hne] at ha
      exact Or.inl ⟨q, ha⟩
  freed := fun a ha => (hfreed a ha).imp id fun h => h.imp (fun h => ⟨p, h⟩) id
  currentDir := rfl
  mountTable := rfl
  mountCount := rfl
  mountWrites := rfl

/-- A change of the allocator alone. -/
theorem of_mem (s : Fs) (p : Ptr) {mem : Memory} (hnext : s.mem.next ≤ mem.next)
    (hfreed : ∀ a ∈ mem.freed, a ∈ s.mem.freed ∨ FileAddr (s.folders p) a ∨
      s.mem.next ≤ a ∧ a < mem.next) :
    Quiet s (s.setMem mem) where
  next_le := hnext
  foderMap := fun _ => rfl
  place := fun _ => SamePlace.refl _
  fileAddr := fun q _ ha => Or.inl ⟨q, ha⟩
  freed := fun a ha => (hfreed a ha).imp id fun h => h.imp (fun h => ⟨p, h⟩) id
  currentDir := rfl
  mountTable := rfl
  mountCount := rfl
  mountWrites := rfl

theorem setDisk (s : Fs) (d : Disk) : Quiet s (s.setDisk d) :=
  { refl s with }

theorem setStore (s : Fs) (st : Store) : Quiet s (s.setStore st) := setDisk s _

theorem print (s : Fs) (text : List UInt8) : Quiet s (s.print text) :=
  { refl s with }

/-- A change of a folder outside its tables. -/
theorem of_tags (s : Fs) (p : Ptr) {g : RamfsFoder → RamfsFoder}
    (hmap : ∀ f, (g f).foderMap = f.foderMap) (hfile : ∀ f, (g f).fileMap = f.fileMap)
    (hplace : ∀ f, SamePlace f (g f)) : Quiet s (s.modifyFolder p g) := by
  refine of_folder s p g (le_refl s.mem.next) (hmap _) (hplace _) (fun a ha => Or.inl ?_) fun a ha => Or.inl ha
  rwa [FileAddr, hfile] at ha

end Quiet

/-! ### Tables -/

section Tables

variable {V : Type} (T : NamedTable V) {mem : Memory} {map : Table BUCKETS CString V}
  {key : CString} {v : V}

theorem NamedTable.exists_of_find (h : T.find map key = some v) : ∃ nd ∈ map.nodes, nd.value = v := by
  rw [NamedTable.find, ChainTable.find, Option.map_eq_some_iff] at h
  obtain ⟨nd, hnd, rfl⟩ := h
  exact ⟨nd, mem_nodes_of_findNode hnd, rfl⟩

theorem NamedTable.freed_insert : (T.insert mem map key v).2.2.freed = mem.freed := by
  rw [NamedTable.insert]
  dsimp only
  split_ifs
  · rfl
  · exact mem.freed_malloc _

/-- A node after an insertion is an old one, perhaps with the new value, or a new one. -/
theorem NamedTable.mem_insert {nd : Node CString V} (h : nd ∈ (T.insert mem map key v).2.1.nodes) :
    (∃ nd₀ ∈ map.nodes, nd.addr = nd₀.addr ∧
        (nd.value = nd₀.value ∨ nd.value = T.setName (strcpy127 key) v)) ∨
      (nd.addr = mem.next ∧ mem.next < (T.insert mem map key v).2.2.next ∧
        nd.value = T.setName (strcpy127 key) v) := by
  rw [NamedTable.insert] at h ⊢
  rcases mem_nodes_insert h with hold | ⟨nd₀, hold, rfl⟩ | ⟨a, ha, -, rfl⟩
  · exact Or.inl ⟨nd, hold, rfl, Or.inl rfl⟩
  · exact Or.inl ⟨nd₀, hold, rfl, Or.inr rfl⟩
  · split_ifs at ha with hfind
    obtain ⟨rfl, hlt⟩ := Memory.malloc_eq_some ha
    refine Or.inr ⟨rfl, ?_, rfl⟩
    rw [if_neg hfind, hlt]
    exact Nat.lt_succ_self _

theorem NamedTable.freed_delete {a : Ptr} (h : a ∈ (T.delete mem map key).2.2.freed) :
    a ∈ mem.freed ∨ ∃ nd ∈ map.nodes, a = nd.addr := by
  rw [NamedTable.delete] at h
  cases hf : findNode T.streq djb2Bucket map key with
  | none =>
    simp only [hf] at h
    exact Or.inl h
  | some nd =>
    simp only [hf] at h
    rcases List.mem_cons.1 h with rfl | h
    · exact Or.inr ⟨nd, mem_nodes_of_findNode hf, rfl⟩
    · exact Or.inl h

end Tables

/-! ### Tags -/

@[simp]
theorem markDirty_foderMap (f : RamfsFoder) : (markDirty f).foderMap = f.foderMap := by
  rw [markDirty]
  split_ifs <;> rfl

@[simp]
theorem markDirty_fileMap (f : RamfsFoder) : (markDirty f).fileMap = f.fileMap := by
  rw [markDirty]
  split_ifs <;> rfl

theorem markDirty_samePlace (f : RamfsFoder) : SamePlace f (markDirty f) := by
  rw [markDirty]
  split_ifs
  · exact ⟨rfl, rfl, rfl⟩
  · exact SamePlace.refl f

theorem quiet_markDirty (s : Fs) (p : Ptr) : Quiet s (s.modifyFolder p markDirty) :=
  Quiet.of_tags s p markDirty_foderMap markDirty_fileMap markDirty_samePlace

/-! ### Synchronisation -/

theorem writeFileData_ptr (d : Disk) (finfo : RamfsFileInfo) (id : PartId) (addr : ℕ) :
    (writeFileData d finfo id addr).2.1.ptr = finfo.ptr := by
  rw [writeFileData]
  dsimp only
  split_ifs <;> rfl

theorem dfsSyncFile_ptr (d : Disk) (finfo : RamfsFileInfo) (id : PartId) :
    (dfsSyncFile d finfo id).2.1.ptr = finfo.ptr := by
  rw [dfsSyncFile]
  dsimp only
  generalize (if decide (finfo.type = RAMFS_TYPE_DIRTY ∧ finfo.driveAddr ≠ 0) = true then _ else d) = d'
  split_ifs
  · rfl
  · rfl
  · exact writeFileData_ptr _ _ _ _
  · exact writeFileData_ptr _ _ _ _

theorem quiet_syncFiles (s : Fs) (p : Ptr) (id : PartId) : Quiet s (syncFiles s p id) := by
  rw [syncFiles]
  refine Quiet.trans ?_ (Quiet.setDisk _ _)
  refine Quiet.of_folder s p (·.setFileMap _) (le_refl s.mem.next) rfl
    ⟨rfl, rfl, rfl⟩ ?_ fun a ha => Or.inl ha
  rintro a ⟨nd, hnd, ha⟩
  obtain ⟨nd₀, hnd₀, haddr, hptr⟩ := mem_nodes_mapAccum (R := fun v w => w.ptr = v.ptr)
    (fun d finfo => by
      split_ifs
      · exact dfsSyncFile_ptr d finfo id
      · rfl) hnd
  rw [haddr, hptr] at ha
  exact Or.inl ⟨nd₀, hnd₀, ha⟩

theorem quiet_claimSlot (s : Fs) (p : Ptr) (id : PartId) :
    Quiet s (claimSlot s p id).2 ∧ ∀ t, (claimSlot s p id).1 = some t → Quiet s t := by
  rw [claimSlot]
  dsimp only
  have hstore := Quiet.setStore s (dfsAllocFolderSlot s.disk.store id).2
  split_ifs
  · exact ⟨hstore, fun t ht => absurd ht (by simp)⟩
  · refine ⟨hstore, fun t ht => ?_⟩
    obtain rfl := Option.some.inj ht
    exact hstore.trans (Quiet.of_tags _ p (fun _ => rfl) (fun _ => rfl) fun _ => ⟨rfl, rfl, rfl⟩)
  · refine ⟨Quiet.refl s, fun t ht => ?_⟩
    obtain rfl := Option.some.inj ht
    exact Quiet.refl s

/-- A loop of quiet steps is quiet. -/
theorem quiet_foldl {α : Type} {step : Fs → α → Fs} (h : ∀ s a, Quiet s (step s a)) (s : Fs)
    (l : List α) : Quiet s (l.foldl step s) := by
  induction l generalizing s with
  | nil => exact Quiet.refl s
  | cons a l ih => exact (h s a).trans (ih _)

theorem quiet_writeBack (s : Fs) (p : Ptr) (id : PartId) : Quiet s (writeBack s p id) := by
  have hstore : Quiet s (dfsSaveFolderToDisk s p id).2 := Quiet.setStore s _
  rw [writeBack]
  split_ifs
  · exact hstore.trans (Quiet.of_tags _ p (fun _ => rfl) (fun _ => rfl) fun _ => ⟨rfl, rfl, rfl⟩)
  · exact hstore

theorem quiet_syncFolder (fuel : ℕ) (s : Fs) (p : Ptr) : Quiet s (syncFolder fuel s p).2 := by
  refine syncFolder_preserves (P := fun t => Quiet s t) (Q := fun _ => True) (fun _ _ _ _ _ => trivial)
    ?_ ?_ ?_ ?_ fuel p (Quiet.refl s)
  · exact fun t q id ht _ => ht.trans (quiet_claimSlot t q id).1
  · exact fun t q id u ht _ hu => ht.trans ((quiet_claimSlot t q id).2 u hu)
  · exact fun t q id ht _ => ht.trans (quiet_syncFiles t q id)
  · exact fun t q id ht _ => ht.trans (quiet_writeBack t q id)

theorem quiet_dfsSyncFolder (s : Fs) (p : Ptr) : Quiet s (dfsSyncFolder s p).2 :=
  quiet_syncFolder _ s p

theorem quiet_dfsSyncAll (s : Fs) : Quiet s (dfsSyncAll s) :=
  quiet_foldl (fun s _ => quiet_dfsSyncFolder s _) s _

/-! ### Files -/

section Files

variable {s : Fs} {p : Ptr} {name : CString} {info : RamfsFileInfo}

/-- The data of a file that a lookup finds. -/
theorem fileAddr_of_find {f : RamfsFoder} (h : ramfsFileHashmapFind f.fileMap name = some info)
    {buf : Buffer} (hbuf : info.ptr = some buf) : FileAddr f buf.addr := by
  obtain ⟨nd, hnd, rfl⟩ := fileTable.exists_of_find h
  exact ⟨nd, hnd, Or.inr ⟨buf, hbuf, rfl⟩⟩

theorem mem_freed_freeData {mem : Memory} {a : Ptr} (h : a ∈ (freeData mem info).freed) :
    a ∈ mem.freed ∨ ∃ buf, info.ptr = some buf ∧ a = buf.addr := by
  rw [freeData] at h
  cases hptr : info.ptr with
  | none =>
    rw [hptr] at h
    exact Or.inl h
  | some buf =>
    rw [hptr] at h
    rcases List.mem_cons.1 h with rfl | h
    · exact Or.inr ⟨buf, rfl, rfl⟩
    · exact Or.inl h

/-- Releasing the data of a file that a lookup finds. -/
theorem freed_freeData_find (h : ramfsFileHashmapFind (s.folders p).fileMap name = some info)
    {mem : Memory} {a : Ptr} (ha : a ∈ (freeData mem info).freed) :
    a ∈ mem.freed ∨ FileAddr (s.folders p) a := by
  rcases mem_freed_freeData ha with ha | ⟨buf, hbuf, rfl⟩
  · exact Or.inl ha
  · exact Or.inr (fileAddr_of_find h hbuf)

/-- The addresses after a store to the entry of a file: those before, and that of its data. -/
theorem fileAddr_modify {f : RamfsFoder} {g : RamfsFileInfo → RamfsFileInfo} {a : Ptr}
    (h : FileAddr (f.setFileMap (ramfsFileHashmapModify f.fileMap name g)) a) :
    FileAddr f a ∨ ∃ nd ∈ f.fileMap.nodes, ∃ buf, (g nd.value).ptr = some buf ∧ a = buf.addr := by
  obtain ⟨nd, hnd, ha⟩ := h
  obtain ⟨nd₀, hnd₀, rfl | rfl⟩ := mem_nodes_modify hnd
  · exact Or.inl ⟨nd, hnd₀, ha⟩
  · rcases ha with rfl | ⟨buf, hbuf, rfl⟩
    · exact Or.inl ⟨nd₀, hnd₀, Or.inl rfl⟩
    · exact Or.inr ⟨nd₀, hnd₀, buf, hbuf, rfl⟩

/-- A store to the entry of a file, its data being old, or new, or none. -/
theorem quiet_modifyFile (s : Fs) (p : Ptr) (name : CString) {g : RamfsFileInfo → RamfsFileInfo}
    {mem : Memory} (hnext : s.mem.next ≤ mem.next)
    (hg : ∀ nd ∈ (s.folders p).fileMap.nodes, ∀ buf, (g nd.value).ptr = some buf →
      FileAddr (s.folders p) buf.addr ∨ s.mem.next ≤ buf.addr ∧ buf.addr < mem.next)
    (hfreed : ∀ a ∈ mem.freed, a ∈ s.mem.freed ∨ FileAddr (s.folders p) a ∨
      s.mem.next ≤ a ∧ a < mem.next) :
    Quiet s ((modifyFile s p name g).setMem mem) := by
  refine Quiet.of_folder s p _ hnext rfl ⟨rfl, rfl, rfl⟩ (fun a ha => ?_) hfreed
  rcases fileAddr_modify ha with ha | ⟨nd, hnd, buf, hbuf, rfl⟩
  · exact Or.inl ha
  · exact hg nd hnd buf hbuf

theorem setFileMap_samePlace (f : RamfsFoder) (map : RamfsFileHashmap) :
    SamePlace f (f.setFileMap map) :=
  ⟨rfl, rfl, rfl⟩

theorem freed_ramfsFileHashmapInsert (mem : Memory) (map : RamfsFileHashmap) (name : CString)
    (info : RamfsFileInfo) : (ramfsFileHashmapInsert mem map name info).2.2.freed = mem.freed :=
  fileTable.freed_insert

/-- An insertion into the file table with no data. -/
theorem quiet_insertFile (s : Fs) (p : Ptr) (name : CString) (info : RamfsFileInfo)
    (hptr : info.ptr = none) (g : RamfsFoder → RamfsFoder)
    (hmap : ∀ f, (g f).foderMap = f.foderMap) (hfile : ∀ f, (g f).fileMap = f.fileMap)
    (hplace : ∀ f, SamePlace f (g f)) :
    Quiet s ((s.modifyFolder p fun f => g (f.setFileMap
      (ramfsFileHashmapInsert s.mem (s.folders p).fileMap name info).2.1)).setMem
        (ramfsFileHashmapInsert s.mem (s.folders p).fileMap name info).2.2) := by
  refine Quiet.of_folder s p _ (next_le_insert _ _ _ _ _) (hmap _)
    ((setFileMap_samePlace _ _).trans (hplace _)) ?_ fun a ha => Or.inl ?_
  · rintro a ⟨nd, hnd, ha⟩
    rw [hfile] at hnd
    rcases fileTable.mem_insert hnd with ⟨nd₀, hnd₀, haddr, hval⟩ | ⟨haddr, hlt, hval⟩
    · rw [haddr] at ha
      rcases ha with rfl | ⟨buf, hbuf, rfl⟩
      · exact Or.inl ⟨nd₀, hnd₀, Or.inl rfl⟩
      · rcases hval with hval | hval
        · rw [hval] at hbuf
          exact Or.inl ⟨nd₀, hnd₀, Or.inr ⟨buf, hbuf, rfl⟩⟩
        · rw [hval] at hbuf
          exact absurd (hptr.symm.trans hbuf) (by simp)
    · rw [haddr] at ha
      rcases ha with rfl | ⟨buf, hbuf, rfl⟩
      · exact Or.inr ⟨le_refl _, hlt⟩
      · rw [hval] at hbuf
        exact absurd (hptr.symm.trans hbuf) (by simp)
  · rwa [freed_ramfsFileHashmapInsert] at ha

/-- The loop over the file entries touches no folder table. -/
theorem quiet_loadFiles (skipKnown : Bool) (dir : Ptr) (es : List DiskFileInfo) (s : Fs) :
    Quiet s (loadFiles skipKnown dir es s) ∧
      (loadFiles skipKnown dir es s).mem.freed = s.mem.freed := by
  induction es generalizing s with
  | nil => exact ⟨Quiet.refl s, rfl⟩
  | cons e es ih =>
    rw [loadFiles]
    split_ifs
    · exact ih s
    · have hadd : Quiet s (addFile s dir ⟨e.name, 0, e.length, none, e.driveAddr⟩) :=
        quiet_insertFile s dir e.name ⟨e.name, 0, e.length, none, e.driveAddr⟩ rfl id (fun _ => rfl)
          (fun _ => rfl) SamePlace.refl
      obtain ⟨hq, hfreed⟩ := ih (addFile s dir ⟨e.name, 0, e.length, none, e.driveAddr⟩)
      exact ⟨hadd.trans hq, hfreed.trans (freed_ramfsFileHashmapInsert _ _ _
        ⟨e.name, 0, e.length, none, e.driveAddr⟩)⟩

theorem quiet_touchIn (s : Fs) (p : Ptr) (name : CString) :
    Quiet (lazyLoadDirectory s p) (touchIn s p name).2 := by
  rw [touchIn]
  dsimp only
  generalize lazyLoadDirectory s p = u
  generalize (if (u.folders p).mount = none then RAMFS_TYPE_MEM else RAMFS_TYPE_NEW) = type
  split_ifs
  · exact Quiet.refl u
  · exact Quiet.refl u
  · exact quiet_insertFile u p name ⟨name, type, 0, none, 0⟩ rfl markDirty markDirty_foderMap
      markDirty_fileMap markDirty_samePlace
  · refine Quiet.of_mem u p (next_le_insert _ _ _ _ _) fun a ha => Or.inl ?_
    rwa [freed_ramfsFileHashmapInsert] at ha

theorem quiet_rmIn (s : Fs) (p : Ptr) (name : CString) :
    Quiet (lazyLoadDirectory s p) (rmIn s p name).2 := by
  rw [rmIn]
  dsimp only
  generalize lazyLoadDirectory s p = u
  cases hfind : ramfsFileHashmapFind (u.folders p).fileMap name with
  | none => exact Quiet.refl u
  | some info =>
    dsimp only
    have hnext : (ramfsFileHashmapDelete (freeData u.mem info) (u.folders p).fileMap name).2.2.next =
        u.mem.next := (next_delete _ _ _ _).trans (next_freeData u.mem info)
    have hfreed : ∀ a ∈ (ramfsFileHashmapDelete (freeData u.mem info) (u.folders p).fileMap
        name).2.2.freed, a ∈ u.mem.freed ∨ FileAddr (u.folders p) a := by
      intro a ha
      rcases fileTable.freed_delete ha with ha | ⟨nd, hnd, rfl⟩
      · exact freed_freeData_find hfind ha
      · exact Or.inr ⟨nd, hnd, Or.inl rfl⟩
    split_ifs
    · refine Quiet.of_folder u p _ hnext.ge (markDirty_foderMap _)
        ((setFileMap_samePlace _ _).trans (markDirty_samePlace _)) ?_
        fun a ha => (hfreed a ha).imp id Or.inl
      rintro a ⟨nd, hnd, ha⟩
      rw [markDirty_fileMap] at hnd
      exact Or.inl ⟨nd, mem_nodes_delete hnd, ha⟩
    · exact Quiet.of_mem u p hnext.ge fun a ha => (hfreed a ha).imp id Or.inl

theorem quiet_writeIn (s : Fs) (p : Ptr) (name : CString) (data : Data) :
    Quiet (lazyLoadDirectory s p) (writeIn s p name data).2 := by
  rw [writeIn]
  dsimp only
  generalize lazyLoadDirectory s p = u
  cases hfind : ramfsFileHashmapFind (u.folders p).fileMap name with
  | none => exact Quiet.refl u
  | some info =>
    dsimp only
    have hnext : u.mem.next ≤ ((freeData u.mem info).malloc data.1.length).2.next :=
      (next_freeData u.mem info).ge.trans (Memory.next_le_next_malloc _ _)
    have hfreed : ∀ a ∈ ((freeData u.mem info).malloc data.1.length).2.freed,
        a ∈ u.mem.freed ∨ FileAddr (u.folders p) a := by
      intro a ha
      rw [Memory.freed_malloc] at ha
      exact freed_freeData_find hfind ha
    split_ifs
    · exact Quiet.of_mem u p hnext fun a ha => (hfreed a ha).imp id Or.inl
    · refine Quiet.trans ?_ (quiet_markDirty _ p)
      refine quiet_modifyFile u p name hnext (fun nd _ buf hbuf => Or.inr ?_)
        fun a ha => (hfreed a ha).imp id Or.inl
      obtain ⟨q, hq, rfl⟩ := Option.map_eq_some_iff.1 hbuf
      obtain ⟨rfl, hlt⟩ := Memory.malloc_eq_some hq
      exact ⟨(next_freeData u.mem info).ge, (Nat.lt_succ_self _).trans_eq hlt.symm⟩

/-- `dfs_load_file_data` keeps the data or brings new data, and releases nothing old. -/
theorem dfsLoadFileData_spec (mem : Memory) (st : Store) (info : RamfsFileInfo) (id : PartId) :
    mem.next ≤ (dfsLoadFileData mem st info id).2.2.1.next ∧
      (∀ buf, (dfsLoadFileData mem st info id).2.1.ptr = some buf → info.ptr = some buf ∨
        mem.next ≤ buf.addr ∧ buf.addr < (dfsLoadFileData mem st info id).2.2.1.next) ∧
      ∀ a ∈ (dfsLoadFileData mem st info id).2.2.1.freed, a ∈ mem.freed ∨
        mem.next ≤ a ∧ a < (dfsLoadFileData mem st info id).2.2.1.next := by
  rw [dfsLoadFileData]
  have hle := mem.next_le_next_malloc (toU32 info.length)
  have hfreed := mem.freed_malloc (toU32 info.length)
  split_ifs with hload
  · exact ⟨le_refl _, fun buf hbuf => Or.inl hbuf, fun a ha => Or.inl ha⟩
  · dsimp only
    cases ha : (mem.malloc (toU32 info.length)).1 with
    | none =>
      refine ⟨hle, fun buf hbuf => Or.inl hbuf, fun a h => Or.inl ?_⟩
      rwa [hfreed] at h
    | some q =>
      obtain ⟨rfl, hlt⟩ := Memory.malloc_eq_some ha
      have hnew : mem.next < (mem.malloc (toU32 info.length)).2.next :=
        (Nat.lt_succ_self _).trans_eq hlt.symm
      dsimp only
      cases (st.read id (toU64 info.driveAddr) (toI32 info.length)).1 with
      | none =>
        refine ⟨hle, fun buf hbuf => Or.inl hbuf, fun a h => ?_⟩
        rcases List.mem_cons.1 h with rfl | h
        · exact Or.inr ⟨le_refl _, hnew⟩
        · rw [hfreed] at h
          exact Or.inl h
      | some b =>
        refine ⟨hle, fun buf hbuf => Or.inr ?_, fun a h => Or.inl ?_⟩
        · obtain rfl := Option.some.inj hbuf
          exact ⟨le_refl _, hnew⟩
        · rwa [hfreed] at h

theorem quiet_loadData (hfind : ramfsFileHashmapFind (s.folders p).fileMap name = some info) :
    Quiet s (loadData s p name info).2 := by
  rw [loadData]
  cases (s.folders p).mount with
  | none => exact Quiet.refl s
  | some m =>
    obtain ⟨hnext, hptr, hfreed⟩ := dfsLoadFileData_spec s.mem s.disk.store info (s.mountTable m).part
    refine Quiet.trans ?_ (Quiet.setStore _ _)
    refine quiet_modifyFile s p name hnext (fun nd _ buf hbuf => ?_)
      fun a ha => (hfreed a ha).imp id Or.inr
    exact (hptr buf hbuf).imp (fileAddr_of_find hfind) id

theorem quiet_catIn (s : Fs) (p : Ptr) (name : CString) :
    Quiet (lazyLoadDirectory s p) (catIn s p name).2 := by
  rw [catIn]
  dsimp only
  generalize lazyLoadDirectory s p = u
  cases hfind : ramfsFileHashmapFind (u.folders p).fileMap name with
  | none => exact Quiet.refl u
  | some info =>
    dsimp only
    have hload := quiet_loadData hfind
    generalize loadData u p name info = l at hload
    split_ifs
    · exact hload
    · cases ramfsFileHashmapFind (l.2.folders p).fileMap name with
      | none => exact hload
      | some info =>
        cases hptr : info.ptr with
        | none =>
          dsimp only
          rw [hptr]
          exact hload
        | some buf =>
          dsimp only
          rw [hptr]
          exact hload.trans (Quiet.print _ _)

theorem quiet_cutFile (hfind : ramfsFileHashmapFind (s.folders p).fileMap name = some info)
    (count : ℤ) : Quiet s (cutFile s p name info count).2 := by
  rw [cutFile]
  dsimp only
  generalize (if count > info.length then toI32 info.length else count) = n
  split_ifs
  · exact Quiet.refl s
  · refine Quiet.trans ?_ (quiet_markDirty _ p)
    refine quiet_modifyFile s p name (next_freeData s.mem info).ge (fun nd _ buf hbuf => ?_)
      fun a ha => (freed_freeData_find hfind ha).imp id Or.inl
    exact absurd hbuf (by simp)
  · have hle := s.mem.next_le_next_malloc (toU32 (info.length - n))
    have hfreed := s.mem.freed_malloc (toU32 (info.length - n))
    cases ha : (s.mem.malloc (toU32 (info.length - n))).1 with
    | none =>
      refine Quiet.of_mem s p hle fun a h => Or.inl ?_
      rwa [hfreed] at h
    | some q =>
      obtain ⟨rfl, hlt⟩ := Memory.malloc_eq_some ha
      have hnext := next_freeData (s.mem.malloc (toU32 (info.length - n))).2 info
      refine Quiet.trans ?_ (quiet_markDirty _ p)
      refine quiet_modifyFile s p name (hle.trans hnext.ge) (fun nd _ buf hbuf => Or.inr ?_) fun a h => ?_
      · obtain rfl := Option.some.inj hbuf
        exact ⟨le_refl _, (Nat.lt_succ_self _).trans_eq (hlt.symm.trans hnext.symm)⟩
      · rcases freed_freeData_find hfind h with h | h
        · rw [hfreed] at h
          exact Or.inl h
        · exact Or.inr (Or.inl h)

theorem quiet_backspaceIn (s : Fs) (p : Ptr) (name : CString) (count : ℤ) :
    Quiet (lazyLoadDirectory s p) (backspaceIn s p name count).2 := by
  rw [backspaceIn]
  dsimp only
  generalize lazyLoadDirectory s p = u
  cases hfind : ramfsFileHashmapFind (u.folders p).fileMap name with
  | none => exact Quiet.refl u
  | some info =>
    dsimp only
    have hload := quiet_loadData hfind
    generalize loadData u p name info = l at hload
    split_ifs
    · exact hload
    · cases hfind' : ramfsFileHashmapFind (l.2.folders p).fileMap name with
      | none => exact hload
      | some info => exact hload.trans (quiet_cutFile hfind' count)

end Files

end LittleLinux
