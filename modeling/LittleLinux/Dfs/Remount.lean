import LittleLinux.Dfs.FileTags
import LittleLinux.Dfs.Grown
import LittleLinux.Dfs.RecordBounds

/-!
# Unmounting and mounting again

A partition is formatted, mounted, worked in, unmounted and mounted again. `dfs_umount` synchronises
the root of the mount, which writes one record at most: that of the root, and that to the partition
of the first entry of the mount table (`bytes_dfsUmount`). The next `dfs_mount` reads the record back,
if it was written to its own partition, and the record of the empty root otherwise.
-/

namespace LittleLinux

open ChainTable

/-! ### Formatting -/

/-- `dfs_format`, on the whole system. -/
def formatPartition (s : Fs) (id : PartId) : ℤ × Fs :=
  let r := dfsFormat s.mem s.disk.store id
  (r.1, (s.setMem r.2.1).setStore r.2.2)

/-- What a partition that was formatted looks like to `dfs_mount`: it has a superblock, and room for the
record of the root. -/
structure Mountable (st : Store) (id : PartId) : Prop where
  formatted : Formatted st id
  inside : sizeofSuperblock + sizeofDiskFolder ≤ st.size id

/-- **A successful format** leaves the record of an empty root. -/
theorem dfsFormat_root {mem : Memory} {st : Store} {id : PartId} (hok : (dfsFormat mem st id).1 = 0) :
    recordAt (dfsFormat mem st id).2.2 id sizeofSuperblock = rootRecord ∧
      Mountable (dfsFormat mem st id).2.2 id ∧ (dfsFormat mem st id).2.2.fault = st.fault ∧
      (dfsFormat mem st id).2.1.grants = mem.grants ∧ mem.next ≤ (dfsFormat mem st id).2.1.next := by
  obtain ⟨hsectors, -, hformatted⟩ := dfsFormat_spec mem st id
  have hsize : (dfsFormat mem st id).2.2.size id = st.size id := by
    rw [Store.size, Store.size, hsectors]
  have hformatted := hformatted hok
  rw [dfsFormat] at hok hformatted hsize ⊢
  set sb := formatSuperblock (st.size id)
  set w := st.write id 0 sizeofSuperblock sb.encode
  set r := w.2.write id sb.rootPointer sizeofDiskFolder rootRecord.encode with hr
  dsimp only at hok hformatted hsize ⊢
  by_cases hsmall : st.size id / DFS_BLOCK_SIZE % 2 ^ 32 < 1024
  · rw [if_pos hsmall] at hok
    exact absurd hok (by norm_num)
  rw [if_neg hsmall] at hok hformatted hsize ⊢
  by_cases hsuper : w.1 = false
  · rw [if_pos hsuper] at hok
    exact absurd hok (by norm_num)
  rw [if_neg hsuper] at hok hformatted hsize ⊢
  by_cases hroot : r.1 = false
  · rw [if_pos hroot] at hok
    exact absurd hok (by norm_num)
  rw [if_neg hroot] at hok hformatted hsize ⊢
  rw [Bool.not_eq_false] at hroot
  have hin : sizeofSuperblock + sizeofDiskFolder ≤ st.size id := by
    exact_mod_cast (Store.write_eq_true hroot).2.2
  have hrecord : ∀ i < sizeofDiskFolder, r.2.bytes id (sizeofSuperblock + i) = rootRecord.encode i := by
    intro i hi
    rw [Store.write_bytes_of_eq_true hroot, Function.update_self]
    exact ByteMemory.putBytes_add hi
  have hmalloc := mem.grants_malloc ((st.size id / DFS_BLOCK_SIZE % 2 ^ 32 + 7) % 2 ^ 32 / 8)
  have hnext := mem.next_le_next_malloc ((st.size id / DFS_BLOCK_SIZE % 2 ^ 32 + 7) % 2 ^ 32 / 8)
  cases hbuf : (mem.malloc ((st.size id / DFS_BLOCK_SIZE % 2 ^ 32 + 7) % 2 ^ 32 / 8)).1 with
  | none =>
    rw [hbuf] at hformatted hsize
    exact ⟨slotRecord_root hrecord, ⟨hformatted, hsize.symm ▸ hin⟩, rfl, hmalloc, hnext⟩
  | some buf =>
    rw [hbuf] at hformatted hsize
    refine ⟨slotRecord_root fun i hi => ?_, ⟨hformatted, hsize.symm ▸ hin⟩, rfl, hmalloc, hnext⟩
    -- the bitmap lies behind the record
    dsimp only
    rw [Store.write_bytes_of_notMem (.inl ?_), hrecord i hi]
    change 536 + i < 143180312
    unfold sizeofDiskFolder at hi
    omega

/-! ### Systems without failures -/

/-- Nothing that is asked of the allocator and of the disks is refused. -/
structure Healthy (s : Fs) : Prop where
  allocated : Allocated s
  marked : RootsMarked s
  unfailing : s.mem.Unfailing
  reliable : s.disk.store.Reliable

section Healthy

variable {s : Fs} {path : CString} {id : PartId}

theorem Healthy.format (h : Healthy s) (hok : (formatPartition s id).1 = 0) :
    Healthy (formatPartition s id).2 ∧ Mountable (formatPartition s id).2.disk.store id ∧
      recordAt (formatPartition s id).2.disk.store id sizeofSuperblock = rootRecord := by
  obtain ⟨hrecord, hready, hfault, hgrants, hnext⟩ := dfsFormat_root hok
  refine ⟨⟨?_, ?_, fun n => ?_, fun n => ?_⟩, hready, hrecord⟩
  · exact StaysAllocated.allocated ⟨hnext, fun _ _ => Or.inl, fun _ _ => Or.inl, Or.inl rfl⟩ h.allocated
  · exact h.marked.frame ((Frame.setMem frameRel_samePlace _ s hnext).trans frameRel_samePlace
      (Frame.setStore frameRel_samePlace _ _ _))
  · exact (congrFun hgrants n).trans (h.unfailing n)
  · exact (congrFun hfault n).trans (h.reliable n)

/-- The superblock of a partition that can be mounted. -/
theorem Mountable.readSuperblock {st : Store} (h : Mountable st id) (hst : st.Reliable) :
    (readSuperblock st id).1 = some (formatSuperblock (st.size id)) := by
  rw [readSuperblock_of_le hst ((Nat.le_add_right _ _).trans h.inside), h.formatted]

/-- What a mount leaves, once more. -/
theorem Healthy.mountedRoot (h : Healthy s) (hready : Mountable s.disk.store id)
    (hvalid : ValidRecord (recordAt s.disk.store id sizeofSuperblock))
    (hmount : (dfsMount s path id).1 = 0) :
    ((dfsMount s path id).2.mountTable s.mountCount).rootDir = s.mem.next ∧
      MountedRoot s.disk.store id (recordAt s.disk.store id sizeofSuperblock) (dfsMount s path id).2
        s.mem.next (s.mem.next + 1) ∧
      ∃ map, ((recordAt s.disk.store id sizeofSuperblock).files ≠ [] → map.count ≠ 0) ∧
        (dfsMount s path id).2.folders s.mem.next = mountedFolder s.mountCount sizeofSuperblock
          (s.mem.next + 1) (recordAt s.disk.store id sizeofSuperblock) map :=
  mountedRoot_of_dfsMount h.allocated h.unfailing h.reliable (hready.readSuperblock h.reliable) hvalid
    hmount

theorem Healthy.mount (h : Healthy s) (hready : Mountable s.disk.store id)
    (hvalid : ValidRecord (recordAt s.disk.store id sizeofSuperblock))
    (hmount : (dfsMount s path id).1 = 0) :
    Healthy (dfsMount s path id).2 ∧
      (dfsMount s path id).2.mountTable =
        Function.update s.mountTable s.mountCount ⟨path, id, s.mem.next⟩ ∧
      (dfsMount s path id).2.mountCount = s.mountCount + 1 := by
  obtain ⟨hroot, hmounted, -⟩ := h.mountedRoot hready hvalid hmount
  refine ⟨⟨h.allocated.step (.mount path id), h.marked.step (.mount path id), hmounted.unfailing,
    hmounted.reliable⟩, ?_⟩
  obtain ⟨hne, -⟩ | ⟨v, root, -, hframe, -, -, -, heq⟩ := frame_dfsMount s path id
  · exact absurd hmount hne
  rw [heq] at hroot ⊢
  rw [← hframe.mountCount] at hroot ⊢
  have hself := Fs.pushMount_mountTable_self v ⟨path, id, root⟩
  rw [hself] at hroot
  obtain rfl : root = s.mem.next := hroot
  exact ⟨congrArg (Function.update · _ _) hframe.mountTable, rfl⟩

theorem validRecord_rootRecord : ValidRecord rootRecord where
  used := by decide
  subfolders_le := by decide
  files_le := by decide
  foderLength := fun e he => absurd he List.not_mem_nil
  fileLength := fun e he => absurd he List.not_mem_nil
  foders_distinct := List.Pairwise.nil
  files_distinct := List.Pairwise.nil

/-- With enough memory every insertion succeeds. -/
theorem NamedTable.insert_unfailing {V : Type} (T : NamedTable V) (hsize : T.nodeSize ≠ 0) {mem : Memory}
    (hmem : mem.Unfailing) (map : Table BUCKETS CString V) (key : CString) (v : V) :
    (T.insert mem map key v).1 = true := by
  rw [NamedTable.insert]
  dsimp only
  cases hfind : findNode T.streq djb2Bucket map key with
  | none =>
    rw [if_neg (by simp [T.find_eq_none_iff.2 hfind]), hmem.malloc_isSome hsize, ChainTable.insert.eq_def,
      hfind]
  | some nd => rw [ChainTable.insert.eq_def, hfind]

/-- A record in use that lies inside the partition is loaded. -/
theorem dfsLoadFolderFromDisk_ok {off : ℕ} (hmem : s.mem.Unfailing) (hst : s.disk.store.Reliable)
    (dir : Ptr) (hin : off + sizeofDiskFolder ≤ s.disk.store.size id)
    (hused : (recordAt s.disk.store id off).used ≠ 0) : (dfsLoadFolderFromDisk s dir id off).1 = 0 := by
  have hread : (s.disk.store.read id off sizeofDiskFolder).1 =
      some fun i => s.disk.store.bytes id (off + i) := hst.read_eq (by decide) (by exact_mod_cast hin)
  have hloop := loadSubfolders_unfailing false none none dir
    (recordAt s.disk.store id off).subfolders (s := resetState s dir id off
      (recordAt s.disk.store id off)) hmem
  rw [dfsLoadFolderFromDisk_eq hread hused]
  exact congrArg Prod.fst (if_neg (by rw [recordAt] at hloop; simp [hloop]))

/-- The path names an empty directory. -/
def NamesEmpty (s : Fs) (path : CString) : Prop :=
  ∃ dir, ramfsGetDirByAbsPath s path = some dir ∧ isDirectoryEmpty (s.folders dir) = true

/-- **When a mount succeeds**: exactly on an empty directory. -/
theorem Healthy.dfsMount_iff (h : Healthy s) (hready : Mountable s.disk.store id)
    (hused : (recordAt s.disk.store id sizeofSuperblock).used ≠ 0) :
    (dfsMount s path id).1 = 0 ↔ NamesEmpty s path := by
  constructor
  · intro hmount
    obtain ⟨-, -, hne, -⟩ | ⟨dir, -, -, hdir, hempty, -⟩ := dfsMount_cases s path id
    · exact absurd hmount hne
    · exact ⟨dir, hdir, hempty⟩
  · rintro ⟨dir, hdir, hempty⟩
    rw [dfsMount, hdir]
    dsimp only
    rw [if_neg (by simp [hempty]), hready.readSuperblock h.reliable]
    dsimp only
    rw [if_neg (show ¬(formatSuperblock (s.disk.store.size id)).magic ≠ DFS_MAGIC from not_not.2 rfl),
      h.unfailing.malloc_isSome (by decide)]
    dsimp only
    rw [show ((s.setStore (readSuperblock s.disk.store id).2).setMem
      (s.mem.malloc sizeofRamfsFoder).2).setFolder s.mem.next RamfsFoder.zero =
        newRoot s (readSuperblock s.disk.store id).2 from rfl]
    have hmem : (newRoot s (readSuperblock s.disk.store id).2).mem.Unfailing :=
      h.unfailing.malloc sizeofRamfsFoder
    have hload : (dfsLoadFolderFromDisk (newRoot s (readSuperblock s.disk.store id).2) s.mem.next id
        (formatSuperblock (s.disk.store.size id)).rootPointer).1 = 0 :=
      dfsLoadFolderFromDisk_ok hmem h.reliable s.mem.next hready.inside hused
    have hgrants := grants_dfsLoadFolderFromDisk (newRoot s (readSuperblock s.disk.store id).2)
      s.mem.next id (formatSuperblock (s.disk.store.size id)).rootPointer
    generalize dfsLoadFolderFromDisk (newRoot s (readSuperblock s.disk.store id).2) s.mem.next id
      (formatSuperblock (s.disk.store.size id)).rootPointer = l at hload hgrants
    have hunfailing : l.2.mem.Unfailing := fun n => (congrFun hgrants n).trans (hmem n)
    rw [if_neg (not_not.2 hload)]
    refine congrArg Prod.fst (if_neg ?_)
    rw [ramfsHashmapInsert]
    simp [foderTable.insert_unfailing (by decide) hunfailing]

/-- **Where the growth begins**: right after the mount of an empty root there is nothing but the
root. -/
theorem Healthy.grownTree (h : Healthy s) (hready : Mountable s.disk.store id)
    (hrecord : recordAt s.disk.store id sizeofSuperblock = rootRecord)
    (hmount : (dfsMount s path id).1 = 0) :
    GrownTree (dfsMount s path id).2 s.mountCount s.mem.next {s.mem.next} (dfsMount s path id).2 := by
  have hvalid : ValidRecord (recordAt s.disk.store id sizeofSuperblock) := by
    rw [hrecord]
    exact validRecord_rootRecord
  obtain ⟨hroot, hmounted, map, -, hfolder⟩ := h.mountedRoot hready hvalid hmount
  obtain ⟨hhealthy, -, hcount⟩ := h.mount hready hvalid hmount
  obtain ⟨hlt, -⟩ := hhealthy.marked s.mountCount (by omega)
  rw [hrecord] at hmounted hfolder
  have hempty : map = Table.empty := by
    obtain ⟨a, hmap⟩ := hmounted.fileMap List.Pairwise.nil
    rw [hfolder] at hmap
    exact hmap
  rw [hempty] at hfolder
  rw [hroot] at hlt
  have hnone : ∀ {V : Type} {nd : Node CString V},
      nd ∉ (Table.empty : Table BUCKETS CString V).nodes := by
    intro V nd hnd
    rw [nodes_empty] at hnd
    exact absurd hnd List.not_mem_nil
  refine ⟨rfl, fun p hp => (Set.mem_singleton_iff.1 hp).ge, fun p hp => Set.mem_singleton_iff.1 hp ▸ hlt,
    fun p hp => ?_, SameBytes.refl _, rfl, rfl⟩
  rw [Set.mem_singleton_iff.1 hp, hfolder]
  refine ⟨rep_empty djb2Bucket, rep_empty djb2Bucket, fun nd hnd => absurd hnd hnone,
    fun nd hnd => absurd hnd hnone, rfl, fun _ => ?_, fun hne => absurd rfl hne⟩
  exact ⟨rfl, rfl, rfl, Or.inr ⟨rfl, nodes_empty, nodes_empty⟩⟩

end Healthy

/-! ### Unmounting -/

/-- To free a tree is nothing to the disks. -/
theorem disk_freeFolderTree (fuel : ℕ) (s : Fs) (p : Ptr) : (freeFolderTree fuel s p).disk = s.disk := by
  induction fuel generalizing s p with
  | zero => rfl
  | succ fuel ih =>
    have hkids : ∀ (l : List (Node CString RamfsFoderInfo)) (s : Fs),
        (l.foldl (fun s nd => freeFolderTree fuel s nd.value.ptr) s).disk = s.disk := by
      intro l
      induction l with
      | nil => exact fun _ => rfl
      | cons nd l ihl => exact fun s => (ihl _).trans (ih s nd.value.ptr)
    rw [freeFolderTree]
    exact hkids _ s

/-- Of what `dfs_umount` does, only the synchronisation comes to the disks. -/
theorem disk_dfsUmount {s : Fs} {path : CString} {idx : ℕ} (h : mountIndex s path = some idx) :
    (dfsUmount s path).2.disk = (dfsSyncFolder s (s.mountTable idx).rootDir).2.disk := by
  rw [mountIndex] at h
  rw [dfsUmount, h]
  dsimp only
  refine (disk_freeFolderTree _ _ _).trans ?_
  cases ramfsGetDirByAbsPath (dfsSyncFolder s (s.mountTable idx).rootDir).2
    (umountParent (s.mountTable idx).path).1 with
  | none => rfl
  | some dir => rfl

section Sync

variable {s b : Fs} {m : ℕ} {root : Ptr} {S : Set Ptr}

/-- A synchronisation passes over the files of a folder in which none was written before. -/
theorem GrownTree.syncFiles (h : GrownTree b m root S s) (id : PartId) :
    (syncFiles s root id).disk = s.disk ∧
      diskRecord ((syncFiles s root id).folders root) = diskRecord (s.folders root) ∧
      ((syncFiles s root id).folders root).driveAddr = (s.folders root).driveAddr := by
  have hunwritten : ∀ nd ∈ (s.folders root).fileMap.nodes, ¬Written nd.value := by
    intro nd hnd hwritten
    have htype := ((h.folder root h.root_mem).file nd hnd).type
    rw [hwritten.1] at htype
    exact absurd htype (by decide)
  obtain ⟨hnodes, hdisk⟩ := mapAccum_eq (s.folders root).fileMap (syncEntry id) s.disk
  rw [mapAccumChain_of_unwritten id s.disk hunwritten] at hnodes hdisk
  have hself : (LittleLinux.syncFiles s root id).folders root = (s.folders root).setFileMap
      ((s.folders root).fileMap.mapAccum (syncEntry id) s.disk).1 := by
    rw [syncFiles_eq, Fs.setDisk_folders, Fs.modifyFolder_self]
  refine ⟨hdisk, ?_, ?_⟩
  · rw [hself, diskRecord, diskRecord]
    dsimp only [RamfsFoder.setFileMap]
    rw [hnodes]
  · rw [hself]
    rfl

/-- **What a synchronisation of the root writes**: its record, if anything was ever made in the mount. -/
theorem GrownTree.store_dfsSyncFolder (h : GrownTree b m root S s) (hmarked : RootsMarked s)
    (hm : m < s.mountCount) (hroot : (s.mountTable m).rootDir = root) :
    (dfsSyncFolder s root).2.disk.store =
      if (s.folders root).type = RAMFS_FOLDER_TYPE_DIRTY then
        (s.disk.store.write (s.mountTable 0).part sizeofSuperblock sizeofDiskFolder
          (diskRecord (s.folders root)).encode).2
      else s.disk.store := by
  have htop := (h.folder root h.root_mem).top rfl
  by_cases hdirty : (s.folders root).type = RAMFS_FOLDER_TYPE_DIRTY
  swap
  · have hclean : ¬IsDirtyType (s.folders root).type := by
      rw [(htop.type.resolve_left hdirty).1]
      decide
    rw [if_neg hdirty, dfsSyncFolder, syncFolder_of_clean (Or.inl hclean)]
  have hfind : findSyncMount s root = some 0 := by
    rw [← hroot]
    exact findSyncMount_root hmarked hm
  have hclaim : claimSlot s root (s.mountTable 0).part = (some s, s) := by
    refine if_neg fun hnew => ?_
    rw [hdirty] at hnew
    exact absurd hnew.1 (by decide)
  -- the folders below are not found in the mount table
  have hkids : ∀ c ∈ kids s root, ¬IsDirtyType (s.folders c).type ∨ findSyncMount s c = none := by
    intro c hc
    obtain ⟨nd, hnd, rfl⟩ := List.mem_map.1 hc
    have hentry := (h.folder root h.root_mem).entry nd hnd
    have hmark := ((h.folder _ hentry.mem).below (Nat.ne_of_gt hentry.lt)).2
    refine Or.inr (Option.eq_none_iff_forall_ne_some.2 fun i hi => ?_)
    rw [isMountRoot_of_findSyncMount hmarked hi] at hmark
    exact absurd hmark (by simp)
  obtain ⟨hdisk, hrecord, haddr⟩ := h.syncFiles (s.mountTable 0).part
  rw [if_pos hdirty, dfsSyncFolder, syncFolder_of_dirty hfind (Or.inr hdirty), hclaim]
  dsimp only
  rw [syncContents_of_clean hkids]
  generalize LittleLinux.syncFiles s root (s.mountTable 0).part = t at hdisk hrecord haddr
  have hsave : (dfsSaveFolderToDisk t root (s.mountTable 0).part).2.disk.store =
      (s.disk.store.write (s.mountTable 0).part sizeofSuperblock sizeofDiskFolder
        (diskRecord (s.folders root)).encode).2 := by
    rw [dfsSaveFolderToDisk]
    dsimp only
    rw [hrecord, haddr, htop.driveAddr, hdisk]
    rfl
  rw [writeBack]
  split_ifs
  · exact hsave
  · exact hsave

/-! ### The record of the root -/

/-- The entries of a table have the names that they are stored under, so their names are distinct. -/
theorem names_distinct {V E : Type} {map : Table BUCKETS CString V} (hrep : Rep djb2Bucket map)
    {entry : Node CString V → E} {name : E → CString}
    (hname : ∀ nd ∈ map.nodes, name (entry nd) = nd.key) (n : ℕ) :
    ((map.nodes.take n).map entry).Pairwise fun d e => name d ≠ name e := by
  have hkeys := hrep.keys_nodup
  rw [List.Nodup, List.pairwise_map] at hkeys
  rw [List.pairwise_map]
  refine (hkeys.sublist (List.take_sublist n _)).imp_of_mem fun {nd nd'} hnd hnd' hne => ?_
  rw [hname nd (List.mem_of_mem_take hnd), hname nd' (List.mem_of_mem_take hnd')]
  exact hne

theorem GrownFolder.foderEntry_name {p : Ptr} {f : RamfsFoder} (h : GrownFolder m root S p f)
    {nd : Node CString RamfsFoderInfo} (hnd : nd ∈ f.foderMap.nodes) : (foderEntry nd).name = nd.key :=
  (h.entry nd hnd).name

theorem GrownFolder.fileEntry_name {p : Ptr} {f : RamfsFoder} (h : GrownFolder m root S p f)
    {nd : Node CString RamfsFileInfo} (hnd : nd ∈ f.fileMap.nodes) : (fileEntry nd).name = nd.key :=
  (h.file nd hnd).name

/-- The record of the root can be written and read back. -/
theorem GrownTree.fits_diskRecord (h : GrownTree b m root S s) : (diskRecord (s.folders root)).Fits where
  name := by
    change (s.folders root).name.chars.length < 128
    rw [((h.folder root h.root_mem).top rfl).name]
    decide
  used := by simp [diskRecord]
  subfolders_le := by simp [diskRecord]
  files_le := by simp [diskRecord]
  subfolders := by
    intro e he
    obtain ⟨nd, hnd, rfl⟩ := List.mem_map.1 he
    have hentry := (h.folder root h.root_mem).entry nd (List.mem_of_mem_take hnd)
    dsimp only
    rw [hentry.name, hentry.driveAddr]
    exact ⟨Nat.lt_succ_of_le hentry.length_le, rfl⟩
  files := by
    intro e he
    obtain ⟨nd, hnd, rfl⟩ := List.mem_map.1 he
    have hfile := (h.folder root h.root_mem).file nd (List.mem_of_mem_take hnd)
    have hlt := hfile.lt
    have hnonneg := hfile.nonneg
    dsimp only
    rw [hfile.name, hfile.driveAddr]
    refine ⟨Nat.lt_succ_of_le hfile.length_le, ?_, rfl⟩
    unfold toI64
    rw [Int.bmod_def]
    split_ifs <;> omega

theorem GrownTree.validRecord (h : GrownTree b m root S s) : ValidRecord (diskRecord (s.folders root)) where
  used := one_ne_zero
  subfolders_le := h.fits_diskRecord.subfolders_le
  files_le := h.fits_diskRecord.files_le
  foderLength := fun e he => Nat.le_of_lt_succ (h.fits_diskRecord.subfolders e he).1
  fileLength := fun e he => Nat.le_of_lt_succ (h.fits_diskRecord.files e he).1
  foders_distinct := names_distinct (h.folder root h.root_mem).foders
    (fun _ hnd => (h.folder root h.root_mem).foderEntry_name hnd) _
  files_distinct := names_distinct (h.folder root h.root_mem).files
    (fun _ hnd => (h.folder root h.root_mem).fileEntry_name hnd) _

end Sync

/-! ### What an unmount leaves -/

/-- The record of the root is written to the partition: something was made in the mount, and the
partition is that of the first entry of the mount table. -/
def SavesRoot (s : Fs) (root : Ptr) (id : PartId) : Prop :=
  (s.folders root).type = RAMFS_FOLDER_TYPE_DIRTY ∧ (s.mountTable 0).part = id

instance (s : Fs) (root : Ptr) (id : PartId) : Decidable (SavesRoot s root id) :=
  inferInstanceAs (Decidable (_ ∧ _))

/-- The bytes of a partition to which the record of a folder was written. -/
def withRecord (m : ByteMemory) (f : RamfsFoder) : ByteMemory :=
  m.putBytes (toU32 f.driveAddr) sizeofDiskFolder (diskRecord f).encode

/-- The state `u` after the unmount of the mount with the root `root` of `s`, for the next
`dfs_mount`. -/
structure Unmounted (s u : Fs) (root : Ptr) (id : PartId) : Prop where
  healthy : Healthy u
  mountable : Mountable u.disk.store id
  size : u.disk.store.size id = s.disk.store.size id
  bytes : SavesRoot s root id →
    u.disk.store.bytes id = withRecord (s.disk.store.bytes id) (s.folders root)
  record : recordAt u.disk.store id sizeofSuperblock =
    if SavesRoot s root id then diskRecord (s.folders root) else rootRecord

section Unmount

variable {s b : Fs} {m : ℕ} {root : Ptr} {S : Set Ptr} {path : CString} {id : PartId}

/-- **What an unmount leaves.** -/
theorem GrownTree.umount (h : GrownTree b m root S s) (hs : Healthy s)
    (hpath : mountIndex s path = some m) (hm : m < s.mountCount)
    (hroot : (s.mountTable m).rootDir = root) (hready : Mountable s.disk.store id)
    (hrecord : recordAt s.disk.store id sizeofSuperblock = rootRecord) :
    Unmounted s (dfsUmount s path).2 root id := by
  have hdisk := congrArg Disk.store (disk_dfsUmount hpath)
  rw [hroot, h.store_dfsSyncFolder hs.marked hm hroot] at hdisk
  have hmem : (dfsUmount s path).2.mem.Unfailing := fun n => by
    rw [grants_dfsUmount]
    exact hs.unfailing n
  have hhealthy : (dfsUmount s path).2.disk.store.Reliable → Healthy (dfsUmount s path).2 := fun hst =>
    ⟨hs.allocated.step (.umount path), hs.marked.step (.umount path), hmem, hst⟩
  have haddr := ((h.folder root h.root_mem).top rfl).driveAddr
  generalize (dfsUmount s path).2 = u at *
  -- `dfs_umount` saves the root only when it is tagged dirty, and to the partition of mount 0 whatever
  -- the mount's own is
  by_cases hdirty : (s.folders root).type = RAMFS_FOLDER_TYPE_DIRTY
  swap
  · rw [if_neg hdirty] at hdisk
    have hsaves : ¬SavesRoot s root id := fun hsaves => hdirty hsaves.1
    refine ⟨hhealthy (hdisk ▸ hs.reliable), hdisk ▸ hready, by rw [hdisk],
      fun hyes => absurd hyes hsaves, ?_⟩
    rw [if_neg hsaves, hdisk, hrecord]
  rw [if_pos hdirty] at hdisk
  have hreliable : u.disk.store.Reliable := by
    rw [hdisk]
    exact hs.reliable
  have hsize : u.disk.store.size id = s.disk.store.size id := by
    rw [hdisk]
    rfl
  -- the record lies behind the superblock
  have hformatted : Formatted u.disk.store id := by
    rw [Formatted, hsize, ← hready.formatted, hdisk]
    refine Superblock.decode_congr fun i hi => Store.write_bytes_of_notMem (.inl ?_)
    unfold sizeofSuperblock
    omega
  have hmountable : Mountable u.disk.store id := ⟨hformatted, hsize.symm ▸ hready.inside⟩
  by_cases hpart : (s.mountTable 0).part = id
  · have hsaves : SavesRoot s root id := ⟨hdirty, hpart⟩
    rw [hpart] at hdisk
    have hwrite : (s.disk.store.write id sizeofSuperblock sizeofDiskFolder
        (diskRecord (s.folders root)).encode).1 = true :=
      (hs.reliable.write_eq (by decide) (by exact_mod_cast hready.inside)).1
    refine ⟨hhealthy hreliable, hmountable, hsize, fun _ => ?_, ?_⟩
    · rw [hdisk, Store.write_bytes_of_eq_true hwrite, Function.update_self, withRecord, haddr]
      rfl
    · rw [if_pos hsaves, hdisk]
      exact decode_written h.fits_diskRecord hwrite
  -- the record went to another partition; this one still holds its old root
  · have hsaves : ¬SavesRoot s root id := fun hsaves => hpart hsaves.2
    refine ⟨hhealthy hreliable, hmountable, hsize, fun hyes => absurd hyes hsaves, ?_⟩
    rw [if_neg hsaves, hdisk, recordAt, Store.write_bytes_of_ne (Ne.symm hpart)]
    exact hrecord

end Unmount

end LittleLinux
