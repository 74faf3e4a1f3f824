import LittleLinux.Dfs.Grants
import LittleLinux.Dfs.LazyLoad
import LittleLinux.Dfs.NewFolders
import LittleLinux.Ramfs.RamCalls

/-!
# What grows in a mounted tree

A partition that was just formatted holds an empty root. What the calls make of it after it is
mounted is new: the folders have no address and the tag `RAMFS_FOLDER_TYPE_NEW`, the files have no
address and the tag `RAMFS_TYPE_NEW`, and the disk is not written to. `GrownTree` is this invariant,
for a set of folders that holds the root of the mount and is closed under entries.

That the tables are tables (`Rep`) needs the names to fit their nodes. So what a call leaves in a
table is said here by the operations on tables, where `touchIn_cases` and its kin say it of the
entries alone.
-/

namespace LittleLinux

open ChainTable

variable {s u t b : Fs} {dir root p : Ptr} {name : CString}

/-! ### What the calls leave in the tables -/

theorem touchIn_outcome (hu : lazyLoadDirectory s dir = u) (hlen : name.chars.length ≤ 127) :
    OnlyMem u (touchIn s dir name).2 ∨
      NameFree u dir name ∧ ∃ mem, u.mem.next ≤ mem.next ∧
        (touchIn s dir name).2 = putFiles u dir (pushNode djb2Bucket (u.folders dir).fileMap
          ⟨u.mem.next, name, ⟨name, newTag (u.folders dir), 0, none, 0⟩⟩) mem := by
  rw [touchIn, hu]
  dsimp only
  by_cases hfind : (ramfsHashmapFind (u.folders dir).foderMap name).isSome = true
  · rw [if_pos hfind]
    exact Or.inl (OnlyMem.refl u)
  rw [if_neg hfind]
  by_cases hfile : (ramfsFileHashmapFind (u.folders dir).fileMap name).isSome = true
  · rw [if_pos hfile]
    exact Or.inl (OnlyMem.refl u)
  rw [if_neg hfile, ← newTag, ramfsFileHashmapInsert]
  rw [Option.not_isSome_iff_eq_none] at hfind hfile
  have hskip : u.mem.next ≤ (u.mem.skip 1).next := by
    rw [Memory.next_skip]
    exact Nat.le_succ _
  rcases fileTable.insert_cases (by decide) hlen hfile u.mem
    ⟨name, newTag (u.folders dir), 0, none, 0⟩ with ⟨-, heq⟩ | heq
  · rw [heq, if_pos rfl]
    exact Or.inr ⟨⟨hfind, hfile⟩, _, hskip, rfl⟩
  · rw [heq, if_neg (by simp)]
    exact Or.inl ⟨_, hskip, rfl⟩

theorem rmIn_outcome (hu : lazyLoadDirectory s dir = u) (name : CString) :
    (rmIn s dir name).2 = u ∨
      ∃ nd mem, findNode fileTable.streq djb2Bucket (u.folders dir).fileMap name = some nd ∧
        u.mem.next ≤ mem.next ∧ (rmIn s dir name).2 = putFiles u dir
          (ChainTable.delete fileTable.streq djb2Bucket (u.folders dir).fileMap name).2 mem := by
  rw [rmIn, hu]
  dsimp only
  cases hfind : ramfsFileHashmapFind (u.folders dir).fileMap name with
  | none => exact Or.inl rfl
  | some info =>
    obtain ⟨nd, hnode, rfl⟩ := exists_findNode_of_find hfind
    obtain ⟨hok, -⟩ := fileTable.delete_of_find (freeData u.mem nd.value) hfind
    have hnext := (next_delete fileTable (freeData u.mem nd.value) (u.folders dir).fileMap name).trans
      (next_freeData u.mem nd.value)
    dsimp only
    rw [if_pos (show (ramfsFileHashmapDelete _ _ _).1 = true from hok)]
    exact Or.inr ⟨nd, _, hnode, hnext.ge, rfl⟩

/-- New contents are stored to the entry that is found under the name; there is a buffer for them,
or there are none. -/
def StoresBacked (s : Fs) (dir : Ptr) (name : CString) (t : Fs) : Prop :=
  ∃ data length mem, s.mem.next ≤ mem.next ∧ 0 ≤ length ∧ length < 2 ^ 32 ∧
    (data = none → length = 0) ∧
    t = putFiles s dir (ramfsFileHashmapModify (s.folders dir).fileMap name
      (changeFile data length)) mem

theorem writeIn_backed (hu : lazyLoadDirectory s dir = u) (name : CString) (data : Data) :
    OnlyMem u (writeIn s dir name data).2 ∨ StoresBacked u dir name (writeIn s dir name data).2 := by
  rw [writeIn, hu]
  dsimp only
  cases ramfsFileHashmapFind (u.folders dir).fileMap name with
  | none => exact Or.inl (OnlyMem.refl u)
  | some info =>
    have hnext : u.mem.next ≤ ((freeData u.mem info).malloc data.1.length).2.next :=
      (next_freeData u.mem info).ge.trans (Memory.next_le_next_malloc _ _)
    dsimp only
    generalize (freeData u.mem info).malloc data.1.length = a at hnext
    split_ifs with hfail
    · exact Or.inl ⟨a.2, hnext, rfl⟩
    · refine Or.inr ⟨a.1.map fun p => ⟨p, data.1⟩, data.1.length, a.2, hnext, by omega,
        by exact_mod_cast data.2, fun hnone => ?_, modifyFile_markDirty u dir name a.2 _⟩
      have hzero : ¬0 < data.1.length := fun hpos => hfail ⟨Option.map_eq_none_iff.1 hnone, hpos⟩
      exact_mod_cast Nat.eq_zero_of_not_pos hzero

theorem cutFile_backed (s : Fs) (dir : Ptr) (name : CString) (info : RamfsFileInfo) (count : ℤ) :
    OnlyMem s (cutFile s dir name info count).2 ∨
      StoresBacked s dir name (cutFile s dir name info count).2 := by
  rw [cutFile]
  dsimp only
  by_cases hlen : info.length = 0
  · rw [if_pos hlen]
    exact Or.inl (OnlyMem.refl s)
  rw [if_neg hlen]
  generalize (if count > info.length then toI32 info.length else count) = n
  by_cases hcut : toU32 (info.length - n) = 0
  · rw [if_pos hcut]
    exact Or.inr ⟨none, 0, freeData s.mem info, (next_freeData s.mem info).ge, le_refl _,
      by norm_num, fun _ => rfl, modifyFile_markDirty s dir name _ _⟩
  rw [if_neg hcut]
  have hlt := toU32_lt (info.length - n)
  have hle := s.mem.next_le_next_malloc (toU32 (info.length - n))
  generalize s.mem.malloc (toU32 (info.length - n)) = a at hle
  obtain ⟨o, mem⟩ := a
  cases o with
  | none => exact Or.inl ⟨mem, hle, rfl⟩
  | some q =>
    exact Or.inr ⟨_, (toU32 (info.length - n) : ℤ), freeData mem info,
      hle.trans (next_freeData mem info).ge, by omega, by exact_mod_cast hlt,
      fun hnone => absurd hnone (Option.some_ne_none _), modifyFile_markDirty s dir name _ _⟩

theorem enterDir_outcome {mem : Memory} (hdir : dir < u.mem.next) (hnext : u.mem.next < mem.next)
    (hlen : name.chars.length ≤ 127) (hfind : ramfsHashmapFind (u.folders dir).foderMap name = none) :
    OnlyMem (u.setFolder u.mem.next (newDirNode u dir name)) (enterDir u dir name mem).2 ∨
      ∃ a mem', u.mem.next < mem'.next ∧
        (enterDir u dir name mem).2 = ((u.setFolder u.mem.next (newDirNode u dir name)).modifyFolder
          dir fun f => markDirty (f.setFoderMap (pushNode djb2Bucket (u.folders dir).foderMap
            ⟨a, name, ⟨name, (newDirNode u dir name).type, u.mem.next, 0⟩⟩))).setMem mem' := by
  have hskip : mem.next < (mem.skip 1).next := by
    rw [Memory.next_skip]
    exact Nat.lt_succ_self _
  rw [enterDir, Fs.setFolder_of_ne _ _ (Nat.ne_of_lt hdir), Fs.setFolder_mem, Fs.setMem_mem,
    Fs.setMem_folders, ramfsHashmapInsert]
  rcases foderTable.insert_cases (by decide) hlen hfind mem
    ⟨name, (newDirNode u dir name).type, u.mem.next, 0⟩ with ⟨-, heq⟩ | heq
  · rw [heq, if_pos rfl]
    exact Or.inr ⟨mem.next, _, hnext.trans hskip, rfl⟩
  · rw [heq, if_neg (by simp)]
    exact Or.inl ⟨(mem.skip 1).free u.mem.next, hnext.le.trans hskip.le, rfl⟩

theorem rmdirIn_outcome (hu : lazyLoadDirectory s dir = u) (name : CString) :
    (rmdirIn s dir name).2 = u ∨
      ∃ nd mem, findNode foderTable.streq djb2Bucket (u.folders dir).foderMap name = some nd ∧
        u.mem.next ≤ mem.next ∧ (rmdirIn s dir name).2 = (((u.modifyFolder dir (·.setFoderMap
          (ChainTable.delete foderTable.streq djb2Bucket (u.folders dir).foderMap name).2)).modifyFolder
            nd.value.ptr emptyTables).modifyFolder dir markDirty).setMem mem := by
  rw [rmdirIn, hu]
  dsimp only
  cases hfind : ramfsHashmapFind (u.folders dir).foderMap name with
  | none => exact Or.inl rfl
  | some info =>
    obtain ⟨nd, hnode, rfl⟩ := Option.map_eq_some_iff.1 hfind
    dsimp only
    split_ifs
    · exact Or.inl rfl
    · refine Or.inr ⟨nd, _, hnode, ?_, rfl⟩
      exact (((next_tableDestroy _ _).trans (next_tableDestroy _ _)).trans
        (next_delete foderTable _ _ _)).ge

/-! ### The invariant -/

/-- The entry of a directory that was made since the mount. -/
structure NewEntry (root : Ptr) (S : Set Ptr) (nd : Node CString RamfsFoderInfo) : Prop where
  name : nd.value.name = nd.key
  length_le : nd.key.chars.length ≤ 127
  driveAddr : nd.value.driveAddr = 0
  mem : nd.value.ptr ∈ S
  lt : root < nd.value.ptr

/-- The entry of a file that was made since the mount. It was never written to the disk, and
`RAMFS_TYPE_NEW` is the tag that `dfs_sync_file` passes over. -/
structure NewFile (nd : Node CString RamfsFileInfo) : Prop where
  name : nd.value.name = nd.key
  length_le : nd.key.chars.length ≤ 127
  type : nd.value.type = RAMFS_TYPE_NEW
  driveAddr : nd.value.driveAddr = 0
  nonneg : 0 ≤ nd.value.length
  lt : nd.value.length < 2 ^ 32
  data : nd.value.ptr = none → nd.value.length = 0

/-- The root of the mount: clean as long as it has no entry. -/
structure GrownRoot (f : RamfsFoder) : Prop where
  name : f.name = slashString
  isMountRoot : f.isMountRoot = true
  driveAddr : f.driveAddr = sizeofSuperblock
  type : f.type = RAMFS_FOLDER_TYPE_DIRTY ∨
    f.type = RAMFS_FOLDER_TYPE_DISK_CLEAN ∧ f.foderMap.nodes = [] ∧ f.fileMap.nodes = []

/-- The folder `p` of the mount `m`. -/
structure GrownFolder (m : ℕ) (root : Ptr) (S : Set Ptr) (p : Ptr) (f : RamfsFoder) : Prop where
  foders : Rep djb2Bucket f.foderMap
  files : Rep djb2Bucket f.fileMap
  entry : ∀ nd ∈ f.foderMap.nodes, NewEntry root S nd
  file : ∀ nd ∈ f.fileMap.nodes, NewFile nd
  mount : f.mount = some m
  top : p = root → GrownRoot f
  below : p ≠ root → f.type = RAMFS_FOLDER_TYPE_NEW ∧ f.isMountRoot = false

/-- What holds of the mount `m` with the root `root` while nothing but new folders and files is
made in it. `b` is the state right after the mount. -/
structure GrownTree (b : Fs) (m : ℕ) (root : Ptr) (S : Set Ptr) (s : Fs) : Prop where
  root_mem : root ∈ S
  root_le : ∀ p ∈ S, root ≤ p
  lt_next : ∀ p ∈ S, p < s.mem.next
  folder : ∀ p ∈ S, GrownFolder m root S p (s.folders p)
  store : SameBytes b.disk.store s.disk.store
  mountTable : s.mountTable = b.mountTable
  mountCount : s.mountCount = b.mountCount

namespace GrownFolder

variable {m : ℕ} {S T : Set Ptr} {f : RamfsFoder}

/-- A larger set of folders. -/
theorem mono (h : GrownFolder m root S p f) (hST : S ⊆ T) : GrownFolder m root T p f where
  foders := h.foders
  files := h.files
  entry := fun nd hnd => { h.entry nd hnd with mem := hST (h.entry nd hnd).mem }
  file := h.file
  mount := h.mount
  top := h.top
  below := h.below

/-- New tables, and the folder is marked. -/
theorem mark (h : GrownFolder m root S p f) {foders : RamfsHashmap} {files : RamfsFileHashmap}
    (hfoders : Rep djb2Bucket foders) (hfiles : Rep djb2Bucket files)
    (hentry : ∀ nd ∈ foders.nodes, NewEntry root S nd) (hfile : ∀ nd ∈ files.nodes, NewFile nd) :
    GrownFolder m root S p (markDirty ((f.setFoderMap foders).setFileMap files)) where
  foders := by
    rw [markDirty_foderMap]
    exact hfoders
  files := by
    rw [markDirty_fileMap]
    exact hfiles
  entry := by
    rw [markDirty_foderMap]
    exact hentry
  file := by
    rw [markDirty_fileMap]
    exact hfile
  mount := (markDirty_samePlace _).mount.trans h.mount
  top := by
    intro hp
    have hroot := h.top hp
    rw [markDirty]
    -- a clean root turns dirty, a new folder stays new
    by_cases hclean : f.type = RAMFS_FOLDER_TYPE_DISK_CLEAN
    · rw [if_pos (show ((f.setFoderMap foders).setFileMap files).type = _ from hclean)]
      exact ⟨hroot.name, hroot.isMountRoot, hroot.driveAddr, Or.inl rfl⟩
    · rw [if_neg (show ¬((f.setFoderMap foders).setFileMap files).type = _ from hclean)]
      exact ⟨hroot.name, hroot.isMountRoot, hroot.driveAddr,
        Or.inl (hroot.type.resolve_right fun hc => hclean hc.1)⟩
  below := by
    intro hp
    obtain ⟨htype, hmark⟩ := h.below hp
    have hnew : ¬((f.setFoderMap foders).setFileMap files).type = RAMFS_FOLDER_TYPE_DISK_CLEAN := by
      change ¬f.type = _
      rw [htype]
      decide
    rw [markDirty, if_neg hnew]
    exact ⟨htype, hmark⟩

/-- Fewer entries. -/
theorem fewer (h : GrownFolder m root S p f) {foders : RamfsHashmap} {files : RamfsFileHashmap}
    (hfoders : Rep djb2Bucket foders) (hfiles : Rep djb2Bucket files)
    (hentry : ∀ nd ∈ foders.nodes, nd ∈ f.foderMap.nodes)
    (hfile : ∀ nd ∈ files.nodes, nd ∈ f.fileMap.nodes) :
    GrownFolder m root S p ((f.setFoderMap foders).setFileMap files) where
  foders := hfoders
  files := hfiles
  entry := fun nd hnd => h.entry nd (hentry nd hnd)
  file := fun nd hnd => h.file nd (hfile nd hnd)
  mount := h.mount
  top := by
    intro hp
    have hroot := h.top hp
    refine ⟨hroot.name, hroot.isMountRoot, hroot.driveAddr, hroot.type.imp id ?_⟩
    rintro ⟨hclean, hnone, hnone'⟩
    exact ⟨hclean, List.eq_nil_iff_forall_not_mem.2 fun nd hnd =>
        absurd (hnone ▸ hentry nd hnd) List.not_mem_nil,
      List.eq_nil_iff_forall_not_mem.2 fun nd hnd =>
        absurd (hnone' ▸ hfile nd hnd) List.not_mem_nil⟩
  below := h.below

end GrownFolder

/-- Nothing comes of the load of a folder whose record has no entries but a request. -/
theorem lazyLoadDirectory_of_empty {m : ℕ} (hmount : (s.folders dir).mount = some m)
    (hrecord : (recordAt s.disk.store (s.mountTable m).part
        (toU32 (s.folders dir).driveAddr)).subfolders = [] ∧
      (recordAt s.disk.store (s.mountTable m).part (toU32 (s.folders dir).driveAddr)).files = []) :
    ∃ st, SameBytes s.disk.store st ∧ lazyLoadDirectory s dir = s.setStore st := by
  by_cases hload : NotLoaded (s.folders dir)
  swap
  · exact ⟨_, SameBytes.refl s.disk.store, lazyLoadDirectory_of_loaded hload⟩
  obtain ⟨hclean, hfoders, hfiles⟩ := hload
  rw [lazyLoadDirectory_of_notLoaded ⟨hclean, hfoders, hfiles⟩, dfsLoadFolderChildren,
    if_neg (not_not.2 hclean), if_neg (by simp [hfoders, hfiles]), hmount]
  dsimp only
  have hrequest : SameBytes s.disk.store (s.disk.store.read (s.mountTable m).part
    (toU32 (s.folders dir).driveAddr) sizeofDiskFolder).2 := ⟨rfl, rfl, rfl, rfl⟩
  cases hread : (s.disk.store.read (s.mountTable m).part (toU32 (s.folders dir).driveAddr)
    sizeofDiskFolder).1 with
  | none => exact ⟨_, hrequest, rfl⟩
  | some bytes =>
    rw [recordAt, ← (Store.read_eq_some hread).2] at hrecord
    dsimp only
    rw [hrecord.1, hrecord.2]
    split_ifs
    · exact ⟨_, hrequest, rfl⟩
    · exact ⟨_, hrequest, rfl⟩
    · exact ⟨_, hrequest, rfl⟩

namespace GrownTree

variable {m : ℕ} {S : Set Ptr} {mem : Memory}

/-- A change of one folder of the mount. -/
theorem modify (h : GrownTree b m root S s) (dir : Ptr) (g : RamfsFoder → RamfsFoder)
    (hnext : s.mem.next ≤ mem.next) (hg : GrownFolder m root S dir (g (s.folders dir))) :
    GrownTree b m root S ((s.modifyFolder dir g).setMem mem) where
  root_mem := h.root_mem
  root_le := h.root_le
  lt_next := fun p hp => (h.lt_next p hp).trans_le hnext
  folder := by
    intro p hp
    rcases eq_or_ne p dir with rfl | hne
    · rw [Fs.setMem_folders, Fs.modifyFolder_self]
      exact hg
    · rw [Fs.setMem_folders, Fs.modifyFolder_of_ne _ _ hne]
      exact h.folder p hp
  store := h.store
  mountTable := h.mountTable
  mountCount := h.mountCount

theorem setMem (h : GrownTree b m root S s) (hnext : s.mem.next ≤ mem.next) :
    GrownTree b m root S (s.setMem mem) :=
  { h with lt_next := fun p hp => (h.lt_next p hp).trans_le hnext }

theorem of_onlyMem (h : GrownTree b m root S s) (ht : OnlyMem s t) : GrownTree b m root S t := by
  obtain ⟨mem, hnext, rfl⟩ := ht
  exact h.setMem hnext

theorem setStore (h : GrownTree b m root S s) {st : Store} (hsame : SameBytes s.disk.store st) :
    GrownTree b m root S (s.setStore st) :=
  { h with store := h.store.trans hsame }

/-- The file table of a folder is replaced. -/
theorem putFiles (h : GrownTree b m root S s) (hdir : dir ∈ S) (hnext : s.mem.next ≤ mem.next)
    {map : RamfsFileHashmap} (hrep : Rep djb2Bucket map) (hfile : ∀ nd ∈ map.nodes, NewFile nd) :
    GrownTree b m root S (putFiles s dir map mem) :=
  h.modify dir _ hnext ((h.folder dir hdir).mark (h.folder dir hdir).foders hrep
    (h.folder dir hdir).entry hfile)

/-- An object is made at the first new address. -/
theorem fresh (h : GrownTree b m root S s) (hdir : dir ∈ S) (name : CString)
    (hnext : s.mem.next < mem.next) :
    GrownTree b m root (insert s.mem.next S)
      ((s.setFolder s.mem.next (newDirNode s dir name)).setMem mem) where
  root_mem := Set.mem_insert_of_mem _ h.root_mem
  root_le := by
    rintro p (rfl | hp)
    · exact (h.lt_next root h.root_mem).le
    · exact h.root_le p hp
  lt_next := by
    rintro p (rfl | hp)
    · exact hnext
    · exact (h.lt_next p hp).trans hnext
  folder := by
    rintro p (rfl | hp)
    · have hne : s.mem.next ≠ root := Nat.ne_of_gt (h.lt_next root h.root_mem)
      have hmount := (h.folder dir hdir).mount
      rw [Fs.setMem_folders, Fs.setFolder_self]
      refine ⟨rep_empty djb2Bucket, rep_empty djb2Bucket, fun nd hnd => ?_, fun nd hnd => ?_, hmount,
        fun hp => absurd hp hne, fun _ => ⟨?_, rfl⟩⟩
      · exact absurd (nodes_empty ▸ hnd : nd ∈ []) List.not_mem_nil
      · exact absurd (nodes_empty ▸ hnd : nd ∈ []) List.not_mem_nil
      · exact if_neg fun hnone => Option.some_ne_none m (hmount.symm.trans hnone)
    · rw [Fs.setMem_folders, Fs.setFolder_of_ne _ _ (Nat.ne_of_lt (h.lt_next p hp))]
      exact (h.folder p hp).mono (Set.subset_insert _ _)
  store := h.store
  mountTable := h.mountTable
  mountCount := h.mountCount

/-! ### The steps -/

/-- A folder of the mount is loaded only as long as it is the empty root, and then nothing comes of
it but a request. -/
theorem lazyLoad (h : GrownTree b m root S s)
    (hrecord : recordAt b.disk.store (b.mountTable m).part sizeofSuperblock = rootRecord)
    (hdir : dir ∈ S) :
    ∃ st, SameBytes s.disk.store st ∧ lazyLoadDirectory s dir = s.setStore st := by
  by_cases hroot : dir = root
  swap
  · have hnew := ((h.folder dir hdir).below hroot).1
    refine ⟨_, SameBytes.refl s.disk.store, lazyLoadDirectory_of_loaded fun hload => ?_⟩
    rw [hload.1] at hnew
    exact absurd hnew (by decide)
  refine lazyLoadDirectory_of_empty (h.folder dir hdir).mount ?_
  have hempty : recordAt s.disk.store (s.mountTable m).part (toU32 (s.folders dir).driveAddr) =
      rootRecord := by
    rw [← hrecord, recordAt, recordAt, ((h.folder dir hdir).top hroot).driveAddr, h.store.bytes,
      h.mountTable]
    rfl
  rw [hempty]
  exact ⟨rfl, rfl⟩

/-- A name that is not found is no key. -/
theorem key_ne (h : GrownTree b m root S s) (hdir : dir ∈ S) (hfree : NameFree s dir name) :
    lookup djb2Bucket (s.folders dir).foderMap name = none ∧
      lookup djb2Bucket (s.folders dir).fileMap name = none := by
  obtain ⟨hfoder, hfile⟩ := hfree
  refine ⟨(ramfsHashmapFind_eq_lookup _ _).symm.trans hfoder, ?_⟩
  by_contra hne
  exact NamedTable.find_ne_none (h.folder dir hdir).files (fileStreq_self name) hne hfile

theorem touchIn (h : GrownTree b m root S u) (hdir : dir ∈ S) (hu : lazyLoadDirectory s dir = u)
    (hlen : name.chars.length ≤ 127) : GrownTree b m root S (touchIn s dir name).2 := by
  rcases touchIn_outcome hu hlen with honly | ⟨hfree, mem, hnext, heq⟩
  · exact h.of_onlyMem honly
  rw [heq]
  have htag : newTag (u.folders dir) = RAMFS_TYPE_NEW :=
    if_neg fun hnone => Option.some_ne_none m ((h.folder dir hdir).mount.symm.trans hnone)
  refine h.putFiles hdir hnext (rep_pushNode (h.folder dir hdir).files (h.key_ne hdir hfree).2)
    fun nd hnd => ?_
  rcases List.mem_cons.1 ((nodes_pushNode_perm _ _).mem_iff.1 hnd) with rfl | hold
  · exact ⟨rfl, hlen, htag, rfl, le_refl _, by norm_num, fun _ => rfl⟩
  · exact (h.folder dir hdir).file nd hold

theorem rmIn (h : GrownTree b m root S u) (hdir : dir ∈ S) (hu : lazyLoadDirectory s dir = u)
    (name : CString) : GrownTree b m root S (rmIn s dir name).2 := by
  rcases rmIn_outcome hu name with heq | ⟨nd, mem, hnode, hnext, heq⟩
  · rw [heq]
    exact h
  · rw [heq]
    exact h.putFiles hdir hnext (rep_delete_of_findNode (h.folder dir hdir).files hnode)
      fun nd' hnd' => (h.folder dir hdir).file nd' (mem_nodes_delete hnd')

theorem storesBacked (h : GrownTree b m root S s) (hdir : dir ∈ S) (ht : StoresBacked s dir name t) :
    GrownTree b m root S t := by
  obtain ⟨data, length, mem, hnext, hnonneg, hlt, hdata, rfl⟩ := ht
  refine h.putFiles hdir hnext (rep_modify (h.folder dir hdir).files _) fun nd hnd => ?_
  obtain ⟨nd₀, hnd₀, rfl | rfl⟩ := mem_nodes_modify hnd
  · exact (h.folder dir hdir).file _ hnd₀
  · have hold := (h.folder dir hdir).file nd₀ hnd₀
    exact ⟨hold.name, hold.length_le, if_pos hold.driveAddr, hold.driveAddr, hnonneg, hlt, hdata⟩

theorem writeIn (h : GrownTree b m root S u) (hdir : dir ∈ S) (hu : lazyLoadDirectory s dir = u)
    (name : CString) (data : Data) : GrownTree b m root S (writeIn s dir name data).2 :=
  (writeIn_backed hu name data).elim h.of_onlyMem (h.storesBacked hdir)

/-- The data of a new file is in memory, and is not loaded. -/
theorem loadData (h : GrownTree b m root S s) (hdir : dir ∈ S) {info : RamfsFileInfo}
    (hfind : ramfsFileHashmapFind (s.folders dir).fileMap name = some info) :
    GrownTree b m root S (loadData s dir name info).2 := by
  obtain ⟨nd, hnode, rfl⟩ := exists_findNode_of_find hfind
  have hnew := (h.folder dir hdir).file nd (mem_nodes_of_findNode hnode)
  have hloaded : nd.value.ptr ≠ none ∨ nd.value.length = 0 :=
    or_iff_not_imp_left.2 fun hnone => hnew.data (not_not.1 hnone)
  rw [LittleLinux.loadData, (h.folder dir hdir).mount]
  dsimp only
  rw [dfsLoadFileData, if_pos hloaded]
  refine (h.modify dir _ (le_refl _) ?_).setStore (SameBytes.refl _)
  refine (h.folder dir hdir).fewer (h.folder dir hdir).foders (rep_modify (h.folder dir hdir).files _)
    (fun nd' hnd' => hnd') fun nd' hnd' => ?_
  -- the entry is overwritten with what it was
  obtain ⟨rest, hold, hmodified⟩ := nodes_modify_perm hnode fun _ => nd.value
  exact hold.mem_iff.2 (hmodified.mem_iff.1 hnd')

theorem backspaceIn (h : GrownTree b m root S u) (hdir : dir ∈ S) (hu : lazyLoadDirectory s dir = u)
    (name : CString) (count : ℤ) : GrownTree b m root S (backspaceIn s dir name count).2 := by
  rw [LittleLinux.backspaceIn, hu]
  dsimp only
  cases hfind : ramfsFileHashmapFind (u.folders dir).fileMap name with
  | none => exact h
  | some info =>
    have hload := h.loadData hdir hfind
    dsimp only
    generalize LittleLinux.loadData u dir name info = l at hload
    split_ifs
    · exact hload
    · cases ramfsFileHashmapFind (l.2.folders dir).fileMap name with
      | none => exact hload
      | some info =>
        exact (cutFile_backed l.2 dir name info count).elim hload.of_onlyMem (hload.storesBacked hdir)

/-- An object is made in vain. -/
theorem unmade (h : GrownTree b m root S s) (node : RamfsFoder) :
    GrownTree b m root S (s.setFolder s.mem.next node) where
  root_mem := h.root_mem
  root_le := h.root_le
  lt_next := h.lt_next
  folder := by
    intro p hp
    rw [Fs.setFolder_of_ne _ _ (Nat.ne_of_lt (h.lt_next p hp))]
    exact h.folder p hp
  store := h.store
  mountTable := h.mountTable
  mountCount := h.mountCount

theorem mkdirIn (h : GrownTree b m root S u) (hdir : dir ∈ S) (hu : lazyLoadDirectory s dir = u)
    (hlen : name.chars.length ≤ 127) : ∃ T, GrownTree b m root T (mkdirIn s dir name).2 := by
  rcases mkdirIn_cases hu name with honly | ⟨hfree, mem, hnext, heq⟩
  · exact ⟨S, h.of_onlyMem honly⟩
  have hlt := h.lt_next dir hdir
  rw [heq]
  rcases enterDir_outcome hlt hnext hlen hfree.1 with honly | ⟨a, mem', hnext', heq⟩
  · exact ⟨S, (h.unmade _).of_onlyMem honly⟩
  rw [heq]
  have hfresh := h.fresh hdir name hnext'
  have hold := (h.folder dir hdir).mono (Set.subset_insert u.mem.next S)
  have htype : (newDirNode u dir name).type = RAMFS_FOLDER_TYPE_NEW :=
    if_neg fun hnone => Option.some_ne_none m (hold.mount.symm.trans hnone)
  refine ⟨insert u.mem.next S, hfresh.modify dir (fun f => markDirty (f.setFoderMap _))
    (le_refl mem'.next) ?_⟩
  rw [Fs.setMem_folders, Fs.setFolder_of_ne _ _ (Nat.ne_of_lt hlt)]
  refine hold.mark (rep_pushNode hold.foders (h.key_ne hdir hfree).1) hold.files (fun nd hnd => ?_)
    hold.file
  rcases List.mem_cons.1 ((nodes_pushNode_perm _ _).mem_iff.1 hnd) with rfl | hnd
  · exact ⟨rfl, hlen, rfl, Set.mem_insert _ _, h.lt_next root h.root_mem⟩
  · exact hold.entry nd hnd

theorem rmdirIn (h : GrownTree b m root S u) (hdir : dir ∈ S) (hu : lazyLoadDirectory s dir = u)
    (name : CString) : GrownTree b m root S (rmdirIn s dir name).2 := by
  rcases rmdirIn_outcome hu name with heq | ⟨nd, mem, hnode, hnext, heq⟩
  · rw [heq]
    exact h
  rw [heq]
  have hptr := ((h.folder dir hdir).entry nd (mem_nodes_of_findNode hnode)).mem
  have hdelete : GrownTree b m root S ((u.modifyFolder dir (·.setFoderMap
      (ChainTable.delete foderTable.streq djb2Bucket (u.folders dir).foderMap name).2)).setMem u.mem) :=
    h.modify dir _ (le_refl _) ((h.folder dir hdir).fewer
      (rep_delete_of_findNode (h.folder dir hdir).foders hnode) (h.folder dir hdir).files
      (fun nd' hnd' => mem_nodes_delete hnd') fun _ hnd' => hnd')
  have hempty := hdelete.modify nd.value.ptr emptyTables (le_refl u.mem.next)
    ((hdelete.folder _ hptr).fewer (rep_empty djb2Bucket) (rep_empty djb2Bucket)
      (fun nd' hnd' => absurd (nodes_empty ▸ hnd' : nd' ∈ []) List.not_mem_nil)
      fun nd' hnd' => absurd (nodes_empty ▸ hnd' : nd' ∈ []) List.not_mem_nil)
  have hold := hempty.folder dir hdir
  exact hempty.modify dir markDirty hnext (hold.mark hold.foders hold.files hold.entry hold.file)

/-- What is below the root is in the set. -/
theorem mem_of_below (h : GrownTree b m root S s) (hp : Below (kids s) root p) : p ∈ S := by
  refine hp.mem_of_closed (fun q hq c hc => ?_) h.root_mem
  obtain ⟨nd, hnd, rfl⟩ := List.mem_map.1 hc
  exact ((h.folder q hq).entry nd hnd).mem

end GrownTree

/-! ### Runs -/

/-- A call that makes, changes or removes something in the tree below `root`, or goes to another
directory. -/
def FsOp.Inside (root : Ptr) (s : Fs) : FsOp → Prop
  | .mkdir _ dir | .rmdir _ dir | .write _ _ dir => ∀ p, fromDir s dir = some p → Below (kids s) root p
  | .touch name dir | .rm name dir | .backspace name _ dir => ∀ r, parsePath s name dir = .ok r →
    Below (kids s) root r.1
  | .cd _ => True
  | .cat _ _ | .syncFolder _ | .syncAll | .mount _ _ | .umount _ => False

/-- **One step.** -/
theorem GrownTree.step {m : ℕ} {S : Set Ptr} (h : GrownTree b m root S s)
    (hrecord : recordAt b.disk.store (b.mountTable m).part sizeofSuperblock = rootRecord) {op : FsOp}
    (hop : op.Inside root s) : ∃ T, GrownTree b m root T (fsStep s op) := by
  -- the folder that a call works in is loaded first
  have hload : ∀ p, Below (kids s) root p → p ∈ S ∧ GrownTree b m root S (lazyLoadDirectory s p) := by
    intro p hp
    have hmem := h.mem_of_below hp
    obtain ⟨st, hsame, heq⟩ := h.lazyLoad hrecord hmem
    exact ⟨hmem, heq ▸ h.setStore hsame⟩
  obtain ⟨r, hcase, hstep⟩ := fsStep_cases s op
  rw [hstep]
  cases hcase with
  | refused => exact ⟨S, h⟩
  | mkdir hdir hlen =>
    obtain ⟨hp, hgrown⟩ := hload _ (hop _ hdir)
    exact hgrown.mkdirIn hp rfl (by omega)
  | cd =>
    exact ⟨S, h.root_mem, h.root_le, h.lt_next, h.folder, h.store, h.mountTable, h.mountCount⟩
  | rm hparse =>
    obtain ⟨hp, hgrown⟩ := hload _ (hop _ hparse)
    exact ⟨S, hgrown.rmIn hp rfl _⟩
  | rmdir hdir =>
    obtain ⟨hp, hgrown⟩ := hload _ (hop _ hdir)
    exact ⟨S, hgrown.rmdirIn hp rfl _⟩
  | touch hparse hlen =>
    obtain ⟨hp, hgrown⟩ := hload _ (hop _ hparse)
    exact ⟨S, hgrown.touchIn hp rfl (by omega)⟩
  | write hdir =>
    obtain ⟨hp, hgrown⟩ := hload _ (hop _ hdir)
    exact ⟨S, hgrown.writeIn hp rfl _ _⟩
  | backspace hparse =>
    obtain ⟨hp, hgrown⟩ := hload _ (hop _ hparse)
    exact ⟨S, hgrown.backspaceIn hp rfl _ _⟩
  | _ => exact hop.elim

/-- **Along a run inside the mount** nothing but new folders and files is made. -/
theorem GrownTree.run {m : ℕ} {S : Set Ptr} (h : GrownTree b m root S s)
    (hrecord : recordAt b.disk.store (b.mountTable m).part sizeofSuperblock = rootRecord)
    {ops : List FsOp} (hops : Along fsStep (FsOp.Inside root) s ops) :
    ∃ T, GrownTree b m root T (ops.foldl fsStep s) := by
  refine Along.invariant (I := fun s => ∃ T, GrownTree b m root T s) ?_ ⟨S, h⟩ hops
  rintro s op ⟨T, hs⟩ hop
  exact hs.step hrecord hop

end LittleLinux
