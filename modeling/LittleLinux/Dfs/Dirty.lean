import LittleLinux.Dfs.Dangling

/-!
# Dirtiness and the root of a mount

`dfs_sync_folder` goes down from the root of a mount through folders that are new or dirty, so
what is changed below a clean folder is never written. `DirtyReaches s root` says that this
does not happen in the tree below `root`: every folder on the way to something changed is new or
dirty itself.

The calls mark only the folder they change, and `dfs_sync_folder` cleans the root whatever
became of what is below it. So a call keeps dirtiness in reach of the root when the folder that
holds the changed one is dirty already, and a synchronisation when nothing directly in the root
is changed.
-/

namespace LittleLinux

open ChainTable

variable {s s' t : Fs} {root dir : Ptr}

/-- A file of the folder has something to write back. -/
def HoldsDirtyFile (f : RamfsFoder) : Prop := ∃ nd ∈ f.fileMap.nodes, IsDirtyTag nd.value.type

/-- Every folder between `root` and one that is new or dirty, or holds a new or dirty file, is
new or dirty. -/
def DirtyReaches (s : Fs) (root : Ptr) : Prop :=
  ∀ q p, Below (kids s) root q → Below (kids s) q p →
    IsDirtyType (s.folders p).type ∨ HoldsDirtyFile (s.folders p) → IsDirtyType (s.folders q).type

/-! ### The invariant -/

/-- A folder is clean, or new or dirty, or it belongs to no mount. -/
def TagKnown (f : RamfsFoder) : Prop :=
  f.type = RAMFS_FOLDER_TYPE_DISK_CLEAN ∨ IsDirtyType f.type ∨
    f.type = RAMFS_FOLDER_TYPE_MEM ∧ f.mount = none

/-- Dirtiness passes from a file to its folder, and from a folder to the one that holds it. -/
structure DirtyInv (s : Fs) (root : Ptr) : Prop where
  lt_next : ∀ p, Below (kids s) root p → p < s.mem.next
  tag : ∀ p, Below (kids s) root p → TagKnown (s.folders p)
  file : ∀ p, Below (kids s) root p → HoldsDirtyFile (s.folders p) → IsDirtyType (s.folders p).type
  kid : ∀ p, Below (kids s) root p → ∀ c ∈ kids s p, IsDirtyType (s.folders c).type →
    IsDirtyType (s.folders p).type

theorem DirtyInv.reaches (h : DirtyInv s root) : DirtyReaches s root := by
  intro q p hq hp hdirty
  -- the way from `q` down to `p` is followed backwards
  induction hp with
  | refl => exact hdirty.elim id (h.file q hq)
  | tail hp hc ih =>
    refine ih (Or.inl (h.kid _ (hq.trans hp) _ hc ?_))
    exact hdirty.elim id (h.file _ ((hq.trans hp).tail hc))

/-- The folders that hold `dir` are new or dirty; the root of a mount is held by none. -/
def Covered (s : Fs) (root dir : Ptr) : Prop :=
  ∀ p, Below (kids s) root p → dir ∈ kids s p → IsDirtyType (s.folders p).type

/-- The folder may turn from clean to dirty. -/
def MayMark (s : Fs) (root dir : Ptr) : Prop :=
  (s.folders dir).type = RAMFS_FOLDER_TYPE_DISK_CLEAN → Covered s root dir

/-- A folder that was made between `s` and `s'` and has nothing in it, entered into `p`. -/
structure NewLeaf (s s' : Fs) (p c : Ptr) : Prop where
  le : s.mem.next ≤ c
  lt : c < s'.mem.next
  kids_eq : kids s' c = []
  files_eq : (s'.folders c).fileMap.nodes = []
  tag : TagKnown (s'.folders c)
  dirty : IsDirtyType (s'.folders c).type → IsDirtyType (s'.folders p).type

/-- What may become of a folder `p`: its entries are old ones or new leaves, and it turns dirty
only where the folders that hold it are dirty. -/
structure Kept (s s' : Fs) (root p : Ptr) : Prop where
  type : (s'.folders p).type = (s.folders p).type ∨
    Covered s root p ∧ IsDirtyType (s'.folders p).type
  mount : (s'.folders p).mount = (s.folders p).mount
  file : HoldsDirtyFile (s'.folders p) → HoldsDirtyFile (s.folders p) ∨ IsDirtyType (s'.folders p).type
  kid : ∀ c ∈ kids s' p, c ∈ kids s p ∨ NewLeaf s s' p c

section Change

theorem Kept.dirty {p : Ptr} (h : Kept s s' root p) (hp : IsDirtyType (s.folders p).type) :
    IsDirtyType (s'.folders p).type := by
  rcases h.type with heq | ⟨-, hdirty⟩
  · rw [heq]
    exact hp
  · exact hdirty

theorem Kept.tag {p : Ptr} (h : Kept s s' root p) (hp : TagKnown (s.folders p)) :
    TagKnown (s'.folders p) := by
  rcases h.type with heq | ⟨-, hdirty⟩
  · rw [TagKnown, heq, h.mount]
    exact hp
  · exact Or.inr (Or.inl hdirty)

/-- What is in the tree after a change was there before, or is a new leaf. -/
theorem below_of_kept (hkept : ∀ p, Below (kids s) root p → Kept s s' root p) {p : Ptr}
    (hp : Below (kids s') root p) :
    Below (kids s) root p ∨ ∃ q, Below (kids s) root q ∧ NewLeaf s s' q p := by
  refine hp.mem_of_closed (S := {p | Below (kids s) root p ∨
    ∃ q, Below (kids s) root q ∧ NewLeaf s s' q p}) ?_ (Or.inl (Below.refl _ _))
  rintro p (hp | ⟨q, -, hleaf⟩) c hc
  · rcases (hkept p hp).kid c hc with hc | hleaf
    · exact Or.inl (hp.tail hc)
    · exact Or.inr ⟨p, hp, hleaf⟩
  · rw [hleaf.kids_eq] at hc
    exact absurd hc List.not_mem_nil

/-- **A change** keeps the invariant when every folder that turns dirty is covered. -/
theorem DirtyInv.change (h : DirtyInv s root) (hnext : s.mem.next ≤ s'.mem.next)
    (hkept : ∀ p, Below (kids s) root p → Kept s s' root p) : DirtyInv s' root := by
  refine ⟨fun p hp => ?_, fun p hp => ?_, fun p hp hfile => ?_, fun p hp c hc hdirty => ?_⟩
  · rcases below_of_kept hkept hp with hp | ⟨q, -, hleaf⟩
    · exact (h.lt_next p hp).trans_le hnext
    · exact hleaf.lt
  · rcases below_of_kept hkept hp with hp | ⟨q, -, hleaf⟩
    · exact (hkept p hp).tag (h.tag p hp)
    · exact hleaf.tag
  · rcases below_of_kept hkept hp with hp | ⟨q, -, hleaf⟩
    · rcases (hkept p hp).file hfile with hold | hdirty
      · exact (hkept p hp).dirty (h.file p hp hold)
      · exact hdirty
    · obtain ⟨nd, hnd, -⟩ := hfile
      rw [hleaf.files_eq] at hnd
      exact absurd hnd List.not_mem_nil
  · rcases below_of_kept hkept hp with hp | ⟨q, -, hleaf⟩
    · rcases (hkept p hp).kid c hc with hold | hleaf
      · rcases (hkept c (hp.tail hold)).type with heq | ⟨hcov, -⟩
        · rw [heq] at hdirty
          exact (hkept p hp).dirty (h.kid p hp c hold hdirty)
        · exact (hkept p hp).dirty (hcov p hp hold)
      · exact hleaf.dirty hdirty
    · rw [hleaf.kids_eq] at hc
      exact absurd hc List.not_mem_nil

end Change

/-! ### One folder -/

section Modify

variable {g : RamfsFoder → RamfsFoder} {mem : Memory}

theorem markDirty_type (f : RamfsFoder) : (markDirty f).type = f.type ∨
    f.type = RAMFS_FOLDER_TYPE_DISK_CLEAN ∧ IsDirtyType (markDirty f).type := by
  rw [markDirty]
  split_ifs with hclean
  · exact Or.inr ⟨hclean, Or.inr rfl⟩
  · exact Or.inl rfl

/-- A folder that belongs to a mount is dirty once it is marked. -/
theorem isDirtyType_markDirty {f : RamfsFoder} (htag : TagKnown f)
    (hf : f.type ≠ RAMFS_FOLDER_TYPE_MEM ∨ f.mount ≠ none) : IsDirtyType (markDirty f).type := by
  rw [markDirty]
  split_ifs with hclean
  · exact Or.inr rfl
  · rcases htag with h | h | ⟨hmem, hnone⟩
    · exact absurd h hclean
    · exact h
    · exact absurd hf (by simp [hmem, hnone])

/-- A folder that is the same after a change. -/
theorem Kept.of_eq {p : Ptr} (h : s'.folders p = s.folders p) : Kept s s' root p := by
  refine ⟨Or.inl ?_, ?_, ?_, fun c hc => Or.inl ?_⟩
  · rw [h]
  · rw [h]
  · rw [h]
    exact Or.inl
  · rw [kids, h] at hc
    exact hc

/-- A change of `dir` that adds no folder. -/
theorem DirtyInv.modify (h : DirtyInv s root) (hnext : s.mem.next ≤ mem.next)
    (htype : (g (s.folders dir)).type = (s.folders dir).type ∨
      Covered s root dir ∧ IsDirtyType (g (s.folders dir)).type)
    (hmount : (g (s.folders dir)).mount = (s.folders dir).mount)
    (hfile : Below (kids s) root dir → HoldsDirtyFile (g (s.folders dir)) →
      HoldsDirtyFile (s.folders dir) ∨ IsDirtyType (g (s.folders dir)).type)
    (hkid : ∀ nd ∈ (g (s.folders dir)).foderMap.nodes, nd.value.ptr ∈ kids s dir) :
    DirtyInv ((s.modifyFolder dir g).setMem mem) root := by
  refine h.change hnext fun p hp => ?_
  rcases eq_or_ne p dir with rfl | hne
  · have hself : ((s.modifyFolder p g).setMem mem).folders p = g (s.folders p) :=
      s.modifyFolder_self p g
    refine ⟨?_, ?_, ?_, fun c hc => Or.inl ?_⟩
    · rw [hself]
      exact htype
    · rw [hself]
      exact hmount
    · rw [hself]
      exact hfile hp
    · rw [kids, hself] at hc
      obtain ⟨nd, hnd, rfl⟩ := List.mem_map.1 hc
      exact hkid nd hnd
  · exact Kept.of_eq (s.modifyFolder_of_ne g hne)

/-- A change of the disks alone. -/
theorem DirtyInv.setStore (h : DirtyInv s root) (st : Store) : DirtyInv (s.setStore st) root :=
  ⟨h.lt_next, h.tag, h.file, h.kid⟩

/-- A change of the allocator alone. -/
theorem DirtyInv.setMem (h : DirtyInv s root) (hnext : s.mem.next ≤ mem.next) :
    DirtyInv (s.setMem mem) root :=
  ⟨fun p hp => (h.lt_next p hp).trans_le hnext, h.tag, h.file, h.kid⟩

end Modify

/-! ### Loading -/

/-- A clean folder that was made between `s` and `t` and has nothing in it. -/
structure CleanLeaf (s t : Fs) (c : Ptr) : Prop where
  le : s.mem.next ≤ c
  lt : c < t.mem.next
  foders : (t.folders c).foderMap = Table.empty
  files : (t.folders c).fileMap = Table.empty
  clean : (t.folders c).type = RAMFS_FOLDER_TYPE_DISK_CLEAN

/-- From `s` to `t` no folder that was there changed, but for `dir`. -/
structure ChangesOnly (dir : Ptr) (s t : Fs) : Prop where
  next_le : s.mem.next ≤ t.mem.next
  other : ∀ p < s.mem.next, p ≠ dir → t.folders p = s.folders p

/-- From `s` to `t` the folder `dir` was filled with clean folders and unchanged files. -/
structure Loaded (s t : Fs) (dir : Ptr) : Prop extends ChangesOnly dir s t where
  dir_lt : dir < s.mem.next
  type : (t.folders dir).type = (s.folders dir).type
  mount : (t.folders dir).mount = (s.folders dir).mount
  file : HoldsDirtyFile (t.folders dir) → HoldsDirtyFile (s.folders dir)
  kid : ∀ c ∈ kids t dir, c ∈ kids s dir ∨ CleanLeaf s t c

section ChangesOnly

theorem ChangesOnly.refl (dir : Ptr) (s : Fs) : ChangesOnly dir s s := ⟨le_refl _, fun _ _ _ => rfl⟩

theorem ChangesOnly.trans (h : ChangesOnly dir s t) (h' : ChangesOnly dir t s') :
    ChangesOnly dir s s' :=
  ⟨h.next_le.trans h'.next_le, fun p hp hne =>
    (h'.other p (hp.trans_le h.next_le) hne).trans (h.other p hp hne)⟩

theorem changesOnly_setMem {mem : Memory} (hnext : s.mem.next ≤ mem.next) :
    ChangesOnly dir s (s.setMem mem) :=
  ⟨hnext, fun _ _ _ => rfl⟩

theorem changesOnly_setStore (st : Store) : ChangesOnly dir s (s.setStore st) :=
  ⟨le_refl _, fun _ _ _ => rfl⟩

theorem changesOnly_modifyFolder (g : RamfsFoder → RamfsFoder) :
    ChangesOnly dir s (s.modifyFolder dir g) :=
  ⟨le_refl _, fun _ _ hne => s.modifyFolder_of_ne g hne⟩

/-- A new folder object. -/
theorem changesOnly_setFolder {mem : Memory} (hnext : s.mem.next ≤ mem.next) (node : RamfsFoder) :
    ChangesOnly dir s ((s.setMem mem).setFolder s.mem.next node) :=
  ⟨hnext, fun _ hp _ => Fs.setFolder_of_ne _ _ (Nat.ne_of_lt hp)⟩

theorem changesOnly_addSubfolder {mem : Memory} (hnext : s.mem.next ≤ mem.next) (node : RamfsFoder)
    (info : RamfsFoderInfo) :
    ChangesOnly dir s (addSubfolder (s.setMem mem) dir s.mem.next node info) :=
  ((changesOnly_setFolder hnext node).trans (changesOnly_modifyFolder _)).trans
    (changesOnly_setMem (next_le_insert _ _ _ _ _))

theorem changesOnly_loadSubfolders {known : Bool} {mount : Option ℕ} {parent : Option Ptr}
    (es : List DiskFoderInfo) : ChangesOnly dir s (loadSubfolders known mount parent dir es s).2 := by
  induction es generalizing s with
  | nil => exact ChangesOnly.refl dir s
  | cons e es ih =>
    have hnext := s.mem.next_le_next_malloc sizeofRamfsFoder
    rw [loadSubfolders]
    split_ifs
    · exact ih
    · dsimp only
      cases ha : (s.mem.malloc sizeofRamfsFoder).1 with
      | none => exact changesOnly_setMem hnext
      | some sub =>
        obtain ⟨rfl, -⟩ := Memory.malloc_eq_some ha
        exact (changesOnly_addSubfolder hnext _ _).trans ih

theorem changesOnly_loadFiles {known : Bool} (es : List DiskFileInfo) :
    ChangesOnly dir s (loadFiles known dir es s) := by
  induction es generalizing s with
  | nil => exact ChangesOnly.refl dir s
  | cons e es ih =>
    rw [loadFiles]
    split_ifs
    · exact ih
    · exact ((changesOnly_modifyFolder _).trans (changesOnly_setMem (next_le_insert _ _ _ _ _))).trans ih

end ChangesOnly

section Loads

variable {mem : Memory}

theorem Loaded.refl (hdir : dir < s.mem.next) : Loaded s s dir :=
  ⟨ChangesOnly.refl dir s, hdir, rfl, rfl, id, fun _ => Or.inl⟩

/-- A change that leaves the folders alone. -/
theorem Loaded.setMem (h : Loaded s t dir) (hnext : t.mem.next ≤ mem.next) :
    Loaded s (t.setMem mem) dir where
  toChangesOnly := h.toChangesOnly.trans (changesOnly_setMem hnext)
  dir_lt := h.dir_lt
  type := h.type
  mount := h.mount
  file := h.file
  kid := fun c hc => (h.kid c hc).imp id fun hl => { hl with lt := hl.lt.trans_le hnext }

theorem Loaded.setStore (h : Loaded s t dir) (st : Store) : Loaded s (t.setStore st) dir :=
  ⟨h.toChangesOnly.trans (changesOnly_setStore st), h.dir_lt, h.type, h.mount, h.file,
    fun c hc => (h.kid c hc).imp id fun hl => ⟨hl.le, hl.lt, hl.foders, hl.files, hl.clean⟩⟩

/-- The table of `dir` is changed: to each old entry at most one new leaf is added. -/
theorem Loaded.table (h : Loaded s t dir) {g : RamfsFoder → RamfsFoder}
    (htype : (g (t.folders dir)).type = (t.folders dir).type)
    (hmount : (g (t.folders dir)).mount = (t.folders dir).mount)
    (hfile : HoldsDirtyFile (g (t.folders dir)) → HoldsDirtyFile (t.folders dir))
    (hkid : ∀ nd ∈ (g (t.folders dir)).foderMap.nodes,
      nd.value.ptr ∈ kids t dir ∨ CleanLeaf s t nd.value.ptr) :
    Loaded s (t.modifyFolder dir g) dir where
  toChangesOnly := h.toChangesOnly.trans (changesOnly_modifyFolder g)
  dir_lt := h.dir_lt
  type := by rw [t.modifyFolder_self, htype, h.type]
  mount := by rw [t.modifyFolder_self, hmount, h.mount]
  file := by
    rw [t.modifyFolder_self]
    exact fun hd => h.file (hfile hd)
  kid := by
    intro c hc
    rw [kids, t.modifyFolder_self] at hc
    obtain ⟨nd, hnd, rfl⟩ := List.mem_map.1 hc
    -- the leaves are not `dir`, so they are as they were
    have hleaf : CleanLeaf s t nd.value.ptr → CleanLeaf s (t.modifyFolder dir g) nd.value.ptr := by
      intro hl
      have hsame := t.modifyFolder_of_ne g (Nat.ne_of_gt (h.dir_lt.trans_le hl.le))
      exact ⟨hl.le, hl.lt, hsame ▸ hl.foders, hsame ▸ hl.files, hsame ▸ hl.clean⟩
    rcases hkid nd hnd with hold | hl
    · exact (h.kid _ hold).imp id hleaf
    · exact Or.inr (hleaf hl)

/-- One subfolder entry. -/
theorem Loaded.addSubfolder (h : Loaded s t dir) {node : RamfsFoder} {info : RamfsFoderInfo}
    (hfoders : node.foderMap = Table.empty) (hfiles : node.fileMap = Table.empty)
    (hclean : node.type = RAMFS_FOLDER_TYPE_DISK_CLEAN) (hnext : t.mem.next < mem.next)
    (hptr : info.ptr = t.mem.next) :
    Loaded s (addSubfolder (t.setMem mem) dir t.mem.next node info) dir := by
  have hne : ∀ p < t.mem.next, ((t.setMem mem).setFolder t.mem.next node).folders p = t.folders p :=
    fun p hp => Fs.setFolder_of_ne _ _ (Nat.ne_of_lt hp)
  have hdir := hne dir (h.dir_lt.trans_le h.next_le)
  -- the object is made
  have hmade : Loaded s ((t.setMem mem).setFolder t.mem.next node) dir := by
    refine ⟨h.toChangesOnly.trans (changesOnly_setFolder hnext.le node), h.dir_lt, ?_, ?_, ?_,
      fun c hc => ?_⟩
    · rw [hdir, h.type]
    · rw [hdir, h.mount]
    · rw [hdir]
      exact h.file
    · rw [kids, hdir] at hc
      refine (h.kid c hc).imp id fun hl => ?_
      have hsame := hne c hl.lt
      exact ⟨hl.le, hl.lt.trans hnext, hsame ▸ hl.foders, hsame ▸ hl.files, hsame ▸ hl.clean⟩
  have hnew : CleanLeaf s ((t.setMem mem).setFolder t.mem.next node) t.mem.next := by
    have hself := (t.setMem mem).setFolder_self t.mem.next node
    refine ⟨h.next_le, hnext, ?_, ?_, ?_⟩
    · rw [hself, hfoders]
    · rw [hself, hfiles]
    · rw [hself, hclean]
  -- and entered
  refine Loaded.setMem (hmade.table rfl rfl id fun nd hnd => ?_) (next_le_insert _ _ _ _ _)
  rcases foderTable.mem_insert hnd with ⟨nd₀, hnd₀, -, hval | hval⟩ | ⟨-, -, hval⟩
  · rw [hval]
    exact Or.inl (List.mem_map.2 ⟨nd₀, hnd₀, rfl⟩)
  · rw [hval]
    exact Or.inr (hptr ▸ hnew)
  · rw [hval]
    exact Or.inr (hptr ▸ hnew)

/-- The loop over the subfolder entries. -/
theorem Loaded.subfolders (h : Loaded s t dir) {known : Bool} {mount : Option ℕ}
    {parent : Option Ptr} (es : List DiskFoderInfo) :
    Loaded s (loadSubfolders known mount parent dir es t).2 dir := by
  induction es generalizing t with
  | nil => exact h
  | cons e es ih =>
    rw [loadSubfolders]
    split_ifs
    · exact ih h
    · dsimp only
      cases ha : (t.mem.malloc sizeofRamfsFoder).1 with
      | none => exact h.setMem (t.mem.next_le_next_malloc _)
      | some sub =>
        obtain ⟨rfl, hlt⟩ := Memory.malloc_eq_some ha
        exact ih (h.addSubfolder rfl rfl rfl ((Nat.lt_succ_self _).trans_eq hlt.symm) rfl)

/-- The loop over the file entries. -/
theorem Loaded.files (h : Loaded s t dir) {known : Bool} (es : List DiskFileInfo) :
    Loaded s (loadFiles known dir es t) dir := by
  induction es generalizing t with
  | nil => exact h
  | cons e es ih =>
    rw [loadFiles]
    split_ifs
    · exact ih h
    · refine ih (Loaded.setMem (h.table rfl rfl ?_ fun nd hnd => Or.inl
        (List.mem_map.2 ⟨nd, hnd, rfl⟩)) (next_le_insert _ _ _ _ _))
      rintro ⟨nd, hnd, htag⟩
      rcases fileTable.mem_insert hnd with ⟨nd₀, hnd₀, -, hval | hval⟩ | ⟨-, -, hval⟩
      · rw [hval] at htag
        exact ⟨nd₀, hnd₀, htag⟩
      · rw [hval] at htag
        exact absurd htag (show ¬IsDirtyTag 0 by decide)
      · rw [hval] at htag
        exact absurd htag (show ¬IsDirtyTag 0 by decide)

/-- `dfs_load_folder_children` does nothing but read, or runs the two loops. -/
theorem dfsLoadFolderChildren_cases (s : Fs) (dir : Ptr) :
    (∃ st, SameBytes s.disk.store st ∧ (dfsLoadFolderChildren s dir).2 = s.setStore st) ∨
    (∃ m es st, SameBytes s.disk.store st ∧ (dfsLoadFolderChildren s dir).2 =
      (loadSubfolders true (some m) (some dir) dir es (s.setStore st)).2) ∨
    ∃ m es fs st, SameBytes s.disk.store st ∧ (dfsLoadFolderChildren s dir).2 =
      loadFiles true dir fs (loadSubfolders true (some m) (some dir) dir es (s.setStore st)).2 := by
  rw [dfsLoadFolderChildren]
  dsimp only
  split_ifs
  · exact Or.inl ⟨s.disk.store, .refl _, rfl⟩
  · exact Or.inl ⟨s.disk.store, .refl _, rfl⟩
  · cases (s.folders dir).mount with
    | none => exact Or.inl ⟨s.disk.store, .refl _, rfl⟩
    | some m =>
      have hread : SameBytes s.disk.store (s.disk.store.read (s.mountTable m).part
          (toU32 (s.folders dir).driveAddr) sizeofDiskFolder).2 := ⟨rfl, rfl, rfl, rfl⟩
      dsimp only
      cases (s.disk.store.read (s.mountTable m).part (toU32 (s.folders dir).driveAddr)
        sizeofDiskFolder).1 with
      | none => exact Or.inl ⟨_, hread, rfl⟩
      | some b =>
        dsimp only
        split_ifs
        · exact Or.inl ⟨_, hread, rfl⟩
        · exact Or.inr (Or.inl ⟨m, _, _, hread, rfl⟩)
        · exact Or.inr (Or.inr ⟨m, _, _, _, hread, rfl⟩)

theorem changesOnly_lazyLoadDirectory (s : Fs) (dir : Ptr) :
    ChangesOnly dir s (lazyLoadDirectory s dir) := by
  rw [lazyLoadDirectory]
  split_ifs
  · obtain ⟨st, -, heq⟩ | ⟨m, es, st, -, heq⟩ | ⟨m, es, fs, st, -, heq⟩ := dfsLoadFolderChildren_cases s dir
    · exact heq ▸ changesOnly_setStore st
    · exact heq ▸ (changesOnly_setStore st).trans (changesOnly_loadSubfolders es)
    · exact heq ▸ ((changesOnly_setStore st).trans (changesOnly_loadSubfolders es)).trans
        (changesOnly_loadFiles fs)
  · exact ChangesOnly.refl dir s

theorem loaded_lazyLoadDirectory (hdir : dir < s.mem.next) :
    Loaded s (lazyLoadDirectory s dir) dir := by
  have hrefl := Loaded.refl hdir
  rw [lazyLoadDirectory]
  split_ifs
  · obtain ⟨st, -, heq⟩ | ⟨m, es, st, -, heq⟩ | ⟨m, es, fs, st, -, heq⟩ := dfsLoadFolderChildren_cases s dir
    · exact heq ▸ hrefl.setStore st
    · exact heq ▸ (hrefl.setStore st).subfolders es
    · exact heq ▸ ((hrefl.setStore st).subfolders es).files fs
  · exact hrefl

theorem CleanLeaf.newLeaf {c : Ptr} (h : CleanLeaf s t c) (p : Ptr) : NewLeaf s t p c where
  le := h.le
  lt := h.lt
  kids_eq := by rw [kids, h.foders, nodes_empty, List.map_nil]
  files_eq := by rw [h.files, nodes_empty]
  tag := Or.inl h.clean
  dirty := by
    rw [h.clean]
    exact fun hd => absurd hd (by decide)

theorem Loaded.kept (h : Loaded s t dir) {p : Ptr} (hp : p < s.mem.next) : Kept s t root p := by
  rcases eq_or_ne p dir with rfl | hne
  · exact ⟨Or.inl h.type, h.mount, fun hd => Or.inl (h.file hd),
      fun c hc => (h.kid c hc).imp id fun hl => hl.newLeaf p⟩
  · exact Kept.of_eq (h.other p hp hne)

end Loads

/-- A folder of the mounted tree belongs to a mount. -/
def OnDisk (s : Fs) (root dir : Ptr) : Prop :=
  Below (kids s) root dir → (s.folders dir).type ≠ RAMFS_FOLDER_TYPE_MEM

/-- Loading the folder that a call works in keeps the invariant and what is needed of that
folder. -/
theorem DirtyInv.lazyLoad (h : DirtyInv s root) (dir : Ptr) :
    DirtyInv (lazyLoadDirectory s dir) root ∧
      (MayMark s root dir → MayMark (lazyLoadDirectory s dir) root dir) ∧
      (OnDisk s root dir → OnDisk (lazyLoadDirectory s dir) root dir) := by
  have honly := changesOnly_lazyLoadDirectory s dir
  by_cases hdir : Below (kids s) root dir
  · have hl := loaded_lazyLoadDirectory (h.lt_next dir hdir)
    generalize lazyLoadDirectory s dir = t at hl ⊢
    have hkept : ∀ p, Below (kids s) root p → Kept s t root p := fun p hp => hl.kept (h.lt_next p hp)
    refine ⟨h.change hl.next_le hkept, fun hmay hclean p hp hc => ?_, fun hdisk _ => ?_⟩
    · rcases below_of_kept hkept hp with hp | ⟨q, -, hleaf⟩
      · rcases (hkept p hp).kid dir hc with hold | hleaf
        · exact (hkept p hp).dirty (hmay (hl.type ▸ hclean) p hp hold)
        · exact absurd (h.lt_next dir hdir) (Nat.not_lt.2 hleaf.le)
      · rw [hleaf.kids_eq] at hc
        exact absurd hc List.not_mem_nil
    · rw [hl.type]
      exact hdisk hdir
  · -- nothing of the mounted tree is touched
    generalize lazyLoadDirectory s dir = t at honly ⊢
    have hsame : ∀ p, Below (kids s) root p → t.folders p = s.folders p := fun p hp =>
      honly.other p (h.lt_next p hp) fun heq => hdir (heq ▸ hp)
    have hbelow : ∀ {p}, Below (kids t) root p → Below (kids s) root p := by
      intro p hp
      refine hp.mem_of_closed (S := {p | Below (kids s) root p}) (fun q hq c hc => ?_) (Below.refl _ _)
      rw [kids, hsame q hq] at hc
      exact hq.tail hc
    refine ⟨h.change honly.next_le fun p hp => Kept.of_eq (hsame p hp), fun _ _ p hp hc => ?_,
      fun _ hp => ?_⟩
    · exact absurd (hbelow (hp.tail hc)) hdir
    · exact absurd (hbelow hp) hdir

end LittleLinux
