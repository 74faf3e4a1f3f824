import LittleLinux.Dfs.Tree

/-!
# The tree under the calls

Each function that touches a folder table, seen as changes of the tree: loading a folder, making
a directory, removing one, and releasing the folders below one. What must hold of the arguments
is a hypothesis here; who establishes it is said in `Dfs/Dangling.lean`.
-/

namespace LittleLinux

open ChainTable

variable {s s' : Fs} {D : Set Ptr}

/-! ### Entries of a folder table -/

section Entries

variable {dir : Ptr} {name : CString} {info : RamfsFoderInfo}

theorem mem_kids_of_find (h : ramfsHashmapFind (s.folders dir).foderMap name = some info) :
    info.ptr ∈ kids s dir := by
  obtain ⟨nd, hnd, rfl⟩ := foderTable.exists_of_find h
  exact List.mem_map.2 ⟨nd, hnd, rfl⟩

theorem ramfsHashmapFind_eq_none (h : kids s dir = []) (name : CString) :
    ramfsHashmapFind (s.folders dir).foderMap name = none := by
  cases hf : ramfsHashmapFind (s.folders dir).foderMap name with
  | none => rfl
  | some info =>
    have hmem := mem_kids_of_find hf
    rw [h] at hmem
    exact absurd hmem (by simp)

theorem freed_ramfsHashmapInsert (mem : Memory) (map : RamfsHashmap) (name : CString)
    (info : RamfsFoderInfo) : (ramfsHashmapInsert mem map name info).2.2.freed = mem.freed :=
  foderTable.freed_insert

/-- The nodes after an insertion have addresses that are not of folders. -/
theorem DirInv.insert_addr (h : DirInv D s) {nd : Node CString RamfsFoderInfo}
    (hnd : nd ∈ (ramfsHashmapInsert s.mem (s.folders dir).foderMap name info).2.1.nodes) :
    nd.addr < (ramfsHashmapInsert s.mem (s.folders dir).foderMap name info).2.2.next ∧
      nd.addr ∉ D := by
  have hnext : s.mem.next ≤ (ramfsHashmapInsert s.mem (s.folders dir).foderMap name info).2.2.next :=
    next_le_insert _ _ _ _ _
  rcases foderTable.mem_insert hnd with ⟨nd₀, hnd₀, haddr, -⟩ | ⟨haddr, hlt, -⟩
  · obtain ⟨hlt, hD⟩ := h.loose dir _ (Or.inl ⟨nd₀, hnd₀, rfl⟩)
    rw [haddr]
    exact ⟨hlt.trans_le hnext, hD⟩
  · rw [haddr]
    exact ⟨hlt, fun hD => Nat.lt_irrefl _ (h.lt_next _ hD)⟩

/-- What an insertion does to the entries: one is redirected, one is added, or nothing. -/
theorem DirInv.insert_kids (h : DirInv D s) (dir : Ptr) (name : CString) (info : RamfsFoderInfo) :
    ∃ out inn rest, (kids s dir).Perm (out ++ rest) ∧
      ((ramfsHashmapInsert s.mem (s.folders dir).foderMap name info).2.1.nodes.map
        fun nd => nd.value.ptr).Perm (inn ++ rest) ∧
      (inn = [info.ptr] ∨ inn = [] ∧ out = []) ∧
      (ramfsHashmapFind (s.folders dir).foderMap name = none → out = []) ∧
      (ramfsHashmapInsert s.mem (s.folders dir).foderMap name info).2.1.count =
        (ramfsHashmapInsert s.mem (s.folders dir).foderMap name info).2.1.nodes.length := by
  have hcount := h.count_eq dir
  rw [ramfsHashmapInsert, NamedTable.insert, kids]
  dsimp only
  generalize (if (foderTable.find (s.folders dir).foderMap name).isSome then (none, s.mem) else
    s.mem.malloc foderTable.nodeSize).1 = m
  obtain ⟨nd, rest, hf, hold, hnew, hc⟩ | ⟨a, -, -, hnew, hc⟩ | ⟨-, -, heq⟩ :=
    nodes_insert_cases foderTable.streq djb2Bucket (s.folders dir).foderMap name (strcpy127 name)
      (foderTable.setName (strcpy127 name) info) m
  · refine ⟨[nd.value.ptr], [info.ptr], rest.map fun nd => nd.value.ptr, hold.map _, hnew.map _,
      Or.inl rfl, fun hnone => ?_, ?_⟩
    · rw [ramfsHashmapFind, NamedTable.find, ChainTable.find, hf] at hnone
      exact absurd hnone (by simp)
    · rw [hc, hcount, hold.length_eq, hnew.length_eq]
      rfl
  · refine ⟨[], [info.ptr], _, List.Perm.refl _, hnew.map _, Or.inl rfl, fun _ => rfl, ?_⟩
    rw [hc, hcount, hnew.length_eq, List.length_cons]
    exact (Int.natCast_succ _).symm
  · refine ⟨[], [], _, List.Perm.refl _, ?_, Or.inr ⟨rfl, rfl⟩, fun _ => rfl, ?_⟩
    · rw [heq]
      exact List.Perm.refl _
    · rw [heq]
      exact hcount

/-- Entering a detached folder keeps the tree, when no entry of that name is there or the
working directory is not below the entries. -/
theorem DirInv.enter (h : DirInv D s) (hc : Detached D s dir info.ptr)
    (hout : ramfsHashmapFind (s.folders dir).foderMap name = none ∨
      ∀ c ∈ kids s dir, ¬Below (kids s) c s.currentDir) :
    DirInv D (setTable s dir (ramfsHashmapInsert s.mem (s.folders dir).foderMap name info).2.1
      (ramfsHashmapInsert s.mem (s.folders dir).foderMap name info).2.2) := by
  obtain ⟨out, inn, rest, hold, hnew, hinn, hnone, hcount⟩ := h.insert_kids dir name info
  refine h.rewire (next_le_insert _ _ _ _ _) (fun a ha => Or.inl ?_) hcount
    (fun nd hnd => h.insert_addr hnd) hold hnew ?_ ?_ ?_
  · rwa [freed_ramfsHashmapInsert] at ha
  · rcases hinn with rfl | ⟨rfl, -⟩
    · exact List.nodup_singleton _
    · exact List.nodup_nil
  · intro c hc'
    rcases hinn with rfl | ⟨rfl, -⟩
    · rw [List.mem_singleton.1 hc']
      exact hc
    · exact absurd hc' (by simp)
  · intro c hc'
    rcases hout with hfind | hbelow
    · rw [hnone hfind] at hc'
      exact absurd hc' (by simp)
    · exact hbelow c (hold.mem_iff.2 (List.mem_append_left _ hc'))

/-- The entries after an insertion. -/
theorem DirInv.mem_kids_insert (h : DirInv D s) {p c : Ptr}
    (hc : c ∈ kids (setTable s dir (ramfsHashmapInsert s.mem (s.folders dir).foderMap name info).2.1
      (ramfsHashmapInsert s.mem (s.folders dir).foderMap name info).2.2) p) :
    c ∈ kids s p ∨ p = dir ∧ c = info.ptr := by
  obtain ⟨out, inn, rest, hold, hnew, hinn, -⟩ := h.insert_kids dir name info
  rcases mem_kids_setTable _ hold hnew hc with hc | ⟨hp, hc⟩
  · exact Or.inl hc
  · rcases hinn with rfl | ⟨rfl, -⟩
    · exact Or.inr ⟨hp, List.mem_singleton.1 hc⟩
    · exact absurd hc (by simp)

end Entries

/-! ### Loading -/

/-- The state while the folder `dir` is being loaded, begun in `s₀`: the entries of `dir` are
new folders without entries, and no old folder got a new owner. -/
structure Loading (s₀ : Fs) (D₀ D : Set Ptr) (dir : Ptr) (s : Fs) : Prop where
  inv : DirInv D s
  sub : D₀ ⊆ D
  dir_lt : dir < s₀.mem.next
  next_le : s₀.mem.next ≤ s.mem.next
  freed : s.mem.freed = s₀.mem.freed
  old : ∀ p, ∀ c ∈ kids s p, c < s₀.mem.next → c ∈ kids s₀ p
  kid : ∀ c ∈ kids s dir, s₀.mem.next ≤ c ∧ kids s c = []
  currentDir_lt : s.currentDir < s₀.mem.next
  mount_lt : ∀ i < s.mountCount, (s.mountTable i).rootDir < s₀.mem.next
  parent : (s.folders dir).parent = (s₀.folders dir).parent

section Loading

variable {s₀ : Fs} {D₀ : Set Ptr} {dir : Ptr} {node : RamfsFoder} {info : RamfsFoderInfo}
  {mem : Memory}

theorem Loading.start (h : DirInv D s) (hdir : dir ∈ D) (hkids : kids s dir = []) :
    Loading s D D dir s where
  inv := h
  sub := subset_rfl
  dir_lt := h.lt_next dir hdir
  next_le := le_refl _
  freed := rfl
  old := fun _ _ hc _ => hc
  kid := by
    intro c hc
    rw [hkids] at hc
    exact absurd hc (by simp)
  currentDir_lt := h.lt_next _ (h.reach_mem h.noDangling.currentDir)
  mount_lt := fun i hi => h.lt_next _ (h.mount_mem i hi)
  parent := rfl

/-- A quiet step in the middle of loading. -/
theorem Loading.quiet (h : Loading s₀ D₀ D dir s) (hq : Quiet s s')
    (hfreed : s'.mem.freed = s.mem.freed) : Loading s₀ D₀ D dir s' := by
  have hkids : kids s' = kids s := funext fun p => by rw [kids, hq.foderMap, kids]
  refine ⟨h.inv.quiet hq, h.sub, h.dir_lt, h.next_le.trans hq.next_le, hfreed.trans h.freed, ?_, ?_, ?_,
    ?_, (hq.place dir).parent.trans h.parent⟩
  · rw [hkids]
    exact h.old
  · rw [hkids]
    exact h.kid
  · rw [hq.currentDir]
    exact h.currentDir_lt
  · rw [hq.mountCount, hq.mountTable]
    exact h.mount_lt

/-- One subfolder: the object is made, and entered. An entry of the same name that was made
before is lost, but nothing was in it. -/
theorem Loading.add (h : Loading s₀ D₀ D dir s) (hmap : node.foderMap = Table.empty)
    (hfile : node.fileMap = Table.empty) (hparent : ∀ q, node.parent = some q → q = dir)
    (hnext : s.mem.next < mem.next) (hfreed : mem.freed = s.mem.freed)
    (hptr : info.ptr = s.mem.next) :
    Loading s₀ D₀ (insert s.mem.next D) dir (addSubfolder (s.setMem mem) dir s.mem.next node info) := by
  -- the new folder is first a folder nothing leads to, then it is entered into `dir`
  have hfresh := h.inv.fresh hmap hfile hnext hfreed
  have hdet : Detached (insert s.mem.next D) ((s.setMem mem).setFolder s.mem.next node) dir
      info.ptr := by
    rw [hptr]
    exact h.inv.detached_fresh hmap hfreed hparent
  have hkids : ∀ p, kids ((s.setMem mem).setFolder s.mem.next node) p =
      if p = s.mem.next then [] else kids s p := kids_fresh hmap
  have hdir : dir ≠ s.mem.next := Nat.ne_of_lt (h.dir_lt.trans_le h.next_le)
  -- the folders of `dir` come from this load and have no entries of their own yet, so none of them is
  -- above the working directory
  have hleaf : ∀ c ∈ kids s dir, kids ((s.setMem mem).setFolder s.mem.next node) c = [] := by
    intro c hc
    rw [hkids]
    split_ifs
    · rfl
    · exact (h.kid c hc).2
  set t := (s.setMem mem).setFolder s.mem.next node with ht
  have henter : DirInv (insert s.mem.next D) (addSubfolder (s.setMem mem) dir s.mem.next
      node info) := by
    refine hfresh.enter hdet (Or.inr fun c hc hbelow => ?_)
    rw [hkids, if_neg hdir] at hc
    have heq : t.currentDir = c := Below.eq_of_leaf (hleaf c hc) hbelow
    exact absurd (heq ▸ h.currentDir_lt) (Nat.not_lt.2 (h.kid c hc).1)
  -- what the insertion adds to the tree is one edge
  have hedge : ∀ {p c}, c ∈ kids (addSubfolder (s.setMem mem) dir s.mem.next node info) p →
      c ∈ kids s p ∨ p = dir ∧ c = s.mem.next := by
    intro p c hc
    rcases hfresh.mem_kids_insert hc with hc | ⟨hp, hc⟩
    · rw [hkids] at hc
      split_ifs at hc
      · exact absurd hc (by simp)
      · exact Or.inl hc
    · exact Or.inr ⟨hp, hc.trans hptr⟩
  refine ⟨henter, h.sub.trans (Set.subset_insert _ _), h.dir_lt, ?_, ?_, ?_, ?_, h.currentDir_lt,
    h.mount_lt, ?_⟩
  · exact (h.next_le.trans hnext.le).trans (next_le_insert foderTable _ _ info.name info)
  · exact ((freed_ramfsHashmapInsert _ _ _ info).trans hfreed).trans h.freed
  · intro p c hc hlt
    rcases hedge hc with hc | ⟨-, rfl⟩
    · exact h.old p c hc hlt
    · exact absurd hlt (Nat.not_lt.2 h.next_le)
  · intro c hc
    have hne : ∀ {c}, s₀.mem.next ≤ c → c ≠ dir := fun hle => (Nat.ne_of_lt (h.dir_lt.trans_le hle)).symm
    rcases hedge hc with hc | ⟨-, rfl⟩
    · refine ⟨(h.kid c hc).1, ?_⟩
      rw [addSubfolder, ← setTable, kids_setTable_of_ne (hne (h.kid c hc).1)]
      exact hleaf c hc
    · refine ⟨h.next_le, ?_⟩
      rw [addSubfolder, ← setTable, kids_setTable_of_ne (hne h.next_le), hkids,
        if_pos rfl]
  · rw [addSubfolder, ← setTable, setTable_parent, Fs.setFolder_of_ne _ _ hdir]
    exact h.parent

/-- **The loop over the subfolder entries.** -/
theorem Loading.subfolders {skipKnown : Bool} {mount : Option ℕ} {parent : Option Ptr}
    (hparent : ∀ q, parent = some q → q = dir) (es : List DiskFoderInfo)
    (h : Loading s₀ D₀ D dir s) :
    ∃ D', Loading s₀ D₀ D' dir (loadSubfolders skipKnown mount parent dir es s).2 := by
  induction es generalizing s D with
  | nil => exact ⟨D, h⟩
  | cons e es ih =>
    rw [loadSubfolders]
    split_ifs
    · exact ih h
    · dsimp only
      have hfreed := s.mem.freed_malloc sizeofRamfsFoder
      cases ha : (s.mem.malloc sizeofRamfsFoder).1 with
      | none =>
        refine ⟨D, h.quiet (Quiet.of_mem s dir (s.mem.next_le_next_malloc _) fun a h => Or.inl ?_) hfreed⟩
        rwa [hfreed] at h
      | some sub =>
        obtain ⟨rfl, hlt⟩ := Memory.malloc_eq_some ha
        exact ih (h.add rfl rfl hparent ((Nat.lt_succ_self _).trans_eq hlt.symm) hfreed rfl)

theorem Loading.files {skipKnown : Bool} (es : List DiskFileInfo) (h : Loading s₀ D₀ D dir s) :
    Loading s₀ D₀ D dir (loadFiles skipKnown dir es s) :=
  h.quiet (quiet_loadFiles _ _ es s).1 (quiet_loadFiles _ _ es s).2

/-- `dfs_load_folder_children` of a folder without entries. -/
theorem Loading.children (h : Loading s₀ D₀ D dir s) :
    ∃ D', Loading s₀ D₀ D' dir (dfsLoadFolderChildren s dir).2 := by
  rw [dfsLoadFolderChildren]
  dsimp only
  split_ifs
  · exact ⟨D, h⟩
  · exact ⟨D, h⟩
  · cases (s.folders dir).mount with
    | none => exact ⟨D, h⟩
    | some m =>
      dsimp only
      have hread : ∀ st, Loading s₀ D₀ D dir (s.setStore st) := fun st =>
        h.quiet (Quiet.setStore s st) rfl
      cases (s.disk.store.read (s.mountTable m).part (toU32 (s.folders dir).driveAddr)
        sizeofDiskFolder).1 with
      | none => exact ⟨D, hread _⟩
      | some b =>
        dsimp only
        split_ifs
        · exact ⟨D, hread _⟩
        · exact (hread _).subfolders (fun q hq => (Option.some.inj hq).symm) _
        · refine Exists.imp (fun D' h' => Loading.files _ h') ?_
          exact (hread _).subfolders (fun q hq => (Option.some.inj hq).symm) _

/-- `dfs_load_folder_from_disk` of a folder without entries. -/
theorem Loading.fromDisk (h : Loading s₀ D₀ D dir s)
    (hzero : s.folders dir = RamfsFoder.zero) (id : PartId) (off : ℕ) :
    ∃ D', Loading s₀ D₀ D' dir (dfsLoadFolderFromDisk s dir id off).2 := by
  have hread : ∀ st, Loading s₀ D₀ D dir (s.setStore st) := fun st =>
    h.quiet (Quiet.setStore s st) rfl
  rw [dfsLoadFolderFromDisk]
  dsimp only
  cases (s.disk.store.read id off sizeofDiskFolder).1 with
  | none => exact ⟨D, hread _⟩
  | some b =>
    dsimp only
    -- the name and the tags are set, the tables stay empty
    have hset : ∀ (st : Store) (g : RamfsFoder → RamfsFoder),
        (g RamfsFoder.zero).foderMap = Table.empty → (g RamfsFoder.zero).fileMap = Table.empty →
        SamePlace RamfsFoder.zero (g RamfsFoder.zero) →
        Loading s₀ D₀ D dir ((s.setStore st).modifyFolder dir g) := by
      intro st g hmap hfile hplace
      have hq : Quiet (s.setStore st) (((s.setStore st).modifyFolder dir g).setMem s.mem) := by
        refine Quiet.of_folder (s.setStore st) dir g le_rfl ?_ ?_ ?_ fun a ha => Or.inl ha
        · rw [Fs.setStore_folders, hzero, hmap]
          rfl
        · rw [Fs.setStore_folders, hzero]
          exact hplace
        · rintro a ⟨nd, hnd, -⟩
          rw [Fs.setStore_folders, hzero, hfile, nodes_empty] at hnd
          exact absurd hnd (by simp)
      exact (hread st).quiet hq rfl
    have hnone : ∀ q : Ptr, none = some q → q = dir := fun q hq => absurd hq (by simp)
    split_ifs
    · exact ⟨D, hread _⟩
    · exact (hset _ _ rfl rfl ⟨rfl, rfl, rfl⟩).subfolders hnone _
    · refine Exists.imp (fun D' h' => Loading.files _ h') ?_
      exact (hset _ _ rfl rfl ⟨rfl, rfl, rfl⟩).subfolders hnone _

/-- `lazy_load_directory` does nothing, or loads a folder without entries. -/
theorem DirInv.lazyLoad (h : DirInv D s) (hdir : dir ∈ D) :
    lazyLoadDirectory s dir = s ∨ ∃ D', Loading s D D' dir (lazyLoadDirectory s dir) := by
  rw [lazyLoadDirectory]
  split_ifs with hload
  · exact Or.inr ((Loading.start h hdir (h.kids_eq_nil hload.2.1)).children)
  · exact Or.inl rfl

/-- After `lazy_load_directory` the invariant holds, and the folder is still one. -/
theorem DirInv.exists_lazyLoad (h : DirInv D s) (hdir : dir ∈ D) :
    ∃ D', dir ∈ D' ∧ DirInv D' (lazyLoadDirectory s dir) := by
  rcases h.lazyLoad hdir with heq | ⟨D', hload⟩
  · rw [heq]
    exact ⟨D, hdir, h⟩
  · exact ⟨D', hload.sub hdir, hload.inv⟩

end Loading

/-! ### Making a directory -/

/-- Releasing one object that is out of reach. -/
theorem DirInv.free (h : DirInv D s) {a : Ptr} (ha : a < s.mem.next) (hreach : ¬Reach s a)
    (hmount : ∀ i < s.mountCount, (s.mountTable i).rootDir ≠ a) :
    DirInv D (s.setMem (s.mem.free a)) := by
  refine h.release (fun p => Or.inl rfl) (fun p a ha => ha) (fun p => rfl) rfl (fun b hb => ?_) rfl
    fun i hi => ⟨i, hi, rfl⟩
  rcases List.mem_cons.1 hb with rfl | hb
  · exact Or.inr ⟨ha, hreach, hmount⟩
  · exact Or.inl hb

theorem Detached.not_reach {dir c : Ptr} (h : Detached D s dir c) : ¬Reach s c := fun hc =>
  h.ne_root (Below.eq_of_ownerless h.ownerless hc).symm

/-- A change of the allocator that releases nothing. -/
theorem DirInv.setMem (h : DirInv D s) {mem : Memory} (hnext : s.mem.next ≤ mem.next)
    (hfreed : mem.freed = s.mem.freed) : DirInv D (s.setMem mem) := by
  refine h.quiet (Quiet.of_mem s rootPtr hnext fun a ha => Or.inl ?_)
  rwa [hfreed] at ha

/-- A new folder object, entered under a name that is free; or released again. -/
theorem DirInv.make (h : DirInv D s) {dir : Ptr} (hdir : dir ∈ D) {node : RamfsFoder} {mem : Memory}
    (hmap : node.foderMap = Table.empty) (hfile : node.fileMap = Table.empty)
    (hparent : ∀ q, node.parent = some q → q = dir) (hnext : s.mem.next < mem.next)
    (hfreed : mem.freed = s.mem.freed) {name : CString} {info : RamfsFoderInfo}
    (hptr : info.ptr = s.mem.next)
    (hfind : ramfsHashmapFind (s.folders dir).foderMap name = none) {t : Fs}
    (ht : t = (s.setMem mem).setFolder s.mem.next node) :
    DirInv (insert s.mem.next D)
        (setTable t dir (ramfsHashmapInsert t.mem (t.folders dir).foderMap name info).2.1
          (ramfsHashmapInsert t.mem (t.folders dir).foderMap name info).2.2) ∧
      DirInv (insert s.mem.next D)
        (t.setMem ((ramfsHashmapInsert t.mem (t.folders dir).foderMap name info).2.2.free
          s.mem.next)) := by
  have hfresh : DirInv (insert s.mem.next D) t := ht ▸ h.fresh hmap hfile hnext hfreed
  have hdet : Detached (insert s.mem.next D) t dir s.mem.next :=
    ht ▸ h.detached_fresh hmap hfreed hparent
  have hfolder : t.folders dir = s.folders dir := by
    rw [ht]
    exact Fs.setFolder_of_ne _ _ (Nat.ne_of_lt (h.lt_next dir hdir))
  refine ⟨hfresh.enter (hptr.symm ▸ hdet) (Or.inl ?_), ?_⟩
  · rw [hfolder]
    exact hfind
  · have hgrow := hfresh.setMem (next_le_insert foderTable t.mem (t.folders dir).foderMap name info)
      (freed_ramfsHashmapInsert _ _ _ info)
    refine hgrow.free (hgrow.lt_next _ hdet.mem) hdet.not_reach fun i hi => ?_
    have hmount : t.mountCount = s.mountCount ∧ t.mountTable = s.mountTable := ht ▸ ⟨rfl, rfl⟩
    rw [Fs.setMem_mountCount, hmount.1] at hi
    rw [Fs.setMem_mountTable, hmount.2]
    exact Nat.ne_of_lt (h.lt_next _ (h.mount_mem i hi))

theorem DirInv.mkdir (h : DirInv D s) {dir : Ptr} (hdir : dir ∈ D) (name : CString) :
    ∃ D', DirInv D' (mkdirIn s dir name).2 := by
  obtain ⟨D₁, hdir, h⟩ := h.exists_lazyLoad hdir
  rw [mkdirIn]
  dsimp only
  generalize lazyLoadDirectory s dir = u at h
  generalize (if (u.folders dir).mount = none then RAMFS_FOLDER_TYPE_MEM else RAMFS_FOLDER_TYPE_NEW) =
    type
  have hfreed := u.mem.freed_malloc sizeofRamfsFoder
  by_cases hfind : (ramfsHashmapFind (u.folders dir).foderMap name).isSome = true
  · rw [if_pos hfind]
    exact ⟨D₁, h⟩
  rw [if_neg hfind]
  by_cases hfile : (ramfsFileHashmapFind (u.folders dir).fileMap name).isSome = true
  · rw [if_pos hfile]
    exact ⟨D₁, h⟩
  rw [if_neg hfile]
  cases ha : (u.mem.malloc sizeofRamfsFoder).1 with
  | none => exact ⟨D₁, h.setMem (u.mem.next_le_next_malloc _) hfreed⟩
  | some sub =>
    obtain ⟨rfl, hlt⟩ := Memory.malloc_eq_some ha
    dsimp only
    refine ⟨insert u.mem.next D₁, ?_⟩
    generalize ht : (u.setMem (u.mem.malloc sizeofRamfsFoder).2).setFolder u.mem.next _ = t
    obtain ⟨henter, hdrop⟩ := h.make hdir rfl rfl (fun q hq => (Option.some.inj hq).symm)
      ((Nat.lt_succ_self _).trans_eq hlt.symm) hfreed
      (show (⟨name, type, u.mem.next, 0⟩ : RamfsFoderInfo).ptr = u.mem.next from rfl)
      (Option.not_isSome_iff_eq_none.1 hfind) ht.symm
    split_ifs
    · rw [← Fs.modifyFolder_modifyFolder t dir (·.setFoderMap _) markDirty]
      exact henter.quiet (quiet_markDirty _ dir)
    · exact hdrop

/-! ### Removing an entry -/

section Remove

variable {dir : Ptr} {name : CString} {info : RamfsFoderInfo}

/-- The entry that a lookup finds is the one that a deletion takes out. -/
theorem delete_kids (h : ramfsHashmapFind (s.folders dir).foderMap name = some info) :
    ∃ nd ∈ (s.folders dir).foderMap.nodes, nd.value = info ∧
      (s.folders dir).foderMap.nodes.Perm
        (nd :: (ramfsHashmapDelete s.mem (s.folders dir).foderMap name).2.1.nodes) ∧
      (ramfsHashmapDelete s.mem (s.folders dir).foderMap name).2.1.count =
        (s.folders dir).foderMap.count - 1 ∧
      (ramfsHashmapDelete s.mem (s.folders dir).foderMap name).2.2 = s.mem.free nd.addr := by
  rw [ramfsHashmapFind, NamedTable.find, ChainTable.find, Option.map_eq_some_iff] at h
  obtain ⟨nd, hnd, hval⟩ := h
  refine ⟨nd, mem_nodes_of_findNode hnd, hval, nodes_delete_perm hnd, count_delete hnd, ?_⟩
  rw [ramfsHashmapDelete, NamedTable.delete, hnd]

/-- **Taking out an entry** keeps the tree when the working directory is not below it; and then
nothing below it is in the tree. -/
theorem DirInv.remove (h : DirInv D s)
    (hfind : ramfsHashmapFind (s.folders dir).foderMap name = some info)
    (hcur : ¬Below (kids s) info.ptr s.currentDir) {t : Fs}
    (ht : t = setTable s dir (ramfsHashmapDelete s.mem (s.folders dir).foderMap name).2.1
      (ramfsHashmapDelete s.mem (s.folders dir).foderMap name).2.2) :
    DirInv D t ∧ (∀ x, Below (kids s) info.ptr x → ¬Reach t x) ∧
      ∀ p, ∀ c ∈ kids t p, c ∈ kids s p := by
  obtain ⟨nd, hnd, rfl, hperm, hcount, hmem⟩ := delete_kids hfind
  have hold : (kids s dir).Perm ([nd.value.ptr] ++
      (ramfsHashmapDelete s.mem (s.folders dir).foderMap name).2.1.nodes.map
        fun nd => nd.value.ptr) := by
    rw [kids]
    exact hperm.map _
  have hnodup := hold.nodup_iff.1 (h.nodup dir)
  have haddr : ∀ nd' ∈ (ramfsHashmapDelete s.mem (s.folders dir).foderMap name).2.1.nodes,
      nd'.addr < s.mem.next ∧ nd'.addr ∉ D := fun nd' hnd' =>
    h.loose dir _ (Or.inl ⟨nd', hperm.mem_iff.2 (List.mem_cons_of_mem _ hnd'), rfl⟩)
  have hedge : ∀ {p c}, c ∈ kids t p → c ∈ kids s p := by
    intro p c hc
    rw [ht] at hc
    rcases mem_kids_setTable _ hold (List.Perm.refl ([] ++ _)) hc with hc | ⟨-, hc⟩
    · exact hc
    · exact absurd hc (by simp)
  have hinv : DirInv D t := by
    rw [ht, hmem]
    refine h.rewire le_rfl ?_ ?_ haddr hold (List.Perm.refl ([] ++ _)) List.nodup_nil (by simp) ?_
    · intro a ha
      rcases List.mem_cons.1 ha with rfl | ha
      · exact Or.inr (h.loose dir _ (Or.inl ⟨nd, hnd, rfl⟩))
      · exact Or.inl ha
    · rw [hcount, h.count_eq, hperm.length_eq, List.length_cons]
      push_cast
      ring
    · intro c hc
      rw [List.mem_singleton.1 hc]
      exact hcur
  refine ⟨hinv, fun x hx => ?_, fun p c => hedge⟩
  refine Below.not_of_unlinked hinv.owner hinv.root_owner ?_ ?_ ?_ hx
  · -- the entry is gone from its only owner
    intro p hp
    have hdir : p = dir := h.owner p dir _ (hedge hp) (List.mem_map.2 ⟨nd, hnd, rfl⟩)
    rw [hdir, ht, kids_setTable_self] at hp
    exact (List.nodup_cons.1 hnodup).1 hp
  · intro heq
    exact h.root_owner dir (heq ▸ List.mem_map.2 ⟨nd, hnd, rfl⟩)
  · intro p c hc
    rw [ht]
    rcases mem_kids_of_setTable _ hold (List.Perm.refl ([] ++ _)) hc with hc | ⟨-, hc⟩
    · exact Or.inl hc
    · exact Or.inr (List.mem_singleton.1 hc)

theorem freed_tableDestroy {V : Type} {mem : Memory} {map : Table BUCKETS CString V} {a : Ptr}
    (h : a ∈ (tableDestroy mem map).2.freed) : a ∈ mem.freed ∨ ∃ nd ∈ map.nodes, a = nd.addr := by
  rw [tableDestroy] at h
  revert h
  dsimp only
  generalize map.nodes = l
  induction l generalizing mem with
  | nil => exact Or.inl
  | cons nd l ih =>
    intro h
    rcases ih h with h | ⟨nd', hnd', rfl⟩
    · rcases List.mem_cons.1 h with rfl | h
      · exact Or.inr ⟨nd, List.mem_cons_self, rfl⟩
      · exact Or.inl h
    · exact Or.inr ⟨nd', List.mem_cons_of_mem _ hnd', rfl⟩

/-- `ramfs_hashmap_destroy` and `ramfs_file_hashmap_destroy` on the tables of `p`, and `free(p)`. -/
def destroyFolder (s : Fs) (p : Ptr) (mem : Memory) : Fs :=
  let d := ramfsHashmapDestroy mem (s.folders p).foderMap
  let e := ramfsFileHashmapDestroy d.2 (s.folders p).fileMap
  (s.modifyFolder p fun f => (f.setFoderMap d.1).setFileMap e.1).setMem (e.2.free p)

end Remove

/-! ### Releasing a tree -/

/-- From `s` to `s'` folders in `R` were released, with their tables and their files. -/
structure Released (R : Set Ptr) (s s' : Fs) : Prop where
  next : s'.mem.next = s.mem.next
  map : ∀ p, (s'.folders p).foderMap = (s.folders p).foderMap ∨
    (s'.folders p).foderMap = Table.empty ∧ p ∈ R
  file : ∀ p a, FileAddr (s'.folders p) a → FileAddr (s.folders p) a
  place : ∀ p, SamePlace (s.folders p) (s'.folders p)
  freed : ∀ a ∈ s'.mem.freed, a ∈ s.mem.freed ∨ a ∈ R ∨ ∃ p, LooseAddr (s.folders p) a
  currentDir : s'.currentDir = s.currentDir
  mountTable : s'.mountTable = s.mountTable
  mountCount : s'.mountCount = s.mountCount
  mountWrites : s'.mountWrites = s.mountWrites

namespace Released

variable {R : Set Ptr} {s'' : Fs}

theorem refl (R : Set Ptr) (s : Fs) : Released R s s :=
  ⟨rfl, fun _ => Or.inl rfl, fun _ _ h => h, fun _ => SamePlace.refl _, fun _ h => Or.inl h, rfl, rfl,
    rfl, rfl⟩

theorem loose (h : Released R s s') {p a : Ptr} (ha : LooseAddr (s'.folders p) a) :
    LooseAddr (s.folders p) a := by
  rcases ha with ⟨nd, hnd, rfl⟩ | ha
  · rcases h.map p with hp | ⟨hp, -⟩
    · rw [hp] at hnd
      exact Or.inl ⟨nd, hnd, rfl⟩
    · rw [hp, nodes_empty] at hnd
      exact absurd hnd (by simp)
  · exact Or.inr (h.file p a ha)

theorem trans (h : Released R s s') (h' : Released R s' s'') : Released R s s'' where
  next := h'.next.trans h.next
  map := by
    intro p
    rcases h'.map p with hp | hp
    · rw [hp]
      exact h.map p
    · exact Or.inr hp
  file := fun p a ha => h.file p a (h'.file p a ha)
  place := fun p => (h.place p).trans (h'.place p)
  freed := by
    intro a ha
    rcases h'.freed a ha with ha | ha | ⟨p, ha⟩
    · exact h.freed a ha
    · exact Or.inr (Or.inl ha)
    · exact Or.inr (Or.inr ⟨p, h.loose ha⟩)
  currentDir := h'.currentDir.trans h.currentDir
  mountTable := h'.mountTable.trans h.mountTable
  mountCount := h'.mountCount.trans h.mountCount
  mountWrites := h'.mountWrites.trans h.mountWrites

theorem mem_kids (h : Released R s s') {p c : Ptr} (hc : c ∈ kids s' p) : c ∈ kids s p := by
  rcases h.map p with hp | ⟨hp, -⟩
  · rwa [kids, hp] at hc
  · rw [kids, hp, nodes_empty] at hc
    exact absurd hc (by simp)

end Released

section Release

variable {R : Set Ptr}

/-- The tables and the object of one folder. -/
theorem released_destroyFolder {p : Ptr} (hp : p ∈ R) {mem : Memory} (hnext : mem.next = s.mem.next)
    (hfreed : ∀ a ∈ mem.freed, a ∈ s.mem.freed ∨ ∃ q, LooseAddr (s.folders q) a) :
    Released R s (destroyFolder s p mem) := by
  refine ⟨?_, ?_, ?_, ?_, ?_, rfl, rfl, rfl, rfl⟩
  · rw [destroyFolder, Fs.setMem_mem, Memory.next_free, ramfsFileHashmapDestroy, next_tableDestroy,
      ramfsHashmapDestroy, next_tableDestroy, hnext]
  · intro q
    rw [destroyFolder, Fs.setMem_folders]
    rcases eq_or_ne q p with rfl | hne
    · rw [Fs.modifyFolder_self]
      exact Or.inr ⟨rfl, hp⟩
    · rw [Fs.modifyFolder_of_ne s _ hne]
      exact Or.inl rfl
  · intro q a ha
    rw [destroyFolder, Fs.setMem_folders] at ha
    rcases eq_or_ne q p with rfl | hne
    · rw [Fs.modifyFolder_self] at ha
      obtain ⟨nd, hnd, -⟩ := ha
      exact absurd (nodes_empty ▸ hnd : nd ∈ ([] : List _)) (by simp)
    · rwa [Fs.modifyFolder_of_ne s _ hne] at ha
  · intro q
    rw [destroyFolder, Fs.setMem_folders]
    rcases eq_or_ne q p with rfl | hne
    · rw [Fs.modifyFolder_self]
      exact ⟨rfl, rfl, rfl⟩
    · rw [Fs.modifyFolder_of_ne s _ hne]
      exact SamePlace.refl _
  · intro a ha
    rcases List.mem_cons.1 ha with rfl | ha
    · exact Or.inr (Or.inl hp)
    rcases freed_tableDestroy ha with ha | ⟨nd, hnd, rfl⟩
    · rcases freed_tableDestroy ha with ha | ⟨nd, hnd, rfl⟩
      · exact (hfreed a ha).imp id Or.inr
      · exact Or.inr (Or.inr ⟨p, Or.inl ⟨nd, hnd, rfl⟩⟩)
    · exact Or.inr (Or.inr ⟨p, Or.inr ⟨nd, hnd, Or.inl rfl⟩⟩)

/-- The data of the files of a folder. -/
theorem freed_foldl_freeData {mem : Memory} {l : List (Node CString RamfsFileInfo)} {a : Ptr}
    (h : a ∈ (l.foldl (fun m nd => freeData m nd.value) mem).freed) :
    a ∈ mem.freed ∨ ∃ nd ∈ l, ∃ buf, nd.value.ptr = some buf ∧ a = buf.addr := by
  induction l generalizing mem with
  | nil => exact Or.inl h
  | cons nd l ih =>
    rcases ih h with h | ⟨nd', hnd', hbuf⟩
    · rcases mem_freed_freeData h with h | hbuf
      · exact Or.inl h
      · exact Or.inr ⟨nd, List.mem_cons_self, hbuf⟩
    · exact Or.inr ⟨nd', List.mem_cons_of_mem _ hnd', hbuf⟩

theorem next_foldl_freeData (mem : Memory) (l : List (Node CString RamfsFileInfo)) :
    (l.foldl (fun m nd => freeData m nd.value) mem).next = mem.next := by
  induction l generalizing mem with
  | nil => rfl
  | cons nd l ih => exact (ih _).trans (next_freeData mem nd.value)

/-- **`dfs_free_folder_tree` releases folders below its argument**, and nothing else but their
tables and files. -/
theorem released_freeFolderTree (fuel : ℕ) (s : Fs) (hR : ∀ p ∈ R, ∀ c ∈ kids s p, c ∈ R) {p : Ptr}
    (hp : p ∈ R) : Released R s (freeFolderTree fuel s p) := by
  induction fuel generalizing s p with
  | zero => exact Released.refl R s
  | succ fuel ih =>
    rw [freeFolderTree]
    -- the loop over the entries, each state having no more edges than `s`
    have hloop : ∀ (l : List (Node CString RamfsFoderInfo)) (t : Fs), Released R s t →
        (∀ nd ∈ l, nd.value.ptr ∈ R) →
        Released R s (l.foldl (fun s nd => freeFolderTree fuel s nd.value.ptr) t) := by
      intro l
      induction l with
      | nil => exact fun t ht _ => ht
      | cons nd l ihl =>
        intro t ht hmem
        refine ihl _ (ht.trans ?_) fun nd' hnd' => hmem nd' (List.mem_cons_of_mem _ hnd')
        exact ih t (fun q hq c hc => hR q hq c (ht.mem_kids hc)) (hmem nd List.mem_cons_self)
    have hkids : ∀ nd ∈ (s.folders p).foderMap.nodes, nd.value.ptr ∈ R := fun nd hnd =>
      hR p hp _ (List.mem_map.2 ⟨nd, hnd, rfl⟩)
    refine (hloop _ s (Released.refl R s) hkids).trans ?_
    refine released_destroyFolder hp (next_foldl_freeData _ _) fun a ha => ?_
    rcases freed_foldl_freeData ha with ha | ⟨nd, hnd, hbuf⟩
    · exact Or.inl ha
    · exact Or.inr ⟨p, Or.inr ⟨nd, hnd, Or.inr hbuf⟩⟩

/-- Releasing folders that are out of reach and in no entry of the mount table. -/
theorem DirInv.released (h : DirInv D s) (hrel : Released R s s')
    (hR : ∀ p ∈ R, p < s.mem.next ∧ ¬Reach s p)
    (hmount : ∀ i < s.mountCount, (s.mountTable i).rootDir ∉ R) : DirInv D s' := by
  refine h.release ?_ hrel.file (fun p => (hrel.place p).parent) hrel.next ?_ hrel.currentDir ?_
  · exact fun p => (hrel.map p).imp id fun hp => ⟨hp.1, (hR p hp.2).2⟩
  · intro a ha
    rw [hrel.mountCount, hrel.mountTable]
    rcases hrel.freed a ha with ha | ha | ⟨p, ha⟩
    · exact Or.inl ha
    · exact Or.inr ⟨(hR a ha).1, (hR a ha).2, fun i hi heq => hmount i hi (heq ▸ ha)⟩
    · obtain ⟨hlt, hD⟩ := h.loose p a ha
      exact Or.inr ⟨hlt, fun hr => hD (h.reach_mem hr), fun i hi heq => hD (heq ▸ h.mount_mem i hi)⟩
  · rw [hrel.mountCount, hrel.mountTable]
    exact fun i hi => ⟨i, hi, rfl⟩

end Release

/-! ### Removing a directory -/

/-- **`fs_rmdir` keeps the tree** unless it removes the working directory or the root of a
mount. -/
theorem DirInv.rmdir (h : DirInv D s) {dir : Ptr} (hdir : dir ∈ D) {name : CString}
    (hsafe : ∀ info, ramfsHashmapFind (s.folders dir).foderMap name = some info →
      (s.folders info.ptr).foderMap.count = 0 ∧ (s.folders info.ptr).fileMap.count = 0 →
      info.ptr ≠ s.currentDir ∧ ∀ i < s.mountCount, (s.mountTable i).rootDir ≠ info.ptr) :
    ∃ D', DirInv D' (rmdirIn s dir name).2 := by
  -- a folder that was just loaded is neither the working directory nor the root of a mount
  have hload : ∃ D', DirInv D' (lazyLoadDirectory s dir) ∧ ∀ info,
      ramfsHashmapFind ((lazyLoadDirectory s dir).folders dir).foderMap name = some info →
      ((lazyLoadDirectory s dir).folders info.ptr).foderMap.count = 0 ∧
        ((lazyLoadDirectory s dir).folders info.ptr).fileMap.count = 0 →
      info.ptr ≠ (lazyLoadDirectory s dir).currentDir ∧
        ∀ i < (lazyLoadDirectory s dir).mountCount,
          ((lazyLoadDirectory s dir).mountTable i).rootDir ≠ info.ptr := by
    rcases h.lazyLoad hdir with heq | ⟨D', hl⟩
    · rw [heq]
      exact ⟨D, h, hsafe⟩
    · refine ⟨D', hl.inv, fun info hfind _ => ?_⟩
      have hle := (hl.kid _ (mem_kids_of_find hfind)).1
      exact ⟨(Nat.ne_of_lt (hl.currentDir_lt.trans_le hle)).symm,
        fun i hi => Nat.ne_of_lt ((hl.mount_lt i hi).trans_le hle)⟩
  obtain ⟨D', h, hsafe⟩ := hload
  rw [rmdirIn]
  dsimp only
  generalize lazyLoadDirectory s dir = u at h hsafe
  cases hfind : ramfsHashmapFind (u.folders dir).foderMap name with
  | none => exact ⟨D', h⟩
  | some info =>
    dsimp only
    split_ifs with hcount
    · exact ⟨D', h⟩
    · rw [not_or, not_not, not_not] at hcount
      obtain ⟨hcur, hmount⟩ := hsafe info hfind hcount
      have hleaf : kids u info.ptr = [] := h.kids_eq_nil hcount.1
      obtain ⟨hinv, hgone, -⟩ := h.remove hfind
        (fun hbelow => hcur (Below.eq_of_leaf hleaf hbelow).symm) rfl
      refine ⟨D', DirInv.quiet ?_ (quiet_markDirty _ dir)⟩
      refine hinv.released (released_destroyFolder (Set.mem_singleton info.ptr) rfl
        fun a ha => Or.inl ha) ?_ hmount
      rintro p rfl
      exact ⟨hinv.lt_next _ (h.kid_mem dir _ (mem_kids_of_find hfind)), hgone _ (Below.refl _ _)⟩

end LittleLinux
