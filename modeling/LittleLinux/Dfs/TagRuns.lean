import LittleLinux.Dfs.FileTags

/-!
# The tags of the files follow the mount

`TagsFollowMount`: without a mount every file is a file in memory, and in a mounted directory a file
whose data is not on the disk is new or dirty. Runs of calls start from a system on which directories
were made and disks mounted (`FsOp.SetsUp`); `FsOp.KeepsTags` is the condition on a call under which
the tags stay right.

Two kinds of calls do harm. `fs_write` and `fs_backspace` tag the file as if its directory had a
mount, for want of an `else`. And a sync writes over data that other files rely on when the allocator
gives out their blocks, or when a root is written to the partition of another mount.
-/

namespace LittleLinux

open ChainTable

/-! ### The tags -/

/-- The tags of all files are right. -/
structure TagsFollowMount (s : Fs) : Prop where
  ram : ∀ p, (s.folders p).mount = none → ∀ finfo ∈ fileEntries (s.folders p),
    finfo.type = RAMFS_TYPE_MEM
  mounted : ∀ p m, (s.folders p).mount = some m → ∀ finfo ∈ fileEntries (s.folders p),
    ¬ OnPartition s.disk.store (s.mountTable m).part finfo →
    finfo.type = if finfo.driveAddr = 0 then RAMFS_TYPE_NEW else RAMFS_TYPE_DIRTY

/-- The tag of one entry, of a folder with that mount. -/
def EntryTag (s : Fs) : Option ℕ → RamfsFileInfo → Prop
  | none, finfo => finfo.type = RAMFS_TYPE_MEM
  | some m, finfo => TagKept s.disk.store (s.mountTable m).part finfo

theorem tagsFollowMount_iff {s : Fs} : TagsFollowMount s ↔
    ∀ p, ∀ finfo ∈ fileEntries (s.folders p), EntryTag s (s.folders p).mount finfo := by
  constructor
  · intro h p finfo hmem
    cases hm : (s.folders p).mount with
    | none => exact h.ram p hm finfo hmem
    | some m => exact fun hset => not_not.mp fun hoff => hset (h.mounted p m hm finfo hmem hoff)
  · intro h
    refine ⟨fun p hm finfo hmem => ?_, fun p m hm finfo hmem hoff => ?_⟩
    · have := h p finfo hmem
      rwa [hm] at this
    · have := h p finfo hmem
      rw [hm] at this
      exact not_not.mp fun hset => hoff (this hset)

/-- A file as the loaders enter it. -/
def Blank (finfo : RamfsFileInfo) : Prop := finfo.ptr = none ∧ finfo.type = RAMFS_TYPE_MEM

theorem Blank.entryTag {finfo : RamfsFileInfo} (h : Blank finfo) (s : Fs) (m : Option ℕ) :
    EntryTag s m finfo := by
  cases m with
  | none => exact h.2
  | some m => exact fun _ => onPartition_of_none h.1

/-! ### What a call brings into the folders -/

/-- Every entry of a folder in `t` is one of `s`, in a folder with the same mount, or is of the
kind `E`. -/
def Brings (E : Option ℕ → RamfsFileInfo → Prop) (s t : Fs) : Prop :=
  ∀ p, ∀ finfo ∈ fileEntries (t.folders p),
    finfo ∈ fileEntries (s.folders p) ∧ (t.folders p).mount = (s.folders p).mount ∨
      E (t.folders p).mount finfo

section Brings

variable {E : Option ℕ → RamfsFileInfo → Prop} {s t u : Fs} {dir : Ptr}

theorem Brings.refl (E : Option ℕ → RamfsFileInfo → Prop) (s : Fs) : Brings E s s :=
  fun _ _ hmem => .inl ⟨hmem, rfl⟩

theorem Brings.trans (h : Brings E s t) (h' : Brings E t u) : Brings E s u := by
  intro p finfo hmem
  rcases h' p finfo hmem with ⟨hmem, hmount⟩ | hnew
  · rcases h p finfo hmem with ⟨hmem, hmount'⟩ | hnew
    · exact .inl ⟨hmem, hmount.trans hmount'⟩
    · rw [hmount]
      exact .inr hnew
  · exact .inr hnew

/-- The folders are the same. -/
theorem Brings.of_folders (h : t.folders = s.folders) : Brings E s t := by
  intro p finfo hmem
  rw [h] at hmem ⊢
  exact .inl ⟨hmem, rfl⟩

theorem Brings.congr {s' t' : Fs} (h : Brings E s t) (hs : s'.folders = s.folders)
    (ht : t'.folders = t.folders) : Brings E s' t' := by
  intro p finfo hmem
  rw [ht] at hmem ⊢
  rw [hs]
  exact h p finfo hmem

/-- One folder is changed. -/
theorem Brings.modifyFolder {g : RamfsFoder → RamfsFoder} (hmount : ∀ f, (g f).mount = f.mount)
    (hentry : ∀ finfo ∈ fileEntries (g (s.folders dir)),
      finfo ∈ fileEntries (s.folders dir) ∨ E (s.folders dir).mount finfo) :
    Brings E s (s.modifyFolder dir g) := by
  intro p finfo hmem
  rcases eq_or_ne p dir with rfl | hne
  · rw [Fs.modifyFolder_self] at hmem ⊢
    rw [hmount]
    exact (hentry finfo hmem).imp_left fun hmem => ⟨hmem, rfl⟩
  · rw [Fs.modifyFolder_of_ne s g hne] at hmem ⊢
    exact .inl ⟨hmem, rfl⟩

/-- One folder is changed, and its files are not. -/
theorem Brings.of_fileMap {g : RamfsFoder → RamfsFoder} (hmount : ∀ f, (g f).mount = f.mount)
    (hfile : ∀ f, (g f).fileMap = f.fileMap) : Brings E s (s.modifyFolder dir g) :=
  .modifyFolder hmount fun finfo hmem => .inl (by rwa [fileEntries, hfile] at hmem)

/-- A folder object is made. -/
theorem Brings.setFolder {f : RamfsFoder} (hf : f.fileMap = Table.empty) :
    Brings E s (s.setFolder dir f) := by
  intro p finfo hmem
  rcases eq_or_ne p dir with rfl | hne
  · rw [Fs.setFolder_self, fileEntries, hf, nodes_empty] at hmem
    exact absurd hmem List.not_mem_nil
  · rw [Fs.setFolder_of_ne s f hne] at hmem ⊢
    exact .inl ⟨hmem, rfl⟩

/-- The file table of `dir` is replaced. -/
theorem Brings.putFiles {map : RamfsFileHashmap} (mem : Memory)
    (hentry : ∀ nd ∈ map.nodes, nd ∈ (s.folders dir).fileMap.nodes ∨ E (s.folders dir).mount nd.value) :
    Brings E s (putFiles s dir map mem) := by
  have hg : Brings E s (s.modifyFolder dir fun f => markDirty (f.setFileMap map)) := by
    refine .modifyFolder (fun f => (markDirty_samePlace _).mount) fun finfo hmem => ?_
    rw [fileEntries, markDirty_fileMap] at hmem
    obtain ⟨nd, hnd, rfl⟩ := List.mem_map.mp hmem
    exact (hentry nd hnd).imp_left fun hnd => List.mem_map_of_mem hnd
  exact hg.congr rfl rfl

/-- Entries of the right kind leave the tags right, where the disks keep their bytes. -/
theorem TagsFollowMount.brings (h : TagsFollowMount s) (hb : Brings (EntryTag s) s t)
    (hstore : SameBytes s.disk.store t.disk.store) (htable : t.mountTable = s.mountTable) :
    TagsFollowMount t := by
  rw [tagsFollowMount_iff] at h ⊢
  intro p finfo hmem
  have hold : EntryTag s (t.folders p).mount finfo := by
    rcases hb p finfo hmem with ⟨hmem, hmount⟩ | hnew
    · rw [hmount]
      exact h p finfo hmem
    · exact hnew
  cases hm : (t.folders p).mount with
  | none =>
    rw [hm] at hold
    exact hold
  | some m =>
    rw [hm] at hold
    have hkept : TagKept s.disk.store (s.mountTable m).part finfo := hold
    rw [EntryTag, htable]
    exact hkept.of_same hstore.sectors hstore.bytes

theorem Brings.mono {E' : Option ℕ → RamfsFileInfo → Prop} (h : Brings E s t)
    (hE : ∀ m finfo, E m finfo → E' m finfo) : Brings E' s t := fun p finfo hmem =>
  (h p finfo hmem).imp_right (hE _ _)

end Brings

/-! ### Loading -/

section Loading

variable {s t : Fs} {dir : Ptr}

/-- What only brings blank entries. -/
abbrev Loads (s t : Fs) : Prop := Brings (fun _ => Blank) s t

theorem loads_addFile {finfo : RamfsFileInfo} (h : Blank finfo) : Loads s (addFile s dir finfo) := by
  have hblank : ∀ name, Blank (fileTable.setName name finfo) := fun _ => h
  have hg : Loads s (s.modifyFolder dir (·.setFileMap
      (ramfsFileHashmapInsert s.mem (s.folders dir).fileMap finfo.name finfo).2.1)) := by
    refine .modifyFolder (fun _ => rfl) fun e hmem => ?_
    obtain ⟨nd, hnd, rfl⟩ := List.mem_map.mp hmem
    rcases fileTable.mem_insert hnd with ⟨nd₀, hnd₀, -, hval | hval⟩ | ⟨-, -, hval⟩
    · rw [hval]
      exact .inl (List.mem_map_of_mem hnd₀)
    · rw [hval]
      exact .inr (hblank _)
    · rw [hval]
      exact .inr (hblank _)
  exact hg.congr rfl rfl

theorem loads_loadFiles (known : Bool) (es : List DiskFileInfo) (s : Fs) :
    Loads s (loadFiles known dir es s) := by
  induction es generalizing s with
  | nil => exact .refl _ s
  | cons e es ih =>
    rw [loadFiles]
    split_ifs
    · exact ih s
    · exact (loads_addFile ⟨rfl, rfl⟩).trans (ih _)

theorem loads_addSubfolder {sub : Ptr} {node : RamfsFoder} (hnode : node.fileMap = Table.empty)
    (info : RamfsFoderInfo) : Loads s (addSubfolder s dir sub node info) := by
  have hset : Loads s (s.setFolder sub node) := .setFolder hnode
  have henter : Loads (s.setFolder sub node) ((s.setFolder sub node).modifyFolder dir (·.setFoderMap
      (ramfsHashmapInsert s.mem ((s.setFolder sub node).folders dir).foderMap info.name info).2.1)) :=
    .of_fileMap (fun _ => rfl) fun _ => rfl
  exact (hset.trans henter).congr rfl rfl

theorem loads_loadSubfolders (known : Bool) (mount : Option ℕ) (parent : Option Ptr)
    (es : List DiskFoderInfo) (s : Fs) :
    Loads s (loadSubfolders known mount parent dir es s).2 := by
  induction es generalizing s with
  | nil => exact .refl _ s
  | cons e es ih =>
    rw [loadSubfolders]
    split_ifs
    · exact ih s
    · dsimp only
      cases (s.mem.malloc sizeofRamfsFoder).1 with
      | none => exact .of_folders rfl
      | some sub =>
        refine Brings.trans ?_ (ih _)
        exact Brings.trans (.of_folders (Fs.setMem_folders s _)) (loads_addSubfolder rfl _)

theorem loads_lazyLoadDirectory (s : Fs) (dir : Ptr) : Loads s (lazyLoadDirectory s dir) := by
  rw [lazyLoadDirectory]
  split_ifs
  · obtain ⟨st, -, heq⟩ | ⟨m, es, st, -, heq⟩ | ⟨m, es, fs, st, -, heq⟩ :=
      dfsLoadFolderChildren_cases s dir <;> rw [heq]
    · exact .of_folders rfl
    · exact Brings.trans (.of_folders (Fs.setStore_folders s st)) (loads_loadSubfolders _ _ _ es _)
    · exact Brings.trans (.of_folders (Fs.setStore_folders s st))
        ((loads_loadSubfolders _ _ _ es _).trans (loads_loadFiles _ fs _))
  · exact .refl _ s

theorem TagsFollowMount.loads (h : TagsFollowMount s)
    (hb : Loads s t ∧ SameBytes s.disk.store t.disk.store) (htable : t.mountTable = s.mountTable) :
    TagsFollowMount t :=
  h.brings (hb.1.mono fun m _ hblank => hblank.entryTag s m) hb.2 htable

theorem TagsFollowMount.lazyLoad (h : TagsFollowMount s) (dir : Ptr) :
    TagsFollowMount (lazyLoadDirectory s dir) := by
  refine h.loads ⟨loads_lazyLoadDirectory s dir, sameBytes_lazyLoadDirectory s dir⟩ ?_
  exact (frame_lazyLoadDirectory frameRel_samePlace tableRel_samePlace le_rfl).mountTable

end Loading

/-! ### Calls -/

section Calls

variable {s t : Fs} {dir : Ptr} {name : CString}

/-- The folders and the disks are the same. -/
theorem TagsFollowMount.of_folders (h : TagsFollowMount s) (hfolders : t.folders = s.folders)
    (hdisk : t.disk = s.disk) (htable : t.mountTable = s.mountTable) : TagsFollowMount t :=
  h.brings (.of_folders hfolders) (hdisk ▸ .refl _) htable

theorem TagsFollowMount.onlyMem (h : TagsFollowMount s) (hst : OnlyMem s t) : TagsFollowMount t := by
  obtain ⟨mem, -, rfl⟩ := hst
  exact h.of_folders rfl rfl rfl

theorem TagsFollowMount.touch (h : TagsFollowMount s) (dir : Ptr) (name : CString) :
    TagsFollowMount (touchIn s dir name).2 := by
  have hu := h.lazyLoad dir
  rcases touchIn_cases rfl name with hmem | ⟨map, mem, -, -, hadds, heq⟩
  · exact hu.onlyMem hmem
  rw [heq]
  refine hu.brings (.putFiles mem fun nd hnd => (hadds.mem_nodes hnd).imp_right fun hnew => ?_)
    (.refl _) rfl
  rw [hnew.2]
  cases hm : ((lazyLoadDirectory s dir).folders dir).mount with
  | none => exact (if_pos hm : newTag ((lazyLoadDirectory s dir).folders dir) = RAMFS_TYPE_MEM)
  | some m => exact fun _ => onPartition_of_none rfl

theorem TagsFollowMount.rm (h : TagsFollowMount s) (dir : Ptr) (name : CString) :
    TagsFollowMount (rmIn s dir name).2 := by
  have hu := h.lazyLoad dir
  rcases rmIn_cases rfl name with heq | ⟨map, mem, -, -, hremoves, heq⟩ <;> rw [heq]
  · exact hu
  · exact hu.brings (.putFiles mem fun nd hnd => .inl (hremoves.mem_nodes hnd)) (.refl _) rfl

/-- New contents in a mounted directory: the file is tagged as a changed one. -/
theorem TagsFollowMount.storesFile (h : TagsFollowMount s) (hmount : (s.folders dir).mount ≠ none)
    (hst : StoresFile s dir name t) : TagsFollowMount t := by
  obtain ⟨data, length, mem, -, -, -, -, rfl⟩ := hst
  obtain ⟨m, hm⟩ := Option.ne_none_iff_exists'.mp hmount
  refine h.brings (.putFiles mem fun nd hnd => ?_) (.refl _) rfl
  obtain ⟨nd₀, hnd₀, rfl | rfl⟩ := mem_nodes_modify hnd
  · exact .inl hnd₀
  · rw [hm]
    exact .inr (tagKept_of_changed rfl)

theorem TagsFollowMount.write (h : TagsFollowMount s) {data : Data}
    (hmount : ((lazyLoadDirectory s dir).folders dir).mount = none →
      ¬ HasFile (lazyLoadDirectory s dir) dir name) : TagsFollowMount (writeIn s dir name data).2 := by
  have hu := h.lazyLoad dir
  rcases writeIn_cases rfl name data with hmem | ⟨hfile, hst⟩
  · exact hu.onlyMem hmem
  · exact hu.storesFile (fun hnone => hmount hnone hfile) hst

/-- Data that is loaded is what the disk has. -/
theorem tagKept_dfsLoadFileData {st : Store} {id : PartId} {info : RamfsFileInfo}
    (h : TagKept st id info) (mem : Memory) : TagKept st id (dfsLoadFileData mem st info id).2.1 := by
  rw [dfsLoadFileData]
  split_ifs
  · exact h
  dsimp only
  cases (mem.malloc (toU32 info.length)).1 with
  | none => exact h
  | some q =>
    dsimp only
    cases hread : (st.read id (toU64 info.driveAddr) (toI32 info.length)).1 with
    | none => exact h
    | some b =>
      obtain ⟨⟨-, hpos, hin⟩, rfl⟩ := Store.read_eq_some hread
      have hlen := toU32_eq_of_toI32_pos hpos
      intro _ buf hbuf
      obtain rfl := Option.some.inj hbuf
      dsimp only
      rw [hlen]
      refine ⟨by omega, fun i hi => ?_⟩
      rw [List.getD_eq_getElem _ _ (by simpa using hi), List.getElem_map, List.getElem_range]

theorem TagsFollowMount.load (h : TagsFollowMount s) {info : RamfsFileInfo}
    (hfind : ramfsFileHashmapFind (s.folders dir).fileMap name = some info) :
    TagsFollowMount (loadData s dir name info).2 := by
  rw [loadData]
  cases hm : (s.folders dir).mount with
  | none => exact h
  | some m =>
    have hinfo : TagKept s.disk.store (s.mountTable m).part info := by
      obtain ⟨nd, hnd, rfl⟩ := fileTable.exists_of_find hfind
      have := tagsFollowMount_iff.mp h dir nd.value (List.mem_map_of_mem hnd)
      rwa [hm] at this
    have hload := tagKept_dfsLoadFileData hinfo s.mem
    have hbytes := sameBytes_dfsLoadFileData s.mem s.disk.store info (s.mountTable m).part
    dsimp only
    generalize dfsLoadFileData s.mem s.disk.store info (s.mountTable m).part = r at hload hbytes
    have hg : Brings (EntryTag s) s (modifyFile s dir name fun _ => r.2.1) := by
      refine .modifyFolder (fun _ => rfl) fun finfo hmem => ?_
      obtain ⟨nd, hnd, rfl⟩ := List.mem_map.mp hmem
      obtain ⟨nd₀, hnd₀, rfl | rfl⟩ := mem_nodes_modify hnd
      · exact .inl (List.mem_map_of_mem hnd₀)
      · rw [hm]
        exact .inr hload
    exact h.brings (hg.congr rfl rfl) hbytes rfl

theorem TagsFollowMount.cat (h : TagsFollowMount s) (dir : Ptr) (name : CString) :
    TagsFollowMount (catIn s dir name).2 := by
  have hu := h.lazyLoad dir
  rcases catIn_cases rfl name with heq | ⟨info, text, hfind, heq⟩ <;> rw [heq]
  · exact hu
  · exact (hu.load hfind).of_folders rfl rfl rfl

theorem TagsFollowMount.backspace (h : TagsFollowMount s) {count : ℤ}
    (hmount : ((lazyLoadDirectory s dir).folders dir).mount = none →
      ¬ HasContent (lazyLoadDirectory s dir) dir name) :
    TagsFollowMount (backspaceIn s dir name count).2 := by
  have hu := h.lazyLoad dir
  rcases backspaceIn_cases rfl name count with heq | ⟨info, hfind, hmem | ⟨hcontent, hst⟩⟩
  · rw [heq]
    exact hu
  · exact (hu.load hfind).onlyMem hmem
  · refine (hu.load hfind).storesFile (fun hnone => hmount ?_ hcontent) hst
    rw [← hnone, loadData]
    cases hm : ((lazyLoadDirectory s dir).folders dir).mount with
    | none => exact hm.symm
    | some m =>
      change _ = ((modifyFile (lazyLoadDirectory s dir) dir name _).folders dir).mount
      rw [modifyFile, Fs.modifyFolder_self]
      exact hm.symm

/-- Making a directory brings no file. -/
theorem loads_mkdirIn (s : Fs) (dir : Ptr) (name : CString) :
    Loads s (mkdirIn s dir name).2 ∧ SameBytes s.disk.store (mkdirIn s dir name).2.disk.store := by
  have hu := loads_lazyLoadDirectory s dir
  have hstore := sameBytes_lazyLoadDirectory s dir
  rcases mkdirIn_cases rfl name with ⟨mem, -, heq⟩ | ⟨hfree, mem, hnext, heq⟩ <;> rw [heq]
  · exact ⟨hu.congr rfl rfl, hstore⟩
  generalize lazyLoadDirectory s dir = u at hu hnext hfree hstore
  have hnode : Loads u (u.setFolder u.mem.next (newDirNode u dir name)) := .setFolder rfl
  rcases enterDir_cases hnext hfree.1 with ⟨mem, -, heq⟩ | ⟨map, mem', -, -, heq⟩ <;> rw [heq]
  · exact ⟨(hu.trans hnode).congr rfl rfl, hstore⟩
  · have hmark : Loads (u.setFolder u.mem.next (newDirNode u dir name))
        ((u.setFolder u.mem.next (newDirNode u dir name)).modifyFolder dir
          fun f => markDirty (f.setFoderMap map)) :=
      .of_fileMap (fun f => (markDirty_samePlace _).mount) fun f => markDirty_fileMap _
    exact ⟨((hu.trans hnode).trans hmark).congr rfl rfl, hstore⟩

/-- Removing a directory takes files away at most. -/
theorem loads_rmdirIn (s : Fs) (dir : Ptr) (name : CString) :
    Loads s (rmdirIn s dir name).2 ∧ SameBytes s.disk.store (rmdirIn s dir name).2.disk.store := by
  have hu := loads_lazyLoadDirectory s dir
  have hstore := sameBytes_lazyLoadDirectory s dir
  rcases rmdirIn_cases rfl name with heq | ⟨info, map, mem, -, -, -, -, -, heq⟩ <;> rw [heq]
  · exact ⟨hu, hstore⟩
  generalize lazyLoadDirectory s dir = u at hu hstore
  have hdelete : Loads u (u.modifyFolder dir (·.setFoderMap map)) :=
    .of_fileMap (fun _ => rfl) fun _ => rfl
  have hempty : Loads (u.modifyFolder dir (·.setFoderMap map))
      ((u.modifyFolder dir (·.setFoderMap map)).modifyFolder info.ptr emptyTables) := by
    refine .modifyFolder (fun _ => rfl) fun finfo hmem => ?_
    rw [fileEntries, show ∀ f, (emptyTables f).fileMap = Table.empty from fun _ => rfl, nodes_empty] at hmem
    exact absurd hmem List.not_mem_nil
  have hmark : Loads u (((u.modifyFolder dir (·.setFoderMap map)).modifyFolder info.ptr
      emptyTables).modifyFolder dir markDirty) :=
    (hdelete.trans hempty).trans
      (.of_fileMap (fun f => (markDirty_samePlace f).mount) markDirty_fileMap)
  exact ⟨(hu.trans hmark).congr rfl rfl, hstore⟩

end Calls

/-! ### Synchronisation -/

/-- The byte `x` of the partition `id` holds settled data of a file in a folder of `ps`. -/
def DataAt (s : Fs) (ps : Set Ptr) (id : PartId) (x : ℕ) : Prop :=
  ∃ p ∈ ps, ∃ m, (s.folders p).mount = some m ∧ (s.mountTable m).part = id ∧
    HeldBy (fileEntries (s.folders p)) x

/-- The sync of the folder `p` to the partition `id` does no harm. The folder was loaded, and no root
of a mount below it is written too. The files that are written belong to this partition, and land apart
from the data of the others, each when it is its turn; so does the record in the end. -/
structure SyncSafe (s : Fs) (p : Ptr) (id : PartId) : Prop where
  loaded : (s.folders p).type ≠ RAMFS_FOLDER_TYPE_NEW
  kids : ∀ c ∈ kids s p, (s.folders c).isMountRoot = true → ¬ IsDirtyType (s.folders c).type
  here : ∀ finfo ∈ fileEntries (s.folders p), Written finfo →
    ∀ m, (s.folders p).mount = some m → (s.mountTable m).part = id
  files : ChainLandsApart id (DataAt s {p}ᶜ id) (s.folders p).fileMap.nodes s.disk
  record : ∀ x, DataAt (syncFiles s p id) Set.univ id x → x < toU32 (s.folders p).driveAddr ∨
    toU32 (s.folders p).driveAddr + sizeofDiskFolder ≤ x

section Sync

variable {s t : Fs} {p : Ptr} {id : PartId}

/-- Where the disk keeps the bytes of all settled data, the tags stay right. -/
theorem TagsFollowMount.of_bytes (id : PartId) (h : TagsFollowMount s)
    (hfiles : ∀ q, fileEntries (t.folders q) = fileEntries (s.folders q) ∧
      (t.folders q).mount = (s.folders q).mount) (htable : t.mountTable = s.mountTable)
    (hstore : SyncedApart id (DataAt s Set.univ id) s.disk.store t.disk.store) : TagsFollowMount t := by
  rw [tagsFollowMount_iff] at h ⊢
  intro q finfo hmem
  rw [(hfiles q).1] at hmem
  rw [(hfiles q).2]
  have hold := h q finfo hmem
  cases hm : (s.folders q).mount with
  | none =>
    rw [hm] at hold
    exact hold
  | some m =>
    rw [hm] at hold
    rw [EntryTag, htable]
    refine TagKept.of_bytes hold hstore.sectors fun x hx => ?_
    rcases eq_or_ne (s.mountTable m).part id with hid | hne
    · rw [hid]
      exact hstore.held x ⟨q, Set.mem_univ q, m, hm, hid, finfo, hmem, hx⟩
    · rw [hstore.others _ hne]

theorem fileEntries_syncFiles (s : Fs) (p : Ptr) (id : PartId) :
    fileEntries ((syncFiles s p id).folders p) =
      (mapAccumChain (syncEntry id) (s.folders p).fileMap.nodes s.disk).1.map Node.value := by
  rw [← (mapAccum_eq (s.folders p).fileMap (syncEntry id) s.disk).1, syncFiles_eq, Fs.setDisk_folders,
    s.modifyFolder_self p]
  rfl

theorem disk_syncFiles (s : Fs) (p : Ptr) (id : PartId) : (syncFiles s p id).disk =
    (mapAccumChain (syncEntry id) (s.folders p).fileMap.nodes s.disk).2 :=
  (mapAccum_eq (s.folders p).fileMap (syncEntry id) s.disk).2

theorem syncFiles_of_ne {q : Ptr} (hne : q ≠ p) : (syncFiles s p id).folders q = s.folders q := by
  rw [syncFiles_eq, Fs.setDisk_folders, Fs.modifyFolder_of_ne s _ hne]

theorem mount_syncFiles (s : Fs) (p q : Ptr) (id : PartId) :
    ((syncFiles s p id).folders q).mount = (s.folders q).mount := by
  rcases eq_or_ne q p with rfl | hne
  · rw [syncFiles_eq, Fs.setDisk_folders, s.modifyFolder_self q]
    rfl
  · rw [syncFiles_of_ne hne]

/-- **The loop over the files of a folder.** -/
theorem TagsFollowMount.syncFiles (h : TagsFollowMount s) (hsafe : SyncSafe s p id) :
    TagsFollowMount (syncFiles s p id) := by
  by_cases hnone : ∀ nd ∈ (s.folders p).fileMap.nodes, ¬ Written nd.value
  · have hchain := mapAccumChain_of_unwritten id s.disk hnone
    refine h.of_bytes id (fun q => ⟨?_, mount_syncFiles s p q id⟩) rfl ?_
    · rcases eq_or_ne q p with rfl | hne
      · rw [fileEntries_syncFiles, hchain]
        rfl
      · rw [syncFiles_of_ne hne]
    · rw [disk_syncFiles, hchain]
      exact .refl _ _ _
  simp only [not_forall, not_not] at hnone
  obtain ⟨nd, hnd, hwritten⟩ := hnone
  have hentry := tagsFollowMount_iff.mp h
  -- a written file is dirty, so its folder has a mount
  obtain ⟨m, hm⟩ : ∃ m, (s.folders p).mount = some m := by
    rw [← Option.ne_none_iff_exists']
    intro hm
    have hmem := hentry p nd.value (List.mem_map_of_mem hnd)
    rw [hm] at hmem
    exact absurd (hwritten.1.symm.trans hmem) (by decide)
  have hid := hsafe.here nd.value (List.mem_map_of_mem hnd) hwritten m hm
  have hkept : ∀ finfo ∈ (s.folders p).fileMap.nodes.map Node.value, TagKept s.disk.store id finfo := by
    intro finfo hmem
    have hmem := hentry p finfo hmem
    rw [hm, EntryTag, hid] at hmem
    exact hmem
  obtain ⟨hapart, hall⟩ := tagKept_mapAccumChain hkept hsafe.files
  rw [← disk_syncFiles] at hapart hall
  rw [← fileEntries_syncFiles] at hall
  rw [tagsFollowMount_iff]
  intro q finfo hmem
  rw [mount_syncFiles]
  rcases eq_or_ne q p with rfl | hne
  · rw [hm, EntryTag, show (LittleLinux.syncFiles s q id).mountTable = s.mountTable from rfl, hid]
    exact hall finfo hmem
  · rw [syncFiles_of_ne hne] at hmem
    have hold := hentry q finfo hmem
    cases hm : (s.folders q).mount with
    | none =>
      rw [hm] at hold
      exact hold
    | some m =>
      rw [hm] at hold
      refine TagKept.of_bytes hold hapart.sectors fun x hx => ?_
      rcases eq_or_ne (s.mountTable m).part id with hid | hne'
      · rw [show ((LittleLinux.syncFiles s p id).mountTable m).part = id from hid]
        exact hapart.held x ⟨q, hne, m, hm, hid, finfo, hmem, hx⟩
      · exact congrFun (hapart.others _ hne') x

/-- The record, written off the data. -/
theorem TagsFollowMount.writeBack (h : TagsFollowMount t)
    (hoff : ∀ x, DataAt t Set.univ id x → x < toU32 (t.folders p).driveAddr ∨
      toU32 (t.folders p).driveAddr + sizeofDiskFolder ≤ x) : TagsFollowMount (writeBack t p id) := by
  have hwrite : SyncedApart id (DataAt t Set.univ id) t.disk.store
      (t.disk.store.write id (toU32 (t.folders p).driveAddr) sizeofDiskFolder
        (diskRecord (t.folders p)).encode).2 :=
    syncedApart_write _ fun x hx => by
      rw [Int.toNat_natCast]
      exact hoff x hx
  rw [LittleLinux.writeBack, dfsSaveFolderToDisk]
  dsimp only
  split_ifs
  · refine h.of_bytes id (fun q => ?_) rfl hwrite
    rcases eq_or_ne q p with rfl | hne
    · rw [Fs.modifyFolder_self]
      exact ⟨rfl, rfl⟩
    · rw [Fs.modifyFolder_of_ne _ _ hne]
      exact ⟨rfl, rfl⟩
  · exact h.of_bytes id (fun q => ⟨rfl, rfl⟩) rfl hwrite

/-- The sync of `p` does nothing, or does no harm. -/
def SyncKeepsTags (s : Fs) (p : Ptr) : Prop :=
  IsDirtyType (s.folders p).type → ∀ i, findSyncMount s p = some i → SyncSafe s p (s.mountTable i).part

/-- **A sync.** -/
theorem TagsFollowMount.sync (h : TagsFollowMount s) (hroots : RootsMarked s)
    (hsync : SyncKeepsTags s p) : TagsFollowMount (dfsSyncFolder s p).2 := by
  by_cases hidle : ¬ IsDirtyType (s.folders p).type ∨ findSyncMount s p = none
  · rw [dfsSyncFolder, syncFolder_of_clean hidle]
    exact h
  obtain ⟨hdirty, hfind⟩ := not_or.mp hidle
  obtain ⟨i, hi⟩ := Option.ne_none_iff_exists'.mp hfind
  have hsafe := hsync (not_not.mp hdirty) i hi
  have hclaim : claimSlot s p (s.mountTable i).part = (some s, s) := if_neg fun hnew => hsafe.loaded hnew.1
  have hclean : ∀ c ∈ kids s p, ¬ IsDirtyType (s.folders c).type ∨ findSyncMount s c = none :=
    fun c hc => by
      by_cases hroot : (s.folders c).isMountRoot = true
      · exact .inl (hsafe.kids c hc hroot)
      · refine .inr (Option.eq_none_iff_forall_ne_some.mpr fun i hi => hroot ?_)
        exact isMountRoot_of_findSyncMount hroots hi
  rw [dfsSyncFolder, syncFolder_of_dirty hi (not_not.mp hdirty), hclaim]
  dsimp only
  rw [syncContents_of_clean hclean]
  refine (h.syncFiles hsafe).writeBack ?_
  rw [(addrsKept_syncFiles s p _).driveAddr p]
  exact hsafe.record

end Sync

/-! ### Setting up -/

/-- A call that makes or removes a directory, goes to one, or mounts a disk. -/
def FsOp.SetsUp : FsOp → Prop
  | .mkdir _ _ | .rmdir _ _ | .cd _ | .mount _ _ => True
  | _ => False

/-- No file was touched yet. -/
def NoData (s : Fs) : Prop := ∀ p, ∀ finfo ∈ fileEntries (s.folders p), Blank finfo

section SetUp

variable {s t : Fs} {dir : Ptr}

theorem NoData.tagsFollowMount (h : NoData s) : TagsFollowMount s :=
  tagsFollowMount_iff.mpr fun p finfo hmem => (h p finfo hmem).entryTag s _

theorem NoData.loads (h : NoData s) (hb : Loads s t) : NoData t := fun p finfo hmem =>
  (hb p finfo hmem).elim (fun hold => h p finfo hold.1) id

theorem NoData.of_folders (h : NoData s) (hfolders : t.folders = s.folders) : NoData t :=
  h.loads (.of_folders hfolders)

/-- A change outside the file tables. -/
theorem NoData.modifyFolder (h : NoData s) {g : RamfsFoder → RamfsFoder}
    (hfile : ∀ f, (g f).fileMap = f.fileMap) : NoData (s.modifyFolder dir g) := by
  intro p finfo hmem
  rcases eq_or_ne p dir with rfl | hne
  · rw [Fs.modifyFolder_self, fileEntries, hfile] at hmem
    exact h p finfo hmem
  · rw [Fs.modifyFolder_of_ne s g hne] at hmem
    exact h p finfo hmem

theorem loads_dfsLoadFolderFromDisk (s : Fs) (dir : Ptr) (id : PartId) (off : ℕ) :
    Loads s (dfsLoadFolderFromDisk s dir id off).2 := by
  rw [dfsLoadFolderFromDisk]
  dsimp only
  cases (s.disk.store.read id off sizeofDiskFolder).1 with
  | none => exact .of_folders rfl
  | some b =>
    dsimp only
    have hreset : Loads s ((s.setStore (s.disk.store.read id off sizeofDiskFolder).2).modifyFolder dir
        fun f =>
          { f with
            name := (DiskFolder.decode b).name
            type := RAMFS_FOLDER_TYPE_DISK_CLEAN
            driveAddr := off
            isMountRoot := false
            foderMap := ramfsHashmapInit
            fileMap := ramfsFileHashmapInit }) := by
      refine Brings.trans (.of_folders (Fs.setStore_folders s _)) (.modifyFolder (fun _ => rfl) ?_)
      intro finfo hmem
      rw [fileEntries, show ramfsFileHashmapInit = Table.empty from rfl, nodes_empty] at hmem
      exact absurd hmem List.not_mem_nil
    split_ifs
    · exact .of_folders rfl
    · exact hreset.trans (loads_loadSubfolders _ _ _ _ _)
    · exact hreset.trans ((loads_loadSubfolders _ _ _ _ _).trans (loads_loadFiles _ _ _))

/-- The root of a new mount is loaded with entries alone. -/
theorem NoData.mount (h : NoData s) (path : CString) (id : PartId) : NoData (dfsMount s path id).2 := by
  obtain ⟨st, mem, -, -, -, heq⟩ | ⟨dir, sb, st, -, -, -, -, -, hcase⟩ := dfsMount_cases s path id
  · rw [heq]
    exact h.of_folders rfl
  have hnew : NoData (newRoot s st) := by
    refine NoData.loads (s := (s.setStore st).setMem (s.mem.malloc sizeofRamfsFoder).2)
      (h.of_folders rfl) (.setFolder rfl)
  have hload := hnew.loads (loads_dfsLoadFolderFromDisk (newRoot s st) s.mem.next id sb.rootPointer)
  generalize dfsLoadFolderFromDisk (newRoot s st) s.mem.next id sb.rootPointer = l at hload hcase
  obtain heq | ⟨-, heq⟩ := hcase <;> rw [heq]
  · exact hload.of_folders rfl
  have hmark : NoData (markRoot l.2 s.mem.next l.2.mountCount) := hload.modifyFolder fun _ => rfl
  generalize markRoot l.2 s.mem.next l.2.mountCount = m at hmark
  obtain ⟨ins, -, ⟨-, hattach⟩ | ⟨-, hattach⟩⟩ :=
    attachRoot_cases m dir s.mem.next path id (toI32 sb.rootPointer) <;> rw [hattach]
  · exact hmark.of_folders rfl
  · have henter : NoData (m.modifyFolder dir (·.setFoderMap ins.2.1)) := hmark.modifyFolder fun _ => rfl
    exact henter.of_folders rfl

theorem NoData.step (h : NoData s) {op : FsOp} (hop : op.SetsUp) : NoData (fsStep s op) := by
  obtain ⟨r, hcase, hstep⟩ := fsStep_cases s op
  rw [hstep]
  cases hcase with
  | refused => exact h
  | mkdir => exact h.loads (loads_mkdirIn s _ _).1
  | cd => exact h.of_folders rfl
  | rmdir => exact h.loads (loads_rmdirIn s _ _).1
  | mount path id => exact h.mount path id
  | _ => exact hop.elim

theorem noData_init (mem : Memory) (store : Store) : NoData (initState mem store) := by
  intro p finfo hmem
  have hempty : ((initState mem store).folders p).fileMap = Table.empty := by
    rcases eq_or_ne p rootPtr with rfl | hne
    · rfl
    · rw [initState_folder mem store hne]
      rfl
  rw [fileEntries, hempty, nodes_empty] at hmem
  exact absurd hmem List.not_mem_nil

theorem noData_run (mem : Memory) (store : Store) {setup : List FsOp}
    (h : Along fsStep (fun _ op => op.SetsUp) (initState mem store) setup) :
    NoData (setup.foldl fsStep (initState mem store)) :=
  Along.invariant (fun _ _ hs hop => hs.step hop) (noData_init mem store) h

end SetUp

/-! ### Runs -/

/-- A call on a file, a load or a sync. -/
def FsOp.UsesFiles : FsOp → Prop
  | .touch _ _ | .write _ _ _ | .cat _ _ | .backspace _ _ _ | .rm _ _ | .syncFolder _ | .syncAll => True
  | _ => False

/-- The call keeps the tags right: it changes no file of a directory without a mount, and its syncs
do no harm. Nothing is mounted any more. -/
def FsOp.KeepsTags (s : Fs) : FsOp → Prop
  | .write name _ path => ∀ p, fromDir s path = some p →
    ((lazyLoadDirectory s p).folders p).mount = none → ¬ HasFile (lazyLoadDirectory s p) p name
  | .backspace name count path => 0 < count → ∀ r, parsePath s name path = .ok r →
    ((lazyLoadDirectory s r.1).folders r.1).mount = none →
    ¬ HasContent (lazyLoadDirectory s r.1) r.1 r.2
  | .syncFolder p => SyncKeepsTags s p
  | .syncAll => Along (fun t i => (dfsSyncFolder t (t.mountTable i).rootDir).2)
    (fun t i => SyncKeepsTags t (t.mountTable i).rootDir) s (List.range s.mountCount)
  | .mount _ _ | .umount _ => False
  | _ => True

section Runs

variable {s : Fs}

/-- **One call.** -/
theorem TagsFollowMount.step (h : TagsFollowMount s) (hroots : RootsMarked s) {op : FsOp}
    (hop : op.KeepsTags s) : TagsFollowMount (fsStep s op) := by
  obtain ⟨r, hcase, hstep⟩ := fsStep_cases s op
  rw [hstep]
  cases hcase with
  | refused => exact h
  | mkdir => exact h.loads (loads_mkdirIn s _ _) (frame_mkdirIn s _ _).mountTable
  | cd => exact h.of_folders rfl rfl rfl
  | rm => exact h.rm _ _
  | rmdir => exact h.loads (loads_rmdirIn s _ _) (frame_rmdirIn s _ _).mountTable
  | touch => exact h.touch _ _
  | write hdir => exact h.write (hop _ hdir)
  | cat => exact h.cat _ _
  | backspace hparse hpos => exact h.backspace (hop hpos _ hparse)
  | syncFolder p => exact h.sync hroots hop
  | syncAll =>
    exact (Along.invariant (I := fun t => TagsFollowMount t ∧ RootsMarked t)
      (fun t i ht hi => ⟨ht.1.sync ht.2 hi, ht.2.frame ((quiet_dfsSyncFolder t _).frame _)⟩)
      ⟨h, hroots⟩ hop).1
  | mount => exact hop.elim
  | umount => exact hop.elim

/-- **The tags follow the mount** in every state of a run whose calls keep them right, after
directories were made and disks mounted, whatever fails and whatever the disks hold, as long as
the calls stay in their bounds and no `fs_write` loses the data of its file. -/
theorem tagsFollowMount_run (mem : Memory) (store : Store) (setup ops : List FsOp)
    (hsetup : Along fsStep (fun s op => op.InBounds s ∧ op.SetsUp) (initState mem store) setup)
    (hops : Along fsStep (fun s op => (op.InBounds s ∧ ¬op.Loses s) ∧ op.KeepsTags s)
      (setup.foldl fsStep (initState mem store)) ops) :
    TagsFollowMount (ops.foldl fsStep (setup.foldl fsStep (initState mem store))) := by
  have hstart := noData_run mem store (hsetup.imp fun _ _ h => h.2)
  exact (Along.invariant (I := fun s => TagsFollowMount s ∧ RootsMarked s)
    (fun _ op hs hop => ⟨hs.1.step hs.2 hop.2, hs.2.step op⟩)
    ⟨hstart.tagsFollowMount, rootsMarked_run mem store setup⟩ hops).1

end Runs

/-! ### A file that is rewritten -/

/-- The file of `oneFileState` is written, and not yet synced. -/
def rewrittenState : Fs :=
  fsStep oneFileState (.write (.ofBytes [102]) (Data.byte 120) (some oneFilePath))

theorem fromDir_oneFilePath : fromDir oneFileState (some oneFilePath) = some 7 := by decide +kernel

theorem lazyLoadDirectory_oneFileState : lazyLoadDirectory oneFileState 7 = oneFileState := by
  have hcount : (oneFileState.folders 7).fileMap.count ≠ 0 := by decide +kernel
  rw [lazyLoadDirectory, if_neg fun h => hcount h.2.2]

theorem putFiles_folder_of_ne {s : Fs} {dir q : Ptr} {map : RamfsFileHashmap} {mem : Memory}
    (hne : q ≠ dir) : (putFiles s dir map mem).folders q = s.folders q := by
  rw [putFiles, Fs.setMem_folders, Fs.modifyFolder_of_ne s _ hne]

/-- Only the root of the mount is changed. -/
theorem rewrittenState_eq : rewrittenState.disk = oneFileState.disk ∧
    ∀ q ≠ 7, rewrittenState.folders q = oneFileState.folders q := by
  have heq : rewrittenState = (writeIn oneFileState 7 (.ofBytes [102]) (Data.byte 120)).2 := by
    rw [rewrittenState, fsStep, fsCall, fsWrite, fromDir_oneFilePath]
  rw [heq]
  rcases writeIn_cases lazyLoadDirectory_oneFileState (.ofBytes [102]) (Data.byte 120) with
    ⟨mem, -, heq⟩ | ⟨-, data, length, mem, -, -, -, -, heq⟩ <;> rw [heq]
  · exact ⟨rfl, fun _ _ => rfl⟩
  · exact ⟨rfl, fun q hne => putFiles_folder_of_ne hne⟩

theorem mountOps_setsUp : Along fsStep (fun _ op => op.SetsUp) (initState ampleMemory oneFileStore)
    (mountOps.take 5) :=
  ⟨trivial, trivial, trivial, trivial, trivial, trivial⟩

/-- The calls that set up stay in their bounds. -/
theorem mountOps_take_inBounds : Along fsStep (fun s op => op.InBounds s)
    (initState ampleMemory oneFileStore) (mountOps.take 5) := by
  decide +kernel

/-- The other folders have no data. -/
theorem rewrittenState_noData {q : Ptr} (hne : q ≠ 7) {x : ℕ} :
    ¬ HeldBy (fileEntries (rewrittenState.folders q)) x := by
  rintro ⟨finfo, hmem, -, hptr, -⟩
  rw [rewrittenState_eq.2 q hne] at hmem
  exact hptr (noData_run ampleMemory oneFileStore mountOps_setsUp q finfo hmem).1

/-- The file that is written is the only one. -/
theorem rewrittenState_unsettled : ∀ finfo ∈ fileEntries (rewrittenState.folders 7), ¬ Settled finfo := by
  have htag : ∀ finfo ∈ fileEntries (rewrittenState.folders 7), finfo.type = changedTag finfo := by
    decide +kernel
  exact fun finfo hmem hset => hset (htag finfo hmem)

theorem rewrittenState_syncSafe : SyncSafe rewrittenState 7 part0 where
  loaded := by decide +kernel
  kids := fun c hc => by
    have hkids : kids rewrittenState 7 = [] := by decide +kernel
    rw [hkids] at hc
    exact absurd hc List.not_mem_nil
  here := fun _ _ _ m hm => by
    have hmount : (rewrittenState.folders 7).mount = some 0 := by decide +kernel
    obtain rfl := Option.some.inj (hmount.symm.trans hm)
    decide +kernel
  files := fun pre nd post hnodes _ => by
    have hone : (rewrittenState.folders 7).fileMap.nodes.length = 1 := by decide +kernel
    rw [hnodes, List.length_append, List.length_cons] at hone
    obtain rfl : pre = [] := List.eq_nil_of_length_eq_zero (by omega)
    have hfree : ∀ x, ¬ (DataAt rewrittenState {7}ᶜ part0 x ∨
        HeldBy ((nd :: post).map Node.value) x) := by
      rintro x (⟨p, hp, m, -, -, hheld⟩ | ⟨finfo, hmem, hset, -⟩)
      · exact rewrittenState_noData hp hheld
      · refine rewrittenState_unsettled finfo ?_ hset
        rwa [fileEntries, hnodes]
    have hsb := oneFileState_superblock
    rw [superblockOf] at hsb
    refine ⟨?_, ?_, fun x hx => absurd hx (hfree x), fun x hx => absurd hx (hfree x),
      fun x hx => absurd hx (hfree x)⟩
    · rw [mapAccumChain, rewrittenState_eq.1]
      exact oneFileState_blockFolder.small.part.formatted
    · rw [mapAccumChain, rewrittenState_eq.1, hsb]
      norm_num [DFS_BLOCK_SIZE]
  record := by
    rintro x ⟨p, -, m, -, -, finfo, hmem, -, hptr, hle, -⟩
    have hslot : toU32 (rewrittenState.folders 7).driveAddr = 536 := by decide +kernel
    have haddr : ∀ finfo ∈ fileEntries ((syncFiles rewrittenState 7 part0).folders 7),
        toU64 finfo.driveAddr = 143206400 := by
      decide +kernel
    rw [hslot]
    rcases eq_or_ne p 7 with rfl | hne
    · rw [haddr finfo hmem] at hle
      exact .inr (le_trans (by decide) hle)
    · rw [syncFiles_of_ne hne, rewrittenState_eq.2 p hne] at hmem
      exact absurd (noData_run ampleMemory oneFileStore mountOps_setsUp p finfo hmem).1 hptr

theorem tagsFollowMount_run_rewrite : TagsFollowMount (rewriteFileOps.foldl fsStep oneFileState) := by
  have hsync : SyncKeepsTags rewrittenState 7 := fun _ i hi => by
    have hfind : findSyncMount rewrittenState 7 = some 0 := by decide +kernel
    have hpart : (rewrittenState.mountTable 0).part = part0 := by decide +kernel
    rw [← Option.some.inj (hfind.symm.trans hi), hpart]
    exact rewrittenState_syncSafe
  have hops : Along fsStep FsOp.KeepsTags oneFileState rewriteFileOps := by
    refine ⟨fun p hp hnone => ?_, hsync, trivial⟩
    obtain rfl : p = 7 := Option.some.inj (hp.symm.trans fromDir_oneFilePath)
    have hmount : (oneFileState.folders 7).mount = some 0 := by decide +kernel
    rw [lazyLoadDirectory_oneFileState, hmount] at hnone
    exact absurd hnone (Option.some_ne_none 0)
  have hloses : Along fsStep (fun s op => ¬op.Loses s) oneFileState rewriteFileOps := by
    refine ⟨?_, id, trivial⟩
    rintro ⟨p, -, info, buf, -, -, -, hgrants⟩
    exact absurd hgrants (by decide +kernel)
  have hbounds : Along fsStep (fun s op => op.InBounds s) oneFileState rewriteFileOps := by
    decide +kernel
  exact tagsFollowMount_run ampleMemory oneFileStore (mountOps.take 5) rewriteFileOps
    (mountOps_take_inBounds.and mountOps_setsUp) ((hbounds.and hloses).and hops)

/-! ### A file in memory that is written -/

/-- A file of the memory directory `/` is made and written: it is tagged as one that is new on
a disk. -/
def ramFileOps : List FsOp :=
  [.touch (.ofBytes [102]) none, .write (.ofBytes [102]) (Data.byte 120) none]

theorem fsWrite_tags_ram_file :
    ¬∀ (mem : Memory) (store : Store) (setup ops : List FsOp), (∀ op ∈ setup, op.SetsUp) →
      (∀ op ∈ ops, op.UsesFiles) →
      TagsFollowMount (ops.foldl fsStep (setup.foldl fsStep (initState mem store))) := by
  intro h
  have htags := h ampleMemory formattedState.disk.store [] ramFileOps (by simp) (by simp [ramFileOps, FsOp.UsesFiles])
  have hall := htags.ram rootPtr (by decide +kernel)
  revert hall
  decide +kernel

end LittleLinux
