import LittleLinux.Dfs.FailedLoad
import LittleLinux.Dfs.LiveUse
import LittleLinux.Dfs.Removal
import LittleLinux.Ramfs.AbsolutePath

/-!
# Loading on demand

`dfs_mount` loads the root of the mount and makes an empty object for each of its subfolders, to be
loaded when it is first visited. None ever is: the objects have no mount, `dfs_load_folder_children`
refuses a folder without one, and neither `_get_dir_by_path` nor `fs_ls` loads a folder whose object
exists. So what is seen below the root is what is on the disk exactly when there is nothing below
the subfolders of the root (`lazyInvisible_iff`); and for the files of the root, when no name is
taken for another and `printf` drops no byte of them.
-/

namespace LittleLinux

open ChainTable

/-! ### The tree on the disk -/

/-- The folder record at an offset of a partition. -/
def recordAt (st : Store) (id : PartId) (off : ℕ) : DiskFolder :=
  DiskFolder.decode fun i => st.bytes id (off + i)

/-- The offset of the record that a chain of subfolder entries leads to. -/
def diskChain (st : Store) (id : PartId) : ℕ → List CString → Option ℕ
  | off, [] => some off
  | off, name :: names =>
    match (recordAt st id off).subfolders.find? fun e => decide (e.name = name) with
    | some e => diskChain st id (toU32 e.driveAddr) names
    | none => none

/-- The first bytes of a file. -/
def diskData (st : Store) (id : PartId) (f : DiskFileInfo) (n : ℕ) : List UInt8 :=
  (List.range n).map fun i => st.bytes id (toU64 f.driveAddr + i)

/-- The records that chains from the offset lead to are valid, and they and their files lie within
the partition. -/
structure DiskTree (st : Store) (id : PartId) (root : ℕ) : Prop where
  record : ∀ names off, diskChain st id root names = some off → ValidRecord (recordAt st id off)
  inside : ∀ names off, diskChain st id root names = some off → off + sizeofDiskFolder ≤ st.size id
  file : ∀ names off, diskChain st id root names = some off → ∀ f ∈ (recordAt st id off).files,
    0 ≤ f.length ∧ toU64 f.driveAddr + f.length ≤ st.size id

/-! ### What is seen of it -/

/-- The state after `fs_cd` along some paths, one after the other. -/
def cdAll (s : Fs) (paths : List CString) : Fs := paths.foldl (fun s path => (fsCd s path).2) s

/-- A relative path whose components, but for empty ones and dots, are these names. -/
structure IsPathOf (path : CString) (names : List CString) : Prop where
  ne_nil : path.chars ≠ []
  relative : path.chars.head? ≠ some 47
  components : (components path).filter (fun part => part.chars ≠ [] ∧ part.chars ≠ [46]) = names
  entry : ∀ name ∈ names, IsEntryName name

/-- The line of a directory, and of a file, in a listing. -/
def dirLine (name : CString) : List UInt8 := ascii "  " ++ name.chars ++ ascii "/\n"
def fileLine (name : CString) : List UInt8 := ascii "  " ++ name.chars ++ ascii " (%lld bytes)\n"

/-- A listing of these directories and files. -/
def lsText (dirs files : List CString) : List UInt8 :=
  ascii "Directories:\n" ++ dirs.flatMap dirLine ++ ascii "Files:\n" ++ files.flatMap fileLine

/-- `fs_ls` lists the subfolders and the files of the record, in some order. -/
def Lists (s : Fs) (r : DiskFolder) : Prop :=
  ∃ dirs files, dirs.Perm (r.subfolders.map (·.name)) ∧ files.Perm (r.files.map (·.name)) ∧
    (fsLs s).2.out = s.out ++ lsText dirs files

/-- `fs_cat` prints these bytes. -/
def Prints (s : Fs) (name : CString) (data : List UInt8) : Prop :=
  (fsCat s name none).2.out = s.out ++ data

/-- The calls of `fs_cd` fit their buffers, and come to no folder that was released. Those below
the folder `root`, which was just mounted, are new. -/
def CdsInBounds (root : Ptr) (s : Fs) (paths : List CString) : Prop :=
  Along (fun s path => (fsCd s path).2) (fun s path => (FsOp.cd path).PathsFit s ∧
    ∀ p ∈ (FsOp.cd path).blocks s, Below (kids s) root p ∨ p ∉ s.mem.freed) s paths

/-- Below the folder `root` everything is seen as it is on the disk at the offset `off`: paths
lead to where chains of entries lead, and where `fs_cd` goes to a folder below `root`, `fs_ls` lists
its record and `fs_cat` prints its files. -/
structure LazyInvisible (st : Store) (id : PartId) (off : ℕ) (s : Fs) (root : Ptr) : Prop where
  resolves : ∀ path names, path.chars.length < 512 → IsPathOf path names →
    ((getDirByPath s.folders root path).isSome ↔ (diskChain st id off names).isSome)
  lists : ∀ paths names off', CdsInBounds root s paths → (∀ name ∈ names, IsEntryName name) →
    walkParts s.folders root names = some (cdAll s paths).currentDir →
    diskChain st id off names = some off' → Lists (cdAll s paths) (recordAt st id off')
  prints : ∀ paths names off', CdsInBounds root s paths → (∀ name ∈ names, IsEntryName name) →
    walkParts s.folders root names = some (cdAll s paths).currentDir →
    diskChain st id off names = some off' → ∀ f ∈ (recordAt st id off').files,
    Prints (cdAll s paths) f.name (diskData st id f f.length.toNat)

/-- There is nothing below the subfolders of the root that paths can name; no file of the root is
taken for a later one; and the file that is found under the name of a file of the root has the
same bytes, once its length is an `int` and those that `printf` drops are left out. -/
structure RootSuffices (st : Store) (id : PartId) (off : ℕ) : Prop where
  subfolders : ∀ e ∈ (recordAt st id off).subfolders, IsEntryName e.name →
    (recordAt st id (toU32 e.driveAddr)).subfolders = [] ∧
      (recordAt st id (toU32 e.driveAddr)).files = []
  apart : FilesApart (recordAt st id off).files
  contents : ∀ f ∈ (recordAt st id off).files, ∀ g, (recordAt st id off).fileNamed f.name = some g →
    (diskData st id g (toI32 g.length).toNat).flatMap printfChar = diskData st id f f.length.toNat

/-! ### Listings -/

theorem fsLs_out (s : Fs) :
    (fsLs s).2.out = s.out ++ lsText ((s.folders s.currentDir).foderMap.nodes.map Node.key)
      ((s.folders s.currentDir).fileMap.nodes.map Node.key) := by
  rw [lsText, List.flatMap_map, List.flatMap_map]
  rfl

/-- The length of a listing does not depend on the order. -/
theorem length_lsText_perm {dirs dirs' files files' : List CString} (hdirs : dirs.Perm dirs')
    (hfiles : files.Perm files') : (lsText dirs files).length = (lsText dirs' files').length := by
  rw [lsText, lsText]
  simp only [List.length_append, (hdirs.flatMap_right dirLine).length_eq,
    (hfiles.flatMap_right fileLine).length_eq]

theorem length_lsText (dirs files : List CString) :
    (lsText dirs files).length = (lsText [] []).length + (dirs.flatMap dirLine).length +
      (files.flatMap fileLine).length := by
  rw [lsText, lsText]
  simp only [List.length_append, List.flatMap_nil, List.length_nil]
  omega

/-- What an empty folder lists is the record only of an empty folder. -/
theorem Lists.eq_nil {s : Fs} {r : DiskFolder}
    (hfoders : (s.folders s.currentDir).foderMap.nodes = [])
    (hfiles : (s.folders s.currentDir).fileMap.nodes = []) (h : Lists s r) :
    r.subfolders = [] ∧ r.files = [] := by
  obtain ⟨dirs, files, hdirs, hfs, hout⟩ := h
  rw [fsLs_out, hfoders, hfiles] at hout
  have hlen := congrArg List.length (List.append_cancel_left hout)
  rw [length_lsText_perm hdirs hfs, length_lsText (r.subfolders.map _)] at hlen
  have hline : ∀ (names : List CString) (line : CString → List UInt8), (∀ name, line name ≠ []) →
      (names.flatMap line).length = 0 → names = [] := by
    intro names line hne hzero
    cases names with
    | nil => rfl
    | cons name names =>
      rw [List.flatMap_cons, List.length_append] at hzero
      exact absurd (List.length_eq_zero_iff.1 (Nat.eq_zero_of_add_eq_zero hzero).1) (hne name)
  simp only [List.map_nil] at hlen
  refine ⟨List.map_eq_nil_iff.1 (hline (r.subfolders.map (·.name)) dirLine ?_ (by omega)),
    List.map_eq_nil_iff.1 (hline (r.files.map (·.name)) fileLine ?_ (by omega))⟩
  · exact fun name => by simp [dirLine, ascii]
  · exact fun name => by simp [fileLine, ascii]

/-! ### Changing the directory -/

/-- `fs_cd` changes nothing but the working directory. -/
theorem cdAll_eq (s : Fs) (paths : List CString) :
    ∃ dir path pwd, cdAll s paths = { s with currentDir := dir, currentPath := path, pwd := pwd } := by
  induction paths generalizing s with
  | nil => exact ⟨s.currentDir, s.currentPath, s.pwd, rfl⟩
  | cons p paths ih =>
    obtain ⟨dir, path, pwd, heq⟩ := ih (fsCd s p).2
    refine ⟨dir, path, pwd, heq.trans ?_⟩
    rcases fsCd_cases s p with hcd | ⟨d, -, hcd⟩
    · rw [hcd]
    · rw [hcd]
      rfl

theorem cdAll_folders (s : Fs) (paths : List CString) : (cdAll s paths).folders = s.folders := by
  obtain ⟨dir, path, pwd, heq⟩ := cdAll_eq s paths
  rw [heq]

/-- The name of an entry leads to it. -/
theorem components_entryName {name : CString} (hname : IsEntryName name) : components name = [name] := by
  refine List.map_injective_iff.2 CString.chars_injective ?_
  rw [map_chars_components, splitSlash_of_notMem hname.no_slash]
  rfl

/-- Where one more `fs_cd` goes, to an entry of the directory. -/
theorem cdTarget_cdAll {s : Fs} {paths : List CString} {root : Ptr} {name : CString}
    {info : RamfsFoderInfo} (hroot : (cdAll s paths).currentDir = root) (hname : IsEntryName name)
    (hfind : ramfsHashmapFind (s.folders root).foderMap name = some info) :
    cdTarget (cdAll s paths) name = some info.ptr := by
  have hrel : name.chars.head? ≠ some 47 := fun h => hname.no_slash (List.mem_of_head? h)
  rw [cdTarget_eq, getDirByPath, if_neg hname.ne_nil, if_neg hrel, components_entryName hname, hroot,
    cdAll_folders, walkParts, if_neg hname.ne_nil, if_neg hname.ne_dot, if_neg hname.ne_up, hfind]
  rfl

/-- One more `fs_cd`, to an entry of the directory. -/
theorem currentDir_cdAll_snoc {s : Fs} {paths : List CString} {root : Ptr} {name : CString}
    {info : RamfsFoderInfo} (hroot : (cdAll s paths).currentDir = root) (hname : IsEntryName name)
    (hfind : ramfsHashmapFind (s.folders root).foderMap name = some info) :
    (cdAll s (paths ++ [name])).currentDir = info.ptr := by
  rw [cdAll, List.foldl_append, List.foldl_cons, List.foldl_nil]
  change (fsCd (cdAll s paths) name).2.currentDir = info.ptr
  rw [fsCd_eq, cdTarget_cdAll hroot hname hfind]
  rfl

/-- The call stays in its bounds: the entry has no parent pointer to follow. -/
theorem CdsInBounds.snoc {s : Fs} {paths : List CString} {root : Ptr} {name : CString}
    {info : RamfsFoderInfo} (h : CdsInBounds root s paths) (hroot : (cdAll s paths).currentDir = root)
    (hname : IsEntryName name) (hlen : name.chars.length ≤ 127)
    (hfind : ramfsHashmapFind (s.folders root).foderMap name = some info)
    (hparent : (s.folders info.ptr).parent = none) : CdsInBounds root s (paths ++ [name]) := by
  have htarget := cdTarget_cdAll hroot hname hfind
  have hfolders := cdAll_folders s paths
  have hup : (cdAll s paths).folders info.ptr = s.folders info.ptr := by rw [hfolders]
  refine Along.concat_iff.2 ⟨h, ⟨fun path hpath => ?_, ?_⟩, fun p hp => Or.inl ?_⟩
  · rw [List.mem_singleton.1 hpath]
    omega
  · intro dir hdir
    obtain rfl := Option.some.inj (htarget.symm.trans hdir)
    change (buildAbsolutePath (cdAll s paths).folders _ info.ptr).length < 512
    rw [buildAbsolutePath, hup, hparent]
    exact (by decide : 1 < 512)
  · have hrel : name.chars.head? ≠ some 47 := fun h => hname.no_slash (List.mem_of_head? h)
    have hkids : kids (cdAll s paths) = kids s := funext fun q => by rw [kids, kids, hfolders]
    change p ∈ walkedPath (cdAll s paths).folders (cdAll s paths).currentDir name ++
      (cdTarget (cdAll s paths) name).toList.flatMap (walkedUp (cdAll s paths).folders _) ++ [] at hp
    rw [List.append_nil, htarget, walkedPath, if_neg hname.ne_nil, if_neg hrel,
      components_entryName hname, hroot, hfolders, walkedParts, if_neg hname.ne_nil, if_neg hname.ne_dot,
      if_neg hname.ne_up, hfind, Option.toList_some, List.flatMap_singleton, walkedUp, hparent] at hp
    have hp : p = root ∨ p = info.ptr := by simpa [walkedParts] using hp
    change Below (kids (cdAll s paths)) root p
    rw [hkids]
    rcases hp with rfl | rfl
    · exact Below.refl _ _
    · exact (Below.refl _ _).tail (mem_kids_of_find hfind)

/-! ### The tables of the root -/

/-- A name that no entry has is found as before. -/
theorem find_pushAll_subNodes_of_ne (map : RamfsHashmap) (a : ℕ) {es : List DiskFoderInfo}
    {name : CString} (h : ∀ e ∈ es, e.name ≠ name) :
    ramfsHashmapFind (pushAll djb2Bucket map (subNodes a es)) name = ramfsHashmapFind map name := by
  induction es generalizing map a with
  | nil => rfl
  | cons e es ih =>
    have hne : ¬foderTable.Clash e.name name := by
      rw [foderTable_clash_iff]
      exact h e List.mem_cons_self
    refine (ih _ (a + 2) fun d hd => h d (List.mem_cons_of_mem e hd)).trans ?_
    rw [ramfsHashmapFind, ramfsHashmapFind, NamedTable.find, NamedTable.find, ChainTable.find,
      ChainTable.find, findNode_pushNode]
    exact congrArg (Option.map Node.value) (if_neg hne)

/-- Each entry is found under its name. -/
theorem find_pushAll_subNodes (map : RamfsHashmap) (a : ℕ) {es : List DiskFoderInfo}
    (hdistinct : es.Pairwise fun d e => d.name ≠ e.name) {i : ℕ} {e : DiskFoderInfo}
    (he : es[i]? = some e) :
    ramfsHashmapFind (pushAll djb2Bucket map (subNodes a es)) e.name =
      some ⟨e.name, RAMFS_FOLDER_TYPE_DISK_CLEAN, a + 2 * i, e.driveAddr⟩ := by
  induction es generalizing map a i with
  | nil => exact absurd he (by simp)
  | cons d es ih =>
    have hpair := List.pairwise_cons.1 hdistinct
    cases i with
    | zero =>
      obtain rfl := Option.some.inj he
      refine (find_pushAll_subNodes_of_ne _ (a + 2) fun e he => (hpair.1 e he).symm).trans ?_
      rw [ramfsHashmapFind, NamedTable.find, ChainTable.find, findNode_pushNode]
      exact congrArg (Option.map Node.value) (if_pos (foderTable_clash_iff.2 rfl))
    | succ i =>
      refine (ih (pushNode djb2Bucket map _) (a + 2) hpair.2 he).trans ?_
      rw [show a + 2 + 2 * i = a + 2 * (i + 1) by ring]

section Files

variable {s : Fs} {dir : Ptr} {es : List DiskFileInfo}

/-- The lines of the files of a table. -/
def fileLines (map : RamfsFileHashmap) : List UInt8 := map.nodes.flatMap fun nd => fileLine nd.key

theorem length_fileLines_push (map : RamfsFileHashmap) (a : ℕ) (e : DiskFileInfo) :
    (fileLines (pushAll djb2Bucket map (fileNodes a [e]))).length =
      (fileLine e.name).length + (fileLines map).length := by
  rw [fileLines, ((nodes_pushAll_perm map (fileNodes a [e])).flatMap_right _).length_eq,
    List.flatMap_append, List.length_append, fileLines]
  simp [fileNodes]

theorem length_fileLines_modify (map : RamfsFileHashmap) (name : CString) (v : RamfsFileInfo) :
    (fileLines (fileTable.modify map name fun _ => v)).length = (fileLines map).length := by
  have hkeys : (fileTable.modify map name fun _ => v).nodes.map Node.key = map.nodes.map Node.key :=
    nodes_modify_key map fun _ => v
  have hlines : ∀ map : RamfsFileHashmap, fileLines map = (map.nodes.map Node.key).flatMap fileLine :=
    fun map => (List.flatMap_map _ _ _).symm
  rw [hlines, hlines]
  exact congrArg (fun keys => (List.flatMap fileLine keys).length) hkeys

variable (dir) in
/-- **Every file has its line** exactly when no name is taken for another. A file that is taken for
an earlier one overwrites its entry, and gets no line. -/
theorem length_fileLines_loadFiles (hlen : ∀ e ∈ es, e.name.chars.length ≤ 127)
    (hgrants : s.mem.Grants es.length) :
    (fileLines ((loadFiles false dir es s).folders dir).fileMap).length ≤
        (fileLines (s.folders dir).fileMap).length + (es.flatMap fun e => fileLine e.name).length ∧
      ((fileLines ((loadFiles false dir es s).folders dir).fileMap).length =
          (fileLines (s.folders dir).fileMap).length + (es.flatMap fun e => fileLine e.name).length →
        (∀ e ∈ es, ramfsFileHashmapFind (s.folders dir).fileMap e.name = none) ∧ FilesApart es) := by
  induction es generalizing s with
  | nil => exact ⟨le_refl _, fun _ => ⟨by simp, List.Pairwise.nil⟩⟩
  | cons e es ih =>
    have hrest : ∀ d ∈ es, d.name.chars.length ≤ 127 := fun d hd => hlen d (List.mem_cons_of_mem e hd)
    have he := hlen e List.mem_cons_self
    have hline : 0 < (fileLine e.name).length := by simp [fileLine, ascii]
    rw [loadFiles, if_neg (by simp), List.flatMap_cons, List.length_append]
    by_cases hfind : ramfsFileHashmapFind (s.folders dir).fileMap e.name = none
    · rw [List.length_cons, Nat.add_comm, Memory.grants_add, Memory.grants_one] at hgrants
      rw [addFile_granted he hfind hgrants.1]
      obtain ⟨hle, himp⟩ := ih (s := (s.modifyFolder dir (·.setFileMap (pushAll djb2Bucket
        (s.folders dir).fileMap (fileNodes s.mem.next [e])))).setMem (s.mem.skip 1)) hrest hgrants.2
      rw [Fs.setMem_folders, Fs.modifyFolder_self, RamfsFoder.setFileMap, length_fileLines_push]
        at hle himp
      refine ⟨by omega, fun h => ?_⟩
      obtain ⟨hfree, hapart⟩ := himp (by omega)
      obtain ⟨hold, hclash⟩ := forall_find_push_iff.1 hfree
      exact ⟨List.forall_mem_cons.2 ⟨hfind, hold⟩, List.pairwise_cons.2 ⟨hclash, hapart⟩⟩
    · -- the entry that is found is overwritten
      have htable : ((addFile s dir ⟨e.name, 0, e.length, none, e.driveAddr⟩).folders dir).fileMap =
          fileTable.modify (s.folders dir).fileMap e.name
            (fun _ => ⟨e.name, 0, e.length, none, e.driveAddr⟩) := by
        rw [addFile, ramfsFileHashmapInsert, fileTable.insert_found he hfind, Fs.setMem_folders,
          Fs.modifyFolder_self]
        rfl
      have hmem : (addFile s dir ⟨e.name, 0, e.length, none, e.driveAddr⟩).mem = s.mem := by
        rw [addFile, ramfsFileHashmapInsert, fileTable.insert_found he hfind]
        rfl
      have hprefix : s.mem.Grants es.length := fun k hk => hgrants k (hk.trans (Nat.lt_succ_self _))
      obtain ⟨hle, -⟩ := ih (s := addFile s dir ⟨e.name, 0, e.length, none, e.driveAddr⟩) hrest
        (hmem ▸ hprefix)
      rw [htable, length_fileLines_modify] at hle
      exact ⟨by omega, fun h => by omega⟩

variable (s dir) in
/-- The loop changes the file table of the folder and the allocator, which grants as before. -/
theorem loadFiles_eq_setFileMap (known : Bool) (es : List DiskFileInfo) :
    ∃ map mem, loadFiles known dir es s = (s.modifyFolder dir (·.setFileMap map)).setMem mem ∧
      mem.grants = s.mem.grants := by
  induction es generalizing s with
  | nil => exact ⟨_, s.mem, (congrArg (Fs.setMem · s.mem) (setFileMap_self s dir)).symm, rfl⟩
  | cons e es ih =>
    rw [loadFiles]
    split_ifs
    · exact ih s
    · obtain ⟨map, mem, heq, hgrants⟩ := ih (addFile s dir ⟨e.name, 0, e.length, none, e.driveAddr⟩)
      refine ⟨map, mem, heq.trans (setFileMap_setFileMap s dir _ _ _ _), hgrants.trans ?_⟩
      rw [addFile, Fs.setMem_mem]
      exact fileTable.grants_insert _ _ _ _

/-- An insertion makes no table shorter. -/
theorem NamedTable.count_le_insert {V : Type} (T : NamedTable V) (mem : Memory)
    (map : Table BUCKETS CString V) (key : CString) (v : V) :
    map.count ≤ (T.insert mem map key v).2.1.count := by
  rw [NamedTable.insert]
  dsimp only
  generalize (if (T.find map key).isSome then (none, mem) else mem.malloc T.nodeSize).1 = a
  rw [ChainTable.insert.eq_def]
  cases findNode T.streq djb2Bucket map key with
  | some nd => exact le_refl _
  | none =>
    cases a with
    | none => exact le_refl _
    | some a => exact (Int.le_add_one (le_refl _))

variable (s dir) in
theorem count_le_loadFiles (known : Bool) (es : List DiskFileInfo) :
    (s.folders dir).fileMap.count ≤ ((loadFiles known dir es s).folders dir).fileMap.count := by
  induction es generalizing s with
  | nil => exact le_refl _
  | cons e es ih =>
    rw [loadFiles]
    split_ifs
    · exact ih s
    · refine le_trans ?_ (ih _)
      rw [addFile, Fs.setMem_folders, Fs.modifyFolder_self]
      exact fileTable.count_le_insert _ _ _ _

/-- Of a record with files, one at least is entered. -/
theorem count_loadFiles_ne_zero (hlen : ∀ e ∈ es, e.name.chars.length ≤ 127)
    (hempty : (s.folders dir).fileMap = Table.empty) (hmem : s.mem.Unfailing) (hne : es ≠ []) :
    ((loadFiles false dir es s).folders dir).fileMap.count ≠ 0 := by
  obtain ⟨e, es, rfl⟩ := List.exists_cons_of_ne_nil hne
  have hfind : ramfsFileHashmapFind (s.folders dir).fileMap e.name = none := by
    rw [hempty]
    rfl
  have hadd := addFile_granted (hlen e List.mem_cons_self) hfind (hmem s.mem.calls)
  have hle := count_le_loadFiles (addFile s dir ⟨e.name, 0, e.length, none, e.driveAddr⟩) dir false es
  have hone : ((addFile s dir ⟨e.name, 0, e.length, none, e.driveAddr⟩).folders dir).fileMap.count =
      1 := by
    rw [hadd, Fs.setMem_folders, Fs.modifyFolder_self, RamfsFoder.setFileMap, hempty, count_pushAll]
    rfl
  rw [hone] at hle
  rw [loadFiles, if_neg (by simp)]
  omega

end Files

/-! ### The mount -/

/-- What `dfs_mount` leaves of the record `r`: the root has its entries, but its subfolders are
without mount and parent, and empty. -/
structure MountedRoot (st : Store) (id : PartId) (r : DiskFolder) (s : Fs) (root a : Ptr) : Prop where
  foderMap : (s.folders root).foderMap = pushAll djb2Bucket Table.empty (subNodes a r.subfolders)
  sub : ∀ i e, r.subfolders[i]? = some e → s.folders (a + 2 * i) = subFolder none none e
  lines : (fileLines (s.folders root).fileMap).length =
    (r.files.flatMap fun e => fileLine e.name).length → FilesApart r.files
  fileMap : FilesApart r.files → ∃ b, (s.folders root).fileMap =
    pushAll djb2Bucket Table.empty (fileNodes b r.files)
  mount : ∃ m, (s.folders root).mount = some m ∧ (s.mountTable m).part = id
  bytes : s.disk.store.bytes = st.bytes
  sectors : s.disk.store.sectors = st.sectors
  reliable : s.disk.store.Reliable
  unfailing : s.mem.Unfailing

/-- The load of the new root. -/
theorem loadRoot_spec {s : Fs} {root : Ptr} {id : PartId} {off : ℕ} (hroot : root < s.mem.next)
    (hmem : s.mem.Unfailing) (hvalid : ValidRecord (recordAt s.disk.store id off))
    (hload : (dfsLoadFolderFromDisk s root id off).1 = 0) :
    ∃ t map mem, (dfsLoadFolderFromDisk s root id off).2 =
        (t.modifyFolder root (·.setFileMap map)).setMem mem ∧ mem.grants = s.mem.grants ∧
      SubsLoaded none none root (recordAt s.disk.store id off).subfolders
        (resetState s root id off (recordAt s.disk.store id off)) t ∧
      ((fileLines map).length =
        ((recordAt s.disk.store id off).files.flatMap fun e => fileLine e.name).length →
        FilesApart (recordAt s.disk.store id off).files) ∧
      (FilesApart (recordAt s.disk.store id off).files →
        ∃ b, map = pushAll djb2Bucket Table.empty
          (fileNodes b (recordAt s.disk.store id off).files)) ∧
      ((recordAt s.disk.store id off).files ≠ [] → map.count ≠ 0) := by
  -- a record that cannot be read is the one failure left once the record is valid and `malloc` answers
  cases hread : (s.disk.store.read id off sizeofDiskFolder).1 with
  | none =>
    rw [dfsLoadFolderFromDisk] at hload
    dsimp only at hload
    rw [hread] at hload
    exact absurd hload (by norm_num)
  | some b =>
    have hused := hvalid.used
    have hb := (Store.read_eq_some hread).2
    rw [recordAt, ← hb] at hused
    have heq : dfsLoadFolderFromDisk s root id off = _ := dfsLoadFolderFromDisk_eq hread hused
    subst hb
    rw [show (DiskFolder.decode fun i => s.disk.store.bytes id (off + i)) =
      recordAt s.disk.store id off from rfl] at heq
    generalize recordAt s.disk.store id off = r at *
    -- subfolders are entered first, files after them; the files find an empty file table
    have hself : (resetState s root id off r).folders root = resetFolder r off (s.folders root) := by
      rw [resetState, Fs.modifyFolder_self]
      rfl
    obtain ⟨t, ht, hsubs⟩ := loadSubfolders_spec none none
      (s := resetState s root id off r) false hroot hvalid.foderLength (fun e _ => by rw [hself]; rfl)
      hvalid.foders_distinct (hmem.grants _)
    have htmem : t.mem = s.mem.skip (2 * r.subfolders.length) := by
      rw [hsubs.rest]
      rfl
    have hempty : (t.folders root).fileMap = Table.empty := by
      rw [hsubs.folder, hself]
      rfl
    have hunfailing : t.mem.Unfailing := by
      rw [htmem]
      exact hmem
    have hgrants : t.mem.Grants r.files.length := hunfailing.grants _
    obtain ⟨map, mem, hfiles, hmemGrants⟩ := loadFiles_eq_setFileMap t root false r.files
    have hmap : ((loadFiles false root r.files t).folders root).fileMap = map := by
      rw [hfiles, Fs.setMem_folders, Fs.modifyFolder_self]
      rfl
    rw [heq, ht, if_neg (by simp)]
    -- two files of one name share one entry, so a full list of lines means distinct names
    refine ⟨t, map, mem, hfiles, ?_, hsubs, fun hlines => ?_, fun hapart => ?_, fun hne => ?_⟩
    · rw [hmemGrants, htmem]
      rfl
    · have hall := (length_fileLines_loadFiles root (s := t) hvalid.fileLength hgrants).2
      rw [hmap, hempty, hlines] at hall
      exact (hall (by simp [fileLines, nodes_empty])).2
    · have hfree : ∀ e ∈ r.files, ramfsFileHashmapFind (t.folders root).fileMap e.name = none :=
        fun e _ => by rw [hempty]; rfl
      have hload := loadFiles_eq false hvalid.fileLength hfree hapart hgrants
      refine ⟨t.mem.next, ?_⟩
      rw [← hmap, hload, Fs.setMem_folders, Fs.modifyFolder_self, hempty]
      rfl
    · rw [← hmap]
      exact count_loadFiles_ne_zero hvalid.fileLength hempty hunfailing hne

section Mount

variable {s : Fs} {path : CString} {id : PartId} {sb : Superblock}

/-- What a mount comes to: the record is loaded into the new root, and the root is entered into the
directory and into the mount table. -/
theorem loaded_of_dfsMount (ha : Allocated s) (hmem : s.mem.Unfailing)
    (hsb : (readSuperblock s.disk.store id).1 = some sb)
    (hvalid : ValidRecord (recordAt s.disk.store id sb.rootPointer))
    (hmount : (dfsMount s path id).1 = 0) :
    ∃ dir < s.mem.next, ∃ st t map mem foders mem',
      st = (s.disk.store.read id 0 sizeofSuperblock).2 ∧
      SubsLoaded none none s.mem.next (recordAt s.disk.store id sb.rootPointer).subfolders
        (resetState (newRoot s st) s.mem.next id sb.rootPointer
          (recordAt s.disk.store id sb.rootPointer)) t ∧
      ((fileLines map).length = ((recordAt s.disk.store id sb.rootPointer).files.flatMap
        fun e => fileLine e.name).length → FilesApart (recordAt s.disk.store id sb.rootPointer).files) ∧
      (FilesApart (recordAt s.disk.store id sb.rootPointer).files →
        ∃ b, map = pushAll djb2Bucket Table.empty
          (fileNodes b (recordAt s.disk.store id sb.rootPointer).files)) ∧
      ((recordAt s.disk.store id sb.rootPointer).files ≠ [] → map.count ≠ 0) ∧
      Memory.Unfailing mem' ∧
      (dfsMount s path id).2 = (((markRoot ((t.modifyFolder s.mem.next (·.setFileMap map)).setMem mem)
        s.mem.next t.mountCount).modifyFolder dir (·.setFoderMap foders)).setMem mem').pushMount
          ⟨path, id, s.mem.next⟩ := by
  rcases dfsMount_cases s path id with ⟨-, -, hne, -⟩ | ⟨dir, sb', st, hdir, -, hread, -, hmalloc, hcase⟩
  · exact absurd hmount hne
  rcases hcase with hfail | ⟨hload, heq⟩
  · rw [hfail] at hmount
    exact absurd hmount (by norm_num)
  obtain rfl : sb' = sb := by
    rw [hread] at hsb
    exact Option.some.inj hsb
  have hst' : st = (s.disk.store.read id 0 sizeofSuperblock).2 := (congrArg Prod.snd hread).symm
  have hnext : (newRoot s st).mem = s.mem.skip 1 := by
    rw [newRoot, Fs.setFolder_mem, Fs.setMem_mem, s.mem.malloc_of_ne_zero (by decide)]
  have hlt : dir < s.mem.next := ha.ramfsGetDirByAbsPath hdir
  -- reading the superblock and making the root folder change no byte the record is read from
  have hbytes : (newRoot s st).disk.store.bytes = s.disk.store.bytes := by
    rw [hst']
    rfl
  have hrecord : recordAt (newRoot s st).disk.store id sb'.rootPointer =
      recordAt s.disk.store id sb'.rootPointer := by
    rw [recordAt, recordAt, hbytes]
  have hunfailing : (newRoot s st).mem.Unfailing := by
    rw [hnext]
    exact hmem
  have hroot : s.mem.next < (newRoot s st).mem.next := by
    rw [hnext, Memory.next_skip]
    exact Nat.lt_succ_self _
  obtain ⟨t, map, mem, hloaded, hgrants, hsubs, hlines, hfiles, hcount⟩ :=
    loadRoot_spec hroot hunfailing (hrecord.symm ▸ hvalid) hload
  rw [hrecord] at hsubs hlines hfiles hcount
  -- a refused entry in the parent's table fails the mount
  obtain ⟨ins, hins, ⟨-, hattach⟩ | ⟨-, hattach⟩⟩ := attachRoot_cases
    (markRoot (dfsLoadFolderFromDisk (newRoot s st) s.mem.next id sb'.rootPointer).2 s.mem.next
      (dfsLoadFolderFromDisk (newRoot s st) s.mem.next id sb'.rootPointer).2.mountCount)
    dir s.mem.next path id (toI32 sb'.rootPointer)
  · rw [heq, hattach] at hmount
    exact absurd hmount (by norm_num)
  rw [hattach, hloaded] at heq
  rw [hloaded] at hins
  refine ⟨dir, hlt, st, t, map, mem, ins.2.1, ins.2.2, hst', hsubs, hlines, hfiles, hcount, fun n => ?_,
    congrArg Prod.snd heq⟩
  rw [hins, ramfsHashmapInsert, foderTable.grants_insert]
  change mem.grants n = true
  rw [hgrants]
  exact hunfailing n

/-- The root of the mount `m` of a record, as `dfs_mount` leaves it with the file table `map`. -/
def mountedFolder (m off a : ℕ) (r : DiskFolder) (map : RamfsFileHashmap) : RamfsFoder :=
  { ((resetFolder r off RamfsFoder.zero).setFoderMap (pushAll djb2Bucket Table.empty
      (subNodes a r.subfolders))).setFileMap map with
    isMountRoot := true
    mount := some m }

/-- **What a mount leaves.** -/
theorem mountedRoot_of_dfsMount (ha : Allocated s) (hmem : s.mem.Unfailing)
    (hst : s.disk.store.Reliable) (hsb : (readSuperblock s.disk.store id).1 = some sb)
    (hvalid : ValidRecord (recordAt s.disk.store id sb.rootPointer))
    (hmount : (dfsMount s path id).1 = 0) :
    ((dfsMount s path id).2.mountTable s.mountCount).rootDir = s.mem.next ∧
      MountedRoot s.disk.store id (recordAt s.disk.store id sb.rootPointer) (dfsMount s path id).2
        s.mem.next (s.mem.next + 1) ∧
      ∃ map, ((recordAt s.disk.store id sb.rootPointer).files ≠ [] → map.count ≠ 0) ∧
        (dfsMount s path id).2.folders s.mem.next = mountedFolder s.mountCount sb.rootPointer
          (s.mem.next + 1) (recordAt s.disk.store id sb.rootPointer) map := by
  obtain ⟨dir, hlt, st, t, map, mem, foders, mem', hst', hsubs, hlines, hfiles, hne, hunfailing, heq⟩ :=
    loaded_of_dfsMount ha hmem hsb hvalid hmount
  -- the state in which the subfolders are entered, and where its next address lies
  have hreset : (resetState (newRoot s st) s.mem.next id sb.rootPointer
      (recordAt s.disk.store id sb.rootPointer)).mem.next = s.mem.next + 1 := by
    change (s.mem.malloc sizeofRamfsFoder).2.next = _
    rw [s.mem.malloc_of_ne_zero (by decide)]
    exact s.mem.next_skip 1
  have hrootFolder : t.folders s.mem.next = (resetFolder (recordAt s.disk.store id sb.rootPointer)
      sb.rootPointer RamfsFoder.zero).setFoderMap (pushAll djb2Bucket Table.empty
        (subNodes (s.mem.next + 1) (recordAt s.disk.store id sb.rootPointer).subfolders)) := by
    rw [hsubs.folder, hreset, resetState, Fs.modifyFolder_self, Fs.setStore_folders, newRoot,
      Fs.setFolder_self]
    rfl
  have hcount : t.mountCount = s.mountCount := by
    rw [hsubs.rest]
    rfl
  have hstore : t.disk.store = ((newRoot s st).disk.store.read id sb.rootPointer sizeofDiskFolder).2 := by
    rw [hsubs.rest]
    rfl
  have hfolder : ∀ p, p ≠ dir → (dfsMount s path id).2.folders p =
      (markRoot ((t.modifyFolder s.mem.next (·.setFileMap map)).setMem mem) s.mem.next
        t.mountCount).folders p := by
    intro p hp
    rw [heq, Fs.pushMount_folders, Fs.setMem_folders, Fs.modifyFolder_of_ne _ _ hp]
  have hself : (dfsMount s path id).2.folders s.mem.next =
      { (t.folders s.mem.next).setFileMap map with isMountRoot := true, mount := some t.mountCount } := by
    rw [hfolder _ (Nat.ne_of_gt hlt), markRoot, Fs.modifyFolder_self, Fs.setMem_folders,
      Fs.modifyFolder_self]
  have htable : (dfsMount s path id).2.mountTable s.mountCount = ⟨path, id, s.mem.next⟩ := by
    rw [heq, ← hcount]
    exact Function.update_self _ _ _
  refine ⟨congrArg DfsMountPoint.rootDir htable, ⟨?_, fun i e he => ?_, ?_, ?_,
    ⟨s.mountCount, ?_, ?_⟩, ?_, ?_, ?_, ?_⟩, map, hne, ?_⟩
  · rw [hself, hrootFolder]
    rfl
  · have hsub := hsubs.sub i e he
    have hgt : s.mem.next < s.mem.next + 1 + 2 * i :=
      (Nat.lt_succ_self _).trans_le (Nat.le_add_right _ _)
    rw [hreset] at hsub
    rw [hfolder _ (Nat.ne_of_gt (hlt.trans hgt)), markRoot, Fs.modifyFolder_of_ne _ _ (Nat.ne_of_gt hgt),
      Fs.setMem_folders, Fs.modifyFolder_of_ne _ _ (Nat.ne_of_gt hgt), hsub]
  · rw [hself]
    exact hlines
  · intro hapart
    rw [hself]
    exact hfiles hapart
  · rw [hself, hcount]
  · rw [htable]
  · rw [heq]
    change t.disk.store.bytes = _
    rw [hstore, hst', Store.read_bytes]
    rfl
  · rw [heq]
    change t.disk.store.sectors = _
    rw [hstore, Store.read_sectors, hst']
    rfl
  · rw [heq]
    change t.disk.store.Reliable
    rw [hstore, hst']
    exact hst
  · rw [heq]
    exact hunfailing
  · rw [hself, hrootFolder, hcount]
    rfl

end Mount

/-! ### Files of the root -/

section Cat

variable {s : Fs} {root : Ptr} {name : CString} {g : DiskFileInfo}

/-- A length that is cut down to an `int` is no larger. -/
theorem toNat_toI32_le {x : ℤ} (h : 0 ≤ x) : (toI32 x).toNat ≤ x.toNat ∧ toI32 x ≤ x := by
  have hle : toI32 x ≤ x := by
    unfold toI32
    rw [Int.bmod_def]
    split_ifs <;> omega
  exact ⟨Int.toNat_le_toNat hle, hle⟩

/-- What `dfs_load_file_data` reads of a file that was not read before: its data, or nothing where
the length is no positive `int`. -/
theorem dfsLoadFileData_bytes {mem : Memory} {st : Store} {id : PartId} (hmem : mem.Unfailing)
    (hst : st.Reliable) (hlen : 0 ≤ g.length) (hin : toU64 g.driveAddr + g.length ≤ st.size id) :
    (toI32 g.length).toNat = 0 ∧ ((dfsLoadFileData mem st (loadedFile g) id).1 ≠ 0 ∨
        (dfsLoadFileData mem st (loadedFile g) id).2.1 = loadedFile g) ∨
      (dfsLoadFileData mem st (loadedFile g) id).1 = 0 ∧ ∃ addr,
        (dfsLoadFileData mem st (loadedFile g) id).2.1 =
          { loadedFile g with ptr := some ⟨addr, diskData st id g (toI32 g.length).toNat⟩ } := by
  rw [dfsLoadFileData]
  by_cases hzero : (loadedFile g).ptr ≠ none ∨ (loadedFile g).length = 0
  · rw [if_pos hzero]
    have hlength : g.length = 0 := hzero.resolve_left (by simp [loadedFile])
    rw [hlength]
    exact Or.inl ⟨rfl, Or.inr rfl⟩
  rw [if_neg hzero]
  dsimp only [loadedFile]
  -- a length that is a multiple of 2^32 asks `malloc` for 0 bytes, which it refuses
  by_cases hsize : toU32 g.length = 0
  · have hint : toI32 g.length = 0 := by
      unfold toU32 at hsize
      unfold toI32
      rw [Int.bmod_def]
      split_ifs <;> omega
    rw [hint, Memory.malloc, if_pos hsize]
    exact Or.inl ⟨rfl, Or.inl (by norm_num)⟩
  rw [hmem.malloc_isSome hsize]
  dsimp only
  -- the length of the read is an `int`: from 2^31 on it is not positive, and the read refuses it
  by_cases hpos : 0 < toI32 g.length
  · have hread : (st.read id (toU64 g.driveAddr) (toI32 g.length)).1 =
        some fun i => st.bytes id (toU64 g.driveAddr + i) := by
      refine hst.read_eq hpos (le_trans ?_ hin)
      have hle := (toNat_toI32_le hlen).2
      omega
    rw [hread]
    exact Or.inr ⟨rfl, mem.next, rfl⟩
  · have hread : (st.read id (toU64 g.driveAddr) (toI32 g.length)).1 = none :=
      if_neg fun haccepts => hpos haccepts.2.1
    rw [hread]
    exact Or.inl ⟨Int.toNat_of_nonpos (not_lt.1 hpos), Or.inl (by norm_num)⟩

/-- `fs_cat` of a file that was entered from the disk. -/
theorem catIn_out {m : ℕ} (hload : ¬NotLoaded (s.folders root))
    (hmount : (s.folders root).mount = some m) (hmem : s.mem.Unfailing)
    (hst : s.disk.store.Reliable)
    (hfind : ramfsFileHashmapFind (s.folders root).fileMap name = some (loadedFile g))
    (hlen : 0 ≤ g.length)
    (hin : toU64 g.driveAddr + g.length ≤ s.disk.store.size (s.mountTable m).part) :
    (catIn s root name).2.out = s.out ++ (diskData s.disk.store (s.mountTable m).part g
      (toI32 g.length).toNat).flatMap printfChar := by
  -- `fs_cat` looks the name up a second time, after the data is loaded
  have hagain : ∀ info mem st, ramfsFileHashmapFind ((((modifyFile s root name fun _ => info).setMem
      mem).setStore st).folders root).fileMap name = some info := by
    intro info mem st
    rw [Fs.setStore_folders, Fs.setMem_folders, modifyFile, Fs.modifyFolder_self]
    exact (find_modify _).trans (congrArg (Option.map _) hfind)
  rw [catIn, lazyLoadDirectory_of_loaded hload]
  dsimp only
  rw [hfind]
  dsimp only
  rw [loadData, hmount]
  dsimp only
  rcases dfsLoadFileData_bytes hmem hst hlen hin with ⟨hzero, hfail⟩ | ⟨hok, addr, hdata⟩
  · have hnone : s.out ++ (diskData s.disk.store (s.mountTable m).part g
        (toI32 g.length).toNat).flatMap printfChar = s.out := by
      rw [hzero]
      exact List.append_nil _
    rw [hnone]
    by_cases hcode : (dfsLoadFileData s.mem s.disk.store (loadedFile g) (s.mountTable m).part).1 ≠ 0
    · rw [if_pos hcode]
      rfl
    · rw [if_neg hcode, hagain, hfail.resolve_left hcode]
      rfl
  · rw [if_neg (not_not.2 hok), hagain, hdata]
    dsimp only
    -- no more bytes were loaded than the file's length asks to print
    have htake : (diskData s.disk.store (s.mountTable m).part g (toI32 g.length).toNat).take
        (loadedFile g).length.toNat = diskData s.disk.store (s.mountTable m).part g
          (toI32 g.length).toNat := by
      refine List.take_of_length_le ?_
      rw [diskData, List.length_map, List.length_range]
      exact (toNat_toI32_le hlen).1
    rw [htake]
    rfl

end Cat

/-- A file of a record is taken for itself. -/
theorem exists_fileNamed {r : DiskFolder} {f : DiskFileInfo} (hf : f ∈ r.files) :
    ∃ g, r.fileNamed f.name = some g := by
  refine Option.isSome_iff_exists.1 (List.find?_isSome.2 ⟨f, List.mem_reverse.2 hf, ?_⟩)
  exact decide_eq_true ⟨rfl, fileStreq_self f.name⟩

/-! ### Below the root -/

/-- Empty components and dots are passed over. -/
theorem walkParts_filter (folders : Ptr → RamfsFoder) (cur : Ptr) (parts : List CString) :
    walkParts folders cur (parts.filter fun part => part.chars ≠ [] ∧ part.chars ≠ [46]) =
      walkParts folders cur parts := by
  induction parts generalizing cur with
  | nil => rfl
  | cons part parts ih =>
    by_cases hnil : part.chars = []
    · rw [List.filter_cons_of_neg (by simp [hnil]), walkParts, if_pos hnil]
      exact ih cur
    by_cases hdot : part.chars = [46]
    · rw [List.filter_cons_of_neg (by simp [hdot]), walkParts, if_neg hnil, if_pos hdot]
      exact ih cur
    rw [List.filter_cons_of_pos (by simp [hnil, hdot]), walkParts, walkParts, if_neg hnil, if_neg hdot,
      if_neg hnil, if_neg hdot]
    split_ifs
    · cases (folders cur).parent with
      | none => rfl
      | some p => exact ih p
    · cases ramfsHashmapFind (folders cur).foderMap part with
      | none => rfl
      | some info => exact ih info.ptr

/-- The walk along a name. -/
theorem walkParts_entry (folders : Ptr → RamfsFoder) (cur : Ptr) {name : CString}
    (hname : IsEntryName name) (names : List CString) :
    walkParts folders cur (name :: names) =
      (ramfsHashmapFind (folders cur).foderMap name).bind fun info =>
        walkParts folders info.ptr names := by
  rw [walkParts, if_neg hname.ne_nil, if_neg hname.ne_dot, if_neg hname.ne_up]
  cases ramfsHashmapFind (folders cur).foderMap name with
  | none => rfl
  | some info => rfl

namespace MountedRoot

variable {st : Store} {id : PartId} {off : ℕ} {s : Fs} {root a : Ptr} {names : List CString}

/-- The walk along a path below the root, and the chain on the disk, side by side: both stay, or
both take the first name to a subfolder, which is empty in memory, or both fail at once. -/
theorem walk_cases (h : MountedRoot st id (recordAt st id off) s root a)
    (hdistinct : (recordAt st id off).subfolders.Pairwise fun d e => d.name ≠ e.name)
    (hnames : ∀ name ∈ names, IsEntryName name) :
    (names = [] ∧ walkParts s.folders root names = some root ∧
        diskChain st id off names = some off) ∨
      (∃ i e rest, (recordAt st id off).subfolders[i]? = some e ∧ IsEntryName e.name ∧
        names = e.name :: rest ∧
        walkParts s.folders root names = (if rest = [] then some (a + 2 * i) else none) ∧
        diskChain st id off names = diskChain st id (toU32 e.driveAddr) rest) ∨
      walkParts s.folders root names = none ∧ diskChain st id off names = none := by
  cases names with
  | nil => exact Or.inl ⟨rfl, rfl, rfl⟩
  | cons name rest =>
    have hname := hnames name List.mem_cons_self
    rw [walkParts_entry _ _ hname, diskChain]
    refine Or.inr ?_
    cases hfind : (recordAt st id off).subfolders.find? fun e => decide (e.name = name) with
    | none =>
      have hne : ∀ e ∈ (recordAt st id off).subfolders, e.name ≠ name := by
        simpa using List.find?_eq_none.1 hfind
      rw [h.foderMap, find_pushAll_subNodes_of_ne _ _ hne]
      exact Or.inr ⟨rfl, rfl⟩
    | some e =>
      obtain rfl : e.name = name := by simpa using List.find?_some hfind
      obtain ⟨i, hi⟩ := List.mem_iff_getElem?.1 (List.mem_of_find?_eq_some hfind)
      refine Or.inl ⟨i, e, rest, hi, hname, rfl, ?_, rfl⟩
      rw [h.foderMap, find_pushAll_subNodes _ _ hdistinct hi, Option.bind_some]
      cases rest with
      | nil => exact (if_pos rfl).symm
      | cons next rest =>
        -- the object of the subfolder has no entry
        rw [walkParts_entry _ _ (hnames next (List.mem_cons_of_mem _ List.mem_cons_self)), h.sub i e hi,
          if_neg (List.cons_ne_nil _ _)]
        rfl

theorem cdAll (h : MountedRoot st id (recordAt st id off) s root a) (paths : List CString) :
    MountedRoot st id (recordAt st id off) (cdAll s paths) root a := by
  obtain ⟨dir, path, pwd, heq⟩ := cdAll_eq s paths
  rw [heq]
  exact ⟨h.foderMap, h.sub, h.lines, h.fileMap, h.mount, h.bytes, h.sectors, h.reliable, h.unfailing⟩

/-- The keys of the folder table. -/
theorem foderKeys_perm (h : MountedRoot st id (recordAt st id off) s root a) :
    ((s.folders root).foderMap.nodes.map Node.key).Perm
      ((recordAt st id off).subfolders.map (·.name)) := by
  have hkeys : ∀ (a : ℕ) (es : List DiskFoderInfo), (subNodes a es).map Node.key = es.map (·.name) := by
    intro a es
    induction es generalizing a with
    | nil => rfl
    | cons e es ih => rw [subNodes, List.map_cons, List.map_cons, ih]
  rw [h.foderMap, ← hkeys a]
  refine (List.Perm.map Node.key (nodes_pushAll_perm _ _)).trans ?_
  rw [nodes_empty, List.append_nil]

theorem fileKeys_perm (h : MountedRoot st id (recordAt st id off) s root a)
    (hapart : FilesApart (recordAt st id off).files) :
    ((s.folders root).fileMap.nodes.map Node.key).Perm ((recordAt st id off).files.map (·.name)) := by
  have hkeys : ∀ (b : ℕ) (es : List DiskFileInfo), (fileNodes b es).map Node.key = es.map (·.name) := by
    intro b es
    induction es generalizing b with
    | nil => rfl
    | cons e es ih => rw [fileNodes, List.map_cons, List.map_cons, ih]
  obtain ⟨b, hmap⟩ := h.fileMap hapart
  rw [hmap, ← hkeys b]
  refine (List.Perm.map Node.key (nodes_pushAll_perm _ _)).trans ?_
  rw [nodes_empty, List.append_nil]

/-- The root is listed as it is on the disk exactly when no file is taken for a later one. -/
theorem lists_iff (h : MountedRoot st id (recordAt st id off) s root a) (hroot : s.currentDir = root) :
    Lists s (recordAt st id off) ↔ FilesApart (recordAt st id off).files := by
  constructor
  · rintro ⟨dirs, files, hdirs, hfiles, hout⟩
    refine h.lines ?_
    rw [fsLs_out, hroot] at hout
    have hlen := congrArg List.length (List.append_cancel_left hout)
    have hkeys := (h.foderKeys_perm.flatMap_right dirLine).length_eq
    have hseen := length_lsText ((s.folders root).foderMap.nodes.map Node.key)
      ((s.folders root).fileMap.nodes.map Node.key)
    have hdisk := length_lsText ((recordAt st id off).subfolders.map (·.name))
      ((recordAt st id off).files.map (·.name))
    rw [List.flatMap_map _ fileLine] at hseen hdisk
    rw [length_lsText_perm hdirs hfiles] at hlen
    rw [fileLines]
    omega
  · intro hapart
    refine ⟨_, _, h.foderKeys_perm, h.fileKeys_perm hapart, ?_⟩
    rw [fsLs_out, hroot]

/-- The bytes that `fs_cat` prints in the root. -/
theorem out_fsCat (h : MountedRoot st id (recordAt st id off) s root a) (hroot : s.currentDir = root)
    (hapart : FilesApart (recordAt st id off).files)
    (hfile : ∀ f ∈ (recordAt st id off).files, 0 ≤ f.length ∧
      toU64 f.driveAddr + f.length ≤ st.size id) {name : CString} {g : DiskFileInfo}
    (hg : (recordAt st id off).fileNamed name = some g) :
    (fsCat s name none).2.out =
      s.out ++ (diskData st id g (toI32 g.length).toNat).flatMap printfChar := by
  have hmem : g ∈ (recordAt st id off).files :=
    List.mem_reverse.1 (List.mem_of_find?_eq_some hg)
  obtain ⟨b, hmap⟩ := h.fileMap hapart
  obtain ⟨m, hmount, hpart⟩ := h.mount
  have hloaded : ¬NotLoaded (s.folders root) := by
    rintro ⟨-, -, hcount⟩
    rw [hmap, count_pushAll, length_fileNodes] at hcount
    have hlen := List.length_pos_of_mem hmem
    simp only [Table.empty, zero_add, Nat.cast_eq_zero] at hcount
    omega
  have hfind : ramfsFileHashmapFind (s.folders root).fileMap name = some (loadedFile g) := by
    rw [hmap, find_pushAll_fileNodes]
    rw [DiskFolder.fileNamed] at hg
    rw [hg]
    rfl
  have hsize : s.disk.store.size id = st.size id := by
    rw [Store.size, Store.size, h.sectors]
  have hcat := catIn_out hloaded hmount h.unfailing h.reliable hfind (hfile g hmem).1
    (by rw [hpart, hsize]; exact (hfile g hmem).2)
  have hdata : diskData s.disk.store id g = diskData st id g := by
    funext n
    rw [diskData, diskData, h.bytes]
  rw [hpart, hdata] at hcat
  rw [fsCat, fromDir, hroot]
  exact hcat

/-- **Nothing is hidden** where the root suffices. -/
theorem lazyInvisible (h : MountedRoot st id (recordAt st id off) s root a)
    (hdistinct : (recordAt st id off).subfolders.Pairwise fun d e => d.name ≠ e.name)
    (hfile : ∀ f ∈ (recordAt st id off).files, 0 ≤ f.length ∧
      toU64 f.driveAddr + f.length ≤ st.size id) (hroot : RootSuffices st id off) :
    LazyInvisible st id off s root where
  resolves := by
    intro path names _ hpath
    rw [getDirByPath, if_neg hpath.ne_nil, if_neg hpath.relative, ← walkParts_filter, hpath.components]
    -- the walk ends at the root, in a subfolder that is not loaded yet, or fails; the disk says the same
    -- because the subfolders' own records list nothing
    rcases h.walk_cases hdistinct hpath.entry with ⟨-, hwalk, hchain⟩ |
      ⟨i, e, rest, hi, hname, -, hwalk, hchain⟩ | ⟨hwalk, hchain⟩
    · rw [hwalk, hchain]
      exact Iff.rfl
    · rw [hwalk, hchain]
      cases rest with
      | nil => exact Iff.rfl
      | cons next rest =>
        rw [diskChain, (hroot.subfolders e (List.mem_of_getElem? hi) hname).1]
        exact Iff.rfl
    · rw [hwalk, hchain]
  lists := by
    intro paths names off' _ hnames hdir hoff
    rcases h.walk_cases hdistinct hnames with ⟨-, hwalk, hchain⟩ |
      ⟨i, e, rest, hi, hname, -, hwalk, hchain⟩ | ⟨hwalk, -⟩
    · obtain rfl : off = off' := Option.some.inj (hchain.symm.trans hoff)
      exact ((h.cdAll paths).lists_iff (Option.some.inj (hdir.symm.trans hwalk))).2 hroot.apart
    · rw [hwalk] at hdir
      cases rest with
      | cons next rest => exact absurd hdir (by simp)
      | nil =>
        obtain rfl : toU32 e.driveAddr = off' := Option.some.inj (hchain.symm.trans hoff)
        obtain ⟨hsubs, hfiles⟩ := hroot.subfolders e (List.mem_of_getElem? hi) hname
        have hempty : (LittleLinux.cdAll s paths).folders (LittleLinux.cdAll s paths).currentDir =
            subFolder none none e := by
          rw [← Option.some.inj hdir, cdAll_folders, h.sub i e hi]
        refine ⟨[], [], by rw [hsubs]; exact List.Perm.refl _, by rw [hfiles]; exact List.Perm.refl _, ?_⟩
        rw [fsLs_out, hempty]
        rfl
    · rw [hwalk] at hdir
      exact absurd hdir (by simp)
  prints := by
    intro paths names off' _ hnames hdir hoff f hf
    rcases h.walk_cases hdistinct hnames with ⟨-, hwalk, hchain⟩ |
      ⟨i, e, rest, hi, hname, -, hwalk, hchain⟩ | ⟨hwalk, -⟩
    · obtain rfl : off = off' := Option.some.inj (hchain.symm.trans hoff)
      have hcur := Option.some.inj (hdir.symm.trans hwalk)
      obtain ⟨g, hg⟩ := exists_fileNamed hf
      rw [Prints, (h.cdAll paths).out_fsCat hcur hroot.apart hfile hg, hroot.contents f hf g hg]
    · rw [hwalk] at hdir
      cases rest with
      | cons next rest => exact absurd hdir (by simp)
      | nil =>
        obtain rfl : toU32 e.driveAddr = off' := Option.some.inj (hchain.symm.trans hoff)
        rw [(hroot.subfolders e (List.mem_of_getElem? hi) hname).2] at hf
        exact absurd hf List.not_mem_nil
    · rw [hwalk] at hdir
      exact absurd hdir (by simp)

/-- **What is hidden** where it does not. -/
theorem rootSuffices (h : MountedRoot st id (recordAt st id off) s root a)
    (hvalid : ValidRecord (recordAt st id off))
    (hfile : ∀ f ∈ (recordAt st id off).files, 0 ≤ f.length ∧
      toU64 f.driveAddr + f.length ≤ st.size id) {paths : List CString}
    (hcds : CdsInBounds root s paths) (hpaths : (LittleLinux.cdAll s paths).currentDir = root)
    (hlazy : LazyInvisible st id off s root) : RootSuffices st id off := by
  have hdistinct := hvalid.foders_distinct
  have hnil : ∀ name ∈ ([] : List CString), IsEntryName name := fun _ hname =>
    absurd hname List.not_mem_nil
  have hapart : FilesApart (recordAt st id off).files :=
    ((h.cdAll paths).lists_iff hpaths).1
      (hlazy.lists paths [] off hcds hnil (congrArg some hpaths.symm) rfl)
  refine ⟨fun e he hname => ?_, hapart, fun f hf g hg => ?_⟩
  · -- `fs_cd` to the subfolder, and look at what it lists
    obtain ⟨i, hi⟩ := List.mem_iff_getElem?.1 he
    have hfind : ramfsHashmapFind (s.folders root).foderMap e.name =
        some ⟨e.name, RAMFS_FOLDER_TYPE_DISK_CLEAN, a + 2 * i, e.driveAddr⟩ := by
      rw [h.foderMap]
      exact find_pushAll_subNodes _ _ hdistinct hi
    have hcur := currentDir_cdAll_snoc hpaths hname hfind
    have hempty : (LittleLinux.cdAll s (paths ++ [e.name])).folders
        (LittleLinux.cdAll s (paths ++ [e.name])).currentDir = subFolder none none e := by
      rw [hcur, cdAll_folders, h.sub i e hi]
    have hchain : diskChain st id off [e.name] = some (toU32 e.driveAddr) := by
      have hnames : ∀ name ∈ [e.name], IsEntryName name := fun name hmem =>
        List.mem_singleton.1 hmem ▸ hname
      rcases h.walk_cases hdistinct hnames with ⟨heq, -⟩ | ⟨j, d, rest, hj, -, heq, -, hchain⟩ | ⟨hwalk, -⟩
      · exact absurd heq (List.cons_ne_nil _ _)
      · obtain ⟨hkey, rfl⟩ := List.cons.inj heq
        have hsame := find_pushAll_subNodes Table.empty a hdistinct hj
        rw [← hkey, ← h.foderMap, hfind] at hsame
        rw [hchain, (RamfsFoderInfo.mk.inj (Option.some.inj hsame)).2.2.2]
        rfl
      · rw [walkParts_entry _ _ hname, hfind] at hwalk
        exact absurd hwalk (by simp [walkParts])
    have hwalk : walkParts s.folders root [e.name] =
        some (LittleLinux.cdAll s (paths ++ [e.name])).currentDir := by
      rw [walkParts_entry _ _ hname, hfind, hcur]
      rfl
    have hsnoc : CdsInBounds root s (paths ++ [e.name]) :=
      hcds.snoc hpaths hname (hvalid.foderLength e he) hfind (by rw [h.sub i e hi]; rfl)
    refine (hlazy.lists (paths ++ [e.name]) [e.name] _ hsnoc (fun name hmem => ?_) hwalk hchain).eq_nil
      ?_ ?_
    · exact List.mem_singleton.1 hmem ▸ hname
    · rw [hempty]
      exact nodes_empty
    · rw [hempty]
      exact nodes_empty
  · have hprints := hlazy.prints paths [] off hcds hnil (congrArg some hpaths.symm) rfl f hf
    rw [Prints, (h.cdAll paths).out_fsCat hpaths hapart hfile hg] at hprints
    exact List.append_cancel_left hprints

end MountedRoot

/-- A tree on a partition is mounted, after a run of calls from `fs_init` that stayed in their
bounds, as does the mount; no allocation and no read fails from then on. -/
structure TreeMounted (s : Fs) (path : CString) (id : PartId) (sb : Superblock) : Prop where
  reachable : ∃ (grants : ℕ → Bool) (store : Store) (ops : List FsOp),
    Along fsStep (fun s op => op.InBounds s) (initState ⟨grants, 0, []⟩ store) ops ∧
      s = ops.foldl fsStep (initState ⟨grants, 0, []⟩ store)
  inBounds : (FsOp.mount path id).InBounds s
  unfailing : s.mem.Unfailing
  reliable : s.disk.store.Reliable
  superblock : (readSuperblock s.disk.store id).1 = some sb
  tree : DiskTree s.disk.store id sb.rootPointer
  mounted : (dfsMount s path id).1 = 0

/-- The root of a mount that is made in the state `s`. -/
def rootOfMount (s : Fs) (path : CString) (id : PartId) : Ptr :=
  ((dfsMount s path id).2.mountTable s.mountCount).rootDir

/-- **When loading on demand is invisible.** For every tree that is mounted and whose root `fs_cd`
can reach: all of the tree is seen below the root of the mount if and only if there is nothing below
the subfolders of its root, no file of the root is taken for a later one, and `fs_cat` prints the
bytes of each. -/
theorem lazyInvisible_iff {s : Fs} {path : CString} {id : PartId} {sb : Superblock}
    (h : TreeMounted s path id sb) {paths : List CString}
    (hcds : CdsInBounds (rootOfMount s path id) (dfsMount s path id).2 paths)
    (hpaths : (cdAll (dfsMount s path id).2 paths).currentDir = rootOfMount s path id) :
    LazyInvisible s.disk.store id sb.rootPointer (dfsMount s path id).2 (rootOfMount s path id) ↔
      RootSuffices s.disk.store id sb.rootPointer := by
  obtain ⟨grants, store, ops, -, heq⟩ := h.reachable
  have ha : Allocated s := heq ▸ allocated_run _ store ops
  have hvalid := h.tree.record [] _ rfl
  have hfile := h.tree.file [] _ rfl
  obtain ⟨hroot, hmounted, -⟩ :=
    mountedRoot_of_dfsMount ha h.unfailing h.reliable h.superblock hvalid h.mounted
  rw [show rootOfMount s path id = s.mem.next from hroot] at hcds hpaths ⊢
  exact ⟨hmounted.rootSuffices hvalid hfile hcds hpaths,
    hmounted.lazyInvisible hvalid.foders_distinct hfile⟩

/-- A disk whose root holds the file `f`, of the one byte `h`. -/
def oneFileImage : Store :=
  { imageStore ⟨DFS_MAGIC, DFS_MAX_FOLDERS, 1, rootAddr, 1000000, 1100000, 100⟩
      [(rootAddr, ⟨slashString, 1, [], [⟨.ofBytes [102], 1, 1100000⟩]⟩)] with
    bytes := fun _ x => if x = 1100000 then 104 else imageBytes
      ⟨DFS_MAGIC, DFS_MAX_FOLDERS, 1, rootAddr, 1000000, 1100000, 100⟩
      [(rootAddr, ⟨slashString, 1, [], [⟨.ofBytes [102], 1, 1100000⟩]⟩)] x }

theorem recordAt_oneFileImage : recordAt oneFileImage part0 rootAddr =
    ⟨slashString, 1, [], [⟨⟨[102], by decide⟩, 1, 1100000⟩]⟩ := by
  decide +kernel

theorem diskTree_oneFileImage : DiskTree oneFileImage part0 rootAddr := by
  have hchain : ∀ names off, diskChain oneFileImage part0 rootAddr names = some off → off = rootAddr := by
    intro names off h
    cases names with
    | nil => exact (Option.some.inj h).symm
    | cons name names =>
      rw [diskChain, recordAt_oneFileImage] at h
      exact absurd h (by simp)
  refine ⟨fun names off h => ?_, fun names off h => ?_, fun names off h => ?_⟩
  · rw [hchain names off h, recordAt_oneFileImage]
    exact ⟨by decide, by decide, by decide, by decide, by decide, by decide, by decide⟩
  · rw [hchain names off h]
    decide
  · rw [hchain names off h, recordAt_oneFileImage]
    decide

/-- The directory `/m` is made, with this disk. -/
def mkdirState (store : Store) : Fs := fsStep (initState ampleMemory store) (.mkdir ⟨[109], by decide⟩ none)

theorem mkdirState_reachable {store : Store}
    (h : (FsOp.mkdir ⟨[109], by decide⟩ none).InBounds (initState ampleMemory store)) :
    ∃ (grants : ℕ → Bool) (store' : Store) (ops : List FsOp),
      Along fsStep (fun s op => op.InBounds s) (initState ⟨grants, 0, []⟩ store') ops ∧
        mkdirState store = ops.foldl fsStep (initState ⟨grants, 0, []⟩ store') :=
  ⟨fun _ => true, store, [.mkdir ⟨[109], by decide⟩ none], ⟨h, trivial⟩, rfl⟩

/-- Nothing was released after the mount on `/m`. -/
theorem cdsInBounds_of_freed {s : Fs} {root : Ptr} {path : CString} (hfreed : s.mem.freed = [])
    (hfits : (FsOp.cd path).PathsFit s) : CdsInBounds root s [path] := by
  refine ⟨⟨hfits, fun p _ => Or.inr ?_⟩, trivial⟩
  rw [hfreed]
  exact List.not_mem_nil

theorem treeMounted_oneFileImage : TreeMounted (mkdirState oneFileImage) ⟨[47, 109], by decide⟩ part0
    ⟨DFS_MAGIC, DFS_MAX_FOLDERS, 1, rootAddr, 1000000, 1100000, 100⟩ where
  reachable := mkdirState_reachable (by decide +kernel)
  inBounds := by decide +kernel
  unfailing := fun _ => rfl
  reliable := fun _ => rfl
  superblock := by decide +kernel
  tree := diskTree_oneFileImage
  mounted := by decide +kernel

/-- The disk is mounted on `/m`, and `fs_cd` goes to its root, `/m/m`. -/
theorem lazyInvisible_oneFile :
    LazyInvisible oneFileImage part0 rootAddr
      (dfsMount (mkdirState oneFileImage) ⟨[47, 109], by decide⟩ part0).2
      (rootOfMount (mkdirState oneFileImage) ⟨[47, 109], by decide⟩ part0) := by
  have hcds : CdsInBounds (rootOfMount (mkdirState oneFileImage) ⟨[47, 109], by decide⟩ part0)
      (dfsMount (mkdirState oneFileImage) ⟨[47, 109], by decide⟩ part0).2
      [⟨[47, 109, 47, 109], by decide⟩] :=
    cdsInBounds_of_freed (by decide +kernel) (by decide +kernel)
  refine (lazyInvisible_iff treeMounted_oneFileImage hcds (by decide +kernel)).2 ?_
  change RootSuffices oneFileImage part0 rootAddr
  refine ⟨fun e he => ?_, ?_, fun f hf g hg => ?_⟩
  · rw [recordAt_oneFileImage] at he
    exact absurd he List.not_mem_nil
  · rw [recordAt_oneFileImage]
    decide
  · rw [recordAt_oneFileImage] at hf hg
    obtain rfl := List.mem_singleton.1 hf
    obtain rfl := List.mem_singleton.1 (List.mem_reverse.1 (List.mem_of_find?_eq_some hg))
    decide +kernel

theorem recordAt_nestedImage_root : recordAt nestedImage part0 rootAddr =
    ⟨slashString, 1, [⟨⟨[100], by decide⟩, subAddr⟩], []⟩ := by
  decide +kernel

theorem recordAt_nestedImage_sub : recordAt nestedImage part0 subAddr =
    ⟨⟨[100], by decide⟩, 1, [], [⟨⟨[102], by decide⟩, 3, 1100000⟩]⟩ := by
  decide +kernel

theorem diskTree_nestedImage : DiskTree nestedImage part0 rootAddr := by
  have hchain : ∀ names off, diskChain nestedImage part0 rootAddr names = some off →
      off = rootAddr ∨ off = subAddr := by
    intro names off h
    cases names with
    | nil => exact Or.inl (Option.some.inj h).symm
    | cons name names =>
      rw [diskChain, recordAt_nestedImage_root, List.find?_cons] at h
      split at h
      · next e he =>
        split at he
        · obtain rfl := Option.some.inj he
          cases names with
          | nil => exact Or.inr (Option.some.inj h).symm
          | cons next names =>
            rw [diskChain, show toU32 (subAddr : ℤ) = subAddr from by decide, recordAt_nestedImage_sub] at h
            exact absurd h (by simp)
        · exact absurd he (by simp)
      · exact absurd h (by simp)
  refine ⟨fun names off h => ?_, fun names off h => ?_, fun names off h => ?_⟩
  · rcases hchain names off h with rfl | rfl
    · rw [recordAt_nestedImage_root]
      exact ⟨by decide, by decide, by decide, by decide, by decide, by decide, by decide⟩
    · rw [recordAt_nestedImage_sub]
      exact ⟨by decide, by decide, by decide, by decide, by decide, by decide, by decide⟩
  · rcases hchain names off h with rfl | rfl
    · decide
    · decide
  · rcases hchain names off h with rfl | rfl
    · rw [recordAt_nestedImage_root]
      decide
    · rw [recordAt_nestedImage_sub]
      decide

theorem treeMounted_nestedImage : TreeMounted (mkdirState nestedImage) ⟨[47, 109], by decide⟩ part0
    ⟨DFS_MAGIC, DFS_MAX_FOLDERS, 2, rootAddr, 1000000, 1100000, 100⟩ where
  reachable := mkdirState_reachable (by decide +kernel)
  inBounds := by decide +kernel
  unfailing := fun _ => rfl
  reliable := fun _ => rfl
  superblock := by decide +kernel
  tree := diskTree_nestedImage
  mounted := by decide +kernel

/-- In `/m/m/d`, `fs_ls` lists nothing; the record of `d` has the file `f`. -/
theorem lazyLoad_hides_file :
    ¬∀ (s : Fs) (path : CString) (id : PartId) (sb : Superblock), TreeMounted s path id sb →
      LazyInvisible s.disk.store id sb.rootPointer (dfsMount s path id).2 (rootOfMount s path id) := by
  intro hall
  have hlazy := hall _ _ _ _ treeMounted_nestedImage
  have hlists := hlazy.lists [⟨[47, 109, 47, 109, 47, 100], by decide⟩] [⟨[100], by decide⟩] subAddr
    (cdsInBounds_of_freed (by decide +kernel) (by decide +kernel))
    (fun name hname => List.mem_singleton.1 hname ▸ ⟨by decide, by decide, by decide, by decide⟩)
    (by decide +kernel) (by decide +kernel)
  have hfiles := (hlists.eq_nil (by decide +kernel) (by decide +kernel)).2
  change (recordAt nestedImage part0 subAddr).files = [] at hfiles
  rw [recordAt_nestedImage_sub] at hfiles
  exact absurd hfiles (by decide)

end LittleLinux
