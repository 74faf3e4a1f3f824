import LittleLinux.Dfs.RoundTrip

/-!
# The two loaders compared

`dfs_load_folder_from_disk` and `dfs_load_folder_children` decode the same record. The first gives
its subfolders neither parent nor mount, and overwrites the entry of a file that is taken for the
one in hand where the second skips the one in hand. So they agree on a record without subfolders
in which no file is taken for a later one, and, as far as their allocations are granted, on no
other (`loaders_agree_iff`).
-/

namespace LittleLinux

open ChainTable

/-! ### What the loaders make of a record -/

/-- A file as a table has it: its key, and the entry. -/
def fileChild (nd : Node CString RamfsFileInfo) : CString × RamfsFileInfo := (nd.key, nd.value)

/-- A subfolder as a table has it: its key, and the entry but for the address of the object. -/
def foderChild (nd : Node CString RamfsFoderInfo) : CString × CString × UInt8 × ℤ :=
  (nd.key, nd.value.name, nd.value.type, nd.value.driveAddr)

/-- Every subfolder of `dir` has `dir` for its parent, and belongs to the mount `m`. -/
def KnowsParent (t : Fs) (dir : Ptr) (m : ℕ) : Prop :=
  ∀ nd ∈ (t.folders dir).foderMap.nodes,
    (t.folders nd.value.ptr).parent = some dir ∧ (t.folders nd.value.ptr).mount = some m

/-- The folder `dir` has the same children in `a` as in `b`. -/
structure SameChildren (dir : Ptr) (m : ℕ) (a b : Fs) : Prop where
  foders : ((a.folders dir).foderMap.nodes.map foderChild).Perm
    ((b.folders dir).foderMap.nodes.map foderChild)
  files : ((a.folders dir).fileMap.nodes.map fileChild).Perm
    ((b.folders dir).fileMap.nodes.map fileChild)
  parents : KnowsParent a dir m ∧ KnowsParent b dir m

/-- A folder record in use, with at most 128 entries of each kind, whose names are distinct and
end within their field. -/
structure ValidRecord (r : DiskFolder) : Prop where
  used : r.used ≠ 0
  subfolders_le : r.subfolders.length ≤ DFS_MAX_SUB_ENTRIES
  files_le : r.files.length ≤ DFS_MAX_SUB_ENTRIES
  foderLength : ∀ e ∈ r.subfolders, e.name.chars.length ≤ 127
  fileLength : ∀ e ∈ r.files, e.name.chars.length ≤ 127
  foders_distinct : r.subfolders.Pairwise fun d e => d.name ≠ e.name
  files_distinct : r.files.Pairwise fun d e => d.name ≠ e.name

/-- The load by the loader of `dfs_mount`, of the record that the folder `dir` of the mount `m`
stands for. -/
def loadAsRoot (s : Fs) (dir : Ptr) (m : ℕ) : ℤ × Fs :=
  dfsLoadFolderFromDisk s dir (s.mountTable m).part (toU32 (s.folders dir).driveAddr)

/-! ### Files that are taken for others -/

/-- The entry has the name that it is stored under. -/
def NamedByKey (map : RamfsFileHashmap) : Prop := ∀ nd ∈ map.nodes, nd.value.name = nd.key

section Files

variable {s s' : Fs} {dir : Ptr} {e : DiskFileInfo} {es : List DiskFileInfo}

/-- What the loop leaves in the file table depends on the table and the allocator alone. -/
theorem loadFiles_congr (known : Bool) (es : List DiskFileInfo)
    (hmap : (s'.folders dir).fileMap = (s.folders dir).fileMap) (hmem : s'.mem = s.mem) :
    ((loadFiles known dir es s').folders dir).fileMap =
      ((loadFiles known dir es s).folders dir).fileMap := by
  induction es generalizing s s' with
  | nil => exact hmap
  | cons e es ih =>
    rw [loadFiles, loadFiles, hmap]
    split_ifs
    · exact ih hmap hmem
    · refine ih ?_ ?_
      · rw [addFile, addFile, Fs.setMem_folders, Fs.setMem_folders, Fs.modifyFolder_self,
          Fs.modifyFolder_self, hmap, hmem]
        rfl
      · rw [addFile, addFile, Fs.setMem_mem, Fs.setMem_mem, hmap, hmem]

/-- Where no file is taken for another, the loaders do the same. -/
theorem loadFiles_known (hlen : ∀ e ∈ es, e.name.chars.length ≤ 127)
    (hfree : ∀ e ∈ es, ramfsFileHashmapFind (s.folders dir).fileMap e.name = none)
    (hapart : FilesApart es) : loadFiles false dir es s = loadFiles true dir es s := by
  induction es generalizing s with
  | nil => rfl
  | cons e es ih =>
    have hfind := hfree e List.mem_cons_self
    have hrest := fun d hd => hfree d (List.mem_cons_of_mem e hd)
    rw [FilesApart, List.pairwise_cons] at hapart
    rw [loadFiles, loadFiles, if_neg (by simp), if_neg (by simp [hfind])]
    refine ih (fun d hd => hlen d (List.mem_cons_of_mem e hd)) ?_ hapart.2
    by_cases hgrants : s.mem.grants s.mem.calls = true
    · rw [addFile_granted (hlen e List.mem_cons_self) hfind hgrants, Fs.setMem_folders,
        Fs.modifyFolder_self]
      exact forall_find_push_iff.2 ⟨hrest, hapart.1⟩
    · rw [addFile_refused hfind (by simpa using hgrants)]
      exact hrest

/-- The loader that skips known names enters every file under its name. -/
theorem namedByKey_loadFiles (hlen : ∀ e ∈ es, e.name.chars.length ≤ 127)
    (h : NamedByKey (s.folders dir).fileMap) :
    NamedByKey ((loadFiles true dir es s).folders dir).fileMap := by
  induction es generalizing s with
  | nil => exact h
  | cons e es ih =>
    have hrest := fun d hd => hlen d (List.mem_cons_of_mem e hd)
    rw [loadFiles]
    by_cases hfind : ramfsFileHashmapFind (s.folders dir).fileMap e.name = none
    swap
    · rw [if_pos (by simp [Option.isSome_iff_ne_none, hfind])]
      exact ih hrest h
    rw [if_neg (by simp [hfind])]
    by_cases hgrants : s.mem.grants s.mem.calls = true
    · rw [addFile_granted (hlen e List.mem_cons_self) hfind hgrants]
      refine ih hrest fun nd hnd => ?_
      rw [Fs.setMem_folders, Fs.modifyFolder_self] at hnd
      rcases List.mem_append.1 ((nodes_pushAll_perm _ _).mem_iff.1 hnd) with hnew | hold
      · obtain rfl := List.mem_singleton.1 hnew
        rfl
      · exact h nd hold
    · rw [addFile_refused hfind (by simpa using hgrants)]
      exact ih hrest h

/-- The keys of the table are none of the names. -/
def KeysApart (map : RamfsFileHashmap) (es : List DiskFileInfo) : Prop :=
  ∀ nd ∈ map.nodes, ∀ e ∈ es, nd.key ≠ e.name

/-- What the loader of `dfs_mount` does with a file: it is entered, or dropped for want of a node,
or it overwrites the entry of another, which then has a wrong name. -/
theorem addFile_cases (hlen : e.name.chars.length ≤ 127)
    (hkeys : ∀ nd ∈ (s.folders dir).fileMap.nodes, nd.key ≠ e.name) {t : Fs}
    (ht : t = addFile s dir ⟨e.name, 0, e.length, none, e.driveAddr⟩) :
    (∀ nd ∈ (t.folders dir).fileMap.nodes,
        nd.key = e.name ∨ ∃ nd₀ ∈ (s.folders dir).fileMap.nodes, nd.key = nd₀.key) ∧
      (ramfsFileHashmapFind (s.folders dir).fileMap e.name ≠ none →
        ¬NamedByKey (t.folders dir).fileMap) ∧
      (¬NamedByKey (s.folders dir).fileMap → ¬NamedByKey (t.folders dir).fileMap) := by
  by_cases hfind : ramfsFileHashmapFind (s.folders dir).fileMap e.name = none
  · have hold : ∀ nd ∈ (s.folders dir).fileMap.nodes, nd ∈ (t.folders dir).fileMap.nodes := by
      intro nd hnd
      by_cases hgrants : s.mem.grants s.mem.calls = true
      · rw [ht, addFile_granted hlen hfind hgrants, Fs.setMem_folders, Fs.modifyFolder_self]
        exact (nodes_pushAll_perm _ _).mem_iff.2 (List.mem_append_right _ hnd)
      · rw [ht, addFile_refused hfind (by simpa using hgrants)]
        exact hnd
    have hnew : ∀ nd ∈ (t.folders dir).fileMap.nodes,
        nd.key = e.name ∨ nd ∈ (s.folders dir).fileMap.nodes := by
      intro nd hnd
      by_cases hgrants : s.mem.grants s.mem.calls = true
      · rw [ht, addFile_granted hlen hfind hgrants, Fs.setMem_folders, Fs.modifyFolder_self] at hnd
        rcases List.mem_append.1 ((nodes_pushAll_perm _ _).mem_iff.1 hnd) with hnd | hnd
        · obtain rfl := List.mem_singleton.1 hnd
          exact Or.inl rfl
        · exact Or.inr hnd
      · rw [ht, addFile_refused hfind (by simpa using hgrants)] at hnd
        exact Or.inr hnd
    refine ⟨fun nd hnd => (hnew nd hnd).imp id fun h => ⟨nd, h, rfl⟩, fun h => absurd hfind h,
      fun hbad hgood => hbad fun nd hnd => hgood nd (hold nd hnd)⟩
  · -- the entry that is found gets the name of the file
    obtain ⟨nd, hnd⟩ := Option.ne_none_iff_exists'.1 fun h => hfind (fileTable.find_eq_none_iff.2 h)
    have htable : (t.folders dir).fileMap = fileTable.modify (s.folders dir).fileMap e.name
        (fun _ => ⟨e.name, 0, e.length, none, e.driveAddr⟩) := by
      rw [ht, addFile, ramfsFileHashmapInsert, fileTable.insert_found hlen hfind, Fs.setMem_folders,
        Fs.modifyFolder_self]
      rfl
    have hmem := mem_nodes_of_findNode hnd
    obtain ⟨rest, -, hperm⟩ := nodes_modify_perm hnd
      (fun _ => (⟨e.name, 0, e.length, none, e.driveAddr⟩ : RamfsFileInfo))
    have hbad : ¬NamedByKey (t.folders dir).fileMap := by
      intro hgood
      rw [htable] at hgood
      exact hkeys nd hmem (hgood _ (hperm.mem_iff.2 List.mem_cons_self)).symm
    refine ⟨fun nd' hnd' => Or.inr ?_, fun _ => hbad, fun _ => hbad⟩
    rw [htable] at hnd'
    obtain ⟨nd₀, hnd₀, rfl | rfl⟩ := mem_nodes_modify hnd'
    · exact ⟨nd', hnd₀, rfl⟩
    · exact ⟨nd₀, hnd₀, rfl⟩

theorem keysApart_addFile (hlen : e.name.chars.length ≤ 127)
    (hdistinct : (e :: es).Pairwise fun d e => d.name ≠ e.name)
    (hkeys : KeysApart (s.folders dir).fileMap (e :: es)) :
    KeysApart ((addFile s dir ⟨e.name, 0, e.length, none, e.driveAddr⟩).folders dir).fileMap es := by
  intro nd hnd d hd
  obtain ⟨hcases, -⟩ := addFile_cases hlen (fun nd hnd => hkeys nd hnd e List.mem_cons_self) rfl
  rcases hcases nd hnd with hkey | ⟨nd₀, hnd₀, hkey⟩
  · rw [hkey]
    exact (List.pairwise_cons.1 hdistinct).1 d hd
  · rw [hkey]
    exact hkeys nd₀ hnd₀ d (List.mem_cons_of_mem e hd)

/-- A wrong name stays wrong: no later file has the name of a key. -/
theorem not_namedByKey_loadFiles (hlen : ∀ e ∈ es, e.name.chars.length ≤ 127)
    (hdistinct : es.Pairwise fun d e => d.name ≠ e.name)
    (hkeys : KeysApart (s.folders dir).fileMap es) (hbad : ¬NamedByKey (s.folders dir).fileMap) :
    ¬NamedByKey ((loadFiles false dir es s).folders dir).fileMap := by
  induction es generalizing s with
  | nil => exact hbad
  | cons e es ih =>
    have he := hlen e List.mem_cons_self
    rw [loadFiles, if_neg (by simp)]
    refine ih (fun d hd => hlen d (List.mem_cons_of_mem e hd)) (List.pairwise_cons.1 hdistinct).2
      (keysApart_addFile he hdistinct hkeys) ?_
    exact (addFile_cases he (fun nd hnd => hkeys nd hnd e List.mem_cons_self) rfl).2.2 hbad

/-- Every name right after a load by the loader of `dfs_mount` means that no file was taken for
another. -/
theorem filesApart_of_namedByKey (hlen : ∀ e ∈ es, e.name.chars.length ≤ 127)
    (hdistinct : es.Pairwise fun d e => d.name ≠ e.name)
    (hkeys : KeysApart (s.folders dir).fileMap es) (hgrants : s.mem.Grants es.length)
    (hgood : NamedByKey ((loadFiles false dir es s).folders dir).fileMap) :
    (∀ e ∈ es, ramfsFileHashmapFind (s.folders dir).fileMap e.name = none) ∧ FilesApart es := by
  induction es generalizing s with
  | nil => exact ⟨by simp, List.Pairwise.nil⟩
  | cons e es ih =>
    have he := hlen e List.mem_cons_self
    have hrest := fun d hd => hlen d (List.mem_cons_of_mem e hd)
    have hpair := List.pairwise_cons.1 hdistinct
    have hnext := keysApart_addFile he hdistinct hkeys
    rw [List.length_cons, Nat.add_comm, Memory.grants_add, Memory.grants_one] at hgrants
    rw [loadFiles, if_neg (by simp)] at hgood
    by_cases hfind : ramfsFileHashmapFind (s.folders dir).fileMap e.name = none
    · rw [addFile_granted he hfind hgrants.1] at hgood hnext
      obtain ⟨hfree, hapart⟩ := ih hrest hpair.2 hnext hgrants.2 hgood
      rw [Fs.setMem_folders, Fs.modifyFolder_self] at hfree
      obtain ⟨hold, hclash⟩ := forall_find_push_iff.1 hfree
      exact ⟨List.forall_mem_cons.2 ⟨hfind, hold⟩, List.pairwise_cons.2 ⟨hclash, hapart⟩⟩
    · obtain ⟨-, hfound, -⟩ := addFile_cases he (fun nd hnd => hkeys nd hnd e List.mem_cons_self) rfl
      exact absurd hgood (not_namedByKey_loadFiles hrest hpair.2 hnext (hfound hfind))

end Files

/-! ### The comparison -/

/-- The record has no subfolder, and no file is taken for a later one. -/
def PlainRecord (r : DiskFolder) : Prop := r.subfolders = [] ∧ FilesApart r.files

instance (r : DiskFolder) : Decidable (PlainRecord r) := inferInstanceAs (Decidable (_ ∧ _))

section Compare

variable {s : Fs} {dir : Ptr} {m : ℕ}

/-- Where each loader starts: both from the same allocator, with empty tables. -/
theorem loadAsRoot_eq (hread : RecordReadable s dir m) (hused : (recordOf s dir m).used ≠ 0) :
    ∃ u : Fs, u.mem = s.mem ∧ (u.folders dir).foderMap = Table.empty ∧
      (u.folders dir).fileMap = Table.empty ∧
      loadAsRoot s dir m =
        if (loadSubfolders false none none dir (recordOf s dir m).subfolders u).1 = false then
          (-3, (loadSubfolders false none none dir (recordOf s dir m).subfolders u).2)
        else (0, loadFiles false dir (recordOf s dir m).files
          (loadSubfolders false none none dir (recordOf s dir m).subfolders u).2) := by
  have hb : (s.disk.store.read (s.mountTable m).part (toU32 (s.folders dir).driveAddr)
      sizeofDiskFolder).1 = some (recordBytes s dir m) := if_pos hread
  refine ⟨resetState s dir (s.mountTable m).part (toU32 (s.folders dir).driveAddr) (recordOf s dir m),
    rfl, ?_, ?_, dfsLoadFolderFromDisk_eq hb hused⟩
  · rw [resetState, Fs.modifyFolder_self]
    rfl
  · rw [resetState, Fs.modifyFolder_self]
    rfl

/-- A record without subfolders leaves the folder table empty. -/
theorem foders_eq_nil {u : Fs} (known : Bool) (hmap : (u.folders dir).foderMap = Table.empty)
    (files : List DiskFileInfo) :
    ((loadFiles known dir files u).folders dir).foderMap.nodes = [] := by
  rw [(quiet_loadFiles _ _ files u).1.foderMap dir, hmap, nodes_empty]

/-- A subfolder that the loader of `dfs_mount` enters has no parent. -/
theorem subfolders_eq_nil_of_parents {u : Fs} {es : List DiskFoderInfo} {files : List DiskFileInfo}
    (hdir : dir < u.mem.next) (hmap : (u.folders dir).foderMap = Table.empty)
    (hlen : ∀ e ∈ es, e.name.chars.length ≤ 127) (hdistinct : es.Pairwise fun d e => d.name ≠ e.name)
    (hgrants : u.mem.Grants (2 * es.length))
    (h : KnowsParent (loadFiles false dir files (loadSubfolders false none none dir es u).2) dir m) :
    es = [] := by
  obtain ⟨t, ht, hsubs⟩ := loadSubfolders_spec none none false hdir hlen
    (fun e _ => by rw [hmap]; rfl) hdistinct hgrants
  cases es with
  | nil => rfl
  | cons e es =>
    have hquiet := (quiet_loadFiles false dir files t).1
    have hnode : (⟨u.mem.next + 1, e.name, ⟨e.name, RAMFS_FOLDER_TYPE_DISK_CLEAN, u.mem.next,
        e.driveAddr⟩⟩ : Node CString RamfsFoderInfo) ∈ (t.folders dir).foderMap.nodes := by
      rw [hsubs.folder]
      exact (nodes_pushAll_perm _ _).mem_iff.2 (List.mem_append_left _ List.mem_cons_self)
    rw [ht] at h
    obtain ⟨hparent, -⟩ := h _ (by rw [hquiet.foderMap dir]; exact hnode)
    dsimp only at hparent
    have hsub : t.folders u.mem.next = subFolder none none e := hsubs.sub 0 e rfl
    rw [(hquiet.place u.mem.next).parent, hsub] at hparent
    exact absurd hparent (by simp [subFolder, RamfsFoder.zero])

end Compare

/-- **When the two loaders agree.** For every valid record, at the offset that an unloaded folder
of a mount stands for: on a record without subfolders in which no file is taken for a later one
the two loaders give the same children, under every pattern of allocation failures; and when their
allocations are granted they do so on no other record. -/
theorem loaders_agree_iff (s : Fs) (dir : Ptr) (m : ℕ) (h : Unloaded s dir m)
    (hdir : dir < s.mem.next) (hread : RecordReadable s dir m)
    (hvalid : ValidRecord (recordOf s dir m)) :
    (PlainRecord (recordOf s dir m) →
      SameChildren dir m (loadAsRoot s dir m).2 (dfsLoadFolderChildren s dir).2) ∧
    (s.mem.Grants (recordOf s dir m).allocations →
      SameChildren dir m (loadAsRoot s dir m).2 (dfsLoadFolderChildren s dir).2 →
        PlainRecord (recordOf s dir m)) := by
  obtain ⟨u, hmem, hfoders, hfiles, hroot⟩ := loadAsRoot_eq hread hvalid.used
  rw [hroot, dfsLoadFolderChildren_eq h hread hvalid.used]
  have hkids := hvalid.fileLength
  constructor
  · rintro ⟨hnone, hapart⟩
    have hfree : ∀ e ∈ (recordOf s dir m).files,
        ramfsFileHashmapFind (u.folders dir).fileMap e.name = none := fun e _ => by rw [hfiles]; rfl
    have hknown := loadFiles_known hkids hfree hapart
    have hcongr := loadFiles_congr (s := afterRead s dir m) true (recordOf s dir m).files
      (hfiles.trans h.fileMap.symm) hmem
    rw [hnone, loadSubfolders, loadSubfolders, if_neg (by simp), if_neg (by simp), hknown]
    have hleft := foders_eq_nil true hfoders (recordOf s dir m).files
    have hright := foders_eq_nil (u := afterRead s dir m) true h.foderMap (recordOf s dir m).files
    refine ⟨?_, ?_, ?_, ?_⟩
    · rw [hleft, hright]
    · rw [hcongr]
    · intro nd hnd
      exact absurd (hleft ▸ hnd : nd ∈ []) List.not_mem_nil
    · intro nd hnd
      exact absurd (hright ▸ hnd : nd ∈ []) List.not_mem_nil
  · intro hgrants hsame
    rw [DiskFolder.allocations, Memory.grants_add] at hgrants
    -- no subfolder: it would have no parent
    have hdir' : dir < u.mem.next := hmem ▸ hdir
    obtain ⟨t, ht, -⟩ := loadSubfolders_spec none none false hdir'
      hvalid.foderLength (fun e _ => by rw [hfoders]; rfl) hvalid.foders_distinct (hmem ▸ hgrants.1)
    have hparents := hsame.parents.1
    rw [if_neg (by simp [ht])] at hparents
    have hnone := subfolders_eq_nil_of_parents hdir' hfoders hvalid.foderLength
      hvalid.foders_distinct (hmem ▸ hgrants.1) hparents
    refine ⟨hnone, ?_⟩
    -- no file taken for another: it would leave a wrong name
    have hperm := hsame.files
    rw [hnone, loadSubfolders, loadSubfolders, if_neg (by simp), if_neg (by simp)] at hperm
    have hgood : NamedByKey ((loadFiles true dir (recordOf s dir m).files
        (afterRead s dir m)).folders dir).fileMap := by
      refine namedByKey_loadFiles hkids fun nd hnd => ?_
      rw [show ((afterRead s dir m).folders dir).fileMap = Table.empty from h.fileMap, nodes_empty]
        at hnd
      exact absurd hnd List.not_mem_nil
    have hkeys : KeysApart (u.folders dir).fileMap (recordOf s dir m).files := by
      intro nd hnd
      rw [hfiles, nodes_empty] at hnd
      exact absurd hnd List.not_mem_nil
    refine (filesApart_of_namedByKey hkids hvalid.files_distinct hkeys ?_ ?_).2
    · rw [hnone] at hgrants
      exact hmem ▸ hgrants.2
    · intro nd hnd
      obtain ⟨nd', hnd', heq⟩ := List.mem_map.1
        (hperm.mem_iff.1 (List.mem_map.2 ⟨nd, hnd, rfl⟩))
      obtain ⟨hkey, hval⟩ := Prod.ext_iff.1 heq
      dsimp only [fileChild] at hkey hval
      rw [← hkey, ← hval]
      exact hgood nd' hnd'

/-! ### Two records -/

/-- The root directory as an unloaded folder of the mount 0, its record at offset 536 of the
partition. -/
def unloadedState (r : DiskFolder) : Fs :=
  (bootState ampleMemory (imageStore ⟨DFS_MAGIC, DFS_MAX_FOLDERS, 1, 536, 40000, 50000, 100⟩
    [(536, r)])).setFolder rootPtr
      { RamfsFoder.zero with
        type := RAMFS_FOLDER_TYPE_DISK_CLEAN
        driveAddr := 536
        mount := some 0 }

theorem unloaded_unloadedState (r : DiskFolder) : Unloaded (unloadedState r) rootPtr 0 :=
  ⟨rfl, rfl, rfl, rfl⟩

/-- A record with the files `"a"` and `"q"`, in this order. -/
def twoFilesRecord : DiskFolder :=
  ⟨slashString, 1, [], [⟨.ofBytes [97], 3, 50000⟩, ⟨.ofBytes [113], 0, 0⟩]⟩

/-- A record with the subfolder `"d"`. -/
def oneSubRecord : DiskFolder := ⟨slashString, 1, [⟨.ofBytes [100], 40000⟩], []⟩

/-- On a record with files alone, none taken for a later one, the loaders agree. -/
theorem loaders_agree_twoFiles :
    SameChildren rootPtr 0 (loadAsRoot (unloadedState twoFilesRecord) rootPtr 0).2
      (dfsLoadFolderChildren (unloadedState twoFilesRecord) rootPtr).2 :=
  (loaders_agree_iff (unloadedState twoFilesRecord) rootPtr 0 (unloaded_unloadedState _) (by decide)
    (by decide +kernel) ⟨by decide +kernel, by decide +kernel, by decide +kernel, by decide +kernel,
      by decide +kernel, by decide +kernel, by decide +kernel⟩).1 (by decide +kernel)

/-- On a record with one subfolder they do not: the loader of `dfs_mount` leaves its parent
null. -/
theorem loaders_disagree_oneSub :
    ¬∀ (s : Fs) (dir : Ptr) (m : ℕ), Unloaded s dir m → dir < s.mem.next → RecordReadable s dir m →
      ValidRecord (recordOf s dir m) →
      SameChildren dir m (loadAsRoot s dir m).2 (dfsLoadFolderChildren s dir).2 := by
  intro h
  have hsame := h (unloadedState oneSubRecord) rootPtr 0 (unloaded_unloadedState _) (by decide)
    (by decide +kernel) ⟨by decide +kernel, by decide +kernel, by decide +kernel, by decide +kernel,
      by decide +kernel, by decide +kernel, by decide +kernel⟩
  have hall : ∀ q ∈ ((loadAsRoot (unloadedState oneSubRecord) rootPtr 0).2.folders
      rootPtr).foderMap.nodes.map (fun nd => ((loadAsRoot (unloadedState oneSubRecord) rootPtr
        0).2.folders nd.value.ptr).parent), q = some rootPtr := by
    intro q hq
    obtain ⟨nd, hnd, rfl⟩ := List.mem_map.1 hq
    exact (hsame.parents.1 nd hnd).1
  revert hall
  decide +kernel

end LittleLinux
