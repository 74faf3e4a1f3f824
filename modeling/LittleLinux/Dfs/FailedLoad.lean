import LittleLinux.Dfs.LiveUse
import LittleLinux.Dfs.Loaders

/-!
# Entries after a failed load

A directory of a mount counts as loaded when one of its tables has an entry, or when it was
changed; the result of `dfs_load_folder_children` is looked at nowhere. So a load that fails, or
that fails in part, is not noticed, and a later save writes what there is.

`failedLoad_keeps_entries` says when nothing is lost: every call that finds the directory
unloaded either loads it completely, or cannot read its record and creates nothing; no file is
taken for another; and the directory is loaded, with at most 128 entries of each kind, when it is
saved.
-/

namespace LittleLinux

open ChainTable

/-! ### Calls in one directory -/

namespace FsOp

/-- The call is one of `fs_mkdir`, `fs_touch`, `fs_write`, `fs_rm` and `fs_rmdir`, and works in
the directory `dir`. -/
def WorksIn (dir : Ptr) (s : Fs) : FsOp → Prop
  | .mkdir _ path => fromDir s path = some dir
  | .rmdir _ path => fromDir s path = some dir
  | .write _ _ path => fromDir s path = some dir
  | .touch name path => ∃ file, parsePath s name path = .ok (dir, file)
  | .rm name path => ∃ file, parsePath s name path = .ok (dir, file)
  | _ => False

/-- The call removes a directory of that name. -/
def RemovesFoder (name : CString) : FsOp → Prop
  | .rmdir name' _ => name' = name
  | _ => False

/-- The call removes a file of that name. -/
def RemovesFile (name : CString) : FsOp → Prop
  | .rm name' _ => lastComponent name' = name
  | _ => False

/-- The call writes to a file of that name. -/
def WritesFile (name : CString) : FsOp → Prop
  | .write name' _ _ => name' = name
  | _ => False

/-- The call makes a directory or a file. -/
def Creates : FsOp → Prop
  | .mkdir _ _ => True
  | .touch _ _ => True
  | _ => False

/-- The name of the file that the call looks up. -/
def fileName : FsOp → Option CString
  | .rm name _ => some (lastComponent name)
  | .write name _ _ => some name
  | _ => none

end FsOp

/-- Every entry of the record `r` that no call removed is in the record `r'`: a subfolder as it
was, a file at the address it had, with its length unless a call wrote to it. -/
structure EntriesKept (r : DiskFolder) (ops : List FsOp) (r' : DiskFolder) : Prop where
  foders : ∀ e ∈ r.subfolders, (∀ op ∈ ops, ¬op.RemovesFoder e.name) → e ∈ r'.subfolders
  files : ∀ e ∈ r.files, (∀ op ∈ ops, ¬op.RemovesFile e.name) →
    ∃ e' ∈ r'.files, e'.name = e.name ∧ e'.driveAddr = e.driveAddr ∧
      ((∀ op ∈ ops, ¬op.WritesFile e.name) → e'.length = e.length)

/-- The file of the record that is found under a name, once the record is loaded: of those taken
for the name, the last. -/
def DiskFolder.fileNamed (r : DiskFolder) (name : CString) : Option DiskFileInfo :=
  r.files.reverse.find? fun e => decide (fileTable.Clash e.name name)

/-- The call meets no failure of the load, or cannot read the record and creates nothing; and the
file that it looks up is not another one. It stays in bounds, and loses no buffer. -/
structure LoadSafe (dir : Ptr) (m : ℕ) (s : Fs) (op : FsOp) : Prop where
  worksIn : op.WorksIn dir s
  inBounds : op.InBounds s
  keeps : ¬op.Loses s
  load : NotLoaded (s.folders dir) →
    RecordReadable s dir m ∧ s.mem.Grants (recordOf s dir m).allocations ∨
      ¬RecordReadable s dir m ∧ ¬op.Creates
  named : ∀ name ∈ op.fileName,
    (∀ info, ramfsFileHashmapFind (s.folders dir).fileMap name = some info → info.name = name) ∧
      (NotLoaded (s.folders dir) →
        ∀ e, (recordOf s dir m).fileNamed name = some e → e.name = name)

/-- The folder can be saved without loss: it is loaded, and has at most 128 entries of each
kind. -/
structure SaveSafe (f : RamfsFoder) : Prop where
  loaded : ¬NotLoaded f
  foders_le : f.foderMap.nodes.length ≤ DFS_MAX_SUB_ENTRIES
  files_le : f.fileMap.nodes.length ≤ DFS_MAX_SUB_ENTRIES

/-! ### What a loaded directory holds -/

/-- The folder at `dir` has nodes for the given entries. -/
structure Holds (dir : Ptr) (foders : List DiskFoderInfo) (files still : List DiskFileInfo) (s : Fs) :
    Prop where
  lt_next : dir < s.mem.next
  foderCount : Counted (s.folders dir).foderMap
  fileCount : Counted (s.folders dir).fileMap
  named : NamedByKey (s.folders dir).fileMap
  kids : ∀ nd ∈ (s.folders dir).foderMap.nodes, nd.value.ptr ≠ dir
  foders : ∀ e ∈ foders, ∃ nd ∈ (s.folders dir).foderMap.nodes,
    nd.key = e.name ∧ nd.value.name = e.name ∧ nd.value.driveAddr = e.driveAddr
  files : ∀ e ∈ files, ∃ nd ∈ (s.folders dir).fileMap.nodes,
    nd.key = e.name ∧ nd.value.driveAddr = e.driveAddr ∧ (e ∈ still → nd.value.length = e.length)

section Holds

variable {s u : Fs} {dir : Ptr} {foders : List DiskFoderInfo} {files still : List DiskFileInfo}
  {name : CString}

/-- The tables of the folder are the same. -/
theorem Holds.of_tables (h : Holds dir foders files still u) {t : Fs} (hnext : u.mem.next ≤ t.mem.next)
    (hfoders : (t.folders dir).foderMap = (u.folders dir).foderMap)
    (hfiles : (t.folders dir).fileMap = (u.folders dir).fileMap) : Holds dir foders files still t where
  lt_next := h.lt_next.trans_le hnext
  foderCount := hfoders ▸ h.foderCount
  fileCount := hfiles ▸ h.fileCount
  named := hfiles ▸ h.named
  kids := hfoders ▸ h.kids
  foders := hfoders ▸ h.foders
  files := hfiles ▸ h.files

theorem Holds.of_onlyMem (h : Holds dir foders files still u) {t : Fs} (ht : OnlyMem u t) :
    Holds dir foders files still t := by
  obtain ⟨mem, hnext, rfl⟩ := ht
  exact h.of_tables hnext rfl rfl

/-- The folder table changes. -/
theorem Holds.setFoders (h : Holds dir foders files still u) {t : Fs} (map : RamfsHashmap)
    (hnext : u.mem.next ≤ t.mem.next) (hmap : (t.folders dir).foderMap = map)
    (hfiles : (t.folders dir).fileMap = (u.folders dir).fileMap) (hcount : Counted map)
    (hkids : ∀ nd ∈ map.nodes, nd.value.ptr ≠ dir)
    (hkept : ∀ nd ∈ (u.folders dir).foderMap.nodes, (∃ e ∈ foders, nd.key = e.name) →
      nd ∈ map.nodes) : Holds dir foders files still t where
  lt_next := h.lt_next.trans_le hnext
  foderCount := hmap ▸ hcount
  fileCount := hfiles ▸ h.fileCount
  named := hfiles ▸ h.named
  kids := hmap ▸ hkids
  foders := by
    intro e he
    obtain ⟨nd, hnd, hkey, hval⟩ := h.foders e he
    rw [hmap]
    exact ⟨nd, hkept nd hnd ⟨e, he, hkey⟩, hkey, hval⟩
  files := hfiles ▸ h.files

/-- The file table changes. -/
theorem Holds.setFiles (h : Holds dir foders files still u) {map : RamfsFileHashmap} {mem : Memory}
    (hnext : u.mem.next ≤ mem.next) (hcount : Counted map) (hnamed : NamedByKey map)
    (hkept : ∀ nd ∈ (u.folders dir).fileMap.nodes, (∃ e ∈ files, nd.key = e.name) →
      ∃ nd' ∈ map.nodes, nd'.key = nd.key ∧ nd'.value.driveAddr = nd.value.driveAddr ∧
        ((∃ e ∈ still, nd.key = e.name) → nd'.value.length = nd.value.length)) :
    Holds dir foders files still (putFiles u dir map mem) := by
  refine ⟨h.lt_next.trans_le hnext, ?_, ?_, ?_, ?_, ?_, fun e he => ?_⟩
  · rw [putFiles_foderMap]
    exact h.foderCount
  · rw [putFiles_fileMap]
    exact hcount
  · rw [putFiles_fileMap]
    exact hnamed
  · rw [putFiles_foderMap]
    exact h.kids
  · rw [putFiles_foderMap]
    exact h.foders
  obtain ⟨nd, hnd, hkey, haddr, hlength⟩ := h.files e he
  obtain ⟨nd', hnd', hkey', haddr', hlength'⟩ := hkept nd hnd ⟨e, he, hkey⟩
  rw [putFiles_fileMap]
  exact ⟨nd', hnd', hkey'.trans hkey, haddr'.trans haddr, fun hstill =>
    (hlength' ⟨e, hstill, hkey⟩).trans (hlength hstill)⟩

/-- The file that is found under a name, where it has that name. -/
theorem Holds.key_of_findNode (h : Holds dir foders files still u)
    (hname : ∀ info, ramfsFileHashmapFind (u.folders dir).fileMap name = some info → info.name = name)
    {nd : Node CString RamfsFileInfo}
    (hnd : findNode fileTable.streq djb2Bucket (u.folders dir).fileMap name = some nd) :
    nd.key = name := by
  have hfind : ramfsFileHashmapFind (u.folders dir).fileMap name = some nd.value :=
    Option.map_eq_some_iff.2 ⟨nd, hnd, rfl⟩
  rw [← h.named nd (mem_nodes_of_findNode hnd)]
  exact hname nd.value hfind

theorem Holds.mkdirIn (h : Holds dir foders files still u) (hu : lazyLoadDirectory s dir = u)
    (name : CString) : Holds dir foders files still (mkdirIn s dir name).2 := by
  have hne := Nat.ne_of_lt h.lt_next
  rcases mkdirIn_cases hu name with honly | ⟨⟨hfind, -⟩, mem, hnext, heq⟩
  · exact h.of_onlyMem honly
  rw [heq]
  have hfolder : (u.setFolder u.mem.next (newDirNode u dir name)).folders dir = u.folders dir :=
    Fs.setFolder_of_ne _ _ hne
  rcases enterDir_cases hnext hfind with honly | ⟨map, mem', hnext', hadds, heq⟩
  · refine Holds.of_onlyMem ?_ honly
    exact h.of_tables (le_refl _) (by rw [hfolder]) (by rw [hfolder])
  · rw [heq]
    refine h.setFoders map hnext'.le ?_ ?_ ((hadds hne).counted h.foderCount) ?_ ?_
    · rw [Fs.setMem_folders, Fs.modifyFolder_self, markDirty_foderMap]
      rfl
    · rw [Fs.setMem_folders, Fs.modifyFolder_self, markDirty_fileMap, hfolder]
      rfl
    · intro nd hnd
      rcases (hadds hne).mem_nodes hnd with hold | ⟨-, hval⟩
      · exact h.kids nd hold
      · rw [hval]
        exact hne.symm
    · exact fun nd hnd _ => (hadds hne).mem_of_mem hnd

theorem Holds.touchIn (h : Holds dir foders files still u) (hu : lazyLoadDirectory s dir = u)
    (name : CString) : Holds dir foders files still (touchIn s dir name).2 := by
  rcases touchIn_cases hu name with honly | ⟨map, mem, -, hnext, hadds, heq⟩
  · exact h.of_onlyMem honly
  rw [heq]
  refine h.setFiles hnext (hadds.counted h.fileCount) (fun nd hnd => ?_) fun nd hnd _ => ?_
  · rcases hadds.mem_nodes hnd with hold | ⟨hkey, hval⟩
    · exact h.named nd hold
    · rw [hkey, hval]
  · exact ⟨nd, hadds.mem_of_mem hnd, rfl, rfl, fun _ => rfl⟩

theorem Holds.rmIn (h : Holds dir foders files still u) (hu : lazyLoadDirectory s dir = u)
    (hname : ∀ info, ramfsFileHashmapFind (u.folders dir).fileMap name = some info → info.name = name)
    (hkeep : ∀ e ∈ files, e.name ≠ name) : Holds dir foders files still (rmIn s dir name).2 := by
  rcases rmIn_cases hu name with heq | ⟨map, mem, -, hnext, hremoves, heq⟩
  · rw [heq]
    exact h
  rw [heq]
  refine h.setFiles hnext (hremoves.counted h.fileCount)
    (fun nd hnd => h.named nd (hremoves.mem_nodes hnd)) fun nd hnd => ?_
  rintro ⟨e, he, hkey⟩
  rcases hremoves.mem_of_mem hnd with hstay | hfound
  · exact ⟨nd, hstay, rfl, rfl, fun _ => rfl⟩
  · exact absurd (hkey.symm.trans (h.key_of_findNode hname hfound)) (hkeep e he)

theorem Holds.storesFile (h : Holds dir foders files still u) {t : Fs} (ht : StoresFile u dir name t)
    (hhas : HasFile u dir name)
    (hname : ∀ info, ramfsFileHashmapFind (u.folders dir).fileMap name = some info → info.name = name)
    (hkeep : ∀ e ∈ still, e.name ≠ name) : Holds dir foders files still t := by
  obtain ⟨data, length, mem, hnext, -, -, -, rfl⟩ := ht
  obtain ⟨nd₀, hnd₀⟩ := Option.ne_none_iff_exists'.1 fun hnone =>
    hhas (fileTable.find_eq_none_iff.2 hnone)
  obtain ⟨rest, hold, hnew⟩ := nodes_modify_perm hnd₀ (changeFile data length)
  refine h.setFiles hnext (h.fileCount.modify fileTable name _) (fun nd hnd => ?_) fun nd hnd _ => ?_
  · obtain ⟨nd₁, hnd₁, rfl | rfl⟩ := mem_nodes_modify hnd
    · exact h.named _ hnd₁
    · exact h.named nd₁ hnd₁
  · rcases List.mem_cons.1 (hold.mem_iff.1 hnd) with rfl | hrest
    · refine ⟨_, hnew.mem_iff.2 List.mem_cons_self, rfl, rfl, ?_⟩
      rintro ⟨e, he, hkey⟩
      exact absurd (hkey.symm.trans (h.key_of_findNode hname hnd₀)) (hkeep e he)
    · exact ⟨nd, hnew.mem_iff.2 (List.mem_cons_of_mem _ hrest), rfl, rfl, fun _ => rfl⟩

theorem Holds.writeIn (h : Holds dir foders files still u) (hu : lazyLoadDirectory s dir = u)
    (hname : ∀ info, ramfsFileHashmapFind (u.folders dir).fileMap name = some info → info.name = name)
    (hkeep : ∀ e ∈ still, e.name ≠ name) (data : Data) :
    Holds dir foders files still (writeIn s dir name data).2 := by
  rcases writeIn_cases hu name data with honly | ⟨hhas, hstores⟩
  · exact h.of_onlyMem honly
  · exact h.storesFile hstores hhas hname hkeep

theorem Holds.rmdirIn (h : Holds dir foders files still u) (hu : lazyLoadDirectory s dir = u)
    (hkeep : ∀ e ∈ foders, e.name ≠ name) : Holds dir foders files still (rmdirIn s dir name).2 := by
  rcases rmdirIn_cases hu name with heq | ⟨info, map, mem, hfind, -, -, hremoves, hnext, heq⟩
  · rw [heq]
    exact h
  have hne : dir ≠ info.ptr := by
    obtain ⟨nd, hnd, rfl⟩ := foderTable.exists_of_find hfind
    exact (h.kids nd hnd).symm
  have hfolder : ((((u.modifyFolder dir (·.setFoderMap map)).modifyFolder info.ptr
      emptyTables).modifyFolder dir markDirty).setMem mem).folders dir =
        markDirty ((u.folders dir).setFoderMap map) := by
    rw [Fs.setMem_folders, Fs.modifyFolder_self, Fs.modifyFolder_of_ne _ _ hne, Fs.modifyFolder_self]
  rw [heq]
  refine h.setFoders map hnext.ge ?_ ?_ (hremoves.counted h.foderCount) ?_ ?_
  · rw [hfolder, markDirty_foderMap]
    rfl
  · rw [hfolder, markDirty_fileMap]
    rfl
  · exact fun nd hnd => h.kids nd (hremoves.mem_nodes hnd)
  · rintro nd hnd ⟨e, he, hkey⟩
    rcases hremoves.mem_of_mem hnd with hstay | hfound
    · exact hstay
    · have haccept := List.find?_some hfound
      have hname : nd.key = name := by simpa [foderTable, hashStreq_eq_decide] using haccept
      exact absurd (hkey.symm.trans hname) (hkeep e he)

end Holds

/-! ### The load -/

/-- The entry that a loader makes for a file. -/
def loadedFile (e : DiskFileInfo) : RamfsFileInfo := ⟨e.name, 0, e.length, none, e.driveAddr⟩

/-- What is found in a table after the files of a record were entered: the last that is taken for
the name, or what was found before. -/
theorem find_pushAll_fileNodes (map : RamfsFileHashmap) (a : ℕ) (es : List DiskFileInfo)
    (name : CString) :
    ramfsFileHashmapFind (pushAll djb2Bucket map (fileNodes a es)) name =
      ((es.reverse.find? fun e => decide (fileTable.Clash e.name name)).map loadedFile).or
        (ramfsFileHashmapFind map name) := by
  induction es generalizing map a with
  | nil => rfl
  | cons e es ih =>
    refine (ih (pushNode djb2Bucket map ⟨a, e.name, loadedFile e⟩) (a + 1)).trans ?_
    rw [List.reverse_cons, List.find?_append]
    have hpush : ramfsFileHashmapFind (pushNode djb2Bucket map ⟨a, e.name, loadedFile e⟩) name =
        if fileTable.Clash e.name name then some (loadedFile e) else ramfsFileHashmapFind map name := by
      rw [ramfsFileHashmapFind, NamedTable.find, ChainTable.find, findNode_pushNode, apply_ite
        (Option.map Node.value)]
      rfl
    rw [hpush]
    cases es.reverse.find? fun e => decide (fileTable.Clash e.name name) with
    | some d => rfl
    | none =>
      by_cases hclash : fileTable.Clash e.name name
      · rw [if_pos hclash, List.find?_cons_of_pos (by exact decide_eq_true hclash)]
        rfl
      · rw [if_neg hclash, List.find?_cons_of_neg (by simpa using hclash)]
        rfl

/-- The folder is not loaded, and the record `r` is there to load. -/
structure Waiting (dir : Ptr) (m : ℕ) (r : DiskFolder) (s : Fs) : Prop where
  unloaded : Unloaded s dir m
  lt_next : dir < s.mem.next
  record : recordOf s dir m = r

section Run

variable {s : Fs} {dir : Ptr} {m : ℕ} {r : DiskFolder} {foders : List DiskFoderInfo}
  {files still : List DiskFileInfo} {op : FsOp}

theorem Unloaded.notLoaded (h : Unloaded s dir m) : NotLoaded (s.folders dir) :=
  ⟨h.type, by rw [h.foderMap]; rfl, by rw [h.fileMap]; rfl⟩

theorem lazyLoadDirectory_of_notLoaded (h : NotLoaded (s.folders dir)) :
    lazyLoadDirectory s dir = (dfsLoadFolderChildren s dir).2 :=
  if_pos h

theorem lazyLoadDirectory_of_loaded (h : ¬NotLoaded (s.folders dir)) : lazyLoadDirectory s dir = s :=
  if_neg h

theorem dfsLoadFolderChildren_of_not_readable (h : Unloaded s dir m) (hread : ¬RecordReadable s dir m) :
    dfsLoadFolderChildren s dir = (-3, afterRead s dir m) := by
  have hb : (s.disk.store.read (s.mountTable m).part (toU32 (s.folders dir).driveAddr)
      sizeofDiskFolder).1 = none := if_neg hread
  rw [dfsLoadFolderChildren]
  dsimp only
  rw [if_neg (not_not.2 h.type), if_neg (by rw [h.foderMap, h.fileMap]; simp [Table.empty]), h.mount]
  dsimp only
  rw [hb]
  rfl

theorem Waiting.afterRead (h : Waiting dir m r s) : Waiting dir m r (afterRead s dir m) where
  unloaded := ⟨h.unloaded.type, h.unloaded.foderMap, h.unloaded.fileMap, h.unloaded.mount⟩
  lt_next := h.lt_next
  record := h.record

/-- A complete load leaves a node for every entry. -/
theorem RecordLoaded.holds {t : Fs} (h : RecordLoaded (some m) (some dir) dir r s t)
    (hdir : dir < s.mem.next) (hfoders : foders ⊆ r.subfolders) (hfiles : files ⊆ r.files) :
    Holds dir foders files still t where
  lt_next := by
    rw [h.rest]
    exact hdir.trans_le (s.mem.next_skip _ ▸ Nat.le_add_right _ _)
  foderCount := by
    rw [Counted, h.foderMap, count_pushAll, (nodes_pushAll_perm _ _).length_eq, nodes_empty,
      List.append_nil]
    exact zero_add _
  fileCount := by
    rw [Counted, h.fileMap, count_pushAll, (nodes_pushAll_perm _ _).length_eq, nodes_empty,
      List.append_nil]
    exact zero_add _
  named := by
    intro nd hnd
    obtain ⟨i, e, rfl⟩ := exists_of_mem_fileNodes (h.files_perm.mem_iff.1 hnd)
    rfl
  kids := by
    intro nd hnd
    -- the subfolders are newer than `dir`, so none of them is `dir`
    obtain ⟨i, e, -, rfl⟩ := exists_of_mem_subNodes (h.foders_perm.mem_iff.1 hnd)
    exact (Nat.ne_of_lt (hdir.trans_le (Nat.le_add_right _ (2 * i)))).symm
  foders := by
    intro e he
    obtain ⟨nd, hnd, heq⟩ := List.mem_map.1 (h.foderEntries_perm.mem_iff.2 (hfoders he))
    obtain ⟨i, d, -, rfl⟩ := exists_of_mem_subNodes (h.foders_perm.mem_iff.1 hnd)
    exact ⟨_, hnd, congrArg DiskFoderInfo.name heq, congrArg DiskFoderInfo.name heq,
      congrArg DiskFoderInfo.driveAddr heq⟩
  files := by
    intro e he
    obtain ⟨nd, hnd, heq⟩ := List.mem_map.1 (h.fileEntries_perm.mem_iff.2 (hfiles he))
    obtain ⟨i, d, rfl⟩ := exists_of_mem_fileNodes (h.files_perm.mem_iff.1 hnd)
    exact ⟨_, hnd, congrArg DiskFileInfo.name heq, congrArg DiskFileInfo.driveAddr heq,
      fun _ => congrArg DiskFileInfo.length heq⟩

/-- The folder waits for its record, or has nodes for the entries that are to be kept. -/
def StillThere (dir : Ptr) (m : ℕ) (r : DiskFolder) (foders : List DiskFoderInfo)
    (files still : List DiskFileInfo) (s : Fs) : Prop :=
  Waiting dir m r s ∨ Holds dir foders files still s

/-- A folder that has an entry to keep counts as loaded. -/
theorem Holds.not_notLoaded (h : Holds dir foders files still s) (hne : foders ≠ [] ∨ files ≠ []) :
    ¬NotLoaded (s.folders dir) := by
  rintro ⟨-, hcount, hcount'⟩
  rcases hne with hne | hne
  · obtain ⟨e, he⟩ := List.exists_mem_of_ne_nil _ hne
    obtain ⟨nd, hnd, -⟩ := h.foders e he
    rw [h.foderCount.nodes_eq_nil hcount] at hnd
    exact absurd hnd List.not_mem_nil
  · obtain ⟨e, he⟩ := List.exists_mem_of_ne_nil _ hne
    obtain ⟨nd, hnd, -⟩ := h.files e he
    rw [h.fileCount.nodes_eq_nil hcount'] at hnd
    exact absurd hnd List.not_mem_nil

/-- A load that can read the record and gets its memory is complete. -/
theorem Waiting.holds_load (h : Waiting dir m r s) (hused : r.used ≠ 0) (hr : r.Loadable)
    (hfoders : foders ⊆ r.subfolders) (hfiles : files ⊆ r.files) (hread : RecordReadable s dir m)
    (hgrants : s.mem.Grants (recordOf s dir m).allocations) :
    (dfsLoadFolderChildren s dir).1 = 0 ∧
      Holds dir foders files still (dfsLoadFolderChildren s dir).2 ∧
      ∀ name, ramfsFileHashmapFind ((dfsLoadFolderChildren s dir).2.folders dir).fileMap name =
        (r.fileNamed name).map loadedFile := by
  obtain ⟨hunloaded, hdir, rfl⟩ := h
  obtain ⟨hok, hloaded⟩ := dfsLoadFolderChildren_spec hunloaded hdir hread hused hr hgrants
  refine ⟨hok, hloaded.holds hdir hfoders hfiles, fun name => ?_⟩
  rw [hloaded.fileMap, find_pushAll_fileNodes]
  exact Option.or_none

/-- What a call finds once it has loaded its directory. -/
theorem StillThere.lazyLoad (h : StillThere dir m r foders files still s) (hne : foders ≠ [] ∨ files ≠ [])
    (hused : r.used ≠ 0) (hr : r.Loadable) (hfoders : foders ⊆ r.subfolders)
    (hfiles : files ⊆ r.files) (hop : LoadSafe dir m s op) :
    Waiting dir m r (lazyLoadDirectory s dir) ∧ ¬op.Creates ∨
      Holds dir foders files still (lazyLoadDirectory s dir) ∧
        ∀ name ∈ op.fileName, ∀ info,
          ramfsFileHashmapFind ((lazyLoadDirectory s dir).folders dir).fileMap name = some info →
            info.name = name := by
  rcases h with hwait | hholds
  · have hnot := hwait.unloaded.notLoaded
    rw [lazyLoadDirectory_of_notLoaded hnot]
    rcases hop.load hnot with ⟨hread, hgrants⟩ | ⟨hread, hcreates⟩
    · obtain ⟨-, hholds, hfind⟩ := hwait.holds_load hused hr hfoders hfiles hread hgrants
      refine Or.inr ⟨hholds, fun name hname info hinfo => ?_⟩
      rw [hfind, Option.map_eq_some_iff, ← hwait.record] at hinfo
      obtain ⟨e, he, rfl⟩ := hinfo
      exact (hop.named name hname).2 hnot e he
    · rw [dfsLoadFolderChildren_of_not_readable hwait.unloaded hread]
      exact Or.inl ⟨hwait.afterRead, hcreates⟩
  · rw [lazyLoadDirectory_of_loaded (hholds.not_notLoaded hne)]
    exact Or.inr ⟨hholds, fun name hname => (hop.named name hname).1⟩

/-- The call takes nothing from the lists. -/
structure Spares (foders : List DiskFoderInfo) (files still : List DiskFileInfo) (op : FsOp) :
    Prop where
  foders : ∀ e ∈ foders, ¬op.RemovesFoder e.name
  files : ∀ e ∈ files, ¬op.RemovesFile e.name
  still : ∀ e ∈ still, ¬op.WritesFile e.name

/-- **One call.** -/
theorem StillThere.step (h : StillThere dir m r foders files still s) (hne : foders ≠ [] ∨ files ≠ [])
    (hused : r.used ≠ 0) (hr : r.Loadable) (hfoders : foders ⊆ r.subfolders)
    (hfiles : files ⊆ r.files) (hop : LoadSafe dir m s op) (hspares : Spares foders files still op) :
    StillThere dir m r foders files still (fsStep s op) := by
  have hload := h.lazyLoad hne hused hr hfoders hfiles hop
  have hworks := hop.worksIn
  generalize hu : lazyLoadDirectory s dir = u at hload
  -- a call that finds the folder unloaded, and creates nothing, finds nothing
  have hnofile : Waiting dir m r u → ∀ name, ¬HasFile u dir name := by
    intro hwait name hhas
    exact hhas (by rw [hwait.unloaded.fileMap]; rfl)
  obtain ⟨c, hcase, hstep⟩ := fsStep_cases s op
  rw [hstep]
  cases hcase with
  | refused => exact h
  | mkdir hdir =>
    obtain rfl := Option.some.inj ((Eq.symm hworks).trans hdir)
    rcases hload with ⟨-, hcreates⟩ | ⟨hholds, -⟩
    · exact absurd trivial hcreates
    · exact Or.inr (hholds.mkdirIn hu _)
  | touch hparse =>
    obtain ⟨file, hpath⟩ := hworks
    obtain rfl := Except.ok.inj (hparse.symm.trans hpath)
    rcases hload with ⟨-, hcreates⟩ | ⟨hholds, -⟩
    · exact absurd trivial hcreates
    · exact Or.inr (hholds.touchIn hu file)
  | @rmdir name _ _ hdir =>
    obtain rfl := Option.some.inj ((Eq.symm hworks).trans hdir)
    rcases hload with ⟨hwait, -⟩ | ⟨hholds, -⟩
    · refine Or.inl ?_
      rcases rmdirIn_cases hu name with heq | ⟨info, map, mem, hfind, -⟩
      · exact heq.symm ▸ hwait
      · rw [hwait.unloaded.foderMap] at hfind
        exact absurd hfind (by rw [ramfsHashmapFind, foderTable.find_empty]; simp)
    · exact Or.inr (hholds.rmdirIn hu fun e he heq => hspares.foders e he heq.symm)
  | @rm name _ _ hparse =>
    obtain ⟨file, hpath⟩ := hworks
    obtain rfl := Except.ok.inj (hparse.symm.trans hpath)
    obtain rfl : file = lastComponent name := parsePath_snd hpath
    rcases hload with ⟨hwait, -⟩ | ⟨hholds, hnamed⟩
    · refine Or.inl ?_
      rcases rmIn_cases hu (lastComponent name) with heq | ⟨map, mem, hhas, -⟩
      · exact heq.symm ▸ hwait
      · exact absurd hhas (hnofile hwait _)
    · exact Or.inr (hholds.rmIn hu (hnamed _ rfl) fun e he heq => hspares.files e he heq.symm)
  | @write name data _ _ hdir =>
    obtain rfl := Option.some.inj ((Eq.symm hworks).trans hdir)
    rcases hload with ⟨hwait, -⟩ | ⟨hholds, hnamed⟩
    · refine Or.inl ?_
      rcases writeIn_cases hu name data with ⟨mem, hnext, heq⟩ | ⟨hhas, -⟩
      · have hmem : Waiting dir m r (u.setMem mem) :=
          ⟨⟨hwait.unloaded.type, hwait.unloaded.foderMap, hwait.unloaded.fileMap,
            hwait.unloaded.mount⟩, hwait.lt_next.trans_le hnext, hwait.record⟩
        exact heq.symm ▸ hmem
      · exact absurd hhas (hnofile hwait _)
    · exact Or.inr (hholds.writeIn hu (hnamed _ rfl)
        (fun e he heq => hspares.still e he heq.symm) data)
  | _ => exact hworks.elim

/-- A folder that is saved as a whole writes the entries that it has. -/
theorem Holds.mem_diskRecord (h : Holds dir foders files still s) (hsave : SaveSafe (s.folders dir)) :
    (∀ e ∈ foders, e ∈ (diskRecord (s.folders dir)).subfolders) ∧
      ∀ e ∈ files, ∃ e' ∈ (diskRecord (s.folders dir)).files,
        e'.name = e.name ∧ e'.driveAddr = e.driveAddr ∧ (e ∈ still → e'.length = e.length) := by
  rw [diskRecord_subfolders, diskRecord_files, List.take_of_length_le hsave.foders_le,
    List.take_of_length_le hsave.files_le]
  constructor
  · intro e he
    obtain ⟨nd, hnd, -, hname, haddr⟩ := h.foders e he
    exact List.mem_map.2 ⟨nd, hnd, by rw [foderEntry, hname, haddr]⟩
  · intro e he
    obtain ⟨nd, hnd, hkey, haddr, hlength⟩ := h.files e he
    exact ⟨fileEntry nd, List.mem_map_of_mem hnd, (h.named nd hnd).trans hkey, haddr, hlength⟩

/-- The first load is complete, or reads nothing. -/
theorem Waiting.load (h : Waiting dir m r s) (hused : r.used ≠ 0) (hr : r.Loadable)
    (hfoders : foders ⊆ r.subfolders) (hfiles : files ⊆ r.files)
    (hload : RecordReadable s dir m → s.mem.Grants (recordOf s dir m).allocations) :
    (dfsLoadFolderChildren s dir).1 = 0 ∧
        Holds dir foders files still (dfsLoadFolderChildren s dir).2 ∨
      Waiting dir m r (dfsLoadFolderChildren s dir).2 := by
  by_cases hread : RecordReadable s dir m
  · obtain ⟨hok, hholds, -⟩ := h.holds_load hused hr hfoders hfiles hread (hload hread)
    exact Or.inl ⟨hok, hholds⟩
  · rw [dfsLoadFolderChildren_of_not_readable h.unloaded hread]
    exact Or.inr h.afterRead

/-- **A run of calls.** What no call takes is in the folder at the end. -/
theorem Waiting.holds_of_run {ops : List FsOp} (h : Waiting dir m r s) (hused : r.used ≠ 0)
    (hr : r.Loadable) (hfoders : foders ⊆ r.subfolders) (hfiles : files ⊆ r.files)
    (hne : foders ≠ [] ∨ files ≠ []) (hspares : ∀ op ∈ ops, Spares foders files still op)
    (hload : RecordReadable s dir m → s.mem.Grants (recordOf s dir m).allocations)
    (hops : Along fsStep (LoadSafe dir m) (dfsLoadFolderChildren s dir).2 ops)
    (hsave : SaveSafe ((ops.foldl fsStep (dfsLoadFolderChildren s dir).2).folders dir)) :
    Holds dir foders files still (ops.foldl fsStep (dfsLoadFolderChildren s dir).2) := by
  have hstart : StillThere dir m r foders files still (dfsLoadFolderChildren s dir).2 :=
    (h.load hused hr hfoders hfiles hload).symm.imp id And.right
  have hkept : StillThere dir m r foders files still (ops.foldl fsStep (dfsLoadFolderChildren s dir).2) :=
    Along.invariant (fun t op ht hop => ht.step hne hused hr hfoders hfiles hop.1 hop.2) hstart
      (hops.and (Along.of_mem _ hspares))
  exact hkept.resolve_left fun hwait => hsave.loaded hwait.unloaded.notLoaded

end Run

/-- **When a failed load loses nothing.** For every unloaded folder of a mount, every record of it
that is in use and in which no entry is taken for another, and every run of calls in the folder:
if the first load, when it can read the record, gets its memory, and every call is safe, then the
first load leaves both tables empty when it fails, and whatever was not removed is in the record
that a save of the folder writes. -/
theorem failedLoad_keeps_entries (s : Fs) (dir : Ptr) (m : ℕ) (ops : List FsOp)
    (h : Unloaded s dir m) (hdir : dir < s.mem.next) (hused : (recordOf s dir m).used ≠ 0)
    (hr : (recordOf s dir m).Loadable)
    (hload : RecordReadable s dir m → s.mem.Grants (recordOf s dir m).allocations)
    (hops : Along fsStep (LoadSafe dir m) (dfsLoadFolderChildren s dir).2 ops)
    (hsave : SaveSafe ((ops.foldl fsStep (dfsLoadFolderChildren s dir).2).folders dir)) :
    ((dfsLoadFolderChildren s dir).1 ≠ 0 →
      ((dfsLoadFolderChildren s dir).2.folders dir).foderMap = Table.empty ∧
        ((dfsLoadFolderChildren s dir).2.folders dir).fileMap = Table.empty) ∧
      EntriesKept (recordOf s dir m) ops
        (diskRecord ((ops.foldl fsStep (dfsLoadFolderChildren s dir).2).folders dir)) := by
  have hwait : Waiting dir m (recordOf s dir m) s := ⟨h, hdir, rfl⟩
  refine ⟨fun hfail => ?_, fun e he hkeep => ?_, fun e he hkeep => ?_⟩
  · have hfirst : (dfsLoadFolderChildren s dir).1 = 0 ∧
          Holds dir [] [] [] (dfsLoadFolderChildren s dir).2 ∨
        Waiting dir m (recordOf s dir m) (dfsLoadFolderChildren s dir).2 :=
      hwait.load hused hr (List.nil_subset _) (List.nil_subset _) hload
    rcases hfirst with ⟨hok, -⟩ | hstill
    · exact absurd hok hfail
    · exact ⟨hstill.unloaded.foderMap, hstill.unloaded.fileMap⟩
  · -- the run keeps the list of this one subfolder
    have hholds : Holds dir [e] [] [] (ops.foldl fsStep (dfsLoadFolderChildren s dir).2) :=
      hwait.holds_of_run hused hr (List.cons_subset.2 ⟨he, List.nil_subset _⟩) (List.nil_subset _)
        (Or.inl (List.cons_ne_nil _ _))
        (fun op hop => ⟨by simpa using hkeep op hop, by simp, by simp⟩) hload hops hsave
    exact (hholds.mem_diskRecord hsave).1 e List.mem_cons_self
  · -- the run keeps the list of this one file, as it is if no call writes to it
    have hholds : ∀ still, (∀ op ∈ ops, ∀ d ∈ still, ¬op.WritesFile d.name) →
        Holds dir [] [e] still (ops.foldl fsStep (dfsLoadFolderChildren s dir).2) :=
      fun still hstill => hwait.holds_of_run hused hr (List.nil_subset _)
        (List.cons_subset.2 ⟨he, List.nil_subset _⟩) (Or.inr (List.cons_ne_nil _ _))
        (fun op hop => ⟨by simp, by simpa using hkeep op hop, hstill op hop⟩) hload hops hsave
    by_cases hwrites : ∀ op ∈ ops, ¬op.WritesFile e.name
    · obtain ⟨e', he', hname, haddr, hlength⟩ := ((hholds [e] fun op hop => by
        simpa using hwrites op hop).mem_diskRecord hsave).2 e List.mem_cons_self
      exact ⟨e', he', hname, haddr, fun _ => hlength List.mem_cons_self⟩
    · obtain ⟨e', he', hname, haddr, -⟩ := ((hholds [] (by simp)).mem_diskRecord hsave).2 e
        List.mem_cons_self
      exact ⟨e', he', hname, haddr, fun hnot => absurd hnot hwrites⟩

/-! ### A store that fails twice -/

/-- The root directory as an unloaded folder, over a store whose first `n` requests fail. -/
def faultyState (n : ℕ) (r : DiskFolder) : Fs :=
  (unloadedState r).setStore { (unloadedState r).disk.store with fault := fun k => decide (k < n) }

theorem unloaded_faultyState (n : ℕ) (r : DiskFolder) : Unloaded (faultyState n r) rootPtr 0 :=
  ⟨rfl, rfl, rfl, rfl⟩

/-- When the first load alone fails, the call of `fs_touch` loads the directory, and both files of
the record are saved with the new one. -/
theorem failedLoad_keeps_twoFiles :
    EntriesKept (recordOf (faultyState 1 twoFilesRecord) rootPtr 0) [.touch ⟨[120], by decide⟩ none]
      (diskRecord (([FsOp.touch ⟨[120], by decide⟩ none].foldl fsStep
        (dfsLoadFolderChildren (faultyState 1 twoFilesRecord) rootPtr).2).folders rootPtr)) :=
  (failedLoad_keeps_entries (faultyState 1 twoFilesRecord) rootPtr 0
    [.touch ⟨[120], by decide⟩ none] (unloaded_faultyState 1 _) (by decide) (by decide +kernel)
    ⟨by decide +kernel, by decide +kernel, by decide +kernel, by decide +kernel⟩
    (fun _ => by decide +kernel)
    ⟨⟨⟨⟨[120], by decide⟩, rfl⟩, by decide +kernel, id, fun _ => Or.inl (by decide +kernel),
      fun _ hname => nomatch hname⟩, trivial⟩
    ⟨by rw [NotLoaded]; decide +kernel, by decide +kernel, by decide +kernel⟩).2

/-- When the load of the call fails as well, the call takes the directory for an empty one, and
the save leaves out both files of the record. -/
theorem failedLoad_loses_twoFiles :
    ¬∀ (s : Fs) (dir : Ptr) (m : ℕ) (ops : List FsOp), Unloaded s dir m → dir < s.mem.next →
      ValidRecord (recordOf s dir m) → FilesApart (recordOf s dir m).files →
      Along fsStep (fun t op => op.WorksIn dir t) (dfsLoadFolderChildren s dir).2 ops →
      (dfsSaveFolderToDisk (ops.foldl fsStep (dfsLoadFolderChildren s dir).2) dir
        ((ops.foldl fsStep (dfsLoadFolderChildren s dir).2).mountTable m).part).1 = true →
      EntriesKept (recordOf s dir m) ops
        (diskRecord ((ops.foldl fsStep (dfsLoadFolderChildren s dir).2).folders dir)) := by
  intro h
  have hkept := h (faultyState 2 twoFilesRecord) rootPtr 0 [.touch ⟨[120], by decide⟩ none]
    (unloaded_faultyState 2 _) (by decide)
    ⟨by decide +kernel, by decide +kernel, by decide +kernel, by decide +kernel, by decide +kernel,
      by decide +kernel, by decide +kernel⟩
    (by decide +kernel) ⟨⟨⟨[120], by decide⟩, rfl⟩, trivial⟩ (by decide +kernel)
  obtain ⟨e', he', hname, -⟩ := hkept.files ⟨⟨[97], by decide⟩, 3, 50000⟩ (by decide +kernel)
    (by simp [FsOp.RemovesFile])
  have hall : ∀ e ∈ (diskRecord (([FsOp.touch ⟨[120], by decide⟩ none].foldl fsStep
      (dfsLoadFolderChildren (faultyState 2 twoFilesRecord) rootPtr).2).folders rootPtr)).files,
      e.name ≠ ⟨[97], by decide⟩ := by
    decide +kernel
  exact hall e' he' hname

end LittleLinux
