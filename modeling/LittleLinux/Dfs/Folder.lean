import LittleLinux.Ramfs.State

/-!
# Folders and file data on the disk

How a folder comes from the disk and goes back. There are two loaders:
`dfs_load_folder_from_disk`, used for the root of a mount, and `dfs_load_folder_children`, used
for the folders below it. Both read a folder record and enter its subfolders and files into the
tables of the folder, one by one. They differ in the fields of the new subfolder objects (only
the second sets `mount` and `parent`) and in what they do with a name that the table already
holds (only the second skips it); `loadSubfolders` and `loadFiles` are their common loops.

`dfs_save_folder_to_disk` writes the first 128 entries of each table, in bucket order.
-/

namespace LittleLinux

/-! ### Loading -/

/-- Enter the folder object `node`, at address `sub`, into the table of `dir`. The result of
the insertion is not looked at. -/
def addSubfolder (s : Fs) (dir sub : Ptr) (node : RamfsFoder) (info : RamfsFoderInfo) : Fs :=
  let s := s.setFolder sub node
  let r := ramfsHashmapInsert s.mem (s.folders dir).foderMap info.name info
  (s.modifyFolder dir (·.setFoderMap r.2.1)).setMem r.2.2

/-- Enter a file into the table of `dir`. The result of the insertion is not looked at. -/
def addFile (s : Fs) (dir : Ptr) (finfo : RamfsFileInfo) : Fs :=
  let r := ramfsFileHashmapInsert s.mem (s.folders dir).fileMap finfo.name finfo
  (s.modifyFolder dir (·.setFileMap r.2.1)).setMem r.2.2

/-- The loop over the subfolder entries; `false` when an object cannot be allocated. -/
def loadSubfolders (skipKnown : Bool) (mount : Option ℕ) (parent : Option Ptr) (dir : Ptr) :
    List DiskFoderInfo → Fs → Bool × Fs
  | [], s => (true, s)
  | e :: es, s =>
    if skipKnown ∧ (ramfsHashmapFind (s.folders dir).foderMap e.name).isSome then
      loadSubfolders skipKnown mount parent dir es s
    else
      let a := s.mem.malloc sizeofRamfsFoder
      match a.1 with
      | none => (false, s.setMem a.2)
      | some sub =>
        let node : RamfsFoder :=
          { RamfsFoder.zero with
            name := e.name
            type := RAMFS_FOLDER_TYPE_DISK_CLEAN
            driveAddr := e.driveAddr
            mount := mount
            parent := parent }
        loadSubfolders skipKnown mount parent dir es
          (addSubfolder (s.setMem a.2) dir sub node
            ⟨e.name, RAMFS_FOLDER_TYPE_DISK_CLEAN, sub, e.driveAddr⟩)

/-- The loop over the file entries; the data stays on the disk. -/
def loadFiles (skipKnown : Bool) (dir : Ptr) : List DiskFileInfo → Fs → Fs
  | [], s => s
  | e :: es, s =>
    if skipKnown ∧ (ramfsFileHashmapFind (s.folders dir).fileMap e.name).isSome then
      loadFiles skipKnown dir es s
    else loadFiles skipKnown dir es (addFile s dir ⟨e.name, 0, e.length, none, e.driveAddr⟩)

/-- `dfs_load_folder_from_disk`. -/
def dfsLoadFolderFromDisk (s : Fs) (dir : Ptr) (id : PartId) (diskOffset : ℕ) : ℤ × Fs :=
  let r := s.disk.store.read id diskOffset sizeofDiskFolder
  match r.1 with
  | none => (-1, s.setStore r.2)
  | some b =>
    let diskF := DiskFolder.decode b
    if diskF.used = 0 then (-2, s.setStore r.2)
    else
      let s := (s.setStore r.2).modifyFolder dir fun f =>
        { f with
          name := diskF.name
          type := RAMFS_FOLDER_TYPE_DISK_CLEAN
          driveAddr := diskOffset
          isMountRoot := false
          foderMap := ramfsHashmapInit
          fileMap := ramfsFileHashmapInit }
      let t := loadSubfolders false none none dir diskF.subfolders s
      if t.1 = false then (-3, t.2) else (0, loadFiles false dir diskF.files t.2)

/-- `dfs_load_folder_children`. -/
def dfsLoadFolderChildren (s : Fs) (dir : Ptr) : ℤ × Fs :=
  let f := s.folders dir
  if f.type ≠ RAMFS_FOLDER_TYPE_DISK_CLEAN then (-1, s)
  else if f.foderMap.count ≠ 0 ∨ f.fileMap.count ≠ 0 then (0, s)
  else
    match f.mount with
    | none => (-2, s)
    | some m =>
      let r := s.disk.store.read (s.mountTable m).part (toU32 f.driveAddr) sizeofDiskFolder
      match r.1 with
      | none => (-3, s.setStore r.2)
      | some b =>
        let diskF := DiskFolder.decode b
        if diskF.used = 0 then (-4, s.setStore r.2)
        else
          let t := loadSubfolders true (some m) (some dir) dir diskF.subfolders (s.setStore r.2)
          if t.1 = false then (-5, t.2) else (0, loadFiles true dir diskF.files t.2)

/-- `dfs_load_file_data`: the entry with its data, read from the partition when it is not in
memory yet. -/
def dfsLoadFileData (mem : Memory) (st : Store) (finfo : RamfsFileInfo) (id : PartId) :
    ℤ × RamfsFileInfo × Memory × Store :=
  if finfo.ptr ≠ none ∨ finfo.length = 0 then (0, finfo, mem, st)
  else
    let a := mem.malloc (toU32 finfo.length)
    match a.1 with
    | none => (-2, finfo, a.2, st)
    | some data =>
      let r := st.read id (toU64 finfo.driveAddr) (toI32 finfo.length)
      match r.1 with
      | none => (-3, finfo, a.2.free data, r.2)
      | some b =>
        (0, { finfo with ptr := some ⟨data, (List.range (toI32 finfo.length).toNat).map b⟩ },
          a.2, r.2)

/-! ### Saving -/

/-- The record that `dfs_save_folder_to_disk` fills in. -/
def diskRecord (f : RamfsFoder) : DiskFolder where
  name := f.name
  used := 1
  subfolders := (f.foderMap.nodes.take DFS_MAX_SUB_ENTRIES).map fun nd =>
    ⟨nd.value.name, nd.value.driveAddr⟩
  files := (f.fileMap.nodes.take DFS_MAX_SUB_ENTRIES).map fun nd =>
    ⟨nd.value.name, nd.value.length, nd.value.driveAddr⟩

/-- `dfs_save_folder_to_disk`: whether the write succeeded. -/
def dfsSaveFolderToDisk (s : Fs) (p : Ptr) (id : PartId) : Bool × Fs :=
  let f := s.folders p
  let w := s.disk.store.write id (toU32 f.driveAddr) sizeofDiskFolder (diskRecord f).encode
  (w.1, s.setStore w.2)

end LittleLinux
