import LittleLinux.Dfs.Sync
import LittleLinux.Ramfs.Ops
import LittleLinux.Lib.Run

/-!
# Mounting

`dfs_mount`, `dfs_umount` and `dfs_free_folder_tree`, and the whole system as a state machine:
`FsOp` is a call of the file system, `fsStep` its effect.

`dfs_mount` enters the new root as a child of the directory it is mounted on, under the last
component of the path, and `dfs_umount` deletes that name from the parent of the directory;
both are as in the source. `dfs_umount` moves the later entries of the table down by one.
-/

namespace LittleLinux

/-- `is_directory_empty`. -/
def isDirectoryEmpty (f : RamfsFoder) : Bool := f.foderMap.count == 0 && f.fileMap.count == 0

/-- What follows the last slash of a path, or all of it. -/
def lastComponent (path : CString) : CString :=
  match splitLast path with
  | some r => r.2
  | none => path

/-- The name that `parsePath` cuts off. -/
theorem parsePath_snd {s : Fs} {name : CString} {path : Option CString} {found : Ptr × CString}
    (h : parsePath s name path = .ok found) : found.2 = lastComponent name := by
  rw [parsePath] at h
  rw [lastComponent]
  cases hsplit : splitLast name with
  | none =>
    rw [hsplit] at h
    dsimp only at h ⊢
    cases hdir : fromDir s path with
    | none =>
      rw [hdir] at h
      exact absurd h (by simp)
    | some q =>
      rw [hdir] at h
      obtain rfl := Except.ok.inj h
      rfl
  | some cut =>
    rw [hsplit] at h
    dsimp only at h ⊢
    by_cases hempty : cut.2.chars = []
    · rw [if_pos hempty] at h
      exact absurd h (by simp)
    rw [if_neg hempty] at h
    split at h
    · obtain rfl := Except.ok.inj h
      rfl
    · exact absurd h (by simp)

theorem length_lastComponent_le (path : CString) :
    (lastComponent path).chars.length ≤ path.chars.length := by
  rw [lastComponent, splitLast]
  split
  · next r hr =>
    split at hr
    · next cut hcut =>
      obtain rfl := Option.some.inj hr
      exact length_of_strrchr hcut
    · exact absurd hr (by simp)
  · exact le_refl _

/-- Fill the entry at `mount_count`, and count it. -/
def Fs.pushMount (s : Fs) (mp : DfsMountPoint) : Fs :=
  { s with
    mountTable := Function.update s.mountTable s.mountCount mp
    mountCount := s.mountCount + 1
    mountWrites := s.mountCount :: s.mountWrites }

section Fields

variable (s : Fs) (mp : DfsMountPoint)

@[simp] theorem Fs.pushMount_mem : (s.pushMount mp).mem = s.mem := rfl
@[simp] theorem Fs.pushMount_folders : (s.pushMount mp).folders = s.folders := rfl
@[simp] theorem Fs.pushMount_currentDir : (s.pushMount mp).currentDir = s.currentDir := rfl
@[simp] theorem Fs.pushMount_mountCount : (s.pushMount mp).mountCount = s.mountCount + 1 := rfl

@[simp]
theorem Fs.pushMount_mountTable_self : (s.pushMount mp).mountTable s.mountCount = mp :=
  Function.update_self _ _ _

end Fields

/-- `dfs_mount`. -/
def dfsMount (s : Fs) (mountpoint : CString) (id : PartId) : ℤ × Fs :=
  match ramfsGetDirByAbsPath s mountpoint with
  | none => (-1, s)
  | some mountParent =>
    if isDirectoryEmpty (s.folders mountParent) = false then (-2, s)
    else
      let r := readSuperblock s.disk.store id
      match r.1 with
      | none => (-3, s.setStore r.2)
      | some sb =>
        if sb.magic ≠ DFS_MAGIC then (-4, s.setStore r.2)
        else
          let a := s.mem.malloc sizeofRamfsFoder
          match a.1 with
          | none => (-5, (s.setStore r.2).setMem a.2)
          | some rootDir =>
            let s := ((s.setStore r.2).setMem a.2).setFolder rootDir RamfsFoder.zero
            let l := dfsLoadFolderFromDisk s rootDir id sb.rootPointer
            if l.1 ≠ 0 then (-6, l.2.setMem (l.2.mem.free rootDir))
            else
              let s := l.2.modifyFolder rootDir fun f =>
                { f with isMountRoot := true, mount := some l.2.mountCount }
              let last := lastComponent mountpoint
              let ins := ramfsHashmapInsert s.mem (s.folders mountParent).foderMap last
                ⟨last, RAMFS_FOLDER_TYPE_DISK_CLEAN, rootDir, toI32 sb.rootPointer⟩
              if ins.1 = false then (-7, s.setMem (ins.2.2.free rootDir))
              else
                (0, ((s.modifyFolder mountParent (·.setFoderMap ins.2.1)).setMem ins.2.2).pushMount
                  ⟨mountpoint, id, rootDir⟩)

/-- `dfs_free_folder_tree`, with a bound on the depth of its recursion. -/
def freeFolderTree : ℕ → Fs → Ptr → Fs
  | 0, s, _ => s
  | fuel + 1, s, p =>
    let s := (s.folders p).foderMap.nodes.foldl (fun s nd => freeFolderTree fuel s nd.value.ptr) s
    let mem := (s.folders p).fileMap.nodes.foldl (fun m nd => freeData m nd.value) s.mem
    let d := ramfsHashmapDestroy mem (s.folders p).foderMap
    let e := ramfsFileHashmapDestroy d.2 (s.folders p).fileMap
    (s.modifyFolder p fun f => (f.setFoderMap d.1).setFileMap e.1).setMem (e.2.free p)

/-- The two pieces that `dfs_umount` cuts a mount path into: the path of the parent directory
and the name to delete there. For a path directly under the root, the buffer holding the name
is overwritten by `"/"`, and the name is empty. -/
def umountParent (path : CString) : CString × CString :=
  match splitLast path with
  | some r => if r.1.chars = [] then (slashString, ⟨[], CString.noNul_nil⟩) else r
  | none => (slashString, ⟨[], CString.noNul_nil⟩)

/-- The entries after `idx` move down. -/
def shiftMounts (table : ℕ → DfsMountPoint) (idx count : ℕ) : ℕ → DfsMountPoint := fun i =>
  if idx ≤ i ∧ i + 1 < count then table (i + 1) else table i

/-- Delete the entry `idx`: the later ones move down, each with a store to the table. -/
def Fs.dropMount (s : Fs) (idx : ℕ) : Fs :=
  { s with
    mountTable := shiftMounts s.mountTable idx s.mountCount
    mountCount := s.mountCount - 1
    mountWrites := (List.range' idx (s.mountCount - 1 - idx)).reverse ++ s.mountWrites }

section Fields

variable (s : Fs) (idx : ℕ)

@[simp] theorem Fs.dropMount_mem : (s.dropMount idx).mem = s.mem := rfl
@[simp] theorem Fs.dropMount_folders : (s.dropMount idx).folders = s.folders := rfl
@[simp] theorem Fs.dropMount_currentDir : (s.dropMount idx).currentDir = s.currentDir := rfl

end Fields

/-- `dfs_umount`. -/
def dfsUmount (s : Fs) (mountpoint : CString) : ℤ × Fs :=
  match (List.range s.mountCount).find? fun i => streq (s.mountTable i).path mountpoint with
  | none => (-1, s)
  | some idx =>
    let mp := s.mountTable idx
    let s := (dfsSyncFolder s mp.rootDir).2
    let cut := umountParent mp.path
    let s := match ramfsGetDirByAbsPath s cut.1 with
      | some parentDir =>
        let r := ramfsHashmapDelete s.mem (s.folders parentDir).foderMap cut.2
        (s.modifyFolder parentDir (·.setFoderMap r.2.1)).setMem r.2.2
      | none => s
    (0, (freeFolderTree (s.mem.next + 1) s mp.rootDir).dropMount idx)

/-! ### The whole system -/

/-- A call of the file system. -/
inductive FsOp where
  | mkdir (name : CString) (dir : Option CString)
  | cd (path : CString)
  | rm (name : CString) (dir : Option CString)
  | rmdir (name : CString) (dir : Option CString)
  | touch (name : CString) (dir : Option CString)
  | write (name : CString) (data : Data) (dir : Option CString)
  | cat (name : CString) (dir : Option CString)
  | backspace (name : CString) (count : ℤ) (dir : Option CString)
  | syncFolder (p : Ptr)
  | syncAll
  | mount (path : CString) (id : PartId)
  | umount (path : CString)

/-- What a call answers and does. `dfs_sync_all` answers nothing, which is `0` here. -/
def fsCall (s : Fs) : FsOp → ℤ × Fs
  | .mkdir name dir => fsMkdir s name dir
  | .cd path => fsCd s path
  | .rm name dir => fsRm s name dir
  | .rmdir name dir => fsRmdir s name dir
  | .touch name dir => fsTouch s name dir
  | .write name data dir => fsWrite s name data dir
  | .cat name dir => fsCat s name dir
  | .backspace name count dir => fsBackspace s name count dir
  | .syncFolder p => dfsSyncFolder s p
  | .syncAll => (0, dfsSyncAll s)
  | .mount path id => dfsMount s path id
  | .umount path => dfsUmount s path

/-- The state after a call. -/
def fsStep (s : Fs) (op : FsOp) : Fs := (fsCall s op).2

/-- The state after `fs_init`. -/
def initState (mem : Memory) (store : Store) : Fs := fsInit (bootState mem store)

theorem initState_folder (mem : Memory) (store : Store) {p : Ptr} (h₀ : p ≠ rootPtr) :
    (initState mem store).folders p = RamfsFoder.zero :=
  show Function.update (bootState mem store).folders rootPtr _ p = _ from
    Function.update_of_ne h₀ _ _

/-! ### The outcome of a call -/

/-- What a call comes to: it answers at once and leaves everything as it is, or it is its own part
in the directory that its path names. The calls of the disk layer stay whole. -/
inductive FsOutcome (s : Fs) : FsOp → ℤ × Fs → Prop
  | refused (op : FsOp) (code : ℤ) : FsOutcome s op (code, s)
  | mkdir {name path dir} (hdir : fromDir s path = some dir) (hlen : name.chars.length < 128) :
    FsOutcome s (.mkdir name path) (mkdirIn s dir name)
  | cd {path dir} (hdir : getDirByPath s.folders s.currentDir path = some dir) :
    FsOutcome s (.cd path) (0, s.moveTo dir)
  | rm {name path r} (hparse : parsePath s name path = .ok r) :
    FsOutcome s (.rm name path) (rmIn s r.1 r.2)
  | rmdir {name path dir} (hdir : fromDir s path = some dir) :
    FsOutcome s (.rmdir name path) (rmdirIn s dir name)
  | touch {name path r} (hparse : parsePath s name path = .ok r) (hlen : r.2.chars.length < 128) :
    FsOutcome s (.touch name path) (touchIn s r.1 r.2)
  | write {name data path dir} (hdir : fromDir s path = some dir) :
    FsOutcome s (.write name data path) (writeIn s dir name data)
  | cat {name path dir} (hdir : fromDir s path = some dir) :
    FsOutcome s (.cat name path) (catIn s dir name)
  | backspace {name count path r} (hparse : parsePath s name path = .ok r) (hpos : 0 < count) :
    FsOutcome s (.backspace name count path) (backspaceIn s r.1 r.2 count)
  | syncFolder (p : Ptr) : FsOutcome s (.syncFolder p) (dfsSyncFolder s p)
  | syncAll : FsOutcome s .syncAll (0, dfsSyncAll s)
  | mount (path : CString) (id : PartId) : FsOutcome s (.mount path id) (dfsMount s path id)
  | umount (path : CString) : FsOutcome s (.umount path) (dfsUmount s path)

/-- **The cases of a call.** -/
theorem fsCall_cases (s : Fs) (op : FsOp) : ∃ r, FsOutcome s op r ∧ fsCall s op = r := by
  refine ⟨fsCall s op, ?_, rfl⟩
  cases op with
  | mkdir name path =>
    rw [fsCall, fsMkdir, strlen_chars]
    split_ifs with hlen
    · exact .refused _ _
    cases hdir : fromDir s path with
    | none => exact .refused _ _
    | some dir => exact .mkdir hdir (by omega)
  | cd path =>
    rw [fsCall]
    rcases fsCd_cases s path with heq | ⟨dir, hdir, heq⟩
    · rw [heq]
      exact .refused _ _
    · rw [heq]
      exact .cd hdir
  | rm name path =>
    rw [fsCall, fsRm]
    split_ifs
    · exact .refused _ _
    cases hparse : parsePath s name path with
    | error e => exact .refused _ _
    | ok r => exact .rm hparse
  | rmdir name path =>
    rw [fsCall, fsRmdir]
    cases hdir : fromDir s path with
    | none => exact .refused _ _
    | some dir => exact .rmdir hdir
  | touch name path =>
    rw [fsCall, fsTouch, strlen_chars]
    split_ifs with hlen
    · exact .refused _ _
    cases hparse : parsePath s name path with
    | error e => exact .refused _ _
    | ok r =>
      -- the source bounds the whole path, and with it the component that it enters
      have hle := length_lastComponent_le name
      rw [← parsePath_snd hparse] at hle
      exact .touch hparse (by omega)
  | write name data path =>
    rw [fsCall, fsWrite]
    cases hdir : fromDir s path with
    | none => exact .refused _ _
    | some dir => exact .write hdir
  | cat name path =>
    rw [fsCall, fsCat]
    cases hdir : fromDir s path with
    | none => exact .refused _ _
    | some dir => exact .cat hdir
  | backspace name count path =>
    rw [fsCall, fsBackspace]
    split_ifs with hneg hzero
    · exact .refused _ _
    · exact .refused _ _
    cases hparse : parsePath s name path with
    | error e => exact .refused _ _
    | ok r => exact .backspace hparse (by omega)
  | syncFolder p => exact .syncFolder p
  | syncAll => exact .syncAll
  | mount path id => exact .mount path id
  | umount path => exact .umount path

theorem fsStep_cases (s : Fs) (op : FsOp) : ∃ r, FsOutcome s op r ∧ fsStep s op = r.2 := by
  obtain ⟨r, hr, heq⟩ := fsCall_cases s op
  exact ⟨r, hr, congrArg Prod.snd heq⟩

/-! ### Calls that fit the buffers -/

/-- The arguments that a call copies into a buffer of 512 bytes. -/
def FsOp.paths : FsOp → List CString
  | .mkdir _ dir => dir.toList
  | .cd path => [path]
  | .rm name dir => name :: dir.toList
  | .rmdir _ dir => dir.toList
  | .touch name dir => name :: dir.toList
  | .write _ _ dir => dir.toList
  | .cat _ dir => dir.toList
  | .backspace name _ dir => name :: dir.toList
  | .mount path _ => [path]
  | .syncFolder _ | .syncAll | .umount _ => []

/-- `dfs_mount` comes to store into the mount table, unless an allocation or a read fails: its
path names an empty directory, and the partition is formatted. -/
def MountReady (s : Fs) (path : CString) (id : PartId) : Prop :=
  ∃ dir sb st, ramfsGetDirByAbsPath s path = some dir ∧ isDirectoryEmpty (s.folders dir) = true ∧
    readSuperblock s.disk.store id = (some sb, st) ∧ sb.magic = DFS_MAGIC

end LittleLinux
