import LittleLinux.Dfs.FreeTree
import LittleLinux.Dfs.RecordBounds

/-!
# Calls that use live blocks, and that fit the buffers

`malloc.c` puts a block that is released at the head of its free list and hands it out again at
once, while in `Memory` no address is handed out twice. The two agree as long as no released block
is used. `FsOp.blocks` lists what a call looks at and what it releases of the heap, read off the
state before the call: the folders its paths lead through, those whose parent pointers it follows,
the folder it removes, the data of the file it works on, and for a synchronisation or an unmount
the trees it walks. `FsOp.UsesLive` says that none of these was released, and that an unmount
releases nothing twice.

`FsOp.FitsBuffers` says in the same way that what the call copies fits the arrays it is copied to,
and that a mount finds its place in the mount table; `FsOp.InBounds` is both.
-/

namespace LittleLinux

/-! ### What a walk looks at -/

/-- The folders that the walk of `_get_dir_by_path` from `cur` comes to. -/
def walkedParts (folders : Ptr → RamfsFoder) : Ptr → List CString → List Ptr
  | cur, [] => [cur]
  | cur, part :: rest =>
    if part.chars = [] then walkedParts folders cur rest
    else if part.chars = [46] then walkedParts folders cur rest
    else if part.chars = [46, 46] then
      cur :: match (folders cur).parent with
        | some p => walkedParts folders p rest
        | none => []
    else
      cur :: match ramfsHashmapFind (folders cur).foderMap part with
        | some info => walkedParts folders info.ptr rest
        | none => []

/-- The folders that `_get_dir_by_path` comes to. -/
def walkedPath (folders : Ptr → RamfsFoder) (base : Ptr) (path : CString) : List Ptr :=
  if path.chars = [] then []
  else if path.chars.head? = some 47 then walkedParts folders rootPtr (components path.tail)
  else walkedParts folders base (components path)

/-- The folders on the way to `fromDir`. -/
def walkedFrom (s : Fs) (dir : Option CString) : List Ptr :=
  match dir with
  | some path => walkedPath s.folders s.currentDir path
  | none => [s.currentDir]

/-- The folders on the way to the one that `parsePath` finds. -/
def walkedParse (s : Fs) (name : CString) (dir : Option CString) : List Ptr :=
  match splitLast name with
  | none => walkedFrom s dir
  | some (path, fileName) =>
    if fileName.chars = [] then []
    else if path.chars.head? = some 47 then walkedPath s.folders rootPtr path
    else
      walkedFrom s dir ++
        ((fromDir s dir).toList.flatMap fun base => walkedPath s.folders base path)

/-- The folders that `build_absolute_path` comes to. -/
def walkedUp (folders : Ptr → RamfsFoder) : ℕ → Ptr → List Ptr
  | 0, _ => []
  | fuel + 1, dir =>
    dir :: match (folders dir).parent with
      | some p => if dir ≠ rootPtr then walkedUp folders fuel p else []
      | none => []

/-! ### What a call looks at -/

/-- The data of a file. -/
def dataBlock (finfo : RamfsFileInfo) : List Ptr := (finfo.ptr.map Buffer.addr).toList

/-- The data of the file that is found in the folder `dir` under a name. -/
def fileBlocks (s : Fs) (dir : Ptr) (name : CString) : List Ptr :=
  (ramfsFileHashmapFind ((lazyLoadDirectory s dir).folders dir).fileMap name).toList.flatMap dataBlock

/-- The folder that is found in the folder `dir` under a name. -/
def entryBlock (s : Fs) (dir : Ptr) (name : CString) : List Ptr :=
  ((ramfsHashmapFind ((lazyLoadDirectory s dir).folders dir).foderMap name).map (·.ptr)).toList

/-- The folders that `dfs_sync_folder` comes to, and the data of their files. -/
def syncedBlocks : ℕ → Fs → Ptr → List Ptr
  | 0, _, _ => []
  | fuel + 1, s, p =>
    p :: if IsDirtyType (s.folders p).type ∧ findSyncMount s p ≠ none then
        ((s.folders p).fileMap.nodes.flatMap fun nd => dataBlock nd.value) ++
          (kids s p).flatMap (syncedBlocks fuel s)
      else []

/-- The roots that the entries of the mount table name. -/
def mountRoots (s : Fs) : List Ptr := (List.range s.mountCount).map fun i => (s.mountTable i).rootDir

/-- The directory a call works in. -/
def FsOp.dir (s : Fs) : FsOp → Option Ptr
  | .mkdir _ dir | .rmdir _ dir | .write _ _ dir | .cat _ dir => fromDir s dir
  | .rm name dir | .touch name dir | .backspace name _ dir => (parsePath s name dir).toOption.map Prod.fst
  | .cd _ | .syncFolder _ | .syncAll | .mount _ _ | .umount _ => none

/-- The folders on the way to the directory a call works in. -/
def FsOp.walked (s : Fs) : FsOp → List Ptr
  | .mkdir _ dir | .rmdir _ dir | .write _ _ dir | .cat _ dir => walkedFrom s dir
  | .rm name dir | .touch name dir | .backspace name _ dir => walkedParse s name dir
  | .cd path => walkedPath s.folders s.currentDir path
  | .mount path _ => walkedPath s.folders rootPtr path
  | .syncFolder _ | .syncAll | .umount _ => []

/-- The blocks of the heap that the rest of a call looks at or releases, but for new ones and for
nodes of tables. -/
def FsOp.used (s : Fs) (op : FsOp) : List Ptr :=
  match op with
  | .mkdir _ _ | .touch _ _ | .mount _ _ => []
  | .cd path => (cdTarget s path).toList.flatMap (walkedUp s.folders (s.mem.next + 1))
  | .rmdir name _ => (op.dir s).toList.flatMap fun dir => entryBlock s dir name
  | .write name _ _ | .cat name _ => (op.dir s).toList.flatMap fun dir => fileBlocks s dir name
  | .rm name _ | .backspace name _ _ =>
    (op.dir s).toList.flatMap fun dir => fileBlocks s dir (lastComponent name)
  | .syncFolder p => mountRoots s ++ syncedBlocks (s.mem.next + 1) s p
  | .syncAll => mountRoots s ++ (mountRoots s).flatMap (syncedBlocks (s.mem.next + 1) s)
  | .umount path =>
    match (List.range s.mountCount).find? fun i => streq (s.mountTable i).path path with
    | none => []
    | some idx =>
      mountRoots s ++ syncedBlocks (s.mem.next + 1) s (s.mountTable idx).rootDir ++
        walkedPath s.folders rootPtr (umountParent (s.mountTable idx).path).1

/-- The blocks of the tree that a call releases. -/
def FsOp.releasedTree (s : Fs) : FsOp → List Ptr
  | .umount path =>
    match (List.range s.mountCount).find? fun i => streq (s.mountTable i).path path with
    | none => []
    | some idx => treeAllocs (s.mem.next + 1) s (s.mountTable idx).rootDir
  | _ => []

/-- What a call looks at or releases. -/
def FsOp.blocks (s : Fs) (op : FsOp) : List Ptr := op.walked s ++ op.used s ++ op.releasedTree s

/-- The call uses no block that was released, and releases none twice. -/
def FsOp.UsesLive (s : Fs) (op : FsOp) : Prop :=
  (∀ a ∈ op.blocks s, a ∉ s.mem.freed) ∧ (op.releasedTree s).Nodup

instance (s : Fs) (op : FsOp) : Decidable (op.UsesLive s) := inferInstanceAs (Decidable (_ ∧ _))

/-! ### Lost data -/

/-- `fs_write` finds a file with a buffer, has bytes to store, and gets no new buffer. -/
def WriteLoses (s : Fs) (dir : Ptr) (name : CString) (data : Data) : Prop :=
  ∃ info buf, ramfsFileHashmapFind (s.folders dir).fileMap name = some info ∧ info.ptr = some buf ∧
    data.1.length ≠ 0 ∧ s.mem.grants s.mem.calls = false

/-- The call is a `fs_write` that loses a buffer. -/
def FsOp.Loses (s : Fs) : FsOp → Prop
  | .write name data path => ∃ dir, fromDir s path = some dir ∧ WriteLoses s dir name data
  | _ => False

instance (s : Fs) (dir : Ptr) (name : CString) (data : Data) : Decidable (WriteLoses s dir name data) :=
  decidable_of_iff (∃ info ∈ ramfsFileHashmapFind (s.folders dir).fileMap name, ∃ buf ∈ info.ptr,
      data.1.length ≠ 0 ∧ s.mem.grants s.mem.calls = false)
    ⟨fun ⟨info, hfind, buf, hbuf, h⟩ => ⟨info, buf, hfind, hbuf, h⟩,
      fun ⟨info, buf, hfind, hbuf, h⟩ => ⟨info, hfind, buf, hbuf, h⟩⟩

instance (s : Fs) : ∀ op : FsOp, Decidable (op.Loses s)
  | .write name data path => decidable_of_iff (∃ dir ∈ fromDir s path, WriteLoses s dir name data)
    ⟨fun ⟨dir, hdir, h⟩ => ⟨dir, hdir, h⟩, fun ⟨dir, hdir, h⟩ => ⟨dir, hdir, h⟩⟩
  | .mkdir _ _ | .cd _ | .rm _ _ | .rmdir _ _ | .touch _ _ | .cat _ _ | .backspace _ _ _ |
    .syncFolder _ | .syncAll | .mount _ _ | .umount _ => inferInstanceAs (Decidable False)

/-! ### Buffers -/

/-- The entries of a record that is read from the disk, and their names, fit. -/
def RecordFits (st : Store) (id : PartId) (off : ℕ) : Prop :=
  ∀ b ∈ (st.read id off sizeofDiskFolder).1, (DiskFolder.decode b).used ≠ 0 →
    Terminated b 0 ∧ EntriesFit b

instance (st : Store) (id : PartId) (off : ℕ) : Decidable (RecordFits st id off) :=
  inferInstanceAs (Decidable (∀ b ∈ (st.read id off sizeofDiskFolder).1, _))

instance (s : Fs) (path : CString) (id : PartId) : Decidable (MountReady s path id) :=
  decidable_of_iff (∃ dir ∈ ramfsGetDirByAbsPath s path, isDirectoryEmpty (s.folders dir) = true ∧
      ∃ sb ∈ (readSuperblock s.disk.store id).1, sb.magic = DFS_MAGIC) <| by
    constructor
    · rintro ⟨dir, hdir, hempty, sb, hsb, hmagic⟩
      exact ⟨dir, sb, (readSuperblock s.disk.store id).2, hdir, hempty, Prod.ext hsb rfl, hmagic⟩
    · rintro ⟨dir, sb, st, hdir, hempty, hread, hmagic⟩
      exact ⟨dir, hdir, hempty, sb, congrArg Prod.fst hread, hmagic⟩

/-- The entry of the mount table exists and holds the path, the last component of the path fits the
name of a folder, and the record of the root fits. -/
def MountFits (s : Fs) (path : CString) (id : PartId) : Prop :=
  MountReady s path id → s.mountCount < MAX_MOUNTS ∧ path.chars.length < 256 ∧
    (lastComponent path).chars.length < 128 ∧
    ∀ sb ∈ (readSuperblock s.disk.store id).1,
      RecordFits (readSuperblock s.disk.store id).2 id sb.rootPointer

instance (s : Fs) (path : CString) (id : PartId) : Decidable (MountFits s path id) :=
  inferInstanceAs (Decidable (_ → _))

/-- The record of a folder that is not loaded yet fits. -/
def LoadFits (s : Fs) (p : Ptr) : Prop :=
  NotLoaded (s.folders p) → ∀ m ∈ (s.folders p).mount,
    RecordFits s.disk.store (s.mountTable m).part (toU32 (s.folders p).driveAddr)

instance (s : Fs) (p : Ptr) : Decidable (LoadFits s p) :=
  inferInstanceAs (Decidable (_ → ∀ m ∈ (s.folders p).mount, _))

/-- The paths fit the buffers of 512 bytes, that of the new working directory included. -/
def FsOp.PathsFit (s : Fs) (op : FsOp) : Prop :=
  (∀ path ∈ op.paths, path.chars.length < 512) ∧
    match op with
    | .cd path => ∀ dir ∈ cdTarget s path, (absolutePath s dir).chars.length < 512
    | _ => True

instance (s : Fs) (op : FsOp) : Decidable (op.PathsFit s) := by
  unfold FsOp.PathsFit
  split <;> infer_instance

/-- What the call copies fits the arrays it is copied to. -/
def FsOp.FitsBuffers (s : Fs) (op : FsOp) : Prop :=
  op.PathsFit s ∧ (∀ dir ∈ op.dir s, LoadFits s dir) ∧
    match op with
    | .mount path id => MountFits s path id
    | _ => True

instance (s : Fs) (op : FsOp) : Decidable (op.FitsBuffers s) := by
  unfold FsOp.FitsBuffers
  split <;> infer_instance

/-- The call stays inside the memory that it was given. -/
def FsOp.InBounds (s : Fs) (op : FsOp) : Prop := op.FitsBuffers s ∧ op.UsesLive s

instance (s : Fs) (op : FsOp) : Decidable (op.InBounds s) := inferInstanceAs (Decidable (_ ∧ _))

end LittleLinux
