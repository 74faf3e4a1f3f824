import LittleLinux.Ramfs.HashFile
import LittleLinux.Dfs.Blocks

/-!
# The state of the file system, and paths

`Fs` is the memory of `ramfs.c` and `dfs.c`: the folder objects by address, the working
directory, the mount table, the disks, and what was printed. The root directory has static
storage and lives at address `0`; `folders` is total, and an object that was freed reads as
it was left.

`getDirByPath` is `_get_dir_by_path`. Its branch that loads a folder whose `ptr` is null is
not here: a stored `ptr` is never null, and the branch is reached only after the pointer was
followed.
-/

namespace LittleLinux

/-! ### The state -/

/-- `dfs_mount_point`; `part` holds `partition_drive` and `partition_index`. -/
structure DfsMountPoint where
  path : CString
  part : PartId
  rootDir : Ptr

/-- `MAX_MOUNTS`. -/
def MAX_MOUNTS : ℕ := 8

/-- The state. `mountWrites` keeps the indices at which `mount_table` was stored to, newest
first; the table itself is not cut at `MAX_MOUNTS`, as the code does not cut it either. -/
structure Fs where
  mem : Memory
  folders : Ptr → RamfsFoder
  currentDir : Ptr
  currentPath : CString
  pwd : Option CString
  mountTable : ℕ → DfsMountPoint
  mountCount : ℕ
  mountWrites : List ℕ
  disk : Disk
  out : List UInt8

/-- The address of `root`. -/
def rootPtr : Ptr := 0

/-- `"/"`. -/
def slashString : CString := ⟨[47], CString.noNul_slash⟩

namespace Fs

/-- Store the folder `f` at `p`. -/
def setFolder (s : Fs) (p : Ptr) (f : RamfsFoder) : Fs :=
  { s with folders := Function.update s.folders p f }

/-- Change the folder at `p`. -/
def modifyFolder (s : Fs) (p : Ptr) (g : RamfsFoder → RamfsFoder) : Fs :=
  s.setFolder p (g (s.folders p))

@[simp]
theorem setFolder_self (s : Fs) (p : Ptr) (f : RamfsFoder) : (s.setFolder p f).folders p = f := by
  simp only [setFolder, Function.update_self]

theorem setFolder_of_ne (s : Fs) {p q : Ptr} (f : RamfsFoder) (h : q ≠ p) :
    (s.setFolder p f).folders q = s.folders q := by
  simp only [setFolder, Function.update_of_ne h]

@[simp]
theorem modifyFolder_self (s : Fs) (p : Ptr) (g : RamfsFoder → RamfsFoder) :
    (s.modifyFolder p g).folders p = g (s.folders p) :=
  s.setFolder_self p _

theorem modifyFolder_of_ne (s : Fs) {p q : Ptr} (g : RamfsFoder → RamfsFoder) (h : q ≠ p) :
    (s.modifyFolder p g).folders q = s.folders q :=
  s.setFolder_of_ne _ h

theorem modifyFolder_modifyFolder (s : Fs) (p : Ptr) (g k : RamfsFoder → RamfsFoder) :
    (s.modifyFolder p g).modifyFolder p k = s.modifyFolder p fun f => k (g f) := by
  simp only [modifyFolder, setFolder, Function.update_self, Function.update_idem]

/-- Replace the state of the allocator. -/
def setMem (s : Fs) (mem : Memory) : Fs := { s with mem := mem }

/-- Replace the disks. -/
def setDisk (s : Fs) (d : Disk) : Fs := { s with disk := d }

/-- Replace the store, and keep the static variables of the block allocator. -/
def setStore (s : Fs) (st : Store) : Fs := s.setDisk { s.disk with store := st }

section Fields

variable (s : Fs) (p : Ptr) (f : RamfsFoder) (g : RamfsFoder → RamfsFoder) (mem : Memory) (d : Disk)
  (st : Store)

@[simp] theorem setFolder_mem : (s.setFolder p f).mem = s.mem := rfl
@[simp] theorem setFolder_currentDir : (s.setFolder p f).currentDir = s.currentDir := rfl
@[simp] theorem setFolder_currentPath : (s.setFolder p f).currentPath = s.currentPath := rfl
@[simp] theorem setFolder_mountTable : (s.setFolder p f).mountTable = s.mountTable := rfl
@[simp] theorem setFolder_mountCount : (s.setFolder p f).mountCount = s.mountCount := rfl
@[simp] theorem setFolder_mountWrites : (s.setFolder p f).mountWrites = s.mountWrites := rfl
@[simp] theorem setFolder_disk : (s.setFolder p f).disk = s.disk := rfl
@[simp] theorem setFolder_out : (s.setFolder p f).out = s.out := rfl

@[simp] theorem modifyFolder_mem : (s.modifyFolder p g).mem = s.mem := rfl
@[simp] theorem modifyFolder_currentDir : (s.modifyFolder p g).currentDir = s.currentDir := rfl
@[simp] theorem modifyFolder_currentPath : (s.modifyFolder p g).currentPath = s.currentPath := rfl
@[simp] theorem modifyFolder_mountTable : (s.modifyFolder p g).mountTable = s.mountTable := rfl
@[simp] theorem modifyFolder_mountCount : (s.modifyFolder p g).mountCount = s.mountCount := rfl
@[simp] theorem modifyFolder_mountWrites : (s.modifyFolder p g).mountWrites = s.mountWrites := rfl
@[simp] theorem modifyFolder_disk : (s.modifyFolder p g).disk = s.disk := rfl
@[simp] theorem modifyFolder_out : (s.modifyFolder p g).out = s.out := rfl

@[simp] theorem setMem_folders : (s.setMem mem).folders = s.folders := rfl
@[simp] theorem setMem_currentDir : (s.setMem mem).currentDir = s.currentDir := rfl
@[simp] theorem setMem_currentPath : (s.setMem mem).currentPath = s.currentPath := rfl
@[simp] theorem setMem_mountTable : (s.setMem mem).mountTable = s.mountTable := rfl
@[simp] theorem setMem_mountCount : (s.setMem mem).mountCount = s.mountCount := rfl
@[simp] theorem setMem_mountWrites : (s.setMem mem).mountWrites = s.mountWrites := rfl
@[simp] theorem setMem_disk : (s.setMem mem).disk = s.disk := rfl
@[simp] theorem setMem_out : (s.setMem mem).out = s.out := rfl
@[simp] theorem setMem_mem : (s.setMem mem).mem = mem := rfl

@[simp] theorem setDisk_mem : (s.setDisk d).mem = s.mem := rfl
@[simp] theorem setDisk_folders : (s.setDisk d).folders = s.folders := rfl
@[simp] theorem setDisk_currentDir : (s.setDisk d).currentDir = s.currentDir := rfl
@[simp] theorem setDisk_currentPath : (s.setDisk d).currentPath = s.currentPath := rfl
@[simp] theorem setDisk_mountTable : (s.setDisk d).mountTable = s.mountTable := rfl
@[simp] theorem setDisk_mountCount : (s.setDisk d).mountCount = s.mountCount := rfl
@[simp] theorem setDisk_mountWrites : (s.setDisk d).mountWrites = s.mountWrites := rfl
@[simp] theorem setDisk_out : (s.setDisk d).out = s.out := rfl
@[simp] theorem setDisk_disk : (s.setDisk d).disk = d := rfl

@[simp] theorem setStore_mem : (s.setStore st).mem = s.mem := rfl
@[simp] theorem setStore_folders : (s.setStore st).folders = s.folders := rfl
@[simp] theorem setStore_currentDir : (s.setStore st).currentDir = s.currentDir := rfl
@[simp] theorem setStore_currentPath : (s.setStore st).currentPath = s.currentPath := rfl
@[simp] theorem setStore_mountTable : (s.setStore st).mountTable = s.mountTable := rfl
@[simp] theorem setStore_mountCount : (s.setStore st).mountCount = s.mountCount := rfl
@[simp] theorem setStore_mountWrites : (s.setStore st).mountWrites = s.mountWrites := rfl
@[simp] theorem setStore_out : (s.setStore st).out = s.out := rfl
@[simp] theorem setStore_store : (s.setStore st).disk.store = st := rfl

end Fields

end Fs

/-- The type of a folder that has something to write back. -/
def IsDirtyType (type : UInt8) : Prop :=
  type = RAMFS_FOLDER_TYPE_NEW ∨ type = RAMFS_FOLDER_TYPE_DIRTY

instance (type : UInt8) : Decidable (IsDirtyType type) :=
  inferInstanceAs (Decidable (_ ∨ _))

/-- The tag of a file that has something to write back. -/
def IsDirtyTag (type : UInt8) : Prop := type = RAMFS_TYPE_NEW ∨ type = RAMFS_TYPE_DIRTY

instance (type : UInt8) : Decidable (IsDirtyTag type) :=
  inferInstanceAs (Decidable (_ ∨ _))

namespace RamfsFoder

/-- `f->foder_map = map`. -/
def setFoderMap (f : RamfsFoder) (map : RamfsHashmap) : RamfsFoder := { f with foderMap := map }

/-- `f->file_map = map`. -/
def setFileMap (f : RamfsFoder) (map : RamfsFileHashmap) : RamfsFoder := { f with fileMap := map }

/-- `f->type = type`. -/
def setType (f : RamfsFoder) (type : UInt8) : RamfsFoder := { f with type := type }

/-- `f->drive_addr = addr`. -/
def setDriveAddr (f : RamfsFoder) (addr : ℤ) : RamfsFoder := { f with driveAddr := addr }

end RamfsFoder

/-- A folder that was not changed since it was read becomes one whose children were. -/
def markDirty (f : RamfsFoder) : RamfsFoder :=
  if f.type = RAMFS_FOLDER_TYPE_DISK_CLEAN then f.setType RAMFS_FOLDER_TYPE_DIRTY else f

/-! ### Paths -/

/-- The parts of a path between its slashes, empty ones included. -/
def splitSlash : List UInt8 → List (List UInt8)
  | [] => [[]]
  | c :: cs =>
    if c = 47 then [] :: splitSlash cs
    else
      match splitSlash cs with
      | [] => [[c]]
      | w :: ws => (c :: w) :: ws

theorem mem_of_mem_splitSlash {l : List UInt8} {w : List UInt8} (hw : w ∈ splitSlash l) {c : UInt8}
    (hc : c ∈ w) : c ∈ l := by
  induction l generalizing w with
  | nil =>
    rw [splitSlash, List.mem_singleton] at hw
    simp [hw] at hc
  | cons d l ih =>
    rw [splitSlash] at hw
    split at hw
    · rcases List.mem_cons.mp hw with rfl | hw
      · simp at hc
      · exact List.mem_cons_of_mem d (ih hw hc)
    · split at hw
      next => simp_all
      next v vs hv =>
        rcases List.mem_cons.mp hw with rfl | hw
        · rcases List.mem_cons.mp hc with rfl | hc
          · exact List.mem_cons_self
          · exact List.mem_cons_of_mem d (ih (by simp [hv]) hc)
        · exact List.mem_cons_of_mem d (ih (by simp [hv, hw]) hc)

/-- The components of a path. -/
def components (path : CString) : List CString :=
  (splitSlash path.chars).attach.map fun w =>
    ⟨w.1, fun h => path.noNul (mem_of_mem_splitSlash w.2 h)⟩

/-- The path without its first character. -/
def CString.tail (s : CString) : CString := ⟨s.chars.tail, fun h => s.noNul (List.mem_of_mem_tail h)⟩

/-- The walk of `_get_dir_by_path` from `cur` along the components. At a directory without a
parent, `..` ends the walk there. -/
def walkParts (folders : Ptr → RamfsFoder) : Ptr → List CString → Option Ptr
  | cur, [] => some cur
  | cur, part :: rest =>
    if part.chars = [] then walkParts folders cur rest
    else if part.chars = [46] then walkParts folders cur rest
    else if part.chars = [46, 46] then
      match (folders cur).parent with
      | some p => walkParts folders p rest
      | none => some cur
    else
      match ramfsHashmapFind (folders cur).foderMap part with
      | some info => walkParts folders info.ptr rest
      | none => none

/-- `_get_dir_by_path`. -/
def getDirByPath (folders : Ptr → RamfsFoder) (base : Ptr) (path : CString) : Option Ptr :=
  if path.chars = [] then none
  else if path.chars.head? = some 47 then walkParts folders rootPtr (components path.tail)
  else walkParts folders base (components path)

/-- `ramfs_get_dir_by_abs_path`. -/
def ramfsGetDirByAbsPath (s : Fs) (path : CString) : Option Ptr :=
  getDirByPath s.folders rootPtr path

/-- The directory a call works in when its name has no slash: that of `from`, or the working
directory. -/
def fromDir (s : Fs) (dir : Option CString) : Option Ptr :=
  match dir with
  | some path => getDirByPath s.folders s.currentDir path
  | none => some s.currentDir

/-- The two parts of a name around its last slash. -/
def splitLast (name : CString) : Option (CString × CString) :=
  match h : strrchr 47 name.chars with
  | some r => some (⟨r.1, fun h0 => name.noNul (mem_of_strrchr h (.inl h0))⟩,
      ⟨r.2, fun h0 => name.noNul (mem_of_strrchr h (.inr h0))⟩)
  | none => none

/-- How `fs_rm`, `fs_touch` and `fs_backspace` find their directory and file name: the error
code, or the two. -/
def parsePath (s : Fs) (name : CString) (dir : Option CString) : Except ℤ (Ptr × CString) :=
  match splitLast name with
  | none =>
    match fromDir s dir with
    | some parent => .ok (parent, name)
    | none => .error (-2)
  | some (path, fileName) =>
    if fileName.chars = [] then .error (-1)
    else
      let parent :=
        if path.chars.head? = some 47 then getDirByPath s.folders rootPtr path
        else (fromDir s dir).bind fun base => getDirByPath s.folders base path
      match parent with
      | some parent => .ok (parent, fileName)
      | none => .error (-2)

/-- What holds of the root, of the directory a call starts from, and of every directory that a
walk from such a one ends in, holds of the directory that `parsePath` finds. -/
theorem parsePath_dir {s : Fs} {name : CString} {dir : Option CString} {r : Ptr × CString}
    {P : Ptr → Prop} (hroot : P rootPtr) (hfrom : ∀ e, fromDir s dir = some e → P e)
    (hwalk : ∀ base path e, P base → getDirByPath s.folders base path = some e → P e)
    (hr : parsePath s name dir = .ok r) : P r.1 := by
  rw [parsePath] at hr
  cases hsplit : splitLast name with
  | none =>
    rw [hsplit] at hr
    cases hdir : fromDir s dir with
    | none =>
      rw [hdir] at hr
      exact absurd hr (by simp)
    | some e =>
      rw [hdir] at hr
      obtain rfl := Except.ok.inj hr
      exact hfrom e hdir
  | some cut =>
    rw [hsplit] at hr
    obtain ⟨path, fileName⟩ := cut
    dsimp only at hr
    split_ifs at hr with hname habs
    · cases he : getDirByPath s.folders rootPtr path with
      | none =>
        rw [he] at hr
        exact absurd hr (by simp)
      | some e =>
        rw [he] at hr
        obtain rfl := Except.ok.inj hr
        exact hwalk rootPtr path e hroot he
    · cases he : (fromDir s dir).bind fun base => getDirByPath s.folders base path with
      | none =>
        rw [he] at hr
        exact absurd hr (by simp)
      | some e =>
        rw [he] at hr
        obtain rfl := Except.ok.inj hr
        obtain ⟨base, hbase, he⟩ := Option.bind_eq_some_iff.1 he
        exact hwalk base path e (hfrom base hbase) he

end LittleLinux
