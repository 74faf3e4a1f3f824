import LittleLinux.Dfs.Folder

/-!
# The file system calls

`fs_mkdir`, `fs_cd`, `fs_rm`, `fs_rmdir`, `fs_touch`, `fs_write`, `fs_cat` and `fs_backspace`,
each with the codes it returns. A call first finds its directory (`fromDir`, or `parsePath`
where the name may hold a path), then loads it if it comes from the disk and was not loaded,
and then works on its tables.

A null name is not represented (every call answers `-1` to it), and a `from` of NULL is `none`.
-/

namespace LittleLinux

/-- `lazy_load_directory`. -/
def lazyLoadDirectory (s : Fs) (dir : Ptr) : Fs :=
  let f := s.folders dir
  if f.type = RAMFS_FOLDER_TYPE_DISK_CLEAN ∧ f.foderMap.count = 0 ∧ f.fileMap.count = 0 then
    (dfsLoadFolderChildren s dir).2
  else s

/-- What `lazy_load_directory` tests: the folder came from the disk and has no entry. -/
def NotLoaded (f : RamfsFoder) : Prop :=
  f.type = RAMFS_FOLDER_TYPE_DISK_CLEAN ∧ f.foderMap.count = 0 ∧ f.fileMap.count = 0

instance (f : RamfsFoder) : Decidable (NotLoaded f) := inferInstanceAs (Decidable (_ ∧ _))

/-! ### Directories -/

/-- `fs_mkdir` in the directory `parent`, once it is found. -/
def mkdirIn (s : Fs) (parent : Ptr) (name : CString) : ℤ × Fs :=
  let s := lazyLoadDirectory s parent
  let f := s.folders parent
  if (ramfsHashmapFind f.foderMap name).isSome then (-3, s)
  else if (ramfsFileHashmapFind f.fileMap name).isSome then (-4, s)
  else
    let a := s.mem.malloc sizeofRamfsFoder
    match a.1 with
    | none => (-5, s.setMem a.2)
    | some newDir =>
      let type := if f.mount = none then RAMFS_FOLDER_TYPE_MEM else RAMFS_FOLDER_TYPE_NEW
      let node : RamfsFoder :=
        { RamfsFoder.zero with name := name, type := type, parent := some parent, mount := f.mount }
      let s := (s.setMem a.2).setFolder newDir node
      let r := ramfsHashmapInsert s.mem (s.folders parent).foderMap name ⟨name, type, newDir, 0⟩
      if r.1 then
        (0, (s.modifyFolder parent fun f => markDirty (f.setFoderMap r.2.1)).setMem r.2.2)
      else (-5, s.setMem (r.2.2.free newDir))

/-- `fs_mkdir`. -/
def fsMkdir (s : Fs) (name : CString) (dir : Option CString) : ℤ × Fs :=
  if strlen name.chars = 0 ∨ strlen name.chars ≥ 128 then (-1, s)
  else
    match fromDir s dir with
    | none => (-2, s)
    | some parent => mkdirIn s parent name

/-- `fs_rmdir` in the directory `parent`. -/
def rmdirIn (s : Fs) (parent : Ptr) (name : CString) : ℤ × Fs :=
  let s := lazyLoadDirectory s parent
  match ramfsHashmapFind (s.folders parent).foderMap name with
  | none => (-3, s)
  | some info =>
    let target := s.folders info.ptr
    if target.foderMap.count ≠ 0 ∨ target.fileMap.count ≠ 0 then (-4, s)
    else
      let r := ramfsHashmapDelete s.mem (s.folders parent).foderMap name
      let s := (s.modifyFolder parent (·.setFoderMap r.2.1)).setMem r.2.2
      let d := ramfsHashmapDestroy s.mem (s.folders info.ptr).foderMap
      let e := ramfsFileHashmapDestroy d.2 (s.folders info.ptr).fileMap
      let s := (s.modifyFolder info.ptr fun f => (f.setFoderMap d.1).setFileMap e.1).setMem
        (e.2.free info.ptr)
      (0, s.modifyFolder parent markDirty)

/-- `fs_rmdir`. -/
def fsRmdir (s : Fs) (name : CString) (dir : Option CString) : ℤ × Fs :=
  match fromDir s dir with
  | none => (-2, s)
  | some parent => rmdirIn s parent name

/-- `build_absolute_path`: the path of `dir` along the parent pointers, with a bound on their
number. -/
def buildAbsolutePath (folders : Ptr → RamfsFoder) : ℕ → Ptr → List UInt8
  | 0, _ => [47]
  | fuel + 1, dir =>
    match (folders dir).parent with
    | some p =>
      if dir ≠ rootPtr then
        let out := buildAbsolutePath folders fuel p
        (if out.getLast? = some 47 then out else out ++ [47]) ++ (folders dir).name.chars
      else [47]
    | none => [47]

theorem zero_notMem_buildAbsolutePath (folders : Ptr → RamfsFoder) :
    ∀ fuel dir, (0 : UInt8) ∉ buildAbsolutePath folders fuel dir
  | 0, _ => by simp [buildAbsolutePath]
  | fuel + 1, dir => by
    rw [buildAbsolutePath]
    rcases (folders dir).parent with _ | p
    · simp
    · have ih := zero_notMem_buildAbsolutePath folders fuel p
      have hname := (folders dir).name.noNul
      dsimp only
      split_ifs <;> simp [ih, hname]

/-- `env_set("pwd", ..)` keeps 255 characters. -/
def envValue (value : CString) : CString :=
  ⟨value.chars.take 255, fun h => value.noNul (List.mem_of_mem_take h)⟩

/-- `fs_cd`. -/
def fsCd (s : Fs) (path : CString) : ℤ × Fs :=
  let target :=
    if path = slashString then some rootPtr
    else if path.chars.head? = some 47 then getDirByPath s.folders rootPtr path
    else getDirByPath s.folders s.currentDir path
  match target with
  | none => (-2, s)
  | some dir =>
    let p : CString := ⟨buildAbsolutePath s.folders (s.mem.next + 1) dir,
      zero_notMem_buildAbsolutePath s.folders _ dir⟩
    (0, { s with currentDir := dir, currentPath := p, pwd := some (envValue p) })

/-- The directory that `fs_cd` goes to. -/
def cdTarget (s : Fs) (path : CString) : Option Ptr :=
  if path = slashString then some rootPtr
  else if path.chars.head? = some 47 then getDirByPath s.folders rootPtr path
  else getDirByPath s.folders s.currentDir path

theorem zero_notMem_absolutePath (s : Fs) (dir : Ptr) :
    (0 : UInt8) ∉ buildAbsolutePath s.folders (s.mem.next + 1) dir :=
  zero_notMem_buildAbsolutePath s.folders _ dir

/-- The path that `build_absolute_path` writes. -/
def absolutePath (s : Fs) (dir : Ptr) : CString :=
  ⟨buildAbsolutePath s.folders (s.mem.next + 1) dir, zero_notMem_absolutePath s dir⟩

/-- The state after `fs_cd` to `dir`. -/
def Fs.moveTo (s : Fs) (dir : Ptr) : Fs :=
  { s with
    currentDir := dir
    currentPath := absolutePath s dir
    pwd := some (envValue (absolutePath s dir)) }

theorem fsCd_eq (s : Fs) (path : CString) :
    fsCd s path = match cdTarget s path with
      | none => (-2, s)
      | some dir => (0, s.moveTo dir) :=
  rfl

/-- Every path leads where `_get_dir_by_path` leads. -/
theorem cdTarget_eq (s : Fs) (path : CString) :
    cdTarget s path = getDirByPath s.folders s.currentDir path := by
  rw [cdTarget]
  by_cases hslash : path = slashString
  · rw [if_pos hslash, hslash]
    rfl
  rw [if_neg hslash]
  by_cases habs : path.chars.head? = some 47
  · have hne : path.chars ≠ [] := by
      intro hnil
      rw [hnil] at habs
      exact absurd habs (by simp)
    rw [if_pos habs, getDirByPath, getDirByPath, if_neg hne, if_pos habs, if_neg hne, if_pos habs]
  · rw [if_neg habs]

/-- `fs_cd` fails and does nothing, or goes to a directory that the path names. -/
theorem fsCd_cases (s : Fs) (path : CString) :
    fsCd s path = (-2, s) ∨
      ∃ dir, getDirByPath s.folders s.currentDir path = some dir ∧ fsCd s path = (0, s.moveTo dir) := by
  rw [fsCd_eq, cdTarget_eq]
  cases getDirByPath s.folders s.currentDir path with
  | none => exact Or.inl rfl
  | some dir => exact Or.inr ⟨dir, rfl, rfl⟩

/-! ### Files -/

/-- Store through the pointer that `ramfs_file_hashmap_find` returned. -/
def modifyFile (s : Fs) (parent : Ptr) (name : CString) (g : RamfsFileInfo → RamfsFileInfo) : Fs :=
  s.modifyFolder parent fun f => f.setFileMap (ramfsFileHashmapModify f.fileMap name g)

/-- `fs_touch` in the directory `parent`. -/
def touchIn (s : Fs) (parent : Ptr) (fileName : CString) : ℤ × Fs :=
  let s := lazyLoadDirectory s parent
  let f := s.folders parent
  if (ramfsHashmapFind f.foderMap fileName).isSome then (-3, s)
  else if (ramfsFileHashmapFind f.fileMap fileName).isSome then (-4, s)
  else
    let type := if f.mount = none then RAMFS_TYPE_MEM else RAMFS_TYPE_NEW
    let r := ramfsFileHashmapInsert s.mem f.fileMap fileName ⟨fileName, type, 0, none, 0⟩
    if r.1 then
      (0, (s.modifyFolder parent fun f => markDirty (f.setFileMap r.2.1)).setMem r.2.2)
    else (-5, s.setMem r.2.2)

/-- `fs_touch`. -/
def fsTouch (s : Fs) (name : CString) (dir : Option CString) : ℤ × Fs :=
  if strlen name.chars = 0 ∨ strlen name.chars ≥ 128 then (-1, s)
  else
    match parsePath s name dir with
    | .error e => (e, s)
    | .ok r => touchIn s r.1 r.2

/-- `free(info->ptr)`, unless it is null. -/
def freeData (mem : Memory) (finfo : RamfsFileInfo) : Memory :=
  match finfo.ptr with
  | some buf => mem.free buf.addr
  | none => mem

/-- `fs_rm` in the directory `parent`. -/
def rmIn (s : Fs) (parent : Ptr) (fileName : CString) : ℤ × Fs :=
  let s := lazyLoadDirectory s parent
  match ramfsFileHashmapFind (s.folders parent).fileMap fileName with
  | none => (-3, s)
  | some info =>
    let r := ramfsFileHashmapDelete (freeData s.mem info) (s.folders parent).fileMap fileName
    if r.1 then
      (0, (s.modifyFolder parent fun f => markDirty (f.setFileMap r.2.1)).setMem r.2.2)
    else (-4, s.setMem r.2.2)

/-- `fs_rm`. -/
def fsRm (s : Fs) (name : CString) (dir : Option CString) : ℤ × Fs :=
  if strlen name.chars = 0 then (-1, s)
  else
    match parsePath s name dir with
    | .error e => (e, s)
    | .ok r => rmIn s r.1 r.2

/-- The tag of a file whose contents were replaced. -/
def changedTag (finfo : RamfsFileInfo) : UInt8 :=
  if finfo.driveAddr = 0 then RAMFS_TYPE_NEW else RAMFS_TYPE_DIRTY

/-- Bytes that fit a `size_t` length. -/
abbrev Data := { l : List UInt8 // l.length < 2 ^ 32 }

/-- One byte. -/
def Data.byte (c : UInt8) : Data := ⟨[c], Nat.one_lt_two_pow (by decide)⟩

/-- `fs_write` in the directory `parent`. -/
def writeIn (s : Fs) (parent : Ptr) (name : CString) (data : Data) : ℤ × Fs :=
  let s := lazyLoadDirectory s parent
  match ramfsFileHashmapFind (s.folders parent).fileMap name with
  | none => (-3, s)
  | some info =>
    let a := (freeData s.mem info).malloc data.1.length
    if a.1 = none ∧ data.1.length > 0 then (-4, s.setMem a.2)
    else
      let s := modifyFile (s.setMem a.2) parent name fun info =>
        { info with
          ptr := a.1.map fun p => ⟨p, data.1⟩
          length := data.1.length
          type := changedTag info }
      (0, s.modifyFolder parent markDirty)

/-- `fs_write`. -/
def fsWrite (s : Fs) (name : CString) (data : Data) (dir : Option CString) : ℤ × Fs :=
  match fromDir s dir with
  | none => (-2, s)
  | some parent => writeIn s parent name data

/-- Load the data of the file `name` of `parent`, when the directory belongs to a mount: the
code of `dfs_load_file_data`. -/
def loadData (s : Fs) (parent : Ptr) (name : CString) (info : RamfsFileInfo) : ℤ × Fs :=
  match (s.folders parent).mount with
  | none => (0, s)
  | some m =>
    let r := dfsLoadFileData s.mem s.disk.store info (s.mountTable m).part
    (r.1, ((modifyFile s parent name fun _ => r.2.1).setMem r.2.2.1).setStore r.2.2.2)

/-- `printf("%c", c)`: the character goes through a string, so a NUL prints nothing. -/
def printfChar (c : UInt8) : List UInt8 := if c = 0 then [] else [c]

/-- Append to the output. -/
def Fs.print (s : Fs) (text : List UInt8) : Fs := { s with out := s.out ++ text }

/-- `fs_cat` in the directory `parent`. -/
def catIn (s : Fs) (parent : Ptr) (name : CString) : ℤ × Fs :=
  let s := lazyLoadDirectory s parent
  match ramfsFileHashmapFind (s.folders parent).fileMap name with
  | none => (-3, s)
  | some info =>
    let l := loadData s parent name info
    if l.1 ≠ 0 then (-4, l.2)
    else
      match ramfsFileHashmapFind (l.2.folders parent).fileMap name with
      | none => (0, l.2)
      | some info =>
        match info.ptr with
        | none => (0, l.2)
        | some buf =>
          (0, l.2.print ((buf.bytes.take info.length.toNat).flatMap printfChar))

/-- `fs_cat`. -/
def fsCat (s : Fs) (name : CString) (dir : Option CString) : ℤ × Fs :=
  match fromDir s dir with
  | none => (-2, s)
  | some parent => catIn s parent name

/-- The end of `fs_backspace`, with the data loaded: `count` characters are cut off. -/
def cutFile (s : Fs) (parent : Ptr) (name : CString) (info : RamfsFileInfo) (count : ℤ) : ℤ × Fs :=
  if info.length = 0 then (-5, s)
  else
    let count := if count > info.length then toI32 info.length else count
    let newLen := toU32 (info.length - count)
    if newLen = 0 then
      let s := modifyFile (s.setMem (freeData s.mem info)) parent name fun info =>
        { info with ptr := none, length := 0, type := changedTag info }
      (0, s.modifyFolder parent markDirty)
    else
      let a := s.mem.malloc newLen
      match a.1 with
      | none => (-6, s.setMem a.2)
      | some p =>
        let bytes := match info.ptr with
          | some buf => buf.bytes.take newLen
          | none => []
        let s := modifyFile (s.setMem (freeData a.2 info)) parent name fun info =>
          { info with ptr := some ⟨p, bytes⟩, length := newLen, type := changedTag info }
        (0, s.modifyFolder parent markDirty)

/-- `fs_backspace` in the directory `parent`. -/
def backspaceIn (s : Fs) (parent : Ptr) (fileName : CString) (count : ℤ) : ℤ × Fs :=
  let s := lazyLoadDirectory s parent
  match ramfsFileHashmapFind (s.folders parent).fileMap fileName with
  | none => (-3, s)
  | some info =>
    let l := loadData s parent fileName info
    if l.1 ≠ 0 then (-4, l.2)
    else
      match ramfsFileHashmapFind (l.2.folders parent).fileMap fileName with
      | none => (0, l.2)
      | some info => cutFile l.2 parent fileName info count

/-- `fs_backspace`. -/
def fsBackspace (s : Fs) (name : CString) (count : ℤ) (dir : Option CString) : ℤ × Fs :=
  if count < 0 then (-1, s)
  else if count = 0 then (0, s)
  else
    match parsePath s name dir with
    | .error e => (e, s)
    | .ok r => backspaceIn s r.1 r.2 count

/-! ### Initialisation -/

/-- The state in which the kernel boots: static storage is zero. -/
def bootState (mem : Memory) (store : Store) : Fs where
  mem := mem
  folders := fun _ => RamfsFoder.zero
  currentDir := rootPtr
  currentPath := ⟨[], CString.noNul_nil⟩
  pwd := none
  mountTable := fun _ => ⟨⟨[], CString.noNul_nil⟩, ⟨0, 0⟩, rootPtr⟩
  mountCount := 0
  mountWrites := []
  disk := ⟨store, 0, 0⟩
  out := []

/-- `fs_init`, but for the registration of the commands. -/
def fsInit (s : Fs) : Fs :=
  let s := s.modifyFolder rootPtr fun f =>
    { f with
      name := slashString
      type := 0
      foderMap := ramfsHashmapInit
      fileMap := ramfsFileHashmapInit }
  match s.pwd with
  | some pwd => { s with currentDir := rootPtr, currentPath := pwd }
  | none =>
    { s with currentDir := rootPtr, currentPath := slashString, pwd := some (envValue slashString) }

end LittleLinux
