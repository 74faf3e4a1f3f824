import LittleLinux.Dfs.Quiet

/-!
# What the calls do

Each call loads the folder it works in, and then leaves the tables alone, changes the file table
of the folder, or changes its folder table. The lemmas `touchIn_cases` to `rmdirIn_cases` say
which, once for all; what a call keeps is proved from them.
-/

namespace LittleLinux

open ChainTable

variable {s u : Fs} {dir : Ptr}

/-! ### What a call finds -/

/-- Nothing of that name is in the folder. -/
def NameFree (s : Fs) (dir : Ptr) (name : CString) : Prop :=
  ramfsHashmapFind (s.folders dir).foderMap name = none ∧
    ramfsFileHashmapFind (s.folders dir).fileMap name = none

/-- A file of that name is found in the folder. -/
def HasFile (s : Fs) (dir : Ptr) (name : CString) : Prop :=
  ramfsFileHashmapFind (s.folders dir).fileMap name ≠ none

/-- A directory of that name, with nothing in it, is found in the folder. -/
def HasEmptyDir (s : Fs) (dir : Ptr) (name : CString) : Prop :=
  ∃ info, ramfsHashmapFind (s.folders dir).foderMap name = some info ∧
    (s.folders info.ptr).foderMap.count = 0 ∧ (s.folders info.ptr).fileMap.count = 0

/-- A file of that name is found in the folder, and is not empty. -/
def HasContent (s : Fs) (dir : Ptr) (name : CString) : Prop :=
  ∃ info, ramfsFileHashmapFind (s.folders dir).fileMap name = some info ∧ info.length ≠ 0

theorem hasFile_of_find {name : CString} {info : RamfsFileInfo}
    (h : ramfsFileHashmapFind (s.folders dir).fileMap name = some info) : HasFile s dir name := by
  rw [HasFile, h]
  exact Option.some_ne_none info

/-! ### Changes of one table -/

section Tables

variable {V : Type} (T : NamedTable V) {map map' : Table BUCKETS CString V} {key : CString} {v : V}

/-- A node is added. -/
def Adds (map map' : Table BUCKETS CString V) (key : CString) (v : V) : Prop :=
  ∃ addr, map'.nodes.Perm (⟨addr, key, v⟩ :: map.nodes) ∧ map'.count = map.count + 1

/-- The node that is found under the key is taken out. -/
def Removes (map map' : Table BUCKETS CString V) (key : CString) : Prop :=
  ∃ nd, findNode T.streq djb2Bucket map key = some nd ∧ map.nodes.Perm (nd :: map'.nodes) ∧
    map'.count = map.count - 1

/-- An insertion under a name that is not found adds a node, or fails for want of one. -/
theorem NamedTable.insert_of_find_none (mem : Memory) (v : V) (h : T.find map key = none) :
    ((T.insert mem map key v).1 = true ∧
        Adds map (T.insert mem map key v).2.1 (strcpy127 key) (T.setName (strcpy127 key) v)) ∨
      (T.insert mem map key v).1 = false ∧ (T.insert mem map key v).2.1 = map := by
  have hnode : findNode T.streq djb2Bucket map key = none := by
    rwa [NamedTable.find, ChainTable.find, Option.map_eq_none_iff] at h
  rw [NamedTable.insert, h]
  dsimp only
  cases (if (none : Option V).isSome = true then (none, mem) else mem.malloc T.nodeSize).1 with
  | none =>
    rw [ChainTable.insert.eq_def, hnode]
    exact Or.inr ⟨rfl, rfl⟩
  | some addr =>
    refine Or.inl ⟨by rw [ChainTable.insert.eq_def, hnode], addr, ?_⟩
    obtain ⟨nd, -, hsome, -⟩ | ⟨a, -, ha, hperm, hcount⟩ | ⟨-, hnone, -⟩ :=
      nodes_insert_cases T.streq djb2Bucket map key (strcpy127 key)
        (T.setName (strcpy127 key) v) (some addr)
    · rw [hnode] at hsome
      exact absurd hsome (by simp)
    · obtain rfl := Option.some.inj ha
      exact ⟨hperm, hcount⟩
    · exact absurd hnone (by simp)

/-- A deletion under a name that is found takes the node out. -/
theorem NamedTable.delete_of_find (mem : Memory) (h : T.find map key = some v) :
    (T.delete mem map key).1 = true ∧ Removes T map (T.delete mem map key).2.1 key := by
  rw [NamedTable.find, ChainTable.find, Option.map_eq_some_iff] at h
  obtain ⟨nd, hnd, -⟩ := h
  refine ⟨?_, nd, hnd, nodes_delete_perm hnd, count_delete hnd⟩
  rw [NamedTable.delete, ChainTable.delete, hnd]

theorem Adds.mem_nodes {nd : Node CString V} (h : Adds map map' key v) (hnd : nd ∈ map'.nodes) :
    nd ∈ map.nodes ∨ nd.key = key ∧ nd.value = v := by
  obtain ⟨addr, hperm, -⟩ := h
  rcases List.mem_cons.1 (hperm.mem_iff.1 hnd) with rfl | hnd
  · exact Or.inr ⟨rfl, rfl⟩
  · exact Or.inl hnd

theorem Adds.mem_of_mem {nd : Node CString V} (h : Adds map map' key v) (hnd : nd ∈ map.nodes) :
    nd ∈ map'.nodes := by
  obtain ⟨addr, hperm, -⟩ := h
  exact hperm.mem_iff.2 (List.mem_cons_of_mem _ hnd)

/-- What is not under the key stays. -/
theorem Removes.mem_of_mem {T : NamedTable V} {nd : Node CString V} (h : Removes T map map' key)
    (hnd : nd ∈ map.nodes) : nd ∈ map'.nodes ∨ findNode T.streq djb2Bucket map key = some nd := by
  obtain ⟨nd₀, hfind, hperm, -⟩ := h
  rcases List.mem_cons.1 (hperm.mem_iff.1 hnd) with rfl | hnd
  · exact Or.inr hfind
  · exact Or.inl hnd

theorem Removes.mem_nodes {T : NamedTable V} {nd : Node CString V} (h : Removes T map map' key)
    (hnd : nd ∈ map'.nodes) : nd ∈ map.nodes := by
  obtain ⟨nd₀, -, hperm, -⟩ := h
  exact hperm.mem_iff.2 (List.mem_cons_of_mem _ hnd)

/-- The counter of a table is right. -/
def Counted (map : Table BUCKETS CString V) : Prop := map.count = map.nodes.length

theorem counted_empty : Counted (Table.empty : Table BUCKETS CString V) := by
  rw [Counted, nodes_empty]
  rfl

theorem Adds.counted (h : Adds map map' key v) (hc : Counted map) : Counted map' := by
  obtain ⟨addr, hperm, hcount⟩ := h
  rw [Counted, hcount, hc, hperm.length_eq, List.length_cons]
  push_cast
  rfl

theorem Removes.counted {T : NamedTable V} (h : Removes T map map' key) (hc : Counted map) :
    Counted map' := by
  obtain ⟨nd, -, hperm, hcount⟩ := h
  rw [Counted, hcount, hc, hperm.length_eq, List.length_cons]
  push_cast
  omega

theorem Counted.modify (hc : Counted map) (key : CString) (f : V → V) :
    Counted (T.modify map key f) := by
  have hkeys : (T.modify map key f).nodes.map Node.key = map.nodes.map Node.key :=
    nodes_modify_key map f
  have hlen := congrArg List.length hkeys
  rw [List.length_map, List.length_map] at hlen
  exact hc.trans (congrArg Nat.cast hlen.symm)

theorem Counted.nodes_eq_nil (hc : Counted map) (h : map.count = 0) : map.nodes = [] := by
  rw [hc] at h
  exact List.length_eq_zero_iff.1 (by exact_mod_cast h)

end Tables

/-! ### Files -/

/-- The file table of `dir` is replaced, and `dir` marked. -/
def putFiles (s : Fs) (dir : Ptr) (map : RamfsFileHashmap) (mem : Memory) : Fs :=
  (s.modifyFolder dir fun f => markDirty (f.setFileMap map)).setMem mem

theorem putFiles_folder (s : Fs) (dir : Ptr) (map : RamfsFileHashmap) (mem : Memory) :
    (putFiles s dir map mem).folders dir = markDirty ((s.folders dir).setFileMap map) := by
  rw [putFiles, Fs.setMem_folders, Fs.modifyFolder_self]

@[simp]
theorem putFiles_foderMap (s : Fs) (dir : Ptr) (map : RamfsFileHashmap) (mem : Memory) :
    ((putFiles s dir map mem).folders dir).foderMap = (s.folders dir).foderMap := by
  rw [putFiles_folder, markDirty_foderMap]
  rfl

@[simp]
theorem putFiles_fileMap (s : Fs) (dir : Ptr) (map : RamfsFileHashmap) (mem : Memory) :
    ((putFiles s dir map mem).folders dir).fileMap = map := by
  rw [putFiles_folder, markDirty_fileMap]
  rfl

/-- The call does nothing to the folders. -/
def OnlyMem (s t : Fs) : Prop := ∃ mem : Memory, s.mem.next ≤ mem.next ∧ t = s.setMem mem

theorem OnlyMem.refl (s : Fs) : OnlyMem s s := ⟨s.mem, le_refl _, rfl⟩

/-- The tag of a file that is made in a folder. -/
def newTag (f : RamfsFoder) : UInt8 := if f.mount = none then RAMFS_TYPE_MEM else RAMFS_TYPE_NEW

theorem touchIn_cases (hu : lazyLoadDirectory s dir = u) (name : CString) :
    OnlyMem u (touchIn s dir name).2 ∨
      ∃ map mem, NameFree u dir name ∧ u.mem.next ≤ mem.next ∧
        Adds (u.folders dir).fileMap map (strcpy127 name)
          ⟨strcpy127 name, newTag (u.folders dir), 0, none, 0⟩ ∧
        (touchIn s dir name).2 = putFiles u dir map mem := by
  rw [touchIn, hu]
  dsimp only
  by_cases hfind : (ramfsHashmapFind (u.folders dir).foderMap name).isSome = true
  · rw [if_pos hfind]
    exact Or.inl (OnlyMem.refl u)
  rw [if_neg hfind]
  by_cases hfile : (ramfsFileHashmapFind (u.folders dir).fileMap name).isSome = true
  · rw [if_pos hfile]
    exact Or.inl (OnlyMem.refl u)
  rw [if_neg hfile, ← newTag, ramfsFileHashmapInsert]
  rw [Option.not_isSome_iff_eq_none] at hfind hfile
  have hnext := next_le_insert fileTable u.mem (u.folders dir).fileMap name
    ⟨name, newTag (u.folders dir), 0, none, 0⟩
  rcases fileTable.insert_of_find_none u.mem ⟨name, newTag (u.folders dir), 0, none, 0⟩ hfile with
    ⟨hok, hadds⟩ | ⟨hfail, -⟩
  · rw [if_pos hok]
    exact Or.inr ⟨_, _, ⟨hfind, hfile⟩, hnext, hadds, rfl⟩
  · rw [if_neg (Bool.eq_false_iff.1 hfail)]
    exact Or.inl ⟨_, hnext, rfl⟩

theorem rmIn_cases (hu : lazyLoadDirectory s dir = u) (name : CString) :
    (rmIn s dir name).2 = u ∨
      ∃ map mem, HasFile u dir name ∧ u.mem.next ≤ mem.next ∧
        Removes fileTable (u.folders dir).fileMap map name ∧
        (rmIn s dir name).2 = putFiles u dir map mem := by
  rw [rmIn, hu]
  dsimp only
  cases hfind : ramfsFileHashmapFind (u.folders dir).fileMap name with
  | none => exact Or.inl rfl
  | some info =>
    obtain ⟨hok, hremoves⟩ := fileTable.delete_of_find (freeData u.mem info) hfind
    have hnext : (ramfsFileHashmapDelete (freeData u.mem info) (u.folders dir).fileMap name).2.2.next =
        u.mem.next := (next_delete _ _ _ _).trans (next_freeData u.mem info)
    dsimp only
    rw [if_pos (show (ramfsFileHashmapDelete _ _ _).1 = true from hok)]
    exact Or.inr ⟨_, _, hasFile_of_find hfind, hnext.ge, hremoves, rfl⟩

/-- The entry of a file whose contents are replaced. -/
def changeFile (data : Option Buffer) (length : ℤ) (finfo : RamfsFileInfo) : RamfsFileInfo :=
  { finfo with ptr := data, length := length, type := changedTag finfo }

/-- New contents are stored to the entry that is found under the name, and the folder is
marked. -/
def StoresFile (s : Fs) (dir : Ptr) (name : CString) (t : Fs) : Prop :=
  ∃ data length mem, s.mem.next ≤ mem.next ∧ 0 ≤ length ∧ length < 2 ^ 32 ∧
    (length = 0 → ∀ buf, data = some buf → buf.bytes = []) ∧
    t = putFiles s dir (ramfsFileHashmapModify (s.folders dir).fileMap name
      (changeFile data length)) mem

theorem modifyFile_markDirty (s : Fs) (dir : Ptr) (name : CString) (mem : Memory)
    (g : RamfsFileInfo → RamfsFileInfo) :
    (modifyFile (s.setMem mem) dir name g).modifyFolder dir markDirty =
      putFiles s dir (ramfsFileHashmapModify (s.folders dir).fileMap name g) mem :=
  Fs.modifyFolder_modifyFolder (s.setMem mem) dir _ _

theorem writeIn_cases (hu : lazyLoadDirectory s dir = u) (name : CString) (data : Data) :
    OnlyMem u (writeIn s dir name data).2 ∨
      HasFile u dir name ∧ StoresFile u dir name (writeIn s dir name data).2 := by
  rw [writeIn, hu]
  dsimp only
  cases hfind : ramfsFileHashmapFind (u.folders dir).fileMap name with
  | none => exact Or.inl (OnlyMem.refl u)
  | some info =>
    have hnext : u.mem.next ≤ ((freeData u.mem info).malloc data.1.length).2.next :=
      (next_freeData u.mem info).ge.trans (Memory.next_le_next_malloc _ _)
    dsimp only
    generalize (freeData u.mem info).malloc data.1.length = a at hnext
    split_ifs
    · exact Or.inl ⟨a.2, hnext, rfl⟩
    · refine Or.inr ⟨hasFile_of_find hfind, a.1.map fun p => ⟨p, data.1⟩, data.1.length, a.2, hnext,
        by omega, ?_, fun hlen buf hbuf => ?_, modifyFile_markDirty u dir name a.2 _⟩
      · exact_mod_cast data.2
      · obtain ⟨p, -, rfl⟩ := Option.map_eq_some_iff.1 hbuf
        exact List.length_eq_zero_iff.1 (by exact_mod_cast hlen)

theorem cutFile_cases (s : Fs) (dir : Ptr) (name : CString) (info : RamfsFileInfo) (count : ℤ) :
    OnlyMem s (cutFile s dir name info count).2 ∨
      info.length ≠ 0 ∧ StoresFile s dir name (cutFile s dir name info count).2 := by
  rw [cutFile]
  dsimp only
  by_cases hlen : info.length = 0
  · rw [if_pos hlen]
    exact Or.inl (OnlyMem.refl s)
  rw [if_neg hlen]
  generalize (if count > info.length then toI32 info.length else count) = n
  have hlt := toU32_lt (info.length - n)
  by_cases hcut : toU32 (info.length - n) = 0
  · rw [if_pos hcut]
    exact Or.inr ⟨hlen, none, 0, freeData s.mem info, (next_freeData s.mem info).ge, le_refl _,
      by norm_num, fun _ buf hbuf => absurd hbuf (by simp), modifyFile_markDirty s dir name _ _⟩
  rw [if_neg hcut]
  have hle := s.mem.next_le_next_malloc (toU32 (info.length - n))
  generalize s.mem.malloc (toU32 (info.length - n)) = a at hle
  obtain ⟨o, mem⟩ := a
  cases o with
  | none => exact Or.inl ⟨mem, hle, rfl⟩
  | some q =>
    refine Or.inr ⟨hlen, _, (toU32 (info.length - n) : ℤ), freeData mem info,
      hle.trans (next_freeData mem info).ge, by omega, by exact_mod_cast hlt, fun hzero => ?_,
      modifyFile_markDirty s dir name _ _⟩
    exact absurd (by exact_mod_cast hzero) hcut

theorem catIn_cases (hu : lazyLoadDirectory s dir = u) (name : CString) :
    (catIn s dir name).2 = u ∨
      ∃ info text, ramfsFileHashmapFind (u.folders dir).fileMap name = some info ∧
        (catIn s dir name).2 = (loadData u dir name info).2.print text := by
  have hprint : ∀ t : Fs, t = t.print [] := fun t => by rw [Fs.print, List.append_nil]
  rw [catIn, hu]
  dsimp only
  cases hfind : ramfsFileHashmapFind (u.folders dir).fileMap name with
  | none => exact Or.inl rfl
  | some info =>
    refine Or.inr ⟨info, ?_⟩
    dsimp only
    generalize loadData u dir name info = l
    split_ifs
    · exact ⟨[], rfl, hprint _⟩
    · cases ramfsFileHashmapFind (l.2.folders dir).fileMap name with
      | none => exact ⟨[], rfl, hprint _⟩
      | some info' =>
        dsimp only
        cases info'.ptr with
        | none => exact ⟨[], rfl, hprint _⟩
        | some buf => exact ⟨_, rfl, rfl⟩

/-- `dfs_load_file_data` changes the data pointer alone. -/
theorem dfsLoadFileData_fst (mem : Memory) (st : Store) (info : RamfsFileInfo) (id : PartId) :
    ∃ data, (dfsLoadFileData mem st info id).2.1 = { info with ptr := data } := by
  rw [dfsLoadFileData]
  split_ifs
  · exact ⟨info.ptr, rfl⟩
  · dsimp only
    cases (mem.malloc (toU32 info.length)).1 with
    | none => exact ⟨info.ptr, rfl⟩
    | some q =>
      dsimp only
      cases (st.read id (toU64 info.driveAddr) (toI32 info.length)).1 with
      | none => exact ⟨info.ptr, rfl⟩
      | some b => exact ⟨_, rfl⟩

/-- After its data is loaded the file is found again, with the same length and address. -/
theorem find_loadData {name : CString} {info : RamfsFileInfo}
    (hfind : ramfsFileHashmapFind (s.folders dir).fileMap name = some info) :
    ∃ data, ramfsFileHashmapFind ((loadData s dir name info).2.folders dir).fileMap name =
      some { info with ptr := data } := by
  rw [loadData]
  cases (s.folders dir).mount with
  | none => exact ⟨info.ptr, hfind⟩
  | some m =>
    obtain ⟨data, heq⟩ := dfsLoadFileData_fst s.mem s.disk.store info (s.mountTable m).part
    refine ⟨data, ?_⟩
    have hself := s.modifyFolder_self dir fun f => f.setFileMap (ramfsFileHashmapModify f.fileMap name
      fun _ => (dfsLoadFileData s.mem s.disk.store info (s.mountTable m).part).2.1)
    refine (congrArg (fun f : RamfsFoder => ramfsFileHashmapFind f.fileMap name) hself).trans ?_
    refine (find_modify _).trans ?_
    rw [show ChainTable.find fileTable.streq djb2Bucket (s.folders dir).fileMap name = some info
      from hfind, heq]
    rfl

theorem backspaceIn_cases (hu : lazyLoadDirectory s dir = u) (name : CString) (count : ℤ) :
    (backspaceIn s dir name count).2 = u ∨
      ∃ info, ramfsFileHashmapFind (u.folders dir).fileMap name = some info ∧
        (OnlyMem (loadData u dir name info).2 (backspaceIn s dir name count).2 ∨
          HasContent u dir name ∧ StoresFile (loadData u dir name info).2 dir name
            (backspaceIn s dir name count).2) := by
  rw [backspaceIn, hu]
  dsimp only
  cases hfind : ramfsFileHashmapFind (u.folders dir).fileMap name with
  | none => exact Or.inl rfl
  | some info =>
    refine Or.inr ⟨info, rfl, ?_⟩
    obtain ⟨data, hfind'⟩ := find_loadData hfind
    dsimp only
    generalize loadData u dir name info = l at hfind'
    split_ifs
    · exact Or.inl (OnlyMem.refl l.2)
    · rw [hfind']
      exact (cutFile_cases l.2 dir name _ count).imp id fun h => ⟨⟨info, hfind, h.1⟩, h.2⟩

/-! ### Directories -/

/-- The object of a directory that is made in `dir`. -/
def newDirNode (s : Fs) (dir : Ptr) (name : CString) : RamfsFoder :=
  { RamfsFoder.zero with
    name := name
    type := if (s.folders dir).mount = none then RAMFS_FOLDER_TYPE_MEM else RAMFS_FOLDER_TYPE_NEW
    parent := some dir
    mount := (s.folders dir).mount }

/-- The end of `fs_mkdir`: the object is made, entered into `dir`, and `dir` marked. -/
def enterDir (u : Fs) (dir : Ptr) (name : CString) (mem : Memory) : ℤ × Fs :=
  let t := (u.setMem mem).setFolder u.mem.next (newDirNode u dir name)
  let r := ramfsHashmapInsert t.mem (t.folders dir).foderMap name
    ⟨name, (newDirNode u dir name).type, u.mem.next, 0⟩
  if r.1 then (0, (t.modifyFolder dir fun f => markDirty (f.setFoderMap r.2.1)).setMem r.2.2)
  else (-5, t.setMem (r.2.2.free u.mem.next))

theorem enterDir_cases {name : CString} {mem : Memory} (hnext : u.mem.next < mem.next)
    (hfind : ramfsHashmapFind (u.folders dir).foderMap name = none) :
    OnlyMem (u.setFolder u.mem.next (newDirNode u dir name)) (enterDir u dir name mem).2 ∨
      ∃ map mem', u.mem.next < mem'.next ∧
        (dir ≠ u.mem.next → Adds (u.folders dir).foderMap map (strcpy127 name)
          ⟨strcpy127 name, (newDirNode u dir name).type, u.mem.next, 0⟩) ∧
        (enterDir u dir name mem).2 = ((u.setFolder u.mem.next (newDirNode u dir name)).modifyFolder
          dir fun f => markDirty (f.setFoderMap map)).setMem mem' := by
  rw [enterDir]
  have hle := next_le_insert foderTable mem (((u.setMem mem).setFolder u.mem.next
    (newDirNode u dir name)).folders dir).foderMap name
    ⟨name, (newDirNode u dir name).type, u.mem.next, 0⟩
  by_cases hok : (ramfsHashmapInsert ((u.setMem mem).setFolder u.mem.next (newDirNode u dir name)).mem
      (((u.setMem mem).setFolder u.mem.next (newDirNode u dir name)).folders dir).foderMap name
      ⟨name, (newDirNode u dir name).type, u.mem.next, 0⟩).1 = true
  · rw [if_pos hok]
    refine Or.inr ⟨_, _, hnext.trans_le hle, fun hne => ?_, rfl⟩
    rw [Fs.setFolder_of_ne _ _ hne] at hok ⊢
    refine ((foderTable.insert_of_find_none mem _ hfind).resolve_right fun hfail => ?_).2
    exact absurd hok (Bool.eq_false_iff.1 hfail.1)
  · rw [if_neg hok]
    refine Or.inl ⟨Memory.free _ u.mem.next, ?_, rfl⟩
    exact hnext.le.trans hle

theorem mkdirIn_cases (hu : lazyLoadDirectory s dir = u) (name : CString) :
    OnlyMem u (mkdirIn s dir name).2 ∨
      NameFree u dir name ∧ ∃ mem, u.mem.next < mem.next ∧
        mkdirIn s dir name = enterDir u dir name mem := by
  rw [mkdirIn, hu]
  dsimp only
  by_cases hfind : (ramfsHashmapFind (u.folders dir).foderMap name).isSome = true
  · rw [if_pos hfind]
    exact Or.inl (OnlyMem.refl u)
  rw [if_neg hfind]
  by_cases hfile : (ramfsFileHashmapFind (u.folders dir).fileMap name).isSome = true
  · rw [if_pos hfile]
    exact Or.inl (OnlyMem.refl u)
  rw [if_neg hfile]
  rw [Option.not_isSome_iff_eq_none] at hfind hfile
  cases ha : (u.mem.malloc sizeofRamfsFoder).1 with
  | none => exact Or.inl ⟨_, u.mem.next_le_next_malloc _, rfl⟩
  | some sub =>
    obtain ⟨rfl, hnext⟩ := Memory.malloc_eq_some ha
    exact Or.inr ⟨⟨hfind, hfile⟩, _, (Nat.lt_succ_self _).trans_eq hnext.symm, rfl⟩

/-- The tables of a folder after they were destroyed. -/
def emptyTables (f : RamfsFoder) : RamfsFoder := (f.setFoderMap Table.empty).setFileMap Table.empty

theorem rmdirIn_cases (hu : lazyLoadDirectory s dir = u) (name : CString) :
    (rmdirIn s dir name).2 = u ∨
      ∃ info map mem, ramfsHashmapFind (u.folders dir).foderMap name = some info ∧
        (u.folders info.ptr).foderMap.count = 0 ∧ (u.folders info.ptr).fileMap.count = 0 ∧
        Removes foderTable (u.folders dir).foderMap map name ∧ mem.next = u.mem.next ∧
        (rmdirIn s dir name).2 = (((u.modifyFolder dir (·.setFoderMap map)).modifyFolder info.ptr
          emptyTables).modifyFolder dir markDirty).setMem mem := by
  rw [rmdirIn, hu]
  dsimp only
  cases hfind : ramfsHashmapFind (u.folders dir).foderMap name with
  | none => exact Or.inl rfl
  | some info =>
    dsimp only
    split_ifs with hcount
    · exact Or.inl rfl
    rw [not_or, not_not, not_not] at hcount
    refine Or.inr ⟨info, _, _, rfl, hcount.1, hcount.2, (foderTable.delete_of_find u.mem hfind).2, ?_,
      rfl⟩
    exact ((next_tableDestroy _ _).trans (next_tableDestroy _ _)).trans (next_delete _ _ _ _)

end LittleLinux
