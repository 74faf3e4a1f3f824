import LittleLinux.Dfs.Allocated
import LittleLinux.Dfs.LiveUse
import LittleLinux.Ramfs.DirectoryCalls

/-!
# The calls without a mount

With nothing mounted no directory is ever loaded, and what a call does to the memory can be said
exactly: which addresses it takes, which it releases, and what it stores. `RamEffect` lists the
nine things that can happen to the directory a call works in, with the code that is answered, and
`RamInv` is what they all keep: the tables are in order, every entry leads to a directory of that
name that points back, no name is in both tables.
-/

namespace LittleLinux

open ChainTable

/-! ### The invariant -/

/-- The entry `nd` of the directory `d` leads to a directory of that name, made after `d`, whose
parent is `d`. -/
structure PointsBack (s : Fs) (d : Ptr) (nd : Node CString RamfsFoderInfo) : Prop where
  name : (s.folders nd.value.ptr).name = nd.key
  parent : (s.folders nd.value.ptr).parent = some d
  lt : d < nd.value.ptr

/-- What holds in every state that the calls reach without a mount. -/
structure RamInv (s : Fs) : Prop extends Allocated s where
  plain : ∀ p, (s.folders p).type = RAMFS_FOLDER_TYPE_MEM ∧ (s.folders p).mount = none
  foders : ∀ p, Rep djb2Bucket (s.folders p).foderMap
  files : ∀ p, Rep djb2Bucket (s.folders p).fileMap
  entry : ∀ d, ∀ nd ∈ (s.folders d).foderMap.nodes, PointsBack s d nd
  apart : ∀ d, ∀ nd ∈ (s.folders d).foderMap.nodes, ∀ fd ∈ (s.folders d).fileMap.nodes,
    nd.key ≠ fd.key

/-! ### What can happen -/

/-- The state after a directory was made in `dir`: its object at the first new address, the node
of its entry at the second. -/
def madeDir (s : Fs) (dir : Ptr) (name : CString) : Fs :=
  ((s.setFolder s.mem.next (newDirNode s dir name)).modifyFolder dir (·.setFoderMap
    (pushNode djb2Bucket (s.folders dir).foderMap ⟨s.mem.next + 1, name,
      ⟨name, (newDirNode s dir name).type, s.mem.next, 0⟩⟩))).setMem (s.mem.skip 2)

/-- The state after the entry `nd` of `dir`, found under a name, was removed with its empty
directory. -/
def removedDir (s : Fs) (dir : Ptr) (name : CString) (nd : Node CString RamfsFoderInfo) : Fs :=
  ((s.modifyFolder dir (·.setFoderMap
    (ChainTable.delete foderTable.streq djb2Bucket (s.folders dir).foderMap name).2)).modifyFolder
      nd.value.ptr emptyTables).setMem ((s.mem.free nd.addr).free nd.value.ptr)

/-- What a call in the directory `dir` can do and answer. It loses a buffer only where `L`
holds. -/
inductive RamEffect (s : Fs) (dir : Ptr) (L : Prop) : ℤ → Fs → Prop
  /-- Addresses are asked for, and nothing is done with them. -/
  | idle (code : ℤ) (n : ℕ) : RamEffect s dir L code (s.setMem (s.mem.skip n))
  | printed (text : List UInt8) : RamEffect s dir L 0 (s.print text)
  | made (name : CString) (hlen : name.chars.length ≤ 127) (hfree : NameFree s dir name)
    (hgrants : s.mem.Grants 2) : RamEffect s dir L 0 (madeDir s dir name)
  /-- The object of a directory is made, and released for want of a node. -/
  | unmade (name : CString) : RamEffect s dir L (-5)
    ((s.setFolder s.mem.next (newDirNode s dir name)).setMem ((s.mem.skip 2).free s.mem.next))
  | removed (name : CString) (nd : Node CString RamfsFoderInfo)
    (hfind : findNode foderTable.streq djb2Bucket (s.folders dir).foderMap name = some nd)
    (hfoders : (s.folders nd.value.ptr).foderMap.nodes = [])
    (hfiles : (s.folders nd.value.ptr).fileMap.nodes = []) :
    RamEffect s dir L 0 (removedDir s dir name nd)
  | touched (name : CString) (hlen : name.chars.length ≤ 127) (hfree : NameFree s dir name)
    (hgrants : s.mem.Grants 1) :
    RamEffect s dir L 0 (putFiles s dir (pushNode djb2Bucket (s.folders dir).fileMap
      ⟨s.mem.next, name, ⟨name, RAMFS_TYPE_MEM, 0, none, 0⟩⟩) (s.mem.skip 1))
  | deleted (name : CString) (nd : Node CString RamfsFileInfo)
    (hfind : findNode fileTable.streq djb2Bucket (s.folders dir).fileMap name = some nd) :
    RamEffect s dir L 0 (putFiles s dir
      (ChainTable.delete fileTable.streq djb2Bucket (s.folders dir).fileMap name).2
      ((freeData s.mem nd.value).free nd.addr))
  /-- New contents are stored, in a new buffer or in none, and the old buffer is released. -/
  | stored (name : CString) (nd : Node CString RamfsFileInfo) (data : Option Buffer) (length : ℤ)
    (n : ℕ) (hfind : findNode fileTable.streq djb2Bucket (s.folders dir).fileMap name = some nd)
    (hdata : ∀ buf, data = some buf → buf.addr = s.mem.next ∧ n = 1 ∧ s.mem.Grants 1) :
    RamEffect s dir L 0 (putFiles s dir
      (ramfsFileHashmapModify (s.folders dir).fileMap name (changeFile data length))
      ((freeData s.mem nd.value).skip n))
  /-- The buffer of a file is released, and no other can be had. -/
  | lost (name : CString) (nd : Node CString RamfsFileInfo) (buf : Buffer)
    (hfind : findNode fileTable.streq djb2Bucket (s.folders dir).fileMap name = some nd)
    (hbuf : nd.value.ptr = some buf) (hL : L) :
    RamEffect s dir L (-4) (s.setMem ((s.mem.free buf.addr).skip 1))

/-! ### The calls -/

section Calls

variable {s : Fs} {dir : Ptr} {name : CString} {L : Prop}

theorem RamInv.lazyLoad (h : RamInv s) (dir : Ptr) : lazyLoadDirectory s dir = s := by
  rw [lazyLoadDirectory, if_neg]
  rintro ⟨hclean, -⟩
  rw [(h.plain dir).1] at hclean
  exact absurd hclean (by decide)

/-- A call that answers without doing anything. -/
theorem RamEffect.refl (s : Fs) (dir : Ptr) (L : Prop) (code : ℤ) : RamEffect s dir L code s :=
  RamEffect.idle code 0

/-- What an insertion under a name that is not found does. -/
theorem NamedTable.insert_cases {V : Type} (T : NamedTable V) (hsize : T.nodeSize ≠ 0)
    {map : Table BUCKETS CString V} (hlen : name.chars.length ≤ 127) (hfind : T.find map name = none)
    (mem : Memory) (v : V) :
    (mem.Grants 1 ∧ T.insert mem map name v =
        (true, pushNode djb2Bucket map ⟨mem.next, name, T.setName name v⟩, mem.skip 1)) ∨
      T.insert mem map name v = (false, map, mem.skip 1) := by
  by_cases hgrants : mem.grants mem.calls = true
  · exact Or.inl ⟨mem.grants_one.2 hgrants, T.insert_granted hsize hlen hfind hgrants v⟩
  · exact Or.inr (T.insert_refused hsize hfind (by simpa using hgrants) v)

theorem RamInv.touchIn (h : RamInv s) (hlen : name.chars.length ≤ 127) :
    RamEffect s dir L (touchIn s dir name).1 (touchIn s dir name).2 := by
  rw [LittleLinux.touchIn, h.lazyLoad]
  dsimp only
  by_cases hfind : (ramfsHashmapFind (s.folders dir).foderMap name).isSome = true
  · rw [if_pos hfind]
    exact RamEffect.refl s dir L _
  rw [if_neg hfind]
  by_cases hfile : (ramfsFileHashmapFind (s.folders dir).fileMap name).isSome = true
  · rw [if_pos hfile]
    exact RamEffect.refl s dir L _
  rw [if_neg hfile, if_pos (h.plain dir).2]
  rw [Option.not_isSome_iff_eq_none] at hfind hfile
  rcases fileTable.insert_cases (by decide) hlen hfile s.mem ⟨name, RAMFS_TYPE_MEM, 0, none, 0⟩ with
    ⟨hgrants, heq⟩ | heq
  · rw [ramfsFileHashmapInsert, heq, if_pos rfl]
    exact RamEffect.touched name hlen ⟨hfind, hfile⟩ hgrants
  · rw [ramfsFileHashmapInsert, heq, if_neg (by simp)]
    exact RamEffect.idle (-5) 1

theorem RamInv.rmIn (h : RamInv s) : RamEffect s dir L (rmIn s dir name).1 (rmIn s dir name).2 := by
  rw [LittleLinux.rmIn, h.lazyLoad]
  dsimp only
  cases hnode : findNode fileTable.streq djb2Bucket (s.folders dir).fileMap name with
  | none =>
    rw [show ramfsFileHashmapFind (s.folders dir).fileMap name = none from
      fileTable.find_eq_none_iff.2 hnode]
    exact RamEffect.refl s dir L _
  | some nd =>
    have hfind : ramfsFileHashmapFind (s.folders dir).fileMap name = some nd.value :=
      Option.map_eq_some_iff.2 ⟨nd, hnode, rfl⟩
    have hdelete : ramfsFileHashmapDelete (freeData s.mem nd.value) (s.folders dir).fileMap name =
        (true, (ChainTable.delete fileTable.streq djb2Bucket (s.folders dir).fileMap name).2,
          (freeData s.mem nd.value).free nd.addr) := by
      rw [ramfsFileHashmapDelete, NamedTable.delete, hnode, ChainTable.delete, hnode]
    rw [hfind]
    dsimp only
    rw [hdelete, if_pos rfl]
    exact RamEffect.deleted name nd hnode

/-- A file that is found, by its node. -/
theorem exists_findNode_of_find {info : RamfsFileInfo}
    (hfind : ramfsFileHashmapFind (s.folders dir).fileMap name = some info) :
    ∃ nd, findNode fileTable.streq djb2Bucket (s.folders dir).fileMap name = some nd ∧
      nd.value = info :=
  Option.map_eq_some_iff.1 hfind

variable (dir name) in
theorem RamInv.writeIn (h : RamInv s) (data : Data) :
    RamEffect s dir (WriteLoses s dir name data) (writeIn s dir name data).1
      (writeIn s dir name data).2 := by
  rw [LittleLinux.writeIn, h.lazyLoad]
  dsimp only
  cases hfind : ramfsFileHashmapFind (s.folders dir).fileMap name with
  | none => exact RamEffect.refl s dir _ _
  | some info =>
    obtain ⟨nd, hnode, rfl⟩ := exists_findNode_of_find hfind
    dsimp only
    by_cases hzero : data.1.length = 0
    · -- no bytes: no buffer is asked for
      rw [Memory.malloc, if_pos hzero, if_neg (by omega), modifyFile_markDirty]
      exact RamEffect.stored name nd none data.1.length 0 hnode fun buf hbuf => by cases hbuf
    have hcalls : (freeData s.mem nd.value).grants (freeData s.mem nd.value).calls =
        s.mem.grants s.mem.calls := by
      rw [freeData.eq_def]
      cases nd.value.ptr with
      | none => rfl
      | some buf => rfl
    rw [Memory.malloc_of_ne_zero _ hzero, hcalls]
    by_cases hgrants : s.mem.grants s.mem.calls = true
    · rw [if_pos hgrants, if_neg (by simp), modifyFile_markDirty]
      refine RamEffect.stored name nd (some ⟨(freeData s.mem nd.value).next, data.1⟩) data.1.length 1
        hnode fun buf hbuf => ?_
      obtain rfl := Option.some.inj hbuf
      exact ⟨next_freeData s.mem nd.value, rfl, s.mem.grants_one.2 hgrants⟩
    · rw [if_neg hgrants, if_pos ⟨rfl, Nat.pos_of_ne_zero hzero⟩]
      cases hbuf : nd.value.ptr with
      | none =>
        rw [freeData, hbuf]
        exact RamEffect.idle (-4) 1
      | some buf =>
        rw [freeData, hbuf]
        exact RamEffect.lost name nd buf hnode hbuf
          ⟨nd.value, buf, hfind, hbuf, hzero, by simpa using hgrants⟩

theorem RamInv.cutFile {nd : Node CString RamfsFileInfo}
    (hnode : findNode fileTable.streq djb2Bucket (s.folders dir).fileMap name = some nd) (count : ℤ) :
    RamEffect s dir L (cutFile s dir name nd.value count).1 (cutFile s dir name nd.value count).2 := by
  rw [LittleLinux.cutFile]
  dsimp only
  by_cases hlen : nd.value.length = 0
  · rw [if_pos hlen]
    exact RamEffect.refl s dir L _
  rw [if_neg hlen]
  generalize (if count > nd.value.length then toI32 nd.value.length else count) = n
  by_cases hcut : toU32 (nd.value.length - n) = 0
  · rw [if_pos hcut, modifyFile_markDirty]
    exact RamEffect.stored name nd none 0 0 hnode fun buf hbuf => by cases hbuf
  rw [if_neg hcut, Memory.malloc_of_ne_zero _ hcut]
  by_cases hgrants : s.mem.grants s.mem.calls = true
  · rw [if_pos hgrants]
    dsimp only
    have hmem : freeData (s.mem.skip 1) nd.value = (freeData s.mem nd.value).skip 1 := by
      rw [freeData, freeData]
      cases nd.value.ptr with
      | none => rfl
      | some buf => rfl
    rw [modifyFile_markDirty, hmem]
    refine RamEffect.stored name nd (some _) _ 1 hnode fun buf hbuf => ?_
    obtain rfl := Option.some.inj hbuf
    exact ⟨rfl, rfl, s.mem.grants_one.2 hgrants⟩
  · rw [if_neg hgrants]
    exact RamEffect.idle (-6) 1

theorem RamInv.loadData (h : RamInv s) (info : RamfsFileInfo) : loadData s dir name info = (0, s) := by
  rw [LittleLinux.loadData, (h.plain dir).2]

theorem RamInv.backspaceIn (h : RamInv s) (count : ℤ) :
    RamEffect s dir L (backspaceIn s dir name count).1 (backspaceIn s dir name count).2 := by
  rw [LittleLinux.backspaceIn, h.lazyLoad]
  dsimp only
  cases hfind : ramfsFileHashmapFind (s.folders dir).fileMap name with
  | none => exact RamEffect.refl s dir L _
  | some info =>
    obtain ⟨nd, hnode, rfl⟩ := exists_findNode_of_find hfind
    dsimp only
    rw [h.loadData, if_neg (by simp)]
    dsimp only
    rw [hfind]
    exact RamInv.cutFile hnode count

theorem RamInv.catIn (h : RamInv s) :
    RamEffect s dir L (catIn s dir name).1 (catIn s dir name).2 := by
  rw [LittleLinux.catIn, h.lazyLoad]
  dsimp only
  cases hfind : ramfsFileHashmapFind (s.folders dir).fileMap name with
  | none => exact RamEffect.refl s dir L _
  | some info =>
    dsimp only
    rw [h.loadData, if_neg (by simp)]
    dsimp only
    rw [hfind]
    dsimp only
    cases info.ptr with
    | none => exact RamEffect.refl s dir L _
    | some buf => exact RamEffect.printed _

/-- What `fs_mkdir` does in a directory: nothing but to ask for addresses, and it answers an error;
or it makes the directory; or it releases the new object for want of a node. -/
theorem RamInv.mkdirIn_outcome (h : RamInv s) (hdir : dir < s.mem.next) (hlen : name.chars.length ≤ 127) :
    (∃ code n, code ≠ 0 ∧ mkdirIn s dir name = (code, s.setMem (s.mem.skip n))) ∨
      (NameFree s dir name ∧ s.mem.Grants 2 ∧ mkdirIn s dir name = (0, madeDir s dir name)) ∨
        mkdirIn s dir name = (-5, (s.setFolder s.mem.next (newDirNode s dir name)).setMem
          ((s.mem.skip 2).free s.mem.next)) := by
  rw [LittleLinux.mkdirIn, h.lazyLoad]
  dsimp only
  by_cases hfind : (ramfsHashmapFind (s.folders dir).foderMap name).isSome = true
  · rw [if_pos hfind]
    exact Or.inl ⟨-3, 0, by decide, rfl⟩
  rw [if_neg hfind]
  by_cases hfile : (ramfsFileHashmapFind (s.folders dir).fileMap name).isSome = true
  · rw [if_pos hfile]
    exact Or.inl ⟨-4, 0, by decide, rfl⟩
  rw [if_neg hfile, Memory.malloc_of_ne_zero _ (by decide)]
  rw [Option.not_isSome_iff_eq_none] at hfind hfile
  by_cases hgrants : s.mem.grants s.mem.calls = true
  swap
  · rw [if_neg hgrants]
    exact Or.inl ⟨-5, 1, by decide, rfl⟩
  rw [if_pos hgrants]
  dsimp only
  have hne := Nat.ne_of_lt hdir
  have htype : (if (s.folders dir).mount = none then RAMFS_FOLDER_TYPE_MEM
      else RAMFS_FOLDER_TYPE_NEW) = (newDirNode s dir name).type := rfl
  rw [Fs.setFolder_of_ne _ _ hne, Fs.setFolder_mem, Fs.setMem_mem, Fs.setMem_folders,
    ramfsHashmapInsert, htype]
  rcases foderTable.insert_cases (by decide) hlen hfind (s.mem.skip 1)
    ⟨name, (newDirNode s dir name).type, s.mem.next, 0⟩ with ⟨hmore, heq⟩ | heq
  · have hmark : ∀ map, LittleLinux.markDirty ((s.folders dir).setFoderMap map) =
        (s.folders dir).setFoderMap map := fun map => markDirty_of_mem (h.plain dir).1
    refine Or.inr (Or.inl
      ⟨⟨hfind, hfile⟩, (s.mem.grants_add 1 1).2 ⟨s.mem.grants_one.2 hgrants, hmore⟩, ?_⟩)
    rw [heq, if_pos rfl, Fs.modifyFolder, Fs.setFolder_of_ne _ _ hne, Fs.setMem_folders, hmark,
      LittleLinux.madeDir, Fs.modifyFolder, Fs.setFolder_of_ne _ _ hne]
    rfl
  · rw [heq, if_neg (by simp)]
    exact Or.inr (Or.inr rfl)

theorem RamInv.mkdirIn (h : RamInv s) (hdir : dir < s.mem.next) (hlen : name.chars.length ≤ 127) :
    RamEffect s dir L (mkdirIn s dir name).1 (mkdirIn s dir name).2 := by
  rcases h.mkdirIn_outcome hdir hlen with ⟨code, n, -, heq⟩ | ⟨hfree, hgrants, heq⟩ | heq
  · rw [heq]
    exact RamEffect.idle code n
  · rw [heq]
    exact RamEffect.made name hlen hfree hgrants
  · rw [heq]
    exact RamEffect.unmade name

theorem tableDestroy_of_nil {V : Type} (mem : Memory) {map : Table BUCKETS CString V}
    (h : map.nodes = []) : tableDestroy mem map = (Table.empty, mem) := by
  rw [tableDestroy, h, List.foldl_nil]

theorem RamInv.rmdirIn (h : RamInv s) :
    RamEffect s dir L (rmdirIn s dir name).1 (rmdirIn s dir name).2 := by
  rw [LittleLinux.rmdirIn, h.lazyLoad]
  dsimp only
  cases hnode : findNode foderTable.streq djb2Bucket (s.folders dir).foderMap name with
  | none =>
    rw [show ramfsHashmapFind (s.folders dir).foderMap name = none from
      foderTable.find_eq_none_iff.2 hnode]
    exact RamEffect.refl s dir L _
  | some nd =>
    have hfind : ramfsHashmapFind (s.folders dir).foderMap name = some nd.value :=
      Option.map_eq_some_iff.2 ⟨nd, hnode, rfl⟩
    rw [hfind]
    dsimp only
    by_cases hcount : (s.folders nd.value.ptr).foderMap.count ≠ 0 ∨
        (s.folders nd.value.ptr).fileMap.count ≠ 0
    · rw [if_pos hcount]
      exact RamEffect.refl s dir L _
    rw [if_neg hcount]
    rw [not_or, not_not, not_not] at hcount
    have hfoders := Counted.nodes_eq_nil (h.foders nd.value.ptr).count_eq hcount.1
    have hfiles := Counted.nodes_eq_nil (h.files nd.value.ptr).count_eq hcount.2
    have hlt := (h.entry dir nd (mem_nodes_of_findNode hnode)).lt
    have hne : nd.value.ptr ≠ dir := Nat.ne_of_gt hlt
    have hdelete : ramfsHashmapDelete s.mem (s.folders dir).foderMap name =
        (true, (ChainTable.delete foderTable.streq djb2Bucket (s.folders dir).foderMap name).2,
          s.mem.free nd.addr) := by
      rw [ramfsHashmapDelete, NamedTable.delete, hnode, ChainTable.delete, hnode]
    have hremoved : RamEffect s dir L 0 (LittleLinux.removedDir s dir name nd) :=
      RamEffect.removed name nd hnode hfoders hfiles
    rw [hdelete]
    dsimp only
    rw [Fs.setMem_folders, Fs.modifyFolder_of_ne _ _ hne, ramfsHashmapDestroy, ramfsFileHashmapDestroy,
      tableDestroy_of_nil _ hfoders, tableDestroy_of_nil _ hfiles]
    rw [LittleLinux.removedDir] at hremoved
    -- the directory is in memory, and is not marked
    have hmark : ∀ t : Fs, (t.folders dir).type = RAMFS_FOLDER_TYPE_MEM →
        t.modifyFolder dir LittleLinux.markDirty = t := by
      intro t ht
      rw [Fs.modifyFolder, markDirty_of_mem ht, Fs.setFolder, Function.update_eq_self]
    rw [hmark]
    · exact hremoved
    · rw [Fs.setMem_folders, Fs.modifyFolder_of_ne _ _ hne.symm, Fs.setMem_folders, Fs.modifyFolder_self]
      exact (h.plain dir).1

end Calls

/-! ### What the invariant survives -/

section Keep

variable {s t : Fs} {dir : Ptr} {name : CString} {mem : Memory}

/-- The folders stay as they are. -/
theorem RamInv.of_folders (h : RamInv s) (hnext : s.mem.next ≤ t.mem.next)
    (hcur : t.currentDir = s.currentDir) (hfolders : t.folders = s.folders) : RamInv t where
  parent := fun p q hq => (h.parent p q (hfolders ▸ hq)).trans_le hnext
  child := fun p nd hnd => (h.child p nd (hfolders ▸ hnd)).trans_le hnext
  currentDir := by
    rw [hcur]
    exact h.currentDir.trans_le hnext
  plain := hfolders ▸ h.plain
  foders := hfolders ▸ h.foders
  files := hfolders ▸ h.files
  entry := by
    intro d nd hnd
    rw [hfolders] at hnd
    have hback := h.entry d nd hnd
    exact ⟨hfolders ▸ hback.name, hfolders ▸ hback.parent, hback.lt⟩
  apart := hfolders ▸ h.apart

/-- **The tables of one folder change.** -/
theorem RamInv.setTables (h : RamInv s) {f : RamfsFoder} (hnext : s.mem.next ≤ mem.next)
    (hname : f.name = (s.folders dir).name) (hparent : f.parent = (s.folders dir).parent)
    (hplain : f.type = RAMFS_FOLDER_TYPE_MEM ∧ f.mount = none)
    (hfoders : Rep djb2Bucket f.foderMap) (hfiles : Rep djb2Bucket f.fileMap)
    (hentry : ∀ nd ∈ f.foderMap.nodes, PointsBack s dir nd ∧ nd.value.ptr < mem.next)
    (hapart : ∀ nd ∈ f.foderMap.nodes, ∀ fd ∈ f.fileMap.nodes, nd.key ≠ fd.key) :
    RamInv ((s.setFolder dir f).setMem mem) := by
  have hself := s.setFolder_self dir f
  have hother : ∀ p, p ≠ dir → (s.setFolder dir f).folders p = s.folders p :=
    fun p hp => s.setFolder_of_ne _ hp
  -- names and parents stay everywhere, so an entry points back to its folder as before
  have hhead : ∀ p, ((s.setFolder dir f).folders p).name = (s.folders p).name ∧
      ((s.setFolder dir f).folders p).parent = (s.folders p).parent := by
    intro p
    rcases eq_or_ne p dir with rfl | hne
    · rw [hself]
      exact ⟨hname, hparent⟩
    · rw [hother p hne]
      exact ⟨rfl, rfl⟩
  have hall : ∀ d, ∀ nd ∈ ((s.setFolder dir f).folders d).foderMap.nodes,
      PointsBack s d nd ∧ nd.value.ptr < mem.next := by
    intro d nd hnd
    rcases eq_or_ne d dir with rfl | hne
    · rw [hself] at hnd
      exact hentry nd hnd
    · rw [hother d hne] at hnd
      exact ⟨h.entry d nd hnd, (h.child d nd hnd).trans_le hnext⟩
  refine ⟨⟨⟨fun p q hq => ?_, fun p nd hnd => (hall p nd hnd).2⟩, h.currentDir.trans_le hnext⟩,
    fun p => ?_, fun p => ?_, fun p => ?_, fun d nd hnd => ?_, fun d => ?_⟩
  · exact (h.parent p q ((hhead p).2.symm.trans hq)).trans_le hnext
  · rcases eq_or_ne p dir with rfl | hne
    · rw [Fs.setMem_folders, hself]
      exact hplain
    · rw [Fs.setMem_folders, hother p hne]
      exact h.plain p
  · rcases eq_or_ne p dir with rfl | hne
    · rw [Fs.setMem_folders, hself]
      exact hfoders
    · rw [Fs.setMem_folders, hother p hne]
      exact h.foders p
  · rcases eq_or_ne p dir with rfl | hne
    · rw [Fs.setMem_folders, hself]
      exact hfiles
    · rw [Fs.setMem_folders, hother p hne]
      exact h.files p
  · obtain ⟨hback, -⟩ := hall d nd hnd
    exact ⟨(hhead _).1.trans hback.name, (hhead _).2.trans hback.parent, hback.lt⟩
  · rcases eq_or_ne d dir with rfl | hne
    · rw [Fs.setMem_folders, hself]
      exact hapart
    · rw [Fs.setMem_folders, hother d hne]
      exact h.apart d

theorem RamInv.putFiles (h : RamInv s) {map : RamfsFileHashmap} (hnext : s.mem.next ≤ mem.next)
    (hrep : Rep djb2Bucket map)
    (hapart : ∀ nd ∈ (s.folders dir).foderMap.nodes, ∀ fd ∈ map.nodes, nd.key ≠ fd.key) :
    RamInv (putFiles s dir map mem) := by
  have hmark : LittleLinux.markDirty ((s.folders dir).setFileMap map) = (s.folders dir).setFileMap map :=
    markDirty_of_mem (h.plain dir).1
  rw [LittleLinux.putFiles, Fs.modifyFolder, hmark]
  exact h.setTables hnext rfl rfl (h.plain dir) (h.foders dir) hrep
    (fun nd hnd => ⟨h.entry dir nd hnd, (h.child dir nd hnd).trans_le hnext⟩) hapart

theorem RamInv.setFoders (h : RamInv s) {map : RamfsHashmap} (hnext : s.mem.next ≤ mem.next)
    (hrep : Rep djb2Bucket map)
    (hentry : ∀ nd ∈ map.nodes, PointsBack s dir nd ∧ nd.value.ptr < mem.next)
    (hapart : ∀ nd ∈ map.nodes, ∀ fd ∈ (s.folders dir).fileMap.nodes, nd.key ≠ fd.key) :
    RamInv ((s.modifyFolder dir (·.setFoderMap map)).setMem mem) :=
  h.setTables hnext rfl rfl (h.plain dir) hrep (h.files dir) hentry hapart

theorem RamInv.emptyTables (h : RamInv s) (dir : Ptr) (hnext : s.mem.next ≤ mem.next) :
    RamInv ((s.modifyFolder dir emptyTables).setMem mem) :=
  h.setTables hnext rfl rfl (h.plain dir) (rep_empty djb2Bucket) (rep_empty djb2Bucket)
    (fun _ hnd => absurd (nodes_empty ▸ hnd) List.not_mem_nil)
    fun _ hnd => absurd (nodes_empty ▸ hnd) List.not_mem_nil

/-- An object is made at the first new address. -/
theorem RamInv.fresh (h : RamInv s) (hdir : dir < s.mem.next) (name : CString)
    (hnext : s.mem.next < mem.next) :
    RamInv ((s.setFolder s.mem.next (newDirNode s dir name)).setMem mem) := by
  have hself := s.setFolder_self s.mem.next (newDirNode s dir name)
  have hother : ∀ p, p ≠ s.mem.next → (s.setFolder s.mem.next (newDirNode s dir name)).folders p =
      s.folders p := fun p hp => s.setFolder_of_ne _ hp
  have hkid : ∀ d, ∀ nd ∈ (s.folders d).foderMap.nodes, nd.value.ptr ≠ s.mem.next :=
    fun d nd hnd => Nat.ne_of_lt (h.child d nd hnd)
  -- each clause speaks of the new folder, whose tables are empty, or of one that has not changed
  refine ⟨⟨⟨fun p q hq => ?_, fun p nd hnd => ?_⟩, h.currentDir.trans hnext⟩, fun p => ?_, fun p => ?_,
    fun p => ?_, fun d nd hnd => ?_, fun d => ?_⟩
  all_goals rw [Fs.setMem_folders] at *
  · rcases eq_or_ne p s.mem.next with rfl | hne
    · rw [hself] at hq
      obtain rfl := Option.some.inj hq
      exact hdir.trans hnext
    · rw [hother p hne] at hq
      exact (h.parent p q hq).trans hnext
  · rcases eq_or_ne p s.mem.next with rfl | hne
    · rw [hself] at hnd
      exact absurd (nodes_empty ▸ hnd : nd ∈ []) List.not_mem_nil
    · rw [hother p hne] at hnd
      exact (h.child p nd hnd).trans hnext
  · rcases eq_or_ne p s.mem.next with rfl | hne
    · rw [hself]
      exact ⟨if_pos (h.plain dir).2, (h.plain dir).2⟩
    · rw [hother p hne]
      exact h.plain p
  · rcases eq_or_ne p s.mem.next with rfl | hne
    · rw [hself]
      exact rep_empty djb2Bucket
    · rw [hother p hne]
      exact h.foders p
  · rcases eq_or_ne p s.mem.next with rfl | hne
    · rw [hself]
      exact rep_empty djb2Bucket
    · rw [hother p hne]
      exact h.files p
  · rcases eq_or_ne d s.mem.next with rfl | hne
    · rw [hself] at hnd
      exact absurd (nodes_empty ▸ hnd : nd ∈ []) List.not_mem_nil
    · rw [hother d hne] at hnd
      have hback := h.entry d nd hnd
      have hfolder := hother _ (hkid d nd hnd)
      refine ⟨?_, ?_, hback.lt⟩
      · rw [Fs.setMem_folders, hfolder]
        exact hback.name
      · rw [Fs.setMem_folders, hfolder]
        exact hback.parent
  · rcases eq_or_ne d s.mem.next with rfl | hne
    · rw [hself]
      exact fun nd hnd => absurd (nodes_empty ▸ hnd : nd ∈ []) List.not_mem_nil
    · rw [hother d hne]
      exact h.apart d

/-- A name that is not found is no key. -/
theorem RamInv.key_ne (h : RamInv s) (hfree : NameFree s dir name) :
    (∀ nd ∈ (s.folders dir).foderMap.nodes, nd.key ≠ name) ∧
      ∀ fd ∈ (s.folders dir).fileMap.nodes, fd.key ≠ name := by
  obtain ⟨hfoder, hfile⟩ := hfree
  rw [ramfsHashmapFind_eq_lookup] at hfoder
  refine ⟨(lookup_eq_none_iff (h.foders dir)).1 hfoder, ?_⟩
  refine (lookup_eq_none_iff (h.files dir)).1 ?_
  by_contra hne
  exact NamedTable.find_ne_none (h.files dir) (fileStreq_self name) hne hfile

theorem RamInv.madeDir (h : RamInv s) (hdir : dir < s.mem.next) (hfree : NameFree s dir name) :
    RamInv (madeDir s dir name) := by
  obtain ⟨hfoders, hfiles⟩ := h.key_ne hfree
  have hne := Nat.ne_of_lt hdir
  have hfresh : RamInv (s.setFolder s.mem.next (newDirNode s dir name) |>.setMem (s.mem.skip 1)) :=
    h.fresh hdir name (by rw [Memory.next_skip]; exact Nat.lt_succ_self _)
  have hfolder : (s.setFolder s.mem.next (newDirNode s dir name)).folders dir = s.folders dir :=
    s.setFolder_of_ne _ hne
  have hnext : (s.mem.skip 1).next ≤ (s.mem.skip 2).next := by
    rw [Memory.next_skip, Memory.next_skip]
    exact Nat.add_le_add_left (by decide) _
  refine hfresh.setFoders hnext ?_ (fun nd hnd => ?_) fun nd hnd fd hfd => ?_
  · exact rep_pushNode (h.foders dir) ((lookup_eq_none_iff (h.foders dir)).2 hfoders)
  · rcases List.mem_cons.1 ((nodes_pushNode_perm _ _).mem_iff.1 hnd) with rfl | hold
    · have hself := s.setFolder_self s.mem.next (newDirNode s dir name)
      refine ⟨⟨?_, ?_, hdir⟩, ?_⟩
      · rw [Fs.setMem_folders, hself]
        rfl
      · rw [Fs.setMem_folders, hself]
        rfl
      · rw [Memory.next_skip]
        exact Nat.lt_add_of_pos_right Nat.two_pos
    · have hmem : nd ∈ (((s.setFolder s.mem.next (newDirNode s dir name)).setMem
          (s.mem.skip 1)).folders dir).foderMap.nodes := by
        rw [Fs.setMem_folders, hfolder]
        exact hold
      exact ⟨hfresh.entry dir nd hmem, (hfresh.child dir nd hmem).trans_le hnext⟩
  · rw [Fs.setMem_folders, hfolder] at hfd
    rcases List.mem_cons.1 ((nodes_pushNode_perm _ _).mem_iff.1 hnd) with rfl | hold
    · exact (hfiles fd hfd).symm
    · exact h.apart dir nd hold fd hfd

theorem RamInv.removedDir (h : RamInv s) {nd : Node CString RamfsFoderInfo}
    (hfind : findNode foderTable.streq djb2Bucket (s.folders dir).foderMap name = some nd) :
    RamInv (removedDir s dir name nd) := by
  have hdelete : RamInv ((s.modifyFolder dir (·.setFoderMap (ChainTable.delete foderTable.streq
      djb2Bucket (s.folders dir).foderMap name).2)).setMem s.mem) := by
    refine h.setFoders (le_refl _) (rep_delete_of_findNode (h.foders dir) hfind) (fun nd' hnd' => ?_)
      fun nd' hnd' => ?_
    · have hold := mem_nodes_delete hnd'
      exact ⟨h.entry dir nd' hold, h.child dir nd' hold⟩
    · exact h.apart dir nd' (mem_nodes_delete hnd')
  exact hdelete.emptyTables nd.value.ptr (le_refl _)

/-- **Every effect keeps the invariant.** -/
theorem RamInv.effect (h : RamInv s) (hdir : dir < s.mem.next) {code : ℤ} {L : Prop}
    (he : RamEffect s dir L code t) : RamInv t := by
  cases he with
  | idle n =>
    refine h.of_folders ?_ rfl rfl
    rw [Fs.setMem_mem, Memory.next_skip]
    exact Nat.le_add_right _ _
  | printed text => exact h.of_folders (le_refl _) rfl rfl
  | made name hlen hfree hgrants => exact h.madeDir hdir hfree
  | unmade name =>
    refine h.fresh hdir name ?_
    rw [Memory.next_free, Memory.next_skip]
    exact Nat.lt_add_of_pos_right Nat.two_pos
  | removed name nd hfind => exact h.removedDir hfind
  | touched name hlen hfree hgrants =>
    obtain ⟨hfoders, hfiles⟩ := h.key_ne hfree
    refine h.putFiles ?_ ?_ fun nd hnd fd hfd => ?_
    · rw [Memory.next_skip]
      exact Nat.le_add_right _ _
    · exact rep_pushNode (h.files dir) ((lookup_eq_none_iff (h.files dir)).2 hfiles)
    · rcases List.mem_cons.1 ((nodes_pushNode_perm _ _).mem_iff.1 hfd) with rfl | hold
      · exact hfoders nd hnd
      · exact h.apart dir nd hnd fd hold
  | deleted name nd hfind =>
    refine h.putFiles ?_ (rep_delete_of_findNode (h.files dir) hfind) fun nd' hnd' fd hfd => ?_
    · rw [Memory.next_free, next_freeData]
    · exact h.apart dir nd' hnd' fd (mem_nodes_delete hfd)
  | stored name nd data length n hfind hdata =>
    refine h.putFiles ?_ (rep_modify (h.files dir) _) fun nd' hnd' fd hfd => ?_
    · rw [Memory.next_skip, next_freeData]
      exact Nat.le_add_right _ _
    · obtain ⟨fd₀, hfd₀, rfl | rfl⟩ := mem_nodes_modify hfd
      · exact h.apart dir nd' hnd' _ hfd₀
      · exact h.apart dir nd' hnd' fd₀ hfd₀
  | lost name nd buf hfind hbuf hL =>
    refine h.of_folders ?_ rfl rfl
    rw [Fs.setMem_mem, Memory.next_skip, Memory.next_free]
    exact Nat.le_add_right _ _

end Keep

/-- After `fs_init`. -/
theorem RamInv.init (mem : Memory) (store : Store) : RamInv (initState mem store) := by
  have hfolder : ∀ p, (((initState mem store).folders p).type = RAMFS_FOLDER_TYPE_MEM ∧
      ((initState mem store).folders p).mount = none) ∧
      ((initState mem store).folders p).foderMap = Table.empty ∧
      ((initState mem store).folders p).fileMap = Table.empty := by
    intro p
    rcases eq_or_ne p rootPtr with rfl | hne
    · exact ⟨⟨rfl, rfl⟩, rfl, rfl⟩
    · rw [initState_folder mem store hne]
      exact ⟨⟨rfl, rfl⟩, rfl, rfl⟩
  have hnone : ∀ {d nd}, nd ∉ ((initState mem store).folders d).foderMap.nodes := by
    intro d nd hnd
    rw [(hfolder d).2.1, nodes_empty] at hnd
    exact absurd hnd List.not_mem_nil
  refine ⟨Allocated.init mem store, fun p => (hfolder p).1, fun p => ?_, fun p => ?_,
    fun d nd hnd => absurd hnd hnone, fun d nd hnd => absurd hnd hnone⟩
  · rw [(hfolder p).2.1]
    exact rep_empty djb2Bucket
  · rw [(hfolder p).2.2]
    exact rep_empty djb2Bucket

/-! ### Steps -/

/-- The call is none of the disk. -/
def FsOp.InRam : FsOp → Prop
  | .syncFolder _ | .syncAll | .mount _ _ | .umount _ => False
  | _ => True

section Steps

variable {s : Fs}

/-- The code and the state after a call that is not `fs_cd`. -/
theorem RamInv.call (h : RamInv s) {op : FsOp} (hop : op.InRam) (hcd : ∀ path, op ≠ .cd path) :
    ∃ dir < s.mem.next, RamEffect s dir (op.Loses s) (fsCall s op).1 (fsStep s op) := by
  obtain ⟨r, hcase, hcall⟩ := fsCall_cases s op
  rw [fsStep, hcall]
  cases hcase with
  | refused _ code => exact ⟨s.currentDir, h.currentDir, RamEffect.refl s _ _ code⟩
  | mkdir hdir hlen => exact ⟨_, h.fromDir hdir, h.mkdirIn (h.fromDir hdir) (by omega)⟩
  | cd => exact absurd rfl (hcd _)
  | rm hparse => exact ⟨_, h.parsePath hparse, h.rmIn⟩
  | rmdir hdir => exact ⟨_, h.fromDir hdir, h.rmdirIn⟩
  | touch hparse hlen => exact ⟨_, h.parsePath hparse, h.touchIn (by omega)⟩
  | @write name data path dir hdir =>
    refine ⟨dir, h.fromDir hdir, ?_⟩
    have heffect := h.writeIn dir name data
    rw [FsOp.Loses, hdir]
    simpa using heffect
  | cat hdir => exact ⟨_, h.fromDir hdir, h.catIn⟩
  | backspace hparse => exact ⟨_, h.parsePath hparse, h.backspaceIn _⟩
  | _ => exact hop.elim

/-- A call moves the working directory, or does one of these things in a directory. -/
theorem RamInv.call_cases (h : RamInv s) {op : FsOp} (hop : op.InRam) :
    (∃ path dir, getDirByPath s.folders s.currentDir path = some dir ∧ fsCall s op = (0, s.moveTo dir)) ∨
      ∃ dir < s.mem.next, RamEffect s dir (op.Loses s) (fsCall s op).1 (fsStep s op) := by
  by_cases hcd : ∃ path, op = .cd path
  · obtain ⟨path, rfl⟩ := hcd
    rw [fsStep, fsCall]
    rcases fsCd_cases s path with heq | ⟨dir, hdir, heq⟩
    · rw [heq]
      exact Or.inr ⟨s.currentDir, h.currentDir, RamEffect.refl s _ _ _⟩
    · exact Or.inl ⟨path, dir, hdir, heq⟩
  · exact Or.inr (h.call hop fun path heq => hcd ⟨path, heq⟩)

end Steps

end LittleLinux
