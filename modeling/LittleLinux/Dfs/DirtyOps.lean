import LittleLinux.Dfs.Dirty
import LittleLinux.Dfs.Calls
import LittleLinux.Dfs.Overlay

/-!
# Runs that keep dirtiness in reach of the root

The calls on the mounted tree, one by one, and the runs made of them. `FsOp.StaysVisible` is the
condition on a call: the folder that it marks is held by new or dirty folders only, and a file is
written only in a folder of the mount.
-/

namespace LittleLinux

open ChainTable

variable {s s' t : Fs} {root dir : Ptr}

/-! ### Calls -/

section Calls

variable {name : CString} {mem : Memory} {info : RamfsFileInfo}

/-- The file table of `dir` is replaced, and `dir` marked. -/
theorem DirtyInv.setFiles (h : DirtyInv s root) (hnext : s.mem.next ≤ mem.next)
    (hmay : MayMark s root dir) {map : RamfsFileHashmap}
    (hfile : Below (kids s) root dir → ∀ nd ∈ map.nodes, IsDirtyTag nd.value.type →
      HoldsDirtyFile (s.folders dir) ∨ (s.folders dir).type ≠ RAMFS_FOLDER_TYPE_MEM ∨
        (s.folders dir).mount ≠ none) :
    DirtyInv ((s.modifyFolder dir fun f => markDirty (f.setFileMap map)).setMem mem) root := by
  refine h.modify hnext ((markDirty_type _).imp id fun hd => ⟨hmay hd.1, hd.2⟩)
    (markDirty_samePlace _).mount ?_ ?_
  · rintro hdir ⟨nd, hnd, htag⟩
    rw [markDirty_fileMap] at hnd
    exact (hfile hdir nd hnd htag).imp id fun hdisk =>
      isDirtyType_markDirty (f := (s.folders dir).setFileMap map) (h.tag dir hdir) hdisk
  · intro nd hnd
    rw [markDirty_foderMap] at hnd
    exact List.mem_map.2 ⟨nd, hnd, rfl⟩

theorem DirtyInv.touch (h : DirtyInv s root)
    (hmay : NameFree (lazyLoadDirectory s dir) dir name → MayMark s root dir) :
    DirtyInv (touchIn s dir name).2 root := by
  obtain ⟨hinv, hmark, -⟩ := h.lazyLoad dir
  replace hmay := fun hfree => hmark (hmay hfree)
  rw [touchIn]
  dsimp only
  clear hmark
  generalize lazyLoadDirectory s dir = u at hinv hmay
  by_cases hfind : (ramfsHashmapFind (u.folders dir).foderMap name).isSome = true
  · rw [if_pos hfind]
    exact hinv
  rw [if_neg hfind]
  by_cases hfile : (ramfsFileHashmapFind (u.folders dir).fileMap name).isSome = true
  · rw [if_pos hfile]
    exact hinv
  rw [if_neg hfile]
  have hfree : NameFree u dir name :=
    ⟨Option.not_isSome_iff_eq_none.1 hfind, Option.not_isSome_iff_eq_none.1 hfile⟩
  generalize htype : (if (u.folders dir).mount = none then RAMFS_TYPE_MEM else RAMFS_TYPE_NEW) = type
  -- the tag of the new file is that of the folder it is in
  have hnew : ∀ nd : Node CString RamfsFileInfo, nd.value =
      fileTable.setName (strcpy127 name) ⟨name, type, 0, none, 0⟩ → IsDirtyTag nd.value.type →
      (u.folders dir).mount ≠ none := by
    intro nd hval htag hnone
    rw [if_pos hnone] at htype
    rw [hval] at htag
    exact absurd (htype ▸ htag : IsDirtyTag RAMFS_TYPE_MEM) (by decide)
  split_ifs
  · refine hinv.setFiles (next_le_insert _ _ _ _ _) (hmay hfree) fun _ nd hnd htag => ?_
    rcases fileTable.mem_insert hnd with ⟨nd₀, hnd₀, -, hval | hval⟩ | ⟨-, -, hval⟩
    · rw [hval] at htag
      exact Or.inl ⟨nd₀, hnd₀, htag⟩
    · exact Or.inr (Or.inr (hnew nd hval htag))
    · exact Or.inr (Or.inr (hnew nd hval htag))
  · exact hinv.setMem (next_le_insert _ _ _ _ _)

theorem DirtyInv.rm (h : DirtyInv s root)
    (hmay : HasFile (lazyLoadDirectory s dir) dir name → MayMark s root dir) :
    DirtyInv (rmIn s dir name).2 root := by
  obtain ⟨hinv, hmark, -⟩ := h.lazyLoad dir
  replace hmay := fun hfile => hmark (hmay hfile)
  rw [rmIn]
  dsimp only
  clear hmark
  generalize lazyLoadDirectory s dir = u at hinv hmay
  cases hfind : ramfsFileHashmapFind (u.folders dir).fileMap name with
  | none => exact hinv
  | some info =>
    dsimp only
    have hfile := hasFile_of_find hfind
    have hnext : (ramfsFileHashmapDelete (freeData u.mem info) (u.folders dir).fileMap name).2.2.next =
        u.mem.next := (next_delete _ _ _ _).trans (next_freeData u.mem info)
    split_ifs
    · exact hinv.setFiles hnext.ge (hmay hfile) fun _ nd hnd htag =>
        Or.inl ⟨nd, mem_nodes_delete hnd, htag⟩
    · exact hinv.setMem hnext.ge

/-- A store to the entry of a file, and `dir` marked. -/
theorem DirtyInv.modifyFile (h : DirtyInv s root) (hnext : s.mem.next ≤ mem.next)
    (hmay : MayMark s root dir) (hdisk : OnDisk s root dir) (g : RamfsFileInfo → RamfsFileInfo) :
    DirtyInv ((LittleLinux.modifyFile (s.setMem mem) dir name g).modifyFolder dir markDirty) root := by
  have heq : (LittleLinux.modifyFile (s.setMem mem) dir name g).modifyFolder dir markDirty =
      (s.modifyFolder dir fun f => markDirty (f.setFileMap
        (ramfsFileHashmapModify f.fileMap name g))).setMem mem :=
    Fs.modifyFolder_modifyFolder (s.setMem mem) dir _ _
  rw [heq]
  exact h.setFiles hnext hmay fun hdir _ _ _ => Or.inr (Or.inl (hdisk hdir))

theorem DirtyInv.write (h : DirtyInv s root) {data : Data}
    (hmay : HasFile (lazyLoadDirectory s dir) dir name → MayMark s root dir ∧ OnDisk s root dir) :
    DirtyInv (writeIn s dir name data).2 root := by
  obtain ⟨hinv, hmark, hdisk⟩ := h.lazyLoad dir
  replace hmay := fun hfile => And.imp hmark hdisk (hmay hfile)
  rw [writeIn]
  dsimp only
  clear hmark hdisk
  generalize lazyLoadDirectory s dir = u at hinv hmay
  cases hfind : ramfsFileHashmapFind (u.folders dir).fileMap name with
  | none => exact hinv
  | some info =>
    dsimp only
    obtain ⟨hmay, hdisk⟩ := hmay (hasFile_of_find hfind)
    have hnext : u.mem.next ≤ ((freeData u.mem info).malloc data.1.length).2.next :=
      (next_freeData u.mem info).ge.trans (Memory.next_le_next_malloc _ _)
    split_ifs
    · exact hinv.setMem hnext
    · exact hinv.modifyFile hnext hmay hdisk _

theorem dfsLoadFileData_tag (mem : Memory) (st : Store) (info : RamfsFileInfo) (id : PartId) :
    (dfsLoadFileData mem st info id).2.1.type = info.type ∧
      (dfsLoadFileData mem st info id).2.1.length = info.length := by
  rw [dfsLoadFileData]
  split_ifs
  · exact ⟨rfl, rfl⟩
  · dsimp only
    cases (mem.malloc (toU32 info.length)).1 with
    | none => exact ⟨rfl, rfl⟩
    | some data =>
      dsimp only
      cases (st.read id (toU64 info.driveAddr) (toI32 info.length)).1 with
      | none => exact ⟨rfl, rfl⟩
      | some b => exact ⟨rfl, rfl⟩

theorem modifyFile_type (s : Fs) (dir : Ptr) (name : CString) (g : RamfsFileInfo → RamfsFileInfo)
    (p : Ptr) : ((modifyFile s dir name g).folders p).type = (s.folders p).type := by
  rcases eq_or_ne p dir with rfl | hne
  · rw [modifyFile, Fs.modifyFolder_self]
    rfl
  · rw [modifyFile, s.modifyFolder_of_ne _ hne]

/-- Loading the data of a file changes no tag. -/
theorem DirtyInv.loadData (h : DirtyInv s root)
    (hfind : ramfsFileHashmapFind (s.folders dir).fileMap name = some info) :
    DirtyInv (loadData s dir name info).2 root ∧
      ∀ p, ((loadData s dir name info).2.folders p).type = (s.folders p).type := by
  rw [LittleLinux.loadData]
  cases (s.folders dir).mount with
  | none => exact ⟨h, fun _ => rfl⟩
  | some m =>
    obtain ⟨htype, -⟩ := dfsLoadFileData_tag s.mem s.disk.store info (s.mountTable m).part
    obtain ⟨hnext, -⟩ := dfsLoadFileData_spec s.mem s.disk.store info (s.mountTable m).part
    constructor
    · refine DirtyInv.setStore (h.modify hnext (Or.inl rfl) rfl ?_ fun nd hnd =>
        List.mem_map.2 ⟨nd, hnd, rfl⟩) _
      rintro - ⟨nd, hnd, htag⟩
      obtain ⟨nd₀, hnd₀, rfl | rfl⟩ := mem_nodes_modify hnd
      · exact Or.inl ⟨nd, hnd₀, htag⟩
      · rw [htype] at htag
        obtain ⟨nd₁, hnd₁, rfl⟩ := fileTable.exists_of_find hfind
        exact Or.inl ⟨nd₁, hnd₁, htag⟩
    · exact modifyFile_type s dir name _

theorem DirtyInv.cat (h : DirtyInv s root) : DirtyInv (catIn s dir name).2 root := by
  obtain ⟨hinv, -⟩ := h.lazyLoad dir
  rw [catIn]
  dsimp only
  generalize lazyLoadDirectory s dir = u at hinv
  cases hfind : ramfsFileHashmapFind (u.folders dir).fileMap name with
  | none => exact hinv
  | some info =>
    dsimp only
    obtain ⟨hload, -⟩ := hinv.loadData hfind
    generalize LittleLinux.loadData u dir name info = l at hload
    split_ifs
    · exact hload
    · cases ramfsFileHashmapFind (l.2.folders dir).fileMap name with
      | none => exact hload
      | some info =>
        cases hptr : info.ptr with
        | none =>
          dsimp only
          rw [hptr]
          exact hload
        | some buf =>
          dsimp only
          rw [hptr]
          exact ⟨hload.lt_next, hload.tag, hload.file, hload.kid⟩

theorem DirtyInv.cut (h : DirtyInv s root)
    (hmay : info.length ≠ 0 → MayMark s root dir ∧ OnDisk s root dir) (count : ℤ) :
    DirtyInv (cutFile s dir name info count).2 root := by
  rw [cutFile]
  dsimp only
  by_cases hlen : info.length = 0
  · rw [if_pos hlen]
    exact h
  rw [if_neg hlen]
  obtain ⟨hmay, hdisk⟩ := hmay hlen
  generalize (if count > info.length then toI32 info.length else count) = n
  split_ifs
  · exact h.modifyFile (next_freeData s.mem info).ge hmay hdisk _
  · have hle := s.mem.next_le_next_malloc (toU32 (info.length - n))
    cases (s.mem.malloc (toU32 (info.length - n))).1 with
    | none => exact h.setMem hle
    | some q =>
      exact h.modifyFile (hle.trans (next_freeData (s.mem.malloc _).2 info).ge) hmay hdisk _

theorem DirtyInv.backspace (h : DirtyInv s root)
    (hmay : HasContent (lazyLoadDirectory s dir) dir name → MayMark s root dir ∧ OnDisk s root dir)
    (count : ℤ) : DirtyInv (backspaceIn s dir name count).2 root := by
  obtain ⟨hinv, hmark, hdisk⟩ := h.lazyLoad dir
  replace hmay := fun hfile => And.imp hmark hdisk (hmay hfile)
  rw [backspaceIn]
  dsimp only
  clear hmark hdisk
  generalize lazyLoadDirectory s dir = u at hinv hmay
  cases hfind : ramfsFileHashmapFind (u.folders dir).fileMap name with
  | none => exact hinv
  | some info =>
    dsimp only
    obtain ⟨hload, htype⟩ := hinv.loadData hfind
    have hkids : kids (LittleLinux.loadData u dir name info).2 = kids u :=
      funext fun p => by rw [kids, (quiet_loadData hfind).foderMap, kids]
    obtain ⟨data, hfind'⟩ := find_loadData hfind
    generalize LittleLinux.loadData u dir name info = l at hload htype hkids hfind'
    split_ifs
    · exact hload
    · rw [hfind']
      refine hload.cut (fun hne => ?_) count
      obtain ⟨hmay, hdisk⟩ := hmay ⟨info, hfind, hne⟩
      rw [MayMark, Covered, OnDisk, hkids, htype]
      refine ⟨fun hclean p => ?_, hdisk⟩
      rw [htype]
      exact hmay hclean p

theorem markDirty_mount (f : RamfsFoder) : (markDirty f).mount = f.mount :=
  (markDirty_samePlace f).mount

/-- A folder object is made, entered into `dir`, and `dir` marked. -/
theorem DirtyInv.make (h : DirtyInv s root) (hmay : MayMark s root dir) {node : RamfsFoder}
    (hfoders : node.foderMap = Table.empty) (hfiles : node.fileMap = Table.empty)
    (hmount : node.mount = (s.folders dir).mount)
    (htype : node.type = if (s.folders dir).mount = none then RAMFS_FOLDER_TYPE_MEM else
      RAMFS_FOLDER_TYPE_NEW) (hnext : s.mem.next < mem.next) {mem' : Memory}
    (hnext' : mem.next ≤ mem'.next) {map : RamfsHashmap}
    (hmap : Below (kids s) root dir →
      ∀ nd ∈ map.nodes, nd.value.ptr ∈ kids s dir ∨ nd.value.ptr = s.mem.next) :
    DirtyInv ((((s.setMem mem).setFolder s.mem.next node).modifyFolder dir fun f =>
      markDirty (f.setFoderMap map)).setMem mem') root := by
  generalize hs' : (((s.setMem mem).setFolder s.mem.next node).modifyFolder dir fun f =>
    markDirty (f.setFoderMap map)).setMem mem' = s'
  have hle : s.mem.next ≤ s'.mem.next := hs' ▸ hnext.le.trans hnext'
  refine h.change hle fun p hp => ?_
  have hlt := h.lt_next p hp
  have hold : ((s.setMem mem).setFolder s.mem.next node).folders p = s.folders p :=
    Fs.setFolder_of_ne _ _ (Nat.ne_of_lt hlt)
  rcases eq_or_ne p dir with rfl | hne
  · have hself : s'.folders p = markDirty ((s.folders p).setFoderMap map) := by
      rw [← hs', Fs.setMem_folders, Fs.modifyFolder_self, hold]
    have hnew : s'.folders s.mem.next = node := by
      rw [← hs', Fs.setMem_folders, Fs.modifyFolder_of_ne _ _ (Nat.ne_of_gt hlt), Fs.setFolder_self]
    refine ⟨?_, ?_, ?_, fun c hc => ?_⟩
    · rw [hself]
      exact (markDirty_type _).imp id fun hd => ⟨hmay hd.1, hd.2⟩
    · rw [hself, markDirty_mount]
      rfl
    · rw [hself, HoldsDirtyFile, markDirty_fileMap]
      exact Or.inl
    · rw [kids, hself, markDirty_foderMap] at hc
      obtain ⟨nd, hnd, rfl⟩ := List.mem_map.1 hc
      refine (hmap hp nd hnd).imp id fun hptr => ?_
      rw [hptr]
      -- the new folder is dirty exactly when its folder belongs to a mount
      refine ⟨le_refl _, hs' ▸ hnext.trans_le hnext', ?_, ?_, ?_, fun hdirty => ?_⟩
      · rw [kids, hnew, hfoders, nodes_empty, List.map_nil]
      · rw [hnew, hfiles, nodes_empty]
      · rw [hnew, TagKnown, htype, hmount]
        split_ifs with hnone
        · exact Or.inr (Or.inr ⟨rfl, hnone⟩)
        · exact Or.inr (Or.inl (Or.inl rfl))
      · rw [hnew, htype] at hdirty
        rw [hself]
        refine isDirtyType_markDirty (f := (s.folders p).setFoderMap map) (h.tag p hp)
          (Or.inr fun hnone => ?_)
        rw [if_pos (show (s.folders p).mount = none from hnone)] at hdirty
        exact absurd hdirty (by decide)
  · refine Kept.of_eq ?_
    rw [← hs', Fs.setMem_folders, Fs.modifyFolder_of_ne _ _ hne, hold]

theorem DirtyInv.mkdir (h : DirtyInv s root)
    (hmay : NameFree (lazyLoadDirectory s dir) dir name → MayMark s root dir) :
    DirtyInv (mkdirIn s dir name).2 root := by
  obtain ⟨hinv, hmark, -⟩ := h.lazyLoad dir
  replace hmay := fun hfree => hmark (hmay hfree)
  clear hmark
  generalize hu : lazyLoadDirectory s dir = u at hinv hmay
  rcases mkdirIn_cases hu name with ⟨mem, hnext, heq⟩ | ⟨hfree, mem, hnext, heq⟩ <;> rw [heq]
  · exact hinv.setMem hnext
  -- the new folder is tagged as its parent's mount asks; it is entered only if the hash node is granted
  rcases enterDir_cases hnext hfree.1 with ⟨mem', hnext', heq⟩ | ⟨map, mem', hnext', hadds, heq⟩ <;> rw [heq]
  · refine hinv.change hnext' fun p hp => Kept.of_eq ?_
    exact Fs.setFolder_of_ne _ _ (Nat.ne_of_lt (hinv.lt_next p hp))
  · refine hinv.make (hmay hfree) (show (newDirNode u dir name).foderMap = Table.empty from rfl) rfl rfl rfl
      hnext' le_rfl fun hdir nd hnd => ?_
    rcases (hadds (Nat.ne_of_lt (hinv.lt_next dir hdir))).mem_nodes hnd with hold | ⟨-, hval⟩
    · exact Or.inl (List.mem_map.2 ⟨nd, hold, rfl⟩)
    · exact Or.inr (hval ▸ rfl)

/-- Entries and files are taken out of the folder `q`. -/
theorem DirtyInv.shrink (h : DirtyInv s root) (hmay : MayMark s root dir) {q : Ptr}
    {g : RamfsFoder → RamfsFoder} (hnext : s.mem.next ≤ mem.next)
    (htype : (g (s.folders q)).type = (s.folders q).type)
    (hmount : (g (s.folders q)).mount = (s.folders q).mount)
    (hfile : HoldsDirtyFile (g (s.folders q)) → HoldsDirtyFile (s.folders q))
    (hkid : ∀ nd ∈ (g (s.folders q)).foderMap.nodes, nd.value.ptr ∈ kids s q) :
    DirtyInv ((s.modifyFolder q g).setMem mem) root ∧
      MayMark ((s.modifyFolder q g).setMem mem) root dir := by
  refine ⟨h.modify hnext (Or.inl htype) hmount (fun _ hd => Or.inl (hfile hd)) hkid, ?_⟩
  have hsub : ∀ p, ∀ c ∈ kids ((s.modifyFolder q g).setMem mem) p, c ∈ kids s p := by
    intro p c hc
    rcases eq_or_ne p q with rfl | hne
    · rw [kids, Fs.setMem_folders, Fs.modifyFolder_self] at hc
      obtain ⟨nd, hnd, rfl⟩ := List.mem_map.1 hc
      exact hkid nd hnd
    · rw [kids, Fs.setMem_folders, Fs.modifyFolder_of_ne _ _ hne] at hc
      exact hc
  have htypes : ∀ p, (((s.modifyFolder q g).setMem mem).folders p).type = (s.folders p).type := by
    intro p
    rcases eq_or_ne p q with rfl | hne
    · rw [Fs.setMem_folders, Fs.modifyFolder_self, htype]
    · rw [Fs.setMem_folders, Fs.modifyFolder_of_ne _ _ hne]
  intro hclean p hp hc
  rw [htypes]
  exact hmay (htypes dir ▸ hclean) p (hp.mono hsub) (hsub p dir hc)

/-- The tables of the folder `q` are emptied. -/
theorem DirtyInv.emptied (h : DirtyInv s root) (hmay : MayMark s root dir) (q : Ptr)
    (hnext : s.mem.next ≤ mem.next) :
    DirtyInv ((s.modifyFolder q emptyTables).setMem mem) root ∧
      MayMark ((s.modifyFolder q emptyTables).setMem mem) root dir := by
  refine h.shrink hmay hnext rfl rfl ?_ ?_
  · rintro ⟨nd, hnd, -⟩
    exact absurd (nodes_empty ▸ hnd : nd ∈ []) List.not_mem_nil
  · intro nd hnd
    exact absurd (nodes_empty ▸ hnd : nd ∈ []) List.not_mem_nil

theorem DirtyInv.mark (h : DirtyInv s root) (hmay : MayMark s root dir) :
    DirtyInv (s.modifyFolder dir markDirty) root := by
  change DirtyInv ((s.modifyFolder dir markDirty).setMem s.mem) root
  refine h.modify le_rfl ((markDirty_type _).imp id fun hd => ⟨hmay hd.1, hd.2⟩)
    (markDirty_mount _) ?_ ?_
  · intro _ hd
    rw [HoldsDirtyFile, markDirty_fileMap] at hd
    exact Or.inl hd
  · intro nd hnd
    rw [markDirty_foderMap] at hnd
    exact List.mem_map.2 ⟨nd, hnd, rfl⟩

theorem DirtyInv.rmdir (h : DirtyInv s root)
    (hmay : HasEmptyDir (lazyLoadDirectory s dir) dir name → MayMark s root dir) :
    DirtyInv (rmdirIn s dir name).2 root := by
  obtain ⟨hinv, hmark, -⟩ := h.lazyLoad dir
  replace hmay := fun hempty => hmark (hmay hempty)
  clear hmark
  generalize hu : lazyLoadDirectory s dir = u at hinv hmay
  rcases rmdirIn_cases hu name with heq | ⟨info, map, mem, hfind, hfoders, hfiles, hremoves, hnext, heq⟩ <;>
    rw [heq]
  · exact hinv
  -- the entry is taken out, the tables of the directory are emptied, and `dir` is marked
  obtain ⟨hdelete, hmay⟩ := hinv.shrink (hmay ⟨info, hfind, hfoders, hfiles⟩) (g := (·.setFoderMap map))
    le_rfl rfl rfl id fun nd hnd => List.mem_map.2 ⟨nd, hremoves.mem_nodes hnd, rfl⟩
  obtain ⟨hempty, hmay⟩ := hdelete.emptied hmay info.ptr hnext.ge
  exact hempty.mark hmay

end Calls

/-! ### Synchronisation -/

/-- Nothing directly in the root is new or dirty. -/
def NothingDirtyIn (s : Fs) (root : Ptr) : Prop :=
  ¬HoldsDirtyFile (s.folders root) ∧ ∀ c ∈ kids s root, ¬IsDirtyType (s.folders c).type

/-- The root is replaced by one with the same entries, no more dirty files, and a tag that is the
old one or clean. -/
theorem DirtyInv.cleanRoot (h : DirtyInv s root) (hclean : NothingDirtyIn s root)
    {f : RamfsFoder} (hmap : f.foderMap = (s.folders root).foderMap)
    (hmount : f.mount = (s.folders root).mount)
    (hfile : HoldsDirtyFile f → HoldsDirtyFile (s.folders root))
    (htype : f.type = (s.folders root).type ∨ f.type = RAMFS_FOLDER_TYPE_DISK_CLEAN)
    (hmem : s'.mem = s.mem) (hfolders : s'.folders = Function.update s.folders root f) :
    DirtyInv s' root := by
  have hself : s'.folders root = f := by rw [hfolders, Function.update_self]
  have hother : ∀ p, p ≠ root → s'.folders p = s.folders p := fun p hne => by
    rw [hfolders, Function.update_of_ne hne]
  have hkids : kids s' = kids s := by
    funext p
    rcases eq_or_ne p root with rfl | hne
    · rw [kids, hself, hmap, kids]
    · rw [kids, hother p hne, kids]
  -- only the root changes, and its new tag is not a dirty one
  have hdirty : ∀ p, IsDirtyType (s'.folders p).type → IsDirtyType (s.folders p).type := by
    intro p hp
    rcases eq_or_ne p root with rfl | hne
    · rw [hself] at hp
      rcases htype with heq | heq
      · rwa [heq] at hp
      · rw [heq] at hp
        exact absurd hp (by decide)
    · rwa [hother p hne] at hp
  refine ⟨?_, ?_, ?_, ?_⟩
  · rw [hkids, hmem]
    exact h.lt_next
  · intro p hp
    rw [hkids] at hp
    rcases eq_or_ne p root with rfl | hne
    · rw [hself, TagKnown, hmount]
      rcases htype with heq | heq
      · rw [heq]
        exact h.tag p hp
      · exact Or.inl heq
    · rw [hother p hne]
      exact h.tag p hp
  · intro p hp hf
    rw [hkids] at hp
    rcases eq_or_ne p root with rfl | hne
    · rw [hself] at hf
      -- with nothing dirty in it, the root owes no dirty tag to an entry
      exact absurd (hfile hf) hclean.1
    · rw [hother p hne] at hf ⊢
      exact h.file p hp hf
  · intro p hp c hc hd
    rw [hkids] at hp hc
    rcases eq_or_ne p root with rfl | hne
    · exact absurd (hdirty c hd) (hclean.2 c hc)
    · rw [hother p hne]
      exact h.kid p hp c hc (hdirty c hd)

/-- A visit of `dfs_sync_folder` makes no file dirty. -/
theorem holdsDirtyFile_syncFiles {p : Ptr} {id : PartId}
    (h : HoldsDirtyFile ((syncFiles s p id).folders p)) : HoldsDirtyFile (s.folders p) := by
  obtain ⟨nd, hnd, htag⟩ := h
  have hvisit : ∀ (d : Disk) (finfo : RamfsFileInfo), IsDirtyTag
      (if IsDirtyTag finfo.type then (dfsSyncFile d finfo id).2 else (finfo, d)).1.type →
      IsDirtyTag finfo.type := by
    intro d finfo hd
    by_cases htag : IsDirtyTag finfo.type
    · exact htag
    · rwa [if_neg htag] at hd
  rw [syncFiles, Fs.setDisk_folders, Fs.modifyFolder_self] at hnd
  obtain ⟨nd₀, hnd₀, -, hR⟩ := mem_nodes_mapAccum
    (R := fun v v' : RamfsFileInfo => IsDirtyTag v'.type → IsDirtyTag v.type) hvisit hnd
  exact ⟨nd₀, hnd₀, hR htag⟩

theorem syncFiles_folders (s : Fs) (p : Ptr) (id : PartId) : ∃ map, (syncFiles s p id).folders =
    Function.update s.folders p ((s.folders p).setFileMap map) :=
  ⟨_, rfl⟩

/-- A folder that may differ in its disk address alone. -/
theorem claimSlot_folder {p : Ptr} {id : PartId} {u : Fs} (hu : (claimSlot s p id).1 = some u) :
    u.mem = s.mem ∧ ∃ addr, u.folders = Function.update s.folders p ((s.folders p).setDriveAddr addr) := by
  rw [claimSlot] at hu
  dsimp only at hu
  split_ifs at hu
  · obtain rfl := Option.some.inj hu
    exact ⟨rfl, _, rfl⟩
  · obtain rfl := Option.some.inj hu
    exact ⟨rfl, (s.folders p).driveAddr, (Function.update_eq_self p s.folders).symm⟩

/-- **Synchronising the root** keeps the invariant when nothing directly in it is dirty. -/
theorem DirtyInv.sync (h : DirtyInv s root)
    (hclean : IsDirtyType (s.folders root).type → NothingDirtyIn s root) :
    DirtyInv (dfsSyncFolder s root).2 root := by
  rw [dfsSyncFolder]
  obtain hsame | ⟨i, -, hdirty, hfailed | ⟨u, hu, hwritten⟩⟩ := syncFolder_cases s.mem.next s root
  · rwa [hsame]
  · have hfail : (claimSlot s root (s.mountTable i).part).2.folders = s.folders ∧
        (claimSlot s root (s.mountTable i).part).2.mem = s.mem := by
      rw [claimSlot]
      split_ifs
      · exact ⟨rfl, rfl⟩
      · exact ⟨rfl, rfl⟩
    rw [hfailed]
    refine h.cleanRoot (hclean hdirty) rfl rfl (fun hd => hd) (Or.inl rfl) hfail.2 ?_
    rw [hfail.1, Function.update_eq_self]
  rw [hwritten]
  have hnothing := hclean hdirty
  obtain ⟨hum, addr, hu⟩ := claimSlot_folder hu
  generalize (s.mountTable i).part = id
  have hself : u.folders root = (s.folders root).setDriveAddr addr := by
    rw [hu, Function.update_self]
  have htypes : ∀ p, (u.folders p).type = (s.folders p).type := by
    intro p
    rcases eq_or_ne p root with rfl | hne
    · rw [hself]
      rfl
    · rw [hu, Function.update_of_ne hne]
  have hvisit : ∀ nd ∈ (u.folders root).foderMap.nodes,
      ¬IsDirtyType (u.folders nd.value.ptr).type ∨ findSyncMount u nd.value.ptr = none := by
    intro nd hnd
    rw [hself] at hnd
    rw [htypes]
    exact .inl (hnothing.2 _ (List.mem_map.2 ⟨nd, hnd, rfl⟩))
  rw [syncContents, foldl_syncFolder_of_clean s.mem.next hvisit]
  -- only the root is left to be changed, in its files and in its tag
  have hfile : HoldsDirtyFile ((syncFiles u root id).folders root) →
      HoldsDirtyFile (s.folders root) := by
    intro hd
    have hd := holdsDirtyFile_syncFiles hd
    rw [hself] at hd
    exact hd
  obtain ⟨map, hmap⟩ := syncFiles_folders u root id
  have hroot : (syncFiles u root id).folders root = (u.folders root).setFileMap map := by
    rw [hmap, Function.update_self]
  have hfolders : (syncFiles u root id).folders =
      Function.update s.folders root ((syncFiles u root id).folders root) := by
    rw [hroot, hmap, hu, Function.update_idem]
  clear hmap
  have hmem : (syncFiles u root id).mem = s.mem := hum
  generalize syncFiles u root id = v at hfile hroot hfolders hmem ⊢
  have hmap : (v.folders root).foderMap = (s.folders root).foderMap := by
    rw [hroot, hself]
    rfl
  have hmount : (v.folders root).mount = (s.folders root).mount := by
    rw [hroot, hself]
    rfl
  rw [writeBack]
  split_ifs
  · refine h.cleanRoot hnothing (f := (v.folders root).setType RAMFS_FOLDER_TYPE_DISK_CLEAN)
      hmap hmount hfile (Or.inr rfl) hmem ?_
    exact (congrArg (fun f => Function.update f root _) hfolders).trans
      (Function.update_idem _ _ _)
  · refine h.cleanRoot hnothing hmap hmount hfile (Or.inl ?_) hmem hfolders
    rw [hroot, hself]
    rfl

/-! ### Mounting -/

/-- A tree of clean folders without dirty files. -/
theorem dirtyInv_of_clean {S : Set Ptr} (hroot : root ∈ S)
    (hclosed : ∀ p ∈ S, ∀ c ∈ kids s p, c ∈ S) (hlt : ∀ p ∈ S, p < s.mem.next)
    (hclean : ∀ p ∈ S, (s.folders p).type = RAMFS_FOLDER_TYPE_DISK_CLEAN)
    (hfile : ∀ p ∈ S, ¬HoldsDirtyFile (s.folders p)) : DirtyInv s root := by
  have hS : ∀ p, Below (kids s) root p → p ∈ S := fun p hp => hp.mem_of_closed hclosed hroot
  have hnot : ∀ p ∈ S, ¬IsDirtyType (s.folders p).type := by
    intro p hp
    rw [hclean p hp]
    decide
  exact ⟨fun p hp => hlt p (hS p hp), fun p hp => Or.inl (hclean p (hS p hp)),
    fun p hp hf => absurd hf (hfile p (hS p hp)),
    fun p hp c hc hd => absurd hd (hnot c (hS c (hp.tail hc)))⟩

/-- The root of a new mount holds clean folders without entries, and no dirty file. -/
theorem loaded_newRoot {st : Store} {id : PartId} {off : ℕ}
    (hmalloc : (s.mem.malloc sizeofRamfsFoder).1 = some s.mem.next)
    (hload : (dfsLoadFolderFromDisk (newRoot s st) s.mem.next id off).1 = 0) :
    ∃ u, Loaded u (dfsLoadFolderFromDisk (newRoot s st) s.mem.next id off).2 s.mem.next ∧
      (u.folders s.mem.next).type = RAMFS_FOLDER_TYPE_DISK_CLEAN ∧
      (u.folders s.mem.next).foderMap = Table.empty ∧
      (u.folders s.mem.next).fileMap = Table.empty := by
  have hlt : s.mem.next < (newRoot s st).mem.next :=
    (Nat.lt_succ_self _).trans_eq (Memory.malloc_eq_some hmalloc).2.symm
  revert hload
  generalize newRoot s st = v at hlt
  rw [dfsLoadFolderFromDisk]
  dsimp only
  cases (v.disk.store.read id off sizeofDiskFolder).1 with
  | none => exact fun h => absurd (show (-1 : ℤ) = 0 from h) (by decide)
  | some b =>
    dsimp only
    split_ifs
    · exact fun h => absurd (show (-2 : ℤ) = 0 from h) (by decide)
    · exact fun h => absurd (show (-3 : ℤ) = 0 from h) (by decide)
    · intro _
      refine ⟨_, ((Loaded.refl ?_).subfolders _).files _, ?_, ?_, ?_⟩
      · exact hlt
      · rw [Fs.modifyFolder_self]
      · rw [Fs.modifyFolder_self]
        rfl
      · rw [Fs.modifyFolder_self]
        rfl

theorem dirtyInv_dfsMount {path : CString} {id : PartId} (h : (dfsMount s path id).1 = 0) :
    ((dfsMount s path id).2.mountTable s.mountCount).rootDir = s.mem.next ∧
      DirtyInv (dfsMount s path id).2 s.mem.next := by
  obtain ⟨st, mem, hne, -⟩ | ⟨dir, sb, st, -, -, -, -, hmalloc, heq | ⟨hload, heq⟩⟩ :=
    dfsMount_cases s path id
  · exact absurd h hne
  · rw [heq] at h
    exact absurd (show (-6 : ℤ) = 0 from h) (by decide)
  rw [heq] at h ⊢
  have hframe := frame_loadRoot frameRel_samePlace s st id sb.rootPointer
  obtain ⟨u, hl, htype, hfoders, hfiles⟩ := loaded_newRoot hmalloc hload
  have hnext := lt_next_loadRoot s st id sb.rootPointer hmalloc
  generalize (dfsLoadFolderFromDisk (newRoot s st) s.mem.next id sb.rootPointer).2 = l
    at hframe hl hnext h ⊢
  generalize s.mem.next = root at hl hnext htype hfoders hfiles h ⊢
  have hleaf : ∀ c ∈ kids l root, CleanLeaf u l c := by
    intro c hc
    refine (hl.kid c hc).resolve_left fun hold => ?_
    rw [kids, hfoders, nodes_empty] at hold
    exact absurd hold List.not_mem_nil
  have hmark : ∀ p, ∃ f, (markRoot l root l.mountCount).folders p = f ∧
      f.type = (l.folders p).type ∧ f.foderMap = (l.folders p).foderMap ∧
      f.fileMap = (l.folders p).fileMap := by
    intro p
    rcases eq_or_ne p root with rfl | hne
    · exact ⟨_, l.modifyFolder_self p _, rfl, rfl, rfl⟩
    · exact ⟨_, l.modifyFolder_of_ne _ hne, rfl, rfl, rfl⟩
  have hcount : (markRoot l root l.mountCount).mountCount = s.mountCount := hframe.mountCount
  have hmem : (markRoot l root l.mountCount).mem = l.mem := rfl
  generalize markRoot l root l.mountCount = m at hmark hcount hmem h ⊢
  obtain ⟨ins, hins, ⟨-, hattach⟩ | ⟨-, hattach⟩⟩ :=
    attachRoot_cases m dir root path id (toI32 sb.rootPointer)
  · rw [hattach] at h
    exact absurd (show (-7 : ℤ) = 0 from h) (by decide)
  rw [hattach]
  dsimp only
  refine ⟨?_, ?_⟩
  · rw [← hcount]
    exact congrArg DfsMountPoint.rootDir (Fs.pushMount_mountTable_self _ _)
  -- wherever it was entered, the tree of the new root is itself and the folders loaded into it
  generalize hw : ((m.modifyFolder dir (·.setFoderMap ins.2.1)).setMem ins.2.2).pushMount
    ⟨path, id, root⟩ = w
  have hfolder : ∀ p, (w.folders p).type = (l.folders p).type ∧
      (w.folders p).fileMap = (l.folders p).fileMap ∧ ∀ c ∈ kids w p, c ∈ kids l p ∨ c = root := by
    intro p
    obtain ⟨f, hf, hftype, hffoders, hffiles⟩ := hmark p
    have hwp : w.folders p = (m.modifyFolder dir (·.setFoderMap ins.2.1)).folders p := by rw [← hw]; rfl
    rcases eq_or_ne p dir with rfl | hne
    · rw [m.modifyFolder_self, hf] at hwp
      rw [kids, hwp]
      refine ⟨hftype, hffiles, fun c hc => ?_⟩
      obtain ⟨nd, hnd, rfl⟩ := List.mem_map.1 hc
      have hnd : nd ∈ ins.2.1.nodes := hnd
      rw [hins, hf] at hnd
      rcases foderTable.mem_insert hnd with ⟨nd₀, hnd₀, -, hval | hval⟩ | ⟨-, -, hval⟩
      · rw [hffoders] at hnd₀
        rw [hval]
        exact Or.inl (List.mem_map.2 ⟨nd₀, hnd₀, rfl⟩)
      · exact Or.inr (hval ▸ rfl)
      · exact Or.inr (hval ▸ rfl)
    · rw [m.modifyFolder_of_ne _ hne, hf] at hwp
      rw [kids, hwp, hffoders]
      exact ⟨hftype, hffiles, fun c hc => Or.inl hc⟩
  have hnextw : l.mem.next ≤ w.mem.next := by
    rw [← hw, Fs.pushMount_mem, Fs.setMem_mem, hins, ← hmem]
    exact next_le_insert _ _ _ _ _
  refine dirtyInv_of_clean (S := {p | p = root ∨ p ∈ kids l root}) (Or.inl rfl) ?_ ?_ ?_ ?_
  · rintro p hp c hc
    rcases (hfolder p).2.2 c hc with hc | rfl
    · rcases hp with rfl | hp
      · exact Or.inr hc
      · rw [kids, (hleaf p hp).foders, nodes_empty] at hc
        exact absurd hc List.not_mem_nil
    · exact Or.inl rfl
  · rintro p (rfl | hp)
    · exact hnext.trans_le hnextw
    · exact (hleaf p hp).lt.trans_le hnextw
  · rintro p (rfl | hp)
    · rw [(hfolder p).1, hl.type, htype]
    · rw [(hfolder p).1, (hleaf p hp).clean]
  · rintro p (rfl | hp)
    · rw [HoldsDirtyFile, (hfolder p).2.1]
      intro hd
      obtain ⟨nd, hnd, -⟩ := hl.file hd
      rw [hfiles, nodes_empty] at hnd
      exact absurd hnd List.not_mem_nil
    · rw [HoldsDirtyFile, (hfolder p).2.1, (hleaf p hp).files, nodes_empty]
      rintro ⟨nd, hnd, -⟩
      exact absurd hnd List.not_mem_nil

/-! ### Steps and runs -/

/-- The root of the mount that `dfs_mount` makes in `s`. -/
def mountedRoot (s : Fs) (path : CString) (id : PartId) : Ptr :=
  ((dfsMount s path id).2.mountTable s.mountCount).rootDir

/-- A call on the tree, or the synchronisation of its root. -/
def FsOp.OnTree (root : Ptr) : FsOp → Prop
  | .syncFolder p => p = root
  | .syncAll | .mount _ _ | .umount _ => False
  | _ => True

/-- The call leaves nothing changed below a clean folder: the folder that it comes to mark is not
clean or is held by dirty folders, a file that it comes to change is in a folder of the mount, and
a dirty root that is synchronised has nothing dirty directly in it. Neither the working directory nor
the root of a mount is removed. -/
def FsOp.StaysVisible (root : Ptr) (s : Fs) : FsOp → Prop
  | .mkdir name dir => ∀ p, fromDir s dir = some p → NameFree (lazyLoadDirectory s p) p name →
      MayMark s root p
  | .rmdir name dir => (∀ p, fromDir s dir = some p →
      HasEmptyDir (lazyLoadDirectory s p) p name → MayMark s root p) ∧ RmdirSafe s name dir
  | .touch name dir => ∀ r, parsePath s name dir = .ok r →
      NameFree (lazyLoadDirectory s r.1) r.1 r.2 → MayMark s root r.1
  | .rm name dir => ∀ r, parsePath s name dir = .ok r →
      HasFile (lazyLoadDirectory s r.1) r.1 r.2 → MayMark s root r.1
  | .write name _ dir => ∀ p, fromDir s dir = some p → HasFile (lazyLoadDirectory s p) p name →
      MayMark s root p ∧ OnDisk s root p
  | .backspace name _ dir => ∀ r, parsePath s name dir = .ok r →
      HasContent (lazyLoadDirectory s r.1) r.1 r.2 → MayMark s root r.1 ∧ OnDisk s root r.1
  | .syncFolder _ => IsDirtyType (s.folders root).type → NothingDirtyIn s root
  | _ => True

/-- **One step.** -/
theorem DirtyInv.step (h : DirtyInv s root) {op : FsOp} (hkind : op.OnTree root)
    (hop : op.StaysVisible root s) : DirtyInv (fsStep s op) root := by
  obtain ⟨r, hcase, hstep⟩ := fsStep_cases s op
  rw [hstep]
  cases hcase with
  | refused => exact h
  | mkdir hdir => exact h.mkdir (hop _ hdir)
  | cd => exact ⟨h.lt_next, h.tag, h.file, h.kid⟩
  | rm hparse => exact h.rm (hop _ hparse)
  | rmdir hdir => exact h.rmdir (hop.1 _ hdir)
  | touch hparse => exact h.touch (hop _ hparse)
  | write hdir => exact h.write (hop _ hdir)
  | cat => exact h.cat
  | backspace hparse => exact h.backspace (hop _ hparse) _
  | syncFolder p =>
    obtain rfl : p = root := hkind
    exact h.sync hop
  | syncAll => exact hkind.elim
  | mount => exact hkind.elim
  | umount => exact hkind.elim

/-- **Dirtiness reaches the root** of a mount in every state that a run of calls on the tree and
synchronisations of the root reaches, when every step stays in bounds and visible. -/
theorem dirtyReaches_of_visible_run (s : Fs) (path : CString) (id : PartId)
    (hmount : (dfsMount s path id).1 = 0) (ops : List FsOp)
    (hkind : ∀ op ∈ ops, op.OnTree (mountedRoot s path id))
    (hops : Along fsStep (fun t op => op.InBounds t ∧ op.StaysVisible (mountedRoot s path id) t)
      (dfsMount s path id).2 ops) :
    DirtyReaches (ops.foldl fsStep (dfsMount s path id).2) (mountedRoot s path id) := by
  obtain ⟨hroot, hinv⟩ := dirtyInv_dfsMount hmount
  have hinv : DirtyInv (dfsMount s path id).2 (mountedRoot s path id) := by
    rw [mountedRoot, hroot]
    exact hinv
  exact (Along.invariant (fun t op (ht : DirtyInv t _) hop => ht.step hop.2 hop.1.2) hinv
    (hops.and (Along.of_mem _ hkind))).reaches

/-! ### A file that comes and goes, and a new folder -/

/-- A file is made in the root of the mount and removed, and the root is synchronised. -/
def newFileOps : List FsOp :=
  [.touch (.ofBytes [102]) (some (.ofBytes [47, 109, 47, 109])),
    .rm (.ofBytes [102]) (some (.ofBytes [47, 109, 47, 109])),
    .syncFolder (mountedRoot oneDirState oneDirPath part0)]

theorem newFileOps_onTree : ∀ op ∈ newFileOps, op.OnTree (mountedRoot oneDirState oneDirPath part0) := by
  intro op hop
  rcases List.mem_cons.1 hop with rfl | hop
  · trivial
  rcases List.mem_cons.1 hop with rfl | hop
  · trivial
  · rw [List.mem_singleton.1 hop]
    rfl

theorem newFileOps_inBounds :
    Along fsStep (fun t op => op.InBounds t) (dfsMount oneDirState oneDirPath part0).2 newFileOps := by
  decide +kernel

theorem dirtyReaches_of_visible_run_newFile :
    DirtyReaches (newFileOps.foldl fsStep (dfsMount oneDirState oneDirPath part0).2)
      (mountedRoot oneDirState oneDirPath part0) := by
  have hleaf : kids (dfsMount oneDirState oneDirPath part0).2
      (mountedRoot oneDirState oneDirPath part0) = [] := by decide +kernel
  refine dirtyReaches_of_visible_run oneDirState oneDirPath part0 (by decide +kernel) newFileOps
    newFileOps_onTree (newFileOps_inBounds.and
      ⟨fun r hr _ _ p hp hc => ?_, fun r hr _ hclean => ?_, fun _ => ⟨?_, ?_⟩, trivial⟩)
  · rw [Below.eq_of_leaf hleaf hp, hleaf] at hc
    exact absurd hc List.not_mem_nil
  · have hdir := congrArg (fun e => e.toOption.map Prod.fst) hr
    have hroot := hdir.symm.trans
      (by decide +kernel : _ = some (mountedRoot oneDirState oneDirPath part0))
    rw [show r.1 = _ from Option.some.inj hroot] at hclean
    exact absurd hclean (by decide +kernel)
  · rw [HoldsDirtyFile]
    decide +kernel
  · decide +kernel

/-- A folder that was made in the root stays new when the root is synchronised. -/
theorem dfsSyncFolder_cleans_root_of_new :
    ¬∀ (s : Fs) (path : CString) (id : PartId), (dfsMount s path id).1 = 0 → ∀ ops : List FsOp,
      (∀ op ∈ ops, op.OnTree (mountedRoot s path id)) →
      DirtyReaches (ops.foldl fsStep (dfsMount s path id).2) (mountedRoot s path id) := by
  intro h
  have hreach := h oneDirState oneDirPath part0 (by decide +kernel)
    [.mkdir ⟨[100], by decide⟩ (some ⟨[47, 109, 47, 109], by decide⟩),
      .syncFolder (mountedRoot oneDirState oneDirPath part0)] (by
        intro op hop
        rcases List.mem_cons.1 hop with rfl | hop
        · trivial
        · rw [List.mem_singleton.1 hop]
          rfl)
    (mountedRoot oneDirState oneDirPath part0) 5 (Below.refl _ _)
    ((Below.refl _ _).tail (by decide +kernel)) (Or.inl (by decide +kernel))
  revert hreach
  decide +kernel

end LittleLinux
