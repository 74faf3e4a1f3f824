import LittleLinux.Dfs.Calls
import LittleLinux.Dfs.Overlay
import LittleLinux.Dfs.TreeMount

/-!
# References lead to allocated objects

In every state that a run of calls reaches, whatever the calls and whichever allocations fail,
the folder tables, the parent pointers and the working directory refer to addresses that were
handed out. Whether the object at such an address was released since is another matter.
-/

namespace LittleLinux

open ChainTable

variable {s s' s'' : Fs} {dir : Ptr}

/-- Every reference to a folder leads to an address that was handed out. -/
structure Allocated (s : Fs) : Prop extends AllocatedTree s where
  currentDir : s.currentDir < s.mem.next

/-- From `s` to `s'` the references are old ones, or lead to addresses that were handed out. -/
structure StaysAllocated (s s' : Fs) : Prop where
  next_le : s.mem.next ≤ s'.mem.next
  parent : ∀ p q, (s'.folders p).parent = some q → (s.folders p).parent = some q ∨ q < s'.mem.next
  kid : ∀ p, ∀ c ∈ kids s' p, c ∈ kids s p ∨ c < s'.mem.next
  currentDir : s'.currentDir = s.currentDir ∨ s'.currentDir < s'.mem.next

namespace StaysAllocated

theorem refl (s : Fs) : StaysAllocated s s :=
  ⟨le_refl _, fun _ _ => Or.inl, fun _ _ => Or.inl, Or.inl rfl⟩

theorem trans (h : StaysAllocated s s') (h' : StaysAllocated s' s'') : StaysAllocated s s'' where
  next_le := h.next_le.trans h'.next_le
  parent := by
    intro p q hq
    rcases h'.parent p q hq with hq | hq
    · exact (h.parent p q hq).imp id fun hlt => hlt.trans_le h'.next_le
    · exact Or.inr hq
  kid := by
    intro p c hc
    rcases h'.kid p c hc with hc | hc
    · exact (h.kid p c hc).imp id fun hlt => hlt.trans_le h'.next_le
    · exact Or.inr hc
  currentDir := by
    rcases h'.currentDir with heq | hlt
    · rw [heq]
      exact h.currentDir.imp id fun hlt => hlt.trans_le h'.next_le
    · exact Or.inr hlt

theorem allocated (h : StaysAllocated s s') (ha : Allocated s) : Allocated s' where
  parent := by
    intro p q hq
    rcases h.parent p q hq with hq | hq
    · exact (ha.parent p q hq).trans_le h.next_le
    · exact hq
  child := by
    intro p nd hnd
    rcases h.kid p _ (List.mem_map.2 ⟨nd, hnd, rfl⟩) with hold | hlt
    · obtain ⟨nd₀, hnd₀, hptr⟩ := List.mem_map.1 hold
      rw [← hptr]
      exact (ha.child p nd₀ hnd₀).trans_le h.next_le
    · exact hlt
  currentDir := by
    rcases h.currentDir with heq | hlt
    · rw [heq]
      exact ha.currentDir.trans_le h.next_le
    · exact hlt

theorem of_quiet (h : Quiet s s') : StaysAllocated s s' where
  next_le := h.next_le
  parent := fun p q hq => Or.inl ((h.place p).parent ▸ hq)
  kid := by
    intro p c hc
    rw [kids, h.foderMap] at hc
    exact Or.inl hc
  currentDir := Or.inl h.currentDir

/-- A store to one folder that keeps its parent pointer. -/
theorem modifyFolder {g : RamfsFoder → RamfsFoder} {mem : Memory} (hnext : s.mem.next ≤ mem.next)
    (hparent : ∀ f, (g f).parent = f.parent)
    (hkid : ∀ nd ∈ (g (s.folders dir)).foderMap.nodes,
      nd.value.ptr ∈ kids s dir ∨ nd.value.ptr < mem.next) :
    StaysAllocated s ((s.modifyFolder dir g).setMem mem) where
  next_le := hnext
  parent := by
    intro p q hq
    rcases eq_or_ne p dir with rfl | hne
    · rw [Fs.setMem_folders, Fs.modifyFolder_self, hparent] at hq
      exact Or.inl hq
    · rw [Fs.setMem_folders, Fs.modifyFolder_of_ne _ _ hne] at hq
      exact Or.inl hq
  kid := by
    intro p c hc
    rcases eq_or_ne p dir with rfl | hne
    · rw [kids, Fs.setMem_folders, Fs.modifyFolder_self] at hc
      obtain ⟨nd, hnd, rfl⟩ := List.mem_map.1 hc
      exact hkid nd hnd
    · rw [kids, Fs.setMem_folders, Fs.modifyFolder_of_ne _ _ hne] at hc
      exact Or.inl hc
  currentDir := Or.inl rfl

/-- A store to one folder that adds no entry. -/
theorem of_fewer (s : Fs) (dir : Ptr) (g : RamfsFoder → RamfsFoder)
    (hparent : ∀ f, (g f).parent = f.parent)
    (hkid : ∀ nd ∈ (g (s.folders dir)).foderMap.nodes, nd.value.ptr ∈ kids s dir) :
    StaysAllocated s (s.modifyFolder dir g) := by
  change StaysAllocated s ((s.modifyFolder dir g).setMem s.mem)
  exact modifyFolder (le_refl _) hparent fun nd hnd => Or.inl (hkid nd hnd)

/-- A new object without entries, whose parent is an old one. -/
theorem setFolder {p : Ptr} {node : RamfsFoder} {mem : Memory} (hnext : s.mem.next ≤ mem.next)
    (hparent : ∀ q, node.parent = some q → q < mem.next) (hmap : node.foderMap = Table.empty) :
    StaysAllocated s ((s.setMem mem).setFolder p node) where
  next_le := hnext
  parent := by
    intro q r hr
    rcases eq_or_ne q p with rfl | hne
    · rw [Fs.setFolder_self] at hr
      exact Or.inr (hparent r hr)
    · rw [Fs.setFolder_of_ne _ _ hne] at hr
      exact Or.inl hr
  kid := by
    intro q c hc
    rcases eq_or_ne q p with rfl | hne
    · rw [kids, Fs.setFolder_self, hmap, nodes_empty] at hc
      exact absurd hc List.not_mem_nil
    · rw [kids, Fs.setFolder_of_ne _ _ hne] at hc
      exact Or.inl hc
  currentDir := Or.inl rfl

/-- An entry for an object that was handed out. -/
theorem insert (s : Fs) (dir : Ptr) (name : CString) (info : RamfsFoderInfo)
    (g : RamfsFoder → RamfsFoder) (hg : ∀ f, (g f).foderMap = f.foderMap)
    (hparent : ∀ f, (g f).parent = f.parent) (hptr : info.ptr < s.mem.next) :
    StaysAllocated s ((s.modifyFolder dir fun f => g (f.setFoderMap
      (ramfsHashmapInsert s.mem (s.folders dir).foderMap name info).2.1)).setMem
        (ramfsHashmapInsert s.mem (s.folders dir).foderMap name info).2.2) := by
  refine modifyFolder (next_le_insert _ _ _ _ _) (fun f => hparent _) fun nd hnd => ?_
  have hlt := hptr.trans_le (next_le_insert foderTable s.mem (s.folders dir).foderMap name info)
  rw [hg] at hnd
  rcases foderTable.mem_insert hnd with ⟨nd₀, hnd₀, -, hval | hval⟩ | ⟨-, -, hval⟩
  · rw [hval]
    exact Or.inl (List.mem_map.2 ⟨nd₀, hnd₀, rfl⟩)
  · exact Or.inr (hval ▸ hlt)
  · exact Or.inr (hval ▸ hlt)

/-- A new object is made and entered into `dir`. -/
theorem addSubfolder (s : Fs) (dir : Ptr) {mem : Memory} (hnext : s.mem.next < mem.next)
    {node : RamfsFoder} {info : RamfsFoderInfo} (hparent : ∀ q, node.parent = some q → q < mem.next)
    (hmap : node.foderMap = Table.empty) (hptr : info.ptr = s.mem.next) :
    StaysAllocated s (addSubfolder (s.setMem mem) dir s.mem.next node info) :=
  (setFolder hnext.le hparent hmap).trans
    (insert _ dir info.name info (fun f => f) (fun _ => rfl) (fun _ => rfl) (hptr ▸ hnext))

end StaysAllocated

/-! ### Loading -/

theorem staysAllocated_loadSubfolders (known : Bool) (mount : Option ℕ) {parent : Option Ptr}
    (dir : Ptr) (es : List DiskFoderInfo) (s : Fs) (hparent : ∀ q, parent = some q → q < s.mem.next) :
    StaysAllocated s (loadSubfolders known mount parent dir es s).2 := by
  induction es generalizing s with
  | nil => exact StaysAllocated.refl s
  | cons e es ih =>
    have hnext := s.mem.next_le_next_malloc sizeofRamfsFoder
    rw [loadSubfolders]
    split_ifs
    · exact ih s hparent
    · dsimp only
      cases ha : (s.mem.malloc sizeofRamfsFoder).1 with
      | none => exact ⟨hnext, fun _ _ => Or.inl, fun _ _ => Or.inl, Or.inl rfl⟩
      | some sub =>
        obtain ⟨rfl, hlt⟩ := Memory.malloc_eq_some ha
        have hadd : StaysAllocated s (addSubfolder (s.setMem (s.mem.malloc sizeofRamfsFoder).2) dir
            s.mem.next { RamfsFoder.zero with
              name := e.name
              type := RAMFS_FOLDER_TYPE_DISK_CLEAN
              driveAddr := e.driveAddr
              mount := mount
              parent := parent } ⟨e.name, RAMFS_FOLDER_TYPE_DISK_CLEAN, s.mem.next, e.driveAddr⟩) :=
          StaysAllocated.addSubfolder s dir ((Nat.lt_succ_self _).trans_eq hlt.symm)
            (fun q hq => (hparent q hq).trans_le hnext) rfl rfl
        exact hadd.trans (ih _ fun q hq => (hparent q hq).trans_le hadd.next_le)

theorem staysAllocated_dfsLoadFolderChildren (hdir : dir < s.mem.next) :
    StaysAllocated s (dfsLoadFolderChildren s dir).2 := by
  have hstore := fun st => StaysAllocated.of_quiet (Quiet.setStore s st)
  rw [dfsLoadFolderChildren]
  dsimp only
  split_ifs
  · exact StaysAllocated.refl s
  · exact StaysAllocated.refl s
  · cases (s.folders dir).mount with
    | none => exact StaysAllocated.refl s
    | some m =>
      dsimp only
      cases (s.disk.store.read (s.mountTable m).part (toU32 (s.folders dir).driveAddr)
        sizeofDiskFolder).1 with
      | none => exact hstore _
      | some b =>
        have hparent : ∀ q, some dir = some q → q < s.mem.next := by
          rintro q hq
          obtain rfl := Option.some.inj hq
          exact hdir
        have hloop := fun es st => (hstore st).trans (staysAllocated_loadSubfolders true (some m) dir
          es (s.setStore st) hparent)
        dsimp only
        split_ifs
        · exact hstore _
        · exact hloop _ _
        · exact (hloop _ _).trans (StaysAllocated.of_quiet (quiet_loadFiles _ _ _ _).1)

theorem staysAllocated_dfsLoadFolderFromDisk (s : Fs) (dir : Ptr) (id : PartId) (off : ℕ) :
    StaysAllocated s (dfsLoadFolderFromDisk s dir id off).2 := by
  have hstore := fun st => StaysAllocated.of_quiet (Quiet.setStore s st)
  rw [dfsLoadFolderFromDisk]
  dsimp only
  cases (s.disk.store.read id off sizeofDiskFolder).1 with
  | none => exact hstore _
  | some b =>
    have hreset : ∀ t : Fs, StaysAllocated t (t.modifyFolder dir fun f =>
        { f with
          name := (DiskFolder.decode b).name
          type := RAMFS_FOLDER_TYPE_DISK_CLEAN
          driveAddr := off
          isMountRoot := false
          foderMap := ramfsHashmapInit
          fileMap := ramfsFileHashmapInit }) := by
      intro t
      refine StaysAllocated.of_fewer t dir _ (fun _ => rfl) fun nd hnd => ?_
      exact absurd (nodes_empty ▸ hnd : nd ∈ []) List.not_mem_nil
    have hnone : ∀ (t : Fs) (q : Ptr), none = some q → q < t.mem.next := fun _ _ hq =>
      absurd hq (Option.some_ne_none _).symm
    have hloop := fun es st => ((hstore st).trans (hreset _)).trans
      (staysAllocated_loadSubfolders false none dir es _ (hnone _))
    dsimp only
    split_ifs
    · exact hstore _
    · exact hloop _ _
    · exact (hloop _ _).trans (StaysAllocated.of_quiet (quiet_loadFiles _ _ _ _).1)

theorem staysAllocated_lazyLoadDirectory (hdir : dir < s.mem.next) :
    StaysAllocated s (lazyLoadDirectory s dir) := by
  rw [lazyLoadDirectory]
  split_ifs
  · exact staysAllocated_dfsLoadFolderChildren hdir
  · exact StaysAllocated.refl s

/-! ### Directories -/

/-- A call that changes the allocator alone. -/
theorem StaysAllocated.of_onlyMem (h : OnlyMem s s') : StaysAllocated s s' := by
  obtain ⟨mem, hnext, rfl⟩ := h
  exact ⟨hnext, fun _ _ => Or.inl, fun _ _ => Or.inl, Or.inl rfl⟩

theorem staysAllocated_mkdirIn (hdir : dir < s.mem.next) (name : CString) :
    StaysAllocated s (mkdirIn s dir name).2 := by
  have hload := staysAllocated_lazyLoadDirectory hdir
  replace hdir := hdir.trans_le hload.next_le
  refine hload.trans ?_
  generalize hu : lazyLoadDirectory s dir = u at hdir
  rcases mkdirIn_cases hu name with honly | ⟨⟨hfind, -⟩, mem, hnext, heq⟩
  · exact StaysAllocated.of_onlyMem honly
  rw [heq]
  have hmade : StaysAllocated u ((u.setMem u.mem).setFolder u.mem.next (newDirNode u dir name)) := by
    refine StaysAllocated.setFolder (le_refl _) (fun q hq => ?_) rfl
    obtain rfl := Option.some.inj hq
    exact hdir
  rcases enterDir_cases hnext hfind with honly | ⟨map, mem', hnext', hadds, heq⟩
  · exact hmade.trans (StaysAllocated.of_onlyMem honly)
  · rw [heq]
    refine hmade.trans (StaysAllocated.modifyFolder hnext'.le
      (fun f => (markDirty_samePlace _).parent) fun nd hnd => ?_)
    rw [markDirty_foderMap] at hnd
    have hne := Nat.ne_of_lt hdir
    rw [kids, Fs.setFolder_of_ne _ _ hne]
    rcases (hadds hne).mem_nodes hnd with hold | ⟨-, hval⟩
    · exact Or.inl (List.mem_map.2 ⟨nd, hold, rfl⟩)
    · exact Or.inr (hval ▸ hnext')

theorem staysAllocated_rmdirIn (hdir : dir < s.mem.next) (name : CString) :
    StaysAllocated s (rmdirIn s dir name).2 := by
  refine (staysAllocated_lazyLoadDirectory hdir).trans ?_
  generalize hu : lazyLoadDirectory s dir = u
  rcases rmdirIn_cases hu name with heq | ⟨info, map, mem, -, -, -, hremoves, hnext, heq⟩
  · rw [heq]
    exact StaysAllocated.refl u
  · rw [heq]
    have hdelete : StaysAllocated u ((u.modifyFolder dir (·.setFoderMap map)).setMem u.mem) :=
      StaysAllocated.modifyFolder (le_refl _) (fun _ => rfl) fun nd hnd =>
        Or.inl (List.mem_map.2 ⟨nd, hremoves.mem_nodes hnd, rfl⟩)
    have hempty : StaysAllocated (u.modifyFolder dir (·.setFoderMap map))
        (((u.modifyFolder dir (·.setFoderMap map)).modifyFolder info.ptr emptyTables).setMem mem) :=
      StaysAllocated.modifyFolder hnext.ge (fun _ => rfl) fun nd hnd =>
        absurd (nodes_empty ▸ hnd : nd ∈ []) List.not_mem_nil
    exact (hdelete.trans hempty).trans (StaysAllocated.of_quiet (quiet_markDirty _ dir))

/-! ### Paths -/

theorem Allocated.getDirByPath (h : Allocated s) {base e : Ptr} {path : CString}
    (hbase : base < s.mem.next) (he : getDirByPath s.folders base path = some e) : e < s.mem.next := by
  have hchild : ∀ p name info, ramfsHashmapFind (s.folders p).foderMap name = some info →
      info.ptr < s.mem.next := by
    intro p name info hfind
    obtain ⟨nd, hnd, rfl⟩ := foderTable.exists_of_find hfind
    exact h.child p nd hnd
  rw [LittleLinux.getDirByPath] at he
  split_ifs at he
  · exact walkParts_lt h.parent hchild (Nat.succ_pos _) he
  · exact walkParts_lt h.parent hchild hbase he

theorem Allocated.ramfsGetDirByAbsPath (h : Allocated s) {path : CString} {e : Ptr}
    (he : ramfsGetDirByAbsPath s path = some e) : e < s.mem.next :=
  h.getDirByPath (Nat.succ_pos _) he

theorem Allocated.fromDir (h : Allocated s) {dir : Option CString} {e : Ptr}
    (he : fromDir s dir = some e) : e < s.mem.next := by
  cases dir with
  | none =>
    obtain rfl := Option.some.inj he
    exact h.currentDir
  | some path => exact h.getDirByPath h.currentDir he

theorem Allocated.parsePath (h : Allocated s) {name : CString} {dir : Option CString}
    {r : Ptr × CString} (hr : parsePath s name dir = .ok r) : r.1 < s.mem.next :=
  parsePath_dir (Nat.succ_pos _) (fun _ => h.fromDir) (fun _ _ _ hbase he => h.getDirByPath hbase he)
    hr

/-! ### Calls -/

theorem Allocated.init (mem : Memory) (store : Store) : Allocated (initState mem store) := by
  have hfolder : ∀ p, ((initState mem store).folders p).foderMap = Table.empty ∧
      ((initState mem store).folders p).parent = none := by
    intro p
    rcases eq_or_ne p rootPtr with rfl | hne
    · exact ⟨rfl, rfl⟩
    · rw [initState_folder mem store hne]
      exact ⟨rfl, rfl⟩
  refine ⟨⟨fun p q hq => ?_, fun p nd hnd => ?_⟩, Nat.succ_pos _⟩
  · rw [(hfolder p).2] at hq
    exact absurd hq (by simp)
  · rw [(hfolder p).1, nodes_empty] at hnd
    exact absurd hnd List.not_mem_nil

theorem staysAllocated_mount (s : Fs) (path : CString) (id : PartId) :
    StaysAllocated s (dfsMount s path id).2 := by
  obtain ⟨st, mem, -, hnext, -, heq⟩ | ⟨dir, sb, st, -, -, -, -, hmalloc, hcase⟩ :=
    dfsMount_cases s path id
  · rw [heq]
    exact ⟨hnext, fun _ _ => Or.inl, fun _ _ => Or.inl, Or.inl rfl⟩
  -- the new root, and what is loaded into it
  have hnew : StaysAllocated s (newRoot s st) := by
    refine (StaysAllocated.of_quiet (Quiet.setStore s st)).trans ?_
    refine StaysAllocated.setFolder (s.mem.next_le_next_malloc _) (fun q hq => ?_) rfl
    exact absurd (show (none : Option Ptr) = some q from hq) (by simp)
  have hload := hnew.trans (staysAllocated_dfsLoadFolderFromDisk _ s.mem.next id sb.rootPointer)
  have hlt := lt_next_loadRoot s st id sb.rootPointer hmalloc
  generalize (dfsLoadFolderFromDisk (newRoot s st) s.mem.next id sb.rootPointer) = l
    at hload hlt hcase
  obtain heq | ⟨-, heq⟩ := hcase
  · rw [heq]
    exact hload.trans ⟨le_refl _, fun _ _ => Or.inl, fun _ _ => Or.inl, Or.inl rfl⟩
  rw [heq]
  have hmark : StaysAllocated l.2 (markRoot l.2 s.mem.next l.2.mountCount) :=
    StaysAllocated.of_fewer l.2 s.mem.next _ (fun _ => rfl) fun nd hnd => List.mem_map.2 ⟨nd, hnd, rfl⟩
  refine (hload.trans hmark).trans ?_
  have hltm : s.mem.next < (markRoot l.2 s.mem.next l.2.mountCount).mem.next := hlt
  generalize markRoot l.2 s.mem.next l.2.mountCount = m at hltm
  obtain ⟨ins, hins, ⟨-, hattach⟩ | ⟨-, hattach⟩⟩ :=
    attachRoot_cases m dir s.mem.next path id (toI32 sb.rootPointer)
  · rw [hattach, hins]
    exact ⟨next_le_insert _ _ _ _ _, fun _ _ => Or.inl, fun _ _ => Or.inl, Or.inl rfl⟩
  · rw [hattach, hins]
    have hentered := StaysAllocated.insert m dir (lastComponent path)
      ⟨lastComponent path, RAMFS_FOLDER_TYPE_DISK_CLEAN, s.mem.next, toI32 sb.rootPointer⟩ (fun f => f)
      (fun _ => rfl) (fun _ => rfl) hltm
    exact ⟨hentered.next_le, hentered.parent, hentered.kid, hentered.currentDir⟩

theorem staysAllocated_umount (s : Fs) (path : CString) : StaysAllocated s (dfsUmount s path).2 := by
  rw [dfsUmount]
  cases (List.range s.mountCount).find? fun i => streq (s.mountTable i).path path with
  | none => exact StaysAllocated.refl s
  | some idx =>
    have hsync := StaysAllocated.of_quiet (quiet_dfsSyncFolder s (s.mountTable idx).rootDir)
    refine hsync.trans ?_
    dsimp only
    generalize (dfsSyncFolder s (s.mountTable idx).rootDir).2 = t
    -- the deletion of the entry
    have hdelete : StaysAllocated t (umountDelete t (s.mountTable idx)) := by
      rw [umountDelete]
      cases ramfsGetDirByAbsPath t (umountParent (s.mountTable idx).path).1 with
      | none => exact StaysAllocated.refl t
      | some dir =>
        exact StaysAllocated.modifyFolder (next_delete _ _ _ _).ge (fun _ => rfl) fun nd hnd =>
          Or.inl (List.mem_map.2 ⟨nd, mem_nodes_delete hnd, rfl⟩)
    have hdrop : ∀ (v : Fs) (fuel : ℕ),
        StaysAllocated v ((freeFolderTree fuel v (s.mountTable idx).rootDir).dropMount idx) := by
      intro v fuel
      have hrel : Released Set.univ v (freeFolderTree fuel v (s.mountTable idx).rootDir) :=
        released_freeFolderTree fuel v (fun _ _ _ _ => trivial) trivial
      exact ⟨hrel.next.ge, fun p q hq => Or.inl ((hrel.place p).parent ▸ hq),
        fun p c hc => Or.inl (hrel.mem_kids hc), Or.inl hrel.currentDir⟩
    exact hdelete.trans (hdrop _ _)

/-- **One step.** -/
theorem Allocated.step (h : Allocated s) (op : FsOp) : Allocated (fsStep s op) := by
  have hquiet : ∀ {t : Fs} {p : Ptr}, p < s.mem.next → Quiet (lazyLoadDirectory s p) t → Allocated t :=
    fun hp hq => ((staysAllocated_lazyLoadDirectory hp).trans (StaysAllocated.of_quiet hq)).allocated h
  obtain ⟨r, hcase, hstep⟩ := fsStep_cases s op
  rw [hstep]
  cases hcase with
  | refused => exact h
  | mkdir hdir => exact (staysAllocated_mkdirIn (h.fromDir hdir) _).allocated h
  | cd hdir => exact ⟨⟨h.parent, h.child⟩, h.getDirByPath h.currentDir hdir⟩
  | rm hparse => exact hquiet (h.parsePath hparse) (quiet_rmIn s _ _)
  | rmdir hdir => exact (staysAllocated_rmdirIn (h.fromDir hdir) _).allocated h
  | touch hparse => exact hquiet (h.parsePath hparse) (quiet_touchIn s _ _)
  | write hdir => exact hquiet (h.fromDir hdir) (quiet_writeIn s _ _ _)
  | cat hdir => exact hquiet (h.fromDir hdir) (quiet_catIn s _ _)
  | backspace hparse => exact hquiet (h.parsePath hparse) (quiet_backspaceIn s _ _ _)
  | syncFolder p => exact (StaysAllocated.of_quiet (quiet_dfsSyncFolder s p)).allocated h
  | syncAll => exact (StaysAllocated.of_quiet (quiet_dfsSyncAll s)).allocated h
  | mount path id => exact (staysAllocated_mount s path id).allocated h
  | umount path => exact (staysAllocated_umount s path).allocated h

/-- **References lead to allocated objects** in every state that a run of calls reaches. -/
theorem allocated_run (mem : Memory) (store : Store) (ops : List FsOp) :
    Allocated (ops.foldl fsStep (initState mem store)) :=
  Along.invariant (C := fun _ _ => True) (fun _ op hs _ => hs.step op) (Allocated.init mem store)
    (Along.of_forall (fun _ _ => trivial) _ _)

end LittleLinux
