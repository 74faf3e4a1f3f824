import LittleLinux.Dfs.Calls
import LittleLinux.Dfs.TreeMount
import LittleLinux.Dfs.BlockSafety
import LittleLinux.Dfs.LiveUse

/-!
# The mount table

The root of a mount points to its entry of the mount table. `dfs_mount` stores to the entry
behind the last one without comparing it with `MAX_MOUNTS`, and `dfs_umount` moves the later
entries down without adjusting the pointers to them. So the table stays coherent along a run in
which every mount finds a free entry and every unmount drops the last one; nine mounts in a row
overflow it.
-/

namespace LittleLinux

open ChainTable

/-! ### Coherence -/

/-- A run of the file system: the state, and the mounts that are live, each with its root and
the partition it was mounted with. -/
structure MountRun where
  fs : Fs
  live : List (Ptr × PartId)

/-- The entry that `dfs_umount` finds for a path. -/
def mountIndex (s : Fs) (path : CString) : Option ℕ :=
  (List.range s.mountCount).find? fun i => streq (s.mountTable i).path path

/-- One call. A mount that succeeds is live from then on, and unmounting ends the one whose
entry is found. -/
def mountStep (m : MountRun) (op : FsOp) : MountRun where
  fs := fsStep m.fs op
  live := match op with
    | .mount _ id =>
      if (fsCall m.fs op).1 = 0 then
        (((fsStep m.fs op).mountTable m.fs.mountCount).rootDir, id) :: m.live
      else m.live
    | .umount path =>
      match mountIndex m.fs path with
      | some idx => m.live.filter fun e => e.1 ≠ (m.fs.mountTable idx).rootDir
      | none => m.live
    | _ => m.live

/-- The mount table is coherent: it has not overflowed, and the root of every live mount points
to a live entry that names it and its partition. -/
structure Coherent (m : MountRun) : Prop where
  count_le : m.fs.mountCount ≤ MAX_MOUNTS
  writes : ∀ i ∈ m.fs.mountWrites, i < MAX_MOUNTS
  pointer : ∀ e ∈ m.live, ∃ i < m.fs.mountCount, (m.fs.folders e.1).mount = some i ∧
    (m.fs.mountTable i).rootDir = e.1 ∧ (m.fs.mountTable i).part = e.2

/-- `fs_rmdir` does not come to remove the root of a mount. -/
def RmdirSparesRoots (s : Fs) (name : CString) (dir : Option CString) : Prop :=
  ∀ parent ∈ fromDir s dir, ∀ info ∈ ramfsHashmapFind (s.folders parent).foderMap name,
    (s.folders info.ptr).foderMap.count = 0 ∧ (s.folders info.ptr).fileMap.count = 0 →
    info.ptr ∉ mountRoots s

/-- Unmounting entry `idx` moves no entry, and releases no root that another entry names. -/
def UmountSparesRoots (s : Fs) (idx : ℕ) : Prop :=
  idx + 1 = s.mountCount ∧
    ∀ i < idx, (s.mountTable i).rootDir ∉ subtree (s.mem.next + 1) s (s.mountTable idx).rootDir

/-- The call moves no entry of the mount table, and releases no root of a mount that stays. -/
def FsOp.KeepsEntries (s : Fs) : FsOp → Prop
  | .umount path => ∀ idx, mountIndex s path = some idx → UmountSparesRoots s idx
  | .rmdir name dir => RmdirSparesRoots s name dir
  | _ => True

instance (s : Fs) (name : CString) (dir : Option CString) : Decidable (RmdirSparesRoots s name dir) :=
  inferInstanceAs (Decidable (∀ parent ∈ fromDir s dir, ∀ info ∈ _, _))

instance (s : Fs) (idx : ℕ) : Decidable (UmountSparesRoots s idx) :=
  inferInstanceAs (Decidable (_ ∧ _))

/-- What a run keeps: coherence, and that the roots were handed out. -/
structure CoherentInv (m : MountRun) : Prop extends Coherent m where
  root_lt : ∀ e ∈ m.live, e.1 < m.fs.mem.next

/-! ### What the calls leave alone -/

section Frames

variable {s : Fs}

theorem Released.frame {R : Set Ptr} {s' : Fs} (h : Released R s s') (n : ℕ) :
    Frame SamePlace n s s' :=
  ⟨h.next.ge, fun p _ => h.place p, h.mountTable, h.mountCount, h.mountWrites⟩

theorem frame_setTable (n : ℕ) (s : Fs) (dir : Ptr) (map : RamfsHashmap) {mem : Memory}
    (hmem : s.mem.next ≤ mem.next) : Frame SamePlace n s (setTable s dir map mem) := by
  refine Frame.trans frameRel_samePlace ?_ (Frame.setMem frameRel_samePlace n _ hmem)
  exact Frame.modifyFolder frameRel_samePlace n s (Or.inr fun _ => ⟨rfl, rfl, rfl⟩)

theorem frame_lazy_quiet {s' : Fs} {dir : Ptr} (hq : Quiet (lazyLoadDirectory s dir) s') :
    Frame SamePlace s.mem.next s s' :=
  (frame_lazyLoadDirectory frameRel_samePlace tableRel_samePlace le_rfl).trans frameRel_samePlace
    (hq.frame _)

theorem frame_mkdirIn (s : Fs) (dir : Ptr) (name : CString) :
    Frame SamePlace s.mem.next s (mkdirIn s dir name).2 := by
  have hload : Frame SamePlace s.mem.next s (lazyLoadDirectory s dir) :=
    frame_lazyLoadDirectory frameRel_samePlace tableRel_samePlace le_rfl
  refine hload.trans frameRel_samePlace ?_
  have hle := hload.next_le
  generalize hu : lazyLoadDirectory s dir = u at hle
  rcases mkdirIn_cases hu name with ⟨mem, hnext, heq⟩ | ⟨hfree, mem, hnext, heq⟩ <;> rw [heq]
  · exact Frame.setMem frameRel_samePlace _ u hnext
  have hnew : Frame SamePlace s.mem.next u (u.setFolder u.mem.next (newDirNode u dir name)) :=
    Frame.setFolder frameRel_samePlace u hle _
  refine hnew.trans frameRel_samePlace ?_
  rcases enterDir_cases hnext hfree.1 with ⟨mem', hnext', heq⟩ | ⟨map, mem', hnext', -, heq⟩ <;> rw [heq]
  · exact Frame.setMem frameRel_samePlace _ _ hnext'
  · rw [← Fs.modifyFolder_modifyFolder _ dir (·.setFoderMap map) markDirty]
    exact (frame_setTable _ (u.setFolder u.mem.next (newDirNode u dir name)) dir map hnext'.le).trans
      frameRel_samePlace ((quiet_markDirty _ dir).frame _)

theorem frame_rmdirIn (s : Fs) (dir : Ptr) (name : CString) :
    Frame SamePlace s.mem.next s (rmdirIn s dir name).2 := by
  have hload : Frame SamePlace s.mem.next s (lazyLoadDirectory s dir) :=
    frame_lazyLoadDirectory frameRel_samePlace tableRel_samePlace le_rfl
  refine hload.trans frameRel_samePlace ?_
  generalize hu : lazyLoadDirectory s dir = u
  rcases rmdirIn_cases hu name with heq | ⟨info, map, mem, -, -, -, -, hnext, heq⟩ <;> rw [heq]
  · exact Frame.refl frameRel_samePlace _ u
  have hdelete : Frame SamePlace s.mem.next u (setTable u dir map mem) := frame_setTable _ u dir map hnext.ge
  have hempty : Frame SamePlace s.mem.next (setTable u dir map mem)
      ((setTable u dir map mem).modifyFolder info.ptr emptyTables) :=
    Frame.modifyFolder frameRel_samePlace _ _ (Or.inr fun _ => ⟨rfl, rfl, rfl⟩)
  exact (hdelete.trans frameRel_samePlace hempty).trans frameRel_samePlace ((quiet_markDirty _ dir).frame _)

/-- The calls that do not touch the mount table. -/
def FsOp.IsLocal : FsOp → Prop
  | .mount _ _ | .umount _ => False
  | _ => True

/-- **Every other call leaves the mount table and the place of every folder alone.** -/
theorem frame_fsStep (s : Fs) {op : FsOp} (hop : op.IsLocal) :
    Frame SamePlace s.mem.next s (fsStep s op) := by
  have hrefl := Frame.refl frameRel_samePlace s.mem.next s
  obtain ⟨r, hcase, hstep⟩ := fsStep_cases s op
  rw [hstep]
  cases hcase with
  | refused => exact hrefl
  | mkdir => exact frame_mkdirIn s _ _
  | cd => exact ⟨le_refl _, fun _ _ => SamePlace.refl _, rfl, rfl, rfl⟩
  | rm => exact frame_lazy_quiet (quiet_rmIn s _ _)
  | rmdir => exact frame_rmdirIn s _ _
  | touch => exact frame_lazy_quiet (quiet_touchIn s _ _)
  | write => exact frame_lazy_quiet (quiet_writeIn s _ _ _)
  | cat => exact frame_lazy_quiet (quiet_catIn s _ _)
  | backspace => exact frame_lazy_quiet (quiet_backspaceIn s _ _ _)
  | syncFolder p => exact (quiet_dfsSyncFolder s p).frame _
  | syncAll => exact (quiet_dfsSyncAll s).frame _
  | mount => exact hop.elim
  | umount => exact hop.elim

/-- What `dfs_umount` leaves alone before it drops its entry. -/
theorem frame_dfsUmount {path : CString} {idx : ℕ} (h : mountIndex s path = some idx) :
    ∃ t, Frame SamePlace s.mem.next s t ∧ (dfsUmount s path).2 = t.dropMount idx := by
  rw [mountIndex] at h
  rw [dfsUmount, h]
  dsimp only
  refine ⟨_, ?_, rfl⟩
  refine ((quiet_dfsSyncFolder s (s.mountTable idx).rootDir).frame _).trans frameRel_samePlace ?_
  generalize (dfsSyncFolder s (s.mountTable idx).rootDir).2 = u
  refine Frame.trans frameRel_samePlace ?_
    ((released_freeFolderTree (R := Set.univ) _ _ (fun _ _ _ _ => trivial) trivial).frame _)
  cases ramfsGetDirByAbsPath u (umountParent (s.mountTable idx).path).1 with
  | none => exact Frame.refl frameRel_samePlace _ u
  | some dir => exact frame_setTable _ u dir _ (next_delete foderTable _ _ _).ge

/-- What `dfs_mount` leaves alone, and what it adds: it fails, or there is a new root that is
marked as one and points to the entry in which it is stored. -/
theorem frame_dfsMount (s : Fs) (path : CString) (id : PartId) :
    ((dfsMount s path id).1 ≠ 0 ∧ Frame SamePlace s.mem.next s (dfsMount s path id).2) ∨
    ∃ v rootDir, MountReady s path id ∧ Frame SamePlace s.mem.next s v ∧ rootDir < v.mem.next ∧
      (v.folders rootDir).mount = some v.mountCount ∧ (v.folders rootDir).isMountRoot = true ∧
      dfsMount s path id = (0, v.pushMount ⟨path, id, rootDir⟩) := by
  obtain ⟨st, mem, hne, hnext, -, heq⟩ | ⟨dir, sb, st, hdir, hempty, hsb, hmagic, hmalloc, hcase⟩ :=
    dfsMount_cases s path id
  · refine Or.inl ⟨hne, ?_⟩
    rw [heq]
    exact (Frame.setStore frameRel_samePlace _ _ st).trans frameRel_samePlace
      (Frame.setMem frameRel_samePlace _ _ hnext)
  have hload := frame_loadRoot frameRel_samePlace s st id sb.rootPointer
  have hlt := lt_next_loadRoot s st id sb.rootPointer hmalloc
  have hmark := frame_newRoot frameRel_samePlace s st id sb.rootPointer
  rcases hcase with heq | ⟨-, heq⟩
  · rw [heq]
    exact Or.inl ⟨show (-6 : ℤ) ≠ 0 by decide,
      hload.trans frameRel_samePlace (Frame.setMem frameRel_samePlace _ _ le_rfl)⟩
  rw [heq]
  generalize (dfsLoadFolderFromDisk (newRoot s st) s.mem.next id sb.rootPointer).2 = t at *
  have hroot : ((markRoot t s.mem.next t.mountCount).folders s.mem.next).mount = some s.mountCount ∧
      ((markRoot t s.mem.next t.mountCount).folders s.mem.next).isMountRoot = true := by
    rw [markRoot, Fs.modifyFolder_self, hload.mountCount]
    exact ⟨rfl, rfl⟩
  have hmark := hmark t.mountCount
  have hlt : s.mem.next < (markRoot t s.mem.next t.mountCount).mem.next := hlt
  generalize markRoot t s.mem.next t.mountCount = u at *
  obtain ⟨ins, hins, hcase⟩ := attachRoot_cases u dir s.mem.next path id (toI32 sb.rootPointer)
  have hnext : u.mem.next ≤ ins.2.2.next := by
    rw [hins]
    exact next_le_insert _ _ _ _ _
  rcases hcase with ⟨-, hattach⟩ | ⟨-, hattach⟩
  · rw [hattach]
    exact Or.inl ⟨show (-7 : ℤ) ≠ 0 by decide,
      hmark.trans frameRel_samePlace (Frame.setMem frameRel_samePlace _ _ hnext)⟩
  · -- the root is entered into a table, which moves no folder
    have henter := hmark.trans frameRel_samePlace (frame_setTable _ u dir ins.2.1 hnext)
    have hplace := (frame_setTable _ u dir ins.2.1 hnext).folders s.mem.next (Nat.lt_succ_self _)
    refine Or.inr ⟨setTable u dir ins.2.1 ins.2.2, s.mem.next,
      ⟨dir, sb, st, hdir, hempty, hsb, hmagic⟩, henter, hlt.trans_le hnext, ?_, ?_, hattach⟩
    · rw [hplace.mount, hroot.1, henter.mountCount]
    · rw [hplace.isMountRoot, hroot.2]

/-! ### The roots of the mounts -/

/-- The root of every entry is an object that is marked as the root of a mount. -/
def RootsMarked (s : Fs) : Prop :=
  ∀ i < s.mountCount, (s.mountTable i).rootDir < s.mem.next ∧
    (s.folders (s.mountTable i).rootDir).isMountRoot = true

theorem RootsMarked.frame {s' : Fs} (h : RootsMarked s) (hf : Frame SamePlace s.mem.next s s') :
    RootsMarked s' := by
  intro i hi
  rw [hf.mountCount] at hi
  obtain ⟨hlt, hmark⟩ := h i hi
  rw [hf.mountTable]
  exact ⟨hlt.trans_le hf.next_le, (hf.folders _ hlt).isMountRoot.trans hmark⟩

/-- **Every call keeps the roots marked.** -/
theorem RootsMarked.step (h : RootsMarked s) (op : FsOp) : RootsMarked (fsStep s op) := by
  by_cases hop : op.IsLocal
  · exact h.frame (frame_fsStep s hop)
  cases op with
  | mount path id =>
    obtain ⟨-, hf⟩ | ⟨v, rootDir, -, hf, hlt, -, hmark, heq⟩ := frame_dfsMount s path id
    · exact h.frame hf
    · rw [fsStep, fsCall, heq]
      intro i hi
      rcases eq_or_ne i v.mountCount with rfl | hne
      · rw [Fs.pushMount_mountTable_self]
        exact ⟨hlt, hmark⟩
      · have hold : (v.pushMount ⟨path, id, rootDir⟩).mountTable i = v.mountTable i :=
          Function.update_of_ne hne _ _
        rw [hold]
        exact h.frame hf i (Nat.lt_of_le_of_ne (Nat.le_of_lt_succ hi) hne)
  | umount path =>
    cases hidx : mountIndex s path with
    | none =>
      rw [mountIndex] at hidx
      rw [fsStep, fsCall, dfsUmount, hidx]
      exact h
    | some idx =>
      obtain ⟨t, hf, heq⟩ := frame_dfsUmount hidx
      rw [fsStep, fsCall, heq]
      intro i hi
      obtain ⟨j, hj, -, hold⟩ := exists_of_dropMount hi
      rw [hold]
      exact h.frame hf j hj
  | _ => exact absurd trivial hop

theorem rootsMarked_run (mem : Memory) (store : Store) (ops : List FsOp) :
    RootsMarked (ops.foldl fsStep (initState mem store)) :=
  Along.invariant (fun s op (hs : RootsMarked s) _ => hs.step op)
    (fun i hi => absurd hi (Nat.not_lt_zero i)) (Along.of_forall (fun _ _ => trivial) _ ops)

end Frames

/-! ### Steps and runs -/

section Steps

variable {m : MountRun}

/-- A call that leaves the mount table and the roots alone. -/
theorem CoherentInv.frame (h : CoherentInv m) {s' : Fs} (hf : Frame SamePlace m.fs.mem.next m.fs s') :
    CoherentInv ⟨s', m.live⟩ where
  count_le := hf.mountCount ▸ h.count_le
  writes := hf.mountWrites ▸ h.writes
  pointer := by
    intro e he
    obtain ⟨i, hi, hptr, hroot, hpart⟩ := h.pointer e he
    refine ⟨i, hf.mountCount ▸ hi, ?_, hf.mountTable ▸ hroot, hf.mountTable ▸ hpart⟩
    rw [(hf.folders e.1 (h.root_lt e he)).mount]
    exact hptr
  root_lt := fun e he => (h.root_lt e he).trans_le hf.next_le

/-- A new entry, and the root that points to it. -/
theorem CoherentInv.push (h : CoherentInv m) {mp : DfsMountPoint}
    (hroom : m.fs.mountCount < MAX_MOUNTS)
    (hptr : (m.fs.folders mp.rootDir).mount = some m.fs.mountCount)
    (hlt : mp.rootDir < m.fs.mem.next) :
    CoherentInv ⟨m.fs.pushMount mp, (mp.rootDir, mp.part) :: m.live⟩ := by
  have hself := m.fs.pushMount_mountTable_self mp
  refine ⟨⟨hroom, ?_, ?_⟩, ?_⟩
  · intro i hi
    rcases List.mem_cons.1 hi with rfl | hi
    · exact hroom
    · exact h.writes i hi
  · intro e he
    rcases List.mem_cons.1 he with rfl | he
    · refine ⟨m.fs.mountCount, Nat.lt_succ_self _, hptr, ?_, ?_⟩
      · rw [hself]
      · rw [hself]
    · obtain ⟨i, hi, hp, hroot, hpart⟩ := h.pointer e he
      have hold : (m.fs.pushMount mp).mountTable i = m.fs.mountTable i :=
        Function.update_of_ne (Nat.ne_of_lt hi) _ _
      exact ⟨i, hi.trans (Nat.lt_succ_self _), hp, hold ▸ hroot, hold ▸ hpart⟩
  · intro e he
    rcases List.mem_cons.1 he with rfl | he
    · exact hlt
    · exact h.root_lt e he

theorem CoherentInv.mount (h : CoherentInv m) (path : CString) (id : PartId)
    (hfits : MountFits m.fs path id) : CoherentInv (mountStep m (.mount path id)) := by
  have hlive : mountStep m (.mount path id) = ⟨(dfsMount m.fs path id).2,
      if (dfsMount m.fs path id).1 = 0 then
        (((dfsMount m.fs path id).2.mountTable m.fs.mountCount).rootDir, id) :: m.live
      else m.live⟩ := rfl
  rw [hlive]
  obtain ⟨hne, hf⟩ | ⟨v, rootDir, hready, hf, hlt, hptr, -, heq⟩ := frame_dfsMount m.fs path id
  · rw [if_neg hne]
    exact h.frame hf
  · rw [heq, if_pos rfl, ← hf.mountCount]
    dsimp only
    rw [Fs.pushMount_mountTable_self]
    exact (h.frame hf).push (hf.mountCount ▸ (hfits hready).1) hptr hlt

theorem CoherentInv.umount (h : CoherentInv m) (path : CString)
    (hspares : ∀ idx, mountIndex m.fs path = some idx → UmountSparesRoots m.fs idx) :
    CoherentInv (mountStep m (.umount path)) := by
  rw [mountStep]
  cases hidx : mountIndex m.fs path with
  | none =>
    have hsame : fsStep m.fs (.umount path) = m.fs := by
      rw [mountIndex] at hidx
      rw [fsStep, fsCall, dfsUmount, hidx]
    rw [hsame]
    exact h
  | some idx =>
    obtain ⟨t, hf, heq⟩ := frame_dfsUmount hidx
    have hinv := h.frame hf
    have hcount : idx + 1 = t.mountCount := (hspares idx hidx).1.trans hf.mountCount.symm
    -- the last entry is dropped, so none moves
    have htable : (t.dropMount idx).mountTable = t.mountTable := by
      funext i
      rw [show (t.dropMount idx).mountTable i = if idx ≤ i ∧ i + 1 < t.mountCount then
        t.mountTable (i + 1) else t.mountTable i from rfl, if_neg (by omega)]
    have hwrites : (t.dropMount idx).mountWrites = t.mountWrites := by
      rw [Fs.dropMount]
      dsimp only
      rw [show t.mountCount - 1 - idx = 0 by omega]
      rfl
    rw [show fsStep m.fs (.umount path) = t.dropMount idx from heq]
    refine ⟨⟨?_, ?_, ?_⟩, fun e he => hinv.root_lt e (List.mem_of_mem_filter he)⟩
    · exact (Nat.sub_le _ _).trans hinv.count_le
    · exact hwrites ▸ hinv.writes
    · intro e he
      rw [List.mem_filter, decide_eq_true_eq] at he
      obtain ⟨i, hi, hptr, hroot, hpart⟩ := hinv.pointer e he.1
      have hne : i ≠ idx := by
        rintro rfl
        refine he.2 (hroot.symm.trans ?_)
        exact congrArg DfsMountPoint.rootDir (congrFun hf.mountTable i)
      refine ⟨i, ?_, hptr, htable ▸ hroot, htable ▸ hpart⟩
      exact show i < t.mountCount - 1 by
        have hi : i < t.mountCount := hi
        omega

/-- **One step** keeps the table coherent. -/
theorem CoherentInv.step (h : CoherentInv m) {op : FsOp} (hfits : op.FitsBuffers m.fs)
    (hop : op.KeepsEntries m.fs) : CoherentInv (mountStep m op) := by
  cases op with
  | mount path id => exact h.mount path id hfits.2.2
  | umount path => exact h.umount path hop
  | _ => exact h.frame (frame_fsStep m.fs trivial)

end Steps

/-- A run begins after `fs_init`, with nothing mounted. -/
def startRun (grants : ℕ → Bool) (store : Store) : MountRun := ⟨initState ⟨grants, 0, []⟩ store, []⟩

/-- **The mount table is coherent** in every state that a run reaches in which every mount finds
a free entry, every unmount drops the last entry, and no root of a mount that stays is released; the
run may hold any other calls inside their bounds. -/
theorem mountTable_coherent (grants : ℕ → Bool) (store : Store) (ops : List FsOp)
    (hops : Along mountStep
      (fun m op => op.InBounds m.fs ∧ op.KeepsEntries m.fs)
      (startRun grants store) ops) :
    Coherent (ops.foldl mountStep (startRun grants store)) := by
  have hinit : CoherentInv (startRun grants store) :=
    ⟨⟨Nat.zero_le _, fun i hi => absurd hi List.not_mem_nil, fun e he => absurd he List.not_mem_nil⟩,
      fun e he => absurd he List.not_mem_nil⟩
  exact (Along.invariant (fun m op hm h => hm.step h.1.1 h.2) hinit hops).toCoherent

/-! ### Two mounts, and nine -/

/-- Two directories, a mount on each, and the second is unmounted. -/
def twoMountOps : List FsOp :=
  [.mkdir (.ofBytes [97]) none, .mkdir (.ofBytes [98]) none,
    .mount (.ofBytes [47, 97]) part0, .mount (.ofBytes [47, 98]) part0,
    .umount (.ofBytes [47, 98])]

theorem twoMountOps_inBounds :
    Along mountStep (fun m op => op.InBounds m.fs)
      (startRun (fun _ => true) formattedState.disk.store) twoMountOps := by
  decide +kernel

theorem twoMountOps_keepsEntries :
    Along mountStep (fun m op => op.KeepsEntries m.fs)
      (startRun (fun _ => true) formattedState.disk.store) twoMountOps := by
  refine ⟨trivial, trivial, trivial, trivial, fun idx hidx => ?_, trivial⟩
  obtain rfl : 1 = idx := Option.some.inj ((by decide +kernel : _ = some 1).symm.trans hidx)
  decide +kernel

theorem mountTable_coherent_twoMountOps :
    ((twoMountOps.foldl mountStep (startRun (fun _ => true) formattedState.disk.store)).live.length =
      1) ∧ Coherent (twoMountOps.foldl mountStep (startRun (fun _ => true) formattedState.disk.store)) :=
  ⟨by decide +kernel, mountTable_coherent (fun _ => true) formattedState.disk.store twoMountOps
    (twoMountOps_inBounds.and twoMountOps_keepsEntries)⟩

/-- `/a/a/…/a`, with `n` components. -/
def nestedPath (n : ℕ) : CString where
  chars := (List.replicate n [47, 97]).flatten
  noNul := by
    intro h
    obtain ⟨l, hl, h0⟩ := List.mem_flatten.1 h
    rw [List.eq_of_mem_replicate hl] at h0
    exact absurd h0 (by decide)

/-- A mount on the root, under the name `a`, and eight mounts each on the root of the last. -/
def nineMountOps : List FsOp :=
  .mount (.ofBytes [47, 46, 46, 47, 97]) part0 ::
    (List.range 8).map fun n => .mount (nestedPath (n + 1)) part0

/-- Nine mounts succeed, and the ninth stores behind the end of the table. -/
theorem dfsMount_overflows_table :
    ¬∀ (grants : ℕ → Bool) (store : Store) (ops : List FsOp), (∀ op ∈ ops, ¬op.IsLocal) →
      Coherent (ops.foldl mountStep (startRun grants store)) := by
  intro h
  have hcoh := h (fun _ => true) formattedState.disk.store nineMountOps (by
    intro op hop
    rcases List.mem_cons.1 hop with rfl | hop
    · exact id
    · obtain ⟨n, -, rfl⟩ := List.mem_map.1 hop
      exact id)
  exact absurd hcoh.count_le (by decide +kernel)

end LittleLinux
