import LittleLinux.Dfs.TreeMount
import LittleLinux.Dfs.BlockSafety
import LittleLinux.Dfs.LiveUse

/-!
# Dangling directories

No released folder is referenced along a run as long as no step removes the working directory or
the root of a mount with `fs_rmdir`, or unmounts what its path does not lead to. Both happen:
`fs_rmdir` compares the directory with nothing but its emptiness, and `dfs_umount` releases the
mounted tree even when it deleted no entry, as for every path with one component.
-/

namespace LittleLinux

open ChainTable

variable {s : Fs} {D : Set Ptr}

/-! ### The condition on a step -/

/-- `fs_rmdir` does not come to remove the working directory or the root of a mount. -/
def RmdirSafe (s : Fs) (name : CString) (dir : Option CString) : Prop :=
  ∀ parent info, fromDir s dir = some parent →
    ramfsHashmapFind (s.folders parent).foderMap name = some info →
    (s.folders info.ptr).foderMap.count = 0 ∧ (s.folders info.ptr).fileMap.count = 0 →
    info.ptr ≠ s.currentDir ∧ ∀ i < s.mountCount, (s.mountTable i).rootDir ≠ info.ptr

instance (s : Fs) (name : CString) (dir : Option CString) : Decidable (RmdirSafe s name dir) :=
  decidable_of_iff (∀ parent ∈ fromDir s dir,
      ∀ info ∈ ramfsHashmapFind (s.folders parent).foderMap name,
        (s.folders info.ptr).foderMap.count = 0 ∧ (s.folders info.ptr).fileMap.count = 0 →
        info.ptr ≠ s.currentDir ∧ ∀ i < s.mountCount, (s.mountTable i).rootDir ≠ info.ptr)
    ⟨fun h parent info hp hf => h parent hp info hf, fun h parent hp info hf => h parent info hp hf⟩

/-- The call leaves no reference to a folder that it releases. -/
def FsOp.Safe (s : Fs) : FsOp → Prop
  | .rmdir name dir => RmdirSafe s name dir
  | .umount path => ∀ idx, (List.range s.mountCount).find?
      (fun i => streq (s.mountTable i).path path) = some idx → UmountSafe s idx
  | _ => True

/-! ### Steps and runs -/

/-- The directories are a tree, for some set of addresses. -/
def TreeInv (s : Fs) : Prop := ∃ D, DirInv D s

theorem TreeInv.quiet {s' : Fs} (h : TreeInv s) (hq : Quiet s s') : TreeInv s' := by
  obtain ⟨D, h⟩ := h
  exact ⟨D, h.quiet hq⟩

/-- A call on a file, once its directory was found. -/
theorem TreeInv.lazy_quiet {s' : Fs} {dir : Ptr} (h : DirInv D s) (hdir : Reach s dir)
    (hq : Quiet (lazyLoadDirectory s dir) s') : TreeInv s' := by
  obtain ⟨D', -, h'⟩ := h.exists_lazyLoad (h.reach_mem hdir)
  exact ⟨D', h'.quiet hq⟩

/-- **One step** of the file system keeps the tree. -/
theorem TreeInv.step (h : TreeInv s) {op : FsOp} (hsafe : op.Safe s) : TreeInv (fsStep s op) := by
  obtain ⟨D, h⟩ := h
  have hs : TreeInv s := ⟨D, h⟩
  obtain ⟨r, hcase, hstep⟩ := fsStep_cases s op
  rw [hstep]
  cases hcase with
  | refused => exact hs
  | mkdir hdir => exact h.mkdir (h.reach_mem (h.reach_fromDir hdir)) _
  | cd hdir =>
    have hreach := h.reach_getDirByPath h.noDangling.currentDir hdir
    exact ⟨D, { h with noDangling := ⟨h.noDangling.reach, hreach, h.noDangling.mountRoot⟩ }⟩
  | rm hparse => exact TreeInv.lazy_quiet h (h.reach_parsePath hparse) (quiet_rmIn s _ _)
  | rmdir hdir =>
    -- `fs_rmdir` frees a folder that the state may still name
    exact h.rmdir (h.reach_mem (h.reach_fromDir hdir)) fun info hfind hcount =>
      hsafe _ info hdir hfind hcount
  | touch hparse => exact TreeInv.lazy_quiet h (h.reach_parsePath hparse) (quiet_touchIn s _ _)
  | write hdir => exact TreeInv.lazy_quiet h (h.reach_fromDir hdir) (quiet_writeIn s _ _ _)
  | cat hdir => exact TreeInv.lazy_quiet h (h.reach_fromDir hdir) (quiet_catIn s _ _)
  | backspace hparse =>
    exact TreeInv.lazy_quiet h (h.reach_parsePath hparse) (quiet_backspaceIn s _ _ _)
  | syncFolder p => exact hs.quiet (quiet_dfsSyncFolder s p)
  | syncAll => exact hs.quiet (quiet_dfsSyncAll s)
  | mount path id => exact h.mount path id
  | umount path => exact ⟨D, h.umount hsafe⟩

/-- The state after `fs_init`, with a formatted disk. -/
def formattedInit : Fs := initState ampleMemory formattedState.disk.store

/-- A disk is mounted on `/a/m` and unmounted, and the directory `/d` comes and goes. -/
def mountOps : List FsOp :=
  [.mkdir (.ofBytes [97]) none, .mkdir (.ofBytes [109]) (some (.ofBytes [47, 97])),
    .mkdir (.ofBytes [100]) none, .rmdir (.ofBytes [100]) none,
    .mount (.ofBytes [47, 97, 47, 109]) part0, .umount (.ofBytes [47, 97, 47, 109])]

/-- The state in which the disk is mounted: the root of the mount is the folder 7, entered into
the folder 3. -/
def mountedState : Fs := (mountOps.take 5).foldl fsStep formattedInit

end LittleLinux
