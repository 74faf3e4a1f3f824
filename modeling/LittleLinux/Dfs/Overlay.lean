import LittleLinux.Ramfs.Path
import LittleLinux.Dfs.BlockSafety
import LittleLinux.Dfs.Frame

/-!
# A mount is not an overlay

`dfs_umount` and `dfs_load` take a mount for an overlay: the path of the mount names the root
of the mounted tree, and unmounting gives back what was there. `dfs_mount` however enters the
new root as a child of the directory that the path names, so the path goes on naming that
directory.
-/

namespace LittleLinux

open ChainTable

/-- Every address in the tree has been handed out. -/
structure AllocatedTree (s : Fs) : Prop where
  parent : ∀ p q, (s.folders p).parent = some q → q < s.mem.next
  child : ∀ p, ∀ nd ∈ (s.folders p).foderMap.nodes, nd.value.ptr < s.mem.next

/-- A mount that answered 0 is an overlay that unmounting undoes: the path names the root of
the mount, and when a following `dfs_umount` answers 0, every absolute path names what it
named before, and the path of the mount an empty directory. -/
def MountIsOverlay (s : Fs) (path : CString) (id : PartId) : Prop :=
  let t := (dfsMount s path id).2
  ramfsGetDirByAbsPath t path = some (t.mountTable s.mountCount).rootDir ∧
    ((dfsUmount t path).1 = 0 →
      (∀ q : CString, q.IsAbsolute →
        ramfsGetDirByAbsPath (dfsUmount t path).2 q = ramfsGetDirByAbsPath s q) ∧
      ∀ dir, ramfsGetDirByAbsPath (dfsUmount t path).2 path = some dir →
        isDirectoryEmpty ((dfsUmount t path).2.folders dir) = true)

/-! ### Resolution after a mount -/

section Walk

variable {folders folders' : Ptr → RamfsFoder} {n : ℕ} {d : Ptr}

/-- A walk through allocated folders finds the same after `d`, which had no children, got
some. -/
theorem walkParts_of_childless (hparent : ∀ p q, (folders p).parent = some q → q < n)
    (hchild : ∀ p name info, ramfsHashmapFind (folders p).foderMap name = some info → info.ptr < n)
    (hsame : ∀ p < n, p ≠ d → folders' p = folders p)
    (hd : (folders' d).parent = (folders d).parent)
    (hempty : ∀ name, ramfsHashmapFind (folders d).foderMap name = none)
    {cur e : Ptr} {parts : List CString} (hcur : cur < n)
    (h : walkParts folders cur parts = some e) : walkParts folders' cur parts = some e := by
  induction parts generalizing cur with
  | nil => exact h
  | cons part rest ih =>
    have hparentEq : (folders' cur).parent = (folders cur).parent := by
      rcases eq_or_ne cur d with rfl | hne
      · exact hd
      · rw [hsame cur hcur hne]
    rw [walkParts] at h ⊢
    split_ifs at h ⊢ with h₁ h₂ h₃
    · exact ih hcur h
    · exact ih hcur h
    · rw [hparentEq]
      cases hp : (folders cur).parent with
      | none => rw [hp] at h; exact h
      | some p =>
        rw [hp] at h
        exact ih (hparent cur p hp) h
    · -- a name is looked up, so this is not `d`
      cases hfind : ramfsHashmapFind (folders cur).foderMap part with
      | none => rw [hfind] at h; exact absurd h (by simp)
      | some info =>
        rw [hfind] at h
        have hne : cur ≠ d := by
          rintro rfl
          rw [hempty] at hfind
          exact absurd hfind (by simp)
        rw [hsame cur hcur hne, hfind]
        exact ih (hchild cur part info hfind) h

theorem walkParts_lt (hparent : ∀ p q, (folders p).parent = some q → q < n)
    (hchild : ∀ p name info, ramfsHashmapFind (folders p).foderMap name = some info → info.ptr < n)
    {cur e : Ptr} {parts : List CString} (hcur : cur < n)
    (h : walkParts folders cur parts = some e) : e < n := by
  induction parts generalizing cur with
  | nil => exact Option.some.inj h ▸ hcur
  | cons part rest ih =>
    rw [walkParts] at h
    split_ifs at h with h₁ h₂ h₃
    · exact ih hcur h
    · exact ih hcur h
    · cases hp : (folders cur).parent with
      | none =>
        rw [hp] at h
        exact Option.some.inj h ▸ hcur
      | some p =>
        rw [hp] at h
        exact ih (hparent cur p hp) h
    · cases hfind : ramfsHashmapFind (folders cur).foderMap part with
      | none => rw [hfind] at h; exact absurd h (by simp)
      | some info =>
        rw [hfind] at h
        exact ih (hchild cur part info hfind) h

end Walk

section Mount

variable {s : Fs}

/-- A table that counts no entries finds none. -/
theorem find_of_isDirectoryEmpty {f : RamfsFoder} (hr : Rep djb2Bucket f.foderMap)
    (h : isDirectoryEmpty f = true) (name : CString) :
    ramfsHashmapFind f.foderMap name = none := by
  have hcount : f.foderMap.count = 0 := by
    simp only [isDirectoryEmpty, Bool.and_eq_true, beq_iff_eq] at h
    exact h.1
  have hnodes : f.foderMap.nodes = [] := by
    rw [hr.count_eq] at hcount
    exact List.length_eq_zero_iff.1 (by exact_mod_cast hcount)
  rw [ramfsHashmapFind_eq_lookup, ← Option.not_isSome_iff_eq_none, lookup_isSome_iff hr, hnodes]
  simp

theorem AllocatedTree.find (ha : AllocatedTree s) (hw : WellFormedTree s.folders) (p : Ptr)
    (name : CString) (info : RamfsFoderInfo)
    (h : ramfsHashmapFind (s.folders p).foderMap name = some info) : info.ptr < s.mem.next := by
  rw [ramfsHashmapFind_eq_lookup, lookup_eq_some_iff (hw p)] at h
  obtain ⟨nd, hnd, -, rfl⟩ := h
  exact ha.child p nd hnd

/-- The path of a mount names, after the mount, the directory it named before. -/
theorem getDir_dfsMount (hw : WellFormedTree s.folders) (ha : AllocatedTree s) {path : CString}
    {id : PartId} (h : (dfsMount s path id).1 = 0) :
    ∃ dir, dir < s.mem.next ∧ ramfsGetDirByAbsPath s path = some dir ∧
      ramfsGetDirByAbsPath (dfsMount s path id).2 path = some dir ∧
      ((dfsMount s path id).2.mountTable s.mountCount).rootDir = s.mem.next := by
  obtain ⟨-, -, hne, -⟩ | ⟨dir, sb, st, hdir, hempty, -, -, -, heq | ⟨-, heq⟩⟩ :=
    dfsMount_cases s path id
  · exact absurd h hne
  · rw [heq] at h
    exact absurd (show (-6 : ℤ) = 0 from h) (by decide)
  have hframe := frame_newRoot frameRel_eq s st id sb.rootPointer
    (dfsLoadFolderFromDisk (newRoot s st) s.mem.next id sb.rootPointer).2.mountCount
  revert heq
  generalize markRoot (dfsLoadFolderFromDisk (newRoot s st) s.mem.next id sb.rootPointer).2
    s.mem.next (dfsLoadFolderFromDisk (newRoot s st) s.mem.next id sb.rootPointer).2.mountCount = t
    at hframe
  intro heq
  rw [heq] at h ⊢
  obtain ⟨ins, -, ⟨-, hattach⟩ | ⟨-, hattach⟩⟩ :=
    attachRoot_cases t dir s.mem.next path id (toI32 sb.rootPointer)
  · rw [hattach] at h
    exact absurd (show (-7 : ℤ) = 0 from h) (by decide)
  rw [hattach]
  have hroot : rootPtr < s.mem.next := Nat.succ_pos _
  -- the path is not empty, and its walk starts at the root
  have hwalk : ∃ parts, walkParts s.folders rootPtr parts = some dir ∧
      ∀ u : Fs, ramfsGetDirByAbsPath u path = walkParts u.folders rootPtr parts := by
    rw [ramfsGetDirByAbsPath, getDirByPath] at hdir
    split_ifs at hdir with h₁ h₂
    · refine ⟨_, hdir, fun u => ?_⟩
      rw [ramfsGetDirByAbsPath, getDirByPath, if_neg h₁, if_pos h₂]
    · refine ⟨_, hdir, fun u => ?_⟩
      rw [ramfsGetDirByAbsPath, getDirByPath, if_neg h₁, if_neg h₂]
  obtain ⟨parts, hparts, hres⟩ := hwalk
  have hlt := walkParts_lt ha.parent (ha.find hw) hroot hparts
  refine ⟨dir, hlt, hdir, ?_, ?_⟩
  · rw [hres]
    refine walkParts_of_childless ha.parent (ha.find hw) ?_ ?_
      (find_of_isDirectoryEmpty (hw dir) hempty) hroot hparts
    · intro p hp hne
      rw [Fs.pushMount_folders, Fs.setMem_folders, Fs.modifyFolder_of_ne t _ hne]
      exact (hframe.folders p hp).symm
    · rw [hframe.folders dir hlt, Fs.pushMount_folders, Fs.setMem_folders, Fs.modifyFolder_self]
      rfl
  · simp only [Fs.pushMount, Fs.setMem_mountCount, Fs.modifyFolder_mountCount, hframe.mountCount,
      Function.update_self]

/-- **No mount is an overlay.** In every well-formed tree, after `dfs_mount` answered 0 its
path names the directory it named before, which is not the root of the mount. -/
theorem dfsMount_not_overlay (s : Fs) (hw : WellFormedTree s.folders) (ha : AllocatedTree s)
    (path : CString) (id : PartId) (h : (dfsMount s path id).1 = 0) :
    ¬MountIsOverlay s path id := by
  rintro ⟨hover, -⟩
  obtain ⟨dir, hlt, -, hdir, hroot⟩ := getDir_dfsMount hw ha h
  rw [hdir, hroot] at hover
  exact Nat.ne_of_lt hlt (Option.some.inj hover)

end Mount

/-! ### One directory, and a disk mounted on it -/

/-- A formatted disk, and the directory `/m` in memory. -/
def oneDirState : Fs :=
  fsStep (initState ampleMemory formattedState.disk.store) (.mkdir (.ofBytes [109]) none)

/-- The path of that directory. -/
def oneDirPath : CString := .ofBytes [47, 109]

/-- The object of that directory. -/
def oneDirNode : RamfsFoder :=
  { RamfsFoder.zero with
    name := .ofBytes [109]
    type := RAMFS_FOLDER_TYPE_MEM
    parent := some rootPtr }

theorem oneDirState_folders : oneDirState.folders =
    Function.update (Function.update (initState ampleMemory formattedState.disk.store).folders 1
      oneDirNode) 0 (oneDirState.folders 0) :=
  rfl

theorem oneDirState_folder {p : Ptr} (h₀ : p ≠ 0) :
    oneDirState.folders p = oneDirNode ∨ oneDirState.folders p = RamfsFoder.zero := by
  rw [oneDirState_folders, Function.update_of_ne h₀]
  rcases eq_or_ne p 1 with rfl | h₁
  · exact Or.inl (Function.update_self _ _ _)
  · rw [Function.update_of_ne h₁]
    exact Or.inr (initState_folder _ _ h₀)

theorem oneDirState_wellFormed : WellFormedTree oneDirState.folders := by
  intro p
  rcases eq_or_ne p 0 with rfl | h₀
  · exact ⟨by decide +kernel, by decide +kernel, by decide +kernel⟩
  · rcases oneDirState_folder h₀ with h | h
    · rw [h]
      exact rep_empty djb2Bucket
    · rw [h]
      exact rep_empty djb2Bucket

theorem oneDirState_allocated : AllocatedTree oneDirState := by
  constructor
  · intro p q h
    rcases eq_or_ne p 0 with rfl | h₀
    · exact absurd h (show ¬(none : Option Ptr) = some q by simp)
    · rcases oneDirState_folder h₀ with hp | hp
      · rw [hp] at h
        obtain rfl : rootPtr = q := Option.some.inj h
        exact Nat.succ_pos _
      · rw [hp] at h
        exact absurd h (show ¬(none : Option Ptr) = some q by simp)
  · intro p
    rcases eq_or_ne p 0 with rfl | h₀
    · decide +kernel
    · rcases oneDirState_folder h₀ with hp | hp
      · rw [hp]
        exact fun nd hnd => absurd (nodes_empty ▸ hnd : nd ∈ ([] : List _)) (by simp)
      · rw [hp]
        exact fun nd hnd => absurd (nodes_empty ▸ hnd : nd ∈ ([] : List _)) (by simp)

theorem dfsMount_not_overlay_oneDir :
    (dfsMount oneDirState oneDirPath part0).1 = 0 ∧ ¬MountIsOverlay oneDirState oneDirPath part0 :=
  ⟨by decide +kernel, dfsMount_not_overlay oneDirState oneDirState_wellFormed oneDirState_allocated
    oneDirPath part0 (by decide +kernel)⟩

/-- A disk is mounted on `/m`; `/m` still names the directory in memory, and the root of the
mount is `/m/m`. Unmounting answers 0 and leaves the entry `/m/m`. -/
theorem dfsMount_enters_root_below :
    ¬∀ (s : Fs) (path : CString) (id : PartId), WellFormedTree s.folders → AllocatedTree s →
      path.IsAbsolute → ramfsGetDirByAbsPath s path ≠ some rootPtr →
      (dfsMount s path id).1 = 0 → MountIsOverlay s path id := by
  intro h
  obtain ⟨hover, -⟩ := h oneDirState oneDirPath part0 oneDirState_wellFormed oneDirState_allocated
    (by decide) (by decide +kernel) (by decide +kernel)
  revert hover
  decide +kernel

end LittleLinux
