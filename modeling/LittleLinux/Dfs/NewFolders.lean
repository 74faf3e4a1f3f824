import LittleLinux.Dfs.Dangling
import LittleLinux.Dfs.FormatForgets
import LittleLinux.Dfs.SyncIsolation

/-!
# New folders and their slots

`dfs_sync_folder` gives a new folder a slot of the folder table, after it has found the mount that
the folder belongs to. The mount it looks for is one whose root the folder is, so that the call
for any folder below the root returns `-1` before it does anything, and its caller does not look
at the result. `driveAddr_syncFolder` says that a sync changes no address at all, and
`dfsSyncFolder_newFolders_iff` what this means for the trees that hold new folders.
-/

namespace LittleLinux

/-! ### Which folders a sync gets to -/

/-- Where a mount has its root below `root`, that folder is not new: it was loaded. -/
def RootsLoaded (s : Fs) (root : Ptr) : Prop :=
  ∀ p, Below (kids s) root p → (s.folders p).isMountRoot = true →
    (s.folders p).type ≠ RAMFS_FOLDER_TYPE_NEW

/-- From `s` to `s'` no folder has changed its address, and none has become new. -/
structure AddrsKept (s s' : Fs) : Prop where
  driveAddr : ∀ p, (s'.folders p).driveAddr = (s.folders p).driveAddr
  type : ∀ p, (s'.folders p).type = RAMFS_FOLDER_TYPE_NEW → (s.folders p).type = RAMFS_FOLDER_TYPE_NEW

section Sync

variable {s s' s'' : Fs}

theorem AddrsKept.refl (s : Fs) : AddrsKept s s := ⟨fun _ => rfl, fun _ h => h⟩

theorem AddrsKept.trans (h : AddrsKept s s') (h' : AddrsKept s' s'') : AddrsKept s s'' :=
  ⟨fun p => (h'.driveAddr p).trans (h.driveAddr p), fun p hp => h.type p (h'.type p hp)⟩

/-- A change of one folder that keeps its address and does not make it new. -/
theorem addrsKept_modifyFolder {p : Ptr} {g : RamfsFoder → RamfsFoder}
    (haddr : (g (s.folders p)).driveAddr = (s.folders p).driveAddr)
    (htype : (g (s.folders p)).type = RAMFS_FOLDER_TYPE_NEW →
      (s.folders p).type = RAMFS_FOLDER_TYPE_NEW) : AddrsKept s (s.modifyFolder p g) := by
  refine ⟨fun q => ?_, fun q => ?_⟩ <;> rcases eq_or_ne q p with rfl | hne
  · rw [Fs.modifyFolder_self, haddr]
  · rw [Fs.modifyFolder_of_ne s g hne]
  · rw [Fs.modifyFolder_self]
    exact htype
  · rw [Fs.modifyFolder_of_ne s g hne]
    exact fun h => h

theorem addrsKept_setDisk (s : Fs) (d : Disk) : AddrsKept s (s.setDisk d) :=
  ⟨fun _ => rfl, fun _ h => h⟩

theorem addrsKept_syncFiles (s : Fs) (p : Ptr) (id : PartId) : AddrsKept s (syncFiles s p id) :=
  (addrsKept_modifyFolder rfl fun h => h).trans (addrsKept_setDisk _ _)

theorem kids_of_quiet (hq : Quiet s s') : kids s' = kids s := by
  funext p
  rw [kids, kids, hq.foderMap]

theorem RootsLoaded.of_kept {root : Ptr} (h : RootsLoaded s root) (hkept : AddrsKept s s')
    (hq : Quiet s s') : RootsLoaded s' root := by
  intro p hp hroot hnew
  rw [kids_of_quiet hq] at hp
  rw [(hq.place p).isMountRoot] at hroot
  exact h p hp hroot (hkept.type p hnew)

theorem RootsLoaded.child {p c : Ptr} (h : RootsLoaded s p) (hc : c ∈ kids s p) : RootsLoaded s c :=
  fun q hq => h q (.head hc hq)

/-- A folder that a sync finds a mount for is the root of one. -/
theorem isMountRoot_of_findSyncMount (h : RootsMarked s) {p : Ptr} {i : ℕ}
    (hi : findSyncMount s p = some i) : (s.folders p).isMountRoot = true := by
  rw [findSyncMount] at hi
  have hpred := List.find?_some hi
  rw [Bool.or_eq_true, decide_eq_true_eq] at hpred
  rcases hpred with rfl | hroot
  · exact (h i (List.mem_range.mp (List.mem_of_find?_eq_some hi))).2
  · exact hroot

/-- A root that was loaded has its slot. -/
theorem claimSlot_of_loaded (h : RootsMarked s) {p : Ptr} (hl : RootsLoaded s p) {i : ℕ}
    (hi : findSyncMount s p = some i) (id : PartId) : claimSlot s p id = (some s, s) :=
  if_neg fun hnew => hl p (.refl _ p) (isMountRoot_of_findSyncMount h hi) hnew.1

/-- Where no subfolder is written back, the contents of a folder are its files. -/
theorem syncContents_of_clean {p : Ptr}
    (h : ∀ c ∈ kids s p, ¬ IsDirtyType (s.folders c).type ∨ findSyncMount s c = none) (fuel : ℕ)
    (id : PartId) : syncContents fuel s p id = syncFiles s p id := by
  rw [syncContents, foldl_syncFolder_of_clean fuel fun nd hnd => h _ (List.mem_map_of_mem hnd)]

theorem addrsKept_writeBack (s : Fs) (p : Ptr) (id : PartId) : AddrsKept s (writeBack s p id) := by
  rw [writeBack, dfsSaveFolderToDisk]
  dsimp only
  split_ifs
  · refine (addrsKept_setDisk _ _).trans (addrsKept_modifyFolder rfl fun h => ?_)
    exact absurd (show RAMFS_FOLDER_TYPE_DISK_CLEAN = RAMFS_FOLDER_TYPE_NEW from h) (by decide)
  · exact addrsKept_setDisk _ _

/-- **A sync changes no address.** -/
theorem addrsKept_syncFolder (fuel : ℕ) (h : RootsMarked s) {p : Ptr} (hl : RootsLoaded s p) :
    AddrsKept s (syncFolder fuel s p).2 := by
  induction fuel generalizing s p with
  | zero => exact .refl s
  | succ fuel ih =>
    by_cases hidle : ¬ IsDirtyType (s.folders p).type ∨ findSyncMount s p = none
    · rw [syncFolder_of_clean hidle]
      exact .refl s
    obtain ⟨hdirty, hfind⟩ := not_or.mp hidle
    obtain ⟨i, hi⟩ := Option.ne_none_iff_exists'.mp hfind
    rw [syncFolder_of_dirty hi (not_not.mp hdirty), claimSlot_of_loaded h hl hi]
    refine AddrsKept.trans (.trans ?_ (addrsKept_syncFiles _ p _)) (addrsKept_writeBack _ p _)
    -- the recursive calls, one subfolder after the other
    have hkids : ∀ nd ∈ (s.folders p).foderMap.nodes, RootsLoaded s nd.value.ptr :=
      fun nd hnd => hl.child (List.mem_map_of_mem hnd)
    revert hkids
    generalize (s.folders p).foderMap.nodes = l
    clear hidle hdirty hfind hi hl
    induction l generalizing s with
    | nil => exact fun _ => .refl s
    | cons nd l ihl =>
      intro hkids
      rw [List.foldl_cons]
      split_ifs
      · have hq := quiet_syncFolder fuel s nd.value.ptr
        have hkept := ih h (hkids nd List.mem_cons_self)
        exact hkept.trans (ihl (h.quiet hq) fun nd' hnd' =>
          (hkids nd' (List.mem_cons_of_mem _ hnd')).of_kept hkept hq)
      · exact ihl h fun nd' hnd' => hkids nd' (List.mem_cons_of_mem _ hnd')

/-- The sync of a loaded root reports success. -/
theorem dfsSyncFolder_root (h : RootsMarked s) {i : ℕ} (hl : RootsLoaded s (s.mountTable i).rootDir)
    (hi : i < s.mountCount) :
    (dfsSyncFolder s (s.mountTable i).rootDir).1 = 0 := by
  have hfind := findSyncMount_root h hi
  by_cases hdirty : IsDirtyType (s.folders (s.mountTable i).rootDir).type
  · rw [dfsSyncFolder, syncFolder_of_dirty hfind hdirty, claimSlot_of_loaded h hl hfind]
  · rw [dfsSyncFolder, syncFolder]
    by_cases hmem : (s.folders (s.mountTable i).rootDir).type = RAMFS_FOLDER_TYPE_MEM
    · rw [if_pos hmem]
    · rw [if_neg hmem, hfind]
      dsimp only
      rw [if_neg hdirty]

end Sync

/-! ### Mounted trees -/

/-- The subfolders of a folder on its own partition: not the roots of other mounts. -/
def mountKids (s : Fs) (p : Ptr) : List Ptr :=
  (kids s p).filter fun c => !(s.folders c).isMountRoot

/-- The folders of the mount with root `root`. -/
def InMount (s : Fs) (root : Ptr) : Ptr → Prop := Below (mountKids s) root

/-- The folder is new. -/
def IsNew (s : Fs) (p : Ptr) : Prop := (s.folders p).type = RAMFS_FOLDER_TYPE_NEW

/-- The tree of mount `i`, with new folders as `fs_mkdir` leaves them: without an address, and with
ancestors that are all new or dirty. The other folders have addresses of their own. -/
structure MountedTree (s : Fs) (i : ℕ) : Prop where
  lt : i < s.mountCount
  marked : RootsMarked s
  loaded : RootsLoaded s (s.mountTable i).rootDir
  fresh : ∀ p, InMount s (s.mountTable i).rootDir p → IsNew s p → (s.folders p).driveAddr = 0
  ancestors : ∀ p q, InMount s (s.mountTable i).rootDir q → Below (mountKids s) q p → IsNew s p →
    IsDirtyType (s.folders q).type
  apart : ∀ p q, InMount s (s.mountTable i).rootDir p → InMount s (s.mountTable i).rootDir q →
    ¬ IsNew s p → ¬ IsNew s q → (s.folders p).driveAddr = (s.folders q).driveAddr → p = q

/-- The record on the partition `id` at the address of a folder. -/
def folderRecord (s : Fs) (id : PartId) (p : Ptr) : DiskFolder :=
  DiskFolder.decode fun i => s.disk.store.bytes id (toU32 (s.folders p).driveAddr + i)

/-- The new folders of `s` have their own slots in `s'`: every one has the address of a record of the
folder table, no two folders of the tree have the same, the record carries the name of the folder
and is in use, and the record of its parent names the same address. -/
structure NewFoldersPlaced (s s' : Fs) (root : Ptr) (id : PartId) : Prop where
  slot : ∀ p, InMount s root p → IsNew s p → (s'.folders p).driveAddr ≠ 0 ∧
    ∃ k < DFS_MAX_FOLDERS, (s'.folders p).driveAddr = slotOffset k
  apart : ∀ p q, InMount s root p → InMount s root q →
    (s'.folders p).driveAddr = (s'.folders q).driveAddr → p = q
  record : ∀ p, InMount s root p → IsNew s p →
    (folderRecord s' id p).name = (s.folders p).name ∧ (folderRecord s' id p).used = 1
  parent : ∀ p q, InMount s root q → p ∈ mountKids s q → IsNew s p →
    ∃ e ∈ (folderRecord s' id q).subfolders,
      e.name = (s.folders p).name ∧ e.driveAddr = (s'.folders p).driveAddr

/-- **New folders get their own slots** exactly in the trees without new folders: a sync of the root
that reports success leaves every new folder without an address. -/
theorem dfsSyncFolder_newFolders_iff (s : Fs) (i : ℕ) (h : MountedTree s i) :
    ((dfsSyncFolder s (s.mountTable i).rootDir).1 = 0 →
        NewFoldersPlaced s (dfsSyncFolder s (s.mountTable i).rootDir).2 (s.mountTable i).rootDir
          (s.mountTable i).part) ↔
      ∀ p, InMount s (s.mountTable i).rootDir p → ¬ IsNew s p := by
  have hkept : AddrsKept s (dfsSyncFolder s (s.mountTable i).rootDir).2 :=
    addrsKept_syncFolder _ h.marked h.loaded
  constructor
  · intro hplaced p hp hnew
    have hslot := ((hplaced (dfsSyncFolder_root h.marked h.loaded h.lt)).slot p hp hnew).1
    rw [hkept.driveAddr p] at hslot
    exact hslot (h.fresh p hp hnew)
  · intro hnone _
    refine ⟨fun p hp hnew => absurd hnew (hnone p hp), fun p q hp hq heq => ?_,
      fun p hp hnew => absurd hnew (hnone p hp), fun p q hq hpq hnew => ?_⟩
    · rw [hkept.driveAddr p, hkept.driveAddr q] at heq
      exact h.apart p q hp hq (hnone p hp) (hnone q hq) heq
    · exact absurd hnew (hnone p (hq.tail hpq))

/-- A mounted disk whose root holds no folder. -/
theorem mountedState_tree : MountedTree mountedState 0 := by
  have hroot : (mountedState.mountTable 0).rootDir = 7 := by decide +kernel
  have htype : (mountedState.folders 7).type ≠ RAMFS_FOLDER_TYPE_NEW := by decide +kernel
  have hkids : kids mountedState 7 = [] := by decide +kernel
  have honly : ∀ p, InMount mountedState 7 p → p = 7 := fun p hp =>
    hp.eq_of_leaf (by rw [mountKids, hkids]; rfl)
  refine ⟨by decide +kernel, rootsMarked_run _ _ _, ?_, ?_, ?_, ?_⟩ <;> rw [hroot]
  · intro p hp _
    rw [hp.eq_of_leaf hkids]
    exact htype
  · intro p hp hnew
    rw [honly p hp] at hnew
    exact absurd hnew htype
  · intro p q hq hpq hnew
    rw [honly q hq] at hpq
    rw [honly p hpq] at hnew
    exact absurd hnew htype
  · intro p q hp hq _ _ _
    rw [honly p hp, honly q hq]

theorem dfsSyncFolder_newFolders_none :
    NewFoldersPlaced mountedState (dfsSyncFolder mountedState (mountedState.mountTable 0).rootDir).2
      (mountedState.mountTable 0).rootDir (mountedState.mountTable 0).part := by
  have hroot : (mountedState.mountTable 0).rootDir = 7 := by decide +kernel
  refine (dfsSyncFolder_newFolders_iff mountedState 0 mountedState_tree).mpr (fun p hp hnew => ?_)
    (by decide +kernel)
  rw [hroot] at hp
  have hleaf : mountKids mountedState 7 = [] := by decide +kernel
  rw [hp.eq_of_leaf hleaf] at hnew
  revert hnew
  unfold IsNew
  decide +kernel

/-- The directory `n` is made in the root of the mounted disk. -/
def newFolderState : Fs :=
  fsStep mountedState (.mkdir (.ofBytes [110]) (some (.ofBytes [47, 97, 47, 109, 47, 109])))

theorem newFolderState_below {kids' : Ptr → List Ptr}
    (hsub : ∀ p, ∀ c ∈ kids' p, c ∈ kids newFolderState p) {p q : Ptr} (hq : q = 7 ∨ q = 9)
    (h : Below kids' q p) : p = 7 ∨ p = 9 := by
  refine h.mem_of_closed (S := {p | p = 7 ∨ p = 9}) ?_ hq
  rintro p (rfl | rfl) c hc
  · exact (by decide +kernel : ∀ c ∈ kids newFolderState 7, c = 7 ∨ c = 9) c (hsub 7 c hc)
  · exact (by decide +kernel : ∀ c ∈ kids newFolderState 9, c = 7 ∨ c = 9) c (hsub 9 c hc)

theorem newFolderState_tree : MountedTree newFolderState 0 := by
  have hroot : (newFolderState.mountTable 0).rootDir = 7 := by decide +kernel
  have htype : (newFolderState.folders 7).type = RAMFS_FOLDER_TYPE_DIRTY ∧
      (newFolderState.folders 9).type = RAMFS_FOLDER_TYPE_NEW ∧
      (newFolderState.folders 9).driveAddr = 0 ∧ (newFolderState.folders 9).isMountRoot = false := by
    decide +kernel
  have hmount : ∀ p q, (q = 7 ∨ q = 9) → Below (mountKids newFolderState) q p → p = 7 ∨ p = 9 :=
    fun p q hq => newFolderState_below (fun p c hc => (List.mem_filter.mp hc).1) hq
  have hmarked : RootsMarked newFolderState := mountedState_tree.marked.step _
  refine ⟨by decide +kernel, hmarked, ?_, ?_, ?_, ?_⟩ <;> rw [hroot]
  · intro p hp hp'
    rcases newFolderState_below (fun _ _ hc => hc) (.inl rfl) hp with rfl | rfl
    · rw [htype.1]
      decide
    · rw [htype.2.2.2] at hp'
      exact absurd hp' (by simp)
  · intro p hp hnew
    rcases hmount p 7 (.inl rfl) hp with rfl | rfl
    · rw [IsNew, htype.1] at hnew
      exact absurd hnew (by decide)
    · exact htype.2.2.1
  · intro p q hq _ _
    rcases hmount q 7 (.inl rfl) hq with rfl | rfl
    · rw [htype.1]
      decide
    · rw [htype.2.1]
      decide
  · intro p q hp hq hnp hnq _
    rcases hmount p 7 (.inl rfl) hp with rfl | rfl
    · rcases hmount q 7 (.inl rfl) hq with rfl | rfl
      · rfl
      · exact absurd htype.2.1 hnq
    · exact absurd htype.2.1 hnp

/-- The directory `n` has no slot after the sync, although the sync reports success. -/
theorem dfsSyncFolder_new_folder_unplaced :
    MountedTree newFolderState 0 ∧
      (dfsSyncFolder newFolderState (newFolderState.mountTable 0).rootDir).1 = 0 ∧
      ¬ NewFoldersPlaced newFolderState
        (dfsSyncFolder newFolderState (newFolderState.mountTable 0).rootDir).2
        (newFolderState.mountTable 0).rootDir (newFolderState.mountTable 0).part := by
  refine ⟨newFolderState_tree, by decide +kernel, fun h => ?_⟩
  have hroot : (newFolderState.mountTable 0).rootDir = 7 := by decide +kernel
  have hin : InMount newFolderState (newFolderState.mountTable 0).rootDir 9 := by
    rw [hroot]
    exact (Below.refl _ 7).tail (by decide +kernel)
  have hnew : IsNew newFolderState 9 := by
    unfold IsNew
    decide +kernel
  refine (h.slot 9 hin hnew).1 ?_
  decide +kernel

end LittleLinux
