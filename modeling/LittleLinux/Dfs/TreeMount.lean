import LittleLinux.Dfs.TreeOps

/-!
# The tree under mounting and unmounting

`dfs_mount` makes a folder, loads it while it is in no table, and enters it. `dfs_umount` writes
the tree back, deletes an entry that it looks up by the path of the mount, and releases the
mounted tree, whether or not the entry was the one that led to it. `UmountSafe` says when it
was.
-/

namespace LittleLinux

open ChainTable

variable {s s' : Fs} {D : Set Ptr}

/-! ### Mounting -/

/-- A new entry of the mount table. -/
theorem DirInv.pushMount (h : DirInv D s) {mp : DfsMountPoint} (hmem : mp.rootDir ∈ D)
    (hlive : mp.rootDir ∉ s.mem.freed) : DirInv D (s.pushMount mp) := by
  have htable : ∀ i < s.mountCount + 1, ∀ P : Ptr → Prop, P mp.rootDir →
      (∀ j < s.mountCount, P (s.mountTable j).rootDir) →
      P (Function.update s.mountTable s.mountCount mp i).rootDir := by
    intro i hi P hnew hold
    rcases eq_or_ne i s.mountCount with rfl | hne
    · rw [Function.update_self]
      exact hnew
    · rw [Function.update_of_ne hne]
      exact hold i (Nat.lt_of_le_of_ne (Nat.le_of_lt_succ hi) hne)
  exact ⟨h.lt_next, h.freed_lt, h.root_mem, h.kid_mem,
    fun i hi => htable i hi (· ∈ D) hmem h.mount_mem, h.loose, h.count_eq, h.nodup, h.owner,
    h.root_owner, h.parent_eq, h.root_parent, h.noDangling.reach, h.noDangling.currentDir,
    fun i hi => htable i hi (· ∉ s.mem.freed) hlive h.noDangling.mountRoot⟩

theorem markRoot_folder (s : Fs) (p : Ptr) (index : ℕ) (q : Ptr) :
    ((markRoot s p index).folders q).foderMap = (s.folders q).foderMap ∧
      ((markRoot s p index).folders q).fileMap = (s.folders q).fileMap ∧
      ((markRoot s p index).folders q).parent = (s.folders q).parent := by
  rw [markRoot]
  rcases eq_or_ne q p with rfl | hne
  · rw [Fs.modifyFolder_self]
    exact ⟨rfl, rfl, rfl⟩
  · rw [Fs.modifyFolder_of_ne s _ hne]
    exact ⟨rfl, rfl, rfl⟩

theorem kids_markRoot (s : Fs) (p : Ptr) (index : ℕ) : kids (markRoot s p index) = kids s :=
  funext fun q => by rw [kids, (markRoot_folder s p index q).1, kids]

theorem DirInv.mark (h : DirInv D s) (p : Ptr) (index : ℕ) : DirInv D (markRoot s p index) := by
  refine h.release (fun q => Or.inl (markRoot_folder s p index q).1) (fun q a ha => ?_)
    (fun q => (markRoot_folder s p index q).2.2) rfl (fun a ha => Or.inl ha) rfl
    fun i hi => ⟨i, hi, rfl⟩
  rwa [FileAddr, (markRoot_folder s p index q).2.1] at ha

theorem Detached.mark {dir c : Ptr} (h : Detached D s dir c) (p : Ptr) (index : ℕ) :
    Detached D (markRoot s p index) dir c where
  mem := h.mem
  ne_root := h.ne_root
  ownerless := by
    rw [kids_markRoot]
    exact h.ownerless
  parent_eq := by
    rw [(markRoot_folder s p index c).2.2]
    exact h.parent_eq
  live := by
    rw [kids_markRoot]
    exact h.live

section Mount

variable {st : Store} {id : PartId} {off : ℕ}

/-- The root of a new mount after it was loaded: it is in no table, everything below it is new,
and nothing was released. -/
theorem DirInv.loadRoot (h : DirInv D s) (t : Fs)
    (hmalloc : (s.mem.malloc sizeofRamfsFoder).1 = some s.mem.next)
    (ht : t = (dfsLoadFolderFromDisk (newRoot s st) s.mem.next id off).2) :
    ∃ D', DirInv D' t ∧ (∀ dir, Detached D' t dir s.mem.next) ∧
      ∀ i < t.mountCount, (t.mountTable i).rootDir ≠ s.mem.next := by
  have hfreed := s.mem.freed_malloc sizeofRamfsFoder
  have hlt : s.mem.next < (s.mem.malloc sizeofRamfsFoder).2.next :=
    (Nat.lt_succ_self _).trans_eq (Memory.malloc_eq_some hmalloc).2.symm
  have hread : DirInv D (s.setStore st) := h.quiet (Quiet.setStore s st)
  have hfresh : DirInv (insert s.mem.next D) (newRoot s st) := hread.fresh rfl rfl hlt hfreed
  have hdet : Detached (insert s.mem.next D) (newRoot s st) rootPtr s.mem.next :=
    hread.detached_fresh rfl hfreed fun q hq => absurd hq (by simp [RamfsFoder.zero])
  have hzero : (newRoot s st).folders s.mem.next = RamfsFoder.zero := Fs.setFolder_self _ _ _
  have hkids : kids (newRoot s st) s.mem.next = [] := by
    rw [kids, hzero]
    exact congrArg (List.map _) nodes_empty
  obtain ⟨D', hload⟩ := (Loading.start hfresh hdet.mem hkids).fromDisk hzero id off
  rw [← ht] at hload
  have hframe := frame_newRoot frameRel_eq s st id off 0
  have htable : t.mountTable = s.mountTable ∧ t.mountCount = s.mountCount := by
    rw [ht]
    exact ⟨hframe.mountTable, hframe.mountCount⟩
  refine ⟨D', hload.inv, fun dir => ⟨hload.sub hdet.mem, hdet.ne_root, ?_, ?_, ?_⟩, ?_⟩
  · exact fun p hp => hdet.ownerless p (hload.old p _ hp hload.dir_lt)
  · intro q hq
    rw [hload.parent, hzero] at hq
    exact absurd hq (by simp [RamfsFoder.zero])
  · -- below the root are only the folders that were entered into it, and these have no entries
    intro x hx hmem
    have hclosed : ∀ p ∈ {p | p = s.mem.next ∨ p ∈ kids t s.mem.next}, ∀ c ∈ kids t p,
        c ∈ {p | p = s.mem.next ∨ p ∈ kids t s.mem.next} := by
      rintro p (rfl | hp) c hc
      · exact Or.inr hc
      · rw [(hload.kid p hp).2] at hc
        exact absurd hc (by simp)
    have hle : s.mem.next ≤ x := by
      rcases hx.mem_of_closed hclosed (Or.inl rfl) with rfl | hx
      · exact le_refl _
      · exact hload.dir_lt.le.trans (hload.kid x hx).1
    rw [hload.freed, show (newRoot s st).mem.freed = s.mem.freed from hfreed] at hmem
    exact Nat.not_lt.2 hle (h.freed_lt x hmem)
  · rw [htable.1, htable.2]
    exact fun i hi => Nat.ne_of_lt (h.lt_next _ (h.mount_mem i hi))

end Mount

/-- Entering the loaded root into the directory it is mounted on, which has no entries. -/
theorem DirInv.attach (h : DirInv D s) {dir rootDir : Ptr} (hdet : Detached D s dir rootDir)
    (hmount : ∀ i < s.mountCount, (s.mountTable i).rootDir ≠ rootDir) (hdir : kids s dir = [])
    (path : CString) (id : PartId) (addr : ℤ) : DirInv D (attachRoot s dir rootDir path id addr).2 := by
  obtain ⟨ins, hins, ⟨-, heq⟩ | ⟨-, heq⟩⟩ := attachRoot_cases s dir rootDir path id addr
  · rw [heq, hins]
    have hgrow := h.setMem (next_le_insert foderTable s.mem (s.folders dir).foderMap
      (lastComponent path) ⟨lastComponent path, RAMFS_FOLDER_TYPE_DISK_CLEAN, rootDir, addr⟩)
      (freed_ramfsHashmapInsert _ _ _ ⟨lastComponent path, RAMFS_FOLDER_TYPE_DISK_CLEAN, rootDir, addr⟩)
    exact hgrow.free (hgrow.lt_next _ hdet.mem) hdet.not_reach hmount
  · rw [heq, hins]
    refine DirInv.pushMount (h.enter hdet (Or.inl (ramfsHashmapFind_eq_none hdir _))) hdet.mem ?_
    rw [setTable, Fs.setMem_mem, freed_ramfsHashmapInsert]
    exact hdet.live _ (Below.refl _ _)

/-- **`dfs_mount` keeps the tree.** -/
theorem DirInv.mount (h : DirInv D s) (path : CString) (id : PartId) :
    ∃ D', DirInv D' (dfsMount s path id).2 := by
  obtain ⟨st, mem, -, hnext, hfreed, heq⟩ | ⟨dir, sb, st, hdir, hempty, -, -, hmalloc, hcase⟩ :=
    dfsMount_cases s path id
  · rw [heq]
    exact ⟨D, (h.quiet (Quiet.setStore s st)).setMem hnext hfreed⟩
  obtain ⟨D', hinv, hdet, hmount⟩ := h.loadRoot (dfsLoadFolderFromDisk (newRoot s st) s.mem.next id
    sb.rootPointer).2 hmalloc rfl
  have hframe := fun index => frame_newRoot frameRel_eq s st id sb.rootPointer index
  rcases hcase with heq | ⟨-, heq⟩
  · rw [heq]
    exact ⟨D', hinv.free (hinv.lt_next _ (hdet rootPtr).mem) (hdet rootPtr).not_reach hmount⟩
  · rw [heq]
    generalize (dfsLoadFolderFromDisk (newRoot s st) s.mem.next id sb.rootPointer).2 = t at *
    refine ⟨D', (hinv.mark _ _).attach ((hdet dir).mark _ _) hmount ?_ path id _⟩
    -- the directory is as it was
    have hlt : dir < s.mem.next :=
      h.lt_next dir (h.reach_mem (h.reach_getDirByPath (Below.refl _ _) hdir))
    have hcount : (s.folders dir).foderMap.count = 0 := by
      simp only [isDirectoryEmpty, Bool.and_eq_true, beq_iff_eq] at hempty
      exact hempty.1
    rw [kids, ← (hframe t.mountCount).folders dir hlt]
    exact h.kids_eq_nil hcount

/-! ### Unmounting -/

/-- The entries that are left after one was dropped. -/
theorem exists_of_dropMount {idx i : ℕ} (hi : i < (s.dropMount idx).mountCount) :
    ∃ j < s.mountCount, j ≠ idx ∧ (s.dropMount idx).mountTable i = s.mountTable j := by
  have hi : i < s.mountCount - 1 := hi
  rw [show (s.dropMount idx).mountTable i = if idx ≤ i ∧ i + 1 < s.mountCount then
    s.mountTable (i + 1) else s.mountTable i from rfl]
  split_ifs with h
  · exact ⟨i + 1, h.2, by omega, rfl⟩
  · exact ⟨i, by omega, by omega, rfl⟩

theorem DirInv.dropMount (h : DirInv D s) (idx : ℕ) : DirInv D (s.dropMount idx) := by
  refine ⟨h.lt_next, h.freed_lt, h.root_mem, h.kid_mem, fun i hi => ?_, h.loose, h.count_eq, h.nodup,
    h.owner, h.root_owner, h.parent_eq, h.root_parent, h.noDangling.reach, h.noDangling.currentDir,
    fun i hi => ?_⟩
  · obtain ⟨j, hj, -, heq⟩ := exists_of_dropMount hi
    rw [heq]
    exact h.mount_mem j hj
  · obtain ⟨j, hj, -, heq⟩ := exists_of_dropMount hi
    rw [heq]
    exact h.noDangling.mountRoot j hj

theorem Released.dropMount {R : Set Ptr} (h : Released R s s') (idx : ℕ) :
    Released R (s.dropMount idx) (s'.dropMount idx) where
  next := h.next
  map := h.map
  file := h.file
  place := h.place
  freed := h.freed
  currentDir := h.currentDir
  mountTable := by
    rw [Fs.dropMount, Fs.dropMount]
    dsimp only
    rw [h.mountTable, h.mountCount]
  mountCount := congrArg (· - 1) h.mountCount
  mountWrites := by
    rw [Fs.dropMount, Fs.dropMount]
    dsimp only
    rw [h.mountWrites, h.mountCount]

/-- **Releasing the tree of a mount**, once its root is out of reach and no other mount is
below it. -/
theorem DirInv.freeMount (h : DirInv D s) {idx : ℕ} (hidx : idx < s.mountCount) (fuel : ℕ)
    (hgone : ¬Reach s (s.mountTable idx).rootDir)
    (hother : ∀ i < s.mountCount, i ≠ idx →
      ¬Below (kids s) (s.mountTable idx).rootDir (s.mountTable i).rootDir) :
    DirInv D ((freeFolderTree fuel s (s.mountTable idx).rootDir).dropMount idx) := by
  set r := (s.mountTable idx).rootDir with hr
  have hrel : Released {x | Below (kids s) r x} s (freeFolderTree fuel s r) :=
    released_freeFolderTree fuel s (fun p (hp : Below (kids s) r p) c hc => hp.tail hc)
      (Below.refl _ _)
  refine (h.dropMount idx).released (hrel.dropMount idx) ?_ ?_
  · intro x hx
    refine ⟨h.lt_next x (Below.mem_of_closed (fun q _ => h.kid_mem q) (h.mount_mem idx hidx) hx), ?_⟩
    intro hreach
    rcases Below.total h.owner hreach hx with hroot | hroot
    · exact hgone hroot
    · rw [Below.eq_of_ownerless h.root_owner hroot] at hgone
      exact hgone (Below.refl _ _)
  · intro i hi
    obtain ⟨j, hj, hne, heq⟩ := exists_of_dropMount hi
    rw [heq]
    exact hother j hj hne

/-- Walks see only the folder tables and the parent pointers. -/
theorem walkParts_congr {folders folders' : Ptr → RamfsFoder}
    (hmap : ∀ p, (folders' p).foderMap = (folders p).foderMap)
    (hparent : ∀ p, (folders' p).parent = (folders p).parent) (cur : Ptr) (parts : List CString) :
    walkParts folders' cur parts = walkParts folders cur parts := by
  induction parts generalizing cur with
  | nil => rfl
  | cons part rest ih =>
    rw [walkParts, walkParts]
    simp only [ih, hmap, hparent]

theorem Quiet.ramfsGetDirByAbsPath_eq (hq : Quiet s s') (path : CString) :
    ramfsGetDirByAbsPath s' path = ramfsGetDirByAbsPath s path := by
  simp only [ramfsGetDirByAbsPath, getDirByPath,
    walkParts_congr hq.foderMap fun p => (hq.place p).parent]

/-- The directory whose entry `dfs_umount` deletes when it unmounts the entry `mp`. -/
def umountEntry (s : Fs) (mp : DfsMountPoint) : Option Ptr :=
  (ramfsGetDirByAbsPath s (umountParent mp.path).1).bind fun dir =>
    (ramfsHashmapFind (s.folders dir).foderMap (umountParent mp.path).2).map fun info => info.ptr

/-- Unmounting entry `idx` leaves no reference behind: the entry that is deleted takes the root
of the mount out of the tree, if it is in it, and not the working directory; and no other mount
is in the mounted tree. -/
structure UmountSafe (s : Fs) (idx : ℕ) : Prop where
  root : Reach s (s.mountTable idx).rootDir → ∃ d, umountEntry s (s.mountTable idx) = some d ∧
    Below (kids s) d (s.mountTable idx).rootDir
  currentDir : ∀ d, umountEntry s (s.mountTable idx) = some d → ¬Below (kids s) d s.currentDir
  others : ∀ i < s.mountCount, i ≠ idx →
    ¬Below (kids s) (s.mountTable idx).rootDir (s.mountTable i).rootDir

theorem UmountSafe.quiet (hq : Quiet s s') {idx : ℕ} (h : UmountSafe s idx) : UmountSafe s' idx := by
  have hkids : kids s' = kids s := funext fun p => by rw [kids, hq.foderMap, kids]
  have hentry : umountEntry s' (s'.mountTable idx) = umountEntry s (s.mountTable idx) := by
    simp only [umountEntry, hq.ramfsGetDirByAbsPath_eq, hq.foderMap, hq.mountTable]
  constructor
  · rw [hentry, Reach, hkids, hq.mountTable]
    exact h.root
  · rw [hentry, hkids, hq.currentDir]
    exact h.currentDir
  · rw [hkids, hq.mountCount, hq.mountTable]
    exact h.others

/-- The deletion of `dfs_umount`. -/
def umountDelete (s : Fs) (mp : DfsMountPoint) : Fs :=
  match ramfsGetDirByAbsPath s (umountParent mp.path).1 with
  | some parentDir =>
    let r := ramfsHashmapDelete s.mem (s.folders parentDir).foderMap (umountParent mp.path).2
    (s.modifyFolder parentDir (·.setFoderMap r.2.1)).setMem r.2.2
  | none => s

/-- After the deletion the root of the mount is out of reach. -/
theorem DirInv.umountDelete (h : DirInv D s) {idx : ℕ} (hsafe : UmountSafe s idx) {t : Fs}
    (ht : t = umountDelete s (s.mountTable idx)) :
    DirInv D t ∧ ¬Reach t (s.mountTable idx).rootDir ∧ (∀ p, ∀ c ∈ kids t p, c ∈ kids s p) ∧
      t.mountTable = s.mountTable ∧ t.mountCount = s.mountCount := by
  have hnothing : umountEntry s (s.mountTable idx) = none → ¬Reach s (s.mountTable idx).rootDir := by
    intro hnone hreach
    obtain ⟨d, hd, -⟩ := hsafe.root hreach
    rw [hnone] at hd
    exact absurd hd (by simp)
  rw [LittleLinux.umountDelete] at ht
  -- the parent's path may lead nowhere, or its table may not hold the name; then nothing is deleted,
  -- and the mount's root was out of reach before
  cases hdir : ramfsGetDirByAbsPath s (umountParent (s.mountTable idx).path).1 with
  | none =>
    rw [hdir] at ht
    rw [ht]
    refine ⟨h, hnothing ?_, fun _ _ hc => hc, rfl, rfl⟩
    rw [umountEntry, hdir, Option.bind_none]
  | some dir =>
    rw [hdir] at ht
    cases hfind : ramfsHashmapFind (s.folders dir).foderMap (umountParent (s.mountTable idx).path).2 with
    | none =>
      have hnone : findNode foderTable.streq djb2Bucket (s.folders dir).foderMap
          (umountParent (s.mountTable idx).path).2 = none := by
        rwa [ramfsHashmapFind, NamedTable.find, ChainTable.find, Option.map_eq_none_iff] at hfind
      have hdel : ramfsHashmapDelete s.mem (s.folders dir).foderMap
          (umountParent (s.mountTable idx).path).2 = (false, (s.folders dir).foderMap, s.mem) := by
        rw [ramfsHashmapDelete, NamedTable.delete, delete_of_none hnone, hnone]
      have hsame : t = s := by
        rw [ht]
        dsimp only
        rw [hdel]
        simp only [Fs.modifyFolder, Fs.setFolder, RamfsFoder.setFoderMap, Function.update_eq_self]
        rfl
      rw [hsame]
      refine ⟨h, hnothing ?_, fun _ _ hc => hc, rfl, rfl⟩
      rw [umountEntry, hdir, Option.bind_some, hfind, Option.map_none]
    | some info =>
      have hentry : umountEntry s (s.mountTable idx) = some info.ptr := by
        rw [umountEntry, hdir, Option.bind_some, hfind, Option.map_some]
      obtain ⟨hinv, hgone, hedge⟩ := h.remove hfind (hsafe.currentDir _ hentry) ht
      refine ⟨hinv, fun hreach => ?_, hedge, by rw [ht]; rfl, by rw [ht]; rfl⟩
      obtain ⟨d, hd, hbelow⟩ := hsafe.root (hreach.mono hedge)
      rw [hentry] at hd
      exact hgone _ (Option.some.inj hd ▸ hbelow) hreach

/-- What `dfs_umount` does after the tree was written back. -/
theorem DirInv.dropTree (h : DirInv D s) {idx : ℕ} (hidx : idx < s.mountCount)
    (hsafe : UmountSafe s idx) (fuel : ℕ) :
    DirInv D ((freeFolderTree fuel (LittleLinux.umountDelete s (s.mountTable idx))
      (s.mountTable idx).rootDir).dropMount idx) := by
  obtain ⟨hinv, hgone, hedge, htable, hcount⟩ := h.umountDelete hsafe rfl
  have hother : ∀ i < s.mountCount, i ≠ idx →
      ¬Below (kids (LittleLinux.umountDelete s (s.mountTable idx))) (s.mountTable idx).rootDir
        (s.mountTable i).rootDir :=
    fun i hi hne hbelow => hsafe.others i hi hne (hbelow.mono hedge)
  generalize LittleLinux.umountDelete s (s.mountTable idx) = t at *
  rw [← htable] at hgone hother ⊢
  rw [← hcount] at hidx hother
  exact hinv.freeMount hidx fuel hgone hother

/-- **`dfs_umount` keeps the tree** when the entry it finds can be unmounted safely. -/
theorem DirInv.umount (h : DirInv D s) {path : CString}
    (hsafe : ∀ idx, (List.range s.mountCount).find? (fun i => streq (s.mountTable i).path path) =
      some idx → UmountSafe s idx) : DirInv D (dfsUmount s path).2 := by
  rw [dfsUmount]
  cases hfind : (List.range s.mountCount).find? fun i => streq (s.mountTable i).path path with
  | none => exact h
  | some idx =>
    have hidx : idx < s.mountCount := List.mem_range.1 (List.mem_of_find?_eq_some hfind)
    have hq := quiet_dfsSyncFolder s (s.mountTable idx).rootDir
    have hdrop := fun fuel => (h.quiet hq).dropTree (hq.mountCount ▸ hidx)
      ((hsafe idx hfind).quiet hq) fuel
    rw [congrFun hq.mountTable idx] at hdrop
    exact hdrop _

end LittleLinux
