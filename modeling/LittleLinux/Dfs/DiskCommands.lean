import LittleLinux.Dfs.Device
import LittleLinux.Dfs.LeakedBlocks
import LittleLinux.Dfs.Remount
import LittleLinux.Dfs.SyncIsolation
import LittleLinux.Ramfs.TreeCommands

/-!
# The commands on disks

The wrappers that `dfs_init` registers: `lsblk`, `mount`, `umount` and `mkfs.dfs`, and runs of these
and of the commands on files. The table of partitions is fixed along a run, and what is said of a run is
meant as long as the mount table and the buffers for paths do not overflow, and no folder is used that
was freed.

A synchronisation writes to the partition of the first mount, whichever it is called for, so no command
is confined to the partition that it is about. What holds all the same is that a partition which is not
mounted keeps its bytes until a `mount` or a `mkfs.dfs` names it (`unnamed_kept`).

`lsblk` calls a partition `sd`, a letter and a number, and `parse_device` reads the name back on the first
31 drives (`nameable_tfae`). The letter of the next one is negative as a `char`, and so its partitions are
listed under names that no command takes.
-/

namespace LittleLinux

/-! ### The commands -/

/-- `dev_name` of `fs_lsblk_api`. -/
def devName (d : ℕ) : CString := .ofBytes [115, 100, UInt8.ofNat (97 + d)]

/-- The name that `lsblk` prints for a partition. -/
def partName (d p : ℕ) : CString := .ofBytes ((devName d).chars ++ numeral 10 (p + 1))

/-- `"%-10s %6lluM disk\n"`: `printf` knows no `l`, and prints the conversion and what follows. -/
def diskLine (d : ℕ) : List UInt8 :=
  (devName d).chars ++ List.replicate (10 - (devName d).chars.length) 32 ++ ascii "     %lluM disk\n"

/-- The line of a partition, under that of its drive. -/
def partLine (d p : ℕ) : List UInt8 :=
  ascii "  `- " ++ (partName d p).chars ++ ascii "     %lluM part\n"

/-- `fs_lsblk_api`. The sizes are read, but not printed. -/
def fsLsblkApi (parts : Partitions) (s : Fs) (words : List CString) : ℤ × Fs :=
  if words.head?.any (fun word => isWord word "--help" || isWord word "-h") then
    (0, s.print (ascii "lsblk: list block devices (drives and partitions)\n"))
  else
    (0, s.print (ascii "NAME         SIZE TYPE MOUNTPOINT\n" ++
      (List.range parts.ahci.driveCount.toNat).flatMap fun d =>
        diskLine d ++ (List.range (getPartitionCount parts d).toNat).flatMap (partLine d)))

/-- The end of a command on disks: the text of the code, or that it is done. -/
def diskReport (s : Fs) (ret : ℤ) (texts : List (ℤ × List UInt8)) (done : List UInt8) : ℤ × Fs :=
  (if ret = 0 then 0 else -1, if texts.any fun t => t.1 == ret then s.report ret texts else s.print done)

/-- `fs_mount_api`. -/
def fsMountApi (parts : Partitions) (s : Fs) : List CString → ℤ × Fs
  | [dev, mountpoint] =>
    if isWord dev "--help" then
      (0, s.print (ascii "mount DEVICE MOUNTPOINT - mount a DFS partition\n"))
    else
      match parseDevice parts dev with
      | none => (-1, s.print (ascii "mount: invalid device name. Use sda1, sda2, etc.\n"))
      | some (drive, part) =>
        let r := dfsMount s mountpoint ⟨drive, part⟩
        diskReport r.2 r.1
          [(-1, ascii "mount: mount point does not exist or is not a directory\n"),
            (-2, ascii "mount: mount point is not empty\n"),
            (-3, ascii "mount: failed to read superblock\n"),
            (-4, ascii "mount: not a DFS filesystem (bad magic)\n"),
            (-5, ascii "mount: memory allocation failed\n"),
            (-7, ascii "mount: memory allocation failed\n"),
            (-6, ascii "mount: failed to load root directory from disk\n")]
          (ascii "mounted " ++ dev.chars ++ ascii " on " ++ mountpoint.chars ++ ascii "\n")
  | _ => (-1, s.print (ascii "mount: usage mount DEVICE MOUNTPOINT\nExample: mount sda1 /mnt\n"))

/-- `fs_umount_api`. -/
def fsUmountApi (s : Fs) : List CString → ℤ × Fs
  | [mountpoint] =>
    if isWord mountpoint "--help" then
      (0, s.print (ascii "umount MOUNTPOINT - unmount a DFS partition\n"))
    else
      let r := dfsUmount s mountpoint
      diskReport r.2 r.1
        [(-1, ascii "umount: no filesystem mounted on " ++ mountpoint.chars ++ ascii "\n")]
        (ascii "unmounted " ++ mountpoint.chars ++ ascii "\n")
  | _ => (-1, s.print (ascii "umount: usage umount MOUNTPOINT\n"))

/-- `fs_mkfs_api`. -/
def fsMkfsApi (parts : Partitions) (s : Fs) : List CString → ℤ × Fs
  | [dev] =>
    if isWord dev "--help" then
      (0, s.print (ascii "mkfs.dfs DEVICE - format a partition with DFS\n"))
    else
      match parseDevice parts dev with
      | none => (-1, s.print (ascii "mkfs.dfs: invalid device name\n"))
      | some (drive, part) =>
        let r := dfsFormat s.mem s.disk.store ⟨drive, part⟩
        diskReport ((s.setMem r.2.1).setStore r.2.2) r.1
          [(-1, ascii "mkfs.dfs: partition too small\n"),
            (-2, ascii "mkfs.dfs: failed to write superblock\n"),
            (-3, ascii "mkfs.dfs: failed to write root directory\n")]
          (ascii "mkfs.dfs: formatted " ++ dev.chars ++ ascii " as DFS\n")
  | _ => (-1, s.print (ascii "mkfs.dfs: usage mkfs.dfs DEVICE\n"))

/-- A command on files or on disks, with the words that follow it. -/
inductive SystemCommand where
  | file (c : Command)
  | lsblk (words : List CString)
  | mount (words : List CString)
  | umount (words : List CString)
  | mkfs (words : List CString)

/-- What a command answers and does. -/
def runSystem (parts : Partitions) (s : Fs) : SystemCommand → ℤ × Fs
  | .file c => runCommand s c
  | .lsblk words => fsLsblkApi parts s words
  | .mount words => fsMountApi parts s words
  | .umount words => fsUmountApi s words
  | .mkfs words => fsMkfsApi parts s words

/-- The state after a command. -/
def systemStep (parts : Partitions) (s : Fs) (c : SystemCommand) : Fs := (runSystem parts s c).2

/-- The device that a `mount` or a `mkfs.dfs` is given. -/
def SystemCommand.device : SystemCommand → Option CString
  | .mount [dev, _] => some dev
  | .mkfs [dev] => some dev
  | _ => none

/-- The command is a `mount` or a `mkfs.dfs` of that partition. -/
def SystemCommand.NamesPart (parts : Partitions) (id : PartId) (c : SystemCommand) : Prop :=
  c.device.bind (parseDevice parts) = some (id.drive, id.part)

instance (parts : Partitions) (id : PartId) (c : SystemCommand) : Decidable (c.NamesPart parts id) :=
  inferInstanceAs (Decidable (_ = _))

/-! ### Calls that only read -/

section Reads

variable {s t u : Fs} {dir : Ptr} {name : CString}

/-- The disks keep their bytes. -/
def DisksKept (s t : Fs) : Prop := SameBytes s.disk.store t.disk.store

theorem DisksKept.of_onlyMem (hload : DisksKept s u) (h : OnlyMem u t) : DisksKept s t := by
  obtain ⟨mem, -, rfl⟩ := h
  exact hload

theorem DisksKept.of_storesFile (hload : DisksKept s u) (h : StoresFile u dir name t) :
    DisksKept s t := by
  obtain ⟨data, length, mem, -, -, -, -, rfl⟩ := h
  exact hload

theorem DisksKept.loadData (h : DisksKept s u) (dir : Ptr) (name : CString) (info : RamfsFileInfo) :
    DisksKept s (LittleLinux.loadData u dir name info).2 :=
  SameBytes.trans h (staysPut_loadData u dir name info).store

theorem disksKept_mkdirIn (s : Fs) (dir : Ptr) (name : CString) : DisksKept s (mkdirIn s dir name).2 := by
  have hload : DisksKept s (lazyLoadDirectory s dir) := sameBytes_lazyLoadDirectory s dir
  obtain hmem | ⟨-, mem, hnext, heq⟩ := mkdirIn_cases (Eq.refl (lazyLoadDirectory s dir)) name
  · exact hload.of_onlyMem hmem
  · rw [heq, enterDir]
    split_ifs
    · exact hload
    · exact hload

theorem disksKept_rmdirIn (s : Fs) (dir : Ptr) (name : CString) : DisksKept s (rmdirIn s dir name).2 := by
  have hload : DisksKept s (lazyLoadDirectory s dir) := sameBytes_lazyLoadDirectory s dir
  obtain heq | ⟨info, map, mem, -, -, -, -, -, heq⟩ :=
    rmdirIn_cases (Eq.refl (lazyLoadDirectory s dir)) name
  · rwa [heq]
  · rw [heq]
    exact hload

theorem disksKept_touchIn (s : Fs) (dir : Ptr) (name : CString) : DisksKept s (touchIn s dir name).2 := by
  have hload : DisksKept s (lazyLoadDirectory s dir) := sameBytes_lazyLoadDirectory s dir
  obtain hmem | ⟨map, mem, -, -, -, heq⟩ := touchIn_cases (Eq.refl (lazyLoadDirectory s dir)) name
  · exact hload.of_onlyMem hmem
  · rw [heq]
    exact hload

theorem disksKept_rmIn (s : Fs) (dir : Ptr) (name : CString) : DisksKept s (rmIn s dir name).2 := by
  have hload : DisksKept s (lazyLoadDirectory s dir) := sameBytes_lazyLoadDirectory s dir
  obtain heq | ⟨map, mem, -, -, -, heq⟩ := rmIn_cases (Eq.refl (lazyLoadDirectory s dir)) name
  · rwa [heq]
  · rw [heq]
    exact hload

theorem disksKept_writeIn (s : Fs) (dir : Ptr) (name : CString) (data : Data) :
    DisksKept s (writeIn s dir name data).2 := by
  have hload : DisksKept s (lazyLoadDirectory s dir) := sameBytes_lazyLoadDirectory s dir
  obtain hmem | ⟨-, hstores⟩ := writeIn_cases (Eq.refl (lazyLoadDirectory s dir)) name data
  · exact hload.of_onlyMem hmem
  · exact hload.of_storesFile hstores

theorem disksKept_catIn (s : Fs) (dir : Ptr) (name : CString) : DisksKept s (catIn s dir name).2 := by
  have hload : DisksKept s (lazyLoadDirectory s dir) := sameBytes_lazyLoadDirectory s dir
  obtain heq | ⟨info, text, -, heq⟩ := catIn_cases (Eq.refl (lazyLoadDirectory s dir)) name
  · rwa [heq]
  · rw [heq]
    exact hload.loadData dir name info

theorem disksKept_backspaceIn (s : Fs) (dir : Ptr) (name : CString) (count : ℤ) :
    DisksKept s (backspaceIn s dir name count).2 := by
  have hload : DisksKept s (lazyLoadDirectory s dir) := sameBytes_lazyLoadDirectory s dir
  obtain heq | ⟨info, -, hmem | ⟨-, hstores⟩⟩ :=
    backspaceIn_cases (Eq.refl (lazyLoadDirectory s dir)) name count
  · rwa [heq]
  · exact (hload.loadData dir name info).of_onlyMem hmem
  · exact (hload.loadData dir name info).of_storesFile hstores

/-- The calls that ask the disks for nothing but reads. -/
def FsOp.OnlyReads : FsOp → Prop
  | .syncFolder _ | .syncAll | .mount _ _ | .umount _ => False
  | _ => True

theorem FsOp.OnlyReads.isLocal {op : FsOp} (h : op.OnlyReads) : op.IsLocal := by
  cases op <;> trivial

/-- **The calls of the commands on files** read the disks, and no more. -/
theorem disksKept_fsStep (s : Fs) {op : FsOp} (hop : op.OnlyReads) : DisksKept s (fsStep s op) := by
  obtain ⟨r, hcase, hstep⟩ := fsStep_cases s op
  rw [hstep]
  cases hcase with
  | refused => exact SameBytes.refl _
  | mkdir => exact disksKept_mkdirIn s _ _
  | cd => exact SameBytes.refl _
  | rm => exact disksKept_rmIn s _ _
  | rmdir => exact disksKept_rmdirIn s _ _
  | touch => exact disksKept_touchIn s _ _
  | write => exact disksKept_writeIn s _ _ _
  | cat => exact disksKept_catIn s _ _
  | backspace => exact disksKept_backspaceIn s _ _ _
  | syncFolder => exact hop.elim
  | syncAll => exact hop.elim
  | mount => exact hop.elim
  | umount => exact hop.elim

end Reads

/-! ### Commands that spare a partition -/

/-- The partition has these bytes, and is not mounted. -/
structure Spared (id : PartId) (m : ByteMemory) (s : Fs) : Prop where
  bytes : s.disk.store.bytes id = m
  parts : ∀ i < s.mountCount, (s.mountTable i).part ≠ id

section Spared

variable {s t : Fs} {id : PartId} {m : ByteMemory} {parts : Partitions}

/-- Another mount table with the same entries, over disks with the same bytes. -/
theorem Spared.of_same (h : Spared id m s) (hbytes : t.disk.store.bytes id = s.disk.store.bytes id)
    (htable : t.mountTable = s.mountTable) (hcount : t.mountCount = s.mountCount) : Spared id m t := by
  refine ⟨hbytes.trans h.bytes, fun i hi => ?_⟩
  rw [hcount] at hi
  rw [htable]
  exact h.parts i hi

theorem Spared.print (h : Spared id m s) (text : List UInt8) : Spared id m (s.print text) :=
  h.of_same rfl rfl rfl

theorem Spared.report (h : Spared id m s) (ret : ℤ) (texts : List (ℤ × List UInt8)) :
    Spared id m (s.report ret texts) := by
  rw [Fs.report]
  cases texts.find? fun t => t.1 == ret with
  | none => exact h
  | some text => exact h.print text.2

theorem Spared.diskReport (h : Spared id m s) (ret : ℤ) (texts : List (ℤ × List UInt8))
    (done : List UInt8) : Spared id m (LittleLinux.diskReport s ret texts done).2 := by
  have hreport := h.report ret texts
  have hdone := h.print done
  rw [LittleLinux.diskReport]
  split_ifs <;> assumption

/-- A change of the disks that is addressed to another partition. -/
theorem Spared.writes (h : Spared id m s) (hq : Quiet s t) {other : PartId} (hne : other ≠ id)
    (hwrites : OnlyWrites other s.disk.store t.disk.store) : Spared id m t :=
  h.of_same (hwrites.others id hne.symm) hq.mountTable hq.mountCount

/-- **A synchronisation** writes to the partition of a mount. -/
theorem Spared.syncFolder (h : Spared id m s) (fuel : ℕ) (p : Ptr) :
    Spared id m (LittleLinux.syncFolder fuel s p).2 := by
  refine syncFolder_preserves (P := Spared id m) (Q := fun other => other ≠ id) ?_ ?_ ?_ ?_ ?_ fuel p h
  · intro t q i ht hi
    exact ht.parts i (List.mem_range.1 (List.mem_of_find?_eq_some hi))
  · exact fun t q other ht hne =>
      ht.writes (quiet_claimSlot t q other).1 hne (onlyWrites_claimSlot t q other).1
  · exact fun t q other u ht hne hu =>
      ht.writes ((quiet_claimSlot t q other).2 u hu) hne ((onlyWrites_claimSlot t q other).2 u hu)
  · exact fun t q other ht hne => ht.writes (quiet_syncFiles t q other) hne (onlyWrites_syncFiles other t q)
  · exact fun t q other ht hne => ht.writes (quiet_writeBack t q other) hne (onlyWrites_writeBack t q other)

/-- A call that only reads. -/
theorem Spared.reads (h : Spared id m s) {op : FsOp} (hop : op.OnlyReads) :
    Spared id m (fsStep s op) := by
  have hframe := frame_fsStep s hop.isLocal
  exact h.of_same (congrFun (disksKept_fsStep s hop).bytes id) hframe.mountTable hframe.mountCount

theorem disksKept_dfsLoadFolderFromDisk (s : Fs) (dir : Ptr) (id : PartId) (off : ℕ) :
    DisksKept s (dfsLoadFolderFromDisk s dir id off).2 := by
  have hread : SameBytes s.disk.store (s.disk.store.read id off sizeofDiskFolder).2 :=
    ⟨rfl, rfl, rfl, rfl⟩
  rw [dfsLoadFolderFromDisk]
  dsimp only
  cases (s.disk.store.read id off sizeofDiskFolder).1 with
  | none => exact hread
  | some b =>
    dsimp only
    split_ifs
    · exact hread
    · rw [DisksKept, loadSubfolders_disk]
      exact hread
    · rw [DisksKept, loadFiles_disk, loadSubfolders_disk]
      exact hread

theorem disksKept_attachRoot (s : Fs) (dir rootDir : Ptr) (path : CString) (id : PartId) (addr : ℤ) :
    DisksKept s (attachRoot s dir rootDir path id addr).2 := by
  obtain ⟨ins, -, ⟨-, heq⟩ | ⟨-, heq⟩⟩ := attachRoot_cases s dir rootDir path id addr
  · rw [heq]
    exact SameBytes.refl _
  · rw [heq]
    exact SameBytes.refl _

theorem disksKept_dfsMount (s : Fs) (path : CString) (id : PartId) : DisksKept s (dfsMount s path id).2 := by
  have hrefl : DisksKept s s := SameBytes.refl _
  have hread : SameBytes s.disk.store (readSuperblock s.disk.store id).2 := ⟨rfl, rfl, rfl, rfl⟩
  rw [dfsMount]
  cases ramfsGetDirByAbsPath s path with
  | none => exact hrefl
  | some dir =>
    dsimp only
    split_ifs
    · exact hrefl
    cases (readSuperblock s.disk.store id).1 with
    | none => exact hread
    | some sb =>
      dsimp only
      split_ifs
      · exact hread
      cases (s.mem.malloc sizeofRamfsFoder).1 with
      | none => exact hread
      | some root =>
        dsimp only
        generalize ht : ((s.setStore (readSuperblock s.disk.store id).2).setMem
          (s.mem.malloc sizeofRamfsFoder).2).setFolder root RamfsFoder.zero = t
        have hnew : DisksKept s t := by
          rw [← ht]
          exact hread
        have hload : DisksKept s (dfsLoadFolderFromDisk t root id sb.rootPointer).2 :=
          SameBytes.trans hnew (disksKept_dfsLoadFolderFromDisk t root id sb.rootPointer)
        generalize dfsLoadFolderFromDisk t root id sb.rootPointer = l at hload
        by_cases hok : l.1 ≠ 0
        · rw [if_pos hok]
          exact hload
        rw [if_neg hok]
        exact SameBytes.trans hload (disksKept_attachRoot (markRoot l.2 root l.2.mountCount) dir root
          path id (toI32 sb.rootPointer))

/-- **`dfs_mount`** of another partition. -/
theorem Spared.mount (h : Spared id m s) (path : CString) {other : PartId} (hne : other ≠ id) :
    Spared id m (dfsMount s path other).2 := by
  have hbytes : (dfsMount s path other).2.disk.store.bytes id = m :=
    (congrFun (disksKept_dfsMount s path other).bytes id).trans h.bytes
  obtain ⟨-, hframe⟩ | ⟨v, rootDir, -, hframe, -, -, -, heq⟩ := frame_dfsMount s path other
  · exact h.of_same (hbytes.trans h.bytes.symm) hframe.mountTable hframe.mountCount
  · rw [heq] at hbytes ⊢
    refine ⟨hbytes, fun i hi => ?_⟩
    rcases eq_or_ne i v.mountCount with rfl | hlast
    · rwa [Fs.pushMount_mountTable_self]
    · have hold : (v.pushMount ⟨path, other, rootDir⟩).mountTable i = v.mountTable i :=
        Function.update_of_ne hlast _ _
      have hlt : i < v.mountCount := Nat.lt_of_le_of_ne (Nat.le_of_lt_succ hi) hlast
      rw [hold, hframe.mountTable]
      exact h.parts i (hframe.mountCount ▸ hlt)

/-- **`dfs_umount`** synchronises, and drops an entry. -/
theorem Spared.umount (h : Spared id m s) (path : CString) : Spared id m (dfsUmount s path).2 := by
  cases hidx : mountIndex s path with
  | none =>
    rw [mountIndex] at hidx
    rw [dfsUmount, hidx]
    exact h
  | some idx =>
    have hbytes : (dfsUmount s path).2.disk.store.bytes id = m := by
      rw [disk_dfsUmount hidx]
      exact (h.syncFolder _ _).bytes
    obtain ⟨u, hframe, heq⟩ := frame_dfsUmount hidx
    rw [heq] at hbytes ⊢
    refine ⟨hbytes, fun i hi => ?_⟩
    obtain ⟨j, hj, -, hold⟩ := exists_of_dropMount hi
    rw [hold, hframe.mountTable]
    exact h.parts j (hframe.mountCount ▸ hj)

/-- **`dfs_format`** of another partition. -/
theorem Spared.format (h : Spared id m s) {other : PartId} (hne : other ≠ id) :
    Spared id m ((s.setMem (dfsFormat s.mem s.disk.store other).2.1).setStore
      (dfsFormat s.mem s.disk.store other).2.2) :=
  h.of_same ((dfsFormat_spec s.mem s.disk.store other).2.1 id hne.symm) rfl rfl

/-! ### The commands spare what they do not name -/

theorem Spared.mkdirParts (verbose : Bool) {names : List CString} (h : Spared id m s) (cur : Ptr) :
    Spared id m (LittleLinux.mkdirParts verbose names s cur).2 := by
  induction names generalizing s cur with
  | nil => exact h
  | cons part rest ih =>
    rw [LittleLinux.mkdirParts]
    split_ifs
    · exact ih h cur
    cases ramfsHashmapFind (s.folders cur).foderMap part with
    | some info => exact ih h info.ptr
    | none =>
      -- the working directory is changed for the time of the call
      have hthere : Spared id m (s.setCurrentDir cur) := h.of_same rfl rfl rfl
      have hmade := hthere.reads (show (FsOp.mkdir part none).OnlyReads from trivial)
      have hback : Spared id m ((fsMkdir (s.setCurrentDir cur) part none).2.setCurrentDir s.currentDir) :=
        hmade.of_same rfl rfl rfl
      dsimp only
      split_ifs
      · exact hback.print _
      · have hprinted : Spared id m (printMade ((fsMkdir (s.setCurrentDir cur) part none).2.setCurrentDir
            s.currentDir) verbose part) := by
          rw [printMade_eq]
          exact hback.print _
        cases ramfsHashmapFind _ part with
        | some info => exact ih hprinted info.ptr
        | none => exact hprinted

theorem Spared.perform (h : Spared id m s) (r : Request) :
    Spared id m (LittleLinux.perform s r).2 := by
  cases r with
  | say code text => exact h.print text
  | call op texts =>
    have hop : op.call.OnlyReads := by cases op <;> trivial
    exact (h.reads hop).report _ texts
  | makeOne verbose dirname =>
    have hmade := h.reads (show (FsOp.mkdir dirname none).OnlyReads from trivial)
    rw [LittleLinux.perform, mkdirOne]
    split_ifs
    · exact hmade.report _ _
    · rw [printMade_eq]
      exact hmade.print _
  | makePath verbose dirname =>
    rw [LittleLinux.perform, mkdirParents]
    split_ifs
    · exact h.mkdirParts verbose _
    · exact h.mkdirParts verbose _
  | list => exact h.print _
  | path => exact h.print _

theorem parseDevice_ne {dev : CString} {place : ℤ × ℤ} (hparse : parseDevice parts dev = some place)
    (hnot : parseDevice parts dev ≠ some (id.drive, id.part)) : PartId.mk place.1 place.2 ≠ id := by
  rintro rfl
  exact hnot hparse

theorem Spared.mountCommand (h : Spared id m s) {words : List CString}
    (hnot : ¬(SystemCommand.mount words).NamesPart parts id) :
    Spared id m (fsMountApi parts s words).2 := by
  rcases words with _ | ⟨dev, _ | ⟨mountpoint, _ | ⟨third, rest⟩⟩⟩
  · exact h.print _
  · exact h.print _
  · rw [fsMountApi]
    split_ifs
    · exact h.print _
    cases hparse : parseDevice parts dev with
    | none => exact h.print _
    | some place =>
      have hne : PartId.mk place.1 place.2 ≠ id := parseDevice_ne hparse hnot
      exact (h.mount mountpoint hne).diskReport _ _ _
  · exact h.print _

theorem Spared.umountCommand (h : Spared id m s) (words : List CString) :
    Spared id m (fsUmountApi s words).2 := by
  rcases words with _ | ⟨mountpoint, _ | ⟨second, rest⟩⟩
  · exact h.print _
  · rw [fsUmountApi]
    split_ifs
    · exact h.print _
    · exact (h.umount mountpoint).diskReport _ _ _
  · exact h.print _

theorem Spared.mkfsCommand (h : Spared id m s) {words : List CString}
    (hnot : ¬(SystemCommand.mkfs words).NamesPart parts id) :
    Spared id m (fsMkfsApi parts s words).2 := by
  rcases words with _ | ⟨dev, _ | ⟨second, rest⟩⟩
  · exact h.print _
  · rw [fsMkfsApi]
    split_ifs
    · exact h.print _
    cases hparse : parseDevice parts dev with
    | none => exact h.print _
    | some place =>
      have hne : PartId.mk place.1 place.2 ≠ id := parseDevice_ne hparse hnot
      exact (h.format hne).diskReport _ _ _
  · exact h.print _

/-- **Every command spares a partition that it does not name.** -/
theorem Spared.step (h : Spared id m s) (c : SystemCommand) (hnot : ¬c.NamesPart parts id) :
    Spared id m (systemStep parts s c) := by
  cases c with
  | file c =>
    rw [systemStep, runSystem, runCommand_eq]
    exact h.perform (request c)
  | lsblk words =>
    rw [systemStep, runSystem, fsLsblkApi]
    split_ifs
    · exact h.print _
    · exact h.print _
  | mount words => exact h.mountCommand hnot
  | umount words => exact h.umountCommand words
  | mkfs words => exact h.mkfsCommand hnot

/-- **A partition that is not mounted keeps every byte** until a `mount` or a `mkfs.dfs` names it,
whatever is done to files and to other partitions, and it stays unmounted. -/
theorem unnamed_kept (parts : Partitions) (s : Fs) (cmds : List SystemCommand) (id : PartId)
    (hfree : ∀ i < s.mountCount, (s.mountTable i).part ≠ id) (h : ∀ c ∈ cmds, ¬c.NamesPart parts id) :
    Spared id (s.disk.store.bytes id) (cmds.foldl (systemStep parts) s) :=
  Along.invariant (fun _ c hs hc => hs.step c hc) ⟨rfl, hfree⟩ (Along.of_mem s h)

/-- A drive with two partitions. -/
def twoPartitions : Partitions :=
  { onePartition with
    driveParts := fun _ =>
      ⟨[⟨63, 409600, 0x83, by decide, by decide⟩, ⟨409663, 409600, 0x83, by decide, by decide⟩],
        by decide⟩ }

/-- `mkfs.dfs sda1`, `mkdir a`, `mount sda1 /a`, `cd a`, `touch b` and `umount /a`. -/
def diskSession : List SystemCommand :=
  [.mkfs [.ofBytes (ascii "sda1")], .file ⟨.mkdir, [.ofBytes (ascii "a")]⟩,
    .mount [.ofBytes (ascii "sda1"), .ofBytes (ascii "/a")], .file ⟨.cd, [.ofBytes (ascii "a")]⟩,
    .file ⟨.touch, [.ofBytes (ascii "b")]⟩, .umount [.ofBytes (ascii "/a")]]

theorem unnamed_kept_diskSession :
    Spared part1 (bootDisk.store.bytes part1)
      (diskSession.foldl (systemStep twoPartitions) (initState ampleMemory bootDisk.store)) :=
  unnamed_kept twoPartitions (initState ampleMemory bootDisk.store) diskSession part1
    (fun i hi => absurd hi (Nat.not_lt_zero i)) (by decide +kernel)

end Spared

/-! ### Names of partitions -/

/-- `lsblk` has a line for the partition. -/
def Listed (parts : Partitions) (id : PartId) : Prop :=
  ∃ d ∈ List.range parts.ahci.driveCount.toNat, ∃ p ∈ List.range (getPartitionCount parts d).toNat,
    id = ⟨d, p⟩

section Names

variable {parts : Partitions} {id : PartId} {d p : ℕ}

theorem isDecimal_digitChar : ∀ d < 10, IsDecimal (digitChar d) := by decide

theorem isDecimal_numeral (n : ℕ) : ∀ c ∈ numeral 10 n, IsDecimal c := by
  obtain ⟨ds, -, hds, hlt, -, -⟩ := isNumeral_numeral (b := 10) (u := n) (by decide)
  rw [hds]
  intro c hc
  obtain ⟨d, hd, rfl⟩ := List.mem_map.1 hc
  exact isDecimal_digitChar d (hlt d hd)

/-- What a numeral of base ten stands for. -/
theorem decimalValue_numeral (n : ℕ) : decimalValue (numeral 10 n) = n := by
  obtain ⟨ds, -, hds, hlt, hvalue, -⟩ := isNumeral_numeral (b := 10) (u := n) (by decide)
  have hworth : ∀ d < 10, (digitChar d).toNat - 48 = d := by decide
  have hdigits : ∀ acc, (ds.map digitChar).foldl (fun acc c => acc * 10 + (c.toNat - 48)) acc =
      ds.foldl (fun acc d => acc * 10 + d) acc := by
    clear hds hvalue
    induction ds with
    | nil => exact fun _ => rfl
    | cons d ds ih =>
      intro acc
      rw [List.map_cons, List.foldl_cons, List.foldl_cons, hworth d (hlt d List.mem_cons_self)]
      exact ih (fun e he => hlt e (List.mem_cons_of_mem d he)) _
  rw [decimalValue, hds, hdigits, hvalue]

theorem chars_devName (hd : d < 31) : (devName d).chars = [115, 100, UInt8.ofNat (97 + d)] := by
  have hletter : ∀ d < 31, (0 : UInt8) ∉ [115, 100, UInt8.ofNat (97 + d)] := by decide
  exact congrArg CString.chars (CString.ofBytes_chars ⟨_, hletter d hd⟩)

theorem chars_partName (hd : d < 31) :
    (partName d p).chars = 115 :: 100 :: UInt8.ofNat (97 + d) :: numeral 10 (p + 1) := by
  have hdigit : ¬IsDecimal 0 := by decide
  have hnul : (0 : UInt8) ∉ (devName d).chars ++ numeral 10 (p + 1) := by
    intro hmem
    rcases List.mem_append.1 hmem with hmem | hmem
    · exact (devName d).noNul hmem
    · exact hdigit (isDecimal_numeral _ _ hmem)
  rw [partName, congrArg CString.chars (CString.ofBytes_chars ⟨_, hnul⟩)]
  exact congrArg (· ++ numeral 10 (p + 1)) (chars_devName hd)

/-- The name that `lsblk` prints is the name of the partition, on the first 31 drives. -/
theorem names_partName (hd : d < 31) (hdrive : d ∈ List.range parts.ahci.driveCount.toNat)
    (hp : p ∈ List.range (getPartitionCount parts d).toNat) : Names parts (partName d p) d p := by
  have hletter : ∀ d < 31, CString.schar (UInt8.ofNat (97 + d)) - 97 = d := by decide
  have hdrive := List.mem_range.1 hdrive
  have hp := List.mem_range.1 hp
  refine ⟨UInt8.ofNat (97 + d), numeral 10 (p + 1), chars_partName hd, ?_, isDecimal_numeral _,
    (hletter d hd).symm, Int.natCast_nonneg d, by omega, ?_, ?_, ?_⟩
  · exact fun hnil => absurd (List.map_eq_nil_iff.1 hnil) (by simp [digitList_ne_nil])
  · rw [decimalValue_numeral]
    push_cast
    omega
  · rw [decimalValue_numeral]
    push_cast
    omega
  · rw [decimalValue_numeral]
    push_cast
    omega

/-- What is parsed is a partition that `lsblk` lists, and not one of drive 31. -/
theorem listed_of_parseDevice {dev : CString} (h : parseDevice parts dev = some (id.drive, id.part)) :
    Listed parts id ∧ id.drive < 31 := by
  obtain ⟨c, text, blanks, sign, ds, rest, -, -, hdrive, hnonneg, hlt, hpos, hle, hpart⟩ :=
    parseDevice_eq_some_iff.1 h
  have hletter : CString.schar c < 2 ^ 7 := c.toInt8.toInt_lt
  have hcast : ((id.drive.toNat : ℕ) : ℤ) = id.drive := Int.toNat_of_nonneg hnonneg
  refine ⟨⟨id.drive.toNat, List.mem_range.2 (by omega), id.part.toNat, List.mem_range.2 ?_, ?_⟩, by omega⟩
  · rw [hcast]
    omega
  · rw [hcast, Int.toNat_of_nonneg (by omega)]

/-- **Which partitions can be named**: those that `lsblk` lists on the first 31 drives, and then by the
name that it prints. -/
theorem nameable_tfae (parts : Partitions) (id : PartId) :
    List.TFAE [∃ dev, parseDevice parts dev = some (id.drive, id.part),
      parseDevice parts (partName id.drive.toNat id.part.toNat) = some (id.drive, id.part),
      Listed parts id ∧ id.drive < 31] := by
  tfae_have 1 → 3 := by
    rintro ⟨dev, hdev⟩
    exact listed_of_parseDevice hdev
  tfae_have 3 → 2 := by
    rintro ⟨⟨d, hd, p, hp, rfl⟩, hlt⟩
    have hsmall : d < 31 := Int.ofNat_lt.1 hlt
    have hnames : Names parts (partName d p) d p := names_partName hsmall hd hp
    exact parseDevice_of_names hnames
  tfae_have 2 → 1 := fun h => ⟨_, h⟩
  tfae_finish

example (s : Fs) : (fsLsblkApi onePartition s []).2 = s.print (ascii "NAME         SIZE TYPE MOUNTPOINT\n" ++
    ascii "sda            %lluM disk\n  `- sda1     %lluM part\n") := by
  rfl

end Names

end LittleLinux
