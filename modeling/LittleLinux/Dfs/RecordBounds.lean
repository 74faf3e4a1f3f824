import LittleLinux.Dfs.LoadRecord
import LittleLinux.Dfs.Mount

/-!
# Records of arbitrary bytes

The two loaders take the counters of a folder record and the ends of its names from the disk
without a check. What they touch of the record is recorded by `fromDiskAccesses` and
`childrenAccesses`: the entries whose index they use, and the places from which they copy a
string. A record is loaded safely when all of that stays inside the record, and when a record for
which it could not is answered with an error. That is so exactly for the records that are well
formed anyway, or not in use (`loaders_safe_iff`).
-/

namespace LittleLinux

/-- What a loader does with the record: use an entry, or copy the string at an offset. -/
inductive RecordAccess where
  | subfolder (i : ℕ)
  | file (i : ℕ)
  | copyName (off : ℕ)
deriving DecidableEq

/-- The name of `subfolders[i]`. -/
def subfolderName (i : ℕ) : ℕ := subfoldersOffset + sizeofDiskFoderInfo * i

/-- The name of `files[i]`. -/
def fileName (i : ℕ) : ℕ := filesOffset + sizeofDiskFileInfo * i

/-! ### What the loaders access -/

/-- The accesses of the loop over the subfolder entries, from entry `i` on. The loader of a mount
root copies a name before it asks for the object, the other one afterwards. -/
def subfolderAccesses (skipKnown : Bool) (mount : Option ℕ) (parent : Option Ptr) (dir : Ptr) :
    ℕ → List DiskFoderInfo → Fs → List RecordAccess
  | _, [], _ => []
  | i, e :: es, s =>
    .subfolder i ::
      if skipKnown ∧ (ramfsHashmapFind (s.folders dir).foderMap e.name).isSome then
        subfolderAccesses skipKnown mount parent dir (i + 1) es s
      else
        let a := s.mem.malloc sizeofRamfsFoder
        match a.1 with
        | none => if skipKnown then [] else [.copyName (subfolderName i)]
        | some sub =>
          let node : RamfsFoder :=
            { RamfsFoder.zero with
              name := e.name
              type := RAMFS_FOLDER_TYPE_DISK_CLEAN
              driveAddr := e.driveAddr
              mount := mount
              parent := parent }
          .copyName (subfolderName i) ::
            subfolderAccesses skipKnown mount parent dir (i + 1) es
              (addSubfolder (s.setMem a.2) dir sub node
                ⟨e.name, RAMFS_FOLDER_TYPE_DISK_CLEAN, sub, e.driveAddr⟩)

/-- The accesses of the loop over the file entries, from entry `i` on. -/
def fileAccesses (skipKnown : Bool) (dir : Ptr) :
    ℕ → List DiskFileInfo → Fs → List RecordAccess
  | _, [], _ => []
  | i, e :: es, s =>
    .file i ::
      if skipKnown ∧ (ramfsFileHashmapFind (s.folders dir).fileMap e.name).isSome then
        fileAccesses skipKnown dir (i + 1) es s
      else
        .copyName (fileName i) ::
          fileAccesses skipKnown dir (i + 1) es
            (addFile s dir ⟨e.name, 0, e.length, none, e.driveAddr⟩)

/-- The accesses of the two loops, from the state in which the first of them starts. -/
def entryAccesses (skipKnown : Bool) (mount : Option ℕ) (parent : Option Ptr) (dir : Ptr)
    (diskF : DiskFolder) (s : Fs) : List RecordAccess :=
  let t := loadSubfolders skipKnown mount parent dir diskF.subfolders s
  subfolderAccesses skipKnown mount parent dir 0 diskF.subfolders s ++
    if t.1 = false then [] else fileAccesses skipKnown dir 0 diskF.files t.2

/-- The accesses of `dfs_load_folder_from_disk`. -/
def fromDiskAccesses (s : Fs) (dir : Ptr) (id : PartId) (diskOffset : ℕ) : List RecordAccess :=
  match (s.disk.store.read id diskOffset sizeofDiskFolder).1 with
  | none => []
  | some b =>
    let diskF := DiskFolder.decode b
    if diskF.used = 0 then []
    else .copyName 0 ::
      entryAccesses false none none dir diskF (resetState s dir id diskOffset diskF)

/-- The accesses of `dfs_load_folder_children`. -/
def childrenAccesses (s : Fs) (dir : Ptr) : List RecordAccess :=
  let f := s.folders dir
  if f.type ≠ RAMFS_FOLDER_TYPE_DISK_CLEAN then []
  else if f.foderMap.count ≠ 0 ∨ f.fileMap.count ≠ 0 then []
  else
    match f.mount with
    | none => []
    | some m =>
      let r := s.disk.store.read (s.mountTable m).part (toU32 f.driveAddr) sizeofDiskFolder
      match r.1 with
      | none => []
      | some b =>
        let diskF := DiskFolder.decode b
        if diskF.used = 0 then []
        else entryAccesses true (some m) (some dir) dir diskF (s.setStore r.2)

/-! ### Well-formed records -/

/-- The string at `off` ends within 128 bytes. -/
def Terminated (b : ByteMemory) (off : ℕ) : Prop := ∃ j < 128, b (off + j) = 0

instance (b : ByteMemory) (off : ℕ) : Decidable (Terminated b off) :=
  inferInstanceAs (Decidable (∃ j < 128, b (off + j) = 0))

/-- The entries of a record are within its arrays, and their names end within their fields. -/
structure EntriesFit (b : ByteMemory) : Prop where
  subfolders_le : b.getLE 132 4 ≤ DFS_MAX_SUB_ENTRIES
  files_le : b.getLE 136 4 ≤ DFS_MAX_SUB_ENTRIES
  subfolder : ∀ i < b.getLE 132 4, Terminated b (subfolderName i)
  file : ∀ i < b.getLE 136 4, Terminated b (fileName i)

instance (b : ByteMemory) : Decidable (EntriesFit b) :=
  decidable_of_iff (b.getLE 132 4 ≤ DFS_MAX_SUB_ENTRIES ∧ b.getLE 136 4 ≤ DFS_MAX_SUB_ENTRIES ∧
      (∀ i < b.getLE 132 4, Terminated b (subfolderName i)) ∧
      ∀ i < b.getLE 136 4, Terminated b (fileName i))
    ⟨fun h => ⟨h.1, h.2.1, h.2.2.1, h.2.2.2⟩, fun h => ⟨h.1, h.2, h.3, h.4⟩⟩

/-- The access stays inside the record. -/
def RecordAccess.Inside (b : ByteMemory) : RecordAccess → Prop
  | .subfolder i => i < DFS_MAX_SUB_ENTRIES
  | .file i => i < DFS_MAX_SUB_ENTRIES
  | .copyName off => Terminated b off

/-! ### The accesses of well-formed records -/

section Accesses

variable {skipKnown : Bool} {mount : Option ℕ} {parent : Option Ptr} {dir : Ptr} {b : ByteMemory}

theorem mem_subfolderAccesses {es : List DiskFoderInfo} {i : ℕ} {s : Fs} {a : RecordAccess}
    (ha : a ∈ subfolderAccesses skipKnown mount parent dir i es s) :
    ∃ j < i + es.length, a = .subfolder j ∨ a = .copyName (subfolderName j) := by
  induction es generalizing i s with
  | nil => simp [subfolderAccesses] at ha
  | cons e es ih =>
    have hnext : ∀ {s : Fs}, a ∈ subfolderAccesses skipKnown mount parent dir (i + 1) es s →
        ∃ j < i + (e :: es).length, a = .subfolder j ∨ a = .copyName (subfolderName j) := by
      intro s ha
      obtain ⟨j, hj, hor⟩ := ih ha
      exact ⟨j, by rw [List.length_cons]; omega, hor⟩
    have hself : i < i + (e :: es).length := by
      rw [List.length_cons]
      omega
    rw [subfolderAccesses] at ha
    rcases List.mem_cons.1 ha with rfl | ha
    · exact ⟨i, hself, .inl rfl⟩
    split at ha
    · exact hnext ha
    · dsimp only at ha
      split at ha
      · split at ha
        · simp at ha
        · exact ⟨i, hself, .inr (List.mem_singleton.1 ha)⟩
      · rcases List.mem_cons.1 ha with rfl | ha
        · exact ⟨i, hself, .inr rfl⟩
        · exact hnext ha

theorem mem_fileAccesses {es : List DiskFileInfo} {i : ℕ} {s : Fs} {a : RecordAccess}
    (ha : a ∈ fileAccesses skipKnown dir i es s) :
    ∃ j < i + es.length, a = .file j ∨ a = .copyName (fileName j) := by
  induction es generalizing i s with
  | nil => simp [fileAccesses] at ha
  | cons e es ih =>
    have hnext : ∀ {s : Fs}, a ∈ fileAccesses skipKnown dir (i + 1) es s →
        ∃ j < i + (e :: es).length, a = .file j ∨ a = .copyName (fileName j) := by
      intro s ha
      obtain ⟨j, hj, hor⟩ := ih ha
      exact ⟨j, by rw [List.length_cons]; omega, hor⟩
    have hself : i < i + (e :: es).length := by
      rw [List.length_cons]
      omega
    rw [fileAccesses] at ha
    rcases List.mem_cons.1 ha with rfl | ha
    · exact ⟨i, hself, .inl rfl⟩
    split at ha
    · exact hnext ha
    · rcases List.mem_cons.1 ha with rfl | ha
      · exact ⟨i, hself, .inr rfl⟩
      · exact hnext ha

theorem EntriesFit.inside (h : EntriesFit b) {s : Fs} {a : RecordAccess}
    (ha : a ∈ entryAccesses skipKnown mount parent dir (DiskFolder.decode b) s) : a.Inside b := by
  have hsubs : (DiskFolder.decode b).subfolders.length = b.getLE 132 4 := by
    simp [DiskFolder.decode]
  have hfiles : (DiskFolder.decode b).files.length = b.getLE 136 4 := by
    simp [DiskFolder.decode]
  rw [entryAccesses] at ha
  rcases List.mem_append.1 ha with ha | ha
  · obtain ⟨j, hj, rfl | rfl⟩ := mem_subfolderAccesses ha
    · exact lt_of_lt_of_le (by omega) h.subfolders_le
    · exact h.subfolder j (by omega)
  · split at ha
    · simp at ha
    · obtain ⟨j, hj, rfl | rfl⟩ := mem_fileAccesses ha
      · exact lt_of_lt_of_le (by omega) h.files_le
      · exact h.file j (by omega)

end Accesses

/-! ### Safe loads -/

/-- `dfs_load_folder_from_disk` is safe on the record `b`, from every state: its accesses stay
inside the record, and it fails if the record is not well formed. -/
def FromDiskSafe (b : ByteMemory) : Prop :=
  ∀ (s : Fs) (dir : Ptr) (id : PartId) (off : ℕ),
    (s.disk.store.read id off sizeofDiskFolder).1 = some b →
      (∀ a ∈ fromDiskAccesses s dir id off, a.Inside b) ∧
        (¬(Terminated b 0 ∧ EntriesFit b) → (dfsLoadFolderFromDisk s dir id off).1 ≠ 0)

/-- `dfs_load_folder_children` is safe on the record `b` of a folder that is not loaded yet, from
every state. -/
def ChildrenSafe (b : ByteMemory) : Prop :=
  ∀ (s : Fs) (dir : Ptr) (m : ℕ), Unloaded s dir m → RecordReadable s dir m →
    recordBytes s dir m = b →
      (∀ a ∈ childrenAccesses s dir, a.Inside b) ∧
        (¬EntriesFit b → (dfsLoadFolderChildren s dir).1 ≠ 0)

/-- With enough memory the loop takes every entry. -/
theorem loadSubfolders_unfailing (known : Bool) (mount : Option ℕ) (parent : Option Ptr) (dir : Ptr)
    (es : List DiskFoderInfo) {s : Fs} (hs : s.mem.Unfailing) :
    (loadSubfolders known mount parent dir es s).1 = true := by
  induction es generalizing s with
  | nil => rfl
  | cons e es ih =>
    rw [loadSubfolders]
    split
    · exact ih hs
    · dsimp only
      rw [hs.malloc_isSome (by decide)]
      refine ih fun n => ?_
      rw [addSubfolder]
      dsimp only
      rw [Fs.setMem_mem, ramfsHashmapInsert, foderTable.grants_insert]
      exact hs.malloc _ n

/-- A store without faults whose partitions hold the bytes `b`. -/
def storeOf (b : ByteMemory) : Store := ⟨fun _ => 4096, fun _ => b, fun _ => false, 0, []⟩

/-- A folder that is not loaded, of a mount whose partition holds the record `b`. -/
def readingState (b : ByteMemory) : Fs :=
  (initState ampleMemory (storeOf b)).setFolder 5
    { RamfsFoder.zero with type := RAMFS_FOLDER_TYPE_DISK_CLEAN, mount := some 0 }

theorem storeOf_accepts (b : ByteMemory) (id : PartId) :
    (storeOf b).Accepts id 0 sizeofDiskFolder := by
  refine ⟨rfl, by decide, ?_⟩
  simp only [Store.size, storeOf, sizeofDiskFolder]
  norm_num

theorem readingState_spec (b : ByteMemory) :
    Unloaded (readingState b) 5 0 ∧ RecordReadable (readingState b) 5 0 ∧
      recordBytes (readingState b) 5 0 = b ∧
      ((readingState b).disk.store.read ⟨0, 0⟩ 0 sizeofDiskFolder).1 = some b ∧
      (readingState b).mem.Unfailing := by
  have hzero : (fun i => b (0 + i)) = b := funext fun i => by rw [Nat.zero_add]
  have hfolder : (readingState b).folders 5 =
      { RamfsFoder.zero with type := RAMFS_FOLDER_TYPE_DISK_CLEAN, mount := some 0 } :=
    Fs.setFolder_self _ _ _
  have haddr : toU32 ((readingState b).folders 5).driveAddr = 0 := by
    rw [hfolder]
    rfl
  have hstore : (readingState b).disk.store = storeOf b := rfl
  refine ⟨⟨?_, ?_, ?_, ?_⟩, ?_, ?_, ?_, fun _ => rfl⟩
  · rw [hfolder]
  · rw [hfolder]
    rfl
  · rw [hfolder]
    rfl
  · rw [hfolder]
  · rw [RecordReadable, haddr, hstore]
    exact storeOf_accepts b _
  · funext i
    rw [recordBytes, haddr, hstore, Nat.zero_add]
    rfl
  · rw [hstore, Store.read, if_pos (storeOf_accepts b ⟨0, 0⟩)]
    exact congrArg some hzero

/-- A record in use is loaded in that state without an error, whatever it holds. -/
theorem loads_of_used {b : ByteMemory} (hused : b.getLE 128 4 ≠ 0) :
    (dfsLoadFolderFromDisk (readingState b) 5 ⟨0, 0⟩ 0).1 = 0 ∧
      (dfsLoadFolderChildren (readingState b) 5).1 = 0 := by
  obtain ⟨hun, hreadable, hbytes, hread, hmem⟩ := readingState_spec b
  have hused' : (DiskFolder.decode b).used ≠ 0 := hused
  have hrecord : recordOf (readingState b) 5 0 = DiskFolder.decode b := by
    rw [recordOf, hbytes]
  constructor
  · rw [dfsLoadFolderFromDisk_eq hread hused', if_neg]
    rw [loadSubfolders_unfailing]
    · simp
    · exact hmem
  · rw [dfsLoadFolderChildren_eq hun hreadable (by rwa [hrecord]), if_neg]
    rw [loadSubfolders_unfailing]
    · simp
    · exact hmem

theorem Unloaded.not_loaded {s : Fs} {dir : Ptr} {m : ℕ} (h : Unloaded s dir m) :
    ¬((s.folders dir).foderMap.count ≠ 0 ∨ (s.folders dir).fileMap.count ≠ 0) := by
  rw [h.foderMap, h.fileMap]
  simp [ChainTable.Table.empty]

/-- A record that is not in use is refused by both loaders, which touch nothing of it. -/
theorem refused_of_unused {b : ByteMemory} (hused : b.getLE 128 4 = 0) :
    FromDiskSafe b ∧ ChildrenSafe b := by
  have hused' : (DiskFolder.decode b).used = 0 := hused
  constructor
  · intro s dir id off hread
    rw [fromDiskAccesses, dfsLoadFolderFromDisk]
    dsimp only
    rw [hread]
    dsimp only
    rw [if_pos hused', if_pos hused']
    exact ⟨by simp, fun _ => by norm_num⟩
  · intro s dir m hun hreadable hbytes
    have hread : (s.disk.store.read (s.mountTable m).part (toU32 (s.folders dir).driveAddr)
        sizeofDiskFolder).1 = some b := hbytes ▸ if_pos hreadable
    rw [childrenAccesses, dfsLoadFolderChildren]
    dsimp only
    rw [if_neg (not_not.2 hun.type), if_neg (not_not.2 hun.type),
      if_neg hun.not_loaded,
      if_neg hun.not_loaded, hun.mount]
    dsimp only
    rw [hread]
    dsimp only
    rw [if_pos hused', if_pos hused']
    exact ⟨by simp, fun _ => by norm_num⟩

/-- **Which records are loaded safely**: those that are not in use, and those whose counters are
at most 128 and whose names end within their fields. The first loader copies the name of the
folder as well. -/
theorem loaders_safe_iff (b : ByteMemory) :
    (FromDiskSafe b ↔ b.getLE 128 4 = 0 ∨ (Terminated b 0 ∧ EntriesFit b)) ∧
      (ChildrenSafe b ↔ b.getLE 128 4 = 0 ∨ EntriesFit b) := by
  obtain ⟨hun, hreadable, hbytes, hread, -⟩ := readingState_spec b
  constructor
  · constructor
    -- one state that reads this record decides: a loader that leaves the record is not safe
    · intro hsafe
      by_contra hnot
      obtain ⟨hused, hfit⟩ := not_or.1 hnot
      exact (hsafe _ 5 ⟨0, 0⟩ 0 hread).2 hfit (loads_of_used hused).1
    · rintro (hused | ⟨hname, hfit⟩)
      · exact (refused_of_unused hused).1
      · refine fun s dir id off hread => ⟨fun a ha => ?_, fun h => absurd ⟨hname, hfit⟩ h⟩
        rw [fromDiskAccesses, hread] at ha
        dsimp only at ha
        split at ha
        · simp at ha
        · rcases List.mem_cons.1 ha with rfl | ha
          · exact hname
          · exact hfit.inside ha
  · constructor
    · intro hsafe
      by_contra hnot
      obtain ⟨hused, hfit⟩ := not_or.1 hnot
      exact (hsafe _ 5 0 hun hreadable hbytes).2 hfit (loads_of_used hused).2
    · rintro (hused | hfit)
      · exact (refused_of_unused hused).2
      · refine fun s dir m hun hreadable hbytes => ⟨fun a ha => ?_, fun h => absurd hfit h⟩
        have hread : (s.disk.store.read (s.mountTable m).part (toU32 (s.folders dir).driveAddr)
            sizeofDiskFolder).1 = some b := hbytes ▸ if_pos hreadable
        rw [childrenAccesses] at ha
        dsimp only at ha
        rw [if_neg (not_not.2 hun.type),
          if_neg hun.not_loaded, hun.mount] at ha
        dsimp only at ha
        rw [hread] at ha
        dsimp only at ha
        split at ha
        · simp at ha
        · exact hfit.inside ha

/-- A record in use with 129 subfolders and all other bytes zero. -/
def overfullRecord : ByteMemory := fun i => if i = 128 then 1 else if i = 132 then 129 else 0

/-- **The loader indexes behind the array.** -/
theorem overfullRecord_not_safe :
    ¬(FromDiskSafe overfullRecord ∧ ChildrenSafe overfullRecord) := by
  rintro ⟨hsafe, -⟩
  have hfit : ¬(Terminated overfullRecord 0 ∧ EntriesFit overfullRecord) := fun h =>
    absurd h.2.subfolders_le (by decide)
  obtain ⟨-, -, -, hread, -⟩ := readingState_spec overfullRecord
  exact (hsafe _ 5 ⟨0, 0⟩ 0 hread).2 hfit (loads_of_used (by decide)).1

end LittleLinux
