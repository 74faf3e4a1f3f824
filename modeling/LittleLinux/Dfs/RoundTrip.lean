import LittleLinux.Dfs.LoadRecord

/-!
# Saving and loading a folder

`dfs_save_folder_to_disk` writes the first 128 entries of each table, in bucket order, and
`dfs_load_folder_children` enters them one by one. Over a store without faults the round trip
gives a folder back exactly when the folder has at most 128 entries of each kind, no file is taken
for one that is saved after it, and the allocations of the load are granted
(`recordSurvives_iff`). The save refuses nothing but what the store refuses.
-/

namespace LittleLinux

open ChainTable

/-- The fields of a folder are in the range of their C types, and its entries have distinct names
of 1 to 127 characters. -/
structure FolderInRange (f : RamfsFoder) : Prop where
  name : f.name.chars.length < 128
  foders : ∀ nd ∈ f.foderMap.nodes, (1 ≤ nd.value.name.chars.length ∧
    nd.value.name.chars.length ≤ 127) ∧ toI32 nd.value.driveAddr = nd.value.driveAddr
  files : ∀ nd ∈ f.fileMap.nodes, (1 ≤ nd.value.name.chars.length ∧
    nd.value.name.chars.length ≤ 127) ∧ toI64 nd.value.length = nd.value.length ∧
      toI32 nd.value.driveAddr = nd.value.driveAddr
  foders_distinct : f.foderMap.nodes.Pairwise fun nd nd' => nd.value.name ≠ nd'.value.name
  files_distinct : f.fileMap.nodes.Pairwise fun nd nd' => nd.value.name ≠ nd'.value.name

/-- A folder object with empty tables that stands for the same record of the mount `m`. -/
def freshNode (f : RamfsFoder) (m : ℕ) : RamfsFoder :=
  { RamfsFoder.zero with
    type := RAMFS_FOLDER_TYPE_DISK_CLEAN
    driveAddr := f.driveAddr
    mount := some m }

/-- The state after the folder `p` was saved to the partition of the mount `m`, with a fresh node
for it at `q`. -/
def savedFresh (s : Fs) (p q : Ptr) (m : ℕ) : Fs :=
  (dfsSaveFolderToDisk s p (s.mountTable m).part).2.setFolder q (freshNode (s.folders p) m)

/-- If the save of the folder `p` succeeds, the load of a fresh node for the same record succeeds
and gives the same entries, none dropped and none added. -/
def RecordSurvives (s : Fs) (p q : Ptr) (m : ℕ) : Prop :=
  (dfsSaveFolderToDisk s p (s.mountTable m).part).1 = true →
    (dfsLoadFolderChildren (savedFresh s p q m) q).1 = 0 ∧
      (((dfsLoadFolderChildren (savedFresh s p q m) q).2.folders q).foderMap.nodes.map
        foderEntry).Perm ((s.folders p).foderMap.nodes.map foderEntry) ∧
      (((dfsLoadFolderChildren (savedFresh s p q m) q).2.folders q).fileMap.nodes.map
        fileEntry).Perm ((s.folders p).fileMap.nodes.map fileEntry)

/-- The folder has at most 128 entries of each kind, no file is taken for one saved after it, and
the allocations of the load are granted; unless the store refuses the record. -/
def Representable (s : Fs) (p : Ptr) (m : ℕ) : Prop :=
  s.disk.store.Accepts (s.mountTable m).part (toU32 (s.folders p).driveAddr) sizeofDiskFolder →
    (s.folders p).foderMap.nodes.length ≤ DFS_MAX_SUB_ENTRIES ∧
      (s.folders p).fileMap.nodes.length ≤ DFS_MAX_SUB_ENTRIES ∧
      FilesApart ((s.folders p).fileMap.nodes.map fileEntry) ∧
      s.mem.Grants (2 * (s.folders p).foderMap.nodes.length + (s.folders p).fileMap.nodes.length)

instance (s : Fs) (p : Ptr) (m : ℕ) : Decidable (Representable s p m) := by
  unfold Representable
  infer_instance

section RoundTrip

variable {s : Fs} {p q : Ptr} {m : ℕ}

theorem FolderInRange.fits {f : RamfsFoder} (h : FolderInRange f) : (diskRecord f).Fits where
  name := h.name
  used := by simp [diskRecord]
  subfolders_le := by simp [diskRecord]
  files_le := by simp [diskRecord]
  subfolders := by
    intro e he
    obtain ⟨nd, hnd, rfl⟩ := List.mem_map.1 he
    obtain ⟨⟨-, hlen⟩, haddr⟩ := h.foders nd (List.mem_of_mem_take hnd)
    exact ⟨Nat.lt_succ_of_le hlen, haddr⟩
  files := by
    intro e he
    obtain ⟨nd, hnd, rfl⟩ := List.mem_map.1 he
    obtain ⟨⟨-, hlen⟩, hrest⟩ := h.files nd (List.mem_of_mem_take hnd)
    exact ⟨Nat.lt_succ_of_le hlen, hrest⟩

theorem diskRecord_subfolders (f : RamfsFoder) :
    (diskRecord f).subfolders = (f.foderMap.nodes.take DFS_MAX_SUB_ENTRIES).map foderEntry :=
  rfl

theorem diskRecord_files (f : RamfsFoder) :
    (diskRecord f).files = (f.fileMap.nodes.take DFS_MAX_SUB_ENTRIES).map fileEntry :=
  rfl

/-- A record that was written is the record that is read. -/
theorem decode_written {st : Store} {id : PartId} {off : ℕ} {r : DiskFolder} (hr : r.Fits)
    (h : (st.write id off sizeofDiskFolder r.encode).1 = true) :
    DiskFolder.decode (fun i => (st.write id off sizeofDiskFolder r.encode).2.bytes id (off + i)) =
      r := by
  have hbytes := Store.write_bytes_of_eq_true h
  have hread : ∀ i < sizeofDiskFolder,
      (st.write id off sizeofDiskFolder r.encode).2.bytes id (off + i) = r.encode i := by
    intro i hi
    rw [hbytes, Function.update_self]
    exact ByteMemory.putBytes_add hi
  refine (DiskFolder.decode_congr (fun i hi => (hread i hi).symm) ?_ ?_).symm.trans
    (DiskFolder.decode_encode hr)
  · have hlen := congrArg (fun d : DiskFolder => d.subfolders.length) (DiskFolder.decode_encode hr)
    simp only [DiskFolder.decode, List.length_map, List.length_range] at hlen
    rw [hlen]
    exact hr.subfolders_le
  · have hlen := congrArg (fun d : DiskFolder => d.files.length) (DiskFolder.decode_encode hr)
    simp only [DiskFolder.decode, List.length_map, List.length_range] at hlen
    rw [hlen]
    exact hr.files_le

theorem unloaded_savedFresh (s : Fs) (p q : Ptr) (m : ℕ) : Unloaded (savedFresh s p q m) q m := by
  have hself : (savedFresh s p q m).folders q = freshNode (s.folders p) m := Fs.setFolder_self _ _ _
  constructor
  all_goals
    rw [hself]
    rfl

/-- What the load of the fresh node reads. -/
theorem recordOf_savedFresh (hf : FolderInRange (s.folders p))
    (hw : (dfsSaveFolderToDisk s p (s.mountTable m).part).1 = true) :
    recordOf (savedFresh s p q m) q m = diskRecord (s.folders p) := by
  have hself : (savedFresh s p q m).folders q = freshNode (s.folders p) m := Fs.setFolder_self _ _ _
  have hbytes : recordBytes (savedFresh s p q m) q m = fun i =>
      (dfsSaveFolderToDisk s p (s.mountTable m).part).2.disk.store.bytes (s.mountTable m).part
        (toU32 (s.folders p).driveAddr + i) := by
    unfold recordBytes
    rw [hself]
    rfl
  rw [recordOf, hbytes]
  exact decode_written hf.fits hw

theorem recordReadable_savedFresh (hs : s.disk.store.Reliable)
    (hw : (dfsSaveFolderToDisk s p (s.mountTable m).part).1 = true) :
    RecordReadable (savedFresh s p q m) q m := by
  have hself : (savedFresh s p q m).folders q = freshNode (s.folders p) m := Fs.setFolder_self _ _ _
  have hacc : s.disk.store.Accepts (s.mountTable m).part (toU32 (s.folders p).driveAddr)
      sizeofDiskFolder := of_decide_eq_true hw
  obtain ⟨-, hlen, hin⟩ := hacc
  rw [RecordReadable, hself]
  exact ⟨hs _, hlen, hin⟩

/-- The names that the load meets are distinct and short. -/
theorem FolderInRange.foder_entries {f : RamfsFoder} (h : FolderInRange f) :
    (∀ e ∈ (diskRecord f).subfolders, e.name.chars.length ≤ 127) ∧
      ((diskRecord f).subfolders.Pairwise fun d e => d.name ≠ e.name) ∧
      ∀ e ∈ (diskRecord f).files, e.name.chars.length ≤ 127 := by
  refine ⟨fun e he => ?_, ?_, fun e he => ?_⟩
  · obtain ⟨nd, hnd, rfl⟩ := List.mem_map.1 he
    exact (h.foders nd (List.mem_of_mem_take hnd)).1.2
  · rw [diskRecord_subfolders, List.pairwise_map]
    exact h.foders_distinct.sublist (List.take_sublist _ _)
  · obtain ⟨nd, hnd, rfl⟩ := List.mem_map.1 he
    exact (h.files nd (List.mem_of_mem_take hnd)).1.2

/-- A first part is as long as the whole list exactly when it is all of it. -/
theorem length_map_take {α β : Type} (l : List α) (n : ℕ) (g : α → β) :
    ((l.take n).map g).length = l.length ↔ l.length ≤ n := by
  rw [List.length_map, List.length_take]
  omega

/-- The round trip, when the save succeeds. -/
theorem survives_iff_of_saved (hs : s.disk.store.Reliable) (hf : FolderInRange (s.folders p))
    (hq : q < s.mem.next) (hw : (dfsSaveFolderToDisk s p (s.mountTable m).part).1 = true) :
    ((dfsLoadFolderChildren (savedFresh s p q m) q).1 = 0 ∧
      (((dfsLoadFolderChildren (savedFresh s p q m) q).2.folders q).foderMap.nodes.map
        foderEntry).Perm ((s.folders p).foderMap.nodes.map foderEntry) ∧
      (((dfsLoadFolderChildren (savedFresh s p q m) q).2.folders q).fileMap.nodes.map
        fileEntry).Perm ((s.folders p).fileMap.nodes.map fileEntry)) ↔
    (s.folders p).foderMap.nodes.length ≤ DFS_MAX_SUB_ENTRIES ∧
      (s.folders p).fileMap.nodes.length ≤ DFS_MAX_SUB_ENTRIES ∧
      FilesApart ((s.folders p).fileMap.nodes.map fileEntry) ∧
      s.mem.Grants (2 * (s.folders p).foderMap.nodes.length +
        (s.folders p).fileMap.nodes.length) := by
  have hunloaded := unloaded_savedFresh s p q m
  have hread := recordReadable_savedFresh (q := q) hs hw
  have hrecord := recordOf_savedFresh (q := q) hf hw
  have hused : (recordOf (savedFresh s p q m) q m).used ≠ 0 := by rw [hrecord]; exact one_ne_zero
  obtain ⟨hfoderLen, hdistinct, hfileLen⟩ := hf.foder_entries
  constructor
  · rintro ⟨hok, hfoders, hfiles⟩
    rw [dfsLoadFolderChildren_eq hunloaded hread hused, hrecord] at hok hfoders hfiles
    -- the subfolders
    have hmap : ((afterRead (savedFresh s p q m) q m).folders q).foderMap.nodes = [] := by
      rw [show ((afterRead (savedFresh s p q m) q m).folders q).foderMap = Table.empty from
        hunloaded.foderMap, nodes_empty]
    obtain ⟨hle, hiff⟩ := loadSubfolders_length (some m) (some q)
      (s := afterRead (savedFresh s p q m) q m) hq hfoderLen
    have hloop : (loadSubfolders true (some m) (some q) q (diskRecord (s.folders p)).subfolders
        (afterRead (savedFresh s p q m) q m)).1 = true := by
      by_contra hfalse
      rw [if_pos (by simpa using hfalse)] at hok
      exact absurd hok (by norm_num)
    rw [if_neg (by simp [hloop])] at hfoders hfiles
    have hsame := (quiet_loadFiles true q (diskRecord (s.folders p)).files
      (loadSubfolders true (some m) (some q) q (diskRecord (s.folders p)).subfolders
        (afterRead (savedFresh s p q m) q m)).2).1.foderMap q
    have hlen := hfoders.length_eq
    rw [List.length_map, List.length_map, hsame] at hlen
    rw [hmap, List.length_nil, Nat.zero_add] at hle hiff
    have hmax : (s.folders p).foderMap.nodes.length ≤ DFS_MAX_SUB_ENTRIES := by
      rw [hlen, diskRecord_subfolders, List.length_map, List.length_take] at hle
      omega
    have htake : (diskRecord (s.folders p)).subfolders.length =
        (s.folders p).foderMap.nodes.length := (length_map_take _ _ _).2 hmax
    obtain ⟨hfree, -, hgrants⟩ := hiff.1 ⟨hloop, hlen.trans htake.symm⟩
    -- the files
    obtain ⟨t, ht, hsubs⟩ := loadSubfolders_spec (some m) (some q)
      (s := afterRead (savedFresh s p q m) q m) true hq hfoderLen hfree hdistinct hgrants
    have hmem : t.mem = s.mem.skip (2 * (s.folders p).foderMap.nodes.length) := by
      rw [hsubs.rest, htake]
      rfl
    have hfileMap : (t.folders q).fileMap.nodes = [] := by
      rw [show (t.folders q).fileMap = Table.empty by rw [hsubs.folder]; exact hunloaded.fileMap,
        nodes_empty]
    obtain ⟨hle', hiff'⟩ := loadFiles_length q (s := t) hfileLen
    have hlen' := hfiles.length_eq
    rw [ht, List.length_map, List.length_map] at hlen'
    rw [hfileMap, List.length_nil, Nat.zero_add] at hle' hiff'
    have hmax' : (s.folders p).fileMap.nodes.length ≤ DFS_MAX_SUB_ENTRIES := by
      rw [hlen', diskRecord_files, List.length_map, List.length_take] at hle'
      omega
    have htake' : (diskRecord (s.folders p)).files.length =
        (s.folders p).fileMap.nodes.length := (length_map_take _ _ _).2 hmax'
    obtain ⟨-, hapart, hgrants'⟩ := hiff'.1 (hlen'.trans htake'.symm)
    refine ⟨hmax, hmax', ?_, (s.mem.grants_add _ _).2 ⟨htake ▸ hgrants, ?_⟩⟩
    · rwa [diskRecord_files, List.take_of_length_le hmax'] at hapart
    · rwa [hmem, htake'] at hgrants'
  · rintro ⟨hmax, hmax', hapart, hgrants⟩
    have htake : (diskRecord (s.folders p)).subfolders =
        (s.folders p).foderMap.nodes.map foderEntry := by
      rw [diskRecord_subfolders, List.take_of_length_le hmax]
    have htake' : (diskRecord (s.folders p)).files = (s.folders p).fileMap.nodes.map fileEntry := by
      rw [diskRecord_files, List.take_of_length_le hmax']
    have hloadable : (recordOf (savedFresh s p q m) q m).Loadable := by
      rw [hrecord]
      exact ⟨hfoderLen, hfileLen, hdistinct, htake' ▸ hapart⟩
    have hall : (savedFresh s p q m).mem.Grants (recordOf (savedFresh s p q m) q m).allocations := by
      rw [hrecord, DiskFolder.allocations, htake, htake', List.length_map, List.length_map]
      exact hgrants
    obtain ⟨hok, hloaded⟩ := dfsLoadFolderChildren_spec hunloaded hq hread hused hloadable hall
    refine ⟨hok, ?_, ?_⟩
    · rw [← htake, ← hrecord]
      exact hloaded.foderEntries_perm
    · rw [← htake', ← hrecord]
      exact hloaded.fileEntries_perm

end RoundTrip

/-- **When a folder survives the disk.** Over a store without faults, for every folder with
fields in range and distinct names, and every allocated fresh node: a successful save is followed
by a load that answers 0 and gives back exactly the entries of the folder if and only if the
folder is representable. -/
theorem recordSurvives_iff (s : Fs) (p q : Ptr) (m : ℕ) (hs : s.disk.store.Reliable)
    (hf : FolderInRange (s.folders p)) (hq : q < s.mem.next) :
    RecordSurvives s p q m ↔ Representable s p m := by
  have hsaved : (dfsSaveFolderToDisk s p (s.mountTable m).part).1 = true ↔
      s.disk.store.Accepts (s.mountTable m).part (toU32 (s.folders p).driveAddr) sizeofDiskFolder :=
    decide_eq_true_iff
  constructor
  · intro h hacc
    have hw := hsaved.2 hacc
    exact (survives_iff_of_saved hs hf hq hw).1 (h hw)
  · intro h hw
    exact (survives_iff_of_saved hs hf hq hw).2 (h (hsaved.1 hw))

/-! ### Two files of one bucket -/

/-- The entry of an empty file with a one-character name. -/
def emptyFileNode (addr : ℕ) (c : UInt8) (h : (0 : UInt8) ∉ [c] := by decide) :
    Node CString RamfsFileInfo :=
  ⟨addr, ⟨[c], h⟩, ⟨⟨[c], h⟩, RAMFS_TYPE_MEM, 0, none, 0⟩⟩

/-- A root directory with the given files, its record at offset 536 of the partition. -/
def filesState (files : List (Node CString RamfsFileInfo)) : Fs :=
  (bootState ampleMemory (imageStore ⟨DFS_MAGIC, DFS_MAX_FOLDERS, 1, 536, 40000, 50000, 100⟩
    [])).setFolder rootPtr
      { RamfsFoder.zero with
        name := slashString
        driveAddr := 536
        fileMap := pushAll djb2Bucket Table.empty files }

theorem filesState_inRange : FolderInRange ((filesState
    [emptyFileNode 1 113, emptyFileNode 2 97]).folders rootPtr) :=
  ⟨by decide +kernel, by decide +kernel, by decide +kernel, by decide +kernel, by decide +kernel⟩

/-- With `"a"` before `"q"` in the chain, nothing is lost. -/
theorem recordSurvives_a_before_q :
    RecordSurvives (filesState [emptyFileNode 1 113, emptyFileNode 2 97]) rootPtr rootPtr 0 :=
  (recordSurvives_iff _ _ _ _ (fun _ => rfl) filesState_inRange (by decide)).2 (by decide +kernel)

/-- With `"q"` before `"a"`, the save answers 0, and the load takes `"q"` for `"a"` and drops
`"a"`. -/
theorem recordSurvives_fails_q_before_a :
    ¬∀ (s : Fs) (p q : Ptr) (m : ℕ), s.disk.store.Reliable → FolderInRange (s.folders p) →
      q < s.mem.next → RecordSurvives s p q m := by
  intro h
  obtain ⟨-, -, hfiles⟩ := h (filesState [emptyFileNode 1 97, emptyFileNode 2 113]) rootPtr rootPtr 0
    (fun _ => rfl)
    ⟨by decide +kernel, by decide +kernel, by decide +kernel, by decide +kernel, by decide +kernel⟩
    (by decide) (by decide +kernel)
  have hlen := hfiles.length_eq
  revert hlen
  decide +kernel

end LittleLinux
