import LittleLinux.Dfs.Calls

/-!
# What the loaders enter

`loadSubfolders` and `loadFiles` enter the entries of a record one by one. When no entry is taken
for another and every allocation is granted, the tables afterwards are those before with one node
per entry (`loadSubfolders_spec`, `loadFiles_eq`). Otherwise the loader that skips known names
leaves something out: the tables then have fewer nodes than the record has entries
(`loadSubfolders_length`, `loadFiles_length`).
-/

namespace LittleLinux

open ChainTable

/-! ### Insertions -/

namespace NamedTable

variable {V : Type} (T : NamedTable V) {map : Table BUCKETS CString V} {mem : Memory}
  {key : CString} {v : V}

/-- The stored name `d` is taken for `e`. -/
def Clash (d e : CString) : Prop := djb2Bucket d = djb2Bucket e ∧ T.streq d e = true

instance (d e : CString) : Decidable (T.Clash d e) := inferInstanceAs (Decidable (_ ∧ _))

theorem find_eq_none_iff : T.find map key = none ↔ findNode T.streq djb2Bucket map key = none := by
  rw [NamedTable.find, ChainTable.find, Option.map_eq_none_iff]

theorem find_empty (key : CString) : T.find Table.empty key = none := rfl

/-- A name is not found after a push exactly when it was not found before, and the new node is
not taken for it. -/
theorem find_pushNode_eq_none_iff (nd : Node CString V) :
    T.find (pushNode djb2Bucket map nd) key = none ↔
      T.find map key = none ∧ ¬T.Clash nd.key key := by
  rw [find_eq_none_iff, find_eq_none_iff, findNode_pushNode, Clash]
  split_ifs with h
  · simp [h]
  · simp [h]

theorem insert_granted (hsize : T.nodeSize ≠ 0) (hlen : key.chars.length ≤ 127)
    (hfind : T.find map key = none) (hgrants : mem.grants mem.calls = true) (v : V) :
    T.insert mem map key v =
      (true, pushNode djb2Bucket map ⟨mem.next, key, T.setName key v⟩, mem.skip 1) := by
  rw [NamedTable.insert, hfind, strcpy127_of_le hlen]
  dsimp only [Option.isSome_none]
  rw [if_neg (by simp), mem.malloc_of_ne_zero hsize, if_pos hgrants, ChainTable.insert.eq_def,
    T.find_eq_none_iff.1 hfind]
  rfl

theorem insert_refused (hsize : T.nodeSize ≠ 0) (hfind : T.find map key = none)
    (hgrants : mem.grants mem.calls = false) (v : V) :
    T.insert mem map key v = (false, map, mem.skip 1) := by
  rw [NamedTable.insert, hfind]
  dsimp only [Option.isSome_none]
  rw [if_neg (by simp), mem.malloc_of_ne_zero hsize, if_neg (by simp [hgrants]),
    ChainTable.insert.eq_def, T.find_eq_none_iff.1 hfind]

theorem insert_found (hlen : key.chars.length ≤ 127) (hfind : T.find map key ≠ none) (v : V) :
    T.insert mem map key v = (true, T.modify map key fun _ => T.setName key v, mem) := by
  obtain ⟨nd, hnd⟩ := Option.ne_none_iff_exists'.1 fun h => hfind (T.find_eq_none_iff.2 h)
  rw [NamedTable.insert, strcpy127_of_le hlen, if_pos (Option.isSome_iff_ne_none.2 hfind),
    ChainTable.insert.eq_def, hnd]
  rfl

/-- An insertion asks for one address at most. -/
theorem grants_insert (mem : Memory) (map : Table BUCKETS CString V) (key : CString) (v : V) :
    (T.insert mem map key v).2.2.grants = mem.grants := by
  rw [NamedTable.insert]
  dsimp only
  split_ifs
  · rfl
  · exact mem.grants_malloc _

end NamedTable

/-- Of two different folder names, none is taken for the other. -/
theorem foderTable_clash_iff {d e : CString} : foderTable.Clash d e ↔ d = e := by
  constructor
  · rintro ⟨-, h⟩
    simpa [foderTable, hashStreq_eq_decide] using h
  · rintro rfl
    exact ⟨rfl, by simp [foderTable, hashStreq_eq_decide]⟩

/-! ### Files -/

/-- The nodes that are made for the files of a record, from the address `a` on. -/
def fileNodes : ℕ → List DiskFileInfo → List (Node CString RamfsFileInfo)
  | _, [] => []
  | a, e :: es => ⟨a, e.name, ⟨e.name, 0, e.length, none, e.driveAddr⟩⟩ :: fileNodes (a + 1) es

/-- No file of the list is taken for a later one. -/
def FilesApart (es : List DiskFileInfo) : Prop :=
  es.Pairwise fun d e => ¬fileTable.Clash d.name e.name

instance (es : List DiskFileInfo) : Decidable (FilesApart es) :=
  inferInstanceAs (Decidable (es.Pairwise _))

/-- The file as the record has it. -/
def fileEntry (nd : Node CString RamfsFileInfo) : DiskFileInfo :=
  ⟨nd.value.name, nd.value.length, nd.value.driveAddr⟩

theorem exists_of_mem_fileNodes {a : ℕ} {es : List DiskFileInfo} {nd : Node CString RamfsFileInfo}
    (h : nd ∈ fileNodes a es) :
    ∃ (i : ℕ) (e : DiskFileInfo), nd = ⟨a + i, e.name, ⟨e.name, 0, e.length, none, e.driveAddr⟩⟩ := by
  induction es generalizing a with
  | nil => exact absurd h List.not_mem_nil
  | cons e es ih =>
    rcases List.mem_cons.1 h with rfl | h
    · exact ⟨0, e, rfl⟩
    · obtain ⟨i, d, rfl⟩ := ih h
      exact ⟨i + 1, d, by rw [Nat.add_assoc, Nat.add_comm 1 i]⟩

theorem map_fileEntry_fileNodes (a : ℕ) (es : List DiskFileInfo) :
    (fileNodes a es).map fileEntry = es := by
  induction es generalizing a with
  | nil => rfl
  | cons e es ih => rw [fileNodes, List.map_cons, ih, fileEntry]

theorem length_fileNodes (a : ℕ) (es : List DiskFileInfo) : (fileNodes a es).length = es.length := by
  rw [← List.length_map (f := fileEntry), map_fileEntry_fileNodes]

section Files

variable {s : Fs} {dir : Ptr} {e : DiskFileInfo} {es : List DiskFileInfo}

theorem setFileMap_self (s : Fs) (dir : Ptr) :
    s.modifyFolder dir (·.setFileMap (s.folders dir).fileMap) = s := by
  rw [Fs.modifyFolder, Fs.setFolder, RamfsFoder.setFileMap, Function.update_eq_self]

theorem setFileMap_setFileMap (s : Fs) (dir : Ptr) (map map' : RamfsFileHashmap) (mem mem' : Memory) :
    (((s.modifyFolder dir (·.setFileMap map)).setMem mem).modifyFolder dir (·.setFileMap map')).setMem
      mem' = (s.modifyFolder dir (·.setFileMap map')).setMem mem' := by
  simp only [Fs.setMem, Fs.modifyFolder, Fs.setFolder, RamfsFoder.setFileMap, Function.update_self,
    Function.update_idem]

theorem addFile_granted (hlen : e.name.chars.length ≤ 127)
    (hfind : ramfsFileHashmapFind (s.folders dir).fileMap e.name = none)
    (hgrants : s.mem.grants s.mem.calls = true) :
    addFile s dir ⟨e.name, 0, e.length, none, e.driveAddr⟩ =
      (s.modifyFolder dir (·.setFileMap (pushAll djb2Bucket (s.folders dir).fileMap
        (fileNodes s.mem.next [e])))).setMem (s.mem.skip 1) := by
  rw [addFile, ramfsFileHashmapInsert, fileTable.insert_granted (by decide) hlen hfind hgrants]
  rfl

theorem addFile_refused
    (hfind : ramfsFileHashmapFind (s.folders dir).fileMap e.name = none)
    (hgrants : s.mem.grants s.mem.calls = false) :
    addFile s dir ⟨e.name, 0, e.length, none, e.driveAddr⟩ = s.setMem (s.mem.skip 1) := by
  rw [addFile, ramfsFileHashmapInsert, fileTable.insert_refused (by decide) hfind hgrants]
  rw [setFileMap_self]

/-- The files that come after `e` are free of clashes with what is in the table and with `e`
exactly when they are free of clashes once `e` is in it. -/
theorem forall_find_push_iff {map : RamfsFileHashmap} {a : ℕ} :
    (∀ d ∈ es, ramfsFileHashmapFind (pushAll djb2Bucket map (fileNodes a [e])) d.name = none) ↔
      (∀ d ∈ es, ramfsFileHashmapFind map d.name = none) ∧
        ∀ d ∈ es, ¬fileTable.Clash e.name d.name := by
  rw [← forall₂_and]
  exact forall₂_congr fun d _ => fileTable.find_pushNode_eq_none_iff _

/-- **The files of a record, entered.** -/
theorem loadFiles_eq (known : Bool) (hlen : ∀ e ∈ es, e.name.chars.length ≤ 127)
    (hfree : ∀ e ∈ es, ramfsFileHashmapFind (s.folders dir).fileMap e.name = none)
    (hapart : FilesApart es) (hgrants : s.mem.Grants es.length) :
    loadFiles known dir es s =
      (s.modifyFolder dir (·.setFileMap (pushAll djb2Bucket (s.folders dir).fileMap
        (fileNodes s.mem.next es)))).setMem (s.mem.skip es.length) := by
  induction es generalizing s with
  | nil => exact (congrArg (Fs.setMem · s.mem) (setFileMap_self s dir)).symm
  | cons e es ih =>
    have hfind := hfree e List.mem_cons_self
    rw [List.length_cons, Nat.add_comm, Memory.grants_add, Memory.grants_one] at hgrants
    rw [FilesApart, List.pairwise_cons] at hapart
    rw [loadFiles, if_neg (by simp [hfind]), addFile_granted (hlen e List.mem_cons_self) hfind hgrants.1]
    rw [ih (fun d hd => hlen d (List.mem_cons_of_mem e hd)) ?_ hapart.2 hgrants.2]
    · simp only [Fs.setMem_folders, Fs.modifyFolder_self, Fs.setMem_mem, Memory.next_skip,
        Memory.skip_skip, List.length_cons, Nat.add_comm 1]
      exact setFileMap_setFileMap s dir _ _ _ _
    · rw [Fs.setMem_folders, Fs.modifyFolder_self]
      exact forall_find_push_iff.2 ⟨fun d hd => hfree d (List.mem_cons_of_mem e hd), hapart.1⟩

variable (dir) in
/-- **Nothing is left out** exactly when no name is taken for another and every node is
granted. -/
theorem loadFiles_length (hlen : ∀ e ∈ es, e.name.chars.length ≤ 127) :
    ((loadFiles true dir es s).folders dir).fileMap.nodes.length ≤
        (s.folders dir).fileMap.nodes.length + es.length ∧
      (((loadFiles true dir es s).folders dir).fileMap.nodes.length =
          (s.folders dir).fileMap.nodes.length + es.length ↔
        (∀ e ∈ es, ramfsFileHashmapFind (s.folders dir).fileMap e.name = none) ∧ FilesApart es ∧
          s.mem.Grants es.length) := by
  induction es generalizing s with
  | nil =>
    refine ⟨le_refl _, fun _ => ?_, fun _ => rfl⟩
    exact ⟨by simp, List.Pairwise.nil, s.mem.grants_zero⟩
  | cons e es ih =>
    have hrest : ∀ d ∈ es, d.name.chars.length ≤ 127 := fun d hd => hlen d (List.mem_cons_of_mem e hd)
    rw [List.length_cons, Nat.add_comm es.length, Memory.grants_add, Memory.grants_one,
      List.forall_mem_cons, FilesApart, List.pairwise_cons, loadFiles]
    by_cases hfind : ramfsFileHashmapFind (s.folders dir).fileMap e.name = none
    swap
    · -- the name is known: the entry is skipped
      rw [if_pos (by simp [Option.isSome_iff_ne_none, hfind])]
      have hle := (ih (s := s) hrest).1
      refine ⟨by omega, fun h => by omega, fun h => absurd h.1.1 hfind⟩
    rw [if_neg (by simp [hfind])]
    by_cases hgrants : s.mem.grants s.mem.calls = true
    · rw [addFile_granted (hlen e List.mem_cons_self) hfind hgrants]
      obtain ⟨hle, hiff⟩ := ih (s := (s.modifyFolder dir (·.setFileMap (pushAll djb2Bucket
        (s.folders dir).fileMap (fileNodes s.mem.next [e])))).setMem (s.mem.skip 1)) hrest
      have hpush : (pushAll djb2Bucket (s.folders dir).fileMap
          (fileNodes s.mem.next [e])).nodes.length = (s.folders dir).fileMap.nodes.length + 1 := by
        rw [(nodes_pushAll_perm _ _).length_eq, List.length_append, length_fileNodes, Nat.add_comm]
        rfl
      rw [Fs.setMem_folders, Fs.modifyFolder_self, RamfsFoder.setFileMap, hpush, Nat.add_assoc]
        at hle hiff
      refine ⟨hle, hiff.trans ?_⟩
      rw [forall_find_push_iff]
      constructor
      · rintro ⟨⟨h₁, h₂⟩, h₃, h₄⟩
        exact ⟨⟨hfind, h₁⟩, ⟨h₂, h₃⟩, hgrants, h₄⟩
      · rintro ⟨⟨-, h₁⟩, ⟨h₂, h₃⟩, -, h₄⟩
        exact ⟨⟨h₁, h₂⟩, h₃, h₄⟩
    · -- no node can be had: the entry is dropped
      rw [addFile_refused hfind (by simpa using hgrants)]
      have hle := (ih (s := s.setMem (s.mem.skip 1)) hrest).1
      rw [Fs.setMem_folders] at hle
      refine ⟨by omega, fun h => by omega, fun h => absurd h.2.2.1 hgrants⟩

end Files

/-! ### Subfolders -/

/-- The object of a subfolder that a loader makes. -/
def subFolder (mount : Option ℕ) (parent : Option Ptr) (e : DiskFoderInfo) : RamfsFoder :=
  { RamfsFoder.zero with
    name := e.name
    type := RAMFS_FOLDER_TYPE_DISK_CLEAN
    driveAddr := e.driveAddr
    mount := mount
    parent := parent }

/-- The nodes that are made for the subfolders of a record: the object of the first is at the
address `a`, its node follows, and so on. -/
def subNodes : ℕ → List DiskFoderInfo → List (Node CString RamfsFoderInfo)
  | _, [] => []
  | a, e :: es =>
    ⟨a + 1, e.name, ⟨e.name, RAMFS_FOLDER_TYPE_DISK_CLEAN, a, e.driveAddr⟩⟩ :: subNodes (a + 2) es

/-- The subfolder as the record has it. -/
def foderEntry (nd : Node CString RamfsFoderInfo) : DiskFoderInfo := ⟨nd.value.name, nd.value.driveAddr⟩

theorem map_foderEntry_subNodes (a : ℕ) (es : List DiskFoderInfo) :
    (subNodes a es).map foderEntry = es := by
  induction es generalizing a with
  | nil => rfl
  | cons e es ih => rw [subNodes, List.map_cons, ih, foderEntry]

theorem length_subNodes (a : ℕ) (es : List DiskFoderInfo) : (subNodes a es).length = es.length := by
  rw [← List.length_map (f := foderEntry), map_foderEntry_subNodes]

theorem getElem?_subNodes (a : ℕ) (es : List DiskFoderInfo) (i : ℕ) :
    (subNodes a es)[i]? = es[i]?.map fun e =>
      ⟨a + 2 * i + 1, e.name, ⟨e.name, RAMFS_FOLDER_TYPE_DISK_CLEAN, a + 2 * i, e.driveAddr⟩⟩ := by
  induction es generalizing a i with
  | nil => rfl
  | cons e es ih =>
    cases i with
    | zero => rfl
    | succ i =>
      rw [subNodes, List.getElem?_cons_succ, List.getElem?_cons_succ, ih,
        show a + 2 + 2 * i = a + 2 * (i + 1) by ring]

theorem exists_of_mem_subNodes {a : ℕ} {es : List DiskFoderInfo} {nd : Node CString RamfsFoderInfo}
    (h : nd ∈ subNodes a es) :
    ∃ i e, es[i]? = some e ∧
      nd = ⟨a + 2 * i + 1, e.name, ⟨e.name, RAMFS_FOLDER_TYPE_DISK_CLEAN, a + 2 * i, e.driveAddr⟩⟩ := by
  obtain ⟨i, hi⟩ := List.mem_iff_getElem?.1 h
  rw [getElem?_subNodes, Option.map_eq_some_iff] at hi
  obtain ⟨e, he, rfl⟩ := hi
  exact ⟨i, e, he, rfl⟩

/-- What a complete load of subfolders into `dir` leaves: a node and an object for each. -/
structure SubsLoaded (mount : Option ℕ) (parent : Option Ptr) (dir : Ptr) (es : List DiskFoderInfo)
    (s t : Fs) : Prop where
  folder : t.folders dir = (s.folders dir).setFoderMap
    (pushAll djb2Bucket (s.folders dir).foderMap (subNodes s.mem.next es))
  sub : ∀ i e, es[i]? = some e → t.folders (s.mem.next + 2 * i) = subFolder mount parent e
  other : ∀ p < s.mem.next, p ≠ dir → t.folders p = s.folders p
  rest : t = { s with folders := t.folders, mem := s.mem.skip (2 * es.length) }

theorem setFoderMap_self (s : Fs) (dir : Ptr) :
    s.modifyFolder dir (·.setFoderMap (s.folders dir).foderMap) = s := by
  rw [Fs.modifyFolder, Fs.setFolder, RamfsFoder.setFoderMap, Function.update_eq_self]

section Subfolders

variable {s : Fs} {dir : Ptr} {e : DiskFoderInfo} {es : List DiskFoderInfo} {mount : Option ℕ}
  {parent : Option Ptr}

/-- The loop takes an entry whose object and node are both granted. -/
theorem loadSubfolders_cons_granted (known : Bool) (hdir : dir < s.mem.next)
    (hlen : e.name.chars.length ≤ 127)
    (hfind : ramfsHashmapFind (s.folders dir).foderMap e.name = none) (hgrants : s.mem.Grants 2) :
    loadSubfolders known mount parent dir (e :: es) s =
      loadSubfolders known mount parent dir es
        (((s.setFolder s.mem.next (subFolder mount parent e)).modifyFolder dir (·.setFoderMap
          (pushAll djb2Bucket (s.folders dir).foderMap (subNodes s.mem.next [e])))).setMem
            (s.mem.skip 2)) := by
  have hobject := hgrants 0 (by omega)
  have hnode := hgrants 1 (by omega)
  rw [loadSubfolders, if_neg (by simp [hfind]), s.mem.malloc_of_ne_zero (by decide),
    if_pos (by simpa using hobject)]
  dsimp only
  rw [addSubfolder, Fs.setFolder_of_ne _ _ (Nat.ne_of_lt hdir), Fs.setFolder_mem, Fs.setMem_mem,
    Fs.setMem_folders, ramfsHashmapInsert,
    foderTable.insert_granted (by decide) hlen hfind (by simpa [Memory.skip] using hnode)]
  rfl

theorem loadSubfolders_cons_object_refused (known : Bool)
    (hfind : ramfsHashmapFind (s.folders dir).foderMap e.name = none)
    (hgrants : s.mem.grants s.mem.calls = false) :
    loadSubfolders known mount parent dir (e :: es) s = (false, s.setMem (s.mem.skip 1)) := by
  rw [loadSubfolders, if_neg (by simp [hfind]), s.mem.malloc_of_ne_zero (by decide),
    if_neg (by simp [hgrants])]

theorem loadSubfolders_cons_node_refused (known : Bool) (hdir : dir < s.mem.next)
    (hfind : ramfsHashmapFind (s.folders dir).foderMap e.name = none)
    (hobject : s.mem.grants s.mem.calls = true) (hnode : s.mem.grants (s.mem.calls + 1) = false) :
    loadSubfolders known mount parent dir (e :: es) s =
      loadSubfolders known mount parent dir es
        ((s.setFolder s.mem.next (subFolder mount parent e)).setMem (s.mem.skip 2)) := by
  rw [loadSubfolders, if_neg (by simp [hfind]), s.mem.malloc_of_ne_zero (by decide), if_pos hobject]
  dsimp only
  have hne := Nat.ne_of_lt hdir
  rw [addSubfolder, Fs.setFolder_of_ne _ _ hne, Fs.setFolder_mem, Fs.setMem_mem, Fs.setMem_folders,
    ramfsHashmapInsert,
    foderTable.insert_refused (by decide) hfind (by simpa [Memory.skip] using hnode)]
  have hself := setFoderMap_self ((s.setMem (s.mem.skip 1)).setFolder s.mem.next
    (subFolder mount parent e)) dir
  rw [Fs.setFolder_of_ne _ _ hne, Fs.setMem_folders, subFolder] at hself
  rw [hself]
  rfl

variable (mount parent) in
/-- The state after one entry. -/
theorem enterSub_folders (hdir : dir < s.mem.next) (e : DiskFoderInfo) (map : RamfsHashmap) :
    let u := ((s.setFolder s.mem.next (subFolder mount parent e)).modifyFolder dir
      (·.setFoderMap map)).setMem (s.mem.skip 2)
    u.folders dir = (s.folders dir).setFoderMap map ∧
      u.folders s.mem.next = subFolder mount parent e ∧
      ∀ p < s.mem.next, p ≠ dir → u.folders p = s.folders p := by
  have hne := Nat.ne_of_lt hdir
  refine ⟨?_, ?_, fun p hp hpd => ?_⟩
  · rw [Fs.setMem_folders, Fs.modifyFolder_self, Fs.setFolder_of_ne _ _ hne]
  · rw [Fs.setMem_folders, Fs.modifyFolder_of_ne _ _ hne.symm, Fs.setFolder_self]
  · rw [Fs.setMem_folders, Fs.modifyFolder_of_ne _ _ hpd, Fs.setFolder_of_ne _ _ (Nat.ne_of_lt hp)]

/-- The subfolders that come after `e` are new once `e` is in the table exactly when they were
new before, and none has the name of `e`. -/
theorem forall_find_pushSub_iff {map : RamfsHashmap} {a : ℕ} :
    (∀ d ∈ es, ramfsHashmapFind (pushAll djb2Bucket map (subNodes a [e])) d.name = none) ↔
      (∀ d ∈ es, ramfsHashmapFind map d.name = none) ∧ ∀ d ∈ es, e.name ≠ d.name := by
  rw [← forall₂_and]
  refine forall₂_congr fun d _ => (foderTable.find_pushNode_eq_none_iff _).trans ?_
  rw [foderTable_clash_iff]
  rfl

variable (mount parent) in
/-- **The subfolders of a record, entered.** -/
theorem loadSubfolders_spec (known : Bool) (hdir : dir < s.mem.next)
    (hlen : ∀ e ∈ es, e.name.chars.length ≤ 127)
    (hfree : ∀ e ∈ es, ramfsHashmapFind (s.folders dir).foderMap e.name = none)
    (hdistinct : es.Pairwise fun d e => d.name ≠ e.name) (hgrants : s.mem.Grants (2 * es.length)) :
    ∃ t, loadSubfolders known mount parent dir es s = (true, t) ∧
      SubsLoaded mount parent dir es s t := by
  -- induction on the records left, with the state after the first one as the new start
  induction es generalizing s with
  | nil =>
    refine ⟨s, rfl, ?_, fun i e he => absurd he (by simp), fun _ _ _ => rfl, rfl⟩
    rfl
  | cons e es ih =>
    have hfind := hfree e List.mem_cons_self
    rw [List.length_cons, show 2 * (es.length + 1) = 2 + 2 * es.length by ring, Memory.grants_add]
      at hgrants
    rw [List.pairwise_cons] at hdistinct
    rw [loadSubfolders_cons_granted known hdir (hlen e List.mem_cons_self) hfind hgrants.1]
    obtain ⟨hself, hsub, hother⟩ := enterSub_folders mount parent hdir e
      (pushAll djb2Bucket (s.folders dir).foderMap (subNodes s.mem.next [e]))
    have hmem : (((s.setFolder s.mem.next (subFolder mount parent e)).modifyFolder dir
      (·.setFoderMap (pushAll djb2Bucket (s.folders dir).foderMap (subNodes s.mem.next [e])))).setMem
        (s.mem.skip 2)).mem = s.mem.skip 2 := rfl
    have hrest : ∀ f m, { (((s.setFolder s.mem.next (subFolder mount parent e)).modifyFolder dir
        (·.setFoderMap (pushAll djb2Bucket (s.folders dir).foderMap (subNodes s.mem.next [e])))).setMem
          (s.mem.skip 2)) with folders := f, mem := m } = { s with folders := f, mem := m } :=
      fun _ _ => rfl
    generalize ((s.setFolder s.mem.next (subFolder mount parent e)).modifyFolder dir
      (·.setFoderMap (pushAll djb2Bucket (s.folders dir).foderMap (subNodes s.mem.next [e])))).setMem
        (s.mem.skip 2) = u at *
    -- two grants a subfolder: the folder and its hash node
    have hnext : u.mem.next = s.mem.next + 2 := by rw [hmem, Memory.next_skip]
    have hlt : s.mem.next < u.mem.next := hnext ▸ Nat.lt_add_of_pos_right Nat.two_pos
    obtain ⟨t, ht, hloaded⟩ := ih (s := u) (hdir.trans hlt)
      (fun d hd => hlen d (List.mem_cons_of_mem e hd))
      (by
        rw [hself]
        exact forall_find_pushSub_iff.2
          ⟨fun d hd => hfree d (List.mem_cons_of_mem e hd), hdistinct.1⟩)
      hdistinct.2 (hmem ▸ hgrants.2)
    refine ⟨t, ht, ?_, fun i d hd => ?_, fun p hp hpd => ?_, ?_⟩
    · rw [hloaded.folder, hself, hnext]
      rfl
    · cases i with
      | zero =>
        obtain rfl := Option.some.inj hd
        rw [Nat.mul_zero, Nat.add_zero, hloaded.other _ hlt (Nat.ne_of_gt hdir), hsub]
      | succ i =>
        have hi := hloaded.sub i d hd
        rwa [hnext, show s.mem.next + 2 + 2 * i = s.mem.next + 2 * (i + 1) by ring] at hi
    · rw [hloaded.other p (hp.trans hlt) hpd, hother p hp hpd]
    · refine hloaded.rest.trans ((hrest _ _).trans ?_)
      rw [hmem, Memory.skip_skip, List.length_cons,
        show 2 * (es.length + 1) = 2 + 2 * es.length by ring]

variable (mount parent) in
/-- **Nothing is left out** exactly when the names are new and distinct, and every object and
node is granted. -/
theorem loadSubfolders_length (hdir : dir < s.mem.next)
    (hlen : ∀ e ∈ es, e.name.chars.length ≤ 127) :
    ((loadSubfolders true mount parent dir es s).2.folders dir).foderMap.nodes.length ≤
        (s.folders dir).foderMap.nodes.length + es.length ∧
      ((loadSubfolders true mount parent dir es s).1 = true ∧
        ((loadSubfolders true mount parent dir es s).2.folders dir).foderMap.nodes.length =
          (s.folders dir).foderMap.nodes.length + es.length ↔
        (∀ e ∈ es, ramfsHashmapFind (s.folders dir).foderMap e.name = none) ∧
          (es.Pairwise fun d e => d.name ≠ e.name) ∧ s.mem.Grants (2 * es.length)) := by
  induction es generalizing s with
  | nil =>
    refine ⟨le_refl _, fun _ => ?_, fun _ => ⟨rfl, rfl⟩⟩
    exact ⟨by simp, List.Pairwise.nil, s.mem.grants_zero⟩
  | cons e es ih =>
    have hrest : ∀ d ∈ es, d.name.chars.length ≤ 127 := fun d hd => hlen d (List.mem_cons_of_mem e hd)
    rw [List.length_cons, show 2 * (es.length + 1) = 2 + 2 * es.length by ring, Memory.grants_add,
      List.forall_mem_cons, List.pairwise_cons]
    by_cases hfind : ramfsHashmapFind (s.folders dir).foderMap e.name = none
    swap
    · -- the name is known: the entry is skipped
      rw [loadSubfolders, if_pos (by simp [Option.isSome_iff_ne_none, hfind])]
      have hle := (ih (s := s) hdir hrest).1
      refine ⟨by omega, fun h => by omega, fun h => absurd h.1.1 hfind⟩
    by_cases hobject : s.mem.grants s.mem.calls = true
    swap
    · -- no object can be had: the load ends
      rw [loadSubfolders_cons_object_refused true hfind (by simpa using hobject)]
      refine ⟨by rw [Fs.setMem_folders]; omega, fun h => absurd h.1 (by simp), fun h => ?_⟩
      exact absurd (h.2.2.1 0 (by omega)) hobject
    by_cases hnode : s.mem.grants (s.mem.calls + 1) = true
    · have hgrants : s.mem.Grants 2 := (s.mem.grants_add 1 1).2
        ⟨s.mem.grants_one.2 hobject, (Memory.grants_one _).2 hnode⟩
      rw [loadSubfolders_cons_granted true hdir (hlen e List.mem_cons_self) hfind hgrants]
      obtain ⟨hself, -, -⟩ := enterSub_folders mount parent hdir e
        (pushAll djb2Bucket (s.folders dir).foderMap (subNodes s.mem.next [e]))
      have hmem : (((s.setFolder s.mem.next (subFolder mount parent e)).modifyFolder dir
        (·.setFoderMap (pushAll djb2Bucket (s.folders dir).foderMap (subNodes s.mem.next [e])))).setMem
          (s.mem.skip 2)).mem = s.mem.skip 2 := rfl
      generalize ((s.setFolder s.mem.next (subFolder mount parent e)).modifyFolder dir
        (·.setFoderMap (pushAll djb2Bucket (s.folders dir).foderMap (subNodes s.mem.next [e])))).setMem
          (s.mem.skip 2) = u at *
      have hlt : s.mem.next < u.mem.next := by
        rw [hmem, Memory.next_skip]
        exact Nat.lt_add_of_pos_right Nat.two_pos
      obtain ⟨hle, hiff⟩ := ih (s := u) (hdir.trans hlt) hrest
      have hpush : (pushAll djb2Bucket (s.folders dir).foderMap
          (subNodes s.mem.next [e])).nodes.length = (s.folders dir).foderMap.nodes.length + 1 := by
        rw [(nodes_pushAll_perm _ _).length_eq, List.length_append, length_subNodes, Nat.add_comm]
        rfl
      rw [hself, RamfsFoder.setFoderMap, hpush, Nat.add_right_comm, Nat.add_assoc] at hle hiff
      refine ⟨hle, hiff.trans ?_⟩
      rw [forall_find_pushSub_iff, hmem]
      constructor
      · rintro ⟨⟨h₁, h₂⟩, h₃, h₄⟩
        exact ⟨⟨hfind, h₁⟩, ⟨h₂, h₃⟩, hgrants, h₄⟩
      · rintro ⟨⟨-, h₁⟩, ⟨h₂, h₃⟩, -, h₄⟩
        exact ⟨⟨h₁, h₂⟩, h₃, h₄⟩
    · -- no node can be had: the entry is dropped
      rw [loadSubfolders_cons_node_refused true hdir hfind hobject (by simpa using hnode)]
      have hlt : dir < (s.mem.skip 2).next := hdir.trans_le (s.mem.next_skip 2 ▸ Nat.le_add_right _ 2)
      have hle := (ih (s := (s.setFolder s.mem.next (subFolder mount parent e)).setMem (s.mem.skip 2))
        hlt hrest).1
      rw [Fs.setMem_folders, Fs.setFolder_of_ne _ _ (Nat.ne_of_lt hdir)] at hle
      refine ⟨by omega, fun h => by omega, fun h => ?_⟩
      exact absurd (h.2.2.1 1 (by omega)) hnode

end Subfolders

/-! ### Records -/

/-- The names of a record fit a table, and no entry is taken for another. -/
structure DiskFolder.Loadable (r : DiskFolder) : Prop where
  foderLength : ∀ e ∈ r.subfolders, e.name.chars.length ≤ 127
  fileLength : ∀ e ∈ r.files, e.name.chars.length ≤ 127
  distinct : r.subfolders.Pairwise fun d e => d.name ≠ e.name
  apart : FilesApart r.files

/-- The number of allocations that a complete load makes. -/
def DiskFolder.allocations (r : DiskFolder) : ℕ := 2 * r.subfolders.length + r.files.length

/-- What a complete load of a record into `dir`, whose tables were empty, leaves. -/
structure RecordLoaded (mount : Option ℕ) (parent : Option Ptr) (dir : Ptr) (r : DiskFolder)
    (s t : Fs) : Prop where
  folder : t.folders dir = ((s.folders dir).setFoderMap
    (pushAll djb2Bucket Table.empty (subNodes s.mem.next r.subfolders))).setFileMap
      (pushAll djb2Bucket Table.empty (fileNodes (s.mem.next + 2 * r.subfolders.length) r.files))
  sub : ∀ i e, r.subfolders[i]? = some e →
    t.folders (s.mem.next + 2 * i) = subFolder mount parent e
  other : ∀ p < s.mem.next, p ≠ dir → t.folders p = s.folders p
  rest : t = { s with folders := t.folders, mem := s.mem.skip r.allocations }

namespace RecordLoaded

variable {mount : Option ℕ} {parent : Option Ptr} {dir : Ptr} {r : DiskFolder} {s t : Fs}

theorem foderMap (h : RecordLoaded mount parent dir r s t) : (t.folders dir).foderMap =
    pushAll djb2Bucket Table.empty (subNodes s.mem.next r.subfolders) := by
  rw [h.folder]
  rfl

theorem fileMap (h : RecordLoaded mount parent dir r s t) : (t.folders dir).fileMap =
    pushAll djb2Bucket Table.empty (fileNodes (s.mem.next + 2 * r.subfolders.length) r.files) := by
  rw [h.folder]
  rfl

theorem foders_perm (h : RecordLoaded mount parent dir r s t) :
    (t.folders dir).foderMap.nodes.Perm (subNodes s.mem.next r.subfolders) := by
  rw [h.foderMap]
  refine (nodes_pushAll_perm _ _).trans ?_
  rw [nodes_empty, List.append_nil]

theorem files_perm (h : RecordLoaded mount parent dir r s t) :
    (t.folders dir).fileMap.nodes.Perm
      (fileNodes (s.mem.next + 2 * r.subfolders.length) r.files) := by
  rw [h.fileMap]
  refine (nodes_pushAll_perm _ _).trans ?_
  rw [nodes_empty, List.append_nil]

theorem foderEntries_perm (h : RecordLoaded mount parent dir r s t) :
    ((t.folders dir).foderMap.nodes.map foderEntry).Perm r.subfolders := by
  have hperm := h.foders_perm.map foderEntry
  rwa [map_foderEntry_subNodes] at hperm

theorem fileEntries_perm (h : RecordLoaded mount parent dir r s t) :
    ((t.folders dir).fileMap.nodes.map fileEntry).Perm r.files := by
  have hperm := h.files_perm.map fileEntry
  rwa [map_fileEntry_fileNodes] at hperm

end RecordLoaded

section Records

variable {s : Fs} {dir : Ptr} {r : DiskFolder} {mount : Option ℕ} {parent : Option Ptr}

variable (mount parent) in
/-- **A record, entered into empty tables.** -/
theorem loadRecord_spec (known : Bool) (hdir : dir < s.mem.next) (hr : r.Loadable)
    (hfoders : (s.folders dir).foderMap = Table.empty) (hfiles : (s.folders dir).fileMap = Table.empty)
    (hgrants : s.mem.Grants r.allocations) :
    (loadSubfolders known mount parent dir r.subfolders s).1 = true ∧
      RecordLoaded mount parent dir r s (loadFiles known dir r.files
        (loadSubfolders known mount parent dir r.subfolders s).2) := by
  rw [DiskFolder.allocations, Memory.grants_add] at hgrants
  obtain ⟨t, ht, hsubs⟩ := loadSubfolders_spec mount parent known hdir
    hr.foderLength (fun e _ => by rw [hfoders]; rfl) hr.distinct hgrants.1
  have hmem : t.mem = s.mem.skip (2 * r.subfolders.length) := by rw [hsubs.rest]
  have hmap : (t.folders dir).fileMap = Table.empty := by rw [hsubs.folder, ← hfiles]; rfl
  have hload := loadFiles_eq (s := t) known hr.fileLength
    (fun e _ => by rw [hmap]; rfl) hr.apart (hmem ▸ hgrants.2)
  rw [ht]
  refine ⟨rfl, ?_, fun i e he => ?_, fun p hp hpd => ?_, ?_⟩
  · rw [hload, Fs.setMem_folders, Fs.modifyFolder_self, hmap, hsubs.folder, hfoders, hmem,
      Memory.next_skip]
  · have hlt : dir < s.mem.next + 2 * i := hdir.trans_le (Nat.le_add_right _ _)
    rw [hload, Fs.setMem_folders, Fs.modifyFolder_of_ne _ _ (Nat.ne_of_gt hlt), hsubs.sub i e he]
  · rw [hload, Fs.setMem_folders, Fs.modifyFolder_of_ne _ _ hpd, hsubs.other p hp hpd]
  · rw [hload, hmem, Memory.skip_skip, ← DiskFolder.allocations]
    rw [hsubs.rest]
    rfl

/-- The state of a folder that `dfs_load_folder_children` loads: it came from the disk, has empty
tables, and belongs to the mount `m`. -/
structure Unloaded (s : Fs) (dir : Ptr) (m : ℕ) : Prop where
  type : (s.folders dir).type = RAMFS_FOLDER_TYPE_DISK_CLEAN
  foderMap : (s.folders dir).foderMap = Table.empty
  fileMap : (s.folders dir).fileMap = Table.empty
  mount : (s.folders dir).mount = some m

/-- The bytes from which a folder of the mount `m` is loaded. -/
def recordBytes (s : Fs) (dir : Ptr) (m : ℕ) : ByteMemory := fun i =>
  s.disk.store.bytes (s.mountTable m).part (toU32 (s.folders dir).driveAddr + i)

/-- The record from which a folder of the mount `m` is loaded. -/
def recordOf (s : Fs) (dir : Ptr) (m : ℕ) : DiskFolder := DiskFolder.decode (recordBytes s dir m)

/-- The record can be read. -/
def RecordReadable (s : Fs) (dir : Ptr) (m : ℕ) : Prop :=
  s.disk.store.Accepts (s.mountTable m).part (toU32 (s.folders dir).driveAddr) sizeofDiskFolder

instance (s : Fs) (dir : Ptr) (m : ℕ) : Decidable (RecordReadable s dir m) := by
  unfold RecordReadable
  infer_instance

/-- The state after the record was read. -/
def afterRead (s : Fs) (dir : Ptr) (m : ℕ) : Fs :=
  s.setStore (s.disk.store.read (s.mountTable m).part (toU32 (s.folders dir).driveAddr)
    sizeofDiskFolder).2

/-- The load, once the record was read and found in use. -/
theorem dfsLoadFolderChildren_eq {m : ℕ} (h : Unloaded s dir m) (hread : RecordReadable s dir m)
    (hused : (recordOf s dir m).used ≠ 0) :
    dfsLoadFolderChildren s dir =
      if (loadSubfolders true (some m) (some dir) dir (recordOf s dir m).subfolders
        (afterRead s dir m)).1 = false then
        (-5, (loadSubfolders true (some m) (some dir) dir (recordOf s dir m).subfolders
          (afterRead s dir m)).2)
      else (0, loadFiles true dir (recordOf s dir m).files
        (loadSubfolders true (some m) (some dir) dir (recordOf s dir m).subfolders
          (afterRead s dir m)).2) := by
  have hb : (s.disk.store.read (s.mountTable m).part (toU32 (s.folders dir).driveAddr)
      sizeofDiskFolder).1 = some (recordBytes s dir m) := if_pos hread
  rw [dfsLoadFolderChildren]
  dsimp only
  rw [if_neg (not_not.2 h.type), if_neg (by rw [h.foderMap, h.fileMap]; simp [Table.empty]), h.mount]
  dsimp only
  rw [hb]
  dsimp only
  rw [if_neg (show (DiskFolder.decode (recordBytes s dir m)).used ≠ 0 from hused)]
  rfl

/-- **A complete load.** -/
theorem dfsLoadFolderChildren_spec {m : ℕ} (h : Unloaded s dir m) (hdir : dir < s.mem.next)
    (hread : RecordReadable s dir m) (hused : (recordOf s dir m).used ≠ 0)
    (hr : (recordOf s dir m).Loadable) (hgrants : s.mem.Grants (recordOf s dir m).allocations) :
    (dfsLoadFolderChildren s dir).1 = 0 ∧ RecordLoaded (some m) (some dir) dir (recordOf s dir m)
      (afterRead s dir m) (dfsLoadFolderChildren s dir).2 := by
  obtain ⟨hok, hloaded⟩ := loadRecord_spec (some m) (some dir)
    (s := afterRead s dir m) true hdir hr h.foderMap h.fileMap hgrants
  rw [dfsLoadFolderChildren_eq h hread hused, if_neg (by simp [hok])]
  exact ⟨rfl, hloaded⟩

/-- The header that `dfs_load_folder_from_disk` gives the folder, with empty tables. -/
def resetFolder (r : DiskFolder) (off : ℕ) (f : RamfsFoder) : RamfsFoder :=
  { f with
    name := r.name
    type := RAMFS_FOLDER_TYPE_DISK_CLEAN
    driveAddr := off
    isMountRoot := false
    foderMap := ramfsHashmapInit
    fileMap := ramfsFileHashmapInit }

/-- The state in which `dfs_load_folder_from_disk` starts to enter the record. -/
def resetState (s : Fs) (dir : Ptr) (id : PartId) (off : ℕ) (r : DiskFolder) : Fs :=
  (s.setStore (s.disk.store.read id off sizeofDiskFolder).2).modifyFolder dir (resetFolder r off)

/-- The load of a root, once the record was read and found in use. -/
theorem dfsLoadFolderFromDisk_eq {id : PartId} {off : ℕ} {b : ByteMemory}
    (hb : (s.disk.store.read id off sizeofDiskFolder).1 = some b)
    (hused : (DiskFolder.decode b).used ≠ 0) :
    dfsLoadFolderFromDisk s dir id off =
      if (loadSubfolders false none none dir (DiskFolder.decode b).subfolders
        (resetState s dir id off (DiskFolder.decode b))).1 = false then
        (-3, (loadSubfolders false none none dir (DiskFolder.decode b).subfolders
          (resetState s dir id off (DiskFolder.decode b))).2)
      else (0, loadFiles false dir (DiskFolder.decode b).files
        (loadSubfolders false none none dir (DiskFolder.decode b).subfolders
          (resetState s dir id off (DiskFolder.decode b))).2) := by
  rw [dfsLoadFolderFromDisk]
  dsimp only
  rw [hb]
  dsimp only
  rw [if_neg hused]
  rfl

end Records

end LittleLinux
