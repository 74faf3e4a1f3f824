import LittleLinux.Dfs.Calls
import LittleLinux.Dfs.TreeMount

/-!
# Properties that every table keeps

A property of folder tables and one of file tables that hold of the empty table, and that no
operation on a table destroys, hold of all tables of all folders in every state that a run of
calls reaches: `TableLaws.run` is that induction, over every call and every error exit, once for
all. The counters of the tables are its first use.
-/

namespace LittleLinux

open ChainTable

/-- Properties of the two tables of a folder that the operations on tables keep. -/
structure TableLaws (P : RamfsHashmap → Prop) (Q : RamfsFileHashmap → Prop) : Prop where
  foderEmpty : P Table.empty
  foderInsert : ∀ mem map key info, P map → P (ramfsHashmapInsert mem map key info).2.1
  foderDelete : ∀ mem map key, P map → P (ramfsHashmapDelete mem map key).2.1
  fileEmpty : Q Table.empty
  fileInsert : ∀ mem map key finfo, Q map → Q (ramfsFileHashmapInsert mem map key finfo).2.1
  fileDelete : ∀ mem map key, Q map → Q (ramfsFileHashmapDelete mem map key).2.1
  fileModify : ∀ map key g, Q map → Q (ramfsFileHashmapModify map key g)
  fileVisit : ∀ (f : Disk → RamfsFileInfo → RamfsFileInfo × Disk) map d, Q map →
    Q (map.mapAccum f d).1

/-- All tables have their property. -/
def AllTables (P : RamfsHashmap → Prop) (Q : RamfsFileHashmap → Prop) (s : Fs) : Prop :=
  ∀ p, P (s.folders p).foderMap ∧ Q (s.folders p).fileMap

namespace AllTables

variable {P : RamfsHashmap → Prop} {Q : RamfsFileHashmap → Prop} {s s' : Fs} {dir : Ptr}

/-- The folders are the same. -/
theorem of_folders (h : AllTables P Q s) (heq : s'.folders = s.folders) : AllTables P Q s' := by
  intro p
  rw [heq]
  exact h p

theorem setMem (h : AllTables P Q s) (mem : Memory) : AllTables P Q (s.setMem mem) := h

theorem setStore (h : AllTables P Q s) (st : Store) : AllTables P Q (s.setStore st) := h

theorem setFolder (h : AllTables P Q s) {f : RamfsFoder} (hfoder : P f.foderMap) (hfile : Q f.fileMap) :
    AllTables P Q (s.setFolder dir f) := by
  intro p
  rcases eq_or_ne p dir with rfl | hne
  · rw [Fs.setFolder_self]
    exact ⟨hfoder, hfile⟩
  · rw [Fs.setFolder_of_ne s f hne]
    exact h p

theorem modifyFolder (h : AllTables P Q s) {g : RamfsFoder → RamfsFoder}
    (hfoder : P (g (s.folders dir)).foderMap) (hfile : Q (g (s.folders dir)).fileMap) :
    AllTables P Q (s.modifyFolder dir g) :=
  h.setFolder hfoder hfile

/-- A change outside the tables. -/
theorem of_tags (h : AllTables P Q s) {g : RamfsFoder → RamfsFoder}
    (hfoder : ∀ f, (g f).foderMap = f.foderMap) (hfile : ∀ f, (g f).fileMap = f.fileMap) :
    AllTables P Q (s.modifyFolder dir g) := by
  refine h.modifyFolder ?_ ?_
  · rw [hfoder]
    exact (h dir).1
  · rw [hfile]
    exact (h dir).2

theorem of_onlyMem (h : AllTables P Q s) (hmem : OnlyMem s s') : AllTables P Q s' := by
  obtain ⟨mem, -, rfl⟩ := hmem
  exact h

/-- The file table of `dir` is replaced. -/
theorem putFiles (h : AllTables P Q s) {map : RamfsFileHashmap} (hmap : Q map) (mem : Memory) :
    AllTables P Q (putFiles s dir map mem) := by
  refine (h.modifyFolder ?_ ?_).setMem mem
  · rw [markDirty_foderMap]
    exact (h dir).1
  · rw [markDirty_fileMap]
    exact hmap

variable (dir) in
theorem claimSlot (h : AllTables P Q s) (id : PartId) :
    AllTables P Q (claimSlot s dir id).2 ∧ ∀ t, (claimSlot s dir id).1 = some t → AllTables P Q t := by
  rw [LittleLinux.claimSlot]
  dsimp only
  split_ifs
  · exact ⟨h.of_folders rfl, fun t ht => absurd ht (by simp)⟩
  · refine ⟨h.of_folders rfl, fun t ht => ?_⟩
    obtain rfl := Option.some.inj ht
    exact (h.setStore _).of_tags (fun _ => rfl) fun _ => rfl
  · refine ⟨h, fun t ht => ?_⟩
    obtain rfl := Option.some.inj ht
    exact h

end AllTables

namespace TableLaws

variable {P : RamfsHashmap → Prop} {Q : RamfsFileHashmap → Prop} (laws : TableLaws P Q)
  {s : Fs} {dir : Ptr}

include laws

/-! ### Loading -/

theorem addSubfolder (h : AllTables P Q s) {sub : Ptr} {node : RamfsFoder} (info : RamfsFoderInfo)
    (hfoder : node.foderMap = Table.empty) (hfile : node.fileMap = Table.empty) :
    AllTables P Q (addSubfolder s dir sub node info) := by
  have hnode : AllTables P Q (s.setFolder sub node) :=
    h.setFolder (hfoder ▸ laws.foderEmpty) (hfile ▸ laws.fileEmpty)
  refine (hnode.modifyFolder ?_ (hnode dir).2).setMem _
  exact laws.foderInsert _ _ _ _ (hnode dir).1

theorem loadSubfolders (h : AllTables P Q s) (known : Bool) (mount : Option ℕ) (parent : Option Ptr)
    (es : List DiskFoderInfo) : AllTables P Q (loadSubfolders known mount parent dir es s).2 := by
  induction es generalizing s with
  | nil => exact h
  | cons e es ih =>
    rw [LittleLinux.loadSubfolders]
    split_ifs
    · exact ih h
    · dsimp only
      cases (s.mem.malloc sizeofRamfsFoder).1 with
      | none => exact h.setMem _
      | some sub => exact ih (laws.addSubfolder (h.setMem _) _ rfl rfl)

theorem addFile (h : AllTables P Q s) (finfo : RamfsFileInfo) : AllTables P Q (addFile s dir finfo) := by
  rw [LittleLinux.addFile]
  refine (h.modifyFolder (h dir).1 ?_).setMem _
  exact laws.fileInsert _ _ _ _ (h dir).2

theorem loadFiles (h : AllTables P Q s) (known : Bool) (es : List DiskFileInfo) :
    AllTables P Q (loadFiles known dir es s) := by
  induction es generalizing s with
  | nil => exact h
  | cons e es ih =>
    rw [LittleLinux.loadFiles]
    split_ifs
    · exact ih h
    · exact ih (laws.addFile h _)

theorem dfsLoadFolderChildren (h : AllTables P Q s) :
    AllTables P Q (dfsLoadFolderChildren s dir).2 := by
  rw [LittleLinux.dfsLoadFolderChildren]
  dsimp only
  split_ifs
  · exact h
  · exact h
  · cases (s.folders dir).mount with
    | none => exact h
    | some m =>
      dsimp only
      cases (s.disk.store.read (s.mountTable m).part (toU32 (s.folders dir).driveAddr)
        sizeofDiskFolder).1 with
      | none => exact h.of_folders rfl
      | some b =>
        have hloop : ∀ es st, AllTables P Q
            (LittleLinux.loadSubfolders true (some m) (some dir) dir es (s.setStore st)).2 :=
          fun es st => laws.loadSubfolders (h.setStore st) true (some m) (some dir) es
        dsimp only
        split_ifs
        · exact h.of_folders rfl
        · exact hloop _ _
        · exact laws.loadFiles (hloop _ _) true _

variable (dir) in
theorem dfsLoadFolderFromDisk (h : AllTables P Q s) (id : PartId) (off : ℕ) :
    AllTables P Q (dfsLoadFolderFromDisk s dir id off).2 := by
  rw [LittleLinux.dfsLoadFolderFromDisk]
  dsimp only
  cases (s.disk.store.read id off sizeofDiskFolder).1 with
  | none => exact h.of_folders rfl
  | some b =>
    have hreset : ∀ st, AllTables P Q ((s.setStore st).modifyFolder dir fun f =>
        { f with
          name := (DiskFolder.decode b).name
          type := RAMFS_FOLDER_TYPE_DISK_CLEAN
          driveAddr := off
          isMountRoot := false
          foderMap := ramfsHashmapInit
          fileMap := ramfsFileHashmapInit }) := fun st =>
      (h.setStore st).modifyFolder laws.foderEmpty laws.fileEmpty
    dsimp only
    split_ifs
    · exact h.of_folders rfl
    · exact laws.loadSubfolders (hreset _) false none none _
    · exact laws.loadFiles (laws.loadSubfolders (hreset _) false none none _) false _

theorem lazyLoadDirectory (h : AllTables P Q s) (dir : Ptr) :
    AllTables P Q (lazyLoadDirectory s dir) := by
  rw [LittleLinux.lazyLoadDirectory]
  split_ifs
  · exact laws.dfsLoadFolderChildren h
  · exact h

/-! ### Calls -/

theorem mkdirIn (h : AllTables P Q s) (name : CString) : AllTables P Q (mkdirIn s dir name).2 := by
  have hu := laws.lazyLoadDirectory h dir
  rcases mkdirIn_cases rfl name with honly | ⟨-, mem, -, heq⟩
  · exact hu.of_onlyMem honly
  rw [heq, enterDir]
  have hnode : AllTables P Q (((LittleLinux.lazyLoadDirectory s dir).setMem mem).setFolder
      (LittleLinux.lazyLoadDirectory s dir).mem.next
      (newDirNode (LittleLinux.lazyLoadDirectory s dir) dir name)) :=
    (hu.setMem mem).setFolder laws.foderEmpty laws.fileEmpty
  split_ifs
  · refine AllTables.setMem (hnode.modifyFolder ?_ ?_) _
    · rw [markDirty_foderMap]
      exact laws.foderInsert _ _ _ _ (hnode dir).1
    · rw [markDirty_fileMap]
      exact (hnode dir).2
  · exact hnode.setMem _

theorem rmdirIn (h : AllTables P Q s) (name : CString) : AllTables P Q (rmdirIn s dir name).2 := by
  have hu := laws.lazyLoadDirectory h dir
  rw [LittleLinux.rmdirIn]
  dsimp only
  generalize LittleLinux.lazyLoadDirectory s dir = u at hu
  cases ramfsHashmapFind (u.folders dir).foderMap name with
  | none => exact hu
  | some info =>
    dsimp only
    split_ifs
    · exact hu
    refine AllTables.of_tags (g := markDirty) ?_ markDirty_foderMap markDirty_fileMap
    have hdelete : AllTables P Q (u.modifyFolder dir (·.setFoderMap
        (ramfsHashmapDelete u.mem (u.folders dir).foderMap name).2.1)) :=
      hu.modifyFolder (laws.foderDelete u.mem _ _ (hu dir).1) (hu dir).2
    refine AllTables.setMem ?_ _
    exact (hdelete.setMem _).modifyFolder laws.foderEmpty laws.fileEmpty

theorem touchIn (h : AllTables P Q s) (name : CString) : AllTables P Q (touchIn s dir name).2 := by
  have hu := laws.lazyLoadDirectory h dir
  rw [LittleLinux.touchIn]
  dsimp only
  generalize LittleLinux.lazyLoadDirectory s dir = u at hu
  generalize (if (u.folders dir).mount = none then RAMFS_TYPE_MEM else RAMFS_TYPE_NEW) = type
  split_ifs
  · exact hu
  · exact hu
  · exact hu.putFiles (laws.fileInsert _ _ _ _ (hu dir).2) _
  · exact hu.of_folders rfl

theorem rmIn (h : AllTables P Q s) (name : CString) : AllTables P Q (rmIn s dir name).2 := by
  have hu := laws.lazyLoadDirectory h dir
  rw [LittleLinux.rmIn]
  dsimp only
  generalize LittleLinux.lazyLoadDirectory s dir = u at hu
  cases ramfsFileHashmapFind (u.folders dir).fileMap name with
  | none => exact hu
  | some info =>
    dsimp only
    split_ifs
    · exact hu.putFiles (laws.fileDelete _ _ _ (hu dir).2) _
    · exact hu.of_folders rfl

theorem storesFile (h : AllTables P Q s) {name : CString} {t : Fs} (ht : StoresFile s dir name t) :
    AllTables P Q t := by
  obtain ⟨data, length, mem, -, -, -, -, rfl⟩ := ht
  exact h.putFiles (laws.fileModify _ _ _ (h dir).2) mem

theorem loadData (h : AllTables P Q s) (name : CString) (info : RamfsFileInfo) :
    AllTables P Q (loadData s dir name info).2 := by
  rw [LittleLinux.loadData]
  cases (s.folders dir).mount with
  | none => exact h
  | some m =>
    refine AllTables.setStore (AllTables.setMem (h.modifyFolder (h dir).1 ?_) _) _
    exact laws.fileModify _ _ _ (h dir).2

theorem writeIn (h : AllTables P Q s) (name : CString) (data : Data) :
    AllTables P Q (writeIn s dir name data).2 := by
  have hu := laws.lazyLoadDirectory h dir
  rcases writeIn_cases rfl name data with honly | ⟨-, hstores⟩
  · exact hu.of_onlyMem honly
  · exact laws.storesFile hu hstores

theorem catIn (h : AllTables P Q s) (name : CString) : AllTables P Q (catIn s dir name).2 := by
  have hu := laws.lazyLoadDirectory h dir
  rcases catIn_cases rfl name with heq | ⟨info, text, -, heq⟩
  · rw [heq]
    exact hu
  · rw [heq]
    exact (laws.loadData hu name info).of_folders rfl

theorem backspaceIn (h : AllTables P Q s) (name : CString) (count : ℤ) :
    AllTables P Q (backspaceIn s dir name count).2 := by
  have hu := laws.lazyLoadDirectory h dir
  rcases backspaceIn_cases rfl name count with heq | ⟨info, -, honly | ⟨-, hstores⟩⟩
  · rw [heq]
    exact hu
  · exact (laws.loadData hu name info).of_onlyMem honly
  · exact laws.storesFile (laws.loadData hu name info) hstores

/-! ### Synchronisation and mounts -/

variable (dir) in
theorem syncFiles (h : AllTables P Q s) (id : PartId) : AllTables P Q (syncFiles s dir id) := by
  rw [LittleLinux.syncFiles]
  refine AllTables.of_folders (s := s.modifyFolder dir (·.setFileMap _)) ?_ rfl
  exact h.modifyFolder (h dir).1 (laws.fileVisit _ _ s.disk (h dir).2)

theorem syncFolder (h : AllTables P Q s) (fuel : ℕ) (p : Ptr) : AllTables P Q (syncFolder fuel s p).2 := by
  refine syncFolder_preserves (P := AllTables P Q) (Q := fun _ => True) (fun _ _ _ _ _ => trivial)
    ?_ ?_ ?_ ?_ fuel p h
  · exact fun t q id ht _ => (ht.claimSlot q id).1
  · exact fun t q id u ht _ hu => (ht.claimSlot q id).2 u hu
  · exact fun t q id ht _ => laws.syncFiles q ht id
  · intro t q id ht _
    rw [writeBack]
    split_ifs
    · exact (ht.setStore _).of_tags (fun _ => rfl) fun _ => rfl
    · exact ht.setStore _

theorem dfsSyncFolder (h : AllTables P Q s) (p : Ptr) : AllTables P Q (dfsSyncFolder s p).2 :=
  laws.syncFolder h _ p

theorem dfsSyncAll (h : AllTables P Q s) : AllTables P Q (dfsSyncAll s) := by
  rw [LittleLinux.dfsSyncAll]
  generalize List.range s.mountCount = is
  induction is generalizing s with
  | nil => exact h
  | cons i is ih => exact ih (laws.dfsSyncFolder h _)

theorem dfsMount (h : AllTables P Q s) (path : CString) (id : PartId) :
    AllTables P Q (dfsMount s path id).2 := by
  obtain ⟨st, mem, -, -, -, heq⟩ | ⟨dir, sb, st, -, -, -, -, -, hcase⟩ := dfsMount_cases s path id
  · rw [heq]
    exact h.of_folders rfl
  have hnew : AllTables P Q (newRoot s st) :=
    ((h.setStore st).setMem _).setFolder laws.foderEmpty laws.fileEmpty
  have hload := laws.dfsLoadFolderFromDisk s.mem.next hnew id sb.rootPointer
  generalize LittleLinux.dfsLoadFolderFromDisk (newRoot s st) s.mem.next id sb.rootPointer = l
    at hload hcase
  obtain heq | ⟨-, heq⟩ := hcase
  · rw [heq]
    exact hload.of_folders rfl
  have hmark : AllTables P Q (markRoot l.2 s.mem.next l.2.mountCount) :=
    hload.of_tags (fun _ => rfl) fun _ => rfl
  rw [heq]
  generalize markRoot l.2 s.mem.next l.2.mountCount = m at hmark
  obtain ⟨ins, hins, ⟨-, hattach⟩ | ⟨-, hattach⟩⟩ :=
    attachRoot_cases m dir s.mem.next path id (toI32 sb.rootPointer)
  · rw [hattach]
    exact hmark.of_folders rfl
  · rw [hattach, hins]
    refine AllTables.of_folders (s := m.modifyFolder dir (·.setFoderMap _)) ?_ rfl
    exact hmark.modifyFolder (laws.foderInsert _ _ _ _ (hmark dir).1) (hmark dir).2

theorem freeFolderTree (h : AllTables P Q s) (fuel : ℕ) (p : Ptr) :
    AllTables P Q (freeFolderTree fuel s p) := by
  induction fuel generalizing s p with
  | zero => exact h
  | succ fuel ih =>
    rw [LittleLinux.freeFolderTree]
    have hchild : ∀ (nodes : List (Node CString RamfsFoderInfo)) (v : Fs), AllTables P Q v →
        AllTables P Q (nodes.foldl (fun s nd => LittleLinux.freeFolderTree fuel s nd.value.ptr) v) := by
      intro nodes
      induction nodes with
      | nil => exact fun v hv => hv
      | cons nd nodes ihn => exact fun v hv => ihn _ (ih hv _)
    exact AllTables.setMem ((hchild _ s h).modifyFolder laws.foderEmpty laws.fileEmpty) _

theorem dfsUmount (h : AllTables P Q s) (path : CString) : AllTables P Q (dfsUmount s path).2 := by
  rw [LittleLinux.dfsUmount]
  cases (List.range s.mountCount).find? fun i => streq (s.mountTable i).path path with
  | none => exact h
  | some idx =>
    have hsync := laws.dfsSyncFolder h (s.mountTable idx).rootDir
    dsimp only
    generalize (LittleLinux.dfsSyncFolder s (s.mountTable idx).rootDir).2 = t at hsync
    have hdelete : AllTables P Q (umountDelete t (s.mountTable idx)) := by
      rw [umountDelete]
      cases ramfsGetDirByAbsPath t (umountParent (s.mountTable idx).path).1 with
      | none => exact hsync
      | some dir =>
        refine AllTables.setMem (hsync.modifyFolder ?_ (hsync dir).2) _
        exact laws.foderDelete t.mem _ _ (hsync dir).1
    exact (laws.freeFolderTree hdelete _ _).of_folders rfl

/-- **One step.** -/
theorem step (h : AllTables P Q s) (op : FsOp) : AllTables P Q (fsStep s op) := by
  obtain ⟨r, hcase, hstep⟩ := fsStep_cases s op
  rw [hstep]
  cases hcase with
  | refused => exact h
  | mkdir => exact laws.mkdirIn h _
  | cd => exact h.of_folders rfl
  | rm => exact laws.rmIn h _
  | rmdir => exact laws.rmdirIn h _
  | touch => exact laws.touchIn h _
  | write => exact laws.writeIn h _ _
  | cat => exact laws.catIn h _
  | backspace => exact laws.backspaceIn h _ _
  | syncFolder p => exact laws.dfsSyncFolder h p
  | syncAll => exact laws.dfsSyncAll h
  | mount path id => exact laws.dfsMount h path id
  | umount path => exact laws.dfsUmount h path

theorem init (mem : Memory) (store : Store) : AllTables P Q (initState mem store) := by
  intro p
  rcases eq_or_ne p rootPtr with rfl | hne
  · exact ⟨laws.foderEmpty, laws.fileEmpty⟩
  · rw [initState_folder mem store hne]
    exact ⟨laws.foderEmpty, laws.fileEmpty⟩

/-- **The rule for tables.** -/
theorem run (mem : Memory) (store : Store) (ops : List FsOp) :
    AllTables P Q (ops.foldl fsStep (initState mem store)) :=
  Along.invariant (I := AllTables P Q) (C := fun _ _ => True) (fun _ op hs _ => laws.step hs op)
    (laws.init mem store) (Along.of_forall (fun _ _ => trivial) _ _)

end TableLaws

/-! ### Counters -/

section Counters

variable {V : Type} (T : NamedTable V) {map : Table BUCKETS CString V}

theorem Counted.insert (hc : Counted map) (mem : Memory) (key : CString) (v : V) :
    Counted (T.insert mem map key v).2.1 := by
  rw [NamedTable.insert]
  dsimp only
  generalize (if (T.find map key).isSome = true then (none, mem) else mem.malloc T.nodeSize).1 = m
  obtain ⟨nd, rest, -, hold, hnew, hcount⟩ | ⟨a, -, -, hnew, hcount⟩ | ⟨-, -, heq⟩ :=
    nodes_insert_cases T.streq djb2Bucket map key (strcpy127 key) (T.setName (strcpy127 key) v) m
  · rw [Counted, hcount, hc, hnew.length_eq, hold.length_eq, List.length_cons, List.length_cons]
  · exact Adds.counted ⟨a, hnew, hcount⟩ hc
  · rw [heq]
    exact hc

theorem Counted.delete (hc : Counted map) (mem : Memory) (key : CString) :
    Counted (T.delete mem map key).2.1 := by
  cases hfind : T.find map key with
  | some v => exact (T.delete_of_find mem hfind).2.counted hc
  | none =>
    have hnode : findNode T.streq djb2Bucket map key = none := by
      rwa [NamedTable.find, ChainTable.find, Option.map_eq_none_iff] at hfind
    rw [NamedTable.delete, delete_of_none hnode]
    exact hc

end Counters

/-- The operations keep the counters right. -/
theorem countedLaws : TableLaws Counted Counted where
  foderEmpty := counted_empty
  foderInsert := fun mem _ key info hc => hc.insert foderTable mem key info
  foderDelete := fun mem _ key hc => hc.delete foderTable mem key
  fileEmpty := counted_empty
  fileInsert := fun mem _ key finfo hc => hc.insert fileTable mem key finfo
  fileDelete := fun mem _ key hc => hc.delete fileTable mem key
  fileModify := fun _ key g hc => hc.modify fileTable key g
  fileVisit := fun f map d hc => by
    rw [Counted, count_mapAccum, hc, ← length_nodes_mapAccum map f d]

end LittleLinux
