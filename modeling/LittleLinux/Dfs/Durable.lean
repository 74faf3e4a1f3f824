import LittleLinux.Dfs.Addresses
import LittleLinux.Dfs.Remount
import Mathlib.Data.Multiset.MapFold

/-!
# What survives an unmount

A tree is seen through the loaders: the files of a folder with their lengths and bytes, and the folders
that chains of names lead to (`contentsAt`). Of a tree that was made in a freshly formatted and mounted
partition, only the entries of the root come to the disk, without the data of its files. The next
mount finds the files of the root, with address 0, and the folders of the root, empty. So the tree
is the same as before exactly when there was no more to it, as `Survives` says, or there was nothing.
-/

namespace LittleLinux

open ChainTable

/-! ### What is seen of a tree -/

/-- A file as it is seen: its bytes, unless they cannot be loaded. -/
structure FileView where
  name : CString
  length : ℤ
  bytes : Option (List UInt8)
deriving DecidableEq

/-- The bytes of a file, read through `dfs_load_file_data` if its folder belongs to a mount. -/
def fileData (s : Fs) (p : Ptr) (info : RamfsFileInfo) : Option (List UInt8) :=
  match (s.folders p).mount with
  | none => some (fileBytes info)
  | some m =>
    let l := dfsLoadFileData s.mem s.disk.store info (s.mountTable m).part
    if l.1 = 0 then some (fileBytes l.2.1) else none

/-- The files of a folder. -/
def fileViews (s : Fs) (p : Ptr) : Multiset FileView :=
  ((s.folders p).fileMap.nodes.map fun nd => ⟨nd.key, nd.value.length, fileData s p nd.value⟩ :
    List FileView)

/-- The state in which the children of a folder are loaded. -/
def loadedAt (s : Fs) (p : Ptr) : Fs := (dfsLoadFolderChildren s p).2

/-- The files of the folder that a chain of names leads to from the folder `p`. -/
def contentsAt : List CString → Fs → Ptr → Option (Multiset FileView)
  | [], s, p => some (fileViews (loadedAt s p) p)
  | name :: names, s, p =>
    (ramfsHashmapFind ((loadedAt s p).folders p).foderMap name).bind fun info =>
      contentsAt names (loadedAt s p) info.ptr

/-- The same folders are below `q` as below `p`, at every depth, with the same files. -/
def SameTree (s : Fs) (p : Ptr) (t : Fs) (q : Ptr) : Prop :=
  ∀ names, contentsAt names s p = contentsAt names t q

/-- What is seen of a folder without children. -/
def nothingAt (names : List CString) : Option (Multiset FileView) :=
  if names = [] then some 0 else none

section Views

variable {s : Fs} {p : Ptr} {m : ℕ}

theorem loadedAt_eq (s : Fs) (p : Ptr) : loadedAt s p = lazyLoadDirectory s p := by
  by_cases hload : NotLoaded (s.folders p)
  · exact (lazyLoadDirectory_of_notLoaded hload).symm
  rw [lazyLoadDirectory_of_loaded hload, loadedAt, dfsLoadFolderChildren]
  dsimp only
  split_ifs with hclean hcount
  · rfl
  · rfl
  · rw [not_or, not_not, not_not] at hcount
    exact absurd ⟨not_not.1 hclean, hcount⟩ hload

/-- A folder without a mount is not loaded. -/
theorem loadedAt_of_no_mount (hmount : (s.folders p).mount = none) : loadedAt s p = s := by
  rw [loadedAt, dfsLoadFolderChildren]
  dsimp only
  rw [hmount]
  split_ifs <;> rfl

theorem ramfsHashmapFind_of_nil {map : RamfsHashmap} (h : map.nodes = []) (name : CString) :
    ramfsHashmapFind map name = none := by
  refine Option.eq_none_iff_forall_ne_some.2 fun info hfind => ?_
  obtain ⟨nd, hnd, -⟩ := foderTable.exists_of_find hfind
  rw [h] at hnd
  exact absurd hnd List.not_mem_nil

/-- Where there is nothing once it is loaded, nothing is seen. -/
theorem contentsAt_of_nil (hfoders : ((loadedAt s p).folders p).foderMap.nodes = [])
    (hfiles : ((loadedAt s p).folders p).fileMap.nodes = []) (names : List CString) :
    contentsAt names s p = nothingAt names := by
  cases names with
  | nil => rw [contentsAt, fileViews, hfiles, nothingAt, if_pos rfl, List.map_nil, Multiset.coe_nil]
  | cons name names =>
    rw [contentsAt, ramfsHashmapFind_of_nil hfoders, nothingAt, if_neg (List.cons_ne_nil _ _)]
    rfl

/-- A file whose data is in memory is seen as it is. -/
theorem fileData_of_loaded {info : RamfsFileInfo} (h : info.ptr ≠ none ∨ info.length = 0) :
    fileData s p info = some (fileBytes info) := by
  rw [fileData]
  cases (s.folders p).mount with
  | none => rfl
  | some m =>
    dsimp only
    rw [dfsLoadFileData, if_pos h, if_pos rfl]

/-- The first bytes of a partition, as far as `dfs_load_file_data` reads them. -/
def firstBytes (m : ByteMemory) (size : ℕ) (length : ℤ) : Option (List UInt8) :=
  if length < 2 ^ 31 ∧ length ≤ size then some (bytesFrom m 0 length) else none

/-- A file without an address is read from the start of the partition. -/
theorem fileData_of_no_address {e : DiskFileInfo} (haddr : e.driveAddr = 0) (hnonneg : 0 ≤ e.length)
    (hlt : e.length < 2 ^ 32) (hmount : (s.folders p).mount = some m) (hmem : s.mem.Unfailing)
    (hst : s.disk.store.Reliable) :
    fileData s p (loadedFile e) = firstBytes (s.disk.store.bytes (s.mountTable m).part)
      (s.disk.store.size (s.mountTable m).part) e.length := by
  rcases hnonneg.eq_or_lt with hzero | hpos
  · rw [fileData_of_loaded (Or.inr hzero.symm), firstBytes, ← hzero, if_pos (by omega)]
    rfl
  rw [fileData, hmount]
  dsimp only
  have hzero : toU64 (loadedFile e).driveAddr = 0 := by
    change toU64 e.driveAddr = 0
    rw [haddr]
    rfl
  by_cases hint : e.length < 2 ^ 31
  swap
  · -- the length is no positive `int`
    have hneg : ¬0 < toI32 e.length := fun h => hint ((toI32_pos_iff hpos hlt).1 h)
    have hnone : ∀ off, (s.disk.store.read (s.mountTable m).part off (toI32 e.length)).1 = none :=
      fun off => if_neg fun haccepts => hneg haccepts.2.1
    have hcode : (dfsLoadFileData s.mem s.disk.store (loadedFile e) (s.mountTable m).part).1 ≠ 0 := by
      rw [dfsLoadFileData, if_neg (by simp [loadedFile, hpos.ne'])]
      dsimp only [loadedFile]
      rw [hnone]
      cases (s.mem.malloc (toU32 e.length)).1 with
      | none => simp
      | some a => simp
    rw [if_neg hcode, firstBytes, if_neg fun h => hint h.1]
  have hmissing : Missing (loadedFile e) := ⟨rfl, hpos, hint⟩
  by_cases hin : e.length ≤ s.disk.store.size (s.mountTable m).part
  · have hin' : toU64 (loadedFile e).driveAddr + (loadedFile e).length ≤
        s.disk.store.size (s.mountTable m).part := by
      rw [hzero, Nat.cast_zero, zero_add]
      exact hin
    obtain ⟨hok, hptr⟩ := hmissing.dfsLoadFileData_eq hmem hst hin'
    obtain ⟨data, heq⟩ := dfsLoadFileData_fst s.mem s.disk.store (loadedFile e) (s.mountTable m).part
    rw [heq] at hptr
    rw [if_pos hok, heq, firstBytes, if_pos ⟨hint, hin⟩, fileBytes]
    dsimp only at hptr ⊢
    rw [hptr, hzero]
    exact congrArg some (List.take_of_length_le (by simp [bytesFrom, loadedFile]))
  · have hcode := hmissing.dfsLoadFileData_refused hmem s.disk.store (s.mountTable m).part (by
      rw [hzero, Nat.cast_zero, zero_add]
      exact not_le.1 hin)
    rw [hcode, if_neg (by norm_num), firstBytes, if_neg fun h => hin h.2]

end Views

/-! ### The tree before the unmount -/

section Grown

variable {s b : Fs} {m : ℕ} {root p : Ptr} {S : Set Ptr}

/-- A file as it is in memory. -/
def memoryView (nd : Node CString RamfsFileInfo) : FileView :=
  ⟨nd.key, nd.value.length, some (fileBytes nd.value)⟩

/-- Loading changes nothing but the number of requests. -/
theorem GrownTree.loadedAt_eq (h : GrownTree b m root S s)
    (hrecord : recordAt b.disk.store (b.mountTable m).part sizeofSuperblock = rootRecord) (hp : p ∈ S) :
    ∃ st, SameBytes s.disk.store st ∧ loadedAt s p = s.setStore st := by
  rw [LittleLinux.loadedAt_eq]
  exact h.lazyLoad hrecord hp

/-- The files are seen as they are in memory. -/
theorem GrownTree.fileViews_eq (h : GrownTree b m root S s)
    (hrecord : recordAt b.disk.store (b.mountTable m).part sizeofSuperblock = rootRecord) (hp : p ∈ S) :
    fileViews (loadedAt s p) p = ((s.folders p).fileMap.nodes.map memoryView : List FileView) := by
  obtain ⟨st, -, heq⟩ := h.loadedAt_eq hrecord hp
  rw [heq, fileViews, Fs.setStore_folders]
  refine congrArg _ (List.map_congr_left fun nd hnd => ?_)
  have hloaded : nd.value.ptr ≠ none ∨ nd.value.length = 0 :=
    or_iff_not_imp_left.2 fun hnone => ((h.folder p hp).file nd hnd).data (not_not.1 hnone)
  rw [memoryView, fileData_of_loaded hloaded]

/-- Each subfolder is found under its name. -/
theorem GrownTree.find_foder (h : GrownTree b m root S s) (hp : p ∈ S) {nd : Node CString RamfsFoderInfo}
    (hnd : nd ∈ (s.folders p).foderMap.nodes) :
    ramfsHashmapFind (s.folders p).foderMap nd.key = some nd.value := by
  rw [ramfsHashmapFind_eq_lookup]
  exact (lookup_eq_some_iff (h.folder p hp).foders).2 ⟨nd, hnd, rfl, rfl⟩

/-- A folder in which nothing is seen has no children. -/
theorem GrownTree.nil_of_contentsAt (h : GrownTree b m root S s)
    (hrecord : recordAt b.disk.store (b.mountTable m).part sizeofSuperblock = rootRecord) (hp : p ∈ S)
    (hnothing : ∀ names, contentsAt names s p = nothingAt names) :
    (s.folders p).foderMap.nodes = [] ∧ (s.folders p).fileMap.nodes = [] := by
  obtain ⟨st, -, heq⟩ := h.loadedAt_eq hrecord hp
  constructor
  · refine List.eq_nil_iff_forall_not_mem.2 fun nd hnd => ?_
    have hsome := hnothing [nd.key]
    rw [contentsAt, heq, Fs.setStore_folders, h.find_foder hp hnd, nothingAt,
      if_neg (List.cons_ne_nil _ _)] at hsome
    exact absurd hsome (by simp [contentsAt])
  · have hzero := hnothing []
    rw [contentsAt, h.fileViews_eq hrecord hp, nothingAt, if_pos rfl] at hzero
    have hcard := congrArg Multiset.card (Option.some.inj hzero)
    simpa using hcard

/-- In a folder without children nothing is seen. -/
theorem GrownTree.contentsAt_of_nil (h : GrownTree b m root S s)
    (hrecord : recordAt b.disk.store (b.mountTable m).part sizeofSuperblock = rootRecord) (hp : p ∈ S)
    (hfoders : (s.folders p).foderMap.nodes = []) (hfiles : (s.folders p).fileMap.nodes = [])
    (names : List CString) : contentsAt names s p = nothingAt names := by
  obtain ⟨st, -, heq⟩ := h.loadedAt_eq hrecord hp
  refine LittleLinux.contentsAt_of_nil ?_ ?_ names
  · rw [heq]
    exact hfoders
  · rw [heq]
    exact hfiles

end Grown

/-! ### The tree after the next mount -/

section Mounted

variable {t : Fs} {st : Store} {id : PartId} {r : DiskFolder} {q a : Ptr}

/-- In a subfolder of a mounted root nothing is seen. -/
theorem MountedRoot.contentsAt_sub (h : MountedRoot st id r t q a) {i : ℕ} {e : DiskFoderInfo}
    (he : r.subfolders[i]? = some e) (names : List CString) :
    contentsAt names t (a + 2 * i) = nothingAt names := by
  have hsub := h.sub i e he
  have hloaded : loadedAt t (a + 2 * i) = t := loadedAt_of_no_mount (by rw [hsub]; rfl)
  refine contentsAt_of_nil ?_ ?_ names
  · rw [hloaded, hsub]
    exact nodes_empty
  · rw [hloaded, hsub]
    exact nodes_empty

/-- The entry of a subfolder is found under its name, and under no other. -/
theorem MountedRoot.find_foder (h : MountedRoot st id r t q a)
    (hdistinct : r.subfolders.Pairwise fun d e => d.name ≠ e.name) (name : CString) :
    (ramfsHashmapFind (t.folders q).foderMap name = none ∧ ∀ e ∈ r.subfolders, e.name ≠ name) ∨
      ∃ i e info, r.subfolders[i]? = some e ∧ e.name = name ∧ info.ptr = a + 2 * i ∧
        ramfsHashmapFind (t.folders q).foderMap name = some info := by
  rw [h.foderMap]
  by_cases hname : ∀ e ∈ r.subfolders, e.name ≠ name
  · exact Or.inl ⟨find_pushAll_subNodes_of_ne _ _ hname, hname⟩
  · obtain ⟨e, he⟩ := not_forall.1 hname
    obtain ⟨hmem, heq⟩ := Classical.not_imp.1 he
    obtain ⟨i, hi⟩ := List.mem_iff_getElem?.1 hmem
    obtain rfl : e.name = name := not_not.1 heq
    exact Or.inr ⟨i, e, _, hi, rfl, rfl, find_pushAll_subNodes _ _ hdistinct hi⟩

/-- A file as it is on the disk, with address 0. -/
def diskView (m : ByteMemory) (size : ℕ) (e : DiskFileInfo) : FileView :=
  ⟨e.name, e.length, firstBytes m size e.length⟩

/-- The files of a mounted root are seen as they are on the disk. -/
theorem MountedRoot.fileViews_eq (h : MountedRoot st id r t q a) (hapart : FilesApart r.files)
    (hfiles : ∀ e ∈ r.files, e.driveAddr = 0 ∧ 0 ≤ e.length ∧ e.length < 2 ^ 32) :
    fileViews t q = (r.files.map (diskView (st.bytes id) (st.size id)) : List FileView) := by
  obtain ⟨c, hmap⟩ := h.fileMap hapart
  obtain ⟨m, hmount, hpart⟩ := h.mount
  have hview : ∀ e ∈ r.files, (⟨e.name, e.length, fileData t q (loadedFile e)⟩ : FileView) =
      diskView (st.bytes id) (st.size id) e := by
    intro e he
    obtain ⟨haddr, hnonneg, hlt⟩ := hfiles e he
    rw [fileData_of_no_address haddr hnonneg hlt hmount h.unfailing h.reliable, hpart, h.bytes,
      Store.size, h.sectors]
    rfl
  have hnodes : ∀ (es : List DiskFileInfo) (c : ℕ), ((fileNodes c es).map fun nd =>
      (⟨nd.key, nd.value.length, fileData t q nd.value⟩ : FileView)) =
        es.map fun e => ⟨e.name, e.length, fileData t q (loadedFile e)⟩ := by
    intro es
    induction es with
    | nil => exact fun _ => rfl
    | cons e es ih => exact fun c => congrArg (List.cons _) (ih (c + 1))
  have hpushed : (pushAll djb2Bucket Table.empty (fileNodes c r.files)).nodes.Perm (fileNodes c r.files) := by
    refine (nodes_pushAll_perm _ _).trans ?_
    rw [nodes_empty, List.append_nil]
  have hperm := hpushed.map fun nd => (⟨nd.key, nd.value.length, fileData t q nd.value⟩ : FileView)
  rw [hnodes, List.map_congr_left hview] at hperm
  rw [fileViews, hmap]
  exact Multiset.coe_eq_coe.2 hperm

end Mounted

/-! ### The comparison -/

/-- Two lists of images that differ in their order only are the same, where the images have keys, and
the keys are distinct and agree. -/
theorem eq_of_map_perm {α β κ : Type} (key : β → κ) {f g : α → β} {l : List α}
    (hperm : (l.map f).Perm (l.map g)) (hkey : ∀ x ∈ l, key (f x) = key (g x))
    (hnodup : (l.map fun x => key (f x)).Nodup) : ∀ x ∈ l, f x = g x := by
  intro x hx
  obtain ⟨y, hy, hxy⟩ := List.mem_map.1 (hperm.mem_iff.1 (List.mem_map_of_mem (f := f) hx))
  have hsame : key (f x) = key (f y) := by rw [hkey y hy, hxy]
  rw [← List.inj_on_of_nodup_map hnodup hx hy hsame] at hxy
  exact hxy.symm

/-- What of the tree below the root `root` survives if anything was made in it: its subfolders are
empty, no file is taken for a later one, and the bytes of each are the first of the partition, once
the record of the root is written. -/
structure Survives (s : Fs) (root : Ptr) (id : PartId) : Prop where
  first : (s.mountTable 0).part = id
  subfolders : ∀ nd ∈ (s.folders root).foderMap.nodes,
    (s.folders nd.value.ptr).foderMap.nodes = [] ∧ (s.folders nd.value.ptr).fileMap.nodes = []
  apart : FilesApart ((s.folders root).fileMap.nodes.map fileEntry)
  contents : ∀ nd ∈ (s.folders root).fileMap.nodes,
    firstBytes (withRecord (s.disk.store.bytes id) (s.folders root)) (s.disk.store.size id)
      nd.value.length = some (fileBytes nd.value)

/-- There is nothing to survive, or all of it does. -/
def Durable (s : Fs) (root : Ptr) (id : PartId) : Prop :=
  ((s.folders root).foderMap.nodes = [] ∧ (s.folders root).fileMap.nodes = []) ∨ Survives s root id

section Comparison

variable {s b u t : Fs} {m : ℕ} {root q a : Ptr} {S : Set Ptr} {id : PartId}

/-- The state `t` shows the record of the root of `s`, which is not empty. -/
theorem GrownTree.sameTree_saved_iff (h : GrownTree b m root S s)
    (hrecord : recordAt b.disk.store (b.mountTable m).part sizeofSuperblock = rootRecord)
    (hu : Unmounted s u root id) (hsaves : SavesRoot s root id)
    (hfoders : (s.folders root).foderMap.nodes.length ≤ DFS_MAX_SUB_ENTRIES)
    (hfiles : (s.folders root).fileMap.nodes.length ≤ DFS_MAX_SUB_ENTRIES)
    (ht : MountedRoot u.disk.store id (diskRecord (s.folders root)) t q a) (hloaded : loadedAt t q = t) :
    SameTree s root t q ↔ Survives s root id := by
  have hroot := h.folder root h.root_mem
  have hsubs : (diskRecord (s.folders root)).subfolders =
      (s.folders root).foderMap.nodes.map foderEntry := by
    rw [diskRecord_subfolders, List.take_of_length_le hfoders]
  have hentries : (diskRecord (s.folders root)).files = (s.folders root).fileMap.nodes.map fileEntry := by
    rw [diskRecord_files, List.take_of_length_le hfiles]
  have hnew : ∀ e ∈ (diskRecord (s.folders root)).files,
      e.driveAddr = 0 ∧ 0 ≤ e.length ∧ e.length < 2 ^ 32 := by
    intro e he
    rw [hentries] at he
    obtain ⟨nd, hnd, rfl⟩ := List.mem_map.1 he
    exact ⟨(hroot.file nd hnd).driveAddr, (hroot.file nd hnd).nonneg, (hroot.file nd hnd).lt⟩
  -- what is seen of the files, before and after
  obtain ⟨st, hst, heq⟩ := h.loadedAt_eq hrecord h.root_mem
  have hbefore : contentsAt [] s root =
      some (((s.folders root).fileMap.nodes.map memoryView : List FileView) : Multiset FileView) := by
    rw [contentsAt, h.fileViews_eq hrecord h.root_mem]
  have hafter : contentsAt [] t q = some (fileViews t q) := by rw [contentsAt, hloaded]
  have hdisk : FilesApart (diskRecord (s.folders root)).files → fileViews t q =
      ((s.folders root).fileMap.nodes.map fun nd => diskView
        (withRecord (s.disk.store.bytes id) (s.folders root)) (s.disk.store.size id) (fileEntry nd) :
          List FileView) := by
    intro hapart
    rw [ht.fileViews_eq hapart hnew, hu.bytes hsaves, hu.size, hentries, List.map_map]
    rfl
  have hdown : ∀ nd ∈ (s.folders root).foderMap.nodes, ∀ names, contentsAt (nd.key :: names) s root =
      contentsAt names (s.setStore st) nd.value.ptr := by
    intro nd hnd names
    rw [contentsAt, heq, Fs.setStore_folders, h.find_foder h.root_mem hnd]
    rfl
  constructor
  · intro hsame
    have hviews := Option.some.inj (hbefore.symm.trans ((hsame []).trans hafter))
    have hapart : FilesApart (diskRecord (s.folders root)).files := by
      refine ht.lines ?_
      have hnames := congrArg (Multiset.map FileView.name) hviews
      rw [fileViews, Multiset.map_coe, Multiset.map_coe, List.map_map, List.map_map,
        Multiset.coe_eq_coe] at hnames
      have hlines := (hnames.symm.flatMap_right fileLine).length_eq
      rw [List.flatMap_map, List.flatMap_map] at hlines
      rw [hentries, List.flatMap_map, fileLines]
      refine hlines.trans (congrArg List.length (List.flatMap_congr fun nd hnd => ?_))
      exact congrArg fileLine (hroot.fileEntry_name hnd).symm
    rw [hdisk hapart, Multiset.coe_eq_coe] at hviews
    refine ⟨hsaves.2, fun nd hnd => ?_, hentries ▸ hapart, fun nd hnd => ?_⟩
    · have hmem := (hroot.entry nd hnd).mem
      refine (h.setStore hst).nil_of_contentsAt hrecord hmem fun names => ?_
      obtain ⟨-, hnot⟩ | ⟨i, e, info, he, -, hptr, hfind⟩ :=
        ht.find_foder h.validRecord.foders_distinct nd.key
      · refine absurd (hroot.foderEntry_name hnd) (hnot _ ?_)
        rw [hsubs]
        exact List.mem_map_of_mem hnd
      · rw [← hdown nd hnd, hsame, contentsAt, hloaded, hfind, Option.bind_some, hptr]
        exact ht.contentsAt_sub he names
    · have hview := eq_of_map_perm FileView.name hviews
        (fun nd hnd => (hroot.fileEntry_name hnd).symm) hroot.files.keys_nodup nd hnd
      exact (congrArg FileView.bytes hview).symm
  · rintro ⟨-, hempty, hapart, hcontents⟩ names
    cases names with
    | nil =>
      rw [hbefore, hafter, hdisk (hentries ▸ hapart)]
      refine congrArg some (congrArg _ (List.map_congr_left fun nd hnd => ?_))
      rw [memoryView, diskView, hroot.fileEntry_name hnd]
      exact congrArg (FileView.mk nd.key nd.value.length) (hcontents nd hnd).symm
    | cons name names =>
      obtain ⟨hnone, hnot⟩ | ⟨i, e, info, he, rfl, hptr, hfind⟩ :=
        ht.find_foder h.validRecord.foders_distinct name
      · have hnone' : ramfsHashmapFind (s.folders root).foderMap name = none := by
          refine Option.eq_none_iff_forall_ne_some.2 fun info hfind => ?_
          rw [ramfsHashmapFind_eq_lookup, lookup_eq_some_iff hroot.foders] at hfind
          obtain ⟨nd, hnd, hkey, -⟩ := hfind
          refine hnot (foderEntry nd) ?_ ((hroot.foderEntry_name hnd).trans hkey)
          rw [hsubs]
          exact List.mem_map_of_mem hnd
        rw [contentsAt, heq, Fs.setStore_folders, hnone', contentsAt, hloaded, hnone]
        rfl
      · have hmem : e ∈ (s.folders root).foderMap.nodes.map foderEntry := hsubs ▸ List.mem_of_getElem? he
        obtain ⟨nd, hnd, rfl⟩ := List.mem_map.1 hmem
        rw [hroot.foderEntry_name hnd] at hfind ⊢
        rw [hdown nd hnd, contentsAt, hloaded, hfind, Option.bind_some, hptr, ht.contentsAt_sub he]
        exact (h.setStore hst).contentsAt_of_nil hrecord (hroot.entry nd hnd).mem (hempty nd hnd).1
          (hempty nd hnd).2 names

/-- A root that is mounted from a record without entries shows nothing. -/
theorem Healthy.contentsAt_of_empty (hu : Healthy u) (hready : Mountable u.disk.store id)
    (hvalid : ValidRecord (recordAt u.disk.store id sizeofSuperblock))
    (hfoders : (recordAt u.disk.store id sizeofSuperblock).subfolders = [])
    (hfiles : (recordAt u.disk.store id sizeofSuperblock).files = []) {again : CString}
    (hmount : (dfsMount u again id).1 = 0) (names : List CString) :
    contentsAt names (dfsMount u again id).2 u.mem.next = nothingAt names := by
  obtain ⟨-, ht, map, -, hfolder⟩ := hu.mountedRoot hready hvalid hmount
  obtain ⟨-, htable, -⟩ := hu.mount hready hvalid hmount
  have hself : (dfsMount u again id).2.mountTable u.mountCount = ⟨again, id, u.mem.next⟩ := by
    rw [htable, Function.update_self]
  have hmap := ht.foderMap
  obtain ⟨c, hmap'⟩ := ht.fileMap (hfiles ▸ List.Pairwise.nil)
  rw [hfoders] at hmap
  rw [hfiles] at hmap'
  have hrecord : recordAt (dfsMount u again id).2.disk.store id sizeofSuperblock =
      recordAt u.disk.store id sizeofSuperblock := by rw [recordAt, ht.bytes, recordAt]
  have hown : ((dfsMount u again id).2.folders u.mem.next).mount = some u.mountCount := by
    rw [hfolder]
    rfl
  obtain ⟨st, -, heq⟩ := lazyLoadDirectory_of_empty hown (by
    rw [hself, hfolder]
    exact ⟨(congrArg DiskFolder.subfolders hrecord).trans hfoders,
      (congrArg DiskFolder.files hrecord).trans hfiles⟩)
  refine contentsAt_of_nil ?_ ?_ names
  · rw [loadedAt_eq, heq, Fs.setStore_folders, hmap]
    exact nodes_empty
  · rw [loadedAt_eq, heq, Fs.setStore_folders, hmap']
    exact nodes_empty

/-- A root that is mounted from a record with entries is loaded. -/
theorem Healthy.loadedAt_of_entries (hu : Healthy u) (hready : Mountable u.disk.store id)
    (hvalid : ValidRecord (recordAt u.disk.store id sizeofSuperblock))
    (hentries : (recordAt u.disk.store id sizeofSuperblock).subfolders ≠ [] ∨
      (recordAt u.disk.store id sizeofSuperblock).files ≠ []) {again : CString}
    (hmount : (dfsMount u again id).1 = 0) :
    loadedAt (dfsMount u again id).2 u.mem.next = (dfsMount u again id).2 := by
  obtain ⟨-, ht, map, hcount, hfolder⟩ := hu.mountedRoot hready hvalid hmount
  rw [loadedAt_eq]
  refine lazyLoadDirectory_of_loaded fun hload => ?_
  obtain ⟨-, hfoders, hfiles⟩ := hload
  rcases hentries with hne | hne
  · rw [ht.foderMap, count_pushAll, length_subNodes] at hfoders
    have hzero : (Table.empty : RamfsHashmap).count = 0 := rfl
    have hpos := List.length_pos_iff.2 hne
    omega
  · rw [hfolder] at hfiles
    exact hcount hne hfiles

/-- **The comparison** of the tree below `root` with that of the next mount. -/
theorem GrownTree.sameTree_iff (h : GrownTree b m root S s)
    (hrecord : recordAt b.disk.store (b.mountTable m).part sizeofSuperblock = rootRecord)
    (hu : Unmounted s u root id)
    (hfoders : (s.folders root).foderMap.nodes.length ≤ DFS_MAX_SUB_ENTRIES)
    (hfiles : (s.folders root).fileMap.nodes.length ≤ DFS_MAX_SUB_ENTRIES) {again : CString}
    (hmount : (dfsMount u again id).1 = 0) :
    SameTree s root (dfsMount u again id).2 u.mem.next ↔ Durable s root id := by
  have hvalid : ValidRecord (recordAt u.disk.store id sizeofSuperblock) := by
    rw [hu.record]
    split_ifs
    · exact h.validRecord
    · exact validRecord_rootRecord
  by_cases hempty : (s.folders root).foderMap.nodes = [] ∧ (s.folders root).fileMap.nodes = []
  · -- there is nothing before, and nothing on the disk
    have hnone : (recordAt u.disk.store id sizeofSuperblock).subfolders = [] ∧
        (recordAt u.disk.store id sizeofSuperblock).files = [] := by
      rw [hu.record]
      split_ifs
      · rw [diskRecord_subfolders, diskRecord_files, hempty.1, hempty.2]
        exact ⟨rfl, rfl⟩
      · exact ⟨rfl, rfl⟩
    refine iff_of_true (fun names => ?_) (Or.inl hempty)
    rw [h.contentsAt_of_nil hrecord h.root_mem hempty.1 hempty.2,
      hu.healthy.contentsAt_of_empty hu.mountable hvalid hnone.1 hnone.2 hmount]
  by_cases hsaves : SavesRoot s root id
  · have hdisk := hu.record
    rw [if_pos hsaves] at hdisk
    obtain ⟨-, ht, -⟩ := hu.healthy.mountedRoot hu.mountable hvalid hmount
    rw [hdisk] at ht
    have hloaded := hu.healthy.loadedAt_of_entries hu.mountable hvalid (by
      rw [hdisk, diskRecord_subfolders, diskRecord_files, List.take_of_length_le hfoders,
        List.take_of_length_le hfiles, ne_eq, ne_eq, List.map_eq_nil_iff, List.map_eq_nil_iff]
      exact not_and_or.1 hempty) hmount
    rw [h.sameTree_saved_iff hrecord hu hsaves hfoders hfiles ht hloaded]
    exact ⟨Or.inr, fun hdurable => hdurable.resolve_left hempty⟩
  · -- the disk still has the record of an empty root
    have hdisk := hu.record
    rw [if_neg hsaves] at hdisk
    refine iff_of_false (fun hsame => hempty (h.nil_of_contentsAt hrecord h.root_mem fun names => ?_)) ?_
    · rw [hsame names]
      exact hu.healthy.contentsAt_of_empty hu.mountable hvalid (by rw [hdisk]; rfl) (by rw [hdisk]; rfl)
        hmount names
    · intro hdurable
      have hfirst := (hdurable.resolve_left hempty).first
      have htype := ((h.folder root h.root_mem).top rfl).type
      exact hempty (htype.resolve_left fun hdirty => hsaves ⟨hdirty, hfirst⟩).2

end Comparison

/-! ### Whole runs -/

/-- A partition is formatted and mounted, and then calls are made. -/
structure PartitionRun where
  start : Fs
  path : CString
  id : PartId
  ops : List FsOp

namespace PartitionRun

variable (r : PartitionRun)

/-- The state after the format, after the mount, after the calls, and after the unmount. -/
def formatted : Fs := (formatPartition r.start r.id).2
def mounted : Fs := (dfsMount r.formatted r.path r.id).2
def final : Fs := r.ops.foldl fsStep r.mounted
def unmounted : Fs := (dfsUmount r.final r.path).2

/-- The root of the mount. -/
def root : Ptr := (r.mounted.mountTable r.start.mountCount).rootDir

/-- The state after the partition is mounted once more, and the root of that mount. -/
def remounted (again : CString) : Fs := (dfsMount r.unmounted again r.id).2
def remountedRoot (again : CString) : Ptr :=
  ((r.remounted again).mountTable r.unmounted.mountCount).rootDir

/-- The run begins in a state that the file system can be in, no allocation and no request inside a
partition fails, the path is not in use, the format and the mount succeed, the calls are made
inside the mount, and in the end its root has at most 128 entries of each kind. All calls stay in
their bounds. -/
structure Valid : Prop where
  reachable : ∃ (grants : ℕ → Bool) (store : Store) (before : List FsOp),
    Along fsStep (fun s op => op.InBounds s) (initState ⟨grants, 0, []⟩ store) before ∧
      r.start = before.foldl fsStep (initState ⟨grants, 0, []⟩ store)
  mountInBounds : (FsOp.mount r.path r.id).InBounds r.formatted
  opsInBounds : Along fsStep (fun s op => op.InBounds s) r.mounted r.ops
  umountInBounds : (FsOp.umount r.path).InBounds r.final
  unfailing : r.start.mem.Unfailing
  reliable : r.start.disk.store.Reliable
  unused : ∀ i < r.start.mountCount, (r.start.mountTable i).path ≠ r.path
  format : (formatPartition r.start r.id).1 = 0
  mount : (dfsMount r.formatted r.path r.id).1 = 0
  inside : Along fsStep (FsOp.Inside r.root) r.mounted r.ops
  foders_le : (r.final.folders r.root).foderMap.nodes.length ≤ DFS_MAX_SUB_ENTRIES
  files_le : (r.final.folders r.root).fileMap.nodes.length ≤ DFS_MAX_SUB_ENTRIES

end PartitionRun

/-- The entry with a path that only the last entry has. -/
theorem mountIndex_last {s : Fs} {path : CString} {m : ℕ} (hcount : s.mountCount = m + 1)
    (hlast : (s.mountTable m).path = path) (hother : ∀ i < m, (s.mountTable i).path ≠ path) :
    mountIndex s path = some m := by
  have hnone : (List.range m).find? (fun i => streq (s.mountTable i).path path) = none := by
    refine List.find?_eq_none.2 fun i hi => ?_
    rw [streq_eq_decide]
    simpa using hother i (List.mem_range.1 hi)
  have hfound : streq (s.mountTable m).path path = true := by
    rw [streq_eq_decide]
    exact decide_eq_true hlast
  rw [mountIndex, hcount, List.range_succ, List.find?_append, hnone, Option.none_or]
  exact List.find?_cons_of_pos (p := fun i => streq (s.mountTable i).path path) hfound

/-- **What the unmount leaves of a run**, and where its mount began. -/
theorem PartitionRun.Valid.unmounted {r : PartitionRun} (h : r.Valid) :
    ∃ T, GrownTree r.mounted r.start.mountCount r.root T r.final ∧
      recordAt r.mounted.disk.store (r.mounted.mountTable r.start.mountCount).part sizeofSuperblock =
        rootRecord ∧ Unmounted r.final r.unmounted r.root r.id := by
  obtain ⟨grants, store, before, -, hreach⟩ := h.reachable
  have hstart : Healthy r.start := by
    refine ⟨?_, ?_, h.unfailing, h.reliable⟩
    · rw [hreach]
      exact allocated_run _ store before
    · rw [hreach]
      exact rootsMarked_run _ store before
  obtain ⟨hformatted, hready, hrecord⟩ := hstart.format h.format
  have hvalid : ValidRecord (recordAt r.formatted.disk.store r.id sizeofSuperblock) := by
    rw [show recordAt r.formatted.disk.store r.id sizeofSuperblock = rootRecord from hrecord]
    exact validRecord_rootRecord
  obtain ⟨hmounted, htable, hcount⟩ := hformatted.mount hready hvalid h.mount
  obtain ⟨-, hleft, -⟩ := hformatted.mountedRoot hready hvalid h.mount
  have hself : r.mounted.mountTable r.start.mountCount = ⟨r.path, r.id, r.formatted.mem.next⟩ :=
    (congrFun htable _).trans (Function.update_self _ _ _)
  have hroot : r.root = r.formatted.mem.next := congrArg DfsMountPoint.rootDir hself
  have hstill : recordAt r.mounted.disk.store (r.mounted.mountTable r.start.mountCount).part
      sizeofSuperblock = rootRecord := by
    rw [hself, ← hrecord, recordAt, recordAt]
    exact congrArg DiskFolder.decode (funext fun i => congrFun (congrFun hleft.bytes r.id) _)
  have hgrown : GrownTree r.mounted r.start.mountCount r.root {r.root} r.mounted := by
    rw [hroot]
    exact hformatted.grownTree hready hrecord h.mount
  obtain ⟨T, hT⟩ : ∃ T, GrownTree r.mounted r.start.mountCount r.root T r.final :=
    hgrown.run hstill h.inside
  -- the state at the end of the run
  have hfinal : Healthy r.final := by
    refine ⟨?_, ?_, fun n => ?_, fun n => ?_⟩
    · exact Along.invariant (fun s op (hs : Allocated s) _ => hs.step op) hmounted.allocated
        (Along.of_forall (fun _ _ => trivial) _ r.ops)
    · exact Along.invariant (fun s op (hs : RootsMarked s) _ => hs.step op) hmounted.marked
        (Along.of_forall (fun _ _ => trivial) _ r.ops)
    · exact (congrFun (grants_run r.mounted r.ops) n).trans (hmounted.unfailing n)
    · exact (congrFun hT.store.fault n).trans (hmounted.reliable n)
  have hself' : r.final.mountTable r.start.mountCount = ⟨r.path, r.id, r.formatted.mem.next⟩ :=
    (congrFun hT.mountTable _).trans hself
  have hcount' : r.final.mountCount = r.start.mountCount + 1 := hT.mountCount.trans hcount
  have hindex : mountIndex r.final r.path = some r.start.mountCount := by
    refine mountIndex_last hcount' (congrArg DfsMountPoint.path hself') fun i hi => ?_
    have hold : r.final.mountTable i = r.start.mountTable i :=
      (congrFun (hT.mountTable.trans htable) i).trans (Function.update_of_ne (Nat.ne_of_lt hi) _ _)
    rw [hold]
    exact h.unused i hi
  have hbytes : r.final.disk.store.bytes r.id = r.formatted.disk.store.bytes r.id :=
    congrFun (hT.store.bytes.trans hleft.bytes) r.id
  have hsize : r.final.disk.store.size r.id = r.formatted.disk.store.size r.id := by
    rw [Store.size, Store.size]
    exact congrArg (· * 512) (congrFun (hT.store.sectors.trans hleft.sectors) r.id)
  have hready' : Mountable r.final.disk.store r.id := by
    refine ⟨?_, hsize.symm ▸ hready.inside⟩
    rw [Formatted, hsize, hbytes]
    exact hready.formatted
  have hrecord' : recordAt r.final.disk.store r.id sizeofSuperblock = rootRecord := by
    rw [← hrecord, recordAt, recordAt]
    exact congrArg DiskFolder.decode (funext fun i => congrFun hbytes _)
  have hlt : r.start.mountCount < r.final.mountCount := hcount' ▸ Nat.lt_succ_self _
  refine ⟨T, hT, hstill, hT.umount hfinal hindex hlt ?_ hready' hrecord'⟩
  rw [hself', hroot]

/-! ### A small partition -/

/-- A partition of 1 MiB that is mounted on the directory `/m`, in a system with another directory `/n`. -/
def smallRun (ops : List FsOp) : PartitionRun where
  start := [FsOp.mkdir (.ofBytes [109]) none, .mkdir (.ofBytes [110]) none].foldl fsStep
    (initState ampleMemory smallStore)
  path := .ofBytes [47, 109]
  id := part0
  ops := ops

/-- The path of the root of the mount. -/
def smallRunRoot : CString := .ofBytes [47, 109, 47, 109]

theorem smallRun_valid {ops : List FsOp}
    (hops : Along fsStep (fun s op => op.InBounds s) (smallRun ops).mounted ops)
    (humount : (FsOp.umount (smallRun ops).path).InBounds (smallRun ops).final)
    (hinside : Along fsStep (FsOp.Inside (smallRun ops).root) (smallRun ops).mounted ops)
    (hfoders : ((smallRun ops).final.folders (smallRun ops).root).foderMap.nodes.length ≤
      DFS_MAX_SUB_ENTRIES)
    (hfiles : ((smallRun ops).final.folders (smallRun ops).root).fileMap.nodes.length ≤
      DFS_MAX_SUB_ENTRIES) : (smallRun ops).Valid where
  reachable := ⟨fun _ => true, smallStore,
    [.mkdir (.ofBytes [109]) none, .mkdir (.ofBytes [110]) none], by decide +kernel, rfl⟩
  mountInBounds := show (FsOp.mount (smallRun []).path (smallRun []).id).InBounds (smallRun []).formatted by
    decide +kernel
  opsInBounds := hops
  umountInBounds := humount
  unfailing := fun _ => rfl
  reliable := fun _ => rfl
  unused := by
    have hcount : (smallRun ops).start.mountCount = 0 :=
      show (smallRun []).start.mountCount = 0 by decide +kernel
    intro i hi
    omega
  format := show (formatPartition (smallRun []).start (smallRun []).id).1 = 0 by decide +kernel
  mount := show (dfsMount (smallRun []).formatted (smallRun []).path (smallRun []).id).1 = 0 by
    decide +kernel
  inside := hinside
  foders_le := hfoders
  files_le := hfiles

/-- A call of `fs_touch` in the root, by its path. -/
theorem inside_touch {s : Fs} {root : Ptr} {name path : CString} (hname : splitLast name = none)
    (hpath : fromDir s (some path) = some root) : (FsOp.touch name (some path)).Inside root s := by
  intro r hr
  rw [parsePath, hname, hpath] at hr
  obtain rfl := Except.ok.inj hr
  exact .refl _ root

/-- The file `f` is made in the root, without contents, and the byte `x` is written to it. -/
def touchOps : List FsOp := [.touch (.ofBytes [102]) (some smallRunRoot)]
def touchWriteOps : List FsOp :=
  [.touch (.ofBytes [102]) (some smallRunRoot), .write (.ofBytes [102]) (Data.byte 120) (some smallRunRoot)]

/-! ### The result -/

/-- The partition is mounted once more, inside the bounds, and shows the tree that was there before
the unmount. A mount through a released folder does not count: `malloc` gives the new root the
block of that very folder. -/
def PartitionRun.ShowsSameTree (r : PartitionRun) (again : CString) : Prop :=
  (FsOp.mount again r.id).InBounds r.unmounted ∧ (dfsMount r.unmounted again r.id).1 = 0 ∧
    SameTree r.final r.root (r.remounted again) (r.remountedRoot again)

/-- **What survives.** In every run that formats a partition, mounts it and works inside the mount: the
unmount is followed by a mount that succeeds and shows the same tree if and only if the path of
that mount fits and leads through no released folder, names an empty directory by then, and the
tree was empty or survives. -/
theorem remounted_sameTree_iff (r : PartitionRun) (h : r.Valid) (again : CString) :
    r.ShowsSameTree again ↔ (FsOp.mount again r.id).InBounds r.unmounted ∧
      NamesEmpty r.unmounted again ∧ Durable r.final r.root r.id := by
  obtain ⟨T, hT, hrecord, hu⟩ := h.unmounted
  have hvalid : ValidRecord (recordAt r.unmounted.disk.store r.id sizeofSuperblock) := by
    rw [hu.record]
    split_ifs
    · exact hT.validRecord
    · exact validRecord_rootRecord
  rw [← hu.healthy.dfsMount_iff hu.mountable hvalid.used]
  refine and_congr_right fun _ => and_congr_right fun hmount => ?_
  have hroot : r.remountedRoot again = r.unmounted.mem.next :=
    (hu.healthy.mountedRoot hu.mountable hvalid hmount).1
  rw [hroot]
  exact hT.sameTree_iff hrecord hu h.foders_le h.files_le hmount

/-- A file without contents is there again. -/
theorem remounted_sameTree_touched : (smallRun touchOps).ShowsSameTree (.ofBytes [47, 110]) := by
  refine (remounted_sameTree_iff (smallRun touchOps) (smallRun_valid ?_ ?_ ⟨?_, trivial⟩ ?_ ?_)
    (.ofBytes [47, 110])).2 ⟨?_, ⟨3, ?_, ?_⟩, Or.inr ⟨?_, ?_, ?_, ?_⟩⟩
  · decide +kernel
  · decide +kernel
  · exact inside_touch (by decide +kernel) (by decide +kernel)
  all_goals decide +kernel

/-- A byte that is written is not there again. -/
theorem remounted_loses_byte :
    ¬∀ (r : PartitionRun) (again : CString), r.Valid →
      (FsOp.mount again r.id).InBounds r.unmounted → NamesEmpty r.unmounted again →
      r.ShowsSameTree again := by
  intro h
  obtain ⟨-, -, hsame⟩ := h (smallRun touchWriteOps) (.ofBytes [47, 110])
    (smallRun_valid (by decide +kernel) (by decide +kernel) ⟨inside_touch (by decide +kernel) (by decide +kernel), fun p hp => by
      have hroot : fromDir (fsStep (smallRun touchWriteOps).mounted
          (.touch (.ofBytes [102]) (some smallRunRoot))) (some smallRunRoot) =
        some (smallRun touchWriteOps).root := by decide +kernel
      rw [← Option.some.inj (hroot.symm.trans hp)]
      exact .refl _ _, trivial⟩ (by decide +kernel) (by decide +kernel))
    (by decide +kernel) ⟨3, by decide +kernel, by decide +kernel⟩
  have hbytes := hsame []
  revert hbytes
  decide +kernel

end LittleLinux
