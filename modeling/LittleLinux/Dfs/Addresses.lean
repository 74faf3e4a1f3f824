import LittleLinux.Dfs.SyncFile
import LittleLinux.Lib.ChainNodes

/-!
# The trip of a block address

The byte offset of a data block is computed in 64 bits, returned as a `uint32_t`, kept in the
`int drive_addr` of the file entry, and taken out again: `dfs_load_file_data` extends it to 64 bits
with its sign, `dfs_load_folder_recursive` and `dfs_free_file_blocks` read it as a `uint32_t`. All
of these agree below 2 GiB, and only there (`addressSurvives_iff`).
-/

namespace LittleLinux

/-! ### Loading a tree -/

/-- What `dfs_load_folder_recursive` does for a file: read its data when it is missing. -/
def loadMissingData (mem : Memory) (st : Store) (finfo : RamfsFileInfo) (id : PartId) :
    RamfsFileInfo × Memory × Store :=
  if finfo.ptr = none ∧ finfo.length > 0 then
    let a := mem.malloc (toU32 finfo.length)
    match a.1 with
    | none => (finfo, a.2, st)
    | some data =>
      let r := st.read id (toU32 finfo.driveAddr) (toI32 finfo.length)
      match r.1 with
      | none => (finfo, a.2.free data, r.2)
      | some b =>
        ({ finfo with ptr := some ⟨data, (List.range (toI32 finfo.length).toNat).map b⟩ }, a.2, r.2)
  else (finfo, mem, st)

/-- The loop of `dfs_load_folder_recursive` over the files of a folder. -/
def loadFolderFiles (s : Fs) (p : Ptr) (id : PartId) : Fs :=
  let r := (s.folders p).fileMap.mapAccum
    (fun (ms : Memory × Store) finfo => loadMissingData ms.1 ms.2 finfo id) (s.mem, s.disk.store)
  ((s.modifyFolder p (·.setFileMap r.1)).setMem r.2.1).setStore r.2.2

/-- `dfs_load_folder_recursive`, with a bound on the depth of its recursion. -/
def dfsLoadFolderRecursive (id : PartId) : ℕ → Fs → Ptr → Fs
  | 0, s, _ => s
  | fuel + 1, s, p =>
    let s := loadFolderFiles s p id
    (s.folders p).foderMap.nodes.foldl
      (fun s nd => dfsLoadFolderRecursive id fuel s nd.value.ptr) s

/-- Data that is there stays as it is. -/
theorem loadMissingData_of_ptr {mem : Memory} {st : Store} {finfo : RamfsFileInfo} {id : PartId}
    (h : finfo.ptr ≠ none) : (loadMissingData mem st finfo id).1 = finfo := by
  rw [loadMissingData, if_neg fun hn => h hn.1]

/-- What the loads need of the state: no allocation fails, no request inside the partition fails,
and the bytes are `m`. -/
structure Loadable (mem : Memory) (st : Store) (id : PartId) (size : ℕ) (m : ByteMemory) : Prop where
  unfailing : mem.Unfailing
  reliable : st.Reliable
  size_eq : st.size id = size
  bytes_eq : st.bytes id = m

theorem Loadable.loadMissingData {mem : Memory} {st : Store} {id : PartId} {size : ℕ}
    {m : ByteMemory} (h : Loadable mem st id size m) (finfo : RamfsFileInfo) :
    Loadable (loadMissingData mem st finfo id).2.1 (loadMissingData mem st finfo id).2.2 id size m := by
  have hmem : (mem.malloc (toU32 finfo.length)).2.Unfailing := h.unfailing.malloc _
  rw [LittleLinux.loadMissingData]
  split_ifs
  · dsimp only
    rcases (mem.malloc (toU32 finfo.length)).1 with _ | data
    · exact ⟨hmem, h.reliable, h.size_eq, h.bytes_eq⟩
    · dsimp only
      rcases (st.read id (toU32 finfo.driveAddr) (toI32 finfo.length)).1 with _ | b
      · exact ⟨hmem, h.reliable, h.size_eq, h.bytes_eq⟩
      · exact ⟨hmem, h.reliable, h.size_eq, h.bytes_eq⟩
  · exact h

/-- The bytes of a file of `length` bytes at `addr`. -/
def bytesFrom (m : ByteMemory) (addr : ℕ) (length : ℤ) : List UInt8 :=
  (List.range length.toNat).map fun i => m (addr + i)

/-- The file's data is not in memory, and its length is a positive `int`. -/
structure Missing (finfo : RamfsFileInfo) : Prop where
  ptr : finfo.ptr = none
  pos : 0 < finfo.length
  lt : finfo.length < 2 ^ 31

theorem Missing.malloc_eq {finfo : RamfsFileInfo} (h : Missing finfo) {mem : Memory}
    (hmem : mem.Unfailing) : (mem.malloc (toU32 finfo.length)).1 = some mem.next := by
  have hpos := h.pos
  have hlt := h.lt
  refine hmem.malloc_isSome ?_
  unfold toU32
  omega

theorem Missing.read_eq {finfo : RamfsFileInfo} (h : Missing finfo) {st : Store} (hst : st.Reliable)
    {id : PartId} {addr : ℕ} (hin : addr + finfo.length ≤ st.size id) :
    (st.read id addr (toI32 finfo.length)).1 = some fun i => st.bytes id (addr + i) := by
  have hpos := h.pos
  have hint : toI32 finfo.length = finfo.length := toI32_of_mem (by omega) h.lt
  rw [hint]
  exact hst.read_eq hpos hin

/-- `dfs_load_file_data` reads at the address with its sign extended. -/
theorem Missing.dfsLoadFileData_eq {finfo : RamfsFileInfo} (h : Missing finfo) {mem : Memory}
    (hmem : mem.Unfailing) {st : Store} (hst : st.Reliable) {id : PartId}
    (hin : toU64 finfo.driveAddr + finfo.length ≤ st.size id) :
    (dfsLoadFileData mem st finfo id).1 = 0 ∧
      (dfsLoadFileData mem st finfo id).2.1.ptr =
        some ⟨mem.next, bytesFrom (st.bytes id) (toU64 finfo.driveAddr) finfo.length⟩ := by
  have hpos := h.pos
  have hint : toI32 finfo.length = finfo.length := toI32_of_mem (by omega) h.lt
  rw [dfsLoadFileData, if_neg (by rw [h.ptr]; simpa using hpos.ne')]
  dsimp only
  rw [h.malloc_eq hmem]
  dsimp only
  rw [h.read_eq hst hin, hint]
  exact ⟨rfl, rfl⟩

theorem Missing.dfsLoadFileData_refused {finfo : RamfsFileInfo} (h : Missing finfo) {mem : Memory}
    (hmem : mem.Unfailing) (st : Store) (id : PartId)
    (hout : st.size id < toU64 finfo.driveAddr + finfo.length) :
    (dfsLoadFileData mem st finfo id).1 = -3 := by
  have hpos := h.pos
  have hint : toI32 finfo.length = finfo.length := toI32_of_mem (by omega) h.lt
  have hnone : (st.read id (toU64 finfo.driveAddr) (toI32 finfo.length)).1 = none := by
    rw [hint]
    refine if_neg fun ha => ?_
    have := ha.2.2
    omega
  rw [dfsLoadFileData, if_neg (by rw [h.ptr]; simpa using hpos.ne')]
  dsimp only
  rw [h.malloc_eq hmem]
  dsimp only
  rw [hnone]

/-- `dfs_load_folder_recursive` reads at the address as an unsigned number. -/
theorem Missing.loadMissingData_eq {finfo : RamfsFileInfo} (h : Missing finfo) {mem : Memory}
    {st : Store} {id : PartId} {size : ℕ} {m : ByteMemory} (hload : Loadable mem st id size m)
    (hin : toU32 finfo.driveAddr + finfo.length ≤ size) :
    (loadMissingData mem st finfo id).1 = { finfo with
      ptr := some ⟨mem.next, bytesFrom m (toU32 finfo.driveAddr) finfo.length⟩ } := by
  have hpos := h.pos
  have hint : toI32 finfo.length = finfo.length := toI32_of_mem (by omega) h.lt
  rw [loadMissingData, if_pos ⟨h.ptr, hpos⟩]
  dsimp only
  rw [h.malloc_eq hload.unfailing]
  dsimp only
  rw [h.read_eq hload.reliable (by rw [hload.size_eq]; exact hin), hint, hload.bytes_eq]
  rfl

/-- The files of a folder after the loop of `dfs_load_folder_recursive`. -/
theorem mem_files_loadFolderFiles {s : Fs} {p : Ptr} {id : PartId} {size : ℕ} {m : ByteMemory}
    (hload : Loadable s.mem s.disk.store id size m) {nd : ChainTable.Node CString RamfsFileInfo}
    (hnd : nd ∈ (s.folders p).fileMap.nodes) :
    ∃ mem st, Loadable mem st id size m ∧
      { nd with value := (loadMissingData mem st nd.value id).1 } ∈
        ((loadFolderFiles s p id).folders p).fileMap.nodes := by
  obtain ⟨⟨mem, st⟩, hms, hmem⟩ := ChainTable.mem_mapAccumChain_of_mem
    (P := fun ms : Memory × Store => Loadable ms.1 ms.2 id size m)
    (f := fun (ms : Memory × Store) finfo => loadMissingData ms.1 ms.2 finfo id)
    (s := (s.mem, s.disk.store)) (fun ms v h => h.loadMissingData v) hload hnd
  refine ⟨mem, st, hms, ?_⟩
  rw [loadFolderFiles]
  simp only [Fs.setStore_folders, Fs.setMem_folders, Fs.modifyFolder_self, RamfsFoder.setFileMap]
  rw [(ChainTable.mapAccum_eq _ _ _).1]
  exact hmem

/-- A file whose data is there is not touched by the rest of the recursion. -/
theorem mem_files_dfsLoadFolderRecursive (id : PartId) {p : Ptr}
    {nd : ChainTable.Node CString RamfsFileInfo} (hptr : nd.value.ptr ≠ none) (fuel : ℕ) (s : Fs)
    (q : Ptr) (hnd : nd ∈ (s.folders p).fileMap.nodes) :
    nd ∈ ((dfsLoadFolderRecursive id fuel s q).folders p).fileMap.nodes := by
  induction fuel generalizing s q with
  | zero => exact hnd
  | succ fuel ih =>
    rw [dfsLoadFolderRecursive]
    have hfiles : nd ∈ ((loadFolderFiles s q id).folders p).fileMap.nodes := by
      rw [loadFolderFiles]
      simp only [Fs.setStore_folders, Fs.setMem_folders]
      rcases eq_or_ne p q with rfl | hne
      · obtain ⟨⟨mem, st⟩, -, hmem⟩ := ChainTable.mem_mapAccumChain_of_mem (P := fun _ => True)
          (f := fun (ms : Memory × Store) finfo => loadMissingData ms.1 ms.2 finfo id)
          (s := (s.mem, s.disk.store)) (fun _ _ _ => trivial) trivial hnd
        rw [loadMissingData_of_ptr hptr] at hmem
        simp only [Fs.modifyFolder_self, RamfsFoder.setFileMap]
        rw [(ChainTable.mapAccum_eq _ _ _).1]
        exact hmem
      · rw [Fs.modifyFolder_of_ne _ _ hne]
        exact hnd
    generalize loadFolderFiles s q id = s' at hfiles
    generalize (s'.folders q).foderMap.nodes = subs
    induction subs generalizing s' with
    | nil => exact hfiles
    | cons sub subs ihs => exact ihs _ (ih s' sub.value.ptr hfiles)

/-! ### The trip -/

/-- The `drive_addr` of a file whose blocks start at block `s`. -/
def storedAddress (sb : Superblock) (s : ℕ) : ℤ := toI32 (blockAddress sb s)

/-- The offset of block `s` survives its trip: an allocation at `s` returns it, a sync writes there
and leaves the address in `drive_addr`, both loaders read there again, and a release starts at
block `s`. -/
structure AddressSurvives (sb : Superblock) (id : PartId) (s : ℕ) : Prop where
  allocated : ∀ (d : Disk) (size : ℕ), d.store.Reliable → DfsPartition d.store id →
    Superblock.decode (d.store.bytes id) = sb → SeesRun d id sb (blocksFor size) s →
    (dfsAllocFileBlocks d id size).1 = sb.dataStart + s * DFS_BLOCK_SIZE
  synced : ∀ (d : Disk) (finfo : RamfsFileInfo) (buf : Buffer), d.store.Reliable →
    DfsPartition d.store id → Superblock.decode (d.store.bytes id) = sb →
    finfo.type = RAMFS_TYPE_DIRTY → 0 < finfo.length → finfo.length < 2 ^ 31 →
    finfo.ptr = some buf →
    SeesRun (releasedDisk d finfo id) id sb (blocksFor (toU64 finfo.length)) s →
    (sb.dataStart + s * DFS_BLOCK_SIZE : ℕ) + finfo.length ≤ d.store.size id →
    (dfsSyncFile d finfo id).1 = 0 ∧
      (dfsSyncFile d finfo id).2.1.driveAddr = storedAddress sb s ∧
      ∀ i : ℕ, i < finfo.length → (dfsSyncFile d finfo id).2.2.store.bytes id
        (sb.dataStart + s * DFS_BLOCK_SIZE + i) = buf.bytes.getD i 0
  loaded : ∀ (mem : Memory) (st : Store) (finfo : RamfsFileInfo), mem.Unfailing → st.Reliable →
    Missing finfo → finfo.driveAddr = storedAddress sb s →
    (sb.dataStart + s * DFS_BLOCK_SIZE : ℕ) + finfo.length ≤ st.size id →
    (dfsLoadFileData mem st finfo id).1 = 0 ∧
      ∃ addr, (dfsLoadFileData mem st finfo id).2.1.ptr =
        some ⟨addr, bytesFrom (st.bytes id) (sb.dataStart + s * DFS_BLOCK_SIZE) finfo.length⟩
  treeLoaded : ∀ (fs : Fs) (p : Ptr) (fuel : ℕ) (nd : ChainTable.Node CString RamfsFileInfo),
    fs.mem.Unfailing → fs.disk.store.Reliable → nd ∈ (fs.folders p).fileMap.nodes →
    Missing nd.value → nd.value.driveAddr = storedAddress sb s →
    (sb.dataStart + s * DFS_BLOCK_SIZE : ℕ) + nd.value.length ≤ fs.disk.store.size id →
    ∃ nd' ∈ ((dfsLoadFolderRecursive id (fuel + 1) fs p).folders p).fileMap.nodes,
      nd'.key = nd.key ∧ ∃ addr, nd'.value.ptr = some ⟨addr, bytesFrom (fs.disk.store.bytes id)
        (sb.dataStart + s * DFS_BLOCK_SIZE) nd.value.length⟩
  freed : ∀ (st : Store) (size : ℕ), st.Reliable → sizeofSuperblock ≤ st.size id →
    Superblock.decode (st.bytes id) = sb →
    dfsFreeFileBlocks st id (toU32 (storedAddress sb s)) size =
      clearBlocks id sb.bitmapStart sb.blockCount (blocksFor size) s (readSuperblock st id).2

section Trip

variable {sb : Superblock} {s : ℕ} (h : sb.dataStart + s * DFS_BLOCK_SIZE < 2 ^ 31)

include h

theorem blockAddress_of_lt : blockAddress sb s = sb.dataStart + s * DFS_BLOCK_SIZE :=
  Nat.mod_eq_of_lt (h.trans (by norm_num))

theorem storedAddress_of_lt : storedAddress sb s = (sb.dataStart + s * DFS_BLOCK_SIZE : ℕ) := by
  rw [storedAddress, blockAddress_of_lt h]
  exact toI32_of_mem (by omega) (by exact_mod_cast h)

theorem toU32_storedAddress : toU32 (storedAddress sb s) = sb.dataStart + s * DFS_BLOCK_SIZE := by
  rw [storedAddress_of_lt h]
  exact toU32_of_lt (h.trans (by norm_num))

theorem toU64_storedAddress : toU64 (storedAddress sb s) = sb.dataStart + s * DFS_BLOCK_SIZE := by
  rw [storedAddress_of_lt h, toU64_natCast]
  exact Nat.mod_eq_of_lt (h.trans (by norm_num))

end Trip

/-- A sync whose new blocks start at block `s`, below 2 GiB. -/
theorem dfsSyncFile_at_block {d : Disk} {id : PartId} {finfo : RamfsFileInfo} {buf : Buffer} {s : ℕ}
    (hst : d.store.Reliable) (hpart : DfsPartition d.store id)
    (h : (Superblock.decode (d.store.bytes id)).dataStart + s * DFS_BLOCK_SIZE < 2 ^ 31)
    (hdirty : finfo.type = RAMFS_TYPE_DIRTY) (hpos : 0 < finfo.length) (hlt : finfo.length < 2 ^ 31)
    (hptr : finfo.ptr = some buf)
    (hsees : SeesRun (releasedDisk d finfo id) id (Superblock.decode (d.store.bytes id))
      (blocksFor (toU64 finfo.length)) s)
    (hin : ((Superblock.decode (d.store.bytes id)).dataStart + s * DFS_BLOCK_SIZE : ℕ) +
      finfo.length ≤ d.store.size id) :
    (dfsSyncFile d finfo id).1 = 0 ∧
      (dfsSyncFile d finfo id).2.1.driveAddr =
        storedAddress (Superblock.decode (d.store.bytes id)) s ∧
      ∀ i : ℕ, i < finfo.length → (dfsSyncFile d finfo id).2.2.store.bytes id
        ((Superblock.decode (d.store.bytes id)).dataStart + s * DFS_BLOCK_SIZE + i) =
          buf.bytes.getD i 0 := by
  have hint : toI32 finfo.length = finfo.length := toI32_of_mem (by omega) hlt
  have hstart := hpart.dataStart_lt.1
  -- the run the allocator takes is the one given: first-fit runs are unique
  rcases allocatedDisk_cases hst hpart finfo with ⟨s', hsees', haddr, hch, -⟩ | ⟨hnone, -⟩
  · obtain rfl := hsees.unique hsees'
    rw [storedAddress, blockAddress_of_lt h]
    rw [blockAddress_of_lt h] at haddr
    generalize Superblock.decode (d.store.bytes id) = sb at *
    have hrel : (allocatedDisk d finfo id).2.store.Reliable := fun n => by
      rw [hch.fault]
      exact hst n
    rw [dfsSyncFile_of_dirty hpos.ne' hdirty, haddr, if_neg (by omega)]
    have hptr' : { finfo with driveAddr := toI32 (sb.dataStart + s * DFS_BLOCK_SIZE : ℕ) }.ptr =
        some buf := hptr
    rcases writeFileData_cases hrel hptr' id (sb.dataStart + s * DFS_BLOCK_SIZE) with
      ⟨-, -, hret, hentry, hbytes⟩ | ⟨hno, -⟩
    · dsimp only at hbytes
      rw [hint] at hbytes
      rw [hret, hentry, hbytes]
      refine ⟨rfl, ?_, fun i hi => ?_⟩
      · dsimp only
      · exact ByteMemory.putBytes_add (by omega)
    · refine absurd ⟨?_, ?_⟩ hno
      · dsimp only
        rwa [hint]
      · dsimp only
        rwa [hint, hch.size_eq]
  · exact absurd hsees (hnone s)

/-- Below 2 GiB every part of the trip keeps the offset. -/
theorem addressSurvives_of_lt {sb : Superblock} {s : ℕ} (id : PartId)
    (h : sb.dataStart + s * DFS_BLOCK_SIZE < 2 ^ 31) : AddressSurvives sb id s where
  allocated := fun d size hst hpart hsb hsees => by
    rcases dfsAllocFileBlocks_exact hsb hst hpart.super_le
      (.inl (hsb ▸ hpart.noWrap.bitmapEnd_le)) size with ⟨s', hsees', hret, -⟩ | ⟨hnone, -⟩
    · obtain rfl := hsees.unique hsees'
      exact hret.trans (blockAddress_of_lt h)
    · exact absurd hsees (hnone s)
  synced := fun d finfo buf hst hpart hsb => by
    subst hsb
    exact dfsSyncFile_at_block hst hpart h
  loaded := fun mem st finfo hmem hst hmiss haddr hin => by
    have hoff : toU64 finfo.driveAddr = sb.dataStart + s * DFS_BLOCK_SIZE := by
      rw [haddr, toU64_storedAddress h]
    obtain ⟨hret, hptr⟩ := hmiss.dfsLoadFileData_eq hmem hst (by rw [hoff]; exact hin)
    rw [hoff] at hptr
    exact ⟨hret, _, hptr⟩
  treeLoaded := fun fs p fuel nd hmem hst hnd hmiss haddr hin => by
    have hoff : toU32 nd.value.driveAddr = sb.dataStart + s * DFS_BLOCK_SIZE := by
      rw [haddr, toU32_storedAddress h]
    obtain ⟨mem, st, hload, hnd'⟩ := mem_files_loadFolderFiles
      (Loadable.mk hmem hst rfl rfl) hnd
    rw [hmiss.loadMissingData_eq hload (by rw [hoff]; exact hin), hoff] at hnd'
    suffices hmem : { nd with value := { nd.value with ptr := some ⟨mem.next, bytesFrom
        (fs.disk.store.bytes id) (sb.dataStart + s * DFS_BLOCK_SIZE) nd.value.length⟩ } } ∈
        ((dfsLoadFolderRecursive id (fuel + 1) fs p).folders p).fileMap.nodes from
      ⟨_, hmem, rfl, _, rfl⟩
    rw [dfsLoadFolderRecursive]
    generalize ((loadFolderFiles fs p id).folders p).foderMap.nodes = subs
    generalize loadFolderFiles fs p id = fs' at hnd'
    -- the subfolders loaded afterwards keep the entry
    induction subs generalizing fs' with
    | nil => exact hnd'
    | cons sub subs ih =>
      exact ih _ (mem_files_dfsLoadFolderRecursive id (by simp) fuel fs' sub.value.ptr hnd')
  freed := fun st size hst hsuper hsb => by
    rw [dfsFreeFileBlocks, readSuperblock_of_le hst hsuper, hsb]
    dsimp only
    rw [toU32_storedAddress h, if_neg (by omega), Nat.add_sub_cancel_left,
      Nat.mul_div_cancel _ (by decide)]

/-- A store whose only byte that is not `0` lies at `addr`. -/
def markedStore (addr : ℕ) : Store :=
  ⟨fun _ => addr + 1, fun _ x => if x = addr then 1 else 0, fun _ => false, 0, []⟩

/-- A file of one byte at `addr` whose data is not in memory. -/
def unreadFile (addr : ℤ) : RamfsFileInfo := ⟨.ofBytes [102], 0, 1, none, addr⟩

theorem unreadFile_missing (addr : ℤ) : Missing (unreadFile addr) :=
  ⟨rfl, show (0 : ℤ) < 1 by norm_num, show (1 : ℤ) < 2 ^ 31 by norm_num⟩

theorem unreadFile_driveAddr (addr : ℤ) : (unreadFile addr).driveAddr = addr := rfl

theorem unreadFile_length (addr : ℤ) : (unreadFile addr).length = 1 := rfl

/-- If `dfs_load_file_data` reads back the byte at the offset, it reads at the offset. -/
theorem AddressSurvives.toU64_eq {sb : Superblock} {id : PartId} {s : ℕ}
    (h : AddressSurvives sb id s) :
    toU64 (storedAddress sb s) = sb.dataStart + s * DFS_BLOCK_SIZE := by
  have hloaded := h.loaded
  generalize sb.dataStart + s * DFS_BLOCK_SIZE = A at hloaded ⊢
  generalize storedAddress sb s = addr at hloaded ⊢
  have hmiss := unreadFile_missing addr
  have hmem : ampleMemory.Unfailing := fun _ => rfl
  have hst : (markedStore A).Reliable := fun _ => rfl
  have hsize : (markedStore A).size id = (A + 1) * 512 := rfl
  obtain ⟨hret, buf, hptr⟩ := hloaded ampleMemory (markedStore A) (unreadFile addr) hmem hst hmiss
    (unreadFile_driveAddr addr) (by rw [unreadFile_length, hsize]; omega)
  by_cases hin : toU64 addr + 1 ≤ (markedStore A).size id
  · have hread := (hmiss.dfsLoadFileData_eq hmem hst
      (by rw [unreadFile_length, unreadFile_driveAddr]; exact_mod_cast hin)).2
    rw [hptr, Option.some.injEq, Buffer.mk.injEq, unreadFile_driveAddr] at hread
    have hbyte : (if toU64 addr = A then (1 : UInt8) else 0) = 1 := by
      simpa [bytesFrom, unreadFile_length, markedStore] using hread.2.symm
    by_contra hne
    rw [if_neg hne] at hbyte
    exact absurd hbyte (by decide)
  · -- the read at that offset is refused
    have hcode := hmiss.dfsLoadFileData_refused hmem (markedStore A) id
      (by rw [unreadFile_length, unreadFile_driveAddr]; omega)
    rw [hcode] at hret
    exact absurd hret (by decide)

/-- **The address of a block survives its trip** through `drive_addr` if and only if it lies below
2 GiB. -/
theorem addressSurvives_iff (mem : Memory) (st : Store) (id : PartId) (s : ℕ)
    (hs : s < (Superblock.decode ((dfsFormat mem st id).2.2.bytes id)).blockCount) :
    AddressSurvives (Superblock.decode ((dfsFormat mem st id).2.2.bytes id)) id s ↔
      (Superblock.decode ((dfsFormat mem st id).2.2.bytes id)).dataStart + s * DFS_BLOCK_SIZE <
        2 ^ 31 := by
  have hfits := Superblock.decode_fits ((dfsFormat mem st id).2.2.bytes id)
  have hdata := hfits.dataStart
  have hcount := hfits.blockCount
  refine ⟨fun h => ?_, addressSurvives_of_lt id⟩
  have heq := h.toU64_eq
  have hlt := blockAddress_lt (Superblock.decode ((dfsFormat mem st id).2.2.bytes id)) s
  rw [storedAddress] at heq
  rcases Nat.lt_or_ge (blockAddress (Superblock.decode ((dfsFormat mem st id).2.2.bytes id)) s)
    (2 ^ 31) with hsmall | hlarge
  · rw [toI32_of_mem (by omega) (by omega), toU64_natCast] at heq
    rw [← heq, Nat.mod_eq_of_lt (by omega)]
    exact hsmall
  · -- the sign is extended, to an offset that no block has
    rw [toI32_of_ge (by omega) (by omega), toU64] at heq
    simp only [DFS_BLOCK_SIZE] at heq
    omega

theorem addressSurvives_first_block :
    AddressSurvives (formattedState.superblock part0) part0 0 :=
  (addressSurvives_iff ampleMemory bootDisk.store part0 0 (by decide +kernel)).mpr (by decide +kernel)

/-- A partition of 3 GiB. -/
def largeStore : Store := ⟨fun _ => 6291456, fun _ _ => 0, fun _ => false, 0, []⟩

/-- Block 2000000 of a partition of 3 GiB lies beyond 2 GiB. -/
theorem address_beyond_2GiB_lost :
    (dfsFormat ampleMemory largeStore part0).1 = 0 ∧
      2000000 < (Superblock.decode
        ((dfsFormat ampleMemory largeStore part0).2.2.bytes part0)).blockCount ∧
      ¬ AddressSurvives (Superblock.decode
        ((dfsFormat ampleMemory largeStore part0).2.2.bytes part0)) part0 2000000 := by
  refine ⟨by decide +kernel, by decide +kernel, fun h => ?_⟩
  have heq := h.toU64_eq
  revert heq
  decide +kernel

end LittleLinux
