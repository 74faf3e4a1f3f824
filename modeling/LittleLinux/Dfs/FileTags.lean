import LittleLinux.Dfs.LeakedBlocks
import LittleLinux.Dfs.SyncFaults

/-!
# Tags and contents

The tag of a file says whether the disk has its data: `fs_write` and `fs_backspace` set
`changedTag`, and a file with any other tag is *settled*. `TagKept` is what this promises for one
entry: the data of a settled file that is in memory lies on the partition at its address.

A changed file is written to freshly allocated blocks, so its sync keeps the promise for the others
when the allocator gives out no block of theirs. `LandsApart` says when that is so: the blocks of the
others are marked in the bitmap as the scan sees it, and they are not among those that
the sync releases first.
-/

namespace LittleLinux

open ChainTable

/-! ### The promise of a tag -/

/-- What the entry has in memory lies on the partition at its address. -/
def OnPartition (st : Store) (id : PartId) (finfo : RamfsFileInfo) : Prop :=
  ∀ buf, finfo.ptr = some buf → toU64 finfo.driveAddr + toU32 finfo.length ≤ st.size id ∧
    ∀ i < toU32 finfo.length, st.bytes id (toU64 finfo.driveAddr + i) = buf.bytes.getD i 0

/-- The tag says that there is nothing to write. -/
def Settled (finfo : RamfsFileInfo) : Prop := finfo.type ≠ changedTag finfo

/-- The data of a settled file is on the partition. -/
def TagKept (st : Store) (id : PartId) (finfo : RamfsFileInfo) : Prop :=
  Settled finfo → OnPartition st id finfo

/-- The byte `x` of the partition holds data of a settled file that is in memory. -/
def SettledByte (finfo : RamfsFileInfo) (x : ℕ) : Prop :=
  Settled finfo ∧ finfo.ptr ≠ none ∧ toU64 finfo.driveAddr ≤ x ∧
    x < toU64 finfo.driveAddr + toU32 finfo.length

section Tags

variable {st st' : Store} {id : PartId} {finfo : RamfsFileInfo}

theorem onPartition_of_none (h : finfo.ptr = none) : OnPartition st id finfo := fun _ hbuf =>
  absurd (h.symm.trans hbuf) (Option.some_ne_none _).symm

/-- The promise is kept where the bytes of the data are. -/
theorem TagKept.of_bytes (h : TagKept st id finfo) (hsectors : st'.sectors = st.sectors)
    (hbytes : ∀ x, SettledByte finfo x → st'.bytes id x = st.bytes id x) : TagKept st' id finfo := by
  intro hset buf hbuf
  obtain ⟨hle, hdata⟩ := h hset buf hbuf
  have hsize : st'.size id = st.size id := by rw [Store.size, Store.size, hsectors]
  refine ⟨by rwa [hsize], fun i hi => ?_⟩
  have hptr : finfo.ptr ≠ none := by simp [hbuf]
  rw [hbytes _ ⟨hset, hptr, Nat.le_add_right _ _, Nat.add_lt_add_left hi _⟩]
  exact hdata i hi

theorem TagKept.of_same (h : TagKept st id finfo) (hsectors : st'.sectors = st.sectors)
    (hbytes : st'.bytes = st.bytes) : TagKept st' id finfo :=
  h.of_bytes hsectors fun x _ => by rw [hbytes]

/-- A file that is changed, by `fs_write` or `fs_backspace`, is not settled. -/
theorem tagKept_of_changed (h : finfo.type = changedTag finfo) : TagKept st id finfo := fun hset =>
  absurd h hset

end Tags

/-! ### Which files a sync writes -/

/-- A sync of the folder writes the file: it is dirty and has contents. A new one is taken for a
clean one. -/
def Written (finfo : RamfsFileInfo) : Prop := finfo.type = RAMFS_TYPE_DIRTY ∧ finfo.length ≠ 0

instance (finfo : RamfsFileInfo) : Decidable (Written finfo) := inferInstanceAs (Decidable (_ ∧ _))

/-- Where the sync of a changed file does no harm to the bytes `held`: on a formatted partition whose
data ends below 2 GiB, where the bytes lie outside the bitmap, and the block of every one of them is
marked as the scan sees it and is not released first. -/
structure LandsApart (d : Disk) (id : PartId) (held : ℕ → Prop) (finfo : RamfsFileInfo) : Prop where
  formatted : Formatted d.store id
  below : (Superblock.decode (d.store.bytes id)).dataStart +
    (Superblock.decode (d.store.bytes id)).blockCount * DFS_BLOCK_SIZE ≤ 2 ^ 31
  bitmap : ∀ x, held x → x < (Superblock.decode (d.store.bytes id)).bitmapStart ∨
    bitmapEnd (Superblock.decode (d.store.bytes id)).bitmapStart
      (Superblock.decode (d.store.bytes id)).blockCount ≤ x
  marked : ∀ x, held x → (Superblock.decode (d.store.bytes id)).dataStart ≤ x →
    BlockUsed (d.seen id (Superblock.decode (d.store.bytes id)).bitmapStart)
      (Superblock.decode (d.store.bytes id)).bitmapStart
      ((x - (Superblock.decode (d.store.bytes id)).dataStart) / DFS_BLOCK_SIZE)
  kept : ∀ x, held x → (Superblock.decode (d.store.bytes id)).dataStart ≤ x →
    ¬ ReleasedBlock (Superblock.decode (d.store.bytes id)) finfo
      ((x - (Superblock.decode (d.store.bytes id)).dataStart) / DFS_BLOCK_SIZE)

section File

variable {d : Disk} {id : PartId} {finfo : RamfsFileInfo} {held : ℕ → Prop}

/-- An entry that is not written is left alone, and so is the disk. -/
theorem syncEntry_of_unwritten (h : ¬ Written finfo) : syncEntry id d finfo = (finfo, d) := by
  rw [syncEntry]
  split_ifs with htag
  · have hidle : finfo.length = 0 ∨ finfo.type = RAMFS_FOLDER_TYPE_DISK_CLEAN := by
      rcases htag with hnew | hdirty
      · exact .inr hnew
      · exact .inl (not_not.mp fun hlen => h ⟨hdirty, hlen⟩)
    rw [dfsSyncFile_of_idle hidle]
  · rfl

theorem syncEntry_of_written (h : Written finfo) :
    syncEntry id d finfo = (dfsSyncFile d finfo id).2 :=
  if_pos (.inr h.1)

/-- A block that is marked and not released stays marked, whatever fails. -/
theorem blockUsed_releasedDisk (hf : Formatted d.store id) {j : ℕ}
    (hj : j < (Superblock.decode (d.store.bytes id)).blockCount)
    (hused : BlockUsed (d.store.bytes id) (Superblock.decode (d.store.bytes id)).bitmapStart j)
    (hkept : ¬ ReleasedBlock (Superblock.decode (d.store.bytes id)) finfo j) :
    BlockUsed ((releasedDisk d finfo id).store.bytes id)
      (Superblock.decode (d.store.bytes id)).bitmapStart j := by
  have hw : NoWrap (Superblock.decode (d.store.bytes id)).bitmapStart
      (Superblock.decode (d.store.bytes id)).blockCount := hf ▸ formatSuperblock_noWrap _
  rw [releasedDisk]
  split_ifs with hrel
  · dsimp only
    by_cases hstart : (Superblock.decode (d.store.bytes id)).dataStart ≤ toU32 finfo.driveAddr
    · refine (dfsFreeFileBlocks_spec rfl hw _ _).2 j hused ?_
      by_contra hrange
      exact hkept ⟨hrel, hstart, by omega, by omega, hj⟩
    · rw [dfsFreeFileBlocks]
      rcases hsuper : (readSuperblock d.store id).1 with _ | sb
      · exact hused
      obtain rfl := readSuperblock_eq_some hsuper
      dsimp only
      rw [if_pos (by omega)]
      exact hused
  · exact hused

/-- The release touches nothing but the bitmap. -/
theorem bitmapChange_releasedDisk (hf : Formatted d.store id) (finfo : RamfsFileInfo) :
    BitmapChange id (Superblock.decode (d.store.bytes id)).bitmapStart
      (bitmapEnd (Superblock.decode (d.store.bytes id)).bitmapStart
        (Superblock.decode (d.store.bytes id)).blockCount) d.store (releasedDisk d finfo id).store := by
  have hw : NoWrap (Superblock.decode (d.store.bytes id)).bitmapStart
      (Superblock.decode (d.store.bytes id)).blockCount := hf ▸ formatSuperblock_noWrap _
  rw [releasedDisk]
  split_ifs
  · exact (dfsFreeFileBlocks_spec rfl hw _ _).1
  · exact .refl _ _ _ _

/-- **Release and allocation touch nothing but the bitmap**, and the address is that of a run that the
scan sees after the release. -/
theorem allocatedDisk_lands (hf : Formatted d.store id) (finfo : RamfsFileInfo) :
    BitmapChange id (Superblock.decode (d.store.bytes id)).bitmapStart
        (bitmapEnd (Superblock.decode (d.store.bytes id)).bitmapStart
          (Superblock.decode (d.store.bytes id)).blockCount) d.store
        (allocatedDisk d finfo id).2.store ∧
      ((allocatedDisk d finfo id).1 ≠ 0 → ∃ s, SeesRun (releasedDisk d finfo id) id
          (Superblock.decode (d.store.bytes id)) (blocksFor (toU64 finfo.length)) s ∧
        (allocatedDisk d finfo id).1 = blockAddress (Superblock.decode (d.store.bytes id)) s) := by
  have hw : NoWrap (Superblock.decode (d.store.bytes id)).bitmapStart
      (Superblock.decode (d.store.bytes id)).blockCount := hf ▸ formatSuperblock_noWrap _
  have hlo : 28 ≤ (Superblock.decode (d.store.bytes id)).bitmapStart := by
    rw [hf, formatSuperblock_bitmapStart]
    norm_num
  have hrel := bitmapChange_releasedDisk hf finfo
  have hsb := hrel.superblock_eq hlo id
  rcases dfsAllocFileBlocks_cases hsb hw.bitmapEnd_le (toU64 finfo.length) with
    ⟨hzero, hsame⟩ | ⟨s, st, hsees, hsame, haddr, hstore⟩
  · exact ⟨hrel.trans (hsame.bitmapChange _ _ _), fun hne => absurd hzero hne⟩
  · have hmark := (markBlocks_spec id hw.bitmapEnd_le _ s st hsees.first.fits).1
    refine ⟨hrel.trans ((hsame.bitmapChange _ _ _).trans (hstore ▸ hmark)), fun hne => ⟨s, hsees, ?_⟩⟩
    refine haddr.trans (if_pos ?_)
    by_contra hfail
    exact hne (haddr.trans (if_neg hfail))

/-- The run that is taken holds none of the bytes. -/
theorem LandsApart.run (h : LandsApart d id held finfo) {n s x : ℕ}
    (hs : SeesRun (releasedDisk d finfo id) id (Superblock.decode (d.store.bytes id)) n s)
    (hx : held x) :
    x < (Superblock.decode (d.store.bytes id)).dataStart + s * DFS_BLOCK_SIZE ∨
      (Superblock.decode (d.store.bytes id)).dataStart + (s + n) * DFS_BLOCK_SIZE ≤ x := by
  have hmarked := h.marked x hx
  have hkept := h.kept x hx
  have hw : NoWrap (Superblock.decode (d.store.bytes id)).bitmapStart
      (Superblock.decode (d.store.bytes id)).blockCount := h.formatted ▸ formatSuperblock_noWrap _
  set sb := Superblock.decode (d.store.bytes id) with hsb
  by_contra hin
  rw [not_or, not_lt, not_le] at hin
  simp only [DFS_BLOCK_SIZE] at hin hmarked hkept
  obtain ⟨hle, hlt⟩ := hin
  have hstart : sb.dataStart ≤ x := by omega
  set j := (x - sb.dataStart) / 1024 with hj
  have hjs : s ≤ j := by omega
  have hjn : j < s + n := by omega
  have hcount : j < sb.blockCount := hjn.trans_le hs.first.fits
  -- the scan sees the block marked after the release too
  refine hs.first.run j hjs hjn ?_
  have hused := hmarked hstart
  obtain ⟨hlast, hval⟩ := releasedDisk_statics d finfo id
  have hoff := byteOff_eq hw.bitmapEnd_le hcount
  rw [BlockUsed, Disk.seen] at hused ⊢
  rw [hlast, hval]
  split_ifs at hused ⊢ with hcached
  · exact hused
  · rw [hoff] at hused ⊢
    exact blockUsed_releasedDisk h.formatted hcount hused (hkept hstart)

/-- The bytes that are written fit the run. -/
theorem toI32_le_blocks {length : ℤ} (hpos : 0 < blocksFor (toU64 length)) :
    (toI32 length).toNat ≤ blocksFor (toU64 length) * DFS_BLOCK_SIZE := by
  have hlt : toU64 length < 2 ^ 64 := by
    unfold toU64
    omega
  have hle : (toI32 length).toNat ≤ toU64 length := by
    unfold toI32 toU64
    rw [Int.bmod_def]
    split_ifs <;> omega
  rcases Nat.lt_or_ge (toU64 length + 1023) (2 ^ 64) with hsmall | hge
  · rw [blocksFor_of_lt hsmall, ceilBlocks]
    simp only [DFS_BLOCK_SIZE]
    omega
  · rw [(blocksFor_of_ge hge hlt).1] at hpos
    exact absurd hpos (lt_irrefl 0)

theorem toU32_eq_of_toI32_pos {x : ℤ} (h : 0 < toI32 x) : toU32 x = (toI32 x).toNat := by
  unfold toI32 at h ⊢
  unfold toU32
  rw [Int.bmod_def] at h ⊢
  split_ifs at h ⊢ <;> omega

/-- What the sync of one file leaves: the other partitions and the bytes `held` are as they were. -/
structure SyncedApart (id : PartId) (held : ℕ → Prop) (st st' : Store) : Prop where
  sectors : st'.sectors = st.sectors
  others : ∀ id' ≠ id, st'.bytes id' = st.bytes id'
  held : ∀ x, held x → st'.bytes id x = st.bytes id x

theorem SyncedApart.refl (id : PartId) (held : ℕ → Prop) (st : Store) : SyncedApart id held st st :=
  ⟨rfl, fun _ _ => rfl, fun _ _ => rfl⟩

theorem SyncedApart.trans {st st' st'' : Store} (h : SyncedApart id held st st')
    (h' : SyncedApart id held st' st'') : SyncedApart id held st st'' where
  sectors := h'.sectors.trans h.sectors
  others := fun id' hne => (h'.others id' hne).trans (h.others id' hne)
  held := fun x hx => (h'.held x hx).trans (h.held x hx)

/-- A write that stays off the bytes. -/
theorem syncedApart_write (st : Store) {offset : ℕ} {length : ℤ} {data : ByteMemory}
    (h : ∀ x, held x → x < offset ∨ offset + length.toNat ≤ x) :
    SyncedApart id held st (st.write id offset length data).2 :=
  ⟨rfl, fun _ hne => Store.write_bytes_of_ne hne, fun x hx => Store.write_bytes_of_notMem (h x hx)⟩

/-- The third phase at an address behind which the bytes are not. -/
theorem syncedApart_writeFileData {addr : ℕ}
    (h : ∀ x, held x → x < addr ∨ addr + (toI32 finfo.length).toNat ≤ x) :
    SyncedApart id held d.store (writeFileData d finfo id addr).2.2.store := by
  rw [writeFileData]
  rcases finfo.ptr with _ | buf
  · exact ⟨rfl, fun _ _ => rfl, fun _ _ => rfl⟩
  · exact syncedApart_write d.store h

/-- The third phase keeps the promise of the tag: it turns clean when the data is written, and stays
dirty otherwise. -/
theorem tagKept_writeFileData {addr : ℕ} (htype : finfo.type = RAMFS_TYPE_DIRTY) (hne : addr ≠ 0)
    (hsmall : addr < 2 ^ 31) :
    TagKept (writeFileData d { finfo with driveAddr := toI32 addr } id addr).2.2.store id
      (writeFileData d { finfo with driveAddr := toI32 addr } id addr).2.1 := by
  have haddr : toI32 addr = addr := toI32_of_mem (by omega) (by omega)
  have hchanged : TagKept (writeFileData d { finfo with driveAddr := toI32 addr } id addr).2.2.store id
      { finfo with driveAddr := toI32 addr } := by
    refine tagKept_of_changed (htype.trans (if_neg ?_).symm)
    dsimp only
    rw [haddr, Int.natCast_eq_zero]
    exact hne
  revert hchanged
  rw [writeFileData]
  dsimp only
  cases hptr : finfo.ptr with
  | none =>
    dsimp only
    rw [if_neg (by simp [Store.refuse])]
    exact fun h => h
  | some buf =>
    dsimp only
    split_ifs with hok
    · intro _ _ buf' hbuf'
      obtain rfl : buf = buf' := Option.some.inj hbuf'
      obtain ⟨-, hpos, hin⟩ := Store.write_eq_true hok
      have hlen := toU32_eq_of_toI32_pos hpos
      dsimp only
      rw [haddr, toU64_natCast, Nat.mod_eq_of_lt (by omega), hlen, Store.write_size,
        Store.write_bytes_of_eq_true hok, Function.update_self]
      exact ⟨by omega, fun i hi => ByteMemory.putBytes_add hi⟩
    · exact fun h => h

/-- **The sync of one file** keeps the promise of its tag, and the bytes that it lands apart from. -/
theorem tagKept_syncEntry (held : ℕ → Prop) (hkept : TagKept d.store id finfo)
    (hself : ∀ x, SettledByte finfo x → held x) (hland : Written finfo → LandsApart d id held finfo) :
    SyncedApart id held d.store (syncEntry id d finfo).2.store ∧
      TagKept (syncEntry id d finfo).2.store id (syncEntry id d finfo).1 := by
  by_cases hw : Written finfo
  swap
  · rw [syncEntry_of_unwritten hw]
    exact ⟨.refl _ _ _, hkept⟩
  have hland := hland hw
  obtain ⟨hchange, hrun⟩ := allocatedDisk_lands hland.formatted finfo
  have halloc : SyncedApart id held d.store (allocatedDisk d finfo id).2.store :=
    ⟨hchange.sectors, hchange.others, fun x hx => hchange.outside x (hland.bitmap x hx)⟩
  rw [syncEntry_of_written hw, dfsSyncFile_of_dirty hw.2 hw.1]
  -- no run was found: only bitmap bytes may have changed
  by_cases hzero : (allocatedDisk d finfo id).1 = 0
  · rw [if_pos hzero]
    exact ⟨halloc, hkept.of_bytes halloc.sectors fun x hx => halloc.held x (hself x hx)⟩
  rw [if_neg hzero]
  obtain ⟨s, hsees, haddr⟩ := hrun hzero
  have hbelow := hland.below
  have hfits := hsees.first.fits
  have hblock : blockAddress (Superblock.decode (d.store.bytes id)) s =
      (Superblock.decode (d.store.bytes id)).dataStart + s * DFS_BLOCK_SIZE := by
    refine Nat.mod_eq_of_lt ?_
    simp only [DFS_BLOCK_SIZE] at hbelow ⊢
    omega
  have hsize := toI32_le_blocks hsees.pos
  refine ⟨halloc.trans (syncedApart_writeFileData fun x hx => ?_), tagKept_writeFileData hw.1 hzero ?_⟩
  · have hapart := hland.run hsees hx
    rw [haddr, hblock]
    simp only [DFS_BLOCK_SIZE] at hapart hsize ⊢
    omega
  · have hpos := hsees.pos
    rw [haddr, hblock]
    simp only [DFS_BLOCK_SIZE] at hbelow ⊢
    omega

theorem LandsApart.mono {held' : ℕ → Prop} (h : LandsApart d id held finfo)
    (hsub : ∀ x, held' x → held x) : LandsApart d id held' finfo where
  formatted := h.formatted
  below := h.below
  bitmap := fun x hx => h.bitmap x (hsub x hx)
  marked := fun x hx => h.marked x (hsub x hx)
  kept := fun x hx => h.kept x (hsub x hx)

end File

/-! ### All files of a folder -/

/-- The byte holds settled data of one of the entries. -/
def HeldBy (l : List RamfsFileInfo) (x : ℕ) : Prop := ∃ finfo ∈ l, SettledByte finfo x

/-- The files of a chain are synced one after the other. Each that is written lands apart from
`others` and from the settled data of all entries of the chain, as these are when it is its turn. -/
def ChainLandsApart (id : PartId) (others : ℕ → Prop) (c : List (Node CString RamfsFileInfo))
    (d : Disk) : Prop :=
  ∀ pre nd post, c = pre ++ nd :: post → Written nd.value →
    LandsApart (mapAccumChain (syncEntry id) pre d).2 id
      (fun x => others x ∨
        HeldBy ((mapAccumChain (syncEntry id) pre d).1.map Node.value ++ (nd :: post).map Node.value) x)
      nd.value

section Chain

variable {id : PartId} {c : List (Node CString RamfsFileInfo)} {d : Disk}

theorem mapAccumChain_of_unwritten (id : PartId) (d : Disk) (h : ∀ nd ∈ c, ¬ Written nd.value) :
    mapAccumChain (syncEntry id) c d = (c, d) := by
  induction c with
  | nil => rfl
  | cons nd c ih =>
    rw [mapAccumChain, syncEntry_of_unwritten (h nd List.mem_cons_self),
      ih fun nd' hnd' => h nd' (List.mem_cons_of_mem _ hnd')]

/-- What the rest of a chain lands apart from, after the first entry. -/
theorem ChainLandsApart.tail {others : ℕ → Prop} {nd : Node CString RamfsFileInfo}
    (h : ChainLandsApart id others (nd :: c) d) :
    ChainLandsApart id (fun x => others x ∨ SettledByte (syncEntry id d nd.value).1 x) c
      (syncEntry id d nd.value).2 := by
  intro pre nd' post hc hw
  refine (h (nd :: pre) nd' post (by rw [hc, List.cons_append]) hw).mono fun x hx => ?_
  rw [mapAccumChain, List.map_cons, List.cons_append]
  rcases hx with (hother | hfirst) | ⟨finfo, hmem, hbyte⟩
  · exact .inl hother
  · exact .inr ⟨_, List.mem_cons_self, hfirst⟩
  · exact .inr ⟨finfo, List.mem_cons_of_mem _ hmem, hbyte⟩

/-- **The loop over the files** keeps the promise of every tag, and the bytes that it lands apart
from. -/
theorem tagKept_mapAccumChain {others : ℕ → Prop}
    (hkept : ∀ finfo ∈ c.map Node.value, TagKept d.store id finfo)
    (hland : ChainLandsApart id others c d) :
    SyncedApart id others d.store (mapAccumChain (syncEntry id) c d).2.store ∧
      ∀ finfo ∈ (mapAccumChain (syncEntry id) c d).1.map Node.value,
        TagKept (mapAccumChain (syncEntry id) c d).2.store id finfo := by
  induction c generalizing d others with
  | nil => exact ⟨.refl _ _ _, fun finfo hmem => absurd hmem List.not_mem_nil⟩
  | cons nd c ih =>
    obtain ⟨hfirst, hnew⟩ := tagKept_syncEntry (fun x => others x ∨
        HeldBy ((nd :: c).map Node.value) x) (hkept nd.value List.mem_cons_self)
      (fun x hx => .inr ⟨_, List.mem_cons_self, hx⟩) (hland [] nd c rfl)
    have hrest : ∀ finfo ∈ c.map Node.value, TagKept (syncEntry id d nd.value).2.store id finfo :=
      fun finfo hmem => (hkept finfo (List.mem_cons_of_mem _ hmem)).of_bytes hfirst.sectors
        fun x hx => hfirst.held x (.inr ⟨finfo, List.mem_cons_of_mem _ hmem, hx⟩)
    obtain ⟨hlast, hall⟩ := ih hrest hland.tail
    rw [mapAccumChain, List.map_cons]
    refine ⟨⟨hlast.sectors.trans hfirst.sectors, fun id' hne => ?_, fun x hx => ?_⟩, fun finfo hmem => ?_⟩
    · exact (hlast.others id' hne).trans (hfirst.others id' hne)
    · exact (hlast.held x (.inl hx)).trans (hfirst.held x (.inl hx))
    · rcases List.mem_cons.mp hmem with rfl | hmem
      · exact hnew.of_bytes hlast.sectors fun x hx => hlast.held x (.inr hx)
      · exact hall finfo hmem

end Chain

end LittleLinux
