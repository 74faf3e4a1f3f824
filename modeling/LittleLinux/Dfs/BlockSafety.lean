import LittleLinux.Dfs.Blocks
import LittleLinux.Lib.Run

/-!
# No block is allocated twice

Runs of `dfs_alloc_file_blocks` and `dfs_free_file_blocks` over any number of formatted
partitions. The run keeps the extents that are live, and `NoDoubleAllocation` says that live
extents of a partition do not overlap and that their bits are set.

Two things break this. The scan trusts its static variables at the first byte of the bitmap,
so an allocation that follows a change of that byte may see the old one; and the address of a
block is cut to 32 bits. `BlockOp.Sound` is the condition that neither happens: the static
variables are right, and the first run of clear bits starts below 4 GiB. Along every run of
sound calls no block is allocated twice (`dfsAllocFileBlocks_no_double_allocation`);
`dfsAllocFileBlocks_allocates_twice` is a run of two allocations that get the same block.
-/

namespace LittleLinux

/-! ### Formatted partitions -/

/-- The partition carries the superblock that `dfs_format` writes on it. -/
def Formatted (st : Store) (id : PartId) : Prop :=
  Superblock.decode (st.bytes id) = formatSuperblock (st.size id)

theorem formatSuperblock_fits (n : ℕ) : (formatSuperblock n).Fits where
  magic := show DFS_MAGIC < 2 ^ 32 by decide
  totalFolders := show DFS_MAX_FOLDERS < 2 ^ 32 by decide
  curFolders := show 1 < 2 ^ 32 by norm_num
  rootPointer := show sizeofSuperblock < 2 ^ 32 by decide
  bitmapStart := show 143180312 < 2 ^ 32 by norm_num
  dataStart := by
    simp only [formatSuperblock]
    omega
  blockCount := toU32_lt _

theorem formatSuperblock_noWrap (n : ℕ) :
    NoWrap (formatSuperblock n).bitmapStart (formatSuperblock n).blockCount where
  base_le := show 143180312 + 2 ^ 29 ≤ 2 ^ 32 by norm_num
  total_lt := toU32_lt _

/-- A partition whose superblock and size are as before is still formatted. -/
theorem Formatted.of_bitmapChange {id id' : PartId} {lo hi : ℕ} {st st' : Store}
    (h : BitmapChange id lo hi st st') (hlo : 28 ≤ lo) (hf : Formatted st id') :
    Formatted st' id' := by
  rw [Formatted, h.superblock_eq hlo, h.size_eq]
  exact hf

/-- **What a successful `dfs_format` leaves**: its superblock on its own partition, and nothing
changed on the others. -/
theorem dfsFormat_spec (mem : Memory) (st : Store) (id : PartId) :
    (dfsFormat mem st id).2.2.sectors = st.sectors ∧
      (∀ id' ≠ id, (dfsFormat mem st id).2.2.bytes id' = st.bytes id') ∧
      ((dfsFormat mem st id).1 = 0 → Formatted (dfsFormat mem st id).2.2 id) := by
  rw [dfsFormat]
  set sb := formatSuperblock (st.size id) with hsb
  set w := st.write id 0 sizeofSuperblock sb.encode with hw
  set r := w.2.write id sb.rootPointer sizeofDiskFolder rootRecord.encode with hr
  have hwo : ∀ id' ≠ id, w.2.bytes id' = st.bytes id' := fun id' hne => Store.write_bytes_of_ne hne
  have hro : ∀ id' ≠ id, r.2.bytes id' = st.bytes id' := fun id' hne =>
    (Store.write_bytes_of_ne hne).trans (hwo id' hne)
  dsimp only
  split_ifs with h₁ h₂ h₃
  · exact ⟨rfl, fun _ _ => rfl, fun h => by simp at h⟩
  · exact ⟨rfl, hwo, fun h => by simp at h⟩
  · exact ⟨rfl, hro, fun h => by simp at h⟩
  · rw [Bool.not_eq_false] at h₂
    -- the superblock is written first, and both later writes stay behind it
    have hsuper : ∀ i < 28, r.2.bytes id i = sb.encode i := fun i hi => by
      have hroot : sb.rootPointer = 536 := rfl
      have hsize : ((sizeofSuperblock : ℕ) : ℤ).toNat = 536 := rfl
      rw [Store.write_bytes_of_notMem (.inl (by omega)), Store.write_bytes_of_eq_true h₂,
        Function.update_self, ByteMemory.putBytes_of_mem (by omega) (by omega), Nat.sub_zero]
    have hdec : ∀ {st' : Store}, st'.sectors = st.sectors → (∀ i < 28, st'.bytes id i = r.2.bytes id i) →
        Formatted st' id := by
      intro st' hsec hb
      have hsize : st'.size id = st.size id := by rw [Store.size, Store.size, hsec]
      rw [Formatted, hsize,
        Superblock.decode_congr fun i hi => (hb i hi).trans (hsuper i hi)]
      exact Superblock.decode_encode (formatSuperblock_fits _)
    rcases (mem.malloc ((st.size id / DFS_BLOCK_SIZE % 2 ^ 32 + 7) % 2 ^ 32 / 8)).1 with _ | buf
    · exact ⟨rfl, hro, fun _ => hdec rfl fun _ _ => rfl⟩
    · refine ⟨rfl, fun id' hne => (Store.write_bytes_of_ne hne).trans (hro id' hne), fun _ =>
        hdec rfl fun i hi => Store.write_bytes_of_notMem (.inl ?_)⟩
      have hstart : sb.bitmapStart = 143180312 := rfl
      omega

/-- Formatting one partition after another. -/
def formatStep (s : Memory × Store) (id : PartId) : Memory × Store := (dfsFormat s.1 s.2 id).2

/-- The partitions formatted with success are formatted in the end. -/
theorem formatted_of_formats {s : Memory × Store} {ids : List PartId}
    (h : Along formatStep (fun s id => (dfsFormat s.1 s.2 id).1 = 0) s ids) :
    ∀ id ∈ ids, Formatted (ids.foldl formatStep s).2 id := by
  have hkeep : ∀ (ids : List PartId) (s : Memory × Store) (id : PartId),
      Along formatStep (fun s id => (dfsFormat s.1 s.2 id).1 = 0) s ids →
      Formatted s.2 id → Formatted (ids.foldl formatStep s).2 id := by
    intro ids
    induction ids with
    | nil => exact fun s id _ hf => hf
    | cons i ids ih =>
      intro s id h hf
      obtain ⟨hsec, hoth, hfmt⟩ := dfsFormat_spec s.1 s.2 i
      refine ih _ id h.2 ?_
      rcases eq_or_ne id i with rfl | hne
      · exact hfmt h.1
      · rw [Formatted, formatStep, hoth id hne, Store.size, hsec]
        exact hf
  induction ids generalizing s with
  | nil => simp
  | cons i ids ih =>
    intro id hid
    obtain ⟨-, -, hfmt⟩ := dfsFormat_spec s.1 s.2 i
    rcases List.mem_cons.mp hid with rfl | hid
    · exact hkeep ids _ id h.2 (hfmt h.1)
    · exact ih h.2 id hid

/-! ### The two calls -/

theorem readSuperblock_eq_some {st : Store} {id : PartId} {sb : Superblock}
    (h : (readSuperblock st id).1 = some sb) : sb = Superblock.decode (st.bytes id) := by
  obtain ⟨b, hb, rfl⟩ := Option.map_eq_some_iff.mp h
  obtain ⟨-, rfl⟩ := Store.read_eq_some hb
  exact Superblock.decode_congr fun i _ => by rw [Nat.zero_add]

/-- The block `i` of the partition is clear. -/
def BlockClear (st : Store) (id : PartId) (base i : ℕ) : Prop := ¬ BlockUsed (st.bytes id) base i

/-- **What an allocation does**, when the static variables are right at the start of the bitmap:
only bits of the first clear run are set, and when it succeeds it answers with the address of
that run, all of whose bits are then set. -/
theorem dfsAllocFileBlocks_spec {d : Disk} {id : PartId} {sb : Superblock}
    (hsb : Superblock.decode (d.store.bytes id) = sb) (hw : NoWrap sb.bitmapStart sb.blockCount)
    (hc : CacheAt d id sb.bitmapStart) (size : ℕ) :
    BitmapChange id sb.bitmapStart (bitmapEnd sb.bitmapStart sb.blockCount) d.store
        (dfsAllocFileBlocks d id size).2.store ∧
      (∀ j, BlockUsed (d.store.bytes id) sb.bitmapStart j →
        BlockUsed ((dfsAllocFileBlocks d id size).2.store.bytes id) sb.bitmapStart j) ∧
      ((dfsAllocFileBlocks d id size).1 ≠ 0 → 0 < blocksFor size ∧
        ∃ s, FirstRun (BlockClear d.store id sb.bitmapStart) sb.blockCount (blocksFor size) s ∧
          (dfsAllocFileBlocks d id size).1 = (sb.dataStart + s * DFS_BLOCK_SIZE) % 2 ^ 32 ∧
          ∀ j, s ≤ j → j < s + blocksFor size →
            BlockUsed ((dfsAllocFileBlocks d id size).2.store.bytes id) sb.bitmapStart j) := by
  have hread : SameBytes d.store (readSuperblock d.store id).2 := ⟨rfl, rfl, rfl, rfl⟩
  rw [dfsAllocFileBlocks]
  rcases hr : (readSuperblock d.store id).1 with _ | sb'
  · exact ⟨hread.bitmapChange _ _ _, fun j hj => hj, fun h => absurd rfl h⟩
  obtain rfl : sb' = sb := (readSuperblock_eq_some hr).trans hsb
  dsimp only
  rcases Classical.em (blocksFor size = 0 ∨ blocksFor size > sb'.blockCount) with hneed | hneed
  · rw [if_pos hneed]
    exact ⟨hread.bitmapChange _ _ _, fun j hj => hj, fun h => absurd rfl h⟩
  rw [if_neg hneed]
  obtain ⟨hsame, hfound, -⟩ := scanBlocks_spec (d := { d with store := (readSuperblock d.store id).2 })
    id hw (show 0 < blocksFor size by omega) hc
  set s := scanBlocks id sb'.bitmapStart (blocksFor size) sb'.blockCount 0 0 0
    { d with store := (readSuperblock d.store id).2 } with hs
  have hscan : SameBytes d.store s.2.store := hread.trans hsame
  rcases hv : s.1 with _ | found
  · exact ⟨hscan.bitmapChange _ _ _, fun j hj => by rw [hscan.bytes]; exact hj,
      fun h => absurd rfl h⟩
  dsimp only
  rcases hfound found hv with ⟨hn, hfirst, -⟩ | ⟨hn, -⟩
  · rw [if_neg (by omega)]
    obtain ⟨hch, -, hold, hall⟩ := markBlocks_spec id hw.bitmapEnd_le (blocksFor size) found.1 s.2.store
      hfirst.fits
    rw [hscan.bytes] at hold
    refine ⟨(hscan.bitmapChange _ _ _).trans hch, hold, fun h => ⟨by omega, found.1, hfirst, ?_, ?_⟩⟩
    · rcases hm : (markBlocks id sb'.bitmapStart (blocksFor size) found.1 s.2.store).1 with _ | _
      · simp [hm] at h
      · simp
    · refine hall ?_
      rcases hm : (markBlocks id sb'.bitmapStart (blocksFor size) found.1 s.2.store).1 with _ | _
      · simp [hm] at h
      · rfl
  · rw [if_pos hn]
    exact ⟨hscan.bitmapChange _ _ _, fun j hj => by rw [hscan.bytes]; exact hj,
      fun h => absurd rfl h⟩

/-- **What a release does**: only bits of its own blocks are cleared. -/
theorem dfsFreeFileBlocks_spec {st : Store} {id : PartId} {sb : Superblock}
    (hsb : Superblock.decode (st.bytes id) = sb) (hw : NoWrap sb.bitmapStart sb.blockCount)
    (startAddr size : ℕ) :
    BitmapChange id sb.bitmapStart (bitmapEnd sb.bitmapStart sb.blockCount) st
        (dfsFreeFileBlocks st id startAddr size) ∧
      ∀ j, BlockUsed (st.bytes id) sb.bitmapStart j →
        j < (startAddr - sb.dataStart) / DFS_BLOCK_SIZE ∨
          (startAddr - sb.dataStart) / DFS_BLOCK_SIZE + blocksFor size ≤ j →
        BlockUsed ((dfsFreeFileBlocks st id startAddr size).bytes id) sb.bitmapStart j := by
  have hread : SameBytes st (readSuperblock st id).2 := ⟨rfl, rfl, rfl, rfl⟩
  rw [dfsFreeFileBlocks]
  rcases hr : (readSuperblock st id).1 with _ | sb'
  · exact ⟨hread.bitmapChange _ _ _, fun j hj _ => hj⟩
  obtain rfl : sb' = sb := (readSuperblock_eq_some hr).trans hsb
  dsimp only
  split_ifs
  · exact ⟨hread.bitmapChange _ _ _, fun j hj _ => hj⟩
  · obtain ⟨hch, -, hkeep⟩ := clearBlocks_spec id hw.bitmapEnd_le (blocksFor size)
      ((startAddr - sb'.dataStart) / DFS_BLOCK_SIZE) (readSuperblock st id).2
    exact ⟨(hread.bitmapChange _ _ _).trans hch, hkeep⟩

/-! ### Runs -/

/-- An allocation that a caller holds: partition, address and size. -/
structure Extent where
  id : PartId
  addr : ℕ
  size : ℕ
deriving DecidableEq

/-- The byte after the last block of the extent. -/
def Extent.stop (e : Extent) : ℕ := e.addr + blocksFor e.size * DFS_BLOCK_SIZE

/-- The disks with the extents that are live. -/
structure BlockState where
  disk : Disk
  live : List Extent

/-- The superblock of a partition, as it stands on the disk. -/
def BlockState.superblock (s : BlockState) (id : PartId) : Superblock :=
  Superblock.decode (s.disk.store.bytes id)

inductive BlockOp where
  | alloc (id : PartId) (size : ℕ)
  | free (e : Extent)

/-- The partition a call works on. -/
def BlockOp.id : BlockOp → PartId
  | .alloc id _ => id
  | .free e => e.id

/-- What a caller may do: allocate any 64-bit size, free an allocation it holds. -/
def BlockOp.Legal (s : BlockState) : BlockOp → Prop
  | .alloc _ size => size < 2 ^ 64
  | .free e => e ∈ s.live

/-- An allocation that neither trusts a stale byte nor finds its run beyond 4 GiB. -/
def BlockOp.Sound (s : BlockState) : BlockOp → Prop
  | .alloc id size =>
    CacheAt s.disk id (s.superblock id).bitmapStart ∧
      ∀ b, FirstRun (BlockClear s.disk.store id (s.superblock id).bitmapStart)
          (s.superblock id).blockCount (blocksFor size) b →
        (s.superblock id).dataStart + b * DFS_BLOCK_SIZE < 2 ^ 32
  | .free _ => True

/-- One call. -/
def blockStep (s : BlockState) : BlockOp → BlockState
  | .alloc id size =>
    let r := dfsAllocFileBlocks s.disk id size
    ⟨r.2, if r.1 = 0 then s.live else ⟨id, r.1, size⟩ :: s.live⟩
  | .free e =>
    ⟨{ s.disk with store := dfsFreeFileBlocks s.disk.store e.id e.addr e.size }, s.live.erase e⟩

/-- Live extents of one partition do not overlap, and the bits of their blocks are set. -/
structure NoDoubleAllocation (s : BlockState) : Prop where
  disjoint : s.live.Pairwise fun e f => e.id = f.id → e.stop ≤ f.addr ∨ f.stop ≤ e.addr
  marked : ∀ e ∈ s.live, ∀ i < blocksFor e.size,
    BlockUsed (s.disk.store.bytes e.id) (s.superblock e.id).bitmapStart
      ((e.addr - (s.superblock e.id).dataStart) / DFS_BLOCK_SIZE + i)

/-- The extent lies on whole blocks of a formatted partition, and its bits are set. -/
structure Placed (s : BlockState) (e : Extent) (block : ℕ) : Prop where
  addr_eq : e.addr = (s.superblock e.id).dataStart + block * DFS_BLOCK_SIZE
  pos : 0 < blocksFor e.size
  marked : ∀ j, block ≤ j → j < block + blocksFor e.size →
    BlockUsed (s.disk.store.bytes e.id) (s.superblock e.id).bitmapStart j

/-- The invariant of a run over the partitions `ids`. -/
structure BlockInv (ids : List PartId) (s : BlockState) : Prop where
  formatted : ∀ id ∈ ids, Formatted s.disk.store id
  placed : ∀ e ∈ s.live, e.id ∈ ids ∧ ∃ block, Placed s e block
  disjoint : s.live.Pairwise fun e f => e.id = f.id → e.stop ≤ f.addr ∨ f.stop ≤ e.addr

/-- The bitmap of a formatted partition lies behind the superblock and below 4 GiB. -/
theorem BlockInv.bitmap_place {ids : List PartId} {s : BlockState} (h : BlockInv ids s) {id : PartId}
    (hid : id ∈ ids) : NoWrap (s.superblock id).bitmapStart (s.superblock id).blockCount ∧
      28 ≤ (s.superblock id).bitmapStart := by
  rw [BlockState.superblock, h.formatted id hid]
  exact ⟨formatSuperblock_noWrap _, show 28 ≤ 143180312 by norm_num⟩

theorem Placed.block_eq {s : BlockState} {e : Extent} {block : ℕ} (h : Placed s e block) :
    (e.addr - (s.superblock e.id).dataStart) / DFS_BLOCK_SIZE = block := by
  rw [h.addr_eq, Nat.add_sub_cancel_left, Nat.mul_div_cancel _ (by decide)]

theorem BlockInv.noDoubleAllocation {ids : List PartId} {s : BlockState} (h : BlockInv ids s) :
    NoDoubleAllocation s where
  disjoint := h.disjoint
  marked := fun e he i hi => by
    obtain ⟨-, block, hp⟩ := h.placed e he
    rw [hp.block_eq]
    exact hp.marked _ (by omega) (by omega)

/-- An extent stays placed where the superblocks stay and its own bits stay set. -/
theorem Placed.congr {s s' : BlockState} {e : Extent} {block : ℕ} (h : Placed s e block)
    (hsb : s'.superblock e.id = s.superblock e.id)
    (hbits : ∀ j, block ≤ j → j < block + blocksFor e.size →
      BlockUsed (s.disk.store.bytes e.id) (s.superblock e.id).bitmapStart j →
      BlockUsed (s'.disk.store.bytes e.id) (s.superblock e.id).bitmapStart j) :
    Placed s' e block where
  addr_eq := by rw [hsb, h.addr_eq]
  pos := h.pos
  marked := fun j h₁ h₂ => by
    rw [hsb]
    exact hbits j h₁ h₂ (h.marked j h₁ h₂)

/-- Two placed extents of a partition that share no block do not overlap. -/
theorem Placed.apart {s : BlockState} {e f : Extent} {b c : ℕ} (he : Placed s e b)
    (hf : Placed s f c) (hid : e.id = f.id)
    (h : ∀ j, b ≤ j → j < b + blocksFor e.size → j < c ∨ c + blocksFor f.size ≤ j) :
    e.stop ≤ f.addr ∨ f.stop ≤ e.addr := by
  have hblocks : b + blocksFor e.size ≤ c ∨ c + blocksFor f.size ≤ b := by
    have hb := h b (le_refl b) (by have := he.pos; omega)
    by_contra hn
    have hc := h c (by omega) (by omega)
    have := hf.pos
    omega
  have hea := he.addr_eq
  have hfa := hf.addr_eq
  rw [← hid] at hfa
  simp only [Extent.stop, DFS_BLOCK_SIZE] at *
  omega

theorem BlockInv.alloc {ids : List PartId} {s : BlockState} (h : BlockInv ids s) {id : PartId}
    {size : ℕ} (hid : id ∈ ids) (hsound : (BlockOp.alloc id size).Sound s) :
    BlockInv ids (blockStep s (.alloc id size)) := by
  obtain ⟨hcache, haddr⟩ := hsound
  obtain ⟨hw, hlo⟩ := h.bitmap_place hid
  obtain ⟨hch, hold, hnew⟩ := dfsAllocFileBlocks_spec
    (show Superblock.decode (s.disk.store.bytes id) = s.superblock id from rfl) hw hcache size
  rw [blockStep]
  set r := dfsAllocFileBlocks s.disk id size with hr
  have hsb : ∀ (live : List Extent) (id' : PartId),
      (BlockState.mk r.2 live).superblock id' = s.superblock id' :=
    fun live id' => hch.superblock_eq hlo id'
  -- the extents that were live keep their bits
  have hkept : ∀ (live : List Extent), ∀ e ∈ s.live, e.id ∈ ids ∧
      ∃ block, Placed s e block ∧ Placed (BlockState.mk r.2 live) e block := by
    intro live e he
    obtain ⟨hids, block, hp⟩ := h.placed e he
    refine ⟨hids, block, hp, hp.congr (hsb live e.id) fun j _ _ hj => ?_⟩
    rcases eq_or_ne e.id id with heq | hne
    · rw [heq] at hj ⊢
      exact hold j hj
    · rw [hch.others e.id hne]
      exact hj
  have hformatted : ∀ id' ∈ ids, Formatted r.2.store id' := fun id' hid' =>
    (h.formatted id' hid').of_bitmapChange hch hlo
  rcases eq_or_ne r.1 0 with h0 | h0
  · rw [if_pos h0]
    refine ⟨hformatted, fun e he => ?_, h.disjoint⟩
    obtain ⟨hids, block, -, hp⟩ := hkept s.live e he
    exact ⟨hids, block, hp⟩
  · rw [if_neg h0]
    obtain ⟨hpos, b, hfirst, haddr_eq, hset⟩ := hnew h0
    -- the address was not cut, so the new extent is placed at the run that was found
    have hplaced : Placed (BlockState.mk r.2 (⟨id, r.1, size⟩ :: s.live)) ⟨id, r.1, size⟩ b := by
      refine ⟨?_, hpos, fun j h₁ h₂ => ?_⟩
      · rw [hsb, haddr_eq]
        exact Nat.mod_eq_of_lt (haddr b hfirst)
      · rw [hsb]
        exact hset j h₁ h₂
    refine ⟨hformatted, fun e he => ?_, List.pairwise_cons.mpr ⟨fun e he heq => ?_, h.disjoint⟩⟩
    · rcases List.mem_cons.mp he with rfl | he
      · exact ⟨hid, b, hplaced⟩
      · obtain ⟨hids, block, -, hp⟩ := hkept _ e he
        exact ⟨hids, block, hp⟩
    · obtain ⟨-, block, hp, hp'⟩ := hkept (⟨id, r.1, size⟩ :: s.live) e he
      refine hplaced.apart hp' heq fun j h₁ h₂ => ?_
      -- the blocks of the new extent were clear, those of `e` were marked
      by_contra hj
      refine hfirst.run j h₁ h₂ ?_
      have hm := hp.marked j (by omega) (by omega)
      rwa [← show id = e.id from heq] at hm

theorem BlockInv.free {ids : List PartId} {s : BlockState} (h : BlockInv ids s) {e : Extent}
    (he : e ∈ s.live) : BlockInv ids (blockStep s (.free e)) := by
  obtain ⟨hid, block, hp⟩ := h.placed e he
  obtain ⟨hw, hlo⟩ := h.bitmap_place hid
  obtain ⟨hch, hkeep⟩ := dfsFreeFileBlocks_spec
    (show Superblock.decode (s.disk.store.bytes e.id) = s.superblock e.id from rfl) hw e.addr e.size
  rw [blockStep]
  set st' := dfsFreeFileBlocks s.disk.store e.id e.addr e.size with hst
  have hperm : s.live.Perm (e :: s.live.erase e) := List.perm_cons_erase he
  have hdis : (e :: s.live.erase e).Pairwise fun e f => e.id = f.id → e.stop ≤ f.addr ∨ f.stop ≤ e.addr :=
    hperm.pairwise h.disjoint fun h heq => (h heq.symm).symm
  obtain ⟨hhead, htail⟩ := List.pairwise_cons.mp hdis
  refine ⟨fun id' hid' => (h.formatted id' hid').of_bitmapChange hch hlo, fun f hf => ?_, htail⟩
  obtain ⟨hids, c, hpf⟩ := h.placed f (List.mem_of_mem_erase hf)
  refine ⟨hids, c, hpf.congr (hch.superblock_eq hlo f.id) fun j h₁ h₂ hj => ?_⟩
  rcases eq_or_ne f.id e.id with heq | hne
  · -- `f` and `e` do not overlap, so the block `j` of `f` is none of those released
    have hapart := hhead f hf heq.symm
    have hea := hp.addr_eq
    have hfa := hpf.addr_eq
    rw [heq] at hj hfa ⊢
    refine hkeep j hj ?_
    rw [hp.block_eq]
    simp only [Extent.stop, DFS_BLOCK_SIZE] at *
    omega
  · rw [hch.others f.id hne]
    exact hj

/-- **No block is allocated twice** along a run of sound calls on formatted partitions. -/
theorem dfsAllocFileBlocks_no_double_allocation (d : Disk) (mem : Memory) (ids : List PartId)
    (hformat : Along formatStep (fun s id => (dfsFormat s.1 s.2 id).1 = 0) (mem, d.store) ids)
    (ops : List BlockOp) (hids : ∀ op ∈ ops, op.id ∈ ids)
    (hops : Along blockStep (fun s op => op.Legal s ∧ op.Sound s)
      ⟨{ d with store := (ids.foldl formatStep (mem, d.store)).2 }, []⟩ ops) :
    NoDoubleAllocation
      (ops.foldl blockStep ⟨{ d with store := (ids.foldl formatStep (mem, d.store)).2 }, []⟩) := by
  set s₀ : BlockState := ⟨{ d with store := (ids.foldl formatStep (mem, d.store)).2 }, []⟩ with hs₀
  have hinit : BlockInv ids s₀ :=
    ⟨formatted_of_formats hformat, fun e he => absurd he (by simp [hs₀]), List.Pairwise.nil⟩
  refine (Along.invariant (fun s op hs h => ?_) hinit (hops.and (.of_mem s₀ hids))).noDoubleAllocation
  obtain ⟨⟨hlegal, hsound⟩, hid⟩ := h
  cases op with
  | alloc id size => exact hs.alloc hid hsound
  | free e => exact hs.free hlegal

/-! ### A sound run, and one that is not -/

/-- One partition of 200 MiB on a reliable disk, the static variables as at boot. -/
def bootDisk : Disk := ⟨⟨fun _ => 409600, fun _ _ => 0, fun _ => false, 0, []⟩, 0, 0⟩

def part0 : PartId := ⟨0, 0⟩

/-- The state after `dfs_format` on that partition. -/
def formattedState : BlockState :=
  ⟨{ bootDisk with store := ([part0].foldl formatStep (ampleMemory, bootDisk.store)).2 }, []⟩

theorem formattedState_formats :
    Along formatStep (fun s id => (dfsFormat s.1 s.2 id).1 = 0) (ampleMemory, bootDisk.store)
      [part0] := by
  decide +kernel

/-- On a partition of at most 4 GiB every block has a 32-bit address. -/
theorem BlockOp.sound_of_le {s : BlockState} {id : PartId} {size : ℕ}
    (hc : CacheAt s.disk id (s.superblock id).bitmapStart)
    (hle : (s.superblock id).dataStart + (s.superblock id).blockCount * DFS_BLOCK_SIZE ≤ 2 ^ 32)
    (hpos : 0 < blocksFor size) : (BlockOp.alloc id size).Sound s := by
  refine ⟨hc, fun b hb => ?_⟩
  have := hb.fits
  simp only [DFS_BLOCK_SIZE] at *
  omega

/-- Two allocations of nine blocks. The first ends in the second byte of the bitmap, so the
second reads the first byte again. -/
def nineBlockOps : List BlockOp := [.alloc part0 9216, .alloc part0 9216]

theorem dfsAllocFileBlocks_no_double_allocation_nineBlockOps :
    (nineBlockOps.foldl blockStep formattedState).live.map Extent.addr = [143215616, 143206400] ∧
      NoDoubleAllocation (nineBlockOps.foldl blockStep formattedState) := by
  have hle : ∀ s : BlockState, s.superblock part0 = formattedState.superblock part0 →
      (s.superblock part0).dataStart + (s.superblock part0).blockCount * DFS_BLOCK_SIZE ≤ 2 ^ 32 := by
    intro s hs
    rw [hs]
    decide +kernel
  refine ⟨by decide +kernel, dfsAllocFileBlocks_no_double_allocation bootDisk ampleMemory [part0]
    formattedState_formats nineBlockOps (by decide) ⟨⟨?_, ?_⟩, ⟨?_, ?_⟩, trivial⟩⟩
  · exact show 9216 < 2 ^ 64 by norm_num
  · exact BlockOp.sound_of_le (by decide +kernel) (hle _ rfl) (by decide)
  · exact show 9216 < 2 ^ 64 by norm_num
  · exact BlockOp.sound_of_le (by decide +kernel) (hle _ (by decide +kernel)) (by decide)

/-- Two allocations of one block each. The first leaves the byte it saw in the static
variables and sets the bit on the disk; the second sees the old byte and takes the same
block. -/
theorem dfsAllocFileBlocks_allocates_twice :
    Along formatStep (fun s id => (dfsFormat s.1 s.2 id).1 = 0) (ampleMemory, bootDisk.store)
        [part0] ∧
      Along blockStep (fun s op => op.Legal s) formattedState
        [.alloc part0 1024, .alloc part0 1024] ∧
      ¬ NoDoubleAllocation
        ([BlockOp.alloc part0 1024, .alloc part0 1024].foldl blockStep formattedState) := by
  have hlive : ([BlockOp.alloc part0 1024, .alloc part0 1024].foldl blockStep formattedState).live =
      [⟨part0, 143206400, 1024⟩, ⟨part0, 143206400, 1024⟩] := by
    decide +kernel
  refine ⟨formattedState_formats, ⟨?_, ?_, trivial⟩, fun h => ?_⟩
  · exact show 1024 < 2 ^ 64 by norm_num
  · exact show 1024 < 2 ^ 64 by norm_num
  · have hdis := h.disjoint
    rw [hlive] at hdis
    have := (List.pairwise_cons.mp hdis).1 _ List.mem_cons_self rfl
    revert this
    decide

end LittleLinux
