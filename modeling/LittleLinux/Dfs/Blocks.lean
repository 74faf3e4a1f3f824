import LittleLinux.Dfs.Layout
import LittleLinux.Kernel.Memory
import LittleLinux.Lib.FirstFit
import Mathlib.Data.Nat.Bitwise

/-!
# Formatting, and the block allocator

`dfs_format`, `dfs_alloc_file_blocks` and `dfs_free_file_blocks`. The allocator's scan reads
the bitmap through two static variables, the offset and the value of the byte it read last.
They survive the call, and nothing updates them when the bitmap changes: `Disk` carries them
beside the store, and `CacheAt` says that they are right at an offset.

The specifications are in terms of the bits: `BlockUsed` is a bit of the bitmap, `BitmapChange`
says that a function touched nothing of the store but the bitmap. A scan that starts with a
right cache finds the first run of clear bits (`scanBlocks_spec`).
-/

namespace LittleLinux

open ByteMemory

/-- The store with the static variables `last_byte_off` and `byte_val`. -/
structure Disk where
  store : Store
  lastByteOff : ℕ
  byteVal : UInt8

/-! ### Formatting -/

/-- The superblock that `dfs_format` writes on a partition of `partSize` bytes. -/
def formatSuperblock (partSize : ℕ) : Superblock :=
  let blockCount := partSize / DFS_BLOCK_SIZE % 2 ^ 32
  let rootPointer := sizeofSuperblock
  let bitmapStart := rootPointer + DFS_MAX_FOLDERS * sizeofDiskFolder
  let dataStart := (bitmapStart + (blockCount + 7) % 2 ^ 32 / 8 + 511) % 2 ^ 32 / 512 * 512
  { magic := DFS_MAGIC
    totalFolders := DFS_MAX_FOLDERS
    curFolders := 1
    rootPointer := rootPointer
    bitmapStart := bitmapStart
    dataStart := dataStart
    blockCount := toU32 (blockCount - (dataStart / DFS_BLOCK_SIZE : ℕ)) }

/-- The record of the empty root directory. -/
def rootRecord : DiskFolder := ⟨⟨[47], CString.noNul_slash⟩, 1, [], []⟩

/-- `dfs_format`. -/
def dfsFormat (mem : Memory) (st : Store) (id : PartId) : ℤ × Memory × Store :=
  let blockCount := st.size id / DFS_BLOCK_SIZE % 2 ^ 32
  if blockCount < 1024 then (-1, mem, st)
  else
    let sb := formatSuperblock (st.size id)
    let w := st.write id 0 sizeofSuperblock sb.encode
    if w.1 = false then (-2, mem, w.2)
    else
      let r := w.2.write id sb.rootPointer sizeofDiskFolder rootRecord.encode
      if r.1 = false then (-3, mem, r.2)
      else
        let bitmapBytes := (blockCount + 7) % 2 ^ 32 / 8
        let a := mem.malloc bitmapBytes
        match a.1 with
        | none => (0, a.2, r.2)
        | some buf => (0, a.2.free buf, (r.2.write id sb.bitmapStart bitmapBytes fun _ => 0).2)

/-! ### The bitmap -/

/-- `1 << (i % 8)`, as a `uint8_t`. -/
def bitOf (i : ℕ) : UInt8 := 1 <<< UInt8.ofNat (i % 8)

/-- `dfs_read_superblock`. -/
def readSuperblock (st : Store) (id : PartId) : Option Superblock × Store :=
  let r := st.read id 0 sizeofSuperblock
  (r.1.map Superblock.decode, r.2)

/-- `read_bitmap_byte`. -/
def readBitmapByte (st : Store) (id : PartId) (byteOffset : ℕ) : Option UInt8 × Store :=
  let r := st.read id byteOffset 1
  (r.1.map fun b => b 0, r.2)

/-- `write_bitmap_byte`. -/
def writeBitmapByte (st : Store) (id : PartId) (byteOffset : ℕ) (byte : UInt8) : Bool × Store :=
  st.write id byteOffset 1 fun _ => byte

/-! ### Allocation -/

/-- The byte at `byteOff`, from the static variables when they hold that offset. -/
def cachedByte (d : Disk) (id : PartId) (byteOff : ℕ) : Option UInt8 × Disk :=
  if byteOff ≠ d.lastByteOff then
    let r := readBitmapByte d.store id byteOff
    match r.1 with
    | none => (none, { d with store := r.2 })
    | some v => (some v, ⟨r.2, byteOff, v⟩)
  else (some d.byteVal, d)

/-- The scan from block `i` on, with `remaining` blocks to go: `start_block` and `consecutive`
when the loop ends, or `none` when a read fails. -/
def scanBlocks (id : PartId) (base need : ℕ) :
    (remaining i start consecutive : ℕ) → Disk → Option (ℕ × ℕ) × Disk
  | 0, _, start, consecutive, d => (some (start, consecutive), d)
  | remaining + 1, i, start, consecutive, d =>
    let b := cachedByte d id ((base + i / 8) % 2 ^ 32)
    match b.1 with
    | none => (none, b.2)
    | some v =>
      if v &&& bitOf i = 0 then
        let start := if consecutive = 0 then i else start
        if consecutive + 1 = need then (some (start, consecutive + 1), b.2)
        else scanBlocks id base need remaining (i + 1) start (consecutive + 1) b.2
      else scanBlocks id base need remaining (i + 1) start 0 b.2

/-- Set the bits of the `n` blocks from `block` on; `false` when a request fails. -/
def markBlocks (id : PartId) (base : ℕ) : (n block : ℕ) → Store → Bool × Store
  | 0, _, st => (true, st)
  | n + 1, block, st =>
    let byteOff := (base + block / 8) % 2 ^ 32
    let r := readBitmapByte st id byteOff
    match r.1 with
    | none => (false, r.2)
    | some v =>
      let w := writeBitmapByte r.2 id byteOff (v ||| bitOf block)
      if w.1 then markBlocks id base n (block + 1) w.2 else (false, w.2)

/-- The number of blocks for `size` bytes, in 64-bit arithmetic. -/
def blocksFor (size : ℕ) : ℕ := (size + DFS_BLOCK_SIZE - 1) % 2 ^ 64 / DFS_BLOCK_SIZE

/-- `dfs_alloc_file_blocks`: the byte offset of the first block, or `0`. -/
def dfsAllocFileBlocks (d : Disk) (id : PartId) (size : ℕ) : ℕ × Disk :=
  let r := readSuperblock d.store id
  match r.1 with
  | none => (0, { d with store := r.2 })
  | some sb =>
    let need := blocksFor size
    if need = 0 ∨ need > sb.blockCount then (0, { d with store := r.2 })
    else
      let s := scanBlocks id sb.bitmapStart need sb.blockCount 0 0 0 { d with store := r.2 }
      match s.1 with
      | none => (0, s.2)
      | some found =>
        if found.2 < need then (0, s.2)
        else
          let m := markBlocks id sb.bitmapStart need found.1 s.2.store
          (if m.1 then (sb.dataStart + found.1 * DFS_BLOCK_SIZE) % 2 ^ 32 else 0,
            { s.2 with store := m.2 })

/-! ### Release -/

/-- Clear the bits of the `n` blocks from `block` on; a failed request skips its block. -/
def clearBlocks (id : PartId) (base blockCount : ℕ) : (n block : ℕ) → Store → Store
  | 0, _, st => st
  | n + 1, block, st =>
    if block ≥ blockCount then st
    else
      let byteOff := (base + block / 8) % 2 ^ 32
      let r := readBitmapByte st id byteOff
      match r.1 with
      | none => clearBlocks id base blockCount n (block + 1) r.2
      | some v =>
        clearBlocks id base blockCount n (block + 1)
          (writeBitmapByte r.2 id byteOff (v &&& ~~~(bitOf block))).2

/-- `dfs_free_file_blocks`. -/
def dfsFreeFileBlocks (st : Store) (id : PartId) (startAddr size : ℕ) : Store :=
  let r := readSuperblock st id
  match r.1 with
  | none => r.2
  | some sb =>
    if startAddr < sb.dataStart then r.2
    else
      clearBlocks id sb.bitmapStart sb.blockCount (blocksFor size)
        ((startAddr - sb.dataStart) / DFS_BLOCK_SIZE) r.2

/-! ### Bits -/

/-- The bit of block `i` in a bitmap that starts at `base`. -/
def BlockUsed (m : ByteMemory) (base i : ℕ) : Prop :=
  (m (base + i / 8)).toNat.testBit (i % 8) = true

instance (m : ByteMemory) (base i : ℕ) : Decidable (BlockUsed m base i) :=
  inferInstanceAs (Decidable (_ = true))

theorem toNat_bitOf (i : ℕ) : (bitOf i).toNat = 2 ^ (i % 8) := by
  have h : i % 8 < 8 := Nat.mod_lt _ (by norm_num)
  unfold bitOf
  generalize i % 8 = k at h
  interval_cases k <;> rfl

theorem and_bitOf_eq_zero_iff (v : UInt8) (i : ℕ) :
    v &&& bitOf i = 0 ↔ v.toNat.testBit (i % 8) = false := by
  rw [← UInt8.toNat_inj, UInt8.toNat_and, toNat_bitOf, Nat.and_two_pow]
  rcases hb : v.toNat.testBit (i % 8) with _ | _ <;> simp

theorem testBit_or_bitOf (v : UInt8) (i j : ℕ) :
    (v ||| bitOf i).toNat.testBit j = (v.toNat.testBit j || decide (i % 8 = j)) := by
  rw [UInt8.toNat_or, toNat_bitOf, Nat.testBit_or, Nat.testBit_two_pow]

theorem testBit_and_not_bitOf (v : UInt8) (i : ℕ) {j : ℕ} (hj : j < 8) :
    (v &&& ~~~(bitOf i)).toNat.testBit j = (v.toNat.testBit j && decide (i % 8 ≠ j)) := by
  have hnot : (~~~(bitOf i)).toNat = 2 ^ 8 - ((bitOf i).toNat + 1) := by
    rw [UInt8.toNat_not, UInt8.size]
    omega
  rw [UInt8.toNat_and, Nat.testBit_and, hnot, toNat_bitOf,
    Nat.testBit_two_pow_sub_succ (Nat.pow_lt_pow_right (by norm_num) (Nat.mod_lt _ (by norm_num))),
    Nat.testBit_two_pow]
  simp [hj]

/-- Storing a byte of the bitmap changes the bits of that byte only. -/
theorem blockUsed_putBytes {m : ByteMemory} {base i j : ℕ} {v : UInt8} :
    BlockUsed (m.putBytes (base + i / 8) 1 fun _ => v) base j ↔
      if j / 8 = i / 8 then v.toNat.testBit (j % 8) = true else BlockUsed m base j := by
  unfold BlockUsed
  split_ifs with h
  · rw [h, putBytes_of_mem (by omega) (by omega)]
  · rw [putBytes_of_notMem (by omega)]

/-- Setting the bit of block `i`. -/
theorem blockUsed_set {m : ByteMemory} {base i j : ℕ} :
    BlockUsed (m.putBytes (base + i / 8) 1 fun _ => m (base + i / 8) ||| bitOf i) base j ↔
      BlockUsed m base j ∨ j = i := by
  rw [blockUsed_putBytes]
  split_ifs with h
  · rw [testBit_or_bitOf, Bool.or_eq_true, decide_eq_true_iff, BlockUsed, h]
    exact or_congr_right (by omega)
  · exact (or_iff_left (by omega)).symm

/-- Clearing the bit of block `i`. -/
theorem blockUsed_clear {m : ByteMemory} {base i j : ℕ} :
    BlockUsed (m.putBytes (base + i / 8) 1 fun _ => m (base + i / 8) &&& ~~~(bitOf i)) base j ↔
      BlockUsed m base j ∧ j ≠ i := by
  rw [blockUsed_putBytes]
  split_ifs with h
  · rw [testBit_and_not_bitOf _ _ (Nat.mod_lt _ (by norm_num)), Bool.and_eq_true,
      decide_eq_true_iff, BlockUsed, h]
    exact and_congr_right fun _ => by omega
  · exact (and_iff_left (by omega)).symm

/-! ### What the functions touch -/

/-- From `st` to `st'` nothing changed but bytes of the partition `id` in `[lo, hi)`. -/
structure BitmapChange (id : PartId) (lo hi : ℕ) (st st' : Store) : Prop where
  sectors : st'.sectors = st.sectors
  fault : st'.fault = st.fault
  others : ∀ id' ≠ id, st'.bytes id' = st.bytes id'
  outside : ∀ x, x < lo ∨ hi ≤ x → st'.bytes id x = st.bytes id x

namespace BitmapChange

variable {id : PartId} {lo hi : ℕ} {st st' st'' : Store}

theorem refl (id : PartId) (lo hi : ℕ) (st : Store) : BitmapChange id lo hi st st :=
  ⟨rfl, rfl, fun _ _ => rfl, fun _ _ => rfl⟩

theorem trans (h : BitmapChange id lo hi st st') (h' : BitmapChange id lo hi st' st'') :
    BitmapChange id lo hi st st'' where
  sectors := h'.sectors.trans h.sectors
  fault := h'.fault.trans h.fault
  others := fun id' hne => (h'.others id' hne).trans (h.others id' hne)
  outside := fun x hx => (h'.outside x hx).trans (h.outside x hx)

/-- A read touches nothing. -/
theorem read (id' : PartId) (offset : ℕ) (length : ℤ) :
    BitmapChange id lo hi st (st.read id' offset length).2 :=
  ⟨rfl, rfl, fun _ _ => rfl, fun _ _ => rfl⟩

/-- A write inside the range. -/
theorem write {offset : ℕ} {length : ℤ} {data : ByteMemory} (h₁ : lo ≤ offset)
    (h₂ : offset + length.toNat ≤ hi) :
    BitmapChange id lo hi st (st.write id offset length data).2 where
  sectors := rfl
  fault := rfl
  others := fun _ hne => Store.write_bytes_of_ne hne
  outside := fun _ hx => Store.write_bytes_of_notMem (by omega)

theorem size_eq (h : BitmapChange id lo hi st st') : st'.size = st.size := by
  funext id'
  rw [Store.size, Store.size, h.sectors]

/-- The superblock lies before the bitmap. -/
theorem superblock_eq (h : BitmapChange id lo hi st st') (hlo : 28 ≤ lo) (id' : PartId) :
    Superblock.decode (st'.bytes id') = Superblock.decode (st.bytes id') := by
  refine Superblock.decode_congr fun i hi => ?_
  rcases eq_or_ne id' id with rfl | hne
  · exact h.outside i (.inl (by omega))
  · rw [h.others id' hne]

end BitmapChange

/-- A byte of the bitmap that was read and, changed by `f`, written back: either the write was
refused and no byte changed, or exactly this byte was replaced. -/
theorem readBitmapByte_eq_some {st : Store} {id : PartId} {off : ℕ} {v : UInt8}
    (h : (readBitmapByte st id off).1 = some v) : v = st.bytes id off := by
  obtain ⟨b, hb, rfl⟩ := Option.map_eq_some_iff.mp h
  obtain ⟨-, rfl⟩ := Store.read_eq_some hb
  rfl

theorem writeBitmapByte_bytes (st : Store) (id : PartId) (off : ℕ) (v : UInt8) :
    ((writeBitmapByte st id off v).1 = true ∧
        (writeBitmapByte st id off v).2.bytes id = (st.bytes id).putBytes off 1 fun _ => v) ∨
      ((writeBitmapByte st id off v).1 = false ∧
        (writeBitmapByte st id off v).2.bytes = st.bytes) := by
  rcases hw : (writeBitmapByte st id off v).1 with _ | _
  · exact .inr ⟨rfl, Store.write_eq_false hw⟩
  · refine .inl ⟨rfl, ?_⟩
    rw [writeBitmapByte, Store.write_bytes_of_eq_true hw, Function.update_self]
    rfl

/-! ### Marking and clearing -/

/-- The bytes of a bitmap of `total` bits that starts at `base` end here. -/
def bitmapEnd (base total : ℕ) : ℕ := base + (total + 7) / 8

/-- Byte offsets of the bitmap do not wrap around. -/
structure NoWrap (base total : ℕ) : Prop where
  base_le : base + 2 ^ 29 ≤ 2 ^ 32
  total_lt : total < 2 ^ 32

theorem NoWrap.bitmapEnd_le {base total : ℕ} (h : NoWrap base total) :
    bitmapEnd base total ≤ 2 ^ 32 := by
  have := h.base_le
  have := h.total_lt
  unfold bitmapEnd
  omega

theorem byteOff_lt_bitmapEnd (base : ℕ) {total i : ℕ} (hi : i < total) :
    base + i / 8 + 1 ≤ bitmapEnd base total := by
  unfold bitmapEnd
  omega

theorem byteOff_eq {base total i : ℕ} (h : bitmapEnd base total ≤ 2 ^ 32) (hi : i < total) :
    (base + i / 8) % 2 ^ 32 = base + i / 8 :=
  Nat.mod_eq_of_lt ((byteOff_lt_bitmapEnd base hi).trans h)

/-- **What marking does**: bits are set in the range of the blocks only, and when no request
failed they are all set. -/
theorem markBlocks_spec (id : PartId) {base total : ℕ} (hw : bitmapEnd base total ≤ 2 ^ 32) :
    ∀ (n block : ℕ) (st : Store), block + n ≤ total →
      BitmapChange id base (bitmapEnd base total) st (markBlocks id base n block st).2 ∧
        (∀ j, BlockUsed ((markBlocks id base n block st).2.bytes id) base j →
          BlockUsed (st.bytes id) base j ∨ block ≤ j ∧ j < block + n) ∧
        (∀ j, BlockUsed (st.bytes id) base j →
          BlockUsed ((markBlocks id base n block st).2.bytes id) base j) ∧
        ((markBlocks id base n block st).1 = true → ∀ j, block ≤ j → j < block + n →
          BlockUsed ((markBlocks id base n block st).2.bytes id) base j)
  | 0, block, st, _ => by
    refine ⟨.refl _ _ _ _, fun j hj => .inl hj, fun j hj => hj, fun _ j h₁ h₂ => ?_⟩
    omega
  | n + 1, block, st, hle => by
    have hoff := byteOff_eq hw (show block < total by omega)
    have hlast := byteOff_lt_bitmapEnd base (show block < total by omega)
    rw [markBlocks]
    simp only [hoff]
    set r := readBitmapByte st id (base + block / 8) with hr
    have hread : BitmapChange id base (bitmapEnd base total) st r.2 :=
      .read id (base + block / 8) 1
    have hbytes : r.2.bytes = st.bytes := rfl
    rcases hv : r.1 with _ | v
    · exact ⟨hread, fun j hj => .inl hj, fun j hj => hj, fun h => by simp at h⟩
    · have hval : v = st.bytes id (base + block / 8) := readBitmapByte_eq_some hv
      dsimp only
      set w := writeBitmapByte r.2 id (base + block / 8) (v ||| bitOf block) with hwdef
      have hwrite : BitmapChange id base (bitmapEnd base total) r.2 w.2 :=
        .write (Nat.le_add_right _ _) hlast
      have hcases := writeBitmapByte_bytes r.2 id (base + block / 8) (v ||| bitOf block)
      rw [← hwdef, hbytes] at hcases
      rcases hcases with ⟨hok, hb⟩ | ⟨hok, hb⟩
      · -- the bit of `block` is set, and the rest is marked from there
        have hset : ∀ j, BlockUsed (w.2.bytes id) base j ↔
            BlockUsed (st.bytes id) base j ∨ j = block := fun j => by
          rw [hb, hval]
          exact blockUsed_set
        obtain ⟨hch, hnew, hold, hall⟩ := markBlocks_spec id hw n (block + 1) w.2 (by omega)
        simp only [hok, if_true]
        refine ⟨(hread.trans hwrite).trans hch, fun j hj => ?_, fun j hj => ?_, fun h j h₁ h₂ => ?_⟩
        · rcases hnew j hj with hj | hj
          · rcases (hset j).mp hj with hj | rfl
            · exact .inl hj
            · exact .inr ⟨le_refl _, by omega⟩
          · exact .inr ⟨by omega, by omega⟩
        · exact hold j ((hset j).mpr (.inl hj))
        · rcases eq_or_ne j block with rfl | hne
          · exact hold j ((hset j).mpr (.inr rfl))
          · exact hall h j (by omega) (by omega)
      · simp only [hok, Bool.false_eq_true, if_false]
        refine ⟨hread.trans hwrite, fun j hj => .inl ?_, fun j hj => ?_, fun h => by simp at h⟩
        · rwa [hb] at hj
        · rwa [hb]

/-- **What clearing does**: only bits in the range of the blocks are cleared, and none is set. -/
theorem clearBlocks_spec (id : PartId) {base total : ℕ} (hw : bitmapEnd base total ≤ 2 ^ 32) :
    ∀ (n block : ℕ) (st : Store),
      BitmapChange id base (bitmapEnd base total) st (clearBlocks id base total n block st) ∧
        (∀ j, BlockUsed ((clearBlocks id base total n block st).bytes id) base j →
          BlockUsed (st.bytes id) base j) ∧
        (∀ j, BlockUsed (st.bytes id) base j → j < block ∨ block + n ≤ j →
          BlockUsed ((clearBlocks id base total n block st).bytes id) base j)
  | 0, block, st => ⟨.refl _ _ _ _, fun j hj => hj, fun j hj _ => hj⟩
  | n + 1, block, st => by
    rw [clearBlocks]
    rcases Nat.lt_or_ge block total with hlt | hge
    · have hoff := byteOff_eq hw hlt
      have hlast := byteOff_lt_bitmapEnd base hlt
      rw [if_neg (by omega)]
      simp only [hoff]
      set r := readBitmapByte st id (base + block / 8) with hr
      have hread : BitmapChange id base (bitmapEnd base total) st r.2 :=
        .read id (base + block / 8) 1
      have hbytes : r.2.bytes = st.bytes := rfl
      rcases hv : r.1 with _ | v
      · obtain ⟨hch, hold, hkeep⟩ := clearBlocks_spec id hw n (block + 1) r.2
        refine ⟨hread.trans hch, fun j hj => ?_, fun j hj hout => hkeep j ?_ (by omega)⟩
        · exact hbytes ▸ hold j hj
        · rwa [hbytes]
      · have hval : v = st.bytes id (base + block / 8) := readBitmapByte_eq_some hv
        set w := writeBitmapByte r.2 id (base + block / 8) (v &&& ~~~(bitOf block)) with hwdef
        have hwrite : BitmapChange id base (bitmapEnd base total) r.2 w.2 :=
          .write (Nat.le_add_right _ _) hlast
        have hcases := writeBitmapByte_bytes r.2 id (base + block / 8) (v &&& ~~~(bitOf block))
        rw [← hwdef, hbytes] at hcases
        -- whether or not the write was refused, no other bit changed and none was set
        have hbits : ∀ j, (BlockUsed (w.2.bytes id) base j → BlockUsed (st.bytes id) base j) ∧
            (BlockUsed (st.bytes id) base j → j ≠ block → BlockUsed (w.2.bytes id) base j) := by
          intro j
          rcases hcases with ⟨-, hb⟩ | ⟨-, hb⟩
          · rw [hb, hval]
            exact ⟨fun h => (blockUsed_clear.mp h).1, fun h hne => blockUsed_clear.mpr ⟨h, hne⟩⟩
          · rw [hb]
            exact ⟨fun h => h, fun h _ => h⟩
        obtain ⟨hch, hold, hkeep⟩ := clearBlocks_spec id hw n (block + 1) w.2
        exact ⟨(hread.trans hwrite).trans hch, fun j hj => (hbits j).1 (hold j hj),
          fun j hj hout => hkeep j ((hbits j).2 hj (by omega)) (by omega)⟩
    · rw [if_pos hge]
      exact ⟨.refl _ _ _ _, fun j hj => hj, fun j hj _ => hj⟩

/-! ### The scan -/

/-- The static variables are right at the offset: if they hold it, they hold its byte. -/
def CacheAt (d : Disk) (id : PartId) (off : ℕ) : Prop :=
  d.lastByteOff = off → d.byteVal = d.store.bytes id off

instance (d : Disk) (id : PartId) (off : ℕ) : Decidable (CacheAt d id off) :=
  inferInstanceAs (Decidable (_ → _))

/-- Only the count of requests changed. -/
structure SameBytes (st st' : Store) : Prop where
  sectors : st'.sectors = st.sectors
  bytes : st'.bytes = st.bytes
  fault : st'.fault = st.fault
  writes : st'.writes = st.writes

theorem SameBytes.refl (st : Store) : SameBytes st st := ⟨rfl, rfl, rfl, rfl⟩

theorem SameBytes.trans {st st' st'' : Store} (h : SameBytes st st') (h' : SameBytes st' st'') :
    SameBytes st st'' :=
  ⟨h'.sectors.trans h.sectors, h'.bytes.trans h.bytes, h'.fault.trans h.fault,
    h'.writes.trans h.writes⟩

theorem SameBytes.bitmapChange {st st' : Store} (h : SameBytes st st') (id : PartId) (lo hi : ℕ) :
    BitmapChange id lo hi st st' :=
  ⟨h.sectors, h.fault, fun _ _ => by rw [h.bytes], fun _ _ => by rw [h.bytes]⟩

/-- The disk, read through the static variables from byte `k` of the bitmap on, shows the memory
`V`. Only byte `k` can come from the static variables. -/
structure Sees (d : Disk) (id : PartId) (base total : ℕ) (V : ByteMemory) (k : ℕ) : Prop where
  here : (if d.lastByteOff = (base + k) % 2 ^ 32 then d.byteVal
    else d.store.bytes id ((base + k) % 2 ^ 32)) = V (base + k)
  later : ∀ k' > k, 8 * k' ≤ total → d.store.bytes id ((base + k') % 2 ^ 32) = V (base + k')

/-- A byte that comes through the static variables is the one that they show, and they hold it
then. -/
theorem cachedByte_spec (d : Disk) (id : PartId) (off : ℕ) :
    SameBytes d.store (cachedByte d id off).2.store ∧
      (∀ v, (cachedByte d id off).1 = some v →
        v = (if d.lastByteOff = off then d.byteVal else d.store.bytes id off) ∧
        (cachedByte d id off).2.lastByteOff = off ∧ (cachedByte d id off).2.byteVal = v ∧
        (off < d.store.size id ∨ d.lastByteOff = off)) ∧
      ((cachedByte d id off).1 = none → d.store.Reliable → d.store.size id ≤ off) := by
  rw [cachedByte]
  rcases eq_or_ne off d.lastByteOff with rfl | hne
  · rw [if_neg (by simp)]
    refine ⟨.refl _, fun v hv => ?_, fun h => by simp at h⟩
    obtain rfl := Option.some.inj hv
    exact ⟨(if_pos rfl).symm, rfl, rfl, .inr rfl⟩
  · rw [if_pos hne]
    dsimp only
    rcases hr : (readBitmapByte d.store id off).1 with _ | u
    · refine ⟨⟨rfl, rfl, rfl, rfl⟩, fun v hv => by simp at hv, fun _ hst => ?_⟩
      by_contra hlt
      have hread : (d.store.read id off 1).1 = some fun i => d.store.bytes id (off + i) :=
        hst.read_eq (by norm_num) (by omega)
      rw [readBitmapByte, hread] at hr
      simp at hr
    · have hu := readBitmapByte_eq_some hr
      obtain ⟨b, hb, -⟩ := Option.map_eq_some_iff.mp hr
      obtain ⟨⟨-, -, hin⟩, -⟩ := Store.read_eq_some hb
      refine ⟨⟨rfl, rfl, rfl, rfl⟩, fun v hv => ?_, fun h => by simp at h⟩
      obtain rfl := Option.some.inj hv
      exact ⟨by rw [if_neg (Ne.symm hne), hu], rfl, rfl, .inl (by omega)⟩

/-- What a scan for `need` blocks from block `i` on does, when the disk shows `V`: it changes no
byte, and it finds the first run that is clear in `V`, all of whose bytes it could read, or that
there is none; or else it came to a byte that it could not read before any run was complete. -/
structure Scanned (d : Disk) (id : PartId) (base total need : ℕ) (V : ByteMemory) (i : ℕ)
    (r : Option (ℕ × ℕ) × Disk) : Prop where
  same : SameBytes d.store r.2.store
  found : ∀ f, r.1 = some f →
    (f.2 = need ∧ FirstRun (fun j => ¬ BlockUsed V base j) total need f.1 ∧
        ∀ j, i ≤ j → j < f.1 + need → (base + j / 8) % 2 ^ 32 < d.store.size id ∨
          (j / 8 = i / 8 ∧ d.lastByteOff = (base + i / 8) % 2 ^ 32)) ∨
      (f.2 < need ∧ ∀ s, ¬ FirstRun (fun j => ¬ BlockUsed V base j) total need s)
  failed : r.1 = none → d.store.Reliable → ∃ j < total,
    d.store.size id ≤ (base + j / 8) % 2 ^ 32 ∧
      ∀ s, FreeRun (fun j => ¬ BlockUsed V base j) need s → j < s + need

/-- The rest of a scan, after the byte of block `i` was seen. -/
theorem Scanned.step {d d' : Disk} {id : PartId} {base total need : ℕ} {V : ByteMemory} {i : ℕ}
    {r : Option (ℕ × ℕ) × Disk} (hsame : SameBytes d.store d'.store)
    (hlast : d'.lastByteOff = (base + i / 8) % 2 ^ 32)
    (hin : (base + i / 8) % 2 ^ 32 < d.store.size id ∨ d.lastByteOff = (base + i / 8) % 2 ^ 32)
    (h : Scanned d' id base total need V (i + 1) r) : Scanned d id base total need V i r where
  same := hsame.trans h.same
  found := fun f hf => by
    have hsize : d'.store.size id = d.store.size id := by rw [Store.size, Store.size, hsame.sectors]
    refine (h.found f hf).imp_left fun ⟨hn, hfirst, hread⟩ => ⟨hn, hfirst, fun j hj hj' => ?_⟩
    rcases eq_or_ne j i with rfl | hne
    · exact hin.imp_right fun h => ⟨rfl, h⟩
    rcases hread j (by omega) hj' with hlt | ⟨hbyte, hoff⟩
    · exact .inl (hsize ▸ hlt)
    · -- the byte of `j` is the one that was just seen
      have hsucc : (i + 1) / 8 = i / 8 := by
        rw [hlast] at hoff
        omega
      rw [hbyte, hsucc]
      exact hin.imp_right fun h => ⟨rfl, h⟩
  failed := fun hr hst => by
    rw [Store.size, ← hsame.sectors, ← Store.size]
    exact h.failed hr fun n => by rw [hsame.fault]; exact hst n

/-- **What the scan finds** in the memory that the disk shows it. -/
theorem scanBlocks_scanned (id : PartId) (need : ℕ) {base total : ℕ} {V : ByteMemory} :
    ∀ (remaining i start c : ℕ) (d : Disk), i + remaining = total →
      Sees d id base total V (i / 8) →
      ScanInv (fun j => ¬ BlockUsed V base j) need i start c →
      Scanned d id base total need V i (scanBlocks id base need remaining i start c d)
  | 0, i, start, c, d, hi, _, hinv => by
    obtain rfl : i = total := by omega
    refine ⟨.refl _, fun f hf => .inr ?_, fun h => by simp [scanBlocks] at h⟩
    obtain rfl := Option.some.inj hf
    exact ⟨hinv.lt, hinv.not_exists⟩
  | remaining + 1, i, start, c, d, hi, hsees, hinv => by
    rw [scanBlocks]
    obtain ⟨hsame, hval, hfail⟩ := cachedByte_spec d id ((base + i / 8) % 2 ^ 32)
    set b := cachedByte d id ((base + i / 8) % 2 ^ 32) with hb
    rcases hv : b.1 with _ | v
    · dsimp only
      refine ⟨hsame, fun f hf => by simp at hf, fun _ hst => ⟨i, by omega, hfail hv hst, ?_⟩⟩
      intro s hs
      by_contra hle
      exact hinv.none s (by omega) hs
    · obtain ⟨hseen, hlast, hbyte, hin⟩ := hval v hv
      rw [hsees.here] at hseen
      -- the next position lies in this byte, which the static variables hold, or in a later one
      have hnext : Sees b.2 id base total V ((i + 1) / 8) := by
        refine ⟨?_, fun k hk hlt => ?_⟩
        · rw [hlast, hbyte, hsame.bytes]
          rcases eq_or_ne ((i + 1) / 8) (i / 8) with heq | hne
          · rw [heq, if_pos rfl, hseen]
          · rw [if_neg (by omega)]
            exact hsees.later _ (by omega) (by omega)
        · rw [hsame.bytes]
          exact hsees.later k (by omega) hlt
      have hclear : v &&& bitOf i = 0 ↔ ¬ BlockUsed V base i := by
        rw [and_bitOf_eq_zero_iff, BlockUsed, Bool.not_eq_true, hseen]
      dsimp only
      by_cases hfree : v &&& bitOf i = 0
      · rw [if_pos hfree]
        rcases eq_or_ne (c + 1) need with hneed | hneed
        · rw [if_pos hneed]
          refine ⟨hsame, fun f hf => .inl ?_, fun h => by simp at h⟩
          obtain rfl := Option.some.inj hf
          have hfirst := hinv.found (hclear.mp hfree) hneed (show i < total by omega)
          refine ⟨hneed, hfirst, fun j hj hj' => ?_⟩
          have hji : j = i := by
            have hle := hinv.le
            have hs := hinv.start_eq
            split_ifs at hj' with h0
            · omega
            · have := hs h0
              omega
          rw [hji]
          exact hin.imp_right fun h => ⟨rfl, h⟩
        · rw [if_neg hneed]
          have hlt := hinv.lt
          exact (scanBlocks_scanned id need remaining (i + 1) _ (c + 1) b.2 (by omega) hnext
            (hinv.extend (hclear.mp hfree) (by omega))).step hsame hlast hin
      · rw [if_neg hfree]
        exact (scanBlocks_scanned id need remaining (i + 1) start 0 b.2 (by omega) hnext
          (hinv.reset fun h => hfree (hclear.mpr h))).step hsame hlast hin

/-- **What the scan finds**, when it starts with a right cache: the first run of clear bits, or
that there is none. -/
theorem scanBlocks_spec (id : PartId) {need : ℕ} {base total : ℕ} (hw : NoWrap base total)
    (hneed : 0 < need) {d : Disk} (hc : CacheAt d id base) :
    Scanned d id base total need (d.store.bytes id) 0
      (scanBlocks id base need total 0 0 0 d) := by
  have hbase := hw.base_le
  have htotal := hw.total_lt
  refine scanBlocks_scanned id need total 0 0 0 d (Nat.zero_add _) ⟨?_, fun k _ hk => ?_⟩
    (ScanInv.init hneed 0)
  · rw [Nat.zero_div, Nat.add_zero, Nat.mod_eq_of_lt (by omega)]
    split_ifs with h
    · exact hc h
    · rfl
  · rw [Nat.mod_eq_of_lt (by omega)]

end LittleLinux
