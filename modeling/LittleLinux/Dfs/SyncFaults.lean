import LittleLinux.Dfs.SyncFile

/-!
# Syncing a file when requests fail

`dfs_sync_file` releases the old blocks of a file, takes new ones, records their address in the
entry and only then writes the data. A request may fail at any of these points, and nothing is
taken back: `dfsSyncFile_keepsOldCopy_iff` says for which entries and bitmaps no pattern of
failures can do harm.

The patterns that do harm let a sync run undisturbed up to a point and fail everything behind it
(`failsFrom`). That the undisturbed part is the one of a store without faults is `FaultLocal`:
a function of the store depends on the pattern at its own requests only.
-/

namespace LittleLinux

/-! ### Fault patterns -/

/-- The same disk under the fault pattern `φ`. -/
def Disk.setFault (d : Disk) (φ : ℕ → Bool) : Disk :=
  { d with store := { d.store with fault := φ } }

/-- Every request from the `N`-th on fails. -/
def failsFrom (N : ℕ) : ℕ → Bool := fun n => decide (N ≤ n)

/-- A function of the disk that depends on the fault pattern at its own requests only. -/
structure FaultLocal {α : Type*} (F : Disk → α × Disk) : Prop where
  mono : ∀ d, d.store.requests ≤ (F d).2.store.requests
  fault : ∀ d, (F d).2.store.fault = d.store.fault
  congr : ∀ d φ, (∀ n < (F d).2.store.requests, φ n = d.store.fault n) →
    F (d.setFault φ) = ((F d).1, (F d).2.setFault φ)

namespace FaultLocal

variable {α β : Type*} {F : Disk → α × Disk} {G : α → Disk → β × Disk}

theorem pure (a : α) : FaultLocal fun d => (a, d) :=
  ⟨fun _ => le_refl _, fun _ => rfl, fun _ _ _ => rfl⟩

theorem of_eq {F' : Disk → α × Disk} (hF : FaultLocal F) (h : ∀ d, F' d = F d) : FaultLocal F' :=
  (funext h : F' = F) ▸ hF

theorem bind (hF : FaultLocal F) (hG : ∀ a, FaultLocal (G a)) :
    FaultLocal fun d => G (F d).1 (F d).2 where
  mono := fun d => (hF.mono d).trans ((hG _).mono _)
  fault := fun d => ((hG _).fault _).trans (hF.fault d)
  congr := fun d φ h => by
    have hfirst := hF.congr d φ fun n hn => h n (hn.trans_le ((hG _).mono _))
    rw [hfirst]
    refine (hG _).congr _ φ fun n hn => ?_
    rw [hF.fault]
    exact h n hn

/-- A request that may fail, and what follows in either case. -/
theorem bindOption {F : Disk → Option α × Disk} {N : Disk → β × Disk} {S : α → Disk → β × Disk}
    (hF : FaultLocal F) (hN : FaultLocal N) (hS : ∀ a, FaultLocal (S a)) :
    FaultLocal fun d => (F d).1.elim (N (F d).2) fun a => S a (F d).2 := by
  refine hF.bind (G := fun o d => o.elim (N d) fun a => S a d) fun o => ?_
  cases o with
  | none => exact hN
  | some a => exact hS a

/-- A function that makes one request and does nothing else depends on the pattern there. -/
theorem of_request {P : Store → α × Store}
    (hcount : ∀ st, (P st).2.requests = st.requests + 1) (hfault : ∀ st, (P st).2.fault = st.fault)
    (hcongr : ∀ (st : Store) φ, φ st.requests = st.fault st.requests →
      P { st with fault := φ } = ((P st).1, { (P st).2 with fault := φ })) :
    FaultLocal fun d => ((P d.store).1, { d with store := (P d.store).2 }) where
  mono := fun d => by
    dsimp only
    rw [hcount]
    exact Nat.le_succ _
  fault := fun d => hfault d.store
  congr := fun d φ h => by
    have hnow := hcongr d.store φ (h d.store.requests (by dsimp only; rw [hcount]; exact Nat.lt_succ_self _))
    simp only [Disk.setFault, hnow]

/-- Under a pattern that fails nothing before `F` is done, `F` does what it does without faults. -/
theorem eq_of_le (hF : FaultLocal F) {d : Disk} (hd : d.store.Reliable) {N : ℕ}
    (hN : (F d).2.store.requests ≤ N) :
    F (d.setFault (failsFrom N)) = ((F d).1, (F d).2.setFault (failsFrom N)) := by
  refine hF.congr d _ fun n hn => ?_
  rw [hd n, failsFrom]
  exact decide_eq_false (by omega)

end FaultLocal

section Requests

variable (id : PartId)

theorem accepts_setFault {st : Store} {φ : ℕ → Bool} (h : φ st.requests = st.fault st.requests)
    (offset : ℕ) (length : ℤ) :
    ({ st with fault := φ } : Store).Accepts id offset length ↔ st.Accepts id offset length := by
  unfold Store.Accepts
  exact and_congr_left' (by dsimp only; rw [h])

theorem faultLocal_read (offset : ℕ) (length : ℤ) :
    FaultLocal fun d =>
      ((d.store.read id offset length).1, { d with store := (d.store.read id offset length).2 }) := by
  refine .of_request (P := fun st => st.read id offset length) (fun _ => rfl) (fun _ => rfl)
    fun st φ h => ?_
  simp only [Store.read, accepts_setFault id h]

theorem faultLocal_write (offset : ℕ) (length : ℤ) (data : ByteMemory) :
    FaultLocal fun d => ((d.store.write id offset length data).1,
      { d with store := (d.store.write id offset length data).2 }) := by
  refine .of_request (P := fun st => st.write id offset length data) (fun _ => rfl) (fun _ => rfl)
    fun st φ h => ?_
  simp only [Store.write, accepts_setFault id h]

theorem faultLocal_readSuperblock :
    FaultLocal fun d => ((readSuperblock d.store id).1,
      { d with store := (readSuperblock d.store id).2 }) :=
  (faultLocal_read id 0 sizeofSuperblock).bind (G := fun b d => (b.map Superblock.decode, d))
    fun _ => .pure _

theorem faultLocal_readBitmapByte (off : ℕ) :
    FaultLocal fun d => ((readBitmapByte d.store id off).1,
      { d with store := (readBitmapByte d.store id off).2 }) :=
  (faultLocal_read id off 1).bind (G := fun b d => (b.map fun b => b 0, d)) fun _ => .pure _

theorem faultLocal_writeBitmapByte (off : ℕ) (v : UInt8) :
    FaultLocal fun d => ((writeBitmapByte d.store id off v).1,
      { d with store := (writeBitmapByte d.store id off v).2 }) :=
  faultLocal_write id off 1 fun _ => v

end Requests

/-! ### The phases -/

section Phases

variable (id : PartId)

theorem faultLocal_clearBlocks (base total : ℕ) : ∀ n block,
    FaultLocal fun d => ((), { d with store := clearBlocks id base total n block d.store })
  | 0, _ => .pure ()
  | n + 1, block => by
    by_cases hge : block ≥ total
    · simp only [clearBlocks, if_pos hge]
      exact .pure ()
    · have hrest := faultLocal_clearBlocks base total n (block + 1)
      refine ((faultLocal_readBitmapByte id ((base + block / 8) % 2 ^ 32)).bindOption hrest fun v =>
        (faultLocal_writeBitmapByte id ((base + block / 8) % 2 ^ 32) (v &&& ~~~(bitOf block))).bind
          fun _ => hrest).of_eq fun d => ?_
      simp only [clearBlocks, if_neg hge]
      rcases (readBitmapByte d.store id ((base + block / 8) % 2 ^ 32)).1 with _ | v <;> rfl

theorem faultLocal_markBlocks (base : ℕ) : ∀ n block,
    FaultLocal fun d => ((markBlocks id base n block d.store).1,
      { d with store := (markBlocks id base n block d.store).2 })
  | 0, _ => .pure true
  | n + 1, block => by
    have hrest := faultLocal_markBlocks base n (block + 1)
    have hwritten : ∀ ok : Bool, FaultLocal fun d =>
        if ok then ((markBlocks id base n (block + 1) d.store).1,
          { d with store := (markBlocks id base n (block + 1) d.store).2 }) else (false, d) := by
      intro ok
      cases ok with
      | true => exact hrest
      | false => exact .pure false
    refine ((faultLocal_readBitmapByte id ((base + block / 8) % 2 ^ 32)).bindOption (.pure false)
      fun v => (faultLocal_writeBitmapByte id ((base + block / 8) % 2 ^ 32) (v ||| bitOf block)).bind
        hwritten).of_eq fun d => ?_
    rw [markBlocks]
    rcases (readBitmapByte d.store id ((base + block / 8) % 2 ^ 32)).1 with _ | v
    · rfl
    · dsimp only
      split_ifs with hok
      · simp only [Option.elim, hok, if_true]
      · simp only [Option.elim, hok]
        rfl

/-- The static variables are no request: looking at them and setting them is local. -/
theorem faultLocal_cachedByte (off : ℕ) : FaultLocal fun d => cachedByte d id off := by
  have hset : ∀ v : UInt8, FaultLocal fun d => (some v, (⟨d.store, off, v⟩ : Disk)) := fun v =>
    ⟨fun _ => le_refl _, fun _ => rfl, fun _ _ _ => rfl⟩
  have hread := (faultLocal_readBitmapByte id off).bindOption (.pure none) hset
  have hkeep : FaultLocal fun d : Disk => (some d.byteVal, d) :=
    ⟨fun _ => le_refl _, fun _ => rfl, fun _ _ _ => rfl⟩
  have hlast : FaultLocal fun d : Disk => (d.lastByteOff, d) :=
    ⟨fun _ => le_refl _, fun _ => rfl, fun _ _ _ => rfl⟩
  refine (hlast.bind (G := fun last d => if off ≠ last then
    (readBitmapByte d.store id off).1.elim (none, { d with store := (readBitmapByte d.store id off).2 })
      fun v => (some v, ⟨(readBitmapByte d.store id off).2, off, v⟩)
    else (some d.byteVal, d)) fun last => ?_).of_eq fun d => ?_
  · by_cases h : off ≠ last
    · simp only [if_pos h]
      exact hread
    · simp only [if_neg h]
      exact hkeep
  · simp only [cachedByte]
    rcases (readBitmapByte d.store id off).1 with _ | v <;> rfl

theorem faultLocal_scanBlocks (base need : ℕ) : ∀ remaining i start c,
    FaultLocal fun d => scanBlocks id base need remaining i start c d
  | 0, _, start, c => .pure (some (start, c))
  | remaining + 1, i, start, c => by
    have hstep : ∀ v : UInt8, FaultLocal fun d =>
        if v &&& bitOf i = 0 then
          if c + 1 = need then (some (if c = 0 then i else start, c + 1), d)
          else scanBlocks id base need remaining (i + 1) (if c = 0 then i else start) (c + 1) d
        else scanBlocks id base need remaining (i + 1) start 0 d := by
      intro v
      split_ifs
      · exact .pure _
      · exact .pure _
      · exact faultLocal_scanBlocks base need remaining _ _ _
      · exact faultLocal_scanBlocks base need remaining _ _ _
      · exact faultLocal_scanBlocks base need remaining _ _ _
    refine ((faultLocal_cachedByte id ((base + i / 8) % 2 ^ 32)).bindOption (.pure none)
      hstep).of_eq fun d => ?_
    rcases h : (cachedByte d id ((base + i / 8) % 2 ^ 32)).1 with _ | v <;>
      simp only [scanBlocks, h, Option.elim]

theorem faultLocal_dfsFreeFileBlocks (startAddr size : ℕ) :
    FaultLocal fun d => ((), { d with store := dfsFreeFileBlocks d.store id startAddr size }) := by
  have hclear : ∀ sb : Superblock, FaultLocal fun d =>
      if startAddr < sb.dataStart then ((), d)
      else ((), { d with
        store := clearBlocks id sb.bitmapStart sb.blockCount (blocksFor size)
          ((startAddr - sb.dataStart) / DFS_BLOCK_SIZE) d.store }) := by
    intro sb
    split_ifs
    · exact .pure ()
    · exact faultLocal_clearBlocks id _ _ _ _
  refine ((faultLocal_readSuperblock id).bindOption (.pure ()) hclear).of_eq fun d => ?_
  rw [dfsFreeFileBlocks]
  rcases (readSuperblock d.store id).1 with _ | sb
  · rfl
  · dsimp only [Option.elim]
    split_ifs <;> rfl

theorem faultLocal_dfsAllocFileBlocks (size : ℕ) :
    FaultLocal fun d => dfsAllocFileBlocks d id size := by
  have hmark : ∀ (sb : Superblock) (f : ℕ × ℕ), FaultLocal fun d =>
      if f.2 < blocksFor size then (0, d)
      else
        let m := markBlocks id sb.bitmapStart (blocksFor size) f.1 d.store
        (if m.1 then (sb.dataStart + f.1 * DFS_BLOCK_SIZE) % 2 ^ 32 else 0,
          { d with store := m.2 }) := by
    intro sb f
    split_ifs
    · exact .pure 0
    · exact (faultLocal_markBlocks id sb.bitmapStart (blocksFor size) f.1).bind fun ok =>
        .pure (if ok then (sb.dataStart + f.1 * DFS_BLOCK_SIZE) % 2 ^ 32 else 0)
  have hscan : ∀ sb : Superblock, FaultLocal fun d =>
      if blocksFor size = 0 ∨ blocksFor size > sb.blockCount then (0, d)
      else
        let s := scanBlocks id sb.bitmapStart (blocksFor size) sb.blockCount 0 0 0 d
        s.1.elim (0, s.2) fun f =>
          if f.2 < blocksFor size then (0, s.2)
          else
            let m := markBlocks id sb.bitmapStart (blocksFor size) f.1 s.2.store
            (if m.1 then (sb.dataStart + f.1 * DFS_BLOCK_SIZE) % 2 ^ 32 else 0,
              { s.2 with store := m.2 }) := by
    intro sb
    split_ifs
    · exact .pure 0
    · exact (faultLocal_scanBlocks id _ _ _ _ _ _).bindOption (.pure 0) (hmark sb)
  -- read the superblock, scan, mark: each step asks the store in turn
  refine ((faultLocal_readSuperblock id).bindOption (.pure 0) hscan).of_eq fun d => ?_
  rcases h : (readSuperblock d.store id).1 with _ | sb
  · simp only [dfsAllocFileBlocks, h]
    rfl
  · simp only [dfsAllocFileBlocks, h, Option.elim]
    split_ifs
    · rfl
    · rcases (scanBlocks id sb.bitmapStart (blocksFor size) sb.blockCount 0 0 0
        { d with store := (readSuperblock d.store id).2 }).1 with _ | f <;> rfl

theorem faultLocal_releasedDisk (finfo : RamfsFileInfo) :
    FaultLocal fun d => ((), releasedDisk d finfo id) := by
  by_cases h : Releases finfo
  · simp only [releasedDisk, if_pos h]
    exact faultLocal_dfsFreeFileBlocks id _ _
  · simp only [releasedDisk, if_neg h]
    exact .pure ()

theorem faultLocal_allocatedDisk (finfo : RamfsFileInfo) :
    FaultLocal fun d => allocatedDisk d finfo id :=
  (faultLocal_releasedDisk id finfo).bind fun _ => faultLocal_dfsAllocFileBlocks id _

end Phases

/-! ### What can happen under any pattern -/

/-- A byte of the bitmap written back as it was changes nothing, whether or not the write
succeeds. -/
theorem writeBitmapByte_same {st : Store} {id : PartId} {off : ℕ} {v : UInt8}
    (h : v = st.bytes id off) : (writeBitmapByte st id off v).2.bytes = st.bytes := by
  funext id' x
  rcases eq_or_ne id' id with rfl | hne
  · rcases writeBitmapByte_bytes st id' off v with ⟨-, hb⟩ | ⟨-, hb⟩
    · rw [hb]
      rcases eq_or_ne x off with rfl | hx
      · rw [ByteMemory.putBytes_of_mem (le_refl _) (Nat.lt_succ_self _), h]
      · rw [ByteMemory.putBytes_of_notMem (by omega)]
    · rw [hb]
  · exact congrFun (Store.write_bytes_of_ne hne) x

/-- A bit that is clear can be cleared in its byte without effect. -/
theorem and_not_bitOf_of_clear {m : ByteMemory} {base i : ℕ} (h : ¬ BlockUsed m base i) :
    m (base + i / 8) &&& ~~~(bitOf i) = m (base + i / 8) := by
  have hbits : ∀ j, BlockUsed (m.putBytes (base + i / 8) 1
      fun _ => m (base + i / 8) &&& ~~~(bitOf i)) base j ↔ BlockUsed m base j := fun j =>
    blockUsed_clear.trans ⟨fun hj => hj.1, fun hj => ⟨hj, fun heq => h (heq ▸ hj)⟩⟩
  have hbyte := eq_of_blockUsed hbits (Nat.le_add_right base (i / 8))
  rwa [ByteMemory.putBytes_of_mem (le_refl _) (Nat.lt_succ_self _)] at hbyte

/-- Clearing bits that are clear changes nothing. -/
theorem clearBlocks_bytes_of_clear (id : PartId) {base total : ℕ}
    (hw : bitmapEnd base total ≤ 2 ^ 32) : ∀ (n block : ℕ) (st : Store),
      (∀ j, block ≤ j → j < block + n → j < total → base + j / 8 < st.size id →
        ¬ BlockUsed (st.bytes id) base j) →
      (clearBlocks id base total n block st).bytes = st.bytes
  | 0, _, _, _ => rfl
  | n + 1, block, st, hclear => by
    rw [clearBlocks]
    rcases Nat.lt_or_ge block total with hlt | hge
    · rw [if_neg (by omega)]
      simp only [byteOff_eq hw hlt]
      rcases hv : (readBitmapByte st id (base + block / 8)).1 with _ | v
      · exact clearBlocks_bytes_of_clear id hw n (block + 1) (readBitmapByte st id _).2
          fun j hj hj' => hclear j (by omega) (by omega)
      · dsimp only
        have hval := readBitmapByte_eq_some hv
        obtain ⟨b, hb, -⟩ := Option.map_eq_some_iff.mp hv
        obtain ⟨⟨-, -, hin⟩, -⟩ := Store.read_eq_some hb
        -- the bit is clear already, so the byte is written back as it was
        have hbit := hclear block (le_refl _) (by omega) hlt (by omega)
        have hsame : v &&& ~~~(bitOf block) = st.bytes id (base + block / 8) := by
          rw [hval, and_not_bitOf_of_clear hbit]
        have hwrite : (writeBitmapByte (readBitmapByte st id (base + block / 8)).2 id
            (base + block / 8) (v &&& ~~~(bitOf block))).2.bytes = st.bytes :=
          writeBitmapByte_same hsame
        refine (clearBlocks_bytes_of_clear id hw n (block + 1) _ fun j hj hj' hj'' hoff => ?_).trans
          hwrite
        rw [hwrite]
        exact hclear j (by omega) (by omega) hj'' hoff
    · rw [if_pos hge]

/-- Marking that fails did not get to the last of its blocks. -/
theorem markBlocks_failed (id : PartId) {base total : ℕ} (hw : bitmapEnd base total ≤ 2 ^ 32) :
    ∀ (n block : ℕ) (st : Store), block + n ≤ total → (markBlocks id base n block st).1 = false →
      ∀ j, BlockUsed ((markBlocks id base n block st).2.bytes id) base j →
        BlockUsed (st.bytes id) base j ∨ block ≤ j ∧ j + 1 < block + n
  | 0, _, _, _, h => by simp [markBlocks] at h
  | n + 1, block, st, hle, h => by
    intro j hj
    rw [markBlocks] at h hj
    simp only [byteOff_eq hw (show block < total by omega)] at h hj
    rcases hv : (readBitmapByte st id (base + block / 8)).1 with _ | v
    · rw [hv] at hj
      exact .inl hj
    · rw [hv] at h hj
      have hval := readBitmapByte_eq_some hv
      dsimp only at h hj
      have hcases := writeBitmapByte_bytes (readBitmapByte st id (base + block / 8)).2 id
        (base + block / 8) (v ||| bitOf block)
      rcases hcases with ⟨hok, hb⟩ | ⟨hok, hb⟩
      · rw [if_pos hok] at h hj
        have hpos : 0 < n := Nat.pos_of_ne_zero fun h0 => by
          subst h0
          simp [markBlocks] at h
        rcases markBlocks_failed id hw n (block + 1) _ (by omega) h j hj with hj | hj
        · rw [hb, hval] at hj
          rcases blockUsed_set.mp hj with hj | rfl
          · exact .inl hj
          · exact .inr ⟨le_refl _, by omega⟩
        · exact .inr ⟨by omega, by omega⟩
      · rw [if_neg (by simp [hok])] at hj
        rw [hb] at hj
        exact .inl hj

/-- **What an allocation can do**: nothing, with the answer `0`; or it marks the run that it sees
on a store without faults, as far as the requests succeed. -/
theorem dfsAllocFileBlocks_cases {d : Disk} {id : PartId} {sb : Superblock}
    (hsb : Superblock.decode (d.store.bytes id) = sb)
    (hw : bitmapEnd sb.bitmapStart sb.blockCount ≤ 2 ^ 32) (size : ℕ) :
    ((dfsAllocFileBlocks d id size).1 = 0 ∧
        SameBytes d.store (dfsAllocFileBlocks d id size).2.store) ∨
      ∃ s st, SeesRun d id sb (blocksFor size) s ∧ SameBytes d.store st ∧
        (dfsAllocFileBlocks d id size).1 =
          (if (markBlocks id sb.bitmapStart (blocksFor size) s st).1 then blockAddress sb s else 0) ∧
        (dfsAllocFileBlocks d id size).2.store =
          (markBlocks id sb.bitmapStart (blocksFor size) s st).2 := by
  have hfits := Superblock.decode_fits (d.store.bytes id)
  rw [hsb] at hfits
  have hread : SameBytes d.store (readSuperblock d.store id).2 := ⟨rfl, rfl, rfl, rfl⟩
  rw [dfsAllocFileBlocks]
  rcases hsuper : (readSuperblock d.store id).1 with _ | sb'
  · exact .inl ⟨rfl, hread⟩
  obtain rfl : sb' = sb := (readSuperblock_eq_some hsuper).trans hsb
  dsimp only
  by_cases hneed : blocksFor size = 0 ∨ blocksFor size > sb'.blockCount
  · rw [if_pos hneed]
    exact .inl ⟨rfl, hread⟩
  rw [if_neg hneed]
  set d' : Disk := { d with store := (readSuperblock d.store id).2 } with hd'
  have hpos : 0 < blocksFor size := by omega
  have hfound := @scanBlocks_found d' id sb' hfits.bitmapStart (.inl hw) _ hpos (by omega)
  have hsame := (scanBlocks_scanned id (blocksFor size) sb'.blockCount 0 0 0 d' (Nat.zero_add _)
    (d'.sees_seen id hfits.bitmapStart sb'.blockCount) (ScanInv.init hpos 0)).same
  set r := scanBlocks id sb'.bitmapStart (blocksFor size) sb'.blockCount 0 0 0 d' with hr
  have hscanned : SameBytes d.store r.2.store := hread.trans hsame
  rcases hf : r.1 with _ | f
  · exact .inl ⟨rfl, hscanned⟩
  dsimp only
  by_cases hlt : f.2 < blocksFor size
  · rw [if_pos hlt]
    exact .inl ⟨rfl, hscanned⟩
  rw [if_neg hlt]
  rcases hfound hf with ⟨-, hsees⟩ | ⟨-, hshort⟩
  · exact .inr ⟨f.1, r.2.store, hsees.congr rfl rfl rfl rfl, hscanned, rfl, rfl⟩
  · -- the first byte of the run cannot be read
    have hsize : r.2.store.size id = d.store.size id := by
      rw [Store.size, Store.size, hscanned.sectors]
    have hge : r.2.store.size id ≤ (sb'.bitmapStart + f.1 / 8) % 2 ^ 32 := by
      rw [hsize]
      exact hshort.resolve_left hlt
    obtain ⟨hfail, hmark⟩ := markBlocks_of_ge hge hpos
    exact .inl ⟨if_neg (by simp [hfail]), hscanned.trans hmark⟩

/-- An allocation that sees no run answers `0` and changes nothing. -/
theorem dfsAllocFileBlocks_of_no_run {d : Disk} {id : PartId} {sb : Superblock}
    (hsb : Superblock.decode (d.store.bytes id) = sb)
    (hw : bitmapEnd sb.bitmapStart sb.blockCount ≤ 2 ^ 32) {size : ℕ}
    (hnone : ∀ s, ¬ SeesRun d id sb (blocksFor size) s) :
    (dfsAllocFileBlocks d id size).1 = 0 ∧
      (dfsAllocFileBlocks d id size).2.store.bytes = d.store.bytes := by
  rcases dfsAllocFileBlocks_cases hsb hw size with ⟨h₁, h₂⟩ | ⟨s, st, hs, -⟩
  · exact ⟨h₁, h₂.bytes⟩
  · exact absurd hs (hnone s)

/-- A release of blocks that are not marked changes nothing. -/
theorem releasedDisk_bytes_of_clear {d : Disk} {id : PartId} (hpart : DfsPartition d.store id)
    {finfo : RamfsFileInfo}
    (hclear : ∀ j, ReleasedBlock (Superblock.decode (d.store.bytes id)) finfo j →
      (Superblock.decode (d.store.bytes id)).bitmapStart + j / 8 < d.store.size id →
      ¬ BlockUsed (d.store.bytes id) (Superblock.decode (d.store.bytes id)).bitmapStart j) :
    (releasedDisk d finfo id).store.bytes = d.store.bytes := by
  have hw := hpart.noWrap.bitmapEnd_le
  rw [releasedDisk]
  split_ifs with hrel
  · dsimp only
    rw [dfsFreeFileBlocks]
    rcases hsuper : (readSuperblock d.store id).1 with _ | sb
    · rfl
    obtain rfl := readSuperblock_eq_some hsuper
    dsimp only
    split_ifs with hlt
    · rfl
    · refine clearBlocks_bytes_of_clear id hw _ _ (readSuperblock d.store id).2
        fun j hj hj' hj'' hoff => ?_
      exact hclear j ⟨hrel, by omega, hj, hj', hj''⟩ hoff
  · rfl

/-- A sync that has something to do. -/
theorem dfsSyncFile_of_changed {d : Disk} {finfo : RamfsFileInfo} {id : PartId}
    (hlen : finfo.length ≠ 0) (htype : finfo.type ≠ RAMFS_FOLDER_TYPE_DISK_CLEAN) :
    dfsSyncFile d finfo id =
      if Releases finfo ∨ toU32 finfo.driveAddr = 0 then
        if (allocatedDisk d finfo id).1 = 0 then (-2, finfo, (allocatedDisk d finfo id).2)
        else writeFileData (allocatedDisk d finfo id).2
          { finfo with driveAddr := toI32 (allocatedDisk d finfo id).1 } id
          (allocatedDisk d finfo id).1
      else writeFileData d finfo id (toU32 finfo.driveAddr) := by
  have hrel : Releases finfo ↔ finfo.type = RAMFS_TYPE_DIRTY ∧ finfo.driveAddr ≠ 0 :=
    and_iff_right hlen
  rw [dfsSyncFile, if_neg (by simp [hlen, htype]), allocatedDisk, releasedDisk]
  by_cases h : Releases finfo
  · simp [h, hrel.mp h]
  · simp [h, mt hrel.mpr h]

/-! ### Patterns that do harm -/

/-- The disk without faults. -/
def Disk.faultless (d : Disk) : Disk := d.setFault fun _ => false

theorem Disk.faultless_reliable (d : Disk) : d.faultless.store.Reliable := fun _ => rfl

section Harm

variable {d : Disk} {id : PartId} {finfo : RamfsFileInfo}

theorem dfsAllocFileBlocks_of_fault (h : d.store.fault d.store.requests = true) (size : ℕ) :
    (dfsAllocFileBlocks d id size).1 = 0 ∧
      (dfsAllocFileBlocks d id size).2.store.bytes = d.store.bytes := by
  have hread : (d.store.read id 0 sizeofSuperblock).1 = none := if_neg fun ha => by
    rw [ha.1] at h
    exact absurd h (by simp)
  have hsuper : (readSuperblock d.store id).1 = none := by
    rw [readSuperblock, hread]
    rfl
  rw [dfsAllocFileBlocks, hsuper]
  exact ⟨rfl, rfl⟩

theorem writeFileData_of_fault (h : d.store.fault d.store.requests = true) (addr : ℕ) :
    (writeFileData d finfo id addr).1 = -3 ∧
      (writeFileData d finfo id addr).2.2.store.bytes = d.store.bytes := by
  rw [writeFileData]
  rcases finfo.ptr with _ | buf
  · exact ⟨rfl, rfl⟩
  · have hno : (d.store.write id addr (toI32 finfo.length) fun i => buf.bytes.getD i 0).1 = false :=
      decide_eq_false fun ha => by
        rw [ha.1] at h
        exact absurd h (by simp)
    dsimp only
    rw [if_neg (by rw [hno]; simp)]
    exact ⟨rfl, Store.write_eq_false hno⟩

/-- Nothing works any more once the old blocks are released. -/
theorem dfsSyncFile_fails_after_release (hrel : Releases finfo)
    (htype : finfo.type ≠ RAMFS_FOLDER_TYPE_DISK_CLEAN) {φ : ℕ → Bool}
    (hφ : φ = failsFrom (releasedDisk d.faultless finfo id).store.requests) :
    (dfsSyncFile (d.setFault φ) finfo id).1 = -2 ∧
      (dfsSyncFile (d.setFault φ) finfo id).2.2.store.bytes =
        (releasedDisk d.faultless finfo id).store.bytes := by
  have hlocal := (faultLocal_releasedDisk id finfo).eq_of_le d.faultless_reliable (le_refl _)
  have hdisk : releasedDisk (d.setFault φ) finfo id =
      (releasedDisk d.faultless finfo id).setFault φ := by
    rw [hφ]
    exact congrArg Prod.snd hlocal
  have hfault : φ (releasedDisk d.faultless finfo id).store.requests = true := by
    rw [hφ]
    exact decide_eq_true (le_refl _)
  obtain ⟨hzero, hbytes⟩ : (allocatedDisk (d.setFault φ) finfo id).1 = 0 ∧
      (allocatedDisk (d.setFault φ) finfo id).2.store.bytes =
        (releasedDisk d.faultless finfo id).store.bytes := by
    rw [allocatedDisk, hdisk]
    exact dfsAllocFileBlocks_of_fault hfault _
  rw [dfsSyncFile_of_changed hrel.1 htype, if_pos (.inl hrel), if_pos hzero]
  exact ⟨rfl, hbytes⟩

/-- Nothing works any more once the new blocks are allocated. -/
theorem dfsSyncFile_fails_after_allocation (hlen : finfo.length ≠ 0)
    (htype : finfo.type ≠ RAMFS_FOLDER_TYPE_DISK_CLEAN)
    (halloc : Releases finfo ∨ toU32 finfo.driveAddr = 0)
    (hne : (allocatedDisk d.faultless finfo id).1 ≠ 0) {φ : ℕ → Bool}
    (hφ : φ = failsFrom (allocatedDisk d.faultless finfo id).2.store.requests) :
    (dfsSyncFile (d.setFault φ) finfo id).1 = -3 ∧
      (dfsSyncFile (d.setFault φ) finfo id).2.1.driveAddr =
        toI32 (allocatedDisk d.faultless finfo id).1 ∧
      (dfsSyncFile (d.setFault φ) finfo id).2.2.store.bytes =
        (allocatedDisk d.faultless finfo id).2.store.bytes := by
  have hlocal := (faultLocal_allocatedDisk id finfo).eq_of_le d.faultless_reliable (le_refl _)
  have hdisk : allocatedDisk (d.setFault φ) finfo id =
      ((allocatedDisk d.faultless finfo id).1, (allocatedDisk d.faultless finfo id).2.setFault φ) := by
    rw [hφ]
    exact hlocal
  have hfault : φ (allocatedDisk d.faultless finfo id).2.store.requests = true := by
    rw [hφ]
    exact decide_eq_true (le_refl _)
  rw [dfsSyncFile_of_changed hlen htype, if_pos halloc, hdisk]
  dsimp only
  rw [if_neg hne]
  generalize allocatedDisk d.faultless finfo id = a at *
  obtain ⟨hret, hbytes⟩ := @writeFileData_of_fault (a.2.setFault φ) id
    { finfo with driveAddr := toI32 a.1 } hfault a.1
  refine ⟨hret, ?_, hbytes⟩
  rw [writeFileData_driveAddr]

theorem markBlocks_add (base m k : ℕ) : ∀ (block : ℕ) (st : Store),
    markBlocks id base (m + k) block st =
      if (markBlocks id base m block st).1 then
        markBlocks id base k (block + m) (markBlocks id base m block st).2
      else markBlocks id base m block st := by
  induction m with
  | zero =>
    intro block st
    rw [Nat.zero_add]
    rfl
  | succ m ih =>
    intro block st
    rw [Nat.add_right_comm, markBlocks, markBlocks]
    dsimp only
    rcases (readBitmapByte st id ((base + block / 8) % 2 ^ 32)).1 with _ | v
    · rfl
    · dsimp only
      by_cases hw : (writeBitmapByte (readBitmapByte st id ((base + block / 8) % 2 ^ 32)).2 id
          ((base + block / 8) % 2 ^ 32) (v ||| bitOf block)).1 = true
      · simp only [if_pos hw]
        rw [ih, Nat.add_right_comm, Nat.add_assoc]
      · simp only [if_neg hw]
        rfl

/-- Marking blocks whose first request fails. -/
theorem markBlocks_of_fault {st : Store} (h : st.fault st.requests = true) (base n block : ℕ) :
    (markBlocks id base (n + 1) block st).1 = false ∧
      (markBlocks id base (n + 1) block st).2.bytes = st.bytes := by
  have hread : (st.read id ((base + block / 8) % 2 ^ 32) 1).1 = none := if_neg fun ha => by
    rw [ha.1] at h
    exact absurd h (by simp)
  have hbyte : (readBitmapByte st id ((base + block / 8) % 2 ^ 32)).1 = none := by
    rw [readBitmapByte, hread]
    rfl
  rw [markBlocks, hbyte]
  exact ⟨rfl, rfl⟩

/-- Nothing works any more once `m` blocks of the run are marked. -/
theorem dfsAllocFileBlocks_fails_while_marking (hpart : DfsPartition d.store id) {size s m : ℕ}
    (hsees : SeesRun d id (Superblock.decode (d.store.bytes id)) (blocksFor size) s)
    (hm : m < blocksFor size) :
    ∃ φ, (dfsAllocFileBlocks (d.setFault φ) id size).1 = 0 ∧
      ∀ j, BlockUsed ((dfsAllocFileBlocks (d.setFault φ) id size).2.store.bytes id)
          (Superblock.decode (d.store.bytes id)).bitmapStart j ↔
        BlockUsed (d.store.bytes id) (Superblock.decode (d.store.bytes id)).bitmapStart j ∨
          s ≤ j ∧ j < s + m := by
  have hw := hpart.noWrap.bitmapEnd_le
  have hbase := hpart.noWrap.base_le
  have hfits := hsees.first.fits
  have hsuper : (readSuperblock d.faultless.store id).1 =
      some (Superblock.decode (d.store.bytes id)) :=
    readSuperblock_of_le d.faultless_reliable hpart.super_le
  have htotal := hpart.noWrap.total_lt
  generalize Superblock.decode (d.store.bytes id) = sb at *
  -- the superblock, the scan and the first `m` blocks, without faults
  set d₁ : Disk := { d.faultless with store := (readSuperblock d.faultless.store id).2 } with hd₁
  set r := scanBlocks id sb.bitmapStart (blocksFor size) sb.blockCount 0 0 0 d₁ with hr
  set M := markBlocks id sb.bitmapStart m s r.2.store with hM
  have hsees₁ : SeesRun d₁ id sb (blocksFor size) s := ⟨hsees.pos, hsees.first, hsees.readable⟩
  obtain ⟨hsame, hscan⟩ := @scanBlocks_seesRun d₁ id sb (fun _ => rfl) (by omega) (.inl hw) _
    hsees.pos (by omega)
  have hfound : r.1 = some (s, blocksFor size) := by
    rcases hscan with ⟨s', hf, hs'⟩ | ⟨hnone, -⟩
    · rw [hsees₁.unique hs']
      exact hf
    · exact absurd hsees₁ (hnone s)
  have hrel : r.2.store.Reliable := fun n => by rw [hsame.fault]; rfl
  obtain ⟨hok, hbits⟩ := markBlocks_exact id (show sb.bitmapStart < 2 ^ 32 by omega) m s r.2.store
    hrel (by omega) fun j hj hj' => by
      rw [Store.size, hsame.sectors]
      exact hsees.readable j (by omega)
  -- the same under the pattern
  set φ := failsFrom M.2.requests with hφ
  have hmono₁ : d₁.store.requests ≤ r.2.store.requests := (faultLocal_scanBlocks id _ _ _ _ _ _).mono d₁
  have hmono₂ : r.2.store.requests ≤ M.2.requests :=
    (faultLocal_markBlocks id sb.bitmapStart m s).mono r.2
  have hread := (faultLocal_readSuperblock id).eq_of_le d.faultless_reliable (hmono₁.trans hmono₂)
  have hread₁ : (readSuperblock (d.setFault φ).store id).1 = some sb :=
    (congrArg Prod.fst hread).trans hsuper
  have hread₂ : { d.setFault φ with store := (readSuperblock (d.setFault φ).store id).2 } =
      d₁.setFault φ :=
    congrArg Prod.snd hread
  have hscan' : scanBlocks id sb.bitmapStart (blocksFor size) sb.blockCount 0 0 0 (d₁.setFault φ) =
      (some (s, blocksFor size), r.2.setFault φ) := by
    rw [← hfound]
    exact (faultLocal_scanBlocks id _ _ _ _ _ _).eq_of_le (fun _ => rfl) hmono₂
  have hmark := (faultLocal_markBlocks id sb.bitmapStart m s).eq_of_le hrel (le_refl _)
  have hmark₁ : (markBlocks id sb.bitmapStart m s (r.2.setFault φ).store).1 = true :=
    (congrArg Prod.fst hmark).trans hok
  have hmark₂ : (markBlocks id sb.bitmapStart m s (r.2.setFault φ).store).2 =
      { M.2 with fault := φ } :=
    congrArg (fun x => x.2.store) hmark
  refine ⟨φ, ?_⟩
  rw [dfsAllocFileBlocks]
  dsimp only
  rw [hread₁, hread₂]
  dsimp only
  rw [if_neg (by omega), hscan']
  dsimp only
  rw [if_neg (lt_irrefl _)]
  obtain ⟨k, hk⟩ : ∃ k, blocksFor size = m + (k + 1) := ⟨blocksFor size - m - 1, by omega⟩
  have hfault : ({ M.2 with fault := φ } : Store).fault M.2.requests = true :=
    decide_eq_true (le_refl _)
  obtain ⟨hfail, hbytes⟩ := @markBlocks_of_fault id { M.2 with fault := φ } hfault sb.bitmapStart k
    (s + m)
  rw [hk, markBlocks_add, if_pos hmark₁, hmark₂, hfail]
  refine ⟨rfl, fun j => ?_⟩
  dsimp only
  rw [hbytes]
  refine (hbits j).trans ?_
  rw [hsame.bytes]
  refine or_congr_right ⟨fun h => ⟨h.1, h.2.1⟩, fun h => ⟨h.1, h.2, ?_⟩⟩
  exact (byteOff_lt_bitmapEnd _ (show j < sb.blockCount by omega)).trans hw

end Harm

/-! ### The old copy -/

section OldCopy

variable (d : Disk) (id : PartId) (finfo : RamfsFileInfo) (size : ℕ)

/-- Every bit of the bitmap and every byte of the data are as they were on `d`, and so is the
address of the entry. -/
structure OldCopyKept (r : ℤ × RamfsFileInfo × Disk) : Prop where
  bits : ∀ j, BlockUsed (r.2.2.store.bytes id) (Superblock.decode (d.store.bytes id)).bitmapStart j ↔
    BlockUsed (d.store.bytes id) (Superblock.decode (d.store.bytes id)).bitmapStart j
  data : ∀ x ≥ (Superblock.decode (d.store.bytes id)).dataStart,
    r.2.2.store.bytes id x = d.store.bytes id x
  addr : r.2.1.driveAddr = finfo.driveAddr

/-- Whatever requests fail, a sync that reports it keeps the old copy. -/
def KeepsOldCopy : Prop :=
  ∀ φ, (dfsSyncFile (d.setFault φ) finfo id).1 < 0 →
    OldCopyKept d id finfo (dfsSyncFile (d.setFault φ) finfo id)

/-- Whatever requests fail, an allocation that answers `0` leaves the bitmap as it was. -/
def KeepsBitmap : Prop :=
  ∀ φ, (dfsAllocFileBlocks (d.setFault φ) id size).1 = 0 →
    ∀ j, BlockUsed ((dfsAllocFileBlocks (d.setFault φ) id size).2.store.bytes id)
        (Superblock.decode (d.store.bytes id)).bitmapStart j ↔
      BlockUsed (d.store.bytes id) (Superblock.decode (d.store.bytes id)).bitmapStart j

/-- A sync has no marked block to release, and if it is to allocate blocks, then the scan sees no
run for them. -/
structure NothingToLose : Prop where
  released : ∀ j, ReleasedBlock (Superblock.decode (d.store.bytes id)) finfo j →
    (Superblock.decode (d.store.bytes id)).bitmapStart + j / 8 < d.store.size id →
    ¬ BlockUsed (d.store.bytes id) (Superblock.decode (d.store.bytes id)).bitmapStart j
  noRun : Releases finfo ∨ toU32 finfo.driveAddr = 0 →
    ∀ s, ¬ SeesRun d id (Superblock.decode (d.store.bytes id)) (blocksFor (toU64 finfo.length)) s

/-- If the scan sees a run, then its address is not cut to `0`, and all its blocks but the last
are marked on the disk: there is at most one bit to set. -/
def MarksOneBit : Prop :=
  ∀ s, SeesRun d id (Superblock.decode (d.store.bytes id)) (blocksFor size) s →
    blockAddress (Superblock.decode (d.store.bytes id)) s ≠ 0 ∧
      ∀ j, s ≤ j → j + 1 < s + blocksFor size →
        BlockUsed (d.store.bytes id) (Superblock.decode (d.store.bytes id)).bitmapStart j

end OldCopy

section OldCopy

variable {d : Disk} {id : PartId} {finfo : RamfsFileInfo} {size : ℕ}

theorem OldCopyKept.of_bytes_eq {r : ℤ × RamfsFileInfo × Disk}
    (hbytes : r.2.2.store.bytes = d.store.bytes) (haddr : r.2.1.driveAddr = finfo.driveAddr) :
    OldCopyKept d id finfo r :=
  ⟨fun j => by rw [hbytes], fun x _ => by rw [hbytes], haddr⟩

/-- The fault pattern is no part of what the scan sees. -/
theorem SeesRun.setFault {sb : Superblock} {n s : ℕ} {φ : ℕ → Bool} :
    SeesRun (d.setFault φ) id sb n s ↔ SeesRun d id sb n s :=
  ⟨fun h => ⟨h.pos, h.first, h.readable⟩, fun h => ⟨h.pos, h.first, h.readable⟩⟩

theorem DfsPartition.setFault (h : DfsPartition d.store id) (φ : ℕ → Bool) :
    DfsPartition (d.setFault φ).store id :=
  ⟨h.formatted, h.sectors_lt, h.super_le⟩

/-- A write of the data that fails changes nothing. -/
theorem writeFileData_bytes_of_neg {addr : ℕ} (h : (writeFileData d finfo id addr).1 < 0) :
    (writeFileData d finfo id addr).2.2.store.bytes = d.store.bytes := by
  revert h
  rw [writeFileData]
  rcases finfo.ptr with _ | buf
  · exact fun _ => rfl
  · dsimp only
    split_ifs with hw
    · intro h
      exact absurd h (lt_irrefl 0)
    · exact fun _ => Store.write_eq_false (Bool.eq_false_iff.mpr hw)

theorem releasedDisk_statics (d : Disk) (finfo : RamfsFileInfo) (id : PartId) :
    (releasedDisk d finfo id).lastByteOff = d.lastByteOff ∧
      (releasedDisk d finfo id).byteVal = d.byteVal := by
  rw [releasedDisk]
  split_ifs <;> exact ⟨rfl, rfl⟩

theorem releasedDisk_sectors (hpart : DfsPartition d.store id) (finfo : RamfsFileInfo) :
    (releasedDisk d finfo id).store.sectors = d.store.sectors := by
  rw [releasedDisk]
  split_ifs
  · exact (dfsFreeFileBlocks_spec rfl hpart.noWrap _ _).1.sectors
  · rfl

/-- With nothing to lose, a sync allocates nothing, whatever fails. -/
theorem NothingToLose.allocatedDisk_eq (hpart : DfsPartition d.store id)
    (h : NothingToLose d id finfo) (halloc : Releases finfo ∨ toU32 finfo.driveAddr = 0)
    (φ : ℕ → Bool) :
    (allocatedDisk (d.setFault φ) finfo id).1 = 0 ∧
      (allocatedDisk (d.setFault φ) finfo id).2.store.bytes = d.store.bytes := by
  have hbytes : (releasedDisk (d.setFault φ) finfo id).store.bytes = d.store.bytes :=
    releasedDisk_bytes_of_clear (hpart.setFault φ) h.released
  have hsectors : (releasedDisk (d.setFault φ) finfo id).store.sectors = d.store.sectors :=
    releasedDisk_sectors (hpart.setFault φ) finfo
  obtain ⟨hlast, hval⟩ := releasedDisk_statics (d.setFault φ) finfo id
  have hsb : Superblock.decode ((releasedDisk (d.setFault φ) finfo id).store.bytes id) =
      Superblock.decode (d.store.bytes id) := by rw [hbytes]
  obtain ⟨hzero, hsame⟩ := dfsAllocFileBlocks_of_no_run hsb hpart.noWrap.bitmapEnd_le
    fun s hs => h.noRun halloc s (hs.congr hbytes.symm hsectors.symm hlast.symm hval.symm)
  exact ⟨hzero, hsame.trans hbytes⟩

theorem keepsOldCopy_of_nothingToLose (hpart : DfsPartition d.store id)
    (h : NothingToLose d id finfo) (hlen : finfo.length ≠ 0)
    (htype : finfo.type ≠ RAMFS_FOLDER_TYPE_DISK_CLEAN) : KeepsOldCopy d id finfo := by
  intro φ hneg
  rw [dfsSyncFile_of_changed hlen htype] at hneg ⊢
  by_cases halloc : Releases finfo ∨ toU32 finfo.driveAddr = 0
  · obtain ⟨hzero, hbytes⟩ := h.allocatedDisk_eq hpart halloc φ
    rw [if_pos halloc, if_pos hzero]
    exact .of_bytes_eq hbytes rfl
  · rw [if_neg halloc] at hneg ⊢
    exact .of_bytes_eq (writeFileData_bytes_of_neg hneg) (writeFileData_driveAddr _ _ _ _)

/-- The address of a run is cut to `0` far behind the first byte of the bitmap only. -/
theorem SeesRun.clear_of_zero (hpart : DfsPartition d.store id) {n s : ℕ}
    (h : SeesRun d id (Superblock.decode (d.store.bytes id)) n s)
    (hzero : blockAddress (Superblock.decode (d.store.bytes id)) s = 0) :
    ¬ BlockUsed (d.store.bytes id) (Superblock.decode (d.store.bytes id)).bitmapStart s := by
  have hdata := hpart.dataStart_lt
  have hle : 8 ≤ s := by
    refine le_of_addr_ge hdata.2 ?_
    by_contra hlt
    rw [blockAddress, Nat.mod_eq_of_lt (by omega)] at hzero
    omega
  exact h.clear_of_le hpart.noWrap.bitmapEnd_le hle s (le_refl s) (Nat.lt_add_of_pos_right h.pos)

/-- A file whose sync keeps its old copy has no marked block to release. -/
theorem KeepsOldCopy.released (hpart : DfsPartition d.store id) (h : KeepsOldCopy d id finfo)
    (htype : finfo.type ≠ RAMFS_FOLDER_TYPE_DISK_CLEAN) {j : ℕ}
    (hj : ReleasedBlock (Superblock.decode (d.store.bytes id)) finfo j)
    (hoff : (Superblock.decode (d.store.bytes id)).bitmapStart + j / 8 < d.store.size id) :
    ¬ BlockUsed (d.store.bytes id) (Superblock.decode (d.store.bytes id)).bitmapStart j := by
  intro hused
  obtain ⟨hret, hbytes⟩ := @dfsSyncFile_fails_after_release d id finfo hj.1 htype _ rfl
  have hkept := (h _ (by rw [hret]; norm_num)).bits j
  rw [hbytes] at hkept
  have hgone := (releasedDisk_spec d.faultless_reliable (hpart.setFault _) finfo).2 j
  exact (hgone.mp (hkept.mpr hused)).2 ⟨hj, hoff⟩

/-- A run that is marked on the disk although the scan sees it clear lies in the first byte of the
bitmap, where addresses are not cut. -/
theorem SeesRun.address_of_used (hpart : DfsPartition d.store id) {n s : ℕ}
    (h : SeesRun d id (Superblock.decode (d.store.bytes id)) n s)
    (hused : BlockUsed (d.store.bytes id) (Superblock.decode (d.store.bytes id)).bitmapStart s) :
    blockAddress (Superblock.decode (d.store.bytes id)) s =
      (Superblock.decode (d.store.bytes id)).dataStart + s * DFS_BLOCK_SIZE := by
  have hdata := hpart.dataStart_lt
  refine Nat.mod_eq_of_lt (lt_of_not_ge fun hge => ?_)
  exact h.clear_of_le hpart.noWrap.bitmapEnd_le (le_of_addr_ge hdata.2 hge) s (le_refl s)
    (Nat.lt_add_of_pos_right h.pos) hused

theorem nothingToLose_of_keepsOldCopy (hpart : DfsPartition d.store id)
    (h : KeepsOldCopy d id finfo) (hlen : finfo.length ≠ 0)
    (htype : finfo.type ≠ RAMFS_FOLDER_TYPE_DISK_CLEAN) : NothingToLose d id finfo := by
  have hreleased := fun j => h.released hpart htype (j := j)
  refine ⟨hreleased, fun halloc s hs => ?_⟩
  have hpart' := hpart.setFault fun _ => false
  have hbytes : (releasedDisk d.faultless finfo id).store.bytes = d.store.bytes :=
    releasedDisk_bytes_of_clear hpart' hreleased
  obtain ⟨hlast, hval⟩ := releasedDisk_statics d.faultless finfo id
  have hs' : SeesRun (releasedDisk d.faultless finfo id) id (Superblock.decode (d.store.bytes id))
      (blocksFor (toU64 finfo.length)) s :=
    hs.congr hbytes (releasedDisk_sectors hpart' finfo) hlast hval
  rcases allocatedDisk_cases d.faultless_reliable hpart' finfo with
    ⟨s', hsees, haddr, -, hbits⟩ | ⟨hnone, -⟩
  swap
  · exact hnone s hs'
  obtain rfl := hsees.unique hs'
  have hset := (hbits s').mpr (.inr ⟨le_refl s', Nat.lt_add_of_pos_right hs.pos⟩)
  by_cases hzero : (allocatedDisk d.faultless finfo id).1 = 0
  · -- the run is marked, and the sync reports that there was none
    have heq := @dfsSyncFile_of_changed d.faultless finfo id hlen htype
    rw [if_pos halloc, if_pos hzero] at heq
    have hkept := h fun _ => false
    change (dfsSyncFile d.faultless finfo id).1 < 0 → OldCopyKept d id finfo
      (dfsSyncFile d.faultless finfo id) at hkept
    rw [heq] at hkept
    rw [haddr] at hzero
    exact hs.clear_of_zero hpart hzero (((hkept (by norm_num)).bits s').mp hset)
  · -- the data cannot be written, and the entry has the new address
    obtain ⟨hret, hnew, hafter⟩ := dfsSyncFile_fails_after_allocation hlen htype halloc hzero rfl
    have hkept := h _ (by rw [hret]; norm_num)
    have hused : BlockUsed (d.store.bytes id) (Superblock.decode (d.store.bytes id)).bitmapStart s' :=
      (hkept.bits s').mp (by rw [hafter]; exact hset)
    have hcut := hs.address_of_used hpart hused
    have hold : toU32 finfo.driveAddr = blockAddress (Superblock.decode (d.store.bytes id)) s' := by
      rw [← hkept.addr, hnew, haddr, toU32_toI32 (blockAddress_lt _ s')]
      rfl
    have hrel : Releases finfo := halloc.resolve_right fun h0 => hzero (by
      rw [haddr]
      exact hold.symm.trans h0)
    refine hreleased s' ⟨hrel, ?_⟩ ?_ hused
    · rw [hold, hcut]
      refine ⟨Nat.le_add_right _ _, ?_, ?_, ?_⟩
      · rw [Nat.add_sub_cancel_left, Nat.mul_div_cancel _ (by decide)]
      · rw [Nat.add_sub_cancel_left, Nat.mul_div_cancel _ (by decide)]
        exact Nat.lt_add_of_pos_right hs.pos
      · exact (Nat.lt_add_of_pos_right hs.pos).trans_le hs.first.fits
    · have hread := hs.readable s' (Nat.lt_add_of_pos_right hs.pos)
      rwa [byteOff_eq hpart.noWrap.bitmapEnd_le
        ((Nat.lt_add_of_pos_right hs.pos).trans_le hs.first.fits)] at hread

theorem keepsBitmap_of_marksOneBit (hpart : DfsPartition d.store id) (h : MarksOneBit d id size) :
    KeepsBitmap d id size := by
  intro φ hzero j
  have hw := hpart.noWrap.bitmapEnd_le
  have hcases := @dfsAllocFileBlocks_cases (d.setFault φ) id (Superblock.decode (d.store.bytes id))
    rfl hw size
  rcases hcases with ⟨-, hsame⟩ | ⟨s, st, hs, hsame, hret, hst⟩
  · rw [hsame.bytes]
    exact Iff.rfl
  · obtain ⟨hne, hmarked⟩ := h s (SeesRun.setFault.mp hs)
    have hfits := hs.first.fits
    -- the answer `0` is not the address of the run, so the marking failed
    have hfailed : (markBlocks id (Superblock.decode (d.store.bytes id)).bitmapStart
        (blocksFor size) s st).1 = false := by
      by_contra hok
      rw [hret, if_pos (Bool.eq_true_of_not_eq_false hok)] at hzero
      exact hne hzero
    have hbytes : st.bytes id = d.store.bytes id := by
      rw [hsame.bytes]
      rfl
    obtain ⟨-, -, hmono, -⟩ := markBlocks_spec id hw (blocksFor size) s st hfits
    have hset := markBlocks_failed id hw (blocksFor size) s st hfits hfailed j
    rw [hbytes] at hmono hset
    rw [hst]
    exact ⟨fun hj => (hset hj).elim (fun hj => hj) fun hj => hmarked j hj.1 hj.2, hmono j⟩

theorem marksOneBit_of_keepsBitmap (hpart : DfsPartition d.store id) (h : KeepsBitmap d id size) :
    MarksOneBit d id size := by
  intro s hs
  refine ⟨fun hzero => ?_, fun j hj hj' => ?_⟩
  · -- without any fault, the run is marked and the answer is `0`
    have hw := hpart.noWrap.bitmapEnd_le
    rcases dfsAllocFileBlocks_exact (d := d.faultless) rfl d.faultless_reliable hpart.super_le
      (.inl hw) size with ⟨s', hsees, hret, -, hbits⟩ | ⟨hnone, -⟩
    · obtain rfl := hs.unique (SeesRun.setFault.mp hsees)
      have hlt : s < (Superblock.decode (d.store.bytes id)).blockCount :=
        (Nat.lt_add_of_pos_right hs.pos).trans_le hs.first.fits
      have hset := (hbits s).mpr (.inr ⟨le_refl s, Nat.lt_add_of_pos_right hs.pos,
        (byteOff_lt_bitmapEnd _ hlt).trans hw⟩)
      exact hs.clear_of_zero hpart hzero ((h (fun _ => false) (hret.trans hzero) s).mp hset)
    · exact hnone s (SeesRun.setFault.mpr hs)
  · obtain ⟨φ, hret, hbits⟩ := dfsAllocFileBlocks_fails_while_marking hpart hs
      (show j + 1 - s < blocksFor size by omega)
    exact (h φ hret j).mp ((hbits j).mpr (.inr ⟨hj, by omega⟩))

end OldCopy

/-- **A failed sync keeps the old copy** of every entry, whatever requests fail, if and only if the
sync has nothing to do, or no marked block to release and no run to take; and an allocation that
answers `0` leaves the bitmap as it was, if and only if it has at most one bit to set. -/
theorem dfsSyncFile_keepsOldCopy_iff (d : Disk) (id : PartId) (hpart : DfsPartition d.store id)
    (finfo : RamfsFileInfo) (size : ℕ) :
    (KeepsOldCopy d id finfo ↔ finfo.length = 0 ∨ finfo.type = RAMFS_FOLDER_TYPE_DISK_CLEAN ∨
        NothingToLose d id finfo) ∧
      (KeepsBitmap d id size ↔ MarksOneBit d id size) := by
  refine ⟨?_, marksOneBit_of_keepsBitmap hpart, keepsBitmap_of_marksOneBit hpart⟩
  by_cases hidle : finfo.length = 0 ∨ finfo.type = RAMFS_FOLDER_TYPE_DISK_CLEAN
  · refine ⟨fun _ => by rw [← or_assoc]; exact .inl hidle, fun _ φ hneg => ?_⟩
    rw [dfsSyncFile, if_pos hidle] at hneg
    exact absurd hneg (lt_irrefl 0)
  · rw [← or_assoc, or_iff_right hidle]
    rw [not_or] at hidle
    exact ⟨fun h => nothingToLose_of_keepsOldCopy hpart h hidle.1 hidle.2,
      fun h => keepsOldCopy_of_nothingToLose hpart h hidle.1 hidle.2⟩

/-- A file that is neither new nor changed can be written back, and one block can be allocated,
without harm. -/
theorem dfsSyncFile_keepsOldCopy_unchanged :
    KeepsOldCopy nineBlockDisk part0 { changedNine 9000 with type := RAMFS_TYPE_MEM } ∧
      KeepsBitmap nineBlockDisk part0 1024 := by
  have hiff := dfsSyncFile_keepsOldCopy_iff nineBlockDisk part0 nineBlockDisk_partition
    { changedNine 9000 with type := RAMFS_TYPE_MEM } 1024
  refine ⟨hiff.1.mpr (.inr (.inr ⟨fun j hj => ?_, fun h => ?_⟩)), hiff.2.mpr fun s hs => ⟨?_, ?_⟩⟩
  · exact absurd hj.1.2.1 (by decide)
  · exact absurd h (by unfold Releases; decide)
  · have hfits := hs.first.fits
    rw [nineBlockDisk_superblock] at hfits ⊢
    simp only [blockAddress, DFS_BLOCK_SIZE] at hfits ⊢
    omega
  · intro j hj hj'
    rw [show blocksFor 1024 = 1 from rfl] at hj'
    omega

/-- A changed file of nine blocks, when no request succeeds after its blocks were released. -/
theorem dfsSyncFile_loses_old_copy :
    DfsPartition nineBlockDisk.store part0 ∧
      (dfsSyncFile (nineBlockDisk.setFault (failsFrom (nineBlockDisk.store.requests + 19)))
        (changedNine 9000) part0).1 = -2 ∧
      ¬ KeepsOldCopy nineBlockDisk part0 (changedNine 9000) := by
  have hret : (dfsSyncFile (nineBlockDisk.setFault (failsFrom (nineBlockDisk.store.requests + 19)))
      (changedNine 9000) part0).1 = -2 := by
    decide +kernel
  refine ⟨nineBlockDisk_partition, hret, fun h => ?_⟩
  have hkept := (h _ (by rw [hret]; norm_num)).bits 0
  rw [nineBlockDisk_superblock] at hkept
  have hused : BlockUsed (nineBlockDisk.store.bytes part0) 143180312 0 := by decide +kernel
  have hgone : ¬ BlockUsed ((dfsSyncFile (nineBlockDisk.setFault
      (failsFrom (nineBlockDisk.store.requests + 19))) (changedNine 9000) part0).2.2.store.bytes part0)
      143180312 0 := by
    decide +kernel
  exact hgone (hkept.mpr hused)

end LittleLinux
