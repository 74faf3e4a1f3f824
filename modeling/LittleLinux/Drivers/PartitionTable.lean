import LittleLinux.Lib.Loop
import LittleLinux.Drivers.Partition

/-!
# Parsing the partition tables

`parse_mbr` of `drive_partition.c` fills the table of a drive from its first sector and, for
an extended partition, from the chain of its EBR sectors: each EBR names the sector of the
next one. `update_partition_tables` does so for all drives, holding `partition_lock`.

The chain is followed through numbers stored on the disk, and nothing keeps it from coming
back to a sector it has visited. The loop of `parse_ebr` is given with a bound on its passes;
parsing ends when some bound is enough.
-/

namespace LittleLinux

/-- `MBR_SIGNATURE`. -/
def mbrSignature : ℕ := 0xAA55

/-- `read_sector`. The byte address is a `uint32_t`. -/
def readSector (a : Ahci) (drive : ℤ) (lba : ℕ) : Option ByteMemory × Ahci :=
  let addr := toU32 (lba * 512 : ℕ)
  match ahciRead a drive addr 256 with
  | (none, a) => (none, a)
  | (some low, a) =>
    match ahciRead a drive (toU32 (addr + 256 : ℕ)) 256 with
    | (none, a) => (none, a)
    | (some high, a) => (some ((a.garbage.putBytes 0 256 low).putBytes 256 256 high), a)

/-- `parse_partition_entry`, of the entry at `pos`. -/
def parsePartitionEntry (m : ByteMemory) (pos : ℕ) : PartitionEntry where
  startLba := m.getLE (pos + 8) 4
  sectorCount := m.getLE (pos + 12) 4
  type := m (pos + 4)
  startLba_lt := m.getLE_lt (pos + 8) 4
  sectorCount_lt := m.getLE_lt (pos + 12) 4

namespace DrivePartitions

/-- No partitions. -/
def empty : DrivePartitions := ⟨[], by simp⟩

/-- Add a partition, if there is room for it. -/
def push (dp : DrivePartitions) (pe : PartitionEntry) : DrivePartitions :=
  if h : dp.parts.length < 32 then ⟨dp.parts ++ [pe], by simpa using h⟩ else dp

end DrivePartitions

/-- The variables of the loop of `parse_ebr`. -/
structure EbrState where
  currentLba : ℕ
  dp : DrivePartitions
  ahci : Ahci

/-- A pass of the loop of `parse_ebr`. -/
def ebrPass (drive : ℤ) (e : EbrState) : Pass EbrState (DrivePartitions × Ahci) :=
  if e.currentLba = 0 then .leave (e.dp, e.ahci)
  else match readSector e.ahci drive e.currentLba with
    | (none, a) => .leave (e.dp, a)
    | (some sector, a) =>
      if sector.getLE 510 2 ≠ mbrSignature then .leave (e.dp, a)
      else
        let logPart := parsePartitionEntry sector 446
        let dp := if 0 < logPart.sectorCount then e.dp.push logPart else e.dp
        .next ⟨(parsePartitionEntry sector 462).startLba, dp, a⟩

/-- `parse_ebr`, for at most `n` sectors; `parse_mbr` does not look at what it returns. -/
def parseEbr (n : ℕ) (drive : ℤ) (extStartLba : ℕ) (dp : DrivePartitions) (a : Ahci) :
    Option (DrivePartitions × Ahci) :=
  loop (ebrPass drive) n ⟨extStartLba, dp, a⟩

/-- The entry is one of an extended partition. -/
def PartitionEntry.isExtended (pe : PartitionEntry) : Bool :=
  pe.type == 0x05 || pe.type == 0x0F || pe.type == 0x85

/-- The loop of `parse_mbr`, over the entries that are left. -/
def parseEntries (n : ℕ) (drive : ℤ) (mbr : ByteMemory) :
    List ℕ → DrivePartitions → Ahci → Option (DrivePartitions × Ahci)
  | [], dp, a => some (dp, a)
  | i :: is, dp, a =>
    let pe := parsePartitionEntry mbr (446 + i * 16)
    if pe.sectorCount = 0 then parseEntries n drive mbr is dp a
    else if pe.isExtended then
      match parseEbr n drive pe.startLba dp a with
      | none => none
      | some (dp, a) => parseEntries n drive mbr is dp a
    else parseEntries n drive mbr is (dp.push pe) a

namespace Partitions

/-- Replace the state of the driver and the table of a drive. -/
def setTable (s : Partitions) (drive : ℕ) (r : DrivePartitions × Ahci) : Partitions :=
  { s with ahci := r.2, driveParts := Function.update s.driveParts drive r.1 }

/-- Set `partition_lock`. -/
def setLock (s : Partitions) (b : Bool) : Partitions := { s with partitionLock := b }

end Partitions

/-- `parse_mbr`, for at most `n` sectors of each chain. -/
def parseMbr (n : ℕ) (s : Partitions) (drive : ℕ) : Option Partitions :=
  match readSector s.ahci drive 0 with
  | (none, a) => some (s.setTable drive (.empty, a))
  | (some mbr, a) =>
    if mbr.getLE 510 2 ≠ mbrSignature then some (s.setTable drive (.empty, a))
    else (parseEntries n drive mbr (List.range 4) .empty a).map (s.setTable drive)

/-- The loop of `update_partition_tables`, over the drives that are left. -/
def parseDrives (n : ℕ) : List ℕ → Partitions → Option Partitions
  | [], s => some s
  | drive :: drives, s =>
    match parseMbr n s drive with
    | none => none
    | some s => parseDrives n drives s

/-- `update_partition_tables`. The drives are the ones `ahci_table_update` finds. -/
def updatePartitionTables (n : ℕ) (s : Partitions) (found : Ahci) : Option Partitions :=
  let s := (s.setLock true).setAhci found
  (parseDrives n (List.range found.driveCount.toNat) s).map fun s => s.setLock false

/-! ### The chains on the disk -/

/-- The link from an EBR to the next one, as the bytes of the disk have it: there is none
from 0 or from a sector without the signature. -/
def ebrNext (m : ByteMemory) (lba : ℕ) : Option ℕ :=
  if lba = 0 then none
  else if m.getLE (toU32 (lba * 512 : ℕ) + 510) 2 ≠ mbrSignature then none
  else some (m.getLE (toU32 (lba * 512 : ℕ) + 470) 4)

/-- No chain that starts in an entry of the MBR comes back to a sector it has visited. -/
def ChainsAcyclic (m : ByteMemory) : Prop :=
  m.getLE 510 2 = mbrSignature → ∀ i < 4,
    (parsePartitionEntry m (446 + i * 16)).sectorCount ≠ 0 →
    (parsePartitionEntry m (446 + i * 16)).isExtended = true →
    NoRepeat (ebrNext m) (parsePartitionEntry m (446 + i * 16)).startLba

theorem ebrNext_lt {m : ByteMemory} {lba next : ℕ} (h : ebrNext m lba = some next) :
    next < 2 ^ 32 := by
  unfold ebrNext at h
  split_ifs at h
  rw [← Option.some.inj h]
  exact m.getLE_lt _ 4

/-! ### Reading a sector -/

section ReadSector

variable {a : Ahci} {drive : ℤ} {lba : ℕ}

/-- What `read_sector` does: nothing to the disks, and when it succeeds, it gives the 512
bytes at the address. -/
structure ReadsSector (a : Ahci) (drive : ℤ) (lba : ℕ) (r : Option ByteMemory × Ahci) : Prop where
  same : a.SameDrives r.2
  disks : r.2.disks = a.disks
  ok : a.Reliable → r.1.isSome
  bytes : ∀ sector, r.1 = some sector →
    ∀ i < 512, sector i = a.drive drive (toU32 (lba * 512 : ℕ) + i)

theorem readSector_spec (hp : a.Present drive) (lba : ℕ) :
    ReadsSector a drive lba (readSector a drive lba) := by
  -- the byte address wraps at 2^32, but never between the two halves of a sector
  have haddr : toU32 (lba * 512 : ℕ) + 512 ≤ 2 ^ 32 := by
    rw [toU32_natCast]
    omega
  have hhigh : toU32 (toU32 (lba * 512 : ℕ) + 256 : ℕ) = toU32 (lba * 512 : ℕ) + 256 :=
    toU32_of_lt (by omega)
  have hread := ahciRead_spec hp (by omega : toU32 (lba * 512 : ℕ) < 2 ^ 64)
    (by omega : 0 < 256) le_rfl
  rw [readSector]
  simp only [hhigh]
  revert hread
  generalize ahciRead a drive (toU32 (lba * 512 : ℕ)) 256 = r
  obtain ⟨o, a₁⟩ := r
  intro hread
  cases o with
  | none => exact ⟨hread.same, hread.disks, fun h => absurd (hread.ok h) (by simp), by simp⟩
  | some low =>
    dsimp only
    have hread' := ahciRead_spec (hread.same.present hp)
      (by omega : toU32 (lba * 512 : ℕ) + 256 < 2 ^ 64) (by omega : 0 < 256) le_rfl
    revert hread'
    generalize ahciRead a₁ drive (toU32 (lba * 512 : ℕ) + 256) 256 = r
    obtain ⟨o, a₂⟩ := r
    intro hread'
    have hsame := hread.same.trans hread'.same
    have hdisks := hread'.disks.trans hread.disks
    cases o with
    | none =>
      exact ⟨hsame, hdisks, fun h => absurd (hread'.ok (hread.same.reliable h)) (by simp), by simp⟩
    | some high =>
      refine ⟨hsame, hdisks, fun _ => rfl, fun sector hsector i hi => ?_⟩
      obtain rfl := Option.some.inj hsector
      have hdrive : a₁.drive drive = a.drive drive := by
        rw [Ahci.drive, Ahci.drive, hread.same.drivePort, hread.disks]
      -- each half of the buffer holds its own request's bytes
      rcases Nat.lt_or_ge i 256 with hlow | hlow
      · have hbyte := ByteMemory.putBytes_add (m := a.byteBuffer) (a := 0)
          (f := fun j => a.drive drive (toU32 (lba * 512 : ℕ) + j)) hlow
        rw [ByteMemory.putBytes_of_notMem (Or.inl hlow),
          ByteMemory.putBytes_of_mem (Nat.zero_le _) (by omega), Nat.sub_zero,
          hread.bytes low rfl]
        simpa using hbyte
      · have hbyte := ByteMemory.putBytes_add (m := a₁.byteBuffer) (a := 0)
          (f := fun j => a₁.drive drive (toU32 (lba * 512 : ℕ) + 256 + j))
          (by omega : i - 256 < 256)
        rw [ByteMemory.putBytes_of_mem hlow (by omega), hread'.bytes high rfl]
        rw [zero_add] at hbyte
        rw [hbyte, hdrive, add_assoc, Nat.add_sub_cancel' hlow]

/-- Without the drive there is nothing to read. -/
theorem readSector_of_not_present (hp : ¬a.Present drive) :
    readSector a drive lba = (none, a) := by
  have hrefused : ¬(a.Present drive ∧ 0 < 256 ∧ 256 ≤ 256) := fun h => hp h.1
  simp only [readSector, ahciRead_refused hrefused]

theorem ReadsSector.getLE {r : Option ByteMemory × Ahci} (h : ReadsSector a drive lba r)
    {sector : ByteMemory} (hs : r.1 = some sector) {pos n : ℕ} (hpos : pos + n ≤ 512) :
    sector.getLE pos n = (a.drive drive).getLE (toU32 (lba * 512 : ℕ) + pos) n := by
  have hshift : ∀ (n pos : ℕ), pos + n ≤ 512 →
      sector.getLE pos n = (a.drive drive).getLE (toU32 (lba * 512 : ℕ) + pos) n := by
    intro n
    induction n with
    | zero => intros; rfl
    | succ n ih =>
      intro pos hpos
      rw [ByteMemory.getLE, ByteMemory.getLE, h.bytes sector hs pos (by omega),
        ih (pos + 1) (by omega), add_assoc]
  exact hshift n pos hpos

end ReadSector

/-! ### Following a chain -/

/-- The drives and their bytes are the same. -/
def Ahci.SameBytes (a b : Ahci) : Prop := a.SameDrives b ∧ b.disks = a.disks

namespace Ahci.SameBytes

variable {a b c : Ahci} {drive : ℤ}

theorem refl (a : Ahci) : a.SameBytes a := ⟨SameDrives.refl a, rfl⟩

theorem trans (h : a.SameBytes b) (h' : b.SameBytes c) : a.SameBytes c :=
  ⟨h.1.trans h'.1, h'.2.trans h.2⟩

theorem drive_eq (h : a.SameBytes b) (drive : ℤ) : b.drive drive = a.drive drive := by
  rw [Ahci.drive, Ahci.drive, h.1.drivePort, h.2]

theorem present_iff (h : a.SameBytes b) : b.Present drive ↔ a.Present drive := by
  rw [Ahci.Present, Ahci.Present, h.1.ahciInitialized, h.1.driveCount]

end Ahci.SameBytes

section Chains

variable {drive : ℤ} {e : EbrState}

/-- A pass leaves the loop, or follows the link on the disk. -/
theorem ebrPass_cases (hp : e.ahci.Present drive) :
    (∃ r, ebrPass drive e = .leave r ∧ e.ahci.SameBytes r.2 ∧
      (e.ahci.Reliable → ebrNext (e.ahci.drive drive) e.currentLba = none)) ∨
    ∃ e', ebrPass drive e = .next e' ∧ e.ahci.SameBytes e'.ahci ∧
      ebrNext (e.ahci.drive drive) e.currentLba = some e'.currentLba := by
  have hread := readSector_spec hp e.currentLba
  rw [ebrPass, ebrNext]
  by_cases hzero : e.currentLba = 0
  · rw [if_pos hzero, if_pos hzero]
    exact Or.inl ⟨_, rfl, Ahci.SameBytes.refl _, fun _ => rfl⟩
  rw [if_neg hzero, if_neg hzero]
  revert hread
  generalize readSector e.ahci drive e.currentLba = r
  obtain ⟨o, a⟩ := r
  intro hread
  have hsame : e.ahci.SameBytes a := ⟨hread.same, hread.disks⟩
  cases o with
  | none => exact Or.inl ⟨_, rfl, hsame, fun h => absurd (hread.ok h) (by simp)⟩
  | some sector =>
    have hlink : (parsePartitionEntry sector 462).startLba =
        (e.ahci.drive drive).getLE (toU32 (e.currentLba * 512 : ℕ) + 470) 4 :=
      hread.getLE rfl (by omega : 462 + 8 + 4 ≤ 512)
    dsimp only
    rw [hread.getLE rfl (by omega : 510 + 2 ≤ 512)]
    by_cases hsig : (e.ahci.drive drive).getLE (toU32 (e.currentLba * 512 : ℕ) + 510) 2 ≠
        mbrSignature
    · rw [if_pos hsig, if_pos hsig]
      exact Or.inl ⟨_, rfl, hsame, fun _ => rfl⟩
    · rw [if_neg hsig, if_neg hsig]
      exact Or.inr ⟨_, rfl, hsame, congrArg some hlink.symm⟩

/-- Whatever the bound, following a chain changes no byte. -/
theorem parseEbr_sameBytes {n lba : ℕ} {dp : DrivePartitions} {a : Ahci}
    {r : DrivePartitions × Ahci} (hp : a.Present drive) (h : parseEbr n drive lba dp a = some r) :
    a.SameBytes r.2 := by
  refine loop_invariant (I := fun e : EbrState => a.SameBytes e.ahci)
    (Q := fun r => a.SameBytes r.2) ?_ ?_ (Ahci.SameBytes.refl a) h
  · intro e e' hsame hnext
    obtain ⟨r, hleave, -⟩ | ⟨e'', hnext', hsame', -⟩ := ebrPass_cases (hsame.present_iff.2 hp)
    · rw [hnext] at hleave
      exact absurd hleave (by simp)
    · rw [hnext] at hnext'
      obtain rfl := Pass.next.inj hnext'
      exact hsame.trans hsame'
  · intro e r hsame hleave
    obtain ⟨r', hleave', hsame', -⟩ | ⟨e'', hnext', -⟩ := ebrPass_cases (hsame.present_iff.2 hp)
    · rw [hleave] at hleave'
      obtain rfl := Pass.leave.inj hleave'
      exact hsame.trans hsame'
    · rw [hleave] at hnext'
      exact absurd hnext' (by simp)

/-- A chain that ends is followed to its end, or to a transfer that fails. -/
theorem parseEbr_ends {lba : ℕ} (dp : DrivePartitions) {a : Ahci} (hp : a.Present drive)
    (h : ChainEnds (ebrNext (a.drive drive)) lba) : ∃ n r, parseEbr n drive lba dp a = some r := by
  obtain ⟨k, hk⟩ := h
  induction k generalizing lba dp a with
  | zero => exact absurd hk (by simp [chain])
  | succ k ih =>
    obtain ⟨r, hleave, -⟩ | ⟨e', hnext, hsame, hlink⟩ :=
      ebrPass_cases (e := ⟨lba, dp, a⟩) hp
    · exact ⟨1, r, loop_succ_of_leave hleave⟩
    · rw [chain_of_next hlink, ← hsame.drive_eq] at hk
      obtain ⟨n, r, hr⟩ := ih e'.dp (hsame.present_iff.2 hp) hk
      exact ⟨n + 1, r, (loop_succ_of_next hnext).trans hr⟩

/-- A chain that does not end is followed forever when no transfer fails. -/
theorem parseEbr_eq_none {lba : ℕ} {dp : DrivePartitions} {a : Ahci} (hp : a.Present drive)
    (hr : a.Reliable) (h : ¬ChainEnds (ebrNext (a.drive drive)) lba) (n : ℕ) :
    parseEbr n drive lba dp a = none := by
  refine loop_eq_none (I := fun e : EbrState => a.SameBytes e.ahci ∧
    ¬ChainEnds (ebrNext (a.drive drive)) e.currentLba) ?_ ⟨Ahci.SameBytes.refl a, h⟩
  rintro e ⟨hsame, hends⟩
  obtain ⟨r, -, -, hnone⟩ | ⟨e', hnext, hsame', hlink⟩ :=
    ebrPass_cases (hsame.present_iff.2 hp)
  · have hend := hnone (hsame.1.reliable hr)
    rw [hsame.drive_eq] at hend
    exact absurd (chainEnds_of_eq_none hend) hends
  · rw [hsame.drive_eq] at hlink
    exact ⟨e', hnext, hsame.trans hsame', mt (chainEnds_iff_of_next hlink).2 hends⟩

theorem parseEbr_mono {n k lba : ℕ} {dp : DrivePartitions} {a : Ahci}
    {r : DrivePartitions × Ahci} (h : parseEbr n drive lba dp a = some r) (hnk : n ≤ k) :
    parseEbr k drive lba dp a = some r :=
  loop_mono h hnk

end Chains

/-! ### The entries of the MBR -/

section Entries

variable {drive : ℤ} {mbr : ByteMemory}

/-- The entry starts a chain. -/
def StartsChain (mbr : ByteMemory) (i : ℕ) : Prop :=
  (parsePartitionEntry mbr (446 + i * 16)).sectorCount ≠ 0 ∧
    (parsePartitionEntry mbr (446 + i * 16)).isExtended = true

/-- The start of the chain of an entry. -/
def chainStart (mbr : ByteMemory) (i : ℕ) : ℕ := (parsePartitionEntry mbr (446 + i * 16)).startLba

theorem parseEntries_of_startsChain {n i : ℕ} {is : List ℕ} (h : StartsChain mbr i)
    (dp : DrivePartitions) (a : Ahci) :
    parseEntries n drive mbr (i :: is) dp a =
      (parseEbr n drive (chainStart mbr i) dp a).bind fun r =>
        parseEntries n drive mbr is r.1 r.2 := by
  rw [parseEntries]
  simp only [if_neg h.1, if_pos h.2, chainStart]
  cases parseEbr n drive (parsePartitionEntry mbr (446 + i * 16)).startLba dp a <;> rfl

theorem parseEntries_of_not_startsChain (drive : ℤ) {i : ℕ} (h : ¬StartsChain mbr i)
    (dp : DrivePartitions) :
    ∃ dp', ∀ (n : ℕ) (is : List ℕ) (a : Ahci),
      parseEntries n drive mbr (i :: is) dp a = parseEntries n drive mbr is dp' a := by
  by_cases hcount : (parsePartitionEntry mbr (446 + i * 16)).sectorCount = 0
  · refine ⟨dp, fun n is a => ?_⟩
    rw [parseEntries]
    exact if_pos hcount
  · refine ⟨dp.push (parsePartitionEntry mbr (446 + i * 16)), fun n is a => ?_⟩
    rw [parseEntries]
    simp only [if_neg hcount]
    exact if_neg fun hext => h ⟨hcount, hext⟩

theorem parseEntries_mono {n k : ℕ} (hnk : n ≤ k) {is : List ℕ} {dp : DrivePartitions} {a : Ahci}
    {r : DrivePartitions × Ahci} (h : parseEntries n drive mbr is dp a = some r) :
    parseEntries k drive mbr is dp a = some r := by
  induction is generalizing dp a with
  | nil => exact h
  | cons i is ih =>
    by_cases hstart : StartsChain mbr i
    · rw [parseEntries_of_startsChain hstart] at h ⊢
      obtain ⟨r', hr', hrest⟩ := Option.bind_eq_some_iff.1 h
      rw [parseEbr_mono hr' hnk, Option.bind_some]
      exact ih hrest
    · obtain ⟨dp', heq⟩ := parseEntries_of_not_startsChain drive hstart dp
      rw [heq] at h ⊢
      exact ih h

/-- Entries whose chains end are parsed, whatever fails. -/
theorem parseEntries_ends {is : List ℕ} (dp : DrivePartitions) {a : Ahci} (hp : a.Present drive)
    (h : ∀ i ∈ is, StartsChain mbr i → ChainEnds (ebrNext (a.drive drive)) (chainStart mbr i)) :
    ∃ n r, parseEntries n drive mbr is dp a = some r ∧ a.SameBytes r.2 := by
  induction is generalizing dp a with
  | nil => exact ⟨0, (dp, a), rfl, Ahci.SameBytes.refl a⟩
  | cons i is ih =>
    have hrest := fun j hj => h j (List.mem_cons_of_mem i hj)
    by_cases hstart : StartsChain mbr i
    · obtain ⟨n, r, hr⟩ := parseEbr_ends dp hp (h i List.mem_cons_self hstart)
      have hsame := parseEbr_sameBytes hp hr
      obtain ⟨k, r', hr', hsame'⟩ := ih r.1 (a := r.2) (hsame.present_iff.2 hp)
        (by rwa [hsame.drive_eq])
      refine ⟨max n k, r', ?_, hsame.trans hsame'⟩
      rw [parseEntries_of_startsChain hstart, parseEbr_mono hr (le_max_left n k),
        Option.bind_some]
      exact parseEntries_mono (le_max_right n k) hr'
    · obtain ⟨dp', heq⟩ := parseEntries_of_not_startsChain drive hstart dp
      obtain ⟨n, r, hr, hsame⟩ := ih dp' hp hrest
      exact ⟨n, r, by rw [heq, hr], hsame⟩

/-- An entry whose chain does not end is never done with when no transfer fails. -/
theorem parseEntries_eq_none {is : List ℕ} {dp : DrivePartitions} {a : Ahci}
    (hp : a.Present drive) (hr : a.Reliable) {i : ℕ} (hi : i ∈ is) (hstart : StartsChain mbr i)
    (h : ¬ChainEnds (ebrNext (a.drive drive)) (chainStart mbr i)) (n : ℕ) :
    parseEntries n drive mbr is dp a = none := by
  induction is generalizing dp a with
  | nil => exact absurd hi (by simp)
  | cons j is ih =>
    by_cases hj : StartsChain mbr j
    · rw [parseEntries_of_startsChain hj]
      cases hebr : parseEbr n drive (chainStart mbr j) dp a with
      | none => rfl
      | some r =>
        -- the chain of this entry has ended, so it is another one
        have hsame := parseEbr_sameBytes hp hebr
        have hne : i ≠ j := by
          rintro rfl
          rw [parseEbr_eq_none hp hr h] at hebr
          exact absurd hebr (by simp)
        rw [Option.bind_some]
        exact ih (hsame.present_iff.2 hp) (hsame.1.reliable hr)
          ((List.mem_cons.1 hi).resolve_left hne) (by rwa [hsame.drive_eq])
    · obtain ⟨dp', heq⟩ := parseEntries_of_not_startsChain drive hj dp
      have hne : i ≠ j := by
        rintro rfl
        exact hj hstart
      rw [heq]
      exact ih hp hr ((List.mem_cons.1 hi).resolve_left hne) h

end Entries

/-! ### Drives -/

section Drives

variable {s : Partitions} {drive : ℕ}

theorem parsePartitionEntry_congr {m m' : ByteMemory} {pos : ℕ}
    (h : ∀ i < 16, m (pos + i) = m' (pos + i)) :
    parsePartitionEntry m pos = parsePartitionEntry m' pos := by
  have hstart : m.getLE (pos + 8) 4 = m'.getLE (pos + 8) 4 :=
    ByteMemory.getLE_congr fun i hi => by rw [add_assoc]; exact h _ (by omega)
  have hcount : m.getLE (pos + 12) 4 = m'.getLE (pos + 12) 4 :=
    ByteMemory.getLE_congr fun i hi => by rw [add_assoc]; exact h _ (by omega)
  have htype := h 4 (by omega)
  simp only [parsePartitionEntry, hstart, hcount, htype]

/-- The sector at 0 has the entries of the disk. -/
theorem ReadsSector.entry {a : Ahci} {drive : ℤ} {r : Option ByteMemory × Ahci}
    (h : ReadsSector a drive 0 r) {mbr : ByteMemory} (hs : r.1 = some mbr) {i : ℕ} (hi : i < 4) :
    parsePartitionEntry mbr (446 + i * 16) = parsePartitionEntry (a.drive drive) (446 + i * 16) := by
  refine parsePartitionEntry_congr fun j hj => ?_
  rw [h.bytes mbr hs _ (by omega), zero_mul, toU32_of_lt (by omega), zero_add]

theorem ReadsSector.signature {a : Ahci} {drive : ℤ} {r : Option ByteMemory × Ahci}
    (h : ReadsSector a drive 0 r) {mbr : ByteMemory} (hs : r.1 = some mbr) :
    mbr.getLE 510 2 = (a.drive drive).getLE 510 2 := by
  rw [h.getLE hs (by omega : 510 + 2 ≤ 512), zero_mul, toU32_of_lt (by omega), zero_add]

/-- The chains of the MBR end, in the words of the chain library. -/
theorem chainsAcyclic_iff {m : ByteMemory} :
    ChainsAcyclic m ↔ (m.getLE 510 2 = mbrSignature → ∀ i < 4, StartsChain m i →
      ChainEnds (ebrNext m) (chainStart m i)) := by
  have hiff : ∀ i, ChainEnds (ebrNext m) (chainStart m i) ↔
      NoRepeat (ebrNext m) (chainStart m i) := fun i =>
    chainEnds_iff_noRepeat (parsePartitionEntry m (446 + i * 16)).startLba_lt
      fun _ _ h => ebrNext_lt h
  constructor
  · intro h hsig i hi hstart
    exact (hiff i).2 (h hsig i hi hstart.1 hstart.2)
  · intro h hsig i hi hcount hext
    exact (hiff i).1 (h hsig i hi ⟨hcount, hext⟩)

/-- A drive whose chains are acyclic is parsed, whatever fails; no byte changes. -/
theorem parseMbr_ends (h : s.ahci.Present drive → ChainsAcyclic (s.ahci.drive drive)) :
    ∃ n s', parseMbr n s drive = some s' ∧ s.ahci.SameBytes s'.ahci := by
  by_cases hp : s.ahci.Present drive
  · have hread := readSector_spec hp 0
    have hacyclic := chainsAcyclic_iff.1 (h hp)
    simp only [parseMbr]
    revert hread
    generalize readSector s.ahci drive 0 = r
    obtain ⟨o, a⟩ := r
    intro hread
    have hsame : s.ahci.SameBytes a := ⟨hread.same, hread.disks⟩
    cases o with
    | none => exact ⟨0, _, rfl, hsame⟩
    | some mbr =>
      dsimp only
      rw [hread.signature rfl]
      by_cases hsig : (s.ahci.drive drive).getLE 510 2 = mbrSignature
      · have hends : ∀ i ∈ List.range 4, StartsChain mbr i →
            ChainEnds (ebrNext (a.drive drive)) (chainStart mbr i) := by
          intro i hi hstart
          have hi' := List.mem_range.1 hi
          have hentry := hread.entry rfl hi'
          rw [hsame.drive_eq, chainStart, hentry]
          refine hacyclic hsig i hi' ?_
          rwa [StartsChain, hentry] at hstart
        obtain ⟨n, r, hr, hsame'⟩ := parseEntries_ends .empty (hsame.present_iff.2 hp) hends
        refine ⟨n, s.setTable drive r, ?_, hsame.trans hsame'⟩
        rw [if_neg (not_not.2 hsig), hr]
        rfl
      · exact ⟨0, _, if_pos hsig, hsame⟩
  · refine ⟨0, s.setTable drive (.empty, s.ahci), ?_, Ahci.SameBytes.refl s.ahci⟩
    simp only [parseMbr, readSector_of_not_present hp]

theorem parseMbr_mono {n k : ℕ} (hnk : n ≤ k) {s' : Partitions}
    (h : parseMbr n s drive = some s') : parseMbr k s drive = some s' := by
  simp only [parseMbr] at h ⊢
  revert h
  generalize readSector s.ahci drive 0 = r
  obtain ⟨o, a⟩ := r
  cases o with
  | none => exact id
  | some mbr =>
    intro h
    dsimp only at h ⊢
    by_cases hsig : mbr.getLE 510 2 ≠ mbrSignature
    · rwa [if_pos hsig] at h ⊢
    · rw [if_neg hsig] at h ⊢
      obtain ⟨r, hr, hs'⟩ := Option.map_eq_some_iff.1 h
      rw [parseEntries_mono hnk hr, Option.map_some, hs']

/-- A drive with a cyclic chain is never done with when no transfer fails. -/
theorem parseMbr_eq_none (hp : s.ahci.Present drive) (hr : s.ahci.Reliable)
    (h : ¬ChainsAcyclic (s.ahci.drive drive)) (n : ℕ) : parseMbr n s drive = none := by
  have hread := readSector_spec hp 0
  rw [chainsAcyclic_iff] at h
  push Not at h
  obtain ⟨hsig, i, hi, hstart, hends⟩ := h
  simp only [parseMbr]
  revert hread
  generalize readSector s.ahci drive 0 = r
  obtain ⟨o, a⟩ := r
  intro hread
  have hsame : s.ahci.SameBytes a := ⟨hread.same, hread.disks⟩
  cases o with
  | none => exact absurd (hread.ok hr) (by simp)
  | some mbr =>
    dsimp only
    rw [hread.signature rfl, if_neg (not_not.2 hsig)]
    have hentry := hread.entry rfl hi
    have hstart' : StartsChain mbr i := by rwa [StartsChain, hentry]
    have hends' : ¬ChainEnds (ebrNext (a.drive drive)) (chainStart mbr i) := by
      rwa [hsame.drive_eq, chainStart, hentry]
    rw [parseEntries_eq_none (hsame.present_iff.2 hp) (hsame.1.reliable hr)
      (List.mem_range.2 hi) hstart' hends']
    rfl

theorem parseDrives_mono {n k : ℕ} (hnk : n ≤ k) {drives : List ℕ} {s' : Partitions}
    (h : parseDrives n drives s = some s') : parseDrives k drives s = some s' := by
  induction drives generalizing s with
  | nil => exact h
  | cons d drives ih =>
    rw [parseDrives] at h ⊢
    cases hd : parseMbr n s d with
    | none => rw [hd] at h; exact absurd h (by simp)
    | some t =>
      rw [hd] at h
      rw [parseMbr_mono hnk hd]
      exact ih h

/-- All drives are parsed when all their chains are acyclic. -/
theorem parseDrives_ends {drives : List ℕ}
    (h : ∀ d ∈ drives, s.ahci.Present d → ChainsAcyclic (s.ahci.drive d)) :
    ∃ n s', parseDrives n drives s = some s' := by
  induction drives generalizing s with
  | nil => exact ⟨0, s, rfl⟩
  | cons d drives ih =>
    obtain ⟨n, t, ht, hsame⟩ := parseMbr_ends (h d List.mem_cons_self)
    obtain ⟨k, s', hs'⟩ := ih (s := t) fun e he hp => by
      rw [hsame.drive_eq]
      exact h e (List.mem_cons_of_mem d he) (hsame.present_iff.1 hp)
    refine ⟨max n k, s', ?_⟩
    rw [parseDrives, parseMbr_mono (le_max_left n k) ht]
    exact parseDrives_mono (le_max_right n k) hs'

/-- One drive with a cyclic chain keeps the walk over the drives from ending. -/
theorem parseDrives_eq_none {drives : List ℕ} (hr : s.ahci.Reliable) {d : ℕ} (hd : d ∈ drives)
    (hp : s.ahci.Present d) (h : ¬ChainsAcyclic (s.ahci.drive d)) (n : ℕ) :
    parseDrives n drives s = none := by
  induction drives generalizing s with
  | nil => exact absurd hd (by simp)
  | cons e drives ih =>
    rw [parseDrives]
    cases he : parseMbr n s e with
    | none => rfl
    | some t =>
      -- this drive has been parsed, so its chains are acyclic
      have hacyclic : s.ahci.Present e → ChainsAcyclic (s.ahci.drive e) := by
        intro hpe
        by_contra hcyclic
        rw [parseMbr_eq_none hpe hr hcyclic] at he
        exact absurd he (by simp)
      have hne : d ≠ e := by
        rintro rfl
        exact h (hacyclic hp)
      obtain ⟨k, t', ht', hsame⟩ := parseMbr_ends hacyclic
      obtain rfl : t = t' := by
        have h₁ := parseMbr_mono (le_max_left n k) he
        rw [parseMbr_mono (le_max_right n k) ht'] at h₁
        exact (Option.some.inj h₁).symm
      exact ih (hsame.1.reliable hr) ((List.mem_cons.1 hd).resolve_left hne)
        (hsame.present_iff.2 hp) (by rwa [hsame.drive_eq])

end Drives

/-! ### When parsing ends -/

/-- The same driver, with other transfers failing. -/
def Ahci.withFault (a : Ahci) (fault : ℕ → Bool) : Ahci := { a with fault }

/-- Parsing the drive ends, whichever transfers fail. -/
def ParseEnds (s : Partitions) (drive : ℕ) : Prop :=
  ∀ fault : ℕ → Bool, ∃ n s', parseMbr n (s.setAhci (s.ahci.withFault fault)) drive = some s'

/-- `update_partition_tables` returns and has released the lock, whichever transfers fail. -/
def UpdateReleases (s : Partitions) (found : Ahci) : Prop :=
  ∀ fault : ℕ → Bool, ∃ n s',
    updatePartitionTables n s (found.withFault fault) = some s' ∧ s'.partitionLock = false

/-- **When partition-table parsing ends.** For every disk, `parse_mbr` ends whatever transfers
fail exactly when no chain of EBR links from an extended entry of the MBR visits a sector
number twice; and `update_partition_tables` releases its lock exactly when this is so for
every drive. -/
theorem parseMbr_ends_iff (s : Partitions) (found : Ahci) :
    (∀ drive : ℕ, ParseEnds s drive ↔
      (s.ahci.Present drive → ChainsAcyclic (s.ahci.drive drive))) ∧
    (UpdateReleases s found ↔
      ∀ drive : ℕ, found.Present drive → ChainsAcyclic (found.drive drive)) := by
  refine ⟨fun drive => ⟨fun h hp => ?_, fun h fault => ?_⟩, fun h drive hp => ?_, fun h fault => ?_⟩
  · by_contra hcyclic
    obtain ⟨n, s', hs'⟩ := h fun _ => false
    have hnone := parseMbr_eq_none (s := s.setAhci (s.ahci.withFault fun _ => false)) hp
      (fun _ => rfl) hcyclic n
    rw [hnone] at hs'
    exact absurd hs' (by simp)
  · obtain ⟨n, s', hs', -⟩ := parseMbr_ends (s := s.setAhci (s.ahci.withFault fault)) h
    exact ⟨n, s', hs'⟩
  · by_contra hcyclic
    obtain ⟨n, s', hs', -⟩ := h fun _ => false
    have hmem : drive ∈ List.range found.driveCount.toNat := by
      have := hp.2.2
      rw [List.mem_range]
      omega
    have hnone := parseDrives_eq_none
      (s := (s.setLock true).setAhci (found.withFault fun _ => false)) (fun _ => rfl) hmem hp
      hcyclic n
    simp only [updatePartitionTables] at hs'
    obtain ⟨t, ht, -⟩ := Option.map_eq_some_iff.1 hs'
    exact absurd (hnone.symm.trans ht) (by simp)
  · have hdrives : ∀ d ∈ List.range found.driveCount.toNat,
        (found.withFault fault).Present d → ChainsAcyclic ((found.withFault fault).drive d) :=
      fun d _ hp => h d hp
    obtain ⟨n, t, ht⟩ := parseDrives_ends
      (s := (s.setLock true).setAhci (found.withFault fault)) hdrives
    exact ⟨n, t.setLock false, Option.map_eq_some_iff.2 ⟨t, ht, rfl⟩, rfl⟩

/-- A disk whose only extended partition starts at sector 1, with an EBR there that links to
itself. -/
def selfLinkedDisk : ByteMemory := fun x =>
  if x = 510 ∨ x = 1022 then 0x55
  else if x = 511 ∨ x = 1023 then 0xAA
  else if x = 450 then 0x05
  else if x = 454 ∨ x = 458 ∨ x = 982 then 1
  else 0

/-- A driver with this one disk. -/
def selfLinkedDrive : Partitions :=
  onePartition.setAhci { blankAhci with disks := fun _ => selfLinkedDisk }

/-- Parsing this disk never ends. -/
theorem parseMbr_never_ends : ¬ParseEnds selfLinkedDrive 0 := by
  intro h
  obtain ⟨n, s', hs'⟩ := h fun _ => false
  have hcyclic : ¬ChainsAcyclic selfLinkedDisk := by
    intro hacyclic
    have hno := hacyclic (by decide +kernel) 0 (by decide) (by decide +kernel) (by decide +kernel)
    exact hno 0 1 1 (by decide) (by decide +kernel) (by decide +kernel)
  have hnone := parseMbr_eq_none
    (s := selfLinkedDrive.setAhci (selfLinkedDrive.ahci.withFault fun _ => false))
    ⟨rfl, le_rfl, Int.zero_lt_one⟩ (fun _ => rfl) hcyclic n
  rw [hnone] at hs'
  exact absurd hs' (by simp)

end LittleLinux
