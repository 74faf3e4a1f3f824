import LittleLinux.Drivers.Ahci

/-!
# Partitions

`drive_partition.c` over the AHCI byte interface: the table of the partitions of every drive,
and `partition_read` and `partition_write`, which turn an offset in a partition into an
address on its drive. Both take and release `partition_lock` before they touch the drive, so
the lock is left out of their model.

The table is filled from the 32-bit fields of the partition sectors, and its entries carry
these bounds.
-/

namespace LittleLinux

/-- `struct partition_entry`, as `parse_partition_entry` fills it. -/
structure PartitionEntry where
  startLba : ℕ
  sectorCount : ℕ
  type : UInt8
  startLba_lt : startLba < 2 ^ 32
  sectorCount_lt : sectorCount < 2 ^ 32

/-- `struct drive_partitions`: the first `count` entries of the array. -/
structure DrivePartitions where
  parts : List PartitionEntry
  length_le : parts.length ≤ 32

/-- The driver and the tables of its drives, with `partition_lock`. -/
structure Partitions where
  ahci : Ahci
  driveParts : ℕ → DrivePartitions
  partitionLock : Bool

namespace Partitions

/-- Replace the state of the driver. -/
def setAhci (s : Partitions) (a : Ahci) : Partitions := { s with ahci := a }

/-- The entry of a partition, when the drive and the partition exist. -/
def entry (s : Partitions) (drive part : ℤ) : Option PartitionEntry :=
  if drive < 0 ∨ s.ahci.driveCount ≤ drive ∨ part < 0 then none
  else (s.driveParts drive.toNat).parts[part.toNat]?

end Partitions

/-- The bounds check of `partition_read` and `partition_write`, in `uint64_t`. -/
def inBounds (pe : PartitionEntry) (offset : ℕ) (length : ℤ) : Bool :=
  decide (toU64 (offset + toU64 length : ℕ) ≤ toU64 (pe.sectorCount * 512 : ℕ))

/-- `abs_addr` of `partition_read` and `partition_write`. -/
def absAddr (pe : PartitionEntry) (offset : ℕ) : ℕ :=
  toU64 (toU64 (pe.startLba * 512 : ℕ) + offset : ℕ)

/-- `partition_read`: whether it returned 0, and the buffer. -/
def partitionRead (s : Partitions) (drive part : ℤ) (offset : ℕ) (length : ℤ)
    (buffer : ByteMemory) : Bool × ByteMemory × Partitions :=
  match s.entry drive part with
  | none => (false, buffer, s)
  | some pe =>
    if inBounds pe offset length then
      match ahciRead s.ahci drive (absAddr pe offset) (toU64 length) with
      | (none, a) => (false, buffer, s.setAhci a)
      | (some data, a) => (true, buffer.putBytes 0 length.toNat data, s.setAhci a)
    else (false, buffer, s)

/-- `partition_write`: whether it returned 0. -/
def partitionWrite (s : Partitions) (drive part : ℤ) (offset : ℕ) (length : ℤ)
    (buffer : Option ByteMemory) : Bool × Partitions :=
  match s.entry drive part with
  | none => (false, s)
  | some pe =>
    if inBounds pe offset length then
      let r := ahciWrite s.ahci drive (absAddr pe offset) (toU64 length) buffer
      (r.1, s.setAhci r.2)
    else (false, s)

/-- `partition_get_sector_count`. -/
def partitionGetSectorCount (s : Partitions) (drive part : ℤ) : ℕ :=
  match s.entry drive part with
  | none => 0
  | some pe => pe.sectorCount

/-! ### What the guards let through -/

section Guards

variable {s : Partitions} {drive part : ℤ} {pe : PartitionEntry} {offset : ℕ} {length : ℤ}

theorem Partitions.entry_eq_some (h : s.entry drive part = some pe) :
    0 ≤ drive ∧ drive < s.ahci.driveCount := by
  unfold Partitions.entry at h
  split_ifs at h with hd
  omega

/-- A length that `ahci_read` and `ahci_write` take is the length itself. -/
theorem toU64_length (h : -2 ^ 31 ≤ length ∧ length < 2 ^ 31) (h₁ : toU64 length ≠ 0)
    (h₂ : toU64 length ≤ 256) : 0 < length ∧ toU64 length = length.toNat := by
  unfold toU64 at *
  omega

theorem toU64_of_pos (h₁ : 0 ≤ length) (h₂ : length < 2 ^ 31) : toU64 length = length.toNat := by
  unfold toU64
  omega

theorem inBounds_iff (h₁ : 0 < length) (h₂ : length < 2 ^ 31) :
    inBounds pe offset length = true ↔
      ((offset : ℤ) + length) % 2 ^ 64 ≤ pe.sectorCount * 512 := by
  have hcount := pe.sectorCount_lt
  rw [inBounds, decide_eq_true_iff, toU64_of_pos h₁.le h₂, toU64_natCast, toU64_natCast]
  omega

theorem absAddr_lt (pe : PartitionEntry) (offset : ℕ) : absAddr pe offset < 2 ^ 64 := by
  rw [absAddr, toU64_natCast]
  omega

/-- Without a wrap the address is where the partition says. -/
theorem absAddr_eq (h : offset + 256 < 2 ^ 64 - 2 ^ 42) :
    absAddr pe offset = pe.startLba * 512 + offset := by
  have hstart := pe.startLba_lt
  rw [absAddr, toU64_natCast, toU64_natCast]
  omega

theorem ahciRead_refused {a : Ahci} {n : ℕ} (h : ¬(a.Present drive ∧ 0 < n ∧ n ≤ 256))
    (addr : ℕ) : ahciRead a drive addr n = (none, a) := by
  unfold Ahci.Present at h
  unfold ahciRead
  split_ifs with h₁ h₂ h₃ h₄
  · rfl
  · rfl
  · rfl
  · rfl
  · refine absurd ⟨⟨?_, ?_, ?_⟩, ?_, ?_⟩ h
    · simpa using h₁
    all_goals omega

theorem ahciWrite_refused {a : Ahci} {addr n : ℕ} {data : ByteMemory}
    (h : ¬(a.Present drive ∧ 0 < n ∧ n ≤ 256)) :
    (ahciWrite a drive addr n (some data)).1 = false := by
  unfold Ahci.Present at h
  unfold ahciWrite
  split_ifs with h₁ h₂ h₃ h₄
  · rfl
  · rfl
  · rfl
  · rfl
  · refine absurd ⟨⟨?_, ?_, ?_⟩, ?_, ?_⟩ h
    · simpa using h₁
    all_goals omega

theorem ahciWrite_null (a : Ahci) (addr n : ℕ) : (ahciWrite a drive addr n none).1 = false := by
  rw [ahciWrite]
  split_ifs <;> rfl

end Guards

/-! ### Confinement -/

/-- The request passes every check of the two layers: the driver is set up, the partition
exists, the length is one `ahci_read` and `ahci_write` take, and the sum of offset and
length, as the machine computes it, is not behind the end of the partition. -/
def Admitted (s : Partitions) (drive part : ℤ) (offset : ℕ) (length : ℤ) : Prop :=
  s.ahci.ahciInitialized = true ∧ (1 ≤ length ∧ length ≤ 256) ∧
    ∃ pe, s.entry drive part = some pe ∧ ((offset : ℤ) + length) % 2 ^ 64 ≤ pe.sectorCount * 512

/-- If the write returns 0, every byte it changed, on any disk, lies in the partition. -/
def WriteConfined (s : Partitions) (drive part : ℤ) (offset : ℕ) (length : ℤ)
    (buffer : Option ByteMemory) : Prop :=
  (partitionWrite s drive part offset length buffer).1 = true →
    ∃ pe, s.entry drive part = some pe ∧ ∀ port x,
      (partitionWrite s drive part offset length buffer).2.ahci.disks port x ≠
        s.ahci.disks port x →
      port = s.ahci.drivePort drive.toNat ∧ pe.startLba * 512 ≤ x ∧
        x < (pe.startLba + pe.sectorCount) * 512

/-- If the read returns 0, every byte it returned is the one at its place in the partition. -/
def ReadConfined (s : Partitions) (drive part : ℤ) (offset : ℕ) (length : ℤ)
    (buffer : ByteMemory) : Prop :=
  (partitionRead s drive part offset length buffer).1 = true →
    ∃ pe, s.entry drive part = some pe ∧ ∀ i : ℕ, i < length →
      pe.startLba * 512 + offset + i < (pe.startLba + pe.sectorCount) * 512 ∧
        (partitionRead s drive part offset length buffer).2.1 i =
          s.ahci.drive drive (pe.startLba * 512 + offset + i)

/-- The same state, with other transfers failing. -/
def Partitions.withFault (s : Partitions) (fault : ℕ → Bool) : Partitions :=
  s.setAhci { s.ahci with fault }

section Confined

variable {s : Partitions} {drive part : ℤ} {pe : PartitionEntry} {offset : ℕ} {length : ℤ}

theorem Admitted.present (h : Admitted s drive part offset length) : s.ahci.Present drive := by
  obtain ⟨hi, -, pe, hpe, -⟩ := h
  exact ⟨hi, Partitions.entry_eq_some hpe⟩

theorem Admitted.inBounds (h : Admitted s drive part offset length)
    (hpe : s.entry drive part = some pe) : inBounds pe offset length = true := by
  obtain ⟨-, hlen, pe', hpe', hle⟩ := h
  obtain rfl := Option.some.inj (hpe.symm.trans hpe')
  exact (inBounds_iff (by omega) (by omega)).2 hle

/-- An admitted read is a read of the drive. -/
theorem Admitted.read_eq (h : Admitted s drive part offset length)
    (hpe : s.entry drive part = some pe) (buffer : ByteMemory) :
    partitionRead s drive part offset length buffer =
      match ahciRead s.ahci drive (absAddr pe offset) length.toNat with
      | (none, a) => (false, buffer, s.setAhci a)
      | (some data, a) => (true, buffer.putBytes 0 length.toNat data, s.setAhci a) := by
  have hlen := h.2.1
  rw [partitionRead, hpe]
  dsimp only
  rw [if_pos (h.inBounds hpe), toU64_of_pos (by omega) (by omega)]

/-- An admitted write is a write of the drive. -/
theorem Admitted.write_eq (h : Admitted s drive part offset length)
    (hpe : s.entry drive part = some pe) (buffer : Option ByteMemory) :
    partitionWrite s drive part offset length buffer =
      ((ahciWrite s.ahci drive (absAddr pe offset) length.toNat buffer).1,
        s.setAhci (ahciWrite s.ahci drive (absAddr pe offset) length.toNat buffer).2) := by
  have hlen := h.2.1
  rw [partitionWrite, hpe]
  dsimp only
  rw [if_pos (h.inBounds hpe), toU64_of_pos (by omega) (by omega)]

/-- Only an admitted read returns 0. -/
theorem admitted_of_read (hl : -2 ^ 31 ≤ length ∧ length < 2 ^ 31) {buffer : ByteMemory}
    (h : (partitionRead s drive part offset length buffer).1 = true) :
    Admitted s drive part offset length := by
  rw [partitionRead] at h
  cases hpe : s.entry drive part with
  | none => rw [hpe] at h; exact absurd h (by simp)
  | some pe =>
    rw [hpe] at h
    dsimp only at h
    by_cases hin : inBounds pe offset length = true
    · rw [if_pos hin] at h
      by_cases hok : s.ahci.Present drive ∧ 0 < toU64 length ∧ toU64 length ≤ 256
      · obtain ⟨hp, h₁, h₂⟩ := hok
        obtain ⟨hpos, hnat⟩ := toU64_length hl (by omega) h₂
        exact ⟨hp.1, by omega, pe, hpe, (inBounds_iff hpos hl.2).1 hin⟩
      · rw [ahciRead_refused hok] at h
        exact absurd h (by simp)
    · rw [if_neg hin] at h
      exact absurd h (by simp)

/-- Only an admitted write returns 0. -/
theorem admitted_of_write (hl : -2 ^ 31 ≤ length ∧ length < 2 ^ 31) {buffer : Option ByteMemory}
    (h : (partitionWrite s drive part offset length buffer).1 = true) :
    Admitted s drive part offset length ∧ buffer ≠ none := by
  rw [partitionWrite] at h
  cases hpe : s.entry drive part with
  | none => rw [hpe] at h; exact absurd h (by simp)
  | some pe =>
    rw [hpe] at h
    dsimp only at h
    by_cases hin : inBounds pe offset length = true
    · rw [if_pos hin] at h
      cases buffer with
      | none => rw [ahciWrite_null] at h; exact absurd h (by simp)
      | some data =>
        by_cases hok : s.ahci.Present drive ∧ 0 < toU64 length ∧ toU64 length ≤ 256
        · obtain ⟨hp, h₁, h₂⟩ := hok
          obtain ⟨hpos, hnat⟩ := toU64_length hl (by omega) h₂
          exact ⟨⟨hp.1, by omega, pe, hpe, (inBounds_iff hpos hl.2).1 hin⟩, by simp⟩
        · rw [ahciWrite_refused hok] at h
          exact absurd h (by simp)
    · rw [if_neg hin] at h
      exact absurd h (by simp)

/-- An admitted read of a reliable drive returns 0, with the bytes at its address. -/
theorem Admitted.read_ok (h : Admitted s drive part offset length)
    (hpe : s.entry drive part = some pe) (buffer : ByteMemory) :
    let r := partitionRead s drive part offset length buffer
    (s.ahci.Reliable → r.1 = true) ∧
      (r.1 = true → ∀ i : ℕ, i < length → r.2.1 i = s.ahci.drive drive (absAddr pe offset + i)) := by
  have hlen := h.2.1
  have hread := ahciRead_spec h.present (absAddr_lt pe offset) (by omega : 0 < length.toNat)
    (by omega)
  rw [h.read_eq hpe]
  revert hread
  generalize ahciRead s.ahci drive (absAddr pe offset) length.toNat = r
  obtain ⟨o, a⟩ := r
  intro hread
  cases o with
  | none => exact ⟨fun hs => absurd (hread.ok hs) (by simp), fun h => absurd h (by simp)⟩
  | some data =>
    refine ⟨fun _ => rfl, fun _ i hi => ?_⟩
    have hi' : i < length.toNat := by omega
    have hbuf : buffer.putBytes 0 length.toNat data i = data i := by
      simpa using ByteMemory.putBytes_add (m := buffer) (a := 0) (f := data) hi'
    have hdata : data i = s.ahci.drive drive (absAddr pe offset + i) := by
      rw [hread.bytes data rfl]
      simpa using ByteMemory.putBytes_add (m := s.ahci.byteBuffer) (a := 0)
        (f := fun j => s.ahci.drive drive (absAddr pe offset + j)) hi'
    exact hbuf.trans hdata

/-- An admitted write of a reliable drive returns 0, and puts its data at its address. -/
theorem Admitted.write_ok (h : Admitted s drive part offset length)
    (hpe : s.entry drive part = some pe) (data : ByteMemory) :
    let r := partitionWrite s drive part offset length (some data)
    s.ahci.SameDrives r.2.ahci ∧ r.2.driveParts = s.driveParts ∧
      (s.ahci.Reliable → r.1 = true) ∧
      (r.1 = true → r.2.ahci.disks = Function.update s.ahci.disks (s.ahci.drivePort drive.toNat)
        ((s.ahci.drive drive).putBytes (absAddr pe offset) length.toNat data)) := by
  have hlen := h.2.1
  have hwrite := ahciWrite_spec h.present (absAddr_lt pe offset) (by omega : 0 < length.toNat)
    (by omega) data
  rw [h.write_eq hpe]
  exact ⟨hwrite.same, rfl, hwrite.ok, hwrite.bytes⟩

/-- A request that does not wrap lies in the partition. -/
theorem Admitted.range (h : Admitted s drive part offset length)
    (hpe : s.entry drive part = some pe) (hwrap : (offset : ℤ) + length < 2 ^ 64) :
    absAddr pe offset = pe.startLba * 512 + offset ∧
      (offset : ℤ) + length ≤ pe.sectorCount * 512 := by
  obtain ⟨-, hlen, pe', hpe', hle⟩ := h
  obtain rfl := Option.some.inj (hpe.symm.trans hpe')
  have hcount := pe.sectorCount_lt
  have hoff : (offset : ℤ) + length ≤ pe.sectorCount * 512 := by omega
  exact ⟨absAddr_eq (by omega), hoff⟩

/-- An admitted request that wraps starts outside the partition. -/
theorem Admitted.outside (h : Admitted s drive part offset length)
    (ho : offset < 2 ^ 64) (hwrap : 2 ^ 64 ≤ (offset : ℤ) + length) :
    ¬(pe.startLba * 512 ≤ absAddr pe offset ∧
      absAddr pe offset < (pe.startLba + pe.sectorCount) * 512) := by
  have hlen := h.2.1
  have hcount := pe.sectorCount_lt
  have hstart := pe.startLba_lt
  rw [absAddr, toU64_natCast, toU64_natCast]
  omega

theorem add_one_ne (b : UInt8) : b + 1 ≠ b := by
  intro h
  have hnat : (b.toNat + 1) % 256 = b.toNat := congrArg UInt8.toNat h
  have := b.toNat_lt
  omega

theorem withFault_admitted {fault : ℕ → Bool} :
    Admitted (s.withFault fault) drive part offset length ↔ Admitted s drive part offset length :=
  Iff.rfl

/-- Writes are confined exactly when no admitted one wraps. -/
theorem writeConfined_iff (ho : offset < 2 ^ 64) (hl : -2 ^ 31 ≤ length ∧ length < 2 ^ 31) :
    (∀ fault buffer, WriteConfined (s.withFault fault) drive part offset length buffer) ↔
      (Admitted s drive part offset length → (offset : ℤ) + length < 2 ^ 64) := by
  constructor
  · intro hconf hadm
    by_contra hwrap
    obtain ⟨pe, hpe, -⟩ := hadm.2.2
    have hlen := hadm.2.1
    -- write, without a fault, something else than what is there
    set s' := s.withFault fun _ => false
    have hadm' : Admitted s' drive part offset length := withFault_admitted.2 hadm
    have hpe' : s'.entry drive part = some pe := hpe
    set data : ByteMemory := fun j => s.ahci.drive drive (absAddr pe offset + j) + 1
    obtain ⟨-, -, hok, hdisks⟩ := hadm'.write_ok hpe' data
    have htrue := hok fun _ => rfl
    obtain ⟨pe', hpe'', hin⟩ := hconf (fun _ => false) (some data) htrue
    obtain rfl := Option.some.inj (hpe.symm.trans hpe'')
    refine hadm.outside ho (by omega) (hin (s.ahci.drivePort drive.toNat) (absAddr pe offset) ?_).2
    rw [hdisks htrue]
    have hport : s'.ahci.drivePort drive.toNat = s.ahci.drivePort drive.toNat := rfl
    have hdrive : s'.ahci.drive drive = s.ahci.drive drive := rfl
    have hold : s'.ahci.disks (s.ahci.drivePort drive.toNat) (absAddr pe offset) =
        s.ahci.drive drive (absAddr pe offset) := rfl
    have hnew : ((s.ahci.drive drive).putBytes (absAddr pe offset) length.toNat data)
        (absAddr pe offset) = s.ahci.drive drive (absAddr pe offset) + 1 := by
      simpa [data] using ByteMemory.putBytes_add (m := s.ahci.drive drive)
        (a := absAddr pe offset) (f := data) (by omega : 0 < length.toNat)
    rw [hport, hdrive, Function.update_self, hold, hnew]
    exact add_one_ne _
  · intro hcond fault buffer htrue
    obtain ⟨hadm, hbuffer⟩ := admitted_of_write hl htrue
    obtain ⟨data, rfl⟩ := Option.ne_none_iff_exists'.1 hbuffer
    obtain ⟨pe, hpe, -⟩ := hadm.2.2
    have hlen := hadm.2.1
    obtain ⟨haddr, hrange⟩ := hadm.range hpe (hcond (withFault_admitted.1 hadm))
    obtain ⟨-, -, -, hdisks⟩ := hadm.write_ok hpe data
    refine ⟨pe, hpe, fun port x hne => ?_⟩
    rw [hdisks htrue] at hne
    by_cases hport : port = (s.withFault fault).ahci.drivePort drive.toNat
    · refine ⟨hport, ?_⟩
      rw [hport, Function.update_self] at hne
      by_contra hout
      exact hne (ByteMemory.putBytes_of_notMem (by rw [haddr]; omega))
    · rw [Function.update_of_ne hport] at hne
      exact absurd rfl hne

/-- Reads are confined exactly when no admitted one wraps. -/
theorem readConfined_iff (hl : -2 ^ 31 ≤ length ∧ length < 2 ^ 31) :
    (∀ fault buffer, ReadConfined (s.withFault fault) drive part offset length buffer) ↔
      (Admitted s drive part offset length → (offset : ℤ) + length < 2 ^ 64) := by
  constructor
  · intro hconf hadm
    obtain ⟨pe, hpe, -⟩ := hadm.2.2
    have hlen := hadm.2.1
    have hcount := pe.sectorCount_lt
    have hadm' : Admitted (s.withFault fun _ => false) drive part offset length :=
      withFault_admitted.2 hadm
    obtain ⟨hok, -⟩ := hadm'.read_ok hpe fun _ => 0
    obtain ⟨pe', hpe', hin⟩ := hconf (fun _ => false) (fun _ => 0) (hok fun _ => rfl)
    obtain rfl := Option.some.inj (hpe.symm.trans hpe')
    have hfirst := (hin 0 (by omega)).1
    omega
  · intro hcond fault buffer htrue
    have hadm := admitted_of_read hl htrue
    obtain ⟨pe, hpe, -⟩ := hadm.2.2
    obtain ⟨haddr, hrange⟩ := hadm.range hpe (hcond (withFault_admitted.1 hadm))
    obtain ⟨-, hbytes⟩ := hadm.read_ok hpe buffer
    refine ⟨pe, hpe, fun i hi => ⟨by omega, ?_⟩⟩
    rw [hbytes htrue i hi, haddr]

end Confined

/-- **When requests stay in their partition.** For every table of partitions and every disk,
a request of `partition_write` and `partition_read` stays in its partition, whatever the
buffer and whichever transfers fail, exactly when it is refused or the sum of its offset and
length does not wrap. -/
theorem partition_confined_iff (s : Partitions) (drive part : ℤ) (offset : UInt64)
    (length : Int32) :
    ((∀ fault buffer,
        WriteConfined (s.withFault fault) drive part offset.toNat length.toInt buffer) ∧
      ∀ fault buffer,
        ReadConfined (s.withFault fault) drive part offset.toNat length.toInt buffer) ↔
    (Admitted s drive part offset.toNat length.toInt →
      (offset.toNat : ℤ) + length.toInt < 2 ^ 64) := by
  have ho := offset.toNat_lt
  have hl : -2 ^ 31 ≤ length.toInt ∧ length.toInt < 2 ^ 31 :=
    ⟨length.le_toInt, length.toInt_lt⟩
  rw [writeConfined_iff ho hl, readConfined_iff hl, and_self]

/-- A drive with a partition of 64 sectors at sector 2048. -/
def onePartition : Partitions :=
  { ahci := blankAhci
    driveParts := fun _ => ⟨[⟨2048, 64, 0x83, by decide, by decide⟩], by decide⟩
    partitionLock := false }

/-- A write of 16 bytes at offset `2^64 - 8` returns 0 and changes the byte before the
partition. -/
theorem partitionWrite_escapes :
    ¬∀ (s : Partitions) (drive part : ℤ) (offset : UInt64) (length : Int32)
      (buffer : Option ByteMemory),
      WriteConfined s drive part offset.toNat length.toInt buffer := by
  intro h
  obtain ⟨pe, hpe, hin⟩ := h onePartition 0 0 (0 - 8) 16 (some fun _ => 1) (by decide +kernel)
  have hentry : onePartition.entry 0 0 = some ⟨2048, 64, 0x83, by decide, by decide⟩ := rfl
  obtain rfl := Option.some.inj (hentry.symm.trans hpe)
  exact absurd (hin 0 (2048 * 512 - 1) (by decide +kernel)).2.1 (by decide)

/-! ### Requests in bounds -/

/-- The write returns 0, and a read of the same range then returns 0 with the data. -/
def RoundTrips (s : Partitions) (drive part : ℤ) (offset : ℕ) (length : ℤ) (data buffer : ByteMemory) :
    Prop :=
  let w := partitionWrite s drive part offset length (some data)
  let r := partitionRead w.2 drive part offset length buffer
  w.1 = true ∧ r.1 = true ∧ ∀ i : ℕ, i < length → r.2.1 i = data i

/-- **Which requests in bounds are accepted.** On a drive whose transfers do not fail, a
request inside a partition is written and read back exactly when it is no longer than 256
bytes: the limit of `ahci_read` and `ahci_write` is the limit of the partition layer. -/
theorem partition_accepts_iff (s : Partitions) (hs : s.ahci.Reliable) (drive part : ℤ)
    (hp : s.ahci.Present drive) (pe : PartitionEntry) (hpe : s.entry drive part = some pe)
    (offset : UInt64) (length : Int32) (hpos : 0 < length.toInt)
    (hin : (offset.toNat : ℤ) + length.toInt ≤ pe.sectorCount * 512) (data buffer : ByteMemory) :
    RoundTrips s drive part offset.toNat length.toInt data buffer ↔ length.toInt ≤ 256 := by
  have hcount := pe.sectorCount_lt
  have hl : -2 ^ 31 ≤ length.toInt ∧ length.toInt < 2 ^ 31 := ⟨length.le_toInt, length.toInt_lt⟩
  constructor
  · rintro ⟨hwrite, -⟩
    exact (admitted_of_write hl hwrite).1.2.1.2
  · intro hlen
    have hadm : Admitted s drive part offset.toNat length.toInt :=
      ⟨hp.1, ⟨by omega, hlen⟩, pe, hpe, by omega⟩
    obtain ⟨hsame, hparts, hok, hdisks⟩ := hadm.write_ok hpe data
    have hwrite := hok hs
    have hdisks := hdisks hwrite
    set w := partitionWrite s drive part offset.toNat length.toInt (some data)
    -- the table is the same, so the read is admitted too
    have hpe' : w.2.entry drive part = some pe := by
      rw [← hpe, Partitions.entry, Partitions.entry, hsame.driveCount, hparts]
    have hadm' : Admitted w.2 drive part offset.toNat length.toInt :=
      ⟨hsame.ahciInitialized.trans hp.1, hadm.2.1, pe, hpe', by omega⟩
    obtain ⟨hok', hbytes⟩ := hadm'.read_ok hpe' buffer
    have hread := hok' (hsame.reliable hs)
    refine ⟨hwrite, hread, fun i hi => ?_⟩
    rw [hbytes hread i hi, Ahci.drive, hsame.drivePort, hdisks, Function.update_self,
      ByteMemory.putBytes_add (by omega)]

/-- The last 256 bytes of the partition. -/
theorem partition_accepts_iff_lastBytes :
    RoundTrips onePartition 0 0 32512 256 (fun i => UInt8.ofNat i) fun _ => 0 :=
  (partition_accepts_iff onePartition (fun _ => rfl) 0 0 ⟨rfl, le_rfl, Int.zero_lt_one⟩
    ⟨2048, 64, 0x83, by decide, by decide⟩ rfl 32512 256 (by decide) (by decide) _ _).2 (by decide)

/-- The 536 bytes of a superblock are refused. -/
theorem partitionWrite_refuses_superblock :
    ¬∀ (s : Partitions) (drive part : ℤ) (pe : PartitionEntry) (offset : UInt64) (length : Int32)
      (data buffer : ByteMemory), s.ahci.Reliable → s.ahci.Present drive →
      s.entry drive part = some pe → 0 < length.toInt →
      (offset.toNat : ℤ) + length.toInt ≤ pe.sectorCount * 512 →
      RoundTrips s drive part offset.toNat length.toInt data buffer := by
  intro h
  have hsuper := h onePartition 0 0 ⟨2048, 64, 0x83, by decide, by decide⟩ 0 536 (fun _ => 0)
    (fun _ => 0) (fun _ => rfl) ⟨rfl, le_rfl, Int.zero_lt_one⟩ rfl (by decide) (by decide)
  exact absurd hsuper.1 (by decide)

end LittleLinux
