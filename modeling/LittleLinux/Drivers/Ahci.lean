import LittleLinux.Lib.ByteMemory
import LittleLinux.Lib.Run
import LittleLinux.Libc.Integers

/-!
# The AHCI byte interface

`ahci_read` and `ahci_write` of `drive.c` give byte access to drives whose hardware transfers
whole sectors. A call covers at most 256 bytes, so one or two sectors: a read copies the
wanted part of each into `byte_buffer`, a write merges its data into each and writes it back.

The transfer of one sector by the hardware is taken as exact: it moves the 512 bytes of the
sector asked for, or fails and moves nothing. Which transfers fail is given by the `fault`
pattern, indexed by the number of transfers made so far. The bytes of a disk are addressed
by their position on it; a drive is found through the port it is attached to.
-/

namespace LittleLinux

/-- `SECTOR_SIZE`. -/
def sectorSize : ℕ := 512

/-- The driver's variables and the disks, by port. -/
structure Ahci where
  ahciInitialized : Bool
  driveCount : ℤ
  drivePort : ℕ → ℕ
  disks : ℕ → ByteMemory
  fault : ℕ → Bool
  requests : ℕ
  byteBuffer : ByteMemory
  /-- What an uninitialised local array holds. -/
  garbage : ByteMemory

namespace Ahci

/-- Count one transfer. -/
def request (s : Ahci) : Ahci := { s with requests := s.requests + 1 }

/-- Set the contents of `byte_buffer`. -/
def setByteBuffer (s : Ahci) (b : ByteMemory) : Ahci := { s with byteBuffer := b }

/-- Set the contents of the disk at a port. -/
def setDisk (s : Ahci) (port : ℕ) (m : ByteMemory) : Ahci :=
  { s with disks := Function.update s.disks port m }

/-- No transfer fails. -/
def Reliable (s : Ahci) : Prop := ∀ n, s.fault n = false

/-- The number names a drive of a driver that is set up. -/
def Present (s : Ahci) (drive : ℤ) : Prop :=
  s.ahciInitialized = true ∧ 0 ≤ drive ∧ drive < s.driveCount

/-- The bytes of a drive. -/
def drive (s : Ahci) (drive : ℤ) : ByteMemory := s.disks (s.drivePort drive.toNat)

end Ahci

/-- `port_read_sectors`, into `buf` from position `pos` on. -/
def portReadSectors (s : Ahci) (port lba sectorCount : ℕ) (buf : ByteMemory) (pos : ℕ) :
    Bool × ByteMemory × Ahci :=
  if sectorCount = 0 then (true, buf, s)
  else if 1 < sectorCount then (false, buf, s)
  else if s.fault s.requests then (false, buf, s.request)
  else (true, buf.putBytes pos 512 fun j => s.disks port (lba * 512 + j), s.request)

/-- `port_write_sectors`, from `buf` at position `pos`. -/
def portWriteSectors (s : Ahci) (port lba sectorCount : ℕ) (buf : ByteMemory) (pos : ℕ) :
    Bool × Ahci :=
  if sectorCount = 0 then (true, s)
  else if 1 < sectorCount then (false, s)
  else if s.fault s.requests then (false, s.request)
  else (true, s.request.setDisk port
    ((s.disks port).putBytes (lba * 512) 512 fun j => buf (pos + j)))

/-- The number of sectors of a request, in `uint64_t` cut to `uint16_t`. -/
def sectorsOf (addr length : ℕ) : ℕ :=
  toU64 ((toU64 ((addr : ℤ) + length - 1) / sectorSize : ℕ) - (addr / sectorSize : ℕ) + 1) % 2 ^ 16

/-- `start_off` of the loops: where the request starts in its `i`-th sector. -/
def startOff (addr i : ℕ) : ℕ := if i = 0 then addr % sectorSize else 0

/-- `end_off` of the loops: where the request ends in its `i`-th sector. -/
def endOff (addr length sectors i : ℕ) : ℕ :=
  if i + 1 = sectors then toU64 ((addr : ℤ) + length - 1) % sectorSize + 1 else sectorSize

/-- The loop of `ahci_read`, over the sectors that are left. -/
def ahciReadLoop (port addr length sectors : ℕ) :
    List ℕ → ByteMemory → ℕ → Ahci → Bool × Ahci
  | [], _, _, s => (true, s)
  | i :: is, sectorBuf, copied, s =>
    match portReadSectors s port (toU64 (addr / sectorSize + i : ℕ)) 1 sectorBuf (i * 512) with
    | (false, _, s) => (false, s)
    | (true, sectorBuf, s) =>
      let chunk := toU32 ((endOff addr length sectors i : ℤ) - startOff addr i)
      let left := toU64 ((length : ℤ) - copied)
      let chunk := if left < chunk then toU32 left else chunk
      ahciReadLoop port addr length sectors is sectorBuf (toU32 (copied + chunk : ℕ))
        (s.setByteBuffer (s.byteBuffer.putBytes copied chunk fun j =>
          sectorBuf (i * 512 + startOff addr i + j)))

/-- `ahci_read`: the contents of `byte_buffer`, or nothing for `NULL`. -/
def ahciRead (s : Ahci) (drive : ℤ) (addr length : ℕ) : Option ByteMemory × Ahci :=
  if s.ahciInitialized = false then (none, s)
  else if drive < 0 ∨ s.driveCount ≤ drive then (none, s)
  else if length = 0 ∨ 256 < length then (none, s)
  else if 2 < sectorsOf addr length then (none, s)
  else
    match ahciReadLoop (s.drivePort drive.toNat) addr length (sectorsOf addr length)
        (List.range (sectorsOf addr length)) s.garbage 0 s with
    | (false, s) => (none, s)
    | (true, s) => (some s.byteBuffer, s)

/-- The loop of `ahci_write`, over the sectors that are left. -/
def ahciWriteLoop (port addr length sectors : ℕ) :
    List ℕ → ByteMemory → ByteMemory → Ahci → Bool × Ahci
  | [], _, _, s => (true, s)
  | i :: is, sectorBuf, src, s =>
    let lba := toU64 (addr / sectorSize + i : ℕ)
    let chunk := toU32 ((endOff addr length sectors i : ℤ) - startOff addr i)
    -- the old sector is read unless all of it is overwritten
    match (if startOff addr i ≠ 0 ∨ endOff addr length sectors i ≠ sectorSize then
        portReadSectors s port lba 1 sectorBuf (i * 512) else (true, sectorBuf, s)) with
    | (false, _, s) => (false, s)
    | (true, sectorBuf, s) =>
      let sectorBuf := sectorBuf.putBytes (i * 512 + startOff addr i) chunk src
      match portWriteSectors s port lba 1 sectorBuf (i * 512) with
      | (false, s) => (false, s)
      | (true, s) => ahciWriteLoop port addr length sectors is sectorBuf (fun j => src (chunk + j)) s

/-- `ahci_write`: whether it returned 0; the data may be `NULL`. -/
def ahciWrite (s : Ahci) (drive : ℤ) (addr length : ℕ) (data : Option ByteMemory) : Bool × Ahci :=
  if s.ahciInitialized = false then (false, s)
  else if drive < 0 ∨ s.driveCount ≤ drive then (false, s)
  else match data with
    | none => (false, s)
    | some data =>
      if length = 0 ∨ 256 < length then (false, s)
      else if 2 < sectorsOf addr length then (false, s)
      else ahciWriteLoop (s.drivePort drive.toNat) addr length (sectorsOf addr length)
        (List.range (sectorsOf addr length)) s.garbage data s

/-! ### How a request falls into sectors -/

section Request

variable {addr length : ℕ}

theorem toU64_end (h₁ : 0 < length) :
    toU64 ((addr : ℤ) + length - 1) = (addr + length - 1) % 2 ^ 64 := by
  rw [← toU64_natCast]
  congr 1
  omega

/-- A request inside one sector. -/
theorem sectorsOf_eq_one (ha : addr < 2 ^ 64) (h₁ : 0 < length)
    (h : addr % 512 + length ≤ 512) : sectorsOf addr length = 1 := by
  rw [sectorsOf, toU64_end h₁, sectorSize, toU64]
  omega

/-- A request over the end of a sector, which may be the last one below `2^64`. -/
theorem sectorsOf_eq_two (ha : addr < 2 ^ 64) (h₁ : 0 < length) (h₂ : length ≤ 256)
    (h : 512 < addr % 512 + length) : sectorsOf addr length = 2 := by
  rw [sectorsOf, toU64_end h₁, sectorSize, toU64]
  omega

theorem endOff_last (h₁ : 0 < length) {sectors i : ℕ} (hi : i + 1 = sectors) :
    endOff addr length sectors i = (addr + length - 1) % 512 + 1 := by
  rw [endOff, if_pos hi, toU64_end h₁, sectorSize]
  omega

theorem endOff_first : endOff addr length 2 0 = 512 := rfl

theorem startOff_zero : startOff addr 0 = addr % 512 := rfl

theorem startOff_one : startOff addr 1 = 0 := rfl

/-- Where the two sectors of a request start on the drive. -/
theorem sector_start_zero : (addr / 512 + 0) * 512 + startOff addr 0 = addr := by
  rw [startOff_zero]
  omega

theorem sector_start_one :
    (addr / 512 + 1) * 512 + startOff addr 1 = addr + (512 - addr % 512) := by
  rw [startOff_one]
  omega

end Request

/-! ### One sector -/

namespace Ahci

/-- The drives, their ports and the transfers that will fail are the same. -/
structure SameDrives (s s' : Ahci) : Prop where
  ahciInitialized : s'.ahciInitialized = s.ahciInitialized
  driveCount : s'.driveCount = s.driveCount
  drivePort : s'.drivePort = s.drivePort
  fault : s'.fault = s.fault

theorem SameDrives.refl (s : Ahci) : SameDrives s s := ⟨rfl, rfl, rfl, rfl⟩

theorem SameDrives.trans {s s' s'' : Ahci} (h : SameDrives s s') (h' : SameDrives s' s'') :
    SameDrives s s'' :=
  ⟨h'.1.trans h.1, h'.2.trans h.2, h'.3.trans h.3, h'.4.trans h.4⟩

theorem SameDrives.reliable {s s' : Ahci} (h : SameDrives s s') (hs : s.Reliable) :
    s'.Reliable := by
  intro n
  rw [h.fault]
  exact hs n

theorem SameDrives.present {s s' : Ahci} (h : SameDrives s s') {drive : ℤ} (hp : s.Present drive) :
    s'.Present drive := by
  unfold Present
  rwa [h.ahciInitialized, h.driveCount]

end Ahci

theorem portReadSectors_one (s : Ahci) (port lba : ℕ) (buf : ByteMemory) (pos : ℕ) :
    portReadSectors s port lba 1 buf pos = if s.fault s.requests then (false, buf, s.request)
      else (true, buf.putBytes pos 512 fun j => s.disks port (lba * 512 + j), s.request) := rfl

theorem portWriteSectors_one (s : Ahci) (port lba : ℕ) (buf : ByteMemory) (pos : ℕ) :
    portWriteSectors s port lba 1 buf pos = if s.fault s.requests then (false, s.request)
      else (true, s.request.setDisk port
        ((s.disks port).putBytes (lba * 512) 512 fun j => buf (pos + j))) := rfl

section Loops

variable {s : Ahci} {port addr length sectors i c : ℕ} {is : List ℕ} {buf : ByteMemory}

theorem chunk_eq (hc : endOff addr length sectors i = startOff addr i + c) (h : c ≤ 512) :
    toU32 ((endOff addr length sectors i : ℤ) - startOff addr i) = c := by
  rw [hc, Nat.cast_add, add_sub_cancel_left, toU32_of_lt (by omega)]

theorem toU64_lba (ha : addr < 2 ^ 64) (hi : i < 2) :
    toU64 (addr / sectorSize + i : ℕ) = addr / 512 + i := by
  rw [toU64_natCast, sectorSize]
  omega

/-- A pass of the read loop: the transfer fails, or the chunk of the sector is copied. -/
theorem ahciReadLoop_cons {copied : ℕ} (ha : addr < 2 ^ 64) (hi : i < 2)
    (hc : endOff addr length sectors i = startOff addr i + c) (hin : startOff addr i + c ≤ 512)
    (hleft : copied + c ≤ length) (hlen : length ≤ 256) :
    ahciReadLoop port addr length sectors (i :: is) buf copied s =
      if s.fault s.requests then (false, s.request) else
        ahciReadLoop port addr length sectors is
          (buf.putBytes (i * 512) 512 fun j => s.disks port ((addr / 512 + i) * 512 + j))
          (copied + c) (s.request.setByteBuffer (s.byteBuffer.putBytes copied c fun j =>
            s.disks port ((addr / 512 + i) * 512 + startOff addr i + j))) := by
  have hleft' : toU64 ((length : ℤ) - copied) = length - copied := by
    rw [← Nat.cast_sub (by omega), toU64_natCast]
    omega
  rw [ahciReadLoop, toU64_lba ha hi, portReadSectors_one]
  split_ifs with hf
  · rfl
  · simp only [chunk_eq hc (by omega), hleft']
    rw [if_neg (by omega), toU32_of_lt (by omega)]
    congr 2
    refine ByteMemory.putBytes_congr fun j hj => ?_
    rw [add_assoc, ByteMemory.putBytes_add (by omega), add_assoc]

/-- A pass of the write loop that fails before it changes the disk, or writes the chunk. -/
theorem ahciWriteLoop_cons {src : ByteMemory} (ha : addr < 2 ^ 64) (hi : i < 2)
    (hc : endOff addr length sectors i = startOff addr i + c) (hin : startOff addr i + c ≤ 512)
    (hpart : c ≠ 512) :
    ahciWriteLoop port addr length sectors (i :: is) buf src s =
      if s.fault s.requests then (false, s.request)
      else if s.fault (s.requests + 1) then (false, s.request.request)
      else ahciWriteLoop port addr length sectors is
        ((buf.putBytes (i * 512) 512 fun j => s.disks port ((addr / 512 + i) * 512 + j)).putBytes
          (i * 512 + startOff addr i) c src) (fun j => src (c + j))
        (s.request.request.setDisk port
          ((s.disks port).putBytes ((addr / 512 + i) * 512 + startOff addr i) c src)) := by
  have hread : startOff addr i ≠ 0 ∨ endOff addr length sectors i ≠ sectorSize := by
    rw [hc, sectorSize]
    omega
  rw [ahciWriteLoop]
  simp only [toU64_lba ha hi, chunk_eq hc (by omega), if_pos hread, portReadSectors_one]
  by_cases hf : s.fault s.requests = true
  · rw [if_pos hf, if_pos hf]
  rw [if_neg hf, if_neg hf]
  dsimp only
  rw [portWriteSectors_one]
  -- the second transfer is the next one
  have hreq : s.request.fault s.request.requests = s.fault (s.requests + 1) := rfl
  rw [hreq]
  by_cases hf' : s.fault (s.requests + 1) = true
  · rw [if_pos hf', if_pos hf']
  rw [if_neg hf', if_neg hf']
  have hdisk : s.request.disks port = s.disks port := rfl
  dsimp only
  rw [hdisk, ByteMemory.putBytes_merge _ _ _ _ _ _ _ _ hin]

end Loops

/-! ### Whole requests -/

namespace Ahci

@[simp]
theorem request_disks (s : Ahci) : s.request.disks = s.disks := rfl

@[simp]
theorem setByteBuffer_disks (s : Ahci) (b : ByteMemory) : (s.setByteBuffer b).disks = s.disks := rfl

@[simp]
theorem setByteBuffer_byteBuffer (s : Ahci) (b : ByteMemory) :
    (s.setByteBuffer b).byteBuffer = b := rfl

@[simp]
theorem setDisk_disks (s : Ahci) (port : ℕ) (m : ByteMemory) :
    (s.setDisk port m).disks = Function.update s.disks port m := rfl

/-- What a read does: nothing to the disks, and when it returns, it has put the bytes of the
drive at the start of `byte_buffer`. -/
structure ReadsBytes (s : Ahci) (drive : ℤ) (addr length : ℕ) (r : Option ByteMemory × Ahci) :
    Prop where
  same : SameDrives s r.2
  disks : r.2.disks = s.disks
  ok : s.Reliable → r.1.isSome
  bytes : ∀ b, r.1 = some b →
    b = s.byteBuffer.putBytes 0 length fun j => s.drive drive (addr + j)

/-- What a write does: when it returns 0, it has overwritten the range on the drive and
nothing else. -/
structure WritesBytes (s : Ahci) (drive : ℤ) (addr length : ℕ) (data : ByteMemory)
    (r : Bool × Ahci) : Prop where
  same : SameDrives s r.2
  ok : s.Reliable → r.1 = true
  bytes : r.1 = true → r.2.disks = Function.update s.disks (s.drivePort drive.toNat)
    ((s.drive drive).putBytes addr length data)

end Ahci

section Calls

variable {s : Ahci} {drive : ℤ} {addr length : ℕ}

theorem not_reliable_of_fault {n : ℕ} (h : s.fault n = true) : ¬s.Reliable := by
  intro hs
  rw [hs n] at h
  exact absurd h (by decide)

/-- The guards of `ahci_read` let the request through. -/
theorem ahciRead_eq (hp : s.Present drive) (h₁ : 0 < length) (h₂ : length ≤ 256)
    (hs : sectorsOf addr length ≤ 2) :
    ahciRead s drive addr length =
      match ahciReadLoop (s.drivePort drive.toNat) addr length (sectorsOf addr length)
          (List.range (sectorsOf addr length)) s.garbage 0 s with
      | (false, s) => (none, s)
      | (true, s) => (some s.byteBuffer, s) := by
  obtain ⟨hi, hd₁, hd₂⟩ := hp
  rw [ahciRead, if_neg (by simp [hi]), if_neg (by omega), if_neg (by omega), if_neg (by omega)]

/-- The guards of `ahci_write` let the request through. -/
theorem ahciWrite_eq (hp : s.Present drive) (h₁ : 0 < length) (h₂ : length ≤ 256)
    (hs : sectorsOf addr length ≤ 2) (data : ByteMemory) :
    ahciWrite s drive addr length (some data) =
      ahciWriteLoop (s.drivePort drive.toNat) addr length (sectorsOf addr length)
        (List.range (sectorsOf addr length)) s.garbage data s := by
  obtain ⟨hi, hd₁, hd₂⟩ := hp
  rw [ahciWrite, if_neg (by simp [hi]), if_neg (by omega), if_neg (by omega),
    if_neg (by omega)]

/-- **A read returns the bytes of the drive.** -/
theorem ahciRead_spec (hp : s.Present drive) (ha : addr < 2 ^ 64) (h₁ : 0 < length)
    (h₂ : length ≤ 256) : s.ReadsBytes drive addr length (ahciRead s drive addr length) := by
  by_cases hone : addr % 512 + length ≤ 512
  · have hsec := sectorsOf_eq_one ha h₁ hone
    have hend : endOff addr length 1 0 = startOff addr 0 + length := by
      rw [endOff_last h₁ rfl, startOff_zero]
      omega
    rw [ahciRead_eq hp h₁ h₂ (by omega), hsec, List.range_one,
      ahciReadLoop_cons ha (by omega) hend (by rw [startOff_zero]; omega)
        (by omega) h₂]
    by_cases hf : s.fault s.requests = true
    · rw [if_pos hf]
      exact ⟨⟨rfl, rfl, rfl, rfl⟩, rfl, fun hr => absurd hr (not_reliable_of_fault hf), by simp⟩
    · rw [if_neg hf, ahciReadLoop]
      refine ⟨⟨rfl, rfl, rfl, rfl⟩, rfl, fun _ => rfl, fun b hb => ?_⟩
      obtain rfl := Option.some.inj hb
      simp only [Ahci.setByteBuffer_byteBuffer, Ahci.drive]
      rw [sector_start_zero]
  · have hsec := sectorsOf_eq_two ha h₁ h₂ (by omega)
    -- the first sector gives its rest, the second what is left
    have hend₀ : endOff addr length 2 0 = startOff addr 0 + (512 - addr % 512) := by
      rw [endOff_first, startOff_zero]
      omega
    have hend₁ : endOff addr length 2 1 = startOff addr 1 + (length - (512 - addr % 512)) := by
      rw [endOff_last h₁ rfl, startOff_one]
      omega
    rw [ahciRead_eq hp h₁ h₂ (by omega), hsec, show List.range 2 = [0, 1] from rfl,
      ahciReadLoop_cons ha (by omega) hend₀ (by rw [startOff_zero]; omega)
        (by omega) h₂]
    by_cases hf : s.fault s.requests = true
    · rw [if_pos hf]
      exact ⟨⟨rfl, rfl, rfl, rfl⟩, rfl, fun hr => absurd hr (not_reliable_of_fault hf), by simp⟩
    rw [if_neg hf, ahciReadLoop_cons ha (by omega) hend₁
      (by rw [startOff_one]; omega) (by omega) h₂]
    split_ifs with hf'
    · exact ⟨⟨rfl, rfl, rfl, rfl⟩, rfl, fun hr => absurd hr (not_reliable_of_fault hf'), by simp⟩
    rw [ahciReadLoop]
    refine ⟨⟨rfl, rfl, rfl, rfl⟩, rfl, fun _ => rfl, fun b hb => ?_⟩
    obtain rfl := Option.some.inj hb
    have hlen : length = 512 - addr % 512 + (length - (512 - addr % 512)) := by omega
    simp only [Ahci.setByteBuffer_byteBuffer, Ahci.setByteBuffer_disks, Ahci.request_disks,
      Ahci.drive]
    have happend := ByteMemory.putBytes_append s.byteBuffer 0 (512 - addr % 512)
      (length - (512 - addr % 512)) fun j => s.disks (s.drivePort drive.toNat) (addr + j)
    rw [sector_start_zero, sector_start_one]
    simpa only [← hlen, add_assoc] using happend

/-- **A write overwrites its range on the drive.** -/
theorem ahciWrite_spec (hp : s.Present drive) (ha : addr < 2 ^ 64) (h₁ : 0 < length)
    (h₂ : length ≤ 256) (data : ByteMemory) :
    s.WritesBytes drive addr length data (ahciWrite s drive addr length (some data)) := by
  -- at most 256 bytes touch one sector or two; each is read, changed and written back
  by_cases hone : addr % 512 + length ≤ 512
  · have hsec := sectorsOf_eq_one ha h₁ hone
    have hend : endOff addr length 1 0 = startOff addr 0 + length := by
      rw [endOff_last h₁ rfl, startOff_zero]
      omega
    rw [ahciWrite_eq hp h₁ h₂ (by omega), hsec, List.range_one,
      ahciWriteLoop_cons ha (by omega) hend (by rw [startOff_zero]; omega)
        (by omega), sector_start_zero]
    split_ifs with hf hf'
    · exact ⟨⟨rfl, rfl, rfl, rfl⟩, fun hr => absurd hr (not_reliable_of_fault hf), by simp⟩
    · exact ⟨⟨rfl, rfl, rfl, rfl⟩, fun hr => absurd hr (not_reliable_of_fault hf'), by simp⟩
    · rw [ahciWriteLoop]
      exact ⟨⟨rfl, rfl, rfl, rfl⟩, fun _ => rfl, fun _ => rfl⟩
  · have hsec := sectorsOf_eq_two ha h₁ h₂ (by omega)
    have hend₀ : endOff addr length 2 0 = startOff addr 0 + (512 - addr % 512) := by
      rw [endOff_first, startOff_zero]
      omega
    have hend₁ : endOff addr length 2 1 = startOff addr 1 + (length - (512 - addr % 512)) := by
      rw [endOff_last h₁ rfl, startOff_one]
      omega
    rw [ahciWrite_eq hp h₁ h₂ (by omega), hsec, show List.range 2 = [0, 1] from rfl,
      ahciWriteLoop_cons ha (by omega) hend₀ (by rw [startOff_zero]; omega)
        (by omega), sector_start_zero]
    by_cases hf : s.fault s.requests = true
    · rw [if_pos hf]
      exact ⟨⟨rfl, rfl, rfl, rfl⟩, fun hr => absurd hr (not_reliable_of_fault hf), by simp⟩
    by_cases hf' : s.fault (s.requests + 1) = true
    · rw [if_neg hf, if_pos hf']
      exact ⟨⟨rfl, rfl, rfl, rfl⟩, fun hr => absurd hr (not_reliable_of_fault hf'), by simp⟩
    rw [if_neg hf, if_neg hf', ahciWriteLoop_cons ha (by omega) hend₁
      (by rw [startOff_one]; omega) (by omega), sector_start_one]
    split_ifs with hg hg'
    · exact ⟨⟨rfl, rfl, rfl, rfl⟩, fun hr => absurd hr (not_reliable_of_fault hg), by simp⟩
    · exact ⟨⟨rfl, rfl, rfl, rfl⟩, fun hr => absurd hr (not_reliable_of_fault hg'), by simp⟩
    · rw [ahciWriteLoop]
      refine ⟨⟨rfl, rfl, rfl, rfl⟩, fun _ => rfl, fun _ => ?_⟩
      -- the two parts together are the whole of the data
      have hlen : length = 512 - addr % 512 + (length - (512 - addr % 512)) := by omega
      dsimp only
      rw [Ahci.setDisk_disks, Ahci.request_disks, Ahci.request_disks, Ahci.setDisk_disks,
        Ahci.request_disks, Ahci.request_disks, Function.update_self, Function.update_idem,
        ByteMemory.putBytes_append, ← hlen, Ahci.drive]

end Calls

/-! ### The drives as byte arrays -/

/-- A call of `ahci_write`. -/
structure DriveWrite where
  drive : ℤ
  addr : ℕ
  length : ℕ
  data : ByteMemory

namespace DriveWrite

/-- The call is of a drive that is there, and of a range `ahci_write` covers. -/
def Valid (s : Ahci) (w : DriveWrite) : Prop :=
  s.Present w.drive ∧ (1 ≤ w.length ∧ w.length ≤ 256) ∧ w.addr + w.length ≤ 2 ^ 64

/-- The call, on the driver. -/
def run (s : Ahci) (w : DriveWrite) : Ahci :=
  (ahciWrite s w.drive w.addr w.length (some w.data)).2

/-- The call, on byte arrays: `ports` says which array a drive is. -/
def apply (ports : ℕ → ℕ) (arrays : ℕ → ByteMemory) (w : DriveWrite) : ℕ → ByteMemory :=
  Function.update arrays (ports w.drive.toNat)
    ((arrays (ports w.drive.toNat)).putBytes w.addr w.length w.data)

theorem Valid.run_spec {s : Ahci} {w : DriveWrite} (h : w.Valid s) (hs : s.Reliable) :
    s.SameDrives (w.run s) ∧ (w.run s).disks = w.apply s.drivePort s.disks := by
  obtain ⟨hp, ⟨h₁, h₂⟩, hle⟩ := h
  have hw := ahciWrite_spec hp (by omega : w.addr < 2 ^ 64) h₁ h₂ w.data
  exact ⟨hw.same, hw.bytes (hw.ok hs)⟩

/-- The driver and the byte arrays agree after any sequence of writes. -/
theorem run_refines {s : Ahci} (hs : s.Reliable) {writes : List DriveWrite}
    (hw : ∀ w ∈ writes, w.Valid s) :
    s.SameDrives (writes.foldl run s) ∧
      (writes.foldl run s).disks = writes.foldl (apply s.drivePort) s.disks := by
  induction writes generalizing s with
  | nil => exact ⟨Ahci.SameDrives.refl s, rfl⟩
  | cons w writes ih =>
    obtain ⟨hsame, hdisks⟩ := (hw w List.mem_cons_self).run_spec hs
    have hrest : ∀ v ∈ writes, v.Valid (w.run s) := by
      intro v hv
      obtain ⟨hp, hlen, hle⟩ := hw v (List.mem_cons_of_mem _ hv)
      exact ⟨hsame.present hp, hlen, hle⟩
    obtain ⟨hsame', hdisks'⟩ := ih (hsame.reliable hs) hrest
    refine ⟨hsame.trans hsame', ?_⟩
    rw [List.foldl_cons, List.foldl_cons, hdisks', hdisks, hsame.drivePort]

end DriveWrite

/-- **The AHCI interface refines a byte array.** On drives whose transfers do not fail, after
any sequence of valid writes, a valid read returns the bytes of the array that the same
writes, applied in order, give. A further write returns 0; afterwards the drive holds the
data in its range, and every other byte of this and of the other disks is what it was. -/
theorem ahci_refines_byte_array (s : Ahci) (hs : s.Reliable) (writes : List DriveWrite)
    (hw : ∀ w ∈ writes, w.Valid s) (drive : ℤ) (addr length : ℕ) (hp : s.Present drive)
    (h₁ : 1 ≤ length) (h₂ : length ≤ 256) (hle : addr + length ≤ 2 ^ 64) :
    let t := writes.foldl DriveWrite.run s
    let arrays := writes.foldl (DriveWrite.apply s.drivePort) s.disks
    let port := s.drivePort drive.toNat
    (∃ b, (ahciRead t drive addr length).1 = some b ∧ ∀ i < length, b i = arrays port (addr + i)) ∧
      (ahciRead t drive addr length).2.disks = t.disks ∧
      ∀ data : ByteMemory,
        let r := ahciWrite t drive addr length (some data)
        r.1 = true ∧ (∀ i < length, r.2.disks port (addr + i) = data i) ∧
          (∀ x, x < addr ∨ addr + length ≤ x → r.2.disks port x = arrays port x) ∧
          ∀ q ≠ port, r.2.disks q = arrays q := by
  intro t arrays port
  obtain ⟨hsame, hdisks⟩ := DriveWrite.run_refines hs hw
  have ht := hsame.reliable hs
  have hport : t.drivePort drive.toNat = port := by rw [hsame.drivePort]
  have hread := ahciRead_spec (hsame.present hp) (by omega : addr < 2 ^ 64) h₁ h₂
  refine ⟨?_, hread.disks, fun data => ?_⟩
  · obtain ⟨b, hb⟩ := Option.isSome_iff_exists.1 (hread.ok ht)
    refine ⟨b, hb, fun i hi => ?_⟩
    have hbyte := ByteMemory.putBytes_add (m := t.byteBuffer) (a := 0)
      (f := fun j => t.drive drive (addr + j)) hi
    rw [zero_add] at hbyte
    rw [hread.bytes b hb, hbyte, Ahci.drive, hport, hdisks]
  · have hwrite := ahciWrite_spec (hsame.present hp) (by omega : addr < 2 ^ 64) h₁ h₂ data
    have hbytes := hwrite.bytes (hwrite.ok ht)
    rw [hport, Ahci.drive, hport, hdisks] at hbytes
    refine ⟨hwrite.ok ht, fun i hi => ?_, fun x hx => ?_, fun q hq => ?_⟩
    · rw [hbytes, Function.update_self, ByteMemory.putBytes_add hi]
    · rw [hbytes, Function.update_self, ByteMemory.putBytes_of_notMem hx]
    · rw [hbytes, Function.update_of_ne hq]

/-- A driver with one drive of zero bytes. -/
def blankAhci : Ahci :=
  { ahciInitialized := true, driveCount := 1, drivePort := fun _ => 0, disks := fun _ _ => 0
    fault := fun _ => false, requests := 0, byteBuffer := fun _ => 0, garbage := fun _ => 7 }

/-- Two overlapping writes over the end of sector 0, and a read of both. -/
theorem ahci_refines_byte_array_overlap :
    ∃ b, (ahciRead ([⟨0, 500, 20, fun i => UInt8.ofNat (i + 1)⟩, ⟨0, 510, 4, fun _ => 77⟩].foldl
      DriveWrite.run blankAhci) 0 508 8).1 = some b ∧ b 0 = 9 ∧ b 3 = 77 ∧ b 7 = 16 := by
  obtain ⟨⟨b, hb, hbytes⟩, -⟩ := ahci_refines_byte_array blankAhci (fun _ => rfl)
    [⟨0, 500, 20, fun i => UInt8.ofNat (i + 1)⟩, ⟨0, 510, 4, fun _ => 77⟩]
    (by
      intro w hw
      fin_cases hw
      · exact ⟨⟨rfl, le_rfl, Int.zero_lt_one⟩, ⟨by decide, by decide⟩, by decide⟩
      · exact ⟨⟨rfl, le_rfl, Int.zero_lt_one⟩, ⟨by decide, by decide⟩, by decide⟩)
    0 508 8 ⟨rfl, le_rfl, Int.zero_lt_one⟩ (by decide) (by decide) (by decide)
  refine ⟨b, hb, ?_, ?_, ?_⟩
  · rw [hbytes 0 (by decide)]
    rfl
  · rw [hbytes 3 (by decide)]
    rfl
  · rw [hbytes 7 (by decide)]
    rfl

end LittleLinux
