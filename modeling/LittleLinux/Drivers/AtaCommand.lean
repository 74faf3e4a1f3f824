import LittleLinux.Lib.ByteMemory

/-!
# The command handed to the controller

`exec_ata_cmd` of `drive.c` fills a command header and a command table: the command FIS in the
first bytes of the table, and one physical region descriptor at byte 128 when there is a data
buffer. Both are given here as bytes, with the bit-fields of the C structures where the compiler
puts them: from the low bit of their dword up.

`FisDecodes` and `PrdDecodes` read the two back by the layouts of the hardware, a Register Host to
Device FIS and a PRD entry. `execAtaCmd_never_decodes`: what is read back is never what was asked
for. The bytes of the address from the fourth on, the device and the count all stand one to three
places away from where the layout has them, and the byte count stands in the reserved dword.
-/

namespace LittleLinux

/-! ### Bit-fields -/

namespace ByteMemory

/-- The bits `off` to `off + w - 1` of the dword at `a`. -/
def getBits (m : ByteMemory) (a off w : ℕ) : ℕ := m.getLE a 4 / 2 ^ off % 2 ^ w

/-- Assign to a bit-field of the dword at `a`; the other bits stay. -/
def putBits (m : ByteMemory) (a off w v : ℕ) : ByteMemory :=
  m.putLE a 4 (m.getLE a 4 % 2 ^ off + v % 2 ^ w * 2 ^ off +
    m.getLE a 4 / 2 ^ (off + w) * 2 ^ (off + w))

/-- The lowest bit of a dword, cleared. -/
theorem getLE_putBits_zero_one (m : ByteMemory) (a : ℕ) : (m.putBits a 0 1 0).getLE a 4 % 2 = 0 := by
  rw [putBits, getLE_putLE]
  omega

end ByteMemory

/-! ### Building the command -/

open ByteMemory

/-- The arguments of `exec_ata_cmd`; the data buffer is its address, 0 for `NULL`. -/
structure AtaCommand where
  cmd : UInt8
  lba : UInt64
  sectorCount : UInt16
  dataBuf : UInt32
  isWrite : Bool

namespace AtaCommand

/-- The size of the transfer, `bytes`. -/
def bytes (c : AtaCommand) : ℕ :=
  if c.sectorCount = 0 then 512 else c.sectorCount.toNat * 512

/-- The command FIS, byte by byte. -/
def cfis (c : AtaCommand) : List UInt8 :=
  [0x27, 0x80, c.cmd, 0,
    leByte c.lba.toNat 0, leByte c.lba.toNat 1, leByte c.lba.toNat 2, leByte c.lba.toNat 3,
    leByte c.lba.toNat 4, leByte c.lba.toNat 5,
    leByte c.sectorCount.toNat 0, leByte c.sectorCount.toNat 1,
    0, 0, 0x40, 0]

end AtaCommand

/-- The command header of slot 0, for a command table at `tbl`. -/
def fillHeader (c : AtaCommand) (tbl : UInt32) (hdr : ByteMemory) : ByteMemory :=
  let hdr := hdr.putBits 0 0 5 5
  let hdr := hdr.putBits 0 6 1 (if c.isWrite then 1 else 0)
  let hdr := hdr.putBits 0 16 16 (if c.dataBuf ≠ 0 then 1 else 0)
  let hdr := hdr.putLE 8 4 tbl.toNat
  let hdr := hdr.putLE 12 4 0
  hdr.putLE 4 4 0

/-- The region descriptor, when there is a data buffer. -/
def fillPrdt (c : AtaCommand) (tbl : ByteMemory) : ByteMemory :=
  if c.dataBuf ≠ 0 then
    let tbl := tbl.putLE 128 4 c.dataBuf.toNat
    let tbl := tbl.putLE 132 4 0
    let tbl := tbl.putBits 136 16 16 (c.bytes - 1)
    tbl.putBits 140 0 1 0
  else tbl

/-- `exec_ata_cmd`, up to the start of the command: the header, and the command table at `tbl`. -/
def execAtaCmd (c : AtaCommand) (tblAddr : UInt32) (hdr tbl : ByteMemory) :
    ByteMemory × ByteMemory :=
  (fillHeader c tblAddr hdr, (fillPrdt c tbl).putBytes 0 16 fun j => c.cfis.getD j 0)

/-! ### What the hardware reads -/

/-- The 48-bit address of a Register Host to Device FIS. -/
def fisLba (tbl : ByteMemory) : ℕ := tbl.getLE 4 3 + 2 ^ 24 * tbl.getLE 8 3

/-- The FIS asks for the command: the command, the address and the count are the ones asked for,
and the device byte selects LBA addressing. -/
structure FisDecodes (tbl : ByteMemory) (c : AtaCommand) : Prop where
  command : tbl 2 = c.cmd
  lba : fisLba tbl = c.lba.toNat
  device : (tbl 7).toNat.testBit 6 = true
  count : tbl.getLE 12 2 = c.sectorCount.toNat

/-- The PRD entry describes the buffer. -/
structure PrdDecodes (tbl : ByteMemory) (c : AtaCommand) : Prop where
  address : tbl.getLE 128 4 + 2 ^ 32 * tbl.getLE 132 4 = c.dataBuf.toNat
  byteCount : tbl.getBits 140 0 22 + 1 = c.bytes

/-- The command table asks for the command. -/
def CommandDecodes (tbl : ByteMemory) (c : AtaCommand) : Prop :=
  FisDecodes tbl c ∧ (c.dataBuf ≠ 0 → PrdDecodes tbl c)

section Decode

variable (c : AtaCommand) (tblAddr : UInt32) (hdr tbl : ByteMemory)

/-- A byte of the FIS. -/
theorem execAtaCmd_fis {j : ℕ} (hj : j < 16) : (execAtaCmd c tblAddr hdr tbl).2 j = c.cfis.getD j 0 := by
  have hbyte := putBytes_add (m := fillPrdt c tbl) (a := 0) (f := fun j => c.cfis.getD j 0) hj
  rwa [zero_add] at hbyte

/-- The table from the region descriptor on. -/
theorem execAtaCmd_prdt {x : ℕ} (hx : 16 ≤ x) :
    (execAtaCmd c tblAddr hdr tbl).2 x = fillPrdt c tbl x := by
  dsimp only [execAtaCmd]
  exact putBytes_of_notMem (Or.inr (by omega))

theorem toNat_leByte (v i : ℕ) : (leByte v i).toNat = v / 256 ^ i % 256 := by
  rw [leByte, UInt8.toNat_ofNat']

/-- **The FIS never asks for the command.** The count is read where there are zeros, so it is
right only when it is zero; then the three high bytes of the address are right only when they
are zero, and one of these is the byte that is read as the device. -/
theorem not_fisDecodes : ¬FisDecodes (execAtaCmd c tblAddr hdr tbl).2 c := by
  intro h
  have hcount := h.count
  have hlba := h.lba
  have hdevice := h.device
  simp only [fisLba, getLE, execAtaCmd_fis c tblAddr hdr tbl (by decide : 4 < 16),
    execAtaCmd_fis c tblAddr hdr tbl (by decide : 5 < 16),
    execAtaCmd_fis c tblAddr hdr tbl (by decide : 6 < 16),
    execAtaCmd_fis c tblAddr hdr tbl (by decide : 7 < 16),
    execAtaCmd_fis c tblAddr hdr tbl (by decide : 8 < 16),
    execAtaCmd_fis c tblAddr hdr tbl (by decide : 9 < 16),
    execAtaCmd_fis c tblAddr hdr tbl (by decide : 10 < 16),
    execAtaCmd_fis c tblAddr hdr tbl (by decide : 12 < 16),
    execAtaCmd_fis c tblAddr hdr tbl (by decide : 13 < 16), AtaCommand.cfis, List.getD_cons_zero,
    List.getD_cons_succ, toNat_leByte, UInt8.toNat_zero, Nat.reducePow] at hcount hlba hdevice
  rw [← hcount] at hlba
  -- the address from bit 24 on, against itself moved by one byte
  have hshift : c.lba.toNat / 16777216 =
      c.lba.toNat / 4294967296 % 256 + 256 * (c.lba.toNat / 1099511627776 % 256) := by
    omega
  have hzero : c.lba.toNat / 16777216 % 256 = 0 := by
    rw [show 4294967296 = 16777216 * 256 by rfl, show 1099511627776 = 16777216 * 65536 by rfl,
      ← Nat.div_div_eq_div_mul, ← Nat.div_div_eq_div_mul] at hshift
    omega
  rw [hzero] at hdevice
  exact absurd hdevice (by decide)

/-- **The PRD entry never has the byte count.** The count that the hardware reads is odd, and a
transfer is of whole sectors. -/
theorem not_prdDecodes (h : c.dataBuf ≠ 0) : ¬PrdDecodes (execAtaCmd c tblAddr hdr tbl).2 c := by
  intro hprd
  have hcount := hprd.byteCount
  have heven : c.bytes % 2 = 0 := by
    unfold AtaCommand.bytes
    split_ifs
    · rfl
    · omega
  have hdword : (execAtaCmd c tblAddr hdr tbl).2.getLE 140 4 = (fillPrdt c tbl).getLE 140 4 :=
    getLE_congr fun i _ => execAtaCmd_prdt c tblAddr hdr tbl (by omega)
  have hlow : (fillPrdt c tbl).getLE 140 4 % 2 = 0 := by
    rw [fillPrdt, if_pos h]
    exact getLE_putBits_zero_one _ _
  rw [getBits, hdword] at hcount
  omega

/-- **The controller is never handed the command asked for.** For no command, address, count and
buffer, and whatever the table held before, do the command FIS and the PRD entry decode to the
arguments of `exec_ata_cmd`. -/
theorem execAtaCmd_never_decodes : ¬CommandDecodes (execAtaCmd c tblAddr hdr tbl).2 c :=
  fun h => not_fisDecodes c tblAddr hdr tbl h.1

end Decode

/-- Reading sector `2^24` into a buffer: the hardware is asked for sector 0 and the count is read
as 0. -/
theorem execAtaCmd_wrong_sector :
    ¬∀ (c : AtaCommand) (tblAddr : UInt32) (hdr tbl : ByteMemory), c.lba.toNat < 2 ^ 48 →
      CommandDecodes (execAtaCmd c tblAddr hdr tbl).2 c := by
  intro h
  have hdecodes := h ⟨0x25, 2 ^ 24, 1, 0x100000, false⟩ 0x200000 (fun _ => 0) (fun _ => 0) (by decide)
  exact absurd hdecodes.1.count (by decide)

end LittleLinux
