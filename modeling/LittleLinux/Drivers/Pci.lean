import LittleLinux.Lib.Loop

/-!
# The search for the AHCI controller

`ahci_init` of `drive.c` walks over the PCI buses and the 32 devices of each until it finds an
AHCI controller: class `01`, subclass `06`, programming interface `01`, function 0. What the
machine answers on the configuration ports is a function of the address written to
`PCI_CONFIG_ADDRESS`.

The bus counter is a `u8`, which no value brings to 256: the walk starts over after bus 255.
-/

namespace LittleLinux

/-- What the configuration data port returns, by the address selected. -/
abbrev PciSpace := UInt32 → UInt32

/-- The address `pci_read_config_dword` and `pci_write_config_dword` select. -/
def pciAddress (bus slot func offset : UInt8) : UInt32 :=
  (1 : UInt32) <<< 31 ||| bus.toUInt32 <<< 16 ||| slot.toUInt32 <<< 11 ||| func.toUInt32 <<< 8 |||
    (offset &&& 0xFC).toUInt32

/-- `pci_read_config_dword`. -/
def pciReadConfigDword (pci : PciSpace) (bus slot func offset : UInt8) : UInt32 :=
  pci (pciAddress bus slot func offset)

/-- The test of the search: function 0 of the device is an AHCI controller. -/
def isAhci (pci : PciSpace) (bus dev : UInt8) : Bool :=
  let classRev := pciReadConfigDword pci bus dev 0 0x08
  let progIf := (classRev >>> 8 &&& 0xFF).toUInt8
  let subclass := (classRev >>> 16 &&& 0xFF).toUInt8
  let baseclass := (classRev >>> 24 &&& 0xFF).toUInt8
  baseclass == 0x01 && subclass == 0x06 && progIf == 0x01

/-- What the search leaves behind: the place of the controller, `ahci_hba_base`, and the value
written to its command register. -/
structure AhciController where
  bus : UInt8
  dev : UInt8
  ahciHbaBase : UInt64
  command : UInt32

/-- The body of the search at a controller. The low bits of the base address are cleared
before bit 2 of it is looked at. -/
def takeController (pci : PciSpace) (bus dev : UInt8) : AhciController :=
  let bar := (pciReadConfigDword pci bus dev 0 0x24).toUInt64 &&& ~~~0xF
  let bar := if bar &&& 0x4 ≠ 0 then
      bar ||| (pciReadConfigDword pci bus dev 0 0x28).toUInt64 <<< 32
    else bar
  { bus, dev, ahciHbaBase := bar
    command := pciReadConfigDword pci bus dev 0 0x04 ||| ((1 : UInt32) <<< 2 ||| (1 : UInt32) <<< 1) }

/-- The inner loop: the first device of the bus that passes the test. -/
def scanDevices (pci : PciSpace) (bus : UInt8) : Option ℕ :=
  (List.range 32).find? fun dev => isAhci pci bus (UInt8.ofNat dev)

/-- A pass of the outer loop. It leaves with the controller, or with nothing when the counter
has reached 256. -/
def scanBus (pci : PciSpace) (bus : UInt8) : Pass UInt8 (Option AhciController) :=
  if bus.toNat < 256 then
    match scanDevices pci bus with
    | some dev => .leave (some (takeController pci bus (UInt8.ofNat dev)))
    | none => .next (bus + 1)
  else .leave none

/-- The search of `ahci_init`, for at most `n` buses. -/
def ahciSearch (pci : PciSpace) (n : ℕ) : Option (Option AhciController) :=
  loop (scanBus pci) n 0

/-- `ahci_init`: after the search, `bringUp` stands for the rest of the function, which makes
all its accesses to the registers of the controller. -/
def ahciInit {α : Type} (bringUp : UInt64 → α) (pci : PciSpace) (n : ℕ) : Option (Option α) :=
  (ahciSearch pci n).map fun found => found.map fun c => bringUp c.ahciHbaBase

/-- Function 0 of the device is an AHCI controller. -/
def HasAhci (pci : PciSpace) (bus dev : ℕ) : Prop :=
  bus < 256 ∧ dev < 32 ∧ isAhci pci (UInt8.ofNat bus) (UInt8.ofNat dev) = true

/-- The place is the first of a controller, bus by bus. -/
def FirstAhci (pci : PciSpace) (bus dev : ℕ) : Prop :=
  HasAhci pci bus dev ∧
    ∀ b d, b < bus ∨ (b = bus ∧ d < dev) → ¬HasAhci pci b d

/-- The search has ended as it should: at the first controller, which is then brought up, or
with nothing on a machine that has none, where `ahci_init` returns at once. -/
def SearchEnds (pci : PciSpace) : Prop :=
  ∃ n found, ahciSearch pci n = some found ∧
    match found with
    | some c => FirstAhci pci c.bus.toNat c.dev.toNat ∧ c = takeController pci c.bus c.dev ∧
      ∀ bringUp : UInt64 → ℕ, ahciInit bringUp pci n = some (some (bringUp c.ahciHbaBase))
    | none => (∀ bus dev, ¬HasAhci pci bus dev) ∧
      ∀ bringUp : UInt64 → ℕ, ahciInit bringUp pci n = some none

/-! ### The two loops -/

variable {pci : PciSpace}

theorem scanDevices_eq_some {bus dev : ℕ} (hb : bus < 256)
    (h : scanDevices pci (UInt8.ofNat bus) = some dev) :
    HasAhci pci bus dev ∧ ∀ d < dev, ¬HasAhci pci bus d := by
  obtain ⟨htest, hmem, hbefore⟩ := List.find?_range_eq_some.1 h
  refine ⟨⟨hb, List.mem_range.1 hmem, htest⟩, fun d hd hd' => ?_⟩
  have := hbefore d hd
  rw [hd'.2.2] at this
  exact absurd this (by decide)

theorem scanDevices_eq_none {bus : ℕ} (h : scanDevices pci (UInt8.ofNat bus) = none) (dev : ℕ) :
    ¬HasAhci pci bus dev := by
  rintro ⟨-, hd, htest⟩
  exact List.find?_eq_none.1 h dev (List.mem_range.2 hd) htest

theorem scanBus_of_none {bus : UInt8} (h : scanDevices pci bus = none) :
    scanBus pci bus = .next (bus + 1) := by
  rw [scanBus, if_pos bus.toNat_lt, h]

theorem scanBus_of_some {bus : UInt8} {dev : ℕ} (h : scanDevices pci bus = some dev) :
    scanBus pci bus = .leave (some (takeController pci bus (UInt8.ofNat dev))) := by
  rw [scanBus, if_pos bus.toNat_lt, h]

/-- The buses without a controller are passed one by one. -/
theorem ahciSearch_skip {k : ℕ} (hk : k < 256)
    (h : ∀ b < k, scanDevices pci (UInt8.ofNat b) = none) (n : ℕ) :
    ahciSearch pci (k + n) = loop (scanBus pci) n (UInt8.ofNat k) := by
  induction k generalizing n with
  | zero => rw [zero_add]; rfl
  | succ k ih =>
    rw [show k + 1 + n = k + (n + 1) by omega, ih (by omega) (fun b hb => h b (by omega)),
      loop_succ_of_next (scanBus_of_none (h k (by omega)))]
    congr 1
    simp

/-- **When the search ends.** On a machine that has an AHCI controller the search stops at the
first one in the order of the buses; on a machine that has none it never ends. -/
theorem ahciSearch_ends_iff (pci : PciSpace) :
    SearchEnds pci ↔ ∃ bus dev, HasAhci pci bus dev := by
  constructor
  · rintro ⟨n, found, hsearch, -⟩
    by_contra hnone
    -- without a controller every pass goes on to the next bus
    have hgo : loop (scanBus pci) n 0 = none := by
      refine loop_eq_none (I := fun _ => True) (fun bus _ => ⟨bus + 1, ?_, trivial⟩) trivial
      refine scanBus_of_none ?_
      cases hscan : scanDevices pci bus with
      | none => rfl
      | some dev =>
        rw [← UInt8.ofNat_toNat (x := bus)] at hscan
        exact absurd ⟨_, dev, (scanDevices_eq_some bus.toNat_lt hscan).1⟩ hnone
    rw [ahciSearch, hgo] at hsearch
    exact absurd hsearch (by simp)
  · rintro ⟨bus, dev, hhas⟩
    -- the first bus with a controller
    classical
    have hex : ∃ b, b < 256 ∧ scanDevices pci (UInt8.ofNat b) ≠ none := by
      refine ⟨bus, hhas.1, fun h => ?_⟩
      exact scanDevices_eq_none h dev hhas
    obtain ⟨hlt, hfound⟩ := Nat.find_spec hex
    set b := Nat.find hex with hb
    have hbefore : ∀ c < b, scanDevices pci (UInt8.ofNat c) = none := by
      intro c hc
      by_contra hne
      exact Nat.find_min hex hc ⟨by omega, hne⟩
    obtain ⟨d, hd⟩ := Option.ne_none_iff_exists'.1 hfound
    obtain ⟨hhas', hfirst⟩ := scanDevices_eq_some hlt hd
    have hbus : (UInt8.ofNat b).toNat = b := UInt8.toNat_ofNat_of_lt' hlt
    have hdev : (UInt8.ofNat d).toNat = d :=
      UInt8.toNat_ofNat_of_lt' (lt_trans hhas'.2.1 (by decide))
    have hsearch : ahciSearch pci (b + 1) =
        some (some (takeController pci (UInt8.ofNat b) (UInt8.ofNat d))) := by
      rw [ahciSearch_skip hlt hbefore, loop_succ_of_leave (scanBus_of_some hd)]
    refine ⟨b + 1, _, hsearch, ?_, rfl, fun bringUp => ?_⟩
    · show FirstAhci pci (UInt8.ofNat b).toNat (UInt8.ofNat d).toNat
      rw [hbus, hdev]
      refine ⟨hhas', ?_⟩
      rintro c e (hc | ⟨rfl, he⟩)
      · exact scanDevices_eq_none (hbefore c hc) e
      · exact hfirst e he
    · rw [ahciInit, hsearch]
      rfl

/-- A machine with empty buses, which answer with ones, is searched forever. -/
theorem ahciSearch_never_ends : ¬SearchEnds fun _ => 0xFFFFFFFF := by
  rintro ⟨n, found, hsearch, -⟩
  have hgo : loop (scanBus fun _ => 0xFFFFFFFF) n 0 = none := by
    refine loop_eq_none (I := fun _ => True) (fun bus _ => ⟨bus + 1, ?_, trivial⟩) trivial
    refine scanBus_of_none ?_
    rw [scanDevices, List.find?_eq_none]
    intro dev _
    -- the class read is `FF`
    simp only [isAhci, pciReadConfigDword]
    decide
  rw [ahciSearch, hgo] at hsearch
  exact absurd hsearch (by simp)

end LittleLinux
