import LittleLinux.Drivers.Ahci

/-!
# The table of drives

`drive.c` keeps the ports with a drive in `drive_port`, and a drive number is an index of that
table. `ahci_table_update` scans the ports: a port where a device showed up is entered at the
end of the table, and the entry of a port whose device went away is overwritten by the last
one. What a scan sees of the hardware is a parameter: the implemented ports, the ports with a
device, and the answer of each device to `IDENTIFY`. Starting and stopping a port's command
engine touches no variable of the table and is left out.

The last entry is the only one that ever moves, and it moves when another port goes away:
`driveNumber_stable_iff` says exactly when a drive number keeps its meaning.
-/

namespace LittleLinux

/-- `MAX_PORTS`. -/
def MAX_PORTS : ℕ := 32

/-- `MAX_DRIVES`. -/
def MAX_DRIVES : ℕ := MAX_PORTS

/-- The driver's variables, with those that only the scan uses. -/
structure AhciTable extends Ahci where
  ahciHbaBase : ℕ
  driveSizeBytes : ℕ → ℕ

/-- What a scan sees of the hardware: the register of implemented ports, the ports with a
device, and the size in bytes that a device reports, unless `IDENTIFY` fails. -/
structure PortScan where
  portsImpl : UInt32
  present : ℕ → Bool
  identify : ℕ → Option ℕ

/-! ### Scanning -/

/-- The first entry for a port. -/
def findDrive (t : AhciTable) (port : ℕ) : Option ℕ :=
  (List.range t.driveCount.toNat).find? fun i => t.drivePort i = port

/-- `add_drive_to_table`. -/
def addDriveToTable (t : AhciTable) (port size : ℕ) : ℤ × AhciTable :=
  if t.driveCount ≥ MAX_DRIVES then (-1, t)
  else
    (t.driveCount,
      { t with
        drivePort := Function.update t.drivePort t.driveCount.toNat port
        driveSizeBytes := Function.update t.driveSizeBytes t.driveCount.toNat size
        driveCount := t.driveCount + 1 })

/-- `remove_drive_from_table`. -/
def removeDriveFromTable (t : AhciTable) (port : ℕ) : AhciTable :=
  match findDrive t port with
  | none => t
  | some i =>
    { t with
      drivePort := Function.update t.drivePort i (t.drivePort (t.driveCount - 1).toNat)
      driveSizeBytes :=
        Function.update t.driveSizeBytes i (t.driveSizeBytes (t.driveCount - 1).toNat)
      driveCount := t.driveCount - 1 }

/-- `port_scan_update`. -/
def portScanUpdate (scan : PortScan) (t : AhciTable) (port : ℕ) : AhciTable :=
  let already := (findDrive t port).isSome
  if scan.present port ∧ already = false then
    match scan.identify port with
    | some size => (addDriveToTable t port size).2
    | none => t
  else if scan.present port = false ∧ already then removeDriveFromTable t port
  else t

/-- The ports that a scan visits. -/
def PortScan.ports (scan : PortScan) : List ℕ :=
  (List.range MAX_PORTS).filter fun port => scan.portsImpl.toNat.testBit port

/-- The loop over the ports. -/
def scanPorts (t : AhciTable) (scan : PortScan) : AhciTable :=
  scan.ports.foldl (portScanUpdate scan) t

/-- The end of `ahci_init`, with the controller found at `base`. -/
def ahciInitScan (t : AhciTable) (base : ℕ) (scan : PortScan) : AhciTable :=
  let t := scanPorts { t with ahciHbaBase := base } scan
  { t with ahciInitialized := true }

/-- `ahci_table_update`. -/
def ahciTableUpdate (t : AhciTable) (scan : PortScan) : AhciTable :=
  if t.ahciInitialized = false then t
  else if t.ahciHbaBase = 0 then t
  else scanPorts t scan

/-! ### What one port does -/

/-- Every drive has its own port. -/
structure DistinctPorts (t : AhciTable) : Prop where
  nonneg : 0 ≤ t.driveCount
  inj : ∀ i j : ℕ, i < t.driveCount → j < t.driveCount → t.drivePort i = t.drivePort j → i = j

/-- The port has an entry, at `i`. -/
def HasEntry (t : AhciTable) (i port : ℕ) : Prop := i < t.driveCount ∧ t.drivePort i = port

section Scan

variable {t : AhciTable} {scan : PortScan} {port p i : ℕ}

theorem hasEntry_of_findDrive (h : findDrive t port = some i) : HasEntry t i port := by
  have hmem := List.mem_range.1 (List.mem_of_find?_eq_some h)
  refine ⟨by omega, ?_⟩
  simpa using List.find?_some h

theorem findDrive_of_hasEntry (h : HasEntry t i port) : findDrive t port ≠ none := by
  intro hnone
  obtain ⟨hlt, hport⟩ := h
  have hall := List.find?_eq_none.1 hnone i (List.mem_range.2 (by omega))
  simp [hport] at hall

/-- A visit changes nothing, enters the port at the end, or takes its entry out. -/
theorem portScanUpdate_cases (scan : PortScan) (t : AhciTable) (port : ℕ) :
    portScanUpdate scan t port = t ∧ (scan.present port = false → findDrive t port = none) ∨
      (∃ size, scan.present port = true ∧ findDrive t port = none ∧
        portScanUpdate scan t port =
          { t with
            drivePort := Function.update t.drivePort t.driveCount.toNat port
            driveSizeBytes := Function.update t.driveSizeBytes t.driveCount.toNat size
            driveCount := t.driveCount + 1 }) ∨
      ∃ i, scan.present port = false ∧ findDrive t port = some i ∧
        portScanUpdate scan t port =
          { t with
            drivePort := Function.update t.drivePort i (t.drivePort (t.driveCount - 1).toNat)
            driveSizeBytes :=
              Function.update t.driveSizeBytes i (t.driveSizeBytes (t.driveCount - 1).toNat)
            driveCount := t.driveCount - 1 } := by
  rw [portScanUpdate]
  -- a drive seen and not listed is identified; one listed and not seen is removed
  cases hpresent : scan.present port with
  | true =>
    cases hfind : findDrive t port with
    | some i => exact Or.inl ⟨by simp, by simp⟩
    | none =>
      rw [if_pos (by simp)]
      cases scan.identify port with
      | none => exact Or.inl ⟨rfl, by simp⟩
      | some size =>
        dsimp only
        rw [addDriveToTable]
        by_cases hfull : t.driveCount ≥ MAX_DRIVES
        · rw [if_pos hfull]
          exact Or.inl ⟨rfl, by simp⟩
        · rw [if_neg hfull]
          exact Or.inr (Or.inl ⟨size, rfl, rfl, rfl⟩)
  | false =>
    cases hfind : findDrive t port with
    | none => exact Or.inl ⟨by simp, fun _ => rfl⟩
    | some i =>
      rw [if_neg (by simp), if_pos (by simp), removeDriveFromTable, hfind]
      exact Or.inr (Or.inr ⟨i, rfl, rfl, rfl⟩)

/-- A new port differs from every old one. -/
theorem DistinctPorts.add (h : DistinctPorts t) (hfind : findDrive t port = none)
    (sizes : ℕ → ℕ) :
    DistinctPorts { t with
      drivePort := Function.update t.drivePort t.driveCount.toNat port
      driveSizeBytes := sizes
      driveCount := t.driveCount + 1 } := by
  have hnonneg := h.nonneg
  have hnew : ∀ j : ℕ, j < t.driveCount → t.drivePort j ≠ port := fun j hj hport =>
    findDrive_of_hasEntry ⟨hj, hport⟩ hfind
  refine ⟨show 0 ≤ t.driveCount + 1 by omega, fun j k hj hk hjk => ?_⟩
  dsimp only at hj hk hjk
  rcases eq_or_ne j t.driveCount.toNat with rfl | hne <;>
    rcases eq_or_ne k t.driveCount.toNat with rfl | hne'
  · rfl
  · rw [Function.update_self, Function.update_of_ne hne'] at hjk
    exact absurd hjk.symm (hnew k (by omega))
  · rw [Function.update_self, Function.update_of_ne hne] at hjk
    exact absurd hjk (hnew j (by omega))
  · rw [Function.update_of_ne hne, Function.update_of_ne hne'] at hjk
    exact h.inj j k (by omega) (by omega) hjk

/-- The last port moves to the place of one that goes away. -/
theorem DistinctPorts.remove (h : DistinctPorts t) (hi : i < t.driveCount) (sizes : ℕ → ℕ) :
    DistinctPorts { t with
      drivePort := Function.update t.drivePort i (t.drivePort (t.driveCount - 1).toNat)
      driveSizeBytes := sizes
      driveCount := t.driveCount - 1 } := by
  have hnonneg := h.nonneg
  refine ⟨show 0 ≤ t.driveCount - 1 by omega, fun j k hj hk hjk => ?_⟩
  dsimp only at hj hk hjk
  rcases eq_or_ne j i with hj' | hne <;> rcases eq_or_ne k i with hk' | hne'
  · exact hj'.trans hk'.symm
  · rw [hj', Function.update_self, Function.update_of_ne hne'] at hjk
    have := h.inj _ k (by omega) (by omega) hjk
    omega
  · rw [hk', Function.update_self, Function.update_of_ne hne] at hjk
    have := h.inj j _ (by omega) (by omega) hjk
    omega
  · rw [Function.update_of_ne hne, Function.update_of_ne hne'] at hjk
    exact h.inj j k (by omega) (by omega) hjk

theorem DistinctPorts.portScanUpdate (h : DistinctPorts t) (scan : PortScan) (port : ℕ) :
    DistinctPorts (portScanUpdate scan t port) := by
  obtain ⟨heq, -⟩ | ⟨size, -, hfind, heq⟩ | ⟨i, -, hfind, heq⟩ := portScanUpdate_cases scan t port
  · rw [heq]
    exact h
  · rw [heq]
    exact h.add hfind _
  · rw [heq]
    exact h.remove (hasEntry_of_findDrive hfind).1 _

/-- The visit of a port leaves the entry `i` of the port `p` where it is, unless the visited
port is another one that went away, and `i` is the last entry. -/
def Unmoved (scan : PortScan) (i p : ℕ) (t : AhciTable) (port : ℕ) : Prop :=
  ¬ (port ≠ p ∧ scan.present port = false ∧ (findDrive t port).isSome ∧ (i : ℤ) + 1 = t.driveCount)

instance (scan : PortScan) (i p : ℕ) (t : AhciTable) (port : ℕ) :
    Decidable (Unmoved scan i p t port) :=
  inferInstanceAs (Decidable (¬ _))

/-- The entry of a port that is present stays, or moves down from the end. -/
theorem HasEntry.portScanUpdate (h : HasEntry t i p) (hpresent : scan.present p = true) (port : ℕ) :
    Unmoved scan i p t port ∧ HasEntry (portScanUpdate scan t port) i p ∨
      ¬ Unmoved scan i p t port ∧ ∃ j < i, HasEntry (LittleLinux.portScanUpdate scan t port) j p := by
  obtain ⟨hi, hport⟩ := h
  obtain ⟨heq, hnone⟩ | ⟨size, hthere, hfind, heq⟩ | ⟨j, haway, hfind, heq⟩ :=
    portScanUpdate_cases scan t port
  · refine Or.inl ⟨?_, ?_⟩
    · rintro ⟨-, haway, hsome, -⟩
      simp [hnone haway] at hsome
    · rw [heq]
      exact ⟨hi, hport⟩
  · refine Or.inl ⟨?_, ?_⟩
    · rintro ⟨-, haway, -⟩
      exact absurd (hthere.symm.trans haway) (by simp)
    · rw [heq]
      refine ⟨show (i : ℤ) < t.driveCount + 1 by omega, ?_⟩
      exact (Function.update_of_ne (by omega) _ _).trans hport
  · obtain ⟨hj, hjport⟩ := hasEntry_of_findDrive hfind
    have hne : port ≠ p := fun h => absurd ((h ▸ haway).symm.trans hpresent) (by simp)
    have hij : i ≠ j := fun h => hne (hjport.symm.trans (h ▸ hport))
    by_cases hlast : (i : ℤ) + 1 = t.driveCount
    · refine Or.inr ⟨fun h => h ⟨hne, haway, by simp [hfind], hlast⟩, j, by omega, ?_⟩
      rw [heq]
      refine ⟨show (j : ℤ) < t.driveCount - 1 by omega, ?_⟩
      have hend : (t.driveCount - 1).toNat = i := by omega
      exact (Function.update_self _ _ _).trans (hend ▸ hport)
    · refine Or.inl ⟨fun h => hlast h.2.2.2, ?_⟩
      rw [heq]
      exact ⟨show (i : ℤ) < t.driveCount - 1 by omega, (Function.update_of_ne hij _ _).trans hport⟩

/-- The variables that no scan changes. -/
theorem portScanUpdate_ahciInitialized (scan : PortScan) (t : AhciTable) (port : ℕ) :
    (portScanUpdate scan t port).ahciInitialized = t.ahciInitialized ∧
      (portScanUpdate scan t port).ahciHbaBase = t.ahciHbaBase := by
  obtain ⟨heq, -⟩ | ⟨size, -, -, heq⟩ | ⟨i, -, -, heq⟩ := portScanUpdate_cases scan t port
  all_goals
    rw [heq]
    exact ⟨rfl, rfl⟩

end Scan

/-! ### A whole scan -/

section Loop

variable {t : AhciTable} {scan : PortScan} {ports : List ℕ} {p i : ℕ}

theorem DistinctPorts.foldl (h : DistinctPorts t) (scan : PortScan) (ports : List ℕ) :
    DistinctPorts (ports.foldl (LittleLinux.portScanUpdate scan) t) := by
  induction ports generalizing t with
  | nil => exact h
  | cons port ports ih => exact ih (h.portScanUpdate scan port)

theorem foldl_ahciInitialized (scan : PortScan) (t : AhciTable) (ports : List ℕ) :
    (ports.foldl (portScanUpdate scan) t).ahciInitialized = t.ahciInitialized ∧
      (ports.foldl (portScanUpdate scan) t).ahciHbaBase = t.ahciHbaBase := by
  induction ports generalizing t with
  | nil => exact ⟨rfl, rfl⟩
  | cons port ports ih =>
    obtain ⟨hinit, hbase⟩ := portScanUpdate_ahciInitialized scan t port
    exact ⟨(ih _).1.trans hinit, (ih _).2.trans hbase⟩

/-- An entry never moves up. -/
theorem HasEntry.foldl (h : HasEntry t i p) (hpresent : scan.present p = true) (ports : List ℕ) :
    ∃ j ≤ i, HasEntry (ports.foldl (LittleLinux.portScanUpdate scan) t) j p := by
  induction ports generalizing t i with
  | nil => exact ⟨i, le_refl i, h⟩
  | cons port ports ih =>
    obtain ⟨-, hstay⟩ | ⟨-, j, hj, hmove⟩ := h.portScanUpdate hpresent port
    · exact ih hstay
    · obtain ⟨k, hk, hentry⟩ := ih hmove
      exact ⟨k, hk.trans hj.le, hentry⟩

/-- An entry is where it was after a scan exactly when no visit moved it: once it went down, it
stays below. -/
theorem hasEntry_foldl_iff (hdistinct : DistinctPorts t) (h : HasEntry t i p)
    (hpresent : scan.present p = true) (ports : List ℕ) :
    HasEntry (ports.foldl (portScanUpdate scan) t) i p ↔
      Along (portScanUpdate scan) (Unmoved scan i p) t ports := by
  induction ports generalizing t with
  | nil => exact ⟨fun _ => trivial, fun _ => h⟩
  | cons port ports ih =>
    rw [List.foldl_cons, Along]
    have hnext := hdistinct.portScanUpdate scan port
    obtain ⟨hunmoved, hstay⟩ | ⟨hmoved, j, hj, hmove⟩ := h.portScanUpdate hpresent port
    · rw [ih hnext hstay]
      exact ⟨fun hrest => ⟨hunmoved, hrest⟩, And.right⟩
    · refine ⟨fun hentry => ?_, fun hrest => absurd hrest.1 hmoved⟩
      obtain ⟨k, hk, hbelow⟩ := hmove.foldl hpresent ports
      have := (hnext.foldl scan ports).inj i k hentry.1 hbelow.1 (hentry.2.trans hbelow.2.symm)
      omega

end Loop

/-! ### Drive numbers -/

/-- The drive number `d` denotes the port `p`: reads through it read, and writes through it
write, the disk at `p` and no other. -/
structure Denotes (t : AhciTable) (d : ℤ) (p : ℕ) : Prop where
  present : t.Present d
  port : t.drivePort d.toNat = p
  reads : ∀ (addr length : ℕ) (b : ByteMemory), addr < 2 ^ 64 → 0 < length → length ≤ 256 →
    (ahciRead t.toAhci d addr length).1 = some b → ∀ i < length, b i = t.disks p (addr + i)
  writes : ∀ (addr length : ℕ) (data : ByteMemory), addr < 2 ^ 64 → 0 < length → length ≤ 256 →
    (ahciWrite t.toAhci d addr length (some data)).1 = true →
      (ahciWrite t.toAhci d addr length (some data)).2.disks =
        Function.update t.disks p ((t.disks p).putBytes addr length data)

section Updates

variable {t : AhciTable} {scan : PortScan} {d : ℤ} {p : ℕ}

/-- It is enough that the entry of the table is the port's. -/
theorem denotes_iff :
    Denotes t d p ↔ t.ahciInitialized = true ∧ 0 ≤ d ∧ HasEntry t d.toNat p := by
  constructor
  · intro h
    obtain ⟨hinit, hnonneg, hlt⟩ := h.present
    exact ⟨hinit, hnonneg, by omega, h.port⟩
  · rintro ⟨hinit, hnonneg, hlt, hport⟩
    have hpresent : t.Present d := ⟨hinit, hnonneg, by omega⟩
    have hdrive : t.drive d = t.disks p := by rw [Ahci.drive, hport]
    refine ⟨hpresent, hport, fun addr length b ha h₁ h₂ hb i hi => ?_,
      fun addr length data ha h₁ h₂ hok => ?_⟩
    · have hread := (ahciRead_spec hpresent ha h₁ h₂).bytes b hb
      have hbyte := ByteMemory.putBytes_add (m := t.byteBuffer) (a := 0)
        (f := fun j => t.drive d (addr + j)) hi
      rw [zero_add] at hbyte
      rw [hread, hbyte, hdrive]
    · rw [(ahciWrite_spec hpresent ha h₁ h₂ data).bytes hok, hport, hdrive]

/-- A scan leaves the drive number `d` of the port `p` alone: whenever a visit finds that another
port went away, `d` is not the last drive. -/
def KeepsNumber (d : ℤ) (p : ℕ) (t : AhciTable) (scan : PortScan) : Prop :=
  t.ahciHbaBase ≠ 0 → Along (portScanUpdate scan) (Unmoved scan d.toNat p) t scan.ports

theorem DistinctPorts.ahciTableUpdate (h : DistinctPorts t) (scan : PortScan) :
    DistinctPorts (ahciTableUpdate t scan) := by
  rw [LittleLinux.ahciTableUpdate]
  split_ifs
  · exact h
  · exact h
  · exact h.foldl scan scan.ports

theorem denotes_ahciTableUpdate_iff (hdistinct : DistinctPorts t) (h : Denotes t d p)
    (hpresent : scan.present p = true) :
    Denotes (ahciTableUpdate t scan) d p ↔ KeepsNumber d p t scan := by
  obtain ⟨hinit, hnonneg, hentry⟩ := denotes_iff.1 h
  rw [ahciTableUpdate, if_neg (by simp [hinit]), KeepsNumber]
  by_cases hbase : t.ahciHbaBase = 0
  · rw [if_pos hbase]
    exact ⟨fun _ hne => absurd hbase hne, fun _ => h⟩
  · rw [if_neg hbase, denotes_iff, ← hasEntry_foldl_iff hdistinct hentry hpresent, scanPorts,
      (foldl_ahciInitialized scan t scan.ports).1]
    exact ⟨fun hd _ => hd.2.2, fun hd => ⟨hinit, hnonneg, hd hbase⟩⟩

/-- In a run that starts with `ahci_init` no port has two drives. -/
theorem distinctPorts_run (boot : AhciTable) (hboot : boot.driveCount = 0) (base : ℕ)
    (first : PortScan) (scans : List PortScan) :
    DistinctPorts (scans.foldl ahciTableUpdate (ahciInitScan boot base first)) := by
  have hempty : DistinctPorts { boot with ahciHbaBase := base } :=
    ⟨hboot.ge, fun i j hi => absurd (hi.trans_eq hboot) (by omega)⟩
  have hinit := hempty.foldl first first.ports
  refine Along.invariant (C := fun _ _ => True) (fun t scan ht _ => ht.ahciTableUpdate scan) ?_
    (Along.of_forall (fun _ _ => trivial) _ scans)
  exact ⟨hinit.nonneg, hinit.inj⟩

end Updates

/-- **When a drive number is stable.** From any state of a run that starts with `ahci_init`, and
as long as the port `p` stays present, the drive number `d` of `p` denotes `p` after every update
exactly when no update finds another port gone while `d` is the last drive. -/
theorem driveNumber_stable_iff (boot : AhciTable) (hboot : boot.driveCount = 0) (base : ℕ)
    (first : PortScan) (before after : List PortScan) (d : ℤ) (p : ℕ)
    (h : Denotes (before.foldl ahciTableUpdate (ahciInitScan boot base first)) d p)
    (hpresent : ∀ scan ∈ after, scan.present p = true) :
    (∀ scans, scans <+: after → Denotes (scans.foldl ahciTableUpdate
        (before.foldl ahciTableUpdate (ahciInitScan boot base first))) d p) ↔
      Along ahciTableUpdate (KeepsNumber d p)
        (before.foldl ahciTableUpdate (ahciInitScan boot base first)) after := by
  have hdistinct := distinctPorts_run boot hboot base first before
  generalize before.foldl ahciTableUpdate (ahciInitScan boot base first) = t at h hdistinct
  have hiff := Along.iff_forall_prefix_of_mem (C := KeepsNumber d p)
    (I := fun t => DistinctPorts t ∧ Denotes t d p) (P := fun scan => scan.present p = true)
    (fun t scan hp ht => (and_iff_right (ht.1.ahciTableUpdate scan)).trans
      (denotes_ahciTableUpdate_iff ht.1 ht.2 hp)) hpresent ⟨hdistinct, h⟩
  have hdist : ∀ scans : List PortScan, DistinctPorts (scans.foldl ahciTableUpdate t) := fun scans =>
    Along.invariant (C := fun _ _ => True) (fun t scan ht _ => ht.ahciTableUpdate scan) hdistinct
      (Along.of_forall (fun _ _ => trivial) _ scans)
  rw [← hiff]
  exact ⟨fun hall scans hpre => ⟨hdist scans, hall scans hpre⟩,
    fun hall scans hpre => (hall scans hpre).2⟩

/-- The driver before `ahci_init`. -/
def bootTable : AhciTable :=
  { blankAhci with
    ahciInitialized := false
    driveCount := 0
    ahciHbaBase := 0
    driveSizeBytes := fun _ => 0 }

/-- A controller with two ports, and devices at those of `ports`. -/
def twoPorts (ports : List ℕ) : PortScan where
  portsImpl := 3
  present := fun port => decide (port ∈ ports)
  identify := fun _ => some 512

/-- The drive at port 0 is number 0, and keeps its number when the one at port 1 goes away and
comes back. -/
theorem driveNumber_stable_second_port :
    Denotes ([twoPorts [0], twoPorts [0, 1]].foldl ahciTableUpdate
      (ahciInitScan bootTable 4096 (twoPorts [0, 1]))) 0 0 :=
  (driveNumber_stable_iff bootTable rfl 4096 (twoPorts [0, 1]) [] [twoPorts [0], twoPorts [0, 1]] 0 0
    (denotes_iff.2 ⟨rfl, le_refl _, by decide, by decide⟩) (by decide)).2
    ⟨fun _ => by decide, fun _ => by decide, trivial⟩ _ List.prefix_rfl

/-- Two drives, of which the first is taken out: number 1, which denoted port 1, is no drive any
more, though the device at port 1 stays. -/
theorem driveNumber_not_stable :
    ¬ ∀ (boot : AhciTable) (base : ℕ) (first : PortScan) (before after : List PortScan) (d : ℤ)
      (p : ℕ), boot.driveCount = 0 →
      Denotes (before.foldl ahciTableUpdate (ahciInitScan boot base first)) d p →
      (∀ scan ∈ after, scan.present p = true) →
      Denotes (after.foldl ahciTableUpdate
        (before.foldl ahciTableUpdate (ahciInitScan boot base first))) d p := by
  intro h
  have hone := h bootTable 4096 (twoPorts [0, 1]) [] [twoPorts [1]] 1 1 rfl
    (denotes_iff.2 ⟨rfl, by decide, by decide, by decide⟩) (by decide)
  exact absurd hone.present.2.2 (by decide)

end LittleLinux
