import LittleLinux.Lib.KeyedRun
import LittleLinux.Drivers.DriveTable

/-!
# The table of drives over whole runs

The table is a map from ports to sizes: a scan of a port where a device is present keeps the
size the port has, or enters the one the device reports, and a scan of an empty port takes the
port out. `Represents` ties the two arrays of `drive.c` to that map, with entries at the front
and every port in at most one of them, and every `port_scan_update` keeps it.

Of the map, the run tells everything: the last scan of a port decides whether the port is in the
table, and its size is from the scan since which it has been there.
-/

namespace LittleLinux

/-- A call of `port_scan_update`: the port, whether a device is present, and the size in bytes that
it reports, unless `IDENTIFY` fails. -/
structure PortVisit where
  port : Fin 32
  present : Bool
  identify : Option ℕ

namespace PortVisit

/-- What the driver sees of the hardware during the call. -/
def scan (v : PortVisit) : PortScan where
  portsImpl := 0
  present := fun _ => v.present
  identify := fun _ => v.identify

/-- The call. -/
def run (t : AhciTable) (v : PortVisit) : AhciTable := portScanUpdate v.scan t v.port

/-- What the call makes of the size that the port has in the table. -/
def resize (v : PortVisit) (size : Option ℕ) : Option ℕ :=
  if v.present then size.or v.identify else none

/-- The sizes of the ports in the table. -/
def step (sizes : ℕ → Option ℕ) (v : PortVisit) : ℕ → Option ℕ :=
  keyedStep (fun v : PortVisit => (v.port : ℕ)) resize sizes v

theorem step_of_eq {v : PortVisit} {sizes : ℕ → Option ℕ} {p : ℕ} (h : v.port = p) :
    step sizes v p = v.resize (sizes p) :=
  keyedStep_of_eq h

theorem step_of_ne {v : PortVisit} {sizes : ℕ → Option ℕ} {p : ℕ} (h : (v.port : ℕ) ≠ p) :
    step sizes v p = sizes p :=
  keyedStep_of_ne h

end PortVisit

/-- The port is in the table. -/
def InTable (t : AhciTable) (p : ℕ) : Prop := ∃ i, HasEntry t i p

/-- The table has one entry for each port with a size, and no other. -/
structure Represents (t : AhciTable) (sizes : ℕ → Option ℕ) : Prop extends DistinctPorts t where
  port_lt : ∀ i : ℕ, i < t.driveCount → t.drivePort i < 32
  sizes_iff : ∀ p size, sizes p = some size ↔ ∃ i, HasEntry t i p ∧ t.driveSizeBytes i = size

namespace Represents

variable {t : AhciTable} {sizes : ℕ → Option ℕ} {p i : ℕ}

theorem isSome_iff (h : Represents t sizes) : (sizes p).isSome ↔ InTable t p := by
  rw [Option.isSome_iff_exists]
  constructor
  · rintro ⟨size, hsize⟩
    obtain ⟨i, hi, -⟩ := (h.sizes_iff p size).1 hsize
    exact ⟨i, hi⟩
  · rintro ⟨i, hi⟩
    exact ⟨_, (h.sizes_iff p _).2 ⟨i, hi, rfl⟩⟩

theorem eq_none (h : Represents t sizes) (hp : findDrive t p = none) : sizes p = none := by
  rw [← Option.not_isSome_iff_eq_none, h.isSome_iff]
  rintro ⟨i, hi⟩
  exact findDrive_of_hasEntry hi hp

theorem eq_some (h : Represents t sizes) (hi : HasEntry t i p) :
    sizes p = some (t.driveSizeBytes i) :=
  (h.sizes_iff p _).2 ⟨i, hi, rfl⟩

/-- There is no room for more entries than ports. -/
theorem driveCount_le (h : Represents t sizes) : t.driveCount ≤ 32 := by
  by_contra hfull
  obtain ⟨i, j, hij, heq⟩ := Fintype.exists_ne_map_eq_of_card_lt
    (fun i : Fin 33 => (⟨t.drivePort i, h.port_lt i (by omega)⟩ : Fin 32)) (by simp)
  exact hij (Fin.ext (h.inj i j (by omega) (by omega) (congrArg Fin.val heq)))

/-- When a port is missing, there is room for it. -/
theorem driveCount_lt (h : Represents t sizes) (hp : p < 32) (hfind : findDrive t p = none) :
    t.driveCount < 32 := by
  by_contra hfull
  obtain ⟨i, hi⟩ := (Finite.injective_iff_surjective (f :=
    fun i : Fin 32 => (⟨t.drivePort i, h.port_lt i (by omega)⟩ : Fin 32))).1
    (fun i j hij => Fin.ext (h.inj i j (by omega) (by omega) (congrArg Fin.val hij))) ⟨p, hp⟩
  exact findDrive_of_hasEntry ⟨(by omega : (i : ℕ) < t.driveCount), congrArg Fin.val hi⟩ hfind

/-- A port that is new is entered at the end. -/
theorem add (h : Represents t sizes) (hp : p < 32) (hfind : findDrive t p = none) (size : ℕ) :
    Represents (addDriveToTable t p size).2 (Function.update sizes p (some size)) := by
  have hnonneg := h.nonneg
  have hroom := h.driveCount_lt hp hfind
  have hnot : ¬t.driveCount ≥ MAX_DRIVES := not_le.2 hroom
  have hnew : ∀ j : ℕ, j < t.driveCount → t.drivePort j ≠ p := fun j hj hport =>
    findDrive_of_hasEntry ⟨hj, hport⟩ hfind
  rw [addDriveToTable, if_neg hnot]
  constructor
  case toDistinctPorts => exact h.toDistinctPorts.add hfind _
  case port_lt =>
    intro i hi
    dsimp only at hi ⊢
    by_cases hlast : i = t.driveCount.toNat
    · rwa [hlast, Function.update_self]
    · rw [Function.update_of_ne hlast]
      exact h.port_lt i (by omega)
  case sizes_iff =>
    intro q size'
    -- the new row answers for its own port and hides no other: the ports in use are distinct
    by_cases hq : q = p
    · subst hq
      rw [Function.update_self]
      constructor
      · intro hsize
        refine ⟨t.driveCount.toNat, ⟨show (_ : ℤ) < t.driveCount + 1 by omega, ?_⟩, ?_⟩
        · exact Function.update_self ..
        · exact (Function.update_self ..).trans (Option.some.inj hsize)
      · rintro ⟨i, ⟨hi, hport⟩, hsize⟩
        dsimp only at hi hport hsize
        by_cases hlast : i = t.driveCount.toNat
        · rw [hlast, Function.update_self] at hsize
          exact congrArg some hsize
        · rw [Function.update_of_ne hlast] at hport
          exact absurd hport (hnew i (by omega))
    · rw [Function.update_of_ne hq, h.sizes_iff]
      refine exists_congr fun i => ?_
      by_cases hlast : i = t.driveCount.toNat
      · refine iff_of_false (fun hi => ?_) fun hi => ?_
        · have := hi.1.1
          omega
        · obtain ⟨⟨-, hport⟩, -⟩ := hi
          rw [hlast] at hport
          exact hq (hport.symm.trans (Function.update_self ..))
      · simp only [HasEntry, Function.update_of_ne hlast]
        exact and_congr_left' (and_congr_left' ⟨fun hi => by omega, fun hi => by omega⟩)

/-- The entry of a port is filled with the last one. -/
theorem remove (h : Represents t sizes) (p : ℕ) :
    Represents (removeDriveFromTable t p) (Function.update sizes p none) := by
  have hnonneg := h.nonneg
  rw [removeDriveFromTable]
  cases hfind : findDrive t p with
  | none =>
    have hsame : Function.update sizes p none = sizes := by
      rw [← h.eq_none hfind, Function.update_eq_self]
    rwa [hsame]
  | some i =>
    obtain ⟨hi, hport⟩ := hasEntry_of_findDrive hfind
    dsimp only
    -- where the entries that stay are found
    have hmove : ∀ j : ℕ, j < t.driveCount - 1 → ∃ k : ℕ, k < t.driveCount ∧ k ≠ i ∧
        Function.update t.drivePort i (t.drivePort (t.driveCount - 1).toNat) j = t.drivePort k ∧
        Function.update t.driveSizeBytes i (t.driveSizeBytes (t.driveCount - 1).toNat) j =
          t.driveSizeBytes k := by
      intro j hj
      by_cases hij : j = i
      · subst hij
        exact ⟨(t.driveCount - 1).toNat, by omega, by omega, Function.update_self ..,
          Function.update_self ..⟩
      · exact ⟨j, by omega, hij, Function.update_of_ne hij .., Function.update_of_ne hij ..⟩
    constructor
    case toDistinctPorts => exact h.toDistinctPorts.remove hi _
    case port_lt =>
      intro j hj
      obtain ⟨k, hk, -, hkport, -⟩ := hmove j hj
      dsimp only
      rw [hkport]
      exact h.port_lt k hk
    case sizes_iff =>
      intro q size
      by_cases hq : q = p
      · subst hq
        rw [Function.update_self]
        refine iff_of_false (by simp) ?_
        rintro ⟨j, ⟨hj, hjport⟩, -⟩
        obtain ⟨k, hk, hne, hkport, -⟩ := hmove j hj
        exact hne (h.inj k i hk hi (hkport.symm.trans (hjport.trans hport.symm)))
      · rw [Function.update_of_ne hq, h.sizes_iff]
        constructor
        · rintro ⟨k, ⟨hk, hkport⟩, hsize⟩
          have hne : k ≠ i := fun hki => hq (hkport.symm.trans (hki ▸ hport))
          by_cases hlast : (k : ℤ) = t.driveCount - 1
          · refine ⟨i, ⟨show (i : ℤ) < t.driveCount - 1 by omega, ?_⟩, ?_⟩ <;> dsimp only <;>
              rw [Function.update_self, show (t.driveCount - 1).toNat = k by omega]
            · exact hkport
            · exact hsize
          · refine ⟨k, ⟨show (k : ℤ) < t.driveCount - 1 by omega, ?_⟩, ?_⟩ <;> dsimp only <;>
              rw [Function.update_of_ne hne]
            · exact hkport
            · exact hsize
        · rintro ⟨j, ⟨hj, hjport⟩, hsize⟩
          obtain ⟨k, hk, -, hkport, hksize⟩ := hmove j hj
          exact ⟨k, ⟨hk, hkport.symm.trans hjport⟩, hksize.symm.trans hsize⟩

/-- `port_scan_update` is a step of the map. -/
theorem run (h : Represents t sizes) (v : PortVisit) : Represents (v.run t) (v.step sizes) := by
  have hstay : ∀ size, sizes v.port = size → Represents t (Function.update sizes v.port size) := by
    rintro size rfl
    rwa [Function.update_eq_self]
  unfold PortVisit.run PortVisit.step keyedStep PortVisit.resize portScanUpdate
  cases hpresent : v.present with
  | true =>
    cases hfind : findDrive t v.port with
    | some i =>
      have hsize := h.eq_some (hasEntry_of_findDrive hfind)
      simpa [PortVisit.scan, hpresent, hsize] using hstay _ hsize
    | none =>
      have hsize := h.eq_none hfind
      cases hid : v.identify with
      | none => simpa [PortVisit.scan, hpresent, hsize, hid] using hstay _ hsize
      | some size => simpa [PortVisit.scan, hpresent, hsize, hid] using h.add v.port.2 hfind size
  | false =>
    cases hfind : findDrive t v.port with
    | some i => simpa [PortVisit.scan, hpresent] using h.remove v.port
    | none => simpa [PortVisit.scan, hpresent] using hstay _ (h.eq_none hfind)

/-- The empty table. -/
theorem boot (h : t.driveCount = 0) : Represents t fun _ => none := by
  refine ⟨⟨h.ge, fun i j hi => absurd hi (by omega)⟩, fun i hi => absurd hi (by omega), ?_⟩
  refine fun p size => iff_of_false (by simp) ?_
  rintro ⟨i, ⟨hi, -⟩, -⟩
  omega

theorem foldl (h : Represents t sizes) (visits : List PortVisit) :
    Represents (visits.foldl PortVisit.run t) (visits.foldl PortVisit.step sizes) := by
  induction visits generalizing t sizes with
  | nil => exact h
  | cons v visits ih => exact ih (h.run v)

end Represents

/-! ### Runs -/

/-- The table after a run from an empty one. -/
def visitAll (boot : AhciTable) (visits : List PortVisit) : AhciTable :=
  visits.foldl PortVisit.run boot

section Runs

variable {boot : AhciTable} {visits before after : List PortVisit} {v : PortVisit} {p size : ℕ}

theorem represents_visitAll (h : boot.driveCount = 0) (visits : List PortVisit) :
    Represents (visitAll boot visits) (visits.foldl PortVisit.step fun _ => none) :=
  (Represents.boot h).foldl visits

/-- The last scan of a port decides. -/
theorem inTable_of_last (h : boot.driveCount = 0) (hv : v.port = p)
    (hafter : ∀ w ∈ after, (w.port : ℕ) ≠ p) :
    InTable (visitAll boot (before ++ v :: after)) p ↔
      v.present = true ∧ (InTable (visitAll boot before) p ∨ v.identify.isSome) := by
  rw [← (represents_visitAll h _).isSome_iff, ← (represents_visitAll h before).isSome_iff]
  have hlast : ((before ++ v :: after).foldl PortVisit.step fun _ => none) p =
      PortVisit.resize v ((before.foldl PortVisit.step fun _ => none) p) :=
    foldl_keyedStep_last hv hafter
  rw [hlast, PortVisit.resize]
  cases v.present with
  | false => simp
  | true => simp [Option.isSome_or]

/-- A port that is scanned never is not in the table. -/
theorem not_inTable_of_forall_ne (h : boot.driveCount = 0) (hvisits : ∀ w ∈ visits, (w.port : ℕ) ≠ p) :
    ¬InTable (visitAll boot visits) p := by
  rw [← (represents_visitAll h visits).isSome_iff]
  unfold PortVisit.step
  rw [foldl_keyedStep_of_forall_ne hvisits]
  simp

/-- While a port stays in the table it keeps its size. -/
theorem size_of_stays (h : boot.driveCount = 0)
    (hsize : (before.foldl PortVisit.step fun _ => none) p = some size)
    (hstays : ∀ later, later <+: after → InTable (visitAll boot (before ++ later)) p) :
    ((before ++ after).foldl PortVisit.step fun _ => none) p = some size := by
  induction after using List.reverseRecOn with
  | nil => rwa [List.append_nil]
  | append_singleton after w ih =>
    have hold := ih fun later hlater => hstays later (hlater.trans (List.prefix_append _ _))
    have hin := hstays _ List.prefix_rfl
    rw [← (represents_visitAll h _).isSome_iff] at hin
    rw [← List.append_assoc, List.foldl_append] at hin ⊢
    simp only [List.foldl_cons, List.foldl_nil] at hin ⊢
    by_cases hw : (w.port : ℕ) = p
    · rw [PortVisit.step_of_eq hw, hold] at hin ⊢
      unfold PortVisit.resize at hin ⊢
      split_ifs at hin ⊢
      · rfl
      · exact absurd hin (by simp)
    · rwa [PortVisit.step_of_ne hw]

/-- The visit that entered a port gave it the size that the device reported. -/
theorem size_of_entered (h : boot.driveCount = 0)
    (hbefore : ¬InTable (visitAll boot before) p)
    (hin : InTable (visitAll boot (before ++ [v])) p) :
    v.port = p ∧ v.present = true ∧ ∃ size, v.identify = some size ∧
      ((before ++ [v]).foldl PortVisit.step fun _ => none) p = some size := by
  rw [← (represents_visitAll h _).isSome_iff, Option.not_isSome_iff_eq_none] at hbefore
  rw [← (represents_visitAll h _).isSome_iff] at hin
  rw [List.foldl_append] at hin ⊢
  simp only [List.foldl_cons, List.foldl_nil] at hin ⊢
  by_cases hv : (v.port : ℕ) = p
  · rw [PortVisit.step_of_eq hv, hbefore] at hin ⊢
    unfold PortVisit.resize at hin ⊢
    split_ifs at hin ⊢ with hpresent
    · obtain ⟨size, hsize⟩ := Option.isSome_iff_exists.1 hin
      exact ⟨hv, hpresent, size, hsize, hsize⟩
    · exact absurd hin (by simp)
  · rw [PortVisit.step_of_ne hv, hbefore] at hin
    exact absurd hin (by simp)

end Runs

/-- **The drive table.** After every sequence of scans of single ports, from an empty table: there
are at most 32 drives, and their ports are distinct; a port is in the table exactly when at its
last scan a device was present, and the port was in the table already or the device was
identified; and the size of a drive is the one that the device reported at the scan that entered
its port, since which the port has been in the table. -/
theorem driveTable_run (boot : AhciTable) (hboot : boot.driveCount = 0) (visits : List PortVisit) :
    let t := visitAll boot visits
    (0 ≤ t.driveCount ∧ t.driveCount ≤ 32) ∧
    (∀ i j : ℕ, i < t.driveCount → j < t.driveCount → t.drivePort i = t.drivePort j → i = j) ∧
    (∀ p, InTable t p ↔ ∃ before v after, visits = before ++ v :: after ∧ (v.port : ℕ) = p ∧
      (∀ w ∈ after, (w.port : ℕ) ≠ p) ∧
      v.present = true ∧ (InTable (visitAll boot before) p ∨ v.identify.isSome)) ∧
    ∀ i : ℕ, i < t.driveCount → ∃ before v after, visits = before ++ v :: after ∧
      (v.port : ℕ) = t.drivePort i ∧ v.present = true ∧
      ¬InTable (visitAll boot before) (t.drivePort i) ∧
      (∀ later, later <+: after →
        InTable (visitAll boot (before ++ v :: later)) (t.drivePort i)) ∧
      v.identify = some (t.driveSizeBytes i) := by
  intro t
  have h : Represents t _ := represents_visitAll hboot visits
  refine ⟨⟨h.nonneg, h.driveCount_le⟩, h.inj, fun p => ⟨fun hin => ?_, ?_⟩, fun i hi => ?_⟩
  · obtain hnone | ⟨before, v, after, rfl, hv, hafter⟩ :=
      forall_ne_or_exists_last (fun v : PortVisit => (v.port : ℕ)) visits p
    · exact absurd hin (not_inTable_of_forall_ne hboot hnone)
    · exact ⟨before, v, after, rfl, hv, hafter, (inTable_of_last hboot hv hafter).1 hin⟩
  · rintro ⟨before, v, after, rfl, hv, hafter, hlast⟩
    exact (inTable_of_last hboot hv hafter).2 hlast
  -- the row stands since the last visit after which its port has been listed without a gap
  · have hentry : HasEntry t i (t.drivePort i) := ⟨hi, rfl⟩
    have hempty : ¬InTable boot (t.drivePort i) := by
      have hnone : ∀ w ∈ ([] : List PortVisit), (w.port : ℕ) ≠ t.drivePort i := by simp
      exact not_inTable_of_forall_ne hboot hnone
    obtain ⟨before, v, after, hsplit, hbefore, hsince⟩ :=
      @exists_since _ _ PortVisit.run (fun t' => InTable t' (t.drivePort i)) _ _ hempty ⟨i, hentry⟩
    obtain ⟨hv, hpresent, size, hid, hsize⟩ := size_of_entered hboot hbefore
      (hsince [] List.nil_prefix)
    have hfinal := @size_of_stays _ _ after _ _ hboot hsize fun later hlater => by
      rw [List.append_assoc]
      exact hsince later hlater
    rw [List.append_assoc, List.singleton_append, ← hsplit, h.eq_some hentry] at hfinal
    refine ⟨before, v, after, hsplit, hv, hpresent, hbefore, hsince, ?_⟩
    rw [hid, Option.some.inj hfinal]

/-- A run in which the drive at port 0 goes away and the one at port 1 takes its place. -/
theorem driveTable_run_swap :
    let visits := [⟨0, true, some 512⟩, ⟨1, true, some 1024⟩, ⟨0, false, none⟩]
    ∃ before v after, visits = before ++ v :: after ∧ (v.port : ℕ) = 1 ∧
      v.present = true ∧ ¬InTable (visitAll bootTable before) 1 ∧
      (∀ later, later <+: after → InTable (visitAll bootTable (before ++ v :: later)) 1) ∧
      v.identify = some 1024 :=
  (driveTable_run bootTable rfl
    [⟨0, true, some 512⟩, ⟨1, true, some 1024⟩, ⟨0, false, none⟩]).2.2.2 0 (by decide)

end LittleLinux
