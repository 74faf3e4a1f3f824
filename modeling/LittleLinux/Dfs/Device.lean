import LittleLinux.Drivers.Partition
import LittleLinux.Libc.NumeralParsing

/-!
# Device names

`parse_device` of `dfs_api.c`, through which `mount` and `mkfs.dfs` get their partition. `Names`
is what a device name means: `sd`, the letter of a drive and the decimal number of one of its
partitions.

The number is left to `atoi`, so a name with blanks or a sign before the number, with text after it
or with a number too large for an `int` can name a partition as well; `Misleads` is such a name,
and all other strings are parsed exactly (`parsesExactly_iff`).
-/

namespace LittleLinux

/-- `get_partition_count`. -/
def getPartitionCount (s : Partitions) (drive : ℤ) : ℤ :=
  if drive ≥ 0 ∧ drive < s.ahci.driveCount then (s.driveParts drive.toNat).parts.length else 0

/-- `parse_device`: the drive and the partition when it returned 0. -/
def parseDevice (s : Partitions) (dev : CString) : Option (ℤ × ℤ) :=
  match dev.chars with
  | 115 :: 100 :: rest =>
    let driveIdx := CString.schar (rest.headD 0) - 97
    if driveIdx < 0 ∨ driveIdx ≥ s.ahci.driveCount then none
    else
      let partStr := CString.ofBytes rest.tail
      if partStr.chars = [] then none
      else
        let partIdx := toI32 (atoi partStr 10 - 1)
        if partIdx < 0 ∨ partIdx ≥ getPartitionCount s driveIdx then none
        else some (driveIdx, partIdx)
  | _ => none

/-- The string names a partition. -/
def Names (s : Partitions) (dev : CString) (drive part : ℤ) : Prop :=
  ∃ c ds, dev.chars = 115 :: 100 :: c :: ds ∧ ds ≠ [] ∧ (∀ d ∈ ds, IsDecimal d) ∧
    drive = CString.schar c - 97 ∧ 0 ≤ drive ∧ drive < s.ahci.driveCount ∧
    1 ≤ (decimalValue ds : ℤ) ∧ (decimalValue ds : ℤ) ≤ getPartitionCount s drive ∧
    part = decimalValue ds - 1

/-- `parse_device` returns 0 exactly for the names of partitions, and with what they name. -/
def ParsesExactly (s : Partitions) (dev : CString) : Prop :=
  ∀ drive part, parseDevice s dev = some (drive, part) ↔ Names s dev drive part

/-- The string has the letter of a drive and some text that `atoi` takes for the number of one of
its partitions, but that is not this number. -/
def Misleads (s : Partitions) (dev : CString) : Prop :=
  ∃ c text blanks sign ds rest, dev.chars = 115 :: 100 :: c :: text ∧
    NumberText text blanks sign ds rest ∧
    (blanks ≠ [] ∨ sign ≠ [] ∨ rest ≠ [] ∨ 2 ^ 32 ≤ decimalValue ds) ∧
    0 ≤ CString.schar c - 97 ∧ CString.schar c - 97 < s.ahci.driveCount ∧
    1 ≤ toI32 (signedValue sign ds) ∧
    toI32 (signedValue sign ds) ≤ getPartitionCount s (CString.schar c - 97)

section ParseDevice

variable {s : Partitions} {dev : CString} {drive part : ℤ}

theorem getPartitionCount_le (s : Partitions) (drive : ℤ) : getPartitionCount s drive ≤ 32 := by
  unfold getPartitionCount
  split_ifs
  · exact_mod_cast (s.driveParts drive.toNat).length_le
  · decide

/-- The index of a partition, from the `int` that `atoi` returned. -/
theorem toI32_sub_one_iff {k count : ℤ} (hk : -2 ^ 31 ≤ k ∧ k < 2 ^ 31) (hcount : count ≤ 32) :
    ¬(toI32 (k - 1) < 0 ∨ toI32 (k - 1) ≥ count) ↔ 1 ≤ k ∧ k ≤ count := by
  have hsub : toI32 (k - 1) = k - 1 ∨ k = -2 ^ 31 ∧ toI32 (k - 1) = 2 ^ 31 - 1 := by
    unfold toI32
    rw [Int.bmod_def]
    split_ifs <;> push_cast at * <;> omega
  omega

/-- The letter of the drive is in range, and so is what `atoi` takes for the number. -/
theorem parseDevice_cons {c : UInt8} {text : CString}
    (hdev : dev.chars = 115 :: 100 :: c :: text.chars) :
    parseDevice s dev = some (drive, part) ↔
      drive = CString.schar c - 97 ∧ 0 ≤ drive ∧ drive < s.ahci.driveCount ∧ 1 ≤ atoi text 10 ∧
        atoi text 10 ≤ getPartitionCount s drive ∧ part = atoi text 10 - 1 := by
  have hcount := getPartitionCount_le s (CString.schar c - 97)
  have hiff := toI32_sub_one_iff (atoi_ten_mem text) hcount
  have hempty : text.chars = [] → atoi text 10 = 0 := by
    intro h
    rw [atoi, h]
    rfl
  have hpart : 1 ≤ atoi text 10 → toI32 (atoi text 10 - 1) = atoi text 10 - 1 := fun h => by
    have hmem := atoi_ten_mem text
    exact toI32_of_mem (by omega) (by omega)
  have hparse : parseDevice s dev =
      if CString.schar c - 97 < 0 ∨ CString.schar c - 97 ≥ s.ahci.driveCount then none
      else if (CString.ofBytes text.chars).chars = [] then none
      else if toI32 (atoi (CString.ofBytes text.chars) 10 - 1) < 0 ∨
          toI32 (atoi (CString.ofBytes text.chars) 10 - 1) ≥
            getPartitionCount s (CString.schar c - 97) then none
      else some (CString.schar c - 97, toI32 (atoi (CString.ofBytes text.chars) 10 - 1)) := by
    unfold parseDevice
    rw [hdev]
    rfl
  rw [hparse, CString.ofBytes_chars]
  -- the three ways to be refused, and then the pair itself
  split_ifs with hdrive hnil hrange
  · simp only [false_iff]
    rintro ⟨rfl, h⟩
    omega
  · simp only [false_iff]
    rintro ⟨rfl, h⟩
    have hzero := hempty hnil
    omega
  · simp only [false_iff]
    rintro ⟨rfl, -, -, h₁, h₂, -⟩
    exact hiff.mpr ⟨h₁, h₂⟩ hrange
  · obtain ⟨h₁, h₂⟩ := hiff.mp hrange
    rw [Option.some.injEq, Prod.mk.injEq, hpart h₁]
    constructor
    · rintro ⟨rfl, rfl⟩
      exact ⟨rfl, by omega, by omega, h₁, h₂, rfl⟩
    · rintro ⟨rfl, -, -, -, -, rfl⟩
      exact ⟨rfl, rfl⟩

theorem chars_of_parseDevice (h : parseDevice s dev = some (drive, part)) :
    ∃ (c : UInt8) (text : CString), dev.chars = 115 :: 100 :: c :: text.chars := by
  unfold parseDevice at h
  split at h
  next rest hdev =>
    cases rest with
    | nil =>
      have hnul : CString.schar (([] : List UInt8).headD 0) - 97 < 0 := by decide
      rw [if_pos (.inl hnul)] at h
      exact absurd h (by simp)
    | cons c text =>
      have hnoNul : (0 : UInt8) ∉ text := fun hmem => dev.noNul (by simp [hdev, hmem])
      exact ⟨c, ⟨text, hnoNul⟩, hdev⟩
  next => exact absurd h (by simp)

/-- **What `parse_device` takes for a name.** -/
theorem parseDevice_eq_some_iff : parseDevice s dev = some (drive, part) ↔
    ∃ c text blanks sign ds rest, dev.chars = 115 :: 100 :: c :: text ∧
      NumberText text blanks sign ds rest ∧ drive = CString.schar c - 97 ∧ 0 ≤ drive ∧
      drive < s.ahci.driveCount ∧ 1 ≤ toI32 (signedValue sign ds) ∧
      toI32 (signedValue sign ds) ≤ getPartitionCount s drive ∧
      part = toI32 (signedValue sign ds) - 1 := by
  constructor
  · intro h
    obtain ⟨c, text, hdev⟩ := chars_of_parseDevice h
    obtain ⟨hdrive, hnonneg, hlt, hpos, hle, hpart⟩ := (parseDevice_cons hdev).mp h
    obtain ⟨blanks, sign, ds, rest, htext, hval⟩ := (atoi_ten_eq_iff (by omega)).mp (Eq.refl (atoi text 10))
    rw [← hval] at hpos hle hpart
    exact ⟨c, text.chars, blanks, sign, ds, rest, hdev, htext, hdrive, hnonneg, hlt, hpos, hle, hpart⟩
  · rintro ⟨c, text, blanks, sign, ds, rest, hdev, htext, hdrive, hnonneg, hlt, hpos, hle, hpart⟩
    have hnoNul : (0 : UInt8) ∉ text := fun hmem => dev.noNul (by simp [hdev, hmem])
    have hval : atoi ⟨text, hnoNul⟩ 10 = toI32 (signedValue sign ds) :=
      (atoi_ten_eq_iff (by omega)).mpr ⟨blanks, sign, ds, rest, htext, rfl⟩
    rw [← hval] at hpos hle hpart
    have hdev' : dev.chars = 115 :: 100 :: c :: (CString.mk text hnoNul).chars := hdev
    exact (parseDevice_cons hdev').mpr ⟨hdrive, hnonneg, hlt, hpos, hle, hpart⟩

/-- The digits of a name are a text for `atoi`. -/
theorem numberText_of_digits {ds : List UInt8} (hds : ∀ d ∈ ds, IsDecimal d) :
    NumberText ds [] [] ds [] :=
  ⟨by simp, by simp, .inl rfl, hds, by simp⟩

theorem signedValue_nil {ds : List UInt8} (h : decimalValue ds < 2 ^ 31) :
    toI32 (signedValue [] ds) = decimalValue ds := by
  have hne : ¬([] : List UInt8) = [45] := List.cons_ne_nil _ _ |>.symm
  rw [signedValue, if_neg hne]
  exact toI32_of_mem (by omega) (by omega)

theorem lt_of_toI32_pos {v : ℕ} (hv : v < 2 ^ 32) (h : 1 ≤ toI32 v) : v < 2 ^ 31 := by
  unfold toI32 at h
  rw [Int.bmod_def] at h
  split_ifs at h <;> push_cast at * <;> omega

/-- The name of a partition is accepted. -/
theorem parseDevice_of_names (h : Names s dev drive part) :
    parseDevice s dev = some (drive, part) := by
  obtain ⟨c, ds, hdev, -, hds, hdrive, hnonneg, hlt, hpos, hle, hpart⟩ := h
  have hcount := getPartitionCount_le s drive
  have hval : toI32 (signedValue [] ds) = decimalValue ds := signedValue_nil (by omega)
  exact parseDevice_eq_some_iff.mpr ⟨c, ds, [], [], ds, [], hdev, numberText_of_digits hds, hdrive,
    hnonneg, hlt, by omega, by omega, by omega⟩

/-- A string that does not mislead is accepted only as a name. -/
theorem names_of_not_misleads (hnot : ¬Misleads s dev)
    (h : parseDevice s dev = some (drive, part)) : Names s dev drive part := by
  obtain ⟨c, text, blanks, sign, ds, rest, hdev, htext, rfl, hnonneg, hlt, hpos, hle, rfl⟩ :=
    parseDevice_eq_some_iff.mp h
  by_cases hplain : blanks ≠ [] ∨ sign ≠ [] ∨ rest ≠ [] ∨ 2 ^ 32 ≤ decimalValue ds
  · exact absurd ⟨c, text, blanks, sign, ds, rest, hdev, htext, hplain, hnonneg, hlt, hpos, hle⟩ hnot
  · push Not at hplain
    obtain ⟨rfl, rfl, rfl, hsmall⟩ := hplain
    obtain rfl : text = ds := by simpa using htext.split
    have hval : toI32 (signedValue [] text) = decimalValue text :=
      signedValue_nil (lt_of_toI32_pos hsmall hpos)
    rw [hval] at hpos hle ⊢
    refine ⟨c, text, hdev, ?_, htext.digits, rfl, hnonneg, hlt, hpos, hle, rfl⟩
    rintro rfl
    exact absurd hpos (by decide)

/-- The digits of a text that has no more than digits are all of it. -/
theorem eq_nil_of_digits {text blanks sign ds rest : List UInt8}
    (h : NumberText text blanks sign ds rest) (htext : ∀ d ∈ text, IsDecimal d) :
    blanks = [] ∧ sign = [] ∧ rest = [] := by
  have hmem : ∀ c, c ∈ blanks ∨ c ∈ sign ∨ c ∈ rest → IsDecimal c := by
    intro c hc
    refine htext c ?_
    rw [h.split]
    simp only [List.mem_append]
    tauto
  refine ⟨List.eq_nil_iff_forall_not_mem.mpr fun c hc => ?_, ?_, ?_⟩
  · have hspace := (hmem c (.inl hc)).not_isspace
    exact absurd (h.blanks c hc) (by simp [hspace])
  · rcases h.sign with rfl | rfl | rfl
    · rfl
    · exact absurd (hmem 43 (by simp)) (by decide)
    · exact absurd (hmem 45 (by simp)) (by decide)
  · cases rest with
    | nil => rfl
    | cons c rest =>
      have halnum := (isDecimal_iff.mp (hmem c (by simp))).1
      exact absurd (h.rest c rfl) (by simp [halnum])

/-- **When a device name is parsed exactly**: unless it has blanks or a sign before the number, text
after it or a number too large, and `atoi` comes to the number of a partition all the same. -/
theorem parsesExactly_iff (s : Partitions) (dev : CString) :
    ParsesExactly s dev ↔ ¬Misleads s dev := by
  constructor
  · rintro hexact ⟨c, text, blanks, sign, ds, rest, hdev, htext, hplain, hnonneg, hlt, hpos, hle⟩
    have hsome := parseDevice_eq_some_iff.mpr
      ⟨c, text, blanks, sign, ds, rest, hdev, htext, rfl, hnonneg, hlt, hpos, hle, rfl⟩
    obtain ⟨c', ds', hdev', -, hds', -, -, -, -, hle', -⟩ := (hexact _ _).mp hsome
    obtain ⟨rfl, rfl⟩ : c = c' ∧ text = ds' := by simpa [hdev] using hdev'
    obtain ⟨rfl, rfl, rfl⟩ := eq_nil_of_digits htext hds'
    obtain rfl : text = ds := by simpa using htext.split
    have hcount := getPartitionCount_le s (CString.schar c - 97)
    simp only [ne_eq, not_true_eq_false, false_or] at hplain
    omega
  · exact fun hnot drive part => ⟨names_of_not_misleads hnot, parseDevice_of_names⟩

/-- On a machine with one partition, `sda1-2` is taken for `sda1`. -/
theorem not_parsesExactly_trailing : ¬ParsesExactly onePartition
    ⟨[115, 100, 97, 49, 45, 50], by decide⟩ := by
  intro h
  have hnames := (h 0 0).mp (by decide)
  obtain ⟨c, ds, hdev, -, hds, -⟩ := hnames
  obtain ⟨rfl, rfl⟩ : 97 = c ∧ [49, 45, 50] = ds := by simpa using hdev
  exact absurd (hds 45 (by decide)) (by decide)

end ParseDevice

end LittleLinux
