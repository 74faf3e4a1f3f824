import LittleLinux.Dfs.Store
import LittleLinux.Drivers.Partition
import LittleLinux.Lib.Simulation

/-!
# The partition store over the drivers

The file system is verified over `Store`, in which every partition is a byte array of its own. This
module connects that picture to the drivers below it: `partition_read` and `partition_write` over the
sectors of the AHCI interface. `Shows` relates the two, one request of one machine is simulated by the
same request of the other, and so the two answer every list of requests alike
(`driverStack_refines_store_iff`), when the requests that the drivers refuse for their length are taken for
faults of the store.

They do exactly when no two partitions share a byte of a disk. The table that `parse_mbr` fills may
break this: it lists an extended partition beside the logical ones inside it.
-/

namespace LittleLinux

/-! ### Requests -/

/-- A call of `partition_read`, or of `partition_write` with its buffer. -/
inductive PartRequest where
  | read (id : PartId) (offset : UInt64) (length : Int32)
  | write (id : PartId) (offset : UInt64) (length : Int32) (buffer : Option ByteMemory)

namespace PartRequest

def offset : PartRequest → UInt64
  | read _ offset _ | write _ offset _ _ => offset

def length : PartRequest → Int32
  | read _ _ length | write _ _ length _ => length

/-- The sum of offset and length is one that `uint64_t` holds. -/
def NoWrap (r : PartRequest) : Prop := (r.offset.toNat : ℤ) + r.length.toInt < 2 ^ 64

/-- The request is longer than `ahci_read` and `ahci_write` allow. -/
def TooLong (r : PartRequest) : Prop := 256 < r.length.toInt

instance (r : PartRequest) : Decidable r.TooLong := inferInstanceAs (Decidable (_ < _))

end PartRequest

/-- Whether a request returned 0, and the bytes that a read then put into the buffer. -/
structure PartAnswer where
  ok : Bool
  data : List UInt8

/-- The first bytes of a buffer. -/
def bufferBytes (b : ByteMemory) (length : Int32) : List UInt8 :=
  (List.range length.toInt.toNat).map b

/-- The answer to a read that gives these bytes, or none. -/
def readAnswer (length : Int32) : Option ByteMemory → PartAnswer
  | none => ⟨false, []⟩
  | some b => ⟨true, bufferBytes b length⟩

/-- A request, to the drivers. The buffer of a read is filled from 0. -/
def driverStep (s : Partitions) : PartRequest → PartAnswer × Partitions
  | .read id offset length =>
    let r := partitionRead s id.drive id.part offset.toNat length.toInt fun _ => 0
    (readAnswer length (if r.1 then some r.2.1 else none), r.2.2)
  | .write id offset length buffer =>
    let r := partitionWrite s id.drive id.part offset.toNat length.toInt buffer
    (⟨r.1, []⟩, r.2)

/-- A request, to the store. -/
def storeStep (st : Store) : PartRequest → PartAnswer × Store
  | .read id offset length =>
    let r := st.read id offset.toNat length.toInt
    (readAnswer length r.1, r.2)
  | .write id offset length (some data) =>
    let r := st.write id offset.toNat length.toInt data
    (⟨r.1, []⟩, r.2)
  | .write id _ _ none =>
    let r := st.refuse id
    (⟨r.1, []⟩, r.2)

/-! ### What the drivers show -/

/-- The store has the partitions of the tables, with their bytes. -/
structure Shows (s : Partitions) (st : Store) : Prop where
  sectors : ∀ id, st.sectors id = partitionGetSectorCount s id.drive id.part
  bytes : ∀ id pe, s.entry id.drive id.part = some pe → ∀ x < pe.sectorCount * 512,
    st.bytes id x = s.ahci.drive id.drive (pe.startLba * 512 + x)

/-- No byte of a disk lies in two partitions. -/
def PartitionsApart (s : Partitions) : Prop :=
  ∀ (id id' : PartId) (pe pe' : PartitionEntry), s.entry id.drive id.part = some pe → s.entry id'.drive id'.part = some pe' →
    s.ahci.drivePort id.drive.toNat = s.ahci.drivePort id'.drive.toNat →
    ∀ x < pe.sectorCount * 512, ∀ x' < pe'.sectorCount * 512,
      pe.startLba * 512 + x = pe'.startLba * 512 + x' → id = id'

/-- The store that the drivers show, with that pattern of faults. -/
def shownStore (s : Partitions) (fault : ℕ → Bool) : Store where
  sectors := fun id => partitionGetSectorCount s id.drive id.part
  bytes := fun id x =>
    s.ahci.drive id.drive (((s.entry id.drive id.part).map (·.startLba * 512)).getD 0 + x)
  fault := fault
  requests := 0
  writes := []

theorem shows_shownStore (s : Partitions) (fault : ℕ → Bool) : Shows s (shownStore s fault) where
  sectors := fun _ => rfl
  bytes := fun id pe hpe x _ => by simp only [shownStore, hpe, Option.map_some, Option.getD_some]

/-! ### One request -/

section Step

variable {s s' : Partitions} {st : Store} {id : PartId} {pe : PartitionEntry} {offset : UInt64}
  {length : Int32}

/-- What no request changes. -/
structure SameTables (s s' : Partitions) : Prop where
  drives : s.ahci.SameDrives s'.ahci
  driveParts : s'.driveParts = s.driveParts

theorem SameTables.refl (s : Partitions) : SameTables s s := ⟨.refl _, rfl⟩

theorem SameTables.entry (h : SameTables s s') (drive part : ℤ) :
    s'.entry drive part = s.entry drive part := by
  rw [Partitions.entry, Partitions.entry, h.drives.driveCount, h.driveParts]

theorem SameTables.apart (h : SameTables s s') (hapart : PartitionsApart s) : PartitionsApart s' := by
  intro id id' pe pe' hpe hpe' hport
  rw [h.entry] at hpe hpe'
  rw [h.drives.drivePort] at hport
  exact hapart id id' pe pe' hpe hpe' hport

/-- The disks are the same. -/
theorem Shows.of_disks (h : Shows s st) (hsame : SameTables s s') (hdisks : s'.ahci.disks = s.ahci.disks)
    {st' : Store} (hsectors : st'.sectors = st.sectors) (hbytes : st'.bytes = st.bytes) :
    Shows s' st' where
  sectors := fun id => by
    rw [hsectors, h.sectors, partitionGetSectorCount, partitionGetSectorCount, hsame.entry]
  bytes := fun id pe hpe x hx => by
    rw [hsame.entry] at hpe
    rw [hbytes, h.bytes id pe hpe x hx, Ahci.drive, Ahci.drive, hsame.drives.drivePort, hdisks]

theorem ahciWrite_refuses {a : Ahci} {drive : ℤ} {addr n : ℕ} {buffer : Option ByteMemory}
    (h : ¬(a.Present drive ∧ (0 < n ∧ n ≤ 256) ∧ buffer ≠ none)) :
    ahciWrite a drive addr n buffer = (false, a) := by
  cases buffer with
  | none =>
    rw [ahciWrite]
    split_ifs <;> rfl
  | some data =>
    unfold Ahci.Present at h
    unfold ahciWrite
    split_ifs with h₁ h₂ h₃ h₄
    · rfl
    · rfl
    · rfl
    · rfl
    · refine absurd ⟨⟨by simpa using h₁, ?_, ?_⟩, ⟨?_, ?_⟩, by simp⟩ h
      all_goals omega

/-- What a read leaves behind. -/
theorem sameTables_partitionRead (s : Partitions) (drive part : ℤ) (offset : ℕ) (length : ℤ)
    (buffer : ByteMemory) :
    SameTables s (partitionRead s drive part offset length buffer).2.2 ∧
      (partitionRead s drive part offset length buffer).2.2.ahci.disks = s.ahci.disks := by
  rw [partitionRead]
  cases s.entry drive part with
  | none => exact ⟨.refl s, rfl⟩
  | some pe =>
    dsimp only
    split_ifs
    swap
    · exact ⟨.refl s, rfl⟩
    have hread : s.ahci.SameDrives (ahciRead s.ahci drive (absAddr pe offset) (toU64 length)).2 ∧
        (ahciRead s.ahci drive (absAddr pe offset) (toU64 length)).2.disks = s.ahci.disks := by
      by_cases hok : s.ahci.Present drive ∧ 0 < toU64 length ∧ toU64 length ≤ 256
      · have hspec := ahciRead_spec hok.1 (absAddr_lt pe offset) hok.2.1 hok.2.2
        exact ⟨hspec.same, hspec.disks⟩
      · rw [ahciRead_refused hok]
        exact ⟨.refl _, rfl⟩
    revert hread
    generalize ahciRead s.ahci drive (absAddr pe offset) (toU64 length) = r
    obtain ⟨o, a⟩ := r
    rintro ⟨hsame, hdisks⟩
    cases o with
    | none => exact ⟨⟨hsame, rfl⟩, hdisks⟩
    | some data => exact ⟨⟨hsame, rfl⟩, hdisks⟩

/-- A write that is not admitted leaves everything as it is. -/
theorem partitionWrite_refuses {drive part : ℤ} {offset : ℕ} {length : ℤ} {buffer : Option ByteMemory}
    (hl : -2 ^ 31 ≤ length ∧ length < 2 ^ 31)
    (h : ¬(Admitted s drive part offset length ∧ buffer ≠ none)) :
    partitionWrite s drive part offset length buffer = (false, s) := by
  rw [partitionWrite]
  cases hpe : s.entry drive part with
  | none => rfl
  | some pe =>
    dsimp only
    split_ifs with hin
    swap
    · rfl
    rw [ahciWrite_refuses, Partitions.setAhci]
    rintro ⟨hp, ⟨h₁, h₂⟩, hbuffer⟩
    obtain ⟨hpos, hnat⟩ := toU64_length hl (by omega) h₂
    exact h ⟨⟨hp.1, by omega, pe, hpe, (inBounds_iff hpos hl.2).1 hin⟩, hbuffer⟩

theorem sectors_of_entry (h : Shows s st) (hpe : s.entry id.drive id.part = some pe) :
    st.size id = pe.sectorCount * 512 := by
  rw [Store.size, h.sectors, partitionGetSectorCount, hpe]

/-- The store accepts what the drivers admit. -/
theorem accepts_iff_admitted (h : Shows s st) (hinit : s.ahci.ahciInitialized = true)
    (hwrap : (offset.toNat : ℤ) + length.toInt < 2 ^ 64)
    (hfault : st.fault st.requests = decide (256 < length.toInt)) :
    st.Accepts id offset.toNat length.toInt ↔
      Admitted s id.drive id.part offset.toNat length.toInt := by
  constructor
  · rintro ⟨hok, hpos, hle⟩
    rw [hfault, decide_eq_false_iff_not] at hok
    cases hpe : s.entry id.drive id.part with
    | none =>
      rw [Store.size, h.sectors, partitionGetSectorCount, hpe] at hle
      dsimp only at hle
      omega
    | some pe =>
      rw [sectors_of_entry h hpe] at hle
      exact ⟨hinit, ⟨by omega, by omega⟩, pe, hpe, by omega⟩
  · rintro ⟨-, hlen, pe, hpe, hle⟩
    refine ⟨by rw [hfault, decide_eq_false_iff_not]; omega, by omega, ?_⟩
    rw [sectors_of_entry h hpe]
    omega

/-- The state that an admitted write leaves, and what the store then shows. -/
theorem Shows.write (h : Shows s st) (hrel : s.ahci.Reliable) (hapart : PartitionsApart s)
    (hadm : Admitted s id.drive id.part offset.toNat length.toInt)
    (hwrap : (offset.toNat : ℤ) + length.toInt < 2 ^ 64)
    (hacc : st.Accepts id offset.toNat length.toInt) (data : ByteMemory) :
    (partitionWrite s id.drive id.part offset.toNat length.toInt (some data)).1 = true ∧
      SameTables s (partitionWrite s id.drive id.part offset.toNat length.toInt (some data)).2 ∧
      Shows (partitionWrite s id.drive id.part offset.toNat length.toInt (some data)).2
        (st.write id offset.toNat length.toInt data).2 := by
  have hlen := hadm.2.1
  obtain ⟨pe, hpe, -⟩ := hadm.2.2
  obtain ⟨hsame, hparts, hok, hdisks⟩ := hadm.write_ok hpe data
  obtain ⟨haddr, hrange⟩ := hadm.range hpe hwrap
  have hdisks := hdisks (hok hrel)
  have htables : SameTables s
      (partitionWrite s id.drive id.part offset.toNat length.toInt (some data)).2 := ⟨hsame, hparts⟩
  refine ⟨hok hrel, htables, ⟨fun id' => ?_, fun id' pe' hpe' x hx => ?_⟩⟩
  · rw [Store.write_sectors, h.sectors, partitionGetSectorCount, partitionGetSectorCount,
      htables.entry]
  rw [htables.entry] at hpe'
  have hold := h.bytes id' pe' hpe' x hx
  rw [(Store.write_of_accepts hacc).2, Ahci.drive, hsame.drivePort, hdisks, haddr]
  by_cases hport : s.ahci.drivePort id'.drive.toNat = s.ahci.drivePort id.drive.toNat
  swap
  · -- another disk
    have hne : id' ≠ id := by
      rintro rfl
      exact hport rfl
    rw [Function.update_of_ne hne, Function.update_of_ne hport, hold, Ahci.drive]
  rw [hport, Function.update_self]
  rcases eq_or_ne id' id with rfl | hne
  · obtain rfl := Option.some.inj (hpe.symm.trans hpe')
    rw [Function.update_self]
    by_cases hin : offset.toNat ≤ x ∧ x < offset.toNat + length.toInt.toNat
    · rw [ByteMemory.putBytes_of_mem hin.1 hin.2, ByteMemory.putBytes_of_mem (by omega) (by omega)]
      congr 1
      omega
    · rw [ByteMemory.putBytes_of_notMem (by omega), ByteMemory.putBytes_of_notMem (by omega), hold]
  · rw [Function.update_of_ne hne, hold, ByteMemory.putBytes_of_notMem, Ahci.drive, Ahci.drive, hport]
    -- the bytes written are those of the other partition
    by_contra hin
    rw [not_or, not_lt, not_le] at hin
    refine hne (hapart id' id pe' pe hpe' hpe hport x hx
      (pe'.startLba * 512 + x - pe.startLba * 512) ?_ ?_)
    · omega
    · omega

/-- The drivers and the store that they show: the drivers are set up, their transfers do not fail, and
the partitions are apart. -/
structure StackRel (s : Partitions) (st : Store) : Prop extends Shows s st where
  reliable : s.ahci.Reliable
  initialized : s.ahci.ahciInitialized = true
  apart : PartitionsApart s

theorem StackRel.of_shows (h : StackRel s st) (hsame : SameTables s s') {st' : Store}
    (hshows : Shows s' st') : StackRel s' st' where
  toShows := hshows
  reliable := hsame.drives.reliable h.reliable
  initialized := hsame.drives.ahciInitialized.trans h.initialized
  apart := hsame.apart h.apart

/-- **One request** is answered alike, when the store fails it for its length. -/
theorem StackRel.step (h : StackRel s st) {r : PartRequest} (hwrap : r.NoWrap)
    (hfault : st.fault st.requests = decide r.TooLong) :
    (driverStep s r).1 = (storeStep st r).1 ∧ StackRel (driverStep s r).2 (storeStep st r).2 := by
  cases r with
  | read id offset length =>
    have hiff : st.Accepts id offset.toNat length.toInt ↔
        Admitted s id.drive id.part offset.toNat length.toInt :=
      accepts_iff_admitted h.toShows h.initialized hwrap hfault
    obtain ⟨hsame, hdisks⟩ := sameTables_partitionRead s id.drive id.part offset.toNat length.toInt
      fun _ => 0
    refine ⟨?_, h.of_shows hsame (h.toShows.of_disks hsame hdisks rfl rfl)⟩
    rw [driverStep, storeStep, Store.read]
    by_cases hadm : Admitted s id.drive id.part offset.toNat length.toInt
    · obtain ⟨pe, hpe, -⟩ := hadm.2.2
      have hlen := hadm.2.1
      obtain ⟨haddr, hrange⟩ := hadm.range hpe hwrap
      obtain ⟨hok, hbytes⟩ := hadm.read_ok hpe fun _ => 0
      -- the driver answers the sectors' bytes from the partition's start on
      have hok := hok h.reliable
      dsimp only
      rw [if_pos hok, if_pos (hiff.2 hadm), readAnswer, readAnswer, bufferBytes, bufferBytes]
      congr 1
      refine List.map_congr_left fun i hi => ?_
      rw [List.mem_range] at hi
      rw [hbytes hok i (by omega), haddr, h.bytes id pe hpe _ (by omega), add_assoc]
    · have hno : ¬(partitionRead s id.drive id.part offset.toNat length.toInt fun _ => 0).1 = true :=
        fun hok => hadm (admitted_of_read ⟨length.le_toInt, length.toInt_lt⟩ hok)
      dsimp only
      rw [if_neg hno, if_neg fun hacc => hadm (hiff.1 hacc)]
  | write id offset length buffer =>
    have hiff : st.Accepts id offset.toNat length.toInt ↔
        Admitted s id.drive id.part offset.toNat length.toInt :=
      accepts_iff_admitted h.toShows h.initialized hwrap hfault
    have hl : -2 ^ 31 ≤ length.toInt ∧ length.toInt < 2 ^ 31 := ⟨length.le_toInt, length.toInt_lt⟩
    rw [driverStep]
    cases buffer with
    -- without a buffer `partition_write` refuses, and so does the store
    | none =>
      rw [partitionWrite_refuses hl fun hn => hn.2 rfl]
      exact ⟨rfl, h.of_shows (.refl s) (h.toShows.of_disks (.refl s) rfl rfl rfl)⟩
    | some data =>
      by_cases hadm : Admitted s id.drive id.part offset.toNat length.toInt
      · have hacc := hiff.2 hadm
        obtain ⟨hok, hsame, hshows⟩ := h.toShows.write h.reliable h.apart hadm hwrap hacc data
        refine ⟨?_, h.of_shows hsame hshows⟩
        rw [storeStep]
        dsimp only
        rw [hok, (Store.write_of_accepts hacc).1]
      · have hacc : ¬st.Accepts id offset.toNat length.toInt := fun hacc => hadm (hiff.1 hacc)
        rw [partitionWrite_refuses hl fun hn => hadm hn.1, storeStep]
        have hno : (st.write id offset.toNat length.toInt data).1 = false := decide_eq_false hacc
        refine ⟨by dsimp only; rw [hno], ?_⟩
        exact h.of_shows (.refl s) (h.toShows.of_disks (.refl s) rfl rfl (Store.write_eq_false hno))

end Step

/-! ### Runs -/

/-- The requests of a list that are too long for the drivers, as faults of the store. -/
def lengthFaults (requests : List PartRequest) (n : ℕ) : Bool :=
  (requests[n]?).any fun r => decide r.TooLong

/-- Along a run the store and the drivers go on to answer alike. -/
theorem StackRel.answers_eq {s : Partitions} {st : Store} (h : StackRel s st)
    {requests : List PartRequest} (hwrap : ∀ r ∈ requests, r.NoWrap)
    (hfault : ∀ n < requests.length, st.fault (st.requests + n) = lengthFaults requests n) :
    answers driverStep s requests = answers storeStep st requests := by
  induction requests generalizing s st with
  | nil => rfl
  | cons r requests ih =>
    have hfirst : st.fault st.requests = decide r.TooLong := by
      have := hfault 0 (by simp)
      simpa [lengthFaults] using this
    obtain ⟨hanswer, hnext⟩ := h.step (hwrap r List.mem_cons_self) hfirst
    have hcount : (storeStep st r).2.requests = st.requests + 1 ∧
        (storeStep st r).2.fault = st.fault := by
      cases r with
      | read id offset length => exact ⟨rfl, rfl⟩
      | write id offset length buffer => cases buffer <;> exact ⟨rfl, rfl⟩
    rw [answers, answers, hanswer, ih hnext (fun r hr => hwrap r (List.mem_cons_of_mem _ hr)) ?_]
    intro n hn
    have := hfault (n + 1) (by simpa using hn)
    rw [hcount.1, hcount.2, add_assoc, add_comm 1 n, this]
    simp [lengthFaults]

/-! ### When the drivers are a store -/

/-- Whatever is asked of the drivers without a wrap, a store answers alike that fails the requests of
more than 256 bytes and no other. -/
def ActsAsStore (s : Partitions) : Prop :=
  ∀ requests : List PartRequest, (∀ r ∈ requests, r.NoWrap) →
    answers driverStep s requests = answers storeStep (shownStore s (lengthFaults requests)) requests

section Overlap

variable {s : Partitions} {id id' : PartId} {pe pe' : PartitionEntry} {x x' : ℕ}

/-- A request for one byte of a partition. -/
theorem admitted_byte (hinit : s.ahci.ahciInitialized = true)
    (hpe : s.entry id.drive id.part = some pe) (hx : x < pe.sectorCount * 512) :
    (UInt64.ofNat x).toNat = x ∧ ((UInt64.ofNat x).toNat : ℤ) + (1 : Int32).toInt < 2 ^ 64 ∧
      Admitted s id.drive id.part (UInt64.ofNat x).toNat (1 : Int32).toInt := by
  have hcount := pe.sectorCount_lt
  have hone : (1 : Int32).toInt = 1 := rfl
  have hoffset : (UInt64.ofNat x).toNat = x :=
    UInt64.toNat_ofNat_of_lt' (by simp [UInt64.size]; omega)
  rw [hoffset, hone]
  exact ⟨rfl, by omega, hinit, by omega, pe, hpe, by omega⟩

/-- The drivers write one byte. -/
theorem driverStep_write_byte (hrel : s.ahci.Reliable) (hinit : s.ahci.ahciInitialized = true)
    (hpe : s.entry id.drive id.part = some pe) (hx : x < pe.sectorCount * 512) (v : UInt8) :
    (driverStep s (.write id (.ofNat x) 1 (some fun _ => v))).1 = ⟨true, []⟩ ∧
      SameTables s (driverStep s (.write id (.ofNat x) 1 (some fun _ => v))).2 ∧
      (driverStep s (.write id (.ofNat x) 1 (some fun _ => v))).2.ahci.disks
        (s.ahci.drivePort id.drive.toNat) (pe.startLba * 512 + x) = v := by
  obtain ⟨hoffset, hwrap, hadm⟩ := admitted_byte hinit hpe hx
  obtain ⟨hsame, hparts, hok, hdisks⟩ := hadm.write_ok hpe fun _ => v
  obtain ⟨haddr, -⟩ := hadm.range hpe hwrap
  rw [driverStep]
  refine ⟨?_, ⟨hsame, hparts⟩, ?_⟩
  · dsimp only
    rw [hok hrel]
  · dsimp only
    rw [hdisks (hok hrel), Function.update_self, haddr, hoffset]
    exact ByteMemory.putBytes_of_mem (le_refl _) (Nat.lt_succ_self _)

/-- The drivers read one byte. -/
theorem driverStep_read_byte (hrel : s.ahci.Reliable) (hinit : s.ahci.ahciInitialized = true)
    (hpe : s.entry id.drive id.part = some pe) (hx : x < pe.sectorCount * 512) :
    (driverStep s (.read id (.ofNat x) 1)).1 =
      ⟨true, [s.ahci.drive id.drive (pe.startLba * 512 + x)]⟩ := by
  obtain ⟨hoffset, hwrap, hadm⟩ := admitted_byte hinit hpe hx
  obtain ⟨hok, hbytes⟩ := hadm.read_ok hpe fun _ => 0
  obtain ⟨haddr, -⟩ := hadm.range hpe hwrap
  have hok := hok hrel
  have hread := hbytes hok 0 Int.zero_lt_one
  rw [haddr, hoffset, add_zero] at hread
  rw [hoffset] at hok
  rw [driverStep, hoffset]
  dsimp only
  rw [if_pos hok, readAnswer, ← hread]
  rfl

/-- The store reads one byte, or fails. -/
theorem storeStep_read_byte {st : Store} {v : UInt8} (hoffset : (UInt64.ofNat x).toNat = x)
    (h : (storeStep st (.read id (.ofNat x) 1)).1 = ⟨true, [v]⟩) : st.bytes id x = v := by
  rw [storeStep] at h
  dsimp only at h
  cases hread : (st.read id (UInt64.ofNat x).toNat (1 : Int32).toInt).1 with
  | none =>
    rw [hread] at h
    exact absurd (congrArg PartAnswer.ok h) (by simp [readAnswer])
  | some b =>
    rw [hread] at h
    obtain ⟨-, rfl⟩ := Store.read_eq_some hread
    have hdata := congrArg PartAnswer.data h
    rw [hoffset] at hdata
    exact (List.cons.inj hdata).1

/-- A byte that lies in two partitions is written through the one, and read through the other. -/
theorem ActsAsStore.apart (hrel : s.ahci.Reliable) (hinit : s.ahci.ahciInitialized = true)
    (h : ActsAsStore s) : PartitionsApart s := by
  intro id id' pe pe' hpe hpe' hport x hx x' hx' hbyte
  by_contra hne
  set old := s.ahci.drive id.drive (pe.startLba * 512 + x) with hold
  obtain ⟨hoffset, hwrap, -⟩ := admitted_byte hinit hpe hx
  obtain ⟨hoffset', hwrap', -⟩ := admitted_byte hinit hpe' hx'
  have heq := h [.write id (.ofNat x) 1 (some fun _ => old + 1), .read id' (.ofNat x') 1] (by
    simp only [List.mem_cons, List.not_mem_nil, or_false, forall_eq_or_imp, forall_eq]
    exact ⟨hwrap, hwrap'⟩)
  obtain ⟨-, hsame, hbyteNew⟩ := driverStep_write_byte hrel hinit hpe hx (old + 1)
  have hread := driverStep_read_byte (hsame.drives.reliable hrel)
    (hsame.drives.ahciInitialized.trans hinit) ((hsame.entry _ _).trans hpe') hx'
  rw [Ahci.drive, hsame.drives.drivePort, ← hport, ← hbyte, hbyteNew] at hread
  have hlast := congrArg (fun l => l[1]?) heq
  simp only [answers, List.getElem?_cons_succ, List.getElem?_cons_zero, Option.some.injEq] at hlast
  rw [hread] at hlast
  -- the store has kept the byte of the other partition
  have hkept := storeStep_read_byte hoffset' hlast.symm
  rw [storeStep] at hkept
  dsimp only at hkept
  rw [Store.write_bytes_of_ne (Ne.symm hne), (shows_shownStore s _).bytes id' pe' hpe' x' hx',
    ← hbyte, Ahci.drive, ← hport] at hkept
  exact add_one_ne old hkept.symm

end Overlap

/-- **When the drivers are a store.** With drivers that are set up and transfers that do not fail, every
list of requests that do not wrap is answered by the drivers as by a store, of a byte array for each
partition, that fails the requests of more than 256 bytes, exactly when no byte of a disk lies in two
partitions. -/
theorem driverStack_refines_store_iff (s : Partitions) (hrel : s.ahci.Reliable)
    (hinit : s.ahci.ahciInitialized = true) : ActsAsStore s ↔ PartitionsApart s := by
  refine ⟨fun h => h.apart hrel hinit, fun hapart requests hwrap => ?_⟩
  have hstack : StackRel s (shownStore s (lengthFaults requests)) :=
    ⟨shows_shownStore s _, hrel, hinit, hapart⟩
  refine hstack.answers_eq hwrap fun n _ => ?_
  change lengthFaults requests (0 + n) = _
  rw [zero_add]

/-- A drive with one partition. -/
theorem driverStack_refines_store_iff_onePartition : ActsAsStore onePartition := by
  have hone : ∀ (id : PartId) (pe : PartitionEntry), onePartition.entry id.drive id.part = some pe →
      id.drive = 0 ∧ id.part = 0 := by
    intro id pe hpe
    obtain ⟨hlo, hhi⟩ := Partitions.entry_eq_some hpe
    have hcount : onePartition.ahci.driveCount = 1 := rfl
    rw [Partitions.entry] at hpe
    split_ifs at hpe with hout
    obtain ⟨hindex, -⟩ := List.getElem?_eq_some_iff.1 hpe
    have hlen : (onePartition.driveParts id.drive.toNat).parts.length = 1 := rfl
    omega
  refine (driverStack_refines_store_iff onePartition (fun _ => rfl) rfl).2 ?_
  rintro ⟨d, p⟩ ⟨d', p'⟩ pe pe' hpe hpe' - x - x' - -
  obtain ⟨rfl, rfl⟩ := hone _ pe hpe
  obtain ⟨rfl, rfl⟩ := hone _ pe' hpe'
  rfl

end LittleLinux
