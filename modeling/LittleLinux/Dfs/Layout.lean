import LittleLinux.Dfs.Store
import LittleLinux.Libc.CString

/-!
# The on-disk layout

The two structures of `dfs.h` that live on the disk, as the compiler for the target lays them
out: the superblock at the start of the partition (seven 32-bit numbers and 508 reserved
bytes) and the folder record (a name, three 32-bit numbers, 128 subfolder entries of 132 bytes
and 128 file entries of 140 bytes). `encode` gives the bytes of a structure, `decode` reads
them back, and the round trips hold for every structure whose fields fit (`Superblock.Fits`,
`DiskFolder.Fits`).
-/

namespace LittleLinux

open ByteMemory

/-! ### Constants -/

def DFS_MAGIC : ℕ := 0x44465300
def DFS_BLOCK_SIZE : ℕ := 1024
def DFS_MAX_FOLDERS : ℕ := 4096
def DFS_MAX_SUB_ENTRIES : ℕ := 128

def sizeofSuperblock : ℕ := 536
def sizeofDiskFoderInfo : ℕ := 132
def sizeofDiskFileInfo : ℕ := 140
def sizeofDiskFolder : ℕ := 34956

/-- Where `subfolders` and `files` start in a folder record. -/
def subfoldersOffset : ℕ := 140
def filesOffset : ℕ := 17036

/-! ### The superblock -/

/-- `dfs_superblock`, without its reserved bytes. -/
structure Superblock where
  magic : ℕ
  totalFolders : ℕ
  curFolders : ℕ
  rootPointer : ℕ
  bitmapStart : ℕ
  dataStart : ℕ
  blockCount : ℕ
deriving DecidableEq

namespace Superblock

/-- Every field is a 32-bit number. -/
structure Fits (sb : Superblock) : Prop where
  magic : sb.magic < 2 ^ 32
  totalFolders : sb.totalFolders < 2 ^ 32
  curFolders : sb.curFolders < 2 ^ 32
  rootPointer : sb.rootPointer < 2 ^ 32
  bitmapStart : sb.bitmapStart < 2 ^ 32
  dataStart : sb.dataStart < 2 ^ 32
  blockCount : sb.blockCount < 2 ^ 32

/-- The bytes of a superblock over `memset(&sb, 0, sizeof(sb))`. -/
def encode (sb : Superblock) : ByteMemory :=
  ((((((ByteMemory.putLE (fun _ => 0) 0 4 sb.magic).putLE 4 4 sb.totalFolders).putLE 8 4
    sb.curFolders).putLE 12 4 sb.rootPointer).putLE 16 4 sb.bitmapStart).putLE 20 4
    sb.dataStart).putLE 24 4 sb.blockCount

/-- The superblock that a buffer holds. -/
def decode (b : ByteMemory) : Superblock where
  magic := b.getLE 0 4
  totalFolders := b.getLE 4 4
  curFolders := b.getLE 8 4
  rootPointer := b.getLE 12 4
  bitmapStart := b.getLE 16 4
  dataStart := b.getLE 20 4
  blockCount := b.getLE 24 4

theorem decode_fits (b : ByteMemory) : (decode b).Fits := by
  constructor <;> exact getLE_lt _ _ 4

theorem decode_encode {sb : Superblock} (h : sb.Fits) : decode (encode sb) = sb := by
  obtain ⟨h₁, h₂, h₃, h₄, h₅, h₆, h₇⟩ := h
  obtain ⟨m, t, c, r, b, d, n⟩ := sb
  simp (disch := norm_num) only [decode, encode, getLE_putLE, getLE_putLE_of_disjoint]
  simp only [mk.injEq]
  refine ⟨?_, ?_, ?_, ?_, ?_, ?_, ?_⟩ <;> exact Nat.mod_eq_of_lt (by norm_num; assumption)

/-- Only the first 28 bytes matter. -/
theorem decode_congr {b b' : ByteMemory} (h : ∀ i < 28, b i = b' i) : decode b = decode b' := by
  have hget : ∀ a, a + 4 ≤ 28 → b.getLE a 4 = b'.getLE a 4 := fun a ha =>
    getLE_congr fun i hi => h (a + i) (by omega)
  simp only [decode, mk.injEq]
  exact ⟨hget 0 (by omega), hget 4 (by omega), hget 8 (by omega), hget 12 (by omega),
    hget 16 (by omega), hget 20 (by omega), hget 24 (by omega)⟩

end Superblock

/-! ### Folder records -/

/-- `dfs_disk_foder_info`. -/
structure DiskFoderInfo where
  name : CString
  driveAddr : ℤ
deriving DecidableEq

/-- `dfs_disk_file_info`. -/
structure DiskFileInfo where
  name : CString
  length : ℤ
  driveAddr : ℤ
deriving DecidableEq

/-- `dfs_disk_folder`; the two counters are the lengths of the lists. -/
structure DiskFolder where
  name : CString
  used : ℕ
  subfolders : List DiskFoderInfo
  files : List DiskFileInfo
deriving DecidableEq

/-- A name as it lies in a zeroed `char[128]`. -/
def nameByte (name : CString) (i : ℕ) : UInt8 := name.chars.getD i 0

/-- The characters from `off` on, up to a NUL or the end of the buffer, `n` bytes away. -/
def charsAt (b : ByteMemory) : ℕ → ℕ → List UInt8
  | 0, _ => []
  | n + 1, off => if b off = 0 then [] else b off :: charsAt b n (off + 1)

theorem zero_notMem_charsAt (b : ByteMemory) : ∀ n off, (0 : UInt8) ∉ charsAt b n off
  | 0, _ => by simp [charsAt]
  | n + 1, off => by
    rw [charsAt]
    split_ifs with h
    · simp
    · rintro hm
      rcases List.mem_cons.mp hm with h0 | hm
      · exact h h0.symm
      · exact zero_notMem_charsAt b n (off + 1) hm

/-- The string at offset `off` of a folder record. -/
def nameAt (b : ByteMemory) (off : ℕ) : CString :=
  ⟨charsAt b (sizeofDiskFolder - off) off, zero_notMem_charsAt b _ _⟩

theorem charsAt_eq {b : ByteMemory} : ∀ {l : List UInt8} {n off : ℕ}, (0 : UInt8) ∉ l →
    l.length < n → (∀ i ≤ l.length, b (off + i) = l.getD i 0) → charsAt b n off = l
  | [], n + 1, off, _, _, h => by
    have h0 : b off = 0 := by simpa using h 0 (by simp)
    rw [charsAt, if_pos h0]
  | c :: l, n + 1, off, hz, hn, h => by
    have h0 : b off = c := by simpa using h 0 (by simp)
    have hc : c ≠ 0 := fun hc => hz (by simp [hc])
    rw [charsAt, h0, if_neg hc]
    refine congrArg (List.cons c) (charsAt_eq (fun hm => hz (List.mem_cons_of_mem c hm)) ?_ ?_)
    · simpa using hn
    · intro i hi
      have := h (i + 1) (by simpa using hi)
      rw [show off + 1 + i = off + (i + 1) by omega, this]
      simp

/-- A name stored in a 128-byte field is read back. -/
theorem nameAt_eq {b : ByteMemory} {name : CString} {off : ℕ} (hlen : name.chars.length < 128)
    (hoff : off + 128 ≤ sizeofDiskFolder) (h : ∀ i < 128, b (off + i) = nameByte name i) :
    nameAt b off = name :=
  CString.ext (charsAt_eq name.noNul (by omega) fun i hi => h i (by omega))

theorem charsAt_congr {b b' : ByteMemory} : ∀ {n off : ℕ}, (∀ i < n, b (off + i) = b' (off + i)) →
    charsAt b n off = charsAt b' n off
  | 0, _, _ => rfl
  | n + 1, off, h => by
    have h0 : b off = b' off := by simpa using h 0 (by omega)
    rw [charsAt, charsAt, h0]
    have hrest : charsAt b n (off + 1) = charsAt b' n (off + 1) :=
      charsAt_congr fun i hi => by
        have := h (i + 1) (by omega)
        rwa [show off + 1 + i = off + (i + 1) by omega]
    rw [hrest]

theorem nameAt_congr {b b' : ByteMemory} (h : ∀ i < sizeofDiskFolder, b i = b' i) (off : ℕ) :
    nameAt b off = nameAt b' off :=
  CString.ext (charsAt_congr fun i hi => h (off + i) (by omega))

namespace DiskFolder

/-- Byte `j` of a subfolder entry. -/
def subfolderByte (e : DiskFoderInfo) (j : ℕ) : UInt8 :=
  if j < 128 then nameByte e.name j else leByte (toU32 e.driveAddr) (j - 128)

/-- Byte `j` of a file entry. -/
def fileByte (e : DiskFileInfo) (j : ℕ) : UInt8 :=
  if j < 128 then nameByte e.name j
  else if j < 136 then leByte (toU64 e.length) (j - 128)
  else leByte (toU32 e.driveAddr) (j - 136)

/-- The bytes of a folder record over `memset(&disk_f, 0, sizeof(disk_f))`. -/
def encode (f : DiskFolder) : ByteMemory := fun off =>
  if off < 128 then nameByte f.name off
  else if off < 132 then leByte f.used (off - 128)
  else if off < 136 then leByte f.subfolders.length (off - 132)
  else if off < subfoldersOffset then leByte f.files.length (off - 136)
  else if off < filesOffset then
    match f.subfolders[(off - subfoldersOffset) / sizeofDiskFoderInfo]? with
    | some e => subfolderByte e ((off - subfoldersOffset) % sizeofDiskFoderInfo)
    | none => 0
  else
    match f.files[(off - filesOffset) / sizeofDiskFileInfo]? with
    | some e => fileByte e ((off - filesOffset) % sizeofDiskFileInfo)
    | none => 0

/-- `subfolders[i]` of the record in a buffer. -/
def subfolderAt (b : ByteMemory) (i : ℕ) : DiskFoderInfo :=
  let off := subfoldersOffset + sizeofDiskFoderInfo * i
  ⟨nameAt b off, toI32 (b.getLE (off + 128) 4)⟩

/-- `files[i]` of the record in a buffer. -/
def fileAt (b : ByteMemory) (i : ℕ) : DiskFileInfo :=
  let off := filesOffset + sizeofDiskFileInfo * i
  ⟨nameAt b off, toI64 (b.getLE (off + 128) 8), toI32 (b.getLE (off + 136) 4)⟩

/-- The record that a buffer holds. -/
def decode (b : ByteMemory) : DiskFolder where
  name := nameAt b 0
  used := b.getLE 128 4
  subfolders := (List.range (b.getLE 132 4)).map (subfolderAt b)
  files := (List.range (b.getLE 136 4)).map (fileAt b)

/-- The fields fit their places in the record. -/
structure Fits (f : DiskFolder) : Prop where
  name : f.name.chars.length < 128
  used : f.used < 2 ^ 32
  subfolders_le : f.subfolders.length ≤ DFS_MAX_SUB_ENTRIES
  files_le : f.files.length ≤ DFS_MAX_SUB_ENTRIES
  subfolders : ∀ e ∈ f.subfolders, e.name.chars.length < 128 ∧ toI32 e.driveAddr = e.driveAddr
  files : ∀ e ∈ f.files, e.name.chars.length < 128 ∧ toI64 e.length = e.length ∧
    toI32 e.driveAddr = e.driveAddr

end DiskFolder

/-- A signed number survives its trip through the unsigned bytes of the same width. -/
theorem toI32_toU32 {x : ℤ} (h : toI32 x = x) : toI32 (toU32 x) = x := by
  have hu : ((toU32 x : ℕ) : ℤ) = x % ((2 ^ 32 : ℕ) : ℤ) := by
    unfold toU32
    push_cast
    omega
  rw [hu]
  unfold toI32 at h ⊢
  rw [Int.emod_bmod, h]

theorem toI64_toU64 {x : ℤ} (h : toI64 x = x) : toI64 (toU64 x) = x := by
  have hu : ((toU64 x : ℕ) : ℤ) = x % ((2 ^ 64 : ℕ) : ℤ) := by
    unfold toU64
    push_cast
    omega
  rw [hu]
  unfold toI64 at h ⊢
  rw [Int.emod_bmod, h]

theorem toU64_lt (x : ℤ) : toU64 x < 2 ^ 64 := by
  unfold toU64
  omega

namespace DiskFolder

/-! ### The round trip -/

theorem encode_subfolder {f : DiskFolder} {i j : ℕ} {e : DiskFoderInfo}
    (he : f.subfolders[i]? = some e) (hi : i < DFS_MAX_SUB_ENTRIES) (hj : j < sizeofDiskFoderInfo) :
    encode f (subfoldersOffset + sizeofDiskFoderInfo * i + j) = subfolderByte e j := by
  simp only [subfoldersOffset, sizeofDiskFoderInfo, DFS_MAX_SUB_ENTRIES] at *
  have hdiv : (140 + 132 * i + j - 140) / 132 = i := by omega
  have hmod : (140 + 132 * i + j - 140) % 132 = j := by omega
  rw [encode, if_neg (by omega), if_neg (by omega), if_neg (by omega),
    if_neg (by simp only [subfoldersOffset]; omega), if_pos (by simp only [filesOffset]; omega)]
  simp only [subfoldersOffset, sizeofDiskFoderInfo, hdiv, hmod, he]

theorem encode_file {f : DiskFolder} {i j : ℕ} {e : DiskFileInfo} (he : f.files[i]? = some e)
    (hj : j < sizeofDiskFileInfo) :
    encode f (filesOffset + sizeofDiskFileInfo * i + j) = fileByte e j := by
  simp only [sizeofDiskFileInfo] at hj ⊢
  have hdiv : (filesOffset + 140 * i + j - filesOffset) / 140 = i := by omega
  have hmod : (filesOffset + 140 * i + j - filesOffset) % 140 = j := by omega
  have hge : 17036 ≤ filesOffset + 140 * i + j := by
    simp only [filesOffset]
    omega
  rw [encode, if_neg (by omega), if_neg (by omega), if_neg (by omega),
    if_neg (by simp only [subfoldersOffset]; omega), if_neg (by omega)]
  simp only [sizeofDiskFileInfo, hdiv, hmod, he]

theorem subfolderAt_encode {f : DiskFolder} (hf : f.Fits) {i : ℕ} {e : DiskFoderInfo}
    (he : f.subfolders[i]? = some e) : subfolderAt (encode f) i = e := by
  have hi : i < DFS_MAX_SUB_ENTRIES := (List.getElem?_eq_some_iff.mp he).1.trans_le hf.subfolders_le
  obtain ⟨hname, haddr⟩ := hf.subfolders e (List.mem_of_getElem? he)
  have hbyte : ∀ j < 132, encode f (subfoldersOffset + sizeofDiskFoderInfo * i + j) =
      subfolderByte e j := fun j hj => encode_subfolder he hi hj
  obtain ⟨name, addr⟩ := e
  simp only [subfolderAt, DiskFoderInfo.mk.injEq]
  constructor
  · refine nameAt_eq hname ?_ fun j hj => ?_
    · simp only [subfoldersOffset, sizeofDiskFoderInfo, sizeofDiskFolder, DFS_MAX_SUB_ENTRIES] at *
      omega
    · rw [hbyte j (by omega), subfolderByte, if_pos hj]
  · rw [getLE_eq (v := toU32 addr) (toU32_lt addr) fun j hj => ?_]
    · exact toI32_toU32 haddr
    · rw [Nat.add_assoc, hbyte _ (by omega), subfolderByte, if_neg (by omega), Nat.add_sub_cancel_left]

theorem fileAt_encode {f : DiskFolder} (hf : f.Fits) {i : ℕ} {e : DiskFileInfo}
    (he : f.files[i]? = some e) : fileAt (encode f) i = e := by
  have hi : i < DFS_MAX_SUB_ENTRIES := (List.getElem?_eq_some_iff.mp he).1.trans_le hf.files_le
  obtain ⟨hname, hlength, haddr⟩ := hf.files e (List.mem_of_getElem? he)
  have hbyte : ∀ j < 140, encode f (filesOffset + sizeofDiskFileInfo * i + j) = fileByte e j :=
    fun j hj => encode_file he hj
  obtain ⟨name, length, addr⟩ := e
  simp only [fileAt, DiskFileInfo.mk.injEq]
  refine ⟨?_, ?_, ?_⟩
  · refine nameAt_eq hname ?_ fun j hj => ?_
    · simp only [filesOffset, sizeofDiskFileInfo, sizeofDiskFolder, DFS_MAX_SUB_ENTRIES] at *
      omega
    · rw [hbyte j (by omega), fileByte, if_pos hj]
  · rw [getLE_eq (v := toU64 length) (toU64_lt length) fun j hj => ?_]
    · exact toI64_toU64 hlength
    · rw [Nat.add_assoc, hbyte _ (by omega), fileByte, if_neg (by omega), if_pos (by omega),
        Nat.add_sub_cancel_left]
  · rw [getLE_eq (v := toU32 addr) (toU32_lt addr) fun j hj => ?_]
    · exact toI32_toU32 haddr
    · rw [Nat.add_assoc, hbyte _ (by omega), fileByte, if_neg (by omega), if_neg (by omega),
        Nat.add_sub_cancel_left]

/-- Reading the entries of a list one by one gives the list. -/
private theorem map_range_eq {α : Type} {l : List α} {g : ℕ → α}
    (h : ∀ i a, l[i]? = some a → g i = a) : (List.range l.length).map g = l := by
  refine List.ext_getElem (by simp) fun i h₁ h₂ => ?_
  rw [List.getElem_map, List.getElem_range]
  exact h i _ (List.getElem?_eq_getElem h₂)

/-- **A record that fits survives the disk.** -/
theorem decode_encode {f : DiskFolder} (hf : f.Fits) : decode (encode f) = f := by
  have hsub := hf.subfolders_le
  have hfile := hf.files_le
  simp only [DFS_MAX_SUB_ENTRIES] at hsub hfile
  have hname : nameAt (encode f) 0 = f.name := by
    refine nameAt_eq hf.name (by decide) fun i hi => ?_
    rw [Nat.zero_add, encode, if_pos hi]
  have hused : (encode f).getLE 128 4 = f.used := by
    refine getLE_eq hf.used fun i hi => ?_
    rw [encode, if_neg (by omega), if_pos (by omega), Nat.add_sub_cancel_left]
  have hsubs : (encode f).getLE 132 4 = f.subfolders.length := by
    refine getLE_eq (by omega) fun i hi => ?_
    rw [encode, if_neg (by omega), if_neg (by omega), if_pos (by omega), Nat.add_sub_cancel_left]
  have hfiles : (encode f).getLE 136 4 = f.files.length := by
    refine getLE_eq (by omega) fun i hi => ?_
    rw [encode, if_neg (by omega), if_neg (by omega), if_neg (by omega),
      if_pos (by simp only [subfoldersOffset]; omega), Nat.add_sub_cancel_left]
  obtain ⟨name, used, subs, files⟩ := f
  simp only [decode, mk.injEq]
  refine ⟨hname, hused, ?_, ?_⟩
  · rw [hsubs]
    exact map_range_eq fun i e he => subfolderAt_encode hf he
  · rw [hfiles]
    exact map_range_eq fun i e he => fileAt_encode hf he

/-- A record whose counters are in range depends on its own bytes only. -/
theorem decode_congr {b b' : ByteMemory} (h : ∀ i < sizeofDiskFolder, b i = b' i)
    (hsub : b.getLE 132 4 ≤ DFS_MAX_SUB_ENTRIES) (hfile : b.getLE 136 4 ≤ DFS_MAX_SUB_ENTRIES) :
    decode b = decode b' := by
  have hget : ∀ a n, a + n ≤ sizeofDiskFolder → b.getLE a n = b'.getLE a n := fun a n han =>
    getLE_congr fun i hi => h (a + i) (by omega)
  have hname := nameAt_congr h
  simp only [DFS_MAX_SUB_ENTRIES] at hsub hfile
  simp only [decode, mk.injEq]
  refine ⟨hname 0, hget 128 4 (by decide), ?_, ?_⟩
  · rw [← hget 132 4 (by decide)]
    refine List.map_congr_left fun i hi => ?_
    rw [List.mem_range] at hi
    rw [subfolderAt, subfolderAt, hname, hget]
    simp only [subfoldersOffset, sizeofDiskFoderInfo, sizeofDiskFolder]
    omega
  · rw [← hget 136 4 (by decide)]
    refine List.map_congr_left fun i hi => ?_
    rw [List.mem_range] at hi
    simp only [filesOffset, sizeofDiskFileInfo, fileAt, hname]
    rw [hget _ 8, hget _ 4] <;> simp only [sizeofDiskFolder] <;> omega

end DiskFolder

/-! ### Disk images -/

/-- The bytes of a partition that holds a superblock, and folder records at the given offsets. -/
def imageBytes (sb : Superblock) (records : List (ℕ × DiskFolder)) : ByteMemory := fun x =>
  match records.find? fun r => r.1 ≤ x ∧ x < r.1 + sizeofDiskFolder with
  | some r => r.2.encode (x - r.1)
  | none => sb.encode x

/-- A store without faults whose partitions all hold such an image. -/
def imageStore (sb : Superblock) (records : List (ℕ × DiskFolder)) : Store where
  sectors := fun _ => 4096
  bytes := fun _ => imageBytes sb records
  fault := fun _ => false
  requests := 0
  writes := []

end LittleLinux
