import LittleLinux.Lib.ChainTable
import LittleLinux.Libc.CString
import LittleLinux.Kernel.Memory

/-!
# The file system's data model

The structures of `ramfs_types.h`. A `char name[128]` is a `CString`, a pointer to a folder
is a `Ptr`, and the pointer to a file's bytes carries the bytes with it: a data buffer is
filled once, when it is allocated, and never written again.

The `type` tags are numbers, not an enumeration, because the folder tags and the file tags
overlap and the code mixes them: `RAMFS_TYPE_NEW` is `RAMFS_FOLDER_TYPE_DISK_CLEAN`.
-/

namespace LittleLinux

/-! ### Type tags -/

def RAMFS_FOLDER_TYPE_MEM : UInt8 := 0
def RAMFS_FOLDER_TYPE_DISK_CLEAN : UInt8 := 1
def RAMFS_FOLDER_TYPE_NEW : UInt8 := 2
def RAMFS_FOLDER_TYPE_DIRTY : UInt8 := 3

def RAMFS_TYPE_MEM : UInt8 := 0
def RAMFS_TYPE_NEW : UInt8 := 1
def RAMFS_TYPE_DIRTY : UInt8 := 2

/-! ### Hash table sizes -/

/-- `RAMFS_HASH_BUCKET_SIZE` and `RAMFS_FILE_BUCKET_SIZE`. -/
def BUCKETS : ℕ := 16

/-! ### Structures -/

/-- A file's data buffer: where it was allocated and what it was filled with. -/
structure Buffer where
  addr : Ptr
  bytes : List UInt8
deriving DecidableEq

/-- `ramfs_file_info`. -/
structure RamfsFileInfo where
  name : CString
  type : UInt8
  length : ℤ
  ptr : Option Buffer
  driveAddr : ℤ
deriving DecidableEq

/-- `ramfs_foder_info`. Every caller stores a non-null `ptr`. -/
structure RamfsFoderInfo where
  name : CString
  type : UInt8
  ptr : Ptr
  driveAddr : ℤ
deriving DecidableEq

/-- `ramfs_hashmap`, the folder table. -/
abbrev RamfsHashmap := ChainTable.Table BUCKETS CString RamfsFoderInfo

/-- `ramfs_file_hashmap`, the file table. -/
abbrev RamfsFileHashmap := ChainTable.Table BUCKETS CString RamfsFileInfo

/-- `ramfs_foder`. The mount pointer is an index into the mount table. -/
structure RamfsFoder where
  name : CString
  type : UInt8
  foderMap : RamfsHashmap
  fileMap : RamfsFileHashmap
  mount : Option ℕ
  parent : Option Ptr
  driveAddr : ℤ
  isMountRoot : Bool

/-- A folder after `memset(.., 0, sizeof(ramfs_foder))`. -/
def RamfsFoder.zero : RamfsFoder where
  name := ⟨[], CString.noNul_nil⟩
  type := 0
  foderMap := ChainTable.Table.empty
  fileMap := ChainTable.Table.empty
  mount := none
  parent := none
  driveAddr := 0
  isMountRoot := false

instance : Inhabited RamfsFoder := ⟨RamfsFoder.zero⟩

/-! ### Sizes of the heap objects -/

def sizeofRamfsFoder : ℕ := 288
def sizeofRamfsHashNode : ℕ := 272
def sizeofRamfsFileHashNode : ℕ := 280

/-! ### The bucket function

Both tables use the same `djb2` over signed characters, in 32-bit arithmetic. -/

/-- `h = ((h << 5) + h) + c`, from 5381, over the characters of the key. -/
def djb2 (key : CString) : UInt32 :=
  key.chars.foldl (fun h c => ((h <<< 5) + h) + c.toInt8.toInt32.toUInt32) 5381

/-- The bucket of a key. -/
def djb2Bucket (key : CString) : Fin BUCKETS :=
  ⟨(djb2 key).toNat % BUCKETS, Nat.mod_lt _ (by decide)⟩

/-- The bounded copy both tables use: at most 127 characters. -/
def strcpy127 (src : CString) : CString where
  chars := src.chars.take 127
  noNul := fun h => src.noNul (List.mem_of_mem_take h)

theorem strcpy127_of_le {s : CString} (h : s.chars.length ≤ 127) : strcpy127 s = s :=
  CString.ext (List.take_of_length_le h)

end LittleLinux
