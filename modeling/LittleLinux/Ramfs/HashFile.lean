import LittleLinux.Ramfs.Hash

/-!
# The file hash table

`ramfs_hash_file.c`: the file table of a directory. It is the folder table over again, but
for the comparison routine: `_file_streq` compares lengths and then asks `memcmp`, and
`memcmp` never answers that its first argument is the larger. So a stored key is taken for
the key in hand whenever it is as long and no byte of it is smaller (`fileStreq_iff`).

A stored key that is so mistaken *shadows* the key in hand (`Shadows`). Along a run in which
no call meets a shadowing key in its bucket, the table is the finite map of its history
(`ramfsFileHashmap_refines_map`); `ramfsFileHashmap_finds_absent_key` is a run of one
insertion after which a key that was never inserted is found.
-/

namespace LittleLinux

open ChainTable

/-! ### The helper routines -/

/-- `_file_streq`. -/
def fileStreq (a b : CString) : Bool :=
  if strlen a.chars ≠ strlen b.chars then false
  else decide (memcmp a.chars b.chars (strlen a.chars) = 0)

/-- What `_file_streq` tests: equal lengths, and no byte of the first string smaller. -/
theorem fileStreq_iff (a b : CString) :
    fileStreq a b = true ↔ a.chars.length = b.chars.length ∧
      ∀ i < a.chars.length, b.chars.getD i 0 ≤ a.chars.getD i 0 := by
  simp only [fileStreq, strlen_chars]
  split
  next h => simp [h]
  next h =>
    rw [not_not] at h
    simp [memcmp_eq_zero_iff, h]

/-- The stored key `k'` is taken for `k`, though it is another key. -/
def Shadows (k' k : CString) : Prop :=
  k' ≠ k ∧ k'.chars.length = k.chars.length ∧
    ∀ i < k'.chars.length, k.chars.getD i 0 ≤ k'.chars.getD i 0

instance : DecidableRel Shadows := fun k' k => by
  unfold Shadows
  infer_instance

/-- No stored key of the bucket of `k` shadows `k`. -/
def Unshadowed (map : RamfsFileHashmap) (k : CString) : Prop :=
  ∀ nd ∈ map.buckets (djb2Bucket k), ¬ Shadows nd.key k

instance (map : RamfsFileHashmap) (k : CString) : Decidable (Unshadowed map k) := by
  unfold Unshadowed
  infer_instance

/-! ### The operations -/

/-- The file table: `_file_streq`, `sizeof(ramfs_file_hash_node)`, and the `name` field. -/
def fileTable : NamedTable RamfsFileInfo where
  streq := fileStreq
  nodeSize := sizeofRamfsFileHashNode
  setName := fun name value => { value with name := name }

/-- `ramfs_file_hashmap_init`. -/
def ramfsFileHashmapInit : RamfsFileHashmap := Table.empty

/-- `ramfs_file_hashmap_find`. -/
def ramfsFileHashmapFind (map : RamfsFileHashmap) (key : CString) : Option RamfsFileInfo :=
  fileTable.find map key

/-- A store through the pointer that `ramfs_file_hashmap_find` returned for `key`. -/
def ramfsFileHashmapModify (map : RamfsFileHashmap) (key : CString)
    (f : RamfsFileInfo → RamfsFileInfo) : RamfsFileHashmap :=
  fileTable.modify map key f

/-- `ramfs_file_hashmap_insert`. -/
def ramfsFileHashmapInsert (mem : Memory) (map : RamfsFileHashmap) (key : CString)
    (value : RamfsFileInfo) : Bool × RamfsFileHashmap × Memory :=
  fileTable.insert mem map key value

/-- `ramfs_file_hashmap_delete`. -/
def ramfsFileHashmapDelete (mem : Memory) (map : RamfsFileHashmap) (key : CString) :
    Bool × RamfsFileHashmap × Memory :=
  fileTable.delete mem map key

/-- `ramfs_file_hashmap_list`. -/
def ramfsFileHashmapList (mem : Memory) (map : RamfsFileHashmap) :
    Option (List CString) × Memory :=
  tableList mem map

/-- `ramfs_file_hashmap_destroy`. -/
def ramfsFileHashmapDestroy (mem : Memory) (map : RamfsFileHashmap) :
    RamfsFileHashmap × Memory :=
  tableDestroy mem map

/-- The comparison routine is exact at the unshadowed keys and at no others. -/
theorem fileTable_exactAt_iff (map : RamfsFileHashmap) (k : CString) :
    ExactAt fileTable.streq djb2Bucket map k ↔ Unshadowed map k := by
  constructor
  · rintro he nd hnd ⟨hne, hlen⟩
    exact hne (he.sound nd hnd ((fileStreq_iff nd.key k).mpr hlen))
  · intro hu
    refine ⟨(fileStreq_iff k k).mpr ⟨rfl, fun i _ => UInt8.le_refl _⟩, fun nd hnd heq => ?_⟩
    by_contra hne
    exact hu nd hnd ⟨hne, (fileStreq_iff nd.key k).mp heq⟩

/-! ### When the file table is a finite map -/

/-- The state after a sequence of calls on a fresh file table. -/
def ramfsFileHashmapRun (mem : Memory) (ops : List (MapOp RamfsFileInfo)) :
    MapState RamfsFileInfo :=
  fileTable.run mem ops

/-- Along the run of `ops` from a fresh table, no call meets a stored key that shadows its
own. -/
def NoShadowing (mem : Memory) (ops : List (MapOp RamfsFileInfo)) : Prop :=
  Along fileTable.step (fun s op => Unshadowed s.map op.key) ⟨Table.empty, mem, []⟩ ops

instance (mem : Memory) (ops : List (MapOp RamfsFileInfo)) : Decidable (NoShadowing mem ops) := by
  unfold NoShadowing
  infer_instance

/-- **The file table is a finite map** of the calls made on it along every run in which no
call meets a shadowing key, for every key that no stored key shadows. -/
theorem ramfsFileHashmap_refines_map (mem : Memory) (ops : List (MapOp RamfsFileInfo))
    (h : NoShadowing mem ops) :
    TableIsMap fileTable (Unshadowed (ramfsFileHashmapRun mem ops).map)
      (ramfsFileHashmapRun mem ops) := by
  have hexact : (fun (s : MapState RamfsFileInfo) (op : MapOp RamfsFileInfo) => Unshadowed s.map op.key) =
      fileTable.StepExact :=
    funext₂ fun s op => propext (fileTable_exactAt_iff s.map op.key).symm
  have hinv : NamedTable.Inv fileTable (ramfsFileHashmapRun mem ops) :=
    NamedTable.Inv.run (hexact ▸ h)
  have hguard : ExactAt fileTable.streq djb2Bucket (ramfsFileHashmapRun mem ops).map =
      Unshadowed (ramfsFileHashmapRun mem ops).map :=
    funext fun k => propext (fileTable_exactAt_iff _ k)
  exact hguard ▸ hinv.isMap

/-- The one-character key with the given code. -/
def key1 (c : UInt8) (h : (0 : UInt8) ∉ [c] := by decide) : Key := ⟨⟨[c], h⟩, by simp⟩

/-- A file entry of the given length. -/
def entryOfLength (length : ℤ) : RamfsFileInfo := ⟨⟨[], CString.noNul_nil⟩, RAMFS_TYPE_MEM, length, none, 0⟩

/-- Two keys of one bucket, `"a"` stored before `"q"`, then an update, a deletion and a
lookup. -/
def sharedBucketOps : List (MapOp RamfsFileInfo) :=
  [.insert (key1 97) (entryOfLength 1), .insert (key1 113) (entryOfLength 2),
    .insert (key1 113) (entryOfLength 3), .delete (key1 113), .find (key1 97)]

/-- In this order no call meets a shadowing key, and the table is the map of the calls. -/
theorem ramfsFileHashmap_refines_map_sharedBucketOps :
    NoShadowing ampleMemory sharedBucketOps ∧
      TableIsMap fileTable (Unshadowed (ramfsFileHashmapRun ampleMemory sharedBucketOps).map)
        (ramfsFileHashmapRun ampleMemory sharedBucketOps) :=
  ⟨by decide, ramfsFileHashmap_refines_map _ _ (by decide)⟩

/-- After inserting `"q"` alone, a lookup of `"a"` finds the entry of `"q"`: the codes of
the two letters differ by sixteen, so they share a bucket, and `'q'` is the larger. -/
theorem ramfsFileHashmap_finds_absent_key :
    let s := ramfsFileHashmapRun ampleMemory [.insert (key1 113) (entryOfLength 1)]
    ramfsFileHashmapFind s.map (key1 97) = some { entryOfLength 1 with name := key1 113 } ∧
      lastInsert (key1 97).1 s.history = none := by
  decide

end LittleLinux
