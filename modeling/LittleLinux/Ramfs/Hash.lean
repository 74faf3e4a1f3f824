import LittleLinux.Ramfs.NamedTable

/-!
# The folder hash table

`ramfs_hash.c`: the folder table of a directory, keyed by name. The comparison routine is
the file's own `_streq`; `hashStreq_eq_decide` says that it decides equality, so every
operation is the finite-map operation of `ChainTable`, and a table reached by any sequence
of calls is the map of its history (`ramfsHashmap_refines_map`).
-/

namespace LittleLinux

open ChainTable

/-! ### The helper routines -/

/-- The loop of `_streq`: stop at the first difference or at a terminator. -/
def hashStreqLoop : List UInt8 → List UInt8 → Bool
  | c :: a, d :: b =>
    if c ≠ 0 ∧ d ≠ 0 then (if c ≠ d then false else hashStreqLoop a b) else c == d
  | [], [] => true
  | [], d :: _ => d == 0
  | c :: _, [] => c == 0

/-- `_streq`. -/
def hashStreq (a b : CString) : Bool := hashStreqLoop a.chars b.chars

/-- The routine decides equality of strings. -/
theorem hashStreq_eq_decide (a b : CString) : hashStreq a b = decide (a = b) := by
  obtain ⟨l, hl⟩ := a
  obtain ⟨m, hm⟩ := b
  simp only [hashStreq, CString.mk.injEq]
  induction l generalizing m with
  | nil =>
    cases m with
    | nil => simp [hashStreqLoop]
    | cons d m =>
      have hd : d ≠ 0 := by
        rintro rfl
        exact hm (by simp)
      simp [hashStreqLoop, hd]
  | cons c l ih =>
    have hc : c ≠ 0 := by
      rintro rfl
      exact hl (by simp)
    cases m with
    | nil => simp [hashStreqLoop, hc]
    | cons d m =>
      have hd : d ≠ 0 := by
        rintro rfl
        exact hm (by simp)
      rcases eq_or_ne c d with rfl | hcd
      · rw [hashStreqLoop, if_pos ⟨hc, hc⟩, if_neg (by simp),
          ih (fun h => hl (List.mem_cons_of_mem _ h)) m fun h => hm (List.mem_cons_of_mem _ h)]
        simp
      · simp [hashStreqLoop, hc, hd, hcd]

/-! ### The operations -/

/-- The folder table: `_streq`, `sizeof(ramfs_hash_node)`, and the `name` field. -/
def foderTable : NamedTable RamfsFoderInfo where
  streq := hashStreq
  nodeSize := sizeofRamfsHashNode
  setName := fun name value => { value with name := name }

/-- `ramfs_hashmap_init`. -/
def ramfsHashmapInit : RamfsHashmap := Table.empty

/-- `ramfs_hashmap_find`. -/
def ramfsHashmapFind (map : RamfsHashmap) (key : CString) : Option RamfsFoderInfo :=
  foderTable.find map key

/-- `ramfs_hashmap_insert`. -/
def ramfsHashmapInsert (mem : Memory) (map : RamfsHashmap) (key : CString)
    (value : RamfsFoderInfo) : Bool × RamfsHashmap × Memory :=
  foderTable.insert mem map key value

/-- `ramfs_hashmap_delete`. -/
def ramfsHashmapDelete (mem : Memory) (map : RamfsHashmap) (key : CString) :
    Bool × RamfsHashmap × Memory :=
  foderTable.delete mem map key

/-- `ramfs_hashmap_list`. -/
def ramfsHashmapList (mem : Memory) (map : RamfsHashmap) : Option (List CString) × Memory :=
  tableList mem map

/-- `ramfs_hashmap_destroy`. -/
def ramfsHashmapDestroy (mem : Memory) (map : RamfsHashmap) : RamfsHashmap × Memory :=
  tableDestroy mem map

/-- The folder table's comparison is exact at every key. -/
theorem foderTable_exactAt (map : RamfsHashmap) (k : CString) :
    ExactAt foderTable.streq djb2Bucket map k where
  refl := by simp [foderTable, hashStreq_eq_decide]
  sound := fun nd _ h => by simpa [foderTable, hashStreq_eq_decide] using h

theorem ramfsHashmapFind_eq_lookup (map : RamfsHashmap) (k : CString) :
    ramfsHashmapFind map k = lookup djb2Bucket map k :=
  (foderTable_exactAt map k).find_eq

/-! ### The folder table is a finite map -/

/-- The state after a sequence of calls on a fresh folder table. -/
def ramfsHashmapRun (mem : Memory) (ops : List (MapOp RamfsFoderInfo)) :
    MapState RamfsFoderInfo :=
  foderTable.run mem ops

/-- **The folder table is a finite map** of the calls made on it, after every sequence of
calls, under every pattern of allocation failures, and for every key. -/
theorem ramfsHashmap_refines_map (mem : Memory) (ops : List (MapOp RamfsFoderInfo)) :
    TableIsMap foderTable (fun _ => True) (ramfsHashmapRun mem ops) := by
  have hinv : NamedTable.Inv foderTable (ramfsHashmapRun mem ops) :=
    NamedTable.Inv.run
      (Along.of_forall (fun (s : MapState RamfsFoderInfo) op => foderTable_exactAt s.map op.key)
        _ ops)
  have hex := foderTable_exactAt (ramfsHashmapRun mem ops).map
  have hmap := hinv.isMap
  exact
    { find_eq := fun k _ => hmap.find_eq k (hex k)
      find_name := fun k v _ => hmap.find_name k v (hex k)
      insert_fails_iff := fun k v _ => hmap.insert_fails_iff k v (hex k)
      insert_fails := fun k v _ => hmap.insert_fails k v (hex k)
      delete_iff := fun k _ => hmap.delete_iff k (hex k)
      delete_find := fun k k' _ _ => hmap.delete_find k k' (hex k) (hex k')
      placed := hmap.placed
      keys_nodup := hmap.keys_nodup
      mem_keys := hmap.mem_keys
      count_eq := hmap.count_eq
      list_none := hmap.list_none
      list_rows := hmap.list_rows }

end LittleLinux
