import LittleLinux.Lib.Run
import LittleLinux.Ramfs.Types

/-!
# Tables keyed by name

`ramfs_hash.c` and `ramfs_hash_file.c` are one implementation written twice: sixteen chains
chosen by `djb2`, a bounded copy of the key in each node, and the key copied once more into
the `name` field of the value. They differ in the value type, in the size of a node and in
the routine that compares keys. `NamedTable` holds what differs; the operations below are
the common text, and each of the two files instantiates them under its own names.

`TableIsMap` is what it means for a table to be the finite map of the calls made on it, for
the keys a guard admits, and `NamedTable.refines_map` proves it of every run in which each
call has a key at which the comparison routine is exact.
-/

namespace LittleLinux

open ChainTable

/-- Keys of at most 127 characters, the ones a node can hold. -/
abbrev Key := { k : CString // k.chars.length ≤ 127 }

/-- What distinguishes one of the two tables: the comparison routine, the node size, and
how the `name` field of a value is set. -/
structure NamedTable (V : Type) where
  streq : CString → CString → Bool
  nodeSize : ℕ
  setName : CString → V → V

namespace NamedTable

variable {V : Type} (T : NamedTable V)

/-- Lookup. -/
def find (map : Table BUCKETS CString V) (key : CString) : Option V :=
  ChainTable.find T.streq djb2Bucket map key

/-- Insert or update: a node is allocated only when no node is accepted for the key. The
stored value is the caller's with its `name` field set to the key. -/
def insert (mem : Memory) (map : Table BUCKETS CString V) (key : CString) (value : V) :
    Bool × Table BUCKETS CString V × Memory :=
  let a := if (T.find map key).isSome then (none, mem) else mem.malloc T.nodeSize
  let r := ChainTable.insert T.streq djb2Bucket map key (strcpy127 key)
    (T.setName (strcpy127 key) value) a.1
  (r.1, r.2, a.2)

/-- Delete: unlink and free the first accepted node. -/
def delete (mem : Memory) (map : Table BUCKETS CString V) (key : CString) :
    Bool × Table BUCKETS CString V × Memory :=
  let r := ChainTable.delete T.streq djb2Bucket map key
  let mem' := match findNode T.streq djb2Bucket map key with
    | some nd => mem.free nd.addr
    | none => mem
  (r.1, r.2, mem')

/-- A store through the pointer that a lookup of `key` returned. -/
def modify (map : Table BUCKETS CString V) (key : CString) (f : V → V) :
    Table BUCKETS CString V :=
  ChainTable.modify T.streq djb2Bucket map key f

end NamedTable

section Common

variable {V : Type}

/-- List the keys: NULL for an empty table or a failed allocation, else one row per node. -/
def tableList (mem : Memory) (map : Table BUCKETS CString V) : Option (List CString) × Memory :=
  if map.count = 0 then (none, mem)
  else
    let a := mem.malloc (map.count * 128 % 2 ^ 32).toNat
    (a.1.map fun _ => map.nodes.map fun nd => strcpy127 nd.key, a.2)

/-- Destroy: free every node and empty the table. -/
def tableDestroy (mem : Memory) (map : Table BUCKETS CString V) :
    Table BUCKETS CString V × Memory :=
  (Table.empty, map.nodes.foldl (fun m nd => m.free nd.addr) mem)

/-! ### Runs -/

/-- A call on a table. -/
inductive MapOp (V : Type) where
  | insert (k : Key) (v : V)
  | delete (k : Key)
  | find (k : Key)

/-- The key of a call. -/
def MapOp.key : MapOp V → Key
  | .insert k _ => k
  | .delete k => k
  | .find k => k

/-- A table in the middle of a run: the table, the allocator, and the calls so far. -/
structure MapState (V : Type) where
  map : Table BUCKETS CString V
  mem : Memory
  history : List (Event CString V)

end Common

namespace NamedTable

variable {V : Type} (T : NamedTable V)

/-- One call. An insertion is logged with the value it is to store, `name` field set. -/
def step (s : MapState V) : MapOp V → MapState V
  | .insert k v =>
    let r := T.insert s.mem s.map k v
    ⟨r.2.1, r.2.2, .insert k (T.setName k v) r.1 :: s.history⟩
  | .delete k =>
    let r := T.delete s.mem s.map k
    ⟨r.2.1, r.2.2, .delete k r.1 :: s.history⟩
  | .find k => ⟨s.map, s.mem, .find k (T.find s.map k) :: s.history⟩

/-- The state after a sequence of calls on a fresh table. -/
def run (mem : Memory) (ops : List (MapOp V)) : MapState V :=
  ops.foldl T.step ⟨Table.empty, mem, []⟩

/-- The comparison routine is exact at the key of the call. -/
def StepExact (s : MapState V) (op : MapOp V) : Prop :=
  ExactAt T.streq djb2Bucket s.map op.key

/-- What a run of exact calls maintains: the table tracks its history, and the history only
ever stored a value under its own, short, name. -/
structure Inv (s : MapState V) : Prop where
  tracks : Tracks djb2Bucket s.map s.history
  named : ∀ k v ok, Event.insert k v ok ∈ s.history →
    (∃ w, v = T.setName k w) ∧ k.chars.length ≤ 127

variable {T}

/-- The insertion in terms of the table operation and the allocator's answer. -/
theorem insert_eq {map : Table BUCKETS CString V} {k : Key}
    (he : ExactAt T.streq djb2Bucket map k) (mem : Memory) (v : V) :
    ∃ m : Option ℕ,
      (T.insert mem map k v).1 =
          (ChainTable.insert T.streq djb2Bucket map k.1 k.1 (T.setName k v) m).1 ∧
        (T.insert mem map k v).2.1 =
          (ChainTable.insert T.streq djb2Bucket map k.1 k.1 (T.setName k v) m).2 ∧
        ((lookup djb2Bucket map k.1).isSome ∨ m = (mem.malloc T.nodeSize).1) := by
  have hs : strcpy127 k.1 = k.1 := strcpy127_of_le k.2
  simp only [insert, hs]
  rcases hf : (T.find map k.1).isSome with _ | _
  · exact ⟨_, by simp, by simp, .inr rfl⟩
  · refine ⟨none, by simp, by simp, .inl ?_⟩
    rwa [← he.find_eq]

/-- One exact call preserves the invariant. -/
theorem Inv.step {s : MapState V} (hs : Inv T s) {op : MapOp V} (he : T.StepExact s op) :
    Inv T (T.step s op) := by
  obtain ⟨ht, hn⟩ := hs
  cases op with
  | insert k v =>
    have hk : ExactAt T.streq djb2Bucket s.map k := he
    obtain ⟨m, hok, hmap, -⟩ := insert_eq hk s.mem v
    constructor
    · simp only [NamedTable.step, hok, hmap]
      exact ht.insert hk _ m
    · intro k' v' ok hmem
      rcases List.mem_cons.mp hmem with h | h
      · obtain ⟨rfl, rfl, -⟩ := (Event.insert.injEq ..).mp h
        exact ⟨⟨v, rfl⟩, k.2⟩
      · exact hn k' v' ok h
  | delete k =>
    refine ⟨ht.delete he, fun k' v' ok hmem => hn k' v' ok ?_⟩
    simpa [NamedTable.step] using hmem
  | find k =>
    refine ⟨ht.find k.1 _, fun k' v' ok hmem => hn k' v' ok ?_⟩
    simpa [NamedTable.step] using hmem

theorem Inv.run {mem : Memory} {ops : List (MapOp V)}
    (h : Along T.step T.StepExact ⟨Table.empty, mem, []⟩ ops) : Inv T (T.run mem ops) :=
  Along.invariant (fun _ _ hs he => hs.step he) ⟨tracks_empty djb2Bucket, by simp⟩ h

/-- The rows that a listing writes are the keys themselves: none is long enough for the
bounded copy to cut. -/
theorem Inv.rows_eq {s : MapState V} (hs : Inv T s) :
    (s.map.nodes.map fun nd => strcpy127 nd.key) = s.map.nodes.map Node.key := by
  refine List.map_congr_left fun nd hnd => ?_
  have hl : lookup djb2Bucket s.map nd.key = some nd.value :=
    (lookup_eq_some_iff hs.tracks.rep).mpr ⟨nd, hnd, rfl, rfl⟩
  rw [hs.tracks.lookup_eq] at hl
  exact strcpy127_of_le (hs.named _ _ _ (mem_of_lastInsert hl)).2

end NamedTable

/-! ### A table that is a finite map -/

/-- The table in the state `s` is the finite map of the calls made so far, as far as calls
with a key admitted by `G` can tell. -/
structure TableIsMap {V : Type} (T : NamedTable V) (G : CString → Prop) (s : MapState V) :
    Prop where
  find_eq : ∀ k : Key, G k → T.find s.map k = lastInsert k.1 s.history
  find_name : ∀ (k : Key) v, G k → T.find s.map k = some v → ∃ w, v = T.setName k w
  insert_fails_iff : ∀ (k : Key) v, G k → ((T.insert s.mem s.map k v).1 = false ↔
    lastInsert k.1 s.history = none ∧ (s.mem.malloc T.nodeSize).1 = none)
  insert_fails : ∀ (k : Key) v, G k → (T.insert s.mem s.map k v).1 = false →
    (T.insert s.mem s.map k v).2.1 = s.map
  delete_iff : ∀ k : Key, G k → ((T.delete s.mem s.map k).1 = true ↔
    (lastInsert k.1 s.history).isSome)
  delete_find : ∀ k k' : Key, G k → G k' → T.find (T.delete s.mem s.map k).2.1 k' =
    if k' = k then none else T.find s.map k'
  placed : ∀ i, ∀ nd ∈ s.map.buckets i, djb2Bucket nd.key = i
  keys_nodup : (s.map.nodes.map Node.key).Nodup
  mem_keys : ∀ k : Key, k.1 ∈ s.map.nodes.map Node.key ↔ (lastInsert k.1 s.history).isSome
  count_eq : s.map.count = (s.map.nodes.map Node.key).length
  list_none : (tableList s.mem s.map).1 = none ↔ s.map.count = 0 ∨
    (s.mem.malloc (s.map.count * 128 % 2 ^ 32).toNat).1 = none
  list_rows : ∀ rows, (tableList s.mem s.map).1 = some rows →
    rows.length = s.map.count ∧ rows.Nodup ∧
      ∀ k : Key, k.1 ∈ rows ↔ (lastInsert k.1 s.history).isSome

namespace NamedTable

variable {V : Type} {T : NamedTable V}

/-- Deleting leaves the routine exact where it was exact. -/
theorem exactAt_delete {s : MapState V} {k k' : Key} (hs : Inv T s)
    (he : ExactAt T.streq djb2Bucket s.map k) (he' : ExactAt T.streq djb2Bucket s.map k') :
    ExactAt T.streq djb2Bucket (ChainTable.delete T.streq djb2Bucket s.map k.1).2 k' where
  refl := he'.refl
  sound := by
    intro nd hnd
    refine he'.sound nd ?_
    obtain ⟨-, hd⟩ | ⟨-, hd⟩ := delete_cases hs.tracks.rep he
    · rw [hd] at hnd
      rcases eq_or_ne (djb2Bucket k'.1) (djb2Bucket k.1) with hb | hb
      · rw [hb, dropKey_buckets_self] at hnd
        rw [hb]
        exact List.mem_of_mem_filter hnd
      · rwa [dropKey_buckets_of_ne s.map hb] at hnd
    · rwa [hd] at hnd

/-- An insertion fails for want of a node only, and then returns the table it was given. -/
theorem insert_outcome {s : MapState V} (hs : Inv T s) {k : Key}
    (he : ExactAt T.streq djb2Bucket s.map k) (v : V) :
    ∃ m : Option ℕ,
      (T.insert s.mem s.map k v).1 = ((lastInsert k.1 s.history).isSome || m.isSome) ∧
        ((lastInsert k.1 s.history).isSome ∨ m = (s.mem.malloc T.nodeSize).1) ∧
        ((T.insert s.mem s.map k v).1 = false → (T.insert s.mem s.map k v).2.1 = s.map) := by
  obtain ⟨m, hok, hmap, hm⟩ := insert_eq he s.mem v
  refine ⟨m, ?_, by rwa [← hs.tracks.lookup_eq], fun hf => ?_⟩
  · rw [hok, insert_fst he, hs.tracks.lookup_eq]
  · rw [hok] at hf
    rw [hmap]
    obtain ⟨-, hi⟩ | ⟨-, -, hi⟩ | ⟨a, -, -, hi⟩ := insert_cases he (T.setName k v) m
    · simp [hi] at hf
    · rw [hi]
    · simp [hi] at hf

/-- **A run of exact calls is the finite map of its history.** -/
theorem Inv.isMap {s : MapState V} (hs : Inv T s) :
    TableIsMap T (ExactAt T.streq djb2Bucket s.map) s := by
  have hrep := hs.tracks.rep
  -- the keys listed are those whose last insertion stands; lookups read the same history
  have hkeys : ∀ k : Key, k.1 ∈ s.map.nodes.map Node.key ↔ (lastInsert k.1 s.history).isSome :=
    fun k => by rw [← lookup_isSome_iff hrep, hs.tracks.lookup_eq]
  have hfind : ∀ k : Key, ExactAt T.streq djb2Bucket s.map k →
      T.find s.map k = lastInsert k.1 s.history :=
    fun k he => he.find_eq.trans (hs.tracks.lookup_eq k)
  have hcount : s.map.count = (s.map.nodes.map Node.key).length := by
    rw [List.length_map]
    exact hrep.count_eq
  refine
    { find_eq := hfind
      find_name := fun k v he h => ?_
      insert_fails_iff := fun k v he => ?_
      insert_fails := fun k v he => ?_
      delete_iff := fun k he => ?_
      delete_find := fun k k' he he' => ?_
      placed := hrep.placed
      keys_nodup := hrep.keys_nodup
      mem_keys := hkeys
      count_eq := hcount
      list_none := ?_
      list_rows := fun rows h => ?_ }
  · rw [hfind k he] at h
    exact (hs.named _ _ _ (mem_of_lastInsert h)).1
  · obtain ⟨m, hok, hm, -⟩ := insert_outcome hs he v
    rw [hok]
    rcases hl : lastInsert k.1 s.history with _ | w
    · rw [hl] at hm
      simp only [Option.isSome_none, Bool.false_eq_true, false_or] at hm
      simp [hm]
    · simp
  · obtain ⟨-, -, -, h⟩ := insert_outcome hs he v
    exact h
  · rw [← hs.tracks.lookup_eq]
    exact Bool.eq_iff_iff.mp (delete_fst hrep he)
  · have hdel := lookup_delete hrep he k'.1
    rw [← (exactAt_delete hs he he').find_eq, ← he'.find_eq] at hdel
    exact hdel.trans (if_congr Subtype.ext_iff.symm rfl rfl)
  · rw [tableList]
    split <;> simp_all
  · rw [tableList] at h
    split at h
    · simp at h
    · obtain ⟨-, -, rfl⟩ := Option.map_eq_some_iff.mp h
      rw [hs.rows_eq]
      exact ⟨hcount.symm, hrep.keys_nodup, hkeys⟩

end NamedTable

end LittleLinux
