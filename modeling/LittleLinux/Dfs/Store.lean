import LittleLinux.Lib.ByteMemory
import LittleLinux.Libc.Integers

/-!
# The partition store

What `dfs.c` sees of the disks: every partition is a byte array, read and written by
`partition_read` and `partition_write`. A request inside the partition succeeds unless the
store's `fault` pattern fails it, and a request that fails changes no byte. The documented
contract of the partition layer is a store without faults (`Store.Reliable`).

The store counts its requests, which is what the fault pattern is indexed by, and keeps the
partitions that write requests were addressed to, newest first.
-/

namespace LittleLinux

/-! ### The store -/

/-- A partition: the index of its drive and its number on the drive. -/
structure PartId where
  drive : ℤ
  part : ℤ
deriving DecidableEq

/-- The disks, as the partition layer shows them. -/
structure Store where
  sectors : PartId → ℕ
  bytes : PartId → ByteMemory
  fault : ℕ → Bool
  requests : ℕ
  writes : List PartId

namespace Store

/-- The size of a partition in bytes. -/
def size (st : Store) (id : PartId) : ℕ := st.sectors id * 512

/-- The next request, of `length` bytes at `offset`, succeeds. -/
def Accepts (st : Store) (id : PartId) (offset : ℕ) (length : ℤ) : Prop :=
  st.fault st.requests = false ∧ 0 < length ∧ offset + length ≤ st.size id

instance (st : Store) (id : PartId) (offset : ℕ) (length : ℤ) :
    Decidable (st.Accepts id offset length) :=
  inferInstanceAs (Decidable (_ ∧ _ ∧ _))

/-- `partition_read`: the bytes from `offset` on. -/
def read (st : Store) (id : PartId) (offset : ℕ) (length : ℤ) : Option ByteMemory × Store :=
  (if st.Accepts id offset length then some fun i => st.bytes id (offset + i) else none,
    { st with requests := st.requests + 1 })

/-- `partition_write`: whether it succeeded. -/
def write (st : Store) (id : PartId) (offset : ℕ) (length : ℤ) (data : ByteMemory) :
    Bool × Store :=
  (decide (st.Accepts id offset length),
    { st with
      bytes := if st.Accepts id offset length then
          Function.update st.bytes id ((st.bytes id).putBytes offset length.toNat data)
        else st.bytes
      requests := st.requests + 1
      writes := id :: st.writes })

/-- A `partition_write` that is refused for want of a buffer. -/
def refuse (st : Store) (id : PartId) : Bool × Store :=
  (false, { st with requests := st.requests + 1, writes := id :: st.writes })

/-- The documented contract: no request inside a partition fails. -/
def Reliable (st : Store) : Prop := ∀ n, st.fault n = false

variable {st : Store} {id : PartId} {offset : ℕ} {length : ℤ} {data : ByteMemory}

@[simp]
theorem read_bytes : (st.read id offset length).2.bytes = st.bytes := rfl

@[simp]
theorem read_sectors : (st.read id offset length).2.sectors = st.sectors := rfl

@[simp]
theorem read_writes : (st.read id offset length).2.writes = st.writes := rfl

@[simp]
theorem read_fault : (st.read id offset length).2.fault = st.fault := rfl

@[simp]
theorem read_size : (st.read id offset length).2.size = st.size := rfl

theorem read_eq_some {b : ByteMemory} (h : (st.read id offset length).1 = some b) :
    st.Accepts id offset length ∧ b = fun i => st.bytes id (offset + i) := by
  simp only [read] at h
  split at h
  next ha => exact ⟨ha, (Option.some.inj h).symm⟩
  next => exact absurd h (by simp)

theorem Reliable.read_eq (hst : st.Reliable) (hl : 0 < length)
    (hin : offset + length ≤ st.size id) :
    (st.read id offset length).1 = some fun i => st.bytes id (offset + i) :=
  if_pos ⟨hst _, hl, hin⟩

@[simp]
theorem write_sectors : (st.write id offset length data).2.sectors = st.sectors := rfl

@[simp]
theorem write_writes : (st.write id offset length data).2.writes = id :: st.writes := rfl

@[simp]
theorem write_fault : (st.write id offset length data).2.fault = st.fault := rfl

@[simp]
theorem write_size : (st.write id offset length data).2.size = st.size := rfl

theorem write_of_accepts (h : st.Accepts id offset length) :
    (st.write id offset length data).1 = true ∧
      (st.write id offset length data).2.bytes =
        Function.update st.bytes id ((st.bytes id).putBytes offset length.toNat data) :=
  ⟨decide_eq_true h, if_pos h⟩

theorem write_eq_true (h : (st.write id offset length data).1 = true) :
    st.Accepts id offset length :=
  of_decide_eq_true h

theorem write_bytes_of_eq_true (h : (st.write id offset length data).1 = true) :
    (st.write id offset length data).2.bytes =
      Function.update st.bytes id ((st.bytes id).putBytes offset length.toNat data) :=
  (write_of_accepts (write_eq_true h)).2

/-- A refused write changes no byte. -/
theorem write_eq_false (h : (st.write id offset length data).1 = false) :
    (st.write id offset length data).2.bytes = st.bytes :=
  if_neg (of_decide_eq_false h)

/-- A write to one partition leaves the others alone. -/
theorem write_bytes_of_ne {id' : PartId} (h : id' ≠ id) :
    (st.write id offset length data).2.bytes id' = st.bytes id' := by
  simp only [write]
  split_ifs
  · exact Function.update_of_ne h _ _
  · rfl

/-- A write changes nothing outside its range. -/
theorem write_bytes_of_notMem {id' : PartId} {x : ℕ} (h : x < offset ∨ offset + length.toNat ≤ x) :
    (st.write id offset length data).2.bytes id' x = st.bytes id' x := by
  rcases eq_or_ne id' id with rfl | hne
  · simp only [write]
    split_ifs
    · rw [Function.update_self, ByteMemory.putBytes_of_notMem h]
    · rfl
  · rw [write_bytes_of_ne hne]

theorem Reliable.write_eq (hst : st.Reliable) (hl : 0 < length)
    (hin : offset + length ≤ st.size id) :
    (st.write id offset length data).1 = true ∧
      (st.write id offset length data).2.bytes =
        Function.update st.bytes id ((st.bytes id).putBytes offset length.toNat data) :=
  write_of_accepts ⟨hst _, hl, hin⟩

/-- Every byte after a write to a store without faults. -/
theorem Reliable.write_apply (hst : st.Reliable) (x : ℕ) :
    (st.write id offset length data).2.bytes id x =
      if offset + length ≤ st.size id ∧ offset ≤ x ∧ x < offset + length.toNat then data (x - offset)
      else st.bytes id x := by
  by_cases ha : st.Accepts id offset length
  · rw [(write_of_accepts ha).2, Function.update_self]
    split_ifs with h
    · exact ByteMemory.putBytes_of_mem h.2.1 h.2.2
    · refine ByteMemory.putBytes_of_notMem ?_
      have := ha.2.2
      omega
  · rw [write_eq_false (decide_eq_false ha), if_neg]
    rintro ⟨hin, hle, hlt⟩
    exact ha ⟨hst _, by omega, hin⟩

end Store

end LittleLinux
