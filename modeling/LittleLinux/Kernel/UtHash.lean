import LittleLinux.Kernel.Memory
import LittleLinux.Lib.DoublyLinked
import LittleLinux.Libc.CString

/-!
# The hash table of `uthash.h`

The commands of the shell and its environment variables are kept in tables of `uthash.h`. An element
has a handle in it, with which it hangs in two lists: the list of all elements in the order in which
they were added, and the chain of its bucket, in which a new element comes first. A chain that grows
to ten elements doubles the number of buckets, unless that was seen not to help; then
every handle is linked into a new chain.

The macros that the kernel uses are modelled pointer by pointer: `HASH_FIND_STR`, `HASH_ADD_STR` with
`HASH_EXPAND_BUCKETS`, and `HASH_ITER`; also `HASH_FSCK`, the check of the links and the counters that
the macros make of themselves when they are compiled with `HASH_DEBUG`. When an allocation
fails they call `exit`, and there is no result.

A key is compared with the kernel's `memcmp`, and only when its hash value and its length are those of the
key that is sought (`sameKey`).
-/

namespace LittleLinux

/-! ### The hash function -/

/-- `HASH_JEN_MIX`. -/
def hashJenMix (a b c : UInt32) : UInt32 × UInt32 × UInt32 :=
  let a := (a - b - c) ^^^ (c >>> 13)
  let b := (b - c - a) ^^^ (a <<< 8)
  let c := (c - a - b) ^^^ (b >>> 13)
  let a := (a - b - c) ^^^ (c >>> 12)
  let b := (b - c - a) ^^^ (a <<< 16)
  let c := (c - a - b) ^^^ (b >>> 5)
  let a := (a - b - c) ^^^ (c >>> 3)
  let b := (b - c - a) ^^^ (a <<< 10)
  let c := (c - a - b) ^^^ (b >>> 15)
  (a, b, c)

/-- Four bytes, the lowest first. -/
def word4 (a b c d : UInt8) : UInt32 :=
  a.toUInt32 + (b.toUInt32 <<< 8) + (c.toUInt32 <<< 16) + (d.toUInt32 <<< 24)

/-- The loop of `HASH_JEN`, by twelve bytes; the bytes that are left are returned too. -/
def hashJenLoop : List UInt8 → UInt32 × UInt32 × UInt32 → List UInt8 × UInt32 × UInt32 × UInt32
  | a0 :: a1 :: a2 :: a3 :: b0 :: b1 :: b2 :: b3 :: c0 :: c1 :: c2 :: c3 :: key, s =>
    hashJenLoop key (hashJenMix (s.1 + word4 a0 a1 a2 a3) (s.2.1 + word4 b0 b1 b2 b3)
      (s.2.2 + word4 c0 c1 c2 c3))
  | key, s => (key, s)

/-- `HASH_JEN`. The cases of its `switch` fall through, so each byte that is left is added. -/
def hashJen (key : List UInt8) : UInt32 :=
  let r := hashJenLoop key (0x9e3779b9, 0x9e3779b9, 0xfeedbeef)
  let k := r.1
  let hashv := r.2.2.2 + UInt32.ofNat key.length +
    word4 0 (k.getD 8 0) (k.getD 9 0) (k.getD 10 0)
  let j := r.2.2.1 + word4 (k.getD 4 0) (k.getD 5 0) (k.getD 6 0) (k.getD 7 0)
  let i := r.2.1 + word4 (k.getD 0 0) (k.getD 1 0) (k.getD 2 0) (k.getD 3 0)
  (hashJenMix i j hashv).2.2

/-! ### The table -/

/-- `UT_hash_handle`, with the string that `key` points to; `keylen` is its length. -/
structure UtHandle where
  prev : Option Ptr
  next : Option Ptr
  hhPrev : Option Ptr
  hhNext : Option Ptr
  key : CString
  hashv : UInt32

/-- `UT_hash_bucket`. -/
structure UtBucket where
  hhHead : Option Ptr
  count : ℕ
  expandMult : ℕ

/-- A bucket of an array that was just cleared. -/
def UtBucket.zero : UtBucket := ⟨none, 0, 0⟩

/-- `UT_hash_table`. -/
structure UtTable where
  buckets : ℕ → UtBucket
  numBuckets : ℕ
  log2NumBuckets : ℕ
  numItems : ℕ
  tail : Ptr
  idealChainMaxlen : ℕ
  nonidealItems : ℕ
  ineffExpands : ℕ
  noexpand : Bool

/-- The handles of all elements, the variable that points to the first element, and its
table. -/
structure UtHash where
  handles : Ptr → UtHandle
  head : Option Ptr
  tbl : UtTable

/-- The sizes of `UT_hash_table` and `UT_hash_bucket`. -/
def sizeofUtTable : ℕ := 44
def sizeofUtBucket : ℕ := 12

def HASH_INITIAL_NUM_BUCKETS : ℕ := 32
def HASH_INITIAL_NUM_BUCKETS_LOG2 : ℕ := 5
def HASH_BKT_CAPACITY_THRESH : ℕ := 10

/-- `HASH_TO_BKT`. -/
def hashToBkt (hashv : UInt32) (numBkts : ℕ) : ℕ := hashv.toNat &&& (numBkts - 1)

/-- The table before anything is added. -/
def UtHash.empty : UtHash where
  handles := fun _ => ⟨none, none, none, none, ⟨[], CString.noNul_nil⟩, 0⟩
  head := none
  tbl := ⟨fun _ => .zero, 0, 0, 0, 0, 0, 0, 0, false⟩

/-! ### Finding -/

/-- The comparison of `HASH_FIND_IN_BKT`: the hash values, the lengths, and `memcmp`. -/
def sameKey (hh : UtHandle) (hashv : UInt32) (key : CString) : Bool :=
  hh.hashv = hashv && hh.key.chars.length = key.chars.length &&
    memcmp hh.key.chars key.chars key.chars.length = 0

/-- `HASH_FIND_STR`. No chain is longer than the number of elements. -/
def hashFind (h : UtHash) (key : CString) : Option Ptr :=
  match h.head with
  | none => none
  | some _ =>
    let hashv := hashJen key.chars
    findLinked (fun p => (h.handles p).hhNext) (fun p => sameKey (h.handles p) hashv key)
      h.tbl.numItems (h.tbl.buckets (hashToBkt hashv h.tbl.numBuckets)).hhHead

/-! ### Adding -/

/-- The state of the loops of `HASH_EXPAND_BUCKETS`. -/
structure Rehash where
  handles : Ptr → UtHandle
  newBuckets : ℕ → UtBucket
  nonidealItems : ℕ

/-- A bucket gets one more element, and counts how often it had too many. -/
def UtBucket.gain (b : UtBucket) (idealChainMaxlen : ℕ) : UtBucket :=
  { b with
    count := b.count + 1
    expandMult := if idealChainMaxlen < b.count + 1 ∧ b.expandMult * idealChainMaxlen < b.count + 1 then
        b.expandMult + 1
      else b.expandMult }

/-- Link the handle of `add` in before the first one of the bucket. -/
def pushHandle (handles : Ptr → UtHandle) (add : Ptr) (hhHead : Option Ptr) : Ptr → UtHandle :=
  let handles := Function.update handles add { handles add with hhPrev := none, hhNext := hhHead }
  match hhHead with
  | none => handles
  | some q => Function.update handles q { handles q with hhPrev := some add }

/-- The element `thh` moves to its new bucket. -/
def rehashItem (newNum ideal : ℕ) (r : Rehash) (thh : Ptr) : Rehash :=
  let bkt := hashToBkt (r.handles thh).hashv newNum
  let newbkt := (r.newBuckets bkt).gain ideal
  { handles := pushHandle r.handles thh newbkt.hhHead
    newBuckets := Function.update r.newBuckets bkt { newbkt with hhHead := some thh }
    nonidealItems := if ideal < newbkt.count then r.nonidealItems + 1 else r.nonidealItems }

/-- The elements of one old chain, from `thh` on; the link to the next one is read first. -/
def rehashChain (newNum ideal : ℕ) : ℕ → Option Ptr → Rehash → Rehash
  | 0, _, r => r
  | _ + 1, none, r => r
  | n + 1, some thh, r =>
    rehashChain newNum ideal n (r.handles thh).hhNext (rehashItem newNum ideal r thh)

/-- `HASH_EXPAND_BUCKETS`. -/
def hashExpandBuckets (mem : Memory) (handles : Ptr → UtHandle) (tbl : UtTable) :
    Option ((Ptr → UtHandle) × UtTable) × Memory :=
  let a := mem.malloc (sizeofUtBucket * tbl.numBuckets * 2)
  match a.1 with
  | none => (none, a.2)
  | some _ =>
    let ideal := tbl.numItems / 2 ^ (tbl.log2NumBuckets + 1) +
      if tbl.numItems &&& (tbl.numBuckets * 2 - 1) ≠ 0 then 1 else 0
    let r := (List.range tbl.numBuckets).foldl
      (fun r i => rehashChain (tbl.numBuckets * 2) ideal tbl.numItems (tbl.buckets i).hhHead r)
      ⟨handles, fun _ => .zero, 0⟩
    let ineffExpands := if tbl.numItems / 2 < r.nonidealItems then tbl.ineffExpands + 1 else 0
    (some (r.handles,
      { tbl with
        buckets := r.newBuckets
        numBuckets := tbl.numBuckets * 2
        log2NumBuckets := tbl.log2NumBuckets + 1
        idealChainMaxlen := ideal
        nonidealItems := r.nonidealItems
        ineffExpands := ineffExpands
        noexpand := tbl.noexpand || decide (1 < ineffExpands) }), a.2)

/-- `HASH_MAKE_TABLE`: a table whose last element is `add`. -/
def hashMakeTable (mem : Memory) (add : Ptr) : Option UtTable × Memory :=
  let a := mem.malloc sizeofUtTable
  match a.1 with
  | none => (none, a.2)
  | some _ =>
    let b := a.2.malloc (HASH_INITIAL_NUM_BUCKETS * sizeofUtBucket)
    match b.1 with
    | none => (none, b.2)
    | some _ =>
      (some ⟨fun _ => .zero, HASH_INITIAL_NUM_BUCKETS, HASH_INITIAL_NUM_BUCKETS_LOG2, 0, add, 0, 0, 0,
        false⟩, b.2)

/-- `HASH_APPEND_LIST`. -/
def hashAppendList (h : UtHash) (add : Ptr) : UtHash :=
  let handles := Function.update h.handles add
    { h.handles add with next := none, prev := some h.tbl.tail }
  { h with
    handles := Function.update handles h.tbl.tail { handles h.tbl.tail with next := some add }
    tbl := { h.tbl with tail := add } }

/-- `HASH_ADD_TO_TABLE` with `HASH_ADD_TO_BKT`. -/
def hashAddToTable (mem : Memory) (h : UtHash) (add : Ptr) : Option UtHash × Memory :=
  let numItems := h.tbl.numItems + 1
  let bkt := hashToBkt (h.handles add).hashv h.tbl.numBuckets
  let haHead := h.tbl.buckets bkt
  let handles := pushHandle h.handles add haHead.hhHead
  let tbl : UtTable :=
    { h.tbl with
      numItems := numItems
      buckets := Function.update h.tbl.buckets bkt
        { haHead with count := haHead.count + 1, hhHead := some add } }
  if (haHead.expandMult + 1) * HASH_BKT_CAPACITY_THRESH ≤ haHead.count + 1 ∧ tbl.noexpand = false then
    let e := hashExpandBuckets mem handles tbl
    (e.1.map fun r => { h with handles := r.1, tbl := r.2 }, e.2)
  else (some { h with handles := handles, tbl := tbl }, mem)

/-- `HASH_ADD_STR`, of the element `add` with that key. -/
def hashAdd (mem : Memory) (h : UtHash) (add : Ptr) (key : CString) : Option UtHash × Memory :=
  let handles := Function.update h.handles add
    { h.handles add with hashv := hashJen key.chars, key := key }
  match h.head with
  | none =>
    let handles := Function.update handles add { handles add with next := none, prev := none }
    let t := hashMakeTable mem add
    match t.1 with
    | none => (none, t.2)
    | some tbl => hashAddToTable t.2 ⟨handles, some add, tbl⟩ add
  | some _ => hashAddToTable mem (hashAppendList { h with handles := handles } add) add

/-- Elements added one after the other. -/
def hashAdds (mem : Memory) (h : UtHash) : List (Ptr × CString) → Option UtHash × Memory
  | [] => (some h, mem)
  | e :: log =>
    let r := hashAdd mem h e.1 e.2
    match r.1 with
    | none => (none, r.2)
    | some h => hashAdds r.2 h log

/-! ### Going through the elements -/

/-- The elements that `HASH_ITER` visits, in this order. -/
def hashIter (h : UtHash) : List Ptr :=
  followLinks (fun p => (h.handles p).next) h.tbl.numItems h.head

/-! ### The check of the table -/

/-- `HASH_FSCK`: in the chain of every bucket the links back are right and the handles are as many as the
bucket counts; they are as many as the table counts, and so are those in the list of all elements, where
the links back are right too. A list that is longer than the table counts does not pass. -/
def hashFsck (h : UtHash) : Bool :=
  match h.head with
  | none => true
  | some _ =>
    (List.range h.tbl.numBuckets).all (fun i =>
      countLinked (fun p => (h.handles p).hhNext) (fun p => (h.handles p).hhPrev) h.tbl.numItems none
        (h.tbl.buckets i).hhHead = some (h.tbl.buckets i).count) &&
    ((List.range h.tbl.numBuckets).map fun i => (h.tbl.buckets i).count).sum = h.tbl.numItems &&
    countLinked (fun p => (h.handles p).next) (fun p => (h.handles p).prev) h.tbl.numItems none h.head =
      some h.tbl.numItems

end LittleLinux
