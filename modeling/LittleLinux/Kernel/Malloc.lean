import LittleLinux.Lib.ByteMemory
import LittleLinux.Lib.Run
import LittleLinux.Lib.Tiling

/-!
# The kernel allocator

`malloc.c` over a flat byte memory. A block is an eight-byte header (`size`, `next`) followed
by `size` bytes for the caller; the headers live in the same memory as the callers' data, the
free blocks are chained through `next`, and pools of 16 MiB are taken from the range between
`_end` and `heap_max`. Addresses and sizes are 32-bit numbers, so address arithmetic is taken
modulo `2 ^ 32`.

Two loops of the source have no bound of their own: the walk along the free list and the
recursion of `malloc` through `expand_heap`. `findFit` and `mallocRec` carry a fuel argument
and answer `none` when it runs out. A chain of 32-bit addresses that goes on for `2 ^ 32`
nodes is a cycle, and `heap_brk` is back where it was after 256 pools, so with the fuel that
`malloc` gives them `none` means that the code does not return.
-/

namespace LittleLinux

namespace Malloc

/-- 32-bit wrap-around. -/
def u32 (x : ℕ) : ℕ := x % 2 ^ 32

/-- `ALIGN_UP`. -/
def alignUp (s : ℕ) : ℕ := u32 (s + 7) &&& 0xFFFFFFF8

/-- `sizeof(free_block_t)`. -/
def headerSize : ℕ := 8

/-- `POOL_SIZE`: the body says 16 MiB, in `malloc_init` and in `expand_heap`. -/
@[irreducible]
def poolSize : ℕ := 16 * 1024 * 1024

/-- The allocator's static variables and the memory they describe. -/
structure Heap where
  mem : ByteMemory
  freeList : ℕ
  heapBrk : ℕ
  heapMax : ℕ

/-! ### Block headers -/

/-- `block->size`. -/
def Heap.size (h : Heap) (b : ℕ) : ℕ := h.mem.getLE b 4

/-- `block->next`. -/
def Heap.next (h : Heap) (b : ℕ) : ℕ := h.mem.getLE (b + 4) 4

/-- `block->size = v`. -/
def Heap.setSize (h : Heap) (b v : ℕ) : Heap := { h with mem := h.mem.putLE b 4 v }

/-- `block->next = v`. -/
def Heap.setNext (h : Heap) (b v : ℕ) : Heap := { h with mem := h.mem.putLE (b + 4) 4 v }

/-! ### Pools -/

/-- `request_memory`: the address of the new range, or `0`. -/
def requestMemory (h : Heap) (size : ℕ) : ℕ × Heap :=
  let size := alignUp size
  if u32 (h.heapBrk + size) > h.heapMax then (0, h)
  else (h.heapBrk, { h with heapBrk := u32 (h.heapBrk + size) })

/-- The common tail of `malloc_init` and `expand_heap`: turn the pool into a free block at
the head of the list. -/
def addPool (h : Heap) (mem : ℕ) : Heap :=
  let h := h.setSize mem (poolSize - headerSize)
  let h := h.setNext mem h.freeList
  { h with freeList := mem }

/-- `malloc_init(total_mb)`, from the state before boot: the heap is empty at `_end`. -/
def mallocInit (mem : ByteMemory) (_end totalMb : ℕ) : Heap :=
  let h : Heap := ⟨mem, 0, _end, u32 (_end + u32 (totalMb * 1024 * 1024))⟩
  let r := requestMemory h poolSize
  if r.1 = 0 then r.2 else addPool r.2 r.1

/-- `expand_heap`: whether a pool was added. -/
def expandHeap (h : Heap) : Bool × Heap :=
  let r := requestMemory h poolSize
  if r.1 = 0 then (false, r.2) else (true, addPool r.2 r.1)

/-! ### Allocation -/

/-- The first-fit walk: the first block from `curr` on that is large enough, with its
predecessor. `0` stands for the end of the list, and for the predecessor of its head. -/
def findFit (h : Heap) (req : ℕ) : ℕ → ℕ → ℕ → Option (ℕ × ℕ)
  | 0, _, _ => none
  | fuel + 1, prev, curr =>
    if curr = 0 then some (prev, 0)
    else if h.size curr ≥ req then some (prev, curr)
    else findFit h req fuel curr (h.next curr)

/-- Make `target` the successor of `prev`, or the head of the list when there is no `prev`. -/
def relink (h : Heap) (prev target : ℕ) : Heap :=
  if prev = 0 then { h with freeList := target } else h.setNext prev target

/-- Take the block `curr` off the list for a request of `req` bytes: split it when the rest
can hold a header and eight bytes, else hand it out whole. -/
def takeBlock (h : Heap) (req prev curr : ℕ) : Heap :=
  let remain := h.size curr - req
  if remain ≥ headerSize + 8 then
    let newFree := u32 (curr + headerSize + req)
    let h := h.setSize newFree (remain - headerSize)
    let h := h.setNext newFree (h.next curr)
    let h := h.setSize curr req
    relink h prev newFree
  else relink h prev (h.next curr)

/-- The request rounded to a multiple of eight, and to at least eight. -/
def reqSize (size : ℕ) : ℕ := if alignUp size < 8 then 8 else alignUp size

/-- A bound on the number of 32-bit addresses, for the walk along the list. -/
@[irreducible]
def walkFuel : ℕ := 2 ^ 32

/-- `malloc`, with the fuel of its recursion: the pointer (`0` for NULL) and the new state. -/
def mallocRec : ℕ → Heap → ℕ → Option (ℕ × Heap)
  | 0, _, _ => none
  | fuel + 1, h, size =>
    if size = 0 then some (0, h)
    else
      match findFit h (reqSize size) walkFuel 0 h.freeList with
      | none => none
      | some (prev, curr) =>
        if curr ≠ 0 then some (u32 (curr + headerSize), takeBlock h (reqSize size) prev curr)
        else if (expandHeap h).1 then mallocRec fuel (expandHeap h).2 size
        else some (0, (expandHeap h).2)

/-- `malloc(size)`. -/
def malloc (h : Heap) (size : ℕ) : Option (ℕ × Heap) := mallocRec 258 h size

/-- `free(ptr)`. -/
def free (h : Heap) (ptr : ℕ) : Heap :=
  if ptr = 0 then h
  else
    let block := u32 (ptr + 2 ^ 32 - headerSize)
    let h := h.setNext block h.freeList
    { h with freeList := block }

end Malloc

end LittleLinux
