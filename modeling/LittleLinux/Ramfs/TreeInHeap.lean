import LittleLinux.Ramfs.AllocatorCalls

/-!
# The tree of directories in the heap

The commands without a mount, on the heap of `malloc.c`: next to the state of the file system
`FsOnHeap` has the heap with the blocks that the objects were put into, and other callers of the
allocator may come in between. What the tree finds at an object is what was put last where the object
lies (`folderAt`).

`fs_write` releases the data of a file before it asks for a new buffer, and keeps the released one in
the file when it gets none. The next call that releases it puts its block into the free list a second
time, and two directories made after that get one block, so that the entry of the first leads to the
second. That is the one way to lose the tree: as long as no `write` loses a buffer, every object of the
tree lies in a live block of its own, and the heap holds the tree (`treeInHeap_run`).
-/

namespace LittleLinux

open ChainTable Malloc

/-! ### Commands on the heap -/

/-- The file system, and the heap below it. -/
structure FsOnHeap where
  fs : Fs
  heap : PlacedHeap

/-- A command, or a step of another caller of the allocator, such as `env_set`. -/
inductive HeapInput where
  | command (c : Command)
  | other (op : AllocOp)

namespace FsOnHeap

/-- After `fs_init`, on a heap that others have used. -/
def boot (start : AllocState) (grants : ℕ → Bool) (store : Store) : FsOnHeap :=
  ⟨initState ⟨grants, 0, []⟩ store, .start start⟩

def step (k : FsOnHeap) : HeapInput → FsOnHeap
  | .command c => ⟨commandStep k.fs c, (c.heapCalls k.fs).foldl PlacedHeap.call k.heap⟩
  | .other op => { k with heap := k.heap.other op }

/-- The directory that is found at an object: the last that was put there. -/
def folderAt (k : FsOnHeap) (p : Ptr) : RamfsFoder := k.fs.folders (k.heap.lastAt p)

end FsOnHeap

/-- The directories are a tree, and the heap holds it: each directory is found where it was put, and
each object of the tree lies in a live block, to which nothing else was put since. -/
structure TreeInHeap (k : FsOnHeap) : Prop where
  tree : RamTree k.fs
  held : ∀ p, Reach k.fs p → k.folderAt p = k.fs.folders p
  placed : ∀ slot p, Owns k.fs slot p →
    k.heap.lastAt p = p ∧ ∃ b ∈ k.heap.block p, b ∈ k.heap.state.liveBlocks

/-- An entry leads to the directory of its name. -/
theorem TreeInHeap.name_folderAt {k : FsOnHeap} (h : TreeInHeap k) {d : Ptr} (hd : Reach k.fs d)
    {nd : Node CString RamfsFoderInfo} (hnd : nd ∈ (k.folderAt d).foderMap.nodes) :
    (k.folderAt nd.value.ptr).name = nd.key := by
  rw [h.held d hd] at hnd
  rw [h.held _ (hd.tail (List.mem_map_of_mem hnd))]
  exact h.tree.name d nd hnd

/-- The words of a command fit the buffers for paths; and another caller releases and stores to
nothing but its own blocks. -/
def HeapInput.Fits (k : FsOnHeap) : HeapInput → Prop
  | .command c => c.PathsFit k.fs
  | .other op => op.Legal k.heap.state ∧ ∀ p, k.fs.mem.Live p → ∀ b ∈ k.heap.block p, op.LeavesAlone b

instance HeapInput.decidableFits (k : FsOnHeap) : ∀ input : HeapInput, Decidable (input.Fits k)
  | .command c => inferInstanceAs (Decidable (c.PathsFit k.fs))
  | .other op => decidable_of_iff (op.Legal k.heap.state ∧
      ∀ p < k.fs.mem.next, k.fs.mem.Live p → ∀ b ∈ k.heap.block p, op.LeavesAlone b)
    (and_congr_right' ⟨fun h p hp => h p (Nat.lt_succ_of_le hp.1.2.1) hp, fun h p _ hp => h p hp⟩)

/-- The input is a `write` that loses a buffer. -/
def HeapInput.Loses (k : FsOnHeap) : HeapInput → Prop
  | .command c => c.Loses k.fs
  | .other _ => False

instance HeapInput.decidableLoses (k : FsOnHeap) : ∀ input : HeapInput, Decidable (input.Loses k)
  | .command c => inferInstanceAs (Decidable (c.Loses k.fs))
  | .other _ => inferInstanceAs (Decidable False)

/-- A run of commands on a heap in order, the limit of which leaves room for a pool below `2 ^ 32`; the
allocations of the file system that fail are those that the heap refused. -/
structure HeapRun (E : ℕ) (start : AllocState) (grants : ℕ → Bool) (store : Store)
    (inputs : List HeapInput) : Prop where
  inv : AllocInv E start
  room : start.heap.heapMax + poolSize < 2 ^ 32
  fits : Along FsOnHeap.step (fun k input => input.Fits k) (.boot start grants store) inputs
  follows : (inputs.foldl FsOnHeap.step (.boot start grants store)).heap.Follows grants

/-! ### The invariant -/

/-- What the inputs keep. -/
structure FsOnHeapInv (E : ℕ) (grants : ℕ → Bool) (k : FsOnHeap) : Prop where
  command : CommandInv k.fs
  sound : Sound k.fs
  placed : WellPlaced E k.fs.mem k.heap
  grants : k.fs.mem.grants = grants

section Runs

variable {E : ℕ} {grants : ℕ → Bool} {store : Store} {k : FsOnHeap} {start : AllocState}

theorem FsOnHeapInv.boot (hs : AllocInv E start) (hroom : start.heap.heapMax + poolSize < 2 ^ 32) :
    FsOnHeapInv E grants (.boot start grants store) where
  command := CommandInv.run grants store []
  sound := Sound.init grants store
  placed := WellPlaced.start hs hroom grants
  grants := rfl

/-- **One input.** -/
theorem FsOnHeapInv.step (h : FsOnHeapInv E grants k) {input : HeapInput} (hfits : input.Fits k)
    (hkeeps : ¬input.Loses k) : FsOnHeapInv E grants (k.step input) := by
  cases input with
  | command c =>
    obtain ⟨hruns, hsound⟩ := h.sound.heapStep_command h.command hkeeps
    exact ⟨h.command.command c, hsound, h.placed.run hruns, hruns.grants.trans h.grants⟩
  | other op => exact ⟨h.command, h.sound, h.placed.other hfits.1 hfits.2, h.grants⟩

/-- A directory of the tree other than the root is held by an entry. -/
theorem exists_owns_of_reach {s : Fs} {p : Ptr} (hp : Reach s p) (hne : p ≠ rootPtr) :
    ∃ slot, Owns s slot p := by
  rcases Below.cases_owner hp with rfl | ⟨q, -, hq⟩
  · exact absurd rfl hne
  · obtain ⟨nd, hnd, rfl⟩ := List.mem_map.1 hq
    exact ⟨_, Owns.object hnd⟩

theorem FsOnHeapInv.treeInHeap (h : FsOnHeapInv E grants k) (hfollows : k.heap.Follows grants) :
    TreeInHeap k where
  tree := h.command.ram.ramTree h.command.tree
  held := by
    intro p hp
    by_cases hroot : p = rootPtr
    · rw [FsOnHeap.folderAt, PlacedHeap.lastAt_eq_self fun q _ hover => ?_]
      obtain ⟨b, hb, -⟩ := hover
      rw [hroot, show k.heap.block rootPtr = none from h.placed.root] at hb
      exact absurd hb (Option.not_mem_none b)
    · obtain ⟨slot, hslot⟩ := exists_owns_of_reach hp hroot
      rw [FsOnHeap.folderAt, h.placed.lastAt (h.sound.owned_live hslot)]
  placed := by
    intro slot p hslot
    have hlive := h.sound.owned_live hslot
    exact ⟨h.placed.lastAt hlive, h.placed.exists_block hlive (h.grants ▸ hfollows)⟩

/-- **The tree in the heap.** Whatever the commands and whichever allocations the heap refuses: in every
state of a run in which no `write` loses a buffer, the directories are a tree, and the heap holds it. -/
theorem treeInHeap_run {inputs : List HeapInput} (hrun : HeapRun E start grants store inputs)
    (hkeeps : Along FsOnHeap.step (fun k input => ¬input.Loses k) (.boot start grants store) inputs) :
    TreeInHeap (inputs.foldl FsOnHeap.step (.boot start grants store)) := by
  have hboot : FsOnHeapInv E grants (.boot start grants store) := FsOnHeapInv.boot hrun.inv hrun.room
  have hinv := Along.invariant (I := FsOnHeapInv E grants)
    (fun k input h hinput => h.step hinput.1 hinput.2) hboot (hrun.fits.and hkeeps)
  exact hinv.treeInHeap hrun.follows

end Runs

/-! ### A lost buffer -/

/-- A heap of one pool, with 1160 bytes left: room for three files without data, and 288 bytes more. -/
def nearlyFullHeap : AllocState :=
  allocStep ⟨mallocInit (fun _ => 0) 0x00100000 16, []⟩ (.malloc 16776048)

/-- A word of one character, so many times. -/
def repeatedWord (c : UInt8) (n : ℕ) : CString := .ofBytes (List.replicate n c)

/-- The files `f`, `g` and `h` fill the heap, `f` is written again with `size` bytes, all three are
removed, and `d` and `e` are made. -/
def fillAndMakeTwo (size : ℕ) : List HeapInput :=
  [⟨.touch, [repeatedWord 102 1]⟩, ⟨.touch, [repeatedWord 103 1]⟩, ⟨.touch, [repeatedWord 104 1]⟩,
    ⟨.write, [repeatedWord 102 1, repeatedWord 120 288]⟩,
    ⟨.write, [repeatedWord 102 1, repeatedWord 120 size]⟩,
    ⟨.rm, [repeatedWord 102 1]⟩, ⟨.rm, [repeatedWord 103 1]⟩, ⟨.rm, [repeatedWord 104 1]⟩,
    ⟨.mkdir, [repeatedWord 100 1]⟩, ⟨.mkdir, [repeatedWord 101 1]⟩].map .command

theorem heapRun_fillAndMakeTwo {size : ℕ} {grants : ℕ → Bool}
    (hfits : Along FsOnHeap.step (fun k input => input.Fits k) (.boot nearlyFullHeap grants noDisk)
      (fillAndMakeTwo size))
    (hfollows : ((fillAndMakeTwo size).foldl FsOnHeap.step
      (.boot nearlyFullHeap grants noDisk)).heap.Follows grants) :
    HeapRun 0x00100000 nearlyFullHeap grants noDisk (fillAndMakeTwo size) := by
  obtain ⟨hinv, hmax⟩ := allocInv_init (fun _ => 0) 0x00100000 16 (by norm_num) (by norm_num)
    (by rw [poolSize_eq]; norm_num)
  have hroom : (mallocInit (fun _ => 0) 0x00100000 16).heapMax + poolSize < 2 ^ 32 := by
    rw [hmax, poolSize_eq]
    norm_num
  have hword := hinv.noWrap hroom (.malloc 16776048)
  refine ⟨hinv.malloc hword, ?_, hfits, hfollows⟩
  rw [nearlyFullHeap, hinv.heapMax_step hword]
  exact hroom

/-- `f` is written again with as many bytes as it has: its block is released and taken again. The object
of `e` is refused. -/
theorem treeInHeap_run_sameSize :
    TreeInHeap ((fillAndMakeTwo 288).foldl FsOnHeap.step
      (.boot nearlyFullHeap (fun n => decide (n ≠ 7)) noDisk)) :=
  treeInHeap_run (heapRun_fillAndMakeTwo (by decide +kernel) (by decide +kernel)) (by decide +kernel)

/-- With 300 bytes the heap refuses, and `f` keeps the block that was released. -/
def lostBufferState : FsOnHeap :=
  (fillAndMakeTwo 300).foldl FsOnHeap.step (.boot nearlyFullHeap (fun n => decide (n ≠ 4)) noDisk)

/-- That block is released again with `f`; it is the block of `d`, and then the block of `e`, so that the
entry `d` leads to the directory named `e`. -/
theorem lostBuffer_breaks_tree :
    ¬∀ (E : ℕ) (start : AllocState) (grants : ℕ → Bool) (store : Store) (inputs : List HeapInput),
      HeapRun E start grants store inputs →
        TreeInHeap (inputs.foldl FsOnHeap.step (.boot start grants store)) := by
  intro hall
  have htree : TreeInHeap lostBufferState :=
    hall 0x00100000 nearlyFullHeap _ noDisk (fillAndMakeTwo 300)
      (heapRun_fillAndMakeTwo (by decide +kernel) (by decide +kernel))
  have hother : ((lostBufferState.folderAt rootPtr).foderMap.nodes.any fun nd =>
      decide ((lostBufferState.folderAt nd.value.ptr).name ≠ nd.key)) = true := by
    decide +kernel
  obtain ⟨nd, hnd, hne⟩ := List.any_eq_true.1 hother
  exact of_decide_eq_true hne (htree.name_folderAt (Below.refl _ rootPtr) hnd)

end LittleLinux
