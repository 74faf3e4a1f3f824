import LittleLinux.Kernel.MallocTiling
import LittleLinux.Kernel.Memory

/-!
# Objects and their blocks

`Memory` names an object by the number of the call that made it, and hands out no name twice.
`malloc.c` puts the block of a released object at the head of its free list and hands it out again.
`PlacedHeap` runs the calls of the one on the other, and keeps for each object the block that it was
put into.

As long as only live objects are released, each live object lies in a live block, and no block that
was handed out since it was made overlaps it (`WellPlaced.run`). So the object still has what was stored
there, and a name is as good as an address. An object that is released twice ends this: its block
follows itself in the free list, and the next two requests for it get the same.
-/

namespace LittleLinux

open Malloc

/-! ### Live blocks -/

section Blocks

variable {E : ℕ} {s : AllocState} {b : ℕ × ℕ}

instance (x y : ℕ × ℕ) : Decidable (Apart x y) := inferInstanceAs (Decidable (_ ∨ _))

/-- Live blocks do not overlap. -/
theorem Malloc.AllocInv.pairwise (hs : AllocInv E s) :
    s.liveBlocks.Pairwise fun b c => Apart (extent b) (extent c) := by
  obtain ⟨⟨F, hi⟩, -⟩ := hs
  exact (List.pairwise_append.1 (List.pairwise_map.1 hi.tiles.pairwise)).2.1

/-- The block that a request of a positive size gets. -/
def newBlock (h : Heap) (size : ℕ) : Option (ℕ × ℕ) :=
  match malloc h size with
  | some (p, h') => if p = 0 then none else some (p - headerSize, h'.size (p - headerSize))
  | none => none

/-- A request adds its block to the live ones. -/
theorem Malloc.AllocInv.liveBlocks_malloc (hs : AllocInv E s) {size : ℕ}
    (hword : AllocOp.NoWrap s (.malloc size)) :
    (allocStep s (.malloc size)).liveBlocks = (newBlock s.heap size).toList ++ s.liveBlocks := by
  obtain ⟨⟨F, hi⟩, -⟩ := hs
  obtain ⟨h', hm, ha⟩ := malloc_allocated hi hword
  have hinv := ha.inv
  rcases hres : (s.heap.alloc size).1 with _ | b
  · rw [hres] at hm hinv
    simp only [allocStep, newBlock, hm, blockPointer, if_true]
    exact liveBlocks_eq (h := s.heap) s.live hinv.live_size
  · have hne : b.1 + headerSize ≠ 0 := by simp [headerSize]
    rw [hres] at hm hinv
    simp only [allocStep, newBlock, hm, blockPointer, hne, if_false]
    exact congrArg (List.cons _) (liveBlocks_eq (h := s.heap) s.live fun c hc =>
      hinv.live_size c (List.mem_cons_of_mem _ hc))

/-- The step neither releases the block nor stores to it. -/
def Malloc.AllocOp.LeavesAlone (b : ℕ × ℕ) : AllocOp → Prop
  | .malloc _ => True
  | .free p => p ≠ b.1 + headerSize
  | .store a _ => OutsideBlock a b

instance (b : ℕ × ℕ) : ∀ op : AllocOp, Decidable (op.LeavesAlone b)
  | .malloc _ => isTrue trivial
  | .free p => inferInstanceAs (Decidable (p ≠ b.1 + headerSize))
  | .store a _ => inferInstanceAs (Decidable (a < b.1 ∨ b.1 + headerSize + b.2 ≤ a))

/-- A block that is not released stays live. -/
theorem Malloc.AllocInv.mem_liveBlocks_step (hs : AllocInv E s) {op : AllocOp} (hl : op.Legal s)
    (hword : op.NoWrap s) (hb : b ∈ s.liveBlocks) (hleaves : op.LeavesAlone b) :
    b ∈ (allocStep s op).liveBlocks := by
  cases op with
  | malloc size =>
    rw [hs.liveBlocks_malloc hword]
    exact List.mem_append_right _ hb
  | free p =>
    obtain ⟨⟨F, hi⟩, hge⟩ := hs
    have hperm : s.liveBlocks.Perm ((p - headerSize, s.heap.size (p - headerSize)) ::
        (AllocState.mk s.heap (s.live.erase p)).liveBlocks) :=
      (List.perm_cons_erase hl).map _
    have hi' := free_spec (hi.perm_live hperm)
    rw [Nat.sub_add_cancel (hge p hl)] at hi'
    rw [allocStep, liveBlocks_eq (h := s.heap) (s.live.erase p) hi'.live_size]
    obtain ⟨q, hq, rfl⟩ := List.mem_map.1 hb
    have hne : q ≠ p := by
      rintro rfl
      exact hleaves (Nat.sub_add_cancel (hge q hq)).symm
    exact List.mem_map_of_mem ((List.mem_erase_of_ne hne).2 hq)
  | store a v =>
    obtain ⟨⟨F, hi⟩, hge⟩ := hs
    have hsame := hi.sameHeader_store hge hl
    have hblocks : (allocStep s (.store a v)).liveBlocks = s.liveBlocks :=
      liveBlocks_eq (h := s.heap) s.live fun c hc =>
        (hsame c (List.mem_append_right F hc)).1.trans (hi.live_size c hc)
    exact hblocks.symm ▸ hb

end Blocks

/-! ### Calls -/

/-- A call of the allocator: a request, or the release of an object. -/
inductive HeapCall where
  | malloc (size : ℕ)
  | free (p : Ptr)

/-- The call, as `Memory` records it. -/
def Memory.call (mem : Memory) : HeapCall → Memory
  | .malloc size => (mem.malloc size).2
  | .free p => mem.free p

/-- What is released is live. -/
def HeapCall.Legal (mem : Memory) : HeapCall → Prop
  | .malloc _ => True
  | .free p => mem.Live p

/-- The calls lead from `mem` to `mem'`, and release nothing but live objects. -/
structure Memory.Runs (mem : Memory) (calls : List HeapCall) (mem' : Memory) : Prop where
  result : calls.foldl Memory.call mem = mem'
  legal : Along Memory.call HeapCall.Legal mem calls

section Runs

variable {mem mem' mem'' : Memory} {calls calls' : List HeapCall} {p q : Ptr}

theorem Memory.Runs.nil (mem : Memory) : mem.Runs [] mem := ⟨rfl, trivial⟩

theorem Memory.Runs.malloc (mem : Memory) (size : ℕ) : mem.Runs [.malloc size] (mem.malloc size).2 :=
  ⟨rfl, trivial, trivial⟩

theorem Memory.Runs.free (h : mem.Live p) : mem.Runs [.free p] (mem.free p) := ⟨rfl, h, trivial⟩

theorem Memory.Runs.append (h : mem.Runs calls mem') (h' : mem'.Runs calls' mem'') :
    mem.Runs (calls ++ calls') mem'' where
  result := by rw [List.foldl_append, h.result, h'.result]
  legal := Along.append_iff.2 ⟨h.legal, h.result.symm ▸ h'.legal⟩

/-- Which requests are granted is given. -/
theorem Memory.Runs.grants (h : mem.Runs calls mem') : mem'.grants = mem.grants := by
  obtain ⟨rfl, -⟩ := h
  induction calls generalizing mem with
  | nil => rfl
  | cons c calls ih =>
    rw [List.foldl_cons, ih]
    cases c with
    | malloc size => exact mem.grants_malloc size
    | free p => rfl

theorem Memory.Live.malloc (h : mem.Live p) (size : ℕ) : (mem.malloc size).2.Live p := by
  refine ⟨h.1.mono (mem.grants_malloc size) ?_, by rw [mem.freed_malloc]; exact h.2⟩
  exact Nat.le_of_succ_le_succ (mem.next_le_next_malloc size)

theorem Memory.Live.free (h : mem.Live p) (hne : p ≠ q) : (mem.free q).Live p :=
  ⟨h.1, fun hmem => (List.mem_cons.1 hmem).elim hne h.2⟩

end Runs

/-! ### The heap below the objects -/

/-- The heap, and the block that each object was put into: none if the request was refused. -/
structure PlacedHeap where
  state : AllocState
  block : Ptr → Option (ℕ × ℕ)
  calls : ℕ

/-- The objects `p` and `q` were put into blocks that overlap. -/
def Overlap (block : Ptr → Option (ℕ × ℕ)) (p q : Ptr) : Prop :=
  ∃ b ∈ block p, ∃ c ∈ block q, ¬Apart (extent b) (extent c)

instance (block : Ptr → Option (ℕ × ℕ)) (p q : Ptr) : Decidable (Overlap block p q) :=
  inferInstanceAs (Decidable (∃ b ∈ block p, ∃ c ∈ block q, _))

namespace PlacedHeap

/-- A heap of which nothing was asked yet. -/
def start (s : AllocState) : PlacedHeap := ⟨s, fun _ => none, 0⟩

/-- The call, on the heap. -/
def call (m : PlacedHeap) : HeapCall → PlacedHeap
  | .malloc size =>
    if size = 0 then m
    else
      ⟨allocStep m.state (.malloc size),
        Function.update m.block (m.calls + 1) (newBlock m.state.heap size), m.calls + 1⟩
  | .free p => { m with state := allocStep m.state (.free (blockPointer (m.block p))) }

/-- A step of another caller of the allocator. -/
def other (m : PlacedHeap) (op : AllocOp) : PlacedHeap := { m with state := allocStep m.state op }

/-- The heap refused the requests that the pattern says, and no others. -/
def Follows (m : PlacedHeap) (grants : ℕ → Bool) : Prop :=
  ∀ n < m.calls, grants n = (m.block (n + 1)).isSome

instance (m : PlacedHeap) (grants : ℕ → Bool) : Decidable (m.Follows grants) :=
  inferInstanceAs (Decidable (∀ n < m.calls, _))

/-- The object that was put last where the object `p` lies. -/
def lastAt (m : PlacedHeap) (p : Ptr) : Ptr :=
  ((List.range (m.calls + 1)).reverse.find? fun q => decide (p < q ∧ Overlap m.block p q)).getD p

/-- Nothing was put where an object lies. -/
theorem lastAt_eq_self {m : PlacedHeap} {p : Ptr} (h : ∀ q, p < q → ¬Overlap m.block p q) :
    m.lastAt p = p := by
  have hnone : (List.range (m.calls + 1)).reverse.find? (fun q => decide (p < q ∧ Overlap m.block p q)) =
      none := by
    refine List.find?_eq_none.2 fun q _ hover => ?_
    obtain ⟨hlt, hover⟩ := of_decide_eq_true hover
    exact h q hlt hover
  rw [lastAt, hnone]
  rfl

end PlacedHeap

/-- Each live object lies in a live block of the heap, which no block that was handed out since
overlaps. -/
structure WellPlaced (E : ℕ) (mem : Memory) (m : PlacedHeap) : Prop where
  inv : AllocInv E m.state
  room : m.state.heap.heapMax + poolSize < 2 ^ 32
  calls : m.calls = mem.calls
  root : m.block 0 = none
  unused : ∀ p, m.calls < p → m.block p = none
  live : ∀ p, mem.Live p → ∀ b ∈ m.block p, b ∈ m.state.liveBlocks
  kept : ∀ p, mem.Live p → ∀ q, p < q → ¬Overlap m.block p q

namespace WellPlaced

variable {E : ℕ} {mem : Memory} {m : PlacedHeap}

theorem start {s : AllocState} (hs : AllocInv E s) (hroom : s.heap.heapMax + poolSize < 2 ^ 32)
    (grants : ℕ → Bool) : WellPlaced E ⟨grants, 0, []⟩ (.start s) where
  inv := hs
  room := hroom
  calls := rfl
  root := rfl
  unused := fun _ _ => rfl
  live := fun _ _ b hb => absurd hb (Option.not_mem_none b)
  kept := fun _ _ _ _ ⟨b, hb, _⟩ => absurd hb (Option.not_mem_none b)

/-- A request. -/
theorem malloc (h : WellPlaced E mem m) (size : ℕ) :
    WellPlaced E (mem.malloc size).2 (m.call (.malloc size)) := by
  by_cases hzero : size = 0
  · rw [Memory.malloc, if_pos hzero, PlacedHeap.call, if_pos hzero]
    exact h
  have hword := h.inv.noWrap h.room (.malloc size)
  have hblocks := h.inv.liveBlocks_malloc hword
  have hpair := (h.inv.malloc hword).pairwise
  rw [hblocks] at hpair
  rw [Memory.malloc_of_ne_zero _ hzero, PlacedHeap.call, if_neg hzero]
  have hold : ∀ p, (mem.skip 1).Live p → p ≠ m.calls + 1 → mem.Live p := by
    rintro p ⟨⟨hpos, hle, hgrant⟩, hfreed⟩ hne
    rw [h.calls] at hne
    exact ⟨⟨hpos, Nat.le_of_lt_succ (lt_of_le_of_ne hle hne), hgrant⟩, hfreed⟩
  have hself : ∀ p, p = m.calls + 1 → Function.update m.block (m.calls + 1)
      (newBlock m.state.heap size) p = newBlock m.state.heap size := by
    rintro p rfl
    exact Function.update_self _ _ _
  have hother : ∀ p, p ≠ m.calls + 1 →
      Function.update m.block (m.calls + 1) (newBlock m.state.heap size) p = m.block p :=
    fun p hp => Function.update_of_ne hp _ _
  have hlive : ∀ p, (mem.skip 1).Live p → ∀ b ∈ Function.update m.block (m.calls + 1)
      (newBlock m.state.heap size) p, b ∈ (newBlock m.state.heap size).toList ++ m.state.liveBlocks := by
    intro p hp b hb
    by_cases heq : p = m.calls + 1
    · rw [hself p heq] at hb
      exact List.mem_append_left _ (Option.mem_toList.2 hb)
    · rw [hother p heq] at hb
      exact List.mem_append_right _ (h.live p (hold p hp heq) b hb)
  have hunused : ∀ p, m.calls + 1 < p → Function.update m.block (m.calls + 1)
      (newBlock m.state.heap size) p = none := fun p hp => by
    rw [hother p (Nat.ne_of_gt hp)]
    exact h.unused p (Nat.lt_of_succ_lt hp)
  refine ⟨h.inv.malloc hword, ?_, congrArg (· + 1) h.calls, ?_, hunused, fun p hp b hb => ?_,
    fun p hp q hlt => ?_⟩
  · rw [h.inv.heapMax_step hword]
    exact h.room
  · exact (hother 0 (Nat.succ_ne_zero _).symm).trans h.root
  · rw [hblocks]
    exact hlive p hp b hb
  · rintro ⟨b, hb, c, hc, hover⟩
    dsimp only at hb hc
    rcases lt_trichotomy q (m.calls + 1) with hq | rfl | hq
    · rw [hother p (Nat.ne_of_lt (hlt.trans hq))] at hb
      rw [hother q (Nat.ne_of_lt hq)] at hc
      exact h.kept p (hold p hp (Nat.ne_of_lt (hlt.trans hq))) q hlt ⟨b, hb, c, hc, hover⟩
    · -- the new block is none of the live ones
      rw [hother p (Nat.ne_of_lt hlt)] at hb
      rw [hself _ rfl] at hc
      exact hover (((List.pairwise_append.1 hpair).2.2 c (Option.mem_toList.2 hc) b
        (h.live p (hold p hp (Nat.ne_of_lt hlt)) b hb)).symm)
    · rw [hunused q hq] at hc
      exact absurd hc (Option.not_mem_none c)

/-- A release of a live object. -/
theorem free (h : WellPlaced E mem m) {p : Ptr} (hp : mem.Live p) :
    WellPlaced E (mem.free p) (m.call (.free p)) := by
  have hold : ∀ q, (mem.free p).Live q → mem.Live q ∧ q ≠ p := by
    rintro q ⟨hout, hfreed⟩
    exact ⟨⟨hout, fun hmem => hfreed (List.mem_cons_of_mem _ hmem)⟩,
      fun heq => hfreed (heq ▸ List.mem_cons_self)⟩
  rw [PlacedHeap.call]
  cases hblock : m.block p with
  | none =>
    have hnull : allocStep m.state (.free (blockPointer none)) = m.state := by
      have hnot : 0 ∉ m.state.live := fun hmem => absurd (h.inv.2 0 hmem) (by simp [headerSize])
      rw [allocStep, blockPointer, Malloc.free, if_pos rfl, List.erase_of_not_mem hnot]
    rw [hnull]
    exact { h with
      live := fun q hq => h.live q (hold q hq).1
      kept := fun q hq => h.kept q (hold q hq).1 }
  | some b =>
    have hb := h.live p hp b hblock
    have hlegal : AllocOp.Legal m.state (.free (b.1 + headerSize)) := by
      obtain ⟨a, ha, rfl⟩ := List.mem_map.1 hb
      rwa [← Nat.sub_add_cancel (h.inv.2 a ha)] at ha
    have hword : AllocOp.NoWrap m.state (.free (b.1 + headerSize)) := trivial
    have hinv := h.inv.free hlegal
    have hmax := h.inv.heapMax_step hword
    refine ⟨hinv, ?_, h.calls, h.root, h.unused, fun q hq c hc => ?_, fun q hq => h.kept q (hold q hq).1⟩
    · dsimp only [blockPointer]
      rw [hmax]
      exact h.room
    · refine h.inv.mem_liveBlocks_step hlegal hword (h.live q (hold q hq).1 c hc) fun heq => ?_
      -- the two blocks would be one
      have hover : ¬Apart (extent b) (extent c) := by
        have hstart := Nat.add_right_cancel heq
        simp only [Apart, extent, headerSize]
        omega
      rcases lt_or_gt_of_ne (hold q hq).2 with hlt | hgt
      · exact h.kept q (hold q hq).1 p hlt ⟨c, hc, b, hblock, fun hapart => hover hapart.symm⟩
      · exact h.kept p hp q hgt ⟨b, hblock, c, hc, hover⟩

theorem call (h : WellPlaced E mem m) {c : HeapCall} (hc : c.Legal mem) : WellPlaced E (mem.call c) (m.call c) := by
  cases c with
  | malloc size => exact h.malloc size
  | free p => exact h.free hc

/-- **A run of calls** that release nothing but live objects. -/
theorem run (h : WellPlaced E mem m) {mem' : Memory} {calls : List HeapCall} (hruns : mem.Runs calls mem') :
    WellPlaced E mem' (calls.foldl PlacedHeap.call m) := by
  obtain ⟨rfl, hlegal⟩ := hruns
  induction calls generalizing mem m with
  | nil => exact h
  | cons c calls ih => exact ih (h.call hlegal.1) hlegal.2

/-- Another caller, that releases none of the objects' blocks. -/
theorem other (h : WellPlaced E mem m) {op : AllocOp} (hl : op.Legal m.state)
    (hleaves : ∀ p, mem.Live p → ∀ b ∈ m.block p, op.LeavesAlone b) : WellPlaced E mem (m.other op) := by
  have hword := h.inv.noWrap h.room op
  refine ⟨h.inv.step hl hword, ?_, h.calls, h.root, h.unused, fun p hp b hb => ?_, h.kept⟩
  · rw [PlacedHeap.other, h.inv.heapMax_step hword]
    exact h.room
  · exact h.inv.mem_liveBlocks_step hl hword (h.live p hp b hb) (hleaves p hp b hb)

/-- A live object is the last that was put where it lies. -/
theorem lastAt (h : WellPlaced E mem m) {p : Ptr} (hp : mem.Live p) : m.lastAt p = p :=
  PlacedHeap.lastAt_eq_self fun q hlt => h.kept p hp q hlt

/-- A live object has a block, if the heap refused the requests that the pattern says. -/
theorem exists_block (h : WellPlaced E mem m) {p : Ptr} (hp : mem.Live p) (hfollows : m.Follows mem.grants) :
    ∃ b ∈ m.block p, b ∈ m.state.liveBlocks := by
  obtain ⟨hpos, hle, hgrant⟩ := hp.1
  have hblock := hfollows (p - 1) (h.calls ▸ lt_of_lt_of_le (Nat.sub_lt hpos Nat.one_pos) hle)
  rw [hgrant, Nat.sub_add_cancel hpos] at hblock
  obtain ⟨b, hb⟩ := Option.isSome_iff_exists.1 hblock.symm
  exact ⟨b, hb, h.live p hp b hb⟩

end WellPlaced

end LittleLinux
