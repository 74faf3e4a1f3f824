import LittleLinux.Kernel.Pools

/-!
# The size of the block that `malloc` hands out

`ALIGN_UP` rounds in 32 bits, so a request of more than `2 ^ 32 - 8` bytes is rounded down to 0
and served with eight bytes. Every smaller request gets what it asks for, in every state that the
calls reach, also where the heap has wrapped around the address space and its blocks overlap: a
header is eight bytes at an address congruent to `_end` modulo eight, so two headers are the same
or do not overlap. The invariant (`OnGrid`) is about the blocks met by following `next` from
`free_list` and the blocks handed out.
-/

namespace LittleLinux

namespace Malloc

variable {E : ℕ} {h h' : Heap} {a b v req prev curr target : ℕ} {live : List ℕ}

/-- The header behind which the pointer `p` lies, as `free` finds it. -/
def blockOf (p : ℕ) : ℕ := u32 (p + 2 ^ 32 - headerSize)

theorem blockOf_lt (p : ℕ) : blockOf p < 2 ^ 32 := by
  unfold blockOf u32
  exact Nat.mod_lt _ (by decide)

theorem free_eq {p : ℕ} (h0 : p ≠ 0) :
    free h p = { h.setNext (blockOf p) h.freeList with freeList := blockOf p } :=
  if_neg h0

/-- `b` is met by following `next` from `free_list`. -/
inductive OnFreeList (h : Heap) : ℕ → Prop
  | head : h.freeList ≠ 0 → OnFreeList h h.freeList
  | next {b : ℕ} : OnFreeList h b → h.next b ≠ 0 → OnFreeList h (h.next b)

/-- A set that holds the head and is closed under `next` holds the whole list. -/
theorem OnFreeList.mem {S : ℕ → Prop} (hhead : h.freeList ≠ 0 → S h.freeList)
    (hnext : ∀ b, S b → h.next b ≠ 0 → S (h.next b)) (hb : OnFreeList h b) : S b := by
  induction hb with
  | head h0 => exact hhead h0
  | next _ h0 ih => exact hnext _ ih h0

/-! ### Headers on a grid -/

/-- A header on the grid of `_end`, whose size is a positive multiple of eight. -/
structure Header (E : ℕ) (h : Heap) (b : ℕ) : Prop where
  grid : b % 8 = E % 8
  dvd : 8 ∣ h.size b
  le : 8 ≤ h.size b

theorem size_lt (h : Heap) (b : ℕ) : h.size b < 2 ^ 32 := ByteMemory.getLE_lt h.mem b 4

theorem headersApart_of_ne (hab : a % 8 = b % 8) (hne : a ≠ b) : HeadersApart a b := by
  simp only [HeadersApart, headerSize]
  omega

theorem size_setSize_grid (hab : a % 8 = b % 8) :
    (h.setSize a v).size b = if a = b then u32 v else h.size b := by
  split
  · next heq => rw [← heq, size_setSize]
  · next hne => exact (sameHeader_setSize (headersApart_of_ne hab hne)).1

theorem next_setNext_grid (hab : a % 8 = b % 8) :
    (h.setNext a v).next b = if a = b then u32 v else h.next b := by
  split
  · next heq => rw [← heq, next_setNext]
  · next hne => exact (sameHeader_setNext (headersApart_of_ne hab hne)).2

theorem size_setNext_grid (hab : a % 8 = b % 8) : (h.setNext a v).size b = h.size b := by
  rcases eq_or_ne a b with rfl | hne
  · exact size_setNext h a v
  · exact (sameHeader_setNext (headersApart_of_ne hab hne)).1

theorem next_setSize_grid (hab : a % 8 = b % 8) : (h.setSize a v).next b = h.next b := by
  rcases eq_or_ne a b with rfl | hne
  · exact next_setSize h a v
  · exact (sameHeader_setSize (headersApart_of_ne hab hne)).2

/-- What relinking does to the headers of the grid. -/
theorem relink_grid (hprev : prev = 0 ∨ prev % 8 = b % 8) (htarget : target < 2 ^ 32) :
    (relink h prev target).size b = h.size b ∧
      ((relink h prev target).next b = h.next b ∨ (relink h prev target).next b = target) := by
  rw [relink]
  split
  · exact ⟨rfl, .inl rfl⟩
  · next hne =>
    have hgrid : prev % 8 = b % 8 := hprev.resolve_left hne
    refine ⟨size_setNext_grid hgrid, ?_⟩
    rw [next_setNext_grid hgrid]
    split
    · exact .inr (Nat.mod_eq_of_lt htarget)
    · exact .inl rfl

theorem freeList_relink (h : Heap) (prev target : ℕ) :
    (relink h prev target).freeList = h.freeList ∨ (relink h prev target).freeList = target := by
  rw [relink]
  split
  · exact .inr rfl
  · exact .inl rfl

/-! ### The invariant -/

/-- The blocks on the free list and the blocks of `live` have headers on the grid. -/
structure OnGrid (E : ℕ) (h : Heap) (live : List ℕ) : Prop where
  listed : ∀ b, OnFreeList h b → Header E h b
  live : ∀ p ∈ live, Header E h (blockOf p)
  brk : h.heapBrk % 8 = E % 8
  brk_lt : h.heapBrk < 2 ^ 32
  head_lt : h.freeList < 2 ^ 32

/-- **The step rule**: the list behind the step is made of blocks of the old one and of the block
`fresh`, and the headers are still on the grid. -/
theorem OnGrid.of_step {live' : List ℕ} (fresh : ℕ → Prop)
    (hhead : h'.freeList ≠ 0 → OnFreeList h h'.freeList ∨ fresh h'.freeList)
    (hnext : ∀ b, OnFreeList h b ∨ fresh b → h'.next b ≠ 0 →
      OnFreeList h (h'.next b) ∨ fresh (h'.next b))
    (hheader : ∀ b, OnFreeList h b ∨ fresh b → Header E h' b)
    (hlive : ∀ p ∈ live', Header E h' (blockOf p)) (hbrk : h'.heapBrk % 8 = E % 8)
    (hbrk_lt : h'.heapBrk < 2 ^ 32) (hhead_lt : h'.freeList < 2 ^ 32) : OnGrid E h' live' where
  listed := fun b hb => hheader b (hb.mem (S := fun b => OnFreeList h b ∨ fresh b) hhead hnext)
  live := hlive
  brk := hbrk
  brk_lt := hbrk_lt
  head_lt := hhead_lt

/-! ### The operations -/

/-- The walk stops at a block of the list that is large enough, or at its end; the block before it
is one of the list as well. -/
theorem findFit_grid (fuel : ℕ) {prev curr : ℕ} (hprev : prev = 0 ∨ OnFreeList h prev)
    (hcurr : curr = 0 ∨ OnFreeList h curr) {prev' curr' : ℕ}
    (hf : findFit h req fuel prev curr = some (prev', curr')) :
    (prev' = 0 ∨ OnFreeList h prev') ∧
      (curr' = 0 ∨ (OnFreeList h curr' ∧ req ≤ h.size curr')) := by
  induction fuel generalizing prev curr with
  | zero => simp [findFit] at hf
  | succ fuel ih =>
    rw [findFit] at hf
    split at hf
    · obtain ⟨rfl, rfl⟩ := Prod.mk.inj (Option.some.inj hf)
      exact ⟨hprev, .inl rfl⟩
    · next hne =>
      have hon := hcurr.resolve_left hne
      split at hf
      · next hfit =>
        obtain ⟨rfl, rfl⟩ := Prod.mk.inj (Option.some.inj hf)
        exact ⟨hprev, .inr ⟨hon, hfit⟩⟩
      · refine ih (.inr hon) ?_ hf
        rcases eq_or_ne (h.next curr) 0 with h0 | h0
        · exact .inl h0
        · exact .inr (.next hon h0)

theorem blockOf_u32 (hb : b < 2 ^ 32) : blockOf (u32 (b + headerSize)) = b := by
  simp only [blockOf, u32, headerSize]
  omega

section Take

variable (hg : OnGrid E h live) (hprev : prev = 0 ∨ OnFreeList h prev) (hcurr : OnFreeList h curr)
  (hfit : req ≤ h.size curr)

include hg hprev in
theorem OnGrid.prev_grid (hb : b % 8 = E % 8) : prev = 0 ∨ prev % 8 = b % 8 :=
  hprev.imp id fun hon => (hg.listed prev hon).grid.trans hb.symm

include hg hprev hcurr hfit in
/-- The whole block is handed out. -/
theorem OnGrid.take_whole (hrest : ¬headerSize + 8 ≤ h.size curr - req) :
    OnGrid E (takeBlock h req prev curr) live ∧ Header E (takeBlock h req prev curr) curr ∧
      req ≤ (takeBlock h req prev curr).size curr := by
  have hc := hg.listed curr hcurr
  have htake : takeBlock h req prev curr = relink h prev (h.next curr) := if_neg hrest
  have hsize : ∀ b, b % 8 = E % 8 → (relink h prev (h.next curr)).size b = h.size b := fun b hb =>
    (relink_grid (h := h) (hg.prev_grid hprev hb) (next_lt h curr)).1
  have hsame : ∀ b, Header E h b → Header E (relink h prev (h.next curr)) b := fun b hb =>
    ⟨hb.grid, by rw [hsize b hb.grid]; exact hb.dvd, by rw [hsize b hb.grid]; exact hb.le⟩
  -- the block after the one taken, which the link now leads to, was on the list already
  have hrest : ∀ b, b = h.next curr → b ≠ 0 → OnFreeList h b := by
    rintro b rfl h0
    exact .next hcurr h0
  rw [htake]
  refine ⟨OnGrid.of_step (h := h) (fun _ => False) (fun h0 => .inl ?_) (fun b hb h0 => .inl ?_)
    (fun b hb => hsame b (hg.listed b (hb.resolve_right id))) (fun p hp => hsame _ (hg.live p hp))
    ?_ ?_ ?_, hsame curr hc, ?_⟩
  · rcases freeList_relink h prev (h.next curr) with heq | heq
    · rw [heq] at h0 ⊢
      exact .head h0
    · exact hrest _ heq h0
  · have hon := hb.resolve_right id
    have hgrid := (hg.listed b hon).grid
    rcases (relink_grid (h := h) (hg.prev_grid hprev hgrid) (next_lt h curr)).2 with heq | heq
    · rw [heq] at h0 ⊢
      exact .next hon h0
    · exact hrest _ heq h0
  · rw [heapBrk_relink]
    exact hg.brk
  · rw [heapBrk_relink]
    exact hg.brk_lt
  · rcases freeList_relink h prev (h.next curr) with heq | heq
    · rw [heq]
      exact hg.head_lt
    · rw [heq]
      exact next_lt h curr
  · rw [hsize curr hc.grid]
    exact hfit

include hg hprev hcurr hfit in
/-- The block is cut in two. -/
theorem OnGrid.take_split (hr8 : 8 ≤ req) (hrd : 8 ∣ req)
    (hrest : headerSize + 8 ≤ h.size curr - req) :
    OnGrid E (takeBlock h req prev curr) live ∧ Header E (takeBlock h req prev curr) curr ∧
      req ≤ (takeBlock h req prev curr).size curr := by
  have hc := hg.listed curr hcurr
  have hsz := size_lt h curr
  have htake : takeBlock h req prev curr =
      relink (splitHeaders h req curr) prev (u32 (curr + headerSize + req)) := if_pos hrest
  have hnewGrid : u32 (curr + headerSize + req) % 8 = E % 8 := by
    have hcg := hc.grid
    simp only [u32, headerSize]
    omega
  have hnewLt : u32 (curr + headerSize + req) < 2 ^ 32 := Nat.mod_lt _ (by decide)
  -- the headers of the grid behind the cut
  have hsplit : ∀ b, b % 8 = E % 8 →
      (splitHeaders h req curr).size b = (if curr = b then req
        else if u32 (curr + headerSize + req) = b then h.size curr - req - headerSize
        else h.size b) ∧
      (splitHeaders h req curr).next b =
        if u32 (curr + headerSize + req) = b then h.next curr else h.next b := by
    intro b hb
    have hcb : curr % 8 = b % 8 := hc.grid.trans hb.symm
    have hnb : u32 (curr + headerSize + req) % 8 = b % 8 := hnewGrid.trans hb.symm
    have hu : ∀ x, x ≤ h.size curr → u32 x = x := fun x hx => Nat.mod_eq_of_lt (by omega)
    have hun : u32 (h.next curr) = h.next curr := Nat.mod_eq_of_lt (next_lt h curr)
    rw [splitHeaders]
    generalize u32 (curr + headerSize + req) = newFree at hnb hnewGrid
    rw [size_setSize_grid hcb, size_setNext_grid hnb, size_setSize_grid hnb, hu req hfit,
      hu _ (by omega), next_setSize_grid hcb, next_setNext_grid hnb,
      next_setSize_grid (hnewGrid.trans hc.grid.symm), next_setSize_grid hnb, hun]
    exact ⟨rfl, rfl⟩
  rw [htake]
  generalize u32 (curr + headerSize + req) = newFree at hnewGrid hnewLt hsplit
  generalize hh₃ : splitHeaders h req curr = h₃ at hsplit
  have hbrk : h₃.heapBrk = h.heapBrk := by rw [← hh₃]; rfl
  have hfree : h₃.freeList = h.freeList := by rw [← hh₃]; rfl
  have hsize : ∀ b, b % 8 = E % 8 → (relink h₃ prev newFree).size b = h₃.size b := fun b hb =>
    (relink_grid (hg.prev_grid hprev hb) hnewLt).1
  have hheader : ∀ b, Header E h b ∨ b = newFree → Header E (relink h₃ prev newFree) b := by
    intro b hb
    have hgrid : b % 8 = E % 8 := hb.elim Header.grid fun h => h ▸ hnewGrid
    have hcd := hc.dvd
    simp only [headerSize] at hrest hsplit
    refine ⟨hgrid, ?_, ?_⟩
    · rw [hsize b hgrid, (hsplit b hgrid).1]
      split
      · exact hrd
      · split
        · omega
        · next hne => exact (hb.resolve_right fun h => hne h.symm).dvd
    · rw [hsize b hgrid, (hsplit b hgrid).1]
      split
      · exact hr8
      · split
        · omega
        · next hne => exact (hb.resolve_right fun h => hne h.symm).le
  refine ⟨OnGrid.of_step (h := h) (fun b => b = newFree) (fun h0 => ?_) (fun b hb h0 => ?_)
    (fun b hb => hheader b (hb.imp (hg.listed b) id)) (fun p hp => hheader _ (.inl (hg.live p hp)))
    ?_ ?_ ?_, hheader curr (.inl hc), ?_⟩
  · rcases freeList_relink h₃ prev newFree with heq | heq
    · rw [heq, hfree] at h0 ⊢
      exact .inl (.head h0)
    · exact .inr heq
  · have hgrid : b % 8 = E % 8 := hb.elim (fun h => (hg.listed b h).grid) fun h => h ▸ hnewGrid
    rcases (relink_grid (h := h₃) (hg.prev_grid hprev hgrid) hnewLt).2 with heq | heq
    · rw [heq, (hsplit b hgrid).2] at h0 ⊢
      split at h0
      · next hnew =>
        rw [if_pos hnew]
        exact .inl (.next hcurr h0)
      · next hnew =>
        rw [if_neg hnew]
        exact .inl (.next (hb.resolve_right fun h => hnew h.symm) h0)
    · exact .inr heq
  · rw [heapBrk_relink, hbrk]
    exact hg.brk
  · rw [heapBrk_relink, hbrk]
    exact hg.brk_lt
  · rcases freeList_relink h₃ prev newFree with heq | heq
    · rw [heq, hfree]
      exact hg.head_lt
    · rw [heq]
      exact hnewLt
  · rw [hsize curr hc.grid, (hsplit curr hc.grid).1, if_pos rfl]

end Take

theorem freeList_addPool (h : Heap) (mem : ℕ) : (addPool h mem).freeList = mem := rfl

/-- A new pool in front of the list. -/
theorem OnGrid.addPool (hg : OnGrid E h live) {mem : ℕ} (hmem : mem % 8 = E % 8)
    (hlt : mem < 2 ^ 32) : OnGrid E (addPool h mem) live := by
  have hpool : u32 (poolSize - headerSize) = poolSize - headerSize := by
    rw [poolSize_eq]
    decide
  have hfree : u32 h.freeList = h.freeList := Nat.mod_eq_of_lt hg.head_lt
  -- headers lie on the 8-byte grid, so one header's store misses the others or hits them whole
  have hsize : ∀ b, b % 8 = E % 8 → (Malloc.addPool h mem).size b =
      if mem = b then poolSize - headerSize else h.size b := by
    intro b hb
    have hmb : mem % 8 = b % 8 := hmem.trans hb.symm
    exact (size_setNext_grid hmb).trans ((size_setSize_grid hmb).trans (by rw [hpool]))
  have hnext : ∀ b, b % 8 = E % 8 → (Malloc.addPool h mem).next b =
      if mem = b then h.freeList else h.next b := by
    intro b hb
    have hmb : mem % 8 = b % 8 := hmem.trans hb.symm
    have hset : ((h.setSize mem (poolSize - headerSize)).setNext mem h.freeList).next b =
        if mem = b then h.freeList else h.next b := by
      rw [next_setNext_grid hmb, next_setSize_grid hmb, hfree]
    exact hset
  have hheader : ∀ b, Header E h b ∨ b = mem → Header E (Malloc.addPool h mem) b := by
    intro b hb
    have hgrid : b % 8 = E % 8 := hb.elim Header.grid fun h => h ▸ hmem
    obtain ⟨hpos, hdvd⟩ := poolSize_spec
    refine ⟨hgrid, ?_, ?_⟩
    · rw [hsize b hgrid]
      split
      · exact hdvd
      · next hne => exact (hb.resolve_right fun h => hne h.symm).dvd
    · rw [hsize b hgrid]
      split
      · exact Nat.le_of_dvd hpos hdvd
      · next hne => exact (hb.resolve_right fun h => hne h.symm).le
  refine OnGrid.of_step (h := h) (fun b => b = mem) (fun _ => .inr rfl) (fun b hb h0 => ?_)
    (fun b hb => hheader b (hb.imp (hg.listed b) id)) (fun p hp => hheader _ (.inl (hg.live p hp)))
    hg.brk hg.brk_lt hlt
  -- the new head is followed by the old list
  have hgrid : b % 8 = E % 8 := hb.elim (fun h => (hg.listed b h).grid) fun h => h ▸ hmem
  rw [hnext b hgrid] at h0 ⊢
  split at h0
  · next heq =>
    rw [if_pos heq]
    exact .inl (.head h0)
  · next hne =>
    rw [if_neg hne]
    exact .inl (.next (hb.resolve_right fun h => hne h.symm) h0)

/-- The list does not depend on `heap_brk`. -/
theorem OnGrid.setBrk (hg : OnGrid E h live) {brk : ℕ} (hbrk : brk % 8 = E % 8)
    (hlt : brk < 2 ^ 32) : OnGrid E { h with heapBrk := brk } live :=
  OnGrid.of_step (h := h) (fun _ => False) (fun h0 => .inl (.head h0))
    (fun _ hb h0 => .inl (.next (hb.resolve_right id) h0))
    (fun b hb =>
      have hb' := hg.listed b (hb.resolve_right id)
      ⟨hb'.grid, hb'.dvd, hb'.le⟩)
    (fun p hp => ⟨(hg.live p hp).grid, (hg.live p hp).dvd, (hg.live p hp).le⟩) hbrk hlt hg.head_lt

theorem OnGrid.expandHeap (hg : OnGrid E h live) : OnGrid E (expandHeap h).2 live := by
  have hreq := requestMemory_eq h
  have hbrk : u32 (h.heapBrk + poolSize) % 8 = E % 8 := by
    have hb := hg.brk
    rw [poolSize_eq]
    simp only [u32]
    omega
  split at hreq
  · have hexp : Malloc.expandHeap h = (false, h) := by simp only [Malloc.expandHeap, hreq, if_true]
    rw [hexp]
    exact hg
  · have hset := hg.setBrk hbrk (Nat.mod_lt _ (by decide))
    have hexp : (Malloc.expandHeap h).2 = if h.heapBrk = 0 then
        { h with heapBrk := u32 (h.heapBrk + poolSize) }
        else Malloc.addPool { h with heapBrk := u32 (h.heapBrk + poolSize) } h.heapBrk := by
      simp only [Malloc.expandHeap, hreq]
      split
      · rfl
      · rfl
    rw [hexp]
    split
    · exact hset
    · exact hset.addPool hg.brk hg.brk_lt

/-- **What `malloc` does** in any state with headers on the grid: if it returns a pointer, the
block behind it has at least the rounded size. -/
theorem OnGrid.mallocRec {size : ℕ} (hsize : size ≠ 0) (fuel : ℕ) (hg : OnGrid E h live) {p : ℕ}
    (hm : mallocRec fuel h size = some (p, h')) :
    OnGrid E h' live ∧ (p ≠ 0 → Header E h' (blockOf p) ∧ reqSize size ≤ h'.size (blockOf p)) := by
  obtain ⟨hr8, hrd, -⟩ := reqSize_spec size
  induction fuel generalizing h with
  | zero => simp [Malloc.mallocRec] at hm
  | succ fuel ih =>
    rw [Malloc.mallocRec, if_neg hsize] at hm
    rcases hf : findFit h (reqSize size) walkFuel 0 h.freeList with _ | ⟨prev, curr⟩
    · rw [hf] at hm
      simp at hm
    · rw [hf] at hm
      have hhead : h.freeList = 0 ∨ OnFreeList h h.freeList := by
        rcases eq_or_ne h.freeList 0 with h0 | h0
        · exact .inl h0
        · exact .inr (.head h0)
      obtain ⟨hprev, hcurr⟩ := findFit_grid walkFuel (.inl rfl) hhead hf
      dsimp only at hm
      -- a block that fits is taken, split or whole; otherwise the heap grows and the search starts again
      split at hm
      · next hne =>
        obtain ⟨hon, hfit⟩ := hcurr.resolve_left hne
        obtain ⟨hp, hh⟩ := Prod.mk.inj (Option.some.inj hm)
        have hlt : curr < 2 ^ 32 := by
          cases hon with
          | head _ => exact hg.head_lt
          | next _ _ => exact next_lt h _
        rw [← hp, blockOf_u32 hlt, ← hh]
        by_cases hrest : headerSize + 8 ≤ h.size curr - reqSize size
        · obtain ⟨hg', hhd, hle⟩ := hg.take_split hprev hon hfit hr8 hrd hrest
          exact ⟨hg', fun _ => ⟨hhd, hle⟩⟩
        · obtain ⟨hg', hhd, hle⟩ := hg.take_whole hprev hon hfit hrest
          exact ⟨hg', fun _ => ⟨hhd, hle⟩⟩
      · split at hm
        · exact ih hg.expandHeap hm
        · obtain ⟨rfl, rfl⟩ := Prod.mk.inj (Option.some.inj hm)
          exact ⟨hg.expandHeap, fun h0 => absurd rfl h0⟩

theorem size_setFree (h : Heap) (x b : ℕ) : Heap.size { h with freeList := x } b = h.size b := rfl

theorem next_setFree (h : Heap) (x b : ℕ) : Heap.next { h with freeList := x } b = h.next b := rfl

theorem heapBrk_link (h : Heap) (x b : ℕ) :
    Heap.heapBrk { h.setNext b x with freeList := b } = h.heapBrk := rfl

theorem OnGrid.free (hg : OnGrid E h live) {p : ℕ} (hp : p ∈ live) :
    OnGrid E (free h p) (live.erase p) := by
  have herase : ∀ {h : Heap}, OnGrid E h live → OnGrid E h (live.erase p) := fun hg =>
    ⟨hg.listed, fun q hq => hg.live q (List.mem_of_mem_erase hq), hg.brk, hg.brk_lt, hg.head_lt⟩
  rcases eq_or_ne p 0 with h0 | h0
  · have hfree : Malloc.free h p = h := by rw [Malloc.free, if_pos h0]
    rw [hfree]
    exact herase hg
  · have hhead : u32 h.freeList = h.freeList := Nat.mod_eq_of_lt hg.head_lt
    have hblock := hg.live p hp
    have hlt := blockOf_lt p
    rw [free_eq h0]
    generalize blockOf p = block at hblock hlt
    -- the link is written into the header's `next`; its size stays
    have hheader : ∀ b, Header E h b →
        Header E { h.setNext block h.freeList with freeList := block } b := by
      intro b hb
      have hsize : Heap.size { h.setNext block h.freeList with freeList := block } b = h.size b := by
        rw [size_setFree]
        exact size_setNext_grid (hblock.grid.trans hb.grid.symm)
      exact ⟨hb.grid, by rw [hsize]; exact hb.dvd, by rw [hsize]; exact hb.le⟩
    refine herase (OnGrid.of_step (h := h) (fun b => b = block) (fun _ => .inr rfl)
      (fun b hb h0 => ?_) (fun b hb => ?_) (fun q hq => hheader _ (hg.live q hq))
      (by rw [heapBrk_link]; exact hg.brk) (by rw [heapBrk_link]; exact hg.brk_lt) hlt)
    · have hgrid : block % 8 = b % 8 :=
        hb.elim (fun h => hblock.grid.trans (hg.listed b h).grid.symm) fun h => h ▸ rfl
      have hnext : (h.setNext block h.freeList).next b =
          if block = b then h.freeList else h.next b := by
        rw [next_setNext_grid hgrid, hhead]
      rw [next_setFree, hnext] at h0 ⊢
      split at h0
      · next heq =>
        rw [if_pos heq]
        exact .inl (.head h0)
      · next hne =>
        rw [if_neg hne]
        exact .inl (.next (hb.resolve_right fun h => hne h.symm) h0)
    · rcases hb with hb | rfl
      · exact hheader b (hg.listed b hb)
      · exact hheader b hblock

/-! ### Runs -/

/-- No byte of a header of the free list or of a live block lies at `a`. -/
def SparesHeaders (s : AllocState) (a : ℕ) : Prop :=
  ∀ b, (OnFreeList s.heap b ∨ ∃ p ∈ s.live, blockOf p = b) → a < b ∨ b + headerSize ≤ a

/-- What the calls are given: a free is of a live pointer, and the stores of the callers spare the
headers. -/
def AllocOp.Spares (s : AllocState) : AllocOp → Prop
  | .malloc size => size < 2 ^ 32
  | .free p => p ∈ s.live
  | .store a _ => SparesHeaders s a

theorem OnGrid.store {s : AllocState} (hg : OnGrid E s.heap s.live) {a : ℕ} {v : UInt8}
    (ha : SparesHeaders s a) :
    OnGrid E { s.heap with mem := s.heap.mem.putBytes a 1 fun _ => v } s.live := by
  have hheader : ∀ b, (a < b ∨ b + headerSize ≤ a) → Header E s.heap b →
      Header E { s.heap with mem := s.heap.mem.putBytes a 1 fun _ => v } b := by
    intro b hout hb
    have hsize := (sameHeader_store (h := s.heap) (v := v) hout).1
    exact ⟨hb.grid, by rw [hsize]; exact hb.dvd, by rw [hsize]; exact hb.le⟩
  refine OnGrid.of_step (h := s.heap) (fun _ => False) (fun h0 => .inl (.head h0))
    (fun b hb h0 => ?_) (fun b hb => ?_) (fun p hp => ?_) hg.brk hg.brk_lt hg.head_lt
  · have hon := hb.resolve_right id
    have hnext := (sameHeader_store (h := s.heap) (v := v) (ha b (.inl hon))).2
    rw [hnext] at h0 ⊢
    exact .inl (.next hon h0)
  · have hon := hb.resolve_right id
    exact hheader b (ha b (.inl hon)) (hg.listed b hon)
  · exact hheader _ (ha _ (.inr ⟨p, hp, rfl⟩)) (hg.live p hp)

theorem OnGrid.allocStep {s : AllocState} {op : AllocOp} (hg : OnGrid E s.heap s.live)
    (hop : op.Spares s) : OnGrid E (allocStep s op).heap (allocStep s op).live := by
  cases op with
  | malloc size =>
    rcases hm : malloc s.heap size with _ | ⟨p, h'⟩
    · simp only [Malloc.allocStep, hm]
      exact hg
    rcases eq_or_ne size 0 with hz | hz
    · have hnull : malloc s.heap size = some (0, s.heap) := by
        simp [malloc, Malloc.mallocRec, hz]
      simp only [Malloc.allocStep, hnull, if_true]
      exact hg
    · obtain ⟨hg', hp⟩ := hg.mallocRec hz 258 hm
      simp only [Malloc.allocStep, hm]
      split
      · exact hg'
      · next hne =>
        exact ⟨hg'.listed, List.forall_mem_cons.2 ⟨(hp hne).1, hg'.live⟩, hg'.brk, hg'.brk_lt,
          hg'.head_lt⟩
  | free p => exact hg.free hop
  | store a v => exact hg.store hop

theorem onGrid_init (mem : ByteMemory) {totalMb : ℕ} (hE : E < 2 ^ 32) :
    OnGrid E (mallocInit mem E totalMb) [] := by
  have hnone : ∀ b, ¬OnFreeList (bootHeap mem E totalMb) b := fun b hb =>
    hb.mem (S := fun _ => False) (fun h0 => h0 rfl) (fun _ h _ => h)
  have hboot : OnGrid E (bootHeap mem E totalMb) [] :=
    { listed := fun b hb => absurd hb (hnone b)
      live := by simp
      brk := rfl
      brk_lt := hE
      head_lt := Nat.two_pow_pos 32 }
  rw [mallocInit_eq]
  exact hboot.expandHeap

/-! ### Large requests -/

/-- If `malloc(size)` returns a pointer, its user area has at least `size` bytes. -/
def GivesEnough (h : Heap) (size : ℕ) : Prop :=
  ∀ p h', malloc h size = some (p, h') → p ≠ 0 → size ≤ h'.size (blockOf p)

/-- The block that a request of eight bytes gets: the first of the list, or else a new pool. -/
def firstBlock (h : Heap) : ℕ :=
  if h.freeList ≠ 0 then h.freeList else (requestMemory h poolSize).1

theorem reqSize_of_le {size : ℕ} (hsize : size ≤ 2 ^ 32 - 8) : size ≤ reqSize size := by
  have hup : alignUp size = (size + 7) / 8 * 8 := by
    rw [alignUp_eq, u32, Nat.mod_eq_of_lt (by omega)]
  rw [reqSize, hup]
  split
  · omega
  · omega

/-- The rounding of a larger request wraps around. -/
theorem reqSize_of_gt {size : ℕ} (hsize : 2 ^ 32 - 8 < size) (hlt : size < 2 ^ 32) :
    reqSize size = 8 := by
  have hup : alignUp size = 0 := by
    rw [alignUp_eq]
    simp only [u32]
    omega
  rw [reqSize, hup, if_pos (by decide)]

theorem walkFuel_eq_succ : ∃ n, walkFuel = n + 1 := by
  have hwalk : walkFuel ≠ 0 := by
    unfold walkFuel
    norm_num
  exact Nat.exists_eq_succ_of_ne_zero hwalk

/-- The walk along an empty list. -/
theorem findFit_nil (h : Heap) (req : ℕ) : findFit h req walkFuel 0 0 = some (0, 0) := by
  obtain ⟨n, hn⟩ := walkFuel_eq_succ
  rw [hn, findFit, if_pos rfl]

/-- A request of eight bytes gets the first block of the list. -/
theorem OnGrid.mallocRec_head (hg : OnGrid E h live) {size : ℕ} (hsize : size ≠ 0)
    (hreq : reqSize size = 8) (h0 : h.freeList ≠ 0) (fuel : ℕ) :
    ∃ h', Malloc.mallocRec (fuel + 1) h size = some (u32 (h.freeList + headerSize), h') := by
  obtain ⟨n, hn⟩ := walkFuel_eq_succ
  have hfit : h.size h.freeList ≥ 8 := (hg.listed _ (.head h0)).le
  have hf : findFit h 8 walkFuel 0 h.freeList = some (0, h.freeList) := by
    rw [hn, findFit, if_neg h0, if_pos hfit]
  rw [Malloc.mallocRec, if_neg hsize, hreq, hf]
  exact ⟨_, if_pos h0⟩

theorem OnGrid.malloc_firstBlock (hg : OnGrid E h live) {size : ℕ} (hsize : size ≠ 0)
    (hreq : reqSize size = 8) (hfirst : firstBlock h ≠ 0) :
    ∃ h', malloc h size = some (u32 (firstBlock h + headerSize), h') := by
  unfold firstBlock at hfirst ⊢
  split at hfirst
  · next h0 =>
    rw [if_pos h0]
    exact hg.mallocRec_head hsize hreq h0 257
  · next h0 =>
    have hz : h.freeList = 0 := not_not.1 h0
    have hexp : Malloc.expandHeap h = (true, Malloc.addPool (requestMemory h poolSize).2
        (requestMemory h poolSize).1) := if_neg hfirst
    have hhead : (Malloc.expandHeap h).2.freeList = (requestMemory h poolSize).1 := by
      rw [hexp, freeList_addPool]
    obtain ⟨h', hm⟩ := hg.expandHeap.mallocRec_head hsize hreq (by rwa [hhead]) 256
    refine ⟨h', ?_⟩
    rw [if_neg h0, malloc, Malloc.mallocRec, if_neg hsize, hreq, hz, findFit_nil]
    rw [hhead] at hm
    simpa only [ne_eq, not_true_eq_false, if_false, hexp, if_true] using hm

/-- With an empty list and no pool left, `malloc` returns NULL. -/
theorem malloc_of_firstBlock_eq_zero (hfirst : firstBlock h = 0) {size p : ℕ}
    (hm : malloc h size = some (p, h')) : p = 0 := by
  unfold firstBlock at hfirst
  split at hfirst
  · next h0 => exact absurd hfirst h0
  · next h0 =>
    have hz : h.freeList = 0 := not_not.1 h0
    have hexp : (expandHeap h).1 = false := by
      rw [expandHeap, if_pos hfirst]
    rw [malloc, mallocRec, hz, findFit_nil] at hm
    split at hm
    · exact (Prod.mk.inj (Option.some.inj hm)).1.symm
    · simp only [ne_eq, not_true_eq_false, if_false, hexp, Bool.false_eq_true] at hm
      exact (Prod.mk.inj (Option.some.inj hm)).1.symm

/-- **`malloc` gives at least what was asked** exactly for the sizes that the rounding does not
wrap around, unless no pointer is returned at all. -/
theorem malloc_givesEnough_iff (mem : ByteMemory) {totalMb : ℕ} (hE : E < 2 ^ 32)
    {ops : List AllocOp}
    (hops : Along allocStep AllocOp.Spares ⟨mallocInit mem E totalMb, []⟩ ops) {size : ℕ}
    (hpos : 0 < size) (hsize : size < 2 ^ 32) :
    let h := (ops.foldl allocStep ⟨mallocInit mem E totalMb, []⟩).heap
    GivesEnough h size ↔ size ≤ 2 ^ 32 - 8 ∨ firstBlock h = 0 ∨ firstBlock h = 2 ^ 32 - 8 := by
  have hg : OnGrid E (ops.foldl allocStep ⟨mallocInit mem E totalMb, []⟩).heap
      (ops.foldl allocStep ⟨mallocInit mem E totalMb, []⟩).live :=
    Along.invariant (I := fun s => OnGrid E s.heap s.live) (fun _ _ hg hop => hg.allocStep hop)
      (onGrid_init mem hE) hops
  intro h
  generalize (ops.foldl allocStep ⟨mallocInit mem E totalMb, []⟩).live = live at hg
  change OnGrid E h live at hg
  clear_value h
  have hz : size ≠ 0 := Nat.pos_iff_ne_zero.1 hpos
  constructor
  · intro henough
    by_contra hnot
    simp only [not_or, Nat.not_le] at hnot
    obtain ⟨hlarge, hfirst, hwrap⟩ := hnot
    obtain ⟨h', hm⟩ := hg.malloc_firstBlock hz (reqSize_of_gt hlarge hsize) hfirst
    have hne : u32 (firstBlock h + headerSize) ≠ 0 := by
      have hlt : firstBlock h < 2 ^ 32 := by
        unfold firstBlock
        split
        · exact hg.head_lt
        · rw [requestMemory_eq]
          split
          · exact Nat.two_pow_pos 32
          · exact hg.brk_lt
      simp only [u32, headerSize]
      omega
    -- a size is a multiple of eight below `2 ^ 32`
    have hle := henough _ _ hm hne
    obtain ⟨-, hheader⟩ := hg.mallocRec hz 258 hm
    have hdvd := (hheader hne).1.dvd
    have hlt := size_lt h' (blockOf (u32 (firstBlock h + headerSize)))
    omega
  · rintro hcond p h' hm hp
    obtain ⟨-, hheader⟩ := hg.mallocRec hz 258 hm
    have hle := (hheader hp).2
    rcases hcond with hsmall | hfirst | hfirst
    · exact (reqSize_of_le hsmall).trans hle
    · exact absurd (malloc_of_firstBlock_eq_zero hfirst hm) hp
    · rcases Nat.lt_or_ge (2 ^ 32 - 8) size with hlarge | hsmall
      · obtain ⟨h'', hm'⟩ := hg.malloc_firstBlock hz (reqSize_of_gt hlarge hsize)
          (by rw [hfirst]; norm_num)
        rw [hm, hfirst] at hm'
        have hnull : p = u32 (2 ^ 32 - 8 + headerSize) :=
          (Prod.mk.inj (Option.some.inj hm')).1
        exact absurd (hnull.trans (by decide)) hp
      · exact (reqSize_of_le hsmall).trans hle

/-- A block of 24 bytes taken and given back, then a request of 100 bytes. -/
theorem malloc_givesEnough_iff_reuse :
    GivesEnough (([.malloc 24, .free 0x00100008] : List AllocOp).foldl allocStep
      ⟨mallocInit (fun _ => 0) 0x00100000 32, []⟩).heap 100 := by
  have hops : Along allocStep AllocOp.Spares ⟨mallocInit (fun _ => 0) 0x00100000 32, []⟩
      [.malloc 24, .free 0x00100008] := by
    refine ⟨by norm_num [AllocOp.Spares], ?_, trivial⟩
    change 0x00100008 ∈ (allocStep _ (.malloc 24)).live
    decide +kernel
  exact (malloc_givesEnough_iff (fun _ => 0) (by norm_num) hops (by norm_num) (by norm_num)).2
    (.inl (by norm_num))

/-- A request of `2 ^ 32 - 1` bytes gets a block of eight. -/
theorem malloc_gives_too_little :
    ¬GivesEnough (mallocInit (fun _ => 0) 0x00100000 32) 0xffffffff := by
  intro henough
  have hm : (malloc (mallocInit (fun _ => 0) 0x00100000 32) 0xffffffff).map
      (fun r => (r.1, r.2.size (blockOf r.1))) = some (0x00100008, 8) := by decide +kernel
  obtain ⟨⟨p, h'⟩, hr, heq⟩ := Option.map_eq_some_iff.1 hm
  obtain ⟨hp, hsize⟩ := Prod.mk.inj heq
  have hle := henough p h' hr (by
    dsimp only at hp
    omega)
  dsimp only at hsize
  omega

end Malloc

end LittleLinux
