import LittleLinux.Kernel.Malloc
import LittleLinux.Lib.FreeStore

/-!
# The allocator tiles the heap

The blocks on the free list and the blocks handed out tile the range from `_end` to
`heap_brk`. `Inv` is the invariant: a list `F` of free blocks that the chain in memory spells
out, the live blocks with the sizes their headers hold, and the tiling by both. The
operations of `malloc.c` do three things to it: they split a block (`malloc`), they move a
block between the two lists (`malloc`, `free`), and they append a pool (`expand_heap`); each
is a law of `Tiles`. What has to be shown in memory is that the header writes of one block do
not reach another, which is what the tiling itself says.
-/

namespace LittleLinux

namespace Malloc

open ByteMemory

/-! ### Arithmetic of the request -/

theorem land_mask {x : ℕ} (h : x < 2 ^ 32) : x &&& 0xFFFFFFF8 = x / 8 * 8 := by
  have hmask : (0xFFFFFFF8 : ℕ) = (2 ^ 29 - 1) <<< 3 := by decide
  have hx : x / 8 * 8 = (x >>> 3) <<< 3 := by
    rw [Nat.shiftRight_eq_div_pow, Nat.shiftLeft_eq]
  rw [hx, hmask]
  refine Nat.eq_of_testBit_eq fun i => ?_
  simp only [Nat.testBit_and, Nat.testBit_shiftLeft, Nat.testBit_shiftRight,
    Nat.testBit_two_pow_sub_one]
  rcases Nat.lt_or_ge i 3 with hi | hi
  · simp [Nat.not_le.mpr hi]
  · rw [show 3 + (i - 3) = i by omega]
    rcases Nat.lt_or_ge i 32 with hi' | hi'
    · simp [hi, show i - 3 < 29 by omega]
    · have hz : x.testBit i = false :=
        Nat.testBit_lt_two_pow (lt_of_lt_of_le h (Nat.pow_le_pow_right (by omega) hi'))
      simp [hz]

theorem alignUp_eq (s : ℕ) : alignUp s = u32 (s + 7) / 8 * 8 :=
  land_mask (Nat.mod_lt _ (by decide))

/-- Whatever the request, the rounded size is a positive multiple of eight below `2 ^ 32`. -/
theorem reqSize_spec (size : ℕ) :
    8 ≤ reqSize size ∧ 8 ∣ reqSize size ∧ reqSize size < 2 ^ 32 := by
  have hlt : u32 (size + 7) < 2 ^ 32 := Nat.mod_lt _ (by decide)
  rw [reqSize, alignUp_eq]
  split
  · exact ⟨le_refl 8, dvd_refl 8, by decide⟩
  · exact ⟨by omega, Dvd.intro_left _ rfl, by omega⟩

theorem poolSize_eq : poolSize = 16777216 := by
  unfold poolSize
  rfl

/-! ### Chains in memory -/

/-- The pointer `p` leads through the free blocks `F` (address and size) to `q`. -/
def Seg (h : Heap) : ℕ → List (ℕ × ℕ) → ℕ → Prop
  | p, [], q => p = q
  | p, b :: F, q => p = b.1 ∧ b.1 ≠ 0 ∧ h.size b.1 = b.2 ∧ Seg h (h.next b.1) F q

/-- The header at `a` reads the same in both states. -/
def SameHeader (h h' : Heap) (a : ℕ) : Prop := h'.size a = h.size a ∧ h'.next a = h.next a

/-- The extent of a block: its header and its user area. -/
def extent (b : ℕ × ℕ) : ℕ × ℕ := (b.1, headerSize + b.2)

theorem extent_injective : Function.Injective extent := by
  intro b c h
  simp only [extent, Prod.mk.injEq, Nat.add_left_cancel_iff] at h
  exact Prod.ext h.1 h.2

theorem Seg.congr {h h' : Heap} {F : List (ℕ × ℕ)} {p q : ℕ} (hs : Seg h p F q)
    (hsame : ∀ b ∈ F, SameHeader h h' b.1) : Seg h' p F q := by
  induction F generalizing p with
  | nil => exact hs
  | cons b F ih =>
    obtain ⟨hp, hne, hsz, hrest⟩ := hs
    obtain ⟨hsize, hnext⟩ := hsame b (by simp)
    refine ⟨hp, hne, by rw [hsize, hsz], ?_⟩
    rw [hnext]
    exact ih hrest fun x hx => hsame x (List.mem_cons_of_mem _ hx)

theorem seg_append {h : Heap} {F G : List (ℕ × ℕ)} {p q : ℕ} :
    Seg h p (F ++ G) q ↔ ∃ r, Seg h p F r ∧ Seg h r G q := by
  induction F generalizing p with
  | nil => exact ⟨fun hs => ⟨p, rfl, hs⟩, fun ⟨_, hp, hs⟩ => by subst hp; exact hs⟩
  | cons b F ih =>
    simp only [List.cons_append, Seg, ih]
    constructor
    · rintro ⟨hp, hne, hsz, r, hF, hG⟩
      exact ⟨r, ⟨hp, hne, hsz, hF⟩, hG⟩
    · rintro ⟨r, ⟨hp, hne, hsz, hF⟩, hG⟩
      exact ⟨hp, hne, hsz, r, hF, hG⟩

/-! ### Header writes -/

/-- Two headers that do not overlap. -/
def HeadersApart (a b : ℕ) : Prop := a + headerSize ≤ b ∨ b + headerSize ≤ a

theorem headersApart_of_apart {x y : ℕ × ℕ} (h : Apart (extent x) (extent y)) :
    HeadersApart x.1 y.1 := by
  simp only [Apart, extent, HeadersApart, headerSize] at h ⊢
  omega

theorem sameHeader_setSize {h : Heap} {a b v : ℕ} (hab : HeadersApart a b) :
    SameHeader h (h.setSize a v) b := by
  simp only [HeadersApart, headerSize] at hab
  exact ⟨getLE_putLE_of_disjoint (by omega), getLE_putLE_of_disjoint (by omega)⟩

theorem sameHeader_store {h : Heap} {a c : ℕ} {v : UInt8} (hout : a < c ∨ c + headerSize ≤ a) :
    SameHeader h { h with mem := h.mem.putBytes a 1 fun _ => v } c := by
  simp only [headerSize] at hout
  constructor
  · change (h.mem.putBytes a 1 _).getLE c 4 = h.mem.getLE c 4
    exact getLE_putBytes_of_disjoint (by omega)
  · change (h.mem.putBytes a 1 _).getLE (c + 4) 4 = h.mem.getLE (c + 4) 4
    exact getLE_putBytes_of_disjoint (by omega)

theorem sameHeader_setNext {h : Heap} {a b v : ℕ} (hab : HeadersApart a b) :
    SameHeader h (h.setNext a v) b := by
  simp only [HeadersApart, headerSize] at hab
  exact ⟨getLE_putLE_of_disjoint (by omega), getLE_putLE_of_disjoint (by omega)⟩

theorem SameHeader.trans {h h' h'' : Heap} {a : ℕ} (h₁ : SameHeader h h' a)
    (h₂ : SameHeader h' h'' a) : SameHeader h h'' a :=
  ⟨h₂.1.trans h₁.1, h₂.2.trans h₁.2⟩

theorem size_setSize (h : Heap) (a v : ℕ) : (h.setSize a v).size a = u32 v :=
  getLE_putLE h.mem a 4 v

theorem next_setNext (h : Heap) (a v : ℕ) : (h.setNext a v).next a = u32 v :=
  getLE_putLE h.mem (a + 4) 4 v

theorem next_setSize (h : Heap) (a v : ℕ) : (h.setSize a v).next a = h.next a :=
  getLE_putLE_of_disjoint (by omega)

theorem size_setNext (h : Heap) (a v : ℕ) : (h.setNext a v).size a = h.size a :=
  getLE_putLE_of_disjoint (by omega)

theorem next_lt (h : Heap) (a : ℕ) : h.next a < 2 ^ 32 := getLE_lt h.mem (a + 4) 4

/-! ### The free list in memory -/

/-- The blocks met from `p` on by following `next`. -/
def followFree (h : Heap) : ℕ → ℕ → List (ℕ × ℕ)
  | 0, _ => []
  | fuel + 1, p => if p = 0 then [] else (p, h.size p) :: followFree h fuel (h.next p)

/-- The free list decoded from memory. -/
def Heap.freeBlocks (h : Heap) : List (ℕ × ℕ) := followFree h walkFuel h.freeList

/-- The allocator without its memory. -/
def Heap.store (h : Heap) : FreeStore := ⟨h.freeBlocks, h.heapBrk, h.heapMax⟩

theorem Seg.followFree {h : Heap} {F : List (ℕ × ℕ)} {p fuel : ℕ} (hs : Seg h p F 0)
    (hfuel : F.length < fuel) : followFree h fuel p = F := by
  induction F generalizing p fuel with
  | nil =>
    obtain ⟨fuel, rfl⟩ : ∃ n, fuel = n + 1 := ⟨fuel - 1, by omega⟩
    exact if_pos hs
  | cons b F ih =>
    obtain ⟨fuel, rfl⟩ : ∃ n, fuel = n + 1 := ⟨fuel - 1, by omega⟩
    obtain ⟨rfl, hne, hsz, hrest⟩ := hs
    rw [LittleLinux.Malloc.followFree, if_neg hne, hsz, ih hrest (by simpa using hfuel)]

/-! ### The first-fit walk -/

/-- The address of the last block of a chain, or `prev` when it is empty. -/
def lastAddr (prev : ℕ) : List (ℕ × ℕ) → ℕ
  | [] => prev
  | b :: F => lastAddr b.1 F

theorem lastAddr_concat (prev : ℕ) (F : List (ℕ × ℕ)) (b : ℕ × ℕ) :
    lastAddr prev (F ++ [b]) = b.1 := by
  induction F generalizing prev with
  | nil => rfl
  | cons c F ih => exact ih c.1

/-- **What the walk finds**: that no block fits, or the first block that does. -/
theorem findFit_spec {h : Heap} (req : ℕ) {fuel curr : ℕ} {F : List (ℕ × ℕ)} (hs : Seg h curr F 0)
    (hfuel : F.length < fuel) (prev : ℕ) :
    ((∀ b ∈ F, b.2 < req) ∧ findFit h req fuel prev curr = some (lastAddr prev F, 0)) ∨
      ∃ F₁ b F₂, F = F₁ ++ b :: F₂ ∧ (∀ c ∈ F₁, c.2 < req) ∧ req ≤ b.2 ∧
        findFit h req fuel prev curr = some (lastAddr prev F₁, b.1) := by
  induction F generalizing fuel prev curr with
  | nil =>
    obtain ⟨fuel, rfl⟩ : ∃ n, fuel = n + 1 := ⟨fuel - 1, by omega⟩
    obtain rfl : curr = 0 := hs
    exact .inl ⟨by simp, by simp [findFit, lastAddr]⟩
  | cons b F ih =>
    obtain ⟨fuel, rfl⟩ : ∃ n, fuel = n + 1 := ⟨fuel - 1, by omega⟩
    obtain ⟨rfl, hne, hsz, hrest⟩ := hs
    rcases Nat.lt_or_ge b.2 req with hlt | hge
    · have hstep : findFit h req (fuel + 1) prev b.1 = findFit h req fuel b.1 (h.next b.1) := by
        rw [findFit, if_neg hne, if_neg (by omega)]
      rw [hstep]
      rcases ih hrest (by simpa using hfuel) b.1 with ⟨hall, hf⟩ | ⟨F₁, c, F₂, rfl, hall, hc, hf⟩
      · exact .inl ⟨by simpa [hlt] using hall, hf⟩
      · exact .inr ⟨b :: F₁, c, F₂, rfl, by simpa [hlt] using hall, hc, hf⟩
    · refine .inr ⟨[], b, F, rfl, by simp, hge, ?_⟩
      rw [findFit, if_neg hne, if_pos (by omega)]
      rfl

/-! ### Relinking -/

/-- Redirecting the end of a chain: the blocks `F₁` now lead to `target`, and headers away from
theirs are untouched. -/
theorem relink_spec {h : Heap} {F₁ : List (ℕ × ℕ)} {r target : ℕ} (hs : Seg h h.freeList F₁ r)
    (hpair : F₁.Pairwise fun x y => HeadersApart x.1 y.1) (hto : target < 2 ^ 32) :
    Seg (relink h (lastAddr 0 F₁) target) (relink h (lastAddr 0 F₁) target).freeList F₁ target ∧
      ∀ a, (∀ b ∈ F₁, HeadersApart b.1 a) → SameHeader h (relink h (lastAddr 0 F₁) target) a := by
  rcases List.eq_nil_or_concat F₁ with rfl | ⟨F', b, rfl⟩
  · simp only [lastAddr, relink, if_true]
    exact ⟨rfl, fun _ _ => ⟨rfl, rfl⟩⟩
  · rw [List.concat_eq_append] at hs hpair ⊢
    obtain ⟨p, hF', hp, hne, hsz, -⟩ := seg_append.mp hs
    obtain ⟨-, -, hlast⟩ := List.pairwise_append.mp hpair
    rw [lastAddr_concat, relink, if_neg hne]
    refine ⟨seg_append.mpr ⟨p, ?_, hp, hne, ?_, ?_⟩, fun a ha => ?_⟩
    · exact hF'.congr fun c hc => sameHeader_setNext (Or.symm (hlast c hc b (by simp)))
    · rw [size_setNext, hsz]
    · rw [next_setNext]
      exact Nat.mod_eq_of_lt hto
    · exact sameHeader_setNext (ha b (by simp))

/-! ### The invariant -/

/-- The heap with free blocks `F` (in list order) and live blocks `L`. -/
structure HeapInv (E : ℕ) (h : Heap) (F L : List (ℕ × ℕ)) : Prop where
  end_pos : 0 < E
  chain : Seg h h.freeList F 0
  live_size : ∀ b ∈ L, h.size b.1 = b.2
  tiles : Tiles E h.heapBrk ((F ++ L).map extent)
  sizes : ∀ b ∈ F ++ L, 0 < b.2 ∧ 8 ∣ b.2
  brk_le : h.heapBrk ≤ h.heapMax
  brk_lt : h.heapBrk < 2 ^ 32

/-- Bringing one block of the free list to the front. -/
theorem perm_split (F₁ F₂ L : List (ℕ × ℕ)) (b : ℕ × ℕ) :
    (F₁ ++ b :: F₂ ++ L).Perm (b :: (F₁ ++ F₂ ++ L)) := by
  rw [List.append_assoc, List.append_assoc, List.cons_append]
  exact List.perm_middle

namespace HeapInv

variable {E : ℕ} {h : Heap} {F L F₁ F₂ : List (ℕ × ℕ)} {b : ℕ × ℕ}

/-- Where a block lies. -/
theorem bounds (hi : HeapInv E h F L) (hb : b ∈ F ++ L) :
    E ≤ b.1 ∧ b.1 + headerSize + b.2 ≤ h.heapBrk := by
  have hx := hi.tiles.bounds (List.mem_map_of_mem hb)
  simp only [extent] at hx
  omega

theorem headers_pairwise (hi : HeapInv E h F L) :
    (F ++ L).Pairwise fun x y => HeadersApart x.1 y.1 := by
  have hp := List.pairwise_map.mp hi.tiles.pairwise
  exact hp.imp fun hxy => headersApart_of_apart hxy

theorem length_lt (hi : HeapInv E h F L) : F.length < walkFuel := by
  unfold walkFuel
  have hlen := hi.tiles.length_le
  have hbrk := hi.brk_lt
  simp only [List.length_map, List.length_append] at hlen
  omega

/-- The block `b` of the free list, and the blocks around it. -/
theorem apart_of_split (hi : HeapInv E h (F₁ ++ b :: F₂) L) {c : ℕ × ℕ}
    (hc : c ∈ F₁ ++ F₂ ++ L) : Apart (extent b) (extent c) :=
  (hi.tiles.perm ((perm_split F₁ F₂ L b).map extent)).apart_head (List.mem_map_of_mem hc)

/-- The list `F` is what memory holds. -/
theorem freeBlocks (hi : HeapInv E h F L) : h.freeBlocks = F :=
  hi.chain.followFree hi.length_lt

theorem store (hi : HeapInv E h F L) : h.store = ⟨F, h.heapBrk, h.heapMax⟩ := by
  rw [Heap.store, hi.freeBlocks]

/-- Before the block is touched: what the chain around it says. -/
theorem chain_split (hi : HeapInv E h (F₁ ++ b :: F₂) L) :
    Seg h h.freeList F₁ b.1 ∧ b.1 ≠ 0 ∧ h.size b.1 = b.2 ∧ Seg h (h.next b.1) F₂ 0 := by
  obtain ⟨r, h₁, rfl, hne, hsz, h₂⟩ := seg_append.mp hi.chain
  exact ⟨h₁, hne, hsz, h₂⟩

end HeapInv

/-! ### Taking a block off the free list -/

section TakeBlock

variable {E : ℕ} {h : Heap} {F₁ F₂ L : List (ℕ × ℕ)} {b : ℕ × ℕ} {req : ℕ}

@[simp]
theorem heapBrk_relink (h : Heap) (prev target : ℕ) :
    (relink h prev target).heapBrk = h.heapBrk := by
  simp only [relink]
  split <;> rfl

@[simp]
theorem heapMax_relink (h : Heap) (prev target : ℕ) :
    (relink h prev target).heapMax = h.heapMax := by
  simp only [relink]
  split <;> rfl

@[simp]
theorem heapBrk_takeBlock (h : Heap) (req prev curr : ℕ) :
    (takeBlock h req prev curr).heapBrk = h.heapBrk := by
  simp only [takeBlock]
  split
  · exact heapBrk_relink ..
  · exact heapBrk_relink ..

@[simp]
theorem heapMax_takeBlock (h : Heap) (req prev curr : ℕ) :
    (takeBlock h req prev curr).heapMax = h.heapMax := by
  simp only [takeBlock]
  split
  · exact heapMax_relink ..
  · exact heapMax_relink ..

/-- The rest is too small for a block of its own: the whole block is handed out. -/
theorem takeBlock_whole (hi : HeapInv E h (F₁ ++ b :: F₂) L)
    (hrest : b.2 - req < headerSize + 8) :
    HeapInv E (takeBlock h req (lastAddr 0 F₁) b.1) (F₁ ++ F₂) (b :: L) := by
  obtain ⟨hF₁, hne, hsz, hF₂⟩ := hi.chain_split
  have hpair := List.pairwise_append.mp hi.headers_pairwise
  have htake : takeBlock h req (lastAddr 0 F₁) b.1 = relink h (lastAddr 0 F₁) (h.next b.1) := by
    rw [takeBlock, hsz]
    exact if_neg (by omega)
  obtain ⟨hseg, hsame⟩ := relink_spec hF₁ (List.pairwise_append.mp hpair.1).1 (next_lt h b.1)
  rw [htake]
  -- blocks outside `F₁` keep their headers
  have hkeep : ∀ c ∈ b :: F₂ ++ L, SameHeader h (relink h (lastAddr 0 F₁) (h.next b.1)) c.1 := by
    intro c hc
    refine hsame c.1 fun d hd => ?_
    rcases List.mem_append.mp hc with hc | hc
    · exact (List.pairwise_append.mp hpair.1).2.2 d hd c hc
    · exact hpair.2.2 d (List.mem_append_left _ hd) c hc
  refine
    { end_pos := hi.end_pos
      chain := seg_append.mpr ⟨_, hseg, hF₂.congr fun c hc => hkeep c (by simp [hc])⟩
      live_size := fun c hc => ?_
      tiles := ?_
      sizes := fun c hc => hi.sizes c ?_
      brk_le := by simpa using hi.brk_le
      brk_lt := by simpa using hi.brk_lt }
  · rcases List.mem_cons.mp hc with rfl | hc
    · rw [(hkeep c (by simp)).1, hsz]
    · rw [(hkeep c (by simp [hc])).1, hi.live_size c hc]
  · rw [heapBrk_relink]
    exact hi.tiles.perm (((perm_split F₁ F₂ L b).trans List.perm_middle.symm).map extent)
  · simp only [List.mem_append, List.mem_cons] at hc ⊢
    tauto

/-- The three header writes of a split, before the list is relinked. -/
def splitHeaders (h : Heap) (req curr : ℕ) : Heap :=
  let newFree := u32 (curr + headerSize + req)
  let h₁ := h.setSize newFree (h.size curr - req - headerSize)
  let h₂ := h₁.setNext newFree (h₁.next curr)
  h₂.setSize curr req

/-- The headers after these writes: the shrunk block, the new block behind it, and everything
that lies apart from the block that was split. -/
theorem splitHeaders_spec (hi : HeapInv E h (F₁ ++ b :: F₂) L) (hreq : 8 ≤ req)
    (hrest : headerSize + 8 ≤ b.2 - req) :
    u32 (b.1 + headerSize + req) = b.1 + headerSize + req ∧
      (splitHeaders h req b.1).size b.1 = req ∧
      (splitHeaders h req b.1).size (b.1 + headerSize + req) = b.2 - req - headerSize ∧
      (splitHeaders h req b.1).next (b.1 + headerSize + req) = h.next b.1 ∧
      ∀ c, Apart (extent b) (extent c) → SameHeader h (splitHeaders h req b.1) c.1 := by
  obtain ⟨-, -, hsz, -⟩ := hi.chain_split
  have hb := hi.bounds (b := b) (by simp)
  have hbrk := hi.brk_lt
  simp only [headerSize] at hb hrest ⊢
  have hnf : u32 (b.1 + 8 + req) = b.1 + 8 + req := Nat.mod_eq_of_lt (by omega)
  have hnext : (h.setSize (b.1 + 8 + req) (b.2 - req - 8)).next b.1 = h.next b.1 :=
    (sameHeader_setSize (by simp only [HeadersApart, headerSize]; omega)).2
  have hsplit : splitHeaders h req b.1 =
      ((h.setSize (b.1 + 8 + req) (b.2 - req - 8)).setNext (b.1 + 8 + req)
        (h.next b.1)).setSize b.1 req := by
    simp only [splitHeaders, headerSize, hnf, hsz, hnext]
  have hself : ∀ g : Heap, SameHeader g (g.setSize b.1 req) (b.1 + 8 + req) := fun g =>
    sameHeader_setSize (by simp only [HeadersApart, headerSize]; omega)
  rw [hsplit]
  refine ⟨hnf, ?_, ?_, ?_, fun c hc => ?_⟩
  · rw [size_setSize]
    exact Nat.mod_eq_of_lt (by omega)
  · rw [(hself _).1, size_setNext, size_setSize]
    exact Nat.mod_eq_of_lt (by omega)
  · rw [(hself _).2, next_setNext]
    exact Nat.mod_eq_of_lt (next_lt h b.1)
  · have hapart : HeadersApart (b.1 + 8 + req) c.1 ∧ HeadersApart b.1 c.1 := by
      simp only [Apart, extent, HeadersApart, headerSize] at hc ⊢
      omega
    exact ((sameHeader_setSize hapart.1).trans (sameHeader_setNext hapart.1)).trans
      (sameHeader_setSize hapart.2)

/-- The two parts of a cut block tile what it covered. -/
theorem HeapInv.split_tiles (hi : HeapInv E h (F₁ ++ b :: F₂) L)
    (hrest : headerSize + 8 ≤ b.2 - req) :
    Tiles E h.heapBrk
      (((F₁ ++ (b.1 + headerSize + req, b.2 - req - headerSize) :: F₂) ++
        (b.1, req) :: L).map extent) := by
  have ht := hi.tiles.perm ((perm_split F₁ F₂ L b).map extent)
  have hcut := Tiles.split (m := headerSize + req) ht (by simp [headerSize]) (by
    simp only [headerSize] at hrest ⊢
    omega)
  have hext : (b.1 + (headerSize + req), headerSize + b.2 - (headerSize + req)) =
      extent (b.1 + headerSize + req, b.2 - req - headerSize) := by
    simp only [extent, headerSize] at hrest ⊢
    exact Prod.ext (by omega) (by omega)
  rw [hext] at hcut
  refine hcut.perm ?_
  refine (List.Perm.swap _ _ _).trans ?_
  refine List.Perm.trans ?_ ((perm_split F₁ F₂ ((b.1, req) :: L) _).symm.map extent)
  have hlive : ((b.1, req) :: (F₁ ++ F₂ ++ L)).Perm (F₁ ++ F₂ ++ (b.1, req) :: L) :=
    List.perm_middle.symm
  exact (hlive.map extent).cons _

/-- The sizes of the two parts are positive multiples of 8. -/
theorem HeapInv.split_sizes (hi : HeapInv E h (F₁ ++ b :: F₂) L) (hreq : 8 ≤ req)
    (hdvd : 8 ∣ req) (hrest : headerSize + 8 ≤ b.2 - req) :
    ∀ c ∈ (F₁ ++ (b.1 + headerSize + req, b.2 - req - headerSize) :: F₂) ++ (b.1, req) :: L,
      0 < c.2 ∧ 8 ∣ c.2 := by
  have hbsz := hi.sizes b (by simp)
  have hold : ∀ x ∈ F₁ ++ F₂ ++ L, 0 < x.2 ∧ 8 ∣ x.2 := fun x hx =>
    hi.sizes x ((perm_split F₁ F₂ L b).mem_iff.2 (List.mem_cons_of_mem b hx))
  intro c hc
  simp only [List.mem_append, List.mem_cons] at hc
  rcases hc with (hc | rfl | hc) | rfl | hc
  · exact hold c (by simp [hc])
  · simp only [headerSize] at hrest ⊢
    omega
  · exact hold c (by simp [hc])
  · exact ⟨by omega, hdvd⟩
  · exact hold c (by simp [hc])

/-- The rest can hold a header and eight bytes: the block is cut in two and the rear part
takes its place on the free list. -/
theorem takeBlock_split (hi : HeapInv E h (F₁ ++ b :: F₂) L) (hreq : 8 ≤ req) (hdvd : 8 ∣ req)
    (hrest : headerSize + 8 ≤ b.2 - req) :
    HeapInv E (takeBlock h req (lastAddr 0 F₁) b.1)
      (F₁ ++ (b.1 + headerSize + req, b.2 - req - headerSize) :: F₂) ((b.1, req) :: L) := by
  obtain ⟨hF₁, hne, hsz, hF₂⟩ := hi.chain_split
  obtain ⟨hnf, hsize, hnfSize, hnfNext, hsame⟩ := splitHeaders_spec hi hreq hrest
  have hpair := List.pairwise_append.mp hi.headers_pairwise
  have hb := hi.bounds (b := b) (by simp)
  have hbsz := hi.sizes b (by simp)
  have hend := hi.end_pos
  have hlt : b.1 + headerSize + req < 2 ^ 32 := by
    rw [← hnf]
    exact Nat.mod_lt _ (by decide)
  have htake : takeBlock h req (lastAddr 0 F₁) b.1 =
      relink (splitHeaders h req b.1) (lastAddr 0 F₁) (b.1 + headerSize + req) := by
    simp only [takeBlock, hsz, splitHeaders, hnf]
    exact if_pos hrest
  have hF₁' : Seg (splitHeaders h req b.1) (splitHeaders h req b.1).freeList F₁ b.1 :=
    hF₁.congr fun c hc => hsame c (hi.apart_of_split (by simp [hc]))
  obtain ⟨hseg, hkeep⟩ := relink_spec hF₁' (List.pairwise_append.mp hpair.1).1 hlt
  rw [htake]
  set h' := relink (splitHeaders h req b.1) (lastAddr 0 F₁) (b.1 + headerSize + req)
  -- a header apart from those of `F₁` is the one the split left there
  have hapart : ∀ c ∈ F₂ ++ L, ∀ d ∈ F₁, HeadersApart d.1 c.1 := by
    intro c hc d hd
    rcases List.mem_append.mp hc with hc | hc
    · exact (List.pairwise_append.mp hpair.1).2.2 d hd c (List.mem_cons_of_mem _ hc)
    · exact hpair.2.2 d (List.mem_append_left _ hd) c hc
  have hkeepB : SameHeader (splitHeaders h req b.1) h' b.1 := by
    refine hkeep _ fun d hd => ?_
    exact (List.pairwise_append.mp hpair.1).2.2 d hd b (by simp)
  have hkeepNew : SameHeader (splitHeaders h req b.1) h' (b.1 + headerSize + req) := by
    refine hkeep _ fun d hd => ?_
    have hd' := hi.apart_of_split (c := d) (by simp [hd])
    simp only [Apart, extent, HeadersApart, headerSize] at hd' hrest ⊢
    omega
  have hkeepC : ∀ c ∈ F₂ ++ L, SameHeader h h' c.1 := fun c hc =>
    (hsame c (hi.apart_of_split (by
      rw [List.append_assoc]
      exact List.mem_append_right _ hc))).trans (hkeep _ (hapart c hc))
  refine
    { end_pos := hi.end_pos
      chain := seg_append.mpr ⟨_, hseg, rfl, by omega, ?_, ?_⟩
      live_size := fun c hc => ?_
      tiles := ?_
      sizes := fun c hc => ?_
      brk_le := ?_
      brk_lt := ?_ }
  · rw [hkeepNew.1, hnfSize]
  · rw [hkeepNew.2, hnfNext]
    exact hF₂.congr fun c hc => hkeepC c (by simp [hc])
  · rcases List.mem_cons.mp hc with rfl | hc
    · rw [hkeepB.1, hsize]
    · rw [(hkeepC c (by simp [hc])).1, hi.live_size c hc]
  · rw [heapBrk_relink]
    exact hi.split_tiles hrest
  · exact hi.split_sizes hreq hdvd hrest c hc
  · rw [heapBrk_relink, heapMax_relink]
    exact hi.brk_le
  · rw [heapBrk_relink]
    exact hi.brk_lt

/-- `x` lies in no byte of the block `b`. -/
def OutsideBlock (x : ℕ) (b : ℕ × ℕ) : Prop := x < b.1 ∨ b.1 + headerSize + b.2 ≤ x

theorem mem_setSize {a v x : ℕ} (hx : x < a ∨ a + headerSize ≤ x) :
    (h.setSize a v).mem x = h.mem x := by
  simp only [headerSize] at hx
  exact putLE_of_notMem (by omega)

theorem mem_setNext {a v x : ℕ} (hx : x < a ∨ a + headerSize ≤ x) :
    (h.setNext a v).mem x = h.mem x := by
  simp only [headerSize] at hx
  exact putLE_of_notMem (by omega)

/-- Relinking writes to a header of the chain, or to no memory at all. -/
theorem mem_relink {target x : ℕ} (hx : ∀ c ∈ F₁, OutsideBlock x c) :
    (relink h (lastAddr 0 F₁) target).mem x = h.mem x := by
  rcases List.eq_nil_or_concat F₁ with rfl | ⟨F', c, rfl⟩
  · rfl
  · rw [List.concat_eq_append] at hx ⊢
    have hc : OutsideBlock x c := hx c (by simp)
    simp only [OutsideBlock] at hc
    rw [lastAddr_concat, relink]
    split
    · rfl
    · exact mem_setNext (by omega)

/-- **The frame of an allocation**: only bytes of the block itself and of the blocks before it on
the list change. -/
theorem mem_takeBlock (hi : HeapInv E h (F₁ ++ b :: F₂) L) (hreq : 8 ≤ req) {x : ℕ}
    (hb : OutsideBlock x b) (hF₁ : ∀ c ∈ F₁, OutsideBlock x c) :
    (takeBlock h req (lastAddr 0 F₁) b.1).mem x = h.mem x := by
  obtain ⟨-, -, hsz, -⟩ := hi.chain_split
  simp only [OutsideBlock, headerSize] at hb
  rcases Nat.lt_or_ge (b.2 - req) (headerSize + 8) with hrest | hrest
  · have htake : takeBlock h req (lastAddr 0 F₁) b.1 =
        relink h (lastAddr 0 F₁) (h.next b.1) := by
      rw [takeBlock, hsz]
      exact if_neg (by omega)
    rw [htake]
    exact mem_relink hF₁
  · obtain ⟨hnf, -⟩ := splitHeaders_spec hi hreq hrest
    have htake : takeBlock h req (lastAddr 0 F₁) b.1 =
        relink (splitHeaders h req b.1) (lastAddr 0 F₁) (b.1 + headerSize + req) := by
      simp only [takeBlock, hsz, splitHeaders, hnf]
      exact if_pos hrest
    simp only [headerSize] at hrest hnf
    rw [htake, mem_relink hF₁]
    dsimp only [splitHeaders, headerSize]
    rw [hnf, mem_setSize (by simp only [headerSize]; omega),
      mem_setNext (by simp only [headerSize]; omega), mem_setSize (by simp only [headerSize]; omega)]

end TakeBlock

/-! ### Pools -/

section Pools

variable {E : ℕ} {h : Heap} {F L : List (ℕ × ℕ)}

theorem alignUp_poolSize : alignUp poolSize = poolSize := by
  rw [poolSize_eq]
  decide

theorem extent_pool (a : ℕ) : extent (a, poolSize - headerSize) = (a, poolSize) := by
  have hsize : headerSize + (poolSize - headerSize) = poolSize := by
    rw [poolSize_eq, headerSize]
  exact congrArg (Prod.mk a) hsize

theorem poolSize_spec : 0 < poolSize - headerSize ∧ 8 ∣ poolSize - headerSize := by
  rw [poolSize_eq]
  decide

/-- `request_memory` of one pool, as long as no address wraps. -/
theorem requestMemory_pool (hroom : h.heapBrk + poolSize < 2 ^ 32) :
    requestMemory h poolSize =
      if h.heapMax < h.heapBrk + poolSize then (0, h)
      else (h.heapBrk, { h with heapBrk := h.heapBrk + poolSize }) := by
  have hu : u32 (h.heapBrk + poolSize) = h.heapBrk + poolSize := Nat.mod_eq_of_lt hroom
  simp only [requestMemory, alignUp_poolSize, hu, gt_iff_lt]

/-- A pool at the end of the heap becomes the head of the free list. -/
theorem addPool_inv (hi : HeapInv E h F L) (hfit : h.heapBrk + poolSize ≤ h.heapMax)
    (hroom : h.heapBrk + poolSize < 2 ^ 32) :
    HeapInv E (addPool { h with heapBrk := h.heapBrk + poolSize } h.heapBrk)
      ((h.heapBrk, poolSize - headerSize) :: F) L := by
  have hle := hi.tiles.le
  have hend := hi.end_pos
  -- every block ends at or below the pool, so none of its headers is written
  have hapart : ∀ b ∈ F ++ L, HeadersApart h.heapBrk b.1 := by
    intro b hb
    have := hi.bounds hb
    simp only [HeadersApart, headerSize] at this ⊢
    omega
  set h₀ : Heap := { h with heapBrk := h.heapBrk + poolSize }
  set h₁ := h₀.setSize h.heapBrk (poolSize - headerSize)
  set h₂ := h₁.setNext h.heapBrk h.freeList
  have hadd : addPool h₀ h.heapBrk = { h₂ with freeList := h.heapBrk } := rfl
  have hsame : ∀ b ∈ F ++ L, SameHeader h { h₂ with freeList := h.heapBrk } b.1 := fun b hb =>
    (sameHeader_setSize (h := h₀) (hapart b hb)).trans (sameHeader_setNext (hapart b hb))
  have hhead : h.freeList < 2 ^ 32 := by
    have hchain := hi.chain
    rcases F with _ | ⟨b, F⟩
    · have h0 : h.freeList = 0 := hchain
      omega
    · have hb := hi.bounds (b := b) (by simp)
      have hp : h.freeList = b.1 := hchain.1
      have hbrk := hi.brk_lt
      omega
  rw [hadd]
  refine
    { end_pos := hi.end_pos
      chain := ⟨rfl, by omega, ?_, ?_⟩
      live_size := fun c hc => ?_
      tiles := ?_
      sizes := fun c hc => ?_
      brk_le := hfit
      brk_lt := hroom }
  · have hsz : u32 (poolSize - headerSize) = poolSize - headerSize := by
      rw [poolSize_eq]
      decide
    exact (size_setNext h₁ h.heapBrk h.freeList).trans
      ((size_setSize h₀ h.heapBrk (poolSize - headerSize)).trans hsz)
  · have hnext : h₂.next h.heapBrk = h.freeList :=
      (next_setNext h₁ h.heapBrk h.freeList).trans (Nat.mod_eq_of_lt hhead)
    change Seg _ (h₂.next h.heapBrk) F 0
    rw [hnext]
    exact hi.chain.congr fun c hc => hsame c (by simp [hc])
  · rw [(hsame c (by simp [hc])).1, hi.live_size c hc]
  · rw [List.cons_append, List.map_cons, extent_pool]
    exact hi.tiles.extend (by rw [poolSize_eq]; decide)
  · rcases List.mem_append.mp hc with hc | hc
    · rcases List.mem_cons.mp hc with rfl | hc
      · exact poolSize_spec
      · exact hi.sizes c (by simp [hc])
    · exact hi.sizes c (by simp [hc])

theorem expandHeap_eq (hi : HeapInv E h F L) (hroom : h.heapBrk + poolSize < 2 ^ 32)
    (hle : h.heapBrk + poolSize ≤ h.heapMax) :
    expandHeap h = (true, addPool { h with heapBrk := h.heapBrk + poolSize } h.heapBrk) := by
  have htiles := hi.tiles.le
  have hend := hi.end_pos
  have hreq := requestMemory_pool hroom
  rw [if_neg (Nat.not_lt.2 hle)] at hreq
  simp only [expandHeap, hreq]
  exact if_neg (by omega)

/-- `expand_heap` adds a pool exactly when one fits below `heap_max`. -/
theorem expandHeap_spec (hi : HeapInv E h F L) (hroom : h.heapBrk + poolSize < 2 ^ 32) :
    (h.heapMax < h.heapBrk + poolSize ∧ expandHeap h = (false, h)) ∨
      (h.heapBrk + poolSize ≤ h.heapMax ∧ (expandHeap h).1 = true ∧
        (expandHeap h).2.heapBrk = h.heapBrk + poolSize ∧
        (expandHeap h).2.heapMax = h.heapMax ∧
        HeapInv E (expandHeap h).2 ((h.heapBrk, poolSize - headerSize) :: F) L) := by
  have hreq := requestMemory_pool hroom
  rcases Nat.lt_or_ge h.heapMax (h.heapBrk + poolSize) with hlt | hge
  · rw [if_pos hlt] at hreq
    exact .inl ⟨hlt, by simp only [expandHeap, hreq, if_true]⟩
  · have hexp := expandHeap_eq hi hroom hge
    refine .inr ⟨hge, ?_, ?_, ?_, ?_⟩
    · rw [hexp]
    · rw [hexp]
      rfl
    · rw [hexp]
      rfl
    · rw [hexp]
      exact addPool_inv hi hge hroom

end Pools

/-! ### The operations -/

section Operations

variable {E : ℕ} {h : Heap} {F F₁ F₂ L : List (ℕ × ℕ)} {b : ℕ × ℕ}

/-- The pointer to a block, and NULL for none. -/
def blockPointer : Option (ℕ × ℕ) → ℕ
  | none => 0
  | some b => b.1 + headerSize

/-- What a request for `size` bytes does to a heap without its memory. -/
def Heap.alloc (h : Heap) (size : ℕ) : Option (ℕ × ℕ) × FreeStore :=
  if size = 0 then (none, h.store) else h.store.alloc headerSize 8 poolSize (reqSize size)

@[simp]
theorem Heap.limit_alloc (h : Heap) (size : ℕ) : (h.alloc size).2.limit = h.heapMax := by
  unfold Heap.alloc
  split
  · dsimp only [Heap.store]
  · exact FreeStore.limit_alloc (reqSize size) h.store

/-- No address computed on the way to this outcome reaches `2 ^ 32`: neither the end of the last
pool taken nor, in a request that fails, the end of the pool asked for last. -/
def FitsWord (res : Option (ℕ × ℕ) × FreeStore) : Prop :=
  res.2.brk < 2 ^ 32 ∧ (res.1 = none → res.2.brk + poolSize < 2 ^ 32)

/-- The bytes that the callers keep in the blocks of `L` are the same. -/
def SameUserBytes (L : List (ℕ × ℕ)) (h h' : Heap) : Prop :=
  ∀ b ∈ L, ∀ x, b.1 + headerSize ≤ x → x < b.1 + headerSize + b.2 → h'.mem x = h.mem x

/-- The heap `h'` that a request with the outcome `res` leaves behind. -/
structure Allocated (E : ℕ) (L : List (ℕ × ℕ)) (h : Heap) (res : Option (ℕ × ℕ) × FreeStore)
    (h' : Heap) : Prop where
  inv : HeapInv E h' res.2.free (res.1.toList ++ L)
  brk : h'.heapBrk = res.2.brk
  limit : h'.heapMax = res.2.limit
  bytes : SameUserBytes L h h'

/-- A byte of a live block is outside every other block. -/
theorem HeapInv.outside (hi : HeapInv E h (F₁ ++ b :: F₂) L) {c : ℕ × ℕ} (hc : c ∈ L) {x : ℕ}
    (hlo : c.1 + headerSize ≤ x) (hhi : x < c.1 + headerSize + c.2) :
    ∀ d ∈ F₁ ++ b :: F₂, OutsideBlock x d := by
  intro d hd
  have hpair := List.pairwise_append.mp (List.pairwise_map.mp hi.tiles.pairwise)
  have hapart := hpair.2.2 d hd c hc
  simp only [Apart, extent] at hapart
  simp only [OutsideBlock]
  omega

/-- **The block found is taken off the list** as `takeFirst` says. -/
theorem takeBlock_allocated {size : ℕ} (hi : HeapInv E h (F₁ ++ b :: F₂) L)
    (hF₁ : ∀ c ∈ F₁, c.2 < reqSize size) (hfit : reqSize size ≤ b.2) :
    Allocated E L h
      ((FreeStore.mk (F₁ ++ b :: F₂) h.heapBrk h.heapMax).alloc headerSize 8 poolSize
        (reqSize size))
      (takeBlock h (reqSize size) (lastAddr 0 F₁) b.1) := by
  obtain ⟨hr8, hrd, -⟩ := reqSize_spec size
  have hbytes : SameUserBytes L h (takeBlock h (reqSize size) (lastAddr 0 F₁) b.1) := by
    intro c hc x hlo hhi
    have hout := hi.outside hc hlo hhi
    exact mem_takeBlock hi hr8 (hout b (by simp)) fun d hd => hout d (by simp [hd])
  rw [FreeStore.alloc_of_fit rfl hF₁ hfit]
  rcases Nat.lt_or_ge (b.2 - reqSize size) (headerSize + 8) with hrest | hrest
  · have hcond : ¬headerSize + 8 ≤ b.2 - reqSize size := Nat.not_le.2 hrest
    have hinv := takeBlock_whole hi hrest
    refine ⟨?_, heapBrk_takeBlock .., heapMax_takeBlock .., hbytes⟩
    rw [granted, remainder, if_neg hcond, if_neg hcond, List.append_nil]
    exact hinv
  · have hinv := takeBlock_split hi hr8 hrd hrest
    refine ⟨?_, heapBrk_takeBlock .., heapMax_takeBlock .., hbytes⟩
    rw [granted, remainder, if_pos hrest, if_pos hrest, List.append_assoc]
    exact hinv

/-- The memory of the blocks is as it was when a pool is added. -/
theorem HeapInv.sameUserBytes_addPool (hi : HeapInv E h F L) :
    SameUserBytes L h (addPool { h with heapBrk := h.heapBrk + poolSize } h.heapBrk) := by
  intro b hb x hlo hhi
  have hbounds := hi.bounds (List.mem_append_right F hb)
  have hout : x < h.heapBrk ∨ h.heapBrk + headerSize ≤ x := .inl (by omega)
  exact (mem_setNext hout).trans (mem_setSize hout)

/-- **The recursion of `malloc`** performs what `alloc` says, as long as no address wraps. Every
recursive call has added a pool, so the fuel lasts. -/
theorem mallocRec_allocated {size : ℕ} (hsize : size ≠ 0) (fuel : ℕ) (hi : HeapInv E h F L)
    (hfuel : 2 ^ 32 ≤ h.heapBrk + fuel * poolSize)
    (hword : FitsWord ((FreeStore.mk F h.heapBrk h.heapMax).alloc headerSize 8 poolSize
      (reqSize size))) :
    ∃ h', mallocRec fuel h size =
        some (blockPointer ((FreeStore.mk F h.heapBrk h.heapMax).alloc headerSize 8 poolSize
          (reqSize size)).1, h') ∧
      Allocated E L h
        ((FreeStore.mk F h.heapBrk h.heapMax).alloc headerSize 8 poolSize (reqSize size)) h' := by
  have hpool : 0 < poolSize := by
    rw [poolSize_eq]
    decide
  induction fuel generalizing h F with
  | zero =>
    have := hi.brk_lt
    omega
  | succ fuel ih =>
    rw [mallocRec, if_neg hsize]
    rcases findFit_spec (reqSize size) hi.chain hi.length_lt 0 with
      ⟨hall, hf⟩ | ⟨F₁, b, F₂, rfl, hF₁, hfit, hf⟩
    · rw [hf]
      rcases Nat.lt_or_ge h.heapMax (h.heapBrk + poolSize) with hfull | hle
      · -- no pool left
        rw [FreeStore.alloc_of_full hpool hall hfull] at hword ⊢
        obtain ⟨-, he⟩ | ⟨hle, -⟩ := expandHeap_spec hi (hword.2 rfl)
        · exact ⟨h, by simp [he, blockPointer], hi, rfl, rfl, fun _ _ _ _ _ => rfl⟩
        · omega
      · rw [← FreeStore.alloc_grow hpool hall hle] at hword ⊢
        have hroom : h.heapBrk + poolSize < 2 ^ 32 :=
          lt_of_le_of_lt (FreeStore.brk_alloc (reqSize size)
            ((FreeStore.mk F h.heapBrk h.heapMax).grow headerSize poolSize)).1 hword.1
        obtain ⟨hlt, -⟩ | ⟨-, hok, hbrk, hmax, hi'⟩ := expandHeap_spec hi hroom
        · omega
        have hstore : FreeStore.mk ((h.heapBrk, poolSize - headerSize) :: F)
            (expandHeap h).2.heapBrk (expandHeap h).2.heapMax =
            (FreeStore.mk F h.heapBrk h.heapMax).grow headerSize poolSize := by
          rw [hbrk, hmax]
          rfl
        obtain ⟨h', hm, ha⟩ := ih hi' (by rw [hbrk]; linarith only [hfuel]) (by rwa [hstore])
        rw [hstore] at hm ha
        refine ⟨h', ?_, ha.inv, ha.brk, ha.limit, fun b hb x hlo hhi => ?_⟩
        · simpa only [ne_eq, not_true_eq_false, if_false, hok, if_true] using hm
        · rw [ha.bytes b hb x hlo hhi, expandHeap_eq hi hroom hle]
          exact hi.sameUserBytes_addPool b hb x hlo hhi
    · obtain ⟨-, hne, -, -⟩ := hi.chain_split
      have hb := hi.bounds (b := b) (by simp)
      have hbrk := hi.brk_lt
      have hp : u32 (b.1 + headerSize) = b.1 + headerSize := Nat.mod_eq_of_lt (by omega)
      refine ⟨_, ?_, takeBlock_allocated hi hF₁ hfit⟩
      rw [hf, FreeStore.alloc_of_fit rfl hF₁ hfit]
      simp only [hne, ne_eq, not_false_eq_true, if_true, hp, blockPointer, granted]

/-- **What `malloc` does** to a heap that satisfies the invariant, when no address wraps: it
returns, and does to the heap what `alloc` does to the free list. -/
theorem malloc_allocated (hi : HeapInv E h F L) {size : ℕ}
    (hword : size ≠ 0 → FitsWord (h.alloc size)) :
    ∃ h', malloc h size = some (blockPointer (h.alloc size).1, h') ∧
      Allocated E L h (h.alloc size) h' := by
  rw [Heap.alloc, hi.store] at hword ⊢
  rcases eq_or_ne size 0 with hz | hz
  · refine ⟨h, ?_, ?_⟩
    · simp [malloc, mallocRec, hz, blockPointer]
    · rw [if_pos hz]
      exact ⟨hi, rfl, rfl, fun _ _ _ _ _ => rfl⟩
  · rw [if_neg hz] at hword ⊢
    refine mallocRec_allocated hz 258 hi ?_ (hword hz)
    rw [poolSize_eq]
    omega

/-- Where a whole pool fits behind `heap_max`, no address wraps. -/
theorem fitsWord_of_room (hi : HeapInv E h F L) (hroom : h.heapMax + poolSize < 2 ^ 32) (size : ℕ) :
    FitsWord (h.alloc size) := by
  have hle : (h.alloc size).2.brk ≤ h.heapMax := by
    unfold Heap.alloc
    split
    · exact hi.brk_le
    · exact (FreeStore.brk_alloc (reqSize size) h.store).2 hi.brk_le
  exact ⟨by omega, fun _ => by omega⟩

@[simp]
theorem heapMax_free (h : Heap) (p : ℕ) : (free h p).heapMax = h.heapMax := by
  have hlink : ∀ block,
      Heap.heapMax { h.setNext block h.freeList with freeList := block } = h.heapMax :=
    fun _ => rfl
  rcases eq_or_ne p 0 with hp | hp
  · rw [free, if_pos hp]
  · rw [free, if_neg hp]
    exact hlink _

/-- **What `free` does**: the block moves to the head of the free list. -/
theorem free_spec {b : ℕ × ℕ} (hi : HeapInv E h F (b :: L)) :
    HeapInv E (free h (b.1 + headerSize)) (b :: F) L := by
  have hb := hi.bounds (b := b) (by simp)
  have hbrk := hi.brk_lt
  have hend := hi.end_pos
  have hblock : u32 (b.1 + headerSize + 2 ^ 32 - headerSize) = b.1 := by
    rw [show b.1 + headerSize + 2 ^ 32 - headerSize = b.1 + 2 ^ 32 by omega, u32,
      Nat.add_mod_right]
    exact Nat.mod_eq_of_lt (by omega)
  have hfree : free h (b.1 + headerSize) =
      { h.setNext b.1 h.freeList with freeList := b.1 } := by
    rw [free, if_neg (by omega), hblock]
  have hperm : (F ++ b :: L).Perm (b :: F ++ L) := List.perm_middle
  -- the block's header is apart from every other header, so the link written there is seen by none
  have hsame : ∀ c ∈ F ++ L, SameHeader h { h.setNext b.1 h.freeList with freeList := b.1 } c.1 := by
    intro c hc
    have hapart := (hi.tiles.perm (hperm.map extent)).apart_head (List.mem_map_of_mem hc)
    exact sameHeader_setNext (headersApart_of_apart hapart)
  -- the old head is a block or the null pointer, a word in both cases
  have hhead : h.freeList < 2 ^ 32 := by
    have hchain := hi.chain
    rcases F with _ | ⟨c, F⟩
    · have h0 : h.freeList = 0 := hchain
      omega
    · have hc := hi.bounds (b := c) (by simp)
      have hp : h.freeList = c.1 := hchain.1
      omega
  rw [hfree]
  refine
    { end_pos := hi.end_pos
      chain := ⟨rfl, by omega, ?_, ?_⟩
      live_size := fun c hc => ?_
      tiles := hi.tiles.perm (hperm.map extent)
      sizes := fun c hc => hi.sizes c (hperm.mem_iff.mpr hc)
      brk_le := hi.brk_le
      brk_lt := hi.brk_lt }
  · exact (size_setNext h b.1 h.freeList).trans (hi.live_size b (by simp))
  · have hnext : (h.setNext b.1 h.freeList).next b.1 = h.freeList :=
      (next_setNext h b.1 h.freeList).trans (Nat.mod_eq_of_lt hhead)
    change Seg _ ((h.setNext b.1 h.freeList).next b.1) F 0
    rw [hnext]
    exact hi.chain.congr fun c hc => hsame c (by simp [hc])
  · rw [(hsame c (by simp [hc])).1, hi.live_size c (by simp [hc])]

end Operations

/-! ### Runs -/

/-- The allocator with the pointers its callers hold. -/
structure AllocState where
  heap : Heap
  live : List ℕ

/-- A call, or a caller's store into memory. -/
inductive AllocOp where
  | malloc (size : ℕ)
  | free (p : ℕ)
  | store (a : ℕ) (v : UInt8)

/-- The live blocks, with the sizes their headers hold. -/
def AllocState.liveBlocks (s : AllocState) : List (ℕ × ℕ) :=
  s.live.map fun p => (p - headerSize, s.heap.size (p - headerSize))

/-- What a caller may do: ask for any 32-bit size, free a pointer it holds, store into the
user area of a block it holds. -/
def AllocOp.Legal (s : AllocState) : AllocOp → Prop
  | .malloc size => size < 2 ^ 32
  | .free p => p ∈ s.live
  | .store a _ => ∃ p ∈ s.live, p ≤ a ∧ a < p + s.heap.size (p - headerSize)

instance (s : AllocState) : (op : AllocOp) → Decidable (op.Legal s)
  | .malloc size => inferInstanceAs (Decidable (size < 2 ^ 32))
  | .free p => inferInstanceAs (Decidable (p ∈ s.live))
  | .store a _ => inferInstanceAs
      (Decidable (∃ p ∈ s.live, p ≤ a ∧ a < p + s.heap.size (p - headerSize)))

/-- One step. A call of `malloc` that does not return would leave the state as it is. -/
def allocStep (s : AllocState) : AllocOp → AllocState
  | .malloc size =>
    match malloc s.heap size with
    | some (p, h) => if p = 0 then ⟨h, s.live⟩ else ⟨h, p :: s.live⟩
    | none => s
  | .free p => ⟨free s.heap p, s.live.erase p⟩
  | .store a v => ⟨{ s.heap with mem := s.heap.mem.putBytes a 1 fun _ => v }, s.live⟩

/-- The invariant of a run. -/
def AllocInv (E : ℕ) (s : AllocState) : Prop :=
  (∃ F, HeapInv E s.heap F s.liveBlocks) ∧ ∀ p ∈ s.live, headerSize ≤ p

theorem HeapInv.perm_live {E : ℕ} {h : Heap} {F L L' : List (ℕ × ℕ)} (hi : HeapInv E h F L)
    (hp : L.Perm L') : HeapInv E h F L' where
  end_pos := hi.end_pos
  chain := hi.chain
  live_size := fun b hb => hi.live_size b (hp.mem_iff.mpr hb)
  tiles := hi.tiles.perm ((hp.append_left F).map extent)
  sizes := fun b hb => hi.sizes b ((hp.append_left F).mem_iff.mpr hb)
  brk_le := hi.brk_le
  brk_lt := hi.brk_lt

/-- Reading the live blocks again in a state whose headers are those of `L`. -/
theorem liveBlocks_eq {h h' : Heap} (live : List ℕ)
    (hsz : ∀ b ∈ (AllocState.mk h live).liveBlocks, h'.size b.1 = b.2) :
    (AllocState.mk h' live).liveBlocks = (AllocState.mk h live).liveBlocks := by
  refine List.map_congr_left fun p hp => ?_
  have hb := hsz _ (List.mem_map_of_mem hp)
  exact Prod.ext rfl hb

/-- No address that the step computes reaches `2 ^ 32`. -/
def AllocOp.NoWrap (s : AllocState) : AllocOp → Prop
  | .malloc size => size ≠ 0 → FitsWord (s.heap.alloc size)
  | _ => True

theorem AllocInv.malloc {E : ℕ} {s : AllocState} (hs : AllocInv E s) {size : ℕ}
    (hword : AllocOp.NoWrap s (.malloc size)) : AllocInv E (allocStep s (.malloc size)) := by
  obtain ⟨⟨F, hi⟩, hge⟩ := hs
  obtain ⟨h', hm, ha⟩ := malloc_allocated hi hword
  have hinv := ha.inv
  rcases hres : (s.heap.alloc size).1 with _ | b
  · rw [hres] at hm hinv
    simp only [allocStep, hm, blockPointer, if_true]
    refine ⟨⟨(s.heap.alloc size).2.free, ?_⟩, hge⟩
    rw [liveBlocks_eq (h := s.heap) s.live hinv.live_size]
    exact hinv
  · have hne : b.1 + headerSize ≠ 0 := by simp [headerSize]
    rw [hres] at hm hinv
    simp only [allocStep, hm, blockPointer, hne, if_false]
    refine ⟨⟨(s.heap.alloc size).2.free, ?_⟩, fun p hp => ?_⟩
    · have hrest := liveBlocks_eq (h := s.heap) s.live fun c hc =>
        hinv.live_size c (List.mem_cons_of_mem _ hc)
      have hblocks : (AllocState.mk h' ((b.1 + headerSize) :: s.live)).liveBlocks =
          b :: s.liveBlocks := by
        have hb := hinv.live_size b (by simp)
        rw [AllocState.liveBlocks, List.map_cons, Nat.add_sub_cancel, hb]
        exact congrArg (List.cons b) hrest
      rw [hblocks]
      exact hinv
    · rcases List.mem_cons.mp hp with rfl | hp
      · omega
      · exact hge p hp

theorem AllocInv.free {E : ℕ} {s : AllocState} (hs : AllocInv E s) {p : ℕ} (hp : p ∈ s.live) :
    AllocInv E (allocStep s (.free p)) := by
  obtain ⟨⟨F, hi⟩, hge⟩ := hs
  have hperm : s.liveBlocks.Perm
      ((p - headerSize, s.heap.size (p - headerSize)) :: (AllocState.mk s.heap (s.live.erase p)).liveBlocks) :=
    (List.perm_cons_erase hp).map _
  have hi' := free_spec (hi.perm_live hperm)
  rw [Nat.sub_add_cancel (hge p hp)] at hi'
  refine ⟨⟨(p - headerSize, s.heap.size (p - headerSize)) :: F, ?_⟩,
    fun q hq => hge q (List.mem_of_mem_erase hq)⟩
  have hrest := liveBlocks_eq (h := s.heap) (s.live.erase p) hi'.live_size
  rw [allocStep, hrest]
  exact hi'

/-- A caller's store into its own block writes to no header. -/
theorem HeapInv.sameHeader_store {E : ℕ} {s : AllocState} {F : List (ℕ × ℕ)} {a : ℕ} {v : UInt8}
    (hi : HeapInv E s.heap F s.liveBlocks) (hge : ∀ p ∈ s.live, headerSize ≤ p)
    (hl : AllocOp.Legal s (.store a v)) :
    ∀ c ∈ F ++ s.liveBlocks, SameHeader s.heap (allocStep s (.store a v)).heap c.1 := by
  obtain ⟨p, hp, hpa, hap⟩ := hl
  have hp8 := hge p hp
  obtain ⟨q, rfl⟩ : ∃ q, p = q + headerSize := ⟨p - headerSize, by omega⟩
  have hb : (q, s.heap.size q) ∈ F ++ s.liveBlocks := by
    refine List.mem_append_right F (List.mem_map.mpr ⟨_, hp, ?_⟩)
    rw [Nat.add_sub_cancel]
  rw [Nat.add_sub_cancel] at hap
  -- the address lies in no header: not in its own block's, and not in another block
  intro c hc
  have hout : a < c.1 ∨ c.1 + headerSize ≤ a := by
    rcases eq_or_ne c (q, s.heap.size q) with rfl | hne
    · exact .inr hpa
    · have hapart := hi.tiles.apart_of_ne (List.mem_map_of_mem hc) (List.mem_map_of_mem hb)
        fun h => hne (extent_injective h)
      simp only [Apart, extent] at hapart
      omega
  exact LittleLinux.Malloc.sameHeader_store hout

theorem AllocInv.store {E : ℕ} {s : AllocState} (hs : AllocInv E s) {a : ℕ} {v : UInt8}
    (hl : AllocOp.Legal s (.store a v)) : AllocInv E (allocStep s (.store a v)) := by
  obtain ⟨⟨F, hi⟩, hge⟩ := hs
  have hsame := hi.sameHeader_store hge hl
  have hblocks : (allocStep s (.store a v)).liveBlocks = s.liveBlocks :=
    liveBlocks_eq (h := s.heap) s.live fun c hc =>
      (hsame c (List.mem_append_right F hc)).1.trans (hi.live_size c hc)
  refine ⟨⟨F, ?_⟩, hge⟩
  rw [hblocks]
  exact
    { end_pos := hi.end_pos
      chain := hi.chain.congr fun c hc => hsame c (List.mem_append_left _ hc)
      live_size := fun c hc => (hsame c (List.mem_append_right F hc)).1.trans (hi.live_size c hc)
      tiles := hi.tiles
      sizes := hi.sizes
      brk_le := hi.brk_le
      brk_lt := hi.brk_lt }

/-- Every legal step that does not wrap preserves the invariant. -/
theorem AllocInv.step {E : ℕ} {s : AllocState} {op : AllocOp} (hs : AllocInv E s)
    (hl : op.Legal s) (hword : op.NoWrap s) : AllocInv E (allocStep s op) := by
  cases op with
  | malloc size => exact hs.malloc hword
  | free p => exact hs.free hl
  | store a v => exact hs.store hl

theorem AllocInv.heapMax_step {E : ℕ} {s : AllocState} {op : AllocOp} (hs : AllocInv E s)
    (hword : op.NoWrap s) : (allocStep s op).heap.heapMax = s.heap.heapMax := by
  cases op with
  | malloc size =>
    obtain ⟨⟨F, hi⟩, -⟩ := hs
    obtain ⟨h', hm, ha⟩ := malloc_allocated hi hword
    have hlimit : h'.heapMax = s.heap.heapMax := by
      rw [ha.limit, Heap.limit_alloc]
    simp only [allocStep, hm]
    split
    · exact hlimit
    · exact hlimit
  | free p => exact heapMax_free s.heap p
  | store a v => rfl

/-- The state after `malloc_init`, when its own arithmetic does not wrap. -/
theorem allocInv_init (mem : ByteMemory) (E totalMb : ℕ) (hE : 0 < E)
    (hmax : E + totalMb * 2 ^ 20 < 2 ^ 32) (hroom : E + poolSize < 2 ^ 32) :
    AllocInv E ⟨mallocInit mem E totalMb, []⟩ ∧
      (mallocInit mem E totalMb).heapMax = E + totalMb * 2 ^ 20 := by
  have hbytes : u32 (totalMb * 1024 * 1024) = totalMb * 2 ^ 20 := by
    rw [u32, Nat.mod_eq_of_lt (by omega)]
    ring
  have hlimit : u32 (E + u32 (totalMb * 1024 * 1024)) = E + totalMb * 2 ^ 20 := by
    rw [hbytes]
    exact Nat.mod_eq_of_lt (by omega)
  have hge : E ≤ E + totalMb * 2 ^ 20 := Nat.le_add_right E _
  simp only [mallocInit, hlimit]
  generalize E + totalMb * 2 ^ 20 = limit at hmax hge
  have hi : HeapInv E ⟨mem, 0, E, limit⟩ [] [] :=
    { end_pos := hE
      chain := rfl
      live_size := by simp
      tiles := Tiles.nil E
      sizes := by simp
      brk_le := hge
      brk_lt := lt_of_le_of_lt hge hmax }
  have hreq := requestMemory_pool (h := ⟨mem, 0, E, limit⟩) hroom
  rcases Nat.lt_or_ge limit (E + poolSize) with hlt | hfit
  · rw [if_pos hlt] at hreq
    rw [hreq, if_pos rfl]
    exact ⟨⟨⟨[], hi⟩, by simp⟩, rfl⟩
  · rw [if_neg (Nat.not_lt.mpr hfit)] at hreq
    rw [hreq, if_neg (Nat.pos_iff_ne_zero.mp hE)]
    exact ⟨⟨⟨[(E, poolSize - headerSize)], addPool_inv hi hfit hroom⟩, by simp⟩, rfl⟩

/-- A heap whose limit leaves room for a pool: no step wraps. -/
theorem AllocInv.noWrap {E : ℕ} {s : AllocState} (hs : AllocInv E s)
    (hroom : s.heap.heapMax + poolSize < 2 ^ 32) (op : AllocOp) : op.NoWrap s := by
  cases op with
  | malloc size =>
    obtain ⟨⟨F, hi⟩, -⟩ := hs
    exact fun _ => fitsWord_of_room hi hroom size
  | free p => trivial
  | store a v => trivial

/-! ### The tiling theorem -/

/-- The heap between `_end = E` and `heap_brk` is tiled by the free list and the live blocks.
The list `F` is the free list as it stands in memory. -/
structure Tiled (E : ℕ) (s : AllocState) (F : List (ℕ × ℕ)) : Prop where
  chain : Seg s.heap s.heap.freeList F 0
  acyclic : (F.map Prod.fst).Nodup
  not_live : ∀ p ∈ s.live, p - headerSize ∉ F.map Prod.fst
  tiles : Tiles E s.heap.heapBrk ((F ++ s.liveBlocks).map extent)
  sizes : ∀ b ∈ F ++ s.liveBlocks, 0 < b.2 ∧ 8 ∣ b.2
  aligned : ∀ p ∈ s.live, p % 8 = E % 8
  brk_le : s.heap.heapBrk ≤ s.heap.heapMax

theorem AllocInv.tiled {E : ℕ} {s : AllocState} (hs : AllocInv E s) : ∃ F, Tiled E s F := by
  obtain ⟨⟨F, hi⟩, hge⟩ := hs
  have hpair := List.pairwise_append.mp hi.headers_pairwise
  have hne : ∀ {x y : ℕ}, HeadersApart x y → x ≠ y := by
    intro x y hxy
    simp only [HeadersApart, headerSize] at hxy
    omega
  refine ⟨F,
    { chain := hi.chain
      acyclic := List.pairwise_map.mpr (hpair.1.imp fun h => hne h)
      not_live := fun p hp hmem => ?_
      tiles := hi.tiles
      sizes := hi.sizes
      aligned := fun p hp => ?_
      brk_le := hi.brk_le }⟩
  · obtain ⟨c, hc, hcp⟩ := List.mem_map.mp hmem
    exact hne (hpair.2.2 c hc _ (List.mem_map_of_mem hp)) hcp
  · have hmem : extent (p - headerSize, s.heap.size (p - headerSize)) ∈
        (F ++ s.liveBlocks).map extent :=
      List.mem_map_of_mem (List.mem_append_right F (List.mem_map_of_mem hp))
    have hdvd : ∀ b ∈ (F ++ s.liveBlocks).map extent, 8 ∣ b.2 := by
      intro b hb
      obtain ⟨c, hc, rfl⟩ := List.mem_map.mp hb
      exact (Nat.dvd_add_right (dvd_refl 8)).mpr (hi.sizes c hc).2
    have hmod := hi.tiles.mod_eq hdvd hmem
    have hp8 := hge p hp
    simp only [extent, headerSize] at hmod hp8
    omega

/-- **The allocator tiles the heap.** After `malloc_init` and any legal sequence of calls of
`malloc` and `free`, mixed with stores of the callers into their own blocks: the free list
and the live blocks tile the range from `_end` to `heap_brk`, and a further `malloc` of any
size returns, with NULL or a pointer congruent to `_end` modulo eight. -/
theorem malloc_tiles_heap (mem : ByteMemory) (E totalMb : ℕ) (hE : 0x00100000 ≤ E)
    (hroom : E + totalMb * 2 ^ 20 + 16 * 2 ^ 20 < 2 ^ 32) (ops : List AllocOp)
    (hops : Along allocStep AllocOp.Legal ⟨mallocInit mem E totalMb, []⟩ ops) :
    let s := ops.foldl allocStep ⟨mallocInit mem E totalMb, []⟩
    (∃ F, Tiled E s F) ∧
      ∀ size, ∃ p h', malloc s.heap size = some (p, h') ∧ (p = 0 ∨ p % 8 = E % 8) := by
  intro s
  obtain ⟨hinit, hmax⟩ := allocInv_init mem E totalMb (by omega) (by omega)
    (by rw [poolSize_eq]; omega)
  have hinv : AllocInv E s ∧ s.heap.heapMax + poolSize < 2 ^ 32 := by
    refine Along.invariant (I := fun s => AllocInv E s ∧ s.heap.heapMax + poolSize < 2 ^ 32)
      (fun s op hs hl => ?_) ⟨hinit, ?_⟩ hops
    · have hword := hs.1.noWrap hs.2 op
      rw [hs.1.heapMax_step hword]
      exact ⟨hs.1.step hl hword, hs.2⟩
    · rw [hmax, poolSize_eq]
      omega
  refine ⟨hinv.1.tiled, fun size => ?_⟩
  obtain ⟨⟨F, hi⟩, -⟩ := id hinv.1
  have hword := fitsWord_of_room hi hinv.2 size
  obtain ⟨h', hm, ha⟩ := malloc_allocated hi fun _ => hword
  refine ⟨_, h', hm, ?_⟩
  rcases hres : (s.heap.alloc size).1 with _ | b
  · exact .inl rfl
  · -- the pointer is live in the next state, so that state's tiling places it
    obtain ⟨F'', ht⟩ := (hinv.1.malloc fun _ => hword).tiled
    have hne : b.1 + headerSize ≠ 0 := by simp [headerSize]
    rw [hres] at hm
    refine .inr (ht.aligned _ ?_)
    simp only [allocStep, hm, blockPointer, if_neg hne]
    exact List.mem_cons_self

/-- A run that splits the first pool, stores into the block, makes a request whose rounding
wraps around and frees the first block again. -/
def wrappingOps : List AllocOp :=
  [.malloc 24, .store 0x00100008 7, .malloc 0xffffffff, .free 0x00100008, .malloc 0]

theorem malloc_tiles_heap_wrappingOps :
    let s := wrappingOps.foldl allocStep ⟨mallocInit (fun _ => 0) 0x00100000 32, []⟩
    s.live = [0x00100028] ∧ (∃ F, Tiled 0x00100000 s F) ∧
      ∀ size, ∃ p h', malloc s.heap size = some (p, h') ∧ (p = 0 ∨ p % 8 = 0x00100000 % 8) :=
  ⟨by decide +kernel, malloc_tiles_heap (fun _ => 0) 0x00100000 32 (by norm_num) (by norm_num)
    wrappingOps (by decide +kernel)⟩

end Malloc

end LittleLinux
