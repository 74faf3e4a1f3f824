import LittleLinux.Kernel.UtHash

/-!
# The lists of a hash table

`UtHash.Sound h items` says what the links and the counters of a table mean: `items` are its elements in
the order in which they were added, each hangs in the chain of the bucket that its hash value selects, and
nothing else does. An expansion keeps this because every handle is linked into exactly one new chain
before the next one is looked at (`rehashChain_spec`); so adding keeps it (`hashAdd_spec`), and the search
of one chain finds what a search of all elements would (`hashFind_eq_some`, `hashFind_eq_none`).
-/

namespace LittleLinux

/-! ### Handles -/

/-- The links in the chains. -/
def hhNextOf (handles : Ptr → UtHandle) : Ptr → Option Ptr := fun p => (handles p).hhNext
def hhPrevOf (handles : Ptr → UtHandle) : Ptr → Option Ptr := fun p => (handles p).hhPrev

/-- The links in the list of all elements. -/
def nextOf (handles : Ptr → UtHandle) : Ptr → Option Ptr := fun p => (handles p).next
def prevOf (handles : Ptr → UtHandle) : Ptr → Option Ptr := fun p => (handles p).prev

/-- The bucket that an element belongs to. -/
def homeOf (handles : Ptr → UtHandle) (num : ℕ) (p : Ptr) : ℕ := hashToBkt (handles p).hashv num

/-- The handles differ in their links in the chains alone. -/
structure SameItems (handles handles' : Ptr → UtHandle) : Prop where
  key : ∀ p, (handles' p).key = (handles p).key
  hashv : ∀ p, (handles' p).hashv = (handles p).hashv
  next : ∀ p, (handles' p).next = (handles p).next
  prev : ∀ p, (handles' p).prev = (handles p).prev

namespace SameItems

variable {handles handles' handles'' : Ptr → UtHandle}

theorem refl (handles : Ptr → UtHandle) : SameItems handles handles :=
  ⟨fun _ => rfl, fun _ => rfl, fun _ => rfl, fun _ => rfl⟩

theorem trans (h : SameItems handles handles') (h' : SameItems handles' handles'') :
    SameItems handles handles'' where
  key := fun p => (h'.key p).trans (h.key p)
  hashv := fun p => (h'.hashv p).trans (h.hashv p)
  next := fun p => (h'.next p).trans (h.next p)
  prev := fun p => (h'.prev p).trans (h.prev p)

theorem homeOf_eq (h : SameItems handles handles') (num : ℕ) (p : Ptr) :
    homeOf handles' num p = homeOf handles num p := by
  rw [homeOf, homeOf, h.hashv]

/-- Changing the chain links of one handle. -/
theorem update (handles : Ptr → UtHandle) (p : Ptr) (hhPrev hhNext : Option Ptr) :
    SameItems handles (Function.update handles p { handles p with hhPrev := hhPrev, hhNext := hhNext }) := by
  refine ⟨fun q => ?_, fun q => ?_, fun q => ?_, fun q => ?_⟩
  all_goals
    rcases eq_or_ne q p with rfl | hne
    · rw [Function.update_self]
    · rw [Function.update_of_ne hne]

end SameItems

section Push

variable {handles : Ptr → UtHandle} {add : Ptr} {hhHead : Option Ptr}

theorem sameItems_pushHandle (handles : Ptr → UtHandle) (add : Ptr) (hhHead : Option Ptr) :
    SameItems handles (pushHandle handles add hhHead) := by
  have hfirst := SameItems.update handles add none hhHead
  rw [pushHandle.eq_def]
  cases hhHead with
  | none => exact hfirst
  | some q => exact hfirst.trans (.update _ q (some add) _)

theorem pushHandle_of_ne {p : Ptr} (hne : p ≠ add) (hhead : hhHead ≠ some p) :
    pushHandle handles add hhHead p = handles p := by
  rw [pushHandle.eq_def]
  cases hhHead with
  | none => exact Function.update_of_ne hne _ _
  | some q =>
    have hq : p ≠ q := fun h => hhead (congrArg some h.symm)
    exact (Function.update_of_ne hq _ _).trans (Function.update_of_ne hne _ _)

theorem pushHandle_self (hhead : hhHead ≠ some add) :
    (pushHandle handles add hhHead add).hhNext = hhHead ∧
      (pushHandle handles add hhHead add).hhPrev = none := by
  rw [pushHandle.eq_def]
  cases hhHead with
  | none =>
    dsimp only
    rw [Function.update_self]
    exact ⟨rfl, rfl⟩
  | some q =>
    have hq : add ≠ q := fun h => hhead (congrArg some h.symm)
    dsimp only
    rw [Function.update_of_ne hq, Function.update_self]
    exact ⟨rfl, rfl⟩

theorem pushHandle_head {q : Ptr} (hne : q ≠ add) :
    (pushHandle handles add (some q) q).hhNext = (handles q).hhNext ∧
      (pushHandle handles add (some q) q).hhPrev = some add := by
  rw [pushHandle]
  dsimp only
  rw [Function.update_self, Function.update_of_ne hne]
  exact ⟨rfl, rfl⟩

/-- The chain of the bucket gets one more element. -/
theorem linked_pushHandle {l : List Ptr} (h : Linked (hhNextOf handles) (hhPrevOf handles) none hhHead l)
    (hl : l.Nodup) (hadd : add ∉ l) :
    Linked (hhNextOf (pushHandle handles add hhHead)) (hhPrevOf (pushHandle handles add hhHead)) none
      (some add) (add :: l) := by
  have hstart := h.start_eq
  have hne : hhHead ≠ some add := by
    rintro rfl
    exact hadd (List.mem_of_head? hstart.symm)
  have hrest : ∀ b ∈ l, l.head? ≠ some b → pushHandle handles add hhHead b = handles b :=
    fun b hb hhead => pushHandle_of_ne (ne_of_mem_of_not_mem hb hadd) (hstart ▸ hhead)
  have hfirst : ∀ b, l.head? = some b → (pushHandle handles add hhHead b).hhNext = (handles b).hhNext ∧
      (pushHandle handles add hhHead b).hhPrev = some add := by
    intro b hb
    rw [hstart, hb]
    exact pushHandle_head (ne_of_mem_of_not_mem (List.mem_of_head? hb) hadd)
  refine h.push (pushHandle_self hne).1 (pushHandle_self hne).2 (fun b hb => ?_)
    (fun b hb => (hfirst b hb).2) fun b hb => ?_
  · by_cases hhead : l.head? = some b
    · exact (hfirst b hhead).1
    · exact congrArg UtHandle.hhNext (hrest b hb hhead)
  · refine congrArg UtHandle.hhPrev (hrest b (List.mem_of_mem_tail hb) fun hhead => ?_)
    -- the first node does not come again
    cases l with
    | nil => exact absurd hhead (by simp)
    | cons c l =>
      obtain rfl := Option.some.inj hhead
      exact (List.nodup_cons.1 hl).1 hb

/-- The other chains are as they were. -/
theorem linked_pushHandle_of_disjoint {l : List Ptr} {before start : Option Ptr}
    (h : Linked (hhNextOf handles) (hhPrevOf handles) before start l) (hadd : add ∉ l)
    (hhead : ∀ q, hhHead = some q → q ∉ l) :
    Linked (hhNextOf (pushHandle handles add hhHead)) (hhPrevOf (pushHandle handles add hhHead)) before
      start l := by
  have hsame : ∀ b ∈ l, pushHandle handles add hhHead b = handles b := fun b hb =>
    pushHandle_of_ne (ne_of_mem_of_not_mem hb hadd) fun h => hhead b h hb
  exact h.congr (fun b hb => congrArg UtHandle.hhNext (hsame b hb))
    fun b hb => congrArg UtHandle.hhPrev (hsame b hb)

end Push

/-! ### Chains -/

/-- The chains of an array of buckets: each is linked as it should be, counted, and made of elements that
belong there. -/
structure Chained (handles : Ptr → UtHandle) (buckets : ℕ → UtBucket) (num : ℕ)
    (chain : ℕ → List Ptr) : Prop where
  linked : ∀ j, Linked (hhNextOf handles) (hhPrevOf handles) none (buckets j).hhHead (chain j)
  count : ∀ j, (buckets j).count = (chain j).length
  home : ∀ j, ∀ p ∈ chain j, homeOf handles num p = j
  nodup : ∀ j, (chain j).Nodup

namespace Chained

variable {handles : Ptr → UtHandle} {buckets : ℕ → UtBucket} {num : ℕ} {chain : ℕ → List Ptr}
  {add : Ptr}

/-- Empty buckets. -/
theorem zero (handles : Ptr → UtHandle) (num : ℕ) :
    Chained handles (fun _ => .zero) num fun _ => [] :=
  ⟨fun _ => rfl, fun _ => rfl, fun _ _ h => absurd h List.not_mem_nil, fun _ => List.nodup_nil⟩

/-- No element hangs in two chains. -/
theorem eq_home (h : Chained handles buckets num chain) {j : ℕ} {p : Ptr} (hp : p ∈ chain j) :
    p ∈ chain (homeOf handles num p) := (h.home j p hp).symm ▸ hp

/-- **One more element**, at the front of the chain of its bucket. -/
theorem push (h : Chained handles buckets num chain) (hadd : ∀ j, add ∉ chain j) {b : UtBucket}
    (hcount : b.count = (buckets (homeOf handles num add)).count + 1) (hhead : b.hhHead = some add) :
    Chained (pushHandle handles add (buckets (homeOf handles num add)).hhHead)
      (Function.update buckets (homeOf handles num add) b) num
      (Function.update chain (homeOf handles num add) (add :: chain (homeOf handles num add))) := by
  set k := homeOf handles num add with hk
  have hitems := sameItems_pushHandle handles add (buckets k).hhHead
  refine ⟨fun j => ?_, fun j => ?_, fun j p hp => ?_, fun j => ?_⟩
  · rcases eq_or_ne j k with rfl | hne
    · rw [Function.update_self, Function.update_self, hhead]
      exact linked_pushHandle (h.linked k) (h.nodup k) (hadd k)
    · rw [Function.update_of_ne hne, Function.update_of_ne hne]
      refine linked_pushHandle_of_disjoint (h.linked j) (hadd j) fun q hq hmem => hne ?_
      -- the head of the bucket hangs in its own chain
      have hqk : q ∈ chain k := List.mem_of_head? ((h.linked k).start_eq.symm.trans hq)
      rw [← h.home j q hmem, h.home k q hqk]
  · rcases eq_or_ne j k with rfl | hne
    · rw [Function.update_self, Function.update_self, hcount, h.count k, List.length_cons]
    · rw [Function.update_of_ne hne, Function.update_of_ne hne]
      exact h.count j
  · rw [hitems.homeOf_eq]
    rcases eq_or_ne j k with rfl | hne
    · rw [Function.update_self] at hp
      rcases List.mem_cons.1 hp with rfl | hp
      · exact hk.symm
      · exact h.home k p hp
    · rw [Function.update_of_ne hne] at hp
      exact h.home j p hp
  · rcases eq_or_ne j k with rfl | hne
    · rw [Function.update_self]
      exact List.nodup_cons.2 ⟨hadd k, h.nodup k⟩
    · rw [Function.update_of_ne hne]
      exact h.nodup j

end Chained

/-! ### Expansion -/

/-- The elements of `moved` hang in the new chains, and nothing else was touched yet. -/
structure Rehashed (handles : Ptr → UtHandle) (num : ℕ) (moved : Ptr → Prop) (r : Rehash) : Prop where
  same : SameItems handles r.handles
  chained : ∃ chain, Chained r.handles r.newBuckets num chain ∧
    ∀ j p, p ∈ chain j ↔ moved p ∧ homeOf handles num p = j
  rest : ∀ p, ¬moved p → r.handles p = handles p

namespace Rehashed

variable {handles : Ptr → UtHandle} {num : ℕ} {moved moved' : Ptr → Prop} {r : Rehash}

theorem congr (h : Rehashed handles num moved r) (hiff : ∀ p, moved' p ↔ moved p) :
    Rehashed handles num moved' r where
  same := h.same
  chained := by
    obtain ⟨chain, hchained, hmem⟩ := h.chained
    exact ⟨chain, hchained, fun j p => by rw [hmem, hiff]⟩
  rest := fun p hp => h.rest p fun hm => hp ((hiff p).2 hm)

/-- One element is moved. -/
theorem item (h : Rehashed handles num moved r) (ideal : ℕ) {thh : Ptr} (hthh : ¬moved thh) :
    Rehashed handles num (fun p => p = thh ∨ moved p) (rehashItem num ideal r thh) := by
  obtain ⟨chain, hchained, hmem⟩ := h.chained
  have hfree : ∀ j, thh ∉ chain j := fun j hj => hthh ((hmem j thh).1 hj).1
  set k := homeOf r.handles num thh with hk
  have hpush := hchained.push hfree
    (b := { (r.newBuckets k).gain ideal with hhHead := some thh }) rfl rfl
  refine ⟨h.same.trans (sameItems_pushHandle _ _ _), ⟨_, hpush, fun j p => ?_⟩, fun p hp => ?_⟩
  · rw [← hk]
    have hhome := h.same.homeOf_eq num thh
    rcases eq_or_ne j k with rfl | hne
    · rw [Function.update_self, List.mem_cons, hmem]
      constructor
      · rintro (rfl | hp)
        · exact ⟨Or.inl rfl, hhome.symm⟩
        · exact ⟨Or.inr hp.1, hp.2⟩
      · rintro ⟨rfl | hp, hj⟩
        · exact Or.inl rfl
        · exact Or.inr ⟨hp, hj⟩
    · rw [Function.update_of_ne hne, hmem]
      constructor
      · exact fun hp => ⟨Or.inr hp.1, hp.2⟩
      · rintro ⟨rfl | hp, hj⟩
        · exact absurd (hj.symm.trans hhome.symm) hne
        · exact ⟨hp, hj⟩
  · rw [not_or] at hp
    rw [← h.rest p hp.2]
    refine pushHandle_of_ne hp.1 fun hhead => hp.2 ?_
    have hhead : (r.newBuckets k).hhHead = some p := hhead
    have hin : p ∈ chain k := List.mem_of_head? ((hchained.linked k).start_eq.symm.trans hhead)
    exact ((hmem k p).1 hin).1

/-- The rest of an old chain is moved. -/
theorem chain (h : Rehashed handles num moved r) (ideal : ℕ) {l : List Ptr} {before start : Option Ptr}
    (hl : Linked (hhNextOf handles) (hhPrevOf handles) before start l) (hnodup : l.Nodup)
    (hnew : ∀ p ∈ l, ¬moved p) {n : ℕ} (hn : l.length ≤ n) :
    Rehashed handles num (fun p => p ∈ l ∨ moved p) (rehashChain num ideal n start r) := by
  induction l generalizing before start moved r n with
  | nil =>
    obtain rfl := hl
    have hsame : rehashChain num ideal n none r = r := by cases n <;> rfl
    rw [hsame]
    exact h.congr fun p => by simp
  | cons thh l ih =>
    obtain ⟨rfl, -, hrest⟩ := hl
    cases n with
    | zero => exact absurd hn (by simp)
    | succ n =>
      have hthh : ¬moved thh := hnew thh List.mem_cons_self
      rw [rehashChain, h.rest thh hthh]
      refine (ih (h.item ideal hthh) hrest (List.nodup_cons.1 hnodup).2 (fun p hp => ?_)
        (Nat.le_of_succ_le_succ hn)).congr fun p => ?_
      · rw [not_or]
        exact ⟨ne_of_mem_of_not_mem hp (List.nodup_cons.1 hnodup).1,
          hnew p (List.mem_cons_of_mem thh hp)⟩
      · rw [List.mem_cons]
        tauto

/-- **All chains are moved.** -/
theorem all (num : ℕ) {buckets : ℕ → UtBucket} {old : ℕ} {chains : ℕ → List Ptr}
    (hold : Chained handles buckets old chains) (ideal : ℕ) {n : ℕ} (hn : ∀ j, (chains j).length ≤ n)
    (k : ℕ) :
    Rehashed handles num (fun p => ∃ j < k, p ∈ chains j)
      ((List.range k).foldl (fun r i => rehashChain num ideal n (buckets i).hhHead r)
        ⟨handles, fun _ => .zero, 0⟩) := by
  induction k with
  | zero =>
    refine ⟨.refl handles, ⟨_, Chained.zero handles num, fun j p => ?_⟩, fun _ _ => rfl⟩
    simp
  | succ k ih =>
    rw [List.range_succ, List.foldl_append, List.foldl_cons, List.foldl_nil]
    refine (ih.chain ideal (hold.linked k) (hold.nodup k) ?_ (hn k)).congr fun p => ?_
    · rintro p hp ⟨j, hj, hpj⟩
      have heq : j = k := (hold.home j p hpj).symm.trans (hold.home k p hp)
      omega
    · constructor
      · rintro ⟨j, hj, hp⟩
        rcases Nat.lt_succ_iff_lt_or_eq.1 hj with hlt | rfl
        · exact Or.inr ⟨j, hlt, hp⟩
        · exact Or.inl hp
      · rintro (hp | ⟨j, hj, hp⟩)
        · exact ⟨k, Nat.lt_succ_self k, hp⟩
        · exact ⟨j, Nat.lt_succ_of_lt hj, hp⟩

end Rehashed

/-! ### The invariant -/

/-- The chains of a table hold its elements. -/
structure ChainsHold (handles : Ptr → UtHandle) (tbl : UtTable) (items : List Ptr)
    (chain : ℕ → List Ptr) : Prop extends Chained handles tbl.buckets tbl.numBuckets chain where
  mem_iff : ∀ p, p ∈ items ↔ p ∈ chain (homeOf handles tbl.numBuckets p)
  numItems : tbl.numItems = items.length
  numBuckets : tbl.numBuckets = 2 ^ tbl.log2NumBuckets

/-- What the links and the counters of a table mean. -/
structure UtHash.Sound (h : UtHash) (items : List Ptr) : Prop where
  listed : Linked (nextOf h.handles) (prevOf h.handles) none h.head items
  nodup : items.Nodup
  tail : items ≠ [] → items.getLast? = some h.tbl.tail
  hashv : ∀ p ∈ items, (h.handles p).hashv = hashJen (h.handles p).key.chars
  holds : items ≠ [] → ∃ chain, ChainsHold h.handles h.tbl items chain

theorem hashToBkt_two_pow (hashv : UInt32) (k : ℕ) : hashToBkt hashv (2 ^ k) = hashv.toNat % 2 ^ k :=
  Nat.and_two_pow_sub_one_eq_mod _ _

section ChainsHold

variable {handles : Ptr → UtHandle} {tbl : UtTable} {items : List Ptr} {chain : ℕ → List Ptr}

/-- Every bucket that is used exists. -/
theorem ChainsHold.homeOf_lt (h : ChainsHold handles tbl items chain) (p : Ptr) :
    homeOf handles tbl.numBuckets p < tbl.numBuckets := by
  rw [homeOf, h.numBuckets, hashToBkt_two_pow]
  exact Nat.mod_lt _ (Nat.two_pow_pos _)

theorem ChainsHold.mem_of_mem (h : ChainsHold handles tbl items chain) {j : ℕ} {p : Ptr}
    (hp : p ∈ chain j) : p ∈ items := (h.mem_iff p).2 (h.eq_home hp)

/-- No chain is longer than the number of elements. -/
theorem ChainsHold.length_le (h : ChainsHold handles tbl items chain) (j : ℕ) :
    (chain j).length ≤ tbl.numItems := by
  rw [h.numItems]
  exact ((h.nodup j).subperm fun p hp => h.mem_of_mem hp).length_le

/-- **An expansion keeps every element.** -/
theorem ChainsHold.expand (h : ChainsHold handles tbl items chain) {mem : Memory}
    {r : (Ptr → UtHandle) × UtTable} (hr : (hashExpandBuckets mem handles tbl).1 = some r) :
    SameItems handles r.1 ∧ r.2.tail = tbl.tail ∧ ∃ chain', ChainsHold r.1 r.2 items chain' := by
  rw [hashExpandBuckets] at hr
  dsimp only at hr
  cases hmalloc : (mem.malloc (sizeofUtBucket * tbl.numBuckets * 2)).1 with
  | none =>
    rw [hmalloc] at hr
    exact absurd hr (by simp)
  | some a =>
    rw [hmalloc] at hr
    dsimp only at hr
    obtain rfl := Option.some.inj hr
    have hall := Rehashed.all (tbl.numBuckets * 2) h.toChained
      (tbl.numItems / 2 ^ (tbl.log2NumBuckets + 1) +
        if tbl.numItems &&& (tbl.numBuckets * 2 - 1) ≠ 0 then 1 else 0) h.length_le tbl.numBuckets
    obtain ⟨chain', hchained, hmem⟩ := hall.chained
    refine ⟨hall.same, rfl, chain', ⟨hchained, fun p => ?_, h.numItems, ?_⟩⟩
    · rw [hmem, h.mem_iff, and_iff_left (hall.same.homeOf_eq _ p).symm]
      constructor
      · exact fun hp => ⟨_, h.homeOf_lt p, hp⟩
      · rintro ⟨j, -, hp⟩
        exact h.eq_home hp
    · dsimp only
      rw [h.numBuckets, pow_succ]

/-- The chains before an element is linked in are those of a table with other lists. -/
theorem ChainsHold.congr (h : ChainsHold handles tbl items chain) {handles' : Ptr → UtHandle}
    {tbl' : UtTable}
    (hnext : ∀ p ∈ items, (handles' p).hhNext = (handles p).hhNext)
    (hprev : ∀ p ∈ items, (handles' p).hhPrev = (handles p).hhPrev)
    (hhashv : ∀ p ∈ items, (handles' p).hashv = (handles p).hashv) (hbuckets : tbl'.buckets = tbl.buckets)
    (hnum : tbl'.numBuckets = tbl.numBuckets) (hlog : tbl'.log2NumBuckets = tbl.log2NumBuckets)
    (hitems : tbl'.numItems = tbl.numItems) : ChainsHold handles' tbl' items chain where
  linked := fun j => by
    rw [hbuckets]
    exact (h.linked j).congr (fun p hp => hnext p (h.mem_of_mem hp)) fun p hp => hprev p (h.mem_of_mem hp)
  count := fun j => by
    rw [hbuckets]
    exact h.count j
  home := fun j p hp => by
    rw [homeOf, hhashv p (h.mem_of_mem hp), hnum]
    exact h.home j p hp
  nodup := h.nodup
  mem_iff := fun p => by
    by_cases hp : p ∈ items
    · rw [homeOf, hhashv p hp, hnum]
      exact h.mem_iff p
    · exact iff_of_false hp fun hj => hp (h.mem_of_mem hj)
  numItems := hitems.trans h.numItems
  numBuckets := by rw [hnum, hlog, h.numBuckets]

/-- An element that was not added hangs in no chain. -/
theorem ChainsHold.notMem (h : ChainsHold handles tbl items chain) {p : Ptr} (hp : p ∉ items) (j : ℕ) :
    p ∉ chain j := fun hj => hp (h.mem_of_mem hj)

/-- One more element, in its chain and in the count. -/
theorem ChainsHold.push (h : ChainsHold handles tbl items chain) {add : Ptr} (hadd : add ∉ items)
    {b : UtBucket}
    (hcount : b.count = (tbl.buckets (homeOf handles tbl.numBuckets add)).count + 1)
    (hhead : b.hhHead = some add) :
    ∃ chain', ChainsHold (pushHandle handles add (tbl.buckets (homeOf handles tbl.numBuckets add)).hhHead)
      { tbl with
        numItems := tbl.numItems + 1
        buckets := Function.update tbl.buckets (homeOf handles tbl.numBuckets add) b }
      (items ++ [add]) chain' := by
  have hchained := h.toChained.push (h.notMem hadd) hcount hhead
  have hsame := sameItems_pushHandle handles add (tbl.buckets (homeOf handles tbl.numBuckets add)).hhHead
  refine ⟨_, hchained, fun p => ?_, ?_, h.numBuckets⟩
  · rw [hsame.homeOf_eq, List.mem_append, List.mem_singleton, h.mem_iff]
    set k := homeOf handles tbl.numBuckets add with hk
    by_cases hp : homeOf handles tbl.numBuckets p = k
    · rw [hp, Function.update_self, List.mem_cons, or_comm]
    · have hne : p ≠ add := by
        rintro rfl
        exact hp rfl
      rw [Function.update_of_ne hp, or_iff_left hne]
  · dsimp only
    rw [h.numItems, List.length_append, List.length_singleton]

end ChainsHold

/-! ### Adding -/

section Add

variable {h h' : UtHash} {items : List Ptr} {add : Ptr} {mem : Memory}

/-- The list of all elements does not run through the chains. -/
theorem SameItems.listed {handles handles' : Ptr → UtHandle} (hsame : SameItems handles handles')
    {before start : Option Ptr} {l : List Ptr}
    (hl : Linked (nextOf handles) (prevOf handles) before start l) :
    Linked (nextOf handles') (prevOf handles') before start l :=
  hl.congr (fun p _ => hsame.next p) fun p _ => hsame.prev p

/-- An element that is at the end of the list comes into its chain. -/
theorem hashAddToTable_spec (hlisted : Linked (nextOf h.handles) (prevOf h.handles) none h.head
      (items ++ [add]))
    (hnodup : (items ++ [add]).Nodup) (htail : h.tbl.tail = add)
    (hhashv : ∀ p ∈ items ++ [add], (h.handles p).hashv = hashJen (h.handles p).key.chars)
    (hholds : ∃ chain, ChainsHold h.handles h.tbl items chain)
    (hr : (hashAddToTable mem h add).1 = some h') :
    h'.Sound (items ++ [add]) ∧ ∀ p, (h'.handles p).key = (h.handles p).key := by
  obtain ⟨chain, hholds⟩ := hholds
  have hadd : add ∉ items := by
    rw [List.nodup_append] at hnodup
    exact fun hmem => hnodup.2.2 add hmem add List.mem_cons_self rfl
  have hne : items ++ [add] ≠ [] := by simp
  -- what is to be seen of any later handles and table
  have hfinish : ∀ (handles : Ptr → UtHandle) (tbl : UtTable), SameItems h.handles handles →
      tbl.tail = add → (∃ chain', ChainsHold handles tbl (items ++ [add]) chain') →
      (⟨handles, h.head, tbl⟩ : UtHash).Sound (items ++ [add]) ∧
        ∀ p, (handles p).key = (h.handles p).key := by
    intro handles tbl hsame htbl hchain
    refine ⟨⟨hsame.listed hlisted, hnodup, fun _ => ?_, fun p hp => ?_, fun _ => hchain⟩, hsame.key⟩
    · rw [List.getLast?_concat, htbl]
    · rw [hsame.hashv, hsame.key]
      exact hhashv p hp
  have hsame := sameItems_pushHandle h.handles add
    (h.tbl.buckets (homeOf h.handles h.tbl.numBuckets add)).hhHead
  obtain ⟨chain', hpushed⟩ := hholds.push hadd (b :=
    { h.tbl.buckets (homeOf h.handles h.tbl.numBuckets add) with
      count := (h.tbl.buckets (homeOf h.handles h.tbl.numBuckets add)).count + 1
      hhHead := some add }) rfl rfl
  rw [hashAddToTable] at hr
  dsimp only at hr
  split_ifs at hr
  · obtain ⟨r, he, rfl⟩ := Option.map_eq_some_iff.1 hr
    obtain ⟨hsame', htail', hchain⟩ := hpushed.expand he
    exact hfinish r.1 r.2 (hsame.trans hsame') (htail'.trans htail) hchain
  · obtain rfl := Option.some.inj hr
    exact hfinish _ _ hsame htail ⟨chain', hpushed⟩

/-- The handle of an element that is added to a list that is there. -/
theorem hashAppendList_handles (h : UtHash) (hne : h.tbl.tail ≠ add) :
    ((hashAppendList h add).handles add).next = none ∧
      ((hashAppendList h add).handles add).prev = some h.tbl.tail ∧
      ((hashAppendList h add).handles h.tbl.tail).next = some add ∧
      ((hashAppendList h add).handles h.tbl.tail).prev = (h.handles h.tbl.tail).prev ∧
      (∀ p ≠ add, p ≠ h.tbl.tail → (hashAppendList h add).handles p = h.handles p) ∧
      ∀ p, ((hashAppendList h add).handles p).key = (h.handles p).key ∧
        ((hashAppendList h add).handles p).hashv = (h.handles p).hashv ∧
        ((hashAppendList h add).handles p).hhNext = (h.handles p).hhNext ∧
        ((hashAppendList h add).handles p).hhPrev = (h.handles p).hhPrev := by
  rw [hashAppendList]
  dsimp only
  rw [Function.update_of_ne (Ne.symm hne), Function.update_self, Function.update_self,
    Function.update_of_ne hne]
  refine ⟨rfl, rfl, rfl, rfl, fun p hp hp' => ?_, fun p => ?_⟩
  · rw [Function.update_of_ne hp', Function.update_of_ne hp]
  · rcases eq_or_ne p h.tbl.tail with rfl | hp'
    · rw [Function.update_self]
      exact ⟨rfl, rfl, rfl, rfl⟩
    · rw [Function.update_of_ne hp']
      rcases eq_or_ne p add with rfl | hp
      · rw [Function.update_self]
        exact ⟨rfl, rfl, rfl, rfl⟩
      · rw [Function.update_of_ne hp]
        exact ⟨rfl, rfl, rfl, rfl⟩

/-- **Adding an element** keeps the table sound, and the keys of the others. -/
theorem hashAdd_spec (hs : h.Sound items) (hadd : add ∉ items) {key : CString}
    (hr : (hashAdd mem h add key).1 = some h') :
    h'.Sound (items ++ [add]) ∧ (h'.handles add).key = key ∧
      ∀ p ≠ add, (h'.handles p).key = (h.handles p).key := by
  have hnodup : (items ++ [add]).Nodup := by
    rw [List.nodup_append]
    refine ⟨hs.nodup, List.nodup_singleton add, fun p hp q hq => ?_⟩
    rw [List.mem_singleton.1 hq]
    exact ne_of_mem_of_not_mem hp hadd
  set handles := Function.update h.handles add
    { h.handles add with hashv := hashJen key.chars, key := key } with hhandles
  have hself : (handles add).key = key ∧ (handles add).hashv = hashJen key.chars := by
    rw [hhandles, Function.update_self]
    exact ⟨rfl, rfl⟩
  have hother : ∀ p ≠ add, handles p = h.handles p := fun p hp => Function.update_of_ne hp _ _
  rw [hashAdd, ← hhandles] at hr
  dsimp only at hr
  cases hhead : h.head with
  | none =>
    -- the first element makes the table
    rw [hhead] at hr
    dsimp only at hr
    obtain rfl : items = [] := List.head?_eq_none_iff.1 (hs.listed.start_eq.symm.trans hhead)
    set first := Function.update handles add { handles add with next := none, prev := none } with hfirst
    have hkeys : ∀ p, (first p).key = (handles p).key ∧ (first p).hashv = (handles p).hashv := by
      intro p
      rcases eq_or_ne p add with rfl | hp
      · rw [hfirst, Function.update_self]
        exact ⟨rfl, rfl⟩
      · rw [hfirst, Function.update_of_ne hp]
        exact ⟨rfl, rfl⟩
    have hends : (first add).next = none ∧ (first add).prev = none := by
      rw [hfirst, Function.update_self]
      exact ⟨rfl, rfl⟩
    cases htable : (hashMakeTable mem add).1 with
    | none =>
      rw [htable] at hr
      exact absurd hr (by simp)
    | some tbl =>
      rw [htable] at hr
      have htbl : tbl = ⟨fun _ => .zero, HASH_INITIAL_NUM_BUCKETS, HASH_INITIAL_NUM_BUCKETS_LOG2, 0, add,
          0, 0, 0, false⟩ := by
        rw [hashMakeTable] at htable
        dsimp only at htable
        split at htable
        · exact absurd htable (by simp)
        · split at htable
          · exact absurd htable (by simp)
          · exact (Option.some.inj htable).symm
      have hitems : h'.Sound ([] ++ [add]) ∧ ∀ p, (h'.handles p).key = (first p).key := hashAddToTable_spec
        (h := ⟨first, some add, tbl⟩) ⟨rfl, hends.2, hends.1⟩ hnodup (by rw [htbl])
        (fun p hp => by
          obtain rfl := List.mem_singleton.1 hp
          dsimp only
          rw [(hkeys p).1, (hkeys p).2, hself.1, hself.2])
        ⟨fun _ => [], by
          rw [htbl]
          exact ⟨Chained.zero first _, fun p => by simp, rfl, rfl⟩⟩ hr
      obtain ⟨hsound, hkey⟩ := hitems
      exact ⟨hsound, by rw [hkey, (hkeys add).1, hself.1],
        fun p hp => by rw [hkey, (hkeys p).1, hother p hp]⟩
  | some hd =>
    rw [hhead] at hr
    dsimp only at hr
    rw [← hhead] at hr
    have hne : items ≠ [] := by
      rintro rfl
      have hnone := hs.listed.start_eq
      rw [hhead] at hnone
      exact absurd hnone (by simp)
    obtain ⟨init, hinit⟩ := List.getLast?_eq_some_iff.1 (hs.tail hne)
    obtain ⟨chain, hholds⟩ := hs.holds hne
    have htailmem : h.tbl.tail ∈ items := hinit ▸ List.mem_append_right _ List.mem_cons_self
    have htailne : h.tbl.tail ≠ add := ne_of_mem_of_not_mem htailmem hadd
    obtain ⟨hnext, hprev, htnext, htprev, hrest, hkeys⟩ :=
      hashAppendList_handles { h with handles := handles } htailne
    set g := hashAppendList { h with handles := handles } add with hg
    have hold : ∀ p ∈ items, handles p = h.handles p := fun p hp =>
      hother p (ne_of_mem_of_not_mem hp hadd)
    have hlisted : Linked (nextOf g.handles) (prevOf g.handles) none g.head (items ++ [add]) := by
      have hl := hs.listed
      rw [hinit] at hl ⊢
      rw [List.append_assoc]
      have hnd := hs.nodup
      rw [hinit, List.nodup_append] at hnd
      refine hl.append htnext hnext hprev (fun c hc => ?_) fun c hc => ?_
      · have hcitems : c ∈ items := hinit ▸ List.mem_append_left _ hc
        have hct : c ≠ h.tbl.tail := hnd.2.2 c hc _ List.mem_cons_self
        rw [nextOf, nextOf, hrest c (ne_of_mem_of_not_mem hcitems hadd) hct]
        exact congrArg UtHandle.next (hold c hcitems)
      · have hcitems : c ∈ items := hinit ▸ hc
        rw [prevOf, prevOf]
        rcases eq_or_ne c h.tbl.tail with rfl | hct
        · rw [htprev]
          exact congrArg UtHandle.prev (hold _ hcitems)
        · rw [hrest c (ne_of_mem_of_not_mem hcitems hadd) hct]
          exact congrArg UtHandle.prev (hold c hcitems)
    obtain ⟨hsound, hkey⟩ := hashAddToTable_spec (h := g) hlisted hnodup rfl
      (fun p hp => by
        rw [(hkeys p).1, (hkeys p).2.1]
        rcases List.mem_append.1 hp with hp | hp
        · dsimp only
          rw [hold p hp]
          exact hs.hashv p hp
        · obtain rfl := List.mem_singleton.1 hp
          dsimp only
          rw [hself.1, hself.2])
      ⟨chain, hholds.congr (fun p hp => (hkeys p).2.2.1.trans (congrArg _ (hold p hp)))
        (fun p hp => (hkeys p).2.2.2.trans (congrArg _ (hold p hp)))
        (fun p hp => (hkeys p).2.1.trans (congrArg _ (hold p hp))) rfl rfl rfl rfl⟩ hr
    exact ⟨hsound, by rw [hkey, (hkeys add).1]; exact hself.1,
      fun p hp => by rw [hkey, (hkeys p).1]; exact congrArg _ (hother p hp)⟩

end Add

/-! ### Finding -/

section Find

variable {h : UtHash} {items : List Ptr} {key : CString}

/-- The search of one chain. -/
theorem hashFind_eq (hs : h.Sound items) (key : CString) :
    hashFind h key = none ∧ items = [] ∨ ∃ chain, ChainsHold h.handles h.tbl items chain ∧
      hashFind h key = (chain (hashToBkt (hashJen key.chars) h.tbl.numBuckets)).find?
        fun p => sameKey (h.handles p) (hashJen key.chars) key := by
  rw [hashFind]
  cases hhead : h.head with
  | none => exact Or.inl ⟨rfl, List.head?_eq_none_iff.1 (hs.listed.start_eq.symm.trans hhead)⟩
  | some hd =>
    have hne : items ≠ [] := by
      rintro rfl
      exact absurd (hhead.symm.trans hs.listed.start_eq) (by simp)
    obtain ⟨chain, hholds⟩ := hs.holds hne
    exact Or.inr ⟨chain, hholds, (hholds.linked _).findLinked_eq _ (hholds.length_le _)⟩

/-- What is found is an element whose key compares as equal. -/
theorem hashFind_eq_some (hs : h.Sound items) {p : Ptr} (hp : hashFind h key = some p) :
    p ∈ items ∧ sameKey (h.handles p) (hashJen key.chars) key = true := by
  rcases hashFind_eq hs key with ⟨hnone, -⟩ | ⟨chain, hholds, heq⟩
  · exact absurd (hp.symm.trans hnone) (by simp)
  · rw [heq] at hp
    have hkey := List.find?_some hp
    exact ⟨hholds.mem_of_mem (List.mem_of_find?_eq_some hp), hkey⟩

/-- When nothing is found there is no such element. -/
theorem hashFind_eq_none (hs : h.Sound items) (hp : hashFind h key = none) :
    ∀ p ∈ items, sameKey (h.handles p) (hashJen key.chars) key = false := by
  rcases hashFind_eq hs key with ⟨-, rfl⟩ | ⟨chain, hholds, heq⟩
  · exact fun p hp => absurd hp List.not_mem_nil
  · intro p hmem
    rw [heq, List.find?_eq_none] at hp
    by_contra hkey
    rw [Bool.not_eq_false] at hkey
    have hhash : (h.handles p).hashv = hashJen key.chars := by
      rw [sameKey, Bool.and_eq_true, Bool.and_eq_true] at hkey
      exact of_decide_eq_true hkey.1.1
    have hin := (hholds.mem_iff p).1 hmem
    rw [homeOf, hhash] at hin
    exact hp p hin hkey

/-- `HASH_ITER` visits all elements, in the order in which they were added. -/
theorem hashIter_eq (hs : h.Sound items) : hashIter h = items := by
  rw [hashIter]
  rcases eq_or_ne items [] with rfl | hne
  · obtain hnone := hs.listed.start_eq
    rw [show h.head = none from hnone]
    cases h.tbl.numItems <;> rfl
  · obtain ⟨chain, hholds⟩ := hs.holds hne
    exact hs.listed.followLinks_eq (le_of_eq hholds.numItems.symm)

end Find

/-! ### The check of the table -/

/-- Every element hangs in one chain, so the counts of the buckets add up. -/
theorem ChainsHold.sum_count {handles : Ptr → UtHandle} {tbl : UtTable} {items : List Ptr}
    {chain : ℕ → List Ptr} (h : ChainsHold handles tbl items chain) (hnodup : items.Nodup) :
    ((List.range tbl.numBuckets).map fun j => (tbl.buckets j).count).sum = tbl.numItems := by
  have hchain : ∀ j, (tbl.buckets j).count =
      (items.toFinset.filter fun p => homeOf handles tbl.numBuckets p = j).card := by
    intro j
    rw [h.count, ← List.toFinset_card_of_nodup (h.nodup j)]
    congr 1
    ext p
    rw [List.mem_toFinset, Finset.mem_filter, List.mem_toFinset]
    constructor
    · exact fun hp => ⟨h.mem_of_mem hp, h.home j p hp⟩
    · rintro ⟨hp, rfl⟩
      exact (h.mem_iff p).1 hp
  calc ((List.range tbl.numBuckets).map fun j => (tbl.buckets j).count).sum
      = ∑ j ∈ Finset.range tbl.numBuckets, (tbl.buckets j).count := rfl
    _ = ∑ j ∈ Finset.range tbl.numBuckets,
          (items.toFinset.filter fun p => homeOf handles tbl.numBuckets p = j).card :=
        Finset.sum_congr rfl fun j _ => hchain j
    _ = items.toFinset.card := (Finset.card_eq_sum_card_fiberwise fun p _ =>
        Finset.mem_coe.2 (Finset.mem_range.2 (h.homeOf_lt p))).symm
    _ = tbl.numItems := by rw [List.toFinset_card_of_nodup hnodup, h.numItems]

/-- **A sound table passes `HASH_FSCK`.** -/
theorem UtHash.Sound.fsck {h : UtHash} {items : List Ptr} (hs : h.Sound items) : hashFsck h = true := by
  rw [hashFsck]
  cases hhead : h.head with
  | none => rfl
  | some hd =>
    have hne : items ≠ [] := by
      rintro rfl
      exact absurd (hhead.symm.trans hs.listed.start_eq) (by simp)
    obtain ⟨chain, hholds⟩ := hs.holds hne
    have hlisted := hs.listed
    rw [hhead] at hlisted
    have hlist := hlisted.countLinked_eq (le_of_eq hholds.numItems.symm)
    rw [← hholds.numItems] at hlist
    rw [Bool.and_eq_true, Bool.and_eq_true, List.all_eq_true, decide_eq_true_iff, decide_eq_true_iff]
    refine ⟨⟨fun j _ => decide_eq_true ?_, hholds.sum_count hs.nodup⟩, hlist⟩
    rw [hholds.count]
    exact (hholds.linked j).countLinked_eq (hholds.length_le j)

/-! ### Whole runs -/

/-- A search for `key` may give an element with the key `stored`. -/
def ComparesEqual (stored key : CString) : Prop :=
  hashJen stored.chars = hashJen key.chars ∧ stored.chars.length = key.chars.length ∧
    memcmp stored.chars key.chars key.chars.length = 0

instance (stored key : CString) : Decidable (ComparesEqual stored key) :=
  inferInstanceAs (Decidable (_ ∧ _ ∧ _))

theorem sameKey_iff {hh : UtHandle} {key : CString} (hhash : hh.hashv = hashJen hh.key.chars) :
    sameKey hh (hashJen key.chars) key = true ↔ ComparesEqual hh.key key := by
  simp [sameKey, ComparesEqual, hhash, and_assoc]

/-- A run of additions keeps the table sound, and the elements their keys. -/
theorem hashAdds_spec {mem : Memory} {h h' : UtHash} {items : List Ptr} {log : List (Ptr × CString)}
    (hs : h.Sound items) (hnodup : (items ++ log.map Prod.fst).Nodup)
    (hr : (hashAdds mem h log).1 = some h') :
    h'.Sound (items ++ log.map Prod.fst) ∧ (∀ e ∈ log, (h'.handles e.1).key = e.2) ∧
      ∀ p ∈ items, (h'.handles p).key = (h.handles p).key := by
  induction log generalizing mem h items with
  | nil =>
    obtain rfl := Option.some.inj hr
    rw [List.map_nil, List.append_nil]
    exact ⟨hs, fun e he => absurd he List.not_mem_nil, fun _ _ => rfl⟩
  | cons e log ih =>
    rw [List.map_cons, ← List.singleton_append, ← List.append_assoc] at hnodup ⊢
    have hfresh : e.1 ∉ items := fun hmem =>
      (List.nodup_append.1 (List.nodup_append.1 hnodup).1).2.2 e.1 hmem e.1 List.mem_cons_self rfl
    have hlog : ∀ d ∈ log, d.1 ≠ e.1 := fun d hd heq =>
      (List.nodup_append.1 hnodup).2.2 e.1 (List.mem_append_right _ List.mem_cons_self) d.1
        (List.mem_map_of_mem hd) heq.symm
    rw [hashAdds] at hr
    cases hadd : (hashAdd mem h e.1 e.2).1 with
    | none =>
      rw [hadd] at hr
      exact absurd hr (by simp)
    | some h₁ =>
      rw [hadd] at hr
      obtain ⟨hs₁, hkey, hkeys⟩ := hashAdd_spec hs hfresh hadd
      obtain ⟨hs', hnew, hold⟩ := ih hs₁ hnodup hr
      refine ⟨hs', fun d hd => ?_, fun p hp => ?_⟩
      · rcases List.mem_cons.1 hd with rfl | hd
        · rw [hold d.1 (List.mem_append_right _ List.mem_cons_self), hkey]
        · exact hnew d hd
      · rw [hold p (List.mem_append_left _ hp), hkeys p (ne_of_mem_of_not_mem hp hfresh)]

theorem UtHash.sound_empty : UtHash.empty.Sound [] :=
  ⟨rfl, List.nodup_nil, fun h => absurd rfl h, fun _ h => absurd h List.not_mem_nil,
    fun h => absurd rfl h⟩

/-- **Every table that is built by adding elements** passes `HASH_FSCK` however often its buckets were
expanded, `HASH_ITER` visits the elements in the order in which they were added, and the search for a key gives
an element whose key compares as equal whenever there is one. -/
theorem hashAdds_sound {mem : Memory} {log : List (Ptr × CString)} {h : UtHash}
    (hnodup : (log.map Prod.fst).Nodup) (hr : (hashAdds mem .empty log).1 = some h) :
    hashFsck h = true ∧ hashIter h = log.map Prod.fst ∧
      (∀ key p, hashFind h key = some p → ∃ stored, (p, stored) ∈ log ∧ ComparesEqual stored key) ∧
      ∀ key, hashFind h key = none → ∀ e ∈ log, ¬ComparesEqual e.2 key := by
  obtain ⟨hs, hkeys, -⟩ := hashAdds_spec UtHash.sound_empty (by simpa using hnodup) hr
  rw [List.nil_append] at hs
  refine ⟨hs.fsck, hashIter_eq hs, fun key p hp => ?_, fun key hnone e he hsame => ?_⟩
  · obtain ⟨hmem, hsame⟩ := hashFind_eq_some hs hp
    obtain ⟨e, he, rfl⟩ := List.mem_map.1 hmem
    rw [sameKey_iff (hs.hashv e.1 hmem), hkeys e he] at hsame
    exact ⟨e.2, he, hsame⟩
  · have hmem : e.1 ∈ log.map Prod.fst := List.mem_map_of_mem he
    have hnot := hashFind_eq_none hs hnone e.1 hmem
    rw [← hkeys e he, ← sameKey_iff (hs.hashv e.1 hmem), hnot] at hsame
    exact Bool.false_ne_true hsame

/-- Two elements. -/
theorem hashAdds_sound_twoNames :
    ∃ h, (hashAdds ampleMemory .empty [(7, .ofBytes [108, 115]), (3, .ofBytes [99, 100])]).1 = some h ∧
      hashFsck h = true ∧ hashIter h = [7, 3] := by
  have hsome : (hashAdds ampleMemory .empty
      [(7, .ofBytes [108, 115]), (3, .ofBytes [99, 100])]).1.isSome = true := by decide +kernel
  obtain ⟨h, hr⟩ := Option.isSome_iff_exists.1 hsome
  have hsound := hashAdds_sound (by decide) hr
  exact ⟨h, hr, hsound.1, hsound.2.1⟩

end LittleLinux
