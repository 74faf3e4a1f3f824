import LittleLinux.Kernel.UtHashChains
import LittleLinux.Lib.Assignments

/-!
# Maps from strings in a hash table

`register_command` and `env_set` do the same: they look for the element with the name they are given,
make one and add it when there is none, and then store into the element (`StringMap.assign`). What a table
contains after a list of such calls is said by the list alone (`StringMap.Holds`). That needs every two
names to be told apart by the comparison of the table (`ToldApart`): `memcmp` answers zero as soon as no
byte of the name in the table is smaller, so two names of one length and one hash value may be taken for
the same.
-/

namespace LittleLinux

universe u

variable {α : Type u}

/-- A hash table of elements with a string as their key, and what its elements contain besides. -/
structure StringMap (α : Type u) where
  mem : Memory
  map : UtHash
  entries : Ptr → Option α

namespace StringMap

/-- Nothing was added yet. -/
def empty (mem : Memory) : StringMap α := ⟨mem, .empty, fun _ => none⟩

/-- The element with the name `name` is looked for, made with the key `key` when there is none, and
gets the contents `a`. There is no result when an allocation fails. -/
def assign (t : StringMap α) (size : ℕ) (name key : CString) (a : α) : Option (StringMap α) :=
  match hashFind t.map name with
  | some p => some { t with entries := Function.update t.entries p (some a) }
  | none =>
    let m := t.mem.malloc size
    match m.1 with
    | none => none
    | some p =>
      let r := hashAdd m.2 t.map p key
      r.1.map fun map => ⟨r.2, map, Function.update t.entries p (some a)⟩

/-- What the element with that name contains. -/
def get (t : StringMap α) (name : CString) : Option α := (hashFind t.map name).bind t.entries

/-- The table is sound, and its elements are among those that were allocated. -/
def Sound (t : StringMap α) (items : List Ptr) : Prop :=
  t.map.Sound items ∧ ∀ p ∈ items, p < t.mem.next

/-- The table contains what the assignments of the log say. -/
structure Holds (t : StringMap α) (log : List (CString × α)) (items : List Ptr) : Prop where
  sound : t.Sound items
  keys : items.map (fun p => (t.map.handles p).key) = firstOrder log
  entries : ∀ p ∈ items, t.entries p = lastValue log (t.map.handles p).key

end StringMap

/-! ### Telling names apart -/

/-- A name is not taken for another one, when one of them is in the table and the other is sought. -/
def ToldApart (names : CString → Prop) : Prop :=
  ∀ a, names a → ∀ b, names b → ComparesEqual a b → a = b

theorem ComparesEqual.refl (name : CString) : ComparesEqual name name := by
  refine ⟨rfl, rfl, ?_⟩
  rw [memcmp_eq]
  exact if_pos fun i _ => UInt8.le_refl (name.chars.getD i 0)

/-! ### Looking for a name -/

section Find

variable {h : UtHash} {items : List Ptr} {name : CString} {names : CString → Prop}

/-- What is found has the name that was sought. -/
theorem key_of_hashFind (hs : h.Sound items) (hnames : ToldApart names)
    (hkeys : ∀ p ∈ items, names (h.handles p).key) (hname : names name) {p : Ptr}
    (hp : hashFind h name = some p) : p ∈ items ∧ (h.handles p).key = name := by
  obtain ⟨hmem, hkey⟩ := hashFind_eq_some hs hp
  exact ⟨hmem, hnames _ (hkeys p hmem) _ hname ((sameKey_iff (hs.hashv p hmem)).1 hkey)⟩

/-- When nothing is found, nothing has the name. -/
theorem ne_key_of_hashFind (hs : h.Sound items) (hp : hashFind h name = none) {p : Ptr}
    (hmem : p ∈ items) : (h.handles p).key ≠ name := by
  intro hkey
  have hsame := hashFind_eq_none hs hp p hmem
  have hnot : sameKey (h.handles p) (hashJen name.chars) name = true :=
    (sameKey_iff (hs.hashv p hmem)).2 (hkey ▸ .refl _)
  exact absurd (hnot.symm.trans hsame) (by simp)

end Find

namespace StringMap

variable {t t' : StringMap α} {items : List Ptr} {log : List (CString × α)} {size : ℕ}
  {name key : CString} {a : α} {names : CString → Prop}

theorem sound_empty (mem : Memory) : (empty mem : StringMap α).Sound [] :=
  ⟨⟨rfl, List.nodup_nil, fun h => absurd rfl h, fun _ h => absurd h List.not_mem_nil,
    fun h => absurd rfl h⟩, fun _ h => absurd h List.not_mem_nil⟩

theorem holds_empty (mem : Memory) : (empty mem : StringMap α).Holds [] [] :=
  ⟨sound_empty mem, rfl, fun _ h => absurd h List.not_mem_nil⟩

/-- Memory that was handed out stays so. -/
theorem next_le_next_hashExpandBuckets (mem : Memory) (handles : Ptr → UtHandle) (tbl : UtTable) :
    mem.next ≤ (hashExpandBuckets mem handles tbl).2.next := by
  rw [hashExpandBuckets]
  dsimp only
  split
  all_goals exact mem.next_le_next_malloc _

theorem next_le_next_hashAddToTable (mem : Memory) (h : UtHash) (add : Ptr) :
    mem.next ≤ (hashAddToTable mem h add).2.next := by
  rw [hashAddToTable]
  dsimp only
  split_ifs
  · exact next_le_next_hashExpandBuckets _ _ _
  · exact le_refl _

theorem next_le_next_hashMakeTable (mem : Memory) (add : Ptr) :
    mem.next ≤ (hashMakeTable mem add).2.next := by
  rw [hashMakeTable]
  dsimp only
  split
  · exact mem.next_le_next_malloc _
  · split
    all_goals exact (mem.next_le_next_malloc _).trans (Memory.next_le_next_malloc _ _)

theorem next_le_next_hashAdd (mem : Memory) (h : UtHash) (add : Ptr) (key : CString) :
    mem.next ≤ (hashAdd mem h add key).2.next := by
  rw [hashAdd]
  dsimp only
  split
  · split
    · exact next_le_next_hashMakeTable mem add
    · exact (next_le_next_hashMakeTable mem add).trans (next_le_next_hashAddToTable _ _ _)
  · exact next_le_next_hashAddToTable _ _ _

/-- **The two ways of an assignment**: an element is found and changed, or a new one is added. -/
theorem assign_cases (ht : t.Sound items) (h : t.assign size name key a = some t') :
    (∃ p, hashFind t.map name = some p ∧ p ∈ items ∧
      t' = { t with entries := Function.update t.entries p (some a) }) ∨
    ∃ p ∉ items, hashFind t.map name = none ∧ t'.Sound (items ++ [p]) ∧
      t'.entries = Function.update t.entries p (some a) ∧ (t'.map.handles p).key = key ∧
      ∀ q ≠ p, (t'.map.handles q).key = (t.map.handles q).key := by
  rw [assign.eq_def] at h
  cases hfind : hashFind t.map name with
  | some p =>
    rw [hfind] at h
    exact Or.inl ⟨p, rfl, (hashFind_eq_some ht.1 hfind).1, (Option.some.inj h).symm⟩
  | none =>
    rw [hfind] at h
    dsimp only at h
    cases hmalloc : (t.mem.malloc size).1 with
    | none =>
      rw [hmalloc] at h
      exact absurd h (by simp)
    | some p =>
      rw [hmalloc] at h
      obtain ⟨hp, hnext⟩ := Memory.malloc_eq_some hmalloc
      have hnew : p ∉ items := fun hmem => (ht.2 p hmem).ne hp
      obtain ⟨map, hadd, rfl⟩ := Option.map_eq_some_iff.1 h
      obtain ⟨hsound, hkey, hkeys⟩ := hashAdd_spec ht.1 hnew hadd
      refine Or.inr ⟨p, hnew, rfl, ⟨hsound, fun q hq => ?_⟩, rfl, hkey, hkeys⟩
      have hle := next_le_next_hashAdd (t.mem.malloc size).2 t.map p key
      rcases List.mem_append.1 hq with hq | hq
      · exact ((ht.2 q hq).trans_le (t.mem.next_le_next_malloc size)).trans_le hle
      · rw [List.mem_singleton.1 hq]
        exact (Nat.lt_succ_self p).trans_le (hnext.symm.le.trans hle)

/-- An assignment keeps the table sound. -/
theorem Sound.assign (ht : t.Sound items) (h : t.assign size name key a = some t') :
    ∃ items', t'.Sound items' := by
  rcases assign_cases ht h with ⟨p, -, -, rfl⟩ | ⟨p, -, -, hsound, -⟩
  · exact ⟨items, ht⟩
  · exact ⟨items ++ [p], hsound⟩

/-- Allocations change which addresses are free, not which calls are granted. -/
theorem grants_hashAdd (mem : Memory) (h : UtHash) (add : Ptr) (key : CString) :
    (hashAdd mem h add key).2.grants = mem.grants := by
  have htable : ∀ (mem : Memory) (h : UtHash), (hashAddToTable mem h add).2.grants = mem.grants := by
    intro mem h
    rw [hashAddToTable]
    dsimp only
    split_ifs
    · rw [hashExpandBuckets]
      dsimp only
      split
      all_goals exact Memory.grants_malloc _ _
    · rfl
  have hmake : (hashMakeTable mem add).2.grants = mem.grants := by
    rw [hashMakeTable]
    dsimp only
    split
    · exact Memory.grants_malloc _ _
    · split
      all_goals exact (Memory.grants_malloc _ _).trans (Memory.grants_malloc _ _)
  rw [hashAdd]
  dsimp only
  split
  · split
    · exact hmake
    · exact (htable _ _).trans hmake
  · exact htable _ _

theorem hashAdd_isSome {mem : Memory} (hm : mem.Unfailing) (h : UtHash) (add : Ptr) (key : CString)
    (hbuckets : h.head ≠ none → h.tbl.numBuckets ≠ 0) : (hashAdd mem h add key).1.isSome := by
  have htable : ∀ (mem : Memory) (h : UtHash), mem.Unfailing → h.tbl.numBuckets ≠ 0 →
      (hashAddToTable mem h add).1.isSome := by
    intro mem h hm hb
    rw [hashAddToTable]
    dsimp only
    split_ifs
    · have hsize : sizeofUtBucket * h.tbl.numBuckets * 2 ≠ 0 := by
        simp [sizeofUtBucket, hb]
      rw [hashExpandBuckets]
      dsimp only
      rw [hm.malloc_isSome hsize]
      rfl
    · rfl
  rw [hashAdd]
  dsimp only
  split
  · rw [hashMakeTable, hm.malloc_isSome (by decide)]
    dsimp only
    rw [(hm.malloc _).malloc_isSome (by decide)]
    exact htable _ _ ((hm.malloc _).malloc _) (Nat.succ_ne_zero 31)
  · rename_i hd hhead
    exact htable _ _ hm (hbuckets (by simp [hhead]))

/-- While every allocation succeeds there is a result. -/
theorem Sound.assign_isSome (ht : t.Sound items) (hm : t.mem.Unfailing) (hsize : size ≠ 0)
    (name key : CString) (a : α) :
    ∃ t', t.assign size name key a = some t' ∧ t'.mem.Unfailing := by
  rw [StringMap.assign.eq_def]
  cases hashFind t.map name with
  | some p => exact ⟨_, rfl, hm⟩
  | none =>
    dsimp only
    rw [hm.malloc_isSome hsize]
    dsimp only
    have hbuckets : t.map.head ≠ none → t.map.tbl.numBuckets ≠ 0 := by
      intro hhead
      have hne : items ≠ [] := by
        rintro rfl
        exact hhead ht.1.listed.start_eq
      obtain ⟨chain, hchain⟩ := ht.1.holds hne
      rw [hchain.numBuckets]
      exact (Nat.two_pow_pos _).ne'
    obtain ⟨map, hmap⟩ := Option.isSome_iff_exists.1
      (hashAdd_isSome (hm.malloc size) t.map t.mem.next key hbuckets)
    refine ⟨_, by rw [hmap, Option.map_some], fun n => ?_⟩
    dsimp only
    rw [grants_hashAdd]
    exact hm.malloc size n

/-- **What a table that holds a log answers.** -/
theorem Holds.get_eq (ht : t.Holds log items) (hnames : ToldApart names)
    (hlog : ∀ e ∈ log, names e.1) (hname : names name) : t.get name = lastValue log name := by
  have hkeys : ∀ p ∈ items, names (t.map.handles p).key := by
    intro p hp
    have hin : (t.map.handles p).key ∈ firstOrder log := by
      rw [← ht.keys]
      exact List.mem_map_of_mem hp
    obtain ⟨b, hb⟩ := mem_firstOrder.1 hin
    exact hlog _ hb
  rw [get]
  cases hfind : hashFind t.map name with
  | some p =>
    obtain ⟨hp, hkey⟩ := key_of_hashFind ht.sound.1 hnames hkeys hname hfind
    rw [Option.bind_some, ht.entries p hp, hkey]
  | none =>
    rw [Option.bind_none, lastValue_of_notMem]
    rw [← ht.keys, List.mem_map]
    rintro ⟨p, hp, hkey⟩
    exact ne_key_of_hashFind ht.sound.1 hfind hp hkey

/-- **One more assignment.** -/
theorem Holds.assign (ht : t.Holds log items) (hnames : ToldApart names)
    (hlog : ∀ e ∈ log, names e.1) (hname : names name) (h : t.assign size name name a = some t') :
    ∃ items', t'.Holds (log ++ [(name, a)]) items' := by
  have hkeys : ∀ p ∈ items, (t.map.handles p).key ∈ firstOrder log := by
    intro p hp
    rw [← ht.keys]
    exact List.mem_map_of_mem hp
  have hall : ∀ p ∈ items, names (t.map.handles p).key := by
    intro p hp
    obtain ⟨b, hb⟩ := mem_firstOrder.1 (hkeys p hp)
    exact hlog _ hb
  rcases assign_cases ht.sound h with ⟨p, hfind, hp, rfl⟩ | ⟨p, hp, hfind, hsound, hentries, hkey, hrest⟩
  · -- the element with this name gets new contents
    obtain ⟨-, hkey⟩ := key_of_hashFind ht.sound.1 hnames hall hname hfind
    refine ⟨items, ht.sound, ?_, fun q hq => ?_⟩
    · rw [firstOrder_append_of_mem (hkey ▸ hkeys p hp)]
      exact ht.keys
    · dsimp only
      rcases eq_or_ne q p with rfl | hne
      · rw [Function.update_self, hkey, lastValue_append_self]
      · have hnodup : (items.map fun p => (t.map.handles p).key).Nodup := by
          rw [ht.keys]
          exact nodup_firstOrder log
        have hother : (t.map.handles q).key ≠ name := fun hq' =>
          hne (List.inj_on_of_nodup_map hnodup hq hp (hq'.trans hkey.symm))
        rw [Function.update_of_ne hne, lastValue_append_of_ne log hother]
        exact ht.entries q hq
  · -- a new element comes last
    have hnew : name ∉ firstOrder log := by
      rw [← ht.keys, List.mem_map]
      rintro ⟨q, hq, hq'⟩
      exact ne_key_of_hashFind ht.sound.1 hfind hq hq'
    have hold : ∀ q ∈ items, (t'.map.handles q).key = (t.map.handles q).key := fun q hq =>
      hrest q (ne_of_mem_of_not_mem hq hp)
    refine ⟨items ++ [p], hsound, ?_, fun q hq => ?_⟩
    · rw [firstOrder_append_of_notMem hnew, List.map_append, List.map_singleton, hkey,
        List.map_congr_left hold, ht.keys]
    · rw [hentries]
      rcases List.mem_append.1 hq with hq | hq
      · have hother : (t.map.handles q).key ≠ name := ne_key_of_hashFind ht.sound.1 hfind hq
        rw [Function.update_of_ne (ne_of_mem_of_not_mem hq hp), hold q hq,
          lastValue_append_of_ne log hother]
        exact ht.entries q hq
      · obtain rfl := List.mem_singleton.1 hq
        rw [Function.update_self, hkey, lastValue_append_self]

/-- After a first assignment the element is found under every name that compares as equal to its key, and
under no other. -/
theorem get_assign_empty {mem : Memory} (h : (empty mem).assign size name key a = some t')
    (sought : CString) : t'.get sought = if ComparesEqual key sought then some a else none := by
  rcases assign_cases (sound_empty mem) h with ⟨p, -, hp, -⟩ | ⟨p, -, -, hsound, hentries, hkey, -⟩
  · exact absurd hp List.not_mem_nil
  · have hmem : p ∈ [] ++ [p] := List.mem_singleton_self p
    have hhash := hsound.1.hashv p hmem
    rw [get]
    cases hfind : hashFind t'.map sought with
    | some q =>
      obtain ⟨hq, hsame⟩ := hashFind_eq_some hsound.1 hfind
      obtain rfl := List.mem_singleton.1 hq
      rw [sameKey_iff hhash, hkey] at hsame
      rw [if_pos hsame, Option.bind_some, hentries, Function.update_self]
    | none =>
      have hnot := hashFind_eq_none hsound.1 hfind p hmem
      rw [if_neg, Option.bind_none]
      rw [← hkey, ← sameKey_iff hhash, hnot]
      exact Bool.false_ne_true

end StringMap

end LittleLinux
