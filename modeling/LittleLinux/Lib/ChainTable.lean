import Mathlib.Data.List.Nodup
import Mathlib.Data.List.FinRange
import Mathlib.Data.List.Perm.Basic
import Mathlib.Logic.Function.Basic
import Mathlib.Tactic

/-!
# Chained hash tables

A table of `n` buckets, each a singly linked chain of heap nodes, with a separate element
counter. The operations are those of a C implementation: a lookup walks one chain with a
comparison routine `eq`, an insertion updates the first matching node in place or pushes a
new node on the front of the chain, a deletion unlinks the first matching node. Neither
`eq` nor `hash` is assumed to be sensible; what the routine gets right or wrong is stated
by its users.

`Rep` is the representation invariant (placement, uniqueness, counter) and `lookup` the
finite map a table stands for. The laws are stated relative to `ExactAt`: at the key in
hand, the comparison routine accepts no node of the bucket but the key's own. Where that
holds, the operations are those of a finite map.
-/

namespace LittleLinux

namespace ChainTable

/-- One heap node of a chain: its address, its own copy of the key, and the value. -/
structure Node (K V : Type) where
  addr : ℕ
  key : K
  value : V

/-- A table: the chains, front node first, and the element counter. -/
structure Table (n : ℕ) (K V : Type) where
  buckets : Fin n → List (Node K V)
  count : ℤ

variable {n : ℕ} {K V : Type}

/-- The table with empty chains. -/
def Table.empty : Table n K V := ⟨fun _ => [], 0⟩

instance : Inhabited (Table n K V) := ⟨Table.empty⟩

/-- All nodes in traversal order: bucket by bucket, each chain from its front. -/
def Table.nodes (t : Table n K V) : List (Node K V) := (List.finRange n).flatMap t.buckets

/-- Update the value of the first node accepted by `p`, in place. -/
def modifyFirst (p : Node K V → Bool) (f : V → V) : List (Node K V) → List (Node K V)
  | [] => []
  | nd :: c => if p nd then { nd with value := f nd.value } :: c else nd :: modifyFirst p f c

/-- Visit the values of a chain from its front, passing a state along; each value is replaced
by the one the visit answers with. -/
def mapAccumChain {σ : Type} (f : σ → V → V × σ) : List (Node K V) → σ → List (Node K V) × σ
  | [], s => ([], s)
  | nd :: c, s =>
    let r := f s nd.value
    let rest := mapAccumChain f c r.2
    ({ nd with value := r.1 } :: rest.1, rest.2)

/-- Visit all values in traversal order. -/
def Table.mapAccum {σ : Type} (f : σ → V → V × σ) (t : Table n K V) (s : σ) : Table n K V × σ :=
  (List.finRange n).foldl (fun acc i =>
    let r := mapAccumChain f (acc.1.buckets i) acc.2
    ({ acc.1 with buckets := Function.update acc.1.buckets i r.1 }, r.2)) (t, s)

section Operations

variable (eq : K → K → Bool) (hash : K → Fin n)

/-- The first node of the key's chain that the comparison routine accepts. -/
def findNode (t : Table n K V) (k : K) : Option (Node K V) :=
  (t.buckets (hash k)).find? fun nd => eq nd.key k

/-- Lookup: the value of the accepted node. -/
def find (t : Table n K V) (k : K) : Option V := (findNode eq hash t k).map Node.value

/-- In-place update through the pointer that `find` returned. -/
def modify (t : Table n K V) (k : K) (f : V → V) : Table n K V :=
  { t with
    buckets := Function.update t.buckets (hash k)
      (modifyFirst (fun nd => eq nd.key k) f (t.buckets (hash k))) }

/-- Insert or update: the bucket is chosen by the key `k`, the node keeps the copy
`stored`. A new node lives at the address `m` that the allocator answers with; when it
answers `none`, nothing changes. -/
def insert (t : Table n K V) (k stored : K) (v : V) (m : Option ℕ) : Bool × Table n K V :=
  match findNode eq hash t k with
  | some _ => (true, modify eq hash t k fun _ => v)
  | none =>
    match m with
    | none => (false, t)
    | some a =>
      (true,
        { buckets := Function.update t.buckets (hash k) (⟨a, stored, v⟩ :: t.buckets (hash k))
          count := t.count + 1 })

/-- Delete: unlink the first accepted node of the chain. -/
def delete (t : Table n K V) (k : K) : Bool × Table n K V :=
  match findNode eq hash t k with
  | some _ =>
    (true,
      { buckets := Function.update t.buckets (hash k)
          ((t.buckets (hash k)).eraseP fun nd => eq nd.key k)
        count := t.count - 1 })
  | none => (false, t)

/-- The comparison routine is exact at `k`: it accepts `k` itself, and no node of the
chain of `k` other than one that holds `k`. -/
structure ExactAt (t : Table n K V) (k : K) : Prop where
  refl : eq k k = true
  sound : ∀ nd ∈ t.buckets (hash k), eq nd.key k = true → nd.key = k

/-- The representation invariant. -/
structure Rep (t : Table n K V) : Prop where
  placed : ∀ i, ∀ nd ∈ t.buckets i, hash nd.key = i
  nodup : ∀ i, ((t.buckets i).map Node.key).Nodup
  count_eq : t.count = t.nodes.length

end Operations

/-- The finite map a table stands for: lookup by true equality of keys. -/
def lookup [DecidableEq K] (hash : K → Fin n) (t : Table n K V) (k : K) : Option V :=
  find (fun a b => decide (a = b)) hash t k

/-! ### Nodes -/

theorem mem_nodes {t : Table n K V} {nd : Node K V} :
    nd ∈ t.nodes ↔ ∃ i, nd ∈ t.buckets i := by
  simp [Table.nodes]

@[simp]
theorem nodes_empty : (Table.empty : Table n K V).nodes = [] := by
  simp [Table.nodes, Table.empty]

theorem mem_bucket_of_mem_nodes {hash : K → Fin n} {t : Table n K V} (hr : Rep hash t)
    {nd : Node K V} (h : nd ∈ t.nodes) : nd ∈ t.buckets (hash nd.key) := by
  obtain ⟨i, hi⟩ := mem_nodes.mp h
  rwa [hr.placed i nd hi]

/-- Replacing one bucket replaces its nodes, up to order. -/
theorem nodes_update_perm (t : Table n K V) (i : Fin n) (c : List (Node K V)) (z : ℤ) :
    ∃ rest, t.nodes.Perm (t.buckets i ++ rest) ∧
      (Table.mk (Function.update t.buckets i c) z).nodes.Perm (c ++ rest) := by
  obtain ⟨l₁, l₂, hl⟩ := List.append_of_mem (List.mem_finRange i)
  have hnd := List.nodup_finRange n
  rw [hl, List.nodup_append, List.nodup_cons] at hnd
  obtain ⟨-, ⟨hi₂, -⟩, hdis⟩ := hnd
  have hi₁ : i ∉ l₁ := fun h => hdis i h i (by simp) rfl
  have hsame : ∀ l : List (Fin n), i ∉ l →
      l.flatMap (Function.update t.buckets i c) = l.flatMap t.buckets := by
    intro l hni
    refine List.flatMap_congr fun j hj => Function.update_of_ne ?_ _ _
    rintro rfl
    exact hni hj
  refine ⟨l₁.flatMap t.buckets ++ l₂.flatMap t.buckets, ?_, ?_⟩
  · simp only [Table.nodes, hl, List.flatMap_append, List.flatMap_cons]
    exact List.perm_append_comm_assoc _ _ _
  · simp only [Table.nodes, hl, List.flatMap_append, List.flatMap_cons,
      Function.update_self, hsame l₁ hi₁, hsame l₂ hi₂]
    exact List.perm_append_comm_assoc _ _ _

/-- Distinct keys in every chain, each in its own bucket: distinct keys overall. -/
theorem Rep.keys_nodup {hash : K → Fin n} {t : Table n K V} (hr : Rep hash t) :
    (t.nodes.map Node.key).Nodup := by
  rw [Table.nodes, List.map_flatMap, List.nodup_flatMap]
  refine ⟨fun i _ => hr.nodup i, (List.nodup_finRange n).imp fun {i j} hij => ?_⟩
  intro k hki hkj
  obtain ⟨a, ha, rfl⟩ := List.mem_map.mp hki
  obtain ⟨b, hb, hab⟩ := List.mem_map.mp hkj
  exact hij (by rw [← hr.placed i a ha, ← hr.placed j b hb, hab])

/-! ### Chains -/

theorem map_key_modifyFirst (p : Node K V → Bool) (f : V → V) (c : List (Node K V)) :
    (modifyFirst p f c).map Node.key = c.map Node.key := by
  induction c with
  | nil => rfl
  | cons nd c ih =>
    simp only [modifyFirst]
    split <;> simp [ih]

theorem mem_modifyFirst_key {p : Node K V → Bool} {f : V → V} {c : List (Node K V)}
    {nd : Node K V} (h : nd ∈ modifyFirst p f c) : ∃ nd' ∈ c, nd'.key = nd.key := by
  have hk : nd.key ∈ (modifyFirst p f c).map Node.key := List.mem_map_of_mem h
  rw [map_key_modifyFirst] at hk
  exact List.mem_map.mp hk

/-- A node of the updated chain is an old node, or the first accepted one with its new
value. -/
theorem mem_modifyFirst {p : Node K V → Bool} {f : V → V} {c : List (Node K V)}
    {nd : Node K V} (h : nd ∈ modifyFirst p f c) :
    nd ∈ c ∨ ∃ nd' ∈ c, c.find? p = some nd' ∧ nd = { nd' with value := f nd'.value } := by
  induction c with
  | nil => simp [modifyFirst] at h
  | cons a c ih =>
    simp only [modifyFirst] at h
    split at h
    next ha =>
      rcases List.mem_cons.mp h with rfl | h
      · exact .inr ⟨a, by simp, by simp [ha], rfl⟩
      · exact .inl (List.mem_cons_of_mem _ h)
    next ha =>
      rcases List.mem_cons.mp h with rfl | h
      · exact .inl (by simp)
      · rcases ih h with h | ⟨b, hb, hf, rfl⟩
        · exact .inl (List.mem_cons_of_mem _ h)
        · exact .inr ⟨b, List.mem_cons_of_mem _ hb, by simp [ha, hf], rfl⟩

theorem modifyFirst_congr {p q : Node K V → Bool} (f : V → V) {c : List (Node K V)}
    (h : ∀ nd ∈ c, p nd = q nd) : modifyFirst p f c = modifyFirst q f c := by
  induction c with
  | nil => rfl
  | cons nd c ih =>
    simp only [modifyFirst, h nd (by simp), ih fun x hx => h x (List.mem_cons_of_mem _ hx)]

/-- Where keys are distinct, updating the first node of a key updates that key. -/
theorem modifyFirst_key_eq_map [DecidableEq K] (k : K) (f : V → V) {c : List (Node K V)}
    (hnd : (c.map Node.key).Nodup) :
    modifyFirst (fun nd => decide (nd.key = k)) f c =
      c.map fun nd => if nd.key = k then { nd with value := f nd.value } else nd := by
  induction c with
  | nil => rfl
  | cons nd c ih =>
    rw [List.map_cons, List.nodup_cons] at hnd
    by_cases hk : nd.key = k
    · have hrest : c.map (fun x => if x.key = k then { x with value := f x.value } else x) = c := by
        refine (List.map_congr_left fun x hx => ?_).trans (List.map_id c)
        have hne : x.key ≠ k := by
          rintro rfl
          exact hnd.1 (hk ▸ List.mem_map_of_mem hx)
        simp [hne]
      simp [modifyFirst, hk, hrest]
    · simp [modifyFirst, hk, ih hnd.2]

/-- Where keys are distinct, unlinking the first node of a key removes that key. -/
theorem eraseP_key_eq_filter [DecidableEq K] (k : K) {c : List (Node K V)}
    (hnd : (c.map Node.key).Nodup) :
    c.eraseP (fun nd => decide (nd.key = k)) = c.filter fun nd => decide (nd.key ≠ k) := by
  induction c with
  | nil => rfl
  | cons nd c ih =>
    rw [List.map_cons, List.nodup_cons] at hnd
    by_cases hk : nd.key = k
    · have hrest : c.filter (fun x => decide (x.key ≠ k)) = c := by
        refine List.filter_eq_self.mpr fun x hx => ?_
        have hne : x.key ≠ k := by
          rintro rfl
          exact hnd.1 (hk ▸ List.mem_map_of_mem hx)
        simpa using hne
      rw [List.eraseP_cons_of_pos (by simpa using hk), List.filter_cons_of_neg (by simpa using hk),
        hrest]
    · rw [List.eraseP_cons_of_neg (by simpa using hk), ih hnd.2, List.filter_cons_of_pos (by simpa using hk)]

/-! ### The exact routine -/

section Exact

variable {eq : K → K → Bool} {hash : K → Fin n} {t : Table n K V} {k : K}

variable [DecidableEq K]

/-- On the chain of `k` an exact routine decides equality with `k`. -/
theorem ExactAt.eq_decide (he : ExactAt eq hash t k) {nd : Node K V}
    (hm : nd ∈ t.buckets (hash k)) : eq nd.key k = decide (nd.key = k) := by
  by_cases hk : nd.key = k
  · simp [hk, he.refl]
  · have hne : eq nd.key k ≠ true := fun h => hk (he.sound nd hm h)
    simp [hk, hne]

theorem ExactAt.findNode_eq (he : ExactAt eq hash t k) :
    findNode eq hash t k = findNode (fun a b => decide (a = b)) hash t k :=
  List.find?_congr fun _ hm => he.eq_decide hm

/-- An exact lookup reads the finite map. -/
theorem ExactAt.find_eq (he : ExactAt eq hash t k) : find eq hash t k = lookup hash t k := by
  rw [lookup, find, find, he.findNode_eq]

theorem ExactAt.modify_eq (he : ExactAt eq hash t k) (f : V → V) :
    modify eq hash t k f = modify (fun a b => decide (a = b)) hash t k f := by
  rw [modify, modify, modifyFirst_congr f fun nd hm => he.eq_decide hm]

theorem ExactAt.delete_eq (he : ExactAt eq hash t k) :
    delete eq hash t k = delete (fun a b => decide (a = b)) hash t k := by
  have herase : ∀ c : List (Node K V), (∀ nd ∈ c, nd ∈ t.buckets (hash k)) →
      c.eraseP (fun nd => eq nd.key k) = c.eraseP fun nd => decide (nd.key = k) := by
    intro c hc
    induction c with
    | nil => rfl
    | cons nd c ih =>
      simp only [List.eraseP_cons, he.eq_decide (hc nd (by simp)),
        ih fun x hx => hc x (List.mem_cons_of_mem _ hx)]
  rw [delete, delete, he.findNode_eq, herase _ fun _ h => h]

end Exact

/-! ### The finite map of a represented table -/

section Map

variable [DecidableEq K] {hash : K → Fin n} {t : Table n K V}

@[simp]
theorem lookup_empty (hash : K → Fin n) (k : K) :
    lookup hash (Table.empty : Table n K V) k = none := by
  simp [lookup, find, findNode, Table.empty]

omit [DecidableEq K] in
theorem rep_empty (hash : K → Fin n) : Rep hash (Table.empty : Table n K V) where
  placed := by simp [Table.empty]
  nodup := by simp [Table.empty]
  count_eq := by rw [nodes_empty]; rfl

/-- The map holds exactly the nodes of the table. -/
theorem lookup_eq_some_iff (hr : Rep hash t) {k : K} {v : V} :
    lookup hash t k = some v ↔ ∃ nd ∈ t.nodes, nd.key = k ∧ nd.value = v := by
  constructor
  · intro h
    obtain ⟨nd, hf, rfl⟩ := Option.map_eq_some_iff.mp h
    have hk := List.find?_some hf
    exact ⟨nd, mem_nodes.mpr ⟨_, List.mem_of_find?_eq_some hf⟩, by simpa using hk, rfl⟩
  · rintro ⟨nd, hm, rfl, rfl⟩
    have hb := mem_bucket_of_mem_nodes hr hm
    have hsome : ((t.buckets (hash nd.key)).find?
        fun x => decide (x.key = nd.key)).isSome := by
      rw [List.find?_isSome]
      exact ⟨nd, hb, by simp⟩
    obtain ⟨x, hx⟩ := Option.isSome_iff_exists.mp hsome
    have hxk : x.key = nd.key := by simpa using List.find?_some hx
    have hxnd : x = nd :=
      List.inj_on_of_nodup_map (hr.nodup _) (List.mem_of_find?_eq_some hx) hb hxk
    simp [lookup, find, findNode, hx, hxnd]

theorem lookup_isSome_iff (hr : Rep hash t) {k : K} :
    (lookup hash t k).isSome ↔ k ∈ t.nodes.map Node.key := by
  rw [Option.isSome_iff_exists]
  constructor
  · rintro ⟨v, hv⟩
    obtain ⟨nd, hm, rfl, -⟩ := (lookup_eq_some_iff hr).mp hv
    exact List.mem_map_of_mem hm
  · intro h
    obtain ⟨nd, hm, rfl⟩ := List.mem_map.mp h
    exact ⟨_, (lookup_eq_some_iff hr).mpr ⟨nd, hm, rfl, rfl⟩⟩

/-! ### In-place update -/

section Modify

variable {eq : K → K → Bool} {k : K}

omit [DecidableEq K] in
@[simp]
theorem modify_buckets_self (t : Table n K V) (f : V → V) :
    (modify eq hash t k f).buckets (hash k) =
      modifyFirst (fun nd => eq nd.key k) f (t.buckets (hash k)) :=
  Function.update_self _ _ _

omit [DecidableEq K] in
theorem modify_buckets_of_ne (t : Table n K V) (f : V → V) {i : Fin n} (hi : i ≠ hash k) :
    (modify eq hash t k f).buckets i = t.buckets i :=
  Function.update_of_ne hi _ _

theorem lookup_modify (hr : Rep hash t) (he : ExactAt eq hash t k) (f : V → V) (k' : K) :
    lookup hash (modify eq hash t k f) k' =
      if k' = k then (lookup hash t k).map f else lookup hash t k' := by
  rw [he.modify_eq, modify, modifyFirst_key_eq_map k f (hr.nodup _)]
  by_cases hb : hash k' = hash k
  · -- the chain of `k'` is the updated one: the node found there keeps its key
    have hcomp : ((fun x : Node K V => decide (x.key = k')) ∘
        fun nd => if nd.key = k then { nd with value := f nd.value } else nd) =
        fun x => decide (x.key = k') := by
      funext nd
      by_cases hk : nd.key = k <;> simp [hk]
    simp only [lookup, find, findNode, hb, Function.update_self, List.find?_map, hcomp]
    rcases hf : (t.buckets (hash k)).find? (fun x => decide (x.key = k')) with _ | nd
    · by_cases hk : k' = k
      · subst hk
        simp [hf]
      · simp [hf, hk]
    · have hnd : nd.key = k' := by simpa using List.find?_some hf
      by_cases hk : k' = k
      · subst hk
        simp [hf, hnd]
      · simp [hf, hk, hnd]
  · have hk : k' ≠ k := fun h => hb (by rw [h])
    simp [lookup, find, findNode, hk, Function.update_of_ne hb]

omit [DecidableEq K] in
theorem nodes_modify_key (t : Table n K V) (f : V → V) :
    (modify eq hash t k f).nodes.map Node.key = t.nodes.map Node.key := by
  simp only [Table.nodes, List.map_flatMap]
  refine List.flatMap_congr fun i _ => ?_
  by_cases hi : i = hash k
  · subst hi
    rw [modify_buckets_self, map_key_modifyFirst]
  · rw [modify_buckets_of_ne t f hi]

omit [DecidableEq K] in
theorem rep_modify (hr : Rep hash t) (f : V → V) : Rep hash (modify eq hash t k f) where
  placed := by
    intro i nd hm
    by_cases hi : i = hash k
    · subst hi
      rw [modify_buckets_self] at hm
      obtain ⟨nd', hm', hk⟩ := mem_modifyFirst_key hm
      rw [← hk]
      exact hr.placed _ nd' hm'
    · rw [modify_buckets_of_ne t f hi] at hm
      exact hr.placed i nd hm
  nodup := by
    intro i
    by_cases hi : i = hash k
    · subst hi
      rw [modify_buckets_self, map_key_modifyFirst]
      exact hr.nodup _
    · rw [modify_buckets_of_ne t f hi]
      exact hr.nodup i
  count_eq := by
    have hkeys : (modify eq hash t k f).nodes.map Node.key = t.nodes.map Node.key :=
      nodes_modify_key t f
    have hlen := congrArg List.length hkeys
    simp only [List.length_map] at hlen
    rw [hlen]
    exact hr.count_eq

end Modify

/-! ### Insertion -/

section Insert

variable {eq : K → K → Bool} {k : K}

theorem ExactAt.findNode_eq_none_iff (he : ExactAt eq hash t k) :
    findNode eq hash t k = none ↔ lookup hash t k = none := by
  rw [he.findNode_eq, lookup, find, Option.map_eq_none_iff]

theorem lookup_eq_none_iff (hr : Rep hash t) :
    lookup hash t k = none ↔ ∀ nd ∈ t.nodes, nd.key ≠ k := by
  constructor
  · rintro h nd hm rfl
    rw [(lookup_eq_some_iff hr).mpr ⟨nd, hm, rfl, rfl⟩] at h
    simp at h
  · intro h
    rcases hl : lookup hash t k with _ | v
    · rfl
    · obtain ⟨nd, hm, hk, -⟩ := (lookup_eq_some_iff hr).mp hl
      exact absurd hk (h nd hm)

/-- The table after pushing a new node on its chain. -/
def pushNode (hash : K → Fin n) (t : Table n K V) (nd : Node K V) : Table n K V :=
  { buckets := Function.update t.buckets (hash nd.key) (nd :: t.buckets (hash nd.key))
    count := t.count + 1 }

/-- What an insertion does: update in place, fail, or push a node. -/
theorem insert_cases (he : ExactAt eq hash t k) (v : V) (m : Option ℕ) :
    ((lookup hash t k).isSome ∧
        insert eq hash t k k v m = (true, modify eq hash t k fun _ => v)) ∨
      (lookup hash t k = none ∧ m = none ∧ insert eq hash t k k v m = (false, t)) ∨
      (∃ a, lookup hash t k = none ∧ m = some a ∧
        insert eq hash t k k v m = (true, pushNode hash t ⟨a, k, v⟩)) := by
  rcases hf : findNode eq hash t k with _ | nd
  · have hl := he.findNode_eq_none_iff.mp hf
    rcases m with _ | a
    · exact .inr (.inl ⟨hl, rfl, by simp [insert, hf]⟩)
    · exact .inr (.inr ⟨a, hl, rfl, by simp [insert, hf, pushNode]⟩)
  · refine .inl ⟨?_, by simp [insert, hf]⟩
    rw [Option.isSome_iff_ne_none]
    intro hl
    rw [he.findNode_eq_none_iff.mpr hl] at hf
    simp at hf

omit [DecidableEq K] in
@[simp]
theorem pushNode_buckets_self (t : Table n K V) (nd : Node K V) :
    (pushNode hash t nd).buckets (hash nd.key) = nd :: t.buckets (hash nd.key) :=
  Function.update_self _ _ _

omit [DecidableEq K] in
theorem pushNode_buckets_of_ne (t : Table n K V) (nd : Node K V) {i : Fin n}
    (hi : i ≠ hash nd.key) : (pushNode hash t nd).buckets i = t.buckets i :=
  Function.update_of_ne hi _ _

theorem lookup_pushNode (nd : Node K V) (k' : K) :
    lookup hash (pushNode hash t nd) k' =
      if k' = nd.key then some nd.value else lookup hash t k' := by
  by_cases hb : hash k' = hash nd.key
  · by_cases hk : k' = nd.key
    · subst hk
      simp [lookup, find, findNode, pushNode]
    · have hk' : nd.key ≠ k' := fun h => hk h.symm
      simp [lookup, find, findNode, pushNode, hb, hk, hk']
  · have hk : k' ≠ nd.key := fun h => hb (by rw [h])
    simp [lookup, find, findNode, pushNode, hk, Function.update_of_ne hb]

omit [DecidableEq K] in
theorem nodes_pushNode_perm (t : Table n K V) (nd : Node K V) :
    (pushNode hash t nd).nodes.Perm (nd :: t.nodes) := by
  obtain ⟨rest, hold, hnew⟩ := nodes_update_perm t (hash nd.key)
    (nd :: t.buckets (hash nd.key)) (t.count + 1)
  exact hnew.trans (hold.symm.cons nd)

theorem rep_pushNode (hr : Rep hash t) {nd : Node K V} (hl : lookup hash t nd.key = none) :
    Rep hash (pushNode hash t nd) where
  placed := by
    intro i x hm
    by_cases hi : i = hash nd.key
    · subst hi
      rw [pushNode_buckets_self, List.mem_cons] at hm
      rcases hm with rfl | hm
      · rfl
      · exact hr.placed _ x hm
    · rw [pushNode_buckets_of_ne t nd hi] at hm
      exact hr.placed i x hm
  nodup := by
    intro i
    by_cases hi : i = hash nd.key
    · subst hi
      rw [pushNode_buckets_self, List.map_cons, List.nodup_cons]
      refine ⟨fun hmem => ?_, hr.nodup _⟩
      obtain ⟨x, hx, hk⟩ := List.mem_map.mp hmem
      exact (lookup_eq_none_iff hr).mp hl x (mem_nodes.mpr ⟨_, hx⟩) hk
    · rw [pushNode_buckets_of_ne t nd hi]
      exact hr.nodup i
  count_eq := by
    have hc := hr.count_eq
    rw [(nodes_pushNode_perm t nd).length_eq]
    simp [pushNode, hc]

/-- An insertion fails exactly when a node is needed and none can be had. -/
theorem insert_fst (he : ExactAt eq hash t k) (v : V) (m : Option ℕ) :
    (insert eq hash t k k v m).1 = ((lookup hash t k).isSome || m.isSome) := by
  obtain ⟨hl, hi⟩ | ⟨hl, rfl, hi⟩ | ⟨a, hl, rfl, hi⟩ := insert_cases he v m <;> simp [hi, hl]

/-- **Insertion is map update**, and leaves the map alone when it fails. -/
theorem lookup_insert (hr : Rep hash t) (he : ExactAt eq hash t k) (v : V) (m : Option ℕ)
    (k' : K) :
    lookup hash (insert eq hash t k k v m).2 k' =
      if k' = k ∧ (insert eq hash t k k v m).1 then some v else lookup hash t k' := by
  obtain ⟨hl, hi⟩ | ⟨hl, rfl, hi⟩ | ⟨a, hl, rfl, hi⟩ := insert_cases he v m
  · obtain ⟨w, hw⟩ := Option.isSome_iff_exists.mp hl
    simp [hi, lookup_modify hr he, hw]
  · simp [hi]
  · simp [hi, lookup_pushNode]

theorem rep_insert (hr : Rep hash t) (he : ExactAt eq hash t k) (v : V) (m : Option ℕ) :
    Rep hash (insert eq hash t k k v m).2 := by
  obtain ⟨-, hi⟩ | ⟨-, rfl, hi⟩ | ⟨a, hl, rfl, hi⟩ := insert_cases he v m
  · rw [hi]
    exact rep_modify hr _
  · rw [hi]
    exact hr
  · rw [hi]
    exact rep_pushNode hr hl

end Insert

/-! ### Deletion -/

section Delete

variable {eq : K → K → Bool} {k : K}

/-- The table after removing the nodes of one key. -/
def dropKey (hash : K → Fin n) (t : Table n K V) (k : K) : Table n K V :=
  { buckets := Function.update t.buckets (hash k)
      ((t.buckets (hash k)).filter fun nd => decide (nd.key ≠ k))
    count := t.count - 1 }

@[simp]
theorem dropKey_buckets_self (t : Table n K V) (k : K) :
    (dropKey hash t k).buckets (hash k) =
      (t.buckets (hash k)).filter fun nd => decide (nd.key ≠ k) :=
  Function.update_self _ _ _

theorem dropKey_buckets_of_ne (t : Table n K V) {i : Fin n} (hi : i ≠ hash k) :
    (dropKey hash t k).buckets i = t.buckets i :=
  Function.update_of_ne hi _ _

/-- What a deletion does: drop the key, or nothing. -/
theorem delete_cases (hr : Rep hash t) (he : ExactAt eq hash t k) :
    ((lookup hash t k).isSome ∧ delete eq hash t k = (true, dropKey hash t k)) ∨
      (lookup hash t k = none ∧ delete eq hash t k = (false, t)) := by
  rw [he.delete_eq]
  rcases hf : findNode (fun a b => decide (a = b)) hash t k with _ | nd
  · refine .inr ⟨?_, by simp only [delete, hf]⟩
    rw [lookup, find, hf]
    rfl
  · refine .inl ⟨?_, ?_⟩
    · rw [lookup, find, hf]
      rfl
    · simp only [delete, hf, dropKey, eraseP_key_eq_filter k (hr.nodup _)]

theorem lookup_dropKey (k k' : K) :
    lookup hash (dropKey hash t k) k' = if k' = k then none else lookup hash t k' := by
  by_cases hb : hash k' = hash k
  · simp only [lookup, find, findNode, dropKey, hb, Function.update_self, List.find?_filter]
    by_cases hk : k' = k
    · subst hk
      have hnone : (t.buckets (hash k')).find?
          (fun a => decide (decide (a.key ≠ k') = true ∧ decide (a.key = k') = true)) = none := by
        rw [List.find?_eq_none]
        simp
      rw [if_pos rfl, hnone]
      rfl
    · have hfun : (fun a : Node K V =>
          decide (decide (a.key ≠ k) = true ∧ decide (a.key = k') = true)) =
          fun a => decide (a.key = k') := by
        funext a
        by_cases ha : a.key = k'
        · simp [ha, hk]
        · simp [ha]
      rw [if_neg hk, hfun]
  · have hk : k' ≠ k := fun h => hb (by rw [h])
    simp [lookup, find, findNode, dropKey, hk, Function.update_of_ne hb]

theorem rep_dropKey (hr : Rep hash t) (hl : (lookup hash t k).isSome) :
    Rep hash (dropKey hash t k) where
  placed := by
    intro i x hm
    by_cases hi : i = hash k
    · subst hi
      rw [dropKey_buckets_self] at hm
      exact hr.placed _ x (List.mem_of_mem_filter hm)
    · rw [dropKey_buckets_of_ne t hi] at hm
      exact hr.placed i x hm
  nodup := by
    intro i
    by_cases hi : i = hash k
    · subst hi
      rw [dropKey_buckets_self]
      exact (hr.nodup _).sublist (List.filter_sublist.map _)
    · rw [dropKey_buckets_of_ne t hi]
      exact hr.nodup i
  count_eq := by
    -- exactly one node holds `k`: erase it
    obtain ⟨v, hv⟩ := Option.isSome_iff_exists.mp hl
    obtain ⟨nd, hm, hk, -⟩ := (lookup_eq_some_iff hr).mp hv
    have hb : nd ∈ t.buckets (hash k) := hk ▸ mem_bucket_of_mem_nodes hr hm
    have hlen : ((t.buckets (hash k)).filter fun x => decide (x.key ≠ k)).length + 1 =
        (t.buckets (hash k)).length := by
      rw [← eraseP_key_eq_filter k (hr.nodup _),
        List.length_eraseP_of_mem hb (by simpa using hk)]
      have := List.length_pos_of_mem hb
      omega
    obtain ⟨rest, hold, hnew⟩ := nodes_update_perm t (hash k)
      ((t.buckets (hash k)).filter fun x => decide (x.key ≠ k)) (t.count - 1)
    have h₁ := hold.length_eq
    have h₂ := hnew.length_eq
    have hc := hr.count_eq
    simp only [List.length_append] at h₁ h₂
    change t.count - 1 = _
    rw [dropKey, h₂]
    omega

/-- A deletion reports whether the key was there. -/
theorem delete_fst (hr : Rep hash t) (he : ExactAt eq hash t k) :
    (delete eq hash t k).1 = (lookup hash t k).isSome := by
  obtain ⟨hl, hd⟩ | ⟨hl, hd⟩ := delete_cases hr he <;> simp [hd, hl]

/-- **Deletion removes one key of the map.** -/
theorem lookup_delete (hr : Rep hash t) (he : ExactAt eq hash t k) (k' : K) :
    lookup hash (delete eq hash t k).2 k' = if k' = k then none else lookup hash t k' := by
  obtain ⟨-, hd⟩ | ⟨hl, hd⟩ := delete_cases hr he
  · rw [hd]
    exact lookup_dropKey k k'
  · rw [hd]
    by_cases hk : k' = k
    · simp [hk, hl]
    · simp [hk]

theorem rep_delete (hr : Rep hash t) (he : ExactAt eq hash t k) :
    Rep hash (delete eq hash t k).2 := by
  obtain ⟨hl, hd⟩ | ⟨-, hd⟩ := delete_cases hr he
  · rw [hd]
    exact rep_dropKey hr hl
  · rw [hd]
    exact hr

end Delete

/-! ### Histories

A history lists the calls made so far with their answers, latest first. It determines the
map a correct table must stand for, without reference to any table. -/

/-- One call with its answer. -/
inductive Event (K V : Type) where
  | insert (k : K) (v : V) (ok : Bool)
  | delete (k : K) (ok : Bool)
  | find (k : K) (answer : Option V)

/-- The value of the last successful insertion of `k` that no deletion of `k` follows. -/
def lastInsert (k : K) : List (Event K V) → Option V
  | [] => none
  | .insert k' v ok :: h => if k' = k ∧ ok then some v else lastInsert k h
  | .delete k' _ :: h => if k' = k then none else lastInsert k h
  | .find _ _ :: h => lastInsert k h

theorem mem_of_lastInsert {k : K} {v : V} {h : List (Event K V)}
    (hl : lastInsert k h = some v) : Event.insert k v true ∈ h := by
  induction h with
  | nil => simp [lastInsert] at hl
  | cons e h ih =>
    cases e with
    | insert k' w ok =>
      rw [lastInsert] at hl
      split at hl
      next hk =>
        obtain ⟨rfl, rfl⟩ := hk
        obtain rfl := Option.some.inj hl
        exact List.mem_cons_self
      next => exact List.mem_cons_of_mem _ (ih hl)
    | delete k' ok =>
      rw [lastInsert] at hl
      split at hl
      next => simp at hl
      next => exact List.mem_cons_of_mem _ (ih hl)
    | find k' r => exact List.mem_cons_of_mem _ (ih hl)

/-- A represented table that stands for the map of a history. -/
structure Tracks (hash : K → Fin n) (t : Table n K V) (h : List (Event K V)) : Prop where
  rep : Rep hash t
  lookup_eq : ∀ k, lookup hash t k = lastInsert k h

section Tracks

variable {eq : K → K → Bool} {k : K} {h : List (Event K V)}

theorem tracks_empty (hash : K → Fin n) : Tracks hash (Table.empty : Table n K V) [] :=
  ⟨rep_empty hash, fun k => lookup_empty hash k⟩

theorem Tracks.insert (ht : Tracks hash t h) (he : ExactAt eq hash t k) (v : V)
    (m : Option ℕ) :
    Tracks hash (insert eq hash t k k v m).2
      (.insert k v (insert eq hash t k k v m).1 :: h) where
  rep := rep_insert ht.rep he v m
  lookup_eq := by
    intro k'
    rw [lookup_insert ht.rep he, lastInsert, ht.lookup_eq]
    exact if_congr (and_congr_left' eq_comm) rfl rfl

theorem Tracks.delete (ht : Tracks hash t h) (he : ExactAt eq hash t k) :
    Tracks hash (delete eq hash t k).2 (.delete k (delete eq hash t k).1 :: h) where
  rep := rep_delete ht.rep he
  lookup_eq := by
    intro k'
    rw [lookup_delete ht.rep he, lastInsert, ht.lookup_eq]
    exact if_congr eq_comm rfl rfl

theorem Tracks.find (ht : Tracks hash t h) (k : K) (answer : Option V) :
    Tracks hash t (.find k answer :: h) :=
  ⟨ht.rep, ht.lookup_eq⟩

end Tracks

end Map

end ChainTable

end LittleLinux
