import LittleLinux.Lib.ChainTable

/-!
# The nodes of a chained hash table

What the operations of a table do to its nodes, for every comparison routine and hash
function: an update changes the value of one node, an insertion adds one or changes one, a
deletion removes one. Nothing is assumed of the table, so these facts also serve tables whose
routine confuses keys or whose nodes are in the wrong chain.
-/

namespace LittleLinux

namespace ChainTable

variable {n : ℕ} {K V : Type}

/-- The first accepted node of a chain, and what an update and an unlinking leave of the
others. -/
theorem find?_perm {p : Node K V → Bool} (f : V → V) {c : List (Node K V)} {nd : Node K V}
    (h : c.find? p = some nd) :
    ∃ rest, c.Perm (nd :: rest) ∧
      (modifyFirst p f c).Perm ({ nd with value := f nd.value } :: rest) ∧
      (c.eraseP p).Perm rest := by
  induction c with
  | nil => exact absurd h (by simp)
  | cons a c ih =>
    by_cases ha : p a = true
    · rw [List.find?_cons_of_pos ha] at h
      obtain rfl := Option.some.inj h
      refine ⟨c, List.Perm.refl _, ?_, ?_⟩
      · rw [modifyFirst, if_pos ha]
      · rw [List.eraseP_cons_of_pos ha]
    · rw [List.find?_cons_of_neg ha] at h
      obtain ⟨rest, h₁, h₂, h₃⟩ := ih h
      refine ⟨a :: rest, (h₁.cons a).trans (List.Perm.swap nd a rest), ?_, ?_⟩
      · rw [modifyFirst, if_neg ha]
        exact (h₂.cons a).trans (List.Perm.swap _ a rest)
      · rw [List.eraseP_cons_of_neg ha]
        exact h₃.cons a

variable {eq : K → K → Bool} {hash : K → Fin n} {t : Table n K V} {k : K}

theorem mem_nodes_of_findNode {nd : Node K V} (h : findNode eq hash t k = some nd) :
    nd ∈ t.nodes :=
  mem_nodes.2 ⟨hash k, List.mem_of_find?_eq_some h⟩

/-- A lookup after an update finds what the update made. -/
theorem find_modify (f : V → V) :
    find eq hash (modify eq hash t k f) k = (find eq hash t k).map f := by
  rw [find, find, findNode, findNode, modify_buckets_self]
  generalize t.buckets (hash k) = c
  induction c with
  | nil => rfl
  | cons nd c ih =>
    rw [modifyFirst]
    by_cases hk : eq nd.key k = true
    · rw [if_pos hk, List.find?_cons_of_pos (by exact hk), List.find?_cons_of_pos (by exact hk)]
      rfl
    · rw [if_neg hk, List.find?_cons_of_neg (by exact hk), List.find?_cons_of_neg (by exact hk)]
      exact ih

/-- An update changes the value of the node it finds. -/
theorem nodes_modify_perm {nd : Node K V} (h : findNode eq hash t k = some nd) (f : V → V) :
    ∃ rest, t.nodes.Perm (nd :: rest) ∧
      (modify eq hash t k f).nodes.Perm ({ nd with value := f nd.value } :: rest) := by
  obtain ⟨others, h₁, h₂, -⟩ := find?_perm f h
  obtain ⟨rest, hold, hnew⟩ := nodes_update_perm t (hash k)
    (modifyFirst (fun nd => eq nd.key k) f (t.buckets (hash k))) t.count
  exact ⟨others ++ rest, hold.trans (h₁.append_right rest), hnew.trans (h₂.append_right rest)⟩

/-- A deletion removes the node it finds. -/
theorem nodes_delete_perm {nd : Node K V} (h : findNode eq hash t k = some nd) :
    t.nodes.Perm (nd :: (delete eq hash t k).2.nodes) := by
  obtain ⟨others, h₁, -, h₃⟩ := find?_perm id h
  obtain ⟨rest, hold, hnew⟩ := nodes_update_perm t (hash k)
    ((t.buckets (hash k)).eraseP fun nd => eq nd.key k) (t.count - 1)
  have hdel : (delete eq hash t k).2.nodes.Perm (others ++ rest) := by
    rw [delete, h]
    exact hnew.trans (h₃.append_right rest)
  exact (hold.trans (h₁.append_right rest)).trans (hdel.symm.cons nd)

theorem count_delete {nd : Node K V} (h : findNode eq hash t k = some nd) :
    (delete eq hash t k).2.count = t.count - 1 := by
  rw [delete, h]

/-- A deletion keeps the table in order, whatever node it finds. -/
theorem rep_delete_of_findNode (hr : Rep hash t) {nd : Node K V} (h : findNode eq hash t k = some nd) :
    Rep hash (delete eq hash t k).2 where
  placed := by
    intro i x hx
    rw [delete, h] at hx
    rcases eq_or_ne i (hash k) with rfl | hne
    · dsimp only at hx
      rw [Function.update_self] at hx
      exact hr.placed _ x (List.mem_of_mem_eraseP hx)
    · dsimp only at hx
      rw [Function.update_of_ne hne] at hx
      exact hr.placed i x hx
  nodup := by
    intro i
    rw [delete, h]
    dsimp only
    rcases eq_or_ne i (hash k) with rfl | hne
    · rw [Function.update_self]
      exact (hr.nodup _).sublist (List.eraseP_sublist.map _)
    · rw [Function.update_of_ne hne]
      exact hr.nodup i
  count_eq := by
    rw [count_delete h, hr.count_eq, (nodes_delete_perm h).length_eq, List.length_cons]
    push_cast
    ring

theorem delete_of_none (h : findNode eq hash t k = none) : delete eq hash t k = (false, t) := by
  rw [delete, h]

/-- An insertion changes the value of the node it finds, or adds a node, or does nothing. -/
theorem nodes_insert_cases (eq : K → K → Bool) (hash : K → Fin n) (t : Table n K V) (k stored : K) (v : V) (m : Option ℕ) :
    (∃ nd rest, findNode eq hash t k = some nd ∧ t.nodes.Perm (nd :: rest) ∧
        (insert eq hash t k stored v m).2.nodes.Perm ({ nd with value := v } :: rest) ∧
        (insert eq hash t k stored v m).2.count = t.count) ∨
      (∃ a, findNode eq hash t k = none ∧ m = some a ∧
        (insert eq hash t k stored v m).2.nodes.Perm (⟨a, stored, v⟩ :: t.nodes) ∧
        (insert eq hash t k stored v m).2.count = t.count + 1) ∨
      (findNode eq hash t k = none ∧ m = none ∧ insert eq hash t k stored v m = (false, t)) := by
  rw [insert.eq_def]
  cases h : findNode eq hash t k with
  | some nd =>
    obtain ⟨rest, hold, hnew⟩ := nodes_modify_perm h fun _ => v
    exact Or.inl ⟨nd, rest, rfl, hold, hnew, rfl⟩
  | none =>
    cases m with
    | none => exact Or.inr (Or.inr ⟨rfl, rfl, rfl⟩)
    | some a =>
      refine Or.inr (Or.inl ⟨a, rfl, rfl, ?_, rfl⟩)
      obtain ⟨rest, hold, hnew⟩ := nodes_update_perm t (hash k)
        (⟨a, stored, v⟩ :: t.buckets (hash k)) (t.count + 1)
      exact hnew.trans (hold.symm.cons _)

/-! ### Pushing nodes -/

/-- A lookup after a push finds the new node, or what it found before. -/
theorem findNode_pushNode (eq : K → K → Bool) (t : Table n K V) (nd : Node K V) (k : K) :
    findNode eq hash (pushNode hash t nd) k =
      if hash nd.key = hash k ∧ eq nd.key k = true then some nd else findNode eq hash t k := by
  rw [findNode, findNode]
  by_cases hb : hash nd.key = hash k
  · rw [← hb, pushNode_buckets_self]
    by_cases hk : eq nd.key k = true
    · rw [if_pos ⟨rfl, hk⟩, List.find?_cons_of_pos (by exact hk)]
    · rw [if_neg fun h => hk h.2, List.find?_cons_of_neg (by exact hk)]
  · rw [if_neg fun h => hb h.1, pushNode_buckets_of_ne t nd fun h => hb h.symm]

/-- The table after pushing nodes one by one. -/
def pushAll (hash : K → Fin n) (t : Table n K V) (nodes : List (Node K V)) : Table n K V :=
  nodes.foldl (pushNode hash) t

theorem nodes_pushAll_perm (t : Table n K V) (nodes : List (Node K V)) :
    (pushAll hash t nodes).nodes.Perm (nodes ++ t.nodes) := by
  induction nodes generalizing t with
  | nil => exact List.Perm.refl _
  | cons nd nodes ih =>
    refine (ih (pushNode hash t nd)).trans ?_
    refine ((nodes_pushNode_perm t nd).append_left nodes).trans ?_
    exact List.perm_middle

theorem count_pushAll (t : Table n K V) (nodes : List (Node K V)) :
    (pushAll hash t nodes).count = t.count + nodes.length := by
  induction nodes generalizing t with
  | nil => exact (add_zero _).symm
  | cons nd nodes ih =>
    rw [pushAll, List.foldl_cons, ← pushAll, ih, pushNode, List.length_cons]
    push_cast
    ring

/-! ### Every node -/

theorem mem_nodes_modify {f : V → V} {nd : Node K V} (h : nd ∈ (modify eq hash t k f).nodes) :
    ∃ nd₀ ∈ t.nodes, nd = nd₀ ∨ nd = { nd₀ with value := f nd₀.value } := by
  obtain ⟨i, hi⟩ := mem_nodes.1 h
  rcases eq_or_ne i (hash k) with rfl | hne
  · rw [modify_buckets_self] at hi
    rcases mem_modifyFirst hi with hm | ⟨nd₀, hm, -, rfl⟩
    · exact ⟨nd, mem_nodes.2 ⟨_, hm⟩, Or.inl rfl⟩
    · exact ⟨nd₀, mem_nodes.2 ⟨_, hm⟩, Or.inr rfl⟩
  · rw [modify_buckets_of_ne t f hne] at hi
    exact ⟨nd, mem_nodes.2 ⟨i, hi⟩, Or.inl rfl⟩

theorem mem_nodes_delete {nd : Node K V} (h : nd ∈ (delete eq hash t k).2.nodes) : nd ∈ t.nodes := by
  cases hf : findNode eq hash t k with
  | some nd₀ => exact (nodes_delete_perm hf).mem_iff.2 (List.mem_cons_of_mem _ h)
  | none =>
    rw [delete_of_none hf] at h
    exact h

theorem mem_nodes_insert {stored : K} {v : V} {m : Option ℕ} {nd : Node K V}
    (h : nd ∈ (insert eq hash t k stored v m).2.nodes) :
    nd ∈ t.nodes ∨ (∃ nd₀ ∈ t.nodes, nd = { nd₀ with value := v }) ∨
      ∃ a, m = some a ∧ findNode eq hash t k = none ∧ nd = ⟨a, stored, v⟩ := by
  obtain ⟨nd₀, rest, -, hold, hnew, -⟩ | ⟨a, hf, hm, hnew, -⟩ | ⟨-, -, heq⟩ :=
    nodes_insert_cases eq hash t k stored v m
  · rcases List.mem_cons.1 (hnew.mem_iff.1 h) with rfl | hr
    · exact Or.inr (Or.inl ⟨nd₀, hold.mem_iff.2 List.mem_cons_self, rfl⟩)
    · exact Or.inl (hold.mem_iff.2 (List.mem_cons_of_mem _ hr))
  · rcases List.mem_cons.1 (hnew.mem_iff.1 h) with rfl | hr
    · exact Or.inr (Or.inr ⟨a, hm, hf, rfl⟩)
    · exact Or.inl hr
  · rw [heq] at h
    exact Or.inl h

/-! ### Visits -/

theorem mem_mapAccumChain {σ : Type} {f : σ → V → V × σ} {c : List (Node K V)} {s : σ}
    {nd : Node K V} (h : nd ∈ (mapAccumChain f c s).1) :
    ∃ nd₀ ∈ c, ∃ s', nd = { nd₀ with value := (f s' nd₀.value).1 } := by
  induction c generalizing s with
  | nil => exact absurd h (by simp [mapAccumChain])
  | cons a c ih =>
    rw [mapAccumChain] at h
    rcases List.mem_cons.1 h with rfl | h
    · exact ⟨a, List.mem_cons_self, s, rfl⟩
    · obtain ⟨nd₀, hm, s', rfl⟩ := ih h
      exact ⟨nd₀, List.mem_cons_of_mem _ hm, s', rfl⟩

/-- Each node of a chain is visited, in a state that the earlier visits leave. -/
theorem mem_mapAccumChain_of_mem {σ : Type} {f : σ → V → V × σ} {P : σ → Prop}
    (hf : ∀ s v, P s → P (f s v).2) {c : List (Node K V)} {s : σ} (hs : P s) {nd : Node K V}
    (h : nd ∈ c) :
    ∃ s', P s' ∧ { nd with value := (f s' nd.value).1 } ∈ (mapAccumChain f c s).1 := by
  induction c generalizing s with
  | nil => exact absurd h List.not_mem_nil
  | cons a c ih =>
    rw [mapAccumChain]
    rcases List.mem_cons.1 h with rfl | h
    · exact ⟨s, hs, List.mem_cons_self⟩
    · obtain ⟨s', hs', hm⟩ := ih (hf s a.value hs) h
      exact ⟨s', hs', List.mem_cons_of_mem _ hm⟩

theorem mapAccumChain_state {σ : Type} {f : σ → V → V × σ} {P : σ → Prop}
    (hf : ∀ s v, P s → P (f s v).2) (c : List (Node K V)) {s : σ} (hs : P s) :
    P (mapAccumChain f c s).2 := by
  induction c generalizing s with
  | nil => exact hs
  | cons nd c ih => exact ih (hf s nd.value hs)

theorem mapAccumChain_append {σ : Type} (f : σ → V → V × σ) (c c' : List (Node K V)) (s : σ) :
    mapAccumChain f (c ++ c') s =
      ((mapAccumChain f c s).1 ++ (mapAccumChain f c' (mapAccumChain f c s).2).1,
        (mapAccumChain f c' (mapAccumChain f c s).2).2) := by
  induction c generalizing s with
  | nil => rfl
  | cons nd c ih => rw [List.cons_append, mapAccumChain, ih, mapAccumChain, List.cons_append]

/-- **The visits of a table are those of one chain**, the chain of all its nodes. -/
theorem mapAccum_eq {σ : Type} (t : Table n K V) (f : σ → V → V × σ) (s : σ) :
    (t.mapAccum f s).1.nodes = (mapAccumChain f t.nodes s).1 ∧
      (t.mapAccum f s).2 = (mapAccumChain f t.nodes s).2 := by
  -- the buckets not visited yet are as they were
  have hfold : ∀ (is : List (Fin n)), is.Nodup → ∀ (t : Table n K V) (s : σ) (F : Table n K V × σ),
      is.foldl (fun acc i =>
        let r := mapAccumChain f (acc.1.buckets i) acc.2
        ({ acc.1 with buckets := Function.update acc.1.buckets i r.1 }, r.2)) (t, s) = F →
      is.flatMap F.1.buckets = (mapAccumChain f (is.flatMap t.buckets) s).1 ∧
        F.2 = (mapAccumChain f (is.flatMap t.buckets) s).2 ∧
        ∀ i ∉ is, F.1.buckets i = t.buckets i := by
    intro is
    induction is with
    | nil =>
      rintro - t s F rfl
      exact ⟨rfl, rfl, fun _ _ => rfl⟩
    | cons j is ih =>
      intro hnodup t s F hF
      obtain ⟨hj, hnodup⟩ := List.nodup_cons.mp hnodup
      rw [List.foldl_cons] at hF
      obtain ⟨hbuckets, hstate, hrest⟩ := ih hnodup _ _ F hF
      dsimp only at hbuckets hstate hrest
      have hsame : is.flatMap (Function.update t.buckets j (mapAccumChain f (t.buckets j) s).1) =
          is.flatMap t.buckets := by
        refine List.flatMap_congr fun i hi => ?_
        rw [Function.update_of_ne]
        rintro rfl
        exact hj hi
      rw [hsame] at hbuckets hstate
      rw [List.flatMap_cons, List.flatMap_cons, mapAccumChain_append, hbuckets, hstate, hrest j hj,
        Function.update_self]
      refine ⟨rfl, rfl, fun i hi => ?_⟩
      rw [List.mem_cons, not_or] at hi
      rw [hrest i hi.2, Function.update_of_ne hi.1]
  obtain ⟨hnodes, hstate, -⟩ := hfold _ (List.nodup_finRange n) t s _ rfl
  exact ⟨hnodes, hstate⟩

/-- What every visit keeps of the state, the visits of the whole table keep. -/
theorem mapAccum_state {σ : Type} {f : σ → V → V × σ} {P : σ → Prop}
    (hf : ∀ s v, P s → P (f s v).2) (t : Table n K V) {s : σ} (hs : P s) : P (t.mapAccum f s).2 := by
  rw [(mapAccum_eq t f s).2]
  exact mapAccumChain_state hf t.nodes hs

theorem map_key_mapAccumChain {σ : Type} (f : σ → V → V × σ) (c : List (Node K V)) (s : σ) :
    (mapAccumChain f c s).1.map Node.key = c.map Node.key := by
  induction c generalizing s with
  | nil => rfl
  | cons nd c ih =>
    rw [mapAccumChain, List.map_cons, List.map_cons, ih]

/-- The visits of a table leave the keys of each chain, and the counter. -/
theorem mapAccum_keys {σ : Type} (t : Table n K V) (f : σ → V → V × σ) (s : σ) :
    (∀ i, ((t.mapAccum f s).1.buckets i).map Node.key = (t.buckets i).map Node.key) ∧
      (t.mapAccum f s).1.count = t.count := by
  rw [Table.mapAccum]
  generalize List.finRange n = is
  induction is generalizing t s with
  | nil => exact ⟨fun _ => rfl, rfl⟩
  | cons j is ih =>
    rw [List.foldl_cons]
    refine ⟨fun i => ((ih _ _).1 i).trans ?_, (ih _ _).2⟩
    rcases eq_or_ne i j with rfl | hne
    · dsimp only
      rw [Function.update_self, map_key_mapAccumChain]
    · dsimp only
      rw [Function.update_of_ne hne]

theorem count_mapAccum {σ : Type} (t : Table n K V) (f : σ → V → V × σ) (s : σ) :
    (t.mapAccum f s).1.count = t.count :=
  (mapAccum_keys t f s).2

theorem length_nodes_mapAccum {σ : Type} (t : Table n K V) (f : σ → V → V × σ) (s : σ) :
    (t.mapAccum f s).1.nodes.length = t.nodes.length := by
  have hkeys := congrArg List.length (map_key_mapAccumChain f t.nodes s)
  rwa [List.length_map, List.length_map, ← (mapAccum_eq t f s).1] at hkeys

/-- A relation that holds of a value and what a visit makes of it holds of each node and what the
visits of the whole table make of it. -/
theorem mem_nodes_mapAccum {σ : Type} {f : σ → V → V × σ} {R : V → V → Prop}
    (hf : ∀ s v, R v (f s v).1) {s : σ} {nd : Node K V} (h : nd ∈ (t.mapAccum f s).1.nodes) :
    ∃ nd₀ ∈ t.nodes, nd.addr = nd₀.addr ∧ R nd₀.value nd.value := by
  rw [(mapAccum_eq t f s).1] at h
  obtain ⟨nd₀, hm₀, s', rfl⟩ := mem_mapAccumChain h
  exact ⟨nd₀, hm₀, rfl, hf s' nd₀.value⟩

end ChainTable

end LittleLinux
