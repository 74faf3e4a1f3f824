import LittleLinux.Lib.HeapTrace
import LittleLinux.Dfs.TreeOps

/-!
# What releasing a tree does to the heap

`dfs_free_folder_tree` walks chains whose nodes it releases later, and follows pointers to
folders that it releases on the way. `freeFolderTreeTraced` is the function of `Dfs/Mount.lean`
with every object it touches written down: the folder whose bucket heads it reads, the node
before and after its turn, and what is passed to `free`. It does what `freeFolderTree` does
(`state_freeFolderTreeTraced`), and on a finite tree its trace is `freeTrace`, which reads the
tree as it was before the call, since no turn touches a folder outside the subtree it is for.
-/

namespace LittleLinux

open ChainTable

variable {V : Type}

/-! ### The function with its trace -/

/-- `free(a)`. -/
def Fs.release (s : Fs) (a : Ptr) : Fs := s.setMem (s.mem.free a)

/-- A loop over the chains of a table that lies in the object `p`. -/
def walkChains (p : Ptr) (map : Table BUCKETS CString V)
    (body : Traced Fs Ptr → Node CString V → Traced Fs Ptr) (t : Traced Fs Ptr) : Traced Fs Ptr :=
  (List.finRange BUCKETS).foldl (fun t i => (map.buckets i).foldl body (t.access p)) t

/-- `ramfs_hashmap_destroy` and `ramfs_file_hashmap_destroy`, of a table that lies in the object
`p`: the successor of a node is read before the node is released. -/
def destroyTraced (p : Ptr) (map : Table BUCKETS CString V) (t : Traced Fs Ptr) : Traced Fs Ptr :=
  (walkChains p map (fun t nd => (t.access nd.addr).free Fs.release nd.addr) t).access p

/-- `if (node->value.ptr) free(node->value.ptr)`. -/
def freeDataTraced (t : Traced Fs Ptr) (finfo : RamfsFileInfo) : Traced Fs Ptr :=
  match finfo.ptr with
  | some buf => t.free Fs.release buf.addr
  | none => t

/-- The two calls that destroy the tables of the folder `p`. -/
def destroyTables (p : Ptr) (t : Traced Fs Ptr) : Traced Fs Ptr :=
  let t := (destroyTraced p (t.state.folders p).foderMap t).map
    (·.modifyFolder p (·.setFoderMap Table.empty))
  (destroyTraced p (t.state.folders p).fileMap t).map (·.modifyFolder p (·.setFileMap Table.empty))

/-- `dfs_free_folder_tree`, with a bound on the depth of its recursion. -/
def freeFolderTreeTraced : ℕ → Traced Fs Ptr → Ptr → Traced Fs Ptr
  | 0, t, _ => t
  | fuel + 1, t, p =>
    let t := walkChains p (t.state.folders p).foderMap
      (fun t nd => (freeFolderTreeTraced fuel (t.access nd.addr) nd.value.ptr).access nd.addr) t
    let t := walkChains p (t.state.folders p).fileMap
      (fun t nd => (freeDataTraced (t.access nd.addr) nd.value).access nd.addr) t
    (destroyTables p t).free Fs.release p

/-! ### The state it leaves -/

/-- A walk whose turns do `g` to the state. -/
theorem state_walkChains (p : Ptr) (map : Table BUCKETS CString V)
    {body : Traced Fs Ptr → Node CString V → Traced Fs Ptr} {g : Fs → Node CString V → Fs}
    (hbody : ∀ t nd, (body t nd).state = g t.state nd) (t : Traced Fs Ptr) :
    (walkChains p map body t).state = map.nodes.foldl g t.state := by
  have hchain : ∀ (l : List (Node CString V)) (t : Traced Fs Ptr),
      (l.foldl body t).state = l.foldl g t.state := by
    intro l t
    exact (List.foldl_hom Traced.state fun t nd => (hbody t nd).symm).symm
  rw [walkChains, Table.nodes, List.foldl_flatMap]
  refine (List.foldl_hom Traced.state fun t i => ?_).symm
  exact (hchain (map.buckets i) (t.access p)).symm

/-- A walk whose turns change the allocator only. -/
theorem state_walkChains_setMem (p : Ptr) (map : Table BUCKETS CString V)
    {body : Traced Fs Ptr → Node CString V → Traced Fs Ptr} {g : Memory → Node CString V → Memory}
    (hbody : ∀ t nd, (body t nd).state = t.state.setMem (g t.state.mem nd)) (t : Traced Fs Ptr) :
    (walkChains p map body t).state = t.state.setMem (map.nodes.foldl g t.state.mem) := by
  have hfold : ∀ (l : List (Node CString V)) (s : Fs),
      l.foldl (fun s nd => s.setMem (g s.mem nd)) s = s.setMem (l.foldl g s.mem) := by
    intro l
    induction l with
    | nil => exact fun s => rfl
    | cons nd l ih => exact fun s => ih _
  exact (state_walkChains p map hbody t).trans (hfold _ _)

theorem state_destroyTraced (p : Ptr) (map : Table BUCKETS CString V) (t : Traced Fs Ptr) :
    (destroyTraced p map t).state = t.state.setMem (tableDestroy t.state.mem map).2 :=
  state_walkChains_setMem p map (g := fun mem nd => mem.free nd.addr) (fun _ _ => rfl) t

theorem state_freeDataTraced (t : Traced Fs Ptr) (finfo : RamfsFileInfo) :
    (freeDataTraced t finfo).state = t.state.setMem (freeData t.state.mem finfo) := by
  rw [freeDataTraced, freeData]
  cases finfo.ptr <;> rfl

theorem state_destroyTables (p : Ptr) (t : Traced Fs Ptr) :
    (destroyTables p t).state =
      (t.state.modifyFolder p fun f => (f.setFoderMap Table.empty).setFileMap Table.empty).setMem
        (tableDestroy (tableDestroy t.state.mem (t.state.folders p).foderMap).2
          (t.state.folders p).fileMap).2 := by
  simp only [destroyTables, Traced.state_map, state_destroyTraced, Fs.modifyFolder_self,
    Fs.modifyFolder_mem, Fs.setMem_mem, Fs.setMem_folders]
  exact congrArg (fun u : Fs => u.setMem _)
    (t.state.modifyFolder_modifyFolder p (·.setFoderMap Table.empty) (·.setFileMap Table.empty))

/-- **The traced function is the function.** -/
theorem state_freeFolderTreeTraced (fuel : ℕ) (t : Traced Fs Ptr) (p : Ptr) :
    (freeFolderTreeTraced fuel t p).state = freeFolderTree fuel t.state p := by
  induction fuel generalizing t p with
  | zero => rfl
  | succ fuel ih =>
    have hkids : (walkChains p (t.state.folders p).foderMap
        (fun t nd => (freeFolderTreeTraced fuel (t.access nd.addr) nd.value.ptr).access nd.addr)
        t).state =
        (t.state.folders p).foderMap.nodes.foldl (fun s nd => freeFolderTree fuel s nd.value.ptr)
          t.state :=
      state_walkChains p _ (fun t nd => ih _ _) t
    rw [freeFolderTreeTraced, freeFolderTree]
    revert hkids
    generalize walkChains p (t.state.folders p).foderMap _ t = t₁
    intro hkids
    have hdata : (walkChains p (t₁.state.folders p).fileMap
        (fun t nd => (freeDataTraced (t.access nd.addr) nd.value).access nd.addr) t₁).state =
        t₁.state.setMem ((t₁.state.folders p).fileMap.nodes.foldl
          (fun m nd => freeData m nd.value) t₁.state.mem) :=
      state_walkChains_setMem p _ (fun t nd => state_freeDataTraced _ _) t₁
    rw [← hkids]
    revert hdata
    generalize walkChains p (t₁.state.folders p).fileMap _ t₁ = t₂
    intro hdata
    rw [Traced.state_free, Fs.release, state_destroyTables, hdata]
    rfl

/-! ### The log of the allocator -/

/-- What is released is in the log of the allocator, the last one first. -/
def Logs (mem : Memory) (t : Traced Fs Ptr) : Prop :=
  t.state.mem.freed = (frees t.trace).reverse ++ mem.freed

theorem Logs.access {mem : Memory} {t : Traced Fs Ptr} (h : Logs mem t) (a : Ptr) :
    Logs mem (t.access a) := by
  rw [Logs, Traced.trace_access, frees_append, frees_access, frees_nil, List.append_nil]
  exact h

theorem Logs.free {mem : Memory} {t : Traced Fs Ptr} (h : Logs mem t) (a : Ptr) :
    Logs mem (t.free Fs.release a) := by
  rw [Logs, Traced.trace_free, frees_append, frees_free, frees_nil, List.reverse_append,
    Traced.state_free]
  exact congrArg (List.cons a) h

theorem Logs.walkChains {mem : Memory} {t : Traced Fs Ptr} (h : Logs mem t) (p : Ptr)
    (map : Table BUCKETS CString V) {body : Traced Fs Ptr → Node CString V → Traced Fs Ptr}
    (hbody : ∀ t nd, Logs mem t → Logs mem (body t nd)) : Logs mem (walkChains p map body t) :=
  List.foldlRecOn _ _ h fun _ ht _ _ =>
    List.foldlRecOn _ _ (ht.access p) fun t ht nd _ => hbody t nd ht

theorem Logs.destroyTraced {mem : Memory} {t : Traced Fs Ptr} (h : Logs mem t) (p : Ptr)
    (map : Table BUCKETS CString V) : Logs mem (destroyTraced p map t) :=
  (h.walkChains p map fun _ nd ht => (ht.access nd.addr).free nd.addr).access p

theorem Logs.freeDataTraced {mem : Memory} {t : Traced Fs Ptr} (h : Logs mem t)
    (finfo : RamfsFileInfo) : Logs mem (freeDataTraced t finfo) := by
  rw [LittleLinux.freeDataTraced]
  cases finfo.ptr with
  | none => exact h
  | some buf => exact h.free buf.addr

theorem Logs.freeFolderTreeTraced {mem : Memory} (fuel : ℕ) {t : Traced Fs Ptr} (h : Logs mem t)
    (p : Ptr) : Logs mem (freeFolderTreeTraced fuel t p) := by
  induction fuel generalizing t p with
  | zero => exact h
  | succ fuel ih =>
    have hkid : ∀ (t : Traced Fs Ptr) (nd : Node CString RamfsFoderInfo), Logs mem t →
        Logs mem ((LittleLinux.freeFolderTreeTraced fuel (t.access nd.addr) nd.value.ptr).access
          nd.addr) :=
      fun t nd ht => (ih (ht.access nd.addr) nd.value.ptr).access nd.addr
    have hdata : ∀ (t : Traced Fs Ptr) (nd : Node CString RamfsFileInfo), Logs mem t →
        Logs mem ((LittleLinux.freeDataTraced (t.access nd.addr) nd.value).access nd.addr) :=
      fun t nd ht => ((ht.access nd.addr).freeDataTraced nd.value).access nd.addr
    refine Logs.free ?_ p
    refine Logs.destroyTraced (t := Traced.map _ _) ?_ p _
    refine Logs.destroyTraced ?_ p _
    exact (h.walkChains p _ hkid).walkChains p _ hdata

/-! ### The trace on a finite tree -/

/-- The folders below `p`, itself included, to the depth `n`. -/
def subtree : ℕ → Fs → Ptr → List Ptr
  | 0, _, _ => []
  | n + 1, s, p => p :: (kids s p).flatMap (subtree n s)

/-- The tree below `p` is finite, with at most `n` folders on a path. -/
def HeightLe : ℕ → Fs → Ptr → Prop
  | 0, _, _ => False
  | n + 1, s, p => ∀ c ∈ kids s p, HeightLe n s c

instance decidableHeightLe : ∀ (n : ℕ) (s : Fs) (p : Ptr), Decidable (HeightLe n s p)
  | 0, _, _ => inferInstanceAs (Decidable False)
  | n + 1, s, p =>
    have := decidableHeightLe n s
    inferInstanceAs (Decidable (∀ c ∈ kids s p, HeightLe n s c))

/-- The allocations that a folder refers to, other folders apart: the nodes of its tables, and
the data of its files. -/
def folderAllocs (f : RamfsFoder) : List Ptr :=
  f.foderMap.nodes.map (·.addr) ++ f.fileMap.nodes.map (·.addr) ++
    f.fileMap.nodes.filterMap fun nd => nd.value.ptr.map (·.addr)

/-- Every folder, hash node and non-null data pointer of the tree below `p`. -/
def treeAllocs (n : ℕ) (s : Fs) (p : Ptr) : List Ptr :=
  (subtree n s p).flatMap fun q => q :: folderAllocs (s.folders q)

/-- What a loop over the chains of a table leaves behind. -/
def walkTrace (p : Ptr) (map : Table BUCKETS CString V)
    (visit : Node CString V → List (HeapEvent Ptr)) : List (HeapEvent Ptr) :=
  (List.finRange BUCKETS).flatMap fun i => .access p :: (map.buckets i).flatMap visit

/-- What destroying a table leaves behind. -/
def destroyTrace (p : Ptr) (map : Table BUCKETS CString V) : List (HeapEvent Ptr) :=
  walkTrace p map (fun nd => [.access nd.addr, .free nd.addr]) ++ [.access p]

/-- What releasing the data of a file leaves behind. -/
def dataTrace (finfo : RamfsFileInfo) : List (HeapEvent Ptr) :=
  (finfo.ptr.map fun buf => HeapEvent.free buf.addr).toList

/-- What a turn for the node `a` leaves behind: the node is read before the turn's work, and once
more for its successor. -/
def turnTrace (a : Ptr) (tr : List (HeapEvent Ptr)) : List (HeapEvent Ptr) :=
  .access a :: (tr ++ [.access a])

/-- What releasing the tree below `p` leaves behind, read off the tree as it was before. -/
def freeTrace : ℕ → Fs → Ptr → List (HeapEvent Ptr)
  | 0, _, _ => []
  | n + 1, s, p =>
    walkTrace p (s.folders p).foderMap (fun nd => turnTrace nd.addr (freeTrace n s nd.value.ptr)) ++
      (walkTrace p (s.folders p).fileMap (fun nd => turnTrace nd.addr (dataTrace nd.value)) ++
        (destroyTrace p (s.folders p).foderMap ++
          (destroyTrace p (s.folders p).fileMap ++ [.free p])))

/-- The rule for a loop over the chains of a table. -/
theorem walkChains_traced {p : Ptr} {map : Table BUCKETS CString V}
    {body : Traced Fs Ptr → Node CString V → Traced Fs Ptr}
    {visit : Node CString V → List (HeapEvent Ptr)} {I : List (Node CString V) → Fs → Prop}
    (hbody : ∀ nd l t, I (nd :: l) t.state →
      (body t nd).trace = t.trace ++ visit nd ∧ I l (body t nd).state)
    {t : Traced Fs Ptr} (h : I map.nodes t.state) :
    (walkChains p map body t).trace = t.trace ++ walkTrace p map visit ∧
      I [] (walkChains p map body t).state := by
  refine Traced.foldl_traced (I := fun is s => I (is.flatMap map.buckets) s)
    (fun i is t hI => ?_) (List.finRange BUCKETS) [] t ?_
  · rw [List.flatMap_cons] at hI
    obtain ⟨htrace, hnext⟩ :=
      Traced.foldl_traced hbody (map.buckets i) (is.flatMap map.buckets) (t.access p) hI
    refine ⟨?_, hnext⟩
    rw [htrace, Traced.trace_access, List.append_assoc, List.singleton_append]
  · rw [List.append_nil]
    exact h

theorem trace_destroyTraced (p : Ptr) (map : Table BUCKETS CString V) (t : Traced Fs Ptr) :
    (destroyTraced p map t).trace = t.trace ++ destroyTrace p map := by
  have hwalk : (walkChains p map (fun t nd => (t.access nd.addr).free Fs.release nd.addr) t).trace =
      t.trace ++ walkTrace p map fun nd => [.access nd.addr, .free nd.addr] :=
    (walkChains_traced (I := fun _ _ => True) (fun nd l t _ => ⟨by simp, trivial⟩) trivial).1
  rw [destroyTraced, Traced.trace_access, hwalk, destroyTrace, List.append_assoc]

theorem trace_freeDataTraced (t : Traced Fs Ptr) (finfo : RamfsFileInfo) :
    (freeDataTraced t finfo).trace = t.trace ++ dataTrace finfo := by
  rw [freeDataTraced, dataTrace]
  cases finfo.ptr with
  | none => exact (List.append_nil _).symm
  | some buf => rfl

theorem folders_destroyTraced (p : Ptr) (map : Table BUCKETS CString V) (t : Traced Fs Ptr) :
    (destroyTraced p map t).state.folders = t.state.folders := by
  rw [state_destroyTraced, Fs.setMem_folders]

/-- The trace of the two destroyed tables, and the folders that are left alone. -/
theorem destroyTables_traced (p : Ptr) (t : Traced Fs Ptr) :
    (destroyTables p t).trace = t.trace ++ (destroyTrace p (t.state.folders p).foderMap ++
        destroyTrace p (t.state.folders p).fileMap) ∧
      ∀ q ≠ p, (destroyTables p t).state.folders q = t.state.folders q := by
  constructor
  · simp only [destroyTables, Traced.trace_map, Traced.state_map, trace_destroyTraced,
      Fs.modifyFolder_self, folders_destroyTraced, List.append_assoc]
    rfl
  · intro q hq
    rw [state_destroyTables, Fs.setMem_folders, Fs.modifyFolder_of_ne _ _ hq]

/-- The loop over the files changes no folder. -/
theorem walkFiles_traced (p : Ptr) (map : RamfsFileHashmap) (t : Traced Fs Ptr) :
    (walkChains p map (fun t nd => (freeDataTraced (t.access nd.addr) nd.value).access nd.addr)
        t).trace = t.trace ++ walkTrace p map (fun nd => turnTrace nd.addr (dataTrace nd.value)) ∧
      (walkChains p map (fun t nd => (freeDataTraced (t.access nd.addr) nd.value).access nd.addr)
        t).state.folders = t.state.folders := by
  refine walkChains_traced (I := fun _ s => s.folders = t.state.folders) (fun nd l t' h => ?_) rfl
  constructor
  · rw [Traced.trace_access, trace_freeDataTraced, Traced.trace_access, turnTrace]
    simp only [List.append_assoc, List.cons_append, List.nil_append]
  · rw [Traced.state_access, state_freeDataTraced, Fs.setMem_folders]
    exact h

section Kids

variable {n fuel : ℕ} {s : Fs} {p : Ptr}

/-- The folders below the nodes `l`. -/
def belowNodes (n : ℕ) (s : Fs) (l : List (Node CString RamfsFoderInfo)) : List Ptr :=
  l.flatMap fun nd => subtree n s nd.value.ptr

theorem subtree_succ (n : ℕ) (s : Fs) (p : Ptr) :
    subtree (n + 1) s p = p :: belowNodes n s (s.folders p).foderMap.nodes := by
  rw [subtree, kids, List.flatMap_map]
  rfl

/-- What the loop over the folder table of `p` maintains: the trees below the nodes `l` to come
are as in `s`, and the folders below no node are as in `s₀`. -/
structure KidsInv (n : ℕ) (s s₀ : Fs) (p : Ptr) (l : List (Node CString RamfsFoderInfo)) (s' : Fs) :
    Prop where
  subset : l ⊆ (s.folders p).foderMap.nodes
  nodup : (belowNodes n s l).Nodup
  intact : ∀ q ∈ belowNodes n s l, s'.folders q = s.folders q
  frame : ∀ q ∉ belowNodes n s (s.folders p).foderMap.nodes, s'.folders q = s₀.folders q

/-- **The trace on a finite tree**, which is as it was in `s`. Folders outside the tree are left
alone, so each turn finds its own subtree as it was. -/
theorem freeFolderTreeTraced_spec (hn : HeightLe n s p) (hle : n ≤ fuel)
    (hnodup : (subtree n s p).Nodup) {t : Traced Fs Ptr}
    (ht : ∀ q ∈ subtree n s p, t.state.folders q = s.folders q) :
    (freeFolderTreeTraced fuel t p).trace = t.trace ++ freeTrace n s p ∧
      ∀ q ∉ subtree n s p, (freeFolderTreeTraced fuel t p).state.folders q = t.state.folders q := by
  -- induction on the height; the walk over the subfolders carries `KidsInv`, that the subtrees still to
  -- come are as they were
  induction n generalizing fuel p t with
  | zero => exact hn.elim
  | succ n ih =>
    obtain ⟨fuel, rfl⟩ : ∃ k, fuel = k + 1 := ⟨fuel - 1, by omega⟩
    rw [subtree_succ] at hnodup ht ⊢
    obtain ⟨hp, hnodup⟩ := List.nodup_cons.1 hnodup
    have htp : t.state.folders p = s.folders p := ht p List.mem_cons_self
    have hkid : ∀ (nd : Node CString RamfsFoderInfo) (l : List (Node CString RamfsFoderInfo))
        (t' : Traced Fs Ptr), KidsInv n s t.state p (nd :: l) t'.state →
        ((freeFolderTreeTraced fuel (t'.access nd.addr) nd.value.ptr).access nd.addr).trace =
            t'.trace ++ turnTrace nd.addr (freeTrace n s nd.value.ptr) ∧
          KidsInv n s t.state p l
            ((freeFolderTreeTraced fuel (t'.access nd.addr) nd.value.ptr).access nd.addr).state := by
      intro nd l t' h
      -- the subtrees are disjoint, so freeing this one leaves the others readable
      have hcons : belowNodes n s (nd :: l) = subtree n s nd.value.ptr ++ belowNodes n s l :=
        List.flatMap_cons
      obtain ⟨hself, hrest, hdisj⟩ := List.nodup_append'.1 (hcons ▸ h.nodup)
      have hintact : ∀ q ∈ subtree n s nd.value.ptr ++ belowNodes n s l,
          t'.state.folders q = s.folders q := hcons ▸ h.intact
      have hnode : nd ∈ (s.folders p).foderMap.nodes := h.subset List.mem_cons_self
      obtain ⟨htrace, hout⟩ := ih (hn _ (List.mem_map.2 ⟨nd, hnode, rfl⟩))
        (Nat.le_of_succ_le_succ hle) hself (t := t'.access nd.addr) fun q hq => hintact q (List.mem_append_left _ hq)
      refine ⟨?_, fun a ha => h.subset (List.mem_cons_of_mem _ ha), hrest, fun q hq => ?_,
        fun q hq => ?_⟩
      · rw [Traced.trace_access, htrace, Traced.trace_access, turnTrace]
        simp only [List.append_assoc, List.cons_append, List.nil_append]
      · exact (hout q fun hmem => hdisj hmem hq).trans (hintact q (List.mem_append_right _ hq))
      · exact (hout q fun h => hq (List.mem_flatMap.2 ⟨nd, hnode, h⟩)).trans (h.frame q hq)
    rw [freeFolderTreeTraced, freeTrace, htp]
    obtain ⟨htr₁, hinv⟩ := walkChains_traced (p := p) (t := t) hkid
      ⟨List.Subset.refl _, hnodup, fun q hq => ht q (List.mem_cons_of_mem _ hq), fun _ _ => rfl⟩
    revert htr₁ hinv
    generalize walkChains p (s.folders p).foderMap _ t = t₁
    intro htr₁ hinv
    -- the folder's own tables are read after its subfolders are freed, and no subtree contains it
    have htp₁ : t₁.state.folders p = s.folders p := (hinv.frame p hp).trans htp
    obtain ⟨htr₂, hfr₂⟩ := walkFiles_traced p (s.folders p).fileMap t₁
    rw [htp₁]
    revert htr₂ hfr₂
    generalize walkChains p (s.folders p).fileMap _ t₁ = t₂
    intro htr₂ hfr₂
    have htp₂ : t₂.state.folders p = s.folders p := (congrFun hfr₂ p).trans htp₁
    obtain ⟨htr₃, hfr₃⟩ := destroyTables_traced p t₂
    refine ⟨?_, fun q hq => ?_⟩
    · rw [Traced.trace_free, htr₃, htr₂, htr₁, htp₂]
      simp only [List.append_assoc]
    · rw [List.mem_cons, not_or] at hq
      exact (hfr₃ q hq.1).trans ((congrFun hfr₂ q).trans (hinv.frame q hq.2))

end Kids

/-! ### What the trace releases and accesses -/

section Walk

variable {p a : Ptr} {map : Table BUCKETS CString V} {visit : Node CString V → List (HeapEvent Ptr)}

theorem frees_walkTrace : frees (walkTrace p map visit) = map.nodes.flatMap fun nd => frees (visit nd) := by
  simp only [walkTrace, frees_flatMap, frees_access, Table.nodes, List.flatMap_assoc]

theorem mem_accesses_walkTrace (h : a ∈ accesses (walkTrace p map visit)) :
    a = p ∨ ∃ nd ∈ map.nodes, a ∈ accesses (visit nd) := by
  simp only [walkTrace, accesses_flatMap, accesses_access, List.mem_flatMap, List.mem_cons] at h
  obtain ⟨i, -, rfl | ⟨nd, hnd, ha⟩⟩ := h
  · exact Or.inl rfl
  · exact Or.inr ⟨nd, mem_nodes.2 ⟨i, hnd⟩, ha⟩

/-- A walk is sound if each turn is, releases neither the object that holds the table nor what a
later turn accesses. -/
theorem noUseAfterFree_walkTrace (hvisit : ∀ nd ∈ map.nodes, NoUseAfterFree (visit nd))
    (hp : ∀ nd ∈ map.nodes, p ∉ frees (visit nd))
    (hlater : map.nodes.Pairwise fun nd nd' => ∀ a ∈ frees (visit nd), a ∉ accesses (visit nd')) :
    NoUseAfterFree (walkTrace p map visit) := by
  rw [Table.nodes, List.pairwise_flatMap] at hlater
  have hmem : ∀ {i : Fin BUCKETS} {nd : Node CString V}, nd ∈ map.buckets i → nd ∈ map.nodes :=
    fun h => mem_nodes.2 ⟨_, h⟩
  rw [walkTrace, noUseAfterFree_flatMap]
  constructor
  · intro i hi
    rw [noUseAfterFree_access_cons, noUseAfterFree_flatMap]
    exact ⟨fun nd hnd => hvisit nd (hmem hnd), hlater.1 i hi⟩
  · refine hlater.2.imp fun {i j} hij a ha hacc => ?_
    rw [frees_access, frees_flatMap, List.mem_flatMap] at ha
    obtain ⟨nd, hnd, ha⟩ := ha
    rw [accesses_access, accesses_flatMap, List.mem_cons, List.mem_flatMap] at hacc
    rcases hacc with rfl | ⟨nd', hnd', hacc⟩
    · exact hp nd (hmem hnd) ha
    · exact hij nd hnd nd' hnd' a ha hacc

variable {tr : List (HeapEvent Ptr)} {b : Ptr}

theorem frees_turnTrace : frees (turnTrace b tr) = frees tr := by
  rw [turnTrace, frees_access, frees_append, frees_access, frees_nil, List.append_nil]

theorem mem_accesses_turnTrace (h : a ∈ accesses (turnTrace b tr)) : a = b ∨ a ∈ accesses tr := by
  rw [turnTrace, accesses_access, accesses_append, List.mem_cons, List.mem_append] at h
  rcases h with h | h | h
  · exact Or.inl h
  · exact Or.inr h
  · exact Or.inl (List.mem_singleton.1 h)

theorem noUseAfterFree_turnTrace (h : NoUseAfterFree tr) (hb : b ∉ frees tr) :
    NoUseAfterFree (turnTrace b tr) := by
  rw [turnTrace, noUseAfterFree_access_cons, noUseAfterFree_append]
  refine ⟨h, noUseAfterFree_of_frees rfl, fun a ha hacc => hb ?_⟩
  rwa [← List.mem_singleton.1 hacc]

theorem frees_destroyTrace : frees (destroyTrace p map) = map.nodes.map (·.addr) := by
  rw [destroyTrace, frees_append, frees_walkTrace]
  exact (List.append_nil _).trans List.map_eq_flatMap.symm

theorem mem_accesses_destroyTrace (h : a ∈ accesses (destroyTrace p map)) :
    a = p ∨ a ∈ map.nodes.map (·.addr) := by
  rw [destroyTrace, accesses_append, List.mem_append] at h
  rcases h with h | h
  · refine (mem_accesses_walkTrace h).imp id ?_
    rintro ⟨nd, hnd, ha⟩
    exact List.mem_map.2 ⟨nd, hnd, (List.mem_singleton.1 ha).symm⟩
  · exact Or.inl (List.mem_singleton.1 h)

theorem noUseAfterFree_destroyTrace (hp : p ∉ map.nodes.map (·.addr))
    (hnodup : (map.nodes.map (·.addr)).Nodup) : NoUseAfterFree (destroyTrace p map) := by
  have hfree : ∀ nd ∈ map.nodes, ∀ a ∈ frees [HeapEvent.access nd.addr, .free nd.addr], a = nd.addr :=
    fun nd _ a ha => List.mem_singleton.1 ha
  rw [destroyTrace, noUseAfterFree_append]
  refine ⟨noUseAfterFree_walkTrace (fun nd _ => ?_) (fun nd hnd h => ?_) ?_,
    noUseAfterFree_of_frees rfl, fun a ha hacc => ?_⟩
  · exact noUseAfterFree_access_cons.2 (List.pairwise_singleton _ _)
  · exact hp (List.mem_map.2 ⟨nd, hnd, (hfree nd hnd p h).symm⟩)
  · refine (List.pairwise_map.1 hnodup).imp fun {nd nd'} hne a ha hacc => hne ?_
    exact (List.mem_singleton.1 ha).symm.trans (List.mem_singleton.1 hacc)
  · rw [frees_walkTrace, List.mem_flatMap] at ha
    obtain ⟨nd, hnd, ha⟩ := ha
    rw [List.mem_singleton.1 hacc] at ha
    exact hp (List.mem_map.2 ⟨nd, hnd, (hfree nd hnd p ha).symm⟩)

end Walk

section Trace

variable {n : ℕ} {s : Fs} {p a : Ptr}

theorem treeAllocs_succ (n : ℕ) (s : Fs) (p : Ptr) :
    treeAllocs (n + 1) s p = p :: (folderAllocs (s.folders p) ++
      (s.folders p).foderMap.nodes.flatMap fun nd => treeAllocs n s nd.value.ptr) := by
  rw [treeAllocs, subtree_succ, List.flatMap_cons, belowNodes, List.flatMap_assoc]
  rfl

theorem frees_dataTrace (finfo : RamfsFileInfo) :
    frees (dataTrace finfo) = (finfo.ptr.map (·.addr)).toList := by
  rw [dataTrace]
  cases finfo.ptr <;> rfl

theorem accesses_dataTrace (finfo : RamfsFileInfo) : accesses (dataTrace finfo) = [] := by
  rw [dataTrace]
  cases finfo.ptr <;> rfl

theorem frees_freeTrace_succ (n : ℕ) (s : Fs) (p : Ptr) :
    frees (freeTrace (n + 1) s p) =
      ((s.folders p).foderMap.nodes.flatMap fun nd => frees (freeTrace n s nd.value.ptr)) ++
        (((s.folders p).fileMap.nodes.filterMap fun nd => nd.value.ptr.map (·.addr)) ++
          ((s.folders p).foderMap.nodes.map (·.addr) ++
            ((s.folders p).fileMap.nodes.map (·.addr) ++ [p]))) := by
  simp only [freeTrace, frees_append, frees_walkTrace, frees_destroyTrace, frees_turnTrace, frees_free,
    frees_nil, frees_dataTrace, List.filterMap_eq_flatMap_toList]

/-- The tree is released exactly once. -/
theorem frees_freeTrace_perm (n : ℕ) (s : Fs) (p : Ptr) :
    (frees (freeTrace n s p)).Perm (treeAllocs n s p) := by
  induction n generalizing p with
  | zero => exact List.Perm.refl _
  | succ n ih =>
    rw [frees_freeTrace_succ, treeAllocs_succ, folderAllocs]
    have hkids : ((s.folders p).foderMap.nodes.flatMap fun nd => frees (freeTrace n s nd.value.ptr)).Perm
        ((s.folders p).foderMap.nodes.flatMap fun nd => treeAllocs n s nd.value.ptr) :=
      List.Perm.flatMap_left _ fun nd _ => ih nd.value.ptr
    refine (hkids.append_right _).trans (List.perm_iff_count.2 fun a => ?_)
    simp only [List.count_append, List.count_cons, List.count_nil]
    omega

/-- Only the tree is accessed. -/
theorem mem_treeAllocs_of_access (h : a ∈ accesses (freeTrace n s p)) : a ∈ treeAllocs n s p := by
  induction n generalizing p with
  | zero => cases h
  | succ n ih =>
    rw [treeAllocs_succ, folderAllocs]
    simp only [freeTrace, accesses_append, accesses_free, accesses_nil, List.append_nil,
      List.mem_append] at h
    simp only [List.mem_cons, List.mem_append]
    rcases h with h | h | h | h
    · rcases mem_accesses_walkTrace h with rfl | ⟨nd, hnd, ha⟩
      · exact Or.inl rfl
      · rcases mem_accesses_turnTrace ha with rfl | ha
        · exact Or.inr (Or.inl (Or.inl (Or.inl (List.mem_map.2 ⟨nd, hnd, rfl⟩))))
        · exact Or.inr (Or.inr (List.mem_flatMap.2 ⟨nd, hnd, ih ha⟩))
    · rcases mem_accesses_walkTrace h with rfl | ⟨nd, hnd, ha⟩
      · exact Or.inl rfl
      · rcases mem_accesses_turnTrace ha with rfl | ha
        · exact Or.inr (Or.inl (Or.inl (Or.inr (List.mem_map.2 ⟨nd, hnd, rfl⟩))))
        · rw [accesses_dataTrace] at ha
          cases ha
    · exact (mem_accesses_destroyTrace h).imp id fun h => Or.inl (Or.inl (Or.inl h))
    · exact (mem_accesses_destroyTrace h).imp id fun h => Or.inl (Or.inl (Or.inr h))

/-- What one turn of the loop over the files accesses and releases. -/
theorem mem_accesses_fileWalk {map : RamfsFileHashmap}
    (h : a ∈ accesses (walkTrace p map fun nd => turnTrace nd.addr (dataTrace nd.value))) :
    a = p ∨ a ∈ map.nodes.map (·.addr) := by
  refine (mem_accesses_walkTrace h).imp id ?_
  rintro ⟨nd, hnd, ha⟩
  rcases mem_accesses_turnTrace ha with rfl | ha
  · exact List.mem_map.2 ⟨nd, hnd, rfl⟩
  · rw [accesses_dataTrace] at ha
    cases ha

theorem frees_fileWalk (map : RamfsFileHashmap) (p : Ptr) :
    frees (walkTrace p map fun nd => turnTrace nd.addr (dataTrace nd.value)) =
      map.nodes.filterMap fun nd => nd.value.ptr.map (·.addr) := by
  simp only [frees_walkTrace, frees_turnTrace, frees_dataTrace, List.filterMap_eq_flatMap_toList]

/-- The loop over the files releases data, and accesses nodes. -/
theorem noUseAfterFree_fileWalk {map : RamfsFileHashmap}
    (hp : p ∉ map.nodes.filterMap fun nd => nd.value.ptr.map (·.addr))
    (hdisj : (map.nodes.map (·.addr)).Disjoint
      (map.nodes.filterMap fun nd => nd.value.ptr.map (·.addr))) :
    NoUseAfterFree (walkTrace p map fun nd => turnTrace nd.addr (dataTrace nd.value)) := by
  have hfree : ∀ nd ∈ map.nodes, ∀ a ∈ frees (turnTrace nd.addr (dataTrace nd.value)),
      a ∈ map.nodes.filterMap fun nd => nd.value.ptr.map (·.addr) := by
    intro nd hnd a ha
    rw [frees_turnTrace, frees_dataTrace, Option.mem_toList] at ha
    exact List.mem_filterMap.2 ⟨nd, hnd, ha⟩
  refine noUseAfterFree_walkTrace (fun nd hnd => ?_) (fun nd hnd h => hp (hfree nd hnd p h)) ?_
  · refine noUseAfterFree_turnTrace ?_ fun h => ?_
    · rw [dataTrace]
      cases nd.value.ptr with
      | none => exact noUseAfterFree_nil
      | some buf => exact List.pairwise_singleton _ _
    · rw [← frees_turnTrace] at h
      exact hdisj (List.mem_map.2 ⟨nd, hnd, rfl⟩) (hfree nd hnd _ h)
  · refine List.pairwise_of_forall_mem_list fun nd hnd nd' hnd' a ha hacc => ?_
    rcases mem_accesses_turnTrace hacc with rfl | hacc
    · exact hdisj (List.mem_map.2 ⟨nd', hnd', rfl⟩) (hfree nd hnd _ ha)
    · rw [accesses_dataTrace] at hacc
      cases hacc

/-- Nothing is accessed once it was released. -/
theorem noUseAfterFree_freeTrace (h : (treeAllocs n s p).Nodup) :
    NoUseAfterFree (freeTrace n s p) := by
  induction n generalizing p with
  | zero => exact noUseAfterFree_nil
  | succ n ih =>
    rw [treeAllocs_succ, folderAllocs] at h
    obtain ⟨hp, h⟩ := List.nodup_cons.1 h
    obtain ⟨hown, hkids, hdisj⟩ := List.nodup_append'.1 h
    obtain ⟨hnodes, -, hdata⟩ := List.nodup_append'.1 hown
    obtain ⟨hfolders, hfiles, hff⟩ := List.nodup_append'.1 hnodes
    obtain ⟨hkid, hpair⟩ := List.nodup_flatMap.1 hkids
    simp only [List.mem_append, not_or] at hp
    obtain ⟨⟨⟨hpA, hpB⟩, hpC⟩, hpK⟩ := hp
    simp only [List.disjoint_append_left] at hdisj hdata
    obtain ⟨⟨hAK, hBK⟩, hCK⟩ := hdisj
    obtain ⟨hAC, hBC⟩ := hdata
    have hfree : ∀ nd : Node CString RamfsFoderInfo, ∀ a ∈ frees (freeTrace n s nd.value.ptr),
        a ∈ treeAllocs n s nd.value.ptr :=
      fun nd a ha => (frees_freeTrace_perm n s nd.value.ptr).mem_iff.1 ha
    have hmemK : ∀ {nd a}, nd ∈ (s.folders p).foderMap.nodes → a ∈ treeAllocs n s nd.value.ptr →
        a ∈ (s.folders p).foderMap.nodes.flatMap fun nd => treeAllocs n s nd.value.ptr :=
      fun hnd ha => List.mem_flatMap.2 ⟨_, hnd, ha⟩
    have hmemA : ∀ {nd}, nd ∈ (s.folders p).foderMap.nodes →
        nd.addr ∈ (s.folders p).foderMap.nodes.map (·.addr) := fun hnd => List.mem_map.2 ⟨_, hnd, rfl⟩
    -- what is accessed once the first table, or both tables, are gone through
    have hlast : ∀ a ∈ accesses (destroyTrace p (s.folders p).fileMap ++ [.free p]),
        a = p ∨ a ∈ (s.folders p).fileMap.nodes.map (·.addr) := by
      intro a ha
      rw [accesses_append, accesses_free, accesses_nil, List.append_nil] at ha
      exact mem_accesses_destroyTrace ha
    have htables : ∀ a ∈ accesses (destroyTrace p (s.folders p).foderMap ++
          (destroyTrace p (s.folders p).fileMap ++ [.free p])),
        a = p ∨ a ∈ (s.folders p).foderMap.nodes.map (·.addr) ∨
          a ∈ (s.folders p).fileMap.nodes.map (·.addr) := by
      intro a ha
      rw [accesses_append, List.mem_append] at ha
      rcases ha with ha | ha
      · exact (mem_accesses_destroyTrace ha).imp id Or.inl
      · exact (hlast a ha).imp id Or.inr
    rw [freeTrace]
    simp only [noUseAfterFree_append]
    refine ⟨?_, ⟨noUseAfterFree_fileWalk hpC hBC, ⟨noUseAfterFree_destroyTrace hpA hfolders,
      ⟨noUseAfterFree_destroyTrace hpB hfiles, List.pairwise_singleton _ _, ?_⟩, ?_⟩, ?_⟩, ?_⟩
    · refine noUseAfterFree_walkTrace (fun nd hnd => ?_) (fun nd hnd ha => ?_) ?_
      · exact noUseAfterFree_turnTrace (ih (hkid nd hnd)) fun ha =>
          hAK (hmemA hnd) (hmemK hnd (hfree nd _ ha))
      · rw [frees_turnTrace] at ha
        exact hpK (hmemK hnd (hfree nd p ha))
      · refine hpair.imp_of_mem fun {nd nd'} hnd hnd' hdisj a ha hacc => ?_
        rw [frees_turnTrace] at ha
        rcases mem_accesses_turnTrace hacc with rfl | hacc
        · exact hAK (hmemA hnd') (hmemK hnd (hfree nd _ ha))
        · exact hdisj (hfree nd a ha) (mem_treeAllocs_of_access hacc)
    · intro a _ hacc
      cases hacc
    · intro a ha hacc
      rw [frees_destroyTrace] at ha
      rcases hlast a hacc with rfl | hacc
      · exact hpA ha
      · exact hff ha hacc
    · intro a ha hacc
      rw [frees_fileWalk] at ha
      rcases htables a hacc with rfl | hacc | hacc
      · exact hpC ha
      · exact hAC hacc ha
      · exact hBC hacc ha
    · intro a ha hacc
      rw [frees_walkTrace, List.mem_flatMap] at ha
      obtain ⟨nd, hnd, ha⟩ := ha
      rw [frees_turnTrace] at ha
      have haK := hmemK hnd (hfree nd a ha)
      rw [accesses_append, List.mem_append] at hacc
      rcases hacc with hacc | hacc
      · rcases mem_accesses_fileWalk hacc with rfl | hacc
        · exact hpK haK
        · exact hBK hacc haK
      · rcases htables a hacc with rfl | hacc | hacc
        · exact hpK haK
        · exact hAK hacc haK
        · exact hBK hacc haK

end Trace

/-- **`dfs_free_folder_tree` releases a finite tree exactly once.** If its folders, hash nodes and
data pointers are distinct, each of them is passed to `free` once and nothing else is, and no
object is accessed after it was released. -/
theorem freeFolderTree_releases_once {n fuel : ℕ} {s : Fs} {p : Ptr} (hfinite : HeightLe n s p)
    (hfuel : n ≤ fuel) (hdistinct : (treeAllocs n s p).Nodup) :
    (freeFolderTreeTraced fuel ⟨s, []⟩ p).state = freeFolderTree fuel s p ∧
      (freeFolderTree fuel s p).mem.freed =
        (frees (freeFolderTreeTraced fuel ⟨s, []⟩ p).trace).reverse ++ s.mem.freed ∧
      (frees (freeFolderTreeTraced fuel ⟨s, []⟩ p).trace).Perm (treeAllocs n s p) ∧
      NoUseAfterFree (freeFolderTreeTraced fuel ⟨s, []⟩ p).trace := by
  have hstate := state_freeFolderTreeTraced fuel ⟨s, []⟩ p
  have hsub : (subtree n s p).Nodup := by
    have hsublist : ((subtree n s p).flatMap fun q => [q]).Sublist (treeAllocs n s p) :=
      List.Sublist.flatMap_right _ fun q _ => List.singleton_sublist.2 List.mem_cons_self
    rw [List.flatMap_singleton'] at hsublist
    exact hdistinct.sublist hsublist
  have htrace := (freeFolderTreeTraced_spec hfinite hfuel hsub (t := ⟨s, []⟩) fun _ _ => rfl).1
  rw [List.nil_append] at htrace
  have hstart : Logs s.mem ⟨s, []⟩ := rfl
  have hlogs := hstart.freeFolderTreeTraced fuel p
  refine ⟨hstate, ?_, ?_, ?_⟩
  · rw [← hstate]
    exact hlogs
  · rw [htrace]
    exact frees_freeTrace_perm n s p
  · rw [htrace]
    exact noUseAfterFree_freeTrace hdistinct

/-- A table with the single node `nd`. -/
private def oneNode (nd : Node CString V) : Table BUCKETS CString V :=
  ⟨fun i => if i = djb2Bucket nd.key then [nd] else [], 1⟩

/-- A folder at `1` that holds the folder at `2` and a file, and a file without data in that. -/
private def smallTree : Fs :=
  let name : CString := .ofBytes [97]
  let s := initState ampleMemory ⟨fun _ => 0, fun _ _ => 0, fun _ => false, 0, []⟩
  (s.setFolder 1 ((RamfsFoder.zero.setFoderMap (oneNode ⟨3, name, ⟨name, 0, 2, 0⟩⟩)).setFileMap
    (oneNode ⟨4, name, ⟨name, 0, 1, some ⟨5, [97]⟩, 0⟩⟩))).setFolder 2
      (RamfsFoder.zero.setFileMap (oneNode ⟨6, name, ⟨name, 0, 0, none, 0⟩⟩))

/-- A tree of two folders. -/
theorem freeFolderTree_releases_once_smallTree :
    treeAllocs 2 smallTree 1 = [1, 3, 4, 5, 2, 6] ∧
      (frees (freeFolderTreeTraced 2 ⟨smallTree, []⟩ 1).trace).Perm (treeAllocs 2 smallTree 1) := by
  refine ⟨by decide, ?_⟩
  exact (freeFolderTree_releases_once (by decide) (Nat.le_refl 2) (by decide)).2.2.1

end LittleLinux
