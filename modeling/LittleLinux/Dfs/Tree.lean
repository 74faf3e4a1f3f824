import LittleLinux.Lib.Owner
import LittleLinux.Dfs.Quiet

/-!
# The directories as a tree

`kids` is the graph that the folder tables span. `DirInv D s` is what keeps it a tree: `D` are
the addresses that were handed out for folder objects, every reference leads into `D`, the
addresses of table nodes and of file data lie outside, and no folder is entered twice. Its part
`NoDangling` is what a user needs: nothing that was released is referenced, and the working
directory is in the tree.

The folder tables change in three ways, and each keeps the invariant: an entry is added, removed
or redirected (`DirInv.rewire`), an object is made (`DirInv.fresh`), and objects out of reach
are released (`DirInv.release`).
-/

namespace LittleLinux

open ChainTable

variable {s s' : Fs} {D : Set Ptr}

/-- The folders that the table of `p` refers to. -/
def kids (s : Fs) (p : Ptr) : List Ptr := (s.folders p).foderMap.nodes.map fun nd => nd.value.ptr

/-- The folder is in the tree. -/
def Reach (s : Fs) : Ptr → Prop := Below (kids s) rootPtr

/-- No reference leads to a released folder, and the working directory is in the tree. -/
structure NoDangling (s : Fs) : Prop where
  reach : ∀ p, Reach s p → p ∉ s.mem.freed
  currentDir : Reach s s.currentDir
  mountRoot : ∀ i < s.mountCount, (s.mountTable i).rootDir ∉ s.mem.freed

/-- The addresses that a folder holds and that are not of folders. -/
def LooseAddr (f : RamfsFoder) (a : Ptr) : Prop :=
  (∃ nd ∈ f.foderMap.nodes, a = nd.addr) ∨ FileAddr f a

/-- The directories are a tree with no dangling reference; `D` are the addresses of the folder
objects. -/
structure DirInv (D : Set Ptr) (s : Fs) : Prop where
  lt_next : ∀ p ∈ D, p < s.mem.next
  freed_lt : ∀ a ∈ s.mem.freed, a < s.mem.next
  root_mem : rootPtr ∈ D
  kid_mem : ∀ p, ∀ c ∈ kids s p, c ∈ D
  mount_mem : ∀ i < s.mountCount, (s.mountTable i).rootDir ∈ D
  loose : ∀ p a, LooseAddr (s.folders p) a → a < s.mem.next ∧ a ∉ D
  count_eq : ∀ p, (s.folders p).foderMap.count = (s.folders p).foderMap.nodes.length
  nodup : ∀ p, (kids s p).Nodup
  owner : UniqueOwner (kids s)
  root_owner : ∀ p, rootPtr ∉ kids s p
  parent_eq : ∀ p c q, c ∈ kids s p → (s.folders c).parent = some q → q = p
  root_parent : (s.folders rootPtr).parent = none
  noDangling : NoDangling s

namespace DirInv

theorem reach_mem (h : DirInv D s) {p : Ptr} (hp : Reach s p) : p ∈ D :=
  hp.mem_of_closed (fun q _ => h.kid_mem q) h.root_mem

theorem kids_eq_nil (h : DirInv D s) {p : Ptr} (hp : (s.folders p).foderMap.count = 0) :
    kids s p = [] := by
  have hlen : (s.folders p).foderMap.nodes.length = 0 := by
    rw [h.count_eq] at hp
    exact_mod_cast hp
  rw [kids, List.length_eq_zero_iff.1 hlen, List.map_nil]

/-- The initial state: the root alone. -/
theorem init (mem : Memory) (store : Store) (hmem : mem.freed = []) :
    DirInv {rootPtr} (initState mem store) := by
  have hfolder : ∀ p, ((initState mem store).folders p).foderMap = Table.empty ∧
      ((initState mem store).folders p).fileMap = Table.empty ∧
      ((initState mem store).folders p).parent = none := by
    intro p
    rcases eq_or_ne p rootPtr with rfl | hne
    · exact ⟨rfl, rfl, rfl⟩
    · rw [initState_folder mem store hne]
      exact ⟨rfl, rfl, rfl⟩
  -- no folder has an entry at boot, so the root alone is within reach
  have hkids : ∀ p, kids (initState mem store) p = [] := fun p => by
    rw [kids, (hfolder p).1, nodes_empty, List.map_nil]
  have hfreed : (initState mem store).mem.freed = [] := hmem
  have hreach : ∀ p, Reach (initState mem store) p → p = rootPtr := fun p hp =>
    Below.eq_of_leaf (hkids rootPtr) hp
  refine ⟨?_, ?_, rfl, ?_, ?_, ?_, ?_, ?_, ?_, ?_, ?_, rfl, ?_, Below.refl _ _, ?_⟩
  · rintro p rfl
    exact Nat.succ_pos _
  · intro a ha
    rw [hfreed] at ha
    exact absurd ha (by simp)
  · intro p c hc
    rw [hkids] at hc
    exact absurd hc (by simp)
  · exact fun i hi => absurd hi (Nat.not_lt_zero i)
  · rintro p a (⟨nd, hnd, -⟩ | ⟨nd, hnd, -⟩)
    · rw [(hfolder p).1, nodes_empty] at hnd
      exact absurd hnd (by simp)
    · rw [(hfolder p).2.1, nodes_empty] at hnd
      exact absurd hnd (by simp)
  · intro p
    rw [(hfolder p).1, nodes_empty]
    rfl
  · intro p
    rw [hkids]
    exact List.nodup_nil
  · intro p q c hc
    rw [hkids] at hc
    exact absurd hc (by simp)
  · intro p hp
    rw [hkids] at hp
    exact absurd hp (by simp)
  · intro p c q hc
    rw [hkids] at hc
    exact absurd hc (by simp)
  · intro p _
    rw [hfreed]
    simp
  · exact fun i hi => absurd hi (Nat.not_lt_zero i)

/-! ### Quiet calls -/

/-- **A quiet call keeps the tree.** -/
theorem quiet (h : DirInv D s) (hq : Quiet s s') : DirInv D s' := by
  have hkids : kids s' = kids s := funext fun p => by rw [kids, hq.foderMap, kids]
  have hreach : Reach s' = Reach s := by rw [Reach, hkids, Reach]
  -- a folder that was not released still is not
  have hfreed : ∀ p ∈ D, p ∉ s.mem.freed → p ∉ s'.mem.freed := by
    intro p hp hnot hmem
    rcases hq.freed p hmem with hmem | ⟨q, hfile⟩ | ⟨hle, -⟩
    · exact hnot hmem
    · exact (h.loose q p (Or.inr hfile)).2 hp
    · exact absurd (h.lt_next p hp) (Nat.not_lt.2 hle)
  refine ⟨fun p hp => (h.lt_next p hp).trans_le hq.next_le, ?_, h.root_mem, ?_, ?_, ?_, ?_, ?_, ?_,
    ?_, ?_, ?_, ?_, ?_, ?_⟩
  · intro a ha
    rcases hq.freed a ha with ha | ⟨q, hfile⟩ | ⟨-, hlt⟩
    · exact (h.freed_lt a ha).trans_le hq.next_le
    · exact (h.loose q a (Or.inr hfile)).1.trans_le hq.next_le
    · exact hlt
  · rw [hkids]
    exact h.kid_mem
  · rw [hq.mountCount, hq.mountTable]
    exact h.mount_mem
  · rintro p a (⟨nd, hnd, rfl⟩ | hfile)
    · rw [hq.foderMap] at hnd
      obtain ⟨hlt, hD⟩ := h.loose p _ (Or.inl ⟨nd, hnd, rfl⟩)
      exact ⟨hlt.trans_le hq.next_le, hD⟩
    · rcases hq.fileAddr p a hfile with ⟨q, hfile⟩ | ⟨hle, hlt⟩
      · obtain ⟨hlt, hD⟩ := h.loose q a (Or.inr hfile)
        exact ⟨hlt.trans_le hq.next_le, hD⟩
      · exact ⟨hlt, fun hD => absurd (h.lt_next a hD) (Nat.not_lt.2 hle)⟩
  · intro p
    rw [hq.foderMap]
    exact h.count_eq p
  · rw [hkids]
    exact h.nodup
  · rw [hkids]
    exact h.owner
  · rw [hkids]
    exact h.root_owner
  · intro p c q hc hparent
    rw [hkids] at hc
    rw [(hq.place c).parent] at hparent
    exact h.parent_eq p c q hc hparent
  · rw [(hq.place rootPtr).parent]
    exact h.root_parent
  · rw [hreach]
    exact fun p hp => hfreed p (h.reach_mem hp) (h.noDangling.reach p hp)
  · rw [hreach, hq.currentDir]
    exact h.noDangling.currentDir
  · rw [hq.mountCount, hq.mountTable]
    exact fun i hi => hfreed _ (h.mount_mem i hi) (h.noDangling.mountRoot i hi)

end DirInv

/-! ### Changing one table -/

/-- The folder `c` can be entered into the table of `dir`: nothing refers to it, and nothing
below it was released. -/
structure Detached (D : Set Ptr) (s : Fs) (dir c : Ptr) : Prop where
  mem : c ∈ D
  ne_root : c ≠ rootPtr
  ownerless : ∀ p, c ∉ kids s p
  parent_eq : ∀ q, (s.folders c).parent = some q → q = dir
  live : ∀ x, Below (kids s) c x → x ∉ s.mem.freed

/-- The state with another folder table in `dir`, and another state of the allocator. -/
def setTable (s : Fs) (dir : Ptr) (map : RamfsHashmap) (mem : Memory) : Fs :=
  (s.modifyFolder dir (·.setFoderMap map)).setMem mem

section Rewire

variable {dir : Ptr} {map : RamfsHashmap} {mem : Memory} {out inn rest : List Ptr}

theorem kids_setTable_self : kids (setTable s dir map mem) dir = map.nodes.map fun nd => nd.value.ptr := by
  rw [kids, setTable, Fs.setMem_folders, Fs.modifyFolder_self]
  rfl

theorem kids_setTable_of_ne {p : Ptr} (hne : p ≠ dir) : kids (setTable s dir map mem) p = kids s p := by
  rw [kids, setTable, Fs.setMem_folders, Fs.modifyFolder_of_ne s _ hne, kids]

theorem setTable_parent (p : Ptr) :
    ((setTable s dir map mem).folders p).parent = (s.folders p).parent := by
  rw [setTable, Fs.setMem_folders]
  rcases eq_or_ne p dir with rfl | hne
  · rw [Fs.modifyFolder_self]
    rfl
  · rw [Fs.modifyFolder_of_ne s _ hne]

theorem setTable_fileAddr {p a : Ptr} (h : FileAddr ((setTable s dir map mem).folders p) a) :
    FileAddr (s.folders p) a := by
  rw [setTable, Fs.setMem_folders] at h
  rcases eq_or_ne p dir with rfl | hne
  · rw [Fs.modifyFolder_self] at h
    exact h
  · rwa [Fs.modifyFolder_of_ne s _ hne] at h

/-- The edges after the change: the old ones, and those to `inn`. -/
theorem mem_kids_setTable (mem : Memory) (hold : (kids s dir).Perm (out ++ rest))
    (hnew : (map.nodes.map fun nd => nd.value.ptr).Perm (inn ++ rest)) {p c : Ptr}
    (hc : c ∈ kids (setTable s dir map mem) p) : c ∈ kids s p ∨ p = dir ∧ c ∈ inn := by
  rcases eq_or_ne p dir with rfl | hne
  · rw [kids_setTable_self, hnew.mem_iff, List.mem_append] at hc
    rcases hc with hc | hc
    · exact Or.inr ⟨rfl, hc⟩
    · exact Or.inl (hold.mem_iff.2 (List.mem_append_right _ hc))
  · rw [kids_setTable_of_ne hne] at hc
    exact Or.inl hc

/-- The edges before the change: those that are left, and those to `out`. -/
theorem mem_kids_of_setTable (mem : Memory) (hold : (kids s dir).Perm (out ++ rest))
    (hnew : (map.nodes.map fun nd => nd.value.ptr).Perm (inn ++ rest)) {p c : Ptr}
    (hc : c ∈ kids s p) : c ∈ kids (setTable s dir map mem) p ∨ p = dir ∧ c ∈ out := by
  rcases eq_or_ne p dir with rfl | hne
  · rw [hold.mem_iff, List.mem_append] at hc
    rcases hc with hc | hc
    · exact Or.inr ⟨rfl, hc⟩
    · rw [kids_setTable_self, hnew.mem_iff]
      exact Or.inl (List.mem_append_right _ hc)
  · rw [kids_setTable_of_ne hne]
    exact Or.inl hc

/-- **Changing the entries of one table keeps the tree**, when what is entered is detached and
the working directory is not below what is taken out. -/
theorem DirInv.rewire (h : DirInv D s) (hnext : s.mem.next ≤ mem.next)
    (hfreed : ∀ a ∈ mem.freed, a ∈ s.mem.freed ∨ a < mem.next ∧ a ∉ D)
    (hcount : map.count = map.nodes.length)
    (haddr : ∀ nd ∈ map.nodes, nd.addr < mem.next ∧ nd.addr ∉ D)
    (hold : (kids s dir).Perm (out ++ rest))
    (hnew : (map.nodes.map fun nd => nd.value.ptr).Perm (inn ++ rest)) (hinn : inn.Nodup)
    (hin : ∀ c ∈ inn, Detached D s dir c)
    (hout : ∀ c ∈ out, ¬Below (kids s) c s.currentDir) :
    DirInv D (setTable s dir map mem) := by
  have hedge : ∀ {p c}, c ∈ kids (setTable s dir map mem) p → c ∈ kids s p ∨ p = dir ∧ c ∈ inn :=
    mem_kids_setTable mem hold hnew
  have hreach : ∀ p, Reach (setTable s dir map mem) p →
      Reach s p ∨ ∃ c ∈ {c | c ∈ inn}, Below (kids s) c p := fun p hp =>
    Below.of_linked (fun q c hc => (hedge hc).imp id And.right) hp
  have hnot : ∀ p ∈ D, p ∉ s.mem.freed → p ∉ mem.freed := fun p hp hn hmem =>
    (hfreed p hmem).elim hn fun h' => h'.2 hp
  -- everything below a folder of the tree, or of one that is entered, is a folder
  have hbelow : ∀ c ∈ D, ∀ x, Below (kids s) c x → x ∈ D := fun c hc x hx =>
    hx.mem_of_closed (fun q _ => h.kid_mem q) hc
  refine ⟨fun p hp => (h.lt_next p hp).trans_le hnext, ?_, h.root_mem, ?_, h.mount_mem, ?_, ?_, ?_,
    ?_, ?_, ?_, ?_, ?_, ?_, ?_⟩
  · intro a ha
    rcases hfreed a ha with ha | ⟨hlt, -⟩
    · exact (h.freed_lt a ha).trans_le hnext
    · exact hlt
  · intro p c hc
    rcases hedge hc with hc | ⟨-, hc⟩
    · exact h.kid_mem p c hc
    · exact (hin c hc).mem
  · rintro p a (⟨nd, hnd, rfl⟩ | hfile)
    · rw [setTable, Fs.setMem_folders] at hnd
      rcases eq_or_ne p dir with rfl | hne
      · rw [Fs.modifyFolder_self] at hnd
        exact haddr nd hnd
      · rw [Fs.modifyFolder_of_ne s _ hne] at hnd
        obtain ⟨hlt, hD⟩ := h.loose p _ (Or.inl ⟨nd, hnd, rfl⟩)
        exact ⟨hlt.trans_le hnext, hD⟩
    · obtain ⟨hlt, hD⟩ := h.loose p a (Or.inr (setTable_fileAddr hfile))
      exact ⟨hlt.trans_le hnext, hD⟩
  · intro p
    rw [setTable, Fs.setMem_folders]
    rcases eq_or_ne p dir with rfl | hne
    · rw [Fs.modifyFolder_self]
      exact hcount
    · rw [Fs.modifyFolder_of_ne s _ hne]
      exact h.count_eq p
  · intro p
    rcases eq_or_ne p dir with rfl | hne
    · rw [kids_setTable_self, hnew.nodup_iff, List.nodup_append']
      have hrest := (hold.nodup_iff.1 (h.nodup p)).of_append_right
      refine ⟨hinn, hrest, fun c hc hcr => ?_⟩
      exact (hin c hc).ownerless p (hold.mem_iff.2 (List.mem_append_right _ hcr))
    · rw [kids_setTable_of_ne hne]
      exact h.nodup p
  · intro p q c hp hq
    rcases hedge hp with hp | ⟨hpdir, hp⟩
    · rcases hedge hq with hq | ⟨-, hq⟩
      · exact h.owner p q c hp hq
      · exact absurd hp ((hin c hq).ownerless p)
    · rcases hedge hq with hq | ⟨hqdir, -⟩
      · exact absurd hq ((hin c hp).ownerless q)
      · exact hpdir.trans hqdir.symm
  · intro p hp
    rcases hedge hp with hp | ⟨-, hp⟩
    · exact h.root_owner p hp
    · exact (hin _ hp).ne_root rfl
  · intro p c q hc hparent
    rw [setTable_parent] at hparent
    rcases hedge hc with hc | ⟨hdir, hc⟩
    · exact h.parent_eq p c q hc hparent
    · exact ((hin c hc).parent_eq q hparent).trans hdir.symm
  · rw [setTable_parent]
    exact h.root_parent
  · intro p hp
    rcases hreach p hp with hp | ⟨c, hc, hp⟩
    · exact hnot p (h.reach_mem hp) (h.noDangling.reach p hp)
    · exact hnot p (hbelow c (hin c hc).mem p hp) ((hin c hc).live p hp)
  · have hcut : ∀ p, ∀ c ∈ kids s p, c ∈ kids (setTable s dir map mem) p ∨ c ∈ {c | c ∈ out} :=
      fun p c hc => (mem_kids_of_setTable mem hold hnew hc).imp id And.right
    rcases Below.of_cut hcut h.noDangling.currentDir with hcur | ⟨c, hc, hcur⟩
    · exact hcur
    · exact absurd hcur (hout c hc)
  · exact fun i hi => hnot _ (h.mount_mem i hi) (h.noDangling.mountRoot i hi)

end Rewire

/-! ### Making an object -/

section Fresh

variable {node : RamfsFoder} {mem : Memory}

theorem kids_fresh (hmap : node.foderMap = Table.empty) (p : Ptr) :
    kids ((s.setMem mem).setFolder s.mem.next node) p = if p = s.mem.next then [] else kids s p := by
  rw [kids]
  split_ifs with hp
  · rw [hp, Fs.setFolder_self, hmap, nodes_empty, List.map_nil]
  · rw [Fs.setFolder_of_ne _ _ hp, Fs.setMem_folders, kids]

/-- A new object with empty tables. -/
theorem DirInv.fresh (h : DirInv D s) (hmap : node.foderMap = Table.empty)
    (hfile : node.fileMap = Table.empty) (hnext : s.mem.next < mem.next)
    (hfreed : mem.freed = s.mem.freed) :
    DirInv (insert s.mem.next D) ((s.setMem mem).setFolder s.mem.next node) := by
  set t := (s.setMem mem).setFolder s.mem.next node with ht
  have hnew : s.mem.next ∉ D := fun hD => Nat.lt_irrefl _ (h.lt_next _ hD)
  have hne : ∀ {p}, p ∈ D → p ≠ s.mem.next := fun hp => ne_of_mem_of_not_mem hp hnew
  have hkids : ∀ p, p ≠ s.mem.next → kids t p = kids s p := fun p hp => by
    rw [ht, kids_fresh hmap, if_neg hp]
  have hedge : ∀ {p c}, c ∈ kids t p → c ∈ kids s p := by
    intro p c hc
    rw [ht, kids_fresh hmap] at hc
    split_ifs at hc
    · exact absurd hc (by simp)
    · exact hc
  have hfolder : ∀ p, p ≠ s.mem.next → t.folders p = s.folders p := fun p hp =>
    Fs.setFolder_of_ne _ _ hp
  have hreach : ∀ p, Reach t p → Reach s p := fun p hp => hp.mono fun _ _ => hedge
  refine ⟨?_, ?_, Set.mem_insert_of_mem _ h.root_mem, ?_, ?_, ?_, ?_, ?_, ?_, ?_, ?_, ?_, ?_, ?_, ?_⟩
  · rintro p (rfl | hp)
    · exact hnext
    · exact (h.lt_next p hp).trans hnext
  · intro a ha
    exact (h.freed_lt a (hfreed ▸ ha)).trans hnext
  · exact fun p c hc => Set.mem_insert_of_mem _ (h.kid_mem p c (hedge hc))
  · exact fun i hi => Set.mem_insert_of_mem _ (h.mount_mem i hi)
  · intro p a ha
    rcases eq_or_ne p s.mem.next with rfl | hp
    · rw [ht, Fs.setFolder_self, LooseAddr, FileAddr, hmap, hfile, nodes_empty, nodes_empty] at ha
      exact absurd ha (by simp)
    · rw [hfolder p hp] at ha
      obtain ⟨hlt, hD⟩ := h.loose p a ha
      exact ⟨hlt.trans hnext, fun hD' => hD'.elim (Nat.ne_of_lt hlt) hD⟩
  · intro p
    rcases eq_or_ne p s.mem.next with rfl | hp
    · rw [ht, Fs.setFolder_self, hmap, nodes_empty]
      rfl
    · rw [hfolder p hp]
      exact h.count_eq p
  · intro p
    rcases eq_or_ne p s.mem.next with rfl | hp
    · rw [ht, kids_fresh hmap, if_pos rfl]
      exact List.nodup_nil
    · rw [hkids p hp]
      exact h.nodup p
  · exact fun p q c hp hq => h.owner p q c (hedge hp) (hedge hq)
  · exact fun p hp => h.root_owner p (hedge hp)
  · intro p c q hc hparent
    rw [hfolder c (hne (h.kid_mem p c (hedge hc)))] at hparent
    exact h.parent_eq p c q (hedge hc) hparent
  · rw [hfolder rootPtr (hne h.root_mem)]
    exact h.root_parent
  · intro p hp
    rw [show t.mem.freed = s.mem.freed from hfreed]
    exact h.noDangling.reach p (hreach p hp)
  · -- the path to the working directory runs through old folders
    have hcur : Reach s s.currentDir := h.noDangling.currentDir
    suffices ∀ p, Reach s p → Reach t p from this _ hcur
    intro p hp
    induction hp with
    | refl => exact Below.refl _ _
    | tail hq hc ih =>
      refine ih.tail ?_
      rwa [hkids _ (hne (h.reach_mem hq))]
  · intro i hi
    rw [show t.mem.freed = s.mem.freed from hfreed]
    exact h.noDangling.mountRoot i hi

/-- A new object is detached. -/
theorem DirInv.detached_fresh (h : DirInv D s) (hmap : node.foderMap = Table.empty)
    (hfreed : mem.freed = s.mem.freed) {dir : Ptr}
    (hparent : ∀ q, node.parent = some q → q = dir) :
    Detached (insert s.mem.next D) ((s.setMem mem).setFolder s.mem.next node) dir s.mem.next where
  mem := Set.mem_insert _ _
  ne_root := fun heq => Nat.lt_irrefl _ (heq ▸ h.lt_next _ h.root_mem)
  ownerless := by
    intro p hp
    rw [kids_fresh hmap] at hp
    split_ifs at hp
    · exact absurd hp (by simp)
    · exact Nat.lt_irrefl _ (h.lt_next _ (h.kid_mem p _ hp))
  parent_eq := by
    intro q hq
    rw [Fs.setFolder_self] at hq
    exact hparent q hq
  live := by
    intro x hx hmem
    rw [Below.eq_of_leaf (by rw [kids_fresh hmap, if_pos rfl]) hx] at hmem
    exact Nat.lt_irrefl _ (h.freed_lt _ (hfreed ▸ hmem))

end Fresh

/-! ### Releasing objects -/

/-- **Releasing what is out of reach keeps the tree**, when no entry of the mount table that is
left refers to it. -/
theorem DirInv.release (h : DirInv D s)
    (hmap : ∀ p, (s'.folders p).foderMap = (s.folders p).foderMap ∨
      (s'.folders p).foderMap = Table.empty ∧ ¬Reach s p)
    (hfile : ∀ p a, FileAddr (s'.folders p) a → FileAddr (s.folders p) a)
    (hparent : ∀ p, (s'.folders p).parent = (s.folders p).parent)
    (hnext : s'.mem.next = s.mem.next)
    (hfreed : ∀ a ∈ s'.mem.freed, a ∈ s.mem.freed ∨ a < s.mem.next ∧ ¬Reach s a ∧
      ∀ i < s'.mountCount, (s'.mountTable i).rootDir ≠ a)
    (hcur : s'.currentDir = s.currentDir)
    (hmount : ∀ i < s'.mountCount, ∃ j < s.mountCount,
      (s'.mountTable i).rootDir = (s.mountTable j).rootDir) : DirInv D s' := by
  have hkids : ∀ p, kids s' p = kids s p ∨ kids s' p = [] ∧ ¬Reach s p := by
    intro p
    rcases hmap p with hp | ⟨hp, hnot⟩
    · exact Or.inl (by rw [kids, hp, kids])
    · exact Or.inr ⟨by rw [kids, hp, nodes_empty, List.map_nil], hnot⟩
  have hedge : ∀ {p c}, c ∈ kids s' p → c ∈ kids s p := by
    intro p c hc
    rcases hkids p with hp | ⟨hp, -⟩
    · rwa [hp] at hc
    · rw [hp] at hc
      exact absurd hc (by simp)
  have hreach : ∀ p, Reach s' p → Reach s p := fun p hp => hp.mono fun _ _ => hedge
  refine ⟨?_, ?_, h.root_mem, fun p c hc => h.kid_mem p c (hedge hc), ?_, ?_, ?_, ?_, ?_, ?_, ?_, ?_,
    ?_, ?_, ?_⟩
  · rw [hnext]
    exact h.lt_next
  · intro a ha
    rw [hnext]
    exact (hfreed a ha).elim (h.freed_lt a) And.left
  · intro i hi
    obtain ⟨j, hj, heq⟩ := hmount i hi
    rw [heq]
    exact h.mount_mem j hj
  · rintro p a (⟨nd, hnd, rfl⟩ | ha)
    · rw [hnext]
      rcases hmap p with hp | ⟨hp, -⟩
      · rw [hp] at hnd
        exact h.loose p _ (Or.inl ⟨nd, hnd, rfl⟩)
      · rw [hp, nodes_empty] at hnd
        exact absurd hnd (by simp)
    · rw [hnext]
      exact h.loose p a (Or.inr (hfile p a ha))
  · intro p
    rcases hmap p with hp | ⟨hp, -⟩
    · rw [hp]
      exact h.count_eq p
    · rw [hp, nodes_empty]
      rfl
  · intro p
    rcases hkids p with hp | ⟨hp, -⟩
    · rw [hp]
      exact h.nodup p
    · rw [hp]
      exact List.nodup_nil
  · exact fun p q c hp hq => h.owner p q c (hedge hp) (hedge hq)
  · exact fun p hp => h.root_owner p (hedge hp)
  · intro p c q hc hp
    rw [hparent] at hp
    exact h.parent_eq p c q (hedge hc) hp
  · rw [hparent]
    exact h.root_parent
  · intro p hp hmem
    rcases hfreed p hmem with hmem | ⟨-, hnot, -⟩
    · exact h.noDangling.reach p (hreach p hp) hmem
    · exact hnot (hreach p hp)
  · -- no table of the tree was emptied
    rw [hcur]
    have hcur : Reach s s.currentDir := h.noDangling.currentDir
    suffices ∀ p, Reach s p → Reach s' p from this _ hcur
    intro p hp
    induction hp with
    | refl => exact Below.refl _ _
    | tail hq hc ih =>
      rcases hkids _ with hp | ⟨-, hnot⟩
      · refine ih.tail ?_
        rwa [hp]
      · exact absurd hq hnot
  · intro i hi hmem
    rcases hfreed _ hmem with hmem | ⟨-, -, hne⟩
    · obtain ⟨j, hj, heq⟩ := hmount i hi
      rw [heq] at hmem
      exact h.noDangling.mountRoot j hj hmem
    · exact hne i hi rfl

/-! ### Walks -/

/-- A walk from a folder of the tree stays in the tree. -/
theorem DirInv.reach_walkParts (h : DirInv D s) {parts : List CString} {cur e : Ptr}
    (hcur : Reach s cur) (hwalk : walkParts s.folders cur parts = some e) : Reach s e := by
  induction parts generalizing cur with
  | nil => exact Option.some.inj hwalk ▸ hcur
  | cons part rest ih =>
    rw [walkParts] at hwalk
    split_ifs at hwalk with h₁ h₂ h₃
    · exact ih hcur hwalk
    · exact ih hcur hwalk
    · cases hp : (s.folders cur).parent with
      | none =>
        rw [hp] at hwalk
        exact Option.some.inj hwalk ▸ hcur
      | some p =>
        rw [hp] at hwalk
        refine ih ?_ hwalk
        -- the parent pointer leads back over the edge by which the folder is reached
        rcases Below.cases_owner hcur with rfl | ⟨q, hq, hmem⟩
        · exact absurd (h.root_parent.symm.trans hp) (by simp)
        · rw [h.parent_eq q cur p hmem hp]
          exact hq
    · cases hfind : ramfsHashmapFind (s.folders cur).foderMap part with
      | none =>
        rw [hfind] at hwalk
        exact absurd hwalk (by simp)
      | some info =>
        rw [hfind] at hwalk
        obtain ⟨nd, hnd, rfl⟩ := foderTable.exists_of_find hfind
        exact ih (hcur.tail (List.mem_map.2 ⟨nd, hnd, rfl⟩)) hwalk

theorem DirInv.reach_getDirByPath (h : DirInv D s) {base e : Ptr} {path : CString}
    (hbase : Reach s base) (he : getDirByPath s.folders base path = some e) : Reach s e := by
  rw [getDirByPath] at he
  split_ifs at he
  · exact h.reach_walkParts (Below.refl _ _) he
  · exact h.reach_walkParts hbase he

theorem DirInv.reach_fromDir (h : DirInv D s) {dir : Option CString} {e : Ptr}
    (he : fromDir s dir = some e) : Reach s e := by
  rw [fromDir.eq_def] at he
  cases dir with
  | none => exact Option.some.inj he ▸ h.noDangling.currentDir
  | some path => exact h.reach_getDirByPath h.noDangling.currentDir he

theorem DirInv.reach_parsePath (h : DirInv D s) {name : CString} {dir : Option CString}
    {r : Ptr × CString} (hr : parsePath s name dir = .ok r) : Reach s r.1 :=
  parsePath_dir (Below.refl _ _) (fun _ => h.reach_fromDir)
    (fun _ _ _ hbase he => h.reach_getDirByPath hbase he) hr

end LittleLinux
