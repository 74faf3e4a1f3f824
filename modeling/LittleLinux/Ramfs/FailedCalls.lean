import LittleLinux.Dfs.Grants
import LittleLinux.Lib.Ledger
import LittleLinux.Ramfs.RamTree

/-!
# Calls that fail

A call without a mount that answers a negative code leaves the directories, the files and the
working directory as they were. What it can harm is the memory behind them: `fs_write` releases
the buffer of the file before it asks for a new one, and when it gets none the file keeps the
released buffer. Each file, entry and directory is a slot of a ledger of allocations, and
`FailsCleanly` along a run is exactly that no call of it is such a `fs_write`
(`failsCleanly_run_iff`).
-/

namespace LittleLinux

open ChainTable

/-! ### The ledger -/

/-- What holds an address: for an entry of a directory its node and the directory it leads to, for
a file its node and its data. -/
inductive Slot where
  | entry (dir : Ptr) (key : CString)
  | object (dir : Ptr) (key : CString)
  | file (dir : Ptr) (key : CString)
  | data (dir : Ptr) (key : CString)

/-- The slot holds the address. -/
inductive Owns (s : Fs) : Slot → Ptr → Prop
  | entry {dir : Ptr} {nd : Node CString RamfsFoderInfo}
    (h : nd ∈ (s.folders dir).foderMap.nodes) : Owns s (.entry dir nd.key) nd.addr
  | object {dir : Ptr} {nd : Node CString RamfsFoderInfo}
    (h : nd ∈ (s.folders dir).foderMap.nodes) : Owns s (.object dir nd.key) nd.value.ptr
  | file {dir : Ptr} {fd : Node CString RamfsFileInfo}
    (h : fd ∈ (s.folders dir).fileMap.nodes) : Owns s (.file dir fd.key) fd.addr
  | data {dir : Ptr} {fd : Node CString RamfsFileInfo} {buf : Buffer}
    (h : fd ∈ (s.folders dir).fileMap.nodes) (hbuf : fd.value.ptr = some buf) :
    Owns s (.data dir fd.key) buf.addr

/-- The ledger of a state is sound. -/
def Sound (s : Fs) : Prop := Ledger (Owns s) s.mem.next s.mem.HandedOut s.mem.freed

section Owns

variable {s t : Fs} {dir : Ptr} {slot : Slot} {a : Ptr} {name : CString}

/-- What holds of all that was held, and of what the new nodes hold, holds of all that is held. -/
theorem Owns.imp {Q : Slot → Ptr → Prop} (hold : ∀ slot a, Owns s slot a → Q slot a)
    (hentry : ∀ p, ∀ nd ∈ (t.folders p).foderMap.nodes, nd ∈ (s.folders p).foderMap.nodes ∨
      (Q (.entry p nd.key) nd.addr ∧ Q (.object p nd.key) nd.value.ptr))
    (hfile : ∀ p, ∀ fd ∈ (t.folders p).fileMap.nodes, fd ∈ (s.folders p).fileMap.nodes ∨
      (Q (.file p fd.key) fd.addr ∧ ∀ buf, fd.value.ptr = some buf → Q (.data p fd.key) buf.addr))
    (h : Owns t slot a) : Q slot a := by
  cases h with
  | entry hnd =>
    rcases hentry _ _ hnd with hnd | hnew
    · exact hold _ _ (Owns.entry hnd)
    · exact hnew.1
  | object hnd =>
    rcases hentry _ _ hnd with hnd | hnew
    · exact hold _ _ (Owns.object hnd)
    · exact hnew.2
  | file hfd =>
    rcases hfile _ _ hfd with hfd | hnew
    · exact hold _ _ (Owns.file hfd)
    · exact hnew.1
  | data hfd hbuf =>
    rcases hfile _ _ hfd with hfd | hnew
    · exact hold _ _ (Owns.data hfd hbuf)
    · exact hnew.2 _ hbuf

/-- Where no table gains a node, no slot gains an address. -/
theorem Owns.of_subset
    (hentry : ∀ p, ∀ nd ∈ (t.folders p).foderMap.nodes, nd ∈ (s.folders p).foderMap.nodes)
    (hfile : ∀ p, ∀ fd ∈ (t.folders p).fileMap.nodes, fd ∈ (s.folders p).fileMap.nodes)
    (h : Owns t slot a) : Owns s slot a :=
  Owns.imp (fun _ _ hold => hold) (fun p nd hnd => Or.inl (hentry p nd hnd))
    (fun p fd hfd => Or.inl (hfile p fd hfd)) h

theorem Owns.exists_entry {key : CString} (h : Owns s (.entry dir key) a) :
    ∃ nd ∈ (s.folders dir).foderMap.nodes, nd.key = key := by
  cases h with
  | entry hnd => exact ⟨_, hnd, rfl⟩

theorem Owns.exists_object {key : CString} (h : Owns s (.object dir key) a) :
    ∃ nd ∈ (s.folders dir).foderMap.nodes, nd.key = key := by
  cases h with
  | object hnd => exact ⟨_, hnd, rfl⟩

theorem Owns.exists_file {key : CString} (h : Owns s (.file dir key) a) :
    ∃ fd ∈ (s.folders dir).fileMap.nodes, fd.key = key := by
  cases h with
  | file hfd => exact ⟨_, hfd, rfl⟩

theorem Owns.exists_data {key : CString} (h : Owns s (.data dir key) a) :
    ∃ fd ∈ (s.folders dir).fileMap.nodes, fd.key = key ∧ ∃ buf, fd.value.ptr = some buf ∧ buf.addr = a := by
  cases h with
  | data hfd hbuf => exact ⟨_, hfd, rfl, _, hbuf, rfl⟩

/-- The tables after the file table of `dir` was replaced. -/
theorem foderMap_putFiles (s : Fs) (dir : Ptr) (map : RamfsFileHashmap) (mem : Memory) (p : Ptr) :
    ((putFiles s dir map mem).folders p).foderMap = (s.folders p).foderMap := by
  rcases eq_or_ne p dir with rfl | hne
  · exact putFiles_foderMap s p map mem
  · rw [putFiles, Fs.setMem_folders, Fs.modifyFolder_of_ne _ _ hne]

theorem fileMap_putFiles_of_ne (s : Fs) (map : RamfsFileHashmap) (mem : Memory) {p : Ptr} (hne : p ≠ dir) :
    ((putFiles s dir map mem).folders p).fileMap = (s.folders p).fileMap := by
  rw [putFiles, Fs.setMem_folders, Fs.modifyFolder_of_ne _ _ hne]

/-- `Owns.imp` after the file table of `dir` was replaced. -/
theorem Owns.of_putFiles {map : RamfsFileHashmap} {mem : Memory} {Q : Slot → Ptr → Prop}
    (hold : ∀ slot a, Owns s slot a → Q slot a)
    (hfile : ∀ fd ∈ map.nodes, fd ∈ (s.folders dir).fileMap.nodes ∨ (Q (.file dir fd.key) fd.addr ∧
      ∀ buf, fd.value.ptr = some buf → Q (.data dir fd.key) buf.addr))
    (h : Owns (putFiles s dir map mem) slot a) : Q slot a := by
  refine Owns.imp hold (fun p nd hnd => ?_) (fun p fd hfd => ?_) h
  · rw [foderMap_putFiles] at hnd
    exact Or.inl hnd
  · rcases eq_or_ne p dir with rfl | hne
    · rw [putFiles_fileMap] at hfd
      exact hfile fd hfd
    · rw [fileMap_putFiles_of_ne s map mem hne] at hfd
      exact Or.inl hfd

/-- Nothing else is under the key of a node that is taken out of a table. -/
theorem key_ne_of_perm {V : Type} {map : Table BUCKETS CString V} (hr : Rep djb2Bucket map)
    {nd nd' : Node CString V} {rest : List (Node CString V)} (hperm : map.nodes.Perm (nd :: rest))
    (hnd' : nd' ∈ rest) : nd'.key ≠ nd.key := by
  have hnodup : ((nd :: rest).map Node.key).Nodup := (hperm.map _).nodup_iff.1 hr.keys_nodup
  intro heq
  exact (List.nodup_cons.1 hnodup).1 (heq ▸ List.mem_map_of_mem hnd')

end Owns

/-! ### The effects -/

section Effects

variable {s t : Fs} {dir : Ptr} {name : CString}

theorem Sound.of_folders (h : Sound s) (hcalls : s.mem.calls ≤ t.mem.calls)
    (hgrants : t.mem.grants = s.mem.grants) (hfreed : t.mem.freed = s.mem.freed)
    (hfolders : t.folders = s.folders) : Sound t := by
  rw [Sound, hfreed]
  refine h.mono (Nat.succ_le_succ hcalls) (fun a ha => ha.mono hgrants hcalls) fun slot a ha =>
    Owns.of_subset (fun p nd hnd => ?_) (fun p fd hfd => ?_) ha
  · rwa [hfolders] at hnd
  · rwa [hfolders] at hfd

/-- A new object has no slots. -/
theorem nodes_setFolder_new (s : Fs) (dir : Ptr) (name : CString) (p : Ptr) :
    (∀ nd ∈ ((s.setFolder s.mem.next (newDirNode s dir name)).folders p).foderMap.nodes,
      nd ∈ (s.folders p).foderMap.nodes) ∧
    ∀ fd ∈ ((s.setFolder s.mem.next (newDirNode s dir name)).folders p).fileMap.nodes,
      fd ∈ (s.folders p).fileMap.nodes := by
  rcases eq_or_ne p s.mem.next with rfl | hne
  · rw [Fs.setFolder_self]
    exact ⟨fun nd hnd => absurd (nodes_empty ▸ hnd : nd ∈ []) List.not_mem_nil,
      fun fd hfd => absurd (nodes_empty ▸ hfd : fd ∈ []) List.not_mem_nil⟩
  · rw [Fs.setFolder_of_ne _ _ hne]
    exact ⟨fun _ => id, fun _ => id⟩

theorem Sound.made (h : Sound s) (hdir : dir < s.mem.next) (name : CString)
    (hgrants : s.mem.Grants 2) : Sound (madeDir s dir name) := by
  have hnext : (s.mem.skip 2).next = s.mem.next + 2 := Memory.next_skip _ _
  have hgranted : ∀ a, s.mem.next ≤ a → a < s.mem.next + 2 → (s.mem.skip 2).HandedOut a :=
    fun a => hgrants.handedOut rfl rfl
  refine h.step (hnext.symm ▸ Nat.le_add_right _ _)
    (fun a => if a = s.mem.next then .object dir name else .entry dir name)
    (fun a ha => ha.mono rfl (Nat.le_add_right _ _)) (fun slot a ha => ?_) fun a ha => Or.inl ha
  rw [madeDir, Fs.setMem_mem, hnext]
  refine Owns.imp (Q := fun slot a => Owns s slot a ∨ (s.mem.next ≤ a ∧ a < s.mem.next + 2 ∧
    (s.mem.skip 2).HandedOut a ∧
      slot = if a = s.mem.next then Slot.object dir name else Slot.entry dir name))
    (fun _ _ => Or.inl) (fun p nd hnd => ?_) (fun p fd hfd => ?_) ha
  · rw [madeDir, Fs.setMem_folders] at hnd
    rcases eq_or_ne p dir with rfl | hne
    · rw [Fs.modifyFolder_self] at hnd
      rcases List.mem_cons.1 ((nodes_pushNode_perm _ _).mem_iff.1 hnd) with rfl | hnd
      · refine Or.inr
          ⟨Or.inr ⟨Nat.le_succ _, Nat.lt_succ_self _, hgranted _ (Nat.le_succ _) (Nat.lt_succ_self _), ?_⟩,
            Or.inr ⟨le_refl _, Nat.lt_add_of_pos_right Nat.two_pos,
              hgranted _ (le_refl _) (Nat.lt_add_of_pos_right Nat.two_pos), ?_⟩⟩
        · exact (if_neg (Nat.succ_ne_self _)).symm
        · exact (if_pos rfl).symm
      · exact Or.inl hnd
    · rw [Fs.modifyFolder_of_ne _ _ hne] at hnd
      exact Or.inl ((nodes_setFolder_new s dir name p).1 nd hnd)
  · rw [madeDir, Fs.setMem_folders] at hfd
    rcases eq_or_ne p dir with rfl | hne
    · rw [Fs.modifyFolder_self] at hfd
      exact Or.inl ((nodes_setFolder_new s p name p).2 fd hfd)
    · rw [Fs.modifyFolder_of_ne _ _ hne] at hfd
      exact Or.inl ((nodes_setFolder_new s dir name p).2 fd hfd)

theorem Sound.unmade (h : Sound s) (dir : Ptr) (name : CString) :
    Sound ((s.setFolder s.mem.next (newDirNode s dir name)).setMem
      ((s.mem.skip 2).free s.mem.next)) := by
  have hnext : ((s.mem.skip 2).free s.mem.next).next = s.mem.next + 2 := Memory.next_skip _ _
  have howns : ∀ slot a, Owns ((s.setFolder s.mem.next (newDirNode s dir name)).setMem
      ((s.mem.skip 2).free s.mem.next)) slot a → Owns s slot a := by
    intro slot a ha
    refine Owns.of_subset (fun p nd hnd => ?_) (fun p fd hfd => ?_) ha
    · exact (nodes_setFolder_new s dir name p).1 nd hnd
    · exact (nodes_setFolder_new s dir name p).2 fd hfd
  refine h.step (hnext.symm ▸ Nat.le_add_right _ _) (fun _ => .object dir name)
    (fun a ha => ha.mono rfl (Nat.le_add_right _ _)) (fun slot a ha => Or.inl (howns slot a ha))
    fun a ha => ?_
  rw [Fs.setMem_mem, hnext]
  rcases List.mem_cons.1 ha with rfl | ha
  · refine Or.inr (Or.inr ⟨le_refl _, Nat.lt_add_of_pos_right Nat.two_pos, fun slot hslot => ?_⟩)
    exact absurd (h.owned_lt slot _ (howns slot _ hslot)) (lt_irrefl _)
  · exact Or.inl ha

theorem Sound.removed (h : Sound s) (hinv : RamInv s) {nd : Node CString RamfsFoderInfo}
    (hfind : findNode foderTable.streq djb2Bucket (s.folders dir).foderMap name = some nd) :
    Sound (removedDir s dir name nd) := by
  have hnd := mem_nodes_of_findNode hfind
  have hne : dir ≠ nd.value.ptr := Nat.ne_of_lt (hinv.entry dir nd hnd).lt
  have hdir : (removedDir s dir name nd).folders dir = (s.folders dir).setFoderMap
      (ChainTable.delete foderTable.streq djb2Bucket (s.folders dir).foderMap name).2 := by
    rw [removedDir, Fs.setMem_folders, Fs.modifyFolder_of_ne _ _ hne, Fs.modifyFolder_self]
  have hother : ∀ p, p ≠ dir → (removedDir s dir name nd).folders p = s.folders p ∨
      (removedDir s dir name nd).folders p = emptyTables (s.folders p) := by
    intro p hp
    rcases eq_or_ne p nd.value.ptr with rfl | hptr
    · rw [removedDir, Fs.setMem_folders, Fs.modifyFolder_self, Fs.modifyFolder_of_ne _ _ hp]
      exact Or.inr rfl
    · rw [removedDir, Fs.setMem_folders, Fs.modifyFolder_of_ne _ _ hptr, Fs.modifyFolder_of_ne _ _ hp]
      exact Or.inl rfl
  -- no entry of the name is left, so the freed folder and its entry are owned by no slot
  have hgone : ∀ nd' ∈ ((removedDir s dir name nd).folders dir).foderMap.nodes, nd'.key ≠ nd.key := by
    intro nd' hnd'
    rw [hdir] at hnd'
    exact key_ne_of_perm (hinv.foders dir) (nodes_delete_perm hfind) hnd'
  refine h.step (le_refl _) (fun _ => .object dir name) (fun a ha => ha)
    (fun slot a ha => Or.inl ?_) fun a ha => ?_
  · refine Owns.of_subset (fun p nd' hnd' => ?_) (fun p fd hfd => ?_) ha
    · rcases eq_or_ne p dir with rfl | hp
      · rw [hdir] at hnd'
        exact mem_nodes_delete hnd'
      · rcases hother p hp with heq | heq
        · rwa [heq] at hnd'
        · rw [heq] at hnd'
          exact absurd (nodes_empty ▸ hnd' : nd' ∈ []) List.not_mem_nil
    · rcases eq_or_ne p dir with rfl | hp
      · rwa [hdir] at hfd
      · rcases hother p hp with heq | heq
        · rwa [heq] at hfd
        · rw [heq] at hfd
          exact absurd (nodes_empty ▸ hfd : fd ∈ []) List.not_mem_nil
  · rcases List.mem_cons.1 ha with rfl | ha
    · refine Or.inr (Or.inl ⟨_, Owns.object hnd, fun hstill => ?_⟩)
      obtain ⟨nd', hnd', hkey⟩ := hstill.exists_object
      exact hgone nd' hnd' hkey
    rcases List.mem_cons.1 ha with rfl | ha
    · refine Or.inr (Or.inl ⟨_, Owns.entry hnd, fun hstill => ?_⟩)
      obtain ⟨nd', hnd', hkey⟩ := hstill.exists_entry
      exact hgone nd' hnd' hkey
    · exact Or.inl ha

theorem Sound.touched (h : Sound s) (dir : Ptr) (name : CString) (type : UInt8)
    (hgrants : s.mem.Grants 1) :
    Sound (putFiles s dir (pushNode djb2Bucket (s.folders dir).fileMap
      ⟨s.mem.next, name, ⟨name, type, 0, none, 0⟩⟩) (s.mem.skip 1)) := by
  have hnext : (s.mem.skip 1).next = s.mem.next + 1 := Memory.next_skip _ _
  refine h.step (hnext.symm ▸ Nat.le_succ _) (fun _ => .file dir name)
    (fun a ha => ha.mono rfl (Nat.le_add_right _ _)) (fun slot a ha => ?_) fun a ha => Or.inl ha
  rw [putFiles, Fs.setMem_mem, hnext]
  refine Owns.of_putFiles (Q := fun slot a => Owns s slot a ∨ (s.mem.next ≤ a ∧
    a < s.mem.next + 1 ∧ (s.mem.skip 1).HandedOut a ∧ slot = .file dir name))
    (fun _ _ => Or.inl) (fun fd hfd => ?_) ha
  rcases List.mem_cons.1 ((nodes_pushNode_perm _ _).mem_iff.1 hfd) with rfl | hfd
  · exact Or.inr ⟨Or.inr ⟨le_refl _, Nat.lt_succ_self _,
      hgrants.handedOut rfl rfl (le_refl _) (Nat.lt_succ_self _), rfl⟩, fun buf hbuf => by cases hbuf⟩
  · exact Or.inl hfd

theorem Sound.deleted (h : Sound s) (hinv : RamInv s) {nd : Node CString RamfsFileInfo}
    (hfind : findNode fileTable.streq djb2Bucket (s.folders dir).fileMap name = some nd) :
    Sound (putFiles s dir (ChainTable.delete fileTable.streq djb2Bucket (s.folders dir).fileMap name).2
      ((freeData s.mem nd.value).free nd.addr)) := by
  have hnd := mem_nodes_of_findNode hfind
  have hnext : ((freeData s.mem nd.value).free nd.addr).next = s.mem.next := next_freeData _ _
  have hgone : ∀ fd ∈ ((putFiles s dir (ChainTable.delete fileTable.streq djb2Bucket
      (s.folders dir).fileMap name).2 ((freeData s.mem nd.value).free nd.addr)).folders
        dir).fileMap.nodes, fd.key ≠ nd.key := by
    intro fd hfd
    rw [putFiles_fileMap] at hfd
    exact key_ne_of_perm (hinv.files dir) (nodes_delete_perm hfind) hfd
  refine h.step (le_of_eq hnext.symm) (fun _ => .file dir name)
    (fun a ha => ha.mono (grants_freeData _ _) (Nat.succ.inj (next_freeData _ _)).ge) (fun slot a ha => Or.inl ?_)
    fun a ha => ?_
  · exact Owns.of_putFiles (fun _ _ => id) (fun fd hfd => Or.inl (mem_nodes_delete hfd)) ha
  rcases List.mem_cons.1 ha with rfl | ha
  · refine Or.inr (Or.inl ⟨_, Owns.file hnd, fun hstill => ?_⟩)
    obtain ⟨fd, hfd, hkey⟩ := hstill.exists_file
    exact hgone fd hfd hkey
  rcases mem_freed_freeData ha with ha | ⟨buf, hbuf, rfl⟩
  · exact Or.inl ha
  · refine Or.inr (Or.inl ⟨_, Owns.data hnd hbuf, fun hstill => ?_⟩)
    obtain ⟨fd, hfd, hkey, -⟩ := hstill.exists_data
    exact hgone fd hfd hkey

theorem Sound.stored (h : Sound s) (hinv : RamInv s) {nd : Node CString RamfsFileInfo}
    {data : Option Buffer} (length : ℤ) {n : ℕ}
    (hfind : findNode fileTable.streq djb2Bucket (s.folders dir).fileMap name = some nd)
    (hdata : ∀ buf, data = some buf → buf.addr = s.mem.next ∧ n = 1 ∧ s.mem.Grants 1) :
    Sound (putFiles s dir (ramfsFileHashmapModify (s.folders dir).fileMap name (changeFile data length))
      ((freeData s.mem nd.value).skip n)) := by
  have hnd := mem_nodes_of_findNode hfind
  have hnext : ((freeData s.mem nd.value).skip n).next = s.mem.next + n := by
    rw [Memory.next_skip, next_freeData]
  obtain ⟨rest, hperm, hperm'⟩ := nodes_modify_perm hfind (changeFile data length)
  refine h.step (hnext.symm ▸ Nat.le_add_right _ _) (fun _ => .data dir nd.key)
    (fun a ha => ha.mono (grants_freeData _ _) ?_) (fun slot a ha => ?_) fun a ha => ?_
  · exact (Nat.succ.inj (next_freeData s.mem nd.value)).ge.trans (Nat.le_add_right _ n)
  · rw [putFiles, Fs.setMem_mem, hnext]
    refine Owns.of_putFiles (Q := fun slot a => Owns s slot a ∨ (s.mem.next ≤ a ∧
      a < s.mem.next + n ∧ ((freeData s.mem nd.value).skip n).HandedOut a ∧ slot = .data dir nd.key))
      (fun _ _ => Or.inl) (fun fd hfd => ?_) ha
    rcases List.mem_cons.1 (hperm'.mem_iff.1 hfd) with rfl | hfd
    · refine Or.inr ⟨Or.inl (show Owns s (.file dir nd.key) nd.addr from Owns.file hnd), fun buf hbuf => Or.inr ?_⟩
      obtain ⟨haddr, rfl, hgrants⟩ := hdata buf hbuf
      have hlt : buf.addr < s.mem.next + 1 := haddr ▸ Nat.lt_succ_self _
      refine ⟨haddr.ge, hlt, hgrants.handedOut (grants_freeData _ _) ?_ haddr.ge hlt, rfl⟩
      exact congrArg (· + 1) (Nat.succ.inj (next_freeData s.mem nd.value))
    · exact Or.inl (hperm.mem_iff.2 (List.mem_cons_of_mem _ hfd))
  rcases mem_freed_freeData ha with ha | ⟨buf, hbuf, rfl⟩
  · exact Or.inl ha
  -- the file now has the new buffer, of a later address, or none
  refine Or.inr (Or.inl ⟨_, Owns.data hnd hbuf, fun hstill => ?_⟩)
  obtain ⟨fd, hfd, hkey, buf', hbuf', haddr⟩ := hstill.exists_data
  rw [putFiles_fileMap] at hfd
  rcases List.mem_cons.1 (hperm'.mem_iff.1 hfd) with rfl | hfd
  · rw [(hdata buf' hbuf').1] at haddr
    exact absurd (h.owned_lt _ _ (Owns.data hnd hbuf)) (haddr ▸ lt_irrefl _)
  · exact key_ne_of_perm (hinv.files dir) hperm hfd hkey

/-- **Every effect but the loss of a buffer keeps the ledger sound.** -/
theorem Sound.effect (h : Sound s) (hinv : RamInv s) (hdir : dir < s.mem.next) {code : ℤ} {L : Prop}
    (hL : ¬L) (he : RamEffect s dir L code t) : Sound t := by
  cases he with
  | idle code n =>
    exact h.of_folders (Nat.le_add_right _ _) rfl rfl rfl
  | printed text => exact h.of_folders (le_refl _) rfl rfl rfl
  | made name hlen hfree hgrants => exact h.made hdir name hgrants
  | unmade name => exact h.unmade dir name
  | removed name nd hfind => exact h.removed hinv hfind
  | touched name hlen hfree hgrants => exact h.touched dir name RAMFS_TYPE_MEM hgrants
  | deleted name nd hfind => exact h.deleted hinv hfind
  | stored name nd data length n hfind hdata => exact h.stored hinv length hfind hdata
  | lost name nd buf hfind hbuf hlost => exact absurd hlost hL

end Effects

/-! ### Failing cleanly -/

/-- The directories, with their files and the bytes of these, and the working directory are as
before. What was not allocated before is no directory. -/
structure Unchanged (s t : Fs) : Prop where
  folders : ∀ p < s.mem.next, t.folders p = s.folders p
  currentDir : t.currentDir = s.currentDir
  currentPath : t.currentPath = s.currentPath

/-- Every file that has data has it in an allocation that was not released, and no other file has
its data in the same. -/
structure DataLive (s : Fs) : Prop where
  live : ∀ dir, ∀ fd ∈ (s.folders dir).fileMap.nodes, ∀ buf, fd.value.ptr = some buf →
    buf.addr < s.mem.next ∧ buf.addr ∉ s.mem.freed
  unshared : ∀ dir, ∀ fd ∈ (s.folders dir).fileMap.nodes, ∀ dir', ∀ fd' ∈ (s.folders dir').fileMap.nodes,
    ∀ buf buf', fd.value.ptr = some buf → fd'.value.ptr = some buf' → buf.addr = buf'.addr →
    dir = dir' ∧ fd.key = fd'.key

/-- A call that answers a negative code changes nothing. -/
def FailsCleanly (s : Fs) (op : FsOp) : Prop :=
  (fsCall s op).1 < 0 → Unchanged s (fsStep s op) ∧ DataLive (fsStep s op)

section Clean

variable {s t : Fs} {dir : Ptr} {op : FsOp}

theorem Sound.dataLive (h : Sound s) : DataLive s where
  live := fun _ _ hfd _ hbuf => ⟨h.owned_lt _ _ (Owns.data hfd hbuf), h.live _ _ (Owns.data hfd hbuf)⟩
  unshared := by
    intro dir fd hfd dir' fd' hfd' buf buf' hbuf hbuf' haddr
    have hslot := h.unshared _ _ _ (Owns.data hfd hbuf) (haddr ▸ Owns.data hfd' hbuf')
    rw [Slot.data.injEq] at hslot
    exact hslot

/-- No effect with a negative code changes a directory. -/
theorem RamEffect.unchanged {code : ℤ} {L : Prop} (he : RamEffect s dir L code t) (hcode : code < 0) :
    Unchanged s t := by
  cases he with
  | idle code n => exact ⟨fun _ _ => rfl, rfl, rfl⟩
  | unmade name =>
    refine ⟨fun p hp => ?_, rfl, rfl⟩
    rw [Fs.setMem_folders, Fs.setFolder_of_ne _ _ (Nat.ne_of_lt hp)]
  | lost name nd buf hfind hbuf hlost => exact ⟨fun _ _ => rfl, rfl, rfl⟩
  | _ => exact absurd hcode (lt_irrefl 0)

/-- The state after a `fs_write` that loses a buffer. -/
theorem writeIn_of_loses (h : RamInv s) {name : CString} {data : Data} {info : RamfsFileInfo}
    {buf : Buffer} (hfind : ramfsFileHashmapFind (s.folders dir).fileMap name = some info)
    (hbuf : info.ptr = some buf) (hlen : data.1.length ≠ 0)
    (hgrants : s.mem.grants s.mem.calls = false) :
    writeIn s dir name data = (-4, s.setMem ((s.mem.free buf.addr).skip 1)) := by
  have hmalloc : (freeData s.mem info).malloc data.1.length =
      (none, (s.mem.free buf.addr).skip 1) := by
    rw [freeData, hbuf, Memory.malloc_of_ne_zero _ hlen, Memory.grants_free, Memory.calls_free, hgrants]
    rfl
  rw [writeIn, h.lazyLoad]
  dsimp only
  rw [hfind]
  dsimp only
  rw [hmalloc, if_pos ⟨rfl, Nat.pos_of_ne_zero hlen⟩]

/-- The lost buffer is still in the table. -/
theorem not_failsCleanly_of_loses (h : RamInv s) (hloses : op.Loses s) : ¬FailsCleanly s op := by
  intro hclean
  cases op with
  | write name data path =>
    obtain ⟨dir, hdir, info, buf, hfind, hbuf, hlen, hgrants⟩ := hloses
    have hcall : fsCall s (.write name data path) =
        (-4, s.setMem ((s.mem.free buf.addr).skip 1)) := by
      rw [fsCall, fsWrite, hdir]
      exact writeIn_of_loses h hfind hbuf hlen hgrants
    obtain ⟨nd, hnode, rfl⟩ := exists_findNode_of_find hfind
    have hneg : (fsCall s (.write name data path)).1 < 0 := by
      rw [hcall]
      norm_num
    obtain ⟨-, hlive⟩ := hclean hneg
    rw [fsStep, hcall] at hlive
    exact (hlive.live dir nd (mem_nodes_of_findNode hnode) buf hbuf).2 List.mem_cons_self
  | _ => exact hloses

theorem Sound.step (h : Sound s) (hinv : RamInv s) (hop : op.InRam) (hkeeps : ¬op.Loses s) :
    Sound (fsStep s op) := by
  rcases hinv.call_cases hop with ⟨path, dir, -, heq⟩ | ⟨dir, hdir, heffect⟩
  · rw [fsStep, heq]
    exact h.of_folders (le_refl _) rfl rfl rfl
  · exact h.effect hinv hdir hkeeps heffect

/-- A call that answers a negative code leaves the directories as they were. -/
theorem RamInv.unchanged (h : RamInv s) (hop : op.InRam) (hneg : (fsCall s op).1 < 0) :
    Unchanged s (fsStep s op) := by
  rcases h.call_cases hop with ⟨path, dir, -, heq⟩ | ⟨dir, -, heffect⟩
  · rw [heq] at hneg
    exact absurd hneg (lt_irrefl 0)
  · exact heffect.unchanged hneg

/-- **One call.** -/
theorem failsCleanly_iff (hinv : RamInv s) (h : Sound s) (hop : op.InRam) :
    FailsCleanly s op ↔ ¬op.Loses s := by
  constructor
  · exact fun hclean hloses => not_failsCleanly_of_loses hinv hloses hclean
  · intro hkeeps hneg
    exact ⟨hinv.unchanged hop hneg, (h.step hinv hop hkeeps).dataLive⟩

end Clean

/-- After `fs_init` nothing is held and nothing was released. -/
theorem Sound.init (grants : ℕ → Bool) (store : Store) : Sound (initState ⟨grants, 0, []⟩ store) := by
  have hempty : ∀ p, ((initState ⟨grants, 0, []⟩ store).folders p).foderMap.nodes = [] ∧
      ((initState ⟨grants, 0, []⟩ store).folders p).fileMap.nodes = [] := by
    intro p
    rcases eq_or_ne p rootPtr with rfl | hne
    · exact ⟨nodes_empty, nodes_empty⟩
    · rw [initState_folder _ store hne]
      exact ⟨nodes_empty, nodes_empty⟩
  have hnone : ∀ slot a, ¬Owns (initState ⟨grants, 0, []⟩ store) slot a := by
    intro slot a ha
    cases ha with
    | entry hnd => exact List.not_mem_nil ((hempty _).1 ▸ hnd)
    | object hnd => exact List.not_mem_nil ((hempty _).1 ▸ hnd)
    | file hfd => exact List.not_mem_nil ((hempty _).2 ▸ hfd)
    | data hfd hbuf => exact List.not_mem_nil ((hempty _).2 ▸ hfd)
  exact ⟨fun a ha => absurd ha List.not_mem_nil, fun slot a ha => absurd ha (hnone slot a),
    fun slot a ha => absurd ha (hnone slot a), fun slot a ha => absurd ha (hnone slot a),
    fun slot _ a ha => absurd ha (hnone slot a)⟩

/-- A run of calls without a mount from `fs_init`, the paths of which fit their buffers, and which
does not remove the working directory. -/
structure RamRun (grants : ℕ → Bool) (store : Store) (ops : List FsOp) : Prop where
  inRam : ∀ op ∈ ops, op.InRam
  fits : Along fsStep (fun s op => op.PathsFit s ∧ op.Safe s) (initState ⟨grants, 0, []⟩ store) ops

/-- **When failed calls change nothing.** For every pattern of allocations and every run of calls
without a mount from `fs_init`: all calls of the run that answer a negative code change nothing if
and only if no call of the run is a `fs_write` that finds a file with a buffer, has bytes to store
and is refused a new buffer. -/
theorem failsCleanly_run_iff (grants : ℕ → Bool) (store : Store) (ops : List FsOp)
    (hrun : RamRun grants store ops) :
    Along fsStep FailsCleanly (initState ⟨grants, 0, []⟩ store) ops ↔
      Along fsStep (fun s op => ¬op.Loses s) (initState ⟨grants, 0, []⟩ store) ops := by
  refine Along.iff_of_mem (I := fun s => RamInv s ∧ Sound s) (fun s op hop h => ?_)
    (fun s op hop h hkeeps => ?_) hrun.inRam ⟨RamInv.init _ _, Sound.init grants store⟩
  · exact failsCleanly_iff h.1 h.2 hop
  · exact ⟨h.1.step hop, h.2.step h.1 hop hkeeps⟩

/-- A file is written, and written again. -/
def rewriteOps : List FsOp :=
  [.touch (.ofBytes [102]) none, .write (.ofBytes [102]) (Data.byte 120) none,
    .write (.ofBytes [102]) (Data.byte 121) none]

theorem rewriteOps_ramRun (grants : ℕ → Bool)
    (hfits : Along fsStep (fun s op => op.PathsFit s) (initState ⟨grants, 0, []⟩ noDisk) rewriteOps) :
    RamRun grants noDisk rewriteOps where
  inRam := by
    intro op hop
    fin_cases hop <;> trivial
  fits := hfits.and ⟨trivial, trivial, trivial, trivial⟩

/-- No allocation of the run fails. -/
theorem failsCleanly_run_rewrite :
    Along fsStep FailsCleanly (initState ⟨fun _ => true, 0, []⟩ noDisk) rewriteOps := by
  refine (failsCleanly_run_iff (fun _ => true) noDisk rewriteOps
    (rewriteOps_ramRun _ (by decide +kernel))).2 ⟨id, ?_, ?_, trivial⟩
  · rintro ⟨dir, -, info, buf, -, -, -, hgrants⟩
    exact absurd hgrants (by decide +kernel)
  · rintro ⟨dir, -, info, buf, -, -, -, hgrants⟩
    exact absurd hgrants (by decide +kernel)

/-- The third allocation fails: the second `fs_write` answers `-4`, and the file is left with the
buffer that was released. -/
theorem failedWrite_releases_data :
    ¬∀ (grants : ℕ → Bool) (store : Store) (ops : List FsOp), RamRun grants store ops →
      Along fsStep FailsCleanly (initState ⟨grants, 0, []⟩ store) ops := by
  intro hall
  have hrun := hall (fun n => decide (n < 2)) noDisk rewriteOps (rewriteOps_ramRun _ (by decide +kernel))
  obtain ⟨-, -, hclean, -⟩ := hrun
  obtain ⟨-, hlive⟩ := hclean (by decide +kernel)
  have hfreed : ((rewriteOps.foldl fsStep
      (initState ⟨fun n => decide (n < 2), 0, []⟩ noDisk)).folders rootPtr).fileMap.nodes.any
      (fun fd => fd.value.ptr.any fun buf => decide (buf.addr ∈ (rewriteOps.foldl fsStep
        (initState ⟨fun n => decide (n < 2), 0, []⟩ noDisk)).mem.freed)) = true := by
    decide +kernel
  obtain ⟨fd, hfd, hbuf⟩ := List.any_eq_true.1 hfreed
  obtain ⟨buf, hbuf, hmem⟩ := (Option.any_eq_true _ _).1 hbuf
  exact (hlive.live rootPtr fd hfd buf hbuf).2 (of_decide_eq_true hmem)

end LittleLinux
