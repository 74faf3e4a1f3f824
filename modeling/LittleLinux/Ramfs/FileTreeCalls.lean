import LittleLinux.Ramfs.FileTree

/-!
# The calls refine the tree

Each call, with any path and any `from`, answers and prints as `treeCall` says and leaves a state that holds the
next tree; so do the runs. What keeps a call from it is said by `TreeOp.Plain`, of the state the call is made
in: a path that goes up from the root, where the walk ends early; a file name that another one of the
directory shadows; and the removal of the working directory, which the code does not refuse.
-/

namespace LittleLinux

open ChainTable

/-! ### What the calls need -/

/-- No file of the directory is found in place of the name. -/
def ClearFile (s : Fs) (p : Ptr) (k : CString) : Prop := Unshadowed (s.folders p).fileMap k

instance (s : Fs) (p : Ptr) (k : CString) : Decidable (ClearFile s p k) :=
  inferInstanceAs (Decidable (Unshadowed _ k))

/-- The name stands for something in the directory, or no file is found in its place. -/
def ClearName (s : Fs) (p : Ptr) (k : CString) : Prop :=
  lookup djb2Bucket (s.folders p).foderMap k ≠ none ∨
    lookup djb2Bucket (s.folders p).fileMap k ≠ none ∨ ClearFile s p k

instance (s : Fs) (p : Ptr) (k : CString) : Decidable (ClearName s p k) :=
  inferInstanceAs (Decidable (_ ∨ _ ∨ _))

/-- The call has paths that stay below the root, and a file name that no stored one shadows, and does not
remove the working directory. -/
def TreeOp.Plain (s : Fs) : TreeOp → Prop
  | .mkdir name dir => PlainFrom s dir ∧ ∀ p ∈ fromDir s dir, ClearName s p name
  | .cd path => PlainPath s s.currentDir path
  | .rmdir name dir => PlainFrom s dir ∧
    ∀ p ∈ fromDir s dir, ∀ info ∈ lookup djb2Bucket (s.folders p).foderMap name, info.ptr ≠ s.currentDir
  | .touch name dir => PlainName s name dir ∧
    ∀ r ∈ (parsePath s name dir).toOption, ClearName s r.1 r.2
  | .write name _ dir | .cat name dir => PlainFrom s dir ∧ ∀ p ∈ fromDir s dir, ClearFile s p name
  | .backspace name _ dir | .rm name dir => PlainName s name dir ∧
    ∀ r ∈ (parsePath s name dir).toOption, ClearFile s r.1 r.2

instance (s : Fs) : ∀ op : TreeOp, Decidable (op.Plain s)
  | .mkdir _ _ => inferInstanceAs (Decidable (_ ∧ _))
  | .cd path => inferInstanceAs (Decidable (PlainPath s s.currentDir path))
  | .rmdir _ _ => inferInstanceAs (Decidable (_ ∧ _))
  | .touch _ _ => inferInstanceAs (Decidable (_ ∧ _))
  | .write _ _ _ => inferInstanceAs (Decidable (_ ∧ _))
  | .cat _ _ => inferInstanceAs (Decidable (_ ∧ _))
  | .backspace _ _ _ => inferInstanceAs (Decidable (_ ∧ _))
  | .rm _ _ => inferInstanceAs (Decidable (_ ∧ _))

/-! ### In one directory -/

/-- The call answers as the tree says, prints nothing, and leaves a state that holds the next tree. -/
structure Follows (s : Fs) (r : ℤ × Fs) (r' : ℤ × FileTree) : Prop where
  code : r.1 = r'.1
  out : r.2.out = s.out
  rel : TreeRel r.2 r'.2

section Directory

variable {s : Fs} {t : FileTree} {d : Trail} {p : Ptr} {k : CString}

theorem TreeRel.failed (h : TreeRel s t) (code : ℤ) : Follows s (code, s) (code, t) := ⟨rfl, rfl, h⟩

/-- No name stands for a directory and a file. -/
theorem RamInv.lookup_file (h : RamInv s) (hk : lookup djb2Bucket (s.folders p).foderMap k ≠ none) :
    lookup djb2Bucket (s.folders p).fileMap k = none := by
  obtain ⟨info, hinfo⟩ := Option.ne_none_iff_exists'.1 hk
  obtain ⟨nd, hnd, rfl, -⟩ := (lookup_eq_some_iff (h.foders p)).1 hinfo
  exact (lookup_eq_none_iff (h.files p)).2 fun fd hfd heq => h.apart p nd hnd fd hfd heq.symm

theorem TreeRel.entry_of_foder (h : TreeRel s t) (hd : dirAt s.folders d = some p) {info : RamfsFoderInfo}
    (hk : lookup djb2Bucket (s.folders p).foderMap k = some info) : t.entry (k :: d) = some .dir := by
  rw [h.entry, hd, Option.bind_some, hk]
  rfl

theorem TreeRel.entry_of_file (h : TreeRel s t) (hd : dirAt s.folders d = some p) {info : RamfsFileInfo}
    (hk : lookup djb2Bucket (s.folders p).fileMap k = some info) :
    t.entry (k :: d) = some (.file (fileBytes info)) ∧
      lookup djb2Bucket (s.folders p).foderMap k = none := by
  have hfoder : lookup djb2Bucket (s.folders p).foderMap k = none := by
    by_contra hne
    rw [h.ram.lookup_file hne] at hk
    exact absurd hk (by simp)
  refine ⟨?_, hfoder⟩
  rw [h.entry, hd, Option.bind_some, hfoder, hk]
  rfl

theorem TreeRel.entry_of_none (h : TreeRel s t) (hd : dirAt s.folders d = some p)
    (hfoder : lookup djb2Bucket (s.folders p).foderMap k = none)
    (hfile : lookup djb2Bucket (s.folders p).fileMap k = none) : t.entry (k :: d) = none := by
  rw [h.entry, hd, Option.bind_some, hfoder, hfile]
  rfl

/-- Without a file of the name the tree has no file there. -/
theorem TreeRel.change_of_no_file (h : TreeRel s t) (hd : dirAt s.folders d = some p)
    (hk : lookup djb2Bucket (s.folders p).fileMap k = none)
    (f : List UInt8 → Except ℤ (Option Entry)) : t.change d k f = (-3, t) := by
  rw [FileTree.change.eq_def, h.entry, hd, Option.bind_some, hk]
  cases lookup djb2Bucket (s.folders p).foderMap k with
  | none => rfl
  | some info => rfl

/-- **The file table** of the directory is replaced. -/
theorem TreeRel.putFiles (h : TreeRel s t) (hd : dirAt s.folders d = some p) {map : RamfsFileHashmap}
    {mem : Memory} (hram : RamInv (putFiles s p map mem)) (hmem : mem.Unfailing)
    {o : Option RamfsFileInfo}
    (hlook : ∀ k', lookup djb2Bucket map k' =
      if k' = k then o else lookup djb2Bucket (s.folders p).fileMap k')
    (hok : ∀ info, o = some info → FileOk info)
    (hfree : lookup djb2Bucket (s.folders p).foderMap k = none) :
    Follows s (0, LittleLinux.putFiles s p map mem)
      (0, t.set d k (o.map fun info => .file (fileBytes info))) := by
  have hself : (LittleLinux.putFiles s p map mem).folders p = (s.folders p).setFileMap map := by
    rw [putFiles_folder]
    exact markDirty_of_mem (h.ram.plain p).1
  have hother : ∀ q, q ≠ p → (LittleLinux.putFiles s p map mem).folders q = s.folders q := fun q hq => by
    rw [LittleLinux.putFiles, Fs.setMem_folders, Fs.modifyFolder_of_ne _ _ hq]
  have hboth : ∀ q, ((LittleLinux.putFiles s p map mem).folders q).parent = (s.folders q).parent ∧
      ((LittleLinux.putFiles s p map mem).folders q).foderMap = (s.folders q).foderMap := fun q => by
    rcases eq_or_ne q p with rfl | hq
    · rw [hself]
      exact ⟨rfl, rfl⟩
    · rw [hother q hq]
      exact ⟨rfl, rfl⟩
  refine ⟨rfl, rfl, h.setFile hd hram hmem rfl (fun q => (hboth q).1) (fun q => (hboth q).2)
    (fun q hq => by rw [hother q hq]) (fun k' => ?_) hok hfree⟩
  rw [hself]
  exact hlook k'

/-- Where `fs_mkdir` and `fs_touch` find a file, there is one of that name. -/
theorem ClearName.exists_file (hclear : ClearName s p k) {info : RamfsFileInfo}
    (hfoder : lookup djb2Bucket (s.folders p).foderMap k = none)
    (hfile : ramfsFileHashmapFind (s.folders p).fileMap k = some info) :
    ∃ info', lookup djb2Bucket (s.folders p).fileMap k = some info' := by
  rcases hclear with hne | hne | hun
  · exact absurd hfoder hne
  · exact Option.ne_none_iff_exists'.1 hne
  · exact ⟨info, by rw [← ramfsFileHashmapFind_eq_lookup hun, hfile]⟩

/-- Where they find none, there is none. -/
theorem RamInv.lookup_of_find_none (h : RamInv s)
    (hfile : ramfsFileHashmapFind (s.folders p).fileMap k = none) :
    lookup djb2Bucket (s.folders p).fileMap k = none := by
  by_contra hne
  exact NamedTable.find_ne_none (h.files p) (fileStreq_self k) hne hfile

theorem unfailing_skip {mem : Memory} (hm : mem.Unfailing) (n : ℕ) : (mem.skip n).Unfailing :=
  fun i => hm i

/-- Where the name is free and memory is granted, `fs_mkdir` makes the directory. -/
theorem RamInv.mkdirIn_of_nameFree (h : RamInv s) (hm : s.mem.Unfailing) (hp : p < s.mem.next)
    (hlen : k.chars.length ≤ 127) (hfree : NameFree s p k) :
    LittleLinux.mkdirIn s p k = (0, LittleLinux.madeDir s p k) := by
  obtain ⟨hfoder, hfile⟩ := hfree
  have hcode : (LittleLinux.mkdirIn s p k).1 = 0 := by
    rw [LittleLinux.mkdirIn, h.lazyLoad]
    dsimp only
    rw [hfoder, hfile, if_neg (by simp), if_neg (by simp), hm.malloc_isSome (by decide)]
    dsimp only
    rw [Fs.setFolder_of_ne _ _ (Nat.ne_of_lt hp), Fs.setFolder_mem, Fs.setMem_mem, Fs.setMem_folders,
      ramfsHashmapInsert, foderTable.insert_granted (by decide) hlen hfoder (hm.malloc _ _), if_pos rfl]
  rcases h.mkdirIn_outcome hp hlen with ⟨code, n, hne, heq⟩ | ⟨-, -, heq⟩ | heq
  · rw [heq] at hcode
    exact absurd hcode hne
  · exact heq
  · rw [heq] at hcode
    exact absurd hcode (by norm_num)

/-- The new state holds the new directory. -/
theorem TreeRel.madeDir (h : TreeRel s t) (hd : dirAt s.folders d = some p) (hram : RamInv (LittleLinux.madeDir s p k))
    (hfoder : lookup djb2Bucket (s.folders p).foderMap k = none)
    (hfile : lookup djb2Bucket (s.folders p).fileMap k = none) :
    TreeRel (LittleLinux.madeDir s p k) (t.set d k (some .dir)) := by
  have hlt := h.ram.dirAt_lt hd
  have hpn : p ≠ s.mem.next := Nat.ne_of_lt hlt
  -- three kinds of folder: the new one, its parent, and those that stay as they are
  have hnew : (LittleLinux.madeDir s p k).folders s.mem.next = newDirNode s p k := by
    rw [LittleLinux.madeDir, Fs.setMem_folders, Fs.modifyFolder_of_ne _ _ hpn.symm, Fs.setFolder_self]
  have hself : (LittleLinux.madeDir s p k).folders p = (s.folders p).setFoderMap
      (pushNode djb2Bucket (s.folders p).foderMap
        ⟨s.mem.next + 1, k, ⟨k, (newDirNode s p k).type, s.mem.next, 0⟩⟩) := by
    rw [LittleLinux.madeDir, Fs.setMem_folders, Fs.modifyFolder_self, Fs.setFolder_of_ne _ _ hpn]
  have hother : ∀ q, q ≠ s.mem.next → q ≠ p → (LittleLinux.madeDir s p k).folders q = s.folders q := by
    intro q hq hqp
    rw [LittleLinux.madeDir, Fs.setMem_folders, Fs.modifyFolder_of_ne _ _ hqp, Fs.setFolder_of_ne _ _ hq]
  have hfiles : ∀ q, q ≠ s.mem.next →
      ((LittleLinux.madeDir s p k).folders q).fileMap = (s.folders q).fileMap := by
    intro q hq
    rcases eq_or_ne q p with rfl | hqp
    · rw [hself]
      rfl
    · rw [hother q hq hqp]
  have hold : ∀ {e q}, dirAt s.folders e = some q → q ≠ s.mem.next := fun he =>
    Nat.ne_of_lt (h.ram.dirAt_lt he)
  have hnone : dirAt s.folders (k :: d) = none := by
    rw [dirAt_cons, hd, Option.bind_some, hfoder, Option.map_none]
  have hrootnew : rootPtr ≠ s.mem.next := Nat.ne_of_lt (Nat.succ_pos _)
  refine h.setFoder (o := some ⟨k, (newDirNode s p k).type, s.mem.next, 0⟩) hd hram
    (unfailing_skip h.mem 2) rfl ?_ (fun q k' info hinfo => ?_) (fun e q _ he => hfiles q (hold he))
    (fun e q _ he hqp => by rw [hother q (hold he) hqp]) (fun k' => ?_) (fun j => ?_) (fun info hinfo => ?_)
    hfile fun heq => ?_
  · rcases eq_or_ne rootPtr p with heq | hqp
    · rw [heq, hself]
      rfl
    · rw [hother rootPtr hrootnew hqp]
  · rcases eq_or_ne q s.mem.next with rfl | hq
    · rw [hnew, show (newDirNode s p k).fileMap = Table.empty from rfl, lookup_empty] at hinfo
      exact absurd hinfo (by simp)
    · rw [hfiles q hq] at hinfo
      exact h.fileOk q k' info hinfo
  · rw [hself]
    exact lookup_pushNode _ k'
  · rw [h.entry, hnone, Option.bind_none]
  · obtain rfl := Option.some.inj hinfo
    rw [hnew]
    exact ⟨rfl, rfl⟩
  -- the new path led nowhere before, so the working directory is another
  · have hsome := h.cwd
    rw [heq, hnone] at hsome
    exact absurd hsome (by simp)

theorem TreeRel.mkdirIn (h : TreeRel s t) (hd : dirAt s.folders d = some p) (hclear : ClearName s p k)
    (hlen : k.chars.length ≤ 127) : Follows s (mkdirIn s p k) (t.make d k .dir) := by
  have hlt := h.ram.dirAt_lt hd
  have hram : RamInv (LittleLinux.mkdirIn s p k).2 :=
    h.ram.effect hlt (L := False) (h.ram.mkdirIn hlt hlen)
  cases hfoder : lookup djb2Bucket (s.folders p).foderMap k with
  | some info =>
    have hcall : LittleLinux.mkdirIn s p k = (-3, s) := by
      rw [LittleLinux.mkdirIn, h.ram.lazyLoad, ramfsHashmapFind_eq_lookup, hfoder]
      rfl
    rw [hcall, FileTree.make.eq_def, h.entry_of_foder hd hfoder]
    exact h.failed (-3)
  | none =>
    cases hfile : ramfsFileHashmapFind (s.folders p).fileMap k with
    | some info =>
      have hcall : LittleLinux.mkdirIn s p k = (-4, s) := by
        rw [LittleLinux.mkdirIn, h.ram.lazyLoad, ramfsHashmapFind_eq_lookup, hfoder, hfile]
        rfl
      obtain ⟨info', hinfo'⟩ := hclear.exists_file hfoder hfile
      rw [hcall, FileTree.make.eq_def, (h.entry_of_file hd hinfo').1]
      exact h.failed (-4)
    | none =>
      have hnone := h.ram.lookup_of_find_none hfile
      have hfind : ramfsHashmapFind (s.folders p).foderMap k = none := by
        rw [ramfsHashmapFind_eq_lookup, hfoder]
      have hcall := h.ram.mkdirIn_of_nameFree h.mem hlt hlen ⟨hfind, hfile⟩
      rw [hcall] at hram ⊢
      rw [FileTree.make.eq_def, h.entry_of_none hd hfoder hnone]
      exact ⟨rfl, rfl, h.madeDir hd hram hfoder hnone⟩

theorem TreeRel.touchIn (h : TreeRel s t) (hd : dirAt s.folders d = some p) (hclear : ClearName s p k)
    (hlen : k.chars.length ≤ 127) : Follows s (touchIn s p k) (t.make d k (.file [])) := by
  have hlt := h.ram.dirAt_lt hd
  have hram : RamInv (LittleLinux.touchIn s p k).2 :=
    h.ram.effect hlt (L := False) (h.ram.touchIn hlen)
  -- a directory of the name, a file of the name, or neither
  cases hfoder : lookup djb2Bucket (s.folders p).foderMap k with
  | some info =>
    have hcall : LittleLinux.touchIn s p k = (-3, s) := by
      rw [LittleLinux.touchIn, h.ram.lazyLoad, ramfsHashmapFind_eq_lookup, hfoder]
      rfl
    rw [hcall, FileTree.make.eq_def, h.entry_of_foder hd hfoder]
    exact h.failed (-3)
  | none =>
    cases hfile : ramfsFileHashmapFind (s.folders p).fileMap k with
    | some info =>
      have hcall : LittleLinux.touchIn s p k = (-4, s) := by
        rw [LittleLinux.touchIn, h.ram.lazyLoad, ramfsHashmapFind_eq_lookup, hfoder, hfile]
        rfl
      obtain ⟨info', hinfo'⟩ := hclear.exists_file hfoder hfile
      rw [hcall, FileTree.make.eq_def, (h.entry_of_file hd hinfo').1]
      exact h.failed (-4)
    | none =>
      have hnone := h.ram.lookup_of_find_none hfile
      have hcall : LittleLinux.touchIn s p k = (0, LittleLinux.putFiles s p
          (pushNode djb2Bucket (s.folders p).fileMap ⟨s.mem.next, k, ⟨k, RAMFS_TYPE_MEM, 0, none, 0⟩⟩)
          (s.mem.skip 1)) := by
        rw [LittleLinux.touchIn, h.ram.lazyLoad]
        dsimp only
        rw [ramfsHashmapFind_eq_lookup, hfoder, hfile, if_neg (by simp), if_neg (by simp),
          if_pos (h.ram.plain p).2, ramfsFileHashmapInsert,
          fileTable.insert_granted (by decide) hlen hfile (h.mem _), if_pos rfl]
        rfl
      rw [hcall] at hram ⊢
      rw [FileTree.make.eq_def, h.entry_of_none hd hfoder hnone]
      refine h.putFiles (o := some ⟨k, RAMFS_TYPE_MEM, 0, none, 0⟩) hd hram (unfailing_skip h.mem 1)
        (fun k' => lookup_pushNode _ k') (fun info hinfo => ?_) hfoder
      obtain rfl := Option.some.inj hinfo
      exact ⟨rfl, show (0 : ℕ) < 2 ^ 32 by decide⟩

/-- `fs_rm`. -/
theorem TreeRel.rmIn (h : TreeRel s t) (hd : dirAt s.folders d = some p) (hclear : ClearFile s p k) :
    Follows s (rmIn s p k) (t.change d k fun _ => .ok none) := by
  have hlt := h.ram.dirAt_lt hd
  have hram : RamInv (LittleLinux.rmIn s p k).2 := h.ram.effect hlt (L := False) h.ram.rmIn
  have hfind := ramfsFileHashmapFind_eq_lookup hclear
  cases hfile : lookup djb2Bucket (s.folders p).fileMap k with
  | none =>
    have hcall : LittleLinux.rmIn s p k = (-3, s) := by
      rw [LittleLinux.rmIn, h.ram.lazyLoad]
      dsimp only
      rw [hfind, hfile]
    rw [hcall, h.change_of_no_file hd hfile]
    exact h.failed (-3)
  | some info =>
    obtain ⟨hentry, hfoder⟩ := h.entry_of_file hd hfile
    have he := (fileTable_exactAt_iff _ _).2 hclear
    have hdel : (ramfsFileHashmapDelete (freeData s.mem info) (s.folders p).fileMap k).1 = true := by
      refine (delete_fst (h.ram.files p) he).trans ?_
      rw [hfile]
      rfl
    have hcall : LittleLinux.rmIn s p k = (0, LittleLinux.putFiles s p
        (ramfsFileHashmapDelete (freeData s.mem info) (s.folders p).fileMap k).2.1
        (ramfsFileHashmapDelete (freeData s.mem info) (s.folders p).fileMap k).2.2) := by
      rw [LittleLinux.rmIn, h.ram.lazyLoad]
      dsimp only
      rw [hfind, hfile]
      dsimp only
      rw [if_pos hdel]
      rfl
    rw [hcall] at hram ⊢
    rw [FileTree.change.eq_def, hentry]
    exact h.putFiles (o := none) hd hram (unfailing_delete _ _ _ (unfailing_freeData info h.mem))
      (fun k' => lookup_delete (h.ram.files p) he k') (fun info hinfo => absurd hinfo (by simp)) hfoder

/-- New contents for a file that is there. -/
theorem TreeRel.modify (h : TreeRel s t) (hd : dirAt s.folders d = some p) (hclear : ClearFile s p k)
    {info : RamfsFileInfo} (hfile : lookup djb2Bucket (s.folders p).fileMap k = some info)
    {mem : Memory} (hmem : mem.Unfailing) {g : RamfsFileInfo → RamfsFileInfo} (hok : FileOk (g info))
    (hram : RamInv (LittleLinux.putFiles s p (ramfsFileHashmapModify (s.folders p).fileMap k g) mem)) :
    Follows s (0, LittleLinux.putFiles s p (ramfsFileHashmapModify (s.folders p).fileMap k g) mem)
      (0, t.set d k (some (.file (fileBytes (g info))))) := by
  have he := (fileTable_exactAt_iff _ _).2 hclear
  refine h.putFiles (o := some (g info)) hd hram hmem (fun k' => ?_) (fun info' hinfo => ?_)
    (h.entry_of_file hd hfile).2
  · refine (lookup_modify (h.ram.files p) he g k').trans ?_
    rw [hfile]
    rfl
  · obtain rfl := Option.some.inj hinfo
    exact hok

/-- The bytes that `fs_write` and `fs_backspace` leave. -/
theorem fileBytes_changeFile (bytes : List UInt8) (buf : Option Buffer) (info : RamfsFileInfo)
    (hbuf : buf = none ∧ bytes = [] ∨ ∃ a old, buf = some ⟨a, old⟩ ∧ old.take bytes.length = bytes) :
    fileBytes (changeFile buf bytes.length info) = bytes := by
  rcases hbuf with ⟨rfl, rfl⟩ | ⟨a, old, rfl, hold⟩
  · rfl
  · rw [fileBytes, changeFile, Int.toNat_natCast]
    exact hold

/-- `fs_write`. -/
theorem TreeRel.writeIn (h : TreeRel s t) (hd : dirAt s.folders d = some p) (hclear : ClearFile s p k)
    (data : Data) :
    Follows s (writeIn s p k data) (t.change d k fun _ => .ok (some (.file data.1))) := by
  have hlt := h.ram.dirAt_lt hd
  have hram : RamInv (LittleLinux.writeIn s p k data).2 :=
    h.ram.effect hlt (h.ram.writeIn p k data)
  have hfind := ramfsFileHashmapFind_eq_lookup hclear
  cases hfile : lookup djb2Bucket (s.folders p).fileMap k with
  | none =>
    have hcall : LittleLinux.writeIn s p k data = (-3, s) := by
      rw [LittleLinux.writeIn, h.ram.lazyLoad]
      dsimp only
      rw [hfind, hfile]
    rw [hcall, h.change_of_no_file hd hfile]
    exact h.failed (-3)
  | some info =>
    obtain ⟨buf, mem, hmem, hbuf, hcall⟩ : ∃ (buf : Option Buffer) (mem : Memory), mem.Unfailing ∧
        (buf = none ∧ data.1 = [] ∨ ∃ a old, buf = some ⟨a, old⟩ ∧ old.take data.1.length = data.1) ∧
        LittleLinux.writeIn s p k data = (0, LittleLinux.putFiles s p
          (ramfsFileHashmapModify (s.folders p).fileMap k (changeFile buf data.1.length)) mem) := by
      have hfree := unfailing_freeData info h.mem
      rw [LittleLinux.writeIn, h.ram.lazyLoad]
      dsimp only
      rw [hfind, hfile]
      dsimp only
      by_cases hlen : data.1.length = 0
      · -- nothing is allocated for no bytes
        refine ⟨none, freeData s.mem info, hfree, Or.inl ⟨rfl, List.length_eq_zero_iff.1 hlen⟩, ?_⟩
        rw [Memory.malloc, if_pos hlen, if_neg (by omega), modifyFile_markDirty]
        rfl
      · refine ⟨some ⟨(freeData s.mem info).next, data.1⟩, ((freeData s.mem info).malloc data.1.length).2,
          hfree.malloc _, Or.inr ⟨_, _, rfl, List.take_length⟩, ?_⟩
        rw [hfree.malloc_isSome hlen, if_neg (by simp), modifyFile_markDirty]
        rfl
    have hbytes := fileBytes_changeFile data.1 buf info hbuf
    rw [hcall] at hram ⊢
    rw [FileTree.change.eq_def, (h.entry_of_file hd hfile).1]
    have hmodify := h.modify (g := changeFile buf data.1.length) hd hclear hfile hmem
      ⟨by rw [hbytes]; rfl, hbytes.symm ▸ data.2⟩ hram
    rw [hbytes] at hmodify
    exact hmodify

/-- `fs_cat`. -/
theorem TreeRel.catIn (h : TreeRel s t) (hd : dirAt s.folders d = some p) (hclear : ClearFile s p k) :
    catIn s p k = ((t.print d k).1, s.print (t.print d k).2) := by
  have hfind := ramfsFileHashmapFind_eq_lookup hclear
  have hprint : s = s.print [] := by rw [Fs.print, List.append_nil]
  rw [LittleLinux.catIn, h.ram.lazyLoad, FileTree.print.eq_def]
  dsimp only
  rw [hfind]
  cases hfile : lookup djb2Bucket (s.folders p).fileMap k with
  | none =>
    rw [h.entry, hd, Option.bind_some, hfile]
    cases lookup djb2Bucket (s.folders p).foderMap k with
    | none => exact congrArg (Prod.mk (-3)) hprint
    | some info => exact congrArg (Prod.mk (-3)) hprint
  | some info =>
    rw [(h.entry_of_file hd hfile).1]
    dsimp only
    rw [h.ram.loadData, if_neg (by simp)]
    dsimp only
    rw [hfind, hfile, fileBytes.eq_def]
    dsimp only
    cases info.ptr with
    | none => exact congrArg (Prod.mk 0) hprint
    | some buf => rfl

/-- `fs_backspace`. -/
theorem TreeRel.backspaceIn (h : TreeRel s t) (hd : dirAt s.folders d = some p) (hclear : ClearFile s p k)
    {count : ℤ} (hpos : 0 < count) (hint : count < 2 ^ 31) :
    Follows s (backspaceIn s p k count) (t.change d k fun bytes =>
      if bytes = [] then .error (-5)
      else .ok (some (.file (bytes.take (bytes.length - count.toNat))))) := by
  have hlt := h.ram.dirAt_lt hd
  have hram : RamInv (LittleLinux.backspaceIn s p k count).2 :=
    h.ram.effect hlt (L := False) (h.ram.backspaceIn count)
  have hfind := ramfsFileHashmapFind_eq_lookup hclear
  cases hfile : lookup djb2Bucket (s.folders p).fileMap k with
  | none =>
    have hcall : LittleLinux.backspaceIn s p k count = (-3, s) := by
      rw [LittleLinux.backspaceIn, h.ram.lazyLoad]
      dsimp only
      rw [hfind, hfile]
    rw [hcall, h.change_of_no_file hd hfile]
    exact h.failed (-3)
  | some info =>
    obtain ⟨hlen, hshort⟩ := h.fileOk p k info hfile
    have hcut : LittleLinux.backspaceIn s p k count = cutFile s p k info count := by
      rw [LittleLinux.backspaceIn, h.ram.lazyLoad]
      dsimp only
      rw [hfind, hfile]
      dsimp only
      rw [h.ram.loadData, if_neg (by simp)]
      dsimp only
      rw [hfind, hfile]
    rw [FileTree.change.eq_def, (h.entry_of_file hd hfile).1]
    dsimp only
    rw [hcut] at hram ⊢
    rw [cutFile] at hram ⊢
    by_cases hnil : fileBytes info = []
    · have hzero : info.length = 0 := by rw [hlen, hnil]; rfl
      rw [if_pos hzero, if_pos hnil]
      exact h.failed (-5)
    have hne : info.length ≠ 0 := by
      rw [hlen]
      exact_mod_cast (List.length_pos_of_ne_nil hnil).ne'
    rw [if_neg hne] at hram ⊢
    rw [if_neg hnil]
    dsimp only at hram ⊢
    have hnew : toU32 (info.length - (if count > info.length then toI32 info.length else count)) =
        (fileBytes info).length - count.toNat := by
      have hsub := toU32_sub_count hshort ⟨count.toNat, by omega, by omega⟩
      dsimp only at hsub
      rwa [← hlen, Int.toNat_of_nonneg hpos.le] at hsub
    rw [hnew] at hram ⊢
    have hle := Nat.sub_le (fileBytes info).length count.toNat
    generalize (fileBytes info).length - count.toNat = n at hram hle ⊢
    have htake : ((fileBytes info).take n).length = n := by rw [List.length_take, min_eq_left hle]
    have hfinish : ∀ (buf : Option Buffer) (mem : Memory), mem.Unfailing →
        RamInv (LittleLinux.putFiles s p
          (ramfsFileHashmapModify (s.folders p).fileMap k (changeFile buf n)) mem) →
        (buf = none ∧ (fileBytes info).take n = [] ∨ ∃ a old, buf = some ⟨a, old⟩ ∧
          old.take ((fileBytes info).take n).length = (fileBytes info).take n) →
        Follows s (0, LittleLinux.putFiles s p
            (ramfsFileHashmapModify (s.folders p).fileMap k (changeFile buf n)) mem)
          (0, t.set d k (some (.file ((fileBytes info).take n)))) := by
      intro buf mem hmem hram hbuf
      have hbytes := fileBytes_changeFile ((fileBytes info).take n) buf info hbuf
      rw [htake] at hbytes
      have hmodify := h.modify (g := changeFile buf n) hd hclear hfile hmem
        ⟨by rw [hbytes, htake]; rfl, by rw [hbytes, htake]; exact hle.trans_lt hshort⟩ hram
      rwa [hbytes] at hmodify
    by_cases hzero : n = 0
    · rw [if_pos hzero, modifyFile_markDirty] at hram ⊢
      subst hzero
      exact hfinish none _ (unfailing_freeData info h.mem) hram (Or.inl ⟨rfl, List.take_zero⟩)
    · rw [if_neg hzero, h.mem.malloc_isSome hzero] at hram ⊢
      dsimp only at hram ⊢
      rw [modifyFile_markDirty] at hram ⊢
      refine hfinish (some ⟨s.mem.next, _⟩) _ (unfailing_freeData info (h.mem.malloc n)) hram
        (Or.inr ⟨_, _, rfl, ?_⟩)
      -- the new buffer holds what is left of the old one
      rw [htake, fileBytes.eq_def]
      cases info.ptr with
      | none => rfl
      | some buf =>
        have hn : n ≤ info.length.toNat := by
          rw [hlen, Int.toNat_natCast]
          exact hle
        dsimp only
        rw [List.take_take, List.take_take, min_self, min_eq_left hn]

/-- The directory is empty in the tree exactly when both its tables count nothing. -/
theorem TreeRel.isEmpty_iff (h : TreeRel s t) (hd : dirAt s.folders d = some p) :
    t.IsEmpty d ↔ (s.folders p).foderMap.count = 0 ∧ (s.folders p).fileMap.count = 0 := by
  have hentry : ∀ k, t.entry (k :: d) = none ↔
      lookup djb2Bucket (s.folders p).foderMap k = none ∧
        lookup djb2Bucket (s.folders p).fileMap k = none := by
    intro k
    rw [h.entry, hd, Option.bind_some]
    cases lookup djb2Bucket (s.folders p).foderMap k with
    | some info => exact iff_of_false (by simp [entryOf]) (by simp)
    | none =>
      cases lookup djb2Bucket (s.folders p).fileMap k with
      | some info => exact iff_of_false (by simp [entryOf]) (by simp)
      | none => exact iff_of_true rfl ⟨rfl, rfl⟩
  have hfoders := h.ram.foders p
  have hfiles := h.ram.files p
  constructor
  · intro hempty
    have hnofoder : (s.folders p).foderMap.nodes = [] := List.eq_nil_iff_forall_not_mem.2 fun nd hnd =>
      (lookup_eq_none_iff hfoders).1 ((hentry nd.key).1 (hempty nd.key)).1 nd hnd rfl
    have hnofile : (s.folders p).fileMap.nodes = [] := List.eq_nil_iff_forall_not_mem.2 fun nd hnd =>
      (lookup_eq_none_iff hfiles).1 ((hentry nd.key).1 (hempty nd.key)).2 nd hnd rfl
    rw [hfoders.count_eq, hfiles.count_eq, hnofoder, hnofile]
    exact ⟨rfl, rfl⟩
  · rintro ⟨hfoder, hfile⟩ k
    have hnofoder := Counted.nodes_eq_nil hfoders.count_eq hfoder
    have hnofile := Counted.nodes_eq_nil hfiles.count_eq hfile
    refine (hentry k).2 ⟨(lookup_eq_none_iff hfoders).2 fun nd hnd => ?_,
      (lookup_eq_none_iff hfiles).2 fun nd hnd => ?_⟩
    · rw [hnofoder] at hnd
      exact absurd hnd List.not_mem_nil
    · rw [hnofile] at hnd
      exact absurd hnd List.not_mem_nil

/-- `fs_rmdir`. -/
theorem TreeRel.rmdirIn (h : TreeRel s t) (hd : dirAt s.folders d = some p)
    (hwork : ∀ info ∈ lookup djb2Bucket (s.folders p).foderMap k, info.ptr ≠ s.currentDir) :
    Follows s (rmdirIn s p k) (t.removeDir d k) := by
  have hlt := h.ram.dirAt_lt hd
  have hram : RamInv (LittleLinux.rmdirIn s p k).2 := h.ram.effect hlt (L := False) h.ram.rmdirIn
  rw [LittleLinux.rmdirIn] at hram ⊢
  dsimp only at hram ⊢
  rw [h.ram.lazyLoad, ramfsHashmapFind_eq_lookup] at hram ⊢
  cases hinfo : lookup djb2Bucket (s.folders p).foderMap k with
  | none =>
    have hentry : t.entry (k :: d) ≠ some .dir := fun hdir => (h.entry_eq_dir_iff hd).1 hdir hinfo
    rw [FileTree.removeDir, if_pos hentry]
    exact h.failed (-3)
  | some info =>
    rw [hinfo] at hram
    dsimp only at hram ⊢
    -- the name leads to a folder: the source asks both of its tables for entries, the tree for the paths
    -- below it
    have htarget : dirAt s.folders (k :: d) = some info.ptr := by
      rw [dirAt_cons, hd, Option.bind_some, hinfo, Option.map_some]
    rw [FileTree.removeDir, if_neg (not_not.2 (h.entry_of_foder hd hinfo))]
    by_cases hcount : (s.folders info.ptr).foderMap.count ≠ 0 ∨ (s.folders info.ptr).fileMap.count ≠ 0
    · have hfull : ¬t.IsEmpty (k :: d) := fun hempty => by
        rw [h.isEmpty_iff htarget] at hempty
        exact hcount.elim (fun hne => hne hempty.1) fun hne => hne hempty.2
      rw [if_pos hcount, if_neg hfull]
      exact h.failed (-4)
    rw [if_neg hcount] at hram ⊢
    rw [not_or, not_not, not_not, ← h.isEmpty_iff htarget] at hcount
    rw [if_pos hcount]
    have he := foderTable_exactAt (s.folders p).foderMap k
    have hne : info.ptr ≠ p := (Nat.ne_of_lt (h.ram.lookup_foder hinfo).2.2.1).symm
    have hfile : lookup djb2Bucket (s.folders p).fileMap k = none :=
      h.ram.lookup_file (hinfo ▸ Option.some_ne_none info)
    have hcwd : t.cwd ≠ k :: d := fun heq => by
      have hsome := h.cwd
      rw [heq, htarget] at hsome
      exact hwork info hinfo (Option.some.inj hsome)
    refine ⟨rfl, rfl, ?_⟩
    generalize hs' : Fs.modifyFolder _ p markDirty = s' at hram ⊢
    have hself : s'.folders p = (s.folders p).setFoderMap
        (ramfsHashmapDelete s.mem (s.folders p).foderMap k).2.1 := by
      rw [← hs', Fs.modifyFolder_self, Fs.setMem_folders, Fs.modifyFolder_of_ne _ _ hne.symm,
        Fs.setMem_folders, Fs.modifyFolder_self]
      exact markDirty_of_mem (h.ram.plain p).1
    -- the two folders touched: the parent loses one entry, the removed folder both tables
    have hempty : (s'.folders info.ptr).fileMap = Table.empty ∧
        (s'.folders info.ptr).parent = (s.folders info.ptr).parent := by
      rw [← hs', Fs.modifyFolder_of_ne _ _ hne, Fs.setMem_folders, Fs.modifyFolder_self, Fs.setMem_folders,
        Fs.modifyFolder_of_ne _ _ hne]
      exact ⟨rfl, rfl⟩
    have hother : ∀ q, q ≠ info.ptr → q ≠ p → s'.folders q = s.folders q := by
      intro q hq hqp
      rw [← hs', Fs.modifyFolder_of_ne _ _ hqp, Fs.setMem_folders, Fs.modifyFolder_of_ne _ _ hq,
        Fs.setMem_folders, Fs.modifyFolder_of_ne _ _ hqp]
    have hfiles : ∀ q, q ≠ info.ptr → (s'.folders q).fileMap = (s.folders q).fileMap := by
      intro q hq
      rcases eq_or_ne q p with rfl | hqp
      · rw [hself]
        rfl
      · rw [hother q hq hqp]
    have hmem : s'.mem.Unfailing := by
      rw [← hs']
      exact unfailing_tableDestroy _ (unfailing_tableDestroy _ (unfailing_delete _ _ _ h.mem))
    have hcur : s'.currentDir = s.currentDir := by
      rw [← hs']
      rfl
    -- one path leads to a folder, so no path but the removed one sees the cleared tables
    have haway : ∀ {e q}, e ≠ k :: d → dirAt s.folders e = some q → q ≠ info.ptr := by
      rintro e q hek heq rfl
      exact hek (h.ram.dirAt_injective heq htarget)
    refine h.setFoder (o := none) hd hram hmem hcur ?_ (fun q k' f hf => ?_)
      (fun e q hek heq => hfiles q (haway hek heq))
      (fun e q hek heq hqp => by rw [hother q (haway hek heq) hqp]) (fun k' => ?_) hcount
      (fun info hnone => absurd hnone (by simp)) hfile hcwd
    · rcases eq_or_ne rootPtr p with heq | hqp
      · rw [heq, hself]
        rfl
      · rw [hother rootPtr (Nat.ne_of_lt ((Nat.zero_le p).trans_lt (h.ram.lookup_foder hinfo).2.2.1)) hqp]
    · rcases eq_or_ne q info.ptr with rfl | hq
      · rw [hempty.1, lookup_empty] at hf
        exact absurd hf (by simp)
      · rw [hfiles q hq] at hf
        exact h.fileOk q k' f hf
    · rw [hself]
      exact lookup_delete (h.ram.foders p) he k'

end Directory

/-! ### Calls -/

section Calls

variable {s : Fs} {t : FileTree} {op : TreeOp}

/-- What the two answer is the same, and the states stay related. -/
def CallSimulates (s : Fs) (t : FileTree) (op : TreeOp) : Prop :=
  (callStep s op).1 = (treeCall t op).1 ∧ TreeRel (callStep s op).2 (treeCall t op).2

/-- The call works in one directory. -/
theorem Follows.callSimulates {r : ℤ × Fs} {r' : ℤ × FileTree} (h : Follows s r r')
    (hcall : fsCall s op.call = r) (htree : treeCall t op = ((r'.1, []), r'.2)) : CallSimulates s t op := by
  rw [CallSimulates, callStep, hcall, htree]
  refine ⟨?_, h.rel⟩
  rw [h.out, List.drop_length, h.code]

theorem TreeRel.mkdir (h : TreeRel s t) {name : CString} {dir : Option CString}
    (hop : (TreeOp.mkdir name dir).Plain s) : CallSimulates s t (.mkdir name dir) := by
  obtain ⟨hdir, hclear⟩ := hop
  by_cases hlen : name.chars.length = 0 ∨ name.chars.length ≥ 128
  · refine (h.failed (-1)).callSimulates ?_ ?_
    · rw [TreeOp.call, fsCall, fsMkdir, strlen_chars, if_pos hlen]
    · rw [treeCall, if_pos hlen]
  rcases (h.fromDir hdir).eq_none_or with ⟨hp, hd⟩ | ⟨p, d, hp, hd, htrail⟩
  · refine (h.failed (-2)).callSimulates ?_ ?_
    · rw [TreeOp.call, fsCall, fsMkdir, strlen_chars, if_neg hlen, hp]
    · rw [treeCall, if_neg hlen, hd]
  · refine (h.mkdirIn htrail (hclear p hp) (by omega)).callSimulates ?_ ?_
    · rw [TreeOp.call, fsCall, fsMkdir, strlen_chars, if_neg hlen, hp]
    · rw [treeCall, if_neg hlen, hd]

theorem TreeRel.cd (h : TreeRel s t) {path : CString} (hop : (TreeOp.cd path).Plain s) :
    CallSimulates s t (.cd path) := by
  have hram : RamInv (fsStep s (.cd path)) := h.ram.step trivial
  have hcall : fsCall s (TreeOp.cd path).call = fsCd s path := rfl
  rw [fsStep, fsCall, fsCd_eq, cdTarget_eq] at hram
  rw [fsCd_eq, cdTarget_eq] at hcall
  rcases (h.getDirByPath h.cwd hop).eq_none_or with ⟨hp, hd⟩ | ⟨p, d, hp, hd, htrail⟩
  · rw [hp] at hcall
    refine (h.failed (-2)).callSimulates hcall ?_
    rw [treeCall, hd]
  · rw [hp] at hcall hram
    have hmoved : Follows s (0, s.moveTo p) (0, { t with cwd := d }) :=
      ⟨rfl, rfl, ⟨hram, h.mem, h.root, h.fileOk, htrail, h.entry⟩⟩
    refine hmoved.callSimulates hcall ?_
    rw [treeCall, hd]

theorem TreeRel.rmdir (h : TreeRel s t) {name : CString} {dir : Option CString}
    (hop : (TreeOp.rmdir name dir).Plain s) : CallSimulates s t (.rmdir name dir) := by
  obtain ⟨hdir, hwork⟩ := hop
  rcases (h.fromDir hdir).eq_none_or with ⟨hp, hd⟩ | ⟨p, d, hp, hd, htrail⟩
  · refine (h.failed (-2)).callSimulates ?_ ?_
    · rw [TreeOp.call, fsCall, fsRmdir, hp]
    · rw [treeCall, hd]
  · refine (h.rmdirIn htrail (hwork p hp)).callSimulates ?_ ?_
    · rw [TreeOp.call, fsCall, fsRmdir, hp]
    · rw [treeCall, hd]

theorem TreeRel.write (h : TreeRel s t) {name : CString} {data : Data} {dir : Option CString}
    (hop : (TreeOp.write name data dir).Plain s) : CallSimulates s t (.write name data dir) := by
  obtain ⟨hdir, hclear⟩ := hop
  rcases (h.fromDir hdir).eq_none_or with ⟨hp, hd⟩ | ⟨p, d, hp, hd, htrail⟩
  · refine (h.failed (-2)).callSimulates ?_ ?_
    · rw [TreeOp.call, fsCall, fsWrite, hp]
    · rw [treeCall, hd]
  · refine (h.writeIn htrail (hclear p hp) data).callSimulates ?_ ?_
    · rw [TreeOp.call, fsCall, fsWrite, hp]
    · rw [treeCall, hd]

theorem TreeRel.print (h : TreeRel s t) (text : List UInt8) : TreeRel (s.print text) t :=
  ⟨h.ram.of_folders (le_refl _) rfl rfl, h.mem, h.root, h.fileOk, h.cwd, h.entry⟩

theorem TreeRel.cat (h : TreeRel s t) {name : CString} {dir : Option CString}
    (hop : (TreeOp.cat name dir).Plain s) : CallSimulates s t (.cat name dir) := by
  obtain ⟨hdir, hclear⟩ := hop
  rcases (h.fromDir hdir).eq_none_or with ⟨hp, hd⟩ | ⟨p, d, hp, hd, htrail⟩
  · refine (h.failed (-2)).callSimulates ?_ ?_
    · rw [TreeOp.call, fsCall, fsCat, hp]
    · rw [treeCall, hd]
  · have hcall : fsCall s (TreeOp.cat name dir).call = LittleLinux.catIn s p name := by
      rw [TreeOp.call, fsCall, fsCat, hp]
    rw [h.catIn htrail (hclear p hp)] at hcall
    rw [CallSimulates, callStep, hcall, treeCall, hd]
    refine ⟨?_, h.print _⟩
    rw [Fs.print, List.drop_left]

theorem AgreeOn.eq_error_or {r : Except ℤ (Ptr × CString)} {r' : Except ℤ (Trail × CString)}
    (h : AgreeOn s r r') : (∃ code, r = .error code ∧ r' = .error code) ∨
      ∃ p d k, r = .ok (p, k) ∧ r' = .ok (d, k) ∧ dirAt s.folders d = some p := by
  cases h with
  | ok k hd => exact Or.inr ⟨_, _, k, rfl, rfl, hd⟩
  | error code => exact Or.inl ⟨code, rfl, rfl⟩

theorem TreeRel.touch (h : TreeRel s t) {name : CString} {dir : Option CString}
    (hop : (TreeOp.touch name dir).Plain s) : CallSimulates s t (.touch name dir) := by
  obtain ⟨hname, hclear⟩ := hop
  by_cases hlen : name.chars.length = 0 ∨ name.chars.length ≥ 128
  · refine (h.failed (-1)).callSimulates ?_ ?_
    · rw [TreeOp.call, fsCall, fsTouch, strlen_chars, if_pos hlen]
    · rw [treeCall, if_pos hlen]
  rcases (h.parsePath hname).eq_error_or with ⟨code, hp, hd⟩ | ⟨p, d, k, hp, hd, htrail⟩
  · refine (h.failed code).callSimulates ?_ ?_
    · rw [TreeOp.call, fsCall, fsTouch, strlen_chars, if_neg hlen, hp]
    · rw [treeCall, if_neg hlen, hd]
  · have hk : k.chars.length ≤ 127 := by
      have hle := length_lastComponent_le name
      rw [← parsePath_snd hp] at hle
      dsimp only at hle
      omega
    refine (h.touchIn htrail (hclear (p, k) (by rw [hp]; rfl)) hk).callSimulates ?_ ?_
    · rw [TreeOp.call, fsCall, fsTouch, strlen_chars, if_neg hlen, hp]
    · rw [treeCall, if_neg hlen, hd]

theorem TreeRel.rm (h : TreeRel s t) {name : CString} {dir : Option CString}
    (hop : (TreeOp.rm name dir).Plain s) : CallSimulates s t (.rm name dir) := by
  obtain ⟨hname, hclear⟩ := hop
  by_cases hlen : name.chars.length = 0
  · refine (h.failed (-1)).callSimulates ?_ ?_
    · rw [TreeOp.call, fsCall, fsRm, strlen_chars, if_pos hlen]
    · rw [treeCall, if_pos hlen]
  rcases (h.parsePath hname).eq_error_or with ⟨code, hp, hd⟩ | ⟨p, d, k, hp, hd, htrail⟩
  · refine (h.failed code).callSimulates ?_ ?_
    · rw [TreeOp.call, fsCall, fsRm, strlen_chars, if_neg hlen, hp]
    · rw [treeCall, if_neg hlen, hd]
  · refine (h.rmIn htrail (hclear (p, k) (by rw [hp]; rfl))).callSimulates ?_ ?_
    · rw [TreeOp.call, fsCall, fsRm, strlen_chars, if_neg hlen, hp]
    · rw [treeCall, if_neg hlen, hd]

theorem TreeRel.backspace (h : TreeRel s t) {name : CString} {count : Int32} {dir : Option CString}
    (hop : (TreeOp.backspace name count dir).Plain s) : CallSimulates s t (.backspace name count dir) := by
  obtain ⟨hname, hclear⟩ := hop
  by_cases hneg : count.toInt < 0
  · refine (h.failed (-1)).callSimulates ?_ ?_
    · rw [TreeOp.call, fsCall, fsBackspace, if_pos hneg]
    · rw [treeCall, if_pos hneg]
  by_cases hzero : count.toInt = 0
  · refine (h.failed 0).callSimulates ?_ ?_
    · rw [TreeOp.call, fsCall, fsBackspace, if_neg hneg, if_pos hzero]
    · rw [treeCall, if_neg hneg, if_pos hzero]
  rcases (h.parsePath hname).eq_error_or with ⟨code, hp, hd⟩ | ⟨p, d, k, hp, hd, htrail⟩
  · refine (h.failed code).callSimulates ?_ ?_
    · rw [TreeOp.call, fsCall, fsBackspace, if_neg hneg, if_neg hzero, hp]
    · rw [treeCall, if_neg hneg, if_neg hzero, hd]
  · have hint : count.toInt < 2 ^ 31 := count.toInt_lt
    refine (h.backspaceIn htrail (hclear (p, k) (by rw [hp]; rfl)) (by omega) hint).callSimulates ?_ ?_
    · rw [TreeOp.call, fsCall, fsBackspace, if_neg hneg, if_neg hzero, hp]
    · rw [treeCall, if_neg hneg, if_neg hzero, hd]

/-- **One call.** -/
theorem TreeRel.step (h : TreeRel s t) (hop : op.Plain s) : CallSimulates s t op := by
  cases op with
  | mkdir name dir => exact h.mkdir hop
  | cd path => exact h.cd hop
  | rmdir name dir => exact h.rmdir hop
  | touch name dir => exact h.touch hop
  | write name data dir => exact h.write hop
  | cat name dir => exact h.cat hop
  | backspace name count dir => exact h.backspace hop
  | rm name dir => exact h.rm hop

end Calls

/-! ### Runs -/

/-- After `fs_init` there is only the root. -/
theorem treeRel_initState {mem : Memory} (hmem : mem.Unfailing) (store : Store) :
    TreeRel (initState mem store) .empty where
  ram := RamInv.init mem store
  mem := hmem
  root := rfl
  fileOk := fun p k info hinfo => by
    have hempty : ((initState mem store).folders p).fileMap = Table.empty := by
      rcases eq_or_ne p rootPtr with rfl | hne
      · rfl
      · rw [initState_folder mem store hne]
        rfl
    rw [hempty, lookup_empty] at hinfo
    exact absurd hinfo (by simp)
  cwd := rfl
  entry := fun k d => by
    cases d with
    | nil =>
      rw [dirAt, Option.bind_some, show ((initState mem store).folders rootPtr).foderMap = Table.empty from rfl,
        show ((initState mem store).folders rootPtr).fileMap = Table.empty from rfl, lookup_empty, lookup_empty]
      rfl
    | cons j d =>
      have hnone : dirAt (initState mem store).folders (j :: d) = none := by
        induction d generalizing j with
        | nil =>
          rw [dirAt_cons, dirAt, Option.bind_some,
            show ((initState mem store).folders rootPtr).foderMap = Table.empty from rfl, lookup_empty,
            Option.map_none]
        | cons i d ih => rw [dirAt_cons, ih i, Option.bind_none]
      rw [hnone]
      rfl

/-- **The file system in memory is a tree**: along every run of calls, with any paths and any `from`, in which
the paths and that of the working directory fit their buffers, no path goes up from the root, no call
meets a shadowed file name and the working directory is not removed, each call answers with the code
and prints the text that the tree of the calls before it says. -/
theorem ramfs_refines_tree (mem : Memory) (hmem : mem.Unfailing) (store : Store) (ops : List TreeOp)
    (hops : Along (fun s op => (callStep s op).2) (fun s op => op.Plain s ∧ op.call.PathsFit s)
      (initState mem store) ops) :
    answers callStep (initState mem store) ops = answers treeCall .empty ops :=
  answers_eq_of_simulation (fun _ _ _ h hop => h.step hop.1) (treeRel_initState hmem store) hops

/-- A directory in a directory, a file made by its path, then written, printed and cut in its own directory,
and the way back. -/
def nestedTreeOps : List TreeOp :=
  [.mkdir (.ofBytes [97]) none, .mkdir (.ofBytes [98]) (some (.ofBytes [97])),
    .touch (.ofBytes [97, 47, 98, 47, 102]) none, .cd (.ofBytes [47, 97, 47, 46, 47, 98]),
    .write (.ofBytes [102]) (Data.byte 104) none, .cat (.ofBytes [102]) (some (.ofBytes [46])),
    .backspace (.ofBytes [102]) 1 none, .cd (.ofBytes [46, 46]), .rmdir (.ofBytes [98]) none,
    .rm (.ofBytes [98, 47, 102]) none, .rmdir (.ofBytes [98]) none]

theorem ramfs_refines_tree_nestedTreeOps :
    answers callStep (initState ampleMemory noDisk) nestedTreeOps = answers treeCall .empty nestedTreeOps :=
  ramfs_refines_tree ampleMemory (fun _ => rfl) noDisk nestedTreeOps (by decide +kernel)

end LittleLinux
