import LittleLinux.Ramfs.AbsolutePath

/-!
# The file system in memory as a tree

`FileTree` is what the calls of `ramfs.c` are calls of when nothing is mounted: a tree of directories and
files in which a directory is known by the names on the way to it, and a working directory. `treeCall` says
what each call should answer, print and do, with any path and any `from`.

`TreeRel` relates a state of the file system to the tree it holds. A path leads to the same
directory in both (`TreeRel.getDirByPath`), and what a call does to one table of one directory is one change
of the tree (`TreeRel.setFile`, `TreeRel.setFoder`).
-/

namespace LittleLinux

open ChainTable

/-! ### The tree -/

/-- A directory: the names on the way from it up to the root. -/
abbrev Trail := List CString

/-- What stands under each name of each directory, and the working directory. The root, `[]`, is always
there. -/
structure FileTree where
  entry : Trail → Option Entry
  cwd : Trail

namespace FileTree

/-- Only the root. -/
def empty : FileTree := ⟨fun _ => none, []⟩

/-- Put something under a name of a directory, or take it away. -/
def set (t : FileTree) (d : Trail) (k : CString) (o : Option Entry) : FileTree :=
  { t with entry := Function.update t.entry (k :: d) o }

/-- One component of a path. -/
def stepPart (t : FileTree) (d : Trail) (part : CString) : Option Trail :=
  if part.chars = [] ∨ part.chars = [46] then some d
  else if part.chars = [46, 46] then some d.tail
  else if t.entry (part :: d) = some .dir then some (part :: d)
  else none

/-- The directory that a path names. -/
def resolve (t : FileTree) (base : Trail) (path : CString) : Option Trail :=
  if path.chars = [] then none
  else (components path).foldlM t.stepPart (if path.IsAbsolute then [] else base)

/-- The directory of `from`. -/
def fromDir (t : FileTree) : Option CString → Option Trail
  | none => some t.cwd
  | some path => t.resolve t.cwd path

/-- The directory and the name that a name with a path means. -/
def locate (t : FileTree) (name : CString) (dir : Option CString) : Except ℤ (Trail × CString) :=
  match splitLast name with
  | none =>
    match t.fromDir dir with
    | some d => .ok (d, name)
    | none => .error (-2)
  | some (path, fileName) =>
    if fileName.chars = [] then .error (-1)
    else
      let parent :=
        if path.IsAbsolute then t.resolve [] path
        else (t.fromDir dir).bind fun base => t.resolve base path
      match parent with
      | some d => .ok (d, fileName)
      | none => .error (-2)

/-- Nothing stands in the directory. -/
def IsEmpty (t : FileTree) (d : Trail) : Prop := ∀ k, t.entry (k :: d) = none

/-! ### What the calls should do -/

/-- Make something under a new name of a directory. -/
def make (t : FileTree) (d : Trail) (k : CString) (e : Entry) : ℤ × FileTree :=
  match t.entry (k :: d) with
  | some .dir => (-3, t)
  | some (.file _) => (-4, t)
  | none => (0, t.set d k (some e))

open Classical in
/-- Remove an empty directory. -/
noncomputable def removeDir (t : FileTree) (d : Trail) (k : CString) : ℤ × FileTree :=
  if t.entry (k :: d) ≠ some .dir then (-3, t)
  else if t.IsEmpty (k :: d) then (0, t.set d k none)
  else (-4, t)

/-- Replace the contents of a file, or answer an error. -/
def change (t : FileTree) (d : Trail) (k : CString) (f : List UInt8 → Except ℤ (Option Entry)) :
    ℤ × FileTree :=
  match t.entry (k :: d) with
  | some (.file bytes) =>
    match f bytes with
    | .ok o => (0, t.set d k o)
    | .error code => (code, t)
  | _ => (-3, t)

/-- What is printed of a file: every character but a NUL. -/
def print (t : FileTree) (d : Trail) (k : CString) : ℤ × List UInt8 :=
  match t.entry (k :: d) with
  | some (.file bytes) => (0, bytes.flatMap printfChar)
  | _ => (-3, [])

end FileTree

/-- A call of the file system. -/
inductive TreeOp where
  | mkdir (name : CString) (dir : Option CString)
  | cd (path : CString)
  | rmdir (name : CString) (dir : Option CString)
  | touch (name : CString) (dir : Option CString)
  | write (name : CString) (data : Data) (dir : Option CString)
  | cat (name : CString) (dir : Option CString)
  | backspace (name : CString) (count : Int32) (dir : Option CString)
  | rm (name : CString) (dir : Option CString)

/-- What a call answers, what it prints, and the tree after it. -/
noncomputable def treeCall (t : FileTree) : TreeOp → (ℤ × List UInt8) × FileTree
  | .mkdir name dir =>
    if name.chars.length = 0 ∨ name.chars.length ≥ 128 then ((-1, []), t)
    else
      match t.fromDir dir with
      | none => ((-2, []), t)
      | some d => (((t.make d name .dir).1, []), (t.make d name .dir).2)
  | .cd path =>
    match t.resolve t.cwd path with
    | none => ((-2, []), t)
    | some d => ((0, []), { t with cwd := d })
  | .rmdir name dir =>
    match t.fromDir dir with
    | none => ((-2, []), t)
    | some d => (((t.removeDir d name).1, []), (t.removeDir d name).2)
  | .touch name dir =>
    if name.chars.length = 0 ∨ name.chars.length ≥ 128 then ((-1, []), t)
    else
      match t.locate name dir with
      | .error code => ((code, []), t)
      | .ok r => (((t.make r.1 r.2 (.file [])).1, []), (t.make r.1 r.2 (.file [])).2)
  | .write name data dir =>
    match t.fromDir dir with
    | none => ((-2, []), t)
    | some d =>
      let r := t.change d name fun _ => .ok (some (.file data.1))
      ((r.1, []), r.2)
  | .cat name dir =>
    match t.fromDir dir with
    | none => ((-2, []), t)
    | some d => (t.print d name, t)
  | .backspace name count dir =>
    if count.toInt < 0 then ((-1, []), t)
    else if count.toInt = 0 then ((0, []), t)
    else
      match t.locate name dir with
      | .error code => ((code, []), t)
      | .ok r =>
        let r := t.change r.1 r.2 fun bytes =>
          if bytes = [] then .error (-5)
          else .ok (some (.file (bytes.take (bytes.length - count.toInt.toNat))))
        ((r.1, []), r.2)
  | .rm name dir =>
    if name.chars.length = 0 then ((-1, []), t)
    else
      match t.locate name dir with
      | .error code => ((code, []), t)
      | .ok r =>
        let r := t.change r.1 r.2 fun _ => .ok none
        ((r.1, []), r.2)

/-! ### The file system -/

/-- The call of the file system. -/
def TreeOp.call : TreeOp → FsOp
  | .mkdir name dir => .mkdir name dir
  | .cd path => .cd path
  | .rmdir name dir => .rmdir name dir
  | .touch name dir => .touch name dir
  | .write name data dir => .write name data dir
  | .cat name dir => .cat name dir
  | .backspace name count dir => .backspace name count.toInt dir
  | .rm name dir => .rm name dir

/-- What the call answers and prints. -/
def callStep (s : Fs) (op : TreeOp) : (ℤ × List UInt8) × Fs :=
  let r := fsCall s op.call
  ((r.1, r.2.out.drop s.out.length), r.2)

/-- The directory object at the end of a trail. -/
def dirAt (folders : Ptr → RamfsFoder) : Trail → Option Ptr
  | [] => some rootPtr
  | k :: d =>
    (dirAt folders d).bind fun p => (lookup djb2Bucket (folders p).foderMap k).map fun info => info.ptr

/-- The state holds the tree. -/
structure TreeRel (s : Fs) (t : FileTree) : Prop where
  ram : RamInv s
  mem : s.mem.Unfailing
  root : (s.folders rootPtr).parent = none
  fileOk : ∀ p k info, lookup djb2Bucket (s.folders p).fileMap k = some info → FileOk info
  cwd : dirAt s.folders t.cwd = some s.currentDir
  entry : ∀ k d, t.entry (k :: d) = (dirAt s.folders d).bind fun p =>
    entryOf (lookup djb2Bucket (s.folders p).foderMap k) (lookup djb2Bucket (s.folders p).fileMap k)

/-! ### Trails -/

section Trails

variable {s : Fs} {t : FileTree} {d e : Trail} {p q : Ptr} {k : CString}

theorem dirAt_cons (folders : Ptr → RamfsFoder) (k : CString) (d : Trail) :
    dirAt folders (k :: d) = (dirAt folders d).bind fun p =>
      (lookup djb2Bucket (folders p).foderMap k).map fun info => info.ptr := rfl

/-- What a name of a directory leads to. -/
theorem RamInv.lookup_foder (h : RamInv s) {info : RamfsFoderInfo}
    (hinfo : lookup djb2Bucket (s.folders p).foderMap k = some info) :
    (s.folders info.ptr).name = k ∧ (s.folders info.ptr).parent = some p ∧ p < info.ptr ∧
      info.ptr < s.mem.next := by
  obtain ⟨nd, hnd, hkey, rfl⟩ := (lookup_eq_some_iff (h.foders p)).1 hinfo
  have hback := h.entry p nd hnd
  exact ⟨hback.name.trans hkey, hback.parent, hback.lt, h.child p nd hnd⟩

theorem RamInv.dirAt_lt (h : RamInv s) (hd : dirAt s.folders d = some p) : p < s.mem.next := by
  cases d with
  | nil =>
    obtain rfl := Option.some.inj hd
    exact Nat.succ_pos _
  | cons k d =>
    obtain ⟨q, -, hq⟩ := Option.bind_eq_some_iff.1 hd
    obtain ⟨info, hinfo, rfl⟩ := Option.map_eq_some_iff.1 hq
    exact (h.lookup_foder hinfo).2.2.2

/-- The parts of a trail that is not empty. -/
theorem RamInv.dirAt_cons_eq_some (h : RamInv s) (hd : dirAt s.folders (k :: d) = some p) :
    ∃ q info, dirAt s.folders d = some q ∧ lookup djb2Bucket (s.folders q).foderMap k = some info ∧
      info.ptr = p ∧ (s.folders p).name = k ∧ (s.folders p).parent = some q ∧ q < p := by
  obtain ⟨q, hq, hp⟩ := Option.bind_eq_some_iff.1 hd
  obtain ⟨info, hinfo, rfl⟩ := Option.map_eq_some_iff.1 hp
  obtain ⟨hname, hparent, hlt, -⟩ := h.lookup_foder hinfo
  exact ⟨q, info, hq, hinfo, rfl, hname, hparent, hlt⟩

/-- **One trail** leads to a directory. -/
theorem RamInv.dirAt_injective (h : RamInv s) (hd : dirAt s.folders d = some p)
    (he : dirAt s.folders e = some p) : d = e := by
  induction d generalizing e p with
  | nil =>
    obtain rfl := Option.some.inj hd
    cases e with
    | nil => rfl
    | cons j e =>
      obtain ⟨q, -, -, -, -, -, -, hlt⟩ := h.dirAt_cons_eq_some he
      exact absurd hlt (Nat.not_lt_zero q)
  | cons k d ih =>
    obtain ⟨q, -, hq, -, -, hname, hparent, hlt⟩ := h.dirAt_cons_eq_some hd
    cases e with
    | nil =>
      obtain rfl := Option.some.inj he
      exact absurd hlt (Nat.not_lt_zero q)
    | cons j e =>
      obtain ⟨q', -, hq', -, -, hname', hparent', -⟩ := h.dirAt_cons_eq_some he
      obtain rfl := Option.some.inj (hparent.symm.trans hparent')
      rw [ih hq hq', ← hname, ← hname']

theorem RamInv.wellFormed (h : RamInv s) : WellFormedTree s.folders := h.foders

theorem childOf_eq (h : RamInv s) (p : Ptr) (k : CString) :
    childOf s.folders p k = (lookup djb2Bucket (s.folders p).foderMap k).map fun info => info.ptr := by
  rw [← find_ptr_eq_childOf h.wellFormed, ramfsHashmapFind_eq_lookup]

/-- A name stands for a directory exactly when the folder table has it. -/
theorem TreeRel.entry_eq_dir_iff (h : TreeRel s t) (hd : dirAt s.folders d = some p) :
    t.entry (k :: d) = some .dir ↔ lookup djb2Bucket (s.folders p).foderMap k ≠ none := by
  rw [h.entry, hd, Option.bind_some]
  cases lookup djb2Bucket (s.folders p).foderMap k with
  | some info => exact iff_of_true rfl (Option.some_ne_none info)
  | none =>
    refine iff_of_false ?_ fun hne => hne rfl
    cases lookup djb2Bucket (s.folders p).fileMap k with
    | none => exact fun heq => absurd heq (by simp [entryOf])
    | some info => exact fun heq => absurd heq (by simp [entryOf])

end Trails

/-! ### Paths -/

section Paths

variable {s : Fs} {t : FileTree} {d : Trail} {p : Ptr}

/-- The walk and the tree agree on where they end. -/
def SameDir (s : Fs) (o : Option Ptr) (o' : Option Trail) : Prop :=
  Option.Rel (fun p d => dirAt s.folders d = some p) o o'

/-- Both fail, or both end in the same directory. -/
theorem SameDir.eq_none_or {o : Option Ptr} {o' : Option Trail} (h : SameDir s o o') :
    (o = none ∧ o' = none) ∨ ∃ p d, o = some p ∧ o' = some d ∧ dirAt s.folders d = some p := by
  cases h with
  | some hd => exact Or.inr ⟨_, _, rfl, rfl, hd⟩
  | none => exact Or.inl ⟨rfl, rfl⟩

theorem TreeRel.stepPart (h : TreeRel s t) (hd : dirAt s.folders d = some p) (part : CString) :
    SameDir s (LittleLinux.stepPart s.folders p part) (t.stepPart d part) := by
  rw [LittleLinux.stepPart, FileTree.stepPart]
  by_cases hstay : part.chars = [] ∨ part.chars = [46]
  · rw [if_pos hstay, if_pos hstay]
    exact .some hd
  rw [if_neg hstay, if_neg hstay]
  by_cases hup : part.chars = [46, 46]
  · rw [if_pos hup, if_pos hup]
    cases d with
    | nil =>
      obtain rfl := Option.some.inj hd
      rw [h.root]
      exact .some rfl
    | cons k d =>
      obtain ⟨q, -, hq, -, -, -, hparent, -⟩ := h.ram.dirAt_cons_eq_some hd
      rw [hparent]
      exact .some hq
  rw [if_neg hup, if_neg hup, childOf_eq h.ram]
  cases hfind : lookup djb2Bucket (s.folders p).foderMap part with
  | none =>
    rw [if_neg fun hdir => (h.entry_eq_dir_iff hd).1 hdir hfind]
    exact .none
  | some info =>
    rw [if_pos ((h.entry_eq_dir_iff hd).2 (hfind ▸ Option.some_ne_none info))]
    refine .some ?_
    rw [dirAt_cons, hd, Option.bind_some, hfind, Option.map_some]

theorem TreeRel.resolveParts (h : TreeRel s t) (parts : List CString)
    (hd : dirAt s.folders d = some p) :
    SameDir s (LittleLinux.resolveParts s.folders p parts) (parts.foldlM t.stepPart d) := by
  induction parts generalizing d p with
  | nil => exact .some hd
  | cons part parts ih =>
    rw [resolveParts_cons, List.foldlM_cons]
    have hstep := h.stepPart hd part
    revert hstep
    generalize LittleLinux.stepPart s.folders p part = o
    generalize t.stepPart d part = o'
    rintro (hnext | _)
    · exact ih hnext
    · exact .none

/-- No `..` of the path is met in the root. -/
def PlainPath (s : Fs) (base : Ptr) (path : CString) : Prop :=
  earlyReturn s.folders (startDir base path) (components path) = none

instance (s : Fs) (base : Ptr) (path : CString) : Decidable (PlainPath s base path) :=
  inferInstanceAs (Decidable (_ = none))

/-- **A path leads to the same directory.** -/
theorem TreeRel.getDirByPath (h : TreeRel s t) (hd : dirAt s.folders d = some p) {path : CString}
    (hpath : PlainPath s p path) :
    SameDir s (LittleLinux.getDirByPath s.folders p path) (t.resolve d path) := by
  rw [FileTree.resolve]
  by_cases hnil : path.chars = []
  · rw [LittleLinux.getDirByPath, if_pos hnil, if_pos hnil]
    exact .none
  rw [getDirByPath_eq h.ram.wellFormed p hnil, walkParts_of_none h.ram.wellFormed hpath, if_neg hnil,
    startDir]
  by_cases habs : path.IsAbsolute
  · rw [if_pos habs, if_pos habs]
    exact h.resolveParts _ rfl
  · rw [if_neg habs, if_neg habs]
    exact h.resolveParts _ hd

/-- The path of `from` does so too. -/
def PlainFrom (s : Fs) : Option CString → Prop
  | none => True
  | some path => PlainPath s s.currentDir path

instance (s : Fs) : ∀ dir, Decidable (PlainFrom s dir)
  | none => inferInstanceAs (Decidable True)
  | some path => inferInstanceAs (Decidable (PlainPath s s.currentDir path))

theorem TreeRel.fromDir (h : TreeRel s t) {dir : Option CString} (hdir : PlainFrom s dir) :
    SameDir s (LittleLinux.fromDir s dir) (t.fromDir dir) := by
  cases dir with
  | none => exact .some h.cwd
  | some path => exact h.getDirByPath h.cwd hdir

/-- And the path in front of a name. -/
def PlainName (s : Fs) (name : CString) (dir : Option CString) : Prop :=
  match splitLast name with
  | none => PlainFrom s dir
  | some (path, _) =>
    if path.IsAbsolute then PlainPath s rootPtr path
    else PlainFrom s dir ∧ ∀ base ∈ LittleLinux.fromDir s dir, PlainPath s base path

instance (s : Fs) (name : CString) (dir : Option CString) : Decidable (PlainName s name dir) := by
  unfold PlainName
  split <;> infer_instance

/-- The two agree on a directory and a name, or on the error. -/
inductive AgreeOn (s : Fs) : Except ℤ (Ptr × CString) → Except ℤ (Trail × CString) → Prop
  | ok {p : Ptr} {d : Trail} (k : CString) (h : dirAt s.folders d = some p) :
    AgreeOn s (.ok (p, k)) (.ok (d, k))
  | error (code : ℤ) : AgreeOn s (.error code) (.error code)

theorem TreeRel.parsePath (h : TreeRel s t) {name : CString} {dir : Option CString}
    (hname : PlainName s name dir) :
    AgreeOn s (LittleLinux.parsePath s name dir) (t.locate name dir) := by
  rw [LittleLinux.parsePath, FileTree.locate]
  rw [PlainName] at hname
  -- without a slash the name stands in `dir`; otherwise the part before the last slash is walked
  cases hsplit : splitLast name with
  | none =>
    rw [hsplit] at hname
    have hsame := h.fromDir hname
    dsimp only
    revert hsame
    generalize LittleLinux.fromDir s dir = o
    generalize t.fromDir dir = o'
    rintro (hd | _)
    · exact .ok name hd
    · exact .error (-2)
  | some cut =>
    obtain ⟨path, fileName⟩ := cut
    rw [hsplit] at hname
    dsimp only at hname ⊢
    by_cases hnil : fileName.chars = []
    · rw [if_pos hnil, if_pos hnil]
      exact .error (-1)
    rw [if_neg hnil, if_neg hnil]
    have hsame : SameDir s
        (if path.chars.head? = some 47 then LittleLinux.getDirByPath s.folders rootPtr path
          else (LittleLinux.fromDir s dir).bind fun base => LittleLinux.getDirByPath s.folders base path)
        (if path.IsAbsolute then t.resolve [] path
          else (t.fromDir dir).bind fun base => t.resolve base path) := by
      -- an absolute path starts at the root whatever `dir` is
      by_cases habs : path.IsAbsolute
      · rw [if_pos habs] at hname
        have hhead : path.chars.head? = some 47 := habs
        rw [if_pos habs, if_pos hhead]
        exact h.getDirByPath rfl hname
      · rw [if_neg habs] at hname
        have hhead : ¬path.chars.head? = some 47 := habs
        rw [if_neg habs, if_neg hhead]
        obtain ⟨hdir, hbase⟩ := hname
        have hfrom := h.fromDir hdir
        revert hfrom hbase
        generalize LittleLinux.fromDir s dir = o
        generalize t.fromDir dir = o'
        rintro hbase (hd | _)
        · exact h.getDirByPath hd (hbase _ rfl)
        · exact .none
    revert hsame
    generalize (if path.chars.head? = some 47 then LittleLinux.getDirByPath s.folders rootPtr path
      else (LittleLinux.fromDir s dir).bind fun base => LittleLinux.getDirByPath s.folders base path) = o
    generalize (if path.IsAbsolute then t.resolve [] path
      else (t.fromDir dir).bind fun base => t.resolve base path) = o'
    rintro (hd | _)
    · exact .ok fileName hd
    · exact .error (-2)

end Paths

/-! ### One change -/

section Change

variable {s s' : Fs} {t : FileTree} {d e : Trail} {p q : Ptr} {k : CString}

@[simp]
theorem FileTree.set_cwd (t : FileTree) (d : Trail) (k : CString) (o : Option Entry) :
    (t.set d k o).cwd = t.cwd := rfl

theorem FileTree.set_self (t : FileTree) (d : Trail) (k : CString) (o : Option Entry) :
    (t.set d k o).entry (k :: d) = o := Function.update_self _ _ _

theorem FileTree.set_of_ne (t : FileTree) {d : Trail} {k : CString} (o : Option Entry)
    (h : e ≠ k :: d) : (t.set d k o).entry e = t.entry e := Function.update_of_ne h _ _

/-- The trails depend on the folder tables only. -/
theorem dirAt_congr {folders folders' : Ptr → RamfsFoder}
    (h : ∀ p, (folders' p).foderMap = (folders p).foderMap) (d : Trail) :
    dirAt folders' d = dirAt folders d := by
  induction d with
  | nil => rfl
  | cons k d ih => simp only [dirAt_cons, ih, h]

/-- **The file table of one directory changes**, under one name. -/
theorem TreeRel.setFile (h : TreeRel s t) (hd : dirAt s.folders d = some p) (hram : RamInv s')
    (hmem : s'.mem.Unfailing) (hcur : s'.currentDir = s.currentDir) {o : Option RamfsFileInfo}
    (hparent : ∀ q, (s'.folders q).parent = (s.folders q).parent)
    (hfoders : ∀ q, (s'.folders q).foderMap = (s.folders q).foderMap)
    (hfiles : ∀ q, q ≠ p → (s'.folders q).fileMap = (s.folders q).fileMap)
    (hlook : ∀ k', lookup djb2Bucket (s'.folders p).fileMap k' =
      if k' = k then o else lookup djb2Bucket (s.folders p).fileMap k')
    (hok : ∀ info, o = some info → FileOk info)
    (hfree : lookup djb2Bucket (s.folders p).foderMap k = none) :
    TreeRel s' (t.set d k (o.map fun info => .file (fileBytes info))) where
  ram := hram
  mem := hmem
  root := (hparent rootPtr).trans h.root
  fileOk := fun q k' info hinfo => by
    rcases eq_or_ne q p with rfl | hne
    · rw [hlook] at hinfo
      split_ifs at hinfo
      · exact hok info hinfo
      · exact h.fileOk q k' info hinfo
    · rw [hfiles q hne] at hinfo
      exact h.fileOk q k' info hinfo
  cwd := by
    rw [dirAt_congr hfoders, hcur]
    exact h.cwd
  entry := fun k' e => by
    rw [dirAt_congr hfoders]
    by_cases hsame : k' :: e = k :: d
    · obtain ⟨rfl, rfl⟩ := List.cons_eq_cons.1 hsame
      rw [FileTree.set_self, hd, Option.bind_some, hfoders, hfree, hlook, if_pos rfl]
      cases o with
      | none => rfl
      | some info => rfl
    rw [FileTree.set_of_ne t _ hsame, h.entry]
    cases he : dirAt s.folders e with
    | none => rfl
    | some q =>
      rw [Option.bind_some, Option.bind_some, hfoders]
      rcases eq_or_ne q p with rfl | hne
      -- another path to the same folder is the same path, so it differs in its last name
      · have hk : k' ≠ k := by
          rintro rfl
          exact hsame (congrArg (k' :: ·) (h.ram.dirAt_injective he hd))
        rw [hlook, if_neg hk]
      · rw [hfiles q hne]

/-- A trail one longer is another one. -/
theorem cons_cons_ne (j k : CString) (d : Trail) : j :: k :: d ≠ k :: d := fun heq =>
  absurd (congrArg List.length heq) (by simp)

/-- Nothing is below a directory with nothing in it. -/
theorem TreeRel.dirAt_of_isEmpty (h : TreeRel s t) (hempty : t.IsEmpty d) (k : CString) :
    dirAt s.folders (k :: d) = none := by
  have hnone := hempty k
  rw [h.entry] at hnone
  rw [dirAt_cons]
  cases hd : dirAt s.folders d with
  | none => rfl
  | some p =>
    rw [hd, Option.bind_some] at hnone
    cases hinfo : lookup djb2Bucket (s.folders p).foderMap k with
    | none => rw [Option.bind_some, hinfo, Option.map_none]
    | some info =>
      rw [hinfo] at hnone
      exact absurd hnone (by simp [entryOf])

/-- **The folder table of one directory changes**, under a name with nothing below it. -/
theorem TreeRel.setFoder (h : TreeRel s t) (hd : dirAt s.folders d = some p) (hram : RamInv s')
    (hmem : s'.mem.Unfailing) (hcur : s'.currentDir = s.currentDir) {o : Option RamfsFoderInfo}
    (hroot : (s'.folders rootPtr).parent = (s.folders rootPtr).parent)
    (hok : ∀ q k' info, lookup djb2Bucket (s'.folders q).fileMap k' = some info → FileOk info)
    (hfiles : ∀ e q, e ≠ k :: d → dirAt s.folders e = some q →
      (s'.folders q).fileMap = (s.folders q).fileMap)
    (hfoders : ∀ e q, e ≠ k :: d → dirAt s.folders e = some q → q ≠ p →
      (s'.folders q).foderMap = (s.folders q).foderMap)
    (hlook : ∀ k', lookup djb2Bucket (s'.folders p).foderMap k' =
      if k' = k then o else lookup djb2Bucket (s.folders p).foderMap k')
    (hbelow : t.IsEmpty (k :: d))
    (hnew : ∀ info, o = some info →
      (s'.folders info.ptr).foderMap = Table.empty ∧ (s'.folders info.ptr).fileMap = Table.empty)
    (hfile : lookup djb2Bucket (s.folders p).fileMap k = none) (hcwd : t.cwd ≠ k :: d) :
    TreeRel s' (t.set d k (o.map fun _ => .dir)) := by
  have hself : d ≠ k :: d := fun heq => absurd (congrArg List.length heq) (by simp)
  -- another directory has its entries under other names
  have hname : ∀ {e q j}, j :: e ≠ k :: d → dirAt s.folders e = some q → q = p → j ≠ k := by
    rintro e q j hne hq rfl rfl
    exact hne (congrArg (j :: ·) (h.ram.dirAt_injective hq hd))
  have hdirs : ∀ e, dirAt s'.folders e =
      if e = k :: d then o.map fun info => info.ptr else dirAt s.folders e := by
    intro e
    induction e with
    | nil => rw [if_neg (List.cons_ne_nil k d).symm, dirAt, dirAt]
    | cons j e ih =>
      rw [dirAt_cons, ih]
      by_cases he : e = k :: d
      · rw [if_pos he, he, if_neg (cons_cons_ne j k d), h.dirAt_of_isEmpty hbelow]
        cases ho : o with
        | none => rfl
        | some info => rw [Option.map_some, Option.bind_some, (hnew info ho).1, lookup_empty, Option.map_none]
      rw [if_neg he]
      by_cases hsame : j :: e = k :: d
      · obtain ⟨rfl, rfl⟩ := List.cons_eq_cons.1 hsame
        rw [if_pos rfl, hd, Option.bind_some, hlook, if_pos rfl]
      rw [if_neg hsame, dirAt_cons]
      cases hq : dirAt s.folders e with
      | none => rfl
      | some q =>
        rw [Option.bind_some, Option.bind_some]
        by_cases hqp : q = p
        · rw [hqp, hlook, if_neg (hname hsame hq hqp)]
        · rw [hfoders e q he hq hqp]
  refine ⟨hram, hmem, hroot.trans h.root, hok, ?_, fun k' e => ?_⟩
  · rw [hdirs, FileTree.set_cwd, if_neg hcwd, hcur]
    exact h.cwd
  · rw [hdirs]
    by_cases he : e = k :: d
    · rw [if_pos he, he, FileTree.set_of_ne t _ (cons_cons_ne k' k d), hbelow]
      cases ho : o with
      | none => rfl
      | some info =>
        rw [Option.map_some, Option.bind_some, (hnew info ho).1, (hnew info ho).2, lookup_empty, lookup_empty]
        rfl
    rw [if_neg he]
    by_cases hsame : k' :: e = k :: d
    · obtain ⟨rfl, rfl⟩ := List.cons_eq_cons.1 hsame
      rw [FileTree.set_self, hd, Option.bind_some, hlook, if_pos rfl, hfiles e p hself hd, hfile]
      cases o with
      | none => rfl
      | some info => rfl
    rw [FileTree.set_of_ne t _ hsame, h.entry]
    cases hq : dirAt s.folders e with
    | none => rfl
    | some q =>
      rw [Option.bind_some, Option.bind_some, hfiles e q he hq]
      by_cases hqp : q = p
      · rw [hqp, hlook, if_neg (hname hsame hq hqp)]
      · rw [hfoders e q he hq hqp]

end Change

end LittleLinux
