import LittleLinux.Dfs.Mount
import LittleLinux.Lib.Simulation

/-!
# The file system in memory as a directory

With nothing mounted and the calls made without `from`, all calls work in the root directory.
`Directory` is what they should be calls of: a map from names to entries, an entry being a
directory or a string of bytes, and `dirStep` what each call should answer and do. `RamRel`
relates a state of the file system to the directory it holds.

The file table takes a name for another one that shadows it, and `printf` prints no NUL, so the
two agree along the runs in which no call meets a shadowed name and no file with a NUL is
printed.
-/

namespace LittleLinux

open ChainTable

/-! ### The abstract directory -/

/-- What a name stands for. -/
inductive Entry where
  | dir
  | file (bytes : List UInt8)
deriving DecidableEq

/-- A directory. -/
abbrev Directory := CString → Option Entry

/-- A name without a slash, of 1 to 127 characters. -/
abbrev EntryName := { k : CString // k.chars ≠ [] ∧ k.chars.length ≤ 127 ∧ (47 : UInt8) ∉ k.chars }

/-- A positive `int`. -/
abbrev Count := { n : ℕ // 0 < n ∧ n < 2 ^ 31 }

/-- A call without `from`. -/
inductive DirOp where
  | mkdir (name : EntryName)
  | rmdir (name : EntryName)
  | touch (name : EntryName)
  | write (name : EntryName) (data : Data)
  | backspace (name : EntryName) (count : Count)
  | rm (name : EntryName)
  | cat (name : EntryName)

/-- Whether a call succeeds, and what it prints. -/
structure Outcome where
  ok : Bool
  printed : List UInt8
deriving DecidableEq

/-- The call fails. -/
def Outcome.failed : Outcome := ⟨false, []⟩

/-- The call succeeds and prints nothing. -/
def Outcome.done : Outcome := ⟨true, []⟩

/-- What a call should answer and do. -/
def dirStep (d : Directory) : DirOp → Outcome × Directory
  | .mkdir name =>
    if d name = none then (.done, Function.update d name (some .dir)) else (.failed, d)
  | .touch name =>
    if d name = none then (.done, Function.update d name (some (.file []))) else (.failed, d)
  | .rmdir name =>
    match d name with
    | some .dir => (.done, Function.update d name none)
    | _ => (.failed, d)
  | .rm name =>
    match d name with
    | some (.file _) => (.done, Function.update d name none)
    | _ => (.failed, d)
  | .write name data =>
    match d name with
    | some (.file _) => (.done, Function.update d name (some (.file data.1)))
    | _ => (.failed, d)
  | .backspace name count =>
    match d name with
    | some (.file bytes) =>
      if bytes = [] then (.failed, d)
      else (.done, Function.update d name (some (.file (bytes.take (bytes.length - count)))))
    | _ => (.failed, d)
  | .cat name =>
    match d name with
    | some (.file bytes) => (⟨true, bytes⟩, d)
    | _ => (.failed, d)

/-! ### The calls -/

/-- The call of the file system. -/
def DirOp.call : DirOp → FsOp
  | .mkdir name => .mkdir name none
  | .rmdir name => .rmdir name none
  | .touch name => .touch name none
  | .write name data => .write name data none
  | .backspace name count => .backspace name count.1 none
  | .rm name => .rm name none
  | .cat name => .cat name none

/-- What the call answers, 0 being success, and what it prints. -/
def ramStep (s : Fs) (op : DirOp) : Outcome × Fs :=
  let r := fsCall s op.call
  (⟨decide (r.1 = 0), r.2.out.drop s.out.length⟩, r.2)

/-- The bytes of a file in memory. -/
def fileBytes (info : RamfsFileInfo) : List UInt8 :=
  match info.ptr with
  | some buf => buf.bytes.take info.length.toNat
  | none => []

/-- The tables of the root directory. -/
def rootFoders (s : Fs) : RamfsHashmap := (s.folders rootPtr).foderMap

def rootFiles (s : Fs) : RamfsFileHashmap := (s.folders rootPtr).fileMap

/-- The call is answered by the entry of its own name: no stored file name shadows it, or it is
a call that fails for any entry of that name, and there is one. A file that is printed has no
NUL. -/
def DirOp.Distinct (s : Fs) : DirOp → Prop
  | .mkdir name | .touch name =>
    lookup djb2Bucket (rootFoders s) name.1 ≠ none ∨ lookup djb2Bucket (rootFiles s) name.1 ≠ none ∨
      Unshadowed (rootFiles s) name
  | .rmdir _ => True
  | .write name _ | .backspace name _ | .rm name => Unshadowed (rootFiles s) name
  | .cat name => Unshadowed (rootFiles s) name ∧
      ∀ info, lookup djb2Bucket (rootFiles s) name.1 = some info → (0 : UInt8) ∉ fileBytes info

instance (s : Fs) : ∀ op : DirOp, Decidable (op.Distinct s)
  | .mkdir _ | .touch _ => inferInstanceAs (Decidable (_ ∨ _ ∨ _))
  | .rmdir _ => inferInstanceAs (Decidable True)
  | .write name _ | .backspace name _ | .rm name =>
    inferInstanceAs (Decidable (Unshadowed (rootFiles s) name))
  | .cat name => decidable_of_iff (Unshadowed (rootFiles s) name ∧
      ∀ info ∈ lookup djb2Bucket (rootFiles s) name.1, (0 : UInt8) ∉ fileBytes info) Iff.rfl

/-! ### The relation -/

/-- The entry that the two tables hold for a name. -/
def entryOf : Option RamfsFoderInfo → Option RamfsFileInfo → Option Entry
  | some _, _ => some .dir
  | none, some info => some (.file (fileBytes info))
  | none, none => none

/-- The length of a file is the number of its bytes. -/
def FileOk (info : RamfsFileInfo) : Prop :=
  info.length = (fileBytes info).length ∧ (fileBytes info).length < 2 ^ 32

/-- The state holds the directory `d`. -/
structure RamRel (s : Fs) (d : Directory) : Prop where
  currentDir : s.currentDir = rootPtr
  type : (s.folders rootPtr).type = RAMFS_FOLDER_TYPE_MEM
  mount : (s.folders rootPtr).mount = none
  mem : s.mem.Unfailing
  foders : Rep djb2Bucket (rootFoders s)
  files : Rep djb2Bucket (rootFiles s)
  empty : ∀ k info, lookup djb2Bucket (rootFoders s) k = some info → info.ptr ≠ rootPtr ∧
    (s.folders info.ptr).foderMap.count = 0 ∧ (s.folders info.ptr).fileMap.count = 0
  fileOk : ∀ k info, lookup djb2Bucket (rootFiles s) k = some info → FileOk info
  disjoint : ∀ k, lookup djb2Bucket (rootFoders s) k ≠ none → lookup djb2Bucket (rootFiles s) k = none
  entry : ∀ k, d k = entryOf (lookup djb2Bucket (rootFoders s) k) (lookup djb2Bucket (rootFiles s) k)

/-! ### The tables -/

section Tables

variable {V : Type} {T : NamedTable V} {map : Table BUCKETS CString V} {mem : Memory} {k : CString}

/-- An entry of a new name. -/
theorem NamedTable.insert_absent (hr : Rep djb2Bucket map)
    (he : ExactAt T.streq djb2Bucket map k) (hlen : k.chars.length ≤ 127)
    (hnone : lookup djb2Bucket map k = none) (hm : mem.Unfailing) (hsize : T.nodeSize ≠ 0) (v : V) :
    (T.insert mem map k v).1 = true ∧ Rep djb2Bucket (T.insert mem map k v).2.1 ∧
      (∀ k', lookup djb2Bucket (T.insert mem map k v).2.1 k' =
        if k' = k then some (T.setName k v) else lookup djb2Bucket map k') ∧
      (T.insert mem map k v).2.2.Unfailing := by
  have hfind : ¬(T.find map k).isSome = true := by
    rw [show T.find map k = lookup djb2Bucket map k from he.find_eq, hnone]
    exact Bool.false_ne_true
  have hs : strcpy127 k = k := strcpy127_of_le hlen
  rw [NamedTable.insert, if_neg hfind, hs]
  dsimp only
  rw [hm.malloc_isSome hsize]
  have hins : (ChainTable.insert T.streq djb2Bucket map k k (T.setName k v) (some mem.next)).1 = true := by
    rw [insert_fst he, hnone]
    rfl
  refine ⟨hins, rep_insert hr he _ _, fun k' => ?_, hm.malloc T.nodeSize⟩
  rw [lookup_insert hr he, hins]
  simp only [and_true]

/-- A stored key is found, or another one in its place. -/
theorem NamedTable.find_ne_none (hr : Rep djb2Bucket map) (hrefl : T.streq k k = true)
    (h : lookup djb2Bucket map k ≠ none) : T.find map k ≠ none := by
  intro hfind
  rw [NamedTable.find, ChainTable.find, Option.map_eq_none_iff, findNode, List.find?_eq_none] at hfind
  obtain ⟨v, hv⟩ := Option.ne_none_iff_exists'.1 h
  obtain ⟨nd, hnd, rfl, -⟩ := (lookup_eq_some_iff hr).1 hv
  exact hfind nd (mem_bucket_of_mem_nodes hr hnd) hrefl

theorem unfailing_delete (T : NamedTable V) (map : Table BUCKETS CString V) (k : CString)
    (hm : mem.Unfailing) : (T.delete mem map k).2.2.Unfailing := by
  rw [NamedTable.delete]
  dsimp only
  cases findNode T.streq djb2Bucket map k with
  | none => exact hm
  | some nd => exact hm

theorem unfailing_tableDestroy (map : Table BUCKETS CString V) (hm : mem.Unfailing) :
    (tableDestroy mem map).2.Unfailing := by
  rw [tableDestroy]
  dsimp only
  generalize map.nodes = l
  induction l generalizing mem with
  | nil => exact hm
  | cons nd l ih => exact ih hm

end Tables

theorem unfailing_freeData {mem : Memory} (info : RamfsFileInfo) (hm : mem.Unfailing) :
    (freeData mem info).Unfailing := by
  rw [freeData.eq_def]
  cases info.ptr with
  | none => exact hm
  | some buf => exact hm

theorem fileStreq_self (k : CString) : fileTable.streq k k = true :=
  (fileStreq_iff k k).2 ⟨rfl, fun _ _ => UInt8.le_refl _⟩

/-- Where nothing is found, nothing shadows. -/
theorem unshadowed_of_find_none {map : RamfsFileHashmap} {k : CString}
    (h : ramfsFileHashmapFind map k = none) : Unshadowed map k := by
  rw [← fileTable_exactAt_iff]
  refine ⟨fileStreq_self k, fun nd hnd heq => ?_⟩
  rw [ramfsFileHashmapFind, NamedTable.find, ChainTable.find, Option.map_eq_none_iff, findNode,
    List.find?_eq_none] at h
  exact absurd heq (h nd hnd)

theorem ramfsFileHashmapFind_eq_lookup {map : RamfsFileHashmap} {k : CString}
    (h : Unshadowed map k) : ramfsFileHashmapFind map k = lookup djb2Bucket map k :=
  ((fileTable_exactAt_iff map k).2 h).find_eq

/-! ### Related states -/

/-- Both tables of a folder count no entry. -/
def EmptyFolder (f : RamfsFoder) : Prop := f.foderMap.count = 0 ∧ f.fileMap.count = 0

section Relation

variable {s s' : Fs} {d : Directory} {k : CString}

/-- The entry of one name in the file table is set or removed. -/
theorem RamRel.setFile (h : RamRel s d) {o : Option RamfsFileInfo} {map : RamfsFileHashmap}
    (hrep : Rep djb2Bucket map)
    (hlook : ∀ k', lookup djb2Bucket map k' = if k' = k then o else lookup djb2Bucket (rootFiles s) k')
    (hok : ∀ info, o = some info → FileOk info) (hfree : lookup djb2Bucket (rootFoders s) k = none)
    (hcur : s'.currentDir = s.currentDir) (hmem : s'.mem.Unfailing)
    (hroot : s'.folders rootPtr = (s.folders rootPtr).setFileMap map)
    (hother : ∀ p, p ≠ rootPtr → s'.folders p = s.folders p) :
    RamRel s' (Function.update d k (o.map fun info => .file (fileBytes info))) := by
  have hfoders : rootFoders s' = rootFoders s := by
    rw [rootFoders, hroot]
    rfl
  have hfiles : rootFiles s' = map := congrArg RamfsFoder.fileMap hroot
  refine ⟨hcur.trans h.currentDir, ?_, ?_, hmem, ?_, ?_, ?_, ?_, ?_, ?_⟩
  · rw [hroot]
    exact h.type
  · rw [hroot]
    exact h.mount
  · rw [hfoders]
    exact h.foders
  · rw [hfiles]
    exact hrep
  · intro k' info hinfo
    rw [hfoders] at hinfo
    have hempty := h.empty k' info hinfo
    rw [hother info.ptr hempty.1]
    exact hempty
  · intro k' info hinfo
    rw [hfiles, hlook] at hinfo
    split_ifs at hinfo
    · exact hok info hinfo
    · exact h.fileOk k' info hinfo
  · intro k' hk'
    rw [hfoders] at hk'
    rw [hfiles, hlook, if_neg]
    · exact h.disjoint k' hk'
    · rintro rfl
      exact hk' hfree
  · intro k'
    rw [hfoders, hfiles, hlook]
    by_cases hk : k' = k
    · rw [if_pos hk, hk, Function.update_self, hfree]
      cases o with
      | none => rfl
      | some info => rfl
    · rw [if_neg hk, Function.update_of_ne hk]
      exact h.entry k'

/-- The entry of one name in the folder table is set or removed. -/
theorem RamRel.setFoder (h : RamRel s d) {o : Option RamfsFoderInfo} {map : RamfsHashmap}
    (hrep : Rep djb2Bucket map)
    (hlook : ∀ k', lookup djb2Bucket map k' = if k' = k then o else lookup djb2Bucket (rootFoders s) k')
    (hnew : ∀ info, o = some info → info.ptr ≠ rootPtr ∧ EmptyFolder (s'.folders info.ptr))
    (hfree : lookup djb2Bucket (rootFiles s) k = none)
    (hcur : s'.currentDir = s.currentDir) (hmem : s'.mem.Unfailing)
    (hroot : s'.folders rootPtr = (s.folders rootPtr).setFoderMap map)
    (hother : ∀ p, p ≠ rootPtr → EmptyFolder (s.folders p) → EmptyFolder (s'.folders p)) :
    RamRel s' (Function.update d k (o.map fun _ => .dir)) := by
  have hfoders : rootFoders s' = map := congrArg RamfsFoder.foderMap hroot
  have hfiles : rootFiles s' = rootFiles s := by
    rw [rootFiles, hroot]
    rfl
  refine ⟨hcur.trans h.currentDir, ?_, ?_, hmem, ?_, ?_, ?_, ?_, ?_, ?_⟩
  · rw [hroot]
    exact h.type
  · rw [hroot]
    exact h.mount
  · rw [hfoders]
    exact hrep
  · rw [hfiles]
    exact h.files
  · intro k' info hinfo
    rw [hfoders, hlook] at hinfo
    split_ifs at hinfo
    · exact hnew info hinfo
    · obtain ⟨hne, hempty⟩ := h.empty k' info hinfo
      exact ⟨hne, hother info.ptr hne hempty⟩
  · intro k' info hinfo
    rw [hfiles] at hinfo
    exact h.fileOk k' info hinfo
  · intro k' hk'
    rw [hfoders, hlook] at hk'
    rw [hfiles]
    -- a new entry must not share its name with a file
    split_ifs at hk' with hk
    · rw [hk]
      exact hfree
    · exact h.disjoint k' hk'
  · intro k'
    rw [hfoders, hfiles, hlook]
    by_cases hk : k' = k
    · rw [if_pos hk, hk, Function.update_self, hfree]
      cases o with
      | none => rfl
      | some info => rfl
    · rw [if_neg hk, Function.update_of_ne hk]
      exact h.entry k'

end Relation

end LittleLinux
