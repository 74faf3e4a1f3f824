import LittleLinux.Ramfs.AbsolutePath

/-!
# Path arguments

`fs_touch`, `fs_rm` and `fs_backspace` take a path where they take a name. They cut a copy of it
at its last slash and look at the first character of what is left to tell an absolute path from a
relative one. For `"/n"` nothing is left, so the path counts as a relative one, and as an empty
path names no directory the call answers `-2`. `path_means_name_iff` is that this is the only
path that does not mean what the bare name means in the directory, as far as the length check of
`fs_touch` lets the path through.
-/

namespace LittleLinux

open ChainTable

/-- The calls that take a path for a name. -/
inductive NameOp where
  | touch
  | rm
  | backspace (count : ℤ)
deriving DecidableEq

/-- The call with `from = NULL`. -/
def NameOp.call (s : Fs) (name : CString) : NameOp → ℤ × Fs
  | .touch => fsTouch s name none
  | .rm => fsRm s name none
  | .backspace count => fsBackspace s name count none

/-- The call in the directory `dir`, once that is found. -/
def NameOp.callIn (s : Fs) (dir : Ptr) (name : CString) : NameOp → ℤ × Fs
  | .touch => touchIn s dir name
  | .rm => rmIn s dir name
  | .backspace count => backspaceIn s dir name count

/-- `d/n`, and `"/" + n` for the root. -/
def pathOf (d n : CString) : CString :=
  if d = slashString then joinPath ⟨[], CString.noNul_nil⟩ n else joinPath d n

/-- The call with the path `d/n` answers what the call with `n` answers in `dir`, and does the
same, the working directory apart. -/
def MeansName (s : Fs) (op : NameOp) (d n : CString) (dir : Ptr) : Prop :=
  op.call (s.setCurrentDir dir) n =
      ((op.call s (pathOf d n)).1, (op.call s (pathOf d n)).2.setCurrentDir dir) ∧
    (op.call s (pathOf d n)).2.currentDir = s.currentDir

/-! ### Cutting the path -/

theorem strrchr_append {c : UInt8} (l : List UInt8) {m : List UInt8} (h : c ∉ m) :
    strrchr c (l ++ c :: m) = some (l, m) := by
  induction l with
  | nil => rw [List.nil_append, strrchr, strrchr_eq_none_iff.2 h, if_pos rfl]
  | cons d l ih => rw [List.cons_append, strrchr, ih]

theorem splitLast_joinPath (d : CString) {n : CString} (h : (47 : UInt8) ∉ n.chars) :
    splitLast (joinPath d n) = some (d, n) := by
  have hcut : strrchr 47 (joinPath d n).chars = some (d.chars, n.chars) := strrchr_append d.chars h
  rw [splitLast]
  split
  · next r hr =>
    obtain rfl := Option.some.inj (hr.symm.trans hcut)
    rfl
  · next hr => exact absurd (hr.symm.trans hcut) (by simp)

theorem splitLast_of_notMem {n : CString} (h : (47 : UInt8) ∉ n.chars) : splitLast n = none := by
  rw [splitLast]
  split
  · next r hr => exact absurd (hr.symm.trans (strrchr_eq_none_iff.2 h)) (by simp)
  · rfl

section Parse

variable {s : Fs} {d n : CString} {dir : Ptr}

/-- An absolute path leads to the same directory from everywhere. -/
theorem getDirByPath_of_isAbsolute (h : d.IsAbsolute) (base base' : Ptr) :
    getDirByPath s.folders base d = getDirByPath s.folders base' d := by
  have hhead : d.chars.head? = some 47 := h
  rw [getDirByPath, getDirByPath, if_pos hhead, if_pos hhead]

theorem parsePath_bare (h : (47 : UInt8) ∉ n.chars) : parsePath s n none = .ok (s.currentDir, n) := by
  rw [parsePath, splitLast_of_notMem h]
  rfl

theorem parsePath_joinPath (habs : d.IsAbsolute) (hne : n.chars ≠ []) (hn : (47 : UInt8) ∉ n.chars)
    (hdir : getDirByPath s.folders s.currentDir d = some dir) :
    parsePath s (joinPath d n) none = .ok (dir, n) := by
  rw [getDirByPath_of_isAbsolute habs s.currentDir rootPtr] at hdir
  rw [parsePath, splitLast_joinPath d hn]
  have hhead : d.chars.head? = some 47 := habs
  dsimp only
  rw [if_neg hne, if_pos hhead, hdir]

/-- Nothing is left of `"/n"`, and the empty path names no directory. -/
theorem parsePath_slash (hne : n.chars ≠ []) (hn : (47 : UInt8) ∉ n.chars) :
    parsePath s (joinPath ⟨[], by simp⟩ n) none = .error (-2) := by
  rw [parsePath, splitLast_joinPath _ hn]
  dsimp only
  rw [if_neg hne, if_neg (by simp)]
  rfl

end Parse

/-! ### The call in the directory -/

section Calls

variable {s : Fs} {dir cur : Ptr} {name : CString}

/-- What a call in a directory answers and leaves alone: none of the two codes that stand for a
path that was refused, and the working directory. -/
structure InDirectory (s : Fs) (cur : Ptr) (r r' : ℤ × Fs) : Prop where
  moved : r' = (r.1, r.2.setCurrentDir cur)
  currentDir : r.2.currentDir = s.currentDir
  code : r.1 ≠ -1 ∧ r.1 ≠ -2

theorem InDirectory.of_eq (code : ℤ) {t : Fs} (ht : t.currentDir = s.currentDir)
    (hcode : code ≠ -1 ∧ code ≠ -2) : InDirectory s cur (code, t) (code, t.setCurrentDir cur) :=
  ⟨rfl, ht, hcode⟩

theorem lazyLoadDirectory_of_mem (h : (s.folders dir).type = RAMFS_FOLDER_TYPE_MEM) :
    lazyLoadDirectory s dir = s := by
  rw [lazyLoadDirectory, if_neg]
  rintro ⟨hclean, -⟩
  rw [h] at hclean
  exact absurd hclean (by decide)

theorem touchIn_inDirectory (h : (s.folders dir).type = RAMFS_FOLDER_TYPE_MEM) (cur : Ptr) :
    InDirectory s cur (touchIn s dir name) (touchIn (s.setCurrentDir cur) dir name) := by
  have h' : ((s.setCurrentDir cur).folders dir).type = RAMFS_FOLDER_TYPE_MEM := h
  rw [touchIn, touchIn, lazyLoadDirectory_of_mem h, lazyLoadDirectory_of_mem h']
  have hfolders : (s.setCurrentDir cur).folders = s.folders := rfl
  have hmem : (s.setCurrentDir cur).mem = s.mem := rfl
  dsimp only
  rw [hfolders, hmem]
  by_cases hdir : (ramfsHashmapFind (s.folders dir).foderMap name).isSome
  · rw [if_pos hdir, if_pos hdir]
    exact .of_eq (-3) rfl (by decide)
  rw [if_neg hdir, if_neg hdir]
  by_cases hfile : (ramfsFileHashmapFind (s.folders dir).fileMap name).isSome
  · rw [if_pos hfile, if_pos hfile]
    exact .of_eq (-4) rfl (by decide)
  rw [if_neg hfile, if_neg hfile]
  generalize ramfsFileHashmapInsert s.mem (s.folders dir).fileMap name _ = r
  by_cases hr : r.1
  · rw [if_pos hr, if_pos hr]
    exact .of_eq 0 rfl (by decide)
  · rw [if_neg hr, if_neg hr]
    exact .of_eq (-5) rfl (by decide)

theorem rmIn_inDirectory (h : (s.folders dir).type = RAMFS_FOLDER_TYPE_MEM) (cur : Ptr) :
    InDirectory s cur (rmIn s dir name) (rmIn (s.setCurrentDir cur) dir name) := by
  have h' : ((s.setCurrentDir cur).folders dir).type = RAMFS_FOLDER_TYPE_MEM := h
  rw [rmIn, rmIn, lazyLoadDirectory_of_mem h, lazyLoadDirectory_of_mem h']
  have hfolders : (s.setCurrentDir cur).folders = s.folders := rfl
  have hmem : (s.setCurrentDir cur).mem = s.mem := rfl
  dsimp only
  rw [hfolders]
  cases ramfsFileHashmapFind (s.folders dir).fileMap name with
  | none => exact .of_eq (-3) rfl (by decide)
  | some info =>
    dsimp only
    rw [hmem]
    generalize ramfsFileHashmapDelete (freeData s.mem info) (s.folders dir).fileMap name = r
    by_cases hr : r.1
    · rw [if_pos hr, if_pos hr]
      exact .of_eq 0 rfl (by decide)
    · rw [if_neg hr, if_neg hr]
      exact .of_eq (-4) rfl (by decide)

/-- With nothing mounted there is no data to load. -/
theorem loadData_of_mem (hmount : (s.folders dir).mount = none) (info : RamfsFileInfo) :
    loadData s dir name info = (0, s) := by
  rw [loadData, hmount]

theorem cutFile_inDirectory (info : RamfsFileInfo) (count : ℤ) (cur : Ptr) :
    InDirectory s cur (cutFile s dir name info count)
      (cutFile (s.setCurrentDir cur) dir name info count) := by
  rw [cutFile, cutFile]
  by_cases hzero : info.length = 0
  · rw [if_pos hzero, if_pos hzero]
    exact .of_eq (-5) rfl (by decide)
  rw [if_neg hzero, if_neg hzero]
  dsimp only
  generalize toU32 (info.length - if count > info.length then toI32 info.length else count) = newLen
  by_cases hnew : newLen = 0
  · rw [if_pos hnew, if_pos hnew]
    exact .of_eq 0 rfl (by decide)
  have hmem : (s.setCurrentDir cur).mem = s.mem := rfl
  rw [if_neg hnew, if_neg hnew, hmem]
  cases (s.mem.malloc newLen).1 with
  | none => exact .of_eq (-6) rfl (by decide)
  | some p => exact .of_eq 0 rfl (by decide)

theorem backspaceIn_inDirectory (h : (s.folders dir).type = RAMFS_FOLDER_TYPE_MEM)
    (hmount : (s.folders dir).mount = none) (count : ℤ) (cur : Ptr) :
    InDirectory s cur (backspaceIn s dir name count)
      (backspaceIn (s.setCurrentDir cur) dir name count) := by
  have h' : ((s.setCurrentDir cur).folders dir).type = RAMFS_FOLDER_TYPE_MEM := h
  have hmount' : ((s.setCurrentDir cur).folders dir).mount = none := hmount
  rw [backspaceIn, backspaceIn, lazyLoadDirectory_of_mem h, lazyLoadDirectory_of_mem h']
  have hfolders : (s.setCurrentDir cur).folders = s.folders := rfl
  rw [hfolders]
  cases hfind : ramfsFileHashmapFind (s.folders dir).fileMap name with
  | none => exact .of_eq (-3) rfl (by decide)
  | some info =>
    dsimp only
    rw [loadData_of_mem hmount, loadData_of_mem hmount', if_neg (fun h : (0 : ℤ) ≠ 0 => h rfl),
      if_neg (fun h : (0 : ℤ) ≠ 0 => h rfl), hfolders, hfind]
    exact cutFile_inDirectory info count cur

/-- Each of the calls, in a directory of the tree in memory. -/
theorem RamInv.callIn (h : RamInv s) (op : NameOp) (dir : Ptr) (name : CString) (cur : Ptr) :
    InDirectory s cur (op.callIn s dir name) (op.callIn (s.setCurrentDir cur) dir name) := by
  cases op with
  | touch => exact touchIn_inDirectory (h.plain dir).1 cur
  | rm => exact rmIn_inDirectory (h.plain dir).1 cur
  | backspace count => exact backspaceIn_inDirectory (h.plain dir).1 (h.plain dir).2 count cur

end Calls

/-! ### Paths and names -/

/-- The call refuses or ignores its argument without looking at the path. -/
def NameOp.Stops (name : CString) : NameOp → Prop
  | .touch => name.chars.length = 0 ∨ name.chars.length ≥ 128
  | .rm => name.chars.length = 0
  | .backspace count => count ≤ 0

section Names

variable {s : Fs} {d n name : CString} {dir : Ptr} {op : NameOp}

/-- A call that looks at the path. -/
theorem NameOp.call_eq (s : Fs) (hgo : ¬op.Stops name) :
    op.call s name = match parsePath s name none with
      | .error e => (e, s)
      | .ok r => op.callIn s r.1 r.2 := by
  cases op with
  | touch =>
    have hlen : ¬(name.chars.length = 0 ∨ name.chars.length ≥ 128) := hgo
    rw [call, fsTouch, strlen_chars, if_neg hlen]
    rfl
  | rm =>
    have hlen : ¬name.chars.length = 0 := hgo
    rw [call, fsRm, strlen_chars, if_neg hlen]
    rfl
  | backspace count =>
    have hpos : 0 < count := not_le.1 hgo
    rw [call, fsBackspace, if_neg (by omega), if_neg (by omega)]
    rfl

/-- **A path means the bare name** when the call looks at both of them, the path leads to the
directory, and a piece is left of it. -/
theorem RamInv.meansName (h : RamInv s) (habs : d.IsAbsolute) (hne : n.chars ≠ [])
    (hn : (47 : UInt8) ∉ n.chars) (hdir : getDirByPath s.folders s.currentDir d = some dir)
    (hslash : d ≠ slashString) (hbare : ¬op.Stops n) (hpath : ¬op.Stops (joinPath d n)) :
    MeansName s op d n dir := by
  have hbareCall : op.call (s.setCurrentDir dir) n = op.callIn (s.setCurrentDir dir) dir n := by
    rw [NameOp.call_eq _ hbare, parsePath_bare hn]
    rfl
  have hpathCall : op.call s (pathOf d n) = op.callIn s dir n := by
    rw [pathOf, if_neg hslash, NameOp.call_eq _ hpath, parsePath_joinPath habs hne hn hdir]
  obtain ⟨hmoved, hcurrent, -⟩ := h.callIn op dir n dir
  rw [MeansName, hbareCall, hpathCall]
  exact ⟨hmoved, hcurrent⟩

/-- A path that is refused does not mean a bare name that is not. -/
theorem RamInv.not_meansName (h : RamInv s) {e : ℤ} (he : e = -1 ∨ e = -2)
    (hn : (47 : UInt8) ∉ n.chars) (hbare : ¬op.Stops n) (hpath : (op.call s (pathOf d n)).1 = e) :
    ¬MeansName s op d n dir := by
  rintro ⟨hmeans, -⟩
  rw [NameOp.call_eq _ hbare, parsePath_bare hn] at hmeans
  obtain ⟨hmoved, -, hcode⟩ := h.callIn op dir n dir
  have hfst : (op.callIn (s.setCurrentDir dir) dir n).1 = (op.call s (pathOf d n)).1 :=
    (Prod.ext_iff.1 hmeans).1
  have hsame : (op.callIn s dir n).1 = e := by
    rw [← hpath, ← hfst, hmoved]
  rcases he with rfl | rfl
  · exact hcode.1 hsame
  · exact hcode.2 hsame

end Names

/-- **When a path argument means the name in its directory.** In every state that a run of commands
reaches without a mount: `fs_touch`, `fs_rm` and `fs_backspace` with the path `d/n` do what they do
with the name `n` in the directory of `d` if and only if `d` is not the root and, for `fs_touch`,
the path has fewer than 128 characters with its slash; `fs_backspace` of no characters does nothing
either way. -/
theorem path_means_name_iff (grants : ℕ → Bool) (store : Store) (commands : List Command)
    (op : NameOp) (d n : CString) (dir : Ptr) (habs : d.IsAbsolute)
    (hlen : d.chars.length + n.chars.length < 128) (hne : n.chars ≠ [])
    (hn : (47 : UInt8) ∉ n.chars)
    (hdir : getDirByPath (commands.foldl commandStep (initState ⟨grants, 0, []⟩ store)).folders
      (commands.foldl commandStep (initState ⟨grants, 0, []⟩ store)).currentDir d = some dir) :
    MeansName (commands.foldl commandStep (initState ⟨grants, 0, []⟩ store)) op d n dir ↔
      (d ≠ slashString ∧ (op = .touch → (joinPath d n).chars.length < 128)) ∨
        ∃ count ≤ 0, op = .backspace count := by
  have h := (CommandInv.run grants store commands).ram
  generalize commands.foldl commandStep (initState ⟨grants, 0, []⟩ store) = s at h hdir
  have hjoin : ∀ p : CString, (joinPath p n).chars.length = p.chars.length + n.chars.length + 1 := by
    intro p
    rw [joinPath, List.length_append, List.length_cons]
    omega
  -- `fs_backspace` of no character answers before it looks at the name
  by_cases hstop : ∃ count ≤ 0, op = .backspace count
  · refine iff_of_true ?_ (Or.inr hstop)
    obtain ⟨count, hcount, rfl⟩ := hstop
    rcases lt_or_eq_of_le hcount with hneg | rfl
    · simp only [MeansName, NameOp.call, fsBackspace, if_pos hneg, and_self]
    · simp only [MeansName, NameOp.call, fsBackspace, lt_irrefl, if_false, if_true, and_self]
  have hgo : ∀ {name : CString}, name.chars ≠ [] → (op = .touch → name.chars.length < 128) →
      ¬op.Stops name := by
    intro name hname htouch
    have hpos : 0 < name.chars.length := List.length_pos_of_ne_nil hname
    cases op with
    | touch =>
      have hshort := htouch rfl
      simp only [NameOp.Stops]
      omega
    | rm => exact hpos.ne'
    | backspace count => exact fun hle => hstop ⟨count, hle, rfl⟩
  have hbare : ¬op.Stops n := hgo hne fun _ => by omega
  have hne' : ∀ p : CString, (joinPath p n).chars ≠ [] := fun p => by simp [joinPath]
  constructor
  · intro hmeans
    -- before the last slash of "/n" stands the empty path, which names no directory
    have hslash : d ≠ slashString := by
      rintro rfl
      have hone : slashString.chars.length = 1 := rfl
      refine h.not_meansName (Or.inr rfl) hn hbare ?_ hmeans
      rw [pathOf, if_pos rfl, NameOp.call_eq s (hgo (hne' _) fun _ => ?_), parsePath_slash hne hn]
      rw [hjoin, List.length_nil]
      omega
    refine Or.inl ⟨hslash, ?_⟩
    rintro rfl
    -- `fs_touch` bounds the whole path by 127 characters, not the last component
    by_contra hlong
    refine h.not_meansName (Or.inl rfl) hn hbare ?_ hmeans
    rw [pathOf, if_neg hslash, NameOp.call, fsTouch, strlen_chars, if_pos (Or.inr (not_lt.1 hlong))]
  · rintro (⟨hslash, htouch⟩ | hback)
    · exact h.meansName habs hne hn hdir hslash hbare (hgo (hne' d) htouch)
    · exact absurd hback hstop

/-- `"/a/b"`, from the root that holds the directory `a`. -/
theorem path_means_name_nested :
    MeansName ([⟨CommandName.mkdir, [⟨[97], by decide⟩]⟩].foldl commandStep
      (initState ⟨fun _ => true, 0, []⟩ noDisk)) .touch ⟨[47, 97], by decide⟩ ⟨[98], by decide⟩ 1 :=
  (path_means_name_iff (fun _ => true) noDisk [⟨.mkdir, [⟨[97], by decide⟩]⟩] .touch
    ⟨[47, 97], by decide⟩ ⟨[98], by decide⟩ 1 rfl (by decide) (by decide) (by decide)
    (by decide +kernel)).2 (Or.inl ⟨by decide, fun _ => by decide⟩)

/-- `"/a"` is refused in the fresh tree, where `a` in the root is made. -/
theorem path_does_not_mean_name :
    ¬∀ (grants : ℕ → Bool) (store : Store) (commands : List Command) (op : NameOp) (d n : CString)
        (dir : Ptr), d.IsAbsolute → d.chars.length + n.chars.length < 128 → n.chars ≠ [] →
      (47 : UInt8) ∉ n.chars →
      getDirByPath (commands.foldl commandStep (initState ⟨grants, 0, []⟩ store)).folders
        (commands.foldl commandStep (initState ⟨grants, 0, []⟩ store)).currentDir d = some dir →
      MeansName (commands.foldl commandStep (initState ⟨grants, 0, []⟩ store)) op d n dir := by
  intro h
  have hmeans := (h (fun _ => true) noDisk [] .touch slashString ⟨[97], by decide⟩ rootPtr rfl
    (by decide) (by decide) (by decide) (by decide +kernel)).1
  have hcodes : (fsTouch ((initState ⟨fun _ => true, 0, []⟩ noDisk).setCurrentDir rootPtr)
      ⟨[97], by decide⟩ none).1 = (fsTouch (initState ⟨fun _ => true, 0, []⟩ noDisk)
        (pathOf slashString ⟨[97], by decide⟩) none).1 :=
    (Prod.ext_iff.1 hmeans).1
  revert hcodes
  decide +kernel

end LittleLinux
