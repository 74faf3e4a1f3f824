import LittleLinux.Libc.NumeralParsing
import LittleLinux.Ramfs.FileTreeCalls
import LittleLinux.Ramfs.MkdirParents

/-!
# The commands on the tree

What the words of a command ask for is one of six requests: a text, a call with a text for each code,
`mkdir` with or without `-p`, a listing, or the working directory. `request` reads them from the words,
and a command performs its request (`runCommand_eq`).

`TreePerforms` says what a request should answer, print and do when the file system is a `FileTree`. It
leaves the order of a listing open, since that is the order of the hash table. `commands_refine_tree` is
that every run of commands is allowed by it, as long as the calls of the commands are plain.
-/

namespace LittleLinux

open ChainTable

/-! ### Requests -/

/-- What the words of a command ask for. -/
inductive Request where
  | say (code : ℤ) (text : List UInt8)
  | call (op : TreeOp) (texts : List (ℤ × List UInt8))
  | makeOne (verbose : Bool) (dirname : CString)
  | makePath (verbose : Bool) (dirname : CString)
  | list
  | path

/-- The texts of `mkdir`. -/
def mkdirTexts (dirname : CString) : List (ℤ × List UInt8) :=
  let cannot := ascii "mkdir: cannot create directory '" ++ dirname.chars
  [(-1, ascii "mkdir: invalid name\n"), (-2, cannot ++ ascii "': No such file or directory\n"),
    (-3, cannot ++ ascii "': File exists\n"), (-4, cannot ++ ascii "': File exists\n"),
    (-5, ascii "mkdir: memory allocation failed\n")]

def mkdirRequest (words : List CString) : Request :=
  if words = [] then
    .say (-1) (ascii "mkdir: missing operand\nTry 'mkdir --help' for more information.\n")
  else
    match mkdirWords false false words with
    | .help => .say 0
      (ascii "Usage: mkdir [OPTION]... DIRECTORY...\nCreate DIRECTORY(ies).\n" ++
        ascii "  -p      create parent directories as needed\n" ++
        ascii "  -v      print a message for each created directory\n" ++
        ascii "  --version  output version information\n")
    | .version => .say 0 (ascii "ramfs mkdir version 1.0.0\n")
    | .invalid word => .say (-1) (ascii "mkdir: invalid option " ++ word.chars ++ ascii "\n")
    | .operand _ _ none => .say (-1) (ascii "mkdir: missing directory operand\n")
    | .operand true verbose (some dirname) => .makePath verbose dirname
    | .operand false verbose (some dirname) => .makeOne verbose dirname

def cdRequest : List CString → Request
  | [] => .say (-1) (ascii "cd: missing operand\n")
  | [path] =>
    if isWord path "--help" then
      .say 0 (ascii "cd [DIRECTORY]\nChange the current directory to DIRECTORY.\n")
    else if isWord path "--version" then .say 0 (ascii "ramfs cd version 1.0.0\n")
    else .call (.cd path)
      [(-1, ascii "cd: invalid argument\n"),
        (-2, ascii "cd: no such directory: " ++ path.chars ++ ascii "\n")]
  | _ :: _ :: _ => .say (-1) (ascii "cd: too many arguments\n")

/-- One operand, and the two options. -/
def operandRequest (help version missing : String) (op : CString → TreeOp)
    (texts : CString → List (ℤ × List UInt8)) : List CString → Request
  | [name] =>
    if isWord name "--help" then .say 0 (ascii help)
    else if isWord name "--version" then .say 0 (ascii version)
    else .call (op name) (texts name)
  | _ => .say (-1) (ascii missing)

def rmRequest : List CString → Request :=
  operandRequest "rm FILE\nRemove a file.\n" "ramfs rm version 1.0.0\n" "rm: missing file operand\n"
    (fun name => .rm name none) fun _ =>
      [(-1, ascii "rm: invalid file name\n"), (-2, ascii "rm: parent directory not found\n"),
        (-3, ascii "rm: file not found\n"), (-4, ascii "rm: deletion failed\n")]

def rmdirRequest : List CString → Request :=
  operandRequest "rmdir DIRECTORY\nRemove empty directory.\n" "ramfs rmdir version 1.0.0\n"
    "rmdir: missing operand\n" (fun name => .rmdir name none) fun name =>
      [(-1, ascii "rmdir: invalid name\n"), (-2, ascii "rmdir: failed to locate parent\n"),
        (-3, ascii "rmdir: '" ++ name.chars ++ ascii "' is not a directory\n"),
        (-4, ascii "rmdir: directory not empty\n")]

def touchRequest : List CString → Request :=
  operandRequest "touch FILE\nCreate an empty file.\n" "ramfs touch 1.0.0\n"
    "touch: missing file operand\n" (fun name => .touch name none) fun _ =>
      [(-1, ascii "touch: invalid file name\n"), (-2, ascii "touch: parent directory not found\n"),
        (-3, ascii "touch: file already exists\n"), (-4, ascii "touch: file already exists\n"),
        (-5, ascii "touch: memory error\n")]

def writeRequest : List CString → Request
  | [name, content] => .call (.write name (wordData content) none)
    [(-1, ascii "write: invalid arguments\n"), (-2, ascii "write: parent not found\n"),
      (-3, ascii "write: file not found\n"), (-4, ascii "write: out of memory\n")]
  | _ => .say (-1) (ascii "write: usage write FILE \"content\"\n")

def catRequest : List CString → Request
  | [name] => .call (.cat name none)
    [(-1, ascii "cat: invalid arguments\n"), (-2, ascii "cat: cannot open parent\n"),
      (-3, ascii "cat: file not found\n")]
  | _ => .say (-1) (ascii "cat: missing file operand\n")

def lsRequest (words : List CString) : Request :=
  if words.head?.any (fun word => isWord word "--help" || isWord word "-h") then
    .say 0 (ascii "ls: list directory contents\n")
  else .list

/-- The call of `backspace`. -/
def cutRequest (name : CString) (count : Int32) : Request :=
  .call (.backspace name count none)
    [(-1, ascii "backspace: invalid file name\n"), (-2, ascii "backspace: parent directory not found\n"),
      (-3, ascii "backspace: file not found\n"), (-4, ascii "backspace: failed to load file data\n"),
      (-5, ascii "backspace: file is empty\n"), (-6, ascii "backspace: out of memory\n")]

def backspaceRequest : List CString → Request
  | [name] => if isWord name "--help" then .say 0 backspaceHelp else cutRequest name 1
  | [name, number] =>
    if isWord name "--help" then .say 0 backspaceHelp
    else if atoi number 10 < 0 then .say (-1) (ascii "backspace: count must be non-negative\n")
    else cutRequest name (Int32.ofInt (atoi number 10))
  | _ => .say (-1) (ascii "backspace: usage backspace FILE [COUNT]\n")

/-- What a command asks for. -/
def request (c : Command) : Request :=
  match c.name with
  | .mkdir => mkdirRequest c.words
  | .cd => cdRequest c.words
  | .rmdir => rmdirRequest c.words
  | .touch => touchRequest c.words
  | .write => writeRequest c.words
  | .cat => catRequest c.words
  | .ls => lsRequest c.words
  | .pwd => .path
  | .rm => rmRequest c.words
  | .backspace => backspaceRequest c.words

/-- What the file system does for a request. -/
def perform (s : Fs) : Request → ℤ × Fs
  | .say code text => (code, s.print text)
  | .call op texts => (0, (fsCall s op.call).2.report (fsCall s op.call).1 texts)
  | .makeOne verbose dirname => mkdirOne s verbose dirname
  | .makePath verbose dirname => mkdirParents s verbose dirname
  | .list => fsLs s
  | .path => fsPwdApi s

section Requests

variable {s : Fs}

theorem fsMkdirApi_eq (words : List CString) : fsMkdirApi s words = perform s (mkdirRequest words) := by
  unfold fsMkdirApi mkdirRequest
  split_ifs with hwords
  · rfl
  · cases mkdirWords false false words with
    | help => rfl
    | version => rfl
    | invalid word => rfl
    | operand parents verbose dirname =>
      cases dirname with
      | none => rfl
      | some dirname => cases parents <;> rfl

theorem fsCdApi_eq (words : List CString) : fsCdApi s words = perform s (cdRequest words) := by
  rcases words with _ | ⟨path, _ | ⟨second, rest⟩⟩
  · rfl
  · rw [fsCdApi, cdRequest]
    split_ifs <;> rfl
  · rfl

theorem oneOperand_eq (help version missing : String) {call : CString → ℤ × Fs} (op : CString → TreeOp)
    (hcall : ∀ name, call name = fsCall s (op name).call)
    (texts : CString → List (ℤ × List UInt8)) (words : List CString) :
    oneOperand s help version missing call texts words =
      perform s (operandRequest help version missing op texts words) := by
  rcases words with _ | ⟨name, _ | ⟨second, rest⟩⟩
  · rfl
  · rw [oneOperand, operandRequest, hcall]
    split_ifs <;> rfl
  · rfl

theorem backspaceCount_eq (name : CString) (count : Int32) :
    backspaceCount s name count.toInt = perform s (cutRequest name count) := rfl

theorem fsBackspaceApi_eq (words : List CString) :
    fsBackspaceApi s words = perform s (backspaceRequest words) := by
  rcases words with _ | ⟨name, _ | ⟨number, _ | ⟨third, rest⟩⟩⟩
  · rfl
  · rw [fsBackspaceApi, backspaceRequest]
    split_ifs
    · rfl
    · exact backspaceCount_eq _ 1
  · obtain ⟨hle, hlt⟩ := atoi_ten_mem number
    rw [fsBackspaceApi, backspaceRequest]
    split_ifs
    · rfl
    · rfl
    · rw [← backspaceCount_eq, Int32.toInt_ofInt_of_le hle hlt]
  · rfl

/-- **A command performs its request.** -/
theorem runCommand_eq (s : Fs) (c : Command) : runCommand s c = perform s (request c) := by
  rcases c with ⟨name, words⟩
  cases name with
  | mkdir => exact fsMkdirApi_eq words
  | cd => exact fsCdApi_eq words
  | rmdir => exact oneOperand_eq _ _ _ (fun name => .rmdir name none) (fun _ => rfl) _ words
  | touch => exact oneOperand_eq _ _ _ (fun name => .touch name none) (fun _ => rfl) _ words
  | write =>
    rcases words with _ | ⟨file, _ | ⟨content, _ | ⟨third, rest⟩⟩⟩ <;> rfl
  | cat =>
    rcases words with _ | ⟨file, _ | ⟨second, rest⟩⟩ <;> rfl
  | ls =>
    rw [runCommand, request]
    dsimp only
    unfold fsLsApi lsRequest
    split_ifs <;> rfl
  | pwd => rfl
  | rm => exact oneOperand_eq _ _ _ (fun name => .rm name none) (fun _ => rfl) _ words
  | backspace => exact fsBackspaceApi_eq words

end Requests

/-! ### What a request should do -/

/-- The text of a code. -/
def codeText (code : ℤ) (texts : List (ℤ × List UInt8)) : List UInt8 :=
  ((texts.find? fun text => text.1 == code).map Prod.snd).getD []

/-- The message of `-v`. -/
def madeText (verbose : Bool) (name : CString) : List UInt8 :=
  if verbose then ascii "mkdir: created directory '" ++ name.chars ++ ascii "'\n" else []

/-- A listing, with the names in this order. -/
def listingText (dirs files : List CString) : List UInt8 :=
  ascii "Directories:\n" ++ (dirs.flatMap fun name => ascii "  " ++ name.chars ++ ascii "/\n") ++
    ascii "Files:\n" ++ files.flatMap fun name => ascii "  " ++ name.chars ++ ascii " (%lld bytes)\n"

/-- `mkdir -p` from the directory `d` on. -/
def FileTree.makeParts (verbose : Bool) : List CString → FileTree → Trail → (ℤ × List UInt8) × FileTree
  | [], t, _ => ((0, []), t)
  | part :: rest, t, d =>
    if part.chars = [] ∨ part.chars = [46] then makeParts verbose rest t d
    else
      let failed := ((-1, ascii "mkdir: failed to create '" ++ part.chars ++ ascii "'\n"), t)
      match t.entry (part :: d) with
      | some .dir => makeParts verbose rest t (part :: d)
      | some (.file _) => failed
      | none =>
        if part.chars.length ≥ 128 then failed
        else
          let r := makeParts verbose rest (t.set d part (some .dir)) (part :: d)
          ((r.1.1, madeText verbose part ++ r.1.2), r.2)

/-- What a request answers, what it prints, and the tree after it. A listing has each name of the
working directory once, in any order. -/
inductive TreePerforms (t : FileTree) : Request → ℤ × List UInt8 → FileTree → Prop
  | say (code : ℤ) (text : List UInt8) : TreePerforms t (.say code text) (code, text) t
  | call (op : TreeOp) (texts : List (ℤ × List UInt8)) : TreePerforms t (.call op texts)
      (0, (treeCall t op).1.2 ++ codeText (treeCall t op).1.1 texts) (treeCall t op).2
  | makeOne (verbose : Bool) (dirname : CString) : TreePerforms t (.makeOne verbose dirname)
      (0, if (treeCall t (.mkdir dirname none)).1.1 = 0 then madeText verbose dirname
        else codeText (treeCall t (.mkdir dirname none)).1.1 (mkdirTexts dirname))
      (treeCall t (.mkdir dirname none)).2
  | makePath (verbose : Bool) (dirname : CString) : TreePerforms t (.makePath verbose dirname)
      (t.makeParts verbose (pathParts dirname) (if dirname.IsAbsolute then [] else t.cwd)).1
      (t.makeParts verbose (pathParts dirname) (if dirname.IsAbsolute then [] else t.cwd)).2
  | list {dirs files : List CString} (hdirs : dirs.Nodup) (hfiles : files.Nodup)
      (hdir : ∀ k, k ∈ dirs ↔ t.entry (k :: t.cwd) = some .dir)
      (hfile : ∀ k, k ∈ files ↔ ∃ bytes, t.entry (k :: t.cwd) = some (.file bytes)) :
      TreePerforms t .list (0, listingText dirs files) t
  | path : TreePerforms t .path (0, pathChars t.cwd.reverse ++ [10]) t

/-! ### What the commands need -/

/-- Where `mkdir -p` first finds no directory of a name, no file is found in place of it. -/
def PlainParts (s : Fs) : Ptr → List CString → Prop
  | _, [] => True
  | cur, part :: rest =>
    if part.chars = [] ∨ part.chars = [46] then PlainParts s cur rest
    else
      match ramfsHashmapFind (s.folders cur).foderMap part with
      | some info => PlainParts s info.ptr rest
      | none => ClearName s cur part

instance PlainParts.decidable (s : Fs) : ∀ cur parts, Decidable (PlainParts s cur parts)
  | _, [] => inferInstanceAs (Decidable True)
  | cur, part :: rest => by
    have := fun p => PlainParts.decidable s p rest
    unfold PlainParts
    split
    · infer_instance
    · split <;> infer_instance

/-- The path that `fs_cd` builds fits `current_path`. -/
def TreeOp.PathFits (s : Fs) : TreeOp → Prop
  | .cd path => ∀ p ∈ cdTarget s path, (absolutePath s p).chars.length < 512
  | _ => True

instance (s : Fs) (op : TreeOp) : Decidable (op.PathFits s) := by
  unfold TreeOp.PathFits
  split <;> infer_instance

/-- The calls of the request are plain. -/
def Request.Plain (s : Fs) : Request → Prop
  | .call op _ => op.Plain s ∧ op.PathFits s
  | .makeOne _ dirname => (TreeOp.mkdir dirname none).Plain s
  | .makePath _ dirname => PlainParts s (startDir s.currentDir dirname) (pathParts dirname)
  | .say _ _ | .list | .path => True

instance (s : Fs) (q : Request) : Decidable (q.Plain s) := by
  unfold Request.Plain
  split <;> infer_instance

/-- The words fit the buffers for paths, and what the command asks for is plain. -/
def Command.Plain (s : Fs) (c : Command) : Prop :=
  (∀ word ∈ c.words, word.chars.length < 512) ∧ (request c).Plain s

instance (s : Fs) (c : Command) : Decidable (c.Plain s) :=
  inferInstanceAs (Decidable (_ ∧ _))

/-! ### The working directory -/

/-- What the shell shows of the working directory, and that its names are found by paths. -/
structure PathRel (s : Fs) (t : FileTree) : Prop where
  names : ∀ k ∈ t.cwd, IsEntryName k
  path : s.currentPath.chars = pathChars t.cwd.reverse
  pwd : s.pwd = some (envValue s.currentPath)

section WorkingDirectory

variable {s s' : Fs} {t : FileTree} {d : Trail} {p : Ptr}

theorem PathRel.of_eq (h : PathRel s t) {t' : FileTree} (hpath : s'.currentPath = s.currentPath)
    (hpwd : s'.pwd = s.pwd) (hcwd : t'.cwd = t.cwd) : PathRel s' t' where
  names := hcwd ▸ h.names
  path := by rw [hpath, hcwd, h.path]
  pwd := by rw [hpwd, hpath, h.pwd]

/-- Each directory has an address of its own on the way. -/
theorem RamInv.length_le_of_dirAt (h : RamInv s) (hd : dirAt s.folders d = some p) : d.length ≤ p := by
  induction d generalizing p with
  | nil => exact Nat.zero_le p
  | cons k d ih =>
    obtain ⟨q, -, hq, -, -, -, -, hlt⟩ := h.dirAt_cons_eq_some hd
    exact (ih hq).trans_lt hlt

/-- **The printer** writes the names of the trail. -/
theorem TreeRel.buildAbsolutePath (h : TreeRel s t) (hd : dirAt s.folders d = some p)
    (hnames : ∀ k ∈ d, IsEntryName k) {fuel : ℕ} (hfuel : d.length < fuel) :
    buildAbsolutePath s.folders fuel p = pathChars d.reverse := by
  induction d generalizing fuel p with
  | nil =>
    obtain rfl := Option.some.inj hd
    obtain ⟨n, rfl⟩ := Nat.exists_eq_add_of_lt hfuel
    rw [LittleLinux.buildAbsolutePath, h.root]
    rfl
  | cons k d ih =>
    obtain ⟨n, rfl⟩ := Nat.exists_eq_add_of_lt hfuel
    obtain ⟨q, -, hq, -, -, hname, hparent, hlt⟩ := h.ram.dirAt_cons_eq_some hd
    obtain ⟨-, hrest⟩ := List.forall_mem_cons.1 hnames
    have hne : p ≠ rootPtr := Nat.ne_of_gt ((Nat.zero_le q).trans_lt hlt)
    rw [LittleLinux.buildAbsolutePath, hparent]
    dsimp only
    rw [if_pos hne, ih hq hrest (by simp; omega), hname, List.reverse_cons]
    exact pathChars_snoc (fun name hmem => hrest name (List.mem_reverse.1 hmem)) k

theorem TreeRel.absolutePath (h : TreeRel s t) (hd : dirAt s.folders d = some p)
    (hnames : ∀ k ∈ d, IsEntryName k) : (absolutePath s p).chars = pathChars d.reverse := by
  have hle := h.ram.length_le_of_dirAt hd
  have hlt := h.ram.dirAt_lt hd
  exact h.buildAbsolutePath hd hnames ((hle.trans_lt hlt).trans (Nat.lt_succ_self _))

/-- A path leads along names that are found by paths. -/
theorem FileTree.names_of_stepPart {part : CString} {e : Trail} (hd : ∀ k ∈ d, IsEntryName k)
    (hpart : (47 : UInt8) ∉ part.chars) (h : t.stepPart d part = some e) : ∀ k ∈ e, IsEntryName k := by
  rw [FileTree.stepPart] at h
  split_ifs at h with hstay hup
  · obtain rfl := Option.some.inj h
    exact hd
  · obtain rfl := Option.some.inj h
    exact fun k hk => hd k (List.mem_of_mem_tail hk)
  · obtain rfl := Option.some.inj h
    rw [not_or] at hstay
    exact List.forall_mem_cons.2 ⟨⟨hstay.1, hstay.2, hup, hpart⟩, hd⟩

theorem FileTree.names_of_resolve {base e : Trail} {path : CString} (hbase : ∀ k ∈ base, IsEntryName k)
    (h : t.resolve base path = some e) : ∀ k ∈ e, IsEntryName k := by
  have hwalk : ∀ (parts : List CString) (d : Trail), (∀ part ∈ parts, (47 : UInt8) ∉ part.chars) →
      (∀ k ∈ d, IsEntryName k) → parts.foldlM t.stepPart d = some e → ∀ k ∈ e, IsEntryName k := by
    intro parts
    induction parts with
    | nil =>
      intro d _ hd hfold
      obtain rfl := Option.some.inj hfold
      exact hd
    | cons part parts ih =>
      intro d hparts hd hfold
      obtain ⟨hpart, hrest⟩ := List.forall_mem_cons.1 hparts
      rw [List.foldlM_cons] at hfold
      obtain ⟨d', hstep, hfold⟩ := Option.bind_eq_some_iff.1 hfold
      exact ih d' hrest (FileTree.names_of_stepPart hd hpart hstep) hfold
  rw [FileTree.resolve] at h
  split_ifs at h with hnil habs
  · exact hwalk _ [] (fun _ => slash_notMem_components) (fun k hk => absurd hk List.not_mem_nil) h
  · exact hwalk _ base (fun _ => slash_notMem_components) hbase h

end WorkingDirectory

/-! ### Calls and texts -/

/-- The request is answered and printed as the tree says, and the state holds the next tree. -/
def Performs (s : Fs) (t : FileTree) (q : Request) : Prop :=
  ∃ t', TreePerforms t q ((perform s q).1, (perform s q).2.out.drop s.out.length) t' ∧
    TreeRel (perform s q).2 t' ∧ PathRel (perform s q).2 t'

section Requests

variable {s s' : Fs} {t t' : FileTree} {d : Trail} {p : Ptr}

theorem report_eq (s : Fs) (code : ℤ) (texts : List (ℤ × List UInt8)) :
    s.report code texts = s.print (codeText code texts) := by
  rw [Fs.report, codeText]
  cases texts.find? fun text => text.1 == code with
  | some text => rfl
  | none => exact congrArg (fun out => { s with out := out }) (List.append_nil s.out).symm

theorem printMade_eq (s : Fs) (verbose : Bool) (name : CString) :
    printMade s verbose name = s.print (madeText verbose name) := by
  cases verbose with
  | true => rfl
  | false => exact congrArg (fun out => { s with out := out }) (List.append_nil s.out).symm

theorem PathRel.print (h : PathRel s t) (text : List UInt8) : PathRel (s.print text) t :=
  h.of_eq rfl rfl rfl

/-- What no call but `fs_cd` changes, and what it prints comes last. -/
theorem RamInv.call_frame (h : RamInv s) {op : FsOp} (hop : op.InRam) (hcd : ∀ path, op ≠ .cd path) :
    (fsCall s op).2.currentPath = s.currentPath ∧ (fsCall s op).2.pwd = s.pwd ∧
      s.out <+: (fsCall s op).2.out := by
  obtain ⟨dir, -, heffect⟩ := h.call hop hcd
  rw [fsStep] at heffect
  generalize (fsCall s op).1 = code at heffect
  generalize (fsCall s op).2 = s' at heffect ⊢
  cases heffect with
  | printed text => exact ⟨rfl, rfl, List.prefix_append _ _⟩
  | _ => exact ⟨rfl, rfl, List.prefix_refl _⟩

/-- No call but `cd` moves in the tree. -/
theorem treeCall_cwd (t : FileTree) {op : TreeOp} (hop : ∀ path, op ≠ .cd path) :
    (treeCall t op).2.cwd = t.cwd := by
  have hmake : ∀ d k e, (t.make d k e).2.cwd = t.cwd := by
    intro d k e
    rw [FileTree.make.eq_def]
    split <;> rfl
  have hremove : ∀ d k, (t.removeDir d k).2.cwd = t.cwd := by
    intro d k
    rw [FileTree.removeDir]
    split_ifs <;> rfl
  have hchange : ∀ d k f, (t.change d k f).2.cwd = t.cwd := by
    intro d k f
    rw [FileTree.change.eq_def]
    split
    · split <;> rfl
    · rfl
  cases op with
  | cd path => exact absurd rfl (hop path)
  | mkdir name dir =>
    rw [treeCall]
    split_ifs
    · rfl
    · cases t.fromDir dir with
      | none => rfl
      | some d => exact hmake d name .dir
  | rmdir name dir =>
    rw [treeCall]
    cases t.fromDir dir with
    | none => rfl
    | some d => exact hremove d name
  | touch name dir =>
    rw [treeCall]
    split_ifs
    · rfl
    · cases t.locate name dir with
      | error code => rfl
      | ok r => exact hmake r.1 r.2 (.file [])
  | write name data dir =>
    rw [treeCall]
    cases t.fromDir dir with
    | none => rfl
    | some d => exact hchange d name _
  | cat name dir =>
    rw [treeCall]
    cases t.fromDir dir with
    | none => rfl
    | some d => rfl
  | backspace name count dir =>
    rw [treeCall]
    split_ifs
    · rfl
    · rfl
    · cases t.locate name dir with
      | error code => rfl
      | ok r => exact hchange r.1 r.2 _
  | rm name dir =>
    rw [treeCall]
    split_ifs
    · rfl
    · cases t.locate name dir with
      | error code => rfl
      | ok r => exact hchange r.1 r.2 _

/-- A call keeps the working directory and what is shown of it together. -/
theorem TreeRel.pathRel_call (h : TreeRel s t) (hpath : PathRel s t) {op : TreeOp} (hop : op.Plain s) :
    PathRel (fsCall s op.call).2 (treeCall t op).2 ∧ s.out <+: (fsCall s op.call).2.out := by
  by_cases hcd : ∃ path, op = .cd path
  swap
  · have hne : ∀ path, op ≠ .cd path := fun path heq => hcd ⟨path, heq⟩
    have hframe : (fsCall s op.call).2.currentPath = s.currentPath ∧ (fsCall s op.call).2.pwd = s.pwd ∧
        s.out <+: (fsCall s op.call).2.out := by
      refine h.ram.call_frame ?_ fun path => ?_
      · cases op <;> trivial
      · cases op with
        | cd path => exact absurd rfl (hne path)
        | _ => exact fun heq => FsOp.noConfusion heq
    exact ⟨hpath.of_eq hframe.1 hframe.2.1 (treeCall_cwd t hne), hframe.2.2⟩
  obtain ⟨path, rfl⟩ := hcd
  have hcall : fsCall s (TreeOp.cd path).call = fsCd s path := rfl
  rw [fsCd_eq, cdTarget_eq] at hcall
  rw [hcall, treeCall]
  rcases (h.getDirByPath h.cwd hop).eq_none_or with ⟨hp, hd⟩ | ⟨p, d, hp, hd, htrail⟩
  · rw [hp, hd]
    exact ⟨hpath, List.prefix_refl _⟩
  · rw [hp, hd]
    have hnames := FileTree.names_of_resolve hpath.names hd
    exact ⟨⟨hnames, h.absolutePath htrail hnames, rfl⟩, List.prefix_refl _⟩

/-- A call with a text for each code. -/
theorem TreeRel.performs_call (h : TreeRel s t) (hpath : PathRel s t) {op : TreeOp}
    (texts : List (ℤ × List UInt8)) (hop : op.Plain s) : Performs s t (.call op texts) := by
  obtain ⟨hanswer, hrel⟩ := h.step hop
  obtain ⟨hnext, hout⟩ := h.pathRel_call hpath hop
  obtain ⟨hcode, htext⟩ := Prod.ext_iff.1 hanswer
  rw [callStep] at hcode htext hrel
  dsimp only at hcode htext hrel
  refine ⟨(treeCall t op).2, ?_, ?_, ?_⟩
  · have hdrop : (perform s (.call op texts)).2.out.drop s.out.length =
        (treeCall t op).1.2 ++ codeText (treeCall t op).1.1 texts := by
      rw [perform, report_eq, Fs.print, List.drop_append_of_le_length hout.length_le, htext, hcode]
    rw [hdrop]
    exact .call op texts
  · rw [perform, report_eq]
    exact hrel.print _
  · rw [perform, report_eq]
    exact hnext.print _

/-- The codes of `fs_mkdir`. -/
theorem treeCall_mkdir_mem (t : FileTree) (name : CString) :
    (treeCall t (.mkdir name none)).1.2 = [] ∧
      (treeCall t (.mkdir name none)).1.1 ∈ ([0, -1, -3, -4] : List ℤ) := by
  rw [treeCall]
  split_ifs
  · exact ⟨rfl, by simp⟩
  · refine ⟨rfl, ?_⟩
    dsimp only [FileTree.fromDir]
    rw [FileTree.make.eq_def]
    split <;> simp

/-- `mkdir` without `-p`. -/
theorem TreeRel.performs_makeOne (h : TreeRel s t) (hpath : PathRel s t) (verbose : Bool)
    {dirname : CString} (hop : (TreeOp.mkdir dirname none).Plain s) :
    Performs s t (.makeOne verbose dirname) := by
  obtain ⟨hanswer, hrel⟩ := h.step hop
  obtain ⟨hnext, hout⟩ := h.pathRel_call hpath hop
  obtain ⟨hcode, htext⟩ := Prod.ext_iff.1 hanswer
  obtain ⟨hnil, hmem⟩ := treeCall_mkdir_mem t dirname
  rw [hnil] at htext
  rw [callStep] at hcode htext hrel
  dsimp only at hcode htext hrel
  -- both branches print one text
  have hone : perform s (.makeOne verbose dirname) =
      (0, (fsCall s (TreeOp.mkdir dirname none).call).2.print
        (if (treeCall t (.mkdir dirname none)).1.1 = 0 then madeText verbose dirname
          else codeText (treeCall t (.mkdir dirname none)).1.1 (mkdirTexts dirname))) := by
    have hfs : fsMkdir s dirname none = fsCall s (TreeOp.mkdir dirname none).call := rfl
    rw [perform, mkdirOne, hfs, hcode]
    generalize (treeCall t (.mkdir dirname none)).1.1 = code at hmem
    generalize (fsCall s (TreeOp.mkdir dirname none).call).2 = s'
    simp only [List.mem_cons, List.not_mem_nil, or_false] at hmem
    rcases hmem with rfl | rfl | rfl | rfl
    · exact congrArg (Prod.mk 0) (printMade_eq s' verbose dirname)
    · exact congrArg (Prod.mk 0) (report_eq s' (-1) (mkdirTexts dirname))
    · exact congrArg (Prod.mk 0) (report_eq s' (-3) (mkdirTexts dirname))
    · exact congrArg (Prod.mk 0) (report_eq s' (-4) (mkdirTexts dirname))
  refine ⟨(treeCall t (.mkdir dirname none)).2, ?_, ?_, ?_⟩
  · rw [hone, Fs.print]
    dsimp only
    rw [List.drop_append_of_le_length hout.length_le, htext, List.nil_append]
    exact .makeOne verbose dirname
  · rw [hone]
    exact hrel.print _
  · rw [hone]
    exact hnext.print _

/-- A listing has the names of the two tables. -/
theorem TreeRel.performs_list (h : TreeRel s t) (hpath : PathRel s t) : Performs s t .list := by
  refine ⟨t, ?_, h.print _, hpath.print _⟩
  have hlist : perform s .list = (0, s.print (listingText
      ((s.folders s.currentDir).foderMap.nodes.map Node.key)
      ((s.folders s.currentDir).fileMap.nodes.map Node.key))) := by
    rw [perform, fsLs, listingText, List.flatMap_map, List.flatMap_map]
  have hentry := fun k => h.entry k t.cwd
  simp only [h.cwd, Option.bind_some] at hentry
  rw [hlist, Fs.print]
  dsimp only
  rw [List.drop_left]
  refine .list (h.ram.foders _).keys_nodup (h.ram.files _).keys_nodup (fun k => ?_) fun k => ?_
  · rw [h.entry_eq_dir_iff h.cwd, Ne, lookup_eq_none_iff (h.ram.foders _)]
    simp only [List.mem_map, not_forall, not_not, exists_prop]
  · rw [List.mem_map]
    constructor
    · rintro ⟨nd, hnd, rfl⟩
      have hfile : lookup djb2Bucket (s.folders s.currentDir).fileMap nd.key = some nd.value :=
        (lookup_eq_some_iff (h.ram.files _)).2 ⟨nd, hnd, rfl, rfl⟩
      exact ⟨_, (h.entry_of_file h.cwd hfile).1⟩
    · rintro ⟨bytes, hbytes⟩
      cases hfile : lookup djb2Bucket (s.folders s.currentDir).fileMap k with
      | some info =>
        obtain ⟨nd, hnd, hkey, -⟩ := (lookup_eq_some_iff (h.ram.files _)).1 hfile
        exact ⟨nd, hnd, hkey⟩
      | none =>
        rw [hentry, hfile] at hbytes
        revert hbytes
        cases lookup djb2Bucket (s.folders s.currentDir).foderMap k with
        | none => simp [entryOf]
        | some info => simp [entryOf]

theorem TreeRel.performs_path (h : TreeRel s t) (hpath : PathRel s t) : Performs s t .path := by
  refine ⟨t, ?_, h.print _, hpath.print _⟩
  rw [perform, fsPwdApi, Fs.print]
  dsimp only
  rw [List.drop_left, hpath.path]
  exact .path

/-- A text is printed, and that is all. -/
theorem TreeRel.performs_say (h : TreeRel s t) (hpath : PathRel s t) (code : ℤ) (text : List UInt8) :
    Performs s t (.say code text) := by
  refine ⟨t, ?_, h.print _, hpath.print _⟩
  rw [perform, Fs.print]
  dsimp only
  rw [List.drop_left]
  exact .say code text

end Requests

/-! ### `mkdir -p` -/

section Parts

variable {s s' : Fs} {t : FileTree} {d : Trail} {cur : Ptr} {part : CString} {parts : List CString}
  {verbose : Bool}

/-- The loop answers and prints as the tree says, and moves nothing. -/
structure PartsFollow (s : Fs) (t : FileTree) (r : ℤ × Fs) (r' : (ℤ × List UInt8) × FileTree) : Prop where
  code : r.1 = r'.1.1
  out : r.2.out = s.out ++ r'.1.2
  rel : TreeRel r.2 r'.2
  path : r.2.currentPath = s.currentPath
  pwd : r.2.pwd = s.pwd
  cwd : r'.2.cwd = t.cwd

theorem plainParts_skip (hskip : part.chars = [] ∨ part.chars = [46]) :
    PlainParts s cur (part :: parts) ↔ PlainParts s cur parts := by
  rw [PlainParts, if_pos hskip]

theorem plainParts_enter (hskip : ¬(part.chars = [] ∨ part.chars = [46])) {info : RamfsFoderInfo}
    (hfind : ramfsHashmapFind (s.folders cur).foderMap part = some info) :
    PlainParts s cur (part :: parts) ↔ PlainParts s info.ptr parts := by
  rw [PlainParts, if_neg hskip, hfind]

/-- In a directory with nothing in it no file is found. -/
theorem plainParts_of_empty (hfoders : (s.folders cur).foderMap = Table.empty)
    (hfiles : (s.folders cur).fileMap = Table.empty) (parts : List CString) :
    PlainParts s cur parts := by
  induction parts with
  | nil => trivial
  | cons part parts ih =>
    rw [PlainParts]
    split_ifs with hskip
    · exact ih
    · have hfind : ramfsHashmapFind (s.folders cur).foderMap part = none := by
        rw [ramfsHashmapFind_eq_lookup, hfoders, lookup_empty]
      rw [hfind]
      refine Or.inr (Or.inr fun nd hnd => ?_)
      rw [hfiles] at hnd
      exact absurd hnd List.not_mem_nil

/-- Old trails lead where they led. -/
theorem TreeRel.dirAt_madeDir (h : TreeRel s t) (hcur : cur < s.mem.next)
    (hfind : ramfsHashmapFind (s.folders cur).foderMap part = none) {e : Trail} {q : Ptr}
    (he : dirAt s.folders e = some q) : dirAt (LittleLinux.madeDir s cur part).folders e = some q := by
  induction e generalizing q with
  | nil => exact he
  | cons k e ih =>
    obtain ⟨p, info, hp, hinfo, rfl, -⟩ := h.ram.dirAt_cons_eq_some he
    have hlt := h.ram.dirAt_lt hp
    rw [dirAt_cons, ih hp, Option.bind_some, ← ramfsHashmapFind_eq_lookup, find_madeDir hcur,
      if_neg (Nat.ne_of_lt hlt), if_neg, ramfsHashmapFind_eq_lookup, hinfo, Option.map_some]
    rintro ⟨rfl, rfl⟩
    rw [ramfsHashmapFind_eq_lookup, hinfo] at hfind
    exact absurd hfind (by simp)

/-- The directory that the loop made, and its trail. -/
theorem TreeRel.madePart (h : TreeRel s t) (hd : dirAt s.folders d = some cur)
    (hfree : NameFree s cur part) (verbose : Bool) :
    TreeRel (LittleLinux.madePart s verbose cur part) (t.set d part (some .dir)) ∧
      dirAt (LittleLinux.madePart s verbose cur part).folders (part :: d) = some s.mem.next := by
  have hlt := h.ram.dirAt_lt hd
  obtain ⟨hfind, hfile⟩ := hfree
  have hrel := h.madeDir hd (h.ram.madeDir hlt ⟨hfind, hfile⟩)
    ((ramfsHashmapFind_eq_lookup _ _).symm.trans hfind) (h.ram.lookup_of_find_none hfile)
  refine ⟨?_, ?_⟩
  · rw [LittleLinux.madePart, printMade_eq]
    exact hrel.print _
  · rw [folders_madePart, dirAt_cons, h.dirAt_madeDir hlt hfind hd, Option.bind_some,
      ← ramfsHashmapFind_eq_lookup, find_madeDir hlt, if_neg (Nat.ne_of_lt hlt), if_pos ⟨rfl, rfl⟩]
    rfl

/-- A turn of the loop that fails. -/
theorem mkdirParts_failed (hskip : ¬(part.chars = [] ∨ part.chars = [46]))
    (hfind : ramfsHashmapFind (s.folders cur).foderMap part = none) {code : ℤ} (hcode : code ≠ 0)
    (hcall : fsMkdir (s.setCurrentDir cur) part none = (code, s.setCurrentDir cur)) :
    mkdirParts verbose (part :: parts) s cur =
      (-1, s.print (ascii "mkdir: failed to create '" ++ part.chars ++ ascii "'\n")) := by
  rw [mkdirParts, if_neg hskip, hfind]
  dsimp only
  rw [hcall, if_pos hcode]
  rfl

/-- A turn of the loop that makes a directory. -/
theorem TreeRel.mkdirParts_made (h : TreeRel s t) (hcur : cur < s.mem.next)
    (hskip : ¬(part.chars = [] ∨ part.chars = [46])) (hlen : part.chars.length ≤ 127)
    (hfree : NameFree s cur part) :
    mkdirParts verbose (part :: parts) s cur =
      mkdirParts verbose parts (LittleLinux.madePart s verbose cur part) s.mem.next := by
  have hnil : ¬(part.chars.length = 0 ∨ part.chars.length ≥ 128) := by
    rw [List.length_eq_zero_iff]
    rw [not_or] at hskip ⊢
    exact ⟨hskip.1, by omega⟩
  have hcall : fsMkdir (s.setCurrentDir cur) part none =
      (0, LittleLinux.madeDir (s.setCurrentDir cur) cur part) := by
    rw [fsMkdir, strlen_chars, if_neg hnil]
    exact (h.ram.setCurrentDir hcur).mkdirIn_of_nameFree h.mem hcur hlen hfree
  have hback : (LittleLinux.madeDir (s.setCurrentDir cur) cur part).setCurrentDir s.currentDir =
      LittleLinux.madeDir s cur part := rfl
  have hentry : ramfsHashmapFind
      ((LittleLinux.madePart s verbose cur part).folders cur).foderMap part = some (madeEntry s cur part) := by
    rw [folders_madePart, find_madeDir hcur, if_neg (Nat.ne_of_lt hcur), if_pos ⟨rfl, rfl⟩]
  rw [LittleLinux.madePart] at hentry
  rw [mkdirParts, if_neg hskip, hfree.1]
  dsimp only
  rw [hcall, if_neg (by simp), hback, hentry]
  rfl

/-- What the tree does for a component that fails. -/
theorem FileTree.makeParts_failed (hskip : ¬(part.chars = [] ∨ part.chars = [46]))
    (hentry : (∃ bytes, t.entry (part :: d) = some (.file bytes)) ∨
      t.entry (part :: d) = none ∧ part.chars.length ≥ 128) :
    t.makeParts verbose (part :: parts) d =
      ((-1, ascii "mkdir: failed to create '" ++ part.chars ++ ascii "'\n"), t) := by
  rw [FileTree.makeParts, if_neg hskip]
  rcases hentry with ⟨bytes, hfile⟩ | ⟨hnone, hlen⟩
  · rw [hfile]
  · rw [hnone]
    dsimp only
    rw [if_pos hlen]

/-- **The loop of `mkdir -p`** makes the directories that the tree says. -/
theorem TreeRel.mkdirParts (h : TreeRel s t) (hd : dirAt s.folders d = some cur)
    (hparts : PlainParts s cur parts) :
    PartsFollow s t (LittleLinux.mkdirParts verbose parts s cur) (t.makeParts verbose parts d) := by
  -- induction on the components left, with the directory reached so far as the start of the rest
  induction parts generalizing s t d cur with
  | nil => exact ⟨rfl, (List.append_nil s.out).symm, h, rfl, rfl, rfl⟩
  | cons part rest ih =>
    by_cases hskip : part.chars = [] ∨ part.chars = [46]
    · rw [LittleLinux.mkdirParts, if_pos hskip, FileTree.makeParts, if_pos hskip]
      exact ih h hd ((plainParts_skip hskip).1 hparts)
    have hlt := h.ram.dirAt_lt hd
    cases hfoder : lookup djb2Bucket (s.folders cur).foderMap part with
    | some info =>
      have hfind : ramfsHashmapFind (s.folders cur).foderMap part = some info := by
        rw [ramfsHashmapFind_eq_lookup, hfoder]
      have hnext : dirAt s.folders (part :: d) = some info.ptr := by
        rw [dirAt_cons, hd, Option.bind_some, hfoder, Option.map_some]
      rw [LittleLinux.mkdirParts, if_neg hskip, hfind, FileTree.makeParts, if_neg hskip,
        h.entry_of_foder hd hfoder]
      exact ih h hnext ((plainParts_enter hskip hfind).1 hparts)
    | none =>
      have hfind : ramfsHashmapFind (s.folders cur).foderMap part = none := by
        rw [ramfsHashmapFind_eq_lookup, hfoder]
      have hclear : ClearName s cur part := by
        rw [PlainParts, if_neg hskip, hfind] at hparts
        exact hparts
      -- every failing branch prints the error and ends the loop where it stands
      have hfailed : ∀ code : ℤ, code ≠ 0 →
          fsMkdir (s.setCurrentDir cur) part none = (code, s.setCurrentDir cur) →
          ((∃ bytes, t.entry (part :: d) = some (.file bytes)) ∨
            t.entry (part :: d) = none ∧ part.chars.length ≥ 128) →
          PartsFollow s t (LittleLinux.mkdirParts verbose (part :: rest) s cur)
            (t.makeParts verbose (part :: rest) d) := by
        intro code hcode hcall hentry
        rw [mkdirParts_failed hskip hfind hcode hcall, FileTree.makeParts_failed hskip hentry]
        exact ⟨rfl, rfl, h.print _, rfl, rfl, rfl⟩
      have hnofoder : t.entry (part :: d) ≠ some .dir := fun hdir =>
        (h.entry_eq_dir_iff hd).1 hdir hfoder
      by_cases hlen : part.chars.length ≥ 128
      · refine hfailed (-1) (by norm_num) ?_ ?_
        · rw [fsMkdir, strlen_chars, if_pos (Or.inr hlen)]
        · cases hentry : t.entry (part :: d) with
          | none => exact Or.inr ⟨rfl, hlen⟩
          | some e =>
            cases e with
            | dir => exact absurd hentry hnofoder
            | file bytes => exact Or.inl ⟨bytes, rfl⟩
      have hshort : ¬(part.chars.length = 0 ∨ part.chars.length ≥ 128) := by
        rw [List.length_eq_zero_iff]
        exact not_or.2 ⟨fun hnil => hskip (Or.inl hnil), hlen⟩
      cases hfile : ramfsFileHashmapFind (s.folders cur).fileMap part with
      | some info =>
        obtain ⟨info', hinfo'⟩ := hclear.exists_file hfoder hfile
        refine hfailed (-4) (by norm_num) ?_ (Or.inl ⟨_, (h.entry_of_file hd hinfo').1⟩)
        have hload : lazyLoadDirectory (s.setCurrentDir cur) cur = s.setCurrentDir cur :=
          (h.ram.setCurrentDir hlt).lazyLoad cur
        rw [fsMkdir, strlen_chars, if_neg hshort, LittleLinux.fromDir]
        dsimp only [Fs.setCurrentDir] at hload ⊢
        rw [LittleLinux.mkdirIn, hload]
        dsimp only
        rw [hfind, hfile]
        rfl
      | none =>
        have hfree : NameFree s cur part := ⟨hfind, hfile⟩
        obtain ⟨hrel, htrail⟩ := h.madePart hd hfree verbose
        have hnew : (LittleLinux.madePart s verbose cur part).folders s.mem.next = newDirNode s cur part := by
          rw [folders_madePart, folders_madeDir_new hlt]
        -- from here on the loop is in a folder it has just made, so the rest of the path is new as well
        have hrest : PlainParts (LittleLinux.madePart s verbose cur part) s.mem.next rest :=
          plainParts_of_empty (by rw [hnew]; rfl) (by rw [hnew]; rfl) rest
        have hfollow := ih hrel htrail hrest
        rw [h.mkdirParts_made hlt hskip (by omega) hfree, FileTree.makeParts, if_neg hskip,
          h.entry_of_none hd hfoder (h.ram.lookup_of_find_none hfile)]
        dsimp only
        rw [if_neg hlen]
        obtain ⟨out, hmade⟩ := madePart_eq s verbose cur part
        refine ⟨hfollow.code, ?_, hfollow.rel, hfollow.path.trans ?_, hfollow.pwd.trans ?_,
          hfollow.cwd⟩
        · rw [hfollow.out, LittleLinux.madePart, printMade_eq, Fs.print, List.append_assoc]
          rfl
        · rw [hmade]
          rfl
        · rw [hmade]
          rfl

/-- `mkdir -p`. -/
theorem TreeRel.performs_makePath (h : TreeRel s t) (hpath : PathRel s t) {dirname : CString}
    (hop : PlainParts s (startDir s.currentDir dirname) (pathParts dirname)) :
    Performs s t (.makePath verbose dirname) := by
  have hstart : dirAt s.folders (if dirname.IsAbsolute then [] else t.cwd) =
      some (startDir s.currentDir dirname) := by
    rw [startDir]
    split_ifs
    · rfl
    · exact h.cwd
  have hfollow : PartsFollow s t
      (LittleLinux.mkdirParts verbose (pathParts dirname) s (startDir s.currentDir dirname))
      (t.makeParts verbose (pathParts dirname) (if dirname.IsAbsolute then [] else t.cwd)) :=
    h.mkdirParts hstart hop
  have hperform : perform s (.makePath verbose dirname) =
      LittleLinux.mkdirParts verbose (pathParts dirname) s (startDir s.currentDir dirname) :=
    mkdirParents_eq s verbose dirname
  refine ⟨_, ?_, hperform ▸ hfollow.rel, hperform ▸ hpath.of_eq hfollow.path hfollow.pwd hfollow.cwd⟩
  rw [hperform, hfollow.out, List.drop_left, hfollow.code]
  exact .makePath verbose dirname

end Parts

/-! ### Commands -/

section Commands

variable {s : Fs} {t : FileTree}

/-- **One request.** -/
theorem TreeRel.performs (h : TreeRel s t) (hpath : PathRel s t) {q : Request} (hq : q.Plain s) :
    Performs s t q := by
  cases q with
  | say code text => exact h.performs_say hpath code text
  | call op texts => exact h.performs_call hpath texts hq.1
  | makeOne verbose dirname => exact h.performs_makeOne hpath verbose hq
  | makePath verbose dirname => exact h.performs_makePath hpath hq
  | list => exact h.performs_list hpath
  | path => exact h.performs_path hpath

/-- What a command answers and prints, and the state after it. -/
def commandCall (s : Fs) (c : Command) : (ℤ × List UInt8) × Fs :=
  (((runCommand s c).1, (runCommand s c).2.out.drop s.out.length), (runCommand s c).2)

/-- The state holds the tree, and shows its working directory. -/
structure ShellRel (s : Fs) (t : FileTree) : Prop where
  tree : TreeRel s t
  path : PathRel s t

theorem shellRel_initState {mem : Memory} (hmem : mem.Unfailing) (store : Store) :
    ShellRel (initState mem store) .empty where
  tree := treeRel_initState hmem store
  path := ⟨fun _ hk => absurd hk List.not_mem_nil, rfl, rfl⟩

/-- **One command.** -/
theorem ShellRel.command (h : ShellRel s t) {c : Command} (hc : c.Plain s) :
    ∃ t', TreePerforms t (request c) (commandCall s c).1 t' ∧ ShellRel (commandCall s c).2 t' := by
  obtain ⟨t', hperforms, hrel, hpath⟩ := h.tree.performs h.path hc.2
  rw [commandCall, runCommand_eq]
  exact ⟨t', hperforms, hrel, hpath⟩

/-- **The commands work on a tree.** Along every run of commands after `fs_init` with nothing mounted, each
with any words, in which the calls are plain, each command answers, prints and changes what its words ask of
the tree that the commands before it left. -/
theorem commands_refine_tree (mem : Memory) (hmem : mem.Unfailing) (store : Store)
    (commands : List Command)
    (hplain : Along commandStep (fun s c => c.Plain s) (initState mem store) commands) :
    Allows (fun t c r t' => TreePerforms t (request c) r t') .empty commands
      (answers commandCall (initState mem store) commands) :=
  allows_answers_of_simulation (fun _ _ _ h hc => h.command hc) (shellRel_initState hmem store) hplain

/-- A path that is made with its parents, a file in it, a listing, and two requests that fail. -/
def treeSession : List Command :=
  [⟨.mkdir, [.ofBytes [45, 112], .ofBytes [45, 118], .ofBytes [97, 47, 98]]⟩,
    ⟨.cd, [.ofBytes [97, 47, 46, 47, 98]]⟩, ⟨.touch, [.ofBytes [102]]⟩,
    ⟨.write, [.ofBytes [102], .ofBytes [104, 105]]⟩, ⟨.backspace, [.ofBytes [102], .ofBytes [49]]⟩,
    ⟨.cat, [.ofBytes [102]]⟩, ⟨.ls, []⟩, ⟨.pwd, []⟩, ⟨.mkdir, [.ofBytes [102]]⟩, ⟨.rm, []⟩,
    ⟨.cd, [.ofBytes [46, 46]]⟩, ⟨.rmdir, [.ofBytes [98]]⟩]

theorem commands_refine_tree_treeSession :
    Allows (fun t c r t' => TreePerforms t (request c) r t') .empty treeSession
      (answers commandCall (initState ampleMemory noDisk) treeSession) :=
  commands_refine_tree ampleMemory (fun _ => rfl) noDisk treeSession (by decide +kernel)

end Commands

end LittleLinux
