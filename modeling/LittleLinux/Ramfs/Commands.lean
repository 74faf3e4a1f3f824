import LittleLinux.Ramfs.Ops

/-!
# The commands

The wrappers that `fs_init` registers: `mkdir`, `cd`, `rm`, `rmdir`, `touch`, `write`, `cat`, `ls`,
`pwd` and `backspace`. Each takes the words that follow its name, so that `argc` is one more than
their number, prints its texts and answers its code; the codes of the calls below it are printed,
not answered.

`mkdir -p` walks along the components of its argument and makes those that are missing, each by a
call of `fs_mkdir` with the working directory changed for the time of the call. `ls` prints `%lld`
as it stands, since `printf` knows no length modifier.
-/

namespace LittleLinux

/-- The bytes of a text. -/
def ascii (text : String) : List UInt8 := text.toList.map fun c => UInt8.ofNat c.toNat

/-- The word is that text. -/
def isWord (word : CString) (text : String) : Bool := streq word (CString.ofBytes (ascii text))

/-! ### Listing -/

/-- `fs_ls`. -/
def fsLs (s : Fs) : ℤ × Fs :=
  let f := s.folders s.currentDir
  (0, s.print (ascii "Directories:\n" ++
    (f.foderMap.nodes.flatMap fun nd => ascii "  " ++ nd.key.chars ++ ascii "/\n") ++
    ascii "Files:\n" ++
    f.fileMap.nodes.flatMap fun nd => ascii "  " ++ nd.key.chars ++ ascii " (%lld bytes)\n"))

/-! ### Making directories -/

/-- What the words of `mkdir` say. -/
inductive MkdirWords where
  | help
  | version
  | invalid (word : CString)
  | operand (parents verbose : Bool) (dirname : Option CString)

/-- The loop over the words of `mkdir`; it ends at the first that is no option. -/
def mkdirWords (parents verbose : Bool) : List CString → MkdirWords
  | [] => .operand parents verbose none
  | word :: rest =>
    if word.chars.head? = some 45 then
      if isWord word "--help" then .help
      else if isWord word "--version" then .version
      else if word.chars[1]? = some 112 then mkdirWords true verbose rest
      else if word.chars[1]? = some 118 then mkdirWords parents true rest
      else .invalid word
    else .operand parents verbose (some word)

/-- Change the working directory, and nothing that names it. -/
def Fs.setCurrentDir (s : Fs) (dir : Ptr) : Fs := { s with currentDir := dir }

/-- The message of `-v`. -/
def printMade (s : Fs) (verbose : Bool) (name : CString) : Fs :=
  if verbose then s.print (ascii "mkdir: created directory '" ++ name.chars ++ ascii "'\n") else s

/-- The loop of `mkdir -p`, from the directory `cur` on. -/
def mkdirParts (verbose : Bool) : List CString → Fs → Ptr → ℤ × Fs
  | [], s, _ => (0, s)
  | part :: rest, s, cur =>
    if part.chars = [] ∨ part.chars = [46] then mkdirParts verbose rest s cur
    else
      match ramfsHashmapFind (s.folders cur).foderMap part with
      | some info => mkdirParts verbose rest s info.ptr
      | none =>
        let r := fsMkdir (s.setCurrentDir cur) part none
        let t := r.2.setCurrentDir s.currentDir
        if r.1 ≠ 0 then
          (-1, t.print (ascii "mkdir: failed to create '" ++ part.chars ++ ascii "'\n"))
        else
          let t := printMade t verbose part
          match ramfsHashmapFind (t.folders cur).foderMap part with
          | some info => mkdirParts verbose rest t info.ptr
          | none => (-1, t)

/-- `mkdir -p`, with its operand. -/
def mkdirParents (s : Fs) (verbose : Bool) (dirname : CString) : ℤ × Fs :=
  if dirname.chars.head? = some 47 then
    mkdirParts verbose (components dirname.tail) s rootPtr
  else mkdirParts verbose (components dirname) s s.currentDir

/-- What is printed for the answer of a call: the text of its code. -/
def Fs.report (s : Fs) (ret : ℤ) (texts : List (ℤ × List UInt8)) : Fs :=
  match texts.find? fun t => t.1 == ret with
  | some t => s.print t.2
  | none => s

/-- The end of `mkdir` without `-p`. -/
def mkdirOne (s : Fs) (verbose : Bool) (dirname : CString) : ℤ × Fs :=
  let r := fsMkdir s dirname none
  let cannot := ascii "mkdir: cannot create directory '" ++ dirname.chars
  let texts :=
    [(-1, ascii "mkdir: invalid name\n"), (-2, cannot ++ ascii "': No such file or directory\n"),
      (-3, cannot ++ ascii "': File exists\n"), (-4, cannot ++ ascii "': File exists\n"),
      (-5, ascii "mkdir: memory allocation failed\n")]
  if texts.any fun t => t.1 == r.1 then (0, r.2.report r.1 texts)
  else (0, printMade r.2 verbose dirname)

/-- `fs_mkdir_api`. -/
def fsMkdirApi (s : Fs) (words : List CString) : ℤ × Fs :=
  if words = [] then
    (-1, s.print (ascii "mkdir: missing operand\nTry 'mkdir --help' for more information.\n"))
  else
    match mkdirWords false false words with
    | .help =>
      (0, s.print (ascii "Usage: mkdir [OPTION]... DIRECTORY...\nCreate DIRECTORY(ies).\n" ++
        ascii "  -p      create parent directories as needed\n" ++
        ascii "  -v      print a message for each created directory\n" ++
        ascii "  --version  output version information\n"))
    | .version => (0, s.print (ascii "ramfs mkdir version 1.0.0\n"))
    | .invalid word => (-1, s.print (ascii "mkdir: invalid option " ++ word.chars ++ ascii "\n"))
    | .operand _ _ none => (-1, s.print (ascii "mkdir: missing directory operand\n"))
    | .operand true verbose (some dirname) => mkdirParents s verbose dirname
    | .operand false verbose (some dirname) => mkdirOne s verbose dirname

/-! ### The other commands -/

/-- `fs_cd_api`. -/
def fsCdApi (s : Fs) : List CString → ℤ × Fs
  | [] => (-1, s.print (ascii "cd: missing operand\n"))
  | [path] =>
    if isWord path "--help" then
      (0, s.print (ascii "cd [DIRECTORY]\nChange the current directory to DIRECTORY.\n"))
    else if isWord path "--version" then (0, s.print (ascii "ramfs cd version 1.0.0\n"))
    else
      let r := fsCd s path
      (0, r.2.report r.1
        [(-1, ascii "cd: invalid argument\n"),
          (-2, ascii "cd: no such directory: " ++ path.chars ++ ascii "\n")])
  | _ :: _ :: _ => (-1, s.print (ascii "cd: too many arguments\n"))

/-- The commands `rm`, `rmdir` and `touch`: one operand, the two options, and a text for each code
of the call. -/
def oneOperand (s : Fs) (help version missing : String) (call : CString → ℤ × Fs)
    (texts : CString → List (ℤ × List UInt8)) : List CString → ℤ × Fs
  | [name] =>
    if isWord name "--help" then (0, s.print (ascii help))
    else if isWord name "--version" then (0, s.print (ascii version))
    else
      let r := call name
      (0, r.2.report r.1 (texts name))
  | _ => (-1, s.print (ascii missing))

/-- `fs_rm_api`. -/
def fsRmApi (s : Fs) : List CString → ℤ × Fs :=
  oneOperand s "rm FILE\nRemove a file.\n" "ramfs rm version 1.0.0\n" "rm: missing file operand\n"
    (fun name => fsRm s name none) fun _ =>
      [(-1, ascii "rm: invalid file name\n"), (-2, ascii "rm: parent directory not found\n"),
        (-3, ascii "rm: file not found\n"), (-4, ascii "rm: deletion failed\n")]

/-- `fs_rmdir_api`. -/
def fsRmdirApi (s : Fs) : List CString → ℤ × Fs :=
  oneOperand s "rmdir DIRECTORY\nRemove empty directory.\n" "ramfs rmdir version 1.0.0\n"
    "rmdir: missing operand\n" (fun name => fsRmdir s name none) fun name =>
      [(-1, ascii "rmdir: invalid name\n"), (-2, ascii "rmdir: failed to locate parent\n"),
        (-3, ascii "rmdir: '" ++ name.chars ++ ascii "' is not a directory\n"),
        (-4, ascii "rmdir: directory not empty\n")]

/-- `fs_touch_api`. -/
def fsTouchApi (s : Fs) : List CString → ℤ × Fs :=
  oneOperand s "touch FILE\nCreate an empty file.\n" "ramfs touch 1.0.0\n"
    "touch: missing file operand\n" (fun name => fsTouch s name none) fun _ =>
      [(-1, ascii "touch: invalid file name\n"), (-2, ascii "touch: parent directory not found\n"),
        (-3, ascii "touch: file already exists\n"), (-4, ascii "touch: file already exists\n"),
        (-5, ascii "touch: memory error\n")]

/-- The bytes of a word, as many as a `size_t` counts. -/
def wordData (word : CString) : Data :=
  ⟨word.chars.take (strlen word.chars % 2 ^ 32),
    (List.length_take_le _ _).trans_lt (Nat.mod_lt _ (by norm_num))⟩

/-- `fs_write_api`. -/
def fsWriteApi (s : Fs) : List CString → ℤ × Fs
  | [name, content] =>
    let r := fsWrite s name (wordData content) none
    (0, r.2.report r.1
      [(-1, ascii "write: invalid arguments\n"), (-2, ascii "write: parent not found\n"),
        (-3, ascii "write: file not found\n"), (-4, ascii "write: out of memory\n")])
  | _ => (-1, s.print (ascii "write: usage write FILE \"content\"\n"))

/-- `fs_cat_api`. -/
def fsCatApi (s : Fs) : List CString → ℤ × Fs
  | [name] =>
    let r := fsCat s name none
    (0, r.2.report r.1
      [(-1, ascii "cat: invalid arguments\n"), (-2, ascii "cat: cannot open parent\n"),
        (-3, ascii "cat: file not found\n")])
  | _ => (-1, s.print (ascii "cat: missing file operand\n"))

/-- `fs_ls_api`. -/
def fsLsApi (s : Fs) (words : List CString) : ℤ × Fs :=
  if words.head?.any (fun word => isWord word "--help" || isWord word "-h") then
    (0, s.print (ascii "ls: list directory contents\n"))
  else fsLs s

/-- `fs_pwd_api`. -/
def fsPwdApi (s : Fs) : ℤ × Fs := (0, s.print (s.currentPath.chars ++ ascii "\n"))

/-- The end of `backspace`, with its count. -/
def backspaceCount (s : Fs) (name : CString) (count : ℤ) : ℤ × Fs :=
  let r := fsBackspace s name count none
  (0, r.2.report r.1
    [(-1, ascii "backspace: invalid file name\n"), (-2, ascii "backspace: parent directory not found\n"),
      (-3, ascii "backspace: file not found\n"), (-4, ascii "backspace: failed to load file data\n"),
      (-5, ascii "backspace: file is empty\n"), (-6, ascii "backspace: out of memory\n")])

/-- The help text of `backspace`. -/
def backspaceHelp : List UInt8 :=
  ascii "backspace FILE [COUNT]\nRemove COUNT characters from the end of FILE (default 1).\n"

/-- `fs_backspace_api`. -/
def fsBackspaceApi (s : Fs) : List CString → ℤ × Fs
  | [name] =>
    if isWord name "--help" then (0, s.print backspaceHelp) else backspaceCount s name 1
  | [name, number] =>
    if isWord name "--help" then (0, s.print backspaceHelp)
    else if atoi number 10 < 0 then
      (-1, s.print (ascii "backspace: count must be non-negative\n"))
    else backspaceCount s name (atoi number 10)
  | _ => (-1, s.print (ascii "backspace: usage backspace FILE [COUNT]\n"))

/-! ### Runs -/

/-- The name of a command. -/
inductive CommandName where
  | mkdir
  | cd
  | rmdir
  | touch
  | write
  | cat
  | ls
  | pwd
  | rm
  | backspace
deriving DecidableEq

/-- A command with the words that follow it. -/
structure Command where
  name : CommandName
  words : List CString

/-- What a command answers and does. -/
def runCommand (s : Fs) (c : Command) : ℤ × Fs :=
  match c.name with
  | .mkdir => fsMkdirApi s c.words
  | .cd => fsCdApi s c.words
  | .rmdir => fsRmdirApi s c.words
  | .touch => fsTouchApi s c.words
  | .write => fsWriteApi s c.words
  | .cat => fsCatApi s c.words
  | .ls => fsLsApi s c.words
  | .pwd => fsPwdApi s
  | .rm => fsRmApi s c.words
  | .backspace => fsBackspaceApi s c.words

/-- The state after a command. -/
def commandStep (s : Fs) (c : Command) : Fs := (runCommand s c).2

end LittleLinux
