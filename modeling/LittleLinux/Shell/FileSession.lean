import LittleLinux.Ramfs.TreeCommands
import LittleLinux.Shell.Session

/-!
# A session with the file commands

The shell of the kernel as it boots: `my_own_os_init`, `fs_init` and `dfs_init` register fifteen commands, ten
of them those of the file system, and `pwd` is the one variable that is ever set. `fileCommands` is what
`my_own_os_main` then works with: the table of commands, the environment, and the file system.

`TreeRuns` says what a line that was typed should do and show when the file system is a `FileTree`.
`session_shows_tree` is that a session does so, from the codes of the keys to the text on the terminal,
through the keyboard's ring, the line editor, the hash table of commands, the expansion of variables, the
options of the commands, the hash tables of the directories and the paths.
-/

namespace LittleLinux

/-! ### What the kernel registers -/

/-- The functions that are registered as commands. -/
inductive KernelFunc where
  | help
  | file (name : CommandName)
  | lsblk
  | mount
  | umount
  | mkfs

/-- The calls of `register_command`, in order. -/
def kernelLog : List (CommandEntry KernelFunc) :=
  List.zipWith (fun name f => ⟨name, .ofBytes (ascii f.1), f.2⟩) kernelCommands
    [("Show commands", .help), ("Create a directory", .file .mkdir), ("Change directory", .file .cd),
      ("Remove empty directory", .file .rmdir), ("Create an empty file", .file .touch),
      ("Write content to a file", .file .write), ("Print file content", .file .cat),
      ("List directory contents", .file .ls), ("Print working directory", .file .pwd),
      ("Remove a file", .file .rm), ("Remove characters from end of file", .file .backspace),
      ("List block devices", .lsblk), ("Mount a DFS partition", .mount),
      ("Unmount a DFS partition", .umount), ("Format a partition with DFS", .mkfs)]

/-- The table that the kernel fills, with this allocator. -/
def Registered (table : CommandMap KernelFunc) : Prop :=
  ∃ mem, registerCommands (.empty mem) kernelLog = some table

/-- `"pwd"`. -/
def pwdName : CString := .ofBytes [112, 119, 100]

/-- The name is not confused with that of a command. -/
def NameApart (name : CString) : Prop := ToldApart (· ∈ name :: kernelCommands)

instance (name : CString) : Decidable (NameApart name) :=
  inferInstanceAs (Decidable (∀ a ∈ name :: kernelCommands, ∀ b ∈ name :: kernelCommands,
    ComparesEqual a b → a = b))

/-- What the kernel registers under a name. -/
def kernelFunc (name : CString) : Option KernelFunc :=
  lastValue (kernelLog.map fun e => (e.name, e.func)) name

/-- `env_get`, when nothing but `pwd` was set. -/
def pwdEnv (pwd : Option CString) : Env := fun name =>
  if ComparesEqual pwdName name then pwd.map envValue else none

section Tables

variable {table : CommandMap KernelFunc} {name : CString}

/-- **`find_command`** finds what was registered. -/
theorem Registered.find (h : Registered table) (hname : NameApart name) :
    (findCommand table name).map CommandEntry.func = kernelFunc name := by
  obtain ⟨mem, htable⟩ := h
  have hlog : kernelLog.map CommandEntry.name = kernelCommands := rfl
  have hnames : ∀ e ∈ kernelLog, e.name ∈ name :: kernelCommands := by
    intro e he
    have hmem := List.mem_map_of_mem (f := CommandEntry.name) he
    rw [hlog] at hmem
    exact List.mem_cons_of_mem name hmem
  rw [registerCommands_eq] at htable
  obtain ⟨items, hholds⟩ := (StringMap.holds_empty mem).assigns hname
    (fun e he => absurd he List.not_mem_nil) (fun e he => by
      obtain ⟨d, hd, rfl⟩ := List.mem_map.1 he
      exact hnames d hd) htable
  have hvalues : (kernelLog.map fun e => (e.name, e.func)) =
      (assignments kernelLog).map fun e => (e.1, e.2.2) := by
    rw [assignments, List.map_map]
    rfl
  rw [(StringMap.Holds.lists hholds hname hnames).find name List.mem_cons_self, lastRegistered_eq,
    Option.map_map, kernelFunc, hvalues, lastValue_map]
  rfl

/-- **`env_get`** after calls of `env_set` for `pwd` alone. -/
theorem envGet_eq_pwdEnv {mem : Memory} {values : List CString} {t : EnvMap}
    (h : envSets (.empty mem) (values.map fun value => (pwdName, value)) = some t) :
    envGet t = pwdEnv values.getLast? := by
  have hshort : ∀ e ∈ values.map fun value => (pwdName, value), e.1.chars.length ≤ 63 := by
    intro e he
    obtain ⟨value, -, rfl⟩ := List.mem_map.1 he
    exact show pwdName.chars.length ≤ 63 by decide
  rw [envSets_eq hshort, List.map_map] at h
  have hkeys : ∀ e ∈ values.map ((fun e => (e.1, envValue e.2)) ∘ fun value => (pwdName, value)),
      e.1 = pwdName := by
    intro e he
    obtain ⟨value, -, rfl⟩ := List.mem_map.1 he
    rfl
  have hnames : ToldApart (· = pwdName) := fun a ha b hb _ => ha.trans hb.symm
  obtain ⟨items, hholds⟩ := (StringMap.holds_empty mem).assigns hnames
    (fun e he => absurd he List.not_mem_nil) hkeys h
  rw [List.nil_append] at hholds
  -- every element is the one of `pwd`
  have hitem : ∀ p ∈ items, (t.map.handles p).key = pwdName ∧
      t.entries p = values.getLast?.map envValue := by
    intro p hp
    have hin : (t.map.handles p).key ∈ items.map fun p => (t.map.handles p).key :=
      List.mem_map_of_mem hp
    rw [hholds.keys] at hin
    obtain ⟨value, hvalue⟩ := mem_firstOrder.1 hin
    have hkey := hkeys _ hvalue
    refine ⟨hkey, ?_⟩
    rw [hholds.entries p hp, show (t.map.handles p).key = pwdName from hkey]
    rcases List.eq_nil_or_concat' values with rfl | ⟨init, last, rfl⟩
    · rfl
    · rw [List.map_append, List.map_singleton, List.getLast?_concat]
      exact lastValue_append_self _ pwdName (envValue last)
  funext name
  rw [envGet, StringMap.get, pwdEnv]
  cases hfind : hashFind t.map name with
  | some p =>
    obtain ⟨hmem, hsame⟩ := hashFind_eq_some hholds.sound.1 hfind
    have hequal := (sameKey_iff (hholds.sound.1.hashv p hmem)).1 hsame
    rw [(hitem p hmem).1] at hequal
    rw [if_pos hequal, Option.bind_some, (hitem p hmem).2]
  | none =>
    rw [Option.bind_none]
    split_ifs with hequal
    swap
    · rfl
    -- the name would be found, were anything there
    cases items with
    | nil =>
      rcases List.eq_nil_or_concat' values with rfl | ⟨init, last, rfl⟩
      · rfl
      · have hnil := hholds.keys
        rw [List.map_nil] at hnil
        have hin : pwdName ∈ firstOrder ((init ++ [last]).map
            ((fun e => (e.1, envValue e.2)) ∘ fun value => (pwdName, value))) :=
          mem_firstOrder.2 ⟨envValue last, List.mem_map.2 ⟨last, by simp, rfl⟩⟩
        rw [← hnil] at hin
        exact absurd hin List.not_mem_nil
    | cons p items =>
      have hmem : p ∈ p :: items := List.mem_cons_self
      have hnot := hashFind_eq_none hholds.sound.1 hfind p hmem
      rw [← (hitem p hmem).1] at hequal
      rw [(sameKey_iff (hholds.sound.1.hashv p hmem)).2 hequal] at hnot
      exact absurd hnot (by simp)

end Tables

/-! ### The shell with the file system -/

/-- What the shell works with. What the other commands do, and what a command leaves in the line, is left
open. -/
def fileCommands (table : CommandMap KernelFunc)
    (others : KernelFunc → List CString → Fs → Fs × List UInt8)
    (leaves : KernelFunc → List CString → Fs → ByteMemory → ByteMemory) (cmdNameCopy : Fs → ByteMemory) :
    Commands Fs KernelFunc where
  findCommand _ name := (findCommand table name).map CommandEntry.func
  env w := pwdEnv w.pwd
  func f argv w :=
    match f with
    | .file name =>
      let r := commandCall w ⟨name, argv.tail⟩
      (r.2, r.1.2)
    | f => others f argv w
  leaves := leaves
  cmdNameCopy := cmdNameCopy

/-- The words that a command gets after its name. -/
def wordsOf (env : Env) (typed : List UInt8) : List CString :=
  (argWords (lineOf typed)).map fun a => .ofBytes (expanded env a)

/-- The line fits, its name is not confused with that of a command, and if it is that of a command, this
is one of the file system that asks for something plain. -/
structure LinePlain (k : Commands Fs KernelFunc) (w : Fs) (typed : List UInt8) : Prop where
  fits : LineFits k w typed
  apart : NameApart (cmdName (lineOf typed))
  plain : ∀ f, kernelFunc (cmdName (lineOf typed)) = some f →
    ∃ name, f = .file name ∧ Command.Plain w ⟨name, wordsOf (pwdEnv w.pwd) typed⟩

/-! ### The tree -/

/-- `pwd`, for the tree. -/
def FileTree.pwd (t : FileTree) : CString := .ofBytes (pathChars t.cwd.reverse)

/-- The text of the prompt, for the tree. -/
def treePrompt (t : FileTree) : List UInt8 := (envValue t.pwd).chars ++ [36, 32]

/-- What a line that was typed does, and what is shown from its first character to the next prompt. -/
inductive TreeRuns (t : FileTree) (typed : List UInt8) : List UInt8 → FileTree → Prop
  | file {name : CommandName} {code : ℤ} {text : List UInt8} {t' : FileTree}
      (hname : kernelFunc (cmdName (lineOf typed)) = some (.file name))
      (h : TreePerforms t (request ⟨name, wordsOf (pwdEnv (some t.pwd)) typed⟩) (code, text) t') :
      TreeRuns t typed (echoed typed ++ runningText ++ text ++ treePrompt t') t'
  | unknown (hname : kernelFunc (cmdName (lineOf typed)) = none) :
      TreeRuns t typed
        (echoed typed ++ runningText ++ notFoundText (cmdName (lineOf typed)) ++ treePrompt t) t

/-! ### One line -/

section Lines

variable {ω φ : Type} {k : Commands ω φ} {w : ω} {typed : List UInt8} {lines : List (List UInt8)}

/-- What a line shows, and the state after it. -/
def lineCall (k : Commands ω φ) (w : ω) (typed : List UInt8) : List UInt8 × ω :=
  let r := runLine k w (lineOf typed)
  (echoed typed ++ runningText ++ r.2 ++ prompt k r.1, r.1)

/-- The lines show their texts one after the other. -/
theorem interpret_eq (k : Commands ω φ) (w : ω) (lines : List (List UInt8)) :
    (interpret k w lines).2 = prompt k w ++ (answers (lineCall k) w lines).flatten := by
  have hrun : ∀ (lines : List (List UInt8)) (w : ω) (out : List UInt8),
      (lines.foldl (interpretStep k) (w, out)).2 = out ++ (answers (lineCall k) w lines).flatten := by
    intro lines
    induction lines with
    | nil => exact fun w out => (List.append_nil out).symm
    | cons typed lines ih =>
      intro w out
      rw [List.foldl_cons, answers, List.flatten_cons, interpretStep, ih, lineCall]
      simp only [List.append_assoc]
  exact hrun lines w (prompt k w)

/-- A condition on the states in which the lines are run. -/
theorem along_lineCall {C : ω → List UInt8 → Prop} (w : ω) (out : List UInt8)
    (h : Along (interpretStep k) (fun s typed => C s.1 typed) (w, out) lines) :
    Along (fun w typed => (lineCall k w typed).2) C w lines := by
  induction lines generalizing w out with
  | nil => trivial
  | cons typed lines ih => exact ⟨h.1, ih _ _ h.2⟩

end Lines

section Session

variable {table : CommandMap KernelFunc} {others : KernelFunc → List CString → Fs → Fs × List UInt8}
  {leaves : KernelFunc → List CString → Fs → ByteMemory → ByteMemory} {cmdNameCopy : Fs → ByteMemory}
  {s : Fs} {t : FileTree} {typed : List UInt8}

theorem envValue_envValue (value : CString) : envValue (envValue value) = envValue value :=
  (envValue_eq_iff _).2 (length_envValue_le value)

/-- The state and the tree have the same environment. -/
theorem PathRel.pwdEnv_eq (h : PathRel s t) : pwdEnv s.pwd = pwdEnv (some t.pwd) := by
  have hpath : t.pwd = s.currentPath := by
    rw [FileTree.pwd, ← h.path, CString.ofBytes_chars]
  rw [h.pwd, hpath]
  funext name
  rw [pwdEnv, pwdEnv, Option.map_some, Option.map_some, envValue_envValue]

/-- They show the same prompt. -/
theorem PathRel.prompt_eq (h : PathRel s t) :
    prompt (fileCommands table others leaves cmdNameCopy) s = treePrompt t := by
  have henv : (fileCommands table others leaves cmdNameCopy).env s pwdName = some (envValue t.pwd) := by
    rw [fileCommands]
    dsimp only
    rw [h.pwdEnv_eq, pwdEnv, if_pos (ComparesEqual.refl pwdName), Option.map_some]
  rw [prompt, treePrompt]
  rw [pwdName] at henv
  rw [henv, Option.map_some, Option.getD_some]

/-- **One line.** -/
theorem ShellRel.line (h : ShellRel s t) (htable : Registered table)
    (hline : LinePlain (fileCommands table others leaves cmdNameCopy) s typed) :
    ∃ t', TreeRuns t typed (lineCall (fileCommands table others leaves cmdNameCopy) s typed).1 t' ∧
      ShellRel (lineCall (fileCommands table others leaves cmdNameCopy) s typed).2 t' := by
  have hfind : (fileCommands table others leaves cmdNameCopy).findCommand s (cmdName (lineOf typed)) =
      kernelFunc (cmdName (lineOf typed)) := htable.find hline.apart
  -- a word that is no command prints its name; a file command runs on the tree as on the state
  cases hfunc : kernelFunc (cmdName (lineOf typed)) with
  | none =>
    have hrun : runLine (fileCommands table others leaves cmdNameCopy) s (lineOf typed) =
        (s, notFoundText (cmdName (lineOf typed))) := by
      unfold runLine
      rw [hfind, hfunc]
    refine ⟨t, ?_, ?_⟩
    · rw [lineCall, hrun]
      dsimp only
      rw [h.path.prompt_eq]
      exact .unknown hfunc
    · rw [lineCall, hrun]
      exact h
  | some f =>
    obtain ⟨name, rfl, hplain⟩ := hline.plain f hfunc
    obtain ⟨t', hperforms, hnext⟩ := h.command hplain
    have hrun : runLine (fileCommands table others leaves cmdNameCopy) s (lineOf typed) =
        ((commandCall s ⟨name, wordsOf (pwdEnv s.pwd) typed⟩).2,
          (commandCall s ⟨name, wordsOf (pwdEnv s.pwd) typed⟩).1.2) := by
      unfold runLine
      rw [hfind, hfunc]
      rfl
    refine ⟨t', ?_, ?_⟩
    · rw [lineCall, hrun]
      dsimp only
      rw [hnext.path.prompt_eq]
      rw [h.path.pwdEnv_eq] at hperforms ⊢
      exact .file hfunc hperforms
    · rw [lineCall, hrun]
      exact hnext

/-! ### A session -/

theorem shortValues_fileCommands : (fileCommands table others leaves cmdNameCopy).ShortValues := by
  intro w name value h
  rw [fileCommands] at h
  dsimp only [pwdEnv] at h
  split_ifs at h
  obtain ⟨pwd, -, rfl⟩ := Option.map_eq_some_iff.1 h
  exact length_envValue_le pwd

/-- What a session of these steps comes to, from the codes of the keys to the terminal. -/
structure ShowsTree (events : List KbdStep) (s : Session Fs) : Prop where
  chars : s.kbd.ring.returned.Sublist (LittleLinux.typed (codesOf events))
  lossless : (∀ pre, pre <+: events → (pre.foldl kbdStep initKbd).ring.pending < 255) →
    s.kbd.ring.returned <+: LittleLinux.typed (codesOf events)
  transcript : ∃ texts, Allows TreeRuns .empty (linesOf s.kbd.ring.returned).1 texts ∧
    s.shell.out = treePrompt .empty ++ texts.flatten ++ echoed (linesOf s.kbd.ring.returned).2

/-- **The terminal shows the tree.** From the first prompt after `fs_init` on, with nothing mounted, for every
order of interrupts, each finding one byte, and steps of the shell in which every line that is complete is
plain: the characters that the shell took are those that the keys stand for, and the terminal was given
what these lines, one after the other, do to a tree of directories and files and show of it. -/
theorem session_shows_tree {mem : Memory} (hmem : mem.Unfailing) (store : Store)
    (htable : Registered table) (buffer : ByteMemory) {events : List KbdStep}
    (hevents : ∀ e ∈ events, e.Single)
    (hlines : Along (interpretStep (fileCommands table others leaves cmdNameCopy))
      (fun s typed => LinePlain (fileCommands table others leaves cmdNameCopy) s.1 typed)
      (initState mem store, prompt (fileCommands table others leaves cmdNameCopy) (initState mem store))
      (linesOf (events.foldl kbdStep initKbd).ring.returned).1)
    (hlast : ShortLine (linesOf (events.foldl kbdStep initKbd).ring.returned).2) :
    ShowsTree events
      (sessionRun (fileCommands table others leaves cmdNameCopy) (initState mem store) buffer events) := by
  obtain ⟨haccepted, hlossless⟩ := accepted_sublist hevents
  have horder := (follows_run hevents).2.order
  have hran := ran_of_fits shortValues_fileCommands buffer
    (⟨hlines.imp fun _ _ h => h.fits, hlast⟩ : LinesFit _ _ _)
  have hinit := shellRel_initState hmem store
  rw [sessionRun_eq]
  refine ⟨horder.sublist.trans haccepted, fun hroom => ?_, _,
    allows_answers_of_simulation (fun _ _ _ h hline => h.line htable hline) hinit (along_lineCall _ _ hlines),
    ?_⟩
  · rw [← hlossless hroom]
    exact horder
  · rw [hran.out, interpret_eq, hinit.path.prompt_eq]

/-- A line without variables fits. -/
theorem lineFits_of_noDollar {k : Commands Fs KernelFunc} (hlen : typed.length ≤ 511)
    (hwords : ∀ word ∈ (cmdName (lineOf typed)).chars :: argWords (lineOf typed), word.head? ≠ some 36) :
    LineFits k s typed := by
  have hvalue : ∀ word ∈ (cmdName (lineOf typed)).chars :: argWords (lineOf typed),
      valueOf (k.env s) word = none := by
    intro word hword
    have hhead := hwords word hword
    cases word with
    | nil => rfl
    | cons c name =>
      have hc : c ≠ 36 := fun heq => hhead (congrArg some heq)
      rw [valueOf, if_neg hc]
  obtain ⟨hname, hargs⟩ := List.forall_mem_cons.1 hvalue
  have hzip : ∀ a ∈ (argStarts (lineOf typed)).zip (argWords (lineOf typed)),
      valueOf (k.env s) a.2 = none := fun a ha => hargs a.2 (List.of_mem_zip ha).2
  refine ⟨fun pre hpre => (length_edited_le pre).trans (hpre.length_le.trans hlen), fun _ =>
    ⟨hname, fun a ha hsome => ?_, ?_⟩⟩
  · rw [hzip a ha] at hsome
    exact absurd hsome (by simp)
  · refine List.Pairwise.imp_of_mem (fun {a b} ha _ _ v hv => ?_) (List.pairwise_of_forall fun _ _ => trivial)
    rw [hzip a ha] at hv
    exact absurd hv (by simp)

end Session

/-! ### A directory that is made and entered -/

/-- The table of the kernel, with an allocator that grants everything. -/
def kernelTable : CommandMap KernelFunc :=
  (registerCommands (.empty ampleMemory) kernelLog).getD (.empty ampleMemory)

/-- The kernel with that table; the other commands do nothing. -/
def bootedCommands : Commands Fs KernelFunc :=
  fileCommands kernelTable (fun _ _ w => (w, [])) (fun _ _ _ text => text) fun _ _ => 0

/-- The keys of `mkdir a`, `cd a`, `pwd` and `x`, each with enter, and the steps of the shell that take
the nineteen characters. -/
def treeEvents : List KbdStep :=
  [0x32, 0x25, 0x20, 0x17, 0x13, 0x39, 0x1e, 0x1c, 0x2e, 0x20, 0x39, 0x1e, 0x1c, 0x19, 0x11, 0x20, 0x1c,
    0x2d, 0x1c].map (fun b => .interrupt ⟨b, 0⟩) ++ List.replicate 76 .reader

/-- A condition that can be tested: the line has no variables, and runs a plain command or none. -/
def LineReady (w : Fs) (typed : List UInt8) : Prop :=
  typed.length ≤ 511 ∧
    (∀ word ∈ (cmdName (lineOf typed)).chars :: argWords (lineOf typed), word.head? ≠ some 36) ∧
    NameApart (cmdName (lineOf typed)) ∧
    match kernelFunc (cmdName (lineOf typed)) with
    | none => True
    | some (.file name) => Command.Plain w ⟨name, wordsOf (pwdEnv w.pwd) typed⟩
    | some _ => False

instance (w : Fs) (typed : List UInt8) : Decidable (LineReady w typed) := by
  unfold LineReady
  split <;> infer_instance

theorem LineReady.plain {k : Commands Fs KernelFunc} {w : Fs} {typed : List UInt8}
    (h : LineReady w typed) : LinePlain k w typed := by
  obtain ⟨hlen, hwords, hname, hfunc⟩ := h
  refine ⟨lineFits_of_noDollar hlen hwords, hname, fun f hf => ?_⟩
  rw [hf] at hfunc
  cases f with
  | file name => exact ⟨name, rfl, hfunc⟩
  | _ => exact hfunc.elim

theorem session_shows_tree_treeEvents :
    ShowsTree treeEvents (sessionRun bootedCommands (initState ampleMemory noDisk) (fun _ => 7) treeEvents) := by
  have hreturned : linesOf (treeEvents.foldl kbdStep initKbd).ring.returned =
      ([[109, 107, 100, 105, 114, 32, 97], [99, 100, 32, 97], [112, 119, 100], [120]], []) := by
    decide +kernel
  have hgranted : (registerCommands (.empty ampleMemory) kernelLog).isSome := by
    decide +kernel
  obtain ⟨table, hfilled⟩ := Option.isSome_iff_exists.1 hgranted
  have htable : Registered kernelTable := ⟨ampleMemory, by rw [kernelTable, hfilled, Option.getD_some]⟩
  refine session_shows_tree (fun _ => rfl) noDisk htable _ (by decide +kernel) ?_ ?_
  · rw [hreturned]
    have hready : Along (interpretStep bootedCommands) (fun s typed => LineReady s.1 typed)
        (initState ampleMemory noDisk, prompt bootedCommands (initState ampleMemory noDisk))
        [[109, 107, 100, 105, 114, 32, 97], [99, 100, 32, 97], [112, 119, 100], [120]] := by
      decide +kernel
    exact hready.imp fun _ _ h => h.plain
  · rw [hreturned]
    exact fun pre hpre => (length_edited_le pre).trans (hpre.length_le.trans (by decide))

end LittleLinux
