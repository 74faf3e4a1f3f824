import LittleLinux.Dfs.Dangling
import LittleLinux.Ramfs.Commands
import LittleLinux.Ramfs.RamCalls

/-!
# The tree of directories in memory

The commands that `fs_init` registers, run without a mount, keep the directories a tree:
`RamTree` is what a user of the tree needs, and `CommandInv`, from which it follows, holds in every
state that the commands reach, whatever their words and whichever allocations fail.

A command makes one call, or, as `mkdir -p`, a call for each component with the working directory
changed for its time. So the invariant is carried through calls (`CommandInv.step`), texts
(`CommandInv.print`) and such changes (`CommandInv.setCurrentDir`).
-/

namespace LittleLinux

open ChainTable

/-! ### Changing the directory -/

theorem RamInv.step {s : Fs} (h : RamInv s) {op : FsOp} (hop : op.InRam) : RamInv (fsStep s op) := by
  rcases h.call_cases hop with ⟨path, dir, hdir, heq⟩ | ⟨dir, hdir, heffect⟩
  · rw [fsStep, heq]
    exact { h with
      currentDir := h.getDirByPath h.currentDir hdir
      entry := fun d nd hnd =>
        ⟨(h.entry d nd hnd).name, (h.entry d nd hnd).parent, (h.entry d nd hnd).lt⟩ }
  · exact h.effect hdir heffect

/-! ### The tree -/

/-- The recursion of `build_absolute_path` from a directory ends. -/
inductive PathEnds (folders : Ptr → RamfsFoder) : Ptr → Prop
  | stop {dir : Ptr} (h : (folders dir).parent = none ∨ dir = rootPtr) : PathEnds folders dir
  | up {dir p : Ptr} (h : (folders dir).parent = some p) (hp : PathEnds folders p) :
    PathEnds folders dir

/-- The directories in memory form a finite tree with the root directory for its root; an entry
leads to a directory of its name that points back; no name is in both tables of a directory; the
counters are right; and the working directory is in the tree. -/
structure RamTree (s : Fs) : Prop where
  finite : {p | Reach s p}.Finite
  root_owner : ∀ p, rootPtr ∉ kids s p
  root_parent : (s.folders rootPtr).parent = none
  owner : UniqueOwner (kids s)
  nodup : ∀ p, (kids s p).Nodup
  acyclic : ∀ p, ∀ c ∈ kids s p, ¬Below (kids s) c p
  live : ∀ p, Reach s p → p ∉ s.mem.freed
  name : ∀ d, ∀ nd ∈ (s.folders d).foderMap.nodes, (s.folders nd.value.ptr).name = nd.key
  parent : ∀ d, ∀ nd ∈ (s.folders d).foderMap.nodes, (s.folders nd.value.ptr).parent = some d
  mount : ∀ d, ∀ nd ∈ (s.folders d).foderMap.nodes, (s.folders nd.value.ptr).mount = none
  apart : ∀ d, ∀ nd ∈ (s.folders d).foderMap.nodes, ∀ fd ∈ (s.folders d).fileMap.nodes,
    nd.key ≠ fd.key
  foderCount : ∀ d, (s.folders d).foderMap.count = (s.folders d).foderMap.nodes.length
  fileCount : ∀ d, (s.folders d).fileMap.count = (s.folders d).fileMap.nodes.length
  currentDir : Reach s s.currentDir
  pathEnds : ∀ p, Reach s p → PathEnds s.folders p

section Tree

variable {s : Fs} {p c : Ptr}

/-- A child was made after its parent. -/
theorem RamInv.lt_of_mem_kids (h : RamInv s) (hc : c ∈ kids s p) : p < c ∧ c < s.mem.next := by
  obtain ⟨nd, hnd, rfl⟩ := List.mem_map.1 hc
  exact ⟨(h.entry p nd hnd).lt, h.child p nd hnd⟩

theorem RamInv.le_of_below (h : RamInv s) (hbelow : Below (kids s) p c) : p ≤ c := by
  induction hbelow with
  | refl => exact le_refl p
  | tail _ hc ih => exact ih.trans (h.lt_of_mem_kids hc).1.le

theorem RamInv.reach_lt (h : RamInv s) (hp : Reach s p) : p < s.mem.next := by
  rcases Below.cases_owner hp with rfl | ⟨q, -, hq⟩
  · exact Nat.succ_pos _
  · exact (h.lt_of_mem_kids hq).2

theorem RamInv.pathEnds (h : RamInv s) (hp : Reach s p) (hroot : (s.folders rootPtr).parent = none) :
    PathEnds s.folders p := by
  induction hp with
  | refl => exact PathEnds.stop (Or.inl hroot)
  | tail _ hc ih =>
    obtain ⟨nd, hnd, rfl⟩ := List.mem_map.1 hc
    exact PathEnds.up (h.entry _ nd hnd).parent ih

theorem RamInv.ramTree (h : RamInv s) (htree : TreeInv s) : RamTree s := by
  obtain ⟨D, hdirs⟩ := htree
  exact
    { finite := (Set.finite_Iio s.mem.next).subset fun p hp => h.reach_lt hp
      root_owner := hdirs.root_owner
      root_parent := hdirs.root_parent
      owner := hdirs.owner
      nodup := hdirs.nodup
      acyclic := fun p c hc hbelow =>
        absurd (h.le_of_below hbelow) (Nat.not_le.2 (h.lt_of_mem_kids hc).1)
      live := hdirs.noDangling.reach
      name := fun d nd hnd => (h.entry d nd hnd).name
      parent := fun d nd hnd => (h.entry d nd hnd).parent
      mount := fun d nd hnd => (h.plain _).2
      apart := h.apart
      foderCount := fun d => (h.foders d).count_eq
      fileCount := fun d => (h.files d).count_eq
      currentDir := hdirs.noDangling.currentDir
      pathEnds := fun p hp => h.pathEnds hp hdirs.root_parent }

/-- `fs_mkdir` takes no entry away. -/
theorem RamInv.mem_kids_mkdirIn (h : RamInv s) {dir : Ptr} (hdir : dir < s.mem.next) (name : CString)
    (hp : p < s.mem.next) (hc : c ∈ kids s p) : c ∈ kids (LittleLinux.mkdirIn s dir name).2 p := by
  rcases mkdirIn_cases (h.lazyLoad dir) name with ⟨mem, -, heq⟩ | ⟨⟨hfind, -⟩, mem, hnext, heq⟩
  · rw [heq]
    exact hc
  rw [heq]
  have hfolder : (s.setFolder s.mem.next (newDirNode s dir name)).folders p = s.folders p :=
    s.setFolder_of_ne _ (Nat.ne_of_lt hp)
  rcases enterDir_cases hnext hfind with ⟨mem', -, heq⟩ | ⟨map, mem', -, hadds, heq⟩
  · rw [heq, kids, Fs.setMem_folders, hfolder]
    exact hc
  · rw [heq, kids, Fs.setMem_folders]
    rcases eq_or_ne p dir with rfl | hne
    · rw [Fs.modifyFolder_self, markDirty_foderMap]
      obtain ⟨nd, hnd, rfl⟩ := List.mem_map.1 hc
      exact List.mem_map_of_mem ((hadds (Nat.ne_of_lt hdir)).mem_of_mem hnd)
    · rw [Fs.modifyFolder_of_ne _ _ hne, hfolder]
      exact hc

theorem RamInv.reach_mkdirIn (h : RamInv s) {dir : Ptr} (hdir : dir < s.mem.next) (name : CString)
    (hp : Reach s p) : Reach (LittleLinux.mkdirIn s dir name).2 p := by
  induction hp with
  | refl => exact Below.refl _ _
  | tail hq hc ih => exact ih.tail (h.mem_kids_mkdirIn hdir name (h.reach_lt hq) hc)

end Tree

/-! ### Commands -/

/-- What the commands keep. -/
structure CommandInv (s : Fs) : Prop where
  ram : RamInv s
  tree : TreeInv s
  mountCount : s.mountCount = 0

namespace CommandInv

variable {s : Fs} {op : FsOp}

theorem print (h : CommandInv s) (text : List UInt8) : CommandInv (s.print text) where
  ram := h.ram.of_folders (le_refl _) rfl rfl
  tree := h.tree.quiet (Quiet.print s text)
  mountCount := h.mountCount

theorem report (h : CommandInv s) (ret : ℤ) (texts : List (ℤ × List UInt8)) :
    CommandInv (s.report ret texts) := by
  rw [Fs.report]
  cases texts.find? fun t => t.1 == ret with
  | none => exact h
  | some t => exact h.print t.2

theorem printMade (h : CommandInv s) (verbose : Bool) (name : CString) :
    CommandInv (printMade s verbose name) := by
  rw [LittleLinux.printMade]
  split_ifs
  · exact h.print _
  · exact h

theorem reach_currentDir (h : CommandInv s) : Reach s s.currentDir := by
  obtain ⟨D, hdirs⟩ := h.tree
  exact hdirs.noDangling.currentDir

theorem setCurrentDir (h : CommandInv s) {dir : Ptr} (hdir : Reach s dir) :
    CommandInv (s.setCurrentDir dir) where
  ram :=
    { h.ram with
      currentDir := h.ram.reach_lt hdir
      entry := fun d nd hnd =>
        ⟨(h.ram.entry d nd hnd).name, (h.ram.entry d nd hnd).parent, (h.ram.entry d nd hnd).lt⟩ }
  tree := by
    obtain ⟨D, hdirs⟩ := h.tree
    exact ⟨D, { hdirs with
      noDangling := ⟨hdirs.noDangling.reach, hdir, hdirs.noDangling.mountRoot⟩ }⟩
  mountCount := h.mountCount

/-- No call without a mount changes the mount table. -/
theorem mountCount_step (h : RamInv s) (hop : op.InRam) :
    (fsStep s op).mountCount = s.mountCount := by
  rcases h.call_cases hop with ⟨path, dir, -, heq⟩ | ⟨dir, -, heffect⟩
  · rw [fsStep, heq]
    rfl
  · generalize (fsCall s op).1 = code at heffect
    generalize fsStep s op = t at heffect
    cases heffect with
    | _ => rfl

/-- **One call.** -/
theorem step (h : CommandInv s) (op : FsOp) (hop : op.InRam) (hsafe : op.Safe s) :
    CommandInv (fsStep s op) where
  ram := h.ram.step hop
  tree := h.tree.step hsafe
  mountCount := (mountCount_step h.ram hop).trans h.mountCount

/-- A directory that `fs_rmdir` removes from the working directory is another one. -/
theorem rmdirSafe (h : CommandInv s) (name : CString) : RmdirSafe s name none := by
  intro parent info hparent hfind _
  obtain rfl := Option.some.inj hparent
  refine ⟨Nat.ne_of_gt (h.ram.lt_of_mem_kids (mem_kids_of_find hfind)).1, fun i hi => ?_⟩
  rw [h.mountCount] at hi
  exact absurd hi (Nat.not_lt_zero i)

/-! #### `mkdir` -/

/-- A call of `fs_mkdir` with the working directory changed for its time. -/
theorem afterMkdir (h : CommandInv s) {cur : Ptr} (hcur : Reach s cur) (part : CString) :
    CommandInv ((fsMkdir (s.setCurrentDir cur) part none).2.setCurrentDir s.currentDir) ∧
      Reach ((fsMkdir (s.setCurrentDir cur) part none).2.setCurrentDir s.currentDir) cur := by
  have hcall : CommandInv (fsMkdir (s.setCurrentDir cur) part none).2 :=
    (h.setCurrentDir hcur).step (.mkdir part none) trivial trivial
  have hreach : ∀ p, Reach s p → Reach (fsMkdir (s.setCurrentDir cur) part none).2 p := by
    intro p hp
    rw [fsMkdir]
    split_ifs
    · exact hp
    · exact (h.setCurrentDir hcur).ram.reach_mkdirIn (h.ram.reach_lt hcur) part hp
  exact ⟨hcall.setCurrentDir (hreach _ h.reach_currentDir), hreach cur hcur⟩

theorem reach_printMade {cur : Ptr} (hcur : Reach s cur) (verbose : Bool) (name : CString) :
    Reach (LittleLinux.printMade s verbose name) cur := by
  rw [LittleLinux.printMade]
  split_ifs
  · exact hcur
  · exact hcur

theorem mkdirParts (h : CommandInv s) (verbose : Bool) (parts : List CString) {cur : Ptr}
    (hcur : Reach s cur) : CommandInv (mkdirParts verbose parts s cur).2 := by
  induction parts generalizing s cur with
  | nil => exact h
  | cons part rest ih =>
    rw [LittleLinux.mkdirParts]
    split_ifs
    · exact ih h hcur
    cases hfind : ramfsHashmapFind (s.folders cur).foderMap part with
    | some info => exact ih h (hcur.tail (mem_kids_of_find hfind))
    | none =>
      dsimp only
      obtain ⟨hback, hreach⟩ := h.afterMkdir hcur part
      split_ifs
      · exact hback.print _
      · have hmade := hback.printMade verbose part
        have hreach' := reach_printMade hreach verbose part
        generalize LittleLinux.printMade _ verbose part = u at hmade hreach'
        cases hfind' : ramfsHashmapFind (u.folders cur).foderMap part with
        | none => exact hmade
        | some info => exact ih hmade (hreach'.tail (mem_kids_of_find hfind'))

theorem fsMkdirApi (h : CommandInv s) (words : List CString) : CommandInv (fsMkdirApi s words).2 := by
  rw [LittleLinux.fsMkdirApi]
  split_ifs
  · exact h.print _
  cases LittleLinux.mkdirWords false false words with
  | help => exact h.print _
  | version => exact h.print _
  | invalid word => exact h.print _
  | operand parents verbose dirname =>
    cases dirname with
    | none => exact h.print _
    | some dirname =>
      cases parents with
      | true =>
        dsimp only
        rw [mkdirParents]
        split_ifs
        · exact h.mkdirParts verbose _ (Below.refl _ _)
        · exact h.mkdirParts verbose _ h.reach_currentDir
      | false =>
        have hcall : CommandInv (fsMkdir s dirname none).2 :=
          h.step (.mkdir dirname none) trivial trivial
        dsimp only
        rw [mkdirOne]
        split_ifs
        · exact hcall.report _ _
        · exact hcall.printMade verbose dirname

/-! #### The other commands -/

theorem fsCdApi (h : CommandInv s) (words : List CString) : CommandInv (fsCdApi s words).2 := by
  match words with
  | [] => exact h.print _
  | [path] =>
    rw [LittleLinux.fsCdApi]
    split_ifs
    · exact h.print _
    · exact h.print _
    · exact (h.step (.cd path) trivial trivial).report _ _
  | _ :: _ :: _ => exact h.print _

theorem oneOperand (h : CommandInv s) {help version missing : String} {call : CString → ℤ × Fs}
    {texts : CString → List (ℤ × List UInt8)} (hcall : ∀ name, CommandInv (call name).2)
    (words : List CString) : CommandInv (oneOperand s help version missing call texts words).2 := by
  match words with
  | [] => exact h.print _
  | [name] =>
    rw [LittleLinux.oneOperand]
    split_ifs
    · exact h.print _
    · exact h.print _
    · exact (hcall name).report _ _
  | _ :: _ :: _ => exact h.print _

theorem fsRmApi (h : CommandInv s) (words : List CString) : CommandInv (fsRmApi s words).2 :=
  h.oneOperand (fun name => h.step (.rm name none) trivial trivial) words

theorem fsRmdirApi (h : CommandInv s) (words : List CString) : CommandInv (fsRmdirApi s words).2 :=
  h.oneOperand (fun name => h.step (.rmdir name none) trivial (h.rmdirSafe name)) words

theorem fsTouchApi (h : CommandInv s) (words : List CString) : CommandInv (fsTouchApi s words).2 :=
  h.oneOperand (fun name => h.step (.touch name none) trivial trivial) words

theorem fsWriteApi (h : CommandInv s) (words : List CString) : CommandInv (fsWriteApi s words).2 := by
  match words with
  | [] => exact h.print _
  | [_] => exact h.print _
  | [name, content] =>
    exact (h.step (.write name (wordData content) none) trivial trivial).report _ _
  | _ :: _ :: _ :: _ => exact h.print _

theorem fsCatApi (h : CommandInv s) (words : List CString) : CommandInv (fsCatApi s words).2 := by
  match words with
  | [] => exact h.print _
  | [name] => exact (h.step (.cat name none) trivial trivial).report _ _
  | _ :: _ :: _ => exact h.print _

theorem fsLsApi (h : CommandInv s) (words : List CString) : CommandInv (fsLsApi s words).2 := by
  rw [LittleLinux.fsLsApi]
  split_ifs
  · exact h.print _
  · exact h.print _

theorem backspaceCount (h : CommandInv s) (name : CString) (count : ℤ) :
    CommandInv (backspaceCount s name count).2 :=
  (h.step (.backspace name count none) trivial trivial).report _ _

theorem fsBackspaceApi (h : CommandInv s) (words : List CString) :
    CommandInv (fsBackspaceApi s words).2 := by
  match words with
  | [] => exact h.print _
  | [name] =>
    rw [LittleLinux.fsBackspaceApi]
    split_ifs
    · exact h.print _
    · exact h.backspaceCount name 1
  | [name, number] =>
    rw [LittleLinux.fsBackspaceApi]
    split_ifs
    · exact h.print _
    · exact h.print _
    · exact h.backspaceCount name _
  | _ :: _ :: _ :: _ => exact h.print _

/-- **One command.** -/
theorem command (h : CommandInv s) (c : Command) : CommandInv (commandStep s c) := by
  obtain ⟨name, words⟩ := c
  cases name with
  | mkdir => exact h.fsMkdirApi words
  | cd => exact h.fsCdApi words
  | rmdir => exact h.fsRmdirApi words
  | touch => exact h.fsTouchApi words
  | write => exact h.fsWriteApi words
  | cat => exact h.fsCatApi words
  | ls => exact h.fsLsApi words
  | pwd => exact h.print _
  | rm => exact h.fsRmApi words
  | backspace => exact h.fsBackspaceApi words

/-- **A run of commands.** -/
theorem run (grants : ℕ → Bool) (store : Store) (commands : List Command) :
    CommandInv (commands.foldl commandStep (initState ⟨grants, 0, []⟩ store)) := by
  have hinit : CommandInv (initState ⟨grants, 0, []⟩ store) :=
    ⟨RamInv.init _ store, ⟨_, DirInv.init _ store rfl⟩, rfl⟩
  exact Along.invariant (fun s c hs _ => hs.command c) hinit (Along.of_forall (fun _ _ => trivial) _ _)

end CommandInv

/-! ### Commands that fit -/

/-- The command is a `write` that loses a buffer. -/
def Command.Loses (s : Fs) : Command → Prop
  | ⟨.write, [name, content]⟩ => (FsOp.write name (wordData content) none).Loses s
  | _ => False

instance (s : Fs) (c : Command) : Decidable (c.Loses s) := by
  unfold Command.Loses
  split <;> infer_instance

/-- The words that the command copies fit the buffers for paths, and so does the new working
directory. -/
def Command.PathsFit (s : Fs) (c : Command) : Prop :=
  match c.name with
  | .write => True
  | .cd => ∀ word ∈ c.words, (FsOp.cd word).PathsFit s
  | _ => ∀ word ∈ c.words, word.chars.length < 512

instance (s : Fs) (c : Command) : Decidable (c.PathsFit s) := by
  unfold Command.PathsFit
  split <;> infer_instance

/-- A run of commands after `fs_init`, with nothing mounted, reaches the state. No command of it loses a
buffer, and all paths fit. -/
def CommandReachable (s : Fs) : Prop :=
  ∃ (grants : ℕ → Bool) (store : Store) (commands : List Command),
    Along commandStep (fun t c => ¬c.Loses t ∧ c.PathsFit t) (initState ⟨grants, 0, []⟩ store) commands ∧
      s = commands.foldl commandStep (initState ⟨grants, 0, []⟩ store)

theorem CommandReachable.commandInv {s : Fs} (h : CommandReachable s) : CommandInv s := by
  obtain ⟨grants, store, commands, -, rfl⟩ := h
  exact CommandInv.run grants store commands

theorem CommandReachable.init (grants : ℕ → Bool) (store : Store) :
    CommandReachable (initState ⟨grants, 0, []⟩ store) :=
  ⟨grants, store, [], trivial, rfl⟩

end LittleLinux
