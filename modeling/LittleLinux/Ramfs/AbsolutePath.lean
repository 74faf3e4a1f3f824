import LittleLinux.Ramfs.Path
import LittleLinux.Ramfs.RamTree

/-!
# Absolute paths

`build_absolute_path` prints the names along the parent pointers, and `_get_dir_by_path` reads
them back along the tables. A directory that the second finds has only names on its way that are
looked up as they stand, none of them `.`, `..` or with a slash in it; so the printed path names
the directory (`absolutePath_names_directory`).

`fs_cd` stores the path in `current_path` and in the environment, which keeps 255 characters of
it: `cd_coherent_iff` says when the two agree.
-/

namespace LittleLinux

open ChainTable

/-! ### Components of a path -/

theorem slash_notMem_splitSlash {l w : List UInt8} (h : w ∈ splitSlash l) : (47 : UInt8) ∉ w := by
  induction l generalizing w with
  | nil =>
    obtain rfl := List.mem_singleton.1 h
    exact List.not_mem_nil
  | cons c l ih =>
    rw [splitSlash] at h
    split_ifs at h with hc
    · rcases List.mem_cons.1 h with rfl | h
      · exact List.not_mem_nil
      · exact ih h
    · cases hl : splitSlash l with
      | nil => exact absurd hl (splitSlash_ne_nil l)
      | cons v vs =>
        rw [hl] at h ih
        rcases List.mem_cons.1 h with rfl | h
        · rw [List.mem_cons, not_or]
          exact ⟨fun heq => hc heq.symm, ih List.mem_cons_self⟩
        · exact ih (List.mem_cons_of_mem v h)

theorem splitSlash_of_notMem {w : List UInt8} (h : (47 : UInt8) ∉ w) : splitSlash w = [w] := by
  induction w with
  | nil => rfl
  | cons c w ih =>
    rw [List.mem_cons, not_or] at h
    rw [splitSlash, if_neg fun heq => h.1 heq.symm, ih h.2]

theorem slash_notMem_components {path part : CString} (h : part ∈ components path) :
    (47 : UInt8) ∉ part.chars := by
  have hmem : part.chars ∈ (components path).map CString.chars := List.mem_map_of_mem h
  rw [map_chars_components] at hmem
  exact slash_notMem_splitSlash hmem

/-! ### The printed path -/

/-- A component that is looked up in a table. -/
structure IsEntryName (name : CString) : Prop where
  ne_nil : name.chars ≠ []
  ne_dot : name.chars ≠ [46]
  ne_up : name.chars ≠ [46, 46]
  no_slash : (47 : UInt8) ∉ name.chars

/-- The absolute path with these components. -/
def pathChars (names : List CString) : List UInt8 :=
  if names = [] then [47] else names.flatMap fun name => 47 :: name.chars

/-- What `build_absolute_path` appends for one more directory. -/
theorem pathChars_snoc {names : List CString} (h : ∀ name ∈ names, IsEntryName name) (name : CString) :
    (if (pathChars names).getLast? = some 47 then pathChars names else pathChars names ++ [47]) ++
      name.chars = pathChars (names ++ [name]) := by
  rcases List.eq_nil_or_concat' names with rfl | ⟨init, last, rfl⟩
  · simp [pathChars]
  have hlast := h last (by simp)
  have hne : init ++ [last] ≠ [] := by simp
  have hnot : (pathChars (init ++ [last])).getLast? ≠ some 47 := by
    rw [pathChars, if_neg hne, List.flatMap_append, List.flatMap_singleton, List.getLast?_append_of_ne_nil
      _ (List.cons_ne_nil _ _)]
    obtain ⟨c, cs, hcs⟩ := List.exists_cons_of_ne_nil hlast.ne_nil
    rw [hcs, List.getLast?_cons_cons, ← hcs]
    intro hmem
    exact hlast.no_slash (List.mem_of_getLast? hmem)
  rw [if_neg hnot, pathChars, if_neg hne, pathChars, if_neg (by simp), List.flatMap_append,
    List.flatMap_append, List.flatMap_append]
  simp

theorem pathChars_head (names : List CString) : (pathChars names).head? = some 47 := by
  rw [pathChars]
  split_ifs with hnil
  · rfl
  · obtain ⟨name, rest, rfl⟩ := List.exists_cons_of_ne_nil hnil
    rfl

/-- The components of the printed path. -/
theorem splitSlash_pathChars_tail {names : List CString} (h : ∀ name ∈ names, IsEntryName name)
    (hne : names ≠ []) : splitSlash (pathChars names).tail = names.map CString.chars := by
  rw [pathChars, if_neg hne]
  induction names with
  | nil => exact absurd rfl hne
  | cons name rest ih =>
    have hsplit := splitSlash_of_notMem (h name List.mem_cons_self).no_slash
    rw [List.flatMap_cons, List.cons_append, List.tail_cons, List.map_cons]
    cases rest with
    | nil => simpa using hsplit
    | cons name' rest =>
      have hrest := ih (fun n hn => h n (List.mem_cons_of_mem _ hn)) (List.cons_ne_nil _ _)
      rw [List.flatMap_cons, List.cons_append, List.tail_cons] at hrest
      rw [List.flatMap_cons, List.cons_append, splitSlash_append, hsplit, hrest]
      rfl

/-! ### Directories with a name -/

/-- The directory is found from the root by looking up these names. -/
inductive Named (folders : Ptr → RamfsFoder) : Ptr → List CString → Prop
  | root : Named folders rootPtr []
  | child {p : Ptr} {names : List CString} {name : CString} {info : RamfsFoderInfo}
    (hp : Named folders p names) (hname : IsEntryName name)
    (hfind : ramfsHashmapFind (folders p).foderMap name = some info) :
    Named folders info.ptr (names ++ [name])

/-- The directory is the root, or what `_get_dir_by_path` finds from such a one. -/
inductive ReachedByPath (folders : Ptr → RamfsFoder) : Ptr → Prop
  | root : ReachedByPath folders rootPtr
  | path {base dir : Ptr} {path : CString} (hbase : ReachedByPath folders base)
    (hpath : getDirByPath folders base path = some dir) : ReachedByPath folders dir

/-- The recursion of `build_absolute_path` from the directory ends, with that path. -/
def IsAbsolutePath (folders : Ptr → RamfsFoder) (dir : Ptr) (path : CString) : Prop :=
  ∃ n, ∀ fuel, n ≤ fuel → buildAbsolutePath folders fuel dir = path.chars

theorem IsAbsolutePath.unique {folders : Ptr → RamfsFoder} {dir : Ptr} {path path' : CString}
    (h : IsAbsolutePath folders dir path) (h' : IsAbsolutePath folders dir path') : path = path' := by
  obtain ⟨n, hn⟩ := h
  obtain ⟨n', hn'⟩ := h'
  refine CString.ext ?_
  rw [← hn (max n n') (le_max_left _ _), ← hn' (max n n') (le_max_right _ _)]

section Named

variable {s : Fs} {dir : Ptr} {names : List CString}

/-- What an entry of a table leads to. -/
theorem RamTree.find (h : RamTree s) {p : Ptr} {name : CString} {info : RamfsFoderInfo}
    (hfind : ramfsHashmapFind (s.folders p).foderMap name = some info) :
    (s.folders info.ptr).name = name ∧ (s.folders info.ptr).parent = some p ∧ info.ptr ≠ rootPtr := by
  obtain ⟨nd, hnode, rfl⟩ := Option.map_eq_some_iff.1 hfind
  have hnd := mem_nodes_of_findNode hnode
  have hkey : nd.key = name := by simpa [foderTable, hashStreq_eq_decide] using List.find?_some hnode
  refine ⟨(h.name p nd hnd).trans hkey, h.parent p nd hnd, fun heq => ?_⟩
  exact h.root_owner p (heq ▸ List.mem_map_of_mem hnd)

theorem Named.isEntryName (h : Named s.folders dir names) : ∀ name ∈ names, IsEntryName name := by
  induction h with
  | root => simp
  | child _ hname _ ih =>
    intro name hmem
    rcases List.mem_append.1 hmem with hmem | hmem
    · exact ih name hmem
    · exact List.mem_singleton.1 hmem ▸ hname

/-- **The printer** writes the names. -/
theorem RamTree.buildAbsolutePath (h : RamTree s) (hn : Named s.folders dir names) {fuel : ℕ}
    (hfuel : names.length < fuel) : buildAbsolutePath s.folders fuel dir = pathChars names := by
  induction hn generalizing fuel with
  | root =>
    obtain ⟨n, rfl⟩ := Nat.exists_eq_add_of_lt hfuel
    rw [LittleLinux.buildAbsolutePath, h.root_parent]
    rfl
  | child hp hname hfind ih =>
    obtain ⟨n, rfl⟩ := Nat.exists_eq_add_of_lt hfuel
    obtain ⟨hown, hparent, hne⟩ := h.find hfind
    rw [LittleLinux.buildAbsolutePath, hparent]
    dsimp only
    rw [if_pos hne, ih (by simp; omega), hown]
    exact pathChars_snoc hp.isEntryName _

/-- A walk along names is one lookup after the other. -/
theorem walkParts_append {folders : Ptr → RamfsFoder} (hnames : ∀ name ∈ names, IsEntryName name)
    (cur : Ptr) (rest : List CString) :
    walkParts folders cur (names ++ rest) =
      (walkParts folders cur names).bind fun p => walkParts folders p rest := by
  induction names generalizing cur with
  | nil => rfl
  | cons name names ih =>
    have hname := hnames name List.mem_cons_self
    rw [List.cons_append, walkParts, if_neg hname.ne_nil, if_neg hname.ne_dot, if_neg hname.ne_up,
      walkParts, if_neg hname.ne_nil, if_neg hname.ne_dot, if_neg hname.ne_up]
    cases ramfsHashmapFind (folders cur).foderMap name with
    | none => rfl
    | some info => exact ih (fun n hn => hnames n (List.mem_cons_of_mem _ hn)) info.ptr

theorem Named.walkParts (h : Named s.folders dir names) :
    walkParts s.folders rootPtr names = some dir := by
  induction h with
  | root => rfl
  | child hp hname hfind ih =>
    rw [walkParts_append hp.isEntryName, ih, Option.bind_some, LittleLinux.walkParts,
      if_neg hname.ne_nil, if_neg hname.ne_dot, if_neg hname.ne_up, hfind]
    rfl

/-- **The parser** reads the names back. -/
theorem Named.getDirByPath (h : Named s.folders dir names) {path : CString}
    (hpath : path.chars = pathChars names) (base : Ptr) :
    getDirByPath s.folders base path = some dir := by
  have hhead : path.chars.head? = some 47 := hpath ▸ pathChars_head names
  have hne : path.chars ≠ [] := fun hnil => by simp [hnil] at hhead
  have htail : path.tail.chars = (pathChars names).tail := congrArg List.tail hpath
  rw [LittleLinux.getDirByPath, if_neg hne, if_pos hhead]
  by_cases hnil : names = []
  · have hparts : components path.tail = [⟨[], by simp⟩] := by
      refine List.map_injective_iff.2 CString.chars_injective ?_
      rw [map_chars_components, htail, hnil]
      rfl
    have hwalk := h.walkParts
    rw [hnil] at hwalk
    rw [hparts, LittleLinux.walkParts, if_pos rfl]
    exact hwalk
  · have hparts : components path.tail = names := by
      refine List.map_injective_iff.2 CString.chars_injective ?_
      rw [map_chars_components, htail]
      exact splitSlash_pathChars_tail h.isEntryName hnil
    rw [hparts]
    exact h.walkParts

/-- A walk from a directory with a name ends in one. -/
theorem RamTree.named_of_walkParts (h : RamTree s) {parts : List CString} {cur : Ptr}
    (hparts : ∀ part ∈ parts, (47 : UInt8) ∉ part.chars) (hcur : ∃ names, Named s.folders cur names)
    (hwalk : walkParts s.folders cur parts = some dir) : ∃ names, Named s.folders dir names := by
  -- induction on the components, with the names from the root to the folder reached so far
  induction parts generalizing cur with
  | nil =>
    obtain rfl := Option.some.inj hwalk
    exact hcur
  | cons part parts ih =>
    have hrest := fun q hq => hparts q (List.mem_cons_of_mem part hq)
    rw [LittleLinux.walkParts] at hwalk
    by_cases hnil : part.chars = []
    · rw [if_pos hnil] at hwalk
      exact ih hrest hcur hwalk
    rw [if_neg hnil] at hwalk
    by_cases hdot : part.chars = [46]
    · rw [if_pos hdot] at hwalk
      exact ih hrest hcur hwalk
    rw [if_neg hdot] at hwalk
    obtain ⟨names, hnamed⟩ := hcur
    by_cases hup : part.chars = [46, 46]
    · rw [if_pos hup] at hwalk
      -- ".." in the root: it has no parent, and the walk stops there
      cases hnamed with
      | root =>
        rw [h.root_parent] at hwalk
        obtain rfl := Option.some.inj hwalk
        exact ⟨[], Named.root⟩
      | child hp hname hfind =>
        rw [(h.find hfind).2.1] at hwalk
        exact ih hrest ⟨_, hp⟩ hwalk
    · rw [if_neg hup] at hwalk
      cases hfind : ramfsHashmapFind (s.folders cur).foderMap part with
      | none =>
        rw [hfind] at hwalk
        exact absurd hwalk (by simp)
      | some info =>
        rw [hfind] at hwalk
        have hname : IsEntryName part := ⟨hnil, hdot, hup, hparts part List.mem_cons_self⟩
        exact ih hrest ⟨_, hnamed.child hname hfind⟩ hwalk

theorem RamTree.named_of_reached (h : RamTree s) (hdir : ReachedByPath s.folders dir) :
    ∃ names, Named s.folders dir names := by
  induction hdir with
  | root => exact ⟨[], Named.root⟩
  | path _ hpath ih =>
    rw [LittleLinux.getDirByPath] at hpath
    split_ifs at hpath
    · exact h.named_of_walkParts (fun _ => slash_notMem_components) ⟨[], Named.root⟩ hpath
    · exact h.named_of_walkParts (fun _ => slash_notMem_components) ih hpath

/-- The path that is printed for a directory with a name. -/
theorem RamTree.exists_isAbsolutePath (h : RamTree s) (hn : Named s.folders dir names) :
    ∃ path, IsAbsolutePath s.folders dir path ∧ path.chars = pathChars names := by
  have hbuild := h.buildAbsolutePath hn (Nat.lt_succ_self _)
  refine ⟨⟨pathChars names, hbuild ▸ zero_notMem_buildAbsolutePath _ _ _⟩, ⟨names.length + 1, ?_⟩, rfl⟩
  exact fun fuel hfuel => h.buildAbsolutePath hn hfuel

end Named

/-- **Absolute paths name directories.** In every well-formed tree without mounts, for every
directory that paths lead to: its absolute path, when it is shorter than 512 bytes, leads from the
root to the directory; and two such directories with one absolute path are the same. -/
theorem absolutePath_names_directory (s : Fs) (h : RamTree s) :
    (∀ dir, ReachedByPath s.folders dir → ∃ path, IsAbsolutePath s.folders dir path ∧
      (path.chars.length < 512 → getDirByPath s.folders rootPtr path = some dir)) ∧
    ∀ dir dir' path, ReachedByPath s.folders dir → ReachedByPath s.folders dir' →
      path.chars.length < 512 → IsAbsolutePath s.folders dir path →
      IsAbsolutePath s.folders dir' path → dir = dir' := by
  have hresolve : ∀ dir, ReachedByPath s.folders dir → ∃ path, IsAbsolutePath s.folders dir path ∧
      getDirByPath s.folders rootPtr path = some dir := by
    intro dir hdir
    obtain ⟨names, hnamed⟩ := h.named_of_reached hdir
    obtain ⟨path, hpath, hchars⟩ := h.exists_isAbsolutePath hnamed
    exact ⟨path, hpath, hnamed.getDirByPath hchars rootPtr⟩
  refine ⟨fun dir hdir => ?_, fun dir dir' path hdir hdir' _ hpath hpath' => ?_⟩
  · obtain ⟨path, hpath, hget⟩ := hresolve dir hdir
    exact ⟨path, hpath, fun _ => hget⟩
  · obtain ⟨q, hq, hget⟩ := hresolve dir hdir
    obtain ⟨q', hq', hget'⟩ := hresolve dir' hdir'
    rw [hq.unique hpath] at hget
    rw [hq'.unique hpath'] at hget'
    exact Option.some.inj (hget.symm.trans hget')

/-- After `mkdir -p a/b`, `"/a/b"` is the absolute path of the directory that `"a/b"` leads to. -/
theorem absolutePath_names_nested :
    ∃ path, IsAbsolutePath (commandStep (initState ⟨fun _ => true, 0, []⟩ noDisk)
        ⟨.mkdir, [⟨[45, 112], by decide⟩, ⟨[97, 47, 98], by decide⟩]⟩).folders 3 path ∧
      (path.chars.length < 512 → getDirByPath (commandStep (initState ⟨fun _ => true, 0, []⟩ noDisk)
        ⟨.mkdir, [⟨[45, 112], by decide⟩, ⟨[97, 47, 98], by decide⟩]⟩).folders rootPtr path = some 3) := by
  have h := CommandInv.run (fun _ => true) noDisk
    [⟨.mkdir, [⟨[45, 112], by decide⟩, ⟨[97, 47, 98], by decide⟩]⟩]
  exact (absolutePath_names_directory _ (h.ram.ramTree h.tree)).1 3
    (ReachedByPath.root.path (show getDirByPath _ rootPtr ⟨[97, 47, 98], by decide⟩ = some 3 by
      decide +kernel))

/-! ### The working directory -/

/-- The absolute path of the working directory fits `current_path` with its terminator, is in it,
and is what the environment has for `pwd`. -/
def CdCoherent (s : Fs) : Prop :=
  ∃ path, IsAbsolutePath s.folders s.currentDir path ∧ path.chars.length + 1 ≤ 512 ∧
    s.currentPath = path ∧ s.pwd = some s.currentPath

section Cd

variable {s : Fs} {dir : Ptr}

/-- As many levels as there are addresses below a directory are enough for its path. -/
theorem RamInv.buildAbsolutePath_eq (h : RamInv s) (hdir : Reach s dir) {fuel fuel' : ℕ}
    (hfuel : dir < fuel) (hfuel' : dir < fuel') :
    buildAbsolutePath s.folders fuel dir = buildAbsolutePath s.folders fuel' dir := by
  induction hdir generalizing fuel fuel' with
  | refl =>
    obtain ⟨n, rfl⟩ := Nat.exists_eq_add_of_lt hfuel
    obtain ⟨n', rfl⟩ := Nat.exists_eq_add_of_lt hfuel'
    rw [buildAbsolutePath, buildAbsolutePath]
    cases (s.folders rootPtr).parent with
    | none => rfl
    | some p => rfl
  | tail _ hc ih =>
    obtain ⟨nd, hnd, rfl⟩ := List.mem_map.1 hc
    have hback := h.entry _ nd hnd
    obtain ⟨n, rfl⟩ := Nat.exists_eq_add_of_lt hfuel
    obtain ⟨n', rfl⟩ := Nat.exists_eq_add_of_lt hfuel'
    rw [buildAbsolutePath, buildAbsolutePath, hback.parent]
    dsimp only
    rw [ih (hback.lt.trans_le (Nat.le_add_right _ n)) (hback.lt.trans_le (Nat.le_add_right _ n'))]

theorem RamInv.isAbsolutePath (h : RamInv s) (hdir : Reach s dir) :
    IsAbsolutePath s.folders dir (absolutePath s dir) :=
  ⟨dir + 1, fun _ hfuel =>
    h.buildAbsolutePath_eq hdir hfuel ((h.reach_lt hdir).trans (Nat.lt_succ_self _))⟩

theorem envValue_eq_iff (value : CString) : envValue value = value ↔ value.chars.length ≤ 255 := by
  rw [← CString.chars_injective.eq_iff, envValue]
  exact List.take_eq_self_iff _

/-- The paths agree after a move exactly when the environment keeps all of the path. -/
theorem RamInv.cdCoherent_moveTo_iff (h : RamInv s) (hdir : Reach s dir) :
    CdCoherent (s.moveTo dir) ↔ (absolutePath s dir).chars.length ≤ 255 := by
  have hpath := h.isAbsolutePath hdir
  have hpwd : (s.moveTo dir).pwd = some (s.moveTo dir).currentPath ↔
      (absolutePath s dir).chars.length ≤ 255 := by
    rw [← envValue_eq_iff]
    exact Option.some_inj
  constructor
  · rintro ⟨_, -, -, -, hsame⟩
    exact hpwd.1 hsame
  · intro hlen
    exact ⟨absolutePath s dir, hpath, by omega, rfl, hpwd.2 hlen⟩

end Cd

/-- **When the working directory is coherent.** In every state that a run of commands reaches
without a mount, after every successful `fs_cd`: the three representations of the working
directory agree if and only if the absolute path of the directory that the path names has at most
255 characters. -/
theorem cd_coherent_iff (grants : ℕ → Bool) (store : Store) (commands : List Command)
    (path : CString)
    (hcd : (fsCd (commands.foldl commandStep (initState ⟨grants, 0, []⟩ store)) path).1 = 0) :
    CdCoherent (fsCd (commands.foldl commandStep (initState ⟨grants, 0, []⟩ store)) path).2 ↔
      ∀ dir p, cdTarget (commands.foldl commandStep (initState ⟨grants, 0, []⟩ store)) path = some dir →
        IsAbsolutePath (commands.foldl commandStep (initState ⟨grants, 0, []⟩ store)).folders dir p →
        p.chars.length ≤ 255 := by
  have h := CommandInv.run grants store commands
  generalize commands.foldl commandStep (initState ⟨grants, 0, []⟩ store) = s at h hcd
  rcases fsCd_cases s path with heq | ⟨dir, hdir, heq⟩
  · rw [heq] at hcd
    exact absurd hcd (by norm_num)
  obtain ⟨D, htree⟩ := h.tree
  have hreach := htree.reach_getDirByPath htree.noDangling.currentDir hdir
  rw [heq, h.ram.cdCoherent_moveTo_iff hreach]
  constructor
  · intro hlen dir' p htarget hp
    rw [cdTarget_eq, hdir] at htarget
    obtain rfl := Option.some.inj htarget
    rwa [hp.unique (h.ram.isAbsolutePath hreach)]
  · intro hall
    exact hall dir _ ((cdTarget_eq s path).trans hdir) (h.ram.isAbsolutePath hreach)

/-! ### A path of 384 characters -/

/-- A name of 127 times the letter `a`. -/
def longName : CString := ⟨List.replicate 127 97, by decide⟩

/-- The directory of that name is made in the working directory, and entered. -/
def descend : List Command := [⟨.mkdir, [longName]⟩, ⟨.cd, [longName]⟩]

/-- In the directory `"/a"` all is well. -/
theorem cd_coherent_short :
    CdCoherent (fsCd (commandStep (initState ⟨fun _ => true, 0, []⟩ noDisk)
      ⟨.mkdir, [⟨[97], by decide⟩]⟩) ⟨[97], by decide⟩).2 := by
  refine (cd_coherent_iff (fun _ => true) noDisk [⟨.mkdir, [⟨[97], by decide⟩]⟩] ⟨[97], by decide⟩
    (by decide +kernel)).2 fun dir p hdir hp => ?_
  have h := CommandInv.run (fun _ => true) noDisk [⟨.mkdir, [⟨[97], by decide⟩]⟩]
  have hone : cdTarget (commandStep (initState ⟨fun _ => true, 0, []⟩ noDisk)
      ⟨.mkdir, [⟨[97], by decide⟩]⟩) ⟨[97], by decide⟩ = some 1 := by
    decide +kernel
  obtain rfl := Option.some.inj (hdir.symm.trans hone)
  obtain ⟨D, htree⟩ := h.tree
  have hreach : Reach _ 1 :=
    htree.reach_getDirByPath htree.noDangling.currentDir ((cdTarget_eq _ _).symm.trans hone)
  rw [hp.unique (h.ram.isAbsolutePath hreach)]
  decide +kernel

/-- Three levels down, the environment has cut the path off. -/
theorem cd_incoherent_long :
    ¬∀ (grants : ℕ → Bool) (store : Store) (commands : List Command) (path : CString),
      (fsCd (commands.foldl commandStep (initState ⟨grants, 0, []⟩ store)) path).1 = 0 →
      CdCoherent (fsCd (commands.foldl commandStep (initState ⟨grants, 0, []⟩ store)) path).2 := by
  intro h
  obtain ⟨path, -, -, -, hpwd⟩ := h (fun _ => true) noDisk
    (descend ++ descend ++ [⟨.mkdir, [longName]⟩]) longName (by decide +kernel)
  revert hpwd
  decide +kernel

end LittleLinux
