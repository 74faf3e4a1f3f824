import LittleLinux.Ramfs.Directory

/-!
# The calls refine the directory

Each call, made without `from` in a state that holds the directory `d`, answers as `dirStep`
says and leaves a state that holds the next directory; so do the runs.
-/

namespace LittleLinux

open ChainTable

/-! ### Where the calls work -/

section Calls

variable {s : Fs} {d : Directory} {op : DirOp}

theorem RamRel.lazyLoad (h : RamRel s d) : lazyLoadDirectory s rootPtr = s := by
  rw [lazyLoadDirectory, if_neg]
  rintro ⟨hclean, -⟩
  rw [h.type] at hclean
  exact absurd hclean (by decide)

theorem RamRel.fromDir (h : RamRel s d) : fromDir s none = some rootPtr := congrArg some h.currentDir

theorem RamRel.parsePath (h : RamRel s d) (name : EntryName) :
    parsePath s name none = .ok (rootPtr, name.1) := by
  have hsplit : splitLast name.1 = none := by
    rw [splitLast]
    split
    · next r hr => exact absurd (hr.symm.trans (strrchr_eq_none_iff.2 name.2.2.2)) (by simp)
    · rfl
  rw [LittleLinux.parsePath, hsplit]
  dsimp only
  rw [h.fromDir]

theorem markDirty_of_mem {f : RamfsFoder} (h : f.type = RAMFS_FOLDER_TYPE_MEM) : markDirty f = f := by
  rw [markDirty, if_neg]
  rw [h]
  decide

theorem EntryName.strlen_ok (name : EntryName) :
    ¬(strlen name.1.chars = 0 ∨ strlen name.1.chars ≥ 128) := by
  rw [strlen_chars]
  have hpos : 0 < name.1.chars.length := List.length_pos_of_ne_nil name.2.1
  have hle := name.2.2.1
  omega

/-- What the two answer is the same, and the states stay related. -/
def Simulates (s : Fs) (d : Directory) (op : DirOp) : Prop :=
  (ramStep s op).1 = (dirStep d op).1 ∧ RamRel (ramStep s op).2 (dirStep d op).2

/-- The call fails on both sides. -/
theorem RamRel.failed (h : RamRel s d) {e : ℤ} (hcall : fsCall s op.call = (e, s)) (he : e ≠ 0)
    (habs : dirStep d op = (.failed, d)) : Simulates s d op := by
  rw [Simulates, ramStep, hcall, habs]
  refine ⟨?_, h⟩
  rw [decide_eq_false he, List.drop_length]
  rfl

/-- The call succeeds on both sides and prints nothing. -/
theorem simulates_done {s' : Fs} {d' : Directory} (hcall : fsCall s op.call = (0, s'))
    (hout : s'.out = s.out) (habs : dirStep d op = (.done, d')) (h : RamRel s' d') :
    Simulates s d op := by
  rw [Simulates, ramStep, hcall, habs]
  refine ⟨?_, h⟩
  rw [hout, List.drop_length]
  rfl

/-! ### Directories -/

theorem RamRel.entry_of_foder (h : RamRel s d) {k : CString} {info : RamfsFoderInfo}
    (hk : lookup djb2Bucket (rootFoders s) k = some info) : d k = some .dir := by
  rw [h.entry, hk]
  rfl

theorem RamRel.foder_of_file (h : RamRel s d) {k : CString} {info : RamfsFileInfo}
    (hk : lookup djb2Bucket (rootFiles s) k = some info) :
    lookup djb2Bucket (rootFoders s) k = none := by
  by_contra hne
  rw [h.disjoint k hne] at hk
  exact absurd hk (by simp)

theorem RamRel.entry_of_file (h : RamRel s d) {k : CString} {info : RamfsFileInfo}
    (hk : lookup djb2Bucket (rootFiles s) k = some info) : d k = some (.file (fileBytes info)) := by
  rw [h.entry, h.foder_of_file hk, hk]
  rfl

/-- Where `fs_mkdir` and `fs_touch` find a file, there is one of that name. -/
theorem exists_file_of_find {k : CString}
    (hd : lookup djb2Bucket (rootFoders s) k ≠ none ∨ lookup djb2Bucket (rootFiles s) k ≠ none ∨
      Unshadowed (rootFiles s) k)
    (hdir : lookup djb2Bucket (rootFoders s) k = none)
    (hfile : (ramfsFileHashmapFind (rootFiles s) k).isSome = true) :
    ∃ info, lookup djb2Bucket (rootFiles s) k = some info := by
  rcases hd with hne | hne | hun
  · exact absurd hdir hne
  · exact Option.ne_none_iff_exists'.1 hne
  · rw [ramfsFileHashmapFind_eq_lookup hun] at hfile
    exact Option.isSome_iff_exists.1 hfile

/-- Where they find none, there is none. -/
theorem RamRel.lookup_of_find_none (h : RamRel s d) {k : CString}
    (hfind : ramfsFileHashmapFind (rootFiles s) k = none) :
    lookup djb2Bucket (rootFiles s) k = none := by
  by_contra hne
  exact NamedTable.find_ne_none h.files (fileStreq_self k) hne hfind

theorem RamRel.mkdir (h : RamRel s d) (name : EntryName) (hd : (DirOp.mkdir name).Distinct s) :
    Simulates s d (.mkdir name) := by
  have hcall : fsCall s (DirOp.mkdir name).call = mkdirIn s rootPtr name := by
    rw [DirOp.call, fsCall, fsMkdir, if_neg name.strlen_ok, h.fromDir]
  rw [mkdirIn] at hcall
  dsimp only at hcall
  rw [h.lazyLoad, ramfsHashmapFind_eq_lookup] at hcall
  change fsCall s (DirOp.mkdir name).call = (if (lookup djb2Bucket (rootFoders s) name.1).isSome = true
    then _ else if (ramfsFileHashmapFind (rootFiles s) name.1).isSome = true then _ else _) at hcall
  -- a directory of the name, a file of the name (as the file table finds it), or neither
  by_cases hdir : (lookup djb2Bucket (rootFoders s) name.1).isSome = true
  · rw [if_pos hdir] at hcall
    obtain ⟨info, hinfo⟩ := Option.isSome_iff_exists.1 hdir
    refine h.failed hcall (by decide) ?_
    rw [dirStep, if_neg]
    rw [h.entry_of_foder hinfo]
    exact Option.some_ne_none _
  rw [if_neg hdir] at hcall
  rw [Option.not_isSome_iff_eq_none] at hdir
  by_cases hfile : (ramfsFileHashmapFind (rootFiles s) name.1).isSome = true
  · rw [if_pos hfile] at hcall
    obtain ⟨info, hinfo⟩ := exists_file_of_find hd hdir hfile
    refine h.failed hcall (by decide) ?_
    rw [dirStep, if_neg]
    rw [h.entry_of_file hinfo]
    exact Option.some_ne_none _
  rw [if_neg hfile] at hcall
  -- the file table may find a name it does not hold, never the other way round
  have hfree := h.lookup_of_find_none (Option.not_isSome_iff_eq_none.1 hfile)
  have hentry : d name.1 = none := by rw [h.entry, hdir, hfree, entryOf]
  rw [h.mem.malloc_isSome (show sizeofRamfsFoder ≠ 0 by decide)] at hcall
  dsimp only at hcall
  generalize (if (s.folders rootPtr).mount = none then RAMFS_FOLDER_TYPE_MEM else
    RAMFS_FOLDER_TYPE_NEW) = type at hcall
  generalize hnode : ({ RamfsFoder.zero with
    name := name.1, type := type, parent := some rootPtr, mount := (s.folders rootPtr).mount } :
    RamfsFoder) = node at hcall
  have hempty : EmptyFolder node := hnode ▸ ⟨rfl, rfl⟩
  -- the new folder is not the root, which keeps every other field
  have hne : rootPtr ≠ s.mem.next := Nat.ne_of_lt (Nat.succ_pos _)
  rw [Fs.setFolder_of_ne _ _ hne, Fs.setFolder_mem, Fs.setMem_mem, Fs.setMem_folders,
    show (s.folders rootPtr).foderMap = rootFoders s from rfl] at hcall
  obtain ⟨hins, hrep, hlook, hmem⟩ := NamedTable.insert_absent h.foders
    (foderTable_exactAt (rootFoders s) name.1) name.2.2.1 hdir
    (h.mem.malloc sizeofRamfsFoder) (by decide) ⟨name.1, type, s.mem.next, 0⟩
  rw [if_pos (show (ramfsHashmapInsert _ _ _ _).1 = true from hins)] at hcall
  refine simulates_done hcall rfl (by rw [dirStep, if_pos hentry]) ?_
  refine h.setFoder hrep hlook ?_ hfree rfl hmem ?_ ?_
  · intro info hinfo
    obtain rfl := Option.some.inj hinfo
    refine ⟨hne.symm, ?_⟩
    rw [show (foderTable.setName name.1 ⟨name.1, type, s.mem.next, 0⟩).ptr = s.mem.next from rfl,
      Fs.setMem_folders, Fs.modifyFolder_of_ne _ _ hne.symm, Fs.setFolder_self]
    exact hempty
  · rw [Fs.setMem_folders, Fs.modifyFolder_self, Fs.setFolder_of_ne _ _ hne]
    exact markDirty_of_mem h.type
  · intro p hp hp'
    rw [Fs.setMem_folders, Fs.modifyFolder_of_ne _ _ hp]
    rcases eq_or_ne p s.mem.next with rfl | hpn
    · rw [Fs.setFolder_self]
      exact hempty
    · rw [Fs.setFolder_of_ne _ _ hpn]
      exact hp'

theorem RamRel.rmdir (h : RamRel s d) (name : EntryName) : Simulates s d (.rmdir name) := by
  have hcall : fsCall s (DirOp.rmdir name).call = rmdirIn s rootPtr name := by
    rw [DirOp.call, fsCall, fsRmdir, h.fromDir]
  rw [rmdirIn] at hcall
  dsimp only at hcall
  rw [h.lazyLoad, show (s.folders rootPtr).foderMap = rootFoders s from rfl,
    ramfsHashmapFind_eq_lookup] at hcall
  cases hdir : lookup djb2Bucket (rootFoders s) name.1 with
  | none =>
    rw [hdir] at hcall
    refine h.failed hcall (by decide) ?_
    rw [dirStep, h.entry, hdir]
    cases lookup djb2Bucket (rootFiles s) name.1 with
    | none => rfl
    | some info => rfl
  | some info =>
    rw [hdir] at hcall
    dsimp only at hcall
    -- the folders in the root stay empty along such a run, so the source's check of the counts passes
    obtain ⟨hne, hcount⟩ := h.empty name.1 info hdir
    rw [if_neg (by rw [not_or, not_not, not_not]; exact hcount)] at hcall
    have he := foderTable_exactAt (rootFoders s) name.1
    have habs : dirStep d (.rmdir name) = (.done, Function.update d name.1 none) := by
      rw [dirStep, h.entry_of_foder hdir]
    have hfree : lookup djb2Bucket (rootFiles s) name.1 = none :=
      h.disjoint name.1 (by rw [hdir]; exact Option.some_ne_none info)
    refine simulates_done hcall rfl habs ?_
    refine h.setFoder (o := none) (rep_delete h.foders he) (fun k' => lookup_delete h.foders he k')
      (fun _ hinfo => absurd hinfo (by simp)) hfree rfl ?_ ?_ ?_
    · exact unfailing_tableDestroy _ (unfailing_tableDestroy _ (unfailing_delete _ _ _ h.mem))
    · rw [Fs.modifyFolder_self, Fs.setMem_folders, Fs.modifyFolder_of_ne _ _ hne.symm,
        Fs.setMem_folders, Fs.modifyFolder_self]
      exact markDirty_of_mem h.type
    · intro p hp hp'
      rw [Fs.modifyFolder_of_ne _ _ hp, Fs.setMem_folders]
      rcases eq_or_ne p info.ptr with rfl | hpi
      · rw [Fs.modifyFolder_self]
        exact ⟨rfl, rfl⟩
      · rw [Fs.modifyFolder_of_ne _ _ hpi, Fs.setMem_folders, Fs.modifyFolder_of_ne _ _ hp]
        exact hp'

/-! ### Files -/

theorem RamRel.touch (h : RamRel s d) (name : EntryName) (hd : (DirOp.touch name).Distinct s) :
    Simulates s d (.touch name) := by
  have hcall : fsCall s (DirOp.touch name).call = touchIn s rootPtr name := by
    rw [DirOp.call, fsCall, fsTouch, if_neg name.strlen_ok, h.parsePath]
  rw [touchIn] at hcall
  dsimp only at hcall
  rw [h.lazyLoad, ramfsHashmapFind_eq_lookup] at hcall
  change fsCall s (DirOp.touch name).call = (if (lookup djb2Bucket (rootFoders s) name.1).isSome = true
    then _ else if (ramfsFileHashmapFind (rootFiles s) name.1).isSome = true then _ else _) at hcall
  by_cases hdir : (lookup djb2Bucket (rootFoders s) name.1).isSome = true
  · rw [if_pos hdir] at hcall
    obtain ⟨info, hinfo⟩ := Option.isSome_iff_exists.1 hdir
    refine h.failed hcall (by decide) ?_
    rw [dirStep, if_neg]
    rw [h.entry_of_foder hinfo]
    exact Option.some_ne_none _
  rw [if_neg hdir] at hcall
  rw [Option.not_isSome_iff_eq_none] at hdir
  by_cases hfile : (ramfsFileHashmapFind (rootFiles s) name.1).isSome = true
  · rw [if_pos hfile] at hcall
    obtain ⟨info, hinfo⟩ := exists_file_of_find hd hdir hfile
    refine h.failed hcall (by decide) ?_
    rw [dirStep, if_neg]
    rw [h.entry_of_file hinfo]
    exact Option.some_ne_none _
  rw [if_neg hfile] at hcall
  have hfind := Option.not_isSome_iff_eq_none.1 hfile
  have hfree := h.lookup_of_find_none hfind
  have hentry : d name.1 = none := by rw [h.entry, hdir, hfree, entryOf]
  have he := (fileTable_exactAt_iff _ _).2 (unshadowed_of_find_none hfind)
  generalize (if (s.folders rootPtr).mount = none then RAMFS_TYPE_MEM else RAMFS_TYPE_NEW) = type at hcall
  rw [show (s.folders rootPtr).fileMap = rootFiles s from rfl] at hcall
  obtain ⟨hins, hrep, hlook, hmem⟩ := NamedTable.insert_absent h.files he name.2.2.1 hfree h.mem
    (by decide) ⟨name.1, type, 0, none, 0⟩
  rw [if_pos (show (ramfsFileHashmapInsert _ _ _ _).1 = true from hins)] at hcall
  refine simulates_done hcall rfl (by rw [dirStep, if_pos hentry]) ?_
  refine h.setFile hrep hlook ?_ hdir rfl hmem ?_ ?_
  · intro info hinfo
    obtain rfl := Option.some.inj hinfo
    exact ⟨rfl, show (0 : ℕ) < 2 ^ 32 by decide⟩
  · rw [Fs.setMem_folders, Fs.modifyFolder_self]
    exact markDirty_of_mem h.type
  · intro p hp
    rw [Fs.setMem_folders, Fs.modifyFolder_of_ne _ _ hp]

theorem RamRel.rm (h : RamRel s d) (name : EntryName) (hd : (DirOp.rm name).Distinct s) :
    Simulates s d (.rm name) := by
  have hcall : fsCall s (DirOp.rm name).call = rmIn s rootPtr name := by
    rw [DirOp.call, fsCall, fsRm, if_neg fun hz => name.strlen_ok (Or.inl hz), h.parsePath]
  rw [rmIn] at hcall
  dsimp only at hcall
  rw [h.lazyLoad, show (s.folders rootPtr).fileMap = rootFiles s from rfl,
    ramfsFileHashmapFind_eq_lookup hd] at hcall
  have he := (fileTable_exactAt_iff _ _).2 hd
  cases hfile : lookup djb2Bucket (rootFiles s) name.1 with
  | none =>
    rw [hfile] at hcall
    refine h.failed hcall (by decide) ?_
    rw [dirStep, h.entry, hfile]
    cases lookup djb2Bucket (rootFoders s) name.1 with
    | none => rfl
    | some info => rfl
  | some info =>
    rw [hfile] at hcall
    dsimp only at hcall
    have hdel : (ramfsFileHashmapDelete (freeData s.mem info) (rootFiles s) name.1).1 = true := by
      refine (delete_fst h.files he).trans ?_
      rw [hfile]
      rfl
    rw [if_pos hdel] at hcall
    have habs : dirStep d (.rm name) = (.done, Function.update d name.1 none) := by
      rw [dirStep, h.entry_of_file hfile]
    refine simulates_done hcall rfl habs ?_
    refine h.setFile (o := none) (rep_delete h.files he) (fun k' => lookup_delete h.files he k')
      (fun _ hinfo => absurd hinfo (by simp)) (h.foder_of_file hfile) rfl ?_ ?_ ?_
    · exact unfailing_delete _ _ _ (unfailing_freeData info h.mem)
    · rw [Fs.setMem_folders, Fs.modifyFolder_self]
      exact markDirty_of_mem h.type
    · intro p hp
      rw [Fs.setMem_folders, Fs.modifyFolder_of_ne _ _ hp]

/-- The entry of a file is changed in place. -/
theorem RamRel.modifyFile (h : RamRel s d) {k : CString} (hd : Unshadowed (rootFiles s) k)
    {info : RamfsFileInfo} (hfile : lookup djb2Bucket (rootFiles s) k = some info) {mem : Memory}
    (hmem : mem.Unfailing) {g : RamfsFileInfo → RamfsFileInfo} (hok : FileOk (g info)) :
    RamRel ((LittleLinux.modifyFile (s.setMem mem) rootPtr k g).modifyFolder rootPtr markDirty)
      (Function.update d k (some (.file (fileBytes (g info))))) := by
  have he := (fileTable_exactAt_iff _ _).2 hd
  have hrep : Rep djb2Bucket (ramfsFileHashmapModify (rootFiles s) k g) := rep_modify h.files g
  have hlook : ∀ k', lookup djb2Bucket (ramfsFileHashmapModify (rootFiles s) k g) k' =
      if k' = k then some (g info) else lookup djb2Bucket (rootFiles s) k' := by
    intro k'
    refine (lookup_modify h.files he g k').trans ?_
    rw [hfile]
    rfl
  refine h.setFile hrep hlook ?_ (h.foder_of_file hfile) rfl hmem ?_ ?_
  · intro info' hinfo
    obtain rfl := Option.some.inj hinfo
    exact hok
  · rw [Fs.modifyFolder_self, LittleLinux.modifyFile, Fs.modifyFolder_self]
    exact markDirty_of_mem h.type
  · intro p hp
    rw [Fs.modifyFolder_of_ne _ _ hp, LittleLinux.modifyFile, Fs.modifyFolder_of_ne _ _ hp]
    rfl

/-- A name that no file has. -/
theorem RamRel.entry_of_no_file (h : RamRel s d) {k : CString}
    (hk : lookup djb2Bucket (rootFiles s) k = none) : d k = none ∨ d k = some .dir := by
  rw [h.entry, hk]
  cases lookup djb2Bucket (rootFoders s) k with
  | none => exact Or.inl rfl
  | some info => exact Or.inr rfl

theorem RamRel.write (h : RamRel s d) (name : EntryName) (data : Data)
    (hd : (DirOp.write name data).Distinct s) : Simulates s d (.write name data) := by
  have hcall : fsCall s (DirOp.write name data).call = writeIn s rootPtr name data := by
    rw [DirOp.call, fsCall, fsWrite, h.fromDir]
  rw [writeIn] at hcall
  dsimp only at hcall
  rw [h.lazyLoad, show (s.folders rootPtr).fileMap = rootFiles s from rfl,
    ramfsFileHashmapFind_eq_lookup hd] at hcall
  cases hfile : lookup djb2Bucket (rootFiles s) name.1 with
  | none =>
    rw [hfile] at hcall
    refine h.failed hcall (by decide) ?_
    rw [dirStep]
    rcases h.entry_of_no_file hfile with he | he
    · rw [he]
    · rw [he]
  | some info =>
    rw [hfile] at hcall
    dsimp only at hcall
    have hfree := unfailing_freeData info h.mem
    -- nothing is allocated for no bytes, and an allocation does not fail
    have hptr : ((freeData s.mem info).malloc data.1.length).1 = none ∧ data.1 = [] ∨
        ∃ q, ((freeData s.mem info).malloc data.1.length).1 = some q := by
      by_cases hlen : data.1.length = 0
      · refine Or.inl ⟨?_, List.length_eq_zero_iff.1 hlen⟩
        rw [Memory.malloc, if_pos hlen]
      · exact Or.inr ⟨_, hfree.malloc_isSome hlen⟩
    have hmem := hfree.malloc data.1.length
    generalize (freeData s.mem info).malloc data.1.length = a at hcall hptr hmem
    have hnot : ¬(a.1 = none ∧ data.1.length > 0) := by
      rintro ⟨hnone, hpos⟩
      rcases hptr with ⟨-, hnil⟩ | ⟨q, hq⟩
      · rw [hnil] at hpos
        exact absurd hpos (by decide)
      · rw [hq] at hnone
        exact absurd hnone (by simp)
    rw [if_neg hnot] at hcall
    have habs : dirStep d (.write name data) =
        (.done, Function.update d name.1 (some (.file data.1))) := by
      rw [dirStep, h.entry_of_file hfile]
    generalize hg : (fun info : RamfsFileInfo => ({ info with
      ptr := a.1.map fun p => ⟨p, data.1⟩
      length := data.1.length
      type := changedTag info } : RamfsFileInfo)) = g at hcall
    have hbytes : fileBytes (g info) = data.1 := by
      rw [← hg, fileBytes.eq_def]
      rcases hptr with ⟨hnone, hnil⟩ | ⟨q, hq⟩
      · rw [hnone, hnil]
        rfl
      · rw [hq]
        exact List.take_of_length_le (le_of_eq (Int.toNat_natCast _).symm)
    have hlen : (g info).length = data.1.length := by rw [← hg]
    have hrel := h.modifyFile hd hfile hmem (g := g) ⟨by rw [hlen, hbytes], hbytes.symm ▸ data.2⟩
    rw [hbytes] at hrel
    exact simulates_done hcall rfl habs hrel

/-- Nothing needs to be loaded where nothing is mounted. -/
theorem RamRel.loadData (h : RamRel s d) (k : CString) (info : RamfsFileInfo) :
    loadData s rootPtr k info = (0, s) := by
  rw [LittleLinux.loadData, h.mount]

theorem flatMap_printfChar {l : List UInt8} (h : (0 : UInt8) ∉ l) : l.flatMap printfChar = l := by
  induction l with
  | nil => rfl
  | cons c l ih =>
    rw [List.mem_cons, not_or] at h
    rw [List.flatMap_cons, ih h.2, printfChar, if_neg (Ne.symm h.1), List.singleton_append]

theorem RamRel.cat (h : RamRel s d) (name : EntryName) (hd : (DirOp.cat name).Distinct s) :
    Simulates s d (.cat name) := by
  obtain ⟨hd, hnul⟩ := hd
  have hcall : fsCall s (DirOp.cat name).call = catIn s rootPtr name := by
    rw [DirOp.call, fsCall, fsCat, h.fromDir]
  rw [catIn] at hcall
  dsimp only at hcall
  rw [h.lazyLoad, show (s.folders rootPtr).fileMap = rootFiles s from rfl,
    ramfsFileHashmapFind_eq_lookup hd] at hcall
  cases hfile : lookup djb2Bucket (rootFiles s) name.1 with
  | none =>
    rw [hfile] at hcall
    refine h.failed hcall (by decide) ?_
    rw [dirStep]
    rcases h.entry_of_no_file hfile with he | he
    · rw [he]
    · rw [he]
  | some info =>
    rw [hfile] at hcall
    dsimp only at hcall
    rw [h.loadData, if_neg (not_not.2 rfl)] at hcall
    dsimp only at hcall
    rw [show (s.folders rootPtr).fileMap = rootFiles s from rfl,
      ramfsFileHashmapFind_eq_lookup hd, hfile] at hcall
    dsimp only at hcall
    have habs : dirStep d (.cat name) = (⟨true, fileBytes info⟩, d) := by
      rw [dirStep, h.entry_of_file hfile]
    -- the bytes go through `printf` one by one; with no NUL among them each prints itself
    have hprint := flatMap_printfChar (hnul info hfile)
    rw [Simulates, ramStep, hcall, habs]
    rw [fileBytes.eq_def] at hprint ⊢
    cases hptr : info.ptr with
    | none =>
      dsimp only
      refine ⟨?_, h⟩
      rw [List.drop_length]
      rfl
    | some buf =>
      rw [hptr] at hprint
      dsimp only at hprint ⊢
      refine ⟨?_, ⟨h.currentDir, h.type, h.mount, h.mem, h.foders, h.files, h.empty, h.fileOk,
        h.disjoint, h.entry⟩⟩
      rw [hprint, Fs.print, List.drop_left]
      rfl

/-- What is left of a file when `count` bytes are cut off, in the arithmetic of the code. -/
theorem toU32_sub_count {len : ℕ} (hlen : len < 2 ^ 32) (count : Count) :
    toU32 ((len : ℤ) - (if ((count.1 : ℕ) : ℤ) > len then toI32 len else ((count.1 : ℕ) : ℤ))) =
      len - count.1 := by
  have hc := count.2.2
  split_ifs with hgt
  · rw [toI32_of_mem (by omega) (by omega), sub_self]
    have : len - count.1 = 0 := by omega
    rw [this]
    rfl
  · have heq : (len : ℤ) - ((count.1 : ℕ) : ℤ) = ((len - count.1 : ℕ) : ℤ) := by omega
    rw [heq, toU32_of_lt (by omega)]

theorem RamRel.backspace (h : RamRel s d) (name : EntryName) (count : Count)
    (hd : (DirOp.backspace name count).Distinct s) : Simulates s d (.backspace name count) := by
  have hpos : 0 < ((count.1 : ℕ) : ℤ) := by exact_mod_cast count.2.1
  have hcall : fsCall s (DirOp.backspace name count).call = backspaceIn s rootPtr name count.1 := by
    rw [DirOp.call, fsCall, fsBackspace, if_neg (by omega), if_neg (by omega), h.parsePath]
  rw [backspaceIn] at hcall
  dsimp only at hcall
  rw [h.lazyLoad, show (s.folders rootPtr).fileMap = rootFiles s from rfl,
    ramfsFileHashmapFind_eq_lookup hd] at hcall
  cases hfile : lookup djb2Bucket (rootFiles s) name.1 with
  | none =>
    rw [hfile] at hcall
    refine h.failed hcall (by decide) ?_
    rw [dirStep]
    rcases h.entry_of_no_file hfile with he | he
    · rw [he]
    · rw [he]
  | some info =>
    rw [hfile] at hcall
    dsimp only at hcall
    rw [h.loadData, if_neg (not_not.2 rfl)] at hcall
    dsimp only at hcall
    rw [show (s.folders rootPtr).fileMap = rootFiles s from rfl,
      ramfsFileHashmapFind_eq_lookup hd, hfile] at hcall
    dsimp only at hcall
    obtain ⟨hlen, hlt⟩ := h.fileOk name.1 info hfile
    rw [cutFile] at hcall
    have hentry := h.entry_of_file hfile
    by_cases hnil : fileBytes info = []
    · have hzero : info.length = 0 := by rw [hlen, hnil]; rfl
      rw [if_pos hzero] at hcall
      refine h.failed hcall (by decide) ?_
      rw [dirStep, hentry]
      dsimp only
      rw [if_pos hnil]
    · have hne : info.length ≠ 0 := by
        rw [hlen]
        exact_mod_cast (List.length_pos_of_ne_nil hnil).ne'
      rw [if_neg hne] at hcall
      dsimp only at hcall
      have hnew := toU32_sub_count hlt count
      rw [← hlen] at hnew
      rw [hnew] at hcall
      have habs : dirStep d (.backspace name count) = (.done, Function.update d name.1
          (some (.file ((fileBytes info).take ((fileBytes info).length - count.1))))) := by
        rw [dirStep, hentry]
        dsimp only
        rw [if_neg hnil]
      have hle := Nat.sub_le (fileBytes info).length count.1
      generalize (fileBytes info).length - count.1 = n at hcall habs hle
      by_cases hzero : n = 0
      · rw [if_pos hzero] at hcall
        generalize hg : (fun info : RamfsFileInfo => ({ info with
          ptr := none
          length := 0
          type := changedTag info } : RamfsFileInfo)) = g at hcall
        have hbytes : fileBytes (g info) = (fileBytes info).take n := by
          rw [← hg, hzero, List.take_zero]
          rfl
        have hrel := h.modifyFile hd hfile (unfailing_freeData info h.mem) (g := g) (by
          rw [← hg]
          exact ⟨rfl, show (0 : ℕ) < 2 ^ 32 by decide⟩)
        rw [hbytes] at hrel
        exact simulates_done hcall rfl habs hrel
      · rw [if_neg hzero, h.mem.malloc_isSome hzero] at hcall
        dsimp only at hcall
        have hn : n ≤ info.length.toNat := by
          rw [hlen, Int.toNat_natCast]
          exact hle
        -- the new buffer holds what is left of the old one
        obtain ⟨bytes, htake, hcall⟩ : ∃ bytes : List UInt8,
            bytes.take n = (fileBytes info).take n ∧
            fsCall s (DirOp.backspace name count).call =
              (0, (LittleLinux.modifyFile (s.setMem (freeData (s.mem.malloc n).2 info)) rootPtr name.1
                fun file => { file with
                  ptr := some ⟨s.mem.next, bytes⟩
                  length := n
                  type := changedTag file }).modifyFolder rootPtr markDirty) := by
          rw [fileBytes]
          cases hptr : info.ptr with
          | none =>
            rw [hptr] at hcall
            exact ⟨[], rfl, hcall⟩
          | some buf =>
            rw [hptr] at hcall
            refine ⟨buf.bytes.take n, ?_, hcall⟩
            rw [List.take_take, List.take_take, min_self, min_eq_left hn]
        generalize hg : (fun file : RamfsFileInfo => ({ file with
          ptr := some ⟨s.mem.next, bytes⟩
          length := n
          type := changedTag file } : RamfsFileInfo)) = g at hcall
        have hbytes : fileBytes (g info) = (fileBytes info).take n := by
          rw [← hg, ← htake, fileBytes, Int.toNat_natCast]
        have hlenNew : (g info).length = n := by rw [← hg]
        have hrel := h.modifyFile hd hfile
          (unfailing_freeData info (h.mem.malloc n)) (g := g) (by
          rw [FileOk, hbytes, hlenNew, List.length_take, min_eq_left hle]
          exact ⟨rfl, hle.trans_lt hlt⟩)
        rw [hbytes] at hrel
        exact simulates_done hcall rfl habs hrel

end Calls

/-! ### Runs -/

/-- **One step.** -/
theorem RamRel.step {s : Fs} {d : Directory} {op : DirOp} (h : RamRel s d) (hd : op.Distinct s) :
    Simulates s d op := by
  cases op with
  | mkdir name => exact h.mkdir name hd
  | rmdir name => exact h.rmdir name
  | touch name => exact h.touch name hd
  | write name data => exact h.write name data hd
  | backspace name count => exact h.backspace name count hd
  | rm name => exact h.rm name hd
  | cat name => exact h.cat name hd

/-- After `fs_init` the root directory is empty. -/
theorem ramRel_initState {mem : Memory} (hmem : mem.Unfailing) (store : Store) :
    RamRel (initState mem store) fun _ => none where
  currentDir := rfl
  type := rfl
  mount := rfl
  mem := hmem
  foders := rep_empty djb2Bucket
  files := rep_empty djb2Bucket
  empty := by
    intro k info hinfo
    rw [show rootFoders (initState mem store) = Table.empty from rfl, lookup_empty] at hinfo
    exact absurd hinfo (by simp)
  fileOk := by
    intro k info hinfo
    rw [show rootFiles (initState mem store) = Table.empty from rfl, lookup_empty] at hinfo
    exact absurd hinfo (by simp)
  disjoint := fun k _ => lookup_empty djb2Bucket k
  entry := by
    intro k
    rw [show rootFoders (initState mem store) = Table.empty from rfl,
      show rootFiles (initState mem store) = Table.empty from rfl, lookup_empty, lookup_empty, entryOf]

/-- **The file system in memory is a directory**: along every run of calls without `from` in
which no call meets a shadowed name and no file with a NUL is printed, each call succeeds or
fails and prints as the directory of the calls before it says. -/
theorem ramfs_refines_directory (mem : Memory) (hmem : mem.Unfailing) (store : Store)
    (ops : List DirOp)
    (hops : Along (fun s op => (ramStep s op).2) (fun s op => op.Distinct s) (initState mem store) ops) :
    answers ramStep (initState mem store) ops = answers dirStep (fun _ => none) ops :=
  answers_eq_of_simulation (fun _ _ _ h hd => h.step hd) (ramRel_initState hmem store) hops

/-! ### Two runs -/

/-- A store without partitions. -/
def noDisk : Store := ⟨fun _ => 0, fun _ _ => 0, fun _ => false, 0, []⟩

/-- The name of one character. -/
def name1 (c : UInt8) (h : (0 : UInt8) ∉ [c] ∧ (47 : UInt8) ∉ [c] := by decide) : EntryName :=
  ⟨⟨[c], h.1⟩, by simp, by simp, h.2⟩

/-- A directory and two files of one bucket, `"a"` stored before `"q"`; the second file is
written, cut and printed, and all is removed but the first file. -/
def filesOps : List DirOp :=
  [.mkdir (name1 100), .touch (name1 97), .touch (name1 113), .touch (name1 97),
    .write (name1 113) ⟨[104, 105, 33], by decide⟩, .backspace (name1 113) ⟨1, by decide⟩,
    .cat (name1 113), .rm (name1 113), .rmdir (name1 100)]

theorem ramfs_refines_directory_filesOps :
    Along (fun s op => (ramStep s op).2) (fun s op => op.Distinct s) (initState ampleMemory noDisk)
        filesOps ∧
      answers ramStep (initState ampleMemory noDisk) filesOps =
        answers dirStep (fun _ => none) filesOps :=
  ⟨by decide +kernel, ramfs_refines_directory ampleMemory (fun _ => rfl) noDisk filesOps
    (by decide +kernel)⟩

/-- After `fs_touch("q")`, `fs_touch("a")` answers that the file is there. -/
theorem fsTouch_finds_absent_file :
    ¬∀ (mem : Memory), mem.Unfailing → ∀ (store : Store) (ops : List DirOp),
      answers ramStep (initState mem store) ops = answers dirStep (fun _ => none) ops := by
  intro h
  have htouch := h ampleMemory (fun _ => rfl) noDisk [.touch (name1 113), .touch (name1 97)]
  revert htouch
  decide +kernel

end LittleLinux
