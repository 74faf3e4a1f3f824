import LittleLinux.Kernel.HeapCalls
import LittleLinux.Ramfs.FailedCalls
import LittleLinux.Ramfs.TreeCommands

/-!
# The calls of the allocator

What each function of the file system asks of the allocator when nothing is mounted, in the order of
the source, as a list of `HeapCall`s; for a command, what it asks for its request.

Two things are proved of the lists: that they lead to the `Memory` that the function leaves, and, as
long as the ledger is sound, that every object which they release is live (`Sound.heapStep_command`).
-/

namespace LittleLinux

open ChainTable

/-! ### The functions -/

/-- `if (info->ptr) free(info->ptr)`. -/
def dataCalls (info : RamfsFileInfo) : List HeapCall :=
  match info.ptr with
  | some buf => [.free buf.addr]
  | none => []

/-- `fs_mkdir` in a directory: its object, its node, and the release of the object for want of a
node. -/
def mkdirCalls (s : Fs) (dir : Ptr) (name : CString) : List HeapCall :=
  if (ramfsHashmapFind (s.folders dir).foderMap name).isSome then []
  else if (ramfsFileHashmapFind (s.folders dir).fileMap name).isSome then []
  else
    .malloc sizeofRamfsFoder ::
      if s.mem.grants s.mem.calls = true then
        .malloc sizeofRamfsHashNode ::
          if s.mem.grants (s.mem.calls + 1) = true then [] else [.free s.mem.next]
      else []

/-- `fs_rmdir`: the node and the object. -/
def rmdirCalls (s : Fs) (dir : Ptr) (name : CString) : List HeapCall :=
  match findNode foderTable.streq djb2Bucket (s.folders dir).foderMap name with
  | none => []
  | some nd =>
    if (s.folders nd.value.ptr).foderMap.count ≠ 0 ∨ (s.folders nd.value.ptr).fileMap.count ≠ 0 then []
    else [.free nd.addr, .free nd.value.ptr]

/-- `fs_touch`: the node of the file. -/
def touchCalls (s : Fs) (dir : Ptr) (name : CString) : List HeapCall :=
  if (ramfsHashmapFind (s.folders dir).foderMap name).isSome then []
  else if (ramfsFileHashmapFind (s.folders dir).fileMap name).isSome then []
  else [.malloc sizeofRamfsFileHashNode]

/-- `fs_rm`: the data and the node. -/
def rmCalls (s : Fs) (dir : Ptr) (name : CString) : List HeapCall :=
  match findNode fileTable.streq djb2Bucket (s.folders dir).fileMap name with
  | none => []
  | some nd => dataCalls nd.value ++ [.free nd.addr]

/-- `fs_write`: the old data, before the new. -/
def writeCalls (s : Fs) (dir : Ptr) (name : CString) (data : Data) : List HeapCall :=
  match ramfsFileHashmapFind (s.folders dir).fileMap name with
  | none => []
  | some info => dataCalls info ++ [.malloc data.1.length]

/-- `fs_backspace`: the new data, before the old. -/
def backspaceCalls (s : Fs) (dir : Ptr) (name : CString) (count : ℤ) : List HeapCall :=
  match ramfsFileHashmapFind (s.folders dir).fileMap name with
  | none => []
  | some info =>
    if info.length = 0 then []
    else
      let count := if count > info.length then toI32 info.length else count
      let newLen := toU32 (info.length - count)
      if newLen = 0 then dataCalls info
      else .malloc newLen :: if s.mem.grants s.mem.calls = true then dataCalls info else []

/-- What a call asks of the allocator. -/
def FsOp.heapCalls (s : Fs) : FsOp → List HeapCall
  | .mkdir name dir =>
    if strlen name.chars = 0 ∨ strlen name.chars ≥ 128 then []
    else (fromDir s dir).elim [] fun p => mkdirCalls s p name
  | .rmdir name dir => (fromDir s dir).elim [] fun p => rmdirCalls s p name
  | .touch name dir =>
    if strlen name.chars = 0 ∨ strlen name.chars ≥ 128 then []
    else (parsePath s name dir).toOption.elim [] fun r => touchCalls s r.1 r.2
  | .rm name dir =>
    if strlen name.chars = 0 then []
    else (parsePath s name dir).toOption.elim [] fun r => rmCalls s r.1 r.2
  | .write name data dir => (fromDir s dir).elim [] fun p => writeCalls s p name data
  | .backspace name count dir =>
    if count ≤ 0 then []
    else (parsePath s name dir).toOption.elim [] fun r => backspaceCalls s r.1 r.2 count
  | .cat _ _ | .cd _ | .syncFolder _ | .syncAll | .mount _ _ | .umount _ => []

/-- `mkdir -p`, from the directory `cur` on. -/
def mkdirPartsCalls (verbose : Bool) : List CString → Fs → Ptr → List HeapCall
  | [], _, _ => []
  | part :: rest, s, cur =>
    if part.chars = [] ∨ part.chars = [46] then mkdirPartsCalls verbose rest s cur
    else
      match ramfsHashmapFind (s.folders cur).foderMap part with
      | some info => mkdirPartsCalls verbose rest s info.ptr
      | none =>
        let r := fsMkdir (s.setCurrentDir cur) part none
        let t := printMade (r.2.setCurrentDir s.currentDir) verbose part
        (FsOp.mkdir part none).heapCalls (s.setCurrentDir cur) ++
          if r.1 ≠ 0 then []
          else
            match ramfsHashmapFind (t.folders cur).foderMap part with
            | some info => mkdirPartsCalls verbose rest t info.ptr
            | none => []

/-- What a request asks of the allocator. -/
def Request.heapCalls (s : Fs) : Request → List HeapCall
  | .call op _ => op.call.heapCalls s
  | .makeOne _ dirname => (FsOp.mkdir dirname none).heapCalls s
  | .makePath verbose dirname =>
    mkdirPartsCalls verbose (pathParts dirname) s (startDir s.currentDir dirname)
  | .say _ _ | .list | .path => []

/-- What a command asks of the allocator. -/
def Command.heapCalls (s : Fs) (c : Command) : List HeapCall := (request c).heapCalls s

/-! ### What they lead to -/

section Runs

variable {s : Fs} {dir : Ptr} {name : CString}

theorem Sound.owned_live (h : Sound s) {slot : Slot} {a : Ptr} (ha : Owns s slot a) : s.mem.Live a :=
  ⟨h.granted slot a ha, h.live slot a ha⟩

/-- The data of a file is released. -/
theorem runs_dataCalls {mem : Memory} {nd : Node CString RamfsFileInfo}
    (hlive : ∀ buf, nd.value.ptr = some buf → mem.Live buf.addr) :
    mem.Runs (dataCalls nd.value) (freeData mem nd.value) := by
  rw [dataCalls, freeData]
  cases hbuf : nd.value.ptr with
  | none => exact .nil mem
  | some buf => exact .free (hlive buf hbuf)

/-- An insertion of a new name asks for a node. -/
theorem NamedTable.insert_mem {V : Type} (T : NamedTable V) {map : Table BUCKETS CString V}
    (hfind : T.find map name = none) (mem : Memory) (v : V) :
    (T.insert mem map name v).2.2 = (mem.malloc T.nodeSize).2 := by
  rw [NamedTable.insert, hfind]
  rfl

theorem runs_touchIn (hinv : RamInv s) :
    s.mem.Runs (touchCalls s dir name) (touchIn s dir name).2.mem := by
  rw [touchIn, hinv.lazyLoad, touchCalls]
  dsimp only
  by_cases hfind : (ramfsHashmapFind (s.folders dir).foderMap name).isSome = true
  · rw [if_pos hfind, if_pos hfind]
    exact .nil _
  by_cases hfile : (ramfsFileHashmapFind (s.folders dir).fileMap name).isSome = true
  · rw [if_neg hfind, if_pos hfile, if_neg hfind, if_pos hfile]
    exact .nil _
  rw [if_neg hfind, if_neg hfile, if_neg hfind, if_neg hfile]
  have hmem := fileTable.insert_mem (Option.not_isSome_iff_eq_none.1 hfile) s.mem
  split_ifs
  all_goals
    rw [Fs.setMem_mem, ramfsFileHashmapInsert, hmem]
    exact .malloc _ _

theorem Sound.runs_rmIn (h : Sound s) (hinv : RamInv s) :
    s.mem.Runs (rmCalls s dir name) (rmIn s dir name).2.mem := by
  rw [rmIn, hinv.lazyLoad, rmCalls]
  dsimp only
  cases hnode : findNode fileTable.streq djb2Bucket (s.folders dir).fileMap name with
  | none =>
    rw [show ramfsFileHashmapFind (s.folders dir).fileMap name = none from
      fileTable.find_eq_none_iff.2 hnode]
    exact .nil _
  | some nd =>
    have hfind : ramfsFileHashmapFind (s.folders dir).fileMap name = some nd.value :=
      Option.map_eq_some_iff.2 ⟨nd, hnode, rfl⟩
    have hdelete : (ramfsFileHashmapDelete (freeData s.mem nd.value) (s.folders dir).fileMap name).2.2 =
        (freeData s.mem nd.value).free nd.addr := by
      rw [ramfsFileHashmapDelete, NamedTable.delete, hnode]
    have hnd := mem_nodes_of_findNode hnode
    have hfile := h.owned_live (Owns.file hnd)
    have hnodeLive : (freeData s.mem nd.value).Live nd.addr := by
      rw [freeData]
      cases hbuf : nd.value.ptr with
      | none => exact hfile
      | some buf =>
        -- the node is not what the file has for its data
        refine hfile.free fun heq => ?_
        have hslot := h.unshared _ _ _ (Owns.file hnd) (heq ▸ Owns.data hnd hbuf)
        cases hslot
    rw [hfind]
    dsimp only
    have hruns := (runs_dataCalls fun buf hbuf => h.owned_live (Owns.data hnd hbuf)).append
      (Memory.Runs.free hnodeLive)
    split_ifs
    all_goals
      rw [Fs.setMem_mem, hdelete]
      exact hruns

theorem Sound.runs_rmdirIn (h : Sound s) (hinv : RamInv s) :
    s.mem.Runs (rmdirCalls s dir name) (rmdirIn s dir name).2.mem := by
  rw [rmdirIn, hinv.lazyLoad, rmdirCalls]
  dsimp only
  cases hnode : findNode foderTable.streq djb2Bucket (s.folders dir).foderMap name with
  | none =>
    rw [show ramfsHashmapFind (s.folders dir).foderMap name = none from
      foderTable.find_eq_none_iff.2 hnode]
    exact .nil _
  | some nd =>
    have hfind : ramfsHashmapFind (s.folders dir).foderMap name = some nd.value :=
      Option.map_eq_some_iff.2 ⟨nd, hnode, rfl⟩
    have hnd := mem_nodes_of_findNode hnode
    rw [hfind]
    dsimp only
    by_cases hcount : (s.folders nd.value.ptr).foderMap.count ≠ 0 ∨
        (s.folders nd.value.ptr).fileMap.count ≠ 0
    · rw [if_pos hcount, if_pos hcount]
      exact .nil _
    rw [if_neg hcount, if_neg hcount]
    rw [not_or, not_not, not_not] at hcount
    have hfoders := Counted.nodes_eq_nil (hinv.foders nd.value.ptr).count_eq hcount.1
    have hfiles := Counted.nodes_eq_nil (hinv.files nd.value.ptr).count_eq hcount.2
    have hne : nd.value.ptr ≠ dir := Nat.ne_of_gt (hinv.entry dir nd hnd).lt
    have hdelete : (ramfsHashmapDelete s.mem (s.folders dir).foderMap name).2.2 =
        s.mem.free nd.addr := by
      rw [ramfsHashmapDelete, NamedTable.delete, hnode]
    have hobject : (s.mem.free nd.addr).Live nd.value.ptr := by
      -- the object is not the node of its entry
      refine (h.owned_live (Owns.object hnd)).free fun heq => ?_
      have hslot := h.unshared _ _ _ (Owns.object hnd) (heq ▸ Owns.entry hnd)
      cases hslot
    rw [Fs.modifyFolder_mem, Fs.setMem_mem, Fs.setMem_folders, Fs.modifyFolder_of_ne _ _ hne,
      ramfsHashmapDestroy, ramfsFileHashmapDestroy, tableDestroy_of_nil _ hfoders,
      tableDestroy_of_nil _ hfiles, Fs.setMem_mem, hdelete]
    exact (Memory.Runs.free (h.owned_live (Owns.entry hnd))).append (.free hobject)

theorem Sound.runs_mkdirIn (h : Sound s) (hinv : RamInv s) (hdir : dir < s.mem.next)
    (hlen : name.chars.length ≤ 127) :
    s.mem.Runs (mkdirCalls s dir name) (mkdirIn s dir name).2.mem := by
  rw [mkdirIn, hinv.lazyLoad, mkdirCalls]
  dsimp only
  by_cases hfind : (ramfsHashmapFind (s.folders dir).foderMap name).isSome = true
  · rw [if_pos hfind, if_pos hfind]
    exact .nil _
  by_cases hfile : (ramfsFileHashmapFind (s.folders dir).fileMap name).isSome = true
  · rw [if_neg hfind, if_pos hfile, if_neg hfind, if_pos hfile]
    exact .nil _
  rw [if_neg hfind, if_neg hfile, if_neg hfind, if_neg hfile]
  have hobject : s.mem.Runs [.malloc sizeofRamfsFoder] (s.mem.skip 1) := by
    have hruns := Memory.Runs.malloc s.mem sizeofRamfsFoder
    rwa [Memory.malloc_of_ne_zero _ (by decide)] at hruns
  have hentry : (s.mem.skip 1).Runs [.malloc sizeofRamfsHashNode] (s.mem.skip 2) := by
    have hruns := Memory.Runs.malloc (s.mem.skip 1) sizeofRamfsHashNode
    rwa [Memory.malloc_of_ne_zero _ (by decide)] at hruns
  rw [Memory.malloc_of_ne_zero _ (by decide)]
  by_cases hgrants : s.mem.grants s.mem.calls = true
  swap
  · rw [if_neg hgrants, if_neg hgrants]
    exact hobject
  rw [if_pos hgrants, if_pos hgrants]
  dsimp only
  rw [Fs.setFolder_of_ne _ _ (Nat.ne_of_lt hdir), Fs.setFolder_mem, Fs.setMem_mem, Fs.setMem_folders,
    ramfsHashmapInsert]
  rw [Option.not_isSome_iff_eq_none] at hfind
  by_cases hmore : s.mem.grants (s.mem.calls + 1) = true
  · rw [if_pos hmore, foderTable.insert_granted (by decide) hlen hfind hmore, if_pos rfl]
    exact hobject.append hentry
  · rw [if_neg hmore, foderTable.insert_refused (by decide) hfind (Bool.not_eq_true _ ▸ hmore),
      if_neg (by simp)]
    have hnew : (s.mem.skip 2).Live s.mem.next := by
      -- what was released before is below the new object
      have hone : (s.mem.skip 1).HandedOut s.mem.next :=
        (s.mem.grants_one.2 hgrants).handedOut rfl rfl (le_refl _) (Nat.lt_succ_self _)
      exact ⟨hone.mono rfl (Nat.le_succ _), fun hmem => lt_irrefl _ (h.freed_lt _ hmem)⟩
    exact hobject.append (hentry.append (.free hnew))

theorem Sound.runs_writeIn (h : Sound s) (hinv : RamInv s) (data : Data) :
    s.mem.Runs (writeCalls s dir name data) (writeIn s dir name data).2.mem := by
  rw [writeIn, hinv.lazyLoad, writeCalls]
  dsimp only
  cases hfind : ramfsFileHashmapFind (s.folders dir).fileMap name with
  | none => exact .nil _
  | some info =>
    obtain ⟨nd, hnode, rfl⟩ := exists_findNode_of_find hfind
    have hnd := mem_nodes_of_findNode hnode
    have hruns := (runs_dataCalls fun buf hbuf => h.owned_live (Owns.data hnd hbuf)).append
      (Memory.Runs.malloc (freeData s.mem nd.value) data.1.length)
    dsimp only
    split_ifs
    · exact hruns
    · exact hruns

theorem Sound.runs_backspaceIn (h : Sound s) (hinv : RamInv s) (count : ℤ) :
    s.mem.Runs (backspaceCalls s dir name count) (backspaceIn s dir name count).2.mem := by
  rw [backspaceIn, hinv.lazyLoad, backspaceCalls]
  dsimp only
  cases hfind : ramfsFileHashmapFind (s.folders dir).fileMap name with
  | none => exact .nil _
  | some info =>
    obtain ⟨nd, hnode, rfl⟩ := exists_findNode_of_find hfind
    have hnd := mem_nodes_of_findNode hnode
    have hlive : ∀ buf, nd.value.ptr = some buf → s.mem.Live buf.addr :=
      fun buf hbuf => h.owned_live (Owns.data hnd hbuf)
    dsimp only
    rw [hinv.loadData, if_neg (show ¬(0 : ℤ) ≠ 0 from not_not_intro rfl)]
    dsimp only
    rw [hfind]
    dsimp only
    rw [cutFile]
    by_cases hlength : nd.value.length = 0
    · rw [if_pos hlength, if_pos hlength]
      exact .nil _
    rw [if_neg hlength, if_neg hlength]
    dsimp only
    generalize (if count > nd.value.length then toI32 nd.value.length else count) = n
    by_cases hcut : toU32 (nd.value.length - n) = 0
    · rw [if_pos hcut, if_pos hcut]
      exact runs_dataCalls hlive
    rw [if_neg hcut, if_neg hcut]
    -- the shorter copy is asked for first; only a granted one replaces the old data
    have hnew := Memory.Runs.malloc s.mem (toU32 (nd.value.length - n))
    by_cases hgrants : s.mem.grants s.mem.calls = true
    · have hold := (runs_dataCalls fun buf hbuf =>
        (hlive buf hbuf).malloc (toU32 (nd.value.length - n)))
      rw [Memory.malloc_of_ne_zero _ hcut] at hnew hold ⊢
      rw [if_pos hgrants, if_pos hgrants]
      exact hnew.append hold
    · rw [Memory.malloc_of_ne_zero _ hcut] at hnew ⊢
      rw [if_neg hgrants, if_neg hgrants]
      exact hnew

theorem RamInv.mem_catIn (hinv : RamInv s) : (LittleLinux.catIn s dir name).2.mem = s.mem := by
  rw [LittleLinux.catIn, hinv.lazyLoad]
  dsimp only
  cases hfind : ramfsFileHashmapFind (s.folders dir).fileMap name with
  | none => rfl
  | some info =>
    dsimp only
    rw [hinv.loadData, if_neg (by simp)]
    dsimp only
    rw [hfind]
    dsimp only
    cases info.ptr with
    | none => rfl
    | some buf => rfl

/-- **One call.** -/
theorem Sound.runs_fsCall (h : Sound s) (hinv : RamInv s) {op : FsOp} (hop : op.InRam) :
    s.mem.Runs (op.heapCalls s) (fsStep s op).mem := by
  cases op with
  -- the checks before the allocator is asked are the same on both sides
  | mkdir name path =>
    rw [fsStep, fsCall, fsMkdir, FsOp.heapCalls]
    by_cases hlen : strlen name.chars = 0 ∨ strlen name.chars ≥ 128
    · rw [if_pos hlen, if_pos hlen]
      exact .nil _
    rw [if_neg hlen, if_neg hlen]
    rw [strlen_chars] at hlen
    cases hdir : fromDir s path with
    | none => exact .nil _
    | some p => exact h.runs_mkdirIn hinv (hinv.fromDir hdir) (by omega)
  -- `fs_cd` and `fs_cat` ask the allocator for nothing
  | cd path =>
    rw [fsStep, fsCall, FsOp.heapCalls]
    rcases fsCd_cases s path with heq | ⟨p, -, heq⟩
    · rw [heq]
      exact .nil _
    · rw [heq]
      exact .nil _
  | rm name path =>
    rw [fsStep, fsCall, fsRm, FsOp.heapCalls]
    by_cases hlen : strlen name.chars = 0
    · rw [if_pos hlen, if_pos hlen]
      exact .nil _
    rw [if_neg hlen, if_neg hlen]
    cases parsePath s name path with
    | error e => exact .nil _
    | ok r => exact h.runs_rmIn hinv
  | rmdir name path =>
    rw [fsStep, fsCall, fsRmdir, FsOp.heapCalls]
    cases fromDir s path with
    | none => exact .nil _
    | some p => exact h.runs_rmdirIn hinv
  | touch name path =>
    rw [fsStep, fsCall, fsTouch, FsOp.heapCalls]
    by_cases hlen : strlen name.chars = 0 ∨ strlen name.chars ≥ 128
    · rw [if_pos hlen, if_pos hlen]
      exact .nil _
    rw [if_neg hlen, if_neg hlen]
    cases parsePath s name path with
    | error e => exact .nil _
    | ok r => exact runs_touchIn hinv
  | write name data path =>
    rw [fsStep, fsCall, fsWrite, FsOp.heapCalls]
    cases fromDir s path with
    | none => exact .nil _
    | some p => exact h.runs_writeIn hinv data
  | cat name path =>
    rw [fsStep, fsCall, fsCat, FsOp.heapCalls]
    cases fromDir s path with
    | none => exact .nil _
    | some p =>
      dsimp only
      rw [hinv.mem_catIn]
      exact .nil _
  | backspace name count path =>
    rw [fsStep, fsCall, fsBackspace, FsOp.heapCalls]
    by_cases hneg : count < 0
    · rw [if_pos hneg, if_pos hneg.le]
      exact .nil _
    by_cases hzero : count = 0
    · rw [if_neg hneg, if_pos hzero, if_pos hzero.le]
      exact .nil _
    rw [if_neg hneg, if_neg hzero, if_neg (by omega)]
    cases parsePath s name path with
    | error e => exact .nil _
    | ok r => exact h.runs_backspaceIn hinv count
  | _ => exact hop.elim

end Runs

/-! ### Commands -/

section Commands

variable {s : Fs}

/-- The allocator has what `t` says that it has, and the ledger of `t` is sound. -/
structure HeapStep (s : Fs) (calls : List HeapCall) (t : Fs) : Prop where
  runs : s.mem.Runs calls t.mem
  sound : Sound t

theorem Sound.print (h : Sound s) (text : List UInt8) : Sound (s.print text) :=
  h.of_folders (le_refl _) rfl rfl rfl

theorem Sound.setCurrentDir (h : Sound s) (dir : Ptr) : Sound (s.setCurrentDir dir) :=
  h.of_folders (le_refl _) rfl rfl rfl

theorem HeapStep.print {calls : List HeapCall} {t : Fs} (h : HeapStep s calls t) (text : List UInt8) :
    HeapStep s calls (t.print text) :=
  ⟨h.runs, h.sound.print text⟩

theorem Sound.heapStep (h : Sound s) (hinv : RamInv s) (op : FsOp) (hop : op.InRam)
    (hkeeps : ¬op.Loses s) : HeapStep s (op.heapCalls s) (fsStep s op) :=
  ⟨h.runs_fsCall hinv hop, h.step hinv hop hkeeps⟩

theorem Sound.heapStep_mkdirParts (h : Sound s) (hinv : CommandInv s) (verbose : Bool)
    (parts : List CString) {cur : Ptr} (hcur : Reach s cur) :
    HeapStep s (mkdirPartsCalls verbose parts s cur) (mkdirParts verbose parts s cur).2 := by
  -- the call is made with another working directory, of which the ledger knows nothing
  induction parts generalizing s cur with
  | nil => exact ⟨.nil _, h⟩
  | cons part rest ih =>
    rw [mkdirParts, mkdirPartsCalls]
    by_cases hskip : part.chars = [] ∨ part.chars = [46]
    · rw [if_pos hskip, if_pos hskip]
      exact ih h hinv hcur
    rw [if_neg hskip, if_neg hskip]
    cases hfind : ramfsHashmapFind (s.folders cur).foderMap part with
    | some info => exact ih h hinv (hcur.tail (mem_kids_of_find hfind))
    | none =>
      dsimp only
      have hmade : HeapStep (s.setCurrentDir cur) ((FsOp.mkdir part none).heapCalls (s.setCurrentDir cur))
          (fsMkdir (s.setCurrentDir cur) part none).2 :=
        (h.setCurrentDir cur).heapStep (hinv.setCurrentDir hcur).ram (.mkdir part none) trivial id
      have hback := hmade.sound.setCurrentDir s.currentDir
      obtain ⟨hinv', hreach⟩ := hinv.afterMkdir hcur part
      by_cases hcode : (fsMkdir (s.setCurrentDir cur) part none).1 ≠ 0
      · rw [if_pos hcode, if_pos hcode, List.append_nil]
        exact ⟨hmade.runs, hback.print _⟩
      rw [if_neg hcode, if_neg hcode]
      rw [printMade_eq]
      have hsound := hback.print (madeText verbose part)
      cases hfind' : ramfsHashmapFind ((((fsMkdir (s.setCurrentDir cur) part none).2.setCurrentDir
          s.currentDir).print (madeText verbose part)).folders cur).foderMap part with
      | none =>
        rw [List.append_nil]
        exact ⟨hmade.runs, hsound⟩
      | some info =>
        have hrest := ih hsound (hinv'.print _) (hreach.tail (mem_kids_of_find hfind'))
        exact ⟨hmade.runs.append hrest.runs, hrest.sound⟩

theorem TreeOp.inRam (op : TreeOp) : op.call.InRam := by
  cases op with
  | _ => trivial

/-- The request is a call that loses a buffer. -/
def Request.Loses (s : Fs) : Request → Prop
  | .call op _ => op.call.Loses s
  | _ => False

/-- **One request.** -/
theorem Sound.heapStep_perform (h : Sound s) (hinv : CommandInv s) {q : Request}
    (hkeeps : ¬q.Loses s) : HeapStep s (q.heapCalls s) (perform s q).2 := by
  cases q with
  | say code text => exact ⟨.nil _, h.print text⟩
  | call op texts =>
    rw [perform, report_eq]
    exact (h.heapStep hinv.ram op.call op.inRam hkeeps).print _
  | makeOne verbose dirname =>
    have hmade : HeapStep s ((FsOp.mkdir dirname none).heapCalls s) (fsMkdir s dirname none).2 :=
      h.heapStep hinv.ram (.mkdir dirname none) trivial id
    rw [perform, mkdirOne]
    split_ifs
    · rw [report_eq]
      exact hmade.print _
    · rw [printMade_eq]
      exact hmade.print _
  | makePath verbose dirname =>
    rw [perform, mkdirParents_eq]
    exact h.heapStep_mkdirParts hinv verbose _ (hinv.reach_startDir dirname)
  | list => exact ⟨.nil _, h.print _⟩
  | path => exact ⟨.nil _, h.print _⟩

theorem not_loses_operandRequest {help version missing : String} {op : CString → TreeOp}
    {texts : CString → List (ℤ × List UInt8)} (hop : ∀ name, ¬(op name).call.Loses s)
    (words : List CString) : ¬(operandRequest help version missing op texts words).Loses s := by
  unfold operandRequest
  split
  · split_ifs
    · exact id
    · exact id
    · exact hop _
  · exact id

/-- Only `write` can lose a buffer. -/
theorem Command.loses_of_request {c : Command} (hloses : (request c).Loses s) : c.Loses s := by
  obtain ⟨name, words⟩ := c
  cases name with
  | write =>
    rcases words with _ | ⟨file, _ | ⟨content, _ | ⟨third, rest⟩⟩⟩ <;> exact hloses
  | rm => exact absurd hloses (not_loses_operandRequest (fun _ => id) words)
  | rmdir => exact absurd hloses (not_loses_operandRequest (fun _ => id) words)
  | touch => exact absurd hloses (not_loses_operandRequest (fun _ => id) words)
  | mkdir =>
    dsimp only [request] at hloses
    unfold mkdirRequest at hloses
    split_ifs at hloses
    · exact hloses
    · split at hloses <;> exact hloses
  | cd =>
    rcases words with _ | ⟨path, _ | ⟨second, rest⟩⟩
    · exact hloses
    · dsimp only [request, cdRequest] at hloses
      split_ifs at hloses <;> exact hloses
    · exact hloses
  | cat => rcases words with _ | ⟨file, _ | ⟨second, rest⟩⟩ <;> exact hloses
  | ls =>
    dsimp only [request, lsRequest] at hloses
    split_ifs at hloses <;> exact hloses
  | pwd => exact hloses
  | backspace =>
    rcases words with _ | ⟨file, _ | ⟨number, _ | ⟨third, rest⟩⟩⟩
    · exact hloses
    · dsimp only [request, backspaceRequest] at hloses
      split_ifs at hloses <;> exact hloses
    · dsimp only [request, backspaceRequest] at hloses
      split_ifs at hloses <;> exact hloses
    · exact hloses

/-- **One command.** -/
theorem Sound.heapStep_command (h : Sound s) (hinv : CommandInv s) {c : Command}
    (hkeeps : ¬c.Loses s) : HeapStep s (c.heapCalls s) (commandStep s c) := by
  rw [commandStep, runCommand_eq]
  exact h.heapStep_perform hinv fun hloses => hkeeps (Command.loses_of_request hloses)

end Commands

end LittleLinux
