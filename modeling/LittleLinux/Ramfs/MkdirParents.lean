import LittleLinux.Ramfs.AbsolutePath

/-!
# `mkdir -p`

The loop of `mkdir -p` takes a path apart by itself. It passes over empty components and `"."`,
as `_get_dir_by_path` does, but takes `".."` for the name of an entry: it enters a directory of
that name, or makes one. `namedParts` is where the loop goes, and `MadeAlong` what it does to the
tree when it answers 0: it makes one directory after the other from the first component on that
has no entry, and ends where `namedParts` then leads.

Without `".."` that is where path resolution leads. With it, what the loop makes is below a
directory named `".."`, and no path leads there (`not_below_of_walkParts`).
-/

namespace LittleLinux

open ChainTable

/-! ### Where the loop goes -/

/-- The walk of `mkdir -p` from `cur`: each component is the name of an entry, but for the empty
one and `"."`. -/
def namedParts (folders : Ptr → RamfsFoder) : Ptr → List CString → Option Ptr
  | cur, [] => some cur
  | cur, part :: rest =>
    if part.chars = [] ∨ part.chars = [46] then namedParts folders cur rest
    else
      match ramfsHashmapFind (folders cur).foderMap part with
      | some info => namedParts folders info.ptr rest
      | none => none

/-- The components of a path behind its first slash, if it begins with one. -/
def pathParts (path : CString) : List CString :=
  if path.IsAbsolute then components path.tail else components path

theorem mkdirParents_eq (s : Fs) (verbose : Bool) (path : CString) :
    mkdirParents s verbose path =
      mkdirParts verbose (pathParts path) s (startDir s.currentDir path) := by
  rw [mkdirParents, pathParts, startDir]
  by_cases habs : path.IsAbsolute
  · have hhead : path.chars.head? = some 47 := habs
    rw [if_pos habs, if_pos habs, if_pos hhead]
  · have hhead : ¬path.chars.head? = some 47 := habs
    rw [if_neg habs, if_neg habs, if_neg hhead]

theorem getDirByPath_eq_walkParts (folders : Ptr → RamfsFoder) (base : Ptr) {path : CString}
    (hne : path.chars ≠ []) :
    getDirByPath folders base path = walkParts folders (startDir base path) (pathParts path) := by
  rw [getDirByPath, if_neg hne, pathParts, startDir]
  by_cases habs : path.IsAbsolute
  · have hhead : path.chars.head? = some 47 := habs
    rw [if_pos habs, if_pos habs, if_pos hhead]
  · have hhead : ¬path.chars.head? = some 47 := habs
    rw [if_neg habs, if_neg habs, if_neg hhead]

section Walk

variable {folders folders' : Ptr → RamfsFoder} {cur d : Ptr} {part : CString}
  {parts rest : List CString} {n : ℕ}

theorem namedParts_skip (h : part.chars = [] ∨ part.chars = [46]) :
    namedParts folders cur (part :: rest) = namedParts folders cur rest := by
  rw [namedParts, if_pos h]

theorem namedParts_enter (h : ¬(part.chars = [] ∨ part.chars = [46])) {info : RamfsFoderInfo}
    (hfind : ramfsHashmapFind (folders cur).foderMap part = some info) :
    namedParts folders cur (part :: rest) = namedParts folders info.ptr rest := by
  rw [namedParts, if_neg h, hfind]

/-- Without `".."` the two walks are one. -/
theorem walkParts_eq_namedParts (h : ∀ part ∈ parts, part.chars ≠ [46, 46]) :
    walkParts folders cur parts = namedParts folders cur parts := by
  induction parts generalizing cur with
  | nil => rfl
  | cons part rest ih =>
    obtain ⟨hup, hrest⟩ := List.forall_mem_cons.1 h
    rw [walkParts, namedParts]
    by_cases hempty : part.chars = []
    · rw [if_pos hempty, if_pos (Or.inl hempty), ih hrest]
    by_cases hdot : part.chars = [46]
    · rw [if_neg hempty, if_pos hdot, if_pos (Or.inr hdot), ih hrest]
    rw [if_neg hempty, if_neg hdot, if_neg hup, if_neg (not_or.2 ⟨hempty, hdot⟩)]
    cases ramfsHashmapFind (folders cur).foderMap part with
    | none => rfl
    | some info => exact ih hrest

/-- The walk ends where it starts, or at an entry. -/
theorem exists_entry_of_namedParts (h : namedParts folders cur parts = some d) :
    d = cur ∨ ∃ q name info, ramfsHashmapFind (folders q).foderMap name = some info ∧ info.ptr = d := by
  induction parts generalizing cur with
  | nil => exact Or.inl (Option.some.inj h).symm
  | cons part rest ih =>
    by_cases hskip : part.chars = [] ∨ part.chars = [46]
    · rw [namedParts_skip hskip] at h
      exact ih h
    cases hfind : ramfsHashmapFind (folders cur).foderMap part with
    | none =>
      rw [namedParts, if_neg hskip, hfind] at h
      cases h
    | some info =>
      rw [namedParts_enter hskip hfind] at h
      rcases ih h with rfl | hentry
      · exact Or.inr ⟨cur, part, info, hfind, rfl⟩
      · exact Or.inr hentry

/-- Where every component has an entry, the loop makes nothing. -/
theorem mkdirParts_of_namedParts {s : Fs} (verbose : Bool)
    (h : namedParts s.folders cur parts = some d) : mkdirParts verbose parts s cur = (0, s) := by
  induction parts generalizing cur with
  | nil => rfl
  | cons part rest ih =>
    rw [mkdirParts]
    by_cases hskip : part.chars = [] ∨ part.chars = [46]
    · rw [namedParts_skip hskip] at h
      rw [if_pos hskip, ih h]
    rw [if_neg hskip]
    cases hfind : ramfsHashmapFind (s.folders cur).foderMap part with
    | none =>
      rw [namedParts, if_neg hskip, hfind] at h
      cases h
    | some info =>
      rw [namedParts_enter hskip hfind] at h
      exact ih h

end Walk

/-! ### One new directory -/

section Made

variable {s : Fs} {cur q : Ptr} {part name : CString} {info : RamfsFoderInfo}

/-- The entry of a directory that was made in `cur`. -/
def madeEntry (s : Fs) (cur : Ptr) (part : CString) : RamfsFoderInfo :=
  ⟨part, (newDirNode s cur part).type, s.mem.next, 0⟩

/-- The state after the loop made a directory. -/
def madePart (s : Fs) (verbose : Bool) (cur : Ptr) (part : CString) : Fs :=
  printMade (madeDir s cur part) verbose part

theorem madePart_eq (s : Fs) (verbose : Bool) (cur : Ptr) (part : CString) :
    ∃ out, madePart s verbose cur part = { madeDir s cur part with out := out } := by
  cases verbose with
  | false => exact ⟨_, rfl⟩
  | true => exact ⟨_, rfl⟩

theorem folders_madePart (s : Fs) (verbose : Bool) (cur : Ptr) (part : CString) :
    (madePart s verbose cur part).folders = (madeDir s cur part).folders := by
  obtain ⟨out, heq⟩ := madePart_eq s verbose cur part
  rw [heq]

theorem next_madePart (s : Fs) (verbose : Bool) (cur : Ptr) (part : CString) :
    (madePart s verbose cur part).mem.next = s.mem.next + 2 := by
  obtain ⟨out, heq⟩ := madePart_eq s verbose cur part
  rw [heq]
  exact s.mem.next_skip 2

theorem folders_madeDir_new (hcur : cur < s.mem.next) :
    (madeDir s cur part).folders s.mem.next = newDirNode s cur part := by
  rw [madeDir, Fs.setMem_folders, Fs.modifyFolder_of_ne _ _ (Nat.ne_of_gt hcur), Fs.setFolder_self]

theorem folders_madeDir_cur (hcur : cur < s.mem.next) :
    (madeDir s cur part).folders cur = (s.folders cur).setFoderMap (pushNode djb2Bucket
      (s.folders cur).foderMap ⟨s.mem.next + 1, part, madeEntry s cur part⟩) := by
  rw [madeDir, Fs.setMem_folders, Fs.modifyFolder_self, Fs.setFolder_of_ne _ _ (Nat.ne_of_lt hcur)]
  rfl

theorem folders_madeDir_of_ne (hne : q ≠ cur) (hq : q ≠ s.mem.next) :
    (madeDir s cur part).folders q = s.folders q := by
  rw [madeDir, Fs.setMem_folders, Fs.modifyFolder_of_ne _ _ hne, Fs.setFolder_of_ne _ _ hq]

/-- The entries afterwards. -/
theorem find_madeDir (hcur : cur < s.mem.next) (q : Ptr) (name : CString) :
    ramfsHashmapFind ((madeDir s cur part).folders q).foderMap name =
      if q = s.mem.next then none
      else if q = cur ∧ name = part then some (madeEntry s cur part)
      else ramfsHashmapFind (s.folders q).foderMap name := by
  by_cases hnew : q = s.mem.next
  · rw [if_pos hnew, hnew, folders_madeDir_new hcur]
    exact (ramfsHashmapFind_eq_lookup _ _).trans (lookup_empty djb2Bucket name)
  rw [if_neg hnew]
  by_cases hq : q = cur
  · subst hq
    rw [folders_madeDir_cur hcur, RamfsFoder.setFoderMap, ramfsHashmapFind_eq_lookup, lookup_pushNode,
      ← ramfsHashmapFind_eq_lookup]
    by_cases hname : name = part
    · rw [if_pos hname, if_pos ⟨rfl, hname⟩]
    · rw [if_neg hname, if_neg fun h => hname h.2]
  · rw [if_neg fun h => hq h.1, folders_madeDir_of_ne hq hnew]

/-- Old directories keep everything but their folder table. -/
theorem folders_madeDir_of_lt (hcur : cur < s.mem.next) (hq : q < s.mem.next) :
    (madeDir s cur part).folders q =
      (s.folders q).setFoderMap ((madeDir s cur part).folders q).foderMap := by
  rcases eq_or_ne q cur with rfl | hne
  · rw [folders_madeDir_cur hcur]
    rfl
  · rw [folders_madeDir_of_ne hne (Nat.ne_of_lt hq)]
    rfl

theorem RamInv.setCurrentDir (h : RamInv s) (hcur : cur < s.mem.next) :
    RamInv (s.setCurrentDir cur) :=
  { h with
    currentDir := hcur
    entry := fun d nd hnd => ⟨(h.entry d nd hnd).name, (h.entry d nd hnd).parent,
      (h.entry d nd hnd).lt⟩ }

theorem RamInv.madePart (h : RamInv s) (hcur : cur < s.mem.next) (hfree : NameFree s cur part)
    (verbose : Bool) : RamInv (madePart s verbose cur part) := by
  have hmade := h.madeDir hcur hfree
  obtain ⟨out, heq⟩ := madePart_eq s verbose cur part
  rw [heq]
  exact hmade.of_folders (le_refl _) rfl rfl

/-- **One turn of the loop.** If there is no entry and the loop answers 0 in the end, it made a
directory here and went on in it. -/
theorem RamInv.mkdirParts_cons (h : RamInv s) (hcur : cur < s.mem.next) {verbose : Bool}
    {rest : List CString} (hskip : ¬(part.chars = [] ∨ part.chars = [46]))
    (hfind : ramfsHashmapFind (s.folders cur).foderMap part = none)
    (h0 : (mkdirParts verbose (part :: rest) s cur).1 = 0) :
    NameFree s cur part ∧ mkdirParts verbose (part :: rest) s cur =
      mkdirParts verbose rest (LittleLinux.madePart s verbose cur part) s.mem.next := by
  rw [mkdirParts, if_neg hskip, hfind] at h0 ⊢
  dsimp only at h0 ⊢
  by_cases hcode : (fsMkdir (s.setCurrentDir cur) part none).1 = 0
  swap
  · rw [if_pos hcode] at h0
    exact absurd h0 (by norm_num)
  -- the call has succeeded: the name fits, and a directory was made in `cur`
  have hlen : ¬(strlen part.chars = 0 ∨ strlen part.chars ≥ 128) := by
    intro hbad
    rw [fsMkdir, if_pos hbad] at hcode
    exact absurd hcode (by norm_num)
  have hcall : fsMkdir (s.setCurrentDir cur) part none =
      LittleLinux.mkdirIn (s.setCurrentDir cur) cur part := by
    rw [fsMkdir, if_neg hlen]
    rfl
  rw [strlen_chars] at hlen
  obtain ⟨hfree, hmade⟩ : NameFree s cur part ∧ fsMkdir (s.setCurrentDir cur) part none =
      (0, LittleLinux.madeDir (s.setCurrentDir cur) cur part) := by
    rcases (h.setCurrentDir hcur).mkdirIn_outcome hcur (show part.chars.length ≤ 127 by omega) with
      ⟨code, n, hne, heq⟩ | ⟨hfree, -, heq⟩ | heq
    · rw [hcall, heq] at hcode
      exact absurd hcode hne
    · exact ⟨hfree, hcall.trans heq⟩
    · rw [hcall, heq] at hcode
      exact absurd hcode (by norm_num)
  have hback : (LittleLinux.madeDir (s.setCurrentDir cur) cur part).setCurrentDir s.currentDir =
      LittleLinux.madeDir s cur part := rfl
  have hentry : ramfsHashmapFind
      ((printMade (LittleLinux.madeDir s cur part) verbose part).folders cur).foderMap part = some (madeEntry s cur part) := by
    have hfolders := folders_madePart s verbose cur part
    rw [LittleLinux.madePart] at hfolders
    rw [hfolders, find_madeDir hcur, if_neg (Nat.ne_of_lt hcur), if_pos ⟨rfl, rfl⟩]
  refine ⟨hfree, ?_⟩
  rw [hmade, if_neg (by simp), hback, hentry]
  rfl

end Made

/-! ### What the loop does -/

/-- The loop went from `cur` along `parts` to `last`: old directories kept their files and entries,
and each new entry leads to a new directory without files that the loop passed. -/
structure MadeAlong (s : Fs) (cur : Ptr) (parts : List CString) (s' : Fs) (last : Ptr) : Prop where
  named : namedParts s'.folders cur parts = some last
  kept : ∀ q < s.mem.next, s'.folders q = (s.folders q).setFoderMap (s'.folders q).foderMap
  entries : ∀ q < s.mem.next, ∀ name info, ramfsHashmapFind (s.folders q).foderMap name = some info →
    ramfsHashmapFind (s'.folders q).foderMap name = some info
  added : ∀ q name info, ramfsHashmapFind (s'.folders q).foderMap name = some info →
    ramfsHashmapFind (s.folders q).foderMap name = some info ∨
      (s.mem.next ≤ info.ptr ∧ (s'.folders info.ptr).fileMap = Table.empty ∧
        ∃ k, namedParts s'.folders cur (parts.take k) = some info.ptr)
  others : { s' with folders := s.folders, mem := s.mem, out := s.out } = s

section Loop

variable {s s' : Fs} {cur last : Ptr} {part : CString} {parts rest : List CString}
  {info : RamfsFoderInfo} {verbose : Bool}

theorem MadeAlong.refl (h : namedParts s.folders cur parts = some last) :
    MadeAlong s cur parts s last :=
  ⟨h, fun _ _ => rfl, fun _ _ _ _ hfind => hfind, fun _ _ _ hfind => Or.inl hfind, rfl⟩

/-- A component that the loop passes over. -/
theorem MadeAlong.skip (h : MadeAlong s cur rest s' last) (hskip : part.chars = [] ∨ part.chars = [46]) :
    MadeAlong s cur (part :: rest) s' last where
  named := (namedParts_skip hskip).trans h.named
  kept := h.kept
  entries := h.entries
  added := by
    intro q name info hfind
    refine (h.added q name info hfind).imp id ?_
    rintro ⟨hnew, hfiles, k, hk⟩
    exact ⟨hnew, hfiles, k + 1, (namedParts_skip hskip).trans hk⟩
  others := h.others

/-- A component that has an entry. -/
theorem MadeAlong.enter (h : MadeAlong s info.ptr rest s' last) (hcur : cur < s.mem.next)
    (hskip : ¬(part.chars = [] ∨ part.chars = [46]))
    (hfind : ramfsHashmapFind (s.folders cur).foderMap part = some info) :
    MadeAlong s cur (part :: rest) s' last where
  named := (namedParts_enter hskip (h.entries cur hcur part info hfind)).trans h.named
  kept := h.kept
  entries := h.entries
  added := by
    intro q name info' hfind'
    refine (h.added q name info' hfind').imp id ?_
    rintro ⟨hnew, hfiles, k, hk⟩
    exact ⟨hnew, hfiles, k + 1,
      (namedParts_enter hskip (h.entries cur hcur part info hfind)).trans hk⟩
  others := h.others

/-- A component for which a directory was made. -/
theorem MadeAlong.make (hcur : cur < s.mem.next) (hskip : ¬(part.chars = [] ∨ part.chars = [46]))
    (hfind : ramfsHashmapFind (s.folders cur).foderMap part = none)
    (h : MadeAlong (madePart s verbose cur part) s.mem.next rest s' last) :
    MadeAlong s cur (part :: rest) s' last := by
  obtain ⟨hnamed, hkept, hentries, hadded, hothers⟩ := h
  rw [next_madePart] at hkept hentries hadded
  rw [folders_madePart] at hkept hentries hadded
  have hmade : ramfsHashmapFind (s'.folders cur).foderMap part = some (madeEntry s cur part) := by
    refine hentries cur (Nat.lt_add_right 2 hcur) part _ ?_
    rw [find_madeDir hcur, if_neg (Nat.ne_of_lt hcur), if_pos ⟨rfl, rfl⟩]
  have henter : ∀ parts', namedParts s'.folders cur (part :: parts') =
      namedParts s'.folders s.mem.next parts' := fun parts' => namedParts_enter hskip hmade
  refine ⟨(henter rest).trans hnamed, fun q hq => ?_, fun q hq name info hold => ?_,
    fun q name info hnew => ?_, ?_⟩
  · rw [hkept q (Nat.lt_add_right 2 hq), folders_madeDir_of_lt hcur hq]
    rfl
  · refine hentries q (Nat.lt_add_right 2 hq) name info ?_
    rw [find_madeDir hcur, if_neg (Nat.ne_of_lt hq), if_neg, hold]
    rintro ⟨rfl, rfl⟩
    rw [hfind] at hold
    cases hold
  · rcases hadded q name info hnew with hold | ⟨hge, hfiles, k, hk⟩
    · rw [find_madeDir hcur] at hold
      split_ifs at hold with hq hentry
      · obtain rfl := Option.some.inj hold
        refine Or.inr ⟨le_refl _, ?_, 1, henter []⟩
        rw [madeEntry, hkept s.mem.next (Nat.lt_add_of_pos_right Nat.two_pos), folders_madeDir_new hcur]
        rfl
      · exact Or.inl hold
    · exact Or.inr ⟨(Nat.le_add_right _ 2).trans hge, hfiles, k + 1, (henter _).trans hk⟩
  · obtain ⟨out, heq⟩ := madePart_eq s verbose cur part
    rw [heq] at hothers
    exact congrArg (fun u : Fs => { u with folders := s.folders, mem := s.mem, out := s.out }) hothers

/-- The walk goes down. -/
theorem below_of_namedParts (h : namedParts s.folders cur parts = some last) :
    Below (kids s) cur last := by
  induction parts generalizing cur with
  | nil =>
    obtain rfl := Option.some.inj h
    exact Below.refl _ _
  | cons part rest ih =>
    by_cases hskip : part.chars = [] ∨ part.chars = [46]
    · rw [namedParts_skip hskip] at h
      exact ih h
    cases hfind : ramfsHashmapFind (s.folders cur).foderMap part with
    | none =>
      rw [namedParts, if_neg hskip, hfind] at h
      cases h
    | some info =>
      rw [namedParts_enter hskip hfind] at h
      exact ((Below.refl _ _).tail (mem_kids_of_find hfind)).trans (ih h)

/-- **A run of the loop that answers 0.** Either each component had an entry, or the last one leads
to a new directory. -/
theorem RamInv.madeAlong (h : RamInv s) (hcur : cur < s.mem.next)
    (h0 : (mkdirParts verbose parts s cur).1 = 0) :
    ∃ last, MadeAlong s cur parts (mkdirParts verbose parts s cur).2 last ∧
      (namedParts s.folders cur parts = some last ∨
        namedParts s.folders cur parts = none ∧ s.mem.next ≤ last) := by
  -- induction on the components: those met are entered, and after the first one made all are made
  induction parts generalizing s cur with
  | nil => exact ⟨cur, MadeAlong.refl rfl, Or.inl rfl⟩
  | cons part rest ih =>
    by_cases hskip : part.chars = [] ∨ part.chars = [46]
    · have hloop : mkdirParts verbose (part :: rest) s cur = mkdirParts verbose rest s cur := by
        rw [mkdirParts, if_pos hskip]
      rw [hloop] at h0 ⊢
      obtain ⟨last, halong, hend⟩ := ih h hcur h0
      rw [namedParts_skip hskip]
      exact ⟨last, halong.skip hskip, hend⟩
    cases hfind : ramfsHashmapFind (s.folders cur).foderMap part with
    | some info =>
      have hloop : mkdirParts verbose (part :: rest) s cur = mkdirParts verbose rest s info.ptr := by
        rw [mkdirParts, if_neg hskip, hfind]
      rw [hloop] at h0 ⊢
      obtain ⟨last, halong, hend⟩ := ih h (h.lt_of_mem_kids (mem_kids_of_find hfind)).2 h0
      rw [namedParts_enter hskip hfind]
      exact ⟨last, halong.enter hcur hskip hfind, hend⟩
    | none =>
      obtain ⟨hfree, hloop⟩ := h.mkdirParts_cons hcur hskip hfind h0
      rw [hloop] at h0 ⊢
      have hmade := h.madePart hcur hfree verbose
      have hlt : s.mem.next < (LittleLinux.madePart s verbose cur part).mem.next := by
        rw [next_madePart]
        exact Nat.lt_add_of_pos_right Nat.two_pos
      obtain ⟨last, halong, hend⟩ := ih hmade hlt h0
      refine ⟨last, MadeAlong.make hcur hskip hfind halong, Or.inr ⟨?_, ?_⟩⟩
      · rw [namedParts, if_neg hskip, hfind]
      · rcases hend with hnamed | ⟨-, hge⟩
        · exact hmade.le_of_below (below_of_namedParts hnamed)
        · exact hlt.le.trans hge

end Loop

/-! ### Where no path leads -/

section Hidden

variable {s : Fs} {cur last d e q : Ptr} {part : CString} {parts : List CString}

/-- A loop that passed a component `".."` ends below a directory of that name. -/
theorem RamTree.exists_up_above (h : RamTree s) (hr : RamInv s) (hup : part ∈ parts)
    (hpart : part.chars = [46, 46]) (hnamed : namedParts s.folders cur parts = some last) :
    ∃ e q, e ∈ kids s q ∧ (s.folders e).name.chars = [46, 46] ∧ cur < e ∧ Below (kids s) e last := by
  induction parts generalizing cur with
  | nil => exact absurd hup List.not_mem_nil
  | cons p rest ih =>
    by_cases hskip : p.chars = [] ∨ p.chars = [46]
    · rw [namedParts_skip hskip] at hnamed
      rcases List.mem_cons.1 hup with rfl | hup
      · rw [hpart] at hskip
        exact absurd hskip (by decide)
      · exact ih hup hnamed
    cases hfind : ramfsHashmapFind (s.folders cur).foderMap p with
    | none =>
      rw [namedParts, if_neg hskip, hfind] at hnamed
      cases hnamed
    | some info =>
      rw [namedParts_enter hskip hfind] at hnamed
      have hlt := (hr.lt_of_mem_kids (mem_kids_of_find hfind)).1
      rcases List.mem_cons.1 hup with rfl | hup
      · refine ⟨info.ptr, cur, mem_kids_of_find hfind, ?_, hlt, ?_⟩
        · rw [(h.find hfind).1, hpart]
        · exact below_of_namedParts hnamed
      · obtain ⟨e, q, he, hname, hcur, hbelow⟩ := ih hup hnamed
        exact ⟨e, q, he, hname, hlt.trans hcur, hbelow⟩

/-- **No path leads below a directory named `".."`** from outside of it: down there the only entry
is the one that resolution takes for the parent. -/
theorem RamTree.not_below_of_walkParts (h : RamTree s) (he : e ∈ kids s q)
    (hname : (s.folders e).name.chars = [46, 46]) (hcur : Reach s cur)
    (hout : ¬Below (kids s) e cur) (hwalk : walkParts s.folders cur parts = some d) :
    ¬Below (kids s) e d := by
  -- a component ".." is always read as the parent, so no walk enters the folder of that name
  induction parts generalizing cur with
  | nil => exact Option.some.inj hwalk ▸ hout
  | cons part rest ih =>
    rw [walkParts] at hwalk
    split_ifs at hwalk with h₁ h₂ h₃
    · exact ih hcur hout hwalk
    · exact ih hcur hout hwalk
    · cases hp : (s.folders cur).parent with
      | none =>
        rw [hp] at hwalk
        exact Option.some.inj hwalk ▸ hout
      | some p =>
        rw [hp] at hwalk
        rcases Below.cases_owner hcur with rfl | ⟨r, hr, hmem⟩
        · exact absurd (h.root_parent.symm.trans hp) (by simp)
        obtain ⟨nd, hnd, rfl⟩ := List.mem_map.1 hmem
        obtain rfl : r = p := Option.some.inj ((h.parent r nd hnd).symm.trans hp)
        exact ih hr (fun hbelow => hout (hbelow.tail hmem)) hwalk
    · cases hfind : ramfsHashmapFind (s.folders cur).foderMap part with
      | none =>
        rw [hfind] at hwalk
        cases hwalk
      | some info =>
        rw [hfind] at hwalk
        have hkid := mem_kids_of_find hfind
        refine ih (hcur.tail hkid) (fun hbelow => ?_) hwalk
        rcases hbelow.cases_owner with rfl | ⟨r, hr, hmem⟩
        · rw [(h.find hfind).1] at hname
          exact h₃ hname
        · exact hout (h.owner _ _ _ hmem hkid ▸ hr)

end Hidden

/-! ### The command -/

/-- `"-p"`. -/
def dashP : CString := .ofBytes [45, 112]

/-- The path exists, and was all that was missing: it resolves, what is new are directories that
beginnings of it lead to, and to make it again does nothing but print. -/
structure MakesPath (s : Fs) (path : CString) (s' : Fs) : Prop where
  resolves : path.chars ≠ [] → (getDirByPath s'.folders s'.currentDir path).isSome
  kept : ∀ q < s.mem.next, s'.folders q = (s.folders q).setFoderMap (s'.folders q).foderMap
  entries : ∀ q < s.mem.next, ∀ name info, ramfsHashmapFind (s.folders q).foderMap name = some info →
    ramfsHashmapFind (s'.folders q).foderMap name = some info
  added : ∀ q name info, ramfsHashmapFind (s'.folders q).foderMap name = some info →
    ramfsHashmapFind (s.folders q).foderMap name = some info ∨
      (s.mem.next ≤ info.ptr ∧ (s'.folders info.ptr).fileMap = Table.empty ∧
        ∃ k, walkParts s'.folders (startDir s.currentDir path) ((pathParts path).take k) =
          some info.ptr)
  others : { s' with folders := s.folders, mem := s.mem, out := s.out } = s
  again : ∃ out, fsMkdirApi s' [dashP, path] = (0, { s' with out := out })

theorem mkdirWords_dashP (path : CString) :
    mkdirWords false false [dashP, path] = mkdirWords true false [path] := by
  have hdash : dashP.chars.head? = some 45 := rfl
  have hp : dashP.chars[1]? = some 112 := rfl
  rw [mkdirWords, if_pos hdash, if_neg (by decide), if_neg (by decide), if_pos hp]

/-- A word without a dash is the operand. -/
theorem fsMkdirApi_operand (s : Fs) {path : CString} (h : path.chars.head? ≠ some 45) :
    fsMkdirApi s [dashP, path] = mkdirParents s false path := by
  rw [fsMkdirApi, if_neg (List.cons_ne_nil _ _), mkdirWords_dashP, mkdirWords, if_neg h]

/-- A word with a dash is no operand. -/
theorem mkdirWords_option (parents verbose : Bool) {word : CString} (h : word.chars.head? = some 45) :
    (isWord word "--help" ∧ mkdirWords parents verbose [word] = .help) ∨
      (isWord word "--version" ∧ mkdirWords parents verbose [word] = .version) ∨
        mkdirWords parents verbose [word] = .invalid word ∨
          ∃ p v, mkdirWords parents verbose [word] = .operand p v none := by
  rw [mkdirWords, if_pos h]
  split_ifs with hhelp hversion
  · exact Or.inl ⟨hhelp, rfl⟩
  · exact Or.inr (Or.inl ⟨hversion, rfl⟩)
  · exact Or.inr (Or.inr (Or.inr ⟨_, _, rfl⟩))
  · exact Or.inr (Or.inr (Or.inr ⟨_, _, rfl⟩))
  · exact Or.inr (Or.inr (Or.inl rfl))

/-- So a text is printed, and that is all; where the answer is 0, the word has no component
`".."`. -/
theorem fsMkdirApi_option {path : CString} (h : path.chars.head? = some 45) :
    ∃ code text, (∀ s : Fs, fsMkdirApi s [dashP, path] = (code, s.print text)) ∧
      (code = 0 → ∀ part ∈ pathParts path, part.chars ≠ [46, 46]) := by
  have hwords : ∀ {text : String}, isWord path text →
      path = CString.ofBytes (ascii text) := by
    intro text hword
    rwa [isWord, streq_eq_decide, decide_eq_true_iff] at hword
  rcases mkdirWords_option true false h with ⟨hhelp, hw⟩ | ⟨hversion, hw⟩ | hw | ⟨p, v, hw⟩
  · refine ⟨0, _, fun s => by
      rw [fsMkdirApi, if_neg (List.cons_ne_nil _ _), mkdirWords_dashP, hw], fun _ => ?_⟩
    rw [hwords hhelp]
    decide
  · refine ⟨0, _, fun s => by
      rw [fsMkdirApi, if_neg (List.cons_ne_nil _ _), mkdirWords_dashP, hw], fun _ => ?_⟩
    rw [hwords hversion]
    decide
  · exact ⟨-1, _, fun s => by
      rw [fsMkdirApi, if_neg (List.cons_ne_nil _ _), mkdirWords_dashP, hw], fun h0 => absurd h0 (by decide)⟩
  · exact ⟨-1, _, fun s => by
      rw [fsMkdirApi, if_neg (List.cons_ne_nil _ _), mkdirWords_dashP, hw], fun h0 => absurd h0 (by decide)⟩

section Command

variable {s : Fs} {path : CString}

theorem CommandInv.reach_startDir (h : CommandInv s) (path : CString) :
    Reach s (startDir s.currentDir path) := by
  rw [startDir]
  split_ifs
  · exact Below.refl _ _
  · exact h.reach_currentDir

/-- If nothing was done but to print, it is resolution that decides. -/
theorem makesPath_of_same (out : List UInt8)
    (hagain : ∃ out', fsMkdirApi { s with out := out } [dashP, path] = (0, { s with out := out' })) :
    MakesPath s path { s with out := out } ↔
      (path.chars ≠ [] → (getDirByPath s.folders s.currentDir path).isSome) := by
  refine ⟨fun h => h.resolves, fun hres => ⟨hres, fun _ _ => rfl, fun _ _ _ _ hfind => hfind,
    fun _ _ _ hfind => Or.inl hfind, rfl, hagain⟩⟩

/-- Where both walks are one, a path resolves if each component has an entry. -/
theorem resolves_of_namedParts {s : Fs} {last : Ptr}
    (hup : ∀ part ∈ pathParts path, part.chars ≠ [46, 46])
    (hnamed : namedParts s.folders (startDir s.currentDir path) (pathParts path) = some last)
    (hne : path.chars ≠ []) : getDirByPath s.folders s.currentDir path = some last := by
  rw [getDirByPath_eq_walkParts _ _ hne, walkParts_eq_namedParts hup, hnamed]

theorem MadeAlong.currentDir {s' : Fs} {cur last : Ptr} {parts : List CString}
    (h : MadeAlong s cur parts s' last) : s'.currentDir = s.currentDir := by
  have hcur := congrArg Fs.currentDir h.others
  exact hcur

/-- Without `".."` the loop makes the path. -/
theorem MadeAlong.makesPath {s' : Fs} {last : Ptr}
    (h : MadeAlong s (startDir s.currentDir path) (pathParts path) s' last)
    (hup : ∀ part ∈ pathParts path, part.chars ≠ [46, 46]) (hword : path.chars.head? ≠ some 45) :
    MakesPath s path s' := by
  have hnamed : namedParts s'.folders (startDir s'.currentDir path) (pathParts path) = some last := by
    rw [h.currentDir]
    exact h.named
  refine ⟨fun hne => ?_, h.kept, h.entries, fun q name info hfind => ?_, h.others, s'.out, ?_⟩
  · rw [resolves_of_namedParts hup hnamed hne]
    rfl
  · refine (h.added q name info hfind).imp id ?_
    rintro ⟨hnew, hfiles, k, hk⟩
    refine ⟨hnew, hfiles, k, ?_⟩
    rw [walkParts_eq_namedParts fun part hpart => hup part (List.mem_of_mem_take hpart)]
    exact hk
  · rw [fsMkdirApi_operand s' hword, mkdirParents_eq, mkdirParts_of_namedParts false hnamed]

/-- With `".."` what the loop makes last is where no path leads. -/
theorem MadeAlong.not_makesPath {s' : Fs} {last : Ptr} (hr : RamInv s) (h' : CommandInv s')
    (h : MadeAlong s (startDir s.currentDir path) (pathParts path) s' last)
    (hstart : startDir s.currentDir path < s.mem.next) (hlast : s.mem.next ≤ last)
    {part : CString} (hpart : part ∈ pathParts path) (hup : part.chars = [46, 46]) :
    ¬MakesPath s path s' := by
  intro hmakes
  have htree := h'.ram.ramTree h'.tree
  obtain ⟨e, q, he, hname, hlt, hbelow⟩ := htree.exists_up_above h'.ram hpart hup h.named
  have hreach : Reach s' (startDir s.currentDir path) := h.currentDir ▸ h'.reach_startDir path
  have hout : ¬Below (kids s') e (startDir s.currentDir path) := fun hb =>
    absurd (h'.ram.le_of_below hb) (Nat.not_le.2 hlt)
  rcases exists_entry_of_namedParts h.named with heq | ⟨q', name, info, hfind, rfl⟩
  · exact absurd (heq ▸ hlast) (Nat.not_le.2 hstart)
  · rcases hmakes.added q' name info hfind with hold | ⟨-, -, k, hk⟩
    · exact absurd hlast (Nat.not_le.2 (hr.lt_of_mem_kids (mem_kids_of_find hold)).2)
    · exact htree.not_below_of_walkParts he hname hreach hout hk hbelow

end Command

/-- In a state that the commands reach, `mkdir -p` with a path that fits its buffer answers 0. -/
structure ParentsMade (s : Fs) (path : CString) : Prop where
  reachable : CommandReachable s
  fits : path.chars.length < 512
  answer : (fsMkdirApi s [dashP, path]).1 = 0

/-- **When `mkdir -p` makes its path exist.** In every state that a run of commands reaches without a
mount, if `mkdir -p path` answers 0, it did what it is for if and only if no component of the path
is `".."` and the path is no option, or all of its components are there, each as the name of an
entry, and the path resolves. -/
theorem mkdirParents_makesPath_iff {s : Fs} {path : CString} (hmade : ParentsMade s path) :
    MakesPath s path (fsMkdirApi s [dashP, path]).2 ↔
      ((∀ part ∈ pathParts path, part.chars ≠ [46, 46]) ∧ path.chars.head? ≠ some 45) ∨
        ((namedParts s.folders (startDir s.currentDir path) (pathParts path)).isSome ∧
          (path.chars ≠ [] → (getDirByPath s.folders s.currentDir path).isSome)) := by
  have h := hmade.reachable.commandInv
  have h0 := hmade.answer
  -- a path that starts with a dash is taken for an option, and no directory is made
  by_cases hword : path.chars.head? = some 45
  · obtain ⟨code, text, hprint, hup⟩ := fsMkdirApi_option hword
    rw [hprint] at h0 ⊢
    obtain rfl : code = 0 := h0
    rw [Fs.print, makesPath_of_same _ ⟨_, hprint _⟩, iff_comm]
    have hne : path.chars ≠ [] := fun hnil => by simp [hnil] at hword
    refine ⟨fun hcond => ?_, fun hres => Or.inr ⟨?_, hres⟩⟩
    · exact (hcond.resolve_left fun hc => hc.2 hword).2
    · have hfound := hres hne
      rwa [getDirByPath_eq_walkParts _ _ hne, walkParts_eq_namedParts (hup rfl)] at hfound
  rw [fsMkdirApi_operand s hword, mkdirParents_eq] at h0 ⊢
  have hreach := h.reach_startDir path
  have hstart := h.ram.reach_lt hreach
  -- either every directory was there already, or the path ends in one that the loop has made
  obtain ⟨last, halong, hnamed | ⟨hnone, hlast⟩⟩ := h.ram.madeAlong hstart h0
  · rw [mkdirParts_of_namedParts false hnamed]
    have hagain : fsMkdirApi s [dashP, path] = (0, s) := by
      rw [fsMkdirApi_operand s hword, mkdirParents_eq, mkdirParts_of_namedParts false hnamed]
    rw [makesPath_of_same s.out ⟨s.out, hagain⟩, hnamed]
    refine ⟨fun hres => Or.inr ⟨rfl, hres⟩, ?_⟩
    rintro (⟨hup, -⟩ | ⟨-, hres⟩)
    · intro hne
      rw [resolves_of_namedParts hup hnamed hne]
      rfl
    · exact hres
  · rw [hnone]
    constructor
    · intro hmakes
      refine Or.inl ⟨fun part hpart hup => ?_, hword⟩
      exact halong.not_makesPath h.ram (h.mkdirParts false _ hreach) hstart hlast hpart hup hmakes
    · rintro (⟨hup, -⟩ | ⟨hnamed, -⟩)
      · exact halong.makesPath hup hword
      · cases hnamed

/-- `mkdir -p a/b` in the fresh tree. -/
theorem mkdirParents_makesPath_nested :
    MakesPath (initState ⟨fun _ => true, 0, []⟩ noDisk) ⟨[97, 47, 98], by decide⟩
      (fsMkdirApi (initState ⟨fun _ => true, 0, []⟩ noDisk) [dashP, ⟨[97, 47, 98], by decide⟩]).2 :=
  (mkdirParents_makesPath_iff ⟨CommandReachable.init _ noDisk, by decide, by decide +kernel⟩).2
    (Or.inl ⟨by decide, by decide⟩)

/-- After `mkdir -p a/../b` in the fresh tree there is no `a/../b`. -/
theorem mkdirParents_misses_path :
    ¬∀ (s : Fs) (path : CString), ParentsMade s path →
      MakesPath s path (fsMkdirApi s [dashP, path]).2 := by
  intro h
  have hres := (h _ ⟨[97, 47, 46, 46, 47, 98], by decide⟩
    ⟨CommandReachable.init (fun _ => true) noDisk, by decide, by decide +kernel⟩).resolves (by decide)
  revert hres
  decide +kernel

end LittleLinux
