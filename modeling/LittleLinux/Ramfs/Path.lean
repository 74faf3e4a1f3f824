import LittleLinux.Ramfs.State

/-!
# Path resolution

What a path means is a left fold over its components: `resolvePath` starts at the root for a
path that begins with a slash and at the base directory otherwise, stays on empty components
and on `.`, goes to the parent on `..` (staying where there is none), and to the child of that
name otherwise.

`_get_dir_by_path` walks in the same way, except that a `..` at a directory without a parent
ends the walk there: the components behind it are not looked at (`earlyReturn`). The two agree
exactly when these components lead back to that directory.
-/

namespace LittleLinux

open ChainTable

variable {folders : Ptr → RamfsFoder}

/-! ### What a path means -/

/-- The child of a directory with this name. -/
def childOf (folders : Ptr → RamfsFoder) (dir : Ptr) (name : CString) : Option Ptr :=
  ((folders dir).foderMap.nodes.find? fun nd => nd.key = name).map fun nd => nd.value.ptr

/-- One component. -/
def stepPart (folders : Ptr → RamfsFoder) (cur : Ptr) (part : CString) : Option Ptr :=
  if part.chars = [] ∨ part.chars = [46] then some cur
  else if part.chars = [46, 46] then some ((folders cur).parent.getD cur)
  else childOf folders cur part

/-- The components, one after the other. -/
def resolveParts (folders : Ptr → RamfsFoder) (cur : Ptr) (parts : List CString) : Option Ptr :=
  parts.foldlM (stepPart folders) cur

/-- The path begins with a slash. -/
def CString.IsAbsolute (path : CString) : Prop := path.chars.head? = some 47

instance (path : CString) : Decidable path.IsAbsolute :=
  inferInstanceAs (Decidable (path.chars.head? = some 47))

/-- The directory a path names. -/
def resolvePath (folders : Ptr → RamfsFoder) (base : Ptr) (path : CString) : Option Ptr :=
  resolveParts folders (if path.IsAbsolute then rootPtr else base) (components path)

/-- The folder tables of the tree are well formed. -/
def WellFormedTree (folders : Ptr → RamfsFoder) : Prop :=
  ∀ p, Rep djb2Bucket (folders p).foderMap

/-- Where the walk of `_get_dir_by_path` ends early, and the components it leaves out. -/
def earlyReturn (folders : Ptr → RamfsFoder) : Ptr → List CString → Option (Ptr × List CString)
  | _, [] => none
  | cur, part :: rest =>
    if part.chars = [46, 46] ∧ (folders cur).parent = none then some (cur, rest)
    else (stepPart folders cur part).bind fun next => earlyReturn folders next rest

/-- Where the walk for a path starts. -/
def startDir (base : Ptr) (path : CString) : Ptr := if path.IsAbsolute then rootPtr else base

/-- `p/q`. -/
def joinPath (p q : CString) : CString where
  chars := p.chars ++ 47 :: q.chars
  noNul := by
    intro h
    rcases List.mem_append.1 h with h | h
    · exact p.noNul h
    · rcases List.mem_cons.1 h with h | h
      · exact absurd h (by decide)
      · exact q.noNul h

/-! ### Components -/

theorem splitSlash_ne_nil (l : List UInt8) : splitSlash l ≠ [] := by
  cases l with
  | nil => exact List.cons_ne_nil _ _
  | cons c l =>
    rw [splitSlash]
    split_ifs
    · exact List.cons_ne_nil _ _
    · split
      · exact List.cons_ne_nil _ _
      · exact List.cons_ne_nil _ _

theorem splitSlash_append (l m : List UInt8) :
    splitSlash (l ++ 47 :: m) = splitSlash l ++ splitSlash m := by
  induction l with
  | nil => simp [splitSlash]
  | cons c l ih =>
    rw [List.cons_append, splitSlash, splitSlash]
    by_cases hc : c = 47
    · rw [if_pos hc, if_pos hc, ih, List.cons_append]
    · rw [if_neg hc, if_neg hc, ih]
      cases hl : splitSlash l with
      | nil => exact absurd hl (splitSlash_ne_nil l)
      | cons w ws => rfl

theorem map_chars_components (path : CString) :
    (components path).map CString.chars = splitSlash path.chars := by
  rw [components, List.map_map]
  exact List.attach_map_subtype_val _

theorem components_joinPath (p q : CString) :
    components (joinPath p q) = components p ++ components q := by
  refine List.map_injective_iff.2 CString.chars_injective ?_
  rw [map_chars_components, List.map_append, map_chars_components, map_chars_components]
  exact splitSlash_append p.chars q.chars

/-- The components of an absolute path: an empty one, and those of the rest. -/
theorem components_of_isAbsolute {path : CString} (h : path.IsAbsolute) :
    ∃ part : CString, part.chars = [] ∧ components path = part :: components path.tail := by
  refine ⟨⟨[], by simp⟩, rfl, ?_⟩
  refine List.map_injective_iff.2 CString.chars_injective ?_
  rw [map_chars_components, List.map_cons, map_chars_components, CString.tail]
  obtain ⟨chars, hnul⟩ := path
  cases chars with
  | nil => exact absurd h (by simp [CString.IsAbsolute])
  | cons c l =>
    obtain rfl : c = 47 := Option.some.inj h
    rw [splitSlash, if_pos rfl]
    rfl

/-! ### The walk -/

/-- Looking a name up in a well-formed table finds the child. -/
theorem find_ptr_eq_childOf (hw : WellFormedTree folders) (dir : Ptr) (name : CString) :
    (ramfsHashmapFind (folders dir).foderMap name).map (fun info => info.ptr) =
      childOf folders dir name := by
  rw [ramfsHashmapFind_eq_lookup, childOf]
  cases hfind : (folders dir).foderMap.nodes.find? (fun nd => nd.key = name) with
  | none =>
    have hnone : lookup djb2Bucket (folders dir).foderMap name = none := by
      rw [← Option.not_isSome_iff_eq_none, lookup_isSome_iff (hw dir)]
      rintro hmem
      obtain ⟨nd, hnd, rfl⟩ := List.mem_map.1 hmem
      exact absurd (List.find?_eq_none.1 hfind nd hnd) (by simp)
    rw [hnone]
    rfl
  | some nd =>
    have hkey : nd.key = name := by simpa using List.find?_some hfind
    have hsome : lookup djb2Bucket (folders dir).foderMap name = some nd.value :=
      (lookup_eq_some_iff (hw dir)).2 ⟨nd, List.mem_of_find?_eq_some hfind, hkey, rfl⟩
    rw [hsome]
    rfl

/-- A component that does not end the walk is one step of the fold. -/
theorem walkParts_cons (hw : WellFormedTree folders) {cur : Ptr} {part : CString}
    (h : ¬(part.chars = [46, 46] ∧ (folders cur).parent = none)) (rest : List CString) :
    walkParts folders cur (part :: rest) =
      (stepPart folders cur part).bind fun next => walkParts folders next rest := by
  rw [walkParts, stepPart]
  by_cases hempty : part.chars = []
  · rw [if_pos hempty, if_pos (Or.inl hempty), Option.bind_some]
  by_cases hdot : part.chars = [46]
  · rw [if_neg hempty, if_pos hdot, if_pos (Or.inr hdot), Option.bind_some]
  rw [if_neg hempty, if_neg hdot, if_neg (not_or.2 ⟨hempty, hdot⟩)]
  by_cases hup : part.chars = [46, 46]
  · rw [if_pos hup, if_pos hup]
    cases hparent : (folders cur).parent with
    | none => exact absurd ⟨hup, hparent⟩ h
    | some p => rw [Option.getD_some, Option.bind_some]
  · rw [if_neg hup, if_neg hup, ← find_ptr_eq_childOf hw]
    cases ramfsHashmapFind (folders cur).foderMap part with
    | none => rfl
    | some info => rfl

theorem walkParts_up {cur : Ptr} {part : CString} (hup : part.chars = [46, 46])
    (hparent : (folders cur).parent = none) (rest : List CString) :
    walkParts folders cur (part :: rest) = some cur := by
  rw [walkParts, if_neg (by simp [hup]), if_neg (by simp [hup]), if_pos hup, hparent]

theorem stepPart_up {cur : Ptr} {part : CString} (hup : part.chars = [46, 46])
    (hparent : (folders cur).parent = none) : stepPart folders cur part = some cur := by
  rw [stepPart, if_neg (by simp [hup]), if_pos hup, hparent, Option.getD_none]

theorem resolveParts_cons (cur : Ptr) (part : CString) (rest : List CString) :
    resolveParts folders cur (part :: rest) =
      (stepPart folders cur part).bind fun next => resolveParts folders next rest :=
  List.foldlM_cons

/-- A walk that does not end early is the fold. -/
theorem walkParts_of_none (hw : WellFormedTree folders) {cur : Ptr} {parts : List CString}
    (h : earlyReturn folders cur parts = none) :
    walkParts folders cur parts = resolveParts folders cur parts := by
  induction parts generalizing cur with
  | nil => rfl
  | cons part rest ih =>
    rw [earlyReturn] at h
    split_ifs at h with hup
    rw [walkParts_cons hw hup, resolveParts_cons]
    cases hstep : stepPart folders cur part with
    | none => rfl
    | some next =>
      rw [hstep, Option.bind_some] at h
      exact ih h

/-- A walk that ends early returns where it ends, and the fold goes on from there. -/
theorem walkParts_of_some (hw : WellFormedTree folders) {cur d : Ptr} {parts rest : List CString}
    (h : earlyReturn folders cur parts = some (d, rest)) :
    walkParts folders cur parts = some d ∧
      resolveParts folders cur parts = resolveParts folders d rest := by
  induction parts generalizing cur with
  | nil => exact absurd h (by simp [earlyReturn])
  | cons part parts ih =>
    rw [earlyReturn] at h
    split_ifs at h with hup
    · obtain ⟨rfl, rfl⟩ := Prod.ext_iff.1 (Option.some.inj h)
      refine ⟨walkParts_up hup.1 hup.2 _, ?_⟩
      rw [resolveParts_cons, stepPart_up hup.1 hup.2, Option.bind_some]
    · rw [walkParts_cons hw hup, resolveParts_cons]
      cases hstep : stepPart folders cur part with
      | none => rw [hstep] at h; exact absurd h (by simp)
      | some next =>
        rw [hstep, Option.bind_some] at h
        exact ih h

theorem walkParts_eq_resolveParts_iff (hw : WellFormedTree folders) (cur : Ptr)
    (parts : List CString) :
    walkParts folders cur parts = resolveParts folders cur parts ↔
      ∀ d rest, earlyReturn folders cur parts = some (d, rest) →
        resolveParts folders d rest = some d := by
  cases hearly : earlyReturn folders cur parts with
  | none => exact iff_of_true (walkParts_of_none hw hearly) (by simp)
  | some r =>
    obtain ⟨d, rest⟩ := r
    obtain ⟨hwalk, hfold⟩ := walkParts_of_some hw hearly
    rw [hwalk, hfold]
    constructor
    · rintro h d' rest' heq
      obtain ⟨rfl, rfl⟩ := Prod.ext_iff.1 (Option.some.inj heq)
      exact h.symm
    · exact fun h => (h d rest rfl).symm

/-- Two walks in a row, as long as the first does not end early. -/
theorem walkParts_append_of_none (hw : WellFormedTree folders) {cur : Ptr} {ps : List CString}
    (h : earlyReturn folders cur ps = none) (qs : List CString) :
    walkParts folders cur (ps ++ qs) =
      (walkParts folders cur ps).bind fun d => walkParts folders d qs := by
  induction ps generalizing cur with
  | nil => rfl
  | cons part ps ih =>
    rw [earlyReturn] at h
    split_ifs at h with hup
    rw [List.cons_append, walkParts_cons hw hup, walkParts_cons hw hup]
    cases hstep : stepPart folders cur part with
    | none => rfl
    | some next =>
      rw [hstep, Option.bind_some] at h
      rw [Option.bind_some, Option.bind_some]
      exact ih h

theorem walkParts_append_of_some (hw : WellFormedTree folders) {cur d : Ptr}
    {ps rest : List CString} (h : earlyReturn folders cur ps = some (d, rest))
    (qs : List CString) : walkParts folders cur (ps ++ qs) = some d := by
  have happend : earlyReturn folders cur (ps ++ qs) = some (d, rest ++ qs) := by
    induction ps generalizing cur with
    | nil => exact absurd h (by simp [earlyReturn])
    | cons part ps ih =>
      rw [List.cons_append, earlyReturn]
      rw [earlyReturn] at h
      split_ifs at h ⊢ with hup
      · obtain ⟨rfl, rfl⟩ := Prod.ext_iff.1 (Option.some.inj h)
        rfl
      · obtain ⟨next, hnext, hrest⟩ := Option.bind_eq_some_iff.1 h
        rw [hnext, Option.bind_some]
        exact ih hrest
  exact (walkParts_of_some hw happend).1

/-! ### Paths -/

/-- The walk of `_get_dir_by_path` starts where the fold does. -/
theorem getDirByPath_eq (hw : WellFormedTree folders) (base : Ptr) {path : CString}
    (h : path.chars ≠ []) :
    getDirByPath folders base path =
      walkParts folders (startDir base path) (components path) := by
  rw [getDirByPath, if_neg h, startDir]
  by_cases habs : path.IsAbsolute
  · obtain ⟨part, hpart, hparts⟩ := components_of_isAbsolute habs
    have hhead : path.chars.head? = some 47 := habs
    rw [if_pos habs, if_pos hhead, hparts, walkParts_cons hw (by simp [hpart]), stepPart,
      if_pos (Or.inl hpart), Option.bind_some]
  · have hhead : ¬path.chars.head? = some 47 := habs
    rw [if_neg habs, if_neg hhead]

/-- A path that is not empty and does not begin with a slash. -/
def CString.IsRelative (path : CString) : Prop := path.chars ≠ [] ∧ ¬path.IsAbsolute

theorem getDirByPath_of_isRelative (hw : WellFormedTree folders) (base : Ptr) {path : CString}
    (h : path.IsRelative) :
    getDirByPath folders base path = walkParts folders base (components path) := by
  rw [getDirByPath_eq hw base h.1, startDir, if_neg h.2]

theorem isRelative_joinPath {p : CString} (h : p.IsRelative) (q : CString) :
    (joinPath p q).IsRelative := by
  obtain ⟨hne, habs⟩ := h
  refine ⟨by simp [joinPath], ?_⟩
  obtain ⟨chars, hnul⟩ := p
  cases chars with
  | nil => exact absurd rfl hne
  | cons c l => exact habs

/-- **When resolution is the fold over the components.** In every well-formed tree and from
every base directory, `_get_dir_by_path` finds the directory a path names exactly when no
`..` of the path is met at a directory without a parent, or the components behind the first
such `..` lead from that directory back to it. And a relative path `p/q` leads where `q` leads
from the directory of `p` exactly when no such `..` is met in `p`, or `q` leads from that
directory back to it. -/
theorem getDirByPath_eq_fold_iff (folders : Ptr → RamfsFoder) (hw : WellFormedTree folders)
    (base : Ptr) :
    (∀ path : CString, path.chars ≠ [] → path.chars.length < 512 →
      (getDirByPath folders base path = resolvePath folders base path ↔
        ∀ d rest, earlyReturn folders (startDir base path) (components path) = some (d, rest) →
          resolveParts folders d rest = some d)) ∧
    ∀ p q : CString, p.IsRelative → q.IsRelative → (joinPath p q).chars.length < 512 →
      (getDirByPath folders base (joinPath p q) =
          (getDirByPath folders base p).bind (fun dir => getDirByPath folders dir q) ↔
        ∀ d rest, earlyReturn folders base (components p) = some (d, rest) →
          getDirByPath folders d q = some d) := by
  refine ⟨fun path hne _ => ?_, fun p q hp hq _ => ?_⟩
  · rw [getDirByPath_eq hw base hne, resolvePath]
    exact walkParts_eq_resolveParts_iff hw (startDir base path) (components path)
  · have hqwalk : ∀ dir, getDirByPath folders dir q = walkParts folders dir (components q) :=
      fun dir => getDirByPath_of_isRelative hw dir hq
    simp only [getDirByPath_of_isRelative hw base (isRelative_joinPath hp q),
      getDirByPath_of_isRelative hw base hp, hqwalk, components_joinPath]
    cases hearly : earlyReturn folders base (components p) with
    | none => exact iff_of_true (walkParts_append_of_none hw hearly _) (by simp)
    | some r =>
      obtain ⟨d, rest⟩ := r
      rw [walkParts_append_of_some hw hearly, (walkParts_of_some hw hearly).1, Option.bind_some]
      constructor
      · rintro h d' rest' heq
        obtain ⟨rfl, rfl⟩ := Prod.ext_iff.1 (Option.some.inj heq)
        exact h.symm
      · exact fun h => (h d rest rfl).symm

/-- A tree that is only its root. -/
def emptyTree : Ptr → RamfsFoder := fun _ => RamfsFoder.zero

theorem emptyTree_wellFormed : WellFormedTree emptyTree := fun _ => rep_empty djb2Bucket

/-- `"./."` names the directory itself. -/
theorem getDirByPath_eq_fold_iff_dots :
    getDirByPath emptyTree 5 ⟨[46, 47, 46], by decide⟩ =
      resolvePath emptyTree 5 ⟨[46, 47, 46], by decide⟩ :=
  ((getDirByPath_eq_fold_iff emptyTree emptyTree_wellFormed 5).1 ⟨[46, 47, 46], by decide⟩
    (by decide) (by decide)).2 (by
      intro d rest h
      have hnone : earlyReturn emptyTree (startDir 5 ⟨[46, 47, 46], by decide⟩)
          (components ⟨[46, 47, 46], by decide⟩) = none := by decide
      rw [hnone] at h
      exact absurd h (by simp))

/-- In the tree that is only its root, `"../a"` is found, though there is no `a`. -/
theorem getDirByPath_stops_at_root :
    ¬∀ (folders : Ptr → RamfsFoder) (base : Ptr) (path : CString), WellFormedTree folders →
      path.chars ≠ [] → path.chars.length < 512 →
      getDirByPath folders base path = resolvePath folders base path := by
  intro h
  have hpath := h emptyTree rootPtr ⟨[46, 46, 47, 97], by decide⟩ emptyTree_wellFormed
    (by decide) (by decide)
  exact absurd hpath (by decide)

end LittleLinux
