import LittleLinux.Dfs.BlockSafety
import LittleLinux.Dfs.LiveUse
import LittleLinux.Dfs.TableLaws

/-!
# Removing directories

`fs_rmdir` judges a directory by the counters of its tables, and it loads the directory it works
in but not the one it removes. `fsRmdir_spares_contents_iff` says when that is enough: in every
state that a run of calls reaches, what is removed had no entry in memory, and it had none on the
disk exactly when the directory found under the name does not pretend to be empty.
-/

namespace LittleLinux

open ChainTable

/-! ### Where folders come from -/

/-- A run of the file system: the state, and for each folder object that a loader made the partition
whose record it stands for. -/
structure LoadedRun where
  fs : Fs
  origin : Ptr → Option PartId

/-- The partition that a call reads the record of a new folder from: that of the mount it makes, or
that of the directory it works in; none for a directory that `fs_mkdir` makes. -/
def newOrigin (s : Fs) (op : FsOp) (p : Ptr) : Option PartId :=
  match op with
  | .mount _ id => some id
  | _ =>
    if ((fsStep s op).folders p).type = RAMFS_FOLDER_TYPE_DISK_CLEAN then
      ((op.dir s).bind fun dir => (s.folders dir).mount).map fun m => (s.mountTable m).part
    else none

/-- One call. -/
def loadedStep (r : LoadedRun) (op : FsOp) : LoadedRun where
  fs := fsStep r.fs op
  origin p := if p < r.fs.mem.next then r.origin p else newOrigin r.fs op p

/-- A run begins after `fs_init`, with nothing loaded. -/
def startLoaded (grants : ℕ → Bool) (store : Store) : LoadedRun :=
  ⟨initState ⟨grants, 0, []⟩ store, fun _ => none⟩

/-- The state of a run that stayed in its bounds, as does the call that comes next. -/
def LoadedRun.Before (r : LoadedRun) (op : FsOp) : Prop :=
  ∃ (grants : ℕ → Bool) (store : Store) (ops : List FsOp),
    Along loadedStep (fun r op => op.InBounds r.fs) (startLoaded grants store) (ops ++ [op]) ∧
      r = ops.foldl loadedStep (startLoaded grants store)

theorem fs_foldl_loadedStep (r : LoadedRun) (ops : List FsOp) :
    (ops.foldl loadedStep r).fs = ops.foldl fsStep r.fs :=
  (List.foldl_hom LoadedRun.fs fun _ _ => rfl).symm

/-! ### Entries -/

/-- The record of a folder on a partition. -/
def recordOn (st : Store) (id : PartId) (f : RamfsFoder) : DiskFolder :=
  DiskFolder.decode fun i => st.bytes id (toU32 f.driveAddr + i)

/-- The record of the folder has no entry, if it came from a partition. -/
def RecordEmpty (s : Fs) (origin : Option PartId) (p : Ptr) : Prop :=
  ∀ id ∈ origin, (recordOn s.disk.store id (s.folders p)).subfolders = [] ∧
    (recordOn s.disk.store id (s.folders p)).files = []

/-- The folder has no entry at all: none in memory, and, if it came from a disk, none there. -/
structure NoEntries (s : Fs) (origin : Option PartId) (p : Ptr) : Prop where
  foders : (s.folders p).foderMap.nodes = []
  files : (s.folders p).fileMap.nodes = []
  record : RecordEmpty s origin p

/-- The directory that `fs_rmdir` takes out for `name` in `dir`, with the state in which it takes
it: that after the lazy load of the directory it works in. -/
def RmdirFinds (s : Fs) (name : CString) (dir : Option CString) (u : Fs) (p : Ptr) : Prop :=
  ∃ parent info, fromDir s dir = some parent ∧ u = lazyLoadDirectory s parent ∧
    ramfsHashmapFind (u.folders parent).foderMap name = some info ∧ p = info.ptr

/-- A call that answers 0 removed a directory without entries. -/
def RmdirSparesContents (r : LoadedRun) (name : CString) (dir : Option CString) : Prop :=
  (fsRmdir r.fs name dir).1 = 0 → ∀ u p, RmdirFinds r.fs name dir u p →
    NoEntries u ((loadedStep r (.rmdir name dir)).origin p) p

/-- What looks empty is empty: the directory has an entry in memory, or it did not come from a
disk, or its record there has no entry. -/
def HidesNothing (s : Fs) (origin : Option PartId) (p : Ptr) : Prop :=
  (s.folders p).foderMap.nodes ≠ [] ∨ (s.folders p).fileMap.nodes ≠ [] ∨ RecordEmpty s origin p

section Rmdir

variable {s u : Fs} {name : CString} {dir : Option CString} {p : Ptr}

/-- When `fs_rmdir` answers 0, for the directory that it finds. -/
theorem fsRmdir_eq_zero_iff (h : RmdirFinds s name dir u p) :
    (fsRmdir s name dir).1 = 0 ↔
      (u.folders p).foderMap.count = 0 ∧ (u.folders p).fileMap.count = 0 := by
  obtain ⟨parent, info, hdir, rfl, hfind, rfl⟩ := h
  rw [fsRmdir, hdir]
  dsimp only
  rw [rmdirIn]
  dsimp only
  rw [hfind]
  dsimp only
  split_ifs with hcount
  · refine ⟨fun h => absurd h (by norm_num), fun h => ?_⟩
    rcases hcount with hne | hne
    · exact absurd h.1 hne
    · exact absurd h.2 hne
  · rw [not_or, not_not, not_not] at hcount
    exact ⟨fun _ => hcount, fun _ => rfl⟩

/-- A table with the right counter is empty when its counter is zero. -/
theorem Counted.count_eq_zero_iff {V : Type} {map : Table BUCKETS CString V} (hc : Counted map) :
    map.count = 0 ↔ map.nodes = [] := by
  refine ⟨hc.nodes_eq_nil, fun h => ?_⟩
  rw [hc, h]
  rfl

end Rmdir

/-- **When `fs_rmdir` destroys nothing.** In every state that a run of calls reaches, for every
name and directory: a removal that answers 0 removed a directory without entries, in memory and
on the disk, exactly when the directory found under the name hides nothing. -/
theorem fsRmdir_spares_contents_iff {r : LoadedRun} {name : CString} {dir : Option CString}
    (hr : r.Before (.rmdir name dir)) :
    RmdirSparesContents r name dir ↔ ∀ u p, RmdirFinds r.fs name dir u p →
      HidesNothing u ((loadedStep r (.rmdir name dir)).origin p) p := by
  obtain ⟨grants, store, ops, -, heq⟩ := hr
  have hcounted : AllTables Counted Counted r.fs := by
    rw [heq, fs_foldl_loadedStep]
    exact countedLaws.run _ store ops
  have hcount : ∀ u p, RmdirFinds r.fs name dir u p →
      ((fsRmdir r.fs name dir).1 = 0 ↔
        (u.folders p).foderMap.nodes = [] ∧ (u.folders p).fileMap.nodes = []) := by
    intro u p hfinds
    have hu : AllTables Counted Counted u := by
      obtain ⟨parent, -, -, rfl, -⟩ := hfinds
      exact countedLaws.lazyLoadDirectory hcounted parent
    rw [fsRmdir_eq_zero_iff hfinds, (hu p).1.count_eq_zero_iff, (hu p).2.count_eq_zero_iff]
  constructor
  · intro h u p hfinds
    by_cases hfoders : (u.folders p).foderMap.nodes = []
    · by_cases hfiles : (u.folders p).fileMap.nodes = []
      · exact Or.inr (Or.inr (h ((hcount u p hfinds).2 ⟨hfoders, hfiles⟩) u p hfinds).record)
      · exact Or.inr (Or.inl hfiles)
    · exact Or.inl hfoders
  · intro h hzero u p hfinds
    obtain ⟨hfoders, hfiles⟩ := (hcount u p hfinds).1 hzero
    refine ⟨hfoders, hfiles, ?_⟩
    rcases h u p hfinds with hne | hne | hrecord
    · exact absurd hfoders hne
    · exact absurd hfiles hne
    · exact hrecord

/-! ### A directory that was never loaded -/

/-- Where the root record of the image lies, and that of its one subfolder. -/
def rootAddr : ℕ := 536
def subAddr : ℕ := rootAddr + sizeofDiskFolder

/-- A disk whose root holds the directory `d`, which holds the file `f`. -/
def nestedImage : Store :=
  imageStore ⟨DFS_MAGIC, DFS_MAX_FOLDERS, 2, rootAddr, 1000000, 1100000, 100⟩
    [(rootAddr, ⟨slashString, 1, [⟨.ofBytes [100], subAddr⟩], []⟩),
      (subAddr, ⟨.ofBytes [100], 1, [], [⟨.ofBytes [102], 3, 1100000⟩]⟩)]

/-- The disk is mounted on `/m`. -/
def nestedOps : List FsOp := [.mkdir (.ofBytes [109]) none, .mount (.ofBytes [47, 109]) part0]

/-- The state of that run. -/
def nestedRun : LoadedRun := nestedOps.foldl loadedStep (startLoaded (fun _ => true) nestedImage)

theorem nestedRun_before {op : FsOp}
    (h : Along loadedStep (fun r op => op.InBounds r.fs) (startLoaded (fun _ => true) nestedImage)
      (nestedOps ++ [op])) : nestedRun.Before op :=
  ⟨fun _ => true, nestedImage, nestedOps, h, rfl⟩

/-- The root of the mount, `/m/m`, has an entry. -/
theorem fsRmdir_spares_contents_nestedRoot :
    RmdirSparesContents nestedRun ⟨[109], by decide⟩ (some ⟨[47, 109], by decide⟩) := by
  refine (fsRmdir_spares_contents_iff (nestedRun_before (by decide +kernel))).2 fun u p hfinds => ?_
  obtain ⟨parent, info, hparent, rfl, hfind, rfl⟩ := hfinds
  obtain rfl : 1 = parent := Option.some.inj ((by decide +kernel : _ = some 1).symm.trans hparent)
  have hptr : info.ptr = 3 := by
    have hall : ∀ i ∈ ramfsHashmapFind ((lazyLoadDirectory nestedRun.fs 1).folders 1).foderMap
        ⟨[109], by decide⟩, i.ptr = 3 := by decide +kernel
    exact hall info hfind
  rw [hptr]
  exact Or.inl (by decide +kernel)

/-- The directory `/m/m/d` comes from the disk with an entry in its record, and was not loaded:
`fs_rmdir` answers 0. -/
theorem fsRmdir_destroys_contents :
    ¬∀ (r : LoadedRun) (name : CString) (dir : Option CString), r.Before (.rmdir name dir) →
      RmdirSparesContents r name dir := by
  intro h
  have hnone := h nestedRun ⟨[100], by decide⟩ (some ⟨[47, 109, 47, 109], by decide⟩)
    (nestedRun_before (by decide +kernel)) (by decide +kernel) _ 4
    ⟨3, ⟨⟨[100], by decide⟩, RAMFS_FOLDER_TYPE_DISK_CLEAN, 4, subAddr⟩, by decide +kernel, rfl,
      by decide +kernel, rfl⟩
  have hfiles := (hnone.record part0 (by decide +kernel)).2
  revert hfiles
  decide +kernel

end LittleLinux
