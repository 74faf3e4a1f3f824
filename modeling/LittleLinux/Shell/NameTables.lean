import LittleLinux.Kernel.StringMap
import LittleLinux.Ramfs.Ops

/-!
# The commands and the environment

`command_system.c` keeps the commands of the shell, and `env_var.c` its variables, in hash tables with the
name as the key. What the shell relies on is that a table answers like a map: a name gives what was
last registered or set under it, and nothing when nothing was. `listsCommands_iff` and `actsAsMap_iff`
say for which names that is so over every sequence of calls. The names have to be told apart by the
comparison of the table, and for a variable, whose name is kept in 64 bytes, no name may be longer than 63:
a longer one is stored cut off and never found again.
-/

namespace LittleLinux

universe u

/-! ### `command_system.c` -/

/-- `CommandEntry`. -/
structure CommandEntry (φ : Type u) where
  name : CString
  desc : CString
  func : φ

/-- `command_map`, with the description and the function of each element. -/
abbrev CommandMap (φ : Type u) := StringMap (CString × φ)

def sizeofCommandEntry : ℕ := 44

section Commands

variable {φ : Type u}

/-- `register_command`. -/
def registerCommand (t : CommandMap φ) (name desc : CString) (func : φ) : Option (CommandMap φ) :=
  t.assign sizeofCommandEntry name name (desc, func)

/-- `find_command`. -/
def findCommand (t : CommandMap φ) (cmdName : CString) : Option (CommandEntry φ) :=
  (hashFind t.map cmdName).bind fun p =>
    (t.entries p).map fun e => ⟨(t.map.handles p).key, e.1, e.2⟩

/-- `foreach_command`: the names and descriptions that the callback gets, in this order. -/
def foreachCommand (t : CommandMap φ) : List (CString × CString) :=
  (hashIter t.map).filterMap fun p => (t.entries p).map fun e => ((t.map.handles p).key, e.1)

/-- One registration after the other. -/
def registerCommands (t : CommandMap φ) (log : List (CommandEntry φ)) : Option (CommandMap φ) :=
  log.foldlM (fun t e => registerCommand t e.name e.desc e.func) t

/-- The command that was last registered under a name. -/
def lastRegistered (log : List (CommandEntry φ)) (name : CString) : Option (CommandEntry φ) :=
  log.reverse.find? fun e => e.name = name

end Commands

/-- The table lists these registrations: every name gives what was last registered under it, and the
commands are listed once each, in the order in which they were registered first. -/
structure ListsRegistered {φ : Type u} (names : CString → Prop) (t : CommandMap φ)
    (log : List (CommandEntry φ)) : Prop where
  find : ∀ name, names name → findCommand t name = lastRegistered log name
  each : foreachCommand t = (log.map CommandEntry.name).eraseDups.filterMap fun name =>
    (lastRegistered log name).map fun e => (e.name, e.desc)

/-- Every sequence of registrations of such names ends in a table that lists them, when it is not
cut short by a failed allocation. -/
def ListsCommands (φ : Type u) (names : CString → Prop) : Prop :=
  ∀ (mem : Memory) (log : List (CommandEntry φ)), (∀ e ∈ log, names e.name) →
    (mem.Unfailing → ∃ t, registerCommands (.empty mem) log = some t) ∧
      ∀ t, registerCommands (.empty mem) log = some t → ListsRegistered names t log

/-! ### `env_var.c` -/

/-- `env_map`, with the value of each element. -/
abbrev EnvMap := StringMap CString

def sizeofEnvVar : ℕ := 352

/-- The name that `env_set` stores: 63 characters fit. -/
def envName (name : CString) : CString :=
  ⟨name.chars.take 63, fun h => name.noNul (List.mem_of_mem_take h)⟩

/-- `env_set`. -/
def envSet (t : EnvMap) (name value : CString) : Option EnvMap :=
  t.assign sizeofEnvVar name (envName name) (envValue value)

/-- `env_get`. -/
def envGet (t : EnvMap) (name : CString) : Option CString := t.get name

/-- One call of `env_set` after the other. -/
def envSets (t : EnvMap) (log : List (CString × CString)) : Option EnvMap :=
  log.foldlM (fun t e => envSet t e.1 e.2) t

/-- Every sequence of calls with such names ends in an environment in which each of them has the value
it was last set to, cut to what fits. -/
def ActsAsMap (names : CString → Prop) : Prop :=
  ∀ (mem : Memory) (log : List (CString × CString)), (∀ e ∈ log, names e.1) →
    (mem.Unfailing → ∃ t, envSets (.empty mem) log = some t) ∧
      ∀ t, envSets (.empty mem) log = some t →
        ∀ name, names name → envGet t name = (lastValue log name).map envValue

/-! ### Runs of assignments -/

namespace StringMap

variable {α : Type u} {names : CString → Prop}

/-- Assignments one after the other, each under the name that is also the key. -/
def assigns (t : StringMap α) (size : ℕ) (log : List (CString × α)) : Option (StringMap α) :=
  log.foldlM (fun t e => t.assign size e.1 e.1 e.2) t

/-- **A run of assignments** leaves a table that holds them. -/
theorem Holds.assigns {size : ℕ} (hnames : ToldApart names) {t t' : StringMap α} {items : List Ptr}
    {before log : List (CString × α)} (ht : t.Holds before items) (hbefore : ∀ e ∈ before, names e.1)
    (hlog : ∀ e ∈ log, names e.1) (h : t.assigns size log = some t') :
    ∃ items', t'.Holds (before ++ log) items' := by
  induction log generalizing t before items with
  | nil =>
    obtain rfl := Option.some.inj h
    rw [List.append_nil]
    exact ⟨items, ht⟩
  | cons e log ih =>
    rw [StringMap.assigns, List.foldlM_cons] at h
    obtain ⟨t₁, hfirst, hrest⟩ := Option.bind_eq_some_iff.1 h
    obtain ⟨items₁, ht₁⟩ := ht.assign hnames hbefore (hlog e List.mem_cons_self) hfirst
    have hboth := ih ht₁ (fun d hd => (List.mem_append.1 hd).elim (hbefore d) fun hd => by
      rw [List.mem_singleton.1 hd]
      exact hlog e List.mem_cons_self) (fun d hd => hlog d (List.mem_cons_of_mem e hd)) hrest
    rwa [List.append_assoc, List.singleton_append] at hboth

/-- While every allocation succeeds a run has a result. -/
theorem Sound.assigns_isSome {size : ℕ} (hsize : size ≠ 0) {t : StringMap α} {items : List Ptr}
    (ht : t.Sound items) (hm : t.mem.Unfailing) (log : List (CString × α)) :
    ∃ t', t.assigns size log = some t' := by
  induction log generalizing t items with
  | nil => exact ⟨t, rfl⟩
  | cons e log ih =>
    obtain ⟨t₁, hfirst, hm₁⟩ := ht.assign_isSome hm hsize e.1 e.1 e.2
    obtain ⟨items₁, ht₁⟩ := ht.assign hfirst
    obtain ⟨t', hrest⟩ := ih ht₁ hm₁
    refine ⟨t', ?_⟩
    rw [StringMap.assigns, List.foldlM_cons, hfirst]
    exact hrest

end StringMap

/-! ### Commands -/

section Commands

variable {φ : Type u} {names : CString → Prop} {log : List (CommandEntry φ)}

/-- The registrations, as assignments. -/
def assignments (log : List (CommandEntry φ)) : List (CString × (CString × φ)) :=
  log.map fun e => (e.name, e.desc, e.func)

theorem registerCommands_eq (t : CommandMap φ) (log : List (CommandEntry φ)) :
    registerCommands t log = t.assigns sizeofCommandEntry (assignments log) := by
  rw [registerCommands, StringMap.assigns, assignments, List.foldlM_map]
  rfl

theorem lastRegistered_eq (log : List (CommandEntry φ)) (name : CString) :
    lastRegistered log name = (lastValue (assignments log) name).map fun e => ⟨name, e.1, e.2⟩ := by
  rw [lastRegistered, lastValue, assignments, ← List.map_reverse]
  induction log.reverse with
  | nil => rfl
  | cons e l ih =>
    rw [List.find?_cons, List.map_cons, List.lookup_cons]
    by_cases h : e.name = name
    · subst h
      simp
    · have hbeq : (name == e.name) = false := beq_eq_false_iff_ne.2 fun h' => h h'.symm
      rw [decide_eq_false h, hbeq]
      exact ih

theorem firstOrder_assignments (log : List (CommandEntry φ)) :
    firstOrder (assignments log) = (log.map CommandEntry.name).eraseDups := by
  rw [firstOrder, assignments, List.map_map]
  rfl

/-- A table that holds the registrations lists them. -/
theorem StringMap.Holds.lists {t : CommandMap φ} {items : List Ptr}
    (ht : t.Holds (assignments log) items) (hnames : ToldApart names) (hlog : ∀ e ∈ log, names e.name) :
    ListsRegistered names t log := by
  have hassign : ∀ e ∈ assignments log, names e.1 := fun e he => by
    obtain ⟨d, hd, rfl⟩ := List.mem_map.1 he
    exact hlog d hd
  have hkeys : ∀ p ∈ items, names (t.map.handles p).key := by
    intro p hp
    have hin : (t.map.handles p).key ∈ firstOrder (assignments log) := by
      rw [← ht.keys]
      exact List.mem_map_of_mem hp
    obtain ⟨b, hb⟩ := mem_firstOrder.1 hin
    exact hassign _ hb
  refine ⟨fun name hname => ?_, ?_⟩
  · have hget := ht.get_eq hnames hassign hname
    rw [lastRegistered_eq, ← hget, findCommand, StringMap.get]
    cases hfind : hashFind t.map name with
    | none => rfl
    | some p =>
      rw [Option.bind_some, Option.bind_some, (key_of_hashFind ht.sound.1 hnames hkeys hname hfind).2]
  · rw [foreachCommand, hashIter_eq ht.sound.1, ← firstOrder_assignments, ← ht.keys, List.filterMap_map]
    refine List.filterMap_congr fun p hp => ?_
    rw [Function.comp_apply, lastRegistered_eq, ← ht.entries p hp, Option.map_map]
    rfl

/-- **The commands of the shell.** Over every sequence of registrations the table of commands finds for each
name the command that was last registered under it, and lists the commands in the order of their first
registrations, exactly when no name is taken for another one. -/
theorem listsCommands_iff [Inhabited φ] (names : CString → Prop) :
    ListsCommands φ names ↔ ToldApart names := by
  constructor
  · intro h a ha b hb hsame
    by_contra hne
    have hm : ampleMemory.Unfailing := fun _ => rfl
    have hlog : ∀ e ∈ [(⟨a, a, default⟩ : CommandEntry φ)], names e.name := fun e he => by
      rw [List.mem_singleton.1 he]
      exact ha
    obtain ⟨t, ht⟩ := (h ampleMemory _ hlog).1 hm
    have hfind := ((h ampleMemory _ hlog).2 t ht).find b hb
    -- the one command that was registered is found under the other name
    rw [registerCommands, List.foldlM_cons] at ht
    obtain ⟨t₁, hfirst, hrest⟩ := Option.bind_eq_some_iff.1 ht
    obtain rfl := Option.some.inj hrest
    have hget := StringMap.get_assign_empty hfirst b
    rw [if_pos hsame, StringMap.get] at hget
    obtain ⟨p, hp, hentry⟩ := Option.bind_eq_some_iff.1 hget
    have hnone : lastRegistered [(⟨a, a, default⟩ : CommandEntry φ)] b = none := by
      simp [lastRegistered, hne]
    rw [findCommand, hp, Option.bind_some, hentry, hnone] at hfind
    exact absurd hfind (by simp)
  · intro hnames mem log hlog
    have hsize : sizeofCommandEntry ≠ 0 := by decide
    refine ⟨fun hm => ?_, fun t ht => ?_⟩
    · rw [registerCommands_eq]
      exact (StringMap.sound_empty mem).assigns_isSome hsize hm _
    · rw [registerCommands_eq] at ht
      obtain ⟨items, hholds⟩ := (StringMap.holds_empty mem).assigns hnames
        (fun e he => absurd he List.not_mem_nil) (fun e he => by
          obtain ⟨d, hd, rfl⟩ := List.mem_map.1 he
          exact hlog d hd) ht
      exact StringMap.Holds.lists hholds hnames hlog

/-- `yuvk` and `iqij` have one hash value, and no byte of the former is smaller. -/
example : ComparesEqual (.ofBytes [121, 117, 118, 107]) (.ofBytes [105, 113, 105, 106]) := by
  decide +kernel

/-- The names under which `my_own_os_init`, `fs_init` and `dfs_init` register commands. -/
def kernelCommands : List CString :=
  [.ofBytes [104, 101, 108, 112], .ofBytes [109, 107, 100, 105, 114], .ofBytes [99, 100],
    .ofBytes [114, 109, 100, 105, 114], .ofBytes [116, 111, 117, 99, 104],
    .ofBytes [119, 114, 105, 116, 101], .ofBytes [99, 97, 116], .ofBytes [108, 115],
    .ofBytes [112, 119, 100], .ofBytes [114, 109],
    .ofBytes [98, 97, 99, 107, 115, 112, 97, 99, 101], .ofBytes [108, 115, 98, 108, 107],
    .ofBytes [109, 111, 117, 110, 116], .ofBytes [117, 109, 111, 117, 110, 116],
    .ofBytes [109, 107, 102, 115, 46, 100, 102, 115]]

example : ToldApart (· ∈ kernelCommands) := by
  unfold ToldApart
  decide +kernel

end Commands

/-! ### Variables -/

theorem envName_eq_iff (name : CString) : envName name = name ↔ name.chars.length ≤ 63 := by
  rw [← CString.chars_injective.eq_iff, envName]
  constructor
  · intro h
    rw [← h]
    exact List.length_take_le 63 _
  · exact List.take_of_length_le

theorem lastValue_map {κ : Type u} [DecidableEq κ] {α β : Type*} (f : α → β) (log : List (κ × α))
    (k : κ) : lastValue (log.map fun e => (e.1, f e.2)) k = (lastValue log k).map f := by
  rw [lastValue, lastValue, ← List.map_reverse]
  induction log.reverse with
  | nil => rfl
  | cons e l ih =>
    rw [List.map_cons, List.lookup_cons, List.lookup_cons]
    cases k == e.1 with
    | true => rfl
    | false => exact ih

/-- Short names are stored as they are. -/
theorem envSets_eq {log : List (CString × CString)} (hlog : ∀ e ∈ log, e.1.chars.length ≤ 63)
    (t : EnvMap) : envSets t log = t.assigns sizeofEnvVar (log.map fun e => (e.1, envValue e.2)) := by
  induction log generalizing t with
  | nil => rfl
  | cons e log ih =>
    have hname : envName e.1 = e.1 := (envName_eq_iff e.1).2 (hlog e List.mem_cons_self)
    have hrest : ∀ d ∈ log, d.1.chars.length ≤ 63 := fun d hd => hlog d (List.mem_cons_of_mem e hd)
    rw [envSets, StringMap.assigns, List.foldlM_cons, List.map_cons, List.foldlM_cons, envSet, hname]
    exact congrArg _ (funext fun t₁ => ih hrest t₁)

/-- **The environment.** Over every sequence of `env_set` each name has the value it was last set
to, cut to 255 characters, exactly when no name is longer than 63 characters and none is taken for another
one. -/
theorem actsAsMap_iff (names : CString → Prop) :
    ActsAsMap names ↔ ToldApart names ∧ ∀ name, names name → name.chars.length ≤ 63 := by
  constructor
  · intro h
    -- a table with one variable already decides which names must differ, and how long they may be
    have hone : ∀ a, names a → ∀ b, names b →
        (if ComparesEqual (envName a) b then some (envValue a) else none) =
          (lastValue [(a, a)] b).map envValue := by
      intro a ha b hb
      have hm : ampleMemory.Unfailing := fun _ => rfl
      have hlog : ∀ e ∈ [(a, a)], names e.1 := fun e he => by
        rw [List.mem_singleton.1 he]
        exact ha
      obtain ⟨t, ht⟩ := (h ampleMemory _ hlog).1 hm
      rw [← (h ampleMemory _ hlog).2 t ht b hb]
      rw [envSets, List.foldlM_cons] at ht
      obtain ⟨t₁, hfirst, hrest⟩ := Option.bind_eq_some_iff.1 ht
      obtain rfl := Option.some.inj hrest
      exact (StringMap.get_assign_empty hfirst b).symm
    have hshort : ∀ a, names a → a.chars.length ≤ 63 := by
      intro a ha
      -- a name cut to 63 characters no longer answers to itself
      have hself := hone a ha a ha
      rw [show lastValue [(a, a)] a = some a from lastValue_append_self [] a a] at hself
      split_ifs at hself with hsame
      · rw [← hsame.2.1]
        exact List.length_take_le 63 _
      · exact absurd hself (by simp)
    refine ⟨fun a ha b hb hsame => ?_, hshort⟩
    by_contra hne
    have hother := hone a ha b hb
    have hbne : b ≠ a := fun h => hne h.symm
    rw [(envName_eq_iff a).2 (hshort a ha), if_pos hsame,
      show lastValue [(a, a)] b = none from lastValue_append_of_ne [] hbne a] at hother
    exact absurd hother (by simp)
  · rintro ⟨hnames, hshort⟩ mem log hlog
    have hsize : sizeofEnvVar ≠ 0 := by decide
    have hstored : ∀ e ∈ log.map fun e => (e.1, envValue e.2), names e.1 := fun e he => by
      obtain ⟨d, hd, rfl⟩ := List.mem_map.1 he
      exact hlog d hd
    rw [envSets_eq fun e he => hshort e.1 (hlog e he)]
    refine ⟨fun hm => (StringMap.sound_empty mem).assigns_isSome hsize hm _, fun t ht name hname => ?_⟩
    obtain ⟨items, hholds⟩ := (StringMap.holds_empty mem).assigns hnames
      (fun e he => absurd he List.not_mem_nil) hstored ht
    rw [envGet, StringMap.Holds.get_eq hholds hnames hstored hname, List.nil_append, lastValue_map]

end LittleLinux
