import LittleLinux.Shell.CommandLine

/-!
# Environment variables in arguments

`my_os_command_run` replaces every argument `$VAR` by the value of `VAR`, in place: whatever the
length of the value, `my_os_command_expand_env_var` stores 256 bytes from the start of the argument
on. The arguments stand next to each other in one line of 512 bytes, and the name of the command in
a copy of 64.

`expandsOnly_iff` says when an expansion touches nothing else: its 256 bytes have to be inside the
line and free of later arguments, except those that read the same in the value as they did before.
The environment is a map from names to strings of at most 255 characters.
-/

namespace LittleLinux

universe u

/-- The size of `buffer` in `my_own_os_main`. -/
def lineSize : ℕ := 512

/-- The environment, through `env_get`. -/
abbrev Env := CString → Option CString

/-- `my_os_command_expand_env_var`, of the argument at `p`. The name of the variable is read with a
bound `n` on its length. -/
def expandEnvVar (env : Env) (n : ℕ) (m : ByteMemory) (p outSize : ℕ) : ByteMemory :=
  if m p ≠ 36 then m
  else
    match env (stringAt m (p + 1) n) with
    | some value => Function.update (strncpy m p value.chars (outSize - 1)) (p + (outSize - 1)) 0
    | none => m

/-- The addresses it stores to. -/
def expandStores (env : Env) (n : ℕ) (m : ByteMemory) (p outSize : ℕ) : List ℕ :=
  if m p ≠ 36 then []
  else
    match env (stringAt m (p + 1) n) with
    | some _ => List.range' p outSize
    | none => []

/-- The loop of `my_os_command_run` over the arguments in the line. -/
def expandArgs (env : Env) (n : ℕ) (m : ByteMemory) (argv : List ℕ) : ByteMemory :=
  argv.foldl (fun m p => expandEnvVar env n m p 256) m

/-! ### What the command should see -/

/-- The value of `VAR`, when the word is `$VAR` and `VAR` is defined. -/
def valueOf (env : Env) : List UInt8 → Option (List UInt8)
  | [] => none
  | c :: name => if c = 36 then (env (CString.ofBytes name)).map CString.chars else none

/-- The word as the command should see it. -/
def expanded (env : Env) (w : List UInt8) : List UInt8 := (valueOf env w).getD w

/-- The command sees every word expanded, no expansion changes another argument, and all stores
are inside the line. -/
structure ExpandsOnly {φ : Type u} (env : Env) (n : ℕ) (call : CommandCall φ) (name : List UInt8)
    (args : List (List UInt8)) : Prop where
  seenName : HoldsString (expandEnvVar env n call.name 0 256) 0 (expanded env name)
  seen : List.Forall₂ (HoldsString (expandArgs env n call.text call.argv)) call.argv
    (args.map (expanded env))
  alone : ∀ before p after, call.argv = before ++ p :: after → ∀ q ∈ before ++ after, ∀ s,
    HoldsString (expandArgs env n call.text before) q s →
      HoldsString (expandArgs env n call.text (before ++ [p])) q s
  insideName : expandStores env n call.name 0 256 = []
  inside : ∀ before p after, call.argv = before ++ p :: after →
    ∀ x ∈ expandStores env n (expandArgs env n call.text before) p 256, x < lineSize

/-- An argument that is expanded leaves a later one alone: the later one is beyond the 256 bytes, or
it is the end of the value that is put there, and is not changed by its own expansion. -/
def LeavesAlone (env : Env) (a b : ℕ × List UInt8) : Prop :=
  ∀ v, valueOf env a.2 = some v → b.1 < a.1 + 256 →
    v.drop (b.1 - a.1) = b.2 ∧ expanded env b.2 = b.2

/-- The condition on the words of a line and on where they stand. -/
structure ExpandsApart (env : Env) (name : List UInt8) (args : List (ℕ × List UInt8)) : Prop where
  name : valueOf env name = none
  room : ∀ a ∈ args, (valueOf env a.2).isSome → a.1 + 256 ≤ lineSize
  apart : args.Pairwise (LeavesAlone env)

/-! ### One expansion -/

section Expand

variable {env : Env} {n p q : ℕ} {m : ByteMemory} {w u v : List UInt8}

theorem apply_of_holds (h : HoldsString m p w) : m p = w.headD 0 := by
  have hfirst := h.apply_eq_getD (Nat.zero_le _)
  rw [add_zero] at hfirst
  rw [hfirst]
  cases w <;> rfl

theorem valueOf_eq_some_iff :
    valueOf env w = some v ↔ ∃ name value, w = 36 :: name ∧
      env (CString.ofBytes name) = some value ∧ value.chars = v := by
  cases w with
  | nil => simp [valueOf]
  | cons c name =>
    rw [valueOf]
    split_ifs with hc <;> simp [hc]

/-- The name of the variable is the rest of the word. -/
theorem env_stringAt {name : List UInt8} (h : HoldsString m p (36 :: name)) (hn : name.length < n) :
    (env (stringAt m (p + 1) n)).map CString.chars = valueOf env (36 :: name) := by
  have hname : HoldsString m (p + 1) name := by simpa using h.drop (d := 1) (by simp)
  have hstring := stringAt_of_holds (s := ⟨name, hname.noNul⟩) hname hn
  have hbytes := CString.ofBytes_chars ⟨name, hname.noNul⟩
  rw [hstring, valueOf, if_pos rfl]
  exact congrArg (fun s => (env s).map CString.chars) hbytes.symm

/-- A word without a value stays, and nothing is stored. -/
theorem expandEnvVar_of_eq_none (h : HoldsString m p w) (hn : w.length ≤ n)
    (hv : valueOf env w = none) :
    expandEnvVar env n m p 256 = m ∧ expandStores env n m p 256 = [] := by
  have hp := apply_of_holds h
  unfold expandEnvVar expandStores
  by_cases hdollar : m p ≠ 36
  · rw [if_pos hdollar, if_pos hdollar]
    exact ⟨rfl, rfl⟩
  rw [if_neg hdollar, if_neg hdollar]
  rw [not_not] at hdollar
  cases w with
  | nil => exact absurd (hp.symm.trans hdollar) (by decide)
  | cons c name =>
    obtain rfl : c = 36 := hp.symm.trans hdollar
    have hnone : (env (stringAt m (p + 1) n)).map CString.chars = valueOf env (36 :: name) :=
      env_stringAt h (by simpa using hn)
    rw [hv, Option.map_eq_none_iff] at hnone
    rw [hnone]
    exact ⟨rfl, rfl⟩

/-- A word with a value is replaced by it, with zeros up to 256 bytes. -/
theorem expandEnvVar_of_eq_some (hvalues : ∀ name value, env name = some value →
    value.chars.length ≤ 255) (h : HoldsString m p w) (hn : w.length ≤ n)
    (hv : valueOf env w = some v) :
    expandEnvVar env n m p 256 = m.putBytes p 256 (fun j => v.getD j 0) ∧
      expandStores env n m p 256 = List.range' p 256 ∧ (0 : UInt8) ∉ v ∧ v.length ≤ 255 := by
  obtain ⟨name, value, rfl, -, rfl⟩ := valueOf_eq_some_iff.1 hv
  have hdollar : ¬m p ≠ 36 := not_not.2 (apply_of_holds h)
  have hsome : (env (stringAt m (p + 1) n)).map CString.chars = _ :=
    env_stringAt h (by simpa using hn)
  rw [hv, Option.map_eq_some_iff] at hsome
  obtain ⟨value', hvalue, hchars⟩ := hsome
  rw [← hchars]
  have hlen := hvalues _ _ hvalue
  unfold expandEnvVar expandStores
  rw [if_neg hdollar, if_neg hdollar, hvalue]
  refine ⟨?_, rfl, value'.noNul, hlen⟩
  funext x
  dsimp only
  rw [strncpy_eq_putBytes]
  by_cases hx : x = p + 255
  · subst hx
    rw [show p + (256 - 1) = p + 255 by rfl, Function.update_self,
      ByteMemory.putBytes_of_mem (by omega) (by omega), List.getD_eq_default _ _ (by omega)]
  · rw [Function.update_of_ne (by omega)]
    by_cases hin : p ≤ x ∧ x < p + 255
    · rw [ByteMemory.putBytes_of_mem hin.1 (by omega), ByteMemory.putBytes_of_mem hin.1 (by omega)]
    · rw [ByteMemory.putBytes_of_notMem (by omega), ByteMemory.putBytes_of_notMem (by omega)]

/-- The value stands where the argument stood. -/
theorem holds_putBytes (hv : (0 : UInt8) ∉ v) (hlen : v.length ≤ 255) :
    HoldsString (m.putBytes p 256 fun j => v.getD j 0) p v :=
  HoldsString.of_getD hv fun i hi => ByteMemory.putBytes_add (by omega)

/-- A later argument survives beyond the stored bytes, or as the end of the value. -/
theorem survives_later_iff (hv : (0 : UInt8) ∉ v) (hlen : v.length ≤ 255)
    (h : HoldsString m q u) (hu : u ≠ []) (hpq : p ≤ q) :
    HoldsString (m.putBytes p 256 fun j => v.getD j 0) q u ↔
      (q < p + 256 → v.drop (q - p) = u) := by
  by_cases hq : q < p + 256
  · have hvalue := holds_putBytes (m := m) (p := p) hv hlen
    obtain ⟨d, rfl⟩ := Nat.exists_eq_add_of_le hpq
    rw [Nat.add_sub_cancel_left]
    by_cases hd : d ≤ v.length
    · have hrest := hvalue.drop hd
      refine ⟨fun hq' _ => hrest.unique hq', fun hdrop => ?_⟩
      rwa [hdrop hq] at hrest
    · have hzero : (m.putBytes p 256 fun j => v.getD j 0) (p + d) = 0 := by
        rw [ByteMemory.putBytes_add (by omega), List.getD_eq_default _ _ (by omega)]
      have hnil : v.drop d = [] := List.drop_eq_nil_of_le (by omega)
      rw [hnil]
      refine iff_of_false (fun hq' => ?_) fun hdrop => hu (hdrop hq).symm
      exact hu (List.eq_nil_of_length_eq_zero
        (Nat.le_zero.1 (hq'.length_le (n := 0) (by rwa [add_zero]))))
  · refine ⟨fun _ hlt => absurd hlt hq, fun _ => h.congr fun i _ => ?_⟩
    exact ByteMemory.putBytes_of_notMem (by omega)

/-- An earlier argument survives when it ends before the stored bytes, or when they are what stood
there. -/
theorem survives_earlier_iff (hv : (0 : UInt8) ∉ v) (hlen : v.length ≤ 255)
    (hw : HoldsString m p w) (h : HoldsString m q u) (hqp : q < p) :
    HoldsString (m.putBytes p 256 fun j => v.getD j 0) q u ↔ (p ≤ q + u.length → v = w) := by
  by_cases hp : p ≤ q + u.length
  · have hvalue := holds_putBytes (m := m) (p := p) hv hlen
    have hd : p - q ≤ u.length := by omega
    have hdrop : HoldsString m p (u.drop (p - q)) := by
      have hrest := h.drop hd
      rwa [show q + (p - q) = p by omega] at hrest
    have hsame := hdrop.unique hw
    constructor
    · intro hq _
      have hrest := hq.drop hd
      rw [show q + (p - q) = p by omega, hsame] at hrest
      exact hvalue.unique hrest
    · intro heq
      refine h.of_drop hd (fun i hi => ByteMemory.putBytes_of_notMem (by omega)) ?_
      rw [show q + (p - q) = p by omega, hsame, ← heq hp]
      exact hvalue
  · refine ⟨fun _ hle => absurd hle hp, fun _ => h.congr fun i hi => ?_⟩
    exact ByteMemory.putBytes_of_notMem (by omega)

end Expand

/-! ### All arguments -/

section Args

variable {env : Env} {n : ℕ} {m : ByteMemory} {args before after : List (ℕ × List UInt8)}
  {a : ℕ × List UInt8} {v : List UInt8}

/-- The arguments before have been expanded, those after have not. -/
structure Stands (env : Env) (m : ByteMemory) (before after : List (ℕ × List UInt8)) : Prop where
  before : ∀ b ∈ before, HoldsString m b.1 (expanded env b.2)
  after : ∀ b ∈ after, HoldsString m b.1 b.2

/-- The arguments are words that stand one after the other. -/
structure Separated (n : ℕ) (args : List (ℕ × List UInt8)) : Prop where
  words : ∀ a ∈ args, a.2 ≠ [] ∧ a.2.length ≤ n
  apart : args.Pairwise fun a b => a.1 + a.2.length < b.1

/-- The expansion of an argument changes no other one. -/
def StepAlone (env : Env) (n : ℕ) (m : ByteMemory) (a : ℕ × List UInt8)
    (others : List (ℕ × List UInt8)) : Prop :=
  ∀ b ∈ others, ∀ s, HoldsString m b.1 s → HoldsString (expandEnvVar env n m a.1 256) b.1 s

/-- The memory after the expansion of some of the arguments. -/
def runArgs (env : Env) (n : ℕ) (m : ByteMemory) (args : List (ℕ × List UInt8)) : ByteMemory :=
  expandArgs env n m (args.map Prod.fst)

theorem runArgs_concat (before : List (ℕ × List UInt8)) (a : ℕ × List UInt8) :
    runArgs env n m (before ++ [a]) = expandEnvVar env n (runArgs env n m before) a.1 256 := by
  simp only [runArgs, expandArgs, List.map_append, List.map_cons, List.map_nil, List.foldl_append,
    List.foldl_cons, List.foldl_nil]

theorem Separated.lt (h : Separated n (before ++ a :: after)) :
    (∀ b ∈ before, b.1 + b.2.length < a.1) ∧ ∀ b ∈ after, a.1 + a.2.length < b.1 := by
  obtain ⟨-, hrest, hcross⟩ := List.pairwise_append.1 h.apart
  exact ⟨fun b hb => hcross b hb a List.mem_cons_self, (List.pairwise_cons.1 hrest).1⟩

variable (hvalues : ∀ name value, env name = some value → value.chars.length ≤ 255)
include hvalues

/-- When the expansion of a defined `$VAR` changes no other argument. -/
theorem stepAlone_iff (hsep : Separated n (before ++ a :: after))
    (h : Stands env m before (a :: after)) (hv : valueOf env a.2 = some v) :
    StepAlone env n m a (before ++ after) ↔
      (∀ b ∈ after, b.1 < a.1 + 256 → v.drop (b.1 - a.1) = b.2) ∧
        ∀ b ∈ before, a.1 ≤ b.1 + (expanded env b.2).length → v = a.2 := by
  have ha := h.after a List.mem_cons_self
  have hlen := (hsep.words a (by simp)).2
  obtain ⟨heq, -, hnul, hvlen⟩ := expandEnvVar_of_eq_some hvalues ha hlen hv
  obtain ⟨hbefore, hafter⟩ := hsep.lt
  -- an expansion fills 256 bytes from its word on, so the words after it may lose characters
  have hlater : ∀ b ∈ after, HoldsString (expandEnvVar env n m a.1 256) b.1 b.2 ↔
      (b.1 < a.1 + 256 → v.drop (b.1 - a.1) = b.2) := by
    intro b hb
    rw [heq]
    have hlt := hafter b hb
    exact survives_later_iff hnul hvlen (h.after b (List.mem_cons_of_mem a hb))
      (hsep.words b (by simp [hb])).1 (by omega)
  -- an earlier expansion may run into this word, and is overwritten where this one is
  have hearlier : ∀ b ∈ before,
      HoldsString (expandEnvVar env n m a.1 256) b.1 (expanded env b.2) ↔
        (a.1 ≤ b.1 + (expanded env b.2).length → v = a.2) := by
    intro b hb
    rw [heq]
    have hlt := hbefore b hb
    exact survives_earlier_iff hnul hvlen ha (h.before b hb) (by omega)
  constructor
  · intro halone
    refine ⟨fun b hb => (hlater b hb).1 ?_, fun b hb => (hearlier b hb).1 ?_⟩
    · exact halone b (List.mem_append_right _ hb) _ (h.after b (List.mem_cons_of_mem a hb))
    · exact halone b (List.mem_append_left _ hb) _ (h.before b hb)
  · rintro ⟨hlate, hearly⟩ b hb s hs
    obtain hb | hb := List.mem_append.1 hb
    · rw [hs.unique (h.before b hb)]
      exact (hearlier b hb).2 (hearly b hb)
    · rw [hs.unique (h.after b (List.mem_cons_of_mem a hb))]
      exact (hlater b hb).2 (hlate b hb)

/-- An argument that is alone when it is expanded leaves the others where they stand. -/
theorem Stands.step (hsep : Separated n (before ++ a :: after))
    (h : Stands env m before (a :: after)) (halone : StepAlone env n m a (before ++ after)) :
    Stands env (expandEnvVar env n m a.1 256) (before ++ [a]) after := by
  have ha := h.after a List.mem_cons_self
  have hlen := (hsep.words a (by simp)).2
  refine ⟨fun b hb => ?_, fun b hb => ?_⟩
  · obtain hb | hb := List.mem_append.1 hb
    · exact halone b (List.mem_append_left _ hb) _ (h.before b hb)
    · rw [List.mem_singleton.1 hb, expanded]
      cases hv : valueOf env a.2 with
      | none =>
        rw [(expandEnvVar_of_eq_none ha hlen hv).1]
        exact ha
      | some v =>
        obtain ⟨heq, -, hnul, hvlen⟩ := expandEnvVar_of_eq_some hvalues ha hlen hv
        rw [heq]
        exact holds_putBytes hnul hvlen
  · exact halone b (List.mem_append_right _ hb) _ (h.after b (List.mem_cons_of_mem a hb))

/-- All along the loop, the arguments stand as long as every expansion is alone. -/
theorem stands_of_alone (hsep : Separated n args) (h : ∀ a ∈ args, HoldsString m a.1 a.2)
    (halone : ∀ before a after, args = before ++ a :: after →
      Stands env (runArgs env n m before) before (a :: after) →
      StepAlone env n (runArgs env n m before) a (before ++ after)) :
    ∀ before after, args = before ++ after →
      Stands env (runArgs env n m before) before after := by
  intro before
  induction before using List.reverseRecOn with
  | nil =>
    rintro after rfl
    exact ⟨by simp, h⟩
  | append_singleton before a ih =>
    intro after hsplit
    rw [List.append_assoc, List.singleton_append] at hsplit
    have hstands := ih (a :: after) hsplit
    rw [runArgs_concat]
    exact hstands.step hvalues (hsplit ▸ hsep) (halone before a after hsplit hstands)

/-- Arguments that are left alone by the earlier ones are expanded alone. -/
theorem stepAlone_of_apart (hsep : Separated n (before ++ a :: after))
    (hapart : (before ++ a :: after).Pairwise (LeavesAlone env))
    (h : Stands env m before (a :: after)) : StepAlone env n m a (before ++ after) := by
  obtain ⟨-, hrest, hcross⟩ := List.pairwise_append.1 hapart
  have hlen := (hsep.words a (by simp)).2
  cases hv : valueOf env a.2 with
  | none =>
    intro b _ s hs
    rwa [(expandEnvVar_of_eq_none (h.after a List.mem_cons_self) hlen hv).1]
  | some v =>
    refine (stepAlone_iff hvalues hsep h hv).2 ⟨fun b hb hlt => ?_, fun b hb hle => ?_⟩
    · exact ((List.pairwise_cons.1 hrest).1 b hb v hv hlt).1
    · -- an earlier value that reaches this argument keeps it from changing
      have hlt := hsep.lt.1 b hb
      unfold expanded at hle
      cases hb' : valueOf env b.2 with
      | none =>
        rw [hb', Option.getD_none] at hle
        omega
      | some u =>
        rw [hb', Option.getD_some] at hle
        obtain ⟨name, value, -, hvalue, rfl⟩ := valueOf_eq_some_iff.1 hb'
        have hulen := hvalues _ _ hvalue
        have hsame := (hcross b hb a List.mem_cons_self _ hb' (by omega)).2
        rwa [expanded, hv, Option.getD_some] at hsame

/-- Arguments that are all expanded alone leave each other alone. -/
theorem apart_of_stepAlone (hsep : Separated n args)
    (h : ∀ before after, args = before ++ after → Stands env (runArgs env n m before) before after)
    (halone : ∀ before a after, args = before ++ a :: after →
      StepAlone env n (runArgs env n m before) a (before ++ after)) :
    args.Pairwise (LeavesAlone env) := by
  have hpair : ∀ before a between b after, args = before ++ a :: (between ++ b :: after) →
      LeavesAlone env a b := by
    intro before a between b after hsplit v hv hlt
    have hlate := (stepAlone_iff hvalues (hsplit ▸ hsep) (h _ _ hsplit) hv).1
      (halone _ _ _ hsplit)
    have hdrop := hlate.1 b (by simp) hlt
    refine ⟨hdrop, ?_⟩
    -- the later word is inside the value, so its own value has to be itself
    have hsplit' : args = (before ++ a :: between) ++ b :: after := by rw [hsplit]; simp
    unfold expanded
    cases hb : valueOf env b.2 with
    | none => rfl
    | some u =>
      have hearly := (stepAlone_iff hvalues (hsplit' ▸ hsep) (h _ _ hsplit') hb).1
        (halone _ _ _ hsplit')
      refine hearly.2 a (by simp) ?_
      rw [expanded, hv, Option.getD_some]
      by_contra hshort
      have hnil : v.drop (b.1 - a.1) = [] := List.drop_eq_nil_of_le (by omega)
      exact (hsep.words b (by rw [hsplit']; simp)).1 (hdrop.symm.trans hnil)
  have hsuffix : ∀ after before, args = before ++ after → after.Pairwise (LeavesAlone env) := by
    intro after
    induction after with
    | nil => exact fun _ _ => List.Pairwise.nil
    | cons a after ih =>
      intro before hsplit
      refine List.pairwise_cons.2 ⟨fun b hb => ?_, ih (before ++ [a]) (by rw [hsplit]; simp)⟩
      obtain ⟨between, rest, rfl⟩ := List.append_of_mem hb
      exact hpair before a between b rest hsplit
  exact hsuffix args [] rfl

end Args

/-! ### Command lines -/

/-- Arguments that stand in a line are separated. -/
theorem ArgsAt.separated {m : ByteMemory} {lo hi n : ℕ} {ps : List ℕ} {ws : List (List UInt8)}
    (h : ArgsAt m hi lo ps ws) (hn : hi ≤ n) :
    Separated n (ps.zip ws) ∧ ∀ a ∈ ps.zip ws, lo ≤ a.1 ∧ HoldsString m a.1 a.2 := by
  induction h with
  | nil => exact ⟨⟨by simp, by simp⟩, by simp⟩
  | @cons lo p w ps ws hlo hhi hne hw hrest ih =>
    obtain ⟨hsep, hall⟩ := ih
    rw [List.zip_cons_cons]
    refine ⟨⟨fun a ha => ?_, List.pairwise_cons.2 ⟨fun b hb => ?_, hsep.apart⟩⟩, fun a ha => ?_⟩
    · obtain rfl | ha := List.mem_cons.1 ha
      · exact ⟨hne, by dsimp only; omega⟩
      · exact hsep.words a ha
    · have := (hall b hb).1
      dsimp only
      omega
    · obtain rfl | ha := List.mem_cons.1 ha
      · exact ⟨hlo, hw⟩
      · exact ⟨by have := (hall a ha).1; omega, (hall a ha).2⟩

/-- **When environment expansion changes only what it expands.** For every line that
`my_os_command_search` splits: the command sees each word expanded, with no expansion changing
another argument or storing outside the line, exactly when the name of the command is not expanded,
and every argument that is expanded has its 256 bytes inside the line and leaves the later
arguments alone. -/
theorem expandsOnly_iff {φ : Type u} {env : Env} (hvalues : ∀ name value, env name = some value →
      value.chars.length ≤ 255) {findCommand : CString → Option φ} {s : CString}
    {command garbage : ByteMemory} {n : ℕ} {call : CommandCall φ}
    (h : HoldsString command 0 s.chars) (hn : s.chars.length ≤ n)
    (hcall : commandSearch findCommand n command garbage = some call) :
    ExpandsOnly env n call (cmdName s).chars (argWords s) ↔
      ExpandsApart env (cmdName s).chars (call.argv.zip (argWords s)) := by
  obtain ⟨name, argv, text, hsearch, hname, hargsAt⟩ := commandSearch_spec h hn garbage
  rw [hsearch] at hcall
  obtain ⟨cmd, -, rfl⟩ := Option.map_eq_some_iff.1 hcall
  dsimp only
  obtain ⟨hsep, hstart⟩ := hargsAt.separated hn
  have hlength := hargsAt.forall₂.length_eq
  have hnamelen : (cmdName s).chars.length ≤ n := by
    have := List.length_take_le' (nameLength s) s.chars
    exact this.trans hn
  generalize hargs : argv.zip (argWords s) = args at hsep hstart
  have hfst : argv = args.map Prod.fst := by
    rw [← hargs, List.map_fst_zip hlength.le]
  have hsnd : argWords s = args.map Prod.snd := by
    rw [← hargs, List.map_snd_zip hlength.ge]
  have hholds : ∀ a ∈ args, HoldsString text a.1 a.2 := fun a ha => (hstart a ha).2
  constructor
  · intro hprop
    have halone : ∀ before a after, args = before ++ a :: after →
        StepAlone env n (runArgs env n text before) a (before ++ after) := by
      intro before a after hsplit b hb u hu
      have hargv : argv = before.map Prod.fst ++ a.1 :: after.map Prod.fst := by
        rw [hfst, hsplit, List.map_append, List.map_cons]
      have hmem : b.1 ∈ before.map Prod.fst ++ after.map Prod.fst := by
        rw [← List.map_append]
        exact List.mem_map_of_mem hb
      have hother := hprop.alone _ _ _ hargv b.1 hmem u hu
      rw [← runArgs_concat, runArgs, List.map_append]
      exact hother
    have hstands := stands_of_alone hvalues hsep hholds fun before a after hsplit _ =>
      halone before a after hsplit
    refine ⟨?_, fun a ha hsome => ?_, apart_of_stepAlone hvalues hsep hstands halone⟩
    · cases hv : valueOf env (cmdName s).chars with
      | none => rfl
      | some v =>
        have hstores := (expandEnvVar_of_eq_some hvalues hname hnamelen hv).2.1
        have hinside := hprop.insideName
        rw [hstores] at hinside
        exact absurd hinside (by decide)
    · obtain ⟨before, after, hsplit⟩ := List.append_of_mem ha
      obtain ⟨v, hv⟩ := Option.isSome_iff_exists.1 hsome
      have hlen := (hsep.words a ha).2
      have hstand := (hstands before (a :: after) hsplit).after a List.mem_cons_self
      have hstores := (expandEnvVar_of_eq_some hvalues hstand hlen hv).2.1
      have hinside := hprop.inside (before.map Prod.fst) a.1 (after.map Prod.fst)
        (by rw [hfst, hsplit, List.map_append, List.map_cons]) (a.1 + 255)
      rw [← runArgs, hstores] at hinside
      have hlast := hinside (List.mem_range'_1.2 (by omega))
      omega
  · intro hapart
    have hstands := stands_of_alone hvalues hsep hholds fun before a after hsplit hstand =>
      stepAlone_of_apart hvalues (hsplit ▸ hsep) (hsplit ▸ hapart.apart) hstand
    -- a split of the positions is a split of the arguments
    have hsplits : ∀ before p after, argv = before ++ p :: after → ∃ before' a after',
        args = before' ++ a :: after' ∧ before'.map Prod.fst = before ∧ a.1 = p ∧
          after'.map Prod.fst = after := by
      intro before p after hsplit
      rw [hfst] at hsplit
      obtain ⟨before', rest, hargs', hbefore, hrest⟩ := List.map_eq_append_iff.1 hsplit
      obtain ⟨a, after', rfl, ha, hafter⟩ := List.map_eq_cons_iff.1 hrest
      exact ⟨before', a, after', hargs', hbefore, ha, hafter⟩
    obtain ⟨hsame, hnone⟩ := expandEnvVar_of_eq_none hname hnamelen hapart.name
    refine ⟨?_, ?_, fun before p after hsplit q hq u hu => ?_, hnone,
      fun before p after hsplit x hx => ?_⟩
    · dsimp only
      rw [hsame, expanded, hapart.name]
      exact hname
    · have hend := hstands args [] (List.append_nil args).symm
      rw [hsnd, hfst, List.map_map, List.forall₂_map_left_iff, List.forall₂_map_right_iff,
        List.forall₂_same]
      exact hend.before
    · obtain ⟨before', a, after', hsplit', rfl, rfl, rfl⟩ := hsplits before p after hsplit
      have hstep := stepAlone_of_apart hvalues (hsplit' ▸ hsep) (hsplit' ▸ hapart.apart)
        (hstands _ _ hsplit')
      rw [← List.map_append] at hq
      obtain ⟨b, hb, rfl⟩ := List.mem_map.1 hq
      have hother := hstep b hb u hu
      rw [← runArgs_concat, runArgs, List.map_append] at hother
      exact hother
    · obtain ⟨before', a, after', hsplit', rfl, rfl, rfl⟩ := hsplits before p after hsplit
      have hmem : a ∈ args := by rw [hsplit']; simp
      have hlen := (hsep.words a hmem).2
      have hstand := (hstands _ _ hsplit').after a List.mem_cons_self
      rw [← runArgs] at hx
      cases hv : valueOf env a.2 with
      | none =>
        rw [(expandEnvVar_of_eq_none hstand hlen hv).2] at hx
        exact absurd hx (by simp)
      | some v =>
        rw [(expandEnvVar_of_eq_some hvalues hstand hlen hv).2.1] at hx
        have hroom := hapart.room a hmem (by simp [hv])
        have := List.mem_range'_1.1 hx
        omega

/-- The environment in which `A` is `x`. -/
def smallEnv : Env := fun name => if name.chars = [65] then some (.ofBytes [120]) else none

theorem smallEnv_values (name value : CString) (h : smallEnv name = some value) :
    value.chars.length ≤ 255 := by
  unfold smallEnv at h
  split_ifs at h
  obtain rfl := Option.some.inj h
  decide

/-- The line `e b $A`. -/
def lastArgLine : CString := .ofBytes [101, 32, 98, 32, 36, 65]

/-- The line `e $A b`. -/
def firstArgLine : CString := .ofBytes [101, 32, 36, 65, 32, 98]

/-- The memory of a line. -/
def lineMemory (s : CString) : ByteMemory := fun x => s.chars.getD x 0

theorem holds_lineMemory (s : CString) : HoldsString (lineMemory s) 0 s.chars :=
  HoldsString.of_getD s.noNul fun i _ => by rw [zero_add, lineMemory]

/-- A variable in the last argument is expanded alone. -/
theorem expandsOnly_last :
    ∃ call, commandSearch (fun _ => some ()) 6 (lineMemory lastArgLine) (fun _ => 7) = some call ∧
      ExpandsOnly smallEnv 6 call [101] [[98], [36, 65]] := by
  obtain ⟨call, hcall⟩ := Option.isSome_iff_exists.1 (show (commandSearch (fun _ => some ()) 6
    (lineMemory lastArgLine) (fun _ => 7)).isSome = true by decide)
  have hargv : (commandSearch (fun _ => some ()) 6 (lineMemory lastArgLine) (fun _ => 7)).map
      CommandCall.argv = some [2, 4] := by decide
  rw [hcall] at hargv
  refine ⟨call, hcall, (expandsOnly_iff smallEnv_values (holds_lineMemory lastArgLine)
    (by decide) hcall).2 ⟨by decide, ?_, ?_⟩⟩
  all_goals rw [Option.some.inj hargv]
  · decide
  · have hnone : valueOf smallEnv [98] = none := by decide
    exact List.pairwise_pair.2 fun v hv => absurd (hnone.symm.trans hv) (by simp)

/-- In `e $A b`, the zeros after the value of `A` go over the argument `b`. -/
theorem expandsOnly_not_next :
    ¬∀ (env : Env), (∀ name value, env name = some value → value.chars.length ≤ 255) →
      ∀ (s : CString) (command garbage : ByteMemory) (n : ℕ) (call : CommandCall Unit),
      s.chars.length ≤ 511 → HoldsString command 0 s.chars → s.chars.length ≤ n →
      commandSearch (fun _ => some ()) n command garbage = some call →
      ExpandsOnly env n call (cmdName s).chars (argWords s) := by
  intro h
  obtain ⟨call, hcall⟩ := Option.isSome_iff_exists.1 (show (commandSearch (fun _ => some ()) 6
    (lineMemory firstArgLine) (fun _ => 7)).isSome = true by decide)
  have hargv : (commandSearch (fun _ => some ()) 6 (lineMemory firstArgLine) (fun _ => 7)).map
      CommandCall.argv = some [2, 5] := by decide
  rw [hcall] at hargv
  have hprop := h smallEnv smallEnv_values firstArgLine _ _ 6 call (by decide)
    (holds_lineMemory firstArgLine) (by decide) hcall
  have hapart := ((expandsOnly_iff smallEnv_values (holds_lineMemory firstArgLine) (by decide)
    hcall).1 hprop).apart
  rw [Option.some.inj hargv] at hapart
  have hpair := List.pairwise_pair.1 hapart [120] (by decide) (by decide)
  exact absurd hpair.1 (by decide)

end LittleLinux
