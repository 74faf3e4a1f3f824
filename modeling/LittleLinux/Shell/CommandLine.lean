import LittleLinux.Lib.Words
import LittleLinux.Libc.StringMemory

/-!
# Command lines

`my_os_command_search` of `Little_Linux.c` takes the first word of a line for the name of a command
and cuts the rest of the line into arguments: it puts a terminator over the space after each word
and collects pointers to the words. There is room for 63 of them after the name.

The line is a memory that holds a string, and a pointer into it is its position. The loops over the
line are given with a bound on their steps, and any bound past the length of the line will do. The
table of commands is a map from names to functions.
-/

namespace LittleLinux

universe u

/-- `MAX_ARGS`. -/
def maxArgs : ℕ := 64

/-- A character of a word: `*p && *p != ' '`. -/
def isWordChar (c : UInt8) : Bool := c ≠ 0 && c ≠ 32

/-- A space. -/
def isSpaceChar (c : UInt8) : Bool := c = 32

/-- What `my_os_command_search` passes to `my_os_command_run`: the command, `cmd_name_copy` as
`argv[0]`, the other elements of `argv` as positions in the line, and the line. -/
structure CommandCall (φ : Type u) where
  cmd : φ
  name : ByteMemory
  argv : List ℕ
  text : ByteMemory

/-- The loop over the arguments, from `p` on and with room for `k` more. -/
def parseArgs (n : ℕ) : ℕ → ℕ → ByteMemory → List ℕ × ByteMemory
  | 0, _, m => ([], m)
  | k + 1, p, m =>
    if m p = 0 then ([], m)
    else
      let q := skipWhile isWordChar m n p
      if m q = 32 then
        let m := Function.update m q 0
        let r := parseArgs n k (skipWhile isSpaceChar m n (q + 1)) m
        (p :: r.1, r.2)
      else
        let r := parseArgs n k q m
        (p :: r.1, r.2)

/-- `my_os_command_search`, up to the call of `my_os_command_run`; `none` when there is no such
command. The local array `cmd_name_copy` holds `garbage` at first. -/
def commandSearch {φ : Type u} (findCommand : CString → Option φ) (n : ℕ)
    (command garbage : ByteMemory) : Option (CommandCall φ) :=
  let cmdLen := skipWhile isWordChar command n 0
  let cmdLen := if cmdLen ≥ 64 then 63 else cmdLen
  let cmdName := CString.ofBytes ((List.range cmdLen).map command)
  match findCommand cmdName with
  | none => none
  | some cmd =>
    let name := Function.update (garbage.putBytes 0 cmdLen command) cmdLen 0
    let r := parseArgs n (maxArgs - 1) (skipWhile isSpaceChar command n cmdLen) command
    some ⟨cmd, name, r.1, r.2⟩

/-! ### Words of a line -/

/-- The part of a line before its first space. -/
def firstWord (s : CString) : CString where
  chars := s.chars.takeWhile (· ≠ 32)
  noNul := fun h => s.noNul (List.takeWhile_subset _ h)

/-- The words of a line after the first. -/
def furtherWords (s : CString) : List (List UInt8) := words 32 (s.chars.dropWhile (· ≠ 32))

/-- How much of the line is the name of the command: the first word, up to 63 characters. -/
def nameLength (s : CString) : ℕ :=
  if (firstWord s).chars.length ≥ 64 then 63 else (firstWord s).chars.length

/-- The name of the command, as `my_os_command_search` looks it up. -/
def cmdName (s : CString) : CString where
  chars := s.chars.take (nameLength s)
  noNul := fun h => s.noNul (List.mem_of_mem_take h)

/-- The words it makes arguments of. -/
def argWords (s : CString) : List (List UInt8) := (words 32 (s.chars.drop (nameLength s))).take 63

/-- The arguments stand one after the other between `lo` and `hi`, each with its terminator. -/
inductive ArgsAt (m : ByteMemory) (hi : ℕ) : ℕ → List ℕ → List (List UInt8) → Prop
  | nil {lo : ℕ} : ArgsAt m hi lo [] []
  | cons {lo p : ℕ} {w : List UInt8} {ps : List ℕ} {ws : List (List UInt8)} (hlo : lo ≤ p)
      (hhi : p + w.length ≤ hi) (hne : w ≠ []) (hw : HoldsString m p w)
      (hrest : ArgsAt m hi (p + w.length + 1) ps ws) : ArgsAt m hi lo (p :: ps) (w :: ws)

namespace ArgsAt

variable {m : ByteMemory} {lo lo' hi hi' : ℕ} {ps : List ℕ} {ws : List (List UInt8)}

theorem forall₂ (h : ArgsAt m hi lo ps ws) : List.Forall₂ (HoldsString m) ps ws := by
  induction h with
  | nil => exact .nil
  | cons _ _ _ hw _ ih => exact .cons hw ih

theorem mono (h : ArgsAt m hi lo ps ws) (hlo : lo' ≤ lo) (hhi : hi ≤ hi') :
    ArgsAt m hi' lo' ps ws := by
  induction h generalizing lo' with
  | nil => exact .nil
  | cons hlo' hhi' hne hw _ ih =>
    exact .cons (hlo.trans hlo') (hhi'.trans hhi) hne hw (ih le_rfl)

end ArgsAt

/-! ### Cutting the line -/

section Cut

variable {m : ByteMemory} {n k p : ℕ} {test : UInt8 → Bool} {w tail rest : List UInt8}

/-- A loop over the characters before the first one that fails the test. -/
theorem skipWhile_append (h : HoldsString m p (w ++ tail)) (hw : ∀ c ∈ w, test c = true)
    (hend : test (tail.headD 0) = false) (hn : (w ++ tail).length ≤ n) :
    skipWhile test m n p = p + w.length := by
  rw [List.length_append] at hn
  refine skipWhile_eq (fun i hi => ?_) hw ?_ (by omega)
  · rw [h.chars i (by rw [List.length_append]; omega), List.getElem_append_left hi]
  · have hfirst := h.append.apply_eq_getD (Nat.zero_le _)
    rw [add_zero] at hfirst
    rw [hfirst]
    cases tail <;> exact hend

/-- The first word, and what follows: nothing, or a space and more. -/
theorem exists_word (rest : List UInt8) :
    ∃ w tail, rest = w ++ tail ∧ w = rest.takeWhile (· ≠ 32) ∧ tail = rest.dropWhile (· ≠ 32) ∧
      (32 : UInt8) ∉ w ∧ (tail = [] ∨ ∃ more, tail = 32 :: more) := by
  refine ⟨_, _, List.takeWhile_append_dropWhile.symm, rfl, rfl, fun h => ?_, ?_⟩
  · simpa using List.mem_takeWhile_imp h
  · have hhead := List.head?_dropWhile_not (· ≠ (32 : UInt8)) rest
    cases htail : rest.dropWhile (· ≠ (32 : UInt8)) with
    | nil => exact Or.inl rfl
    | cons c more =>
      rw [htail] at hhead
      have hc : c = 32 := by simpa using hhead
      exact Or.inr ⟨more, by rw [hc]⟩

/-- The spaces at the front, and what follows them. -/
theorem exists_spaces (rest : List UInt8) :
    ∃ spaces tail, rest = spaces ++ tail ∧ (∀ c ∈ spaces, c = 32) ∧ tail.head? ≠ some 32 := by
  refine ⟨_, _, (List.takeWhile_append_dropWhile (p := isSpaceChar)).symm, fun c hc => ?_, fun h => ?_⟩
  · simpa [isSpaceChar] using List.mem_takeWhile_imp hc
  · have hhead := List.head?_dropWhile_not isSpaceChar rest
    rw [h] at hhead
    simp [isSpaceChar] at hhead

theorem isWordChar_of_notMem {c : UInt8} (hc : c ∈ w) (hzero : (0 : UInt8) ∉ w)
    (hspace : (32 : UInt8) ∉ w) : isWordChar c = true := by
  have hne : c ≠ 0 := fun h => hzero (h ▸ hc)
  have hne' : c ≠ 32 := fun h => hspace (h ▸ hc)
  simp [isWordChar, hne, hne']

/-- The loop `while (*p == ' ') p++` ends before the next word. -/
theorem skipWhile_spaces (h : HoldsString m p rest) (hn : rest.length ≤ n) :
    ∃ tail, HoldsString m (skipWhile isSpaceChar m n p) tail ∧ p ≤ skipWhile isSpaceChar m n p ∧
      skipWhile isSpaceChar m n p + tail.length = p + rest.length ∧
      words 32 tail = words 32 rest ∧ tail.head? ≠ some 32 := by
  obtain ⟨spaces, tail, rfl, hspaces, hhead⟩ := exists_spaces rest
  have hend : isSpaceChar (tail.headD 0) = false := by
    cases tail with
    | nil => rfl
    | cons c tail =>
      have hc : c ≠ 32 := fun hc => hhead (by rw [hc]; rfl)
      simpa [isSpaceChar] using hc
  rw [skipWhile_append h (fun c hc => by simp [isSpaceChar, hspaces c hc]) hend hn]
  refine ⟨tail, h.append, Nat.le_add_right p _, ?_, ?_, hhead⟩
  · rw [List.length_append, add_assoc]
  · exact (words_append_of_forall_sep hspaces tail).symm

/-- The loop over a word ends at the space or the terminator behind it. -/
theorem skipWhile_word (h : HoldsString m p (w ++ tail)) (hspace : (32 : UInt8) ∉ w)
    (htail : tail = [] ∨ ∃ more, tail = 32 :: more) (hn : (w ++ tail).length ≤ n) :
    skipWhile isWordChar m n p = p + w.length := by
  have hzero : (0 : UInt8) ∉ w := fun hmem => h.noNul (List.mem_append_left _ hmem)
  refine skipWhile_append h (fun c hc => isWordChar_of_notMem hc hzero hspace) ?_ hn
  obtain rfl | ⟨more, rfl⟩ := htail <;> rfl

theorem parseArgs_of_nul (h : m p = 0) : parseArgs n k p m = ([], m) := by
  cases k with
  | zero => rfl
  | succ k => rw [parseArgs, if_pos h]

/-- **The words become the arguments.** Cutting a string from its first word on gives the words,
as many as there is room for, one after the other, and stores nothing outside the string. -/
theorem parseArgs_words (h : HoldsString m p rest) (hn : rest.length ≤ n)
    (hstart : rest.head? ≠ some 32) :
    ArgsAt (parseArgs n k p m).2 (p + rest.length) p (parseArgs n k p m).1
        ((words 32 rest).take k) ∧
      ∀ x, x < p ∨ p + rest.length ≤ x → (parseArgs n k p m).2 x = m x := by
  induction k generalizing p m rest with
  | zero => exact ⟨.nil, fun x _ => rfl⟩
  | succ k ih =>
    obtain ⟨w, tail, rfl, -, -, hspace, htail⟩ := exists_word rest
    cases w with
    | nil =>
      -- no word at all: the string is empty
      obtain rfl | ⟨more, rfl⟩ := htail
      · have hzero : m p = 0 := h.nul
        rw [parseArgs_of_nul hzero]
        exact ⟨by rw [List.nil_append, words_nil, List.take_nil]; exact .nil, fun x _ => rfl⟩
      · exact absurd rfl hstart
    | cons c w =>
      have hq := skipWhile_word h hspace htail hn
      have hc : m p ≠ 0 := by
        have hfirst := h.chars 0 (by simp)
        rw [add_zero] at hfirst
        rw [hfirst]
        exact h.getElem_ne_zero _
      have hne : c :: w ≠ [] := List.cons_ne_nil c w
      have hword : ∀ m' : ByteMemory, (∀ x, p ≤ x → x < p + (c :: w).length → m' x = m x) →
          m' (p + (c :: w).length) = 0 → HoldsString m' p (c :: w) := by
        intro m' hsame hnul
        refine ⟨fun hmem => h.noNul (List.mem_append_left _ hmem), fun i hi => ?_, hnul⟩
        rw [hsame _ (by omega) (by omega), h.chars i (by rw [List.length_append]; omega),
          List.getElem_append_left hi]
      rw [parseArgs, if_neg hc, hq]
      dsimp only
      obtain rfl | ⟨more, rfl⟩ := htail
      · -- the last word ends at the terminator
        have hnul : m (p + (c :: w).length) = 0 := h.append.nul
        rw [List.append_nil] at h hn ⊢
        rw [if_neg (by rw [hnul]; decide), parseArgs_of_nul hnul, words_eq_singleton hne hspace,
          List.take_succ_cons, List.take_nil]
        exact ⟨.cons le_rfl le_rfl hne (hword m (fun x _ _ => rfl) hnul) .nil, fun x _ => rfl⟩
      · -- a terminator is put over the space, and the next word is found
        have hblank : m (p + (c :: w).length) = 32 := by
          have hfirst := h.append.chars 0 (by simp)
          rwa [add_zero] at hfirst
        rw [if_pos hblank]
        set q := p + (c :: w).length with hqdef
        set m' := Function.update m q 0 with hm'
        have hsame : ∀ x, x ≠ q → m' x = m x := fun x hx => Function.update_of_ne hx _ _
        have hmore : HoldsString m' (q + 1) more := by
          have hrest := h.append.drop (d := 1) (by simp)
          exact hrest.congr fun i _ => hsame _ (by omega)
        rw [List.length_append, List.length_cons (a := (32 : UInt8))] at hn
        obtain ⟨next, hnext, hle, hlen, hwords, hhead⟩ := skipWhile_spaces (n := n) hmore (by omega)
        obtain ⟨hargs, hframe⟩ := ih hnext (by omega) hhead
        have hend : skipWhile isSpaceChar m' n (q + 1) + next.length =
            p + (c :: w ++ 32 :: more).length := by
          rw [hlen, List.length_append, List.length_cons (a := (32 : UInt8))]
          omega
        rw [hend] at hargs hframe
        rw [words_word_sep hne hspace, List.take_succ_cons, ← hwords]
        refine ⟨.cons le_rfl ?_ hne ?_ (hargs.mono (by omega) le_rfl), fun x hx => ?_⟩
        · rw [List.length_append]
          omega
        · refine hword _ (fun x hx hlt => ?_) ?_
          · rw [hframe x (Or.inl (by omega)), hsame x (by omega)]
          · rw [hframe _ (Or.inl (by omega))]
            exact Function.update_self ..
        · rw [List.length_append, List.length_cons (a := (32 : UInt8))] at hx
          rw [hframe x (by rw [List.length_append, List.length_cons (a := (32 : UInt8))]; omega),
            hsame x (by omega)]

end Cut

section Search

variable {φ : Type u} {findCommand : CString → Option φ} {n : ℕ} {command garbage : ByteMemory}
  {s : CString} {cmd : φ}

theorem firstWord_length_le (s : CString) : (firstWord s).chars.length ≤ s.chars.length :=
  (List.takeWhile_prefix _).length_le

theorem nameLength_le (s : CString) : nameLength s ≤ s.chars.length := by
  have hle := firstWord_length_le s
  unfold nameLength
  split_ifs <;> omega

/-- The name of the command is copied out of the line. -/
theorem cmdName_eq (h : HoldsString command 0 s.chars) :
    CString.ofBytes ((List.range (nameLength s)).map command) = cmdName s := by
  have hle := nameLength_le s
  have hname : (List.range (nameLength s)).map command = (cmdName s).chars := by
    refine List.ext_getElem (by simp [cmdName, hle]) fun i hi hs => ?_
    rw [List.length_map, List.length_range] at hi
    have hchar := h.chars i (by omega)
    rw [zero_add] at hchar
    rw [List.getElem_map, List.getElem_range, hchar]
    exact List.getElem_take.symm
  rw [hname, CString.ofBytes_chars]

/-- What `my_os_command_search` passes on when it finds the command: its name, and the arguments
where they stand in the line. -/
theorem commandSearch_spec (h : HoldsString command 0 s.chars) (hn : s.chars.length ≤ n)
    (garbage : ByteMemory) :
    ∃ name argv text, (∀ {φ : Type u} (findCommand : CString → Option φ),
        commandSearch findCommand n command garbage =
          (findCommand (cmdName s)).map fun cmd => ⟨cmd, name, argv, text⟩) ∧
      HoldsString name 0 (cmdName s).chars ∧
      ArgsAt text s.chars.length (nameLength s) argv (argWords s) := by
  have hle := nameLength_le s
  have hcmdLen : skipWhile isWordChar command n 0 = (firstWord s).chars.length := by
    obtain ⟨w, tail, hsplit, hw, -, hspace, hcut⟩ := exists_word s.chars
    rw [hsplit] at h hn
    have hskip := skipWhile_word h hspace hcut hn
    rwa [zero_add, hw] at hskip
  -- the name is cut to 63 characters, and what is cut off begins the arguments
  have hlen : (if skipWhile isWordChar command n 0 ≥ 64 then 63
      else skipWhile isWordChar command n 0) = nameLength s := by
    rw [hcmdLen, nameLength]
  have hrest := h.drop hle
  rw [zero_add] at hrest
  obtain ⟨next, hnext, hfrom, hend, hwords, hhead⟩ :=
    skipWhile_spaces (n := n) hrest (by rw [List.length_drop]; omega)
  rw [List.length_drop] at hend
  obtain ⟨hargs, -⟩ := parseArgs_words (n := n) (k := 63) hnext (by omega) hhead
  have hargs' := hargs.mono hfrom (by omega : _ ≤ s.chars.length)
  rw [hwords] at hargs'
  refine ⟨Function.update (garbage.putBytes 0 (nameLength s) command) (nameLength s) 0, _, _,
    fun findCommand => ?_, ?_, hargs'⟩
  · simp only [commandSearch, hlen, cmdName_eq h, maxArgs]
    cases findCommand (cmdName s) <;> rfl
  · have hnamelen : (cmdName s).chars.length = nameLength s := by simp [cmdName, hle]
    refine ⟨(cmdName s).noNul, fun i hi => ?_, ?_⟩
    · have hchar := h.chars i (by omega)
      rw [zero_add] at hchar
      rw [zero_add, Function.update_of_ne (by omega),
        ByteMemory.putBytes_of_mem (Nat.zero_le i) (by omega), Nat.sub_zero, hchar]
      exact List.getElem_take.symm
    · rw [zero_add, hnamelen, Function.update_self]

/-- A first word that fits is the name. -/
theorem cmdName_of_lt (h : (firstWord s).chars.length < 64) :
    cmdName s = firstWord s ∧ argWords s = (furtherWords s).take 63 := by
  obtain ⟨w, tail, hsplit, hw, htail, -, -⟩ := exists_word s.chars
  have hlen : nameLength s = w.length := by
    rw [nameLength, if_neg (by omega), hw]
    rfl
  constructor
  · refine CString.ext ?_
    change s.chars.take (nameLength s) = s.chars.takeWhile (· ≠ 32)
    rw [hlen, ← hw, hsplit, List.take_left]
  · rw [argWords, furtherWords, hlen, ← htail, hsplit, List.drop_left]

/-- **Splitting a command line.** When the first word of a line is a command of less than 63
characters, `my_os_command_search` runs that command, with the first word and the first 63
further words of the line as arguments. -/
theorem commandSearch_splits (h : HoldsString command 0 s.chars) (hn : s.chars.length ≤ n)
    (hfind : findCommand (firstWord s) = some cmd) (hlen : (firstWord s).chars.length < 63) :
    ∃ call, commandSearch findCommand n command garbage = some call ∧ call.cmd = cmd ∧
      1 + call.argv.length = 1 + min 63 (furtherWords s).length ∧
      HoldsString call.name 0 (firstWord s).chars ∧
      List.Forall₂ (HoldsString call.text) call.argv ((furtherWords s).take 63) := by
  obtain ⟨name, argv, text, hcall, hname, hargs⟩ := commandSearch_spec h hn garbage
  obtain ⟨hcmd, hargWords⟩ := cmdName_of_lt (s := s) (by omega)
  have hwords := hargs.forall₂
  rw [hcmd] at hname
  rw [hargWords] at hwords
  refine ⟨⟨cmd, name, argv, text⟩, ?_, rfl, ?_, hname, hwords⟩
  · rw [hcall, hcmd, hfind, Option.map_some]
  · rw [hwords.length_eq, List.length_take]

/-- The memory of the line `ls  a b `. -/
def lsLine : ByteMemory := fun x => [108, 115, 32, 32, 97, 32, 98, 32].getD x 0

/-- Two arguments, with two spaces before the first and one after the second. -/
theorem commandSearch_splits_ls :
    ∃ call, commandSearch (fun name => if name.chars = [108, 115] then some () else none) 8 lsLine
        (fun _ => 7) = some call ∧ call.cmd = () ∧
      1 + call.argv.length = 1 + min 63 [[(97 : UInt8)], [98]].length ∧
      HoldsString call.name 0 [108, 115] ∧
      List.Forall₂ (HoldsString call.text) call.argv ([[97], [98]].take 63) :=
  commandSearch_splits (s := ⟨[108, 115, 32, 32, 97, 32, 98, 32], by decide⟩)
    (HoldsString.of_getD (by decide) fun i _ => by rw [zero_add]; rfl) (by decide) (by decide)
    (by decide)

end Search

end LittleLinux
