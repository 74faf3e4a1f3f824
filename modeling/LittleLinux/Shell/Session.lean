import LittleLinux.Drivers.KeyHistory
import LittleLinux.Shell.EnvVars
import LittleLinux.Shell.LineEditor
import LittleLinux.Shell.NameTables

/-!
# A session at the shell

`my_own_os_main` waits for characters from the ring of the keyboard, edits a line with them, and runs
the line at `Enter`: `my_os_command_search` splits it, `my_os_command_run` expands the variables in it
and calls the command. Interrupts may come between any two accesses of the reader to the ring. What the
shell does with a character touches nothing that an interrupt touches, and is one step here, together
with the access that takes the character out of the ring.

The commands are functions on the state `ω` of the rest of the kernel, in which the table of commands
and the environment are looked up. A command gets its arguments as strings, prints some text, and may
leave anything in the line. The text of `printf` is given as it comes out.

`interpret` is what a session is for: the lines that were typed, one after the other, each as a name and
expanded words. `runsLines` says that the session with all its parts computes that, for every schedule,
as long as the lines fit.
-/

namespace LittleLinux

universe u v

/-- What the shell uses of the rest of the kernel. `cmdNameCopy` is what is in that local array
before. -/
structure Commands (ω : Type u) (φ : Type v) where
  findCommand : ω → CString → Option φ
  env : ω → Env
  func : φ → List CString → ω → ω × List UInt8
  leaves : φ → List CString → ω → ByteMemory → ByteMemory
  cmdNameCopy : ω → ByteMemory

/-- `env_set` stores at most 255 characters. -/
def Commands.ShortValues {ω : Type u} {φ : Type v} (k : Commands ω φ) : Prop :=
  ∀ w name value, k.env w name = some value → value.chars.length ≤ 255

section Shell

variable {ω : Type u} {φ : Type v}

/-! ### The main loop -/

/-- The text of `printf("%s$ ", pwd)`. -/
def prompt (k : Commands ω φ) (w : ω) : List UInt8 :=
  ((k.env w (.ofBytes [112, 119, 100])).map CString.chars).getD [] ++ [36, 32]

/-- `"\nrunning command\n"`. -/
def runningText : List UInt8 :=
  [10, 114, 117, 110, 110, 105, 110, 103, 32, 99, 111, 109, 109, 97, 110, 100, 10]

/-- The text of `printf("Command not found: %s\n", cmd_name)`. -/
def notFoundText (cmdName : CString) : List UInt8 :=
  [67, 111, 109, 109, 97, 110, 100, 32, 110, 111, 116, 32, 102, 111, 117, 110, 100, 58, 32] ++
    cmdName.chars ++ [10]

/-- What is printed for a character before the line is run. -/
def echo (s : LineEditor) (input : UInt8) : List UInt8 :=
  if input = 0 then []
  else if IsEnter input then runningText
  else if input = 8 then if 0 < s.bufLen then [8, 32, 8] else []
  else [input]

/-- `my_os_command_run`: the strings that the command gets, and the line after the expansions. -/
def commandRun (env : Env) (call : CommandCall φ) : List CString × ByteMemory :=
  let name := expandEnvVar env lineSize call.name 0 256
  let text := expandArgs env lineSize call.text call.argv
  (stringAt name 0 lineSize :: call.argv.map fun p => stringAt text p lineSize, text)

/-- `my_os_command_search`: the state and the output, and what is in the line afterwards. -/
def runCommandLine (k : Commands ω φ) (w : ω) (command : ByteMemory) : (ω × List UInt8) × ByteMemory :=
  match commandSearch (k.findCommand w) lineSize command (k.cmdNameCopy w) with
  | none =>
    let cmdLen := skipWhile isWordChar command lineSize 0
    let cmdLen := if cmdLen ≥ 64 then 63 else cmdLen
    ((w, notFoundText (CString.ofBytes ((List.range cmdLen).map command))), command)
  | some call =>
    let r := commandRun (k.env w) call
    (k.func call.cmd r.1 w, k.leaves call.cmd r.1 w r.2)

/-- The shell: the line, the state of the kernel, and all that was printed. -/
structure Shell (ω : Type u) where
  editor : LineEditor
  world : ω
  out : List UInt8

/-- At the first prompt. -/
def Shell.start (k : Commands ω φ) (w : ω) (buffer : ByteMemory) : Shell ω :=
  ⟨.prompt buffer, w, prompt k w⟩

/-- What the main loop does with a character. -/
def shellStep (k : Commands ω φ) (s : Shell ω) (input : UInt8) : Shell ω :=
  let editor := editorStep s.editor input
  let out := s.out ++ echo s.editor input
  match editor.handed with
  | [] => ⟨editor, s.world, out⟩
  | command :: _ =>
    let r := runCommandLine k s.world command
    ⟨.prompt (Function.update r.2 0 0), r.1.1, out ++ r.1.2 ++ prompt k r.1.1⟩

/-- The keyboard driver and the shell. -/
structure Session (ω : Type u) where
  kbd : Kbd
  shell : Shell ω

/-- An interrupt, or the next step of `my_own_os_main`. -/
def sessionStep (k : Commands ω φ) (s : Session ω) (e : KbdStep) : Session ω :=
  match e with
  | .interrupt _ => { s with kbd := kbdStep s.kbd e }
  | .reader =>
    match s.kbd.ring.reader with
    | .store c => ⟨kbdStep s.kbd e, shellStep k s.shell c⟩
    | _ => { s with kbd := kbdStep s.kbd e }

/-- A session from the first prompt on. -/
def sessionRun (k : Commands ω φ) (w : ω) (buffer : ByteMemory) (events : List KbdStep) :
    Session ω :=
  events.foldl (sessionStep k) ⟨initKbd, .start k w buffer⟩

/-! ### What a session is for -/

/-- The lines that are complete, and the characters after the last `Enter`. -/
def linesStep (l : List (List UInt8) × List UInt8) (c : UInt8) : List (List UInt8) × List UInt8 :=
  if IsEnter c then (l.1 ++ [l.2], []) else (l.1, l.2 ++ [c])

/-- The lines of a text. -/
def linesOf (chars : List UInt8) : List (List UInt8) × List UInt8 := chars.foldl linesStep ([], [])

/-- The line that was typed. -/
def lineOf (typed : List UInt8) : CString := .ofBytes (edited typed)

/-- What is on the screen after typing a line: a backspace with nothing before it shows nothing. -/
def echoedStep (s : List UInt8 × List UInt8) (c : UInt8) : List UInt8 × List UInt8 :=
  (editedStep s.1 c,
    s.2 ++ if c = 0 then [] else if c = 8 then if s.1 = [] then [] else [8, 32, 8] else [c])

def echoed (typed : List UInt8) : List UInt8 := (typed.foldl echoedStep ([], [])).2

/-- A line runs the command of its name, with the expanded words. -/
def runLine (k : Commands ω φ) (w : ω) (s : CString) : ω × List UInt8 :=
  match k.findCommand w (cmdName s) with
  | none => (w, notFoundText (cmdName s))
  | some cmd =>
    k.func cmd (cmdName s :: (argWords s).map fun a => .ofBytes (expanded (k.env w) a)) w

/-- A line that was typed at a prompt is shown and run, and the next prompt is shown. -/
def interpretStep (k : Commands ω φ) (s : ω × List UInt8) (typed : List UInt8) : ω × List UInt8 :=
  let r := runLine k s.1 (lineOf typed)
  (r.1, s.2 ++ echoed typed ++ runningText ++ r.2 ++ prompt k r.1)

/-- The lines one after the other. -/
def interpret (k : Commands ω φ) (w : ω) (lines : List (List UInt8)) : ω × List UInt8 :=
  lines.foldl (interpretStep k) (w, prompt k w)

/-- Where `my_os_command_search` finds the arguments of a line. -/
def argStarts (s : CString) : List ℕ :=
  ((commandSearch (fun _ => some ()) lineSize (lineMemory s) fun _ => 0).map
    CommandCall.argv).getD []

/-- The line is never longer than the buffer. -/
def ShortLine (typed : List UInt8) : Prop := ∀ pre, pre <+: typed → (edited pre).length ≤ 511

/-- The line fits: it is short, and if it has a command, the variables in it are expanded apart. -/
structure LineFits (k : Commands ω φ) (w : ω) (typed : List UInt8) : Prop where
  short : ShortLine typed
  apart : (k.findCommand w (cmdName (lineOf typed))).isSome → ExpandsApart (k.env w)
    (cmdName (lineOf typed)).chars ((argStarts (lineOf typed)).zip (argWords (lineOf typed)))

/-- Every line fits where it is run, and the one that is being typed is short. -/
def LinesFit (k : Commands ω φ) (w : ω) (chars : List UInt8) : Prop :=
  Along (interpretStep k) (fun s typed => LineFits k s.1 typed) (w, prompt k w) (linesOf chars).1 ∧
    ShortLine (linesOf chars).2

/-! ### Where the arguments start -/

section Starts

variable {m m' : ByteMemory} {n p e : ℕ}

/-- A loop that stops at a terminator does not look behind it. -/
theorem skipWhile_congr (test : UInt8 → Bool) (n : ℕ) (htest : test 0 = false) (hnul : m e = 0)
    (hpe : p ≤ e) (hsame : ∀ x, p ≤ x → x ≤ e → m' x = m x) :
    skipWhile test m' n p = skipWhile test m n p ∧ p ≤ skipWhile test m n p ∧
      skipWhile test m n p ≤ e := by
  induction n generalizing p with
  | zero => exact ⟨rfl, le_rfl, hpe⟩
  | succ n ih =>
    rw [skipWhile, skipWhile, hsame p le_rfl hpe]
    by_cases hc : test (m p) = true
    · have hne : p ≠ e := by
        rintro rfl
        rw [hnul, htest] at hc
        exact absurd hc (by decide)
      obtain ⟨heq, hle, hend⟩ := ih (p := p + 1) (by omega)
        fun x hx hxe => hsame x (by omega) hxe
      rw [if_pos hc, if_pos hc]
      exact ⟨heq, by omega, hend⟩
    · rw [if_neg hc, if_neg hc]
      exact ⟨rfl, le_rfl, hpe⟩

/-- Where the arguments are found depends on the line alone. -/
theorem parseArgs_congr {k : ℕ} (hnul : m e = 0) (hpe : p ≤ e)
    (hsame : ∀ x, p ≤ x → x ≤ e → m' x = m x) :
    (parseArgs n k p m').1 = (parseArgs n k p m).1 := by
  induction k generalizing p m m' with
  | zero => rfl
  | succ k ih =>
    obtain ⟨hword, hle, hend⟩ := skipWhile_congr isWordChar n rfl hnul hpe hsame
    rw [parseArgs, parseArgs, hsame p le_rfl hpe, hword]
    generalize skipWhile isWordChar m n p = q at hle hend
    split_ifs with hzero
    · rfl
    dsimp only
    rw [hsame q hle hend]
    split_ifs with hspace
    · have hne : q ≠ e := by
        rintro rfl
        rw [hnul] at hspace
        exact absurd hspace (by decide)
      have hnul' : Function.update m q 0 e = 0 := by
        rw [Function.update_of_ne hne.symm, hnul]
      have hsame' : ∀ x, q + 1 ≤ x → x ≤ e →
          Function.update m' q 0 x = Function.update m q 0 x := by
        intro x hx hxe
        rw [Function.update_of_ne (by omega), Function.update_of_ne (by omega),
          hsame x (by omega) hxe]
      obtain ⟨hskip, hfrom, hto⟩ := skipWhile_congr isSpaceChar n rfl hnul'
        (by omega) hsame'
      rw [hskip, ih hnul' hto fun x hx hxe => hsame' x (by omega) hxe]
    · rw [ih hnul hend fun x hx hxe => hsame x (by omega) hxe]

/-- The cut of the name of the command to 63 characters. -/
def nameCut (cmdLen : ℕ) : ℕ := if cmdLen ≥ 64 then 63 else cmdLen

theorem argv_of_commandSearch {command garbage : ByteMemory} {call : CommandCall φ}
    {findCommand : CString → Option φ}
    (hcall : commandSearch findCommand n command garbage = some call) :
    call.argv = (parseArgs n 63 (skipWhile isSpaceChar command n
      (nameCut (skipWhile isWordChar command n 0))) command).1 := by
  unfold commandSearch at hcall
  dsimp only at hcall
  rw [← nameCut] at hcall
  split at hcall
  · exact absurd hcall (by simp)
  · rw [← Option.some.inj hcall]
    rfl

/-- The arguments start where they do in the line by itself. -/
theorem argv_eq_argStarts {s : CString} {command garbage : ByteMemory} {call : CommandCall φ}
    {findCommand : CString → Option φ} (h : HoldsString command 0 s.chars)
    (hcall : commandSearch findCommand lineSize command garbage = some call) :
    call.argv = argStarts s := by
  have hline := holds_lineMemory s
  have hsame : ∀ x, x ≤ s.chars.length → command x = lineMemory s x := by
    intro x hx
    have hleft := h.apply_eq_getD hx
    have hright := hline.apply_eq_getD hx
    rw [zero_add] at hleft hright
    rw [hleft, hright]
  have hnul := hline.nul
  rw [zero_add] at hnul
  obtain ⟨hword, -, hend⟩ := skipWhile_congr isWordChar lineSize rfl hnul
    (Nat.zero_le _) fun x _ hx => hsame x hx
  have hcut : nameCut (skipWhile isWordChar (lineMemory s) lineSize 0) ≤ s.chars.length := by
    unfold nameCut
    split_ifs <;> omega
  obtain ⟨hspace, -, hto⟩ := skipWhile_congr isSpaceChar lineSize rfl hnul hcut
    fun x _ hx => hsame x hx
  have hfound : commandSearch (fun _ => some ()) lineSize (lineMemory s) (fun _ => 0) =
      some ⟨(), _, argStarts s, _⟩ := rfl
  rw [argv_of_commandSearch hcall, hword, hspace,
    show argStarts s = _ from argv_of_commandSearch hfound]
  exact parseArgs_congr hnul hto fun x _ hx => hsame x hx

end Starts

/-! ### One line -/

section Line

variable {k : Commands ω φ} {w : ω} {s : CString} {command : ByteMemory} {env : Env}

/-- Where the line cuts the name of the command. -/
theorem nameCut_eq (h : HoldsString command 0 s.chars) (hn : s.chars.length ≤ lineSize) :
    nameCut (skipWhile isWordChar command lineSize 0) = nameLength s := by
  obtain ⟨w, tail, hsplit, hw, -, hspace, hcut⟩ := exists_word s.chars
  rw [hsplit] at h hn
  have hskip := skipWhile_word h hspace hcut hn
  rw [zero_add, hw] at hskip
  rw [hskip, nameLength, nameCut]
  rfl

/-- The command sees every word expanded. -/
theorem expandArgs_seen {text : ByteMemory} {argv : List ℕ} {ws : List (List UInt8)} {lo hi : ℕ}
    (hvalues : ∀ name value, env name = some value → value.chars.length ≤ 255)
    (h : ArgsAt text hi lo argv ws) (hhi : hi ≤ lineSize)
    (hapart : (argv.zip ws).Pairwise (LeavesAlone env)) :
    List.Forall₂ (HoldsString (expandArgs env lineSize text argv)) argv (ws.map (expanded env)) := by
  obtain ⟨hsep, hstart⟩ := h.separated hhi
  have hlength := h.forall₂.length_eq
  generalize hargs : argv.zip ws = args at hsep hstart hapart
  have hfst : argv = args.map Prod.fst := by
    rw [← hargs, List.map_fst_zip hlength.le]
  have hsnd : ws = args.map Prod.snd := by
    rw [← hargs, List.map_snd_zip hlength.ge]
  have hstands := stands_of_alone hvalues hsep (fun a ha => (hstart a ha).2)
    (fun before a after hsplit hstand =>
      stepAlone_of_apart hvalues (hsplit ▸ hsep) (hsplit ▸ hapart) hstand)
    args [] (List.append_nil args).symm
  rw [hsnd, hfst, List.map_map, List.forall₂_map_left_iff, List.forall₂_map_right_iff,
    List.forall₂_same]
  exact hstands.before

/-- What is read where the words stand. -/
theorem map_stringAt {m : ByteMemory} {ps : List ℕ} {ws : List (List UInt8)}
    (h : List.Forall₂ (HoldsString m) ps ws) (hlen : ∀ w ∈ ws, w.length < lineSize) :
    ps.map (fun p => stringAt m p lineSize) = ws.map CString.ofBytes := by
  induction h with
  | nil => rfl
  | @cons p w ps ws hw _ ih =>
    rw [List.map_cons, List.map_cons, ih fun v hv => hlen v (List.mem_cons_of_mem w hv),
      stringAt_of_holds (s := ⟨w, hw.noNul⟩) hw (hlen w List.mem_cons_self)]
    exact congrArg (· :: _) (CString.ofBytes_chars ⟨w, hw.noNul⟩).symm

theorem length_expanded_lt (hvalues : ∀ name value, env name = some value →
    value.chars.length ≤ 255) {w : List UInt8} (hw : w.length < lineSize) :
    (expanded env w).length < lineSize := by
  unfold expanded
  cases hv : valueOf env w with
  | none => exact hw
  | some v =>
    obtain ⟨name, value, -, hvalue, rfl⟩ := valueOf_eq_some_iff.1 hv
    exact lt_of_le_of_lt (hvalues _ _ hvalue) (by decide)

/-- The words of a line that stand in it are not longer than the line. -/
theorem ArgsAt.length_lt {m : ByteMemory} {lo hi n : ℕ} {ps : List ℕ} {ws : List (List UInt8)}
    (h : ArgsAt m hi lo ps ws) (hhi : hi < n) : ∀ w ∈ ws, w.length < n := by
  induction h with
  | nil => simp
  | cons hlo hhi' hne hw hrest ih =>
    intro v hv
    obtain rfl | hv := List.mem_cons.1 hv
    · omega
    · exact ih v hv

/-- **Running a line.** When a line in memory fits, `my_os_command_search` calls the command of its name
with the expanded words. -/
theorem runCommandLine_eq (hvalues : k.ShortValues) (h : HoldsString command 0 s.chars)
    (hlen : s.chars.length ≤ 511) (hfits : (k.findCommand w (cmdName s)).isSome →
      ExpandsApart (k.env w) (cmdName s).chars ((argStarts s).zip (argWords s))) :
    (runCommandLine k w command).1 = runLine k w s := by
  have hn : s.chars.length ≤ lineSize := hlen.trans (by decide)
  obtain ⟨name, argv, text, hsearch, hname, hargs⟩ := commandSearch_spec h hn (k.cmdNameCopy w)
  unfold runCommandLine runLine
  rw [hsearch]
  cases hfind : k.findCommand w (cmdName s) with
  | none =>
    rw [Option.map_none]
    dsimp only
    rw [← nameCut, nameCut_eq h hn, cmdName_eq h]
  | some cmd =>
    rw [Option.map_some]
    dsimp only
    have hapart := hfits (by rw [hfind]; rfl)
    have hcall : commandSearch (k.findCommand w) lineSize command (k.cmdNameCopy w) =
        some ⟨cmd, name, argv, text⟩ := by rw [hsearch, hfind, Option.map_some]
    have hstarts : argv = argStarts s := argv_eq_argStarts h hcall
    rw [← hstarts] at hapart
    have hshort : ∀ w' : ω, ∀ name value, k.env w' name = some value → value.chars.length ≤ 255 :=
      hvalues
    -- the command's name is cut to its buffer, so expanding it is safe whatever was typed
    have hnamelen : (cmdName s).chars.length ≤ 63 := by
      have htake := List.length_take_le (nameLength s) s.chars
      unfold nameLength at htake
      refine htake.trans ?_
      split_ifs <;> omega
    have hargs' : ∀ v ∈ (argWords s).map (expanded (k.env w)), v.length < lineSize := by
      intro v hv
      obtain ⟨u, hu, rfl⟩ := List.mem_map.1 hv
      exact length_expanded_lt (hshort _) (hargs.length_lt (by omega : _ < 512) u hu)
    rw [commandRun]
    dsimp only
    rw [(expandEnvVar_of_eq_none hname (hnamelen.trans (by decide)) hapart.name).1,
      stringAt_of_holds hname (lt_of_le_of_lt hnamelen (by decide)),
      map_stringAt (expandArgs_seen (hshort _) hargs hn hapart.apart) hargs', List.map_map]
    rfl

end Line

/-! ### The lines -/

section Lines

variable {k : Commands ω φ} {w : ω} {chars typed : List UInt8} {c : UInt8} {s : Shell ω}

theorem linesOf_concat (chars : List UInt8) (c : UInt8) :
    linesOf (chars ++ [c]) = linesStep (linesOf chars) c :=
  List.foldl_concat ..

theorem edited_concat (typed : List UInt8) (c : UInt8) :
    edited (typed ++ [c]) = editedStep (edited typed) c :=
  List.foldl_concat ..

theorem fst_echoedStep (typed : List UInt8) (s : List UInt8 × List UInt8) :
    (typed.foldl echoedStep s).1 = typed.foldl editedStep s.1 := by
  induction typed generalizing s with
  | nil => rfl
  | cons c typed ih => exact ih _

theorem echoed_concat (typed : List UInt8) (c : UInt8) : echoed (typed ++ [c]) = echoed typed ++
    if c = 0 then [] else if c = 8 then if edited typed = [] then [] else [8, 32, 8] else [c] := by
  rw [echoed, List.foldl_concat, echoedStep, fst_echoedStep]
  rfl

/-- What the editor shows is what the line shows. -/
theorem echo_of_editing {s : LineEditor} (h : Editing s (edited typed)) (hc : ¬IsEnter c) :
    echoed (typed ++ [c]) = echoed typed ++ echo s c := by
  have hback : (if edited typed = [] then ([] : List UInt8) else [8, 32, 8]) =
      if 0 < s.bufLen then [8, 32, 8] else [] := by
    simp only [h.bufLen, List.length_pos_iff, ne_eq, ite_not]
  rw [echoed_concat, echo, if_neg hc, hback]

/-- The shell has run the complete lines, and holds the one that is being typed. -/
structure Ran (k : Commands ω φ) (w : ω) (chars : List UInt8) (s : Shell ω) : Prop where
  editing : Editing s.editor (edited (linesOf chars).2)
  world : s.world = (interpret k w (linesOf chars).1).1
  out : s.out = (interpret k w (linesOf chars).1).2 ++ echoed (linesOf chars).2

theorem Ran.start (k : Commands ω φ) (w : ω) (buffer : ByteMemory) :
    Ran k w [] (.start k w buffer) :=
  ⟨Editing.prompt buffer, rfl, (List.append_nil _).symm⟩

/-- A character that ends no line. -/
theorem Ran.char (h : Ran k w chars s) (hc : ¬IsEnter c) :
    Ran k w (chars ++ [c]) (shellStep k s c) := by
  have hediting := h.editing.step hc
  have hlines : linesOf (chars ++ [c]) = ((linesOf chars).1, (linesOf chars).2 ++ [c]) := by
    rw [linesOf_concat, linesStep, if_neg hc]
  rw [← edited_concat] at hediting
  have hstep : shellStep k s c = ⟨editorStep s.editor c, s.world, s.out ++ echo s.editor c⟩ := by
    rw [shellStep]
    dsimp only
    rw [hediting.handed]
  rw [hstep]
  refine ⟨?_, ?_, ?_⟩ <;> rw [hlines]
  · exact hediting
  · exact h.world
  · rw [h.out, echo_of_editing h.editing hc, List.append_assoc]

/-- `Enter` runs the line, when it fits. -/
theorem Ran.enter (hvalues : k.ShortValues) (h : Ran k w chars s) (hc : IsEnter c)
    (hfits : LineFits k s.world (linesOf chars).2) :
    Ran k w (chars ++ [c]) (shellStep k s c) := by
  have hzero : c ≠ 0 := by
    obtain rfl | rfl := hc <;> decide
  have hlines : linesOf (chars ++ [c]) = ((linesOf chars).1 ++ [(linesOf chars).2], []) := by
    rw [linesOf_concat, linesStep, if_pos hc]
  have hecho : echo s.editor c = runningText := by
    rw [echo, if_neg hzero, if_pos hc]
  obtain ⟨m, buffer, heditor, hm⟩ := h.editing.enter hc
  have hchars : (lineOf (linesOf chars).2).chars = edited (linesOf chars).2 :=
    congrArg CString.chars (CString.ofBytes_chars ⟨_, h.editing.noNul⟩)
  have hlen := hfits.short _ List.prefix_rfl
  rw [← hchars] at hm hlen
  have hrun := runCommandLine_eq hvalues hm hlen hfits.apart
  have hstep : shellStep k s c =
      ⟨.prompt (Function.update (runCommandLine k s.world m).2 0 0), (runCommandLine k s.world m).1.1,
        s.out ++ echo s.editor c ++ (runCommandLine k s.world m).1.2 ++
          prompt k (runCommandLine k s.world m).1.1⟩ := by
    rw [shellStep]
    dsimp only
    rw [heditor]
  have hnext : interpret k w ((linesOf chars).1 ++ [(linesOf chars).2]) =
      interpretStep k (interpret k w (linesOf chars).1) (linesOf chars).2 := List.foldl_concat ..
  rw [hstep, hrun, hecho]
  refine ⟨?_, ?_, ?_⟩ <;> rw [hlines]
  · exact Editing.prompt _
  · rw [hnext, interpretStep, ← h.world]
  · rw [hnext, interpretStep, ← h.world, h.out]
    exact (List.append_nil _).symm

/-- The lines of the first characters fit. -/
theorem LinesFit.init (h : LinesFit k w (chars ++ [c])) : LinesFit k w chars ∧
    (IsEnter c → LineFits k (interpret k w (linesOf chars).1).1 (linesOf chars).2) := by
  obtain ⟨hlines, hrest⟩ := h
  rw [linesOf_concat, linesStep] at hlines hrest
  by_cases hc : IsEnter c
  · rw [if_pos hc] at hlines
    obtain ⟨hbefore, hline⟩ := Along.concat_iff.1 hlines
    exact ⟨⟨hbefore, hline.short⟩, fun _ => hline⟩
  · rw [if_neg hc] at hlines hrest
    exact ⟨⟨hlines, fun pre hpre => hrest pre (hpre.trans (List.prefix_append _ _))⟩,
      fun h => absurd h hc⟩

/-- **The shell runs the lines** that it is given, character by character. -/
theorem ran_of_fits (hvalues : k.ShortValues) (buffer : ByteMemory) (hfits : LinesFit k w chars) :
    Ran k w chars (chars.foldl (shellStep k) (.start k w buffer)) := by
  induction chars using List.reverseRecOn with
  | nil => exact Ran.start k w buffer
  | append_singleton chars c ih =>
    obtain ⟨hbefore, hline⟩ := hfits.init
    have hran := ih hbefore
    rw [List.foldl_concat]
    by_cases hc : IsEnter c
    · exact hran.enter hvalues hc (hran.world ▸ hline hc)
    · exact hran.char hc

end Lines

/-! ### With the keyboard -/

section Keyboard

variable {k : Commands ω φ} {w : ω} {buffer : ByteMemory} {events : List KbdStep}

theorem kbdInterrupt_ring (s : Kbd) (e : KbdEvent) :
    (kbdInterrupt s e).ring.returned = s.ring.returned ∧
      (kbdInterrupt s e).ring.reader = s.ring.reader := by
  unfold kbdInterrupt
  dsimp only
  split_ifs
  · unfold Kbd.act
    dsimp only
    split_ifs
    · exact ⟨rfl, rfl⟩
    · exact ⟨rfl, rfl⟩
    · exact ⟨(putcharToBuffer_reader _ _).2, (putcharToBuffer_reader _ _).1⟩
    · exact ⟨rfl, rfl⟩
  · exact ⟨rfl, rfl⟩

/-- The driver runs as it does by itself, and the shell gets the characters that the reader gets. -/
theorem sessionRun_eq (k : Commands ω φ) (w : ω) (buffer : ByteMemory) (events : List KbdStep) :
    sessionRun k w buffer events = ⟨events.foldl kbdStep initKbd,
      (events.foldl kbdStep initKbd).ring.returned.foldl (shellStep k) (.start k w buffer)⟩ := by
  induction events using List.reverseRecOn with
  | nil => rfl
  | append_singleton events e ih =>
    rw [sessionRun, List.foldl_concat, ← sessionRun, ih, List.foldl_concat]
    generalize events.foldl kbdStep initKbd = s
    cases e with
    | interrupt e =>
      rw [sessionStep, kbdStep, (kbdInterrupt_ring s e).1]
    | reader =>
      rw [sessionStep, kbdStep]
      dsimp only
      unfold getcharStep
      cases hreader : s.ring.reader with
      | idle => rfl
      | test => dsimp only; split_ifs <;> rfl
      | read => rfl
      | store c => dsimp only; rw [List.foldl_concat]

/-- The session, from the codes of the keys to the effects of the commands. -/
structure RunsLines (k : Commands ω φ) (w : ω) (events : List KbdStep) (s : Session ω) : Prop where
  chars : s.kbd.ring.returned.Sublist (typed (codesOf events))
  lossless : (∀ pre, pre <+: events → (pre.foldl kbdStep initKbd).ring.pending < 255) →
    s.kbd.ring.returned <+: typed (codesOf events)
  ran : Ran k w s.kbd.ring.returned s.shell

/-- **A session runs the lines that are typed.** For every order of interrupts and steps of the shell in
which each interrupt finds one byte, the shell has run the complete lines among the characters that it
took, one after the other, each with its expanded words, and the terminal was given the prompts, what
was typed and what the commands print; the characters are those that the keys stand for, in order, and
as long as the ring is never full none is left out. -/
theorem runsLines (hvalues : k.ShortValues) (hevents : ∀ e ∈ events, e.Single)
    (hfits : LinesFit k w (events.foldl kbdStep initKbd).ring.returned) :
    RunsLines k w events (sessionRun k w buffer events) := by
  obtain ⟨haccepted, hlossless⟩ := accepted_sublist hevents
  have horder := (follows_run hevents).2.order
  rw [sessionRun_eq]
  refine ⟨horder.sublist.trans haccepted, fun hroom => ?_, ran_of_fits hvalues buffer hfits⟩
  rw [← hlossless hroom]
  exact horder

end Keyboard

end Shell

/-! ### The tables of the kernel -/

section Tables

variable {φ : Type u} {ρ : Type v}

/-- `command_map` and `env_map`, whose values come from `env_set`, and the rest of the kernel. -/
structure Tables (φ : Type u) (ρ : Type v) where
  commandMap : CommandMap φ
  envMap : EnvMap
  rest : ρ
  values : ∀ p value, envMap.entries p = some value → value.chars.length ≤ 255

theorem length_envValue_le (value : CString) : (envValue value).chars.length ≤ 255 :=
  List.length_take_le 255 _

/-- `env_set` keeps the values short. -/
theorem values_envSet {t t' : EnvMap} {name value : CString}
    (ht : ∀ p v, t.entries p = some v → v.chars.length ≤ 255) (h : envSet t name value = some t') :
    ∀ p v, t'.entries p = some v → v.chars.length ≤ 255 := by
  have hupdate : ∀ q p v, Function.update t.entries q (some (envValue value)) p = some v →
      v.chars.length ≤ 255 := by
    intro q p v hv
    by_cases hp : p = q
    · subst hp
      rw [Function.update_self] at hv
      rw [← Option.some.inj hv]
      exact length_envValue_le value
    · rw [Function.update_of_ne hp] at hv
      exact ht p v hv
  unfold envSet StringMap.assign at h
  cases hfind : hashFind t.map name with
  | some q =>
    rw [hfind] at h
    rw [← Option.some.inj h]
    exact hupdate q
  | none =>
    rw [hfind] at h
    dsimp only at h
    split at h
    · exact absurd h (by simp)
    · obtain ⟨map, -, rfl⟩ := Option.map_eq_some_iff.1 h
      exact hupdate _

/-- `env_set` on the tables. -/
def Tables.envSet (t : Tables φ ρ) (name value : CString) : Option (Tables φ ρ) :=
  match h : LittleLinux.envSet t.envMap name value with
  | none => none
  | some envMap => some { t with envMap := envMap, values := values_envSet t.values h }

/-- The shell with the tables of the kernel. -/
def tableCommands (func : φ → List CString → Tables φ ρ → Tables φ ρ × List UInt8)
    (leaves : φ → List CString → Tables φ ρ → ByteMemory → ByteMemory)
    (cmdNameCopy : Tables φ ρ → ByteMemory) : Commands (Tables φ ρ) φ where
  findCommand w name := (findCommand w.commandMap name).map CommandEntry.func
  env w := envGet w.envMap
  func := func
  leaves := leaves
  cmdNameCopy := cmdNameCopy

theorem shortValues_tableCommands
    (func : φ → List CString → Tables φ ρ → Tables φ ρ × List UInt8)
    (leaves : φ → List CString → Tables φ ρ → ByteMemory → ByteMemory)
    (cmdNameCopy : Tables φ ρ → ByteMemory) :
    (tableCommands func leaves cmdNameCopy).ShortValues := by
  intro w name value h
  obtain ⟨p, -, hp⟩ := Option.bind_eq_some_iff.1 h
  exact w.values p value hp

end Tables

/-- A kernel with one command, `e`, which keeps the arguments that it gets; `A` is `x`. -/
def keepKernel : Commands (List (List CString)) Unit where
  findCommand _ name := if name.chars = [101] then some () else none
  env _ := smallEnv
  func _ argv w := (w ++ [argv], [])
  leaves _ _ _ text := text
  cmdNameCopy _ := fun _ => 0

/-- The keys of `e $A`, enter, and the steps of the shell that take the five characters. -/
def keepEvents : List KbdStep :=
  [0x12, 0x39, 0x2a, 0x05, 0xaa, 0x2a, 0x1e, 0xaa, 0x1c].map (fun b => .interrupt ⟨b, 0⟩) ++
    List.replicate 20 .reader

theorem keepEvents_returned :
    (keepEvents.foldl kbdStep initKbd).ring.returned = [101, 32, 36, 65, 10] := by
  decide +kernel

/-- The line `e $A` is run as `e` with the argument `x`. -/
theorem runsLines_keep :
    RunsLines keepKernel [] keepEvents (sessionRun keepKernel [] (fun _ => 7) keepEvents) ∧
      (interpret keepKernel [] [[101, 32, 36, 65]]).1 = [[.ofBytes [101], .ofBytes [120]]] := by
  have hfits : LinesFit keepKernel [] (keepEvents.foldl kbdStep initKbd).ring.returned := by
    rw [keepEvents_returned]
    have hline : LineFits keepKernel [] [101, 32, 36, 65] := by
      refine ⟨fun pre hpre => (length_edited_le pre).trans (hpre.length_le.trans (by decide)),
        fun _ => ⟨by decide, ?_, ?_⟩⟩
      all_goals rw [show (argStarts (lineOf [101, 32, 36, 65])).zip
        (argWords (lineOf [101, 32, 36, 65])) = [(2, [36, 65])] by decide +kernel]
      · decide
      · exact List.pairwise_singleton _ _
    refine ⟨⟨hline, trivial⟩, fun pre hpre => ?_⟩
    exact (length_edited_le pre).trans (hpre.length_le.trans (by decide))
  exact ⟨runsLines (fun _ => smallEnv_values) (by decide +kernel) hfits, by decide +kernel⟩

end LittleLinux
