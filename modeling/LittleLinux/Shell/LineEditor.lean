import LittleLinux.Libc.StringMemory

/-!
# The line editor

`my_own_os_main` of `Little_Linux.c` reads characters one by one into a buffer of 512 bytes, from
a prompt to the next `Enter`, and hands the line to `my_os_command_search`. A backspace takes the
last character back. Nothing compares `buf_len` with the size of the buffer; stores are given with
their index, and what lies past the buffer is part of the same memory here.

`edited` is what the line is for: the characters typed, with each backspace cancelling the
character before it. The editor computes it, and is inside the buffer exactly as long as it has at
most 511 characters (`editsWithin_iff`).
-/

namespace LittleLinux

/-- The variables of `my_own_os_main`, and the memory handed to `my_os_command_search` at each
`Enter` since the prompt. -/
structure LineEditor where
  bufLen : ℕ
  buffer : ByteMemory
  handed : List ByteMemory

/-- At a prompt. -/
def LineEditor.prompt (buffer : ByteMemory) : LineEditor := ⟨0, buffer, []⟩

/-- The character ends a line. -/
def IsEnter (c : UInt8) : Prop := c = 10 ∨ c = 13

instance (c : UInt8) : Decidable (IsEnter c) := inferInstanceAs (Decidable (_ ∨ _))

/-- One character from `my_os_getch`; the loop around it waits for one that is not 0. -/
def editorStep (s : LineEditor) (input : UInt8) : LineEditor :=
  if input = 0 then s
  else if IsEnter input then
    let buffer := Function.update s.buffer s.bufLen 0
    ⟨0, Function.update buffer 0 0, s.handed ++ [buffer]⟩
  else if input = 8 then
    if 0 < s.bufLen then
      { s with bufLen := s.bufLen - 1, buffer := Function.update s.buffer (s.bufLen - 1) 0 }
    else s
  else { s with buffer := Function.update s.buffer s.bufLen input, bufLen := s.bufLen + 1 }

/-- The indices of `buffer` that the step stores to. -/
def editorStores (s : LineEditor) (input : UInt8) : List ℕ :=
  if input = 0 then []
  else if IsEnter input then [s.bufLen, 0]
  else if input = 8 then if 0 < s.bufLen then [s.bufLen - 1] else []
  else [s.bufLen]

/-- The indices stored to by a sequence of characters. -/
def lineStores : LineEditor → List UInt8 → List ℕ
  | _, [] => []
  | s, c :: cs => editorStores s c ++ lineStores (editorStep s c) cs

/-! ### The edited line -/

/-- A character typed after a line: a backspace cancels the last character of the line, and what
is not typed changes nothing. -/
def editedStep (text : List UInt8) (c : UInt8) : List UInt8 :=
  if c = 0 then text else if c = 8 then text.dropLast else text ++ [c]

/-- The characters typed, without the cancelled ones. -/
def edited (input : List UInt8) : List UInt8 := input.foldl editedStep []

theorem length_foldl_editedStep_le (input text : List UInt8) :
    (input.foldl editedStep text).length ≤ text.length + input.length := by
  induction input generalizing text with
  | nil => simp
  | cons c input ih =>
    have hstep : (editedStep text c).length ≤ text.length + 1 := by
      unfold editedStep
      split_ifs
      · omega
      · rw [List.length_dropLast]
        omega
      · rw [List.length_append, List.length_singleton]
    have hrest := ih (editedStep text c)
    simp only [List.foldl_cons, List.length_cons]
    omega

/-- Nothing is in the line that was not typed. -/
theorem length_edited_le (input : List UInt8) : (edited input).length ≤ input.length :=
  (length_foldl_editedStep_le input []).trans (Nat.zero_add _).le

/-- From the prompt, and up to the next `Enter`, the editor stays inside the buffer, and hands
the edited line over. -/
structure EditsWithin (buffer : ByteMemory) (input : List UInt8) : Prop where
  bufLen : ∀ pre, pre <+: input → (pre.foldl editorStep (.prompt buffer)).bufLen ≤ 511
  stores : ∀ enter, IsEnter enter → ∀ i ∈ lineStores (.prompt buffer) (input ++ [enter]), i < 512
  handed : ∀ enter, IsEnter enter → ∃ m,
    ((input ++ [enter]).foldl editorStep (.prompt buffer)).handed = [m] ∧
      HoldsString m 0 (edited input)

/-! ### What a step keeps -/

section Steps

variable {s : LineEditor} {text : List UInt8} {c : UInt8} {buffer : ByteMemory} {input : List UInt8}

/-- The buffer starts with the edited line, and no line has been handed over. -/
structure Editing (s : LineEditor) (text : List UInt8) : Prop where
  noNul : (0 : UInt8) ∉ text
  bufLen : s.bufLen = text.length
  chars : ∀ i, (h : i < text.length) → s.buffer i = text[i]
  handed : s.handed = []

theorem Editing.prompt (buffer : ByteMemory) : Editing (.prompt buffer) [] :=
  ⟨by simp, rfl, fun i hi => absurd hi (by simp), rfl⟩

/-- A character that ends no line is a step of the edited line. -/
theorem Editing.step (h : Editing s text) (hc : ¬IsEnter c) :
    Editing (editorStep s c) (editedStep text c) := by
  unfold editorStep editedStep
  by_cases hzero : c = 0
  · rwa [if_pos hzero, if_pos hzero]
  rw [if_neg hzero, if_neg hzero, if_neg hc]
  have hlen := h.bufLen
  by_cases hback : c = 8
  · rw [if_pos hback, if_pos hback]
    split_ifs with hpos
    · refine ⟨fun hmem => h.noNul (List.mem_of_mem_dropLast hmem), ?_, fun i hi => ?_, h.handed⟩
      · rw [List.length_dropLast, ← hlen]
      · rw [List.length_dropLast] at hi
        dsimp only
        rw [Function.update_of_ne (by omega), List.getElem_dropLast, h.chars]
    · have hnil : text = [] := List.eq_nil_of_length_eq_zero (by omega)
      subst hnil
      exact h
  · rw [if_neg hback, if_neg hback]
    refine ⟨?_, by simp [hlen], fun i hi => ?_, h.handed⟩
    · simpa using ⟨h.noNul, Ne.symm hzero⟩
    · rw [List.length_append, List.length_singleton] at hi
      dsimp only
      by_cases hi' : i = text.length
      · subst hi'
        rw [List.getElem_concat_length rfl, hlen, Function.update_self]
      · rw [Function.update_of_ne (by omega), List.getElem_append_left (by omega), h.chars]

theorem Editing.foldl (h : Editing s text) (hinput : ∀ c ∈ input, ¬IsEnter c) :
    Editing (input.foldl editorStep s) (input.foldl editedStep text) := by
  induction input generalizing s text with
  | nil => exact h
  | cons c input ih =>
    exact ih (h.step (hinput c List.mem_cons_self))
      fun d hd => hinput d (List.mem_cons_of_mem c hd)

theorem editing_of_input (buffer : ByteMemory) (hinput : ∀ c ∈ input, ¬IsEnter c) :
    Editing (input.foldl editorStep (.prompt buffer)) (edited input) :=
  (Editing.prompt buffer).foldl hinput

/-- `Enter` stores at the end of the line and at the start of the buffer. -/
theorem editorStores_enter (hc : IsEnter c) : editorStores s c = [s.bufLen, 0] := by
  have hzero : c ≠ 0 := by
    obtain rfl | rfl := hc <;> decide
  unfold editorStores
  rw [if_neg hzero, if_pos hc]

/-- `Enter` hands over the line in the buffer, and goes back to the prompt. -/
theorem Editing.enter (h : Editing s text) (hc : IsEnter c) :
    ∃ m buffer, editorStep s c = ⟨0, buffer, [m]⟩ ∧ HoldsString m 0 text := by
  have hzero : c ≠ 0 := by
    obtain rfl | rfl := hc <;> decide
  unfold editorStep
  rw [if_neg hzero, if_pos hc, h.handed]
  refine ⟨Function.update s.buffer s.bufLen 0, _, rfl, h.noNul, fun i hi => ?_, ?_⟩
  · rw [zero_add, Function.update_of_ne (by have := h.bufLen; omega), h.chars]
  · rw [zero_add, ← h.bufLen, Function.update_self]

/-- A store is inside the buffer as long as the line is. -/
theorem editorStores_lt (h : s.bufLen ≤ 511) : ∀ i ∈ editorStores s c, i < 512 := by
  intro i hi
  unfold editorStores at hi
  split_ifs at hi <;> simp at hi <;> omega

theorem lineStores_append (s : LineEditor) (input more : List UInt8) :
    lineStores s (input ++ more) = lineStores s input ++ lineStores (input.foldl editorStep s) more := by
  induction input generalizing s with
  | nil => rfl
  | cons c input ih => rw [List.cons_append, lineStores, ih, lineStores, List.append_assoc,
      List.foldl_cons]

theorem lineStores_lt (h : ∀ pre, pre <+: input → (pre.foldl editorStep s).bufLen ≤ 511) :
    ∀ i ∈ lineStores s input, i < 512 := by
  induction input generalizing s with
  | nil => exact fun i hi => absurd hi (by simp [lineStores])
  | cons c input ih =>
    rw [lineStores, List.forall_mem_append]
    exact ⟨editorStores_lt (h [] List.nil_prefix),
      ih fun pre hpre => h (c :: pre) ((List.prefix_cons_inj c).2 hpre)⟩

end Steps

/-- **When the editor stays in its buffer.** For every input from a prompt to the next `Enter`,
the editor stays inside its buffer and hands over the edited line exactly when the edited line
never has more than 511 characters. -/
theorem editsWithin_iff (buffer : ByteMemory) (input : List UInt8)
    (hinput : ∀ c ∈ input, ¬IsEnter c) :
    EditsWithin buffer input ↔ ∀ pre, pre <+: input → (edited pre).length ≤ 511 := by
  have hpre : ∀ pre, pre <+: input → Editing (pre.foldl editorStep (.prompt buffer)) (edited pre) :=
    fun pre hpre => editing_of_input buffer fun c hc => hinput c (hpre.subset hc)
  constructor
  · intro h pre hprefix
    rw [← (hpre pre hprefix).bufLen]
    exact h.bufLen pre hprefix
  · intro h
    have hlen : ∀ pre, pre <+: input → (pre.foldl editorStep (.prompt buffer)).bufLen ≤ 511 := by
      intro pre hprefix
      rw [(hpre pre hprefix).bufLen]
      exact h pre hprefix
    have hend := hpre input List.prefix_rfl
    refine ⟨hlen, fun enter henter i hi => ?_, fun enter henter => ?_⟩
    · rw [lineStores_append, lineStores, editorStores_enter henter, lineStores, List.append_nil] at hi
      obtain hi | hi := List.mem_append.1 hi
      · exact lineStores_lt hlen i hi
      · have := hlen input List.prefix_rfl
        simp only [List.mem_cons, List.not_mem_nil, or_false] at hi
        omega
    · obtain ⟨m, buffer', hstep, hm⟩ := hend.enter henter
      refine ⟨m, ?_, hm⟩
      rw [List.foldl_append, List.foldl_cons, List.foldl_nil, hstep]

/-- Typing `lx`, a backspace and `s` hands over `ls`. -/
theorem editsWithin_backspace : EditsWithin (fun _ => 7) [108, 120, 8, 115] :=
  (editsWithin_iff (fun _ => 7) [108, 120, 8, 115] (by simp [IsEnter])).2 fun pre hpre => by
    have hlen : (edited pre).length ≤ pre.length := length_edited_le pre
    exact hlen.trans (hpre.length_le.trans (by decide))

/-- After 512 characters the terminator is stored behind the buffer. -/
theorem editsWithin_not_long :
    ¬∀ (buffer : ByteMemory) (input : List UInt8), (∀ c ∈ input, ¬IsEnter c) →
      EditsWithin buffer input := by
  intro h
  have hinput : ∀ c ∈ List.replicate 512 (97 : UInt8), ¬IsEnter c := by
    intro c hc
    rw [List.eq_of_mem_replicate hc]
    decide
  have hlong := (editsWithin_iff _ _ hinput).1 (h (fun _ => 0) _ hinput) _ List.prefix_rfl
  have hedited : ∀ n, edited (List.replicate n (97 : UInt8)) = List.replicate n 97 := by
    intro n
    induction n with
    | zero => rfl
    | succ n ih =>
      rw [List.replicate_succ', edited, List.foldl_append, ← edited, ih]
      rfl
  rw [hedited, List.length_replicate] at hlong
  exact absurd hlong (by decide)

end LittleLinux
