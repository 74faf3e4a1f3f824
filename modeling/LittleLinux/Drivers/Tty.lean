import LittleLinux.Lib.Run
import LittleLinux.Libc.Integers

/-!
# The terminal

`tty.c` draws characters into the 80 by 25 cells of the VGA text buffer. The state is the
current row and column, the colour, the buffer, and the cursor of the VGA controller, which
is taken to return the offset that was last set. Every store into the buffer is logged, so
that the cells a run touches can be spoken of.
-/

namespace LittleLinux

/-- `VGA_HEIGHT`. -/
def vgaHeight : ℕ := 25

/-- `VGA_WIDTH`. -/
def vgaWidth : ℕ := 80

/-- The terminal: its variables, the VGA cursor, and the indices stored to, newest first. -/
structure Terminal where
  terminalRow : ℤ
  terminalColumn : ℤ
  terminalColour : UInt8
  terminalBuffer : ℤ → UInt16
  cursor : UInt16
  stores : List ℤ

/-- `makeColour`. -/
def makeColour (fg bg : UInt8) : UInt8 := fg ||| bg <<< 4

/-- `makeVGAEntry`; the conversion of the `char` extends its sign. -/
def makeVGAEntry (c : UInt8) (colour : UInt8) : UInt16 :=
  c.toInt8.toInt16.toUInt16 ||| colour.toUInt16 <<< 8

/-- `getCharOffset`, in `unsigned int`. -/
def getCharOffset (x y : ℤ) : ℕ := toU32 (toU32 y * vgaWidth + toU32 x)

namespace Terminal

/-- `terminal_buffer[index] = v`. -/
def store (t : Terminal) (index : ℤ) (v : UInt16) : Terminal :=
  { t with terminalBuffer := Function.update t.terminalBuffer index v, stores := index :: t.stores }

/-- Set the row and the column. -/
def moveTo (t : Terminal) (column row : ℤ) : Terminal :=
  { t with terminalColumn := column, terminalRow := row }

/-- `ttySetCursor`; the offset is cut to an `unsigned short`. -/
def ttySetCursor (t : Terminal) (offset : ℕ) : Terminal :=
  { t with cursor := UInt16.ofNat offset }

end Terminal

/-- `clearTerminal`. -/
def clearTerminal (t : Terminal) : Terminal :=
  (List.range vgaHeight).foldl (fun t (y : ℕ) =>
    (List.range vgaWidth).foldl (fun t (x : ℕ) =>
      t.store (getCharOffset x y) (makeVGAEntry 32 t.terminalColour)) t) t

/-- `initTerminal`, on a machine with these contents of the VGA buffer and this cursor. -/
def initTerminal (buffer : ℤ → UInt16) (cursor : UInt16) : Terminal :=
  clearTerminal ⟨0, 0, makeColour 15 0, buffer, cursor, []⟩

/-- The `memcpy` of one row of `doScroll`, cell by cell. -/
def copyRow (t : Terminal) (y : ℕ) : Terminal :=
  (List.range vgaWidth).foldl (fun t (x : ℕ) =>
    t.store (getCharOffset 0 (y - 1) + x) (t.terminalBuffer (getCharOffset 0 y + x))) t

/-- `doScroll`. The loop that empties the last row runs over twice its width. -/
def doScroll (t : Terminal) : Terminal :=
  let t := (List.range' 1 (vgaHeight - 1)).foldl copyRow t
  (List.range (vgaWidth * 2)).foldl (fun t (x : ℕ) =>
    t.store (getCharOffset x (vgaHeight - 1)) (makeVGAEntry 0 t.terminalColour)) t

/-- `checkScroll`. -/
def checkScroll (t : Terminal) : Terminal :=
  let column := toI32 (t.terminalColumn + 1)
  let t := if column = vgaWidth then t.moveTo 0 (toI32 (t.terminalRow + 1))
    else t.moveTo column t.terminalRow
  if t.terminalRow = vgaHeight then
    let t := doScroll t
    t.moveTo t.terminalColumn (toI32 (t.terminalRow - 1))
  else t

/-- `terminalMvPutC`. -/
def terminalMvPutC (t : Terminal) (c : UInt8) (colour : UInt8) (col row : ℤ) : Terminal :=
  t.store (toI32 (getCharOffset col row)) (makeVGAEntry c colour)

/-- The `switch` of `terminalPutC`. -/
def putCharacter (t : Terminal) (c : UInt8) : Terminal :=
  if c = 10 then
    -- '\n' falls through to '\r'
    let t := checkScroll (t.moveTo t.terminalColumn (toI32 (t.terminalRow + 1)))
    t.moveTo 0 t.terminalRow
  else if c = 13 then t.moveTo 0 t.terminalRow
  else if c = 8 then
    let cursorPos := t.cursor.toNat - 1
    t.moveTo (cursorPos % vgaWidth : ℕ) (cursorPos / vgaWidth : ℕ)
  else
    checkScroll (terminalMvPutC t c t.terminalColour t.terminalColumn t.terminalRow)

/-- `terminalPutC`. -/
def terminalPutC (t : Terminal) (c : UInt8) : Terminal :=
  let t := putCharacter t c
  t.ttySetCursor (getCharOffset t.terminalColumn t.terminalRow)

/-! ### Staying on the screen -/

/-- The terminal stands on a cell of the screen. -/
def OnScreen (t : Terminal) : Prop :=
  (0 ≤ t.terminalRow ∧ t.terminalRow < 25) ∧ (0 ≤ t.terminalColumn ∧ t.terminalColumn < 80)

/-- Every store so far was to a cell of the screen. -/
def StoresOnScreen (t : Terminal) : Prop := ∀ i ∈ t.stores, 0 ≤ i ∧ i < 80 * 25

instance (t : Terminal) : Decidable (OnScreen t) := inferInstanceAs (Decidable (_ ∧ _))

instance (t : Terminal) : Decidable (StoresOnScreen t) :=
  inferInstanceAs (Decidable (∀ i ∈ t.stores, _))

/-- The character leaves room: the step neither needs a scroll nor jumps over the last row,
and a backspace finds the cursor on the screen or right behind it. -/
def Fits (t : Terminal) (c : UInt8) : Prop :=
  if c = 10 then t.terminalRow + (if t.terminalColumn = 79 then 2 else 1) < 25
  else if c = 13 then True
  else if c = 8 then t.cursor.toNat ≤ 2000
  else ¬(t.terminalColumn = 79 ∧ t.terminalRow = 24)

instance (t : Terminal) (c : UInt8) : Decidable (Fits t c) := by
  unfold Fits
  infer_instance

/-! ### The parts of a step -/

namespace Terminal

variable (t : Terminal) (column row : ℤ) (index : ℤ) (v : UInt16) (offset : ℕ)

@[simp]
theorem moveTo_terminalRow : (t.moveTo column row).terminalRow = row := rfl

@[simp]
theorem moveTo_terminalColumn : (t.moveTo column row).terminalColumn = column := rfl

@[simp]
theorem moveTo_stores : (t.moveTo column row).stores = t.stores := rfl

@[simp]
theorem moveTo_moveTo (column' row' : ℤ) :
    (t.moveTo column row).moveTo column' row' = t.moveTo column' row' := rfl

@[simp]
theorem store_terminalRow : (t.store index v).terminalRow = t.terminalRow := rfl

@[simp]
theorem store_terminalColumn : (t.store index v).terminalColumn = t.terminalColumn := rfl

@[simp]
theorem store_stores : (t.store index v).stores = index :: t.stores := rfl

@[simp]
theorem ttySetCursor_terminalRow : (t.ttySetCursor offset).terminalRow = t.terminalRow := rfl

@[simp]
theorem ttySetCursor_terminalColumn :
    (t.ttySetCursor offset).terminalColumn = t.terminalColumn := rfl

@[simp]
theorem ttySetCursor_stores : (t.ttySetCursor offset).stores = t.stores := rfl

end Terminal

variable {t : Terminal}

theorem getCharOffset_of_onScreen {x y : ℤ} (hx : 0 ≤ x ∧ x < 80) (hy : 0 ≤ y ∧ y < 25) :
    getCharOffset x y = y.toNat * 80 + x.toNat := by
  obtain ⟨x, rfl⟩ := Int.eq_ofNat_of_zero_le hx.1
  obtain ⟨y, rfl⟩ := Int.eq_ofNat_of_zero_le hy.1
  rw [getCharOffset, vgaWidth, toU32_of_lt (by omega), toU32_of_lt (by omega)]
  rw [← Nat.cast_mul, ← Nat.cast_add, toU32_of_lt (by omega)]
  omega

/-- Emptying the last row runs on behind the screen. -/
theorem mem_stores_doScroll (t : Terminal) : 2079 ∈ (doScroll t).stores := by
  have hrange : List.range (vgaWidth * 2) = List.range 159 ++ [159] := rfl
  simp only [doScroll, hrange, List.foldl_append, List.foldl_cons, List.foldl_nil,
    Terminal.store_stores]
  exact List.mem_cons.2 (Or.inl rfl)

/-- The terminal on the next cell. -/
def Terminal.advance (t : Terminal) : Terminal :=
  t.moveTo (if t.terminalColumn = 79 then 0 else t.terminalColumn + 1)
    (t.terminalRow + (if t.terminalColumn = 79 then 1 else 0))

/-- The first half of `checkScroll`. -/
theorem advance_eq (hcol : 0 ≤ t.terminalColumn ∧ t.terminalColumn < 80)
    (hrow : 0 ≤ t.terminalRow ∧ t.terminalRow ≤ 25) :
    (if toI32 (t.terminalColumn + 1) = vgaWidth then t.moveTo 0 (toI32 (t.terminalRow + 1))
      else t.moveTo (toI32 (t.terminalColumn + 1)) t.terminalRow) = t.advance := by
  rw [toI32_of_mem (x := t.terminalColumn + 1) (by omega) (by omega),
    toI32_of_mem (x := t.terminalRow + 1) (by omega) (by omega), Terminal.advance, vgaWidth]
  by_cases hlast : t.terminalColumn = 79
  · rw [if_pos (by omega), if_pos hlast, if_pos hlast]
  · rw [if_neg (by omega), if_neg hlast, if_neg hlast, add_zero]

/-- Without a scroll, `checkScroll` moves to the next cell. -/
theorem checkScroll_eq (hcol : 0 ≤ t.terminalColumn ∧ t.terminalColumn < 80)
    (hrow : 0 ≤ t.terminalRow ∧ t.terminalRow ≤ 25)
    (h : t.terminalRow + (if t.terminalColumn = 79 then 1 else 0) ≠ 25) :
    checkScroll t = t.advance := by
  simp only [checkScroll, advance_eq hcol hrow]
  exact if_neg h

/-- A scroll stores behind the screen. -/
theorem mem_stores_checkScroll (hcol : 0 ≤ t.terminalColumn ∧ t.terminalColumn < 80)
    (hrow : 0 ≤ t.terminalRow ∧ t.terminalRow ≤ 25)
    (h : t.terminalRow + (if t.terminalColumn = 79 then 1 else 0) = 25) :
    2079 ∈ (checkScroll t).stores := by
  have hrow' : t.advance.terminalRow = (vgaHeight : ℤ) := h
  simp only [checkScroll, advance_eq hcol hrow, if_pos hrow', Terminal.moveTo_stores]
  exact mem_stores_doScroll _

theorem not_storesOnScreen (h : 2079 ∈ t.stores) : ¬StoresOnScreen t := by
  intro hs
  have := (hs _ h).2
  omega

/-! ### One character -/

/-- A new line stays on the screen exactly when it fits. -/
theorem putCharacter_newline_iff (ht : OnScreen t) (hs : StoresOnScreen t) :
    (OnScreen (putCharacter t 10) ∧ StoresOnScreen (putCharacter t 10)) ↔ Fits t 10 := by
  obtain ⟨hrow, hcol⟩ := ht
  have hr := toI32_of_mem (x := t.terminalRow + 1) (by omega) (by omega)
  have hput : putCharacter t 10 =
      (checkScroll (t.moveTo t.terminalColumn (t.terminalRow + 1))).moveTo 0
        (checkScroll (t.moveTo t.terminalColumn (t.terminalRow + 1))).terminalRow := by
    simp only [putCharacter, if_true, hr]
  have hfits : Fits t 10 ↔ t.terminalRow + (if t.terminalColumn = 79 then 2 else 1) < 25 := by
    simp only [Fits, if_true]
  rw [hput, hfits]
  by_cases hscroll : t.terminalRow + 1 + (if t.terminalColumn = 79 then 1 else 0) = 25
  · have hmem := mem_stores_checkScroll (t := t.moveTo t.terminalColumn (t.terminalRow + 1))
      hcol ⟨by simp only [Terminal.moveTo_terminalRow]; omega,
        by simp only [Terminal.moveTo_terminalRow]; omega⟩ hscroll
    refine iff_of_false (fun h => not_storesOnScreen hmem h.2) ?_
    split_ifs at hscroll ⊢ <;> omega
  · rw [checkScroll_eq (t := t.moveTo t.terminalColumn (t.terminalRow + 1)) hcol
      ⟨by simp only [Terminal.moveTo_terminalRow]; omega,
        by simp only [Terminal.moveTo_terminalRow]; omega⟩ hscroll]
    simp only [OnScreen, StoresOnScreen, Terminal.advance, Terminal.moveTo_terminalRow,
      Terminal.moveTo_terminalColumn, Terminal.moveTo_stores] at hs ⊢
    -- only a new line at the end of the last row jumps over it
    constructor
    · rintro ⟨⟨⟨_, hlt⟩, _⟩, _⟩
      split_ifs at hlt ⊢ <;> omega
    · intro hlt
      refine ⟨⟨⟨?_, ?_⟩, by omega, by omega⟩, hs⟩ <;> split_ifs at hlt ⊢ <;> omega

/-- A printed character stays on the screen exactly when it is not put on the last cell. -/
theorem putCharacter_print_iff {c : UInt8} (h₁ : c ≠ 10) (h₂ : c ≠ 13) (h₃ : c ≠ 8)
    (ht : OnScreen t) (hs : StoresOnScreen t) :
    (OnScreen (putCharacter t c) ∧ StoresOnScreen (putCharacter t c)) ↔ Fits t c := by
  obtain ⟨hrow, hcol⟩ := ht
  have hindex : toI32 (getCharOffset t.terminalColumn t.terminalRow) =
      t.terminalRow * 80 + t.terminalColumn := by
    rw [getCharOffset_of_onScreen hcol hrow, toI32_of_mem (by omega) (by omega)]
    omega
  simp only [putCharacter, Fits, if_neg h₁, if_neg h₂, if_neg h₃, terminalMvPutC, hindex]
  set t' := t.store (t.terminalRow * 80 + t.terminalColumn) (makeVGAEntry c t.terminalColour)
    with ht'
  have hrow' : t'.terminalRow = t.terminalRow := rfl
  have hcol' : t'.terminalColumn = t.terminalColumn := rfl
  have hs' : StoresOnScreen t' := by
    intro i hi
    rcases List.mem_cons.1 hi with rfl | hi
    · constructor <;> omega
    · exact hs i hi
  -- scrolling clears one row too many, which is behind the screen
  by_cases hscroll : t'.terminalRow + (if t'.terminalColumn = 79 then 1 else 0) = 25
  · have hmem := mem_stores_checkScroll (by omega) (by omega) hscroll
    refine iff_of_false (fun h => not_storesOnScreen hmem h.2) (not_not.2 ?_)
    rw [hrow', hcol'] at hscroll
    split_ifs at hscroll with hlast
    · exact ⟨hlast, by omega⟩
    · omega
  · rw [checkScroll_eq (by omega) (by omega) hscroll]
    rw [hrow', hcol'] at hscroll
    refine iff_of_true ⟨?_, hs'⟩ ?_
    · simp only [OnScreen, Terminal.advance, Terminal.moveTo_terminalRow,
        Terminal.moveTo_terminalColumn, hrow', hcol']
      split_ifs at hscroll ⊢ with hlast <;> omega
    · rintro ⟨hlast, hbottom⟩
      rw [if_pos hlast] at hscroll
      omega

/-- A backspace stays on the screen exactly when the cursor is on it or right behind it. -/
theorem putCharacter_backspace_iff (hs : StoresOnScreen t) :
    (OnScreen (putCharacter t 8) ∧ StoresOnScreen (putCharacter t 8)) ↔ Fits t 8 := by
  have hput : putCharacter t 8 = t.moveTo ((t.cursor.toNat - 1) % 80 : ℕ)
      ((t.cursor.toNat - 1) / 80 : ℕ) := rfl
  have hfits : Fits t 8 ↔ t.cursor.toNat ≤ 2000 := Iff.rfl
  rw [hput, hfits]
  simp only [OnScreen, StoresOnScreen, Terminal.moveTo_terminalRow,
    Terminal.moveTo_terminalColumn, Terminal.moveTo_stores] at hs ⊢
  constructor
  · rintro ⟨⟨⟨_, hlt⟩, _⟩, _⟩
    omega
  · intro hle
    exact ⟨⟨⟨by omega, by omega⟩, by omega, by omega⟩, hs⟩

theorem terminalPutC_iff (c : UInt8) (ht : OnScreen t ∧ StoresOnScreen t) :
    (OnScreen (terminalPutC t c) ∧ StoresOnScreen (terminalPutC t c)) ↔ Fits t c := by
  -- setting the cursor changes neither the position nor the stores
  have hcursor : (OnScreen (terminalPutC t c) ∧ StoresOnScreen (terminalPutC t c)) ↔
      (OnScreen (putCharacter t c) ∧ StoresOnScreen (putCharacter t c)) := Iff.rfl
  rw [hcursor]
  by_cases h₁ : c = 10
  · rw [h₁]
    exact putCharacter_newline_iff ht.1 ht.2
  by_cases h₂ : c = 13
  · rw [h₂]
    exact iff_of_true ⟨⟨ht.1.1, le_rfl, show (0 : ℤ) < 80 by omega⟩, ht.2⟩ trivial
  by_cases h₃ : c = 8
  · rw [h₃]
    exact putCharacter_backspace_iff ht.2
  · exact putCharacter_print_iff h₁ h₂ h₃ ht.1 ht.2

/-! ### Whole runs -/

/-- `clearTerminal` stays on the screen. -/
theorem clearTerminal_spec (ht : OnScreen t ∧ StoresOnScreen t) :
    OnScreen (clearTerminal t) ∧ StoresOnScreen (clearTerminal t) := by
  unfold clearTerminal
  refine Along.invariant (C := fun _ y => y < vgaHeight) (I := fun t => OnScreen t ∧ StoresOnScreen t)
    ?_ ht (Along.of_mem _ fun y hy => List.mem_range.1 hy)
  intro t y ht hy
  refine Along.invariant (C := fun _ x => x < vgaWidth) (I := fun t => OnScreen t ∧ StoresOnScreen t)
    ?_ ht (Along.of_mem _ fun x hx => List.mem_range.1 hx)
  intro t x ht hx
  rw [vgaHeight] at hy
  rw [vgaWidth] at hx
  refine ⟨ht.1, fun i hi => ?_⟩
  rcases List.mem_cons.1 hi with rfl | hi
  · rw [getCharOffset_of_onScreen ⟨by omega, by omega⟩ ⟨by omega, by omega⟩]
    omega
  · exact ht.2 i hi

theorem initTerminal_spec (buffer : ℤ → UInt16) (cursor : UInt16) :
    OnScreen (initTerminal buffer cursor) ∧ StoresOnScreen (initTerminal buffer cursor) :=
  clearTerminal_spec
    ⟨⟨⟨le_rfl, show (0 : ℤ) < 25 by omega⟩, le_rfl, show (0 : ℤ) < 80 by omega⟩,
      fun _ h => absurd h (by simp)⟩

/-- **When the terminal stays on the screen.** From `initTerminal`, whatever the buffer and
the cursor of the machine were, the position and every store stay on the screen throughout a
sequence of characters exactly when each character fits where it is put. -/
theorem terminal_stays_on_screen_iff (buffer : ℤ → UInt16) (cursor : UInt16) (cs : List UInt8) :
    (∀ pre, pre <+: cs → OnScreen (pre.foldl terminalPutC (initTerminal buffer cursor)) ∧
      StoresOnScreen (pre.foldl terminalPutC (initTerminal buffer cursor))) ↔
    Along terminalPutC Fits (initTerminal buffer cursor) cs :=
  Along.iff_forall_prefix (I := fun t => OnScreen t ∧ StoresOnScreen t)
    (fun _ c ht => terminalPutC_iff c ht) (initTerminal_spec buffer cursor)

/-- A new line on the last cell of row 24 leaves the screen for row 26, and the 25th new line
of an empty screen stores behind it. -/
theorem terminal_leaves_screen :
    ¬OnScreen ((List.replicate 24 (10 : UInt8) ++ List.replicate 79 97 ++ [10]).foldl terminalPutC
        (initTerminal (fun _ => 0) 0)) ∧
      ¬StoresOnScreen ((List.replicate 25 (10 : UInt8)).foldl terminalPutC
        (initTerminal (fun _ => 0) 0)) := by
  constructor <;> decide +kernel

end LittleLinux
