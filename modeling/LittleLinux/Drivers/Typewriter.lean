import LittleLinux.Drivers.Tty

/-!
# The terminal as a typewriter

A typewriter writes on a roll of paper, and one sees the last 25 rows of it. `Typewriter.type` is what
a character should do: the paper only moves when the last row that one sees is full or ended.

`terminalPutC` has no paper; it copies the rows of the screen. `OnPaper` is that the screen shows what one sees
of the paper, with the cell of the next character in the same place, and every character keeps it
(`OnPaper.step`), but a new line at the end of a row, which the code takes for two.
-/

namespace LittleLinux

/-! ### The typewriter -/

/-- What is on the paper by rows and columns, the first row that one sees, and where the next character
goes. -/
structure Typewriter where
  paper : ℕ → ℕ → Option UInt8
  top : ℕ
  row : ℕ
  column : ℕ

namespace Typewriter

/-- With an empty roll. -/
def blank : Typewriter := ⟨fun _ _ => none, 0, 0, 0⟩

/-- The next row; the paper moves if one would not see it. -/
def feed (w : Typewriter) : Typewriter :=
  { w with row := w.row + 1, top := if w.row + 1 = w.top + 25 then w.top + 1 else w.top }

/-- The cell before, if one sees it. -/
def back (w : Typewriter) : Typewriter :=
  if 0 < w.column then { w with column := w.column - 1 }
  else if w.top < w.row then { w with row := w.row - 1, column := 79 }
  else w

/-- Write a character and go to the next cell. -/
def print (w : Typewriter) (c : UInt8) : Typewriter :=
  let written := { w with paper := Function.update w.paper w.row (Function.update (w.paper w.row) w.column c) }
  if w.column = 79 then { written.feed with column := 0 } else { written with column := w.column + 1 }

def type (w : Typewriter) (c : UInt8) : Typewriter :=
  if c = 10 then { w.feed with column := 0 }
  else if c = 13 then { w with column := 0 }
  else if c = 8 then w.back
  else w.print c

end Typewriter

/-! ### Stores into the screen -/

/-- A cell that shows a character, or nothing. -/
def Glyph (colour : UInt8) (entry : UInt16) : Option UInt8 → Prop
  | some c => entry = makeVGAEntry c colour
  | none => entry = makeVGAEntry 32 colour ∨ entry = makeVGAEntry 0 colour

/-- Everything but the cells and the log of the stores is the same. -/
structure OnlyCells (t t' : Terminal) : Prop where
  row : t'.terminalRow = t.terminalRow
  column : t'.terminalColumn = t.terminalColumn
  colour : t'.terminalColour = t.terminalColour
  cursor : t'.cursor = t.cursor

theorem OnlyCells.refl (t : Terminal) : OnlyCells t t := ⟨rfl, rfl, rfl, rfl⟩

theorem OnlyCells.trans {t t' t'' : Terminal} (h : OnlyCells t t') (h' : OnlyCells t' t'') :
    OnlyCells t t'' :=
  ⟨h'.row.trans h.row, h'.column.trans h.column, h'.colour.trans h.colour, h'.cursor.trans h.cursor⟩

/-- **A loop of stores**, at `f x` of what `g` says, when that is `v x` as long as only cells of the loop have
changed. -/
theorem foldl_store {f : ℕ → ℤ} {g : Terminal → ℕ → UInt16} {v : ℕ → UInt16} (l : List ℕ) (t : Terminal)
    (hg : ∀ x ∈ l, ∀ t', OnlyCells t t' → (∀ i, (∀ y ∈ l, i ≠ f y) → t'.terminalBuffer i = t.terminalBuffer i) →
      g t' x = v x)
    (hv : ∀ x ∈ l, ∀ y ∈ l, f x = f y → v x = v y) :
    let t' := l.foldl (fun t x => t.store (f x) (g t x)) t
    OnlyCells t t' ∧ (∀ x ∈ l, t'.terminalBuffer (f x) = v x) ∧
      ∀ i, (∀ y ∈ l, i ≠ f y) → t'.terminalBuffer i = t.terminalBuffer i := by
  induction l generalizing t with
  | nil => exact ⟨.refl t, fun x hx => absurd hx List.not_mem_nil, fun _ _ => rfl⟩
  | cons a l ih =>
    have ha : g t a = v a := hg a List.mem_cons_self t (.refl t) fun _ _ => rfl
    have hplace : OnlyCells t (t.store (f a) (g t a)) := ⟨rfl, rfl, rfl, rfl⟩
    have hstore (i : ℤ) (hi : i ≠ f a) : (t.store (f a) (g t a)).terminalBuffer i = t.terminalBuffer i :=
      Function.update_of_ne hi _ _
    obtain ⟨hsame, hin, hout⟩ := ih (t.store (f a) (g t a))
      (fun x hx t' hp hi => hg x (List.mem_cons_of_mem a hx) t' (hplace.trans hp) fun i hne => by
        rw [hi i fun y hy => hne y (List.mem_cons_of_mem a hy), hstore i (hne a List.mem_cons_self)])
      fun x hx y hy => hv x (List.mem_cons_of_mem a hx) y (List.mem_cons_of_mem a hy)
    refine ⟨hplace.trans hsame, fun x hx => ?_, fun i hi => ?_⟩
    · by_cases hmem : ∃ y ∈ l, f x = f y
      · obtain ⟨y, hy, hxy⟩ := hmem
        rw [List.foldl_cons, hxy, hin y hy, hv x hx y (List.mem_cons_of_mem a hy) hxy]
      · rcases List.mem_cons.1 hx with rfl | hx
        · rw [List.foldl_cons, hout _ fun y hy heq => hmem ⟨y, hy, heq⟩, ← ha]
          exact Function.update_self _ _ _
        · exact absurd ⟨x, hx, rfl⟩ hmem
    · rw [List.foldl_cons, hout i fun y hy => hi y (List.mem_cons_of_mem a hy), hstore i (hi a List.mem_cons_self)]

theorem getCharOffset_natCast {x y : ℕ} (h : y * 80 + x < 2 ^ 32) :
    (getCharOffset (x : ℤ) (y : ℤ) : ℤ) = y * 80 + x := by
  rw [getCharOffset, vgaWidth, toU32_of_lt (by omega), toU32_of_lt (by omega), ← Nat.cast_mul, ← Nat.cast_add,
    toU32_of_lt (by omega)]
  push_cast
  rfl

/-- One row of a scroll. -/
theorem copyRow_spec {y : ℕ} (hy : 1 ≤ y ∧ y < 25) (t : Terminal) :
    OnlyCells t (copyRow t y) ∧
      (∀ x : ℕ, x < 80 → (copyRow t y).terminalBuffer ((y - 1 : ℕ) * 80 + x) = t.terminalBuffer (y * 80 + x)) ∧
      ∀ i : ℤ, (∀ x : ℕ, x < 80 → i ≠ (y - 1 : ℕ) * 80 + x) →
        (copyRow t y).terminalBuffer i = t.terminalBuffer i := by
  have hto : (getCharOffset 0 (y - 1) : ℤ) = (y - 1 : ℕ) * 80 := by
    have h := getCharOffset_natCast (x := 0) (y := y - 1) (by omega)
    rw [show (y : ℤ) - 1 = (y - 1 : ℕ) by omega]
    simpa using h
  have hfrom : (getCharOffset 0 y : ℤ) = y * 80 := by
    simpa using getCharOffset_natCast (x := 0) (y := y) (by omega)
  have hloop := foldl_store (f := fun x => getCharOffset 0 (y - 1) + x)
    (g := fun t x => t.terminalBuffer (getCharOffset 0 y + x)) (v := fun x => t.terminalBuffer (y * 80 + x))
    (List.range vgaWidth) t ?_ ?_
  · obtain ⟨hsame, hrow, hother⟩ := hloop
    refine ⟨hsame, fun x hx => ?_, fun i hi => hother i fun x hx => ?_⟩
    · rw [← hto]
      exact hrow x (List.mem_range.2 hx)
    · rw [hto]
      exact hi x (List.mem_range.1 hx)
  · -- the row that is copied is not the row that is written
    intro x hx t' _ hsame
    rw [List.mem_range, vgaWidth] at hx
    rw [hfrom]
    refine hsame _ fun z hz => ?_
    rw [List.mem_range, vgaWidth] at hz
    rw [hto]
    omega
  · intro x _ z _ heq
    rw [show x = z by omega]

theorem foldl_copyRow_spec (t : Terminal) {k : ℕ} (hk : k ≤ 24) :
    let t' := (List.range' 1 k).foldl copyRow t
    OnlyCells t t' ∧ (∀ i : ℕ, i < k * 80 → t'.terminalBuffer i = t.terminalBuffer (i + 80)) ∧
      ∀ i : ℕ, k * 80 ≤ i → t'.terminalBuffer i = t.terminalBuffer i := by
  induction k with
  | zero => exact ⟨.refl t, fun i hi => absurd hi (by omega), fun _ _ => rfl⟩
  | succ k ih =>
    obtain ⟨hsame, hcopied, hrest⟩ := ih (by omega)
    rw [List.range'_1_concat, List.foldl_append, List.foldl_cons, List.foldl_nil]
    set t₁ := (List.range' 1 k).foldl copyRow t
    obtain ⟨hsame₁, hrow, hother⟩ := copyRow_spec (y := 1 + k) (by omega) t₁
    refine ⟨hsame.trans hsame₁, fun i hi => ?_, fun i hi => ?_⟩
    · rcases lt_or_ge i (k * 80) with hlt | hge
      · rw [hother i fun x _ => by omega, hcopied i hlt]
      · have h := hrow (i - k * 80) (by omega)
        rw [show ((1 + k - 1 : ℕ) : ℤ) * 80 + ((i - k * 80 : ℕ) : ℤ) = i by omega] at h
        rw [h, show ((1 + k : ℕ) : ℤ) * 80 + ((i - k * 80 : ℕ) : ℤ) = ((i + 80 : ℕ) : ℤ) by omega,
          hrest (i + 80) (by omega)]
        push_cast
        rfl
    · rw [hother i fun x _ => by omega, hrest i (by omega)]

/-- **A scroll** moves the rows up and empties the last one. -/
theorem doScroll_spec (t : Terminal) :
    OnlyCells t (doScroll t) ∧
      (∀ i : ℕ, i < 1920 → (doScroll t).terminalBuffer i = t.terminalBuffer (i + 80)) ∧
      ∀ i : ℕ, 1920 ≤ i → i < 2000 → (doScroll t).terminalBuffer i = makeVGAEntry 0 t.terminalColour := by
  obtain ⟨hsame, hcopied, -⟩ := foldl_copyRow_spec t (k := 24) le_rfl
  set t₁ := (List.range' 1 24).foldl copyRow t
  have hloop := foldl_store (f := fun x => getCharOffset x (vgaHeight - 1))
    (g := fun t _ => makeVGAEntry 0 t.terminalColour) (v := fun _ => makeVGAEntry 0 t.terminalColour)
    (List.range (vgaWidth * 2)) t₁ (fun x _ t' hplace _ => ?_) fun _ _ _ _ _ => rfl
  · have hindex (x : ℕ) (hx : x < 160) : (getCharOffset x (vgaHeight - 1) : ℤ) = 1920 + x := by
      have h := getCharOffset_natCast (x := x) (y := 24) (by omega)
      exact h
    obtain ⟨hplace, hemptied, hother⟩ := hloop
    refine ⟨hsame.trans hplace, fun i hi => ?_, fun i h₁ h₂ => ?_⟩
    · refine (hother i fun x hx => ?_).trans (hcopied i hi)
      rw [hindex x (List.mem_range.1 hx)]
      omega
    · have h := hemptied (i - 1920) (List.mem_range.2 (by rw [vgaWidth]; omega))
      rw [hindex (i - 1920) (by omega), show (1920 : ℤ) + (i - 1920 : ℕ) = i by omega] at h
      exact h
  · rw [hplace.colour, hsame.colour]

namespace Terminal

variable (t : Terminal) (column row : ℤ)

@[simp]
theorem moveTo_terminalBuffer : (t.moveTo column row).terminalBuffer = t.terminalBuffer := rfl

@[simp]
theorem moveTo_terminalColour : (t.moveTo column row).terminalColour = t.terminalColour := rfl

theorem moveTo_self {t : Terminal} {column : ℤ} (h : t.terminalColumn = column) :
    t.moveTo column t.terminalRow = t := by
  subst h
  rfl

end Terminal

/-! ### The screen and the paper -/

/-- The screen shows what one sees of the paper, and the next character goes to the same place. -/
structure OnPaper (t : Terminal) (w : Typewriter) : Prop where
  row : t.terminalRow = (w.row - w.top : ℕ)
  column : t.terminalColumn = w.column
  row_mem : w.top ≤ w.row ∧ w.row < w.top + 25
  column_lt : w.column < 80
  seen : ∀ y x : ℕ, y < 25 → x < 80 →
    Glyph t.terminalColour (t.terminalBuffer (y * 80 + x : ℕ)) (w.paper (w.top + y) x)
  fresh : ∀ r x, w.top + 25 ≤ r → w.paper r x = none

/-- The second half of `checkScroll`. -/
def scrolled (t : Terminal) : Terminal :=
  if t.terminalRow = 25 then (doScroll t).moveTo t.terminalColumn 24 else t

theorem checkScroll_eq_scrolled {t : Terminal} (hcol : 0 ≤ t.terminalColumn ∧ t.terminalColumn < 80)
    (hrow : 0 ≤ t.terminalRow ∧ t.terminalRow ≤ 25) : checkScroll t = scrolled t.advance := by
  simp only [checkScroll, advance_eq hcol hrow, scrolled]
  have hheight : t.advance.terminalRow = (vgaHeight : ℤ) ↔ t.advance.terminalRow = 25 := Iff.rfl
  obtain ⟨hsame, -, -⟩ := doScroll_spec t.advance
  by_cases h : t.advance.terminalRow = 25
  · rw [if_pos h, if_pos (hheight.2 h), hsame.column, hsame.row, h]
    rfl
  · rw [if_neg h, if_neg (mt hheight.1 h)]

section OnPaper

variable {t t' : Terminal} {w : Typewriter} {c : UInt8}

theorem OnPaper.onScreen (h : OnPaper t w) : OnScreen t := by
  have hrow := h.row
  have hcolumn := h.column
  have hmem := h.row_mem
  have hlt := h.column_lt
  refine ⟨⟨?_, ?_⟩, ?_, ?_⟩
  all_goals omega

/-- Going to the next row moves the paper when the code copies the rows. -/
theorem OnPaper.feed (h : OnPaper t w) (hrow : t'.terminalRow = t.terminalRow + 1)
    (hbuffer : t'.terminalBuffer = t.terminalBuffer) (hcolour : t'.terminalColour = t.terminalColour) :
    OnPaper ((scrolled t').moveTo 0 (scrolled t').terminalRow) { w.feed with column := 0 } := by
  obtain ⟨htop, hlt⟩ := h.row_mem
  have hr := h.row
  have hpaper : w.feed.paper = w.paper := rfl
  have hnext : w.feed.row = w.row + 1 := rfl
  rw [scrolled]
  -- in the last row the screen scrolls and the window moves down; elsewhere only the cursor does
  by_cases hlast : w.row + 1 = w.top + 25
  · have h25 : t'.terminalRow = 25 := by omega
    have htop' : w.feed.top = w.top + 1 := if_pos hlast
    obtain ⟨hsame, hcopied, hemptied⟩ := doScroll_spec t'
    rw [if_pos h25, Terminal.moveTo_moveTo, Terminal.moveTo_terminalRow]
    refine ⟨?_, rfl, ?_, by simp, fun y x hy hx => ?_, fun r x hr => ?_⟩
    · rw [Terminal.moveTo_terminalRow, hnext, htop']
      omega
    · rw [hnext, htop']
      omega
    · rw [Terminal.moveTo_terminalBuffer, Terminal.moveTo_terminalColour, hpaper, htop', hsame.colour]
      -- 24 rows are copied up, and the freed one is blank on the paper as well
      rcases Nat.lt_or_ge y 24 with hy' | hy'
      · rw [hcopied (y * 80 + x) (by omega), hbuffer, hcolour, show w.top + 1 + y = w.top + (y + 1) by omega]
        have hseen := h.seen (y + 1) x (by omega) hx
        rwa [show (((y + 1) * 80 + x : ℕ) : ℤ) = ((y * 80 + x : ℕ) : ℤ) + 80 by omega] at hseen
      · rw [hemptied (y * 80 + x) (by omega) (by omega), h.fresh _ x (by omega)]
        exact Or.inr rfl
    · rw [htop'] at hr
      exact h.fresh r x (by omega)
  · have h25 : t'.terminalRow ≠ 25 := by omega
    have htop' : w.feed.top = w.top := if_neg hlast
    rw [if_neg h25]
    refine ⟨?_, rfl, ?_, by simp, fun y x hy hx => ?_, fun r x hr => ?_⟩
    · rw [Terminal.moveTo_terminalRow, hnext, htop']
      omega
    · rw [hnext, htop']
      omega
    · rw [Terminal.moveTo_terminalBuffer, Terminal.moveTo_terminalColour, hpaper, htop', hbuffer, hcolour]
      exact h.seen y x hy hx
    · rw [htop'] at hr
      exact h.fresh r x hr

theorem OnPaper.newline (h : OnPaper t w) (hcolumn : w.column ≠ 79) :
    OnPaper (putCharacter t 10) (w.type 10) := by
  obtain ⟨⟨hrow, hrow'⟩, hcol, hcol'⟩ := h.onScreen
  have hc := h.column
  have hnext : toI32 (t.terminalRow + 1) = t.terminalRow + 1 := toI32_of_mem (by omega) (by omega)
  have hput : putCharacter t 10 = (checkScroll (t.moveTo t.terminalColumn (t.terminalRow + 1))).moveTo 0
      (checkScroll (t.moveTo t.terminalColumn (t.terminalRow + 1))).terminalRow := by
    rw [putCharacter, if_pos rfl, hnext]
  have hadvance : (t.moveTo t.terminalColumn (t.terminalRow + 1)).advance =
      t.moveTo (t.terminalColumn + 1) (t.terminalRow + 1) := by
    rw [Terminal.advance, Terminal.moveTo_terminalColumn, if_neg (by omega), if_neg (by omega),
      Terminal.moveTo_terminalRow, add_zero, Terminal.moveTo_moveTo]
  have hscroll : checkScroll (t.moveTo t.terminalColumn (t.terminalRow + 1)) =
      scrolled (t.moveTo (t.terminalColumn + 1) (t.terminalRow + 1)) := by
    rw [← hadvance]
    refine checkScroll_eq_scrolled ⟨hcol, hcol'⟩ ?_
    rw [Terminal.moveTo_terminalRow]
    omega
  rw [hput, hscroll, Typewriter.type, if_pos rfl]
  exact h.feed rfl rfl rfl

theorem OnPaper.carriageReturn (h : OnPaper t w) : OnPaper (putCharacter t 13) (w.type 13) :=
  ⟨h.row, rfl, h.row_mem, by simp [Typewriter.type], h.seen, h.fresh⟩

/-- The cursor is where the next character goes. -/
def AtCursor (t : Terminal) : Prop := (t.cursor.toNat : ℤ) = t.terminalRow * 80 + t.terminalColumn

theorem OnPaper.backspace (h : OnPaper t w) (hcursor : AtCursor t) : OnPaper (putCharacter t 8) (w.type 8) := by
  obtain ⟨htop, hlt⟩ := h.row_mem
  have hrow := h.row
  have hcolumn := h.column
  have hcolumn' := h.column_lt
  rw [AtCursor] at hcursor
  have hput : putCharacter t 8 =
      t.moveTo ((t.cursor.toNat - 1) % 80 : ℕ) ((t.cursor.toNat - 1) / 80 : ℕ) := rfl
  have htype : w.type 8 = w.back := rfl
  rw [hput, htype, Typewriter.back]
  -- within a row, back over the end of a row, and at the first cell of the window
  split_ifs with hfirst hsecond
  · refine ⟨?_, ?_, h.row_mem, ?_, h.seen, h.fresh⟩
    · rw [Terminal.moveTo_terminalRow]
      dsimp only
      omega
    · rw [Terminal.moveTo_terminalColumn]
      dsimp only
      omega
    · dsimp only
      omega
  · refine ⟨?_, ?_, ?_, by simp, h.seen, h.fresh⟩
    · rw [Terminal.moveTo_terminalRow]
      dsimp only
      omega
    · rw [Terminal.moveTo_terminalColumn]
      dsimp only
      omega
    · dsimp only
      omega
  · refine ⟨?_, ?_, h.row_mem, h.column_lt, h.seen, h.fresh⟩
    · rw [Terminal.moveTo_terminalRow]
      omega
    · rw [Terminal.moveTo_terminalColumn]
      omega

/-- The character is written into the cell of the screen that shows its cell of the paper. -/
theorem OnPaper.write (h : OnPaper t w) (c : UInt8) :
    OnPaper (terminalMvPutC t c t.terminalColour t.terminalColumn t.terminalRow)
      { w with paper := Function.update w.paper w.row (Function.update (w.paper w.row) w.column c) } := by
  obtain ⟨hrow, hcol⟩ := h.onScreen
  obtain ⟨htop, hlt⟩ := h.row_mem
  have hr := h.row
  have hc := h.column
  have hindex : toI32 (getCharOffset t.terminalColumn t.terminalRow) =
      (((w.row - w.top) * 80 + w.column : ℕ) : ℤ) := by
    rw [getCharOffset_of_onScreen hcol hrow, toI32_of_mem (by omega) (by omega)]
    omega
  rw [terminalMvPutC, hindex]
  refine ⟨h.row, h.column, h.row_mem, h.column_lt, fun y x hy hx => ?_, fun r x hr => ?_⟩
  · by_cases hsame : w.top + y = w.row
    · rcases eq_or_ne x w.column with rfl | hne
      · have hcell : y = w.row - w.top := by omega
        subst hcell
        simp only [Terminal.store, hsame, Function.update_self]
        exact rfl
      · have hcell : ((y * 80 + x : ℕ) : ℤ) ≠ ((w.row - w.top) * 80 + w.column : ℕ) := by
          have := h.column_lt
          omega
        simp only [Terminal.store, hsame, Function.update_self, Function.update_of_ne hcell, Function.update_of_ne hne]
        rw [← hsame]
        exact h.seen y x hy hx
    · have hcell : ((y * 80 + x : ℕ) : ℤ) ≠ ((w.row - w.top) * 80 + w.column : ℕ) := by
        have := h.column_lt
        omega
      simp only [Terminal.store, Function.update_of_ne hcell, Function.update_of_ne hsame]
      exact h.seen y x hy hx
  · dsimp only at hr ⊢
    rw [Function.update_of_ne (by omega)]
    exact h.fresh r x hr

theorem OnPaper.print (h : OnPaper t w) (h₁ : c ≠ 10) (h₂ : c ≠ 13) (h₃ : c ≠ 8) :
    OnPaper (putCharacter t c) (w.type c) := by
  have hwritten := h.write c
  set t₁ := terminalMvPutC t c t.terminalColour t.terminalColumn t.terminalRow with ht₁
  obtain ⟨⟨hrow, hrow'⟩, hcol, hcol'⟩ := h.onScreen
  have hc := h.column
  have hrow₁ : t₁.terminalRow = t.terminalRow := rfl
  have hcol₁ : t₁.terminalColumn = t.terminalColumn := rfl
  have hput : putCharacter t c = scrolled t₁.advance := by
    rw [putCharacter, if_neg h₁, if_neg h₂, if_neg h₃, ← ht₁]
    exact checkScroll_eq_scrolled (by omega) (by omega)
  have htype : w.type c = w.print c := by
    rw [Typewriter.type, if_neg h₁, if_neg h₂, if_neg h₃]
  clear_value t₁
  rw [hput, htype, Typewriter.print]
  by_cases hlast : w.column = 79
  · have hlast₁ : t₁.terminalColumn = 79 := by omega
    rw [Terminal.advance, if_pos hlast₁, if_pos hlast₁, hrow₁, if_pos hlast]
    have hfed : OnPaper ((scrolled (t₁.moveTo 0 (t.terminalRow + 1))).moveTo 0
        (scrolled (t₁.moveTo 0 (t.terminalRow + 1))).terminalRow) _ :=
      hwritten.feed (congrArg (· + 1) hrow₁.symm) rfl rfl
    -- the column is 0 already
    have hsame : (scrolled (t₁.moveTo 0 (t.terminalRow + 1))).terminalColumn = 0 := by
      rw [scrolled]
      split_ifs
      · rfl
      · rfl
    rwa [Terminal.moveTo_self hsame] at hfed
  · have h25 : (t₁.moveTo (t.terminalColumn + 1) t.terminalRow).terminalRow ≠ 25 := by
      rw [Terminal.moveTo_terminalRow]
      omega
    have hlt := h.column_lt
    have hlast₁ : t₁.terminalColumn ≠ 79 := by omega
    rw [Terminal.advance, if_neg hlast₁, if_neg hlast₁, hcol₁, hrow₁, add_zero, scrolled, if_neg h25, if_neg hlast]
    refine ⟨hrow₁.symm.trans hwritten.row, ?_, hwritten.row_mem, ?_, hwritten.seen, hwritten.fresh⟩
    · rw [Terminal.moveTo_terminalColumn, hc]
      push_cast
      rfl
    · dsimp only
      omega

/-- **One character**, with the cursor where it belongs or no backspace. -/
theorem OnPaper.step (h : OnPaper t w) (hcursor : c = 8 → AtCursor t) (hnewline : c = 10 → w.column ≠ 79) :
    OnPaper (terminalPutC t c) (w.type c) ∧ AtCursor (terminalPutC t c) := by
  have hput : OnPaper (putCharacter t c) (w.type c) := by
    by_cases h₁ : c = 10
    · rw [h₁]
      exact h.newline (hnewline h₁)
    by_cases h₂ : c = 13
    · rw [h₂]
      exact h.carriageReturn
    by_cases h₃ : c = 8
    · rw [h₃]
      exact h.backspace (hcursor h₃)
    · exact h.print h₁ h₂ h₃
  refine ⟨⟨hput.row, hput.column, hput.row_mem, hput.column_lt, hput.seen, hput.fresh⟩, ?_⟩
  obtain ⟨hrow, hcol⟩ := hput.onScreen
  have hoffset := getCharOffset_of_onScreen hcol hrow
  rw [terminalPutC, AtCursor, Terminal.ttySetCursor_terminalRow, Terminal.ttySetCursor_terminalColumn, hoffset,
    Terminal.ttySetCursor]
  dsimp only
  rw [UInt16.toNat_ofNat']
  omega

end OnPaper

/-! ### Whole texts -/

/-- Emptying the screen. -/
theorem clearTerminal_empties (t : Terminal) {k : ℕ} (hk : k ≤ 25) :
    let t' := (List.range k).foldl (fun t (y : ℕ) => (List.range vgaWidth).foldl (fun t (x : ℕ) =>
      t.store (getCharOffset x y) (makeVGAEntry 32 t.terminalColour)) t) t
    OnlyCells t t' ∧ ∀ i : ℕ, i < k * 80 → t'.terminalBuffer i = makeVGAEntry 32 t.terminalColour := by
  induction k with
  | zero => exact ⟨.refl t, fun i hi => absurd hi (by omega)⟩
  | succ k ih =>
    obtain ⟨hsame, hempty⟩ := ih (by omega)
    rw [List.range_succ, List.foldl_append, List.foldl_cons, List.foldl_nil]
    set t₁ := (List.range k).foldl (fun t (y : ℕ) => (List.range vgaWidth).foldl (fun t (x : ℕ) =>
      t.store (getCharOffset x y) (makeVGAEntry 32 t.terminalColour)) t) t
    have hindex (x : ℕ) (hx : x ∈ List.range vgaWidth) : (getCharOffset x k : ℤ) = k * 80 + x := by
      rw [List.mem_range, vgaWidth] at hx
      exact getCharOffset_natCast (by omega)
    have hloop := foldl_store (f := fun x => getCharOffset x k) (g := fun t _ => makeVGAEntry 32 t.terminalColour)
      (v := fun _ => makeVGAEntry 32 t.terminalColour) (List.range vgaWidth) t₁ (fun x _ t' hplace _ => by
        rw [hplace.colour, hsame.colour]) fun _ _ _ _ _ => rfl
    obtain ⟨hplace, hrow, hother⟩ := hloop
    refine ⟨hsame.trans hplace, fun i hi => ?_⟩
    rcases lt_or_ge i (k * 80) with hlt | hge
    · refine (hother i fun x hx => ?_).trans (hempty i hlt)
      rw [hindex x hx]
      omega
    · have hmem : i - k * 80 ∈ List.range vgaWidth := by
        rw [List.mem_range, vgaWidth]
        omega
      have h := hrow (i - k * 80) hmem
      rwa [hindex _ hmem, show (k : ℤ) * 80 + ((i - k * 80 : ℕ) : ℤ) = i by omega] at h

theorem OnPaper.init (buffer : ℤ → UInt16) (cursor : UInt16) : OnPaper (initTerminal buffer cursor) .blank := by
  obtain ⟨hsame, hempty⟩ := clearTerminal_empties ⟨0, 0, makeColour 15 0, buffer, cursor, []⟩ (k := 25) le_rfl
  refine ⟨hsame.row, hsame.column, by decide, by decide, fun y x hy hx => Or.inl ?_, fun _ _ _ => rfl⟩
  exact (hempty (y * 80 + x) (by omega)).trans (congrArg (makeVGAEntry 32) hsame.colour.symm)

/-- **The terminal is a typewriter.** From `initTerminal`, whatever the screen and the cursor were, after every text
that does not begin with a backspace and in which no new line comes at the end of a row, the screen shows
the last 25 rows of what a typewriter would have written, and the next character goes to the
same place. -/
theorem terminal_is_typewriter (buffer : ℤ → UInt16) (cursor : UInt16) {cs : List UInt8}
    (hfirst : cs.head? ≠ some 8) (hlines : Along Typewriter.type (fun w c => c = 10 → w.column ≠ 79) .blank cs) :
    OnPaper (cs.foldl terminalPutC (initTerminal buffer cursor)) (cs.foldl Typewriter.type .blank) := by
  have hrun (cs : List UInt8) : ∀ t w, OnPaper t w → AtCursor t →
      Along Typewriter.type (fun w c => c = 10 → w.column ≠ 79) w cs →
      OnPaper (cs.foldl terminalPutC t) (cs.foldl Typewriter.type w) := by
    induction cs with
    | nil => exact fun t w h _ _ => h
    | cons c cs ih =>
      rintro t w h hcursor ⟨hc, hcs⟩
      obtain ⟨hnext, hcursor'⟩ := h.step (fun _ => hcursor) hc
      exact ih _ _ hnext hcursor' hcs
  have hinit := OnPaper.init buffer cursor
  generalize initTerminal buffer cursor = t at hinit ⊢
  cases cs with
  | nil => exact hinit
  | cons c cs =>
    obtain ⟨hc, hcs⟩ := hlines
    obtain ⟨hnext, hcursor⟩ := hinit.step (fun heq => absurd (congrArg some heq) hfirst) hc
    exact hrun cs _ _ hnext hcursor hcs

/-- Thirty lines: the first ones are not seen any more. -/
theorem terminal_is_typewriter_thirtyLines :
    OnPaper (((List.range 30).flatMap fun i => [UInt8.ofNat (65 + i), 10]).foldl terminalPutC
        (initTerminal (fun _ => 7) 1234))
      (((List.range 30).flatMap fun i => [UInt8.ofNat (65 + i), 10]).foldl Typewriter.type .blank) :=
  terminal_is_typewriter _ _ (by decide) (by decide)

/-- A new line at the end of a row counts twice. -/
example : ((List.replicate 79 (97 : UInt8) ++ [10]).foldl terminalPutC (initTerminal (fun _ => 0) 0)).terminalRow = 2 ∧
    ((List.replicate 79 (97 : UInt8) ++ [10]).foldl Typewriter.type .blank).row = 1 := by
  decide +kernel

end LittleLinux
