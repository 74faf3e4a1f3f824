import LittleLinux.Libc.PrintfText

/-!
# What `printf` reads and stores to

`parseSpecifier` counts a specifier even when it is the terminator, the flag loop has no bound, and
the padding follows whatever width was parsed. So `printf` stays in the format and in its arrays
exactly when every conversion has at most seven flags, a width that neither exceeds 2047 nor is so
far below zero that the padding wraps, and a specifier (`printf_inBounds_iff`).

On such a format it prints the texts of the conversions, with the other characters between them, and
returns their length (`printf_prints`).
-/

namespace LittleLinux

/-! ### The conversions of a format -/

section Parse

variable {sp : List UInt8}

theorem dropWhile_eq_drop_length {α : Type*} (p : α → Bool) (l : List α) :
    l.dropWhile p = l.drop (l.takeWhile p).length := by
  have h := @List.drop_left _ (l.takeWhile p) (l.dropWhile p)
  rw [List.takeWhile_append_dropWhile] at h
  exact h.symm

theorem headD_drop {α : Type*} (l : List α) (k : ℕ) (a : α) : (l.drop k).headD a = l.getD k a := by
  rw [List.headD_eq_head?_getD, List.head?_drop, List.getD_eq_getElem?_getD]

/-- The specifier is the last of the characters that are counted. -/
theorem parseSpecifier_eq (sp : List UInt8) :
    ∃ k ≤ sp.length, (parseSpecifier sp).2 = k + 1 ∧ (parseSpecifier sp).1.specifier = sp.getD k 0 := by
  have hflags := (List.takeWhile_prefix (l := sp) isFlag).length_le
  have hwidth := (List.takeWhile_prefix (l := sp.dropWhile isFlag) isdigit).length_le
  rw [dropWhile_eq_drop_length isFlag sp, List.length_drop] at hwidth
  rw [parseSpecifier, dropWhile_eq_drop_length isFlag sp]
  dsimp only
  generalize (sp.takeWhile isFlag).length = i at hflags hwidth ⊢
  rw [dropWhile_eq_drop_length isdigit, List.drop_drop, headD_drop]
  generalize ((sp.drop i).takeWhile isdigit).length = j at hwidth ⊢
  split_ifs with hpoint
  · -- a point stands before the precision, so the string goes on
    have hin : i + j < sp.length := by
      by_contra hend
      rw [List.getD_eq_default _ _ (not_lt.mp hend)] at hpoint
      exact absurd hpoint (by decide)
    have hprecision := (List.takeWhile_prefix (l := (sp.drop (i + j)).tail) isdigit).length_le
    rw [List.tail_drop, List.length_drop] at hprecision
    refine ⟨i + j + 1 + ((sp.drop (i + j + 1)).takeWhile isdigit).length, by omega, ?_, ?_⟩
    · rw [List.tail_drop]
    · dsimp only
      rw [List.tail_drop, dropWhile_eq_drop_length isdigit, List.drop_drop, headD_drop]
  · exact ⟨i + j, by omega, rfl, rfl⟩

/-- A specifier inside the format. -/
theorem parseSpecifier_length_le (h : (parseSpecifier sp).1.specifier ≠ 0) :
    (parseSpecifier sp).2 ≤ sp.length := by
  obtain ⟨k, hk, hlength, hspec⟩ := parseSpecifier_eq sp
  rcases Nat.lt_or_eq_of_le hk with hlt | rfl
  · omega
  · rw [hspec, List.getD_eq_default _ _ le_rfl] at h
    exact absurd rfl h

/-- The terminator, taken for a specifier. -/
theorem parseSpecifier_of_nul (hnul : (0 : UInt8) ∉ sp) (h : (parseSpecifier sp).1.specifier = 0) :
    (parseSpecifier sp).2 = sp.length + 1 := by
  obtain ⟨k, hk, hlength, hspec⟩ := parseSpecifier_eq sp
  rcases Nat.lt_or_eq_of_le hk with hlt | rfl
  · rw [h, List.getD_eq_getElem _ _ hlt] at hspec
    exact absurd (hspec ▸ List.getElem_mem hlt) hnul
  · exact hlength

/-- The width is an `int`. -/
theorem parseNumber_mem (ds : List UInt8) : -2 ^ 31 ≤ parseNumber ds ∧ parseNumber ds < 2 ^ 31 := by
  induction ds using List.reverseRecOn with
  | nil => decide
  | append_singleton ds c _ =>
    rw [parseNumber, List.foldl_concat]
    exact toI32_mem _

theorem parseSpecifier_width_mem (sp : List UInt8) :
    -2 ^ 31 ≤ (parseSpecifier sp).1.width ∧ (parseSpecifier sp).1.width < 2 ^ 31 := by
  rw [parseSpecifier]
  dsimp only
  split_ifs
  · exact parseNumber_mem _
  · exact parseNumber_mem _

end Parse

/-- The conversions of a format, in their order. -/
def conversions : List UInt8 → List FormatSpecifier
  | [] => []
  | c :: sp =>
    if c = 37 then (parseSpecifier sp).1 :: conversions (sp.drop (parseSpecifier sp).2)
    else conversions sp
termination_by format => format.length
decreasing_by
  · rw [List.length_drop, List.length_cons]
    omega
  · exact Nat.lt_succ_self _

theorem conversions_char {c : UInt8} (sp : List UInt8) (hc : c ≠ 37) :
    conversions (c :: sp) = conversions sp := by
  rw [conversions, if_neg hc]

theorem conversions_percent (sp : List UInt8) : conversions (37 :: sp) =
    (parseSpecifier sp).1 :: conversions (sp.drop (parseSpecifier sp).2) := by
  rw [conversions, if_pos rfl]

/-- The string that a parameter points to. -/
def argString (n : ℕ) (m : ByteMemory) (arg : Int32) : List UInt8 :=
  (stringAt m arg.toUInt32.toNat n).chars

/-- The `%s` conversions get strings of less than 2048 characters; `k` is the index of the first
parameter. -/
def StringParameters (m : ByteMemory) (parameters : ℕ → Int32) : ℕ → List FormatSpecifier → Prop
  | _, [] => True
  | k, spec :: specs =>
    (spec.specifier = 115 →
      ∃ str, HoldsString m (parameters k).toUInt32.toNat str ∧ str.length < 2048) ∧
    StringParameters m parameters (k + spec.arity) specs

/-- The conversion stays inside the arrays and ends before the terminator. -/
structure FormatSpecifier.Safe (spec : FormatSpecifier) (arg : Int32) (str : List UInt8) : Prop where
  flags : spec.flags.length ≤ 7
  width : spec.width ≤ 2047
  noWrap : -2 ^ 31 ≤ spec.width - (spec.plain arg str).length
  ends : spec.specifier ≠ 0

/-- All conversions of a format are safe. -/
def SafeConversions (n : ℕ) (m : ByteMemory) (parameters : ℕ → Int32) :
    ℕ → List FormatSpecifier → Prop
  | _, [] => True
  | k, spec :: specs =>
    spec.Safe (parameters k) (argString n m (parameters k)) ∧
    SafeConversions n m parameters (k + spec.arity) specs

/-- Nothing was read behind `last`, nothing stored outside `spec.flags` and `buffer`. -/
structure InBounds (last : ℕ) (s : PrintfState) : Prop where
  reads : ∀ x ∈ s.reads, x ≤ last
  flagStores : ∀ x ∈ s.flagStores, x < 8
  bufferStores : ∀ x ∈ s.bufferStores, x < 2048

/-! ### One conversion -/

section Conversion

variable {spec : FormatSpecifier} {arg : Int32} {str : List UInt8} {n : ℕ} {b : PrintBuffer}

theorem FormatSpecifier.length_plain_lt (spec : FormatSpecifier) (arg : Int32) {str : List UInt8}
    (hstr : spec.specifier = 115 → str.length < 2048) :
    (spec.plain arg str).length < 2048 := by
  rw [FormatSpecifier.plain]
  split_ifs
  · have hprefix : (spec.numberPrefix arg).length ≤ 2 := by
      unfold FormatSpecifier.numberPrefix
      split_ifs <;> decide
    have hdigits : (spec.numberDigits arg).length ≤ 32 := by
      unfold FormatSpecifier.numberDigits
      split_ifs
      · exact length_numeral_le (by decide) (toU32_lt _)
      · exact length_numeral_le (by decide) (natAbs_lt arg)
    rw [List.length_append]
    omega
  · unfold FormatSpecifier.otherText
    split_ifs with _ _ _ hstring
    · decide
    · decide
    · exact Nat.le_of_ble_eq_true rfl
    · exact hstr hstring
    · decide
    · exact Nat.le_of_ble_eq_true rfl

theorem FormatSpecifier.length_spaced (spec : FormatSpecifier) (t : List UInt8) :
    (spec.spaced t).length = t.length + spec.pad t.length := by
  rw [spaced]
  split_ifs
  · rw [List.length_append, List.length_replicate]
  · rw [List.length_append, List.length_replicate, add_comm]

/-- The zeros are all of the padding, or there are none. -/
theorem FormatSpecifier.length_filled (spec : FormatSpecifier) (arg : Int32) (str : List UInt8) :
    (spec.filled arg str).length = (spec.plain arg str).length ∨
      (spec.filled arg str).length = (spec.plain arg str).length + spec.pad (spec.plain arg str).length := by
  by_cases hnumber : spec.IsNumber
  · have hplain : spec.plain arg str = spec.numberPrefix arg ++ spec.numberDigits arg := if_pos hnumber
    rw [filled, if_pos hnumber, zeros]
    split_ifs
    · refine .inr ?_
      rw [List.length_append, List.length_append, List.length_replicate, ← Nat.add_assoc,
        Nat.add_right_comm, ← List.length_append, ← hplain]
    · rw [List.replicate_zero, List.nil_append, ← hplain]
      exact .inl rfl
  · rw [filled, if_neg hnumber]
    exact .inl rfl

/-- A text of less than 2048 characters, padded, still fits the buffer. -/
theorem FormatSpecifier.pad_fits_iff {len : ℕ} (hwidth : -2 ^ 31 ≤ spec.width ∧ spec.width < 2 ^ 31)
    (hlen : len < 2048) :
    len + spec.pad len < 2048 ↔ spec.width ≤ 2047 ∧ -2 ^ 31 ≤ spec.width - len := by
  obtain ⟨hlo, hhi⟩ := hwidth
  rw [pad]
  by_cases hwrap : -2 ^ 31 ≤ spec.width - len
  · rw [toI32_of_mem hwrap (by omega)]
    omega
  · -- the difference wraps to a large positive number
    have hpad : toI32 (spec.width - len) = spec.width - len + 2 ^ 32 := by
      have hsame : toI32 (spec.width - len) = toI32 (spec.width - len + 2 ^ 32) :=
        toI32_eq_iff.mpr ⟨-1, by ring⟩
      rw [hsame, toI32_of_mem (by omega) (by omega)]
    rw [hpad]
    omega

/-- The texts of a safe conversion fit the buffer. -/
theorem FormatSpecifier.Safe.fits (h : spec.Safe arg str)
    (hwidth : -2 ^ 31 ≤ spec.width ∧ spec.width < 2 ^ 31)
    (hstr : spec.specifier = 115 → str.length < 2048) :
    (spec.filled arg str).length < 2048 ∧ (spec.output arg str).length < 2048 := by
  have hplain := spec.length_plain_lt arg hstr
  have hfits := (pad_fits_iff hwidth hplain).mpr ⟨h.width, h.noWrap⟩
  have hoverlong := h.width
  rw [output, length_spaced]
  rcases spec.length_filled arg str with hlen | hlen
  · rw [hlen]
    exact ⟨hplain, hfits⟩
  · have hfilled : (spec.filled arg str).length < 2048 := hlen ▸ hfits
    refine ⟨hfilled, (pad_fits_iff hwidth hfilled).mpr ⟨h.width, ?_⟩⟩
    -- with zeros the text is as wide as it should be
    have hnoWrap := h.noWrap
    rw [pad, toI32_of_mem hnoWrap (by omega)] at hlen
    omega

/-- The spaces do not take a store back. -/
theorem stores_subset_spacePad : b.stores ⊆ (spacePad n spec b).stores := by
  rw [spacePad]
  split_ifs
  · exact fun x hx => List.mem_cons_of_mem _ (List.mem_append_right _ hx)
  · exact fun x hx => List.mem_append_right _ (List.mem_append_right _ hx)
  · exact fun x hx => hx

/-- A conversion that does not fit stores behind the buffer. -/
theorem Converted.stores_outside (h : Converted spec arg str b) (hn : 2048 ≤ n)
    (hplain : (spec.plain arg str).length < 2048)
    (hlong : 2048 ≤ (spec.plain arg str).length + spec.pad (spec.plain arg str).length) :
    ∃ x ∈ (spacePad n spec b).stores, 2048 ≤ x := by
  rcases spec.length_filled arg str with hlen | hlen
  · have hgrown := grown_spacePad spec h.holds (n := n) (by omega)
    have hreach := hgrown.reach
    rw [spec.length_spaced, hlen] at hreach
    exact ⟨_, hreach (by omega), hlong⟩
  · refine ⟨_, stores_subset_spacePad (h.reach (by omega)), ?_⟩
    omega

end Conversion

/-! ### Runs -/

section Runs

variable {n last : ℕ} {m stack : ByteMemory} {parameters : ℕ → Int32} {s s' : PrintfState}
  {c : UInt8} {format sp : List UInt8}

/-- What a conversion reads and stores to. -/
theorem InBounds.append (h : InBounds last s) {reads flagStores bufferStores : List ℕ}
    (hs' : s'.reads = reads ++ s.reads ∧ s'.flagStores = flagStores ++ s.flagStores ∧
      s'.bufferStores = bufferStores ++ s.bufferStores)
    (hreads : ∀ x ∈ reads, x ≤ last) (hflags : ∀ x ∈ flagStores, x < 8)
    (hbuffer : ∀ x ∈ bufferStores, x < 2048) : InBounds last s' := by
  refine ⟨fun x hx => ?_, fun x hx => ?_, fun x hx => ?_⟩
  · rw [hs'.1] at hx
    exact (List.mem_append.mp hx).elim (hreads x) (h.reads x)
  · rw [hs'.2.1] at hx
    exact (List.mem_append.mp hx).elim (hflags x) (h.flagStores x)
  · rw [hs'.2.2] at hx
    exact (List.mem_append.mp hx).elim (hbuffer x) (h.bufferStores x)

/-- One more character that is read. -/
theorem InBounds.read (h : InBounds last s) {x : ℕ} (hreads : s'.reads = x :: s.reads)
    (hflags : s'.flagStores = s.flagStores) (hbuffer : s'.bufferStores = s.bufferStores)
    (hx : x ≤ last) : InBounds last s' := by
  refine ⟨fun y hy => ?_, hflags ▸ h.flagStores, hbuffer ▸ h.bufferStores⟩
  rw [hreads] at hy
  rcases List.mem_cons.mp hy with rfl | hy
  · exact hx
  · exact h.reads y hy

/-- The string of a parameter of a `%s`. -/
theorem argString_holds {arg : Int32} (hn : 2048 ≤ n)
    (h : ∃ str, HoldsString m arg.toUInt32.toNat str ∧ str.length < 2048) :
    HoldsString m arg.toUInt32.toNat (argString n m arg) ∧ (argString n m arg).length < 2048 := by
  obtain ⟨str, hholds, hlen⟩ := h
  rw [argString, chars_stringAt hholds (hlen.trans_le hn)]
  exact ⟨hholds, hlen⟩

/-- What is left of a format after a conversion. -/
theorem HoldsString.after_conversion {p : ℕ} (h : HoldsString m p (37 :: sp))
    (hspec : (parseSpecifier sp).1.specifier ≠ 0) :
    HoldsString m (p + 1 + (parseSpecifier sp).2) (sp.drop (parseSpecifier sp).2) := by
  have hle := parseSpecifier_length_le hspec
  have hrest := h.drop (d := 1 + (parseSpecifier sp).2) (by rw [List.length_cons]; omega)
  rwa [← Nat.add_assoc, Nat.add_comm 1, List.drop_succ_cons] at hrest

/-- The state is in bounds, and what is left of the format is safe. -/
structure PrintfSafe (n : ℕ) (m : ByteMemory) (parameters : ℕ → Int32) (last : ℕ) (format : List UInt8)
    (s : PrintfState) : Prop where
  holds : HoldsString m s.format format
  short : format.length < n
  end_eq : s.format + format.length = last
  strings : StringParameters m parameters s.parameter (conversions format)
  safe : SafeConversions n m parameters s.parameter (conversions format)
  inBounds : InBounds last s

/-- The rest of a format after a character. -/
theorem PrintfSafe.char (stack : ByteMemory) (h : PrintfSafe n m parameters last (c :: sp) s)
    (hc : c ≠ 37) :
    ∃ s', printfPass n m parameters stack s = .next s' ∧ PrintfSafe n m parameters last sp s' ∧
      s'.console = s.console.putchar c ∧ s'.amount = toI32 (s.amount + 1) ∧
      s'.parameter = s.parameter := by
  have hconversions := conversions_char sp hc
  have hend := h.end_eq
  have hshort := h.short
  rw [List.length_cons] at hend hshort
  refine ⟨_, printfPass_char h.holds hc h.short, ⟨?_, by omega, ?_, ?_, ?_, ?_⟩, rfl, rfl, rfl⟩
  · exact h.holds.drop (d := 1) (by simp)
  · dsimp only
    omega
  · exact hconversions ▸ h.strings
  · exact hconversions ▸ h.safe
  · exact h.inBounds.read rfl rfl rfl (by omega)

/-- The rest of a format after a safe conversion. -/
theorem PrintfSafe.percent (stack : ByteMemory) (h : PrintfSafe n m parameters last (37 :: sp) s)
    (hn : 2048 ≤ n) :
    ∃ s', printfPass n m parameters stack s = .next s' ∧
      PrintfSafe n m parameters last (sp.drop (parseSpecifier sp).2) s' ∧
      s'.console = s.console.putS ((parseSpecifier sp).1.output (parameters s.parameter)
        (argString n m (parameters s.parameter))) ∧
      s'.amount = toI32 (s.amount + ((parseSpecifier sp).1.output (parameters s.parameter)
        (argString n m (parameters s.parameter))).length) ∧
      s'.parameter = s.parameter + (parseSpecifier sp).1.arity := by
  have hstrings := h.strings
  have hsafe := h.safe
  rw [conversions_percent] at hstrings hsafe
  obtain ⟨hstring, hstrings⟩ := hstrings
  obtain ⟨hspec, hsafe⟩ := hsafe
  have hstr := fun hs => argString_holds (n := n) hn (hstring hs)
  obtain ⟨hfilled, houtput⟩ := hspec.fits (parseSpecifier_width_mem sp) fun hs => (hstr hs).2
  obtain ⟨stores, hstores, hpass⟩ := printfPass_prints stack parameters h.holds h.short hn hstr hfilled
    houtput
  have hle := parseSpecifier_length_le hspec.ends
  have hend := h.end_eq
  have hshort := h.short
  rw [List.length_cons] at hend hshort
  refine ⟨_, hpass, ⟨h.holds.after_conversion hspec.ends, ?_, ?_, hstrings, hsafe, ?_⟩, rfl, rfl, rfl⟩
  · rw [List.length_drop]
    omega
  · rw [List.length_drop]
    dsimp only
    omega
  · refine h.inBounds.append ⟨rfl, rfl, rfl⟩ (fun x hx => ?_) (fun x hx => ?_) hstores
    · have hx := List.mem_range'_1.mp hx
      omega
    · have hx := List.mem_range.mp hx
      have hflags := hspec.flags
      omega

/-- **Safe formats stay in bounds.** -/
theorem PrintfSafe.run (h : PrintfSafe n m parameters last format s) (hn : 2048 ≤ n) (k : ℕ) :
    InBounds last (stateAfter (printfPass n m parameters stack) k s) := by
  refine stateAfter_invariant (I := fun t => ∃ format, PrintfSafe n m parameters last format t)
    (fun t ht => ht.choose_spec.inBounds) ?_ ?_ ⟨format, h⟩
  · rintro t t' ⟨format, ht⟩ hstep
    cases format with
    | nil =>
      rw [printfPass_end ht.holds (by omega)] at hstep
      exact absurd hstep (by simp)
    | cons c sp =>
      by_cases hc : c = 37
      · subst hc
        obtain ⟨u, hpass, hu, -⟩ := ht.percent stack hn
        obtain rfl : u = t' := by simpa [hpass] using hstep
        exact ⟨_, hu⟩
      · obtain ⟨u, hpass, hu, -⟩ := ht.char stack hc
        obtain rfl : u = t' := by simpa [hpass] using hstep
        exact ⟨_, hu⟩
  · rintro t u ⟨format, ht⟩ hstep
    cases format with
    | nil =>
      rw [printfPass_end ht.holds (by omega)] at hstep
      obtain rfl : { t with reads := t.format :: t.reads } = u := by simpa using hstep
      exact ht.inBounds.read rfl rfl rfl ht.end_eq.le
    | cons c sp =>
      by_cases hc : c = 37
      · subst hc
        obtain ⟨u', hpass, -⟩ := ht.percent stack hn
        rw [hpass] at hstep
        exact absurd hstep (by simp)
      · obtain ⟨u', hpass, -⟩ := ht.char stack hc
        rw [hpass] at hstep
        exact absurd hstep (by simp)

/-- Every conversion comes to an end. -/
theorem exists_convert (m stack : ByteMemory) (hn : 35 ≤ n) (arg : Int32) (spec : FormatSpecifier) :
    ∃ b, convert n m arg spec (.init stack) = some b := by
  by_cases hnumber : spec.IsNumber
  · rcases hnumber with hspec | hspec
    · exact (convert_hexadecimal stack [] hspec hn).imp fun _ h => h.1
    · exact (convert_decimal stack [] hspec hn).imp fun _ h => h.1
  · obtain ⟨hx, hid⟩ := not_or.mp hnumber
    rw [convert, if_neg hx, if_neg hid]
    split_ifs
    · exact ⟨_, rfl⟩
    · exact ⟨_, rfl⟩
    · exact ⟨_, rfl⟩
    · exact ⟨_, rfl⟩

/-- A pass reads the character at `format`, whatever it is. -/
theorem format_mem_reads (hn : 35 ≤ n) (s : PrintfState) :
    s.format ∈ (stateAfter (printfPass n m parameters stack) 1 s).reads := by
  rw [stateAfter, printfPass]
  rcases (stringAt m s.format n).chars with _ | ⟨c, sp⟩
  · exact List.mem_cons_self
  dsimp only
  split_ifs
  · obtain ⟨b, hb⟩ := exists_convert m stack hn (parameters s.parameter)
      (parseSpecifier sp).1
    rw [hb]
    exact List.mem_append_left _ (List.mem_range'_1.mpr (by omega))
  · exact List.mem_cons_self

/-- **A conversion that is not safe** reads or stores out of bounds. -/
theorem outOfBounds_of_not_safe (stack : ByteMemory) (parameters : ℕ → Int32) (s : PrintfState)
    (hn : 2048 ≤ n) (h : HoldsString m s.format (37 :: sp)) (hshort : (37 :: sp).length < n)
    (hstr : (parseSpecifier sp).1.specifier = 115 →
      ∃ str, HoldsString m (parameters s.parameter).toUInt32.toNat str ∧ str.length < 2048)
    (hbad : ¬(parseSpecifier sp).1.Safe (parameters s.parameter)
      (argString n m (parameters s.parameter))) :
    ∃ k, ¬InBounds (s.format + (37 :: sp).length)
      (stateAfter (printfPass n m parameters stack) k s) := by
  have hstr' := fun hs => argString_holds (n := n) hn (hstr hs)
  obtain ⟨b, hb, hconverted⟩ := convert_converted stack hn hstr'
  have hpass := printfPass_percent h hshort hb
  by_cases hflags : (parseSpecifier sp).1.flags.length ≤ 7
  swap
  · refine ⟨1, fun hin => ?_⟩
    rw [stateAfter_succ_of_next hpass, stateAfter] at hin
    have height := hin.flagStores 8 (List.mem_append_left _ (List.mem_range.mpr (by omega)))
    exact absurd height (lt_irrefl 8)
  by_cases hspec : (parseSpecifier sp).1.specifier = 0
  · -- the terminator was counted, and the next pass starts behind it
    have hnul : (0 : UInt8) ∉ sp := fun hmem => h.noNul (List.mem_cons_of_mem _ hmem)
    have hlength := parseSpecifier_of_nul hnul hspec
    refine ⟨1 + 1, fun hin => ?_⟩
    rw [stateAfter_succ_of_next hpass] at hin
    have hread := hin.reads _ (format_mem_reads (by omega) _)
    dsimp only at hread
    rw [List.length_cons] at hread
    omega
  · have hplain := (parseSpecifier sp).1.length_plain_lt (parameters s.parameter) fun hs => (hstr' hs).2
    have hlong := mt (FormatSpecifier.pad_fits_iff (parseSpecifier_width_mem sp) hplain).mp
      fun hfits => hbad ⟨hflags, hfits.1, hfits.2, hspec⟩
    obtain ⟨x, hx, hout⟩ := hconverted.stores_outside hn hplain (not_lt.mp hlong)
    refine ⟨1, fun hin => ?_⟩
    rw [stateAfter_succ_of_next hpass, stateAfter] at hin
    exact absurd (hin.bufferStores x (List.mem_append_left _ hx)) (not_lt.mpr hout)

/-- A format with a conversion that is not safe leads out of bounds. -/
theorem exists_outOfBounds (stack : ByteMemory) (s : PrintfState) (hn : 2048 ≤ n)
    (h : HoldsString m s.format format) (hshort : format.length < n)
    (hstrings : StringParameters m parameters s.parameter (conversions format))
    (hbad : ¬SafeConversions n m parameters s.parameter (conversions format)) :
    ∃ k, ¬InBounds (s.format + format.length)
      (stateAfter (printfPass n m parameters stack) k s) := by
  -- the loop is followed to the first conversion that is not safe
  induction hlen : format.length using Nat.strong_induction_on generalizing format s with
  | _ len ih =>
    subst hlen
    cases format with
    | nil =>
      rw [conversions] at hbad
      exact absurd trivial hbad
    | cons c sp =>
      by_cases hc : c = 37
      swap
      · obtain ⟨t, hpass, hformat, hparameter⟩ : ∃ t, printfPass n m parameters stack s = .next t ∧
            t.format = s.format + 1 ∧ t.parameter = s.parameter :=
          ⟨_, printfPass_char h hc hshort, rfl, rfl⟩
        have hrest : HoldsString m (s.format + 1) sp := h.drop (d := 1) (by simp)
        rw [conversions_char sp hc, ← hparameter] at hstrings hbad
        rw [← hformat] at hrest
        rw [List.length_cons] at hshort
        obtain ⟨k, hk⟩ := ih sp.length (Nat.lt_succ_self _) t hrest (by omega) hstrings hbad rfl
        refine ⟨k + 1, ?_⟩
        rwa [stateAfter_succ_of_next hpass, List.length_cons, Nat.add_comm sp.length, ← Nat.add_assoc,
          ← hformat]
      subst hc
      rw [conversions_percent] at hstrings hbad
      obtain ⟨hstr, hstrings⟩ := hstrings
      by_cases hsafe : (parseSpecifier sp).1.Safe (parameters s.parameter)
          (argString n m (parameters s.parameter))
      swap
      -- this pass itself leaves its buffers
      · exact outOfBounds_of_not_safe stack parameters s hn h hshort hstr hsafe
      have hbad' := fun hrest => hbad ⟨hsafe, hrest⟩
      obtain ⟨b, hb⟩ := exists_convert (n := n) m stack (by omega)
        (parameters s.parameter) (parseSpecifier sp).1
      obtain ⟨t, hpass, hformat, hparameter⟩ : ∃ t, printfPass n m parameters stack s = .next t ∧
          t.format = s.format + 1 + (parseSpecifier sp).2 ∧
          t.parameter = s.parameter + (parseSpecifier sp).1.arity :=
        ⟨_, printfPass_percent h hshort hb, rfl, rfl⟩
      have hle := parseSpecifier_length_le hsafe.ends
      have hrest := h.after_conversion hsafe.ends
      rw [← hformat] at hrest
      rw [← hparameter] at hstrings hbad'
      have hlength : (sp.drop (parseSpecifier sp).2).length = sp.length - (parseSpecifier sp).2 :=
        List.length_drop
      rw [List.length_cons] at hshort
      obtain ⟨k, hk⟩ := ih _ (by rw [hlength, List.length_cons]; omega) t hrest (by omega) hstrings
        hbad' rfl
      refine ⟨k + 1, ?_⟩
      have hend : t.format + (sp.drop (parseSpecifier sp).2).length = s.format + (37 :: sp).length := by
        rw [hformat, hlength, List.length_cons]
        omega
      rwa [stateAfter_succ_of_next hpass, ← hend]

/-- **When `printf` stays in bounds**: when every conversion of the format has at most seven flags, a
width up to 2047 that does not wrap against the length of its text, and a specifier. -/
theorem printf_inBounds_iff (n : ℕ) (m stack : ByteMemory) (parameters : ℕ → Int32) (p : ℕ)
    (console : Console) (format : List UInt8) (hformat : HoldsString m p format)
    (hstrings : StringParameters m parameters 0 (conversions format)) (hn : 2048 ≤ n)
    (hshort : format.length < n) :
    (∀ k, InBounds (p + format.length)
        (stateAfter (printfPass n m parameters stack) k (printfStart p console))) ↔
      SafeConversions n m parameters 0 (conversions format) := by
  constructor
  · intro hin
    by_contra hbad
    obtain ⟨k, hk⟩ := exists_outOfBounds stack (printfStart p console) hn hformat hshort
      hstrings hbad
    exact hk (hin k)
  · intro hsafe k
    have hstart : PrintfSafe n m parameters (p + format.length) format (printfStart p console) :=
      ⟨hformat, hshort, rfl, hstrings, hsafe, by simp [printfStart], by simp [printfStart],
        by simp [printfStart]⟩
    exact hstart.run hn k

/-- The memory of the format `%5d`. -/
def widthFormat : ByteMemory := fun x => [37, 53, 100].getD x 0

theorem conversions_widthFormat : conversions [37, 53, 100] = [⟨[], 5, 0, 100⟩] := by
  have hparse : parseSpecifier [53, 100] = (⟨[], 5, 0, 100⟩, 2) := rfl
  have hrest : conversions (List.drop 2 [53, 100]) = [] := by
    rw [show List.drop 2 [(53 : UInt8), 100] = [] from rfl, conversions]
  rw [conversions_percent, hparse, hrest]

theorem printf_inBounds_width :
    SafeConversions 2048 widthFormat (fun _ => 42) 0 (conversions [37, 53, 100]) ∧
      ∀ k, InBounds (0 + 3) (stateAfter (printfPass 2048 widthFormat (fun _ => 42) fun _ => 7) k
        (printfStart 0 blankConsole)) := by
  have hformat : HoldsString widthFormat 0 [37, 53, 100] :=
    HoldsString.of_getD (by decide) fun i _ => by rw [zero_add]; rfl
  have hstrings : StringParameters widthFormat (fun _ => 42) 0 (conversions [37, 53, 100]) := by
    rw [conversions_widthFormat]
    exact ⟨fun h => absurd h (by decide), trivial⟩
  have hsafe : SafeConversions 2048 widthFormat (fun _ => 42) 0 (conversions [37, 53, 100]) := by
    rw [conversions_widthFormat]
    refine ⟨⟨by decide, by decide, ?_, by decide⟩, trivial⟩
    have hstring : (FormatSpecifier.mk [] 5 0 100).specifier = 115 →
        (argString 2048 widthFormat 42).length < 2048 :=
      fun h => absurd h (by decide)
    have hplain := FormatSpecifier.length_plain_lt _ 42 hstring
    dsimp only
    omega
  exact ⟨hsafe, (printf_inBounds_iff 2048 widthFormat (fun _ => 7) (fun _ => 42) 0 blankConsole
    [37, 53, 100] hformat hstrings le_rfl (by decide)).mpr hsafe⟩

/-- A format that ends with `%`: the terminator is taken for the specifier, and `printf` goes on
behind it. -/
theorem printf_reads_behind_format :
    ¬∀ (n : ℕ) (m stack : ByteMemory) (parameters : ℕ → Int32) (p : ℕ) (console : Console)
      (format : List UInt8), HoldsString m p format →
      StringParameters m parameters 0 (conversions format) → 2048 ≤ n → format.length < n →
      ∀ k, InBounds (p + format.length)
        (stateAfter (printfPass n m parameters stack) k (printfStart p console)) := by
  intro h
  have hformat : HoldsString (fun x => [37].getD x 0) 0 [37] :=
    HoldsString.of_getD (by decide) fun i _ => by rw [zero_add]
  have hspec : (parseSpecifier []).1.specifier = 0 := rfl
  have hstring : (parseSpecifier []).1.specifier = 115 → ∃ str,
      HoldsString (fun x => [37].getD x 0) (42 : Int32).toUInt32.toNat str ∧ str.length < 2048 :=
    fun hs => absurd (hspec.symm.trans hs) (by decide)
  have hstrings : StringParameters (fun x => [37].getD x 0) (fun _ => 42) 0 (conversions [37]) := by
    rw [conversions_percent, List.drop_nil, conversions]
    exact ⟨hstring, trivial⟩
  obtain ⟨k, hk⟩ := outOfBounds_of_not_safe (fun _ => 7) (fun _ => 42)
    (printfStart 0 blankConsole) le_rfl hformat (by decide) hstring fun hsafe => hsafe.ends hspec
  exact hk (h 2048 _ (fun _ => 7) (fun _ => 42) 0 blankConsole [37] hformat hstrings le_rfl (by decide) k)

/-! ### What is printed -/

/-- The text that a format comes to, with parameters from the index `k` on. -/
def formatText (n : ℕ) (m : ByteMemory) (parameters : ℕ → Int32) (k : ℕ) : List UInt8 → List UInt8
  | [] => []
  | c :: sp =>
    if c = 37 then
      (parseSpecifier sp).1.output (parameters k) (argString n m (parameters k)) ++
        formatText n m parameters (k + (parseSpecifier sp).1.arity) (sp.drop (parseSpecifier sp).2)
    else c :: formatText n m parameters k sp
termination_by format => format.length
decreasing_by
  · rw [List.length_drop, List.length_cons]
    omega
  · exact Nat.lt_succ_self _

theorem Console.putS_append (console : Console) (s t : List UInt8) :
    console.putS (s ++ t) = (console.putS s).putS t :=
  List.foldl_append

/-- The loop prints what is left of a safe format. -/
theorem PrintfSafe.prints (stack : ByteMemory) (h : PrintfSafe n m parameters last format s)
    (hn : 2048 ≤ n) (hamount : toI32 s.amount = s.amount) {j : ℕ} (hj : format.length < j) :
    ∃ s', loop (printfPass n m parameters stack) j s = some s' ∧
      s'.console = s.console.putS (formatText n m parameters s.parameter format) ∧
      s'.amount = toI32 (s.amount + (formatText n m parameters s.parameter format).length) := by
  have hadd : ∀ x y : ℤ, toI32 (toI32 x + y) = toI32 (x + y) := fun x y => by
    have h := toI32_mul_add x 1 y
    rwa [mul_one, mul_one] at h
  have hself : ∀ x : ℤ, toI32 (toI32 x) = toI32 x := fun x => by
    have h := hadd x 0
    rwa [add_zero, add_zero] at h
  -- strong induction: a conversion consumes as many characters as its specifier has
  induction hlen : format.length using Nat.strong_induction_on generalizing format s j with
  | _ len ih =>
    subst hlen
    obtain ⟨j, rfl⟩ : ∃ i, j = i + 1 := ⟨j - 1, by omega⟩
    cases format with
    | nil =>
      refine ⟨_, loop_succ_of_leave (printfPass_end h.holds (by omega)), ?_, ?_⟩
      · rw [formatText]
        rfl
      · rw [formatText, List.length_nil, Nat.cast_zero, add_zero, hamount]
    | cons c sp =>
      rw [List.length_cons] at hj
      by_cases hc : c = 37
      · subst hc
        obtain ⟨t, hpass, ht, hconsole, hamount', hparameter⟩ := h.percent stack hn
        have hle : (sp.drop (parseSpecifier sp).2).length ≤ sp.length := by
          rw [List.length_drop]
          omega
        obtain ⟨s', hloop, hconsole', hamount''⟩ := ih _ (by rw [List.length_cons]; omega) ht
          (by rw [hamount', hself]) (j := j) (by omega) rfl
        refine ⟨s', (loop_succ_of_next hpass).trans hloop, ?_, ?_⟩
        · rw [hconsole', hconsole, hparameter, formatText, if_pos rfl, Console.putS_append]
        · rw [hamount'', hamount', hparameter, hadd, formatText, if_pos rfl, List.length_append,
            Nat.cast_add, add_assoc]
      · obtain ⟨t, hpass, ht, hconsole, hamount', hparameter⟩ := h.char stack hc
        obtain ⟨s', hloop, hconsole', hamount''⟩ := ih _ (Nat.lt_succ_self _) ht
          (by rw [hamount', hself]) (j := j) (by omega) rfl
        refine ⟨s', (loop_succ_of_next hpass).trans hloop, ?_, ?_⟩
        · rw [hconsole', hconsole, hparameter, formatText, if_neg hc]
          rfl
        · rw [hamount'', hamount', hparameter, hadd, formatText, if_neg hc, List.length_cons]
          congr 1
          push_cast
          ring

/-- **What `printf` prints** for a safe format: the texts of its conversions and the characters
between them. It returns their number. -/
theorem printf_prints (p : ℕ) (console : Console) (hformat : HoldsString m p format)
    (hstrings : StringParameters m parameters 0 (conversions format)) (hn : 2048 ≤ n)
    (hshort : format.length < n) (hsafe : SafeConversions n m parameters 0 (conversions format)) :
    printf n m parameters stack p console =
      some (toI32 (formatText n m parameters 0 format).length,
        console.putS (formatText n m parameters 0 format)) := by
  have hstart : PrintfSafe n m parameters (p + format.length) format (printfStart p console) :=
    ⟨hformat, hshort, rfl, hstrings, hsafe, by simp [printfStart], by simp [printfStart],
      by simp [printfStart]⟩
  obtain ⟨s', hloop, hconsole, hamount⟩ := hstart.prints stack hn rfl hshort
  rw [printf, hloop, Option.map_some, hconsole, hamount]
  congr 3
  exact zero_add _

end Runs

end LittleLinux
