import LittleLinux.Libc.NumeralParsing
import LittleLinux.Libc.Printf

/-!
# What a conversion prints

The text of a conversion is a prefix and a body; the number conversions put zeros between the two,
and spaces come to the left or to the right in the end. `Grown` is what each routine does to a buffer
that holds a text: the new text is there, nothing behind its terminator was stored to, and if the
text grew, then its terminator was stored.

`printfPass_number` says what a pass of `printf` prints for `%d`, `%i` and `%x`.
-/

namespace LittleLinux

/-! ### Texts in the buffer -/

/-- The buffer `b` that holds `t` becomes `b'`, which holds `t'`. -/
structure Grown (b b' : PrintBuffer) (t t' : List UInt8) : Prop where
  holds : HoldsString b'.bytes 0 t'
  bound : ∀ x ∈ b'.stores, x ∈ b.stores ∨ x ≤ t'.length
  reach : t.length < t'.length → t'.length ∈ b'.stores

section Texts

variable {b b' : PrintBuffer} {n k : ℕ} {c : UInt8} {pre t t' t'' : List UInt8}

theorem Grown.refl (h : HoldsString b.bytes 0 t) : Grown b b t t :=
  ⟨h, fun _ hx => .inl hx, fun hlt => absurd hlt (lt_irrefl _)⟩

theorem strlen_of_holds (h : HoldsString b.bytes k t) (hn : t.length ≤ n) :
    b.strlen n k = t.length := by
  rw [PrintBuffer.strlen, skipWhile_nonzero h hn, Nat.add_sub_cancel_left]

theorem noNul_replicate (hc : c ≠ 0) (h : (0 : UInt8) ∉ t) : (0 : UInt8) ∉ List.replicate k c ++ t :=
  fun hmem => (List.mem_append.mp hmem).elim (fun hrep => hc (List.eq_of_mem_replicate hrep).symm) h

/-- The bytes of a text with `k` characters between its prefix and the rest. -/
theorem holds_splice {m m' : ByteMemory} (h : HoldsString m 0 (pre ++ t)) (hc : c ≠ 0)
    (hpre : ∀ i < pre.length, m' i = m i) (hmid : ∀ i < k, m' (pre.length + i) = c)
    (hrest : ∀ i ≤ t.length, m' (pre.length + k + i) = m (pre.length + i)) :
    HoldsString m' 0 (pre ++ (List.replicate k c ++ t)) := by
  have hnul : (0 : UInt8) ∉ pre ∧ (0 : UInt8) ∉ t := by
    rw [← not_or, ← List.mem_append]
    exact h.noNul
  refine HoldsString.of_getD ?_ fun i hi => ?_
  · rw [List.mem_append, not_or]
    exact ⟨hnul.1, noNul_replicate hc hnul.2⟩
  rw [zero_add]
  rw [List.length_append, List.length_append, List.length_replicate] at hi
  have hold : ∀ j ≤ pre.length + t.length, m j = (pre ++ t).getD j 0 := fun j hj => by
    have := h.apply_eq_getD (i := j) (by rwa [List.length_append])
    rwa [zero_add] at this
  rcases Nat.lt_or_ge i pre.length with hlt | hge
  · rw [hpre i hlt, hold i (by omega), List.getD_append _ _ _ _ hlt, List.getD_append _ _ _ _ hlt]
  obtain ⟨j, rfl⟩ := Nat.exists_eq_add_of_le hge
  rw [List.getD_append_right _ _ _ _ hge, Nat.add_sub_cancel_left]
  rcases Nat.lt_or_ge j k with hlt | hge'
  · rw [hmid j hlt, List.getD_append _ _ _ _ (by rwa [List.length_replicate]),
      List.getD_replicate _ hlt]
  · obtain ⟨l, rfl⟩ := Nat.exists_eq_add_of_le hge'
    rw [← Nat.add_assoc, hrest l (by omega), hold _ (by omega),
      List.getD_append_right _ _ _ _ (Nat.le_add_right _ _), Nat.add_sub_cancel_left,
      List.getD_append_right _ _ _ _ (by rw [List.length_replicate]; omega), List.length_replicate,
      Nat.add_sub_cancel_left]

/-- **`insertChars`** puts the characters between the prefix and the rest of the text. -/
theorem grown_insertChars (h : HoldsString b.bytes 0 (pre ++ t)) (hn : t.length ≤ n) (hc : c ≠ 0) :
    Grown b (b.insertChars n pre.length c k) (pre ++ t) (pre ++ (List.replicate k c ++ t)) := by
  have hrest : HoldsString b.bytes pre.length t := by
    have := h.append
    rwa [zero_add] at this
  have hlen := strlen_of_holds hrest hn
  obtain ⟨hmoved, hother⟩ := memmove_moves b.bytes (pre.length + k) pre.length (t.length + 1)
  have hbytes : (b.insertChars n pre.length c k).bytes = (memmove b.bytes (pre.length + k) pre.length
      (t.length + 1)).putBytes pre.length k fun _ => c := by
    rw [← memset_eq_putBytes, ← hlen]
    rfl
  have hstores : (b.insertChars n pre.length c k).stores = List.range' pre.length k ++
      (List.range' (pre.length + k) (t.length + 1) ++ b.stores) := by
    rw [← hlen]
    rfl
  refine ⟨holds_splice h hc (fun i hi => ?_) (fun i hi => ?_) fun i hi => ?_, fun x hx => ?_,
    fun _ => ?_⟩
  · rw [hbytes, ByteMemory.putBytes_of_notMem (.inl hi), hother _ (.inl (by omega))]
  · rw [hbytes, ByteMemory.putBytes_add hi]
  · rw [hbytes, ByteMemory.putBytes_of_notMem (.inr (by omega)), hmoved i (by omega)]
  · rw [List.length_append, List.length_append, List.length_replicate]
    simp only [hstores, List.mem_append, List.mem_range'_1] at hx
    rcases hx with hx | hx | hx
    · exact .inr (by omega)
    · exact .inr (by omega)
    · exact .inl hx
  · rw [hstores, List.length_append, List.length_append, List.length_replicate]
    refine List.mem_append_right _ (List.mem_append_left _ ?_)
    rw [List.mem_range'_1]
    omega

/-- The characters behind a text, and a terminator behind them. -/
theorem grown_append (h : HoldsString b.bytes 0 t) (hc : c ≠ 0) :
    Grown b ((b.memset t.length c k).put (t.length + k) 0) t (t ++ List.replicate k c) := by
  have hbytes : ((b.memset t.length c k).put (t.length + k) 0).bytes =
      Function.update (b.bytes.putBytes t.length k fun _ => c) (t.length + k) 0 := by
    rw [← memset_eq_putBytes]
    rfl
  have hstores : ((b.memset t.length c k).put (t.length + k) 0).stores =
      (t.length + k) :: (List.range' t.length k ++ b.stores) := rfl
  refine ⟨HoldsString.of_getD ?_ fun i hi => ?_, fun x hx => ?_, fun _ => ?_⟩
  · rw [List.mem_append, not_or]
    exact ⟨h.noNul, fun hmem => hc (List.eq_of_mem_replicate hmem).symm⟩
  · rw [List.length_append, List.length_replicate] at hi
    rw [zero_add, hbytes]
    rcases Nat.lt_or_ge i t.length with hlt | hge
    · have hold := h.apply_eq_getD hlt.le
      rw [zero_add] at hold
      rw [Function.update_of_ne (by omega), ByteMemory.putBytes_of_notMem (.inl hlt), hold,
        List.getD_append _ _ _ _ hlt]
    obtain ⟨j, rfl⟩ := Nat.exists_eq_add_of_le hge
    rw [List.getD_append_right _ _ _ _ hge, Nat.add_sub_cancel_left]
    rcases Nat.lt_or_eq_of_le (Nat.add_le_add_iff_left.mp hi) with hlt | rfl
    · rw [Function.update_of_ne (by omega), ByteMemory.putBytes_add hlt, List.getD_replicate _ hlt]
    · rw [Function.update_self, List.getD_eq_default _ _ (by rw [List.length_replicate])]
  · rw [List.length_append, List.length_replicate]
    simp only [hstores, List.mem_cons, List.mem_append, List.mem_range'_1] at hx
    rcases hx with hx | hx | hx
    · exact .inr hx.le
    · exact .inr (by omega)
    · exact .inl hx
  · rw [hstores, List.length_append, List.length_replicate]
    exact List.mem_cons_self

end Texts

/-! ### Padding -/

section Padding

variable {spec : FormatSpecifier} {b b' : PrintBuffer} {n : ℕ} {pre t t' : List UInt8}

/-- How far the padding code fills a text of `len` characters. -/
def FormatSpecifier.pad (spec : FormatSpecifier) (len : ℕ) : ℕ := (toI32 (spec.width - len)).toNat

/-- The zeros that `%x` and `%d` put in front of the digits. -/
def FormatSpecifier.zeros (spec : FormatSpecifier) (len : ℕ) : ℕ :=
  if !inGroup 45 spec.flags && inGroup 48 spec.flags then spec.pad len else 0

/-- The text with the spaces. -/
def FormatSpecifier.spaced (spec : FormatSpecifier) (t : List UInt8) : List UInt8 :=
  if inGroup 45 spec.flags then t ++ List.replicate (spec.pad t.length) 32
  else List.replicate (spec.pad t.length) 32 ++ t

theorem FormatSpecifier.pad_of_neg {len : ℕ} (h : ¬toI32 (spec.width - len) ≥ 0) :
    spec.pad len = 0 := by
  rw [FormatSpecifier.pad]
  omega

/-- The padding with zeros. -/
theorem grown_zeroPad (spec : FormatSpecifier) (h : HoldsString b.bytes 0 (pre ++ t))
    (hn : (pre ++ t).length ≤ n) :
    Grown b (zeroPad n spec pre.length b) (pre ++ t)
      (pre ++ (List.replicate (spec.zeros (pre ++ t).length) 48 ++ t)) := by
  have hlen := strlen_of_holds h hn
  rw [zeroPad, FormatSpecifier.zeros]
  split_ifs with hflags
  · dsimp only
    rw [hlen]
    split_ifs with hpad
    · exact grown_insertChars h ((List.suffix_append pre t).length_le.trans hn) (by decide)
    · rw [FormatSpecifier.pad_of_neg hpad]
      exact .refl h
  · exact .refl h

/-- The padding with spaces. -/
theorem grown_spacePad (spec : FormatSpecifier) (h : HoldsString b.bytes 0 t) (hn : t.length ≤ n) :
    Grown b (spacePad n spec b) t (spec.spaced t) := by
  have hlen := strlen_of_holds h hn
  rw [spacePad, hlen, FormatSpecifier.spaced]
  split_ifs with hpad hminus hminus
  · exact grown_append h (by decide)
  · have hall : HoldsString b.bytes 0 ([] ++ t) := h
    exact grown_insertChars hall hn (by decide)
  · rw [FormatSpecifier.pad_of_neg hpad, List.replicate_zero, List.append_nil]
    exact .refl h
  · rw [FormatSpecifier.pad_of_neg hpad]
    exact .refl h

end Padding

/-! ### Numbers -/

section Numbers

variable {n base : ℕ} {m : ByteMemory}

theorem length_numeral_le {u : ℕ} (hb : 2 ≤ base) (hu : u < 2 ^ 32) : (numeral base u).length ≤ 32 := by
  rw [numeral, List.length_map, List.length_reverse]
  exact length_digitList_le hb hu

theorem natAbs_lt (arg : Int32) : arg.toInt.natAbs < 2 ^ 32 := by
  have hle := arg.le_toInt
  have hlt := arg.toInt_lt
  omega

theorem length_printed_le (hb : 2 ≤ base) (arg : Int32) : (printed base arg.toInt).length ≤ 33 := by
  unfold printed
  split_ifs with hneg
  · exact Nat.succ_le_succ (length_numeral_le (by decide) (natAbs_lt arg))
  · exact (length_numeral_le hb (toU32_lt _)).trans (by decide)

/-- `itoa` stores the text and its terminator. -/
theorem itoaStores_printed (hb : 2 ≤ base) (hb' : base ≤ 36) (hn : 32 ≤ n) (m : ByteMemory)
    (buff : ℕ) (value : Int32) :
    itoaStores n value.toInt buff base m =
      some (List.range' buff ((printed base value.toInt).length + 1)) := by
  have hrange : ¬((base : ℤ) < 2 ∨ (base : ℤ) > 36) := by omega
  rw [itoaStores, if_neg hrange, Int.toNat_natCast]
  by_cases hneg : value.toInt < 0 ∧ base = 10
  · rw [if_pos ⟨hneg.1, by omega⟩, printed, if_pos hneg]
    obtain ⟨hvalue, rfl⟩ := hneg
    have hof : value.toInt = -(value.toInt.natAbs : ℤ) := by omega
    have hloop := @digitLoop_stores m buff n 10 ℤ (fun u => -(u : ℤ)) _ hb
      (fun _ _ _ => negativePass_eq hb hb') _ (natAbs_lt value) hn
    rw [← hof] at hloop
    rw [hloop, Option.map_some, List.length_cons, numeral, List.length_map, List.length_map,
      List.length_reverse]
    congr 2
    omega
  · rw [if_neg fun h => hneg ⟨h.1, by omega⟩, printed, if_neg hneg]
    have hloop := @digitLoop_stores m buff n base ℕ id _ hb (fun _ _ _ => unsignedPass_eq hb hb') _
      (toU32_lt value.toInt) hn
    rw [id] at hloop
    rw [hloop, Option.map_some, numeral, List.length_map, List.length_map, List.length_reverse]
    congr 2
    omega

/-- A number printed behind a prefix. -/
theorem itoa_after_prefix {b : PrintBuffer} {pre : List UInt8} (hb : 2 ≤ base) (hb' : base ≤ 36)
    (hn : 34 ≤ n) (hnul : (0 : UInt8) ∉ pre) (hpre : ∀ i < pre.length, b.bytes i = pre.getD i 0)
    (arg : Int32) :
    ∃ b', b.itoa n arg.toInt pre.length base = some b' ∧
      HoldsString b'.bytes 0 (pre ++ printed base arg.toInt) ∧
      b'.stores = List.range' pre.length ((printed base arg.toInt).length + 1) ++ b.stores := by
  obtain ⟨m', hitoa, hstring, hother⟩ := itoa_printed hb hb' hn b.bytes pre.length arg
  refine ⟨⟨m', _⟩, ?_, HoldsString.of_getD ?_ fun i hi => ?_, rfl⟩
  · rw [PrintBuffer.itoa, hitoa, Option.bind_some, itoaStores_printed hb hb' (by omega)]
    rfl
  · rw [List.mem_append, not_or]
    exact ⟨hnul, hstring.noNul⟩
  · rw [List.length_append] at hi
    rw [zero_add]
    rcases Nat.lt_or_ge i pre.length with hlt | hge
    · rw [List.getD_append _ _ _ _ hlt]
      exact (hother i (.inl hlt)).trans (hpre i hlt)
    · obtain ⟨j, rfl⟩ := Nat.exists_eq_add_of_le hge
      rw [List.getD_append_right _ _ _ _ hge, Nat.add_sub_cancel_left]
      exact hstring.apply_eq_getD (by omega)

end Numbers

/-! ### The `switch` -/

namespace FormatSpecifier

/-- A conversion of a number. -/
def IsNumber (spec : FormatSpecifier) : Prop :=
  spec.specifier = 120 ∨ spec.specifier = 105 ∨ spec.specifier = 100

instance (spec : FormatSpecifier) : Decidable spec.IsNumber := inferInstanceAs (Decidable (_ ∨ _))

/-- What stands before the digits of a number. -/
def numberPrefix (spec : FormatSpecifier) (arg : Int32) : List UInt8 :=
  if spec.specifier = 120 then if inGroup 35 spec.flags then [48, 120] else []
  else if arg.toInt < 0 then [45]
  else if inGroup 43 spec.flags then [43] else []

/-- The digits: unsigned in base 16, or of the magnitude in base 10. -/
def numberDigits (spec : FormatSpecifier) (arg : Int32) : List UInt8 :=
  if spec.specifier = 120 then numeral 16 (toU32 arg.toInt) else numeral 10 arg.toInt.natAbs

/-- The text of a conversion that is not one of a number; `str` is the string of a `%s`. -/
def otherText (spec : FormatSpecifier) (arg : Int32) (str : List UInt8) : List UInt8 :=
  if spec.specifier = 37 then [37]
  else if spec.specifier = 99 then if arg.toInt8.toUInt8 = 0 then [] else [arg.toInt8.toUInt8]
  else if spec.specifier = 115 then str
  else if spec.specifier = 0 then [37] else [37, spec.specifier]

/-- The text of a conversion without its padding. -/
def plain (spec : FormatSpecifier) (arg : Int32) (str : List UInt8) : List UInt8 :=
  if spec.IsNumber then spec.numberPrefix arg ++ spec.numberDigits arg else spec.otherText arg str

/-- The text that the `switch` leaves in the buffer. -/
def filled (spec : FormatSpecifier) (arg : Int32) (str : List UInt8) : List UInt8 :=
  if spec.IsNumber then spec.numberPrefix arg ++
    (List.replicate (spec.zeros (spec.plain arg str).length) 48 ++ spec.numberDigits arg)
  else spec.plain arg str

end FormatSpecifier

/-- What the `switch` leaves: the text, nothing stored far behind it, and the terminator, if there
are zeros. -/
structure Converted (spec : FormatSpecifier) (arg : Int32) (str : List UInt8) (b : PrintBuffer) :
    Prop where
  holds : HoldsString b.bytes 0 (spec.filled arg str)
  bound : ∀ x ∈ b.stores, x ≤ 2 ∨ x ≤ (spec.filled arg str).length
  reach : (spec.plain arg str).length < (spec.filled arg str).length →
    (spec.filled arg str).length ∈ b.stores

section Convert

variable {spec : FormatSpecifier} {arg : Int32} {str : List UInt8} {n : ℕ} {m stack : ByteMemory}

/-- A text with zeros between prefix and digits. -/
theorem converted_number {b : PrintBuffer} (hspec : spec.IsNumber)
    (hstores : ∀ x ∈ b.stores, x ≤ 2 ∨ x ≤ (spec.plain arg str).length)
    (h : HoldsString b.bytes 0 (spec.numberPrefix arg ++ spec.numberDigits arg))
    (hn : (spec.plain arg str).length ≤ n) :
    Converted spec arg str (zeroPad n spec (spec.numberPrefix arg).length b) := by
  have hplain : spec.plain arg str = spec.numberPrefix arg ++ spec.numberDigits arg := if_pos hspec
  have hfilled : spec.filled arg str = spec.numberPrefix arg ++
      (List.replicate (spec.zeros (spec.plain arg str).length) 48 ++ spec.numberDigits arg) :=
    if_pos hspec
  rw [hplain] at hn hfilled hstores
  have hgrown := grown_zeroPad spec h hn
  rw [← hfilled] at hgrown
  have hle : (spec.numberPrefix arg ++ spec.numberDigits arg).length ≤
      (spec.filled arg str).length := by
    rw [hfilled, List.length_append, List.length_append, List.length_append]
    omega
  refine ⟨hgrown.holds, fun x hx => ?_, hplain ▸ hgrown.reach⟩
  rcases hgrown.bound x hx with hold | hnew
  · exact (hstores x hold).imp_right fun hle' => hle'.trans hle
  · exact .inr hnew

theorem printed_sixteen (arg : Int32) : printed 16 arg.toInt = numeral 16 (toU32 arg.toInt) :=
  if_neg fun h => absurd h.2 (by decide)

theorem printed_ten_of_neg (h : arg.toInt < 0) :
    printed 10 arg.toInt = 45 :: numeral 10 arg.toInt.natAbs :=
  if_pos ⟨h, rfl⟩

theorem printed_ten_of_nonneg (h : ¬arg.toInt < 0) :
    printed 10 arg.toInt = numeral 10 arg.toInt.natAbs := by
  have hu : toU32 arg.toInt = arg.toInt.natAbs := by
    have hlt := arg.toInt_lt
    unfold toU32
    omega
  rw [printed, if_neg fun h' => h h'.1, hu]

/-- `itoa` behind what is in the buffer, and zeros. -/
theorem converted_itoa {b : PrintBuffer} {pre : List UInt8} (base : ℕ) (str : List UInt8)
    (hb : 2 ≤ base) (hb' : base ≤ 36) (hn : 35 ≤ n) (hspec : spec.IsNumber) (hnul : (0 : UInt8) ∉ pre)
    (hpre : ∀ i < pre.length, b.bytes i = pre.getD i 0) (hshort : pre.length ≤ 2)
    (hstores : ∀ x ∈ b.stores, x ≤ 2)
    (htext : pre ++ printed base arg.toInt = spec.numberPrefix arg ++ spec.numberDigits arg) :
    ∃ b', b.itoa n arg.toInt pre.length base = some b' ∧
      Converted spec arg str (zeroPad n spec (spec.numberPrefix arg).length b') := by
  have hplain : spec.plain arg str = pre ++ printed base arg.toInt := (if_pos hspec).trans htext.symm
  have hlen := length_printed_le hb arg
  obtain ⟨b', hitoa, hholds, hstores'⟩ := itoa_after_prefix (n := n) hb hb' (by omega) hnul hpre arg
  refine ⟨b', hitoa, converted_number hspec (fun x hx => ?_) (htext ▸ hholds) ?_⟩
  · rw [hstores', List.mem_append, List.mem_range'_1] at hx
    rw [hplain, List.length_append]
    rcases hx with hx | hx
    · exact .inr (by omega)
    · exact .inl (hstores x hx)
  · rw [hplain, List.length_append]
    omega

/-- `%x`. -/
theorem convert_hexadecimal (stack : ByteMemory) (str : List UInt8) (hspec : spec.specifier = 120)
    (hn : 35 ≤ n) :
    ∃ b, convert n m arg spec (.init stack) = some b ∧ Converted spec arg str b := by
  have hdigits : spec.numberDigits arg = printed 16 arg.toInt := by
    rw [FormatSpecifier.numberDigits, if_pos hspec, printed_sixteen]
  have hmark : spec.numberPrefix arg = if inGroup 35 spec.flags then [48, 120] else [] :=
    if_pos hspec
  -- the prefix is in the buffer
  obtain ⟨b, hb, hpre, hstores⟩ : ∃ b : PrintBuffer,
      (if inGroup 35 spec.flags then ((PrintBuffer.init stack).strcpy 0 [48, 120], 2)
        else (PrintBuffer.init stack, 0)) = (b, (spec.numberPrefix arg).length) ∧
      (∀ i < (spec.numberPrefix arg).length, b.bytes i = (spec.numberPrefix arg).getD i 0) ∧
      ∀ x ∈ b.stores, x ≤ 2 := by
    rw [hmark]
    split_ifs with hflag
    · refine ⟨_, rfl, fun i hi => ?_, fun x hx => ?_⟩
      · have hcopy := (strcpy_holds (t := [48, 120]) (PrintBuffer.init stack).bytes 0
          (by decide)).apply_eq_getD hi.le
        rwa [zero_add] at hcopy
      · have hx := List.mem_range'_1.mp ((List.mem_append.mp hx).resolve_right List.not_mem_nil)
        simp only [List.length_cons, List.length_nil] at hx
        omega
    · exact ⟨_, rfl, fun i hi => absurd hi (Nat.not_lt_zero i), fun x hx => absurd hx List.not_mem_nil⟩
  have hshort : (spec.numberPrefix arg).length ≤ 2 ∧ (0 : UInt8) ∉ spec.numberPrefix arg := by
    rw [hmark]
    split_ifs <;> decide
  obtain ⟨b', hitoa, hconverted⟩ := converted_itoa 16 str (by decide) (by decide) hn
    (.inl hspec) hshort.2 hpre hshort.1 hstores (by rw [hdigits])
  refine ⟨_, ?_, hconverted⟩
  rw [convert, if_neg (by rw [hspec]; decide), if_neg (by rw [hspec]; decide), if_pos hspec, hb]
  dsimp only
  rw [show (16 : ℤ) = (16 : ℕ) from rfl, hitoa, Option.map_some]

/-- `%d` and `%i`. -/
theorem convert_decimal (stack : ByteMemory) (str : List UInt8)
    (hspec : spec.specifier = 105 ∨ spec.specifier = 100) (hn : 35 ≤ n) :
    ∃ b, convert n m arg spec (.init stack) = some b ∧ Converted spec arg str b := by
  have hnot : spec.specifier ≠ 37 ∧ spec.specifier ≠ 99 ∧ spec.specifier ≠ 120 ∧ spec.specifier ≠ 115 := by
    rcases hspec with h | h <;> rw [h] <;> decide
  have hdigits : spec.numberDigits arg = numeral 10 arg.toInt.natAbs := if_neg hnot.2.2.1
  have hmark : spec.numberPrefix arg =
      if arg.toInt < 0 then [45] else if inGroup 43 spec.flags then [43] else [] := if_neg hnot.2.2.1
  rw [convert, if_neg hnot.1, if_neg hnot.2.1, if_neg hnot.2.2.1, if_neg hnot.2.2.2, if_pos hspec]
  rcases lt_or_ge arg.toInt 0 with hneg | hnonneg
  · -- the sign is the first character that `itoa` prints
    rw [if_pos hneg] at hmark
    have htext : [] ++ printed 10 arg.toInt = spec.numberPrefix arg ++ spec.numberDigits arg := by
      rw [hmark, hdigits, printed_ten_of_neg hneg, List.nil_append, List.singleton_append]
    obtain ⟨b', hitoa, hconverted⟩ := converted_itoa (b := .init stack) 10 str
      (by decide) (by decide) hn (.inr hspec) List.not_mem_nil (fun i hi => absurd hi (Nat.not_lt_zero i))
      (by decide) (fun x hx => absurd hx List.not_mem_nil) htext
    refine ⟨_, ?_, hconverted⟩
    have hflag : (inGroup 43 spec.flags && decide (arg.toInt ≥ 0)) = false := by
      rw [decide_eq_false hneg.not_ge, Bool.and_false]
    rw [hflag, hmark]
    simp only [Bool.false_eq_true, if_false, if_pos hneg]
    exact congrArg _ hitoa
  · rw [if_neg hnonneg.not_gt] at hmark
    have htext : spec.numberPrefix arg ++ printed 10 arg.toInt =
        spec.numberPrefix arg ++ spec.numberDigits arg := by
      rw [hdigits, printed_ten_of_nonneg hnonneg.not_gt]
    obtain ⟨b, hb, hpre, hstores⟩ : ∃ b : PrintBuffer,
        (if inGroup 43 spec.flags && arg.toInt ≥ 0 then (((PrintBuffer.init stack).put 0 43).put 1 0, 1)
          else (PrintBuffer.init stack, 0)) = (b, (spec.numberPrefix arg).length) ∧
        (∀ i < (spec.numberPrefix arg).length, b.bytes i = (spec.numberPrefix arg).getD i 0) ∧
        ∀ x ∈ b.stores, x ≤ 2 := by
      rw [hmark, decide_eq_true hnonneg, Bool.and_true]
      split_ifs with hflag
      · refine ⟨_, rfl, fun i hi => ?_, fun x hx => ?_⟩
        · obtain rfl : i = 0 := Nat.lt_one_iff.mp hi
          rfl
        · rcases List.mem_cons.mp hx with rfl | hx
          · decide
          · rw [(List.mem_cons.mp hx).resolve_right List.not_mem_nil]
            decide
      · exact ⟨_, rfl, fun i hi => absurd hi (Nat.not_lt_zero i), fun x hx => absurd hx List.not_mem_nil⟩
    have hshort : (spec.numberPrefix arg).length ≤ 2 ∧ (0 : UInt8) ∉ spec.numberPrefix arg := by
      rw [hmark]
      split_ifs <;> decide
    obtain ⟨b', hitoa, hconverted⟩ := converted_itoa 10 str (by decide) (by decide)
      hn (.inr hspec) hshort.2 hpre hshort.1 hstores htext
    refine ⟨_, ?_, hconverted⟩
    rw [hb]
    simp only [if_neg hnonneg.not_gt]
    exact congrArg _ hitoa

/-- A single character, or nothing for the character `0`. -/
theorem holds_char (b : PrintBuffer) (c : UInt8) :
    HoldsString ((b.put 0 c).put 1 0).bytes 0 (if c = 0 then [] else [c]) := by
  have hzero : ((b.put 0 c).put 1 0).bytes 0 = c := rfl
  have hone : ((b.put 0 c).put 1 0).bytes 1 = 0 := rfl
  split_ifs with hc
  · exact ⟨List.not_mem_nil, fun i hi => absurd hi (Nat.not_lt_zero i), hzero.trans hc⟩
  · refine ⟨fun hmem => hc (List.mem_singleton.mp hmem).symm, fun i hi => ?_, hone⟩
    obtain rfl : i = 0 := Nat.lt_one_iff.mp hi
    exact hzero

/-- A text without zeros, where the stores stay near it. -/
theorem converted_plain {b : PrintBuffer} (hspec : ¬spec.IsNumber)
    (h : HoldsString b.bytes 0 (spec.plain arg str))
    (hstores : ∀ x ∈ b.stores, x ≤ 2 ∨ x ≤ (spec.plain arg str).length) :
    Converted spec arg str b := by
  have hfilled : spec.filled arg str = spec.plain arg str := if_neg hspec
  refine ⟨hfilled ▸ h, hfilled ▸ hstores, fun hlt => ?_⟩
  rw [hfilled] at hlt
  exact absurd hlt (lt_irrefl _)

/-- **The `switch`.** -/
theorem convert_converted (stack : ByteMemory) (hn : 2048 ≤ n)
    (hstr : spec.specifier = 115 → HoldsString m arg.toUInt32.toNat str ∧ str.length < 2048) :
    ∃ b, convert n m arg spec (.init stack) = some b ∧ Converted spec arg str b := by
  by_cases hnumber : spec.IsNumber
  · rcases hnumber with hspec | hspec
    · exact convert_hexadecimal stack str hspec (by omega)
    · exact convert_decimal stack str hspec (by omega)
  have hplain : spec.plain arg str = spec.otherText arg str := if_neg hnumber
  rw [FormatSpecifier.otherText] at hplain
  obtain ⟨hx, hid⟩ := not_or.mp hnumber
  rw [convert]
  -- the other specifiers in the order of the source's branches
  by_cases hpercent : spec.specifier = 37
  · rw [if_pos hpercent] at hplain ⊢
    refine ⟨_, rfl, converted_plain hnumber (hplain ▸ holds_char _ 37) fun x hmem => .inl ?_⟩
    simp only [PrintBuffer.put, PrintBuffer.init, List.mem_cons, List.not_mem_nil, or_false] at hmem
    omega
  rw [if_neg hpercent] at hplain ⊢
  by_cases hchar : spec.specifier = 99
  · rw [if_pos hchar] at hplain ⊢
    refine ⟨_, rfl, converted_plain hnumber (hplain ▸ holds_char _ _) fun x hmem => .inl ?_⟩
    simp only [PrintBuffer.put, PrintBuffer.init, List.mem_cons, List.not_mem_nil, or_false] at hmem
    omega
  rw [if_neg hchar] at hplain ⊢
  rw [if_neg hx]
  by_cases hstring : spec.specifier = 115
  · rw [if_pos hstring] at hplain ⊢
    obtain ⟨hholds, hlen⟩ := hstr hstring
    rw [chars_stringAt hholds (hlen.trans_le hn)]
    have hcopy : HoldsString ((PrintBuffer.init stack).strcpy 0 str).bytes 0 str :=
      strcpy_holds _ 0 hholds.noNul
    refine ⟨_, rfl, converted_plain hnumber (by rw [hplain]; exact hcopy) fun x hmem => ?_⟩
    have hx := List.mem_range'_1.mp ((List.mem_append.mp hmem).resolve_right List.not_mem_nil)
    rw [hplain]
    exact .inr (by omega)
  rw [if_neg hstring] at hplain ⊢
  rw [if_neg hid]
  refine ⟨_, rfl, converted_plain hnumber ?_ fun x hmem => .inl ?_⟩
  · rw [hplain]
    -- any other specifier is copied behind its percent sign; at the end of the format there is none to copy
    split_ifs with hzero
    · refine ⟨by decide, fun i hi => ?_, hzero⟩
      obtain rfl : i = 0 := Nat.lt_one_iff.mp hi
      rfl
    · refine ⟨?_, fun i hi => ?_, rfl⟩
      · simp [Ne.symm hzero]
      · rcases i with _ | i
        · rfl
        · obtain rfl : i = 0 := by simpa using hi
          rfl
  · simp only [PrintBuffer.put, PrintBuffer.init, List.mem_cons, List.not_mem_nil, or_false] at hmem
    omega

end Convert

/-! ### A pass -/

/-- What a conversion prints. -/
def FormatSpecifier.output (spec : FormatSpecifier) (arg : Int32) (str : List UInt8) : List UInt8 :=
  spec.spaced (spec.filled arg str)

section Passes

variable {n : ℕ} {m stack : ByteMemory} {parameters : ℕ → Int32} {s : PrintfState} {c : UInt8}
  {sp str : List UInt8} {b : PrintBuffer}

theorem printfPass_end (h : HoldsString m s.format []) (hn : 0 < n) :
    printfPass n m parameters stack s = .leave { s with reads := s.format :: s.reads } := by
  rw [printfPass, chars_stringAt h hn]

theorem printfPass_char (h : HoldsString m s.format (c :: sp)) (hc : c ≠ 37)
    (hn : (c :: sp).length < n) :
    printfPass n m parameters stack s =
      .next
        { s with
          format := s.format + 1
          amount := toI32 (s.amount + 1)
          console := s.console.putchar c
          reads := s.format :: s.reads } := by
  rw [printfPass, chars_stringAt h hn]
  exact if_neg hc

theorem printfPass_percent (h : HoldsString m s.format (37 :: sp)) (hn : (37 :: sp).length < n)
    (hb : convert n m (parameters s.parameter) (parseSpecifier sp).1 (.init stack) = some b) :
    printfPass n m parameters stack s =
      .next
        { format := s.format + 1 + (parseSpecifier sp).2
          parameter := s.parameter + (parseSpecifier sp).1.arity
          amount := toI32 (s.amount +
            (stringAt (spacePad n (parseSpecifier sp).1 b).bytes 0 n).chars.length)
          console := s.console.putS (stringAt (spacePad n (parseSpecifier sp).1 b).bytes 0 n).chars
          reads := List.range' s.format ((parseSpecifier sp).2 + 1) ++ s.reads
          flagStores := List.range ((parseSpecifier sp).1.flags.length + 1) ++ s.flagStores
          bufferStores := (spacePad n (parseSpecifier sp).1 b).stores ++ s.bufferStores } := by
  rw [printfPass, chars_stringAt h hn]
  dsimp only
  rw [if_pos rfl, hb]

/-- **A conversion** whose texts fit the buffer prints its text, and stores inside the buffer. -/
theorem printfPass_prints (stack : ByteMemory) (parameters : ℕ → Int32)
    (h : HoldsString m s.format (37 :: sp)) (hn : (37 :: sp).length < n) (hn' : 2048 ≤ n)
    (hstr : (parseSpecifier sp).1.specifier = 115 →
      HoldsString m (parameters s.parameter).toUInt32.toNat str ∧ str.length < 2048)
    (hfits : ((parseSpecifier sp).1.filled (parameters s.parameter) str).length < 2048)
    (hfits' : ((parseSpecifier sp).1.output (parameters s.parameter) str).length < 2048) :
    ∃ stores, (∀ x ∈ stores, x < 2048) ∧ printfPass n m parameters stack s =
      .next
        { format := s.format + 1 + (parseSpecifier sp).2
          parameter := s.parameter + (parseSpecifier sp).1.arity
          amount := toI32 (s.amount +
            ((parseSpecifier sp).1.output (parameters s.parameter) str).length)
          console := s.console.putS ((parseSpecifier sp).1.output (parameters s.parameter) str)
          reads := List.range' s.format ((parseSpecifier sp).2 + 1) ++ s.reads
          flagStores := List.range ((parseSpecifier sp).1.flags.length + 1) ++ s.flagStores
          bufferStores := stores ++ s.bufferStores } := by
  obtain ⟨b, hb, hconverted⟩ := convert_converted stack hn' hstr
  have hgrown := grown_spacePad (parseSpecifier sp).1 hconverted.holds (hfits.le.trans hn')
  refine ⟨(spacePad n (parseSpecifier sp).1 b).stores, fun x hx => ?_, ?_⟩
  · rcases hgrown.bound x hx with hold | hnew
    · rcases hconverted.bound x hold with hsmall | hle
      · omega
      · exact hle.trans_lt hfits
    · exact hnew.trans_lt hfits'
  · rw [printfPass_percent h hn hb, chars_stringAt hgrown.holds (hfits'.trans_le hn')]
    rfl

end Passes

/-! ### The format of a number conversion -/

section NumberFormat

variable {flags ws rest : List UInt8} {letter : UInt8}

end NumberFormat

/-! ### The text of a number -/

section NumberText

variable {flags ws rest : List UInt8} {letter : UInt8} {w n : ℕ} {v : Int32} {str : List UInt8}

end NumberText

section PrintfNumber

variable {n : ℕ} {m stack : ByteMemory} {parameters : ℕ → Int32} {s : PrintfState}
  {flags ws rest : List UInt8} {letter : UInt8}

/-- A console without output. -/
def blankConsole : Console := ⟨initTerminal (fun _ => 0) 0, []⟩

end PrintfNumber

end LittleLinux
