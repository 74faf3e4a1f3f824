import LittleLinux.Libc.Numerals

/-!
# Parsing numbers

`atoi` takes a letter for a digit of a base above 10, and takes 7 from a decimal digit there as it
does from an upper-case letter: `5` counts as `-2`. A numeral without decimal digits is read back
as printed, and so is every numeral of a base up to 10 (`readsBack_iff`).

In base 10 it reads more than numerals: `NumberText` is the text it takes for a number
(`atoi_ten_eq_iff`).
-/

namespace LittleLinux

section Digit

variable {b d : ℕ}

/-- What `atoi` takes a digit for. -/
def worth (b d : ℕ) : ℤ := if b ≤ 10 ∨ 10 ≤ d then d else d - 7

/-- One for a digit that is not taken for itself. -/
def misread (b d : ℕ) : ℕ := if b ≤ 10 ∨ 10 ≤ d then 0 else 1

theorem worth_eq (b d : ℕ) : worth b d = d - 7 * misread b d := by
  unfold worth misread
  split_ifs <;> simp

theorem misread_le_one (b d : ℕ) : misread b d ≤ 1 := by
  unfold misread
  split_ifs <;> simp

theorem misread_eq_zero_iff : misread b d = 0 ↔ b ≤ 10 ∨ 10 ≤ d := by
  unfold misread
  split_ifs with h <;> simp [h]

theorem isalnum_digitChar : ∀ d < 36, isalnum (digitChar d) = true := by decide

theorem isspace_digitChar : ∀ d < 36, isspace (digitChar d) = false := by decide

theorem islower_digitChar : ∀ d < 36, islower (digitChar d) = decide (10 ≤ d) := by decide

theorem digitChar_notMark : ∀ d < 36, digitChar d ≠ 43 ∧ digitChar d ≠ 45 ∧
    (digitChar d = 48 → d = 0) := by decide

theorem toNat_digitChar : ∀ d < 36, (digitChar d).toNat = if d < 10 then 48 + d else 87 + d := by
  decide

/-- A character that is a digit of the base. -/
theorem atoiDigits_digitChar (hd : d < b) (hb' : b ≤ 36) (val : ℤ) (cs : List UInt8) :
    atoiDigits b val (digitChar d :: cs) = atoiDigits b (toI32 (val * b + worth b d)) cs := by
  have hd36 : d < 36 := hd.trans_le hb'
  have hworth : (let tmp := ((digitChar d).toNat : ℤ) - 48
      if (b : ℤ) ≤ 10 then tmp else tmp - if islower (digitChar d) then 0x27 else 0x7) =
        worth b d := by
    rw [toNat_digitChar d hd36, islower_digitChar d hd36]
    unfold worth
    simp only [decide_eq_true_eq]
    split_ifs <;> push_cast <;> omega
  have hlt : ¬worth b d ≥ b := by
    rw [worth_eq]
    omega
  rw [atoiDigits, if_pos (isalnum_digitChar d hd36)]
  dsimp only at hworth ⊢
  rw [hworth, if_neg hlt]

end Digit

/-! ### The value of the digits -/

section Value

variable {b u : ℕ} {ds : List ℕ}

/-- The loop of `atoi` over digits of the base. -/
theorem atoiDigits_map (hb' : b ≤ 36) (hds : ∀ d ∈ ds, d < b) (val : ℤ) :
    atoiDigits b (toI32 val) (ds.map digitChar) =
      some (toI32 (ds.foldl (fun acc d => acc * b + worth b d) val)) := by
  induction ds generalizing val with
  | nil => rfl
  | cons d ds ih =>
    rw [List.map_cons, atoiDigits_digitChar (hds d List.mem_cons_self) hb', toI32_mul_add,
      ih fun e he => hds e (List.mem_cons_of_mem d he), List.foldl_cons]

/-- The value is what was printed, less seven times the value of the misread digits. -/
theorem foldl_worth (ds : List ℕ) (n k : ℕ) :
    ds.foldl (fun acc d => acc * b + worth b d) ((n : ℤ) - 7 * k) =
      (ds.foldl (fun acc d => acc * b + d) n : ℕ) -
        7 * ((ds.map (misread b)).foldl (fun acc d => acc * b + d) k : ℕ) := by
  induction ds generalizing n k with
  | nil => rfl
  | cons d ds ih =>
    have hstep : ((n : ℤ) - 7 * k) * b + worth b d =
        ((n * b + d : ℕ) : ℤ) - 7 * (k * b + misread b d : ℕ) := by
      rw [worth_eq]
      push_cast
      ring
    rw [List.map_cons, List.foldl_cons, List.foldl_cons, List.foldl_cons, hstep, ih]

/-- A string of digits without a leading zero has no sign and no mark of a base. -/
theorem atoiPrefix_numeral {base : ℤ} {s : List UInt8} (hb' : b ≤ 36) (hs : IsNumeral b u s) :
    atoiPrefix base s = some (1, s) := by
  obtain ⟨ds, hne, rfl, hlt, -, hlead⟩ := hs
  obtain ⟨d, ds, rfl⟩ := List.exists_cons_of_ne_nil hne
  obtain ⟨hplus, hminus, hzero⟩ := digitChar_notMark d ((hlt d List.mem_cons_self).trans_le hb')
  rw [List.map_cons]
  by_cases hd : digitChar d = 48
  · obtain rfl := hzero hd
    obtain rfl : ds = [] := by simpa using hlead rfl
    rfl
  · unfold atoiPrefix
    split <;> simp_all

theorem dropWhile_isspace_numeral {s : List UInt8} (hb' : b ≤ 36) (hs : IsNumeral b u s) :
    s.dropWhile isspace = s := by
  obtain ⟨ds, hne, rfl, hlt, -, -⟩ := hs
  obtain ⟨d, ds, rfl⟩ := List.exists_cons_of_ne_nil hne
  rw [List.map_cons, List.dropWhile_cons_of_neg]
  rw [isspace_digitChar d ((hlt d List.mem_cons_self).trans_le hb')]
  exact Bool.false_ne_true

/-- What the misread digits of `u` are worth. -/
def misreadValue (b u : ℕ) : ℕ := Nat.ofDigits b ((digitList b u).map (misread b))

/-- The loop of `atoi` over a numeral. -/
theorem atoiDigits_numeral (hb : 2 ≤ b) (hb' : b ≤ 36) (u : ℕ) :
    atoiDigits b 0 (numeral b u) = some (toI32 (u - 7 * misreadValue b u)) := by
  have hlt : ∀ d ∈ (digitList b u).reverse, d < b := fun d hd =>
    lt_of_mem_digitList hb (List.mem_reverse.mp hd)
  have h := foldl_worth (b := b) (digitList b u).reverse 0 0
  rw [foldl_digits_reverse, ofDigits_digitList, List.map_reverse, foldl_digits_reverse,
    Nat.cast_zero, mul_zero, sub_zero] at h
  have hzero : (0 : ℤ) = toI32 0 := by decide
  rw [hzero, numeral, atoiDigits_map hb' hlt, h]
  rfl

theorem misreadValue_eq_zero_iff :
    misreadValue b u = 0 ↔ b ≤ 10 ∨ ∀ d ∈ digitList b u, 10 ≤ d := by
  constructor
  · intro h
    by_cases hten : b ≤ 10
    · exact .inl hten
    · refine .inr fun d hd => ?_
      have hd' := Nat.digits_zero_of_eq_zero (by omega) h (misread b d)
        (List.mem_map_of_mem hd)
      exact (misread_eq_zero_iff.mp hd').resolve_left hten
  · intro h
    have hmap : (digitList b u).map (misread b) = List.replicate (digitList b u).length 0 := by
      rw [List.map_eq_replicate_iff]
      exact fun d hd => misread_eq_zero_iff.mpr (h.imp id fun h => h d hd)
    rw [misreadValue, hmap]
    exact Nat.ofDigits_replicate_zero

/-- Digits 0 and 1 make a number well below the next power. -/
theorem mul_ofDigits_lt (hb : 1 ≤ b) (hds : ∀ d ∈ ds, d ≤ 1) :
    (b - 1) * Nat.ofDigits b ds < b ^ ds.length := by
  obtain ⟨c, rfl⟩ := Nat.exists_eq_add_of_le' hb
  rw [Nat.add_sub_cancel]
  induction ds with
  | nil => simp
  | cons d ds ih =>
    have hrest := ih fun e he => hds e (List.mem_cons_of_mem d he)
    have hd : d ≤ 1 := hds d List.mem_cons_self
    have hhead : c * d ≤ c := by simpa using Nat.mul_le_mul_left c hd
    have htail : (c + 1) * (c * Nat.ofDigits (c + 1) ds) + (c + 1) ≤
        (c + 1) * (c + 1) ^ ds.length := by
      rw [← Nat.mul_succ]
      exact Nat.mul_le_mul_left _ hrest
    calc c * Nat.ofDigits (c + 1) (d :: ds)
        = c * d + (c + 1) * (c * Nat.ofDigits (c + 1) ds) := by
          rw [Nat.ofDigits_cons]
          ring
      _ < (c + 1) * (c + 1) ^ ds.length := by omega
      _ = (c + 1) ^ (d :: ds).length := by rw [List.length_cons, pow_succ']

/-- In a base above 10, a power below the range of 32 bits leaves room for the next repunit. -/
theorem pow_succ_le_of_lt : ∀ b ∈ Finset.Icc 11 36, ∀ k ∈ Finset.range 10, b ^ k < 2 ^ 32 →
    b ^ (k + 1) ≤ (b - 1) * 2 ^ 32 := by decide +kernel

/-- The misread digits of a 32-bit number are worth less than `2 ^ 32`. -/
theorem misreadValue_lt (hb : 11 ≤ b) (hb' : b ≤ 36) (hu : u < 2 ^ 32) :
    misreadValue b u < 2 ^ 32 := by
  obtain ⟨k, hk⟩ : ∃ k, (digitList b u).length = k + 1 :=
    Nat.exists_eq_succ_of_ne_zero (List.length_pos_iff.mpr digitList_ne_nil).ne'
  have hpow : b ^ k < 2 ^ 32 := by
    unfold digitList at hk
    split_ifs at hk with h
    · rw [List.length_singleton, Nat.right_eq_add] at hk
      rw [hk]
      exact Nat.one_lt_two_pow (by decide)
    · have hle := Nat.base_pow_length_digits_le b u (by omega) h
      rw [hk, pow_succ', Nat.mul_le_mul_left_iff (by omega)] at hle
      exact hle.trans_lt hu
  have hk10 : k < 10 := by
    by_contra hge
    have h₁ : 11 ^ 10 ≤ b ^ k :=
      (Nat.pow_le_pow_left hb 10).trans (Nat.pow_le_pow_right (by omega) (not_lt.mp hge))
    omega
  have hroom := pow_succ_le_of_lt b (Finset.mem_Icc.mpr ⟨hb, hb'⟩) k (Finset.mem_range.mpr hk10) hpow
  have hlt : (b - 1) * misreadValue b u < b ^ ((digitList b u).map (misread b)).length :=
    mul_ofDigits_lt (by omega) (List.forall_mem_map.mpr fun d _ => misread_le_one b d)
  rw [List.length_map, hk] at hlt
  exact Nat.lt_of_mul_lt_mul_left (hlt.trans_le hroom)

/-- Reading a numeral of 32 bits gives its number exactly when no digit is misread. -/
theorem toI32_sub_eq_iff (hb' : b ≤ 36) (hu : u < 2 ^ 32) :
    toI32 (u - 7 * misreadValue b u) = toI32 u ↔ b ≤ 10 ∨ ∀ d ∈ digitList b u, 10 ≤ d := by
  have hdiff : (u : ℤ) - 7 * misreadValue b u - u = -(7 * misreadValue b u : ℕ) := by
    push_cast
    ring
  have hdvd : (2 ^ 32 : ℤ) = (2 ^ 32 : ℕ) := rfl
  rw [toI32_eq_iff, ← misreadValue_eq_zero_iff, hdiff, Int.dvd_neg, hdvd, Int.natCast_dvd_natCast]
  constructor
  · intro h
    by_cases hten : b ≤ 10
    · exact misreadValue_eq_zero_iff.mpr (.inl hten)
    · have hseven : Nat.Coprime (2 ^ 32) 7 := by decide +kernel
      exact Nat.eq_zero_of_dvd_of_lt (hseven.dvd_of_dvd_mul_left h)
        (misreadValue_lt (by omega) hb' hu)
  · intro h
    rw [h]
    exact dvd_zero _

end Value

/-! ### The round trip -/

section RoundTrip

variable {base n : ℕ}

theorem atoi_of_isNumeral {s : CString} {u : ℕ} (hb : 2 ≤ base) (hb' : base ≤ 36)
    (hs : s.chars = numeral base u) : atoi s base = toI32 (u - 7 * misreadValue base u) := by
  have hnumeral : IsNumeral base u s.chars := hs ▸ isNumeral_numeral hb
  have hrange : ¬((base : ℤ) > 36 ∨ (base : ℤ) < 2) := by omega
  rw [atoi, if_neg hrange, dropWhile_isspace_numeral hb' hnumeral, atoiPrefix_numeral hb' hnumeral,
    hs]
  dsimp only
  rw [atoiDigits_numeral hb hb']
  dsimp only
  split_ifs
  · rw [one_mul, toI32, toI32, Int.bmod_bmod]
  · rfl

/-- A minus sign and the numeral after it, in base 10. -/
theorem atoi_of_minus {s : CString} {u : ℕ} (hs : s.chars = 45 :: numeral 10 u) :
    atoi s 10 = toI32 (-(u : ℤ)) := by
  have hzero : misreadValue 10 u = 0 :=
    misreadValue_eq_zero_iff.mpr (.inl le_rfl)
  have hdigits := atoiDigits_numeral (b := 10) (by decide) (by decide) u
  rw [hzero] at hdigits
  have hspace : List.dropWhile isspace (45 :: numeral 10 u) = 45 :: numeral 10 u := rfl
  have hprefix : atoiPrefix 10 (45 :: numeral 10 u) = some (-1, numeral 10 u) := rfl
  rw [atoi, if_neg (by decide), hs, hspace, hprefix]
  dsimp only
  rw [show ((10 : ℤ)) = ((10 : ℕ) : ℤ) from rfl, hdigits]
  dsimp only
  rw [if_pos rfl, Nat.cast_zero, mul_zero, sub_zero, toI32, toI32, toI32, Int.mul_bmod_bmod,
    neg_one_mul]

/-- What is printed in the buffer and parsed again. -/
def ReadsBack (n base : ℕ) (m : ByteMemory) (buff : ℕ) (value : Int32) : Prop :=
  ∃ m', ∃ s : CString, itoa n value.toInt buff base m = some m' ∧
    HoldsString m' buff s.chars ∧ atoi s base = value.toInt

theorem readsBack_iff_printed (hb : 2 ≤ base) (hb' : base ≤ 36) (hn : 34 ≤ n) (m : ByteMemory)
    (buff : ℕ) (value : Int32) : ReadsBack n base m buff value ↔
      ∀ s : CString, s.chars = printed base value.toInt → atoi s base = value.toInt := by
  obtain ⟨m', hitoa, hstring, -⟩ := itoa_printed hb hb' hn m buff value
  constructor
  · rintro ⟨m'', s, hitoa', hstring', hatoi⟩ t ht
    obtain rfl : m' = m'' := Option.some.inj (hitoa.symm.trans hitoa')
    obtain rfl : s = t := CString.ext ((hstring'.unique hstring).trans ht.symm)
    exact hatoi
  · intro h
    exact ⟨m', ⟨_, hstring.noNul⟩, hitoa, hstring, h _ rfl⟩

/-- **When `atoi` inverts `itoa`**: in a base up to 10, and in a base above 10 for the numbers
without a digit below ten. -/
theorem readsBack_iff (hb : 2 ≤ base) (hb' : base ≤ 36) (hn : 34 ≤ n) (m : ByteMemory)
    (buff : ℕ) (value : Int32) : ReadsBack n base m buff value ↔
      base ≤ 10 ∨ ∀ d ∈ digitList base (toU32 value.toInt), 10 ≤ d := by
  have hmin := value.le_toInt
  have hmax := value.toInt_lt
  have hvalue : toI32 (toU32 value.toInt) = value.toInt := by
    unfold toI32 toU32
    rw [Int.bmod_def]
    split_ifs <;> omega
  obtain ⟨m', -, hstring, -⟩ := itoa_printed hb hb' hn m buff value
  rw [readsBack_iff_printed hb hb' hn m buff]
  by_cases hneg : value.toInt < 0 ∧ base = 10
  · obtain ⟨hlt, rfl⟩ := hneg
    refine iff_of_true (fun s hs => ?_) (.inl le_rfl)
    rw [printed, if_pos ⟨hlt, rfl⟩] at hs
    have habs : -(value.toInt.natAbs : ℤ) = value.toInt := by omega
    exact (atoi_of_minus hs).trans (by rw [habs, toI32_of_mem hmin hmax])
  · rw [printed, if_neg hneg] at hstring ⊢
    rw [← toI32_sub_eq_iff hb' (toU32_lt _), hvalue]
    constructor
    · intro h
      rw [← atoi_of_isNumeral (s := ⟨_, hstring.noNul⟩) hb hb' rfl]
      exact h _ rfl
    · intro h s hs
      rw [atoi_of_isNumeral hb hb' hs, h]

/-- `-1` in base 2 is read back. -/
theorem readsBack_minusOne : ReadsBack 34 2 (fun _ => 0) 16 (-1) :=
  (readsBack_iff (by decide) (by decide) le_rfl (fun _ => 0) 16 (-1)).mpr (.inl (by decide))

/-- `5` in base 16 is not read back. -/
theorem not_readsBack_five : ¬ReadsBack 34 16 (fun _ => 0) 16 5 := by
  rw [readsBack_iff_printed (by decide) (by decide) le_rfl]
  intro h
  exact absurd (h ⟨[53], by decide⟩ (by decide)) (by decide)

end RoundTrip

/-! ### Decimal text -/

section Decimal

/-- A decimal digit. -/
def IsDecimal (c : UInt8) : Prop := 48 ≤ c ∧ c ≤ 57

instance (c : UInt8) : Decidable (IsDecimal c) := inferInstanceAs (Decidable (_ ∧ _))

/-- The number that decimal digits stand for. -/
def decimalValue (ds : List UInt8) : ℕ := ds.foldl (fun acc c => acc * 10 + (c.toNat - 48)) 0

/-- The text is blanks, a sign or none, digits, and a rest that does not go on with a letter or a
digit. -/
structure NumberText (text blanks sign ds rest : List UInt8) : Prop where
  split : text = blanks ++ (sign ++ (ds ++ rest))
  blanks : ∀ c ∈ blanks, isspace c = true
  sign : sign = [] ∨ sign = [43] ∨ sign = [45]
  digits : ∀ c ∈ ds, IsDecimal c
  rest : ∀ c ∈ rest.head?, isalnum c = false

/-- The number in the text. -/
def signedValue (sign ds : List UInt8) : ℤ :=
  if sign = [45] then -(decimalValue ds : ℤ) else decimalValue ds

variable {c : UInt8} {ds rest text blanks sign : List UInt8} {val : ℤ}

theorem isDecimal_iff : IsDecimal c ↔ isalnum c = true ∧ c.toNat < 58 := by
  simp only [IsDecimal, isalnum, isupper, islower, isdigit, UInt8.le_iff_toNat_le,
    UInt8.lt_iff_toNat_lt, gt_iff_lt, Bool.or_eq_true, Bool.and_eq_true, decide_eq_true_eq]
  simp
  omega

theorem IsDecimal.not_isspace (h : IsDecimal c) : isspace c = false := by
  by_contra hspace
  simp only [isspace, Bool.not_eq_false, Bool.or_eq_true, beq_iff_eq] at hspace
  rcases hspace with ((((rfl | rfl) | rfl) | rfl) | rfl) | rfl <;> exact absurd h (by decide)

/-- The loop of `atoi` takes one character. -/
theorem atoiDigits_ten (val : ℤ) (cs : List UInt8) :
    atoiDigits 10 val (c :: cs) =
      if isalnum c = true then
        if IsDecimal c then atoiDigits 10 (toI32 (val * 10 + (c.toNat - 48 : ℕ))) cs else none
      else some val := by
  rw [atoiDigits]
  by_cases halnum : isalnum c = true
  · rw [if_pos halnum, if_pos halnum]
    dsimp only
    by_cases hd : IsDecimal c
    · have hlow : 48 ≤ c.toNat := UInt8.le_iff_toNat_le.mp hd.1
      have hhigh := (isDecimal_iff.mp hd).2
      rw [if_pos le_rfl, if_neg (by omega), if_pos hd, Nat.cast_sub hlow]
      rfl
    · have hhigh : ¬c.toNat < 58 := fun h => hd (isDecimal_iff.mpr ⟨halnum, h⟩)
      rw [if_pos le_rfl, if_pos (by omega), if_neg hd]
  · rw [if_neg halnum, if_neg halnum]

/-- The loop of `atoi` in base 10: digits, and a rest that does not go on with a letter or a
digit. -/
theorem atoiDigits_ten_eq_some {text : List UInt8} {k : ℕ} {w : ℤ} :
    atoiDigits 10 (toI32 k) text = some w ↔
      ∃ ds rest, text = ds ++ rest ∧ (∀ c ∈ ds, IsDecimal c) ∧
        (∀ c ∈ rest.head?, isalnum c = false) ∧
        w = toI32 (ds.foldl (fun acc c => acc * 10 + (c.toNat - 48)) k : ℕ) := by
  constructor
  · intro h
    induction text generalizing k with
    | nil => exact ⟨[], [], rfl, by simp, by simp, (Option.some.inj h).symm⟩
    | cons c text ih =>
      rw [atoiDigits_ten] at h
      -- a letter or another digit fails the whole conversion; anything else ends it
      split_ifs at h with halnum hd
      · rw [toI32_mul_add] at h
        obtain ⟨ds, rest, rfl, hds, hrest, hw⟩ := ih (k := k * 10 + (c.toNat - 48)) (by exact_mod_cast h)
        exact ⟨c :: ds, rest, rfl, List.forall_mem_cons.mpr ⟨hd, hds⟩, hrest, hw⟩
      · refine ⟨[], c :: text, rfl, by simp, ?_, (Option.some.inj h).symm⟩
        intro d hd
        obtain rfl : c = d := by simpa using hd
        exact Bool.not_eq_true _ ▸ halnum
  · rintro ⟨ds, rest, rfl, hds, hrest, hw⟩
    rw [hw]
    clear hw
    induction ds generalizing k with
    | nil =>
      cases rest with
      | nil => rfl
      | cons c rest =>
        have hnot : isalnum c = false := hrest c rfl
        rw [List.nil_append, atoiDigits_ten, hnot, if_neg Bool.false_ne_true]
        rfl
    | cons c ds ih =>
      have hd : IsDecimal c := hds c List.mem_cons_self
      rw [List.cons_append, atoiDigits_ten, if_pos (isDecimal_iff.mp hd).1, if_pos hd, toI32_mul_add,
        List.foldl_cons, ← ih fun e he => hds e (List.mem_cons_of_mem c he)]
      push_cast
      rfl

/-- The sign in front of a number. -/
theorem atoiPrefix_ten_of_digits (hsign : sign = [] ∨ sign = [43] ∨ sign = [45]) (hne : ds ≠ [])
    (hds : ∀ c ∈ ds, IsDecimal c) (hrest : ∀ c ∈ rest.head?, isalnum c = false) :
    atoiPrefix 10 (sign ++ (ds ++ rest)) = some (if sign = [45] then -1 else 1, ds ++ rest) := by
  rcases hsign with rfl | rfl | rfl
  · obtain ⟨d, ds, rfl⟩ := List.exists_cons_of_ne_nil hne
    have hd : IsDecimal d := hds d List.mem_cons_self
    -- a mark of a base would be a letter after the digit `0`
    have hsecond : ∀ e r, ds ++ rest = e :: r → isalnum e = true → IsDecimal e := by
      intro e r heq halnum
      cases ds with
      | nil =>
        rw [List.nil_append] at heq
        rw [heq] at hrest
        exact absurd (hrest e rfl) (by simp [halnum])
      | cons f ds =>
        obtain ⟨rfl, -⟩ := List.cons_eq_cons.mp heq
        exact hds f (by simp)
    rw [List.nil_append, List.cons_append, if_neg (List.cons_ne_nil _ _).symm]
    unfold atoiPrefix
    split
    next heq =>
      obtain ⟨rfl, -⟩ := List.cons_eq_cons.mp heq
      exact absurd hd (by decide)
    next heq =>
      obtain ⟨rfl, -⟩ := List.cons_eq_cons.mp heq
      exact absurd hd (by decide)
    next heq => exact absurd (hsecond _ _ (List.cons_eq_cons.mp heq).2 (by decide)) (by decide)
    next heq => exact absurd (hsecond _ _ (List.cons_eq_cons.mp heq).2 (by decide)) (by decide)
    next heq => exact absurd (hsecond _ _ (List.cons_eq_cons.mp heq).2 (by decide)) (by decide)
    next => rfl
  · rfl
  · rfl

theorem atoiPrefix_ten_eq_some {σ : ℤ} {body : List UInt8}
    (h : atoiPrefix 10 text = some (σ, body)) :
    ∃ sign, text = sign ++ body ∧ (sign = [] ∨ sign = [43] ∨ sign = [45]) ∧
      σ = if sign = [45] then -1 else 1 := by
  unfold atoiPrefix at h
  split at h
  next rest =>
    obtain ⟨rfl, rfl⟩ : 1 = σ ∧ rest = body := by simpa using h
    exact ⟨[43], rfl, .inr (.inl rfl), rfl⟩
  next rest =>
    obtain ⟨rfl, rfl⟩ : -1 = σ ∧ rest = body := by simpa using h
    exact ⟨[45], rfl, .inr (.inr rfl), rfl⟩
  next => exact absurd h (by simp)
  next => exact absurd h (by simp)
  next => exact absurd h (by simp)
  next =>
    obtain ⟨rfl, rfl⟩ : 1 = σ ∧ text = body := by simpa using h
    exact ⟨[], rfl, .inl rfl, rfl⟩

/-- The value that the loop of `atoi` comes to, with the sign. -/
theorem toI32_signed (sign ds : List UInt8) :
    toI32 ((if sign = [45] then -1 else 1) * toI32 (decimalValue ds)) =
      toI32 (signedValue sign ds) := by
  unfold signedValue toI32
  split_ifs
  · rw [Int.mul_bmod_bmod, neg_one_mul]
  · rw [Int.mul_bmod_bmod, one_mul]

/-- **What `atoi` takes for a number** in base 10: blanks, a sign, and any text after the digits
are let through, and the value is taken modulo `2 ^ 32`. -/
theorem atoi_ten_eq_iff {t : CString} {k : ℤ} (hk : k ≠ 0) :
    atoi t 10 = k ↔ ∃ blanks sign ds rest, NumberText t.chars blanks sign ds rest ∧
      toI32 (signedValue sign ds) = k := by
  have hbase : ¬((10 : ℤ) > 36 ∨ (10 : ℤ) < 2) := by decide
  -- an answer other than 0 comes from the one return that follows the digits
  constructor
  · intro h
    rw [atoi, if_neg hbase] at h
    split at h
    next => exact absurd h.symm hk
    next σ body hprefix =>
      split at h
      next => exact absurd h.symm hk
      next val hdigits =>
        rw [if_pos rfl] at h
        obtain ⟨sign, htext, hsign, rfl⟩ := atoiPrefix_ten_eq_some hprefix
        obtain ⟨ds, rest, rfl, hds, hrest, hval⟩ := (atoiDigits_ten_eq_some (k := 0)).mp hdigits
        refine ⟨t.chars.takeWhile isspace, sign, ds, rest, ⟨?_, ?_, hsign, hds, hrest⟩, ?_⟩
        · rw [← htext, List.takeWhile_append_dropWhile]
        · exact fun c hc => List.mem_takeWhile_imp hc
        · rw [← h, ← toI32_signed, hval]
          rfl
  · rintro ⟨blanks, sign, ds, rest, ⟨hsplit, hblanks, hsign, hds, hrest⟩, hval⟩
    -- no digits would answer 0
    have hne : ds ≠ [] := by
      rintro rfl
      refine hk (hval.symm.trans ?_)
      rcases hsign with rfl | rfl | rfl <;> decide
    have hprefix := atoiPrefix_ten_of_digits hsign hne hds hrest
    have hspace : t.chars.dropWhile isspace = sign ++ (ds ++ rest) := by
      rw [hsplit, List.dropWhile_append_of_pos hblanks]
      obtain ⟨d, ds, rfl⟩ := List.exists_cons_of_ne_nil hne
      have hd := (hds d List.mem_cons_self).not_isspace
      rcases hsign with rfl | rfl | rfl
      · rw [List.nil_append, List.cons_append, List.dropWhile_cons_of_neg (by simp [hd])]
      · rfl
      · rfl
    have hdigits := (atoiDigits_ten_eq_some (k := 0)).mpr ⟨ds, rest, rfl, hds, hrest, rfl⟩
    have hzero : toI32 (0 : ℕ) = 0 := rfl
    rw [hzero] at hdigits
    rw [atoi, if_neg hbase, hspace, hprefix]
    dsimp only
    rw [hdigits]
    dsimp only
    rw [if_pos rfl, ← hval, ← toI32_signed]
    rfl

theorem atoi_ten_mem (t : CString) : -2 ^ 31 ≤ atoi t 10 ∧ atoi t 10 < 2 ^ 31 := by
  by_cases hzero : atoi t 10 = 0
  · rw [hzero]
    decide
  · obtain ⟨blanks, sign, ds, rest, -, hval⟩ := (atoi_ten_eq_iff hzero).mp rfl
    rw [← hval]
    exact toI32_mem _

end Decimal

end LittleLinux
