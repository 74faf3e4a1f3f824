import LittleLinux.Lib.Loop
import LittleLinux.Libc.Integers
import LittleLinux.Libc.StringMemory

/-!
# Printing and parsing numbers

`itoa` and `reverse` follow `libc/src/stdlib` and `libc/src/string`: the digits are stored from the
least significant one on, from a table that runs to both sides of `0` so that the remainder of a
negative number has a digit as well, and the string is then reversed in place.

`IsNumeral b u s` says what a numeral is: digits of the base, most significant first, whose value
is `u`, without a leading zero. `itoa` prints it (`itoa_isNumeral`).
-/

namespace LittleLinux

/-! ### Numerals -/

/-- The character of a digit. -/
def digitChar (d : ℕ) : UInt8 := UInt8.ofNat (if d < 10 then 48 + d else 87 + d)

/-- The string is the numeral of `u` in base `b`. -/
def IsNumeral (b u : ℕ) (s : List UInt8) : Prop :=
  ∃ ds : List ℕ, ds ≠ [] ∧ s = ds.map digitChar ∧ (∀ d ∈ ds, d < b) ∧
    ds.foldl (fun acc d => acc * b + d) 0 = u ∧ (ds.head? = some 0 → ds = [0])

/-- The digits of `u`, least significant first, as the digit loop of `itoa` comes to them. -/
def digitList (b u : ℕ) : List ℕ := if u = 0 then [0] else Nat.digits b u

/-- The numeral of `u`. -/
def numeral (b u : ℕ) : List UInt8 := (digitList b u).reverse.map digitChar

section Digits

variable {b u d : ℕ}

theorem digitList_of_lt (hu : u < b) : digitList b u = [u] := by
  unfold digitList
  split_ifs with h
  · rw [h]
  · exact Nat.digits_of_lt b u h hu

theorem digitList_of_le (hb : 2 ≤ b) (hu : b ≤ u) :
    digitList b u = u % b :: digitList b (u / b) := by
  have hdiv : u / b ≠ 0 := (Nat.div_pos hu (by omega)).ne'
  rw [digitList, if_neg (by omega), digitList, if_neg hdiv, Nat.digits_def' (by omega) (by omega)]

theorem lt_of_mem_digitList (hb : 2 ≤ b) (hd : d ∈ digitList b u) : d < b := by
  unfold digitList at hd
  split_ifs at hd with h
  · rw [List.mem_singleton.mp hd]
    omega
  · exact Nat.digits_lt_base (by omega) hd

theorem digitList_ne_nil : digitList b u ≠ [] := by
  unfold digitList
  split_ifs with h
  · exact List.cons_ne_nil 0 []
  · exact Nat.digits_ne_nil_iff_ne_zero.mpr h

theorem ofDigits_digitList : Nat.ofDigits b (digitList b u) = u := by
  unfold digitList
  split_ifs with h
  · rw [h, Nat.ofDigits_singleton]
  · exact Nat.ofDigits_digits b u

theorem foldl_digits_reverse (ds : List ℕ) :
    ds.reverse.foldl (fun acc d => acc * b + d) 0 = Nat.ofDigits b ds := by
  rw [List.foldl_reverse, Nat.ofDigits_eq_foldr]
  congr 1
  funext d acc
  rw [Nat.cast_id, mul_comm, add_comm]

/-- The digits in reverse order are a numeral. -/
theorem isNumeral_numeral (hb : 2 ≤ b) : IsNumeral b u (numeral b u) := by
  refine ⟨(digitList b u).reverse, ?_, rfl, ?_, ?_, ?_⟩
  · exact fun h => digitList_ne_nil (List.reverse_eq_nil_iff.mp h)
  · exact fun d hd => lt_of_mem_digitList hb (List.mem_reverse.mp hd)
  · rw [foldl_digits_reverse, ofDigits_digitList]
  · intro hhead
    unfold digitList at hhead ⊢
    split_ifs at hhead ⊢ with hu
    · rfl
    · -- the last of the digits of a number is not zero
      rw [List.head?_reverse, List.getLast?_eq_some_getLast (Nat.digits_ne_nil_iff_ne_zero.mpr hu),
        Option.some.injEq] at hhead
      exact absurd hhead (Nat.getLast_digit_ne_zero b hu)

theorem digitChar_ne_zero : ∀ d < 36, digitChar d ≠ 0 := by decide

theorem noNul_digitList (hb : 2 ≤ b) (hb' : b ≤ 36) :
    (0 : UInt8) ∉ (digitList b u).map digitChar := by
  intro hmem
  obtain ⟨d, hd, hzero⟩ := List.mem_map.mp hmem
  exact digitChar_ne_zero d ((lt_of_mem_digitList hb hd).trans_le hb') hzero

/-- A 32-bit number has at most 32 digits. -/
theorem length_digitList_le (hb : 2 ≤ b) (hu : u < 2 ^ 32) : (digitList b u).length ≤ 32 := by
  unfold digitList
  split_ifs with h
  · exact Nat.le_of_ble_eq_true rfl
  · rw [Nat.digits_length_le_iff (by omega)]
    exact hu.trans_le (Nat.pow_le_pow_left hb 32)

end Digits

/-! ### The routines -/

/-- `digits`, the table of `itoa`. -/
def digits : List UInt8 :=
  "zyxwvutsrqponmlkjihgfedcba9876543210123456789abcdefghijklmnopqrstuvwxyz".toList.map
    fun c => UInt8.ofNat c.toNat

/-- One pass of the digit loop for a negative value. -/
def negativePass (base : ℤ) (s : ℤ × ℕ × ByteMemory) :
    Pass (ℤ × ℕ × ByteMemory) (ℕ × ByteMemory) :=
  let tmp := s.1
  let value := tmp.tdiv base
  let m := Function.update s.2.2 s.2.1 (digits.getD (35 + (tmp - value * base)).toNat 0)
  if value ≠ 0 then .next (value, s.2.1 + 1, m) else .leave (s.2.1 + 1, m)

/-- One pass of the digit loop for an unsigned value. -/
def unsignedPass (base : ℕ) (s : ℕ × ℕ × ByteMemory) : Pass (ℕ × ℕ × ByteMemory) (ℕ × ByteMemory) :=
  let utmp := s.1
  let unsignedEquiv := utmp / base
  let m := Function.update s.2.2 s.2.1 (digits.getD (35 + (utmp - unsignedEquiv * base)) 0)
  if unsignedEquiv ≠ 0 then .next (unsignedEquiv, s.2.1 + 1, m) else .leave (s.2.1 + 1, m)

/-- One pass of the loop of `reverse`; the state is `i`, `x` and the memory. -/
def reversePass (str : ℕ) (s : ℤ × ℤ × ByteMemory) : Pass (ℤ × ℤ × ByteMemory) ByteMemory :=
  let (i, x, m) := s
  if i < x then
    let y := m (str + i.toNat)
    let m := Function.update m (str + i.toNat) (m (str + x.toNat))
    .next (i + 1, x - 1, Function.update m (str + x.toNat) y)
  else .leave m

/-- `reverse`, with loops of at most `n` passes. -/
def reverse (n : ℕ) (str : ℕ) (m : ByteMemory) : Option ByteMemory :=
  let strlen := skipWhile (· != 0) m n str - str
  loop (reversePass str) n (0, (strlen : ℤ) - 1, m)

/-- `itoa`, with loops of at most `n` passes. -/
def itoa (n : ℕ) (value : ℤ) (buff : ℕ) (base : ℤ) (m : ByteMemory) : Option ByteMemory :=
  if base < 2 ∨ base > 36 then some (Function.update m buff 0)
  else if value < 0 ∧ base = 10 then
    (loop (negativePass base) n (value, buff, m)).bind fun (ctmp, m) =>
      let m := Function.update m ctmp 45
      reverse n buff (Function.update m (ctmp + 1) 0)
  else
    (loop (unsignedPass base.toNat) n (toU32 value, buff, m)).bind fun (ctmp, m) =>
      reverse n buff (Function.update m ctmp 0)

/-! ### The digit loops -/

theorem digits_above : ∀ d < 36, digits.getD (35 + d) 0 = digitChar d := by decide

theorem digits_below : ∀ d < 36, digits.getD (35 - d) 0 = digitChar d := by decide

section DigitLoops

variable {b u n p : ℕ} {m : ByteMemory}

theorem sub_div_mul (b u : ℕ) : u - u / b * b = u % b := by
  have h := Nat.div_add_mod u b
  rw [mul_comm] at h
  omega

/-- A pass stores the last digit. -/
theorem unsignedPass_eq (hb : 2 ≤ b) (hb' : b ≤ 36) :
    unsignedPass b (u, p, m) =
      if u / b ≠ 0 then .next (u / b, p + 1, Function.update m p (digitChar (u % b)))
      else .leave (p + 1, Function.update m p (digitChar (u % b))) := by
  have hmod : u % b < b := Nat.mod_lt u (by omega)
  dsimp only [unsignedPass]
  rw [sub_div_mul, digits_above _ (by omega)]

theorem negativePass_eq (hb : 2 ≤ b) (hb' : b ≤ 36) :
    negativePass b (-(u : ℤ), p, m) =
      if u / b ≠ 0 then .next (-((u / b : ℕ) : ℤ), p + 1, Function.update m p (digitChar (u % b)))
      else .leave (p + 1, Function.update m p (digitChar (u % b))) := by
  have hmod : u % b < b := Nat.mod_lt u (by omega)
  have hdiv : (-(u : ℤ)).tdiv b = -((u / b : ℕ) : ℤ) := by
    rw [Int.neg_tdiv, Int.natCast_div, Int.tdiv_eq_ediv_of_nonneg (by omega)]
  have hrem : -(u : ℤ) - -((u / b : ℕ) : ℤ) * b = -((u % b : ℕ) : ℤ) := by
    have h : (b : ℤ) * (u / b : ℕ) + (u % b : ℕ) = u := by exact_mod_cast Nat.div_add_mod u b
    linarith
  have hindex : (35 + -((u % b : ℕ) : ℤ)).toNat = 35 - u % b := by omega
  have hzero : (-((u / b : ℕ) : ℤ)) ≠ 0 ↔ u / b ≠ 0 := by omega
  dsimp only [negativePass]
  rw [hdiv, hrem, hindex, digits_below _ (by omega)]
  simp only [hzero]

/-- A loop whose passes store the last digit stores all digits. -/
theorem digitLoop_eq {σ : Type} (of : ℕ → σ)
    {pass : σ × ℕ × ByteMemory → Pass (σ × ℕ × ByteMemory) (ℕ × ByteMemory)} (hb : 2 ≤ b)
    (hpass : ∀ u p m, pass (of u, p, m) =
      if u / b ≠ 0 then .next (of (u / b), p + 1, Function.update m p (digitChar (u % b)))
      else .leave (p + 1, Function.update m p (digitChar (u % b))))
    (hu : u < b ^ (n + 1)) :
    loop pass (n + 1) (of u, p, m) =
      some (p + (digitList b u).length,
        strncpy m p ((digitList b u).map digitChar) (digitList b u).length) := by
  induction n generalizing u p m with
  | zero =>
    rw [zero_add, pow_one] at hu
    have h := hpass u p m
    rw [Nat.div_eq_of_lt hu, if_neg (by simp), Nat.mod_eq_of_lt hu] at h
    rw [loop_succ_of_leave h, digitList_of_lt hu]
    rfl
  | succ n ih =>
    have h := hpass u p m
    rcases Nat.lt_or_ge u b with hlt | hge
    · rw [Nat.div_eq_of_lt hlt, if_neg (by simp), Nat.mod_eq_of_lt hlt] at h
      rw [loop_succ_of_leave h, digitList_of_lt hlt]
      rfl
    · rw [if_pos (Nat.div_pos hge (by omega)).ne'] at h
      have hdiv : u / b < b ^ (n + 1) := by
        rw [Nat.div_lt_iff_lt_mul (by omega), ← pow_succ]
        exact hu
      rw [loop_succ_of_next h, ih hdiv, digitList_of_le hb hge, List.length_cons, add_assoc,
        add_comm 1]
      rfl

end DigitLoops

/-! ### Reversing in place -/

section Reverse

variable {str k n : ℕ} {m m₀ : ByteMemory} {i x : ℤ}

/-- The ends of the string outside `i` and `x` are exchanged. -/
structure Reversing (m₀ : ByteMemory) (str k : ℕ) (i x : ℤ) (m : ByteMemory) : Prop where
  sum : i + x = k - 1
  nonneg : 0 ≤ i
  le : i ≤ x + 1
  inner : ∀ j : ℕ, i ≤ j → j ≤ x → m (str + j) = m₀ (str + j)
  outer : ∀ j : ℕ, j < k → j < i ∨ x < j → m (str + j) = m₀ (str + (k - 1 - j))
  other : ∀ a, a < str ∨ str + k ≤ a → m a = m₀ a

theorem Reversing.init : Reversing m₀ str k 0 ((k : ℤ) - 1) m₀ where
  sum := by omega
  nonneg := le_rfl
  le := by omega
  inner := fun _ _ _ => rfl
  outer := fun j hj h => by omega
  other := fun _ _ => rfl

/-- A pass exchanges the characters at `i` and `x`. -/
theorem Reversing.next (h : Reversing m₀ str k i x m) (hlt : i < x) :
    Reversing m₀ str k (i + 1) (x - 1)
      (Function.update (Function.update m (str + i.toNat) (m (str + x.toNat))) (str + x.toNat)
        (m (str + i.toNat))) := by
  have hsum := h.sum
  have hnonneg := h.nonneg
  have hi : m (str + i.toNat) = m₀ (str + i.toNat) := h.inner _ (by omega) (by omega)
  have hx : m (str + x.toNat) = m₀ (str + x.toNat) := h.inner _ (by omega) (by omega)
  refine ⟨by omega, by omega, by omega, fun j hij hjx => ?_, fun j hj hout => ?_, fun a ha => ?_⟩
  · rw [Function.update_of_ne (by omega), Function.update_of_ne (by omega)]
    exact h.inner j (by omega) (by omega)
  · by_cases hjx : j = x.toNat
    · rw [hjx, Function.update_self, hi]
      congr 2
      omega
    · rw [Function.update_of_ne (by omega)]
      by_cases hji : j = i.toNat
      · rw [hji, Function.update_self, hx]
        congr 2
        omega
      · rw [Function.update_of_ne (by omega)]
        exact h.outer j hj (by omega)
  · rw [Function.update_of_ne (by omega), Function.update_of_ne (by omega)]
    exact h.other a ha

/-- The loop ends with the string reversed. -/
theorem Reversing.loop_eq (h : Reversing m₀ str k i x m) (hn : x - i + 1 < 2 * n) :
    ∃ m', loop (reversePass str) n (i, x, m) = some m' ∧
      (∀ j < k, m' (str + j) = m₀ (str + (k - 1 - j))) ∧
      ∀ a, a < str ∨ str + k ≤ a → m' a = m₀ a := by
  induction n generalizing i x m with
  | zero =>
    have hle := h.le
    omega
  | succ n ih =>
    rcases lt_or_ge i x with hlt | hge
    · have hpass : reversePass str (i, x, m) = .next _ := if_pos hlt
      rw [loop_succ_of_next hpass]
      exact ih (h.next hlt) (by omega)
    · have hpass : reversePass str (i, x, m) = .leave m := if_neg (not_lt.mpr hge)
      have hsum := h.sum
      refine ⟨m, loop_succ_of_leave hpass, fun j hj => ?_, h.other⟩
      -- the middle character of a string of odd length stays where it is
      by_cases hmid : i ≤ j ∧ j ≤ x
      · rw [h.inner j hmid.1 hmid.2]
        congr 2
        omega
      · exact h.outer j hj (by omega)

/-- **`reverse` reverses the string**, and changes nothing else. -/
theorem reverse_holds {s : List UInt8} (h : HoldsString m str s) (hn : s.length < n) :
    ∃ m', reverse n str m = some m' ∧ HoldsString m' str s.reverse ∧
      ∀ a, a < str ∨ str + s.length < a → m' a = m a := by
  have hlen : skipWhile (· != 0) m n str - str = s.length := by
    rw [skipWhile_nonzero h hn.le, Nat.add_sub_cancel_left]
  have hinit : Reversing m str s.length 0 ((s.length : ℤ) - 1) m := Reversing.init
  obtain ⟨m', hloop, hchars, hother⟩ := hinit.loop_eq (n := n) (by omega)
  refine ⟨m', ?_, ⟨?_, fun i hi => ?_, ?_⟩, fun a ha => hother a (by omega)⟩
  · rw [reverse, hlen]
    exact hloop
  · exact fun hmem => h.noNul (List.mem_reverse.mp hmem)
  · rw [List.length_reverse] at hi
    rw [hchars i hi, h.chars _ (by omega), List.getElem_reverse]
  · rw [List.length_reverse, hother _ (by omega), h.nul]

end Reverse

/-! ### `itoa` -/

section Itoa

variable {m : ByteMemory} {buff n base : ℕ}

/-- A character stored after the others. -/
theorem update_strncpy (m : ByteMemory) (buff : ℕ) (l : List UInt8) (c : UInt8) :
    Function.update (strncpy m buff l l.length) (buff + l.length) c =
      strncpy m buff (l ++ [c]) (l ++ [c]).length := by
  induction l generalizing m buff with
  | nil => rfl
  | cons d l ih =>
    have h := ih (Function.update m buff d) (buff + 1)
    rw [add_assoc, add_comm 1] at h
    exact h

/-- Characters stored with a terminator after them, and then reversed. -/
theorem reverse_stored {l : List UInt8} (hl : (0 : UInt8) ∉ l) (hn : l.length < n) :
    ∃ m', reverse n buff (Function.update (strncpy m buff l l.length) (buff + l.length) 0) = some m' ∧
      HoldsString m' buff l.reverse ∧ ∀ a, a < buff ∨ buff + l.length < a → m' a = m a := by
  have hstring : HoldsString (Function.update (strncpy m buff l l.length) (buff + l.length) 0)
      buff l := by
    refine ⟨hl, fun i hi => ?_, Function.update_self _ _ _⟩
    rw [Function.update_of_ne (by omega), strncpy_eq_putBytes, ByteMemory.putBytes_add hi,
      List.getD_eq_getElem _ _ hi]
  obtain ⟨m', hrev, hreversed, hother⟩ := reverse_holds hstring hn
  refine ⟨m', hrev, hreversed, fun a ha => ?_⟩
  rw [hother a ha, Function.update_of_ne (by omega), strncpy_eq_putBytes,
    ByteMemory.putBytes_of_notMem (by omega)]

/-- The digits of a 32-bit number, stored by a digit loop. -/
theorem digitLoop_stores {σ : Type} {of : ℕ → σ}
    {pass : σ × ℕ × ByteMemory → Pass (σ × ℕ × ByteMemory) (ℕ × ByteMemory)} (hb : 2 ≤ base)
    (hpass : ∀ u p m, pass (of u, p, m) =
      if u / base ≠ 0 then .next (of (u / base), p + 1, Function.update m p (digitChar (u % base)))
      else .leave (p + 1, Function.update m p (digitChar (u % base))))
    {u : ℕ} (hu : u < 2 ^ 32) (hn : 32 ≤ n) :
    loop pass n (of u, buff, m) =
      some (buff + ((digitList base u).map digitChar).length,
        strncpy m buff ((digitList base u).map digitChar)
          ((digitList base u).map digitChar).length) := by
  obtain ⟨k, rfl⟩ : ∃ k, n = k + 1 := ⟨n - 1, by omega⟩
  have hpow : u < base ^ (k + 1) :=
    hu.trans_le ((Nat.pow_le_pow_left hb 32).trans (Nat.pow_le_pow_right (by omega) hn))
  rw [digitLoop_eq of hb hpass hpow, List.length_map]

/-- What `itoa` prints. -/
def printed (base : ℕ) (value : ℤ) : List UInt8 :=
  if value < 0 ∧ base = 10 then 45 :: numeral 10 value.natAbs else numeral base (toU32 value)

/-- `itoa` prints a number of 32 bits. -/
theorem itoa_printed (hb : 2 ≤ base) (hb' : base ≤ 36) (hn : 34 ≤ n) (m : ByteMemory) (buff : ℕ)
    (value : Int32) :
    ∃ m', itoa n value.toInt buff base m = some m' ∧
      HoldsString m' buff (printed base value.toInt) ∧
      ∀ a, a < buff ∨ buff + (printed base value.toInt).length < a → m' a = m a := by
  have hrange : ¬((base : ℤ) < 2 ∨ (base : ℤ) > 36) := by omega
  rw [itoa, if_neg hrange, Int.toNat_natCast]
  by_cases hneg : value.toInt < 0 ∧ base = 10
  · rw [if_pos ⟨hneg.1, by omega⟩, printed, if_pos hneg]
    obtain ⟨hvalue, rfl⟩ := hneg
    have hu : value.toInt.natAbs < 2 ^ 32 := by
      have h := value.le_toInt
      omega
    have hof : value.toInt = -(value.toInt.natAbs : ℤ) := by omega
    have hloop := @digitLoop_stores m buff n 10 ℤ (fun u => -(u : ℤ)) _ hb
      (fun _ _ _ => negativePass_eq hb hb') _ hu (by omega)
    have hnul : (0 : UInt8) ∉ (digitList 10 value.toInt.natAbs).map digitChar ++ [45] := by
      rw [List.mem_append, not_or]
      exact ⟨noNul_digitList hb hb', by decide⟩
    have hlen : ((digitList 10 value.toInt.natAbs).map digitChar ++ [45]).length < n := by
      have h := length_digitList_le hb hu
      rw [List.length_append, List.length_map, List.length_singleton]
      omega
    obtain ⟨m', hrev, hstring, hother⟩ := @reverse_stored m buff n _ hnul hlen
    rw [List.reverse_append, ← List.map_reverse] at hstring
    refine ⟨m', ?_, hstring, fun a ha => hother a ?_⟩
    · rw [← hof] at hloop
      rw [hloop, ← hrev, ← update_strncpy, List.length_append, List.length_singleton,
        ← add_assoc]
      rfl
    · rw [List.length_append, List.length_map, List.length_singleton]
      rwa [List.length_cons, numeral, List.length_map, List.length_reverse] at ha
  · rw [if_neg fun h => hneg ⟨h.1, by omega⟩, printed, if_neg hneg]
    have hu := toU32_lt value.toInt
    have hloop := @digitLoop_stores m buff n base ℕ id _ hb (fun _ _ _ => unsignedPass_eq hb hb') _
      hu (by omega)
    have hlen : ((digitList base (toU32 value.toInt)).map digitChar).length < n := by
      have h := length_digitList_le hb hu
      rw [List.length_map]
      omega
    obtain ⟨m', hrev, hstring, hother⟩ := @reverse_stored m buff n _ (noNul_digitList hb hb') hlen
    rw [← List.map_reverse] at hstring
    refine ⟨m', ?_, hstring, fun a ha => hother a ?_⟩
    · rw [id] at hloop
      rw [hloop, ← hrev]
      rfl
    · rw [List.length_map]
      rwa [numeral, List.length_map, List.length_reverse] at ha

/-- **`itoa` prints the canonical numeral**, and changes nothing after it. -/
theorem itoa_isNumeral (hb : 2 ≤ base) (hb' : base ≤ 36) (hn : 34 ≤ n) (m : ByteMemory) (buff : ℕ)
    (value : Int32) :
    ∃ m' s, itoa n value.toInt buff base m = some m' ∧ HoldsString m' buff s ∧
      (if value.toInt < 0 ∧ base = 10 then ∃ t, s = 45 :: t ∧ IsNumeral 10 value.toInt.natAbs t
        else IsNumeral base (toU32 value.toInt) s) ∧
      ∀ a, a < buff ∨ buff + s.length < a → m' a = m a := by
  obtain ⟨m', hitoa, hstring, hother⟩ := itoa_printed hb hb' hn m buff value
  refine ⟨m', _, hitoa, hstring, ?_, hother⟩
  unfold printed
  split_ifs with hneg
  · exact ⟨_, rfl, isNumeral_numeral (Nat.le_of_ble_eq_true rfl)⟩
  · exact isNumeral_numeral hb

/-- The most negative value in base 10. -/
theorem itoa_isNumeral_minimal :
    ∃ m' s, itoa 34 (-2147483648) 16 10 (fun _ => 0) = some m' ∧ HoldsString m' 16 s ∧
      (∃ t, s = 45 :: t ∧ IsNumeral 10 2147483648 t) ∧
      ∀ a, a < 16 ∨ 16 + s.length < a → m' a = 0 :=
  @itoa_isNumeral 34 10 (by decide) (by decide) le_rfl (fun _ => 0) 16 Int32.minValue

end Itoa

end LittleLinux
