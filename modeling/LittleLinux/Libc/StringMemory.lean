import Mathlib.Data.List.GetD
import LittleLinux.Lib.ByteMemory
import LittleLinux.Libc.CString

/-!
# Strings in memory

`HoldsString m p s` says that the string at address `p` of the memory is `s`: its characters and
the terminator after them. A memory holds at most one string at an address, and at an address
inside a string it holds the rest of it.

`skipWhile` is a loop `while (test(*p)) p++`, and `strncpy` that of `libc/src/string`.
-/

namespace LittleLinux

/-- The string at `p` is `s`. -/
structure HoldsString (m : ByteMemory) (p : ℕ) (s : List UInt8) : Prop where
  noNul : (0 : UInt8) ∉ s
  chars : ∀ i, (h : i < s.length) → m (p + i) = s[i]
  nul : m (p + s.length) = 0

namespace HoldsString

variable {m m' : ByteMemory} {p : ℕ} {s t : List UInt8}

theorem getElem_ne_zero (h : HoldsString m p s) {i : ℕ} (hi : i < s.length) : s[i] ≠ 0 :=
  fun hzero => h.noNul (hzero ▸ List.getElem_mem hi)

/-- The bytes of the string and of the terminator. -/
theorem apply_eq_getD (h : HoldsString m p s) {i : ℕ} (hi : i ≤ s.length) :
    m (p + i) = s.getD i 0 := by
  rcases Nat.lt_or_eq_of_le hi with hlt | rfl
  · rw [h.chars i hlt, List.getD_eq_getElem _ _ hlt]
  · rw [h.nul, List.getD_eq_default _ _ le_rfl]

theorem of_getD (hs : (0 : UInt8) ∉ s) (h : ∀ i ≤ s.length, m (p + i) = s.getD i 0) :
    HoldsString m p s := by
  refine ⟨hs, fun i hi => ?_, ?_⟩
  · rw [h i hi.le, List.getD_eq_getElem _ _ hi]
  · rw [h _ le_rfl, List.getD_eq_default _ _ le_rfl]

theorem congr (h : HoldsString m p s) (heq : ∀ i ≤ s.length, m' (p + i) = m (p + i)) :
    HoldsString m' p s :=
  of_getD h.noNul fun i hi => (heq i hi).trans (h.apply_eq_getD hi)

/-- The string is not longer than the distance to a zero byte. -/
theorem length_le (h : HoldsString m p s) {n : ℕ} (hn : m (p + n) = 0) : s.length ≤ n := by
  by_contra hlt
  rw [not_le] at hlt
  exact h.getElem_ne_zero hlt ((h.chars n hlt).symm.trans hn)

/-- There is one string at an address. -/
theorem unique (h : HoldsString m p s) (h' : HoldsString m p t) : s = t := by
  have hlen : s.length = t.length := le_antisymm (h.length_le h'.nul) (h'.length_le h.nul)
  refine List.ext_getElem hlen fun i hs ht => ?_
  rw [← h.chars i hs, h'.chars i ht]

/-- Inside a string stands the rest of it. -/
theorem drop (h : HoldsString m p s) {d : ℕ} (hd : d ≤ s.length) :
    HoldsString m (p + d) (s.drop d) := by
  refine of_getD (fun hmem => h.noNul (List.mem_of_mem_drop hmem)) fun i hi => ?_
  rw [List.length_drop] at hi
  rw [add_assoc, h.apply_eq_getD (by omega), List.getD_eq_getElem?_getD, List.getD_eq_getElem?_getD,
    List.getElem?_drop]

theorem append (h : HoldsString m p (s ++ t)) : HoldsString m (p + s.length) t := by
  have hdrop := h.drop (d := s.length) (by simp)
  rwa [List.drop_left] at hdrop

/-- A string whose rest is replaced by the same rest. -/
theorem of_drop (h : HoldsString m p s) {d : ℕ} (hd : d ≤ s.length)
    (hbelow : ∀ i < d, m' (p + i) = m (p + i)) (hrest : HoldsString m' (p + d) (s.drop d)) :
    HoldsString m' p s := by
  refine h.congr fun i hi => ?_
  rcases Nat.lt_or_ge i d with hlt | hge
  · exact hbelow i hlt
  · obtain ⟨j, rfl⟩ := Nat.exists_eq_add_of_le hge
    have hj : j ≤ (s.drop d).length := by
      rw [List.length_drop]
      omega
    rw [← add_assoc, hrest.apply_eq_getD hj, (h.drop hd).apply_eq_getD hj]

end HoldsString

/-- The string at `p`, of at most `n` characters. -/
def stringAt (m : ByteMemory) (p n : ℕ) : CString :=
  CString.ofBytes ((List.range n).map fun i => m (p + i))

theorem stringAt_of_holds {m : ByteMemory} {p n : ℕ} {s : CString} (h : HoldsString m p s.chars)
    (hn : s.chars.length < n) : stringAt m p n = s := by
  obtain ⟨k, rfl⟩ : ∃ k, n = s.chars.length + 1 + k := Nat.exists_eq_add_of_le hn
  have hfront : (List.range s.chars.length).map (fun i => m (p + i)) = s.chars := by
    refine List.ext_getElem (by simp) fun i hi hs => ?_
    rw [List.getElem_map, List.getElem_range, h.chars i hs]
  rw [stringAt, List.range_add, List.range_succ, List.map_append, List.map_append, hfront,
    List.map_singleton, h.nul, List.append_assoc, List.singleton_append]
  exact CString.ofBytes_append_nul s _

theorem chars_stringAt {m : ByteMemory} {p n : ℕ} {s : List UInt8} (h : HoldsString m p s)
    (hn : s.length < n) : (stringAt m p n).chars = s :=
  congrArg CString.chars (stringAt_of_holds (s := ⟨s, h.noNul⟩) h hn)

/-! ### Loops over a string -/

/-- `while (test(*p)) p++`, for at most `n` steps. -/
def skipWhile (test : UInt8 → Bool) (m : ByteMemory) : ℕ → ℕ → ℕ
  | 0, p => p
  | n + 1, p => if test (m p) then skipWhile test m n (p + 1) else p

/-- A run of characters that pass the test, and one that does not. -/
theorem skipWhile_eq {test : UInt8 → Bool} {m : ByteMemory} {n p : ℕ} {l : List UInt8}
    (hchars : ∀ i, (h : i < l.length) → m (p + i) = l[i]) (htest : ∀ c ∈ l, test c = true)
    (hend : test (m (p + l.length)) = false) (hn : l.length ≤ n) :
    skipWhile test m n p = p + l.length := by
  induction l generalizing p n with
  | nil =>
    cases n with
    | zero => rfl
    | succ n =>
      rw [List.length_nil, add_zero] at hend
      rw [skipWhile, hend]
      rfl
  | cons c l ih =>
    rw [List.length_cons] at hn hend
    obtain ⟨n, rfl⟩ : ∃ k, n = k + 1 := ⟨n - 1, by omega⟩
    have hhead : m p = c := hchars 0 (Nat.succ_pos _)
    rw [skipWhile, hhead, if_pos (htest c List.mem_cons_self), ih, List.length_cons]
    · omega
    · intro i hi
      have hnext := hchars (i + 1) (Nat.succ_lt_succ hi)
      rwa [List.getElem_cons_succ, ← add_assoc, add_right_comm] at hnext
    · exact fun d hd => htest d (List.mem_cons_of_mem c hd)
    · rwa [add_assoc, add_comm 1]
    · omega

/-- The loop of `strlen` ends at the terminator. -/
theorem skipWhile_nonzero {m : ByteMemory} {n p : ℕ} {s : List UInt8} (h : HoldsString m p s)
    (hn : s.length ≤ n) : skipWhile (· != 0) m n p = p + s.length := by
  refine skipWhile_eq h.chars (fun c hc => ?_) ?_ hn
  · refine bne_iff_ne.mpr fun hzero => h.noNul ?_
    rwa [hzero] at hc
  · rw [h.nul]
    rfl

/-- `strncpy`: the characters of `t`, and zeros after them. -/
def strncpy (m : ByteMemory) (s : ℕ) : List UInt8 → ℕ → ByteMemory
  | _, 0 => m
  | t, n + 1 => strncpy (Function.update m s (t.headD 0)) (s + 1) t.tail n

theorem strncpy_eq_putBytes (m : ByteMemory) (s : ℕ) (t : List UInt8) (n : ℕ) :
    strncpy m s t n = m.putBytes s n fun j => t.getD j 0 := by
  induction n generalizing m s t with
  | zero =>
    funext x
    rw [strncpy, ByteMemory.putBytes_of_notMem (by omega)]
  | succ n ih =>
    funext x
    rw [strncpy, ih]
    by_cases hx : x = s
    · subst hx
      rw [ByteMemory.putBytes_of_notMem (by omega), Function.update_self,
        ByteMemory.putBytes_of_mem le_rfl (by omega), Nat.sub_self]
      cases t <;> rfl
    · by_cases hin : s + 1 ≤ x ∧ x < s + 1 + n
      · rw [ByteMemory.putBytes_of_mem hin.1 hin.2, ByteMemory.putBytes_of_mem (by omega) (by omega),
          show x - s = x - (s + 1) + 1 by omega]
        cases t <;> rfl
      · rw [ByteMemory.putBytes_of_notMem (by omega), Function.update_of_ne hx,
          ByteMemory.putBytes_of_notMem (by omega)]

end LittleLinux
