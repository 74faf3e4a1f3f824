import LittleLinux.Libc.StringMemory

/-!
# Comparing and moving bytes

The byte routines of `libc/src/string`. `memcmp` would be the lexicographic order on the first `n`
bytes, but its second comparison repeats the first, so a first difference at which the first
argument is the larger is passed over: the answer is that of the order exactly when there is no such
difference (`memcmp_lexicographic_iff`).

`memmove` chooses the order of its copies by the addresses, and moves the bytes as they were for
every overlap (`memmove_moves`).
-/

namespace LittleLinux

/-! ### `memcmp` -/

/-- The first of the first `n` bytes at which the arrays differ is `i`. -/
structure FirstDifference (a b : List UInt8) (n i : ℕ) : Prop where
  lt : i < n
  equal : ∀ j < i, a.getD j 0 = b.getD j 0
  differ : a.getD i 0 ≠ b.getD i 0

/-- The answer of `memcmp` is that of the lexicographic order on the first `n` bytes. -/
structure Lexicographic (a b : List UInt8) (n : ℕ) : Prop where
  equal : memcmp a b n = 0 ↔ ∀ i < n, a.getD i 0 = b.getD i 0
  smaller : ∀ i, FirstDifference a b n i → a.getD i 0 < b.getD i 0 → memcmp a b n < 0
  larger : ∀ i, FirstDifference a b n i → b.getD i 0 < a.getD i 0 → 0 < memcmp a b n

section Memcmp

variable {a b : List UInt8} {n : ℕ}

/-- Arrays that are not equal have a first difference. -/
theorem exists_firstDifference (h : ¬∀ i < n, a.getD i 0 = b.getD i 0) :
    ∃ i, FirstDifference a b n i := by
  have hex : ∃ i, i < n ∧ a.getD i 0 ≠ b.getD i 0 := by
    simpa only [not_forall, exists_prop] using h
  classical
  obtain ⟨hlt, hne⟩ := Nat.find_spec hex
  refine ⟨Nat.find hex, hlt, fun j hj => ?_, hne⟩
  by_contra hdiffer
  exact Nat.find_min hex hj ⟨hj.trans hlt, hdiffer⟩

theorem memcmp_nonpos (a b : List UInt8) (n : ℕ) : memcmp a b n ≤ 0 := by
  rw [memcmp_eq]
  split_ifs <;> decide

theorem memcmp_of_lt {i : ℕ} (hi : i < n) (h : a.getD i 0 < b.getD i 0) : memcmp a b n = -1 := by
  rw [memcmp_eq, if_neg fun hall => UInt8.not_lt.mpr (hall i hi) h]

theorem memcmp_of_equal (h : ∀ i < n, a.getD i 0 = b.getD i 0) : memcmp a b n = 0 :=
  (memcmp_eq_zero_iff a b n).mpr fun i hi => (h i hi).symm ▸ UInt8.le_refl _

/-- The order on the first `n` bytes, as `memcmp` has it. -/
theorem lexicographic_iff :
    Lexicographic a b n ↔ ∀ i, FirstDifference a b n i → a.getD i 0 < b.getD i 0 := by
  constructor
  · intro h i hi
    by_contra hnot
    have hlt : b.getD i 0 < a.getD i 0 :=
      UInt8.lt_of_le_of_ne (UInt8.not_lt.mp hnot) hi.differ.symm
    exact absurd (h.larger i hi hlt) (memcmp_nonpos a b n).not_gt
  · intro h
    refine ⟨⟨fun hzero => ?_, memcmp_of_equal⟩, fun i hi hlt => ?_, fun i hi hlt => ?_⟩
    · by_contra hdiffer
      obtain ⟨i, hi⟩ := exists_firstDifference hdiffer
      rw [memcmp_of_lt hi.lt (h i hi)] at hzero
      exact absurd hzero (by decide)
    · rw [memcmp_of_lt hi.lt hlt]
      decide
    · exact absurd (h i hi) (UInt8.not_lt.mpr (UInt8.le_of_lt hlt))

/-- **When `memcmp` is the lexicographic order**: when the first difference, if there is one, is a
smaller byte of `a`. For `a` with `b` and `b` with `a` to have opposite signs as well, there must be
no difference. -/
theorem memcmp_lexicographic_iff (a b : List UInt8) (n : ℕ) :
    (Lexicographic a b n ↔ ∀ i, FirstDifference a b n i → a.getD i 0 < b.getD i 0) ∧
      (Lexicographic a b n ∧ (memcmp a b n).sign = -(memcmp b a n).sign ↔
        ∀ i < n, a.getD i 0 = b.getD i 0) := by
  refine ⟨lexicographic_iff, fun ⟨hlex, hsign⟩ => ?_, fun heq => ⟨?_, ?_⟩⟩
  · by_contra hdiffer
    obtain ⟨i, hi⟩ := exists_firstDifference hdiffer
    rw [memcmp_of_lt hi.lt (lexicographic_iff.mp hlex i hi)] at hsign
    have hother : (memcmp b a n).sign ≤ 0 := Int.sign_nonpos_iff.mpr (memcmp_nonpos b a n)
    have hone : (-1 : ℤ).sign = -1 := rfl
    omega
  · exact lexicographic_iff.mpr fun i hi => absurd (heq i hi.lt) hi.differ
  · rw [memcmp_of_equal heq, memcmp_of_equal fun i hi => (heq i hi).symm]
    rfl

/-- The byte `1` is larger than the byte `0`, and `memcmp` takes them for equal. -/
theorem memcmp_not_lexicographic : ¬∀ (a b : List UInt8) (n : ℕ), Lexicographic a b n := by
  intro h
  have hzero : memcmp [1] [0] 1 = 0 := by decide
  have heq := (h [1] [0] 1).equal.mp hzero 0 (by decide)
  exact absurd heq (by decide)

end Memcmp

/-! ### `memmove`, `memset` and `strcpy` -/

/-- `memmove`: upwards when the destination is the lower one, downwards otherwise. -/
def memmove (m : ByteMemory) (dst src size : ℕ) : ByteMemory :=
  if dst < src then m.copyAlong dst src (List.range size)
  else m.copyAlong dst src (List.range size).reverse

/-- `memset`. -/
def memset (m : ByteMemory) (buf : ℕ) (value : UInt8) (size : ℕ) : ByteMemory :=
  (List.range size).foldl (fun m i => Function.update m (buf + i) value) m

/-- `strcpy` of the string `t`, with its terminator. -/
def strcpy (m : ByteMemory) (s : ℕ) : List UInt8 → ByteMemory
  | [] => Function.update m s 0
  | c :: t => strcpy (Function.update m s c) (s + 1) t

section Moves

variable {m : ByteMemory} {dst src size : ℕ}

/-- Each order of `memmove` reads every byte before it is overwritten. -/
theorem memmove_order (hlt : dst < src) :
    (List.range size).Pairwise fun i j => dst + i ≠ src + j :=
  List.pairwise_lt_range.imp fun hij => by omega

theorem memmove_order_reverse (hle : src ≤ dst) :
    (List.range size).reverse.Pairwise fun i j => dst + i ≠ src + j :=
  List.pairwise_reverse.mpr (List.pairwise_lt_range.imp fun hij => by omega)

/-- **`memmove` moves the bytes as they were**, and changes nothing outside the destination, however
the ranges lie. -/
theorem memmove_moves (m : ByteMemory) (dst src size : ℕ) :
    (∀ i < size, memmove m dst src size (dst + i) = m (src + i)) ∧
      ∀ x, x < dst ∨ dst + size ≤ x → memmove m dst src size x = m x := by
  unfold memmove
  split_ifs with hlt
  · refine ⟨fun i hi => ?_, fun x hx => ByteMemory.copyAlong_of_notMem fun i hi => ?_⟩
    · exact ByteMemory.copyAlong_of_mem (memmove_order hlt) (List.mem_range.mpr hi)
    · have := List.mem_range.mp hi
      omega
  · refine ⟨fun i hi => ?_, fun x hx => ByteMemory.copyAlong_of_notMem fun i hi => ?_⟩
    · exact ByteMemory.copyAlong_of_mem (memmove_order_reverse (not_lt.mp hlt))
        (List.mem_reverse.mpr (List.mem_range.mpr hi))
    · have := List.mem_range.mp (List.mem_reverse.mp hi)
      omega

theorem memset_eq_putBytes (m : ByteMemory) (buf : ℕ) (value : UInt8) (size : ℕ) :
    memset m buf value size = m.putBytes buf size fun _ => value := by
  induction size with
  | zero =>
    funext x
    rw [ByteMemory.putBytes_of_notMem (by omega)]
    rfl
  | succ k ih =>
    funext x
    rw [memset, List.range_succ, List.foldl_append, ← memset, ih, List.foldl_cons, List.foldl_nil]
    by_cases hx : x = buf + k
    · rw [hx, Function.update_self, ByteMemory.putBytes_add (Nat.lt_succ_self k)]
    · rw [Function.update_of_ne hx]
      unfold ByteMemory.putBytes
      simp only [show x < buf + (k + 1) ↔ x < buf + k by omega]

/-- `strcpy` stores the string and its terminator. -/
theorem strcpy_eq_putBytes (m : ByteMemory) (s : ℕ) (t : List UInt8) :
    strcpy m s t = m.putBytes s (t.length + 1) fun i => t.getD i 0 := by
  induction t generalizing m s with
  | nil =>
    funext x
    rw [strcpy]
    by_cases hx : x = s
    · rw [hx, Function.update_self, ByteMemory.putBytes_of_mem le_rfl (by simp)]
      rfl
    · rw [Function.update_of_ne hx,
        ByteMemory.putBytes_of_notMem (by rw [List.length_nil]; omega)]
  | cons c t ih =>
    have hhead : Function.update m s c = m.putBytes s 1 fun i => (c :: t).getD i 0 := by
      funext x
      by_cases hx : x = s
      · rw [hx, Function.update_self, ByteMemory.putBytes_of_mem le_rfl (by omega), Nat.sub_self]
        rfl
      · rw [Function.update_of_ne hx, ByteMemory.putBytes_of_notMem (by omega)]
    have htail := ByteMemory.putBytes_append m s 1 (t.length + 1) fun i => (c :: t).getD i 0
    rw [strcpy, ih, hhead, List.length_cons, Nat.add_comm (t.length + 1), ← htail]
    refine ByteMemory.putBytes_congr fun j _ => ?_
    rw [Nat.add_comm 1, List.getD_cons_succ]

theorem strcpy_holds {t : List UInt8} (m : ByteMemory) (s : ℕ) (ht : (0 : UInt8) ∉ t) :
    HoldsString (strcpy m s t) s t := by
  rw [strcpy_eq_putBytes]
  exact HoldsString.of_getD ht fun i hi => ByteMemory.putBytes_add (by omega)

end Moves

end LittleLinux
