import Mathlib.Tactic

/-!
# Byte memories and little-endian numbers

A byte memory is a function from addresses to bytes. `putBytes` overwrites a range, `getLE`
and `putLE` read and write an `n`-byte number, least significant byte first. The laws are the
two every program needs: a read of what was written gives it back, and a write changes
nothing outside its range. `copyAlong` copies a range byte by byte, in any order that reads
every byte before it is overwritten.
-/

namespace LittleLinux

/-- A byte memory. -/
abbrev ByteMemory := ℕ → UInt8

namespace ByteMemory

/-- Byte `i` of the number `v`. -/
def leByte (v i : ℕ) : UInt8 := UInt8.ofNat (v / 256 ^ i)

/-- The `n`-byte number at `a`. -/
def getLE (m : ByteMemory) : ℕ → ℕ → ℕ
  | _, 0 => 0
  | a, n + 1 => (m a).toNat + 256 * getLE m (a + 1) n

/-- Overwrite the `n` bytes at `a`; byte `i` of the range becomes `f i`. -/
def putBytes (m : ByteMemory) (a n : ℕ) (f : ℕ → UInt8) : ByteMemory :=
  fun x => if a ≤ x ∧ x < a + n then f (x - a) else m x

/-- Write the `n`-byte number `v` at `a`. -/
def putLE (m : ByteMemory) (a n v : ℕ) : ByteMemory := m.putBytes a n (leByte v)

/-! ### Writes -/

theorem putBytes_of_mem {m : ByteMemory} {a n x : ℕ} {f : ℕ → UInt8} (h₁ : a ≤ x)
    (h₂ : x < a + n) : m.putBytes a n f x = f (x - a) :=
  if_pos ⟨h₁, h₂⟩

theorem putBytes_add {m : ByteMemory} {a n i : ℕ} {f : ℕ → UInt8} (h : i < n) :
    m.putBytes a n f (a + i) = f i := by
  rw [putBytes_of_mem (by omega) (by omega)]
  congr 1
  omega

theorem putBytes_of_notMem {m : ByteMemory} {a n x : ℕ} {f : ℕ → UInt8}
    (h : x < a ∨ a + n ≤ x) : m.putBytes a n f x = m x :=
  if_neg (by omega)

theorem putBytes_congr {m : ByteMemory} {a n : ℕ} {f g : ℕ → UInt8} (h : ∀ j < n, f j = g j) :
    m.putBytes a n f = m.putBytes a n g := by
  funext x
  unfold putBytes
  split_ifs with hx
  · exact h _ (by omega)
  · rfl

/-- Two writes next to each other are one. -/
theorem putBytes_append (m : ByteMemory) (a n k : ℕ) (f : ℕ → UInt8) :
    (m.putBytes a n f).putBytes (a + n) k (fun j => f (n + j)) = m.putBytes a (n + k) f := by
  funext x
  rcases Nat.lt_or_ge x (a + n) with hx | hx
  · rw [putBytes_of_notMem (Or.inl hx)]
    unfold putBytes
    simp only [show x < a + (n + k) ↔ x < a + n by omega]
  · rcases Nat.lt_or_ge x (a + n + k) with hk | hk
    · rw [putBytes_of_mem hx hk, putBytes_of_mem (by omega) (by omega)]
      congr 1
      omega
    · rw [putBytes_of_notMem (Or.inr hk), putBytes_of_notMem (Or.inr hx),
        putBytes_of_notMem (Or.inr (by omega))]

/-- Reading a window into a buffer, changing a part of it there and writing the window back
changes that part and nothing else. -/
theorem putBytes_merge (m b : ByteMemory) (a p n o c : ℕ) (f : ℕ → UInt8) (h : o + c ≤ n) :
    m.putBytes a n (fun j =>
      ((b.putBytes p n fun j => m (a + j)).putBytes (p + o) c f) (p + j)) =
      m.putBytes (a + o) c f := by
  funext x
  by_cases hx : a ≤ x ∧ x < a + n
  · rw [putBytes_of_mem hx.1 hx.2]
    by_cases hc : a + o ≤ x ∧ x < a + o + c
    · rw [putBytes_of_mem hc.1 hc.2, putBytes_of_mem (by omega) (by omega)]
      congr 1
      omega
    · have hin : (b.putBytes p n fun j => m (a + j)) (p + (x - a)) = m (a + (x - a)) :=
        putBytes_add (by omega)
      rw [putBytes_of_notMem (m := m) (by omega), putBytes_of_notMem (by omega), hin]
      congr 1
      omega
  · rw [putBytes_of_notMem (by omega), putBytes_of_notMem (by omega)]

theorem putLE_of_notMem {m : ByteMemory} {a n v x : ℕ} (h : x < a ∨ a + n ≤ x) :
    m.putLE a n v x = m x :=
  putBytes_of_notMem h

/-! ### Numbers -/

theorem getLE_congr {m m' : ByteMemory} {a n : ℕ} (h : ∀ i < n, m (a + i) = m' (a + i)) :
    m.getLE a n = m'.getLE a n := by
  induction n generalizing a with
  | zero => rfl
  | succ n ih =>
    have h0 : m a = m' a := by simpa using h 0 (by omega)
    rw [getLE, getLE, h0, ih fun i hi => ?_]
    have := h (i + 1) (by omega)
    rwa [show a + 1 + i = a + (i + 1) by omega]

theorem getLE_lt (m : ByteMemory) (a n : ℕ) : m.getLE a n < 256 ^ n := by
  induction n generalizing a with
  | zero => simp [getLE]
  | succ n ih =>
    have h := ih (a + 1)
    have hb := (m a).toNat_lt
    rw [getLE, pow_succ]
    omega

/-- A range that holds the bytes of `v` holds the number `v`. -/
theorem getLE_of_leByte {m : ByteMemory} {a n v : ℕ} (h : ∀ i < n, m (a + i) = leByte v i) :
    m.getLE a n = v % 256 ^ n := by
  induction n generalizing a v with
  | zero => simp [getLE, Nat.mod_one]
  | succ n ih =>
    have h0 : m a = leByte v 0 := by simpa using h 0 (by omega)
    have hrest : m.getLE (a + 1) n = v / 256 % 256 ^ n := by
      refine ih fun i hi => ?_
      rw [show a + 1 + i = a + (i + 1) by omega, h (i + 1) (by omega), leByte, leByte,
        Nat.div_div_eq_div_mul, pow_succ']
    rw [getLE, hrest, h0, leByte, pow_zero, Nat.div_one, pow_succ', Nat.mod_mul]
    simp

theorem getLE_eq {m : ByteMemory} {a n v : ℕ} (hv : v < 256 ^ n)
    (h : ∀ i < n, m (a + i) = leByte v i) : m.getLE a n = v := by
  rw [getLE_of_leByte h, Nat.mod_eq_of_lt hv]

@[simp]
theorem getLE_putLE (m : ByteMemory) (a n v : ℕ) : (m.putLE a n v).getLE a n = v % 256 ^ n :=
  getLE_of_leByte fun _ hi => putBytes_add hi

/-- A write leaves the numbers outside its range alone. -/
theorem getLE_putBytes_of_disjoint {m : ByteMemory} {a n b k : ℕ} {f : ℕ → UInt8}
    (h : b + k ≤ a ∨ a + n ≤ b) : (m.putBytes a n f).getLE b k = m.getLE b k :=
  getLE_congr fun i hi => putBytes_of_notMem (by omega)

theorem getLE_putLE_of_disjoint {m : ByteMemory} {a n b k v : ℕ}
    (h : b + k ≤ a ∨ a + n ≤ b) : (m.putLE a n v).getLE b k = m.getLE b k :=
  getLE_putBytes_of_disjoint h

/-! ### Copying byte by byte -/

/-- Copy the byte at `src + i` to `dst + i`, for the indices `i` of a list one after the other. -/
def copyAlong (m : ByteMemory) (dst src : ℕ) (l : List ℕ) : ByteMemory :=
  l.foldl (fun m i => Function.update m (dst + i) (m (src + i))) m

section Copy

variable {m : ByteMemory} {dst src x i : ℕ} {l : List ℕ}

theorem copyAlong_of_notMem (hx : ∀ i ∈ l, x ≠ dst + i) : m.copyAlong dst src l x = m x := by
  induction l generalizing m with
  | nil => rfl
  | cons i l ih =>
    rw [copyAlong, List.foldl_cons, ← copyAlong, ih fun j hj => hx j (List.mem_cons_of_mem i hj),
      Function.update_of_ne (hx i List.mem_cons_self)]

/-- An order in which no byte is overwritten before it is read copies the bytes as they were. -/
theorem copyAlong_of_mem (h : l.Pairwise fun i j => dst + i ≠ src + j) (hi : i ∈ l) :
    m.copyAlong dst src l (dst + i) = m (src + i) := by
  induction l generalizing m with
  | nil => exact absurd hi List.not_mem_nil
  | cons j l ih =>
    rw [List.pairwise_cons] at h
    rw [copyAlong, List.foldl_cons, ← copyAlong]
    by_cases hmem : i ∈ l
    · rw [ih h.2 hmem, Function.update_of_ne (h.1 i hmem).symm]
    · obtain rfl : i = j := (List.mem_cons.mp hi).resolve_right hmem
      have hother : ∀ j ∈ l, dst + i ≠ dst + j := fun j hj heq =>
        hmem (Nat.add_left_cancel heq ▸ hj)
      rw [copyAlong_of_notMem hother, Function.update_self]

end Copy

end ByteMemory

end LittleLinux
