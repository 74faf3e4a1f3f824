import LittleLinux.Libc.CString

/-!
# Integer conversions of the target

The target is a 32-bit one: `int` and `unsigned int` have 32 bits, `long long` has 64. A
conversion keeps the value modulo the size of the type.

`atoi` follows `libc/src/stdlib`, with the character classes of `libc/src/ctype`; `isdigit` there
takes the six characters after `9` for digits too.
-/

namespace LittleLinux

/-- Conversion to `uint32_t`. -/
def toU32 (x : ℤ) : ℕ := (x % 2 ^ 32).toNat

/-- Conversion to `uint64_t`. -/
def toU64 (x : ℤ) : ℕ := (x % 2 ^ 64).toNat

/-- Conversion to `int`. -/
def toI32 (x : ℤ) : ℤ := Int.bmod x (2 ^ 32)

/-- Conversion to `long long`. -/
def toI64 (x : ℤ) : ℤ := Int.bmod x (2 ^ 64)

theorem toU32_lt (x : ℤ) : toU32 x < 2 ^ 32 := by
  unfold toU32
  omega

theorem toU32_natCast (n : ℕ) : toU32 n = n % 2 ^ 32 := by
  unfold toU32
  omega

theorem toU32_of_lt {n : ℕ} (h : n < 2 ^ 32) : toU32 n = n := by
  rw [toU32_natCast, Nat.mod_eq_of_lt h]

theorem toU64_natCast (n : ℕ) : toU64 n = n % 2 ^ 64 := by
  unfold toU64
  omega

theorem toI32_of_mem {x : ℤ} (h₁ : -2 ^ 31 ≤ x) (h₂ : x < 2 ^ 31) : toI32 x = x := by
  unfold toI32
  rw [Int.bmod_eq_of_le] <;> omega

theorem toI32_mem (x : ℤ) : -2 ^ 31 ≤ toI32 x ∧ toI32 x < 2 ^ 31 := by
  unfold toI32
  rw [Int.bmod_def]
  split_ifs <;> push_cast at * <;> omega

theorem toI32_eq_iff {x y : ℤ} : toI32 x = toI32 y ↔ (2 ^ 32 : ℤ) ∣ x - y := by
  unfold toI32
  rw [Int.bmod_def, Int.bmod_def]
  split_ifs <;> push_cast at * <;> omega

theorem toI32_mul_add (x y w : ℤ) : toI32 (toI32 x * y + w) = toI32 (x * y + w) := by
  unfold toI32
  rw [← Int.bmod_add_bmod, Int.bmod_mul_bmod, Int.bmod_add_bmod]

/-! ### Numbers in text -/

def isspace (c : UInt8) : Bool := c == 10 || c == 32 || c == 9 || c == 13 || c == 11 || c == 12

def isdigit (c : UInt8) : Bool := c > 0x2f && c < 0x40

def islower (c : UInt8) : Bool := c > 0x60 && c < 0x7b

def isupper (c : UInt8) : Bool := c > 0x40 && c < 0x5b

def isalnum (c : UInt8) : Bool := (isupper c || islower c) || isdigit c

/-- The loop of `atoi`, from the value `val` on; `none` when a character is no digit of the
base. -/
def atoiDigits (base : ℤ) : ℤ → List UInt8 → Option ℤ
  | val, [] => some val
  | val, c :: cs =>
    if isalnum c then
      let tmp := (c.toNat : ℤ) - 48
      let tmp := if base ≤ 10 then tmp else tmp - if islower c then 0x27 else 0x7
      if tmp ≥ base then none else atoiDigits base (toI32 (val * base + tmp)) cs
    else some val

/-- The sign, and the text that follows the sign or the mark of the base; `none` when there is one
that is not of the base. -/
def atoiPrefix (base : ℤ) : List UInt8 → Option (ℤ × List UInt8)
  | 43 :: rest => if base = 10 then some (1, rest) else none
  | 45 :: rest => if base = 10 then some (-1, rest) else none
  | 48 :: 98 :: rest => if base = 2 then some (1, rest) else none
  | 48 :: 66 :: rest => if base = 2 then some (1, rest) else none
  | 48 :: 120 :: rest => if base = 16 then some (1, rest) else none
  | rest => some (1, rest)

/-- `atoi`. -/
def atoi (str : CString) (base : ℤ) : ℤ :=
  if base > 36 ∨ base < 2 then 0
  else
    match atoiPrefix base (str.chars.dropWhile isspace) with
    | none => 0
    | some (sign, rest) =>
      match atoiDigits base 0 rest with
      | none => 0
      | some val => if base = 10 then toI32 (sign * val) else val

example : atoi ⟨[32, 45, 49, 50], by decide⟩ 10 = -12 := by decide

end LittleLinux
