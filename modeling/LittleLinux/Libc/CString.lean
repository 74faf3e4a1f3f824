import Mathlib.Data.List.TakeWhile
import Mathlib.Tactic

/-!
# C strings and the kernel's string routines

`CString` is a NUL-terminated string: its characters, none of them NUL. The terminator is
the end of the list, so a routine that reads `s[strlen s]` sees `0` there. `ofBytes` reads
the string at the start of a byte buffer, which is what a `strcpy` out of a fixed-size
array does.

The routines below follow `libc/src/string` loop by loop. `memcmp` keeps its second
comparison as the source has it: `b[i] > a[i]` is the first comparison again, so a larger
byte of `a` never ends the loop, and `memcmp_eq_zero_iff` is what the routine tests.
-/

namespace LittleLinux

/-- A NUL-terminated string. -/
structure CString where
  chars : List UInt8
  noNul : (0 : UInt8) ∉ chars
deriving DecidableEq

namespace CString

@[ext]
theorem ext {s t : CString} (h : s.chars = t.chars) : s = t := by
  cases s
  cases t
  simpa using h

theorem chars_injective : Function.Injective CString.chars := fun _ _ h => ext h

/-- The C string at the start of a byte buffer: everything before the first NUL. -/
def ofBytes (b : List UInt8) : CString where
  chars := b.takeWhile (· ≠ 0)
  noNul := fun h => by simpa using List.mem_takeWhile_imp h

@[simp]
theorem ofBytes_chars (s : CString) : ofBytes s.chars = s := by
  refine ext (List.takeWhile_eq_self_iff.mpr fun c hc => ?_)
  have hne : c ≠ 0 := by
    rintro rfl
    exact s.noNul hc
  simpa using hne

/-- Reading back a string that was stored with at least one NUL after it. -/
theorem ofBytes_append_nul (s : CString) (rest : List UInt8) :
    ofBytes (s.chars ++ 0 :: rest) = s := by
  refine ext ?_
  have hall : ∀ c ∈ s.chars, decide (c ≠ 0) = true := fun c hc => by
    have hne : c ≠ 0 := by
      rintro rfl
      exact s.noNul hc
    simpa using hne
  change (s.chars ++ 0 :: rest).takeWhile (· ≠ 0) = s.chars
  rw [List.takeWhile_append_of_pos hall]
  simp

theorem noNul_nil : (0 : UInt8) ∉ [] := List.not_mem_nil

theorem noNul_slash : (0 : UInt8) ∉ [47] := by decide

/-- A character, as the signed `char` of the target. -/
def schar (c : UInt8) : ℤ := c.toInt8.toInt

end CString

/-- `strlen`: count up to the terminator. -/
def strlen : List UInt8 → ℕ
  | [] => 0
  | c :: s => if c = 0 then 0 else strlen s + 1

@[simp]
theorem strlen_chars (s : CString) : strlen s.chars = s.chars.length := by
  obtain ⟨l, hl⟩ := s
  induction l with
  | nil => rfl
  | cons c l ih =>
    have hc : c ≠ 0 := by
      rintro rfl
      exact hl (by simp)
    simp [strlen, hc, ih fun h => hl (List.mem_cons_of_mem _ h)]

/-- `strcmp`: run along equal characters; zero at a common terminator, else the difference
of the first two that differ. -/
def strcmp : List UInt8 → List UInt8 → ℤ
  | [], [] => 0
  | [], d :: _ => CString.schar 0 - CString.schar d
  | c :: _, [] => CString.schar c - CString.schar 0
  | c :: s, d :: t =>
    if c = d then (if c = 0 then 0 else strcmp s t) else CString.schar c - CString.schar d

/-- The `streq` macro of `ramfs.h` and `dfs.c`: `strcmp` answers zero. -/
def streq (s t : CString) : Bool := decide (strcmp s.chars t.chars = 0)

theorem CString.schar_injective : Function.Injective CString.schar := by
  intro c d h
  have h' : c.toInt8 = d.toInt8 := Int8.toInt_inj.mp h
  simpa using congrArg Int8.toUInt8 h'

theorem strcmp_eq_zero_iff (s t : CString) : strcmp s.chars t.chars = 0 ↔ s = t := by
  obtain ⟨l, hl⟩ := s
  obtain ⟨m, hm⟩ := t
  rw [CString.mk.injEq]
  have hdiff : ∀ c d : UInt8, c ≠ d → CString.schar c - CString.schar d ≠ 0 := fun c d hne h =>
    hne (CString.schar_injective (by omega))
  induction l generalizing m with
  | nil =>
    cases m with
    | nil => simp [strcmp]
    | cons d m =>
      have hd : (0 : UInt8) ≠ d := by
        rintro rfl
        exact hm (by simp)
      simpa [strcmp] using hdiff 0 d hd
  | cons c l ih =>
    have hc : c ≠ 0 := by
      rintro rfl
      exact hl (by simp)
    cases m with
    | nil => simpa [strcmp] using hdiff c 0 hc
    | cons d m =>
      by_cases hcd : c = d
      · subst hcd
        simp only [strcmp, if_true, if_neg hc, List.cons.injEq, true_and]
        exact ih (fun h => hl (List.mem_cons_of_mem _ h)) m
          fun h => hm (List.mem_cons_of_mem _ h)
      · simpa [strcmp, hcd] using hdiff c d hcd

@[simp]
theorem streq_eq_decide (s t : CString) : streq s t = decide (s = t) := by
  simp [streq, strcmp_eq_zero_iff]

/-- `memcmp`, with the two comparisons as the source has them. A byte past the end of a
list is the terminator of a string. -/
def memcmp : List UInt8 → List UInt8 → ℕ → ℤ
  | _, _, 0 => 0
  | a, b, n + 1 =>
    if a.headD 0 < b.headD 0 then -1
    else if b.headD 0 > a.headD 0 then 1
    else memcmp a.tail b.tail n

/-- **What `memcmp` answers.** The second comparison repeats the first, so the result is
zero as soon as no byte of `a` is smaller than its partner in `b`, and `-1` otherwise. -/
theorem memcmp_eq (a b : List UInt8) (n : ℕ) :
    memcmp a b n = if ∀ i < n, b.getD i 0 ≤ a.getD i 0 then 0 else -1 := by
  induction n generalizing a b with
  | zero => simp [memcmp]
  | succ n ih =>
    have hhead : ∀ l : List UInt8, l.getD 0 0 = l.headD 0 := fun l => by cases l <;> rfl
    have htail : ∀ (l : List UInt8) (i : ℕ), l.getD (i + 1) 0 = l.tail.getD i 0 := fun l i => by
      cases l <;> simp
    by_cases h : a.headD 0 < b.headD 0
    · rw [memcmp, if_pos h, if_neg]
      intro hall
      have h0 := hall 0 (by omega)
      rw [hhead, hhead] at h0
      exact absurd h (UInt8.not_lt.mpr h0)
    · rw [memcmp, if_neg h, if_neg h, ih]
      refine if_congr ?_ rfl rfl
      constructor
      · intro hall i hi
        rcases i with _ | i
        · rw [hhead, hhead]
          exact UInt8.not_lt.mp h
        · rw [htail, htail]
          exact hall i (by omega)
      · intro hall i hi
        rw [← htail, ← htail]
        exact hall (i + 1) (by omega)

theorem memcmp_eq_zero_iff (a b : List UInt8) (n : ℕ) :
    memcmp a b n = 0 ↔ ∀ i < n, b.getD i 0 ≤ a.getD i 0 := by
  rw [memcmp_eq]
  split <;> simp_all

/-- `strrchr` for a non-NUL character: the part before its last occurrence and the part
after it, or `none` when it does not occur. -/
def strrchr (c : UInt8) : List UInt8 → Option (List UInt8 × List UInt8)
  | [] => none
  | d :: s =>
    match strrchr c s with
    | some (before, after) => some (d :: before, after)
    | none => if d = c then some ([], s) else none

theorem strrchr_eq_none_iff {c : UInt8} {s : List UInt8} : strrchr c s = none ↔ c ∉ s := by
  induction s with
  | nil => simp [strrchr]
  | cons d s ih =>
    rw [strrchr]
    rcases h : strrchr c s with _ | ⟨b, a⟩
    · have hs := ih.mp h
      by_cases hd : d = c
      · simp [hd]
      · have hcd : c ≠ d := fun h => hd h.symm
        simp [hd, hcd, hs]
    · have hs : c ∈ s := by
        by_contra hn
        rw [ih.mpr hn] at h
        simp at h
      simp [hs]

/-- Both parts are made of characters of the string. -/
theorem mem_of_strrchr {c d : UInt8} {s : List UInt8} {r : List UInt8 × List UInt8}
    (h : strrchr c s = some r) (hd : d ∈ r.1 ∨ d ∈ r.2) : d ∈ s := by
  induction s generalizing r with
  | nil => simp [strrchr] at h
  | cons e s ih =>
    rw [strrchr] at h
    split at h
    next before after hs =>
      obtain rfl := Option.some.inj h
      rcases hd with hd | hd
      · rcases List.mem_cons.mp hd with rfl | hd
        · exact List.mem_cons_self
        · exact List.mem_cons_of_mem e (ih hs (.inl hd))
      · exact List.mem_cons_of_mem e (ih hs (.inr hd))
    next =>
      split at h
      · obtain rfl := Option.some.inj h
        rcases hd with hd | hd
        · simp at hd
        · exact List.mem_cons_of_mem e hd
      · simp at h

theorem length_of_strrchr {c : UInt8} {s : List UInt8} {r : List UInt8 × List UInt8}
    (h : strrchr c s = some r) : r.2.length ≤ s.length := by
  induction s generalizing r with
  | nil => simp [strrchr] at h
  | cons e s ih =>
    rw [strrchr] at h
    split at h
    next before after hs =>
      obtain rfl := Option.some.inj h
      exact (ih hs).trans (Nat.le_succ _)
    next =>
      split at h
      · obtain rfl := Option.some.inj h
        exact Nat.le_succ _
      · simp at h

end LittleLinux
