import Mathlib.Data.List.Perm.Basic
import Mathlib.Data.List.Pairwise
import Mathlib.Tactic

/-!
# Intervals tiled by blocks

A block is a pair of a start and a length. `Contig lo hi bs` says that the blocks of `bs`, in
this order, lie end to end from `lo` to `hi`; `Tiles lo hi bs` says so of some order of them.
The blocks of a tiling do not overlap, and their lengths add up. Splitting a block,
appending one at the upper end and reordering all preserve a tiling, and these three are the
only changes an allocator makes.
-/

namespace LittleLinux

/-- The blocks lie end to end from `lo` to `hi`, each of positive length. -/
def Contig : ℕ → ℕ → List (ℕ × ℕ) → Prop
  | lo, hi, [] => lo = hi
  | lo, hi, b :: bs => b.1 = lo ∧ 0 < b.2 ∧ Contig (lo + b.2) hi bs

/-- The blocks, in some order, lie end to end from `lo` to `hi`. -/
def Tiles (lo hi : ℕ) (bs : List (ℕ × ℕ)) : Prop := ∃ l, l.Perm bs ∧ Contig lo hi l

/-- Two blocks that do not overlap. -/
def Apart (x y : ℕ × ℕ) : Prop := x.1 + x.2 ≤ y.1 ∨ y.1 + y.2 ≤ x.1

theorem Apart.symm {x y : ℕ × ℕ} (h : Apart x y) : Apart y x := Or.symm h

namespace Contig

variable {lo hi : ℕ} {bs : List (ℕ × ℕ)}

theorem le (h : Contig lo hi bs) : lo ≤ hi := by
  induction bs generalizing lo with
  | nil => exact le_of_eq h
  | cons b bs ih =>
    obtain ⟨-, -, hrest⟩ := h
    have := ih hrest
    omega

theorem bounds (h : Contig lo hi bs) {b : ℕ × ℕ} (hb : b ∈ bs) :
    lo ≤ b.1 ∧ b.1 + b.2 ≤ hi ∧ 0 < b.2 := by
  induction bs generalizing lo with
  | nil => simp at hb
  | cons c bs ih =>
    obtain ⟨hc, hpos, hrest⟩ := h
    have hle := hrest.le
    rcases List.mem_cons.mp hb with rfl | hb
    · omega
    · have := ih hrest hb
      omega

theorem pairwise (h : Contig lo hi bs) : bs.Pairwise Apart := by
  induction bs generalizing lo with
  | nil => exact List.Pairwise.nil
  | cons c bs ih =>
    obtain ⟨hc, hpos, hrest⟩ := h
    refine List.pairwise_cons.mpr ⟨fun b hb => .inl ?_, ih hrest⟩
    have := hrest.bounds hb
    omega

theorem length_le (h : Contig lo hi bs) : bs.length + lo ≤ hi := by
  induction bs generalizing lo with
  | nil => simpa using le_of_eq h
  | cons c bs ih =>
    obtain ⟨-, hpos, hrest⟩ := h
    have := ih hrest
    rw [List.length_cons]
    omega

/-- Where all lengths are multiples of `d`, all starts agree with `lo` modulo `d`. -/
theorem mod_eq {d : ℕ} (h : Contig lo hi bs) (hd : ∀ b ∈ bs, d ∣ b.2) {b : ℕ × ℕ}
    (hb : b ∈ bs) : b.1 % d = lo % d := by
  induction bs generalizing lo with
  | nil => simp at hb
  | cons c bs ih =>
    obtain ⟨hc, -, hrest⟩ := h
    rcases List.mem_cons.mp hb with rfl | hb
    · rw [hc]
    · obtain ⟨k, hk⟩ := hd c (by simp)
      rw [ih hrest (fun x hx => hd x (List.mem_cons_of_mem _ hx)) hb, hk, Nat.add_mul_mod_self_left]

/-- Cut the block at `a` in two. -/
theorem split {a m n : ℕ} {pre post : List (ℕ × ℕ)} (h : Contig lo hi (pre ++ (a, n) :: post))
    (hm : 0 < m) (hmn : m < n) :
    Contig lo hi (pre ++ (a, m) :: (a + m, n - m) :: post) := by
  induction pre generalizing lo with
  | nil =>
    obtain ⟨rfl, -, hrest⟩ := h
    refine ⟨rfl, hm, rfl, by simpa using hmn, ?_⟩
    have heq : a + m + (n - m) = a + n := by omega
    rw [heq]
    exact hrest
  | cons c pre ih =>
    obtain ⟨hc, hpos, hrest⟩ := h
    exact ⟨hc, hpos, ih hrest⟩

/-- Append a block at the upper end. -/
theorem concat {n : ℕ} (h : Contig lo hi bs) (hn : 0 < n) :
    Contig lo (hi + n) (bs ++ [(hi, n)]) := by
  induction bs generalizing lo with
  | nil =>
    obtain rfl : lo = hi := h
    exact ⟨rfl, hn, rfl⟩
  | cons c bs ih =>
    obtain ⟨hc, hpos, hrest⟩ := h
    exact ⟨hc, hpos, ih hrest⟩

end Contig

namespace Tiles

variable {lo hi : ℕ} {bs bs' : List (ℕ × ℕ)}

theorem nil (lo : ℕ) : Tiles lo lo [] := ⟨[], .nil, rfl⟩

theorem perm (h : Tiles lo hi bs) (hp : bs.Perm bs') : Tiles lo hi bs' := by
  obtain ⟨l, hl, hc⟩ := h
  exact ⟨l, hl.trans hp, hc⟩

theorem le (h : Tiles lo hi bs) : lo ≤ hi := by
  obtain ⟨l, -, hc⟩ := h
  exact hc.le

theorem bounds (h : Tiles lo hi bs) {b : ℕ × ℕ} (hb : b ∈ bs) :
    lo ≤ b.1 ∧ b.1 + b.2 ≤ hi ∧ 0 < b.2 := by
  obtain ⟨l, hl, hc⟩ := h
  exact hc.bounds (hl.mem_iff.mpr hb)

/-- No two blocks of a tiling overlap. -/
theorem pairwise (h : Tiles lo hi bs) : bs.Pairwise Apart := by
  obtain ⟨l, hl, hc⟩ := h
  exact hl.pairwise hc.pairwise fun h => h.symm

/-- Two different blocks of a tiling do not overlap. -/
theorem apart_of_ne (h : Tiles lo hi bs) {b c : ℕ × ℕ} (hb : b ∈ bs) (hc : c ∈ bs)
    (hne : b ≠ c) : Apart b c := by
  have : Std.Symm Apart := ⟨fun _ _ h => h.symm⟩
  exact h.pairwise.forall hb hc hne

theorem length_le (h : Tiles lo hi bs) : bs.length + lo ≤ hi := by
  obtain ⟨l, hl, hc⟩ := h
  rw [← hl.length_eq]
  exact hc.length_le

theorem mod_eq {d : ℕ} (h : Tiles lo hi bs) (hd : ∀ b ∈ bs, d ∣ b.2) {b : ℕ × ℕ}
    (hb : b ∈ bs) : b.1 % d = lo % d := by
  obtain ⟨l, hl, hc⟩ := h
  exact hc.mod_eq (fun x hx => hd x (hl.mem_iff.mp hx)) (hl.mem_iff.mpr hb)

/-- Cutting one block of a tiling in two leaves a tiling. -/
theorem split {a m n : ℕ} (h : Tiles lo hi ((a, n) :: bs)) (hm : 0 < m) (hmn : m < n) :
    Tiles lo hi ((a, m) :: (a + m, n - m) :: bs) := by
  obtain ⟨l, hl, hc⟩ := h
  obtain ⟨pre, post, rfl⟩ := List.append_of_mem (hl.mem_iff.mpr (List.mem_cons_self))
  refine ⟨_, ?_, hc.split hm hmn⟩
  have hrest : (pre ++ post).Perm bs :=
    List.Perm.cons_inv (List.perm_middle.symm.trans hl)
  calc (pre ++ (a, m) :: (a + m, n - m) :: post).Perm ((a, m) :: (pre ++ (a + m, n - m) :: post)) :=
        List.perm_middle
    _ |>.Perm ((a, m) :: (a + m, n - m) :: (pre ++ post)) := (List.perm_middle).cons _
    _ |>.Perm ((a, m) :: (a + m, n - m) :: bs) := (hrest.cons _).cons _

/-- A block appended at the upper end extends the tiling. -/
theorem extend {n : ℕ} (h : Tiles lo hi bs) (hn : 0 < n) : Tiles lo (hi + n) ((hi, n) :: bs) := by
  obtain ⟨l, hl, hc⟩ := h
  exact ⟨_, (List.perm_append_singleton _ l).trans (hl.cons _), hc.concat hn⟩

/-- The first block of the list overlaps none of the others. -/
theorem apart_head {b : ℕ × ℕ} (h : Tiles lo hi (b :: bs)) {c : ℕ × ℕ} (hc : c ∈ bs) :
    Apart b c :=
  (List.pairwise_cons.mp h.pairwise).1 c hc

end Tiles

end LittleLinux
