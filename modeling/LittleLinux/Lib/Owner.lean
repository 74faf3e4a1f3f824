import Mathlib.Logic.Relation
import Mathlib.Data.List.Basic

/-!
# Nodes with lists of children

A graph is given by the list of children of each node. `Below kids a b` says that `b` is
reached from `a`. Where every node has at most one owner (`UniqueOwner`), what is reached is a
forest: two nodes above a third are one above the other, and taking away the one edge to a node
takes away exactly what is below it.
-/

namespace LittleLinux

variable {α : Type*} {kids kids' : α → List α} {a b c x r : α}

/-- `b` is `a`, or a child of it, or a child of such a child, and so on. -/
def Below (kids : α → List α) : α → α → Prop := Relation.ReflTransGen fun p c => c ∈ kids p

/-- No node is the child of two. -/
def UniqueOwner (kids : α → List α) : Prop := ∀ p q c, c ∈ kids p → c ∈ kids q → p = q

namespace Below

theorem refl (kids : α → List α) (a : α) : Below kids a a := Relation.ReflTransGen.refl

theorem tail (h : Below kids a b) (hc : c ∈ kids b) : Below kids a c :=
  Relation.ReflTransGen.tail h hc

theorem trans (h : Below kids a b) (h' : Below kids b c) : Below kids a c :=
  Relation.ReflTransGen.trans h h'

/-- Of a node without children only itself is below it. -/
theorem eq_of_leaf (hleaf : kids a = []) (h : Below kids a b) : b = a := by
  induction h with
  | refl => rfl
  | tail _ hc ih =>
    subst ih
    rw [hleaf] at hc
    exact absurd hc (by simp)

/-- What is below a node is the node itself or owned by something below it. -/
theorem cases_owner (h : Below kids a b) : a = b ∨ ∃ p, Below kids a p ∧ b ∈ kids p := by
  cases h with
  | refl => exact Or.inl rfl
  | tail hp hb => exact Or.inr ⟨_, hp, hb⟩

/-- Nothing but itself is above a node without an owner. -/
theorem eq_of_ownerless (hb : ∀ p, b ∉ kids p) (h : Below kids a b) : a = b := by
  rcases h.cases_owner with rfl | ⟨p, -, hp⟩
  · rfl
  · exact absurd hp (hb p)

/-- A set that holds `a` and is closed under children holds everything below `a`. -/
theorem mem_of_closed {S : Set α} (hclosed : ∀ p ∈ S, ∀ c ∈ kids p, c ∈ S) (ha : a ∈ S)
    (h : Below kids a b) : b ∈ S := by
  induction h with
  | refl => exact ha
  | tail _ hc ih => exact hclosed _ ih _ hc

theorem mono (hsub : ∀ p, ∀ c ∈ kids p, c ∈ kids' p) (h : Below kids a b) : Below kids' a b :=
  Relation.ReflTransGen.mono hsub _ _ h

/-- Two nodes above a third are one above the other. -/
theorem total (hu : UniqueOwner kids) (ha : Below kids a x) (hb : Below kids b x) :
    Below kids a b ∨ Below kids b a := by
  induction ha with
  | refl => exact Or.inr hb
  | tail hp hc ih =>
    rcases hb.cases_owner with rfl | ⟨q, hq, hcq⟩
    · exact Or.inl (hp.tail hc)
    · exact ih (hu _ _ _ hc hcq ▸ hq)

/-- Where each new edge leads to one of `new`, what is below a node was below it before, or is
below one of these. -/
theorem of_linked {new : Set α} (hnew : ∀ p, ∀ c ∈ kids' p, c ∈ kids p ∨ c ∈ new)
    (h : Below kids' a x) : Below kids a x ∨ ∃ c ∈ new, Below kids c x := by
  induction h with
  | refl => exact Or.inl (refl kids a)
  | tail _ hc ih =>
    rcases hnew _ _ hc with hc | hc
    · rcases ih with ih | ⟨d, hd, ih⟩
      · exact Or.inl (ih.tail hc)
      · exact Or.inr ⟨d, hd, ih.tail hc⟩
    · exact Or.inr ⟨_, hc, refl kids _⟩

/-- Where each edge that is taken away leads to one of `out`, what was below a node still is,
or was below one of these. -/
theorem of_cut {out : Set α} (hcut : ∀ p, ∀ c ∈ kids p, c ∈ kids' p ∨ c ∈ out)
    (h : Below kids a x) : Below kids' a x ∨ ∃ c ∈ out, Below kids c x := by
  induction h with
  | refl => exact Or.inl (refl kids' a)
  | tail _ hc ih =>
    rcases ih with ih | ⟨d, hd, ih⟩
    · rcases hcut _ _ hc with hc | hc
      · exact Or.inl (ih.tail hc)
      · exact Or.inr ⟨_, hc, refl kids _⟩
    · exact Or.inr ⟨d, hd, ih.tail hc⟩

/-- Taking away edges to `d` leaves everything below `d` there. -/
theorem of_cut_self {d : α} (hcut : ∀ p, ∀ c ∈ kids p, c ∈ kids' p ∨ c = d)
    (h : Below kids d x) : Below kids' d x := by
  induction h with
  | refl => exact refl kids' d
  | tail _ hc ih =>
    rcases hcut _ _ hc with hc | rfl
    · exact ih.tail hc
    · exact refl kids' _

/-- After the edges to `d` were taken away, nothing below `d` is reached from the root any
more. -/
theorem not_of_unlinked {d : α} (hu : UniqueOwner kids') (hr : ∀ p, r ∉ kids' p)
    (hd : ∀ p, d ∉ kids' p) (hne : d ≠ r) (hcut : ∀ p, ∀ c ∈ kids p, c ∈ kids' p ∨ c = d)
    (h : Below kids d x) : ¬Below kids' r x := by
  intro hrx
  rcases total hu hrx (of_cut_self hcut h) with h' | h'
  · exact hne (eq_of_ownerless hd h').symm
  · exact hne (eq_of_ownerless hr h')

end Below

end LittleLinux
