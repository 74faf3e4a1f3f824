import Mathlib.Tactic

/-!
# Traces of heap accesses

A run of a program over a heap, as the sequence of what it does to objects: an access to an
object, or its release. `NoUseAfterFree` is that nothing is accessed once it was released.

`Traced` is a state with the trace so far. `foldl_traced` is the rule for a loop whose turns
append a known piece to the trace as long as an invariant of the remaining turns holds, and
`noUseAfterFree_flatMap` the rule for the trace that such a loop leaves.
-/

namespace LittleLinux

variable {σ α β : Type*}

/-- What is done to an object. -/
inductive HeapEvent (α : Type*) where
  | access (a : α)
  | free (a : α)
deriving DecidableEq

namespace HeapEvent

/-- The object, if the event releases one. -/
def freed? : HeapEvent α → Option α
  | .access _ => none
  | .free a => some a

/-- The object, if the event accesses one. -/
def accessed? : HeapEvent α → Option α
  | .access a => some a
  | .free _ => none

end HeapEvent

/-- The objects that a trace releases, in order. -/
def frees (tr : List (HeapEvent α)) : List α := tr.filterMap HeapEvent.freed?

/-- The objects that a trace accesses, in order. -/
def accesses (tr : List (HeapEvent α)) : List α := tr.filterMap HeapEvent.accessed?

/-- No object is accessed after it was released. -/
def NoUseAfterFree (tr : List (HeapEvent α)) : Prop :=
  tr.Pairwise fun e e' => ∀ a ∈ e.freed?, a ∉ e'.accessed?

instance [DecidableEq α] (tr : List (HeapEvent α)) : Decidable (NoUseAfterFree tr) :=
  inferInstanceAs (Decidable (tr.Pairwise fun e e' => ∀ a ∈ e.freed?, a ∉ e'.accessed?))

/-! ### Pieces of a trace -/

section Pieces

variable {tr tr' : List (HeapEvent α)} {a : α} {l : List β} {f : β → List (HeapEvent α)}

@[simp] theorem frees_nil : frees ([] : List (HeapEvent α)) = [] := rfl
@[simp] theorem accesses_nil : accesses ([] : List (HeapEvent α)) = [] := rfl

@[simp] theorem frees_free : frees (.free a :: tr) = a :: frees tr := rfl
@[simp] theorem frees_access : frees (.access a :: tr) = frees tr := rfl
@[simp] theorem accesses_free : accesses (.free a :: tr) = accesses tr := rfl
@[simp] theorem accesses_access : accesses (.access a :: tr) = a :: accesses tr := rfl

@[simp]
theorem frees_append (tr tr' : List (HeapEvent α)) : frees (tr ++ tr') = frees tr ++ frees tr' :=
  List.filterMap_append

@[simp]
theorem accesses_append (tr tr' : List (HeapEvent α)) :
    accesses (tr ++ tr') = accesses tr ++ accesses tr' :=
  List.filterMap_append

@[simp]
theorem frees_flatMap (l : List β) (f : β → List (HeapEvent α)) :
    frees (l.flatMap f) = l.flatMap fun b => frees (f b) :=
  List.filterMap_flatMap

@[simp]
theorem accesses_flatMap (l : List β) (f : β → List (HeapEvent α)) :
    accesses (l.flatMap f) = l.flatMap fun b => accesses (f b) :=
  List.filterMap_flatMap

theorem mem_frees : a ∈ frees tr ↔ HeapEvent.free a ∈ tr := by
  rw [frees, List.mem_filterMap]
  refine ⟨?_, fun h => ⟨_, h, rfl⟩⟩
  rintro ⟨e, he, ha⟩
  cases e with
  | access b => cases ha
  | free b => rwa [← Option.some.inj ha]

theorem mem_accesses : a ∈ accesses tr ↔ HeapEvent.access a ∈ tr := by
  rw [accesses, List.mem_filterMap]
  refine ⟨?_, fun h => ⟨_, h, rfl⟩⟩
  rintro ⟨e, he, ha⟩
  cases e with
  | access b => rwa [← Option.some.inj ha]
  | free b => cases ha

/-- What one piece releases is not accessed by a later one. -/
theorem forall_freed_iff :
    (∀ e ∈ tr, ∀ e' ∈ tr', ∀ a ∈ e.freed?, a ∉ e'.accessed?) ↔ ∀ a ∈ frees tr, a ∉ accesses tr' := by
  constructor
  · intro h a ha hacc
    exact h _ (mem_frees.1 ha) _ (mem_accesses.1 hacc) a rfl rfl
  · intro h e he e' he' a ha hacc
    exact h a (List.mem_filterMap.2 ⟨e, he, ha⟩) (List.mem_filterMap.2 ⟨e', he', hacc⟩)

theorem noUseAfterFree_nil : NoUseAfterFree ([] : List (HeapEvent α)) := List.Pairwise.nil

theorem noUseAfterFree_append :
    NoUseAfterFree (tr ++ tr') ↔
      NoUseAfterFree tr ∧ NoUseAfterFree tr' ∧ ∀ a ∈ frees tr, a ∉ accesses tr' := by
  rw [NoUseAfterFree, List.pairwise_append, forall_freed_iff]
  rfl

/-- A piece that releases nothing. -/
theorem noUseAfterFree_of_frees (h : frees tr = []) : NoUseAfterFree tr := by
  refine List.pairwise_of_forall_mem_list fun e he e' _ a ha => ?_
  have hmem : a ∈ frees tr := List.mem_filterMap.2 ⟨e, he, ha⟩
  rw [h] at hmem
  cases hmem

theorem noUseAfterFree_access_cons : NoUseAfterFree (.access a :: tr) ↔ NoUseAfterFree tr := by
  rw [← List.singleton_append, noUseAfterFree_append]
  exact ⟨fun h => h.2.1, fun h => ⟨List.pairwise_singleton _ _, h, fun b hb => by cases hb⟩⟩

/-- **The rule for the trace of a loop.** -/
theorem noUseAfterFree_flatMap :
    NoUseAfterFree (l.flatMap f) ↔
      (∀ b ∈ l, NoUseAfterFree (f b)) ∧
        l.Pairwise fun b b' => ∀ a ∈ frees (f b), a ∉ accesses (f b') := by
  rw [NoUseAfterFree, List.pairwise_flatMap]
  simp only [forall_freed_iff]
  rfl

end Pieces

/-! ### States with a trace -/

/-- A state, and what was done to objects so far, oldest first. -/
structure Traced (σ α : Type*) where
  state : σ
  trace : List (HeapEvent α)

namespace Traced

/-- Access an object. -/
def access (t : Traced σ α) (a : α) : Traced σ α := ⟨t.state, t.trace ++ [.access a]⟩

/-- Release an object, `release` being what that does to the state. -/
def free (release : σ → α → σ) (t : Traced σ α) (a : α) : Traced σ α :=
  ⟨release t.state a, t.trace ++ [.free a]⟩

/-- Change the state and no object. -/
def map (f : σ → σ) (t : Traced σ α) : Traced σ α := ⟨f t.state, t.trace⟩

section Fields

variable (t : Traced σ α) (a : α) (release : σ → α → σ) (f : σ → σ)

@[simp] theorem state_access : (t.access a).state = t.state := rfl
@[simp] theorem trace_access : (t.access a).trace = t.trace ++ [.access a] := rfl
@[simp] theorem state_free : (t.free release a).state = release t.state a := rfl
@[simp] theorem trace_free : (t.free release a).trace = t.trace ++ [.free a] := rfl
@[simp] theorem state_map : (t.map f).state = f t.state := rfl
@[simp] theorem trace_map : (t.map f).trace = t.trace := rfl

end Fields

/-- **The loop rule.** `I` is the invariant, over the turns that remain. -/
theorem foldl_traced {body : Traced σ α → β → Traced σ α} {visit : β → List (HeapEvent α)}
    {I : List β → σ → Prop}
    (hbody : ∀ b l t, I (b :: l) t.state →
      (body t b).trace = t.trace ++ visit b ∧ I l (body t b).state)
    (l rest : List β) (t : Traced σ α) (h : I (l ++ rest) t.state) :
    (l.foldl body t).trace = t.trace ++ l.flatMap visit ∧ I rest (l.foldl body t).state := by
  induction l generalizing t with
  | nil => exact ⟨(List.append_nil _).symm, h⟩
  | cons b l ih =>
    obtain ⟨htrace, hnext⟩ := hbody b (l ++ rest) t h
    obtain ⟨hrest, hI⟩ := ih (body t b) hnext
    refine ⟨?_, hI⟩
    rw [List.foldl_cons, hrest, htrace, List.flatMap_cons, List.append_assoc]

end Traced

end LittleLinux
