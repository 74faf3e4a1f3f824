import Mathlib.Tactic

/-!
# A ledger of allocations

Addresses are asked for in increasing order, some of them granted, and released into a log.
`owns slot a` says that the slot holds the address `a`. In a sound ledger no two slots hold one
address, and no slot holds an address that was not granted or was released; so releasing what one
slot holds, once, harms no other.

`Ledger.step` is the rule for a step that empties some slots, releases what they held, and fills
others with new addresses.
-/

namespace LittleLinux

variable {α β : Type*} [LinearOrder α] {owns owns' : β → α → Prop} {next next' : α}
  {granted granted' : α → Prop} {freed freed' : List α}

/-- Every address that a slot holds was granted, was not released, and is held by no other. -/
structure Ledger (owns : β → α → Prop) (next : α) (granted : α → Prop) (freed : List α) : Prop where
  freed_lt : ∀ a ∈ freed, a < next
  owned_lt : ∀ slot a, owns slot a → a < next
  granted : ∀ slot a, owns slot a → granted a
  live : ∀ slot a, owns slot a → a ∉ freed
  unshared : ∀ slot slot' a, owns slot a → owns slot' a → slot = slot'

namespace Ledger

/-- **The step rule.** A slot keeps what it held, or gets the new address `a` if it is `new a`; and
what is released is new and held by none, or is no longer held by the slot that held it. -/
theorem step (h : Ledger owns next granted freed) (hnext : next ≤ next') (new : α → β)
    (hgranted : ∀ a, granted a → granted' a)
    (howns : ∀ slot a, owns' slot a →
      owns slot a ∨ (next ≤ a ∧ a < next' ∧ granted' a ∧ slot = new a))
    (hfreed : ∀ a ∈ freed', a ∈ freed ∨ (∃ slot, owns slot a ∧ ¬owns' slot a) ∨
      (next ≤ a ∧ a < next' ∧ ∀ slot, ¬owns' slot a)) :
    Ledger owns' next' granted' freed' where
  freed_lt := by
    intro a ha
    rcases hfreed a ha with hold | ⟨slot, hslot, -⟩ | ⟨-, hlt, -⟩
    · exact (h.freed_lt a hold).trans_le hnext
    · exact (h.owned_lt slot a hslot).trans_le hnext
    · exact hlt
  owned_lt := by
    intro slot a ha
    rcases howns slot a ha with hold | ⟨-, hlt, -⟩
    · exact (h.owned_lt slot a hold).trans_le hnext
    · exact hlt
  granted := by
    intro slot a ha
    rcases howns slot a ha with hold | ⟨-, -, hgrant, -⟩
    · exact hgranted a (h.granted slot a hold)
    · exact hgrant
  live := by
    intro slot a ha hmem
    rcases howns slot a ha with hold | ⟨hge, -⟩
    -- the slot that gave the object up would be the one that still owns it
    · rcases hfreed a hmem with hfreed | ⟨slot', hslot', hnot⟩ | ⟨hge, -⟩
      · exact h.live slot a hold hfreed
      · exact hnot (h.unshared slot slot' a hold hslot' ▸ ha)
      · exact absurd (h.owned_lt slot a hold) hge.not_gt
    · rcases hfreed a hmem with hfreed | ⟨slot', hslot', -⟩ | ⟨-, -, hnot⟩
      · exact absurd (h.freed_lt a hfreed) hge.not_gt
      · exact absurd (h.owned_lt slot' a hslot') hge.not_gt
      · exact hnot slot ha
  unshared := by
    intro slot slot' a ha ha'
    rcases howns slot a ha with hold | ⟨hge, -, -, hslot⟩
    · rcases howns slot' a ha' with hold' | ⟨hge, -⟩
      · exact h.unshared slot slot' a hold hold'
      · exact absurd (h.owned_lt slot a hold) hge.not_gt
    · rcases howns slot' a ha' with hold' | ⟨-, -, -, hslot'⟩
      · exact absurd (h.owned_lt slot' a hold') hge.not_gt
      · exact hslot.trans hslot'.symm

/-- A step that fills no slot and releases nothing. -/
theorem mono (h : Ledger owns next granted freed) (hnext : next ≤ next')
    (hgranted : ∀ a, granted a → granted' a) (howns : ∀ slot a, owns' slot a → owns slot a) :
    Ledger owns' next' granted' freed where
  freed_lt := fun a ha => (h.freed_lt a ha).trans_le hnext
  owned_lt := fun slot a ha => (h.owned_lt slot a (howns slot a ha)).trans_le hnext
  granted := fun slot a ha => hgranted a (h.granted slot a (howns slot a ha))
  live := fun slot a ha => h.live slot a (howns slot a ha)
  unshared := fun slot slot' a ha ha' => h.unshared slot slot' a (howns slot a ha) (howns slot' a ha')

end Ledger

end LittleLinux
