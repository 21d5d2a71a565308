import Mathlib.Logic.Basic

namespace Xv6.Library

/-!
# Resources that are in use exactly when somebody holds them

A *holder* may hold *resources*, and `used` says which resources are marked as
in use.  The record is *exact* when nothing is held twice and a resource is in
use if and only if it is reserved or held.  Taking a free resource and letting
go of what some holders hold keep a record exact.
-/

variable {σ β : Type}

structure Exact (holds : σ -> β -> Prop) (used reserved : β -> Prop) : Prop where
  once : ∀ i j b, holds i b -> holds j b -> i = j
  used_iff : ∀ b, used b <-> reserved b ∨ ∃ i, holds i b
  apart : ∀ i b, holds i b -> ¬ reserved b

namespace Exact

variable {holds holds' : σ -> β -> Prop} {used used' reserved : β -> Prop}

theorem used_of_holds (record : Exact holds used reserved) {i : σ} {b : β}
    (held : holds i b) : used b :=
  (record.used_iff b).mpr (.inr ⟨i, held⟩)

/-- The record says the same in other words. -/
theorem congr (record : Exact holds used reserved) (sameHolds : ∀ i b, holds' i b <-> holds i b)
    (sameUsed : ∀ b, used' b <-> used b) : Exact holds' used' reserved where
  once i j b first second := record.once i j b ((sameHolds i b).mp first) ((sameHolds j b).mp second)
  used_iff b := by
    rw [sameUsed, record.used_iff]
    apply or_congr_right
    exact exists_congr fun i => (sameHolds i b).symm
  apart i b held := record.apart i b ((sameHolds i b).mp held)

/-- A free resource is taken. -/
theorem take (record : Exact holds used reserved) {owner : σ} {new : β} (free : ¬ used new)
    (holdsAfter : ∀ i b, holds' i b <-> holds i b ∨ (i = owner /\ b = new))
    (usedAfter : ∀ b, used' b <-> used b ∨ b = new) : Exact holds' used' reserved where
  once i j b first second := by
    rcases (holdsAfter i b).mp first with old | ⟨rfl, rfl⟩
    · rcases (holdsAfter j b).mp second with other | ⟨rfl, rfl⟩
      · exact record.once i j b old other
      · exact absurd (record.used_of_holds old) free
    · rcases (holdsAfter j b).mp second with other | ⟨rfl, _⟩
      · exact absurd (record.used_of_holds other) free
      · rfl
  used_iff b := by
    rw [usedAfter, record.used_iff]
    constructor
    · rintro ((kept | ⟨i, held⟩) | rfl)
      · exact .inl kept
      · exact .inr ⟨i, (holdsAfter i b).mpr (.inl held)⟩
      · exact .inr ⟨owner, (holdsAfter owner b).mpr (.inr ⟨rfl, rfl⟩)⟩
    · rintro (kept | ⟨i, held⟩)
      · exact .inl (.inl kept)
      · rcases (holdsAfter i b).mp held with old | ⟨_, same⟩
        · exact .inl (.inr ⟨i, old⟩)
        · exact .inr same
  apart i b held kept := by
    rcases (holdsAfter i b).mp held with old | ⟨_, rfl⟩
    · exact record.apart i b old kept
    · exact free ((record.used_iff b).mpr (.inl kept))

end Exact

end Xv6.Library
