import Mathlib.Data.Finset.Card

namespace Xv6.Library

/-!
# Counting the holders of a shared object

Every holder `d` has cells indexed by `v`, and a cell refers to at most one
object.  The sharers of an object at `v` are the holders whose cell `v` refers
to it.  The rules say how the set of sharers and its size change when one cell
changes, and which counter values go with a number of sharers.
-/

variable {δ ν φ α : Type}

/-! ## Sharers -/

section Sharers

variable [DecidableEq φ] {holders : Finset δ} {cells : δ -> ν -> Option φ} {d : δ} {v : ν} {f : φ}

/-- The holders whose cell `v` refers to `f`. -/
def sharers (holders : Finset δ) (cells : δ -> ν -> Option φ) (v : ν) (f : φ) : Finset δ :=
  holders.filter (fun d => cells d v = some f)

@[simp] theorem mem_sharers :
    d ∈ sharers holders cells v f <-> d ∈ holders /\ cells d v = some f := by
  simp [sharers]

theorem sharers_congr {others : δ -> ν -> Option φ}
    (same : ∀ d, d ∈ holders -> others d v = cells d v) :
    sharers holders others v f = sharers holders cells v f := by
  ext d
  rw [mem_sharers, mem_sharers]
  constructor
  · intro shared
    exact ⟨shared.1, (same d shared.1).symm.trans shared.2⟩
  · intro shared
    exact ⟨shared.1, (same d shared.1).trans shared.2⟩

/-- Without a referring cell there is no sharer. -/
theorem card_sharers_zero (unused : ∀ d, d ∈ holders -> cells d v ≠ some f) :
    (sharers holders cells v f).card = 0 := by
  rw [Finset.card_eq_zero, Finset.eq_empty_iff_forall_notMem]
  intro d shared
  exact unused d (mem_sharers.mp shared).1 (mem_sharers.mp shared).2

/-- A single sharer is the only holder that refers to the object. -/
theorem eq_of_card_sharers_one {e : δ} (single : (sharers holders cells v f).card <= 1)
    (first : d ∈ holders /\ cells d v = some f)
    (second : e ∈ holders /\ cells e v = some f) : d = e :=
  Finset.card_le_one.mp single d (mem_sharers.mpr first) e (mem_sharers.mpr second)

end Sharers

/-- The counter values that go with `n` sharers: exact from two sharers on. -/
def Counted (n c : Nat) : Prop :=
  (2 <= n -> c = n) /\ (n <= 1 -> c <= 1)

/-! ## One cell of a table of cells -/

section Cells

variable [DecidableEq δ] [DecidableEq ν]

/-- Change the cell `v` of holder `d`. -/
def setCell (cells : δ -> ν -> α) (d : δ) (v : ν) (value : α) : δ -> ν -> α :=
  Function.update cells d (Function.update (cells d) v value)

theorem setCell_apply (cells : δ -> ν -> α) (d : δ) (v : ν) (value : α) (e : δ) (w : ν) :
    setCell cells d v value e w = if e = d /\ w = v then value else cells e w := by
  by_cases sameHolder : e = d
  · subst sameHolder
    by_cases sameCell : w = v
    · subst sameCell
      simp [setCell]
    · simp [setCell, sameCell]
  · simp [setCell, sameHolder]

theorem setCell_of_ne {cells : δ -> ν -> α} {d : δ} {v : ν} {value : α} {e : δ} {w : ν}
    (ne : ¬ (e = d /\ w = v)) : setCell cells d v value e w = cells e w := by
  rw [setCell_apply, if_neg ne]

end Cells

/-! ## Changing one cell -/

variable [DecidableEq δ] [DecidableEq ν] [DecidableEq φ]
variable {holders : Finset δ} {cells : δ -> ν -> Option φ} {d : δ} {v w : ν} {f g : φ}

/-- A change that neither frees nor takes `g` at `w` leaves its sharers alone. -/
theorem sharers_setCell_other {value : Option φ}
    (untouched : w = v -> cells d v ≠ some g /\ value ≠ some g) :
    sharers holders (setCell cells d v value) w g = sharers holders cells w g := by
  ext e
  rw [mem_sharers, mem_sharers, setCell_apply]
  by_cases changed : e = d /\ w = v
  · rcases changed with ⟨rfl, rfl⟩
    simp [untouched rfl]
  · rw [if_neg changed]

/-- Filling an empty cell adds its holder. -/
theorem card_sharers_add (member : d ∈ holders) (empty : cells d v = none) :
    (sharers holders (setCell cells d v (some f)) v f).card =
      (sharers holders cells v f).card + 1 := by
  have added : sharers holders (setCell cells d v (some f)) v f =
      insert d (sharers holders cells v f) := by
    ext e
    rw [mem_sharers, Finset.mem_insert, mem_sharers, setCell_apply]
    by_cases same : e = d
    · subst same
      simp [member]
    · simp [same]
  rw [added, Finset.card_insert_of_notMem]
  simp [empty]

/-- Clearing a cell, or pointing it elsewhere, removes its holder. -/
theorem card_sharers_remove (value : Option φ) (member : d ∈ holders) (filled : cells d v = some f)
    (elsewhere : value ≠ some f) :
    (sharers holders (setCell cells d v value) v f).card + 1 =
      (sharers holders cells v f).card := by
  have removed : sharers holders (setCell cells d v value) v f =
      (sharers holders cells v f).erase d := by
    ext e
    rw [mem_sharers, Finset.mem_erase, mem_sharers, setCell_apply]
    by_cases same : e = d
    · subst same
      simp [elsewhere]
    · simp [same]
  rw [removed, Finset.card_erase_add_one]
  exact mem_sharers.mpr ⟨member, filled⟩

end Xv6.Library
