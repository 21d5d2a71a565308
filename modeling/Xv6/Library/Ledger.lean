import Mathlib.Algebra.BigOperators.Group.Finset.Basic
import Mathlib.Algebra.Order.BigOperators.Group.Finset
import Mathlib.Algebra.Order.Group.Int
import Mathlib.Data.Fintype.BigOperators
import Mathlib.Tactic.Abel

namespace Xv6.Library

/-!
# Accounts and their sum

The state of a system is a family of parts, and each part has an amount of
what is counted.
-/

variable {ι α : Type} [Fintype ι] [DecidableEq ι]

/-- When one part changes, the sum changes by the difference. -/
theorem sum_update {M : Type} [AddCommGroup M] (amount : α -> M) (state : ι -> α) (i : ι) (x : α) :
    ∑ j, amount (Function.update state i x j) = ∑ j,
      amount (state j) + (amount x - amount (state i)) := by
  have comp : (fun j => amount (Function.update state i x j)) =
      Function.update (fun j => amount (state j)) i (amount x) :=
    Function.comp_update amount state i x
  rw [comp, Finset.sum_update_of_mem (Finset.mem_univ i), <- Finset.add_sum_erase _ _ (Finset.mem_univ i),
    Finset.sdiff_singleton_eq_erase]
  abel

omit [DecidableEq ι] in
/-- Two parts have no more than all of them. -/
theorem pair_le_sum {amount : ι -> Int} (nonneg : ∀ i, 0 <= amount i) {i j : ι} (ne : i ≠ j) :
    amount i + amount j <= ∑ k, amount k := by
  classical
  rw [<- Finset.sum_pair ne]
  exact Finset.sum_le_sum_of_subset_of_nonneg (Finset.subset_univ _) fun k _ _ => nonneg k

end Xv6.Library
