import Mathlib.Algebra.Group.Nat.Defs
import Mathlib.Data.Nat.Basic

namespace Xv6.Library

/-!
# Words in a memory of bytes

A word has four bytes, the lowest first, at any address.  A store changes the
loads that overlap it and no others.
-/

abbrev Bytes := Nat -> BitVec 8

namespace Bytes

variable {m n : Bytes} {a b v : Nat}

def load (m : Bytes) (a : Nat) : Nat :=
  (m a).toNat + 2 ^ 8 * (m (a + 1)).toNat + 2 ^ 16 * (m (a + 2)).toNat + 2 ^ 24 * (m (a + 3)).toNat

def store (m : Bytes) (a v : Nat) : Bytes := fun x =>
  if a <= x /\ x < a + 4 then BitVec.ofNat 8 (v / 2 ^ (8 * (x - a))) else m x

theorem store_at {i : Nat} (small : i < 4) :
    store m a v (a + i) = BitVec.ofNat 8 (v / 2 ^ (8 * i)) := by
  rw [store, if_pos ⟨Nat.le_add_right a i, Nat.add_lt_add_left small a⟩, Nat.add_sub_cancel_left]

theorem load_congr (same : ∀ x, a <= x -> x < a + 4 -> n x = m x) : load n a = load m a := by
  rw [load, load, same a (by omega) (by omega), same (a + 1) (by omega) (by omega),
    same (a + 2) (by omega) (by omega), same (a + 3) (by omega) (by omega)]

theorem load_store (small : v < 2 ^ 32) : load (store m a v) a = v := by
  have first : store m a v a = BitVec.ofNat 8 (v / 2 ^ (8 * 0)) := store_at (show 0 < 4 by decide)
  rw [load, first, store_at (show 1 < 4 by decide), store_at (show 2 < 4 by decide),
    store_at (show 3 < 4 by decide)]
  simp only [BitVec.toNat_ofNat]
  omega

theorem load_store_of_far (far : b + 4 <= a ∨ a + 4 <= b) : load (store m a v) b = load m b := by
  apply load_congr
  intro x low high
  rw [store, if_neg]
  omega

theorem load_lt (m : Bytes) (a : Nat) : load m a < 2 ^ 32 := by
  have first := (m a).isLt
  have second := (m (a + 1)).isLt
  have third := (m (a + 2)).isLt
  have fourth := (m (a + 3)).isLt
  rw [load]
  omega

end Bytes

end Xv6.Library
