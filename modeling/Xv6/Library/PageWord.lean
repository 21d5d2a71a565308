import Mathlib.Data.Nat.Bitwise

namespace Xv6.Library

/-!
# Words that hold a page number and flags

A word of `n` bits is read as a page number in its high bits and flags in its
low `k` bits.  `pageOf` reads the number and `HasFlag` tests a flag.  The rules
say what the bit operations that set, clear and combine flags do to the two
readings, so that nothing above this module looks at single bits.
-/

variable {n : Nat}

/-- Whether a word and a mask have a bit in common. -/
def HasFlag (word flag : BitVec n) : Bool :=
  word &&& flag != 0#n

/-- The page number in the bits of a word from `k` on. -/
def pageOf (k : Nat) (word : BitVec n) : Nat :=
  word.toNat / 2 ^ k

/-! ## Flags -/

@[simp] theorem hasFlag_zero (flag : BitVec n) : HasFlag 0#n flag = false := by
  simp [HasFlag]

theorem hasFlag_eq_false_iff (word flag : BitVec n) :
    HasFlag word flag = false <-> word &&& flag = 0#n := by
  simp [HasFlag]

/-- Setting bits adds exactly their flags. -/
theorem hasFlag_or (word other flag : BitVec n) :
    HasFlag (word ||| other) flag = (HasFlag word flag || HasFlag other flag) := by
  apply Bool.eq_iff_iff.mpr
  simp only [HasFlag, bne_iff_ne, ne_eq, Bool.or_eq_true]
  rw [BitVec.and_or_distrib_right, BitVec.or_eq_zero_iff]
  exact not_and_or

/-- Masking a word moves the mask to the flag being tested. -/
theorem hasFlag_and (word mask flag : BitVec n) :
    HasFlag (word &&& mask) flag = HasFlag word (mask &&& flag) := by
  unfold HasFlag
  rw [BitVec.and_assoc]

/-! ## Page numbers -/

variable {flags : BitVec n} {k : Nat}

private theorem getLsbD_of_small (small : flags.toNat < 2 ^ k) (i : Nat) :
    flags.getLsbD (i + k) = false := by
  rw [<- BitVec.testBit_toNat]
  exact Nat.testBit_lt_two_pow (Nat.lt_of_lt_of_le small
    (Nat.pow_le_pow_right (by decide) (Nat.le_add_left k i)))

/-- Two words whose bits from `k` on agree have one page number. -/
theorem pageOf_congr {word other : BitVec n}
    (agree : ∀ i, word.getLsbD (i + k) = other.getLsbD (i + k)) :
    pageOf k word = pageOf k other := by
  apply Nat.eq_of_testBit_eq
  intro i
  rw [pageOf, pageOf, Nat.testBit_div_two_pow, Nat.testBit_div_two_pow, BitVec.testBit_toNat,
    BitVec.testBit_toNat]
  exact agree i

theorem pageOf_or_flags (word : BitVec n)
    (small : flags.toNat < 2 ^ k) : pageOf k (word ||| flags) = pageOf k word := by
  apply pageOf_congr
  intro i
  rw [BitVec.getLsbD_or, getLsbD_of_small small, Bool.or_false]

theorem pageOf_and_not_flags (word : BitVec n)
    (small : flags.toNat < 2 ^ k) : pageOf k (word &&& ~~~flags) = pageOf k word := by
  apply pageOf_congr
  intro i
  rw [BitVec.getLsbD_and, BitVec.getLsbD_not, getLsbD_of_small small]
  by_cases inside : i + k < n
  · simp [inside]
  · rw [BitVec.getLsbD_of_ge word (i + k) (Nat.le_of_not_lt inside), Bool.false_and]

theorem pageOf_ofNat {k page : Nat} (bound : page * 2 ^ k < 2 ^ n) :
    pageOf k (BitVec.ofNat n (page * 2 ^ k)) = page := by
  rw [pageOf, BitVec.toNat_ofNat, Nat.mod_eq_of_lt bound]
  exact Nat.mul_div_cancel page (Nat.two_pow_pos k)

end Xv6.Library
