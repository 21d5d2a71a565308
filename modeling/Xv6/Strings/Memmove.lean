import Xv6.Machine.Layout

namespace Xv6.Strings

open Machine
open Function

/-!
# The two `memmove`s

`memmove` of `string.c` chooses its direction from the overlap.  `memmove` of
`ulib.c` always copies upwards and takes its count as an `int`.  The first one
moves the bytes.  The second one agrees with it if the bytes that it overwrites
before it reads them are already what it writes.
-/

abbrev Bytes := Word -> BitVec 8

/-- `while(n-- > 0) *d++ = *s++` -/
def copyUp : Nat -> Bytes -> Word -> Word -> Bytes
  | 0, mem, _, _ => mem
  | n + 1, mem, d, s => copyUp n (update mem d (mem s)) (d + 1) (s + 1)

/-- `while(n-- > 0) *--d = *--s` -/
def copyDown : Nat -> Bytes -> Word -> Word -> Bytes
  | 0, mem, _, _ => mem
  | n + 1, mem, d, s => copyDown n (update mem (d - 1) (mem (s - 1))) (d - 1) (s - 1)

/-- `memmove` of `string.c`, which returns `dst`. -/
def memmove (mem : Bytes) (dst src n : Word) : Word × Bytes :=
  if src < dst /\ src + n > dst then
    (dst, copyDown n.toNat mem (dst + n) (src + n))
  else
    (dst, copyUp n.toNat mem dst src)

/-- `memmove` of `ulib.c`, which reads the same argument as an `int`. -/
def Ulib.memmove (mem : Bytes) (vdst vsrc n : Word) : Word × Bytes :=
  (vdst, copyUp n.toInt.toNat mem vdst vsrc)

/-- The bytes from `dst` on are the original ones from `src` on, and no other byte has changed. -/
def Moved (mem : Bytes) (dst src : Word) (n : Nat) (after : Bytes) : Prop :=
  ∀ x, after x = if (x - dst).toNat < n then mem (x - dst + src) else mem x

/-! ## The loops

The conditions are about the distance between the pointers, which does not change
when both move, so that the last pass may leave them at the end of the address
space. -/

section Arithmetic

variable {x d s : Word} {n : Nat}

private theorem source_succ (x d s : Word) : x - (d + 1) + (s + 1) = x - d + s := by
  bv_omega

private theorem distance_succ (d s : Word) : d + 1 - (s + 1) = d - s := by
  bv_omega

private theorem distance_pos (apart : d ≠ s) : 0 < (d - s).toNat := by
  bv_omega

private theorem offset_succ (n : Nat) (other : x ≠ d) :
    (x - (d + 1)).toNat < n ↔ (x - d).toNat < n + 1 := by
  bv_omega

private theorem offset_self (room : n < 2 ^ 32) : ¬ (d - (d + 1)).toNat < n := by
  bv_omega

private theorem offset_add (d k : Word) : d + k - d = k := by
  bv_omega

private theorem offset_lt (room : n < 2 ^ 32) (other : x ≠ d + BitVec.ofNat 32 n) :
    (x - d).toNat < n + 1 ↔ (x - d).toNat < n := by
  bv_omega

private theorem source_ne (distance : (s - d).toNat + n < 2 ^ 32) (inside : (x - d).toNat < n + 1)
    (other : x ≠ d) : x - d + s ≠ d := by
  bv_omega

private theorem source_ne_last (distance : (d - s).toNat + n < 2 ^ 32)
    (inside : (x - d).toNat < n) : x - d + s ≠ d + BitVec.ofNat 32 n := by
  bv_omega

private theorem source_add (d s i : Word) : d - s + i + s = d + i := by
  bv_omega

private theorem source_offset (x d s : Word) : x - d + s - d = x - d - (d - s) := by
  bv_omega

private theorem outside_of_lt {k g : Word} (distance : g.toNat + n <= 2 ^ 32) (below : k < g) :
    ¬ (k - g).toNat < n := by
  bv_omega

end Arithmetic

/-- Copying upwards to a lower address reads each byte before it is overwritten. -/
theorem copyUp_moved (n : Nat) : ∀ (mem : Bytes) (d s : Word), (s - d).toNat + n <= 2 ^ 32 ->
    Moved mem d s n (copyUp n mem d s) := by
  induction n with
  | zero =>
    intro mem d s _ x
    rw [copyUp, if_neg (Nat.not_lt_zero _)]
  | succ n ih =>
    intro mem d s distance x
    rw [copyUp, ih _ _ _ (by rw [distance_succ]; omega), update_apply, update_apply, source_succ]
    by_cases first : x = d
    · subst first
      rw [if_neg (offset_self (by omega)), if_pos rfl, BitVec.sub_self, BitVec.zero_add]
      rfl
    · simp only [offset_succ n first, if_neg first]
      by_cases inside : (x - d).toNat < n + 1
      · rw [if_pos inside, if_pos inside, if_neg (source_ne distance inside first)]
      · rw [if_neg inside, if_neg inside]

/-- Copying downwards to a higher address does so too. -/
theorem copyDown_moved (n : Nat) : ∀ (mem : Bytes) (d s : Word), (d - s).toNat + n <= 2 ^ 32 ->
    Moved mem d s n (copyDown n mem (d + BitVec.ofNat 32 n) (s + BitVec.ofNat 32 n)) := by
  induction n with
  | zero =>
    intro mem d s _ x
    rw [copyDown, if_neg (Nat.not_lt_zero _)]
  | succ n ih =>
    intro mem d s distance x
    have down (p : Word) : p + BitVec.ofNat 32 (n + 1) - 1 = p + BitVec.ofNat 32 n := by bv_omega
    rw [copyDown, down, down, ih _ _ _ (by omega), update_apply, update_apply]
    by_cases last : x = d + BitVec.ofNat 32 n
    · subst last
      rw [offset_add, BitVec.toNat_ofNat, Nat.mod_eq_of_lt (by omega), if_neg (Nat.lt_irrefl n),
        if_pos rfl, if_pos (Nat.lt_succ_self n), BitVec.add_comm s]
    · simp only [offset_lt (by omega) last, if_neg last]
      by_cases inside : (x - d).toNat < n
      · rw [if_pos inside, if_pos inside, if_neg (source_ne_last distance inside)]
      · rw [if_neg inside, if_neg inside]

/-- Copying upwards to a higher address reads what it has written: each byte is the one that is then
at its source. -/
theorem copyUp_repeats (n : Nat) : ∀ (mem : Bytes) (d s : Word), (d - s).toNat + n <= 2 ^ 32 -> ∀ x,
    copyUp n mem d s x = if (x - d).toNat < n then copyUp n mem d s (x - d + s) else mem x := by
  induction n with
  | zero =>
    intro mem d s _ x
    rw [copyUp, if_neg (Nat.not_lt_zero _)]
  | succ n ih =>
    intro mem d s distance x
    have next := ih (update mem d (mem s)) (d + 1) (s + 1) (by rw [distance_succ]; omega)
    rw [copyUp]
    by_cases first : x = d
    · subst first
      have behind : ¬ (s - (x + 1)).toNat < n := by bv_omega
      rw [BitVec.sub_self, BitVec.zero_add, next s, if_neg behind, next x,
        if_neg (offset_self (by omega)), update_apply, update_apply, if_pos rfl, ite_self]
      rfl
    · rw [next x, source_succ, update_apply, if_neg first]
      simp only [offset_succ n first]

/-- Copying upwards to a higher address is right if the part of the source that is overwritten
repeats the source. -/
theorem copyUp_moved_iff {mem : Bytes} {d s : Word} {n : Nat}
    (distance : (d - s).toNat + n <= 2 ^ 32) (apart : d ≠ s) :
    Moved mem d s n (copyUp n mem d s) ↔
      ∀ i : Word, (d - s).toNat + i.toNat < n -> mem (d + i) = mem (s + i) := by
  have repeats := copyUp_repeats n mem d s distance
  constructor
  · intro moved i inside
    have far : (d - s + i).toNat < n := by
      rw [BitVec.toNat_add_of_lt (by omega)]
      exact inside
    have high := moved (d + (d - s + i))
    have low := moved (d + i)
    rw [repeats, offset_add, if_pos far, if_pos far, source_add] at high
    rw [high, offset_add, if_pos (by omega), BitVec.add_comm i] at low
    exact low
  · intro same x
    have pos := distance_pos apart
    -- Strong induction on the offset: the source of a byte is a shorter way from the start.
    induction size : (x - d).toNat using Nat.strongRecOn generalizing x with
    | ind k ih =>
      rw [repeats x, size]
      by_cases inside : k < n
      · rw [if_pos inside, if_pos inside]
        by_cases below : x - d < d - s
        · rw [repeats, source_offset, if_neg (outside_of_lt distance below)]
        · have least : (d - s).toNat <= k := size ▸ BitVec.not_lt.mp below
          have offset : (x - d + s - d).toNat = k - (d - s).toNat := by
            rw [source_offset, BitVec.toNat_sub_of_le (BitVec.not_lt.mp below), size]
          have equal := same (x - d + s - d) (by omega)
          rw [ih _ (by omega) _ offset, if_pos (by omega), BitVec.add_comm _ s, <- equal, BitVec.add_comm,
            BitVec.sub_add_cancel]
      · rw [if_neg inside, if_neg inside]

/-! ## Both functions -/

/-- The number of bytes of the destination that `memmove` of `ulib.c` should read after it has
written them, or that it does not write because it takes the count to be negative. -/
def endangered (dst src n : Word) : Nat :=
  if n.toInt < 0 then n.toNat else if src < dst then n.toNat - (dst - src).toNat else 0

theorem memmove_moved {mem : Bytes} {dst src n : Word} (source : src.toNat + n.toNat <= 2 ^ 32)
    (destination : dst.toNat + n.toNat <= 2 ^ 32) :
    Moved mem dst src n.toNat (memmove mem dst src n).2 := by
  unfold memmove
  by_cases overlap : src < dst /\ src + n > dst
  · have copied := copyDown_moved n.toNat mem dst src (by bv_omega)
    rw [BitVec.ofNat_toNat, BitVec.setWidth_eq] at copied
    rw [if_pos overlap]
    exact copied
  · rw [if_neg overlap]
    by_cases order : src < dst
    · refine (copyUp_moved_iff (by bv_omega) (by bv_omega)).mpr fun i inside => ?_
      bv_omega
    · exact copyUp_moved n.toNat mem dst src (by bv_omega)

/-- What the kernel's `memmove` leaves is the only memory in which the bytes are moved. -/
private theorem agree_iff {mem : Bytes} {dst src n : Word} (source : src.toNat + n.toNat <= 2 ^ 32)
    (destination : dst.toNat + n.toNat <= 2 ^ 32) (after : Bytes) :
    (dst, after) = memmove mem dst src n ↔ Moved mem dst src n.toNat after := by
  have moved : Moved mem dst src n.toNat (memmove mem dst src n).2 := memmove_moved source destination
  have result : (memmove mem dst src n).1 = dst := by
    unfold memmove
    split <;> rfl
  constructor
  · intro same
    rw [<- same] at moved
    exact moved
  · intro also
    exact Prod.ext result.symm (funext fun x => (also x).trans (moved x).symm)

/-- The kernel's `memmove` moves the bytes, and the one of `ulib.c` agrees with it only if the bytes
of the destination that it should read after writing them, or does not write, are already the ones
at their sources. -/
theorem memmove_agree_iff (mem : Bytes) (dst src n : Word) (source : src.toNat + n.toNat <= 2 ^ 32)
    (destination : dst.toNat + n.toNat <= 2 ^ 32) :
    (Moved mem dst src n.toNat (memmove mem dst src n).2 /\
      Ulib.memmove mem dst src n = memmove mem dst src n) ↔
      ∀ i : Word, i.toNat < endangered dst src n -> mem (dst + i) = mem (src + i) := by
  rw [and_iff_right (memmove_moved source destination), Ulib.memmove, agree_iff source destination,
    endangered]
  by_cases negative : n.toInt < 0
  · rw [if_pos negative, Int.toNat_of_nonpos (Int.le_of_lt negative), copyUp]
    constructor
    · intro moved i inside
      have here := moved (dst + i)
      rw [offset_add, if_pos inside, BitVec.add_comm i] at here
      exact here
    · intro same x
      by_cases inside : (x - dst).toNat < n.toNat
      · have here := same (x - dst) inside
        rw [if_pos inside, BitVec.add_comm (x - dst), <- here, BitVec.add_comm, BitVec.sub_add_cancel]
      · rw [if_neg inside]
  · have count : n.toInt.toNat = n.toNat := by
      have cases := BitVec.toInt_eq_toNat_cond n
      omega
    rw [if_neg negative, count]
    by_cases order : src < dst
    · rw [if_pos order, copyUp_moved_iff (by bv_omega) (by bv_omega)]
      exact forall_congr' fun i => by rw [Nat.lt_sub_iff_add_lt']
    · rw [if_neg order]
      exact iff_of_true (copyUp_moved n.toNat mem dst src (by bv_omega)) fun i inside =>
        absurd inside (Nat.not_lt_zero _)

/-- A memory whose bytes count up. -/
private def counting : Bytes := fun x => x.setWidth 8

theorem memmove_agree_down :
    (1#32).toNat + (2#32).toNat <= 2 ^ 32 /\ (0#32).toNat + (2#32).toNat <= 2 ^ 32 /\
      Moved counting 0 1 2 (memmove counting 0 1 2).2 /\
      Ulib.memmove counting 0 1 2 = memmove counting 0 1 2 :=
  ⟨by decide, by decide, (memmove_agree_iff counting 0 1 2 (by decide) (by decide)).mpr fun i inside =>
    absurd inside (Nat.not_lt_zero _)⟩

/-- Two bytes are moved up by one: the kernel's `memmove` leaves 0, 0, 1 and the one of `ulib.c` 0,
0, 0. -/
theorem memmove_overlap_differs :
    (0#32).toNat + (2#32).toNat <= 2 ^ 32 /\ (1#32).toNat + (2#32).toNat <= 2 ^ 32 /\
      (memmove counting 1 0 2).2 2 = 1 /\ (Ulib.memmove counting 1 0 2).2 2 = 0 /\
      ¬ (Moved counting 1 0 2 (memmove counting 1 0 2).2 /\
        Ulib.memmove counting 1 0 2 = memmove counting 1 0 2) := by
  refine ⟨by decide, by decide, by decide, by decide, fun both => ?_⟩
  have byte := congrArg (fun result => result.2 2) both.2
  revert byte
  decide

end Xv6.Strings
