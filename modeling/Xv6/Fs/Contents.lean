import Mathlib.Data.List.GetD
import Xv6.Fs.Inodes

namespace Xv6.Fs

open Inodes (MAXFILE chunk patch)

/-!
# The contents of one file

A file or directory as `readi` and `writei` of `fs.c` see it: its blocks in
order, and its size.  Which block of the disk is which block of the file is
left to `bmap`.
-/

structure Contents where
  /-- Block `bn` of the file, the one that `bmap` gives for `bn`. -/
  data : Nat -> Block
  size : Nat

namespace Contents

/-! ## `readi` and `writei` -/

/-- The loop of `writei`.  Each pass copies at least one byte. -/
def writeiLoop : Nat -> (Nat -> Block) -> Nat -> List Byte -> Nat -> Block
  | 0, data, _, _ => data
  | more + 1, data, off, src =>
    if src = [] then data
    else
      let m := chunk off src.length
      let bp := patch (data (off / BSIZE)) (off % BSIZE) m fun j => src.getD j 0#8
      writeiLoop more (Function.update data (off / BSIZE) bp) (off + m) (src.drop m)

/-- The file after `writei(ip, src, off, n)`; `none` when it returns -1, and it returns `n`
otherwise. -/
def writei (file : Contents) (src : List Byte) (off : BitVec 32) : Option Contents :=
  let n := src.length
  if file.size < off.toNat ∨ off + BitVec.ofNat 32 n < off then none
  else if MAXFILE * BSIZE < (off + BitVec.ofNat 32 n).toNat then none
  else some {
    data := writeiLoop n file.data off.toNat src
    size := if 0 < n /\ file.size < off.toNat + n then off.toNat + n else file.size }

/-- The loop of `readi`. -/
def readiLoop : Nat -> (Nat -> Block) -> Nat -> Nat -> List Byte
  | 0, _, _, _ => []
  | more + 1, data, off, left =>
    if left = 0 then []
    else
      let m := chunk off left
      (List.range m).map (fun j => data (off / BSIZE) (off % BSIZE + j)) ++
        readiLoop more data (off + m) (left - m)

/-- The bytes that `readi(ip, dst, off, n)` copies; `none` when it returns -1. -/
def readi (file : Contents) (off : BitVec 32) (n : Nat) : Option (List Byte) :=
  if file.size < off.toNat ∨ off + BitVec.ofNat 32 n < off then none
  else if file.size < (off + BitVec.ofNat 32 n).toNat then
    some (readiLoop (file.size - off.toNat) file.data off.toNat (file.size - off.toNat))
  else some (readiLoop n file.data off.toNat n)

def byteAt (data : Nat -> Block) (j : Nat) : Byte := data (j / BSIZE) (j % BSIZE)

def bytes (file : Contents) : List Byte := (List.range file.size).map (byteAt file.data)

theorem byteAt_patch (data : Nat -> Block) (off left : Nat) (src : Nat -> Byte) (j : Nat) :
    byteAt (Function.update data (off / BSIZE)
      (patch (data (off / BSIZE)) (off % BSIZE) (chunk off left) src)) j =
      if off <= j /\ j < off + chunk off left then src (j - off) else byteAt data j := by
  unfold byteAt chunk BSIZE
  by_cases same : j / 512 = off / 512
  · rw [same, Function.update_self]
    unfold patch
    have inside : off % 512 <= j % 512 /\ j % 512 < off % 512 + min left (512 - off % 512) <->
        off <= j /\ j < off + min left (512 - off % 512) := by omega
    have distance : j % 512 - off % 512 = j - off := by omega
    simp only [inside, distance]
  · rw [Function.update_of_ne same, if_neg (by omega)]

theorem chunk_pos {off left : Nat} (more : 0 < left) : 0 < chunk off left := by
  unfold chunk BSIZE
  omega

theorem chunk_le (off left : Nat) : chunk off left <= left := Nat.min_le_left _ _

theorem byteAt_writeiLoop (more : Nat) :
    ∀ (data : Nat -> Block) (off : Nat) (src : List Byte) (j : Nat),
    src.length <= more -> byteAt (writeiLoop more data off src) j =
      if off <= j /\ j < off + src.length then src.getD (j - off) 0#8 else byteAt data j := by
  induction more with
  | zero =>
    intro data off src j enough
    rw [List.length_eq_zero_iff.mp (Nat.le_zero.mp enough), if_neg (by simp)]
    rfl
  | succ more ih =>
    intro data off src j enough
    rw [writeiLoop]
    by_cases none : src = []
    · rw [if_pos none, none, if_neg (by simp)]
    · rw [if_neg none]
      have some : 0 < chunk off src.length := chunk_pos (List.length_pos_iff.mpr none)
      have part := chunk_le off src.length
      dsimp only
      rw [ih _ _ _ _ (by rw [List.length_drop]; omega), byteAt_patch, List.length_drop]
      by_cases later : off + chunk off src.length <= j /\ j < off + src.length
      · rw [if_pos (by omega), if_pos (by omega), List.getD_eq_getElem?_getD, List.getElem?_drop,
          List.getD_eq_getElem?_getD]
        congr 2
        omega
      · rw [if_neg (by omega)]
        have first : (off <= j /\ j < off + chunk off src.length) <->
            (off <= j /\ j < off + src.length) := by omega
        simp only [first]

variable {off : BitVec 32} {n : Nat}

/-- The sum of an offset and a length that does not wrap. -/
theorem toNat_add_length (small : off.toNat + n < 2 ^ 32) :
    ¬ off + BitVec.ofNat 32 n < off /\ (off + BitVec.ofNat 32 n).toNat = off.toNat + n := by
  rw [BitVec.lt_def, BitVec.toNat_add, BitVec.toNat_ofNat]
  constructor <;> omega

theorem small_of_not_lt (short : n < 2 ^ 32) (stays : ¬ off + BitVec.ofNat 32 n < off) :
    off.toNat + n < 2 ^ 32 := by
  rw [BitVec.lt_def, BitVec.toNat_add, BitVec.toNat_ofNat] at stays
  have := off.isLt
  omega

/-- What a successful `writei` leaves. -/
theorem writei_some {file after : Contents} {src : List Byte} (short : src.length < 2 ^ 32)
    (done : file.writei src off = some after) :
    off.toNat + src.length <= MAXFILE * BSIZE /\
    after.size = max file.size (off.toNat + src.length) /\
      ∀ j, byteAt after.data j =
        if off.toNat <= j /\ j < off.toNat + src.length then src.getD (j - off.toNat) 0#8
        else byteAt file.data j := by
  unfold writei at done
  dsimp only at done
  split at done
  next => cases done
  next fits =>
    rcases not_or.mp fits with ⟨inside, stays⟩
    split at done
    next => cases done
    next below =>
      cases done
      rw [(toNat_add_length (small_of_not_lt short stays)).2] at below
      refine ⟨by omega, ?_, fun j => byteAt_writeiLoop _ _ _ _ j (Nat.le_refl _)⟩
      dsimp only
      split <;> omega

theorem readiLoop_eq (more : Nat) : ∀ (data : Nat -> Block) (off left : Nat), left <= more ->
    readiLoop more data off left = (List.range left).map fun j => byteAt data (off + j) := by
  induction more with
  | zero =>
    intro data off left enough
    rw [Nat.le_zero.mp enough]
    rfl
  | succ more ih =>
    intro data off left enough
    rw [readiLoop]
    by_cases none : left = 0
    · rw [if_pos none, none]
      rfl
    · rw [if_neg none]
      have some : 0 < chunk off left := chunk_pos (Nat.pos_of_ne_zero none)
      have part := chunk_le off left
      have inside : off % BSIZE + chunk off left <= BSIZE := by
        unfold chunk BSIZE
        omega
      have split : left = chunk off left + (left - chunk off left) := by omega
      dsimp only
      rw [ih _ _ _ (by omega)]
      conv => rhs; rw [split, List.range_add, List.map_append, List.map_map]
      congr 1
      · apply List.map_congr_left
        intro j listed
        have below := List.mem_range.mp listed
        unfold byteAt
        unfold BSIZE at inside ⊢
        have block : (off + j) / 512 = off / 512 := by omega
        have place : (off + j) % 512 = off % 512 + j := by omega
        rw [block, place]
      · apply List.map_congr_left
        intro j _
        rw [Function.comp_apply, Nat.add_assoc]

/-- A read that stays within the file. -/
theorem readi_inside {file : Contents} (inside : off.toNat + n <= file.size)
    (small : file.size < 2 ^ 32) :
    file.readi off n = some ((List.range n).map fun j => byteAt file.data (off.toNat + j)) := by
  rcases toNat_add_length (Nat.lt_of_le_of_lt inside small) with ⟨stays, sum⟩
  unfold readi
  rw [if_neg (not_or.mpr ⟨by omega, stays⟩), sum, if_neg (by omega), readiLoop_eq _ _ _ _ (Nat.le_refl _)]

/-- A write that ends within the largest file. -/
theorem writei_inside {file : Contents} {src : List Byte} (start : off.toNat <= file.size)
    (fits : off.toNat + src.length <= MAXFILE * BSIZE) :
    ∃ after, file.writei src off = some after := by
  have small : MAXFILE * BSIZE < 2 ^ 32 := by decide
  rcases toNat_add_length (Nat.lt_of_le_of_lt fits small) with ⟨stays, sum⟩
  unfold writei
  dsimp only
  rw [if_neg (not_or.mpr ⟨by omega, stays⟩), sum, if_neg (by omega)]
  exact ⟨_, rfl⟩

end Contents
end Xv6.Fs
