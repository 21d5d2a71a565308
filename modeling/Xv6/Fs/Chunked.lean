import Xv6.Fs.Filewrite

namespace Xv6.Fs.Filewrite

open Inodes (MAXFILE)
open Contents (byteAt writei_some toNat_add_length small_of_not_lt)

/-!
# `filewrite` by one process, and one `writei`

`filewrite` splits a request into transactions of `most` bytes.  Each `writei` looks
at its own bytes alone, so that a request which ends behind the largest file is
written up to there and then fails, with `f->off` moved.  A request for nothing does
not call `writei` at all.
-/

/-- The loop, from `i` on: the file, `f->off` and `i` after it. -/
def filewriteLoop : Nat -> Contents -> BitVec 32 -> List Byte -> Nat -> Contents × BitVec 32 × Nat
  | 0, file, off, _, i => (file, off, i)
  | more + 1, file, off, addr, i =>
    if i < addr.length then
      match file.writei (piece addr i) off with
      | none => (file, off, i)
      | some after =>
        filewriteLoop more after (off + BitVec.ofNat 32 (piece addr i).length) addr
          (i + (piece addr i).length)
    else (file, off, i)

/-- The state of an open file and what a call returned, `none` for -1. -/
structure Outcome where
  file : Contents
  off : BitVec 32
  result : Option Nat

/-- `filewrite(f, addr, n)`.  Each pass of the loop writes at least one byte. -/
def filewrite (file : Contents) (off : BitVec 32) (addr : List Byte) : Outcome :=
  let last := filewriteLoop addr.length file off addr 0
  ⟨last.1, last.2.1, if last.2.2 = addr.length then some addr.length else none⟩

/-- One `writei` of all bytes, with `f->off` advanced by what it wrote. -/
def plainWrite (file : Contents) (off : BitVec 32) (addr : List Byte) : Outcome :=
  match file.writei addr off with
  | none => ⟨file, off, none⟩
  | some after => ⟨after, off + BitVec.ofNat 32 addr.length, some addr.length⟩

/-- The same return value, bytes, size and offset. -/
structure Agree (one other : Outcome) : Prop where
  result : one.result = other.result
  off : one.off = other.off
  size : one.file.size = other.file.size
  bytes : ∀ j, byteAt one.file.data j = byteAt other.file.data j

section Loop

variable {file : Contents} {off : BitVec 32} {addr : List Byte} {i : Nat}

/-- When `writei` accepts its arguments. -/
theorem writei_isSome_iff {src : List Byte} (short : src.length < 2 ^ 32) :
    (∃ after, file.writei src off = some after) <->
      off.toNat <= file.size /\ off.toNat + src.length <= MAXFILE * BSIZE := by
  constructor
  · rintro ⟨after, done⟩
    refine ⟨?_, (writei_some short done).1⟩
    by_contra beyond
    unfold Contents.writei at done
    dsimp only at done
    rw [if_pos (.inl (Nat.lt_of_not_le beyond))] at done
    cases done
  · exact fun accepted => Contents.writei_inside accepted.1 accepted.2

theorem writei_eq_none {src : List Byte} (short : src.length < 2 ^ 32)
    (refused : ¬ (off.toNat <= file.size /\ off.toNat + src.length <= MAXFILE * BSIZE)) :
    file.writei src off = none := by
  cases done : file.writei src off with
  | none => rfl
  | some after => exact absurd ((writei_isSome_iff short).mp ⟨after, done⟩) refused

theorem length_piece (addr : List Byte) (i : Nat) :
    (piece addr i).length = min most (addr.length - i) := by
  unfold piece
  rw [List.length_take, List.length_drop]

theorem getD_piece {k : Nat} (inside : k < most) :
    (piece addr i).getD k 0#8 = addr.getD (i + k) 0#8 := by
  unfold piece
  rw [List.getD_eq_getElem?_getD, List.getElem?_take_of_lt inside, List.getElem?_drop,
    List.getD_eq_getElem?_getD]

theorem toNat_advance {n : Nat} (fits : off.toNat + n <= MAXFILE * BSIZE) :
    (off + BitVec.ofNat 32 n).toNat = off.toNat + n := by
  have largest : MAXFILE * BSIZE < 2 ^ 32 := by decide
  exact (toNat_add_length (Nat.lt_of_le_of_lt fits largest)).2

/-- Every chunk of a request that fits is written. -/
theorem filewriteLoop_fits (addr : List Byte) (more : Nat) :
    ∀ (file : Contents) (off : BitVec 32) (i : Nat), addr.length - i <= more ->
    i <= addr.length -> off.toNat <= file.size ->
    off.toNat + (addr.length - i) <= MAXFILE * BSIZE ->
    (filewriteLoop more file off addr i).2.2 = addr.length /\
      (filewriteLoop more file off addr i).2.1 = off + BitVec.ofNat 32 (addr.length - i) /\
      (filewriteLoop more file off addr i).1.size = max file.size (off.toNat + (addr.length - i)) /\
      ∀ j, byteAt (filewriteLoop more file off addr i).1.data j =
        if off.toNat <= j /\ j < off.toNat + (addr.length - i) then addr.getD
          (i + (j - off.toNat)) 0#8
        else byteAt file.data j := by
  induction more with
  | zero =>
    intro file off i enough inside start _
    have all : addr.length - i = 0 := Nat.le_zero.mp enough
    rw [all, filewriteLoop]
    refine ⟨show i = addr.length by omega, (BitVec.add_zero off).symm, ?_, fun j => ?_⟩
    · rw [Nat.add_zero, Nat.max_eq_left start]
    · rw [if_neg (by omega)]
  | succ more ih =>
    intro file off i enough inside start fits
    rw [filewriteLoop]
    by_cases left : i < addr.length
    · have length := length_piece addr i
      have pos : 0 < most := by decide
      have largest : MAXFILE * BSIZE < 2 ^ 32 := by decide
      have part : off.toNat + (piece addr i).length <= MAXFILE * BSIZE := by omega
      rcases Contents.writei_inside start part with ⟨after, done⟩
      rcases writei_some (by omega) done with ⟨_, size, bytes⟩
      have next := toNat_advance part
      rw [if_pos left, done]
      dsimp only
      rcases ih after (off + BitVec.ofNat 32 (piece addr i).length) (i + (piece addr i).length)
        (by omega) (by omega) (by omega) (by omega) with ⟨last, offset, total, rest⟩
      rw [next] at total rest
      refine ⟨last, ?_, by omega, fun j => ?_⟩
      · rw [offset, BitVec.add_assoc, <- BitVec.ofNat_add]
        congr 2
        omega
      · rw [rest, bytes]
        by_cases later : off.toNat + (piece addr i).length <= j /\
            j < off.toNat + (piece addr i).length + (addr.length - (i + (piece addr i).length))
        · rw [if_pos later, if_pos (by omega)]
          congr 1
          omega
        · rw [if_neg later]
          by_cases here : off.toNat <= j /\ j < off.toNat + (piece addr i).length
          · rw [if_pos here, if_pos (by omega), getD_piece (by omega)]
          · rw [if_neg here, if_neg (by omega)]
    · have all : addr.length - i = 0 := by omega
      rw [if_neg left, all]
      refine ⟨show i = addr.length by omega, (BitVec.add_zero off).symm, ?_, fun j => ?_⟩
      · rw [Nat.add_zero, Nat.max_eq_left start]
      · rw [if_neg (by omega)]

/-- The offset does not go back. -/
theorem filewriteLoop_off (addr : List Byte) (more : Nat) :
    ∀ (file : Contents) (off : BitVec 32) (i : Nat),
    off.toNat <= (filewriteLoop more file off addr i).2.1.toNat := by
  induction more with
  | zero => exact fun _ _ _ => le_refl _
  | succ more ih =>
    intro file off i
    rw [filewriteLoop]
    split
    next =>
      cases done : file.writei (piece addr i) off with
      | none => exact le_refl _
      | some after =>
        have part := (writei_some (piece_short addr i) done).1
        have onward := ih after (off + BitVec.ofNat 32 (piece addr i).length)
          (i + (piece addr i).length)
        rw [toNat_advance part] at onward
        exact (Nat.le_add_right _ _).trans onward
    next => exact le_refl _

/-- The first chunk is written, and the whole request is not. -/
def WrittenInPart (file : Contents) (off : BitVec 32) (addr : List Byte) : Prop :=
  most < addr.length /\ off.toNat <= file.size /\ off.toNat + most <= MAXFILE * BSIZE /\
    MAXFILE * BSIZE < off.toNat + addr.length

/-- Nothing is asked for, at an offset that `writei` refuses. -/
def Behind (file : Contents) (off : BitVec 32) (addr : List Byte) : Prop :=
  addr = [] /\ (file.size < off.toNat ∨ MAXFILE * BSIZE < off.toNat)

theorem filewrite_nil (file : Contents) (off : BitVec 32) :
    filewrite file off [] = ⟨file, off, some 0⟩ := rfl

/-- A first chunk that is refused ends the call. -/
theorem filewrite_refused (some : addr ≠ []) (refused : file.writei (piece addr 0) off = none) :
    filewrite file off addr = ⟨file, off, none⟩ := by
  cases addr with
  | nil => exact absurd rfl some
  | cons first rest =>
    unfold filewrite
    rw [List.length_cons, filewriteLoop, if_pos (by rw [List.length_cons]; omega), refused]
    dsimp only
    rw [if_neg (by omega)]

/-- A first chunk that is written moves the offset. -/
theorem filewrite_moves (some : addr ≠ []) {after : Contents}
    (done : file.writei (piece addr 0) off = Option.some after) :
    off.toNat < (filewrite file off addr).off.toNat := by
  cases addr with
  | nil => exact absurd rfl some
  | cons first rest =>
    have length := length_piece (first :: rest) 0
    have pos : 0 < most := by decide
    have part := (writei_some (piece_short _ 0) done).1
    have onward := filewriteLoop_off (first :: rest) rest.length after
      (off + BitVec.ofNat 32 (piece (first :: rest) 0).length) (0 + (piece (first :: rest) 0).length)
    rw [toNat_advance part] at onward
    rw [List.length_cons] at length
    unfold filewrite
    rw [List.length_cons, filewriteLoop, if_pos (by rw [List.length_cons]; omega), done]
    dsimp only
    omega

/-- `filewrite` does what one `writei` of all bytes does, but for a request that is written in part
and a request for nothing at an offset that `writei` refuses. -/
theorem filewrite_agrees_iff (file : Contents) (off : BitVec 32) (addr : List Byte)
    (n : addr.length < 2 ^ 31) :
    Agree (filewrite file off addr) (plainWrite file off addr) <->
      ¬ WrittenInPart file off addr /\ ¬ Behind file off addr := by
  have largest : MAXFILE * BSIZE < 2 ^ 32 := by decide
  have pos : 0 < most := by decide
  have length := length_piece addr 0
  unfold WrittenInPart Behind
  by_cases none : addr = []
  · subst none
    rw [filewrite_nil]
    have short : ([] : List Byte).length < 2 ^ 32 := by decide
    unfold plainWrite
    by_cases start : off.toNat <= file.size /\ off.toNat <= MAXFILE * BSIZE
    · rcases (writei_isSome_iff short).mpr start with ⟨after, done⟩
      rcases writei_some (by decide) done with ⟨_, size, bytes⟩
      rw [done]
      rw [List.length_nil, Nat.add_zero] at size bytes
      refine ⟨fun _ => ⟨fun part => absurd part.1 (by decide), ?_⟩,
        fun _ => ⟨rfl, ?_, by dsimp only; omega, fun j => ?_⟩⟩
      · rintro ⟨_, above⟩
        omega
      · exact (BitVec.add_zero off).symm
      · rw [bytes, if_neg (by omega)]
    · rw [writei_eq_none short start]
      refine ⟨fun agree => absurd agree.result (by simp), fun both => absurd ⟨rfl, ?_⟩ both.2⟩
      omega
  · have some : 0 < addr.length := List.length_pos_iff.mpr none
    by_cases whole : off.toNat <= file.size /\ off.toNat + addr.length <= MAXFILE * BSIZE
    · rcases Contents.writei_inside whole.1 whole.2 with ⟨after, done⟩
      rcases writei_some (by omega) done with ⟨_, size, bytes⟩
      rcases filewriteLoop_fits addr addr.length file off 0 (by omega) (by omega) whole.1 (by omega) with
        ⟨last, offset, total, rest⟩
      refine ⟨fun _ => ⟨by omega, fun behind => none behind.1⟩, fun _ => ?_⟩
      unfold plainWrite
      rw [done]
      unfold filewrite
      dsimp only
      rw [Nat.sub_zero] at offset total rest
      refine ⟨if_pos last, offset, total.trans size.symm, fun j => ?_⟩
      rw [rest, bytes, Nat.zero_add]
    · have refused := writei_eq_none (by omega) whole
      have plain : plainWrite file off addr = ⟨file, off, Option.none⟩ := by
        unfold plainWrite
        rw [refused]
      rw [plain]
      cases first : file.writei (piece addr 0) off with
      | none =>
        rw [filewrite_refused none first]
        refine ⟨fun _ => ⟨?_, fun behind => none behind.1⟩, fun _ => ⟨rfl, rfl, rfl, fun _ => rfl⟩⟩
        rintro ⟨long, start, fits, _⟩
        rcases (writei_isSome_iff (piece_short addr 0)).mpr ⟨start, by omega⟩ with ⟨after, done⟩
        rw [first] at done
        cases done
      | some after =>
        have moved := filewrite_moves none first
        have accepted := (writei_isSome_iff (piece_short addr 0)).mp ⟨after, first⟩
        constructor
        · intro agree
          rw [agree.off] at moved
          exact absurd moved (Nat.lt_irrefl _)
        · rintro ⟨whole', _⟩
          exact absurd ⟨by omega, accepted.1, by omega, by omega⟩ whole'

end Loop

/-! ## A file that is almost as large as a file can be -/

def bigFile : Contents := ⟨fun _ _ => 0#8, 65024⟩

/-- `writei` of the whole request is refused.  `filewrite` returns -1 too, but the file has
grown. -/
theorem filewrite_in_part : (plainWrite bigFile 65024#32 (List.replicate 6657 1#8)).result = none /\
    (filewrite bigFile 65024#32 (List.replicate 6657 1#8)).result = none /\
    (filewrite bigFile 65024#32 (List.replicate 6657 1#8)).file.size = 71680 /\
    (filewrite bigFile 65024#32 (List.replicate 6657 1#8)).off = 71680#32 /\
    ¬ Agree (filewrite bigFile 65024#32 (List.replicate 6657 1#8))
      (plainWrite bigFile 65024#32 (List.replicate 6657 1#8)) := by
  generalize request : List.replicate 6657 1#8 = addr
  have length : addr.length = 6657 := by
    rw [<- request, List.length_replicate]
  have first : (piece addr 0).length = 6656 := by
    rw [length_piece, length]
    decide
  have second : (piece addr 6656).length = 1 := by
    rw [length_piece, length]
    decide
  have fits : (65024#32).toNat + (piece addr 0).length <= MAXFILE * BSIZE := by
    rw [first]
    decide
  rcases Contents.writei_inside (show (65024#32).toNat <= bigFile.size by decide) fits with ⟨after, done⟩
  have size : after.size = 71680 := by
    rw [(writei_some (by rw [first]; decide) done).2.1, first]
    decide
  have refused : after.writei (piece addr 6656) 71680#32 = none := by
    apply writei_eq_none
    · rw [second]
      decide
    · rw [second, size]
      decide
  have plain : bigFile.writei addr 65024#32 = none := by
    apply writei_eq_none
    · rw [length]
      decide
    · rw [length]
      decide
  have loop : filewriteLoop addr.length bigFile 65024#32 addr 0 = (after, 71680#32, 6656) := by
    rw [length, filewriteLoop, length, if_pos (by decide), done]
    dsimp only
    rw [first]
    change filewriteLoop (6655 + 1) after 71680#32 addr 6656 = _
    rw [filewriteLoop, length, if_pos (by decide), refused]
  unfold filewrite plainWrite
  rw [loop, plain, length]
  refine ⟨rfl, rfl, size, rfl, fun agree => absurd agree.off (show 71680#32 ≠ 65024#32 by decide)⟩

/-- A write of two chunks to an empty file. -/
theorem filewrite_agrees_chunks :
    Agree (filewrite ⟨fun _ _ => 0#8, 0⟩ 0#32 (List.replicate 7000 1#8))
    (plainWrite ⟨fun _ _ => 0#8, 0⟩ 0#32 (List.replicate 7000 1#8)) := by
  have length : (List.replicate 7000 1#8).length = 7000 := List.length_replicate
  refine (filewrite_agrees_iff ⟨fun _ _ => 0#8, 0⟩ 0#32 (List.replicate 7000 1#8)
    (by rw [length]; decide)).mpr ⟨?_, ?_⟩
  · rw [WrittenInPart, length]
    decide
  · rintro ⟨_, behind⟩
    revert behind
    decide

end Xv6.Fs.Filewrite
