import Mathlib.Data.List.TakeWhile
import Xv6.Library.Text
import Xv6.Fs.Contents

namespace Xv6.Fs.Dirents

open Library
open Inodes (MAXFILE)
open Contents (byteAt)
open Function

/-!
# Directories as bytes

`dirlookup`, `dirlink` and the part of `sys_unlink` that erases an entry, on
the bytes that `readi` and `writei` move.  A `struct dirent` is an inode number
of two bytes and a name of `DIRSIZ` bytes, which has a terminator when it is
shorter.  Every use of a directory by `create`, `sys_link` or `sys_unlink` is
between one `ilock` and the `iunlock` of that directory; such a section is one
step here.
-/

def DIRSIZ : Nat := 14

/-- `sizeof(struct dirent)` -/
def direntSize : Nat := 16

/-! ## `string.c` -/

def strncmp : Nat -> (Nat -> Byte) -> (Nat -> Byte) -> Int
  | 0, _, _ => 0
  | n + 1, p, q =>
    if p 0 ≠ 0#8 /\ p 0 = q 0 then strncmp n (fun k => p (k + 1)) fun k => q (k + 1)
    else (p 0).toNat - (q 0).toNat

/-- The `n` bytes that `strncpy` writes. -/
def strncpy : Nat -> (Nat -> Byte) -> List Byte
  | 0, _ => []
  | n + 1, t => if t 0 = 0#8 then List.replicate (n + 1) 0#8 else t 0 :: strncpy n fun k => t (k + 1)

def namecmp (s t : Nat -> Byte) : Int := strncmp DIRSIZ s t

def slash : Byte := 47#8

/-- What `skipelem` takes from the path. -/
def element (path : List Byte) : List Byte :=
  (path.dropWhile fun b => b = slash).takeWhile fun b => b ≠ slash /\ b ≠ 0#8

/-- The field `name` after `skipelem`, when there is an element.  What follows a terminator
stays. -/
def skipelem (path : List Byte) (name : Nat -> Byte) : Option (Nat -> Byte) :=
  let s := element path
  if s = [] then none
  else if DIRSIZ <= s.length then some fun k => if k < DIRSIZ then s.getD k 0#8 else name k
  else some fun k => if k < s.length then s.getD k 0#8 else if k = s.length then 0#8 else name k

/-- A string constant. -/
def literal (chars : List Byte) : Nat -> Byte := fun k => chars.getD k 0#8

/-! ## `dirlookup` and `dirlink` -/

inductive Panic where
  | dirlinkRead
  | dirlink
  | unlinkWritei
  deriving DecidableEq, Repr

/-- `de` after `readi(dp, &de, off, sizeof(de))`. -/
def readDirent (dp : Contents) (off : Nat) : Except Panic (Nat × (Nat -> Byte)) :=
  match dp.readi (BitVec.ofNat 32 off) direntSize with
  | none => .error .dirlinkRead
  | some bytes =>
    if bytes.length = direntSize then
      .ok ((bytes.getD 0 0#8).toNat + 256 * (bytes.getD 1 0#8).toNat, fun k => bytes.getD (k + 2) 0#8)
    else .error .dirlinkRead

/-- The loop of `dirlookup`: the inode number and the offset of the entry. -/
def dirlookupLoop (dp : Contents) (name : Nat -> Byte) : Nat -> Nat -> Except Panic (Option (Nat × Nat))
  | 0, _ => .ok none
  | more + 1, off =>
    if off < dp.size then do
      let de <- readDirent dp off
      if de.1 = 0 then dirlookupLoop dp name more (off + direntSize)
      else if namecmp name de.2 = 0 then .ok (some (de.1, off))
      else dirlookupLoop dp name more (off + direntSize)
    else .ok none

def dirlookup (dp : Contents) (name : Nat -> Byte) : Except Panic (Option (Nat × Nat)) :=
  dirlookupLoop dp name (dp.size / direntSize) 0

/-- The loop of `dirlink`, which ends at an empty slot or at the end of the directory. -/
def emptyLoop (dp : Contents) : Nat -> Nat -> Except Panic Nat
  | 0, off => .ok off
  | more + 1, off =>
    if off < dp.size then do
      let de <- readDirent dp off
      if de.1 = 0 then .ok off else emptyLoop dp more (off + direntSize)
    else .ok off

/-- The bytes of a `struct dirent`; `de.inum` is a `ushort`. -/
def encode (inum : Nat) (name : Nat -> Byte) : List Byte :=
  BitVec.ofNat 8 inum :: BitVec.ofNat 8 (inum / 256) :: strncpy DIRSIZ name

/-- The directory after `dirlink`; `none` when it returns -1. -/
def dirlink (dp : Contents) (name : Nat -> Byte) (inum : Nat) : Except Panic (Option Contents) := do
  match <- dirlookup dp name with
  | some _ => .ok none
  | none => do
      let off <- emptyLoop dp (dp.size / direntSize) 0
      match dp.writei (encode inum name) (BitVec.ofNat 32 off) with
      | none => .error .dirlink
      | some after => .ok (some after)

/-- The part of `sys_unlink` that reads and writes the directory; `none` when the call returns -1.
`allowed` says that what the entry names is not a directory with entries of its own. -/
def unlink (dp : Contents) (name : Nat -> Byte) (allowed : Bool) : Except Panic (Option Contents) :=
  if namecmp name (literal dot) = 0 ∨ namecmp name (literal dotdot) = 0 then .ok none
  else do
    match <- dirlookup dp name with
    | none => .ok none
    | some (_, off) =>
      if allowed = false then .ok none
      else
        match dp.writei (List.replicate direntSize 0#8) (BitVec.ofNat 32 off) with
        | none => .error .unlinkWritei
        | some after => .ok (some after)

/-! ## Names -/

/-- The name in a field. -/
def nameOf (field : Nat -> Byte) : Name := text 0#8 DIRSIZ field

theorem nameOf_congr {field other : Nat -> Byte} (same : ∀ k, k < DIRSIZ -> field k = other k) :
    nameOf field = nameOf other :=
  Text.congr DIRSIZ same

theorem strncmp_eq_zero (n : Nat) :
    ∀ {p q : Nat -> Byte}, strncmp n p q = 0 <-> text 0#8 n p = text 0#8 n q := by
  induction n with
  | zero => exact ⟨fun _ => rfl, fun _ => rfl⟩
  | succ n ih =>
    intro p q
    rw [strncmp, text, text]
    by_cases same : p 0 ≠ 0#8 /\ p 0 = q 0
    · have used : q 0 ≠ 0#8 := same.2 ▸ same.1
      rw [if_pos same, if_neg same.1, if_neg used, same.2, ih, List.cons_inj_right]
    · rw [if_neg same]
      have equal : (((p 0).toNat : Int) - (q 0).toNat = 0) <-> p 0 = q 0 := by
        rw [Int.sub_eq_zero, Int.ofNat_inj, BitVec.toNat_inj]
      rw [equal]
      by_cases none : p 0 = 0#8
      · by_cases other : q 0 = 0#8
        · rw [if_pos none, if_pos other, none, other]
          exact ⟨fun _ => rfl, fun _ => rfl⟩
        · rw [if_pos none, if_neg other, none]
          exact ⟨fun wrong => absurd wrong.symm other, (by rintro ⟨⟩)⟩
      · constructor
        · exact fun wrong => absurd ⟨none, wrong⟩ same
        · intro wrong
          rw [if_neg none] at wrong
          split at wrong
          next => cases wrong
          next => exact absurd ⟨none, (List.cons.inj wrong).1⟩ same

theorem namecmp_eq_zero {s t : Nat -> Byte} : namecmp s t = 0 <-> nameOf s = nameOf t :=
  strncmp_eq_zero DIRSIZ

theorem strncpy_length (n : Nat) : ∀ (t : Nat -> Byte), (strncpy n t).length = n := by
  induction n with
  | zero => exact fun _ => rfl
  | succ n ih =>
    intro t
    rw [strncpy]
    split
    next => rw [List.length_replicate]
    next => rw [List.length_cons, ih]

theorem text_strncpy (n : Nat) :
    ∀ (t : Nat -> Byte), text 0#8 n (fun k => (strncpy n t).getD k 0#8) = text 0#8 n t := by
  induction n with
  | zero => exact fun _ => rfl
  | succ n ih =>
    intro t
    rw [strncpy, text, text]
    by_cases ends : t 0 = 0#8
    · rw [if_pos ends, if_pos ends]
      exact if_pos rfl
    · rw [if_neg ends, if_neg ends]
      change (if t 0 = 0#8 then [] else t 0 :: text 0#8 n fun k =>
        (strncpy n fun k => t (k + 1)).getD k 0#8) = _
      rw [if_neg ends, ih]

theorem nameOf_strncpy (name : Nat -> Byte) :
    nameOf (fun k => (strncpy DIRSIZ name).getD k 0#8) = nameOf name :=
  text_strncpy DIRSIZ name

theorem nameOf_literal {chars : List Byte} (short : chars.length <= DIRSIZ)
    (nonzero : ∀ b, b ∈ chars -> b ≠ 0#8) : nameOf (literal chars) = chars := by
  apply Text.eq_of_starts chars short _ nonzero
  · intro _
    unfold literal
    rw [List.getD_eq_default _ _ (Nat.le_refl _)]
  · intro k below
    unfold literal
    rw [List.getD_eq_getElem _ _ below, List.getElem?_eq_getElem below]

variable {path src : List Byte} {k inum : Nat} {list : List Dirent} {dir : Contents}

/-- The field has the element's first `DIRSIZ` bytes. -/
theorem nameOf_skipelem {before name : Nat -> Byte} (found : skipelem path before = some name) :
    nameOf name = (element path).take DIRSIZ := by
  have nonzero : ∀ b, b ∈ element path -> b ≠ 0#8 := by
    intro b listed
    have kept := List.mem_takeWhile_imp listed
    exact (of_decide_eq_true kept).2
  unfold skipelem at found
  dsimp only at found
  split at found
  next => cases found
  next =>
    split at found
    next long =>
      cases found
      have length : ((element path).take DIRSIZ).length = DIRSIZ := by
        rw [List.length_take]
        exact Nat.min_eq_left long
      apply Text.eq_of_starts _ (Nat.le_of_eq length)
      · intro k below
        rw [length] at below
        rw [if_pos below, List.getElem?_take_of_lt below,
          List.getD_eq_getElem _ _ (Nat.lt_of_lt_of_le below long), List.getElem?_eq_getElem]
      · exact fun b listed => nonzero b (List.mem_of_mem_take listed)
      · intro short
        rw [length] at short
        exact absurd short (Nat.lt_irrefl _)
    next short =>
      cases found
      rw [List.take_of_length_le (Nat.le_of_lt (Nat.lt_of_not_le short))]
      apply Text.eq_of_starts _ (Nat.le_of_lt (Nat.lt_of_not_le short)) _ nonzero
      · intro _
        rw [if_neg (Nat.lt_irrefl _), if_pos rfl]
      · intro k below
        rw [if_pos below, List.getD_eq_getElem _ _ below, List.getElem?_eq_getElem below]

/-! ## Slots -/

/-- The entry at an offset. -/
def direntAt (dir : Contents) (off : Nat) : Dirent where
  inum := (byteAt dir.data off).toNat + 256 * (byteAt dir.data (off + 1)).toNat
  name := nameOf fun k => byteAt dir.data (off + (k + 2))

/-- The entries of a directory, used or not. -/
def slots (dir : Contents) : List Dirent :=
  (List.range (dir.size / direntSize)).map fun k => direntAt dir (k * direntSize)

/-- The size is that of whole entries, and no more than a file can have. -/
structure Aligned (dir : Contents) : Prop where
  whole : dir.size % direntSize = 0
  fits : dir.size <= MAXFILE * BSIZE

theorem slots_length (dir : Contents) : (slots dir).length = dir.size / direntSize := by
  unfold slots
  rw [List.length_map, List.length_range]

theorem slots_getElem (dir : Contents) (below : k < (slots dir).length) :
    (slots dir)[k] = direntAt dir (k * direntSize) := by
  simp only [slots, List.getElem_map, List.getElem_range]

/-- `readi` reads the entry. -/
theorem readDirent_eq (aligned : Aligned dir) (below : k < (slots dir).length) :
    ∃ name, readDirent dir (k * direntSize) = .ok ((direntAt dir (k * direntSize)).inum, name) /\
      nameOf name = (direntAt dir (k * direntSize)).name := by
  have fits := aligned.fits
  have inside : k * direntSize + direntSize <= dir.size := by
    rw [slots_length] at below
    unfold direntSize at below ⊢
    omega
  have small : MAXFILE * BSIZE < 2 ^ 32 := by decide
  have off : (BitVec.ofNat 32 (k * direntSize)).toNat = k * direntSize := by
    rw [BitVec.toNat_ofNat]
    unfold direntSize at inside ⊢
    omega
  refine ⟨fun j => ((List.range direntSize).map fun j => byteAt dir.data (k * direntSize + j)).getD
    (j + 2) 0#8, ?_, ?_⟩
  · unfold readDirent
    rw [Contents.readi_inside (by rw [off]; exact inside) (by omega), off]
    dsimp only
    rw [if_pos (by rw [List.length_map, List.length_range])]
    rfl
  · unfold direntAt
    dsimp only
    apply nameOf_congr
    intro j below
    have listed : j + 2 < ((List.range direntSize).map fun j =>
        byteAt dir.data (k * direntSize + j)).length := by
      rw [List.length_map, List.length_range]
      unfold DIRSIZ at below
      unfold direntSize
      omega
    rw [List.getD_eq_getElem _ _ listed, List.getElem_map, List.getElem_range]

/-- The inode number and the offset of the first used slot with the name, from slot `k` on. -/
def locate (name : Name) : List Dirent -> Nat -> Option (Nat × Nat)
  | [], _ => none
  | de :: rest, k =>
    if de.inum ≠ 0 /\ de.name = name then some (de.inum, k * direntSize) else locate name rest (k + 1)

/-- The first free slot from slot `k` on, or the number after the last. -/
def vacant : List Dirent -> Nat -> Nat
  | [], k => k
  | de :: rest, k => if de.inum = 0 then k else vacant rest (k + 1)

theorem drop_slots (below : k < (slots dir).length) :
    (slots dir).drop k = direntAt dir (k * direntSize) :: (slots dir).drop (k + 1) := by
  rw [List.drop_eq_getElem_cons below, slots_getElem]

section

variable (aligned : Aligned dir)

include aligned

/-- The test `off < dp->size` -/
theorem off_lt_size (k : Nat) : k * direntSize < dir.size <-> k < (slots dir).length := by
  have whole := aligned.whole
  rw [slots_length]
  unfold direntSize at whole ⊢
  omega

theorem dirlookupLoop_eq (name : Nat -> Byte) (more : Nat) :
    ∀ k, (slots dir).length <= k + more ->
      dirlookupLoop dir name more (k * direntSize) =
        .ok (locate (nameOf name) ((slots dir).drop k) k) := by
  induction more with
  | zero =>
    intro k enough
    rw [List.drop_eq_nil_of_le (Nat.le_trans enough (Nat.le_of_eq (Nat.add_zero k)))]
    rfl
  | succ more ih =>
    intro k enough
    rw [dirlookupLoop]
    by_cases below : k < (slots dir).length
    · rw [if_pos ((off_lt_size aligned k).mpr below), drop_slots below, locate]
      rcases readDirent_eq aligned below with ⟨field, read, sameName⟩
      have next := ih (k + 1) (by omega)
      rw [Nat.add_mul, Nat.one_mul] at next
      rw [read]
      change (if (direntAt dir (k * direntSize)).inum = 0 then _ else _) = _
      by_cases free : (direntAt dir (k * direntSize)).inum = 0
      · rw [if_pos free, if_neg (fun used => used.1 free), next]
      · rw [if_neg free]
        by_cases same : nameOf name = (direntAt dir (k * direntSize)).name
        · rw [if_pos (namecmp_eq_zero.mpr (same.trans sameName.symm)), if_pos ⟨free, same.symm⟩]
        · rw [if_neg (fun equal => same ((namecmp_eq_zero.mp equal).trans sameName)),
            if_neg (fun used => same used.2.symm), next]
    · rw [if_neg (fun lt => below ((off_lt_size aligned k).mp lt)),
        List.drop_eq_nil_of_le (Nat.le_of_not_lt below)]
      rfl

theorem dirlookup_eq (name : Nat -> Byte) :
    dirlookup dir name = .ok (locate (nameOf name) (slots dir) 0) := by
  have loop := dirlookupLoop_eq aligned name (dir.size / direntSize) 0 (by rw [slots_length]; omega)
  rw [Nat.zero_mul, List.drop_zero] at loop
  exact loop

theorem emptyLoop_eq (more : Nat) :
    ∀ k, k <= (slots dir).length -> (slots dir).length <= k + more ->
      emptyLoop dir more (k * direntSize) = .ok (vacant ((slots dir).drop k) k * direntSize) := by
  induction more with
  | zero =>
    intro k _ enough
    rw [List.drop_eq_nil_of_le (Nat.le_trans enough (Nat.le_of_eq (Nat.add_zero k)))]
    rfl
  | succ more ih =>
    intro k start enough
    rw [emptyLoop]
    by_cases below : k < (slots dir).length
    · rw [if_pos ((off_lt_size aligned k).mpr below), drop_slots below, vacant]
      rcases readDirent_eq aligned below with ⟨field, read, _⟩
      have next := ih (k + 1) below (by omega)
      rw [Nat.add_mul, Nat.one_mul] at next
      rw [read]
      change (if (direntAt dir (k * direntSize)).inum = 0 then _ else _) = _
      by_cases free : (direntAt dir (k * direntSize)).inum = 0
      · rw [if_pos free, if_pos free]
      · rw [if_neg free, if_neg free, next]
    · rw [if_neg (fun lt => below ((off_lt_size aligned k).mp lt)),
        List.drop_eq_nil_of_le (Nat.le_of_not_lt below)]
      rfl

end

/-! ## The two views of a slot list -/

/-- A slot is overwritten, or one is added at the end. -/
def put (list : List Dirent) (k : Nat) (de : Dirent) : List Dirent :=
  if k < list.length then list.set k de else list ++ [de]

theorem locate_fst (name : Name) (list : List Dirent) : ∀ k,
    (locate name list k).map Prod.fst = Fs.dirlookup name list := by
  induction list with
  | nil => exact fun _ => rfl
  | cons de rest ih =>
    intro k
    rw [locate, Fs.dirlookup]
    split
    next => rfl
    next => exact ih (k + 1)

theorem erase_locate {name : Name} {off : Nat} (list : List Dirent) : ∀ {k : Nat},
    locate name list k = some (inum, off) -> ∃ j,
      off = (k + j) * direntSize /\ j < list.length /\ erase name list = list.set j ⟨0, []⟩ := by
  induction list with
  | nil => exact fun found => nomatch found
  | cons de rest ih =>
    intro k found
    rw [locate] at found
    rw [erase]
    split at found
    next here =>
      cases found
      rw [if_pos here]
      exact ⟨0, rfl, Nat.succ_pos _, rfl⟩
    next other =>
      rcases ih found with ⟨j, place, below, same⟩
      rw [if_neg other, same]
      refine ⟨j + 1, ?_, Nat.succ_lt_succ below, rfl⟩
      rw [place]
      congr 1
      omega

theorem fill_vacant (de : Dirent) (list : List Dirent) : ∀ k, ∃ j,
    vacant list k = k + j /\ j <= list.length /\ fill de list = put list j de := by
  induction list with
  | nil => exact fun k => ⟨0, rfl, Nat.le_refl _, rfl⟩
  | cons slot rest ih =>
    intro k
    rw [vacant, fill]
    split
    next => exact ⟨0, rfl, Nat.zero_le _, rfl⟩
    next =>
      rcases ih (k + 1) with ⟨j, place, below, same⟩
      refine ⟨j + 1, by omega, Nat.succ_le_succ below, ?_⟩
      rw [same]
      unfold put
      rw [List.length_cons]
      by_cases inside : j < rest.length
      · rw [if_pos inside, if_pos (Nat.succ_lt_succ inside)]
        rfl
      · rw [if_neg inside, if_neg (by omega)]
        rfl

/-! ## Writing a slot -/

def decode (src : List Byte) : Dirent where
  inum := (src.getD 0 0#8).toNat + 256 * (src.getD 1 0#8).toNat
  name := nameOf fun k => src.getD (k + 2) 0#8

theorem decode_encode (fits : inum < 2 ^ 16) (name : Nat -> Byte) :
    decode (encode inum name) = ⟨inum, nameOf name⟩ := by
  unfold decode encode
  congr 1
  · change (BitVec.ofNat 8 inum).toNat + 256 * (BitVec.ofNat 8 (inum / 256)).toNat = inum
    rw [BitVec.toNat_ofNat, BitVec.toNat_ofNat]
    omega
  · exact nameOf_strncpy name

theorem decode_zeros : decode (List.replicate direntSize 0#8) = ⟨0, []⟩ := by decide

theorem direntAt_writei {dir after : Contents} {off : BitVec 32} (length : src.length = direntSize)
    (done : dir.writei src off = some after) (place : off.toNat = k * direntSize) (j : Nat) :
    direntAt after (j * direntSize) =
      if j = k then decode src else direntAt dir (j * direntSize) := by
  rcases Contents.writei_some (by rw [length]; decide) done with ⟨_, _, bytes⟩
  rw [place, length] at bytes
  unfold direntSize at bytes ⊢
  by_cases here : j = k
  · rw [if_pos here, here]
    unfold direntAt decode
    congr 1
    · rw [bytes, bytes, if_pos (by omega), if_pos (by omega)]
      congr 4 <;> omega
    · refine nameOf_congr fun i below => ?_
      unfold DIRSIZ at below
      rw [bytes, if_pos (by omega)]
      congr 1
      omega
  · rw [if_neg here]
    unfold direntAt
    congr 1
    · rw [bytes, bytes, if_neg (by omega), if_neg (by omega)]
    · refine nameOf_congr fun i below => ?_
      unfold DIRSIZ at below
      rw [bytes, if_neg (by omega)]

theorem slots_writei {dir after : Contents} (aligned : Aligned dir) {off : BitVec 32}
    (length : src.length = direntSize) (done : dir.writei src off = some after)
    (place : off.toNat = k * direntSize) (inside : k <= (slots dir).length) :
    Aligned after /\ slots after = put (slots dir) k (decode src) := by
  rcases Contents.writei_some (by rw [length]; decide) done with ⟨limit, size, _⟩
  have entry := direntAt_writei length done place
  rcases aligned with ⟨whole, fits⟩
  rw [place, length] at limit size
  have number := slots_length dir
  have numberAfter := slots_length after
  constructor
  · constructor
    · unfold direntSize at *
      omega
    · omega
  · unfold put
    by_cases old : k < (slots dir).length
    · rw [if_pos old]
      apply List.ext_getElem
      · rw [List.length_set, number, numberAfter]
        unfold direntSize at *
        omega
      · intro j below _
        rw [slots_getElem, entry, List.getElem_set]
        by_cases here : k = j
        · rw [if_pos here, if_pos here.symm]
        · rw [if_neg here, if_neg (Ne.symm here), slots_getElem]
    · rw [if_neg old]
      have last : k = (slots dir).length := Nat.le_antisymm inside (Nat.le_of_not_lt old)
      apply List.ext_getElem
      · rw [List.length_append, List.length_singleton, number, numberAfter]
        unfold direntSize at *
        omega
      · intro j below within
        rw [slots_getElem, entry]
        by_cases here : j = k
        · rw [if_pos here, List.getElem_append_right (by omega), List.getElem_singleton]
        · rw [List.length_append, List.length_singleton] at within
          rw [if_neg here, List.getElem_append_left (by omega), slots_getElem]

/-! ## One section -/

/-- There is a free slot, or room for one more. -/
def Room (dir : Contents) : Prop :=
  (∃ de, de ∈ slots dir /\ de.inum = 0) ∨ dir.size + direntSize <= MAXFILE * BSIZE

theorem vacant_lt : ∀ {k : Nat}, (∃ de, de ∈ list /\ de.inum = 0) ->
    vacant list k < k + list.length := by
  induction list with
  | nil => exact fun free => nomatch free
  | cons slot rest ih =>
    intro k free
    rcases free with ⟨de, listed, zero⟩
    rw [vacant, List.length_cons]
    split
    next => omega
    next used =>
      cases listed with
      | head => exact absurd zero used
      | tail _ later =>
        have below := ih (k := k + 1) ⟨de, later, zero⟩
        omega

theorem namecmp_dots (name : Nat -> Byte) :
    (namecmp name (literal dot) = 0 ∨ namecmp name (literal dotdot) = 0) <->
      (nameOf name = dot ∨ nameOf name = dotdot) := by
  rw [namecmp_eq_zero, namecmp_eq_zero, nameOf_literal (by decide) (by decide),
    nameOf_literal (by decide) (by decide)]

section

variable (aligned : Aligned dir) {name : Nat -> Byte} {allowed : Bool}

include aligned

theorem toNat_off (inside : k <= (slots dir).length) :
    (BitVec.ofNat 32 (k * direntSize)).toNat = k * direntSize := by
  have fits := aligned.fits
  have small : MAXFILE * BSIZE < 2 ^ 32 := by decide
  rw [slots_length] at inside
  rw [BitVec.toNat_ofNat]
  unfold direntSize at inside ⊢
  omega

/-- A write of one slot succeeds. -/
theorem writei_slot (length : src.length = direntSize) (inside : k <= (slots dir).length)
    (room : k < (slots dir).length ∨ dir.size + direntSize <= MAXFILE * BSIZE) : ∃ after,
      dir.writei src (BitVec.ofNat 32 (k * direntSize)) = some after /\ Aligned after /\
        slots after = put (slots dir) k (decode src) := by
  have off := toNat_off aligned inside
  have fits := aligned.fits
  have number := slots_length dir
  have start : k * direntSize <= dir.size := by
    unfold direntSize at *
    omega
  have ends : k * direntSize + direntSize <= MAXFILE * BSIZE := by
    unfold direntSize at *
    omega
  have written : ∃ after, dir.writei src (BitVec.ofNat 32 (k * direntSize)) = some after :=
    Contents.writei_inside (by rw [off]; exact start) (by rw [off, length]; exact ends)
  rcases written with ⟨after, done⟩
  exact ⟨after, done, slots_writei aligned length done off inside⟩

theorem dirlink_present (present : Fs.dirlookup (nameOf name) (slots dir) ≠ none) :
    dirlink dir name inum = .ok none := by
  unfold dirlink
  rw [dirlookup_eq aligned]
  rw [<- locate_fst _ _ 0] at present
  cases found : locate (nameOf name) (slots dir) 0 with
  | none =>
    rw [found] at present
    exact absurd rfl present
  | some place => rfl

theorem dirlink_absent (absent : Fs.dirlookup (nameOf name) (slots dir) = none) (room : Room dir)
    (fits : inum < 2 ^ 16) :
    ∃ after, dirlink dir name inum = .ok (some after) /\ Aligned after /\
      slots after = fill ⟨inum, nameOf name⟩ (slots dir) := by
  have nowhere : locate (nameOf name) (slots dir) 0 = none := by
    rw [<- locate_fst _ _ 0] at absent
    exact Option.map_eq_none_iff.mp absent
  have loop := emptyLoop_eq aligned (dir.size / direntSize) 0 (Nat.zero_le _)
      (by rw [slots_length]; omega)
  rw [Nat.zero_mul, List.drop_zero] at loop
  rcases fill_vacant ⟨inum, nameOf name⟩ (slots dir) 0 with ⟨k, place, inside, same⟩
  rw [Nat.zero_add] at place
  have roomAt : k < (slots dir).length ∨ dir.size + direntSize <= MAXFILE * BSIZE := by
    apply room.imp_left
    intro free
    have below := vacant_lt (k := 0) free
    omega
  have length : (encode inum name).length = direntSize := by
    unfold encode
    rw [List.length_cons, List.length_cons, strncpy_length]
    rfl
  rcases writei_slot aligned length inside roomAt with ⟨after, done, alignedAfter, slotsAfter⟩
  refine ⟨after, ?_, alignedAfter, ?_⟩
  · unfold dirlink
    rw [dirlookup_eq aligned, nowhere, loop, place]
    dsimp only [bind, Except.bind]
    rw [done]
  · rw [slotsAfter, decode_encode fits, same]

/-- `.` and `..` as constants. -/
theorem unlink_refused
    (refused : (nameOf name = dot ∨ nameOf name = dotdot) ∨
      Fs.dirlookup (nameOf name) (slots dir) = none ∨ allowed = false) :
    unlink dir name allowed = .ok none := by
  unfold unlink
  by_cases dots : nameOf name = dot ∨ nameOf name = dotdot
  · rw [if_pos ((namecmp_dots name).mpr dots)]
  · rw [if_neg (fun equal => dots ((namecmp_dots name).mp equal)), dirlookup_eq aligned]
    cases found : locate (nameOf name) (slots dir) 0 with
    | none => rfl
    | some place =>
      rcases place with ⟨inum, off⟩
      dsimp only [bind, Except.bind]
      rcases refused with isDot | absent | no
      · exact absurd isDot dots
      · rw [<- locate_fst _ _ 0, found] at absent
        cases absent
      · rw [if_pos no]

theorem unlink_done (notDots : ¬ (nameOf name = dot ∨ nameOf name = dotdot))
    (present : Fs.dirlookup (nameOf name) (slots dir) ≠ none) :
    ∃ after, unlink dir name true = .ok (some after) /\ Aligned after /\
      slots after = erase (nameOf name) (slots dir) := by
  rw [<- locate_fst _ _ 0] at present
  cases found : locate (nameOf name) (slots dir) 0 with
  | none =>
    rw [found] at present
    exact absurd rfl present
  | some place =>
    rcases place with ⟨inum, off⟩
    rcases erase_locate (slots dir) found with ⟨k, offset, below, same⟩
    rw [Nat.zero_add] at offset
    have length : (List.replicate direntSize 0#8).length = direntSize := List.length_replicate
    rcases writei_slot aligned length (Nat.le_of_lt below)
      (.inl below) with ⟨after, done, alignedAfter, slotsAfter⟩
    refine ⟨after, ?_, alignedAfter, ?_⟩
    · unfold unlink
      rw [if_neg (fun equal => notDots ((namecmp_dots name).mp equal)), dirlookup_eq aligned, found]
      dsimp only [bind, Except.bind]
      rw [if_neg (by decide), offset, done]
    · rw [slotsAfter, decode_zeros, same, put, if_pos below]

end

/-! ## The map -/

/-- What a directory maps names to. -/
abbrev Binding := Name -> Option Nat

def found (dir : Contents) : Binding := fun name => Fs.dirlookup name (slots dir)

structure WellFormed (dir : Contents) : Prop where
  aligned : Aligned dir
  distinct : Distinct (slots dir)

theorem dirlookup_iff (distinct : Distinct list) {name : Name} {i : Nat} :
    Fs.dirlookup name list = some i <-> Entry list name i := by
  constructor
  · exact dirlookup_some
  · intro entry
    cases found : Fs.dirlookup name list with
    | none => exact absurd entry (dirlookup_none found i)
    | some j => rw [distinct.entry_unique (dirlookup_some found) entry]

theorem dirlookup_fill (distinct : Distinct list) {name : Name} {i : Nat} (used : i ≠ 0)
    (absent : Fs.dirlookup name list = none) (other : Name) :
    Fs.dirlookup other (fill ⟨i, name⟩ list) =
      update (fun n => Fs.dirlookup n list) name (some i) other := by
  have after : Distinct (fill ⟨i, name⟩ list) := distinct.fill (dirlookup_none absent)
  apply Option.ext
  intro j
  rw [dirlookup_iff after, entry_fill used]
  by_cases same : other = name
  · rw [same, update_self, Option.some_inj]
    constructor
    · rintro (entry | ⟨rfl, _⟩)
      · exact absurd entry (dirlookup_none absent j)
      · rfl
    · rintro rfl
      exact .inr ⟨rfl, rfl⟩
  · rw [update_of_ne same, dirlookup_iff distinct]
    constructor
    · rintro (entry | ⟨_, wrong⟩)
      · exact entry
      · exact absurd wrong same
    · exact .inl

theorem dirlookup_erase (distinct : Distinct list) (name other : Name) :
    Fs.dirlookup other (erase name list) =
      update (fun n => Fs.dirlookup n list) name none other := by
  apply Option.ext
  intro j
  rw [dirlookup_iff distinct.erase, entry_erase distinct]
  by_cases same : other = name
  · rw [same, update_self]
    exact ⟨fun wrong => absurd rfl wrong.2, nofun⟩
  · rw [update_of_ne same, dirlookup_iff distinct]
    exact ⟨fun entry => entry.1, fun entry => ⟨entry, same⟩⟩

namespace WellFormed

variable {dir after : Contents} (name : Nat -> Byte) {inum : Nat}

/-- `dirlink` fails on a name that is present, and binds one that is not. -/
theorem dirlink (sound : WellFormed dir) (room : Room dir) (used : inum ≠ 0)
    (fits : inum < 2 ^ 16) :
    (found dir (nameOf name) ≠ none /\ dirlink dir name inum = .ok none) ∨
      (found dir (nameOf name) = none /\ ∃ after,
        Dirents.dirlink dir name inum = .ok (some after) /\
        WellFormed after /\ found after = update (found dir) (nameOf name) (some inum)) := by
  by_cases absent : found dir (nameOf name) = none
  · rcases dirlink_absent sound.aligned absent room fits with ⟨after, done, aligned, same⟩
    refine .inr ⟨absent, after, done, ⟨aligned, ?_⟩, ?_⟩
    · rw [same]
      exact sound.distinct.fill (dirlookup_none absent)
    · funext other
      unfold found
      rw [same, dirlookup_fill sound.distinct used absent]
  · exact .inl ⟨absent, dirlink_present sound.aligned absent⟩

/-- `sys_unlink` fails, or the name is not bound any more. -/
theorem unlink (allowed : Bool) (sound : WellFormed dir) :
    (((nameOf name = dot ∨ nameOf name = dotdot) ∨ found dir (nameOf name) = none ∨
      allowed = false) /\ unlink dir name allowed = .ok none) ∨
    (¬ (nameOf name = dot ∨ nameOf name = dotdot) /\ allowed = true /\ ∃ after,
      Dirents.unlink dir name allowed = .ok (some after) /\ WellFormed after /\
        found after = update (found dir) (nameOf name) none) := by
  by_cases refused : (nameOf name = dot ∨ nameOf name = dotdot) ∨ found dir (nameOf name) = none ∨
    allowed = false
  · exact .inl ⟨refused, unlink_refused sound.aligned refused⟩
  · rcases not_or.mp refused with ⟨notDots, rest⟩
    rcases not_or.mp rest with ⟨present, yes⟩
    rcases unlink_done sound.aligned notDots present with ⟨after, done, aligned, same⟩
    have isTrue : allowed = true := (Bool.not_eq_false _).mp yes
    refine .inr ⟨notDots, isTrue, after, by rw [isTrue]; exact done, ⟨aligned, ?_⟩, ?_⟩
    · rw [same]
      exact sound.distinct.erase
    · funext other
      unfold found
      rw [same, dirlookup_erase sound.distinct]

end WellFormed

/-! ## Runs -/

/-- A number that an inode has, and that fits a `struct dirent`. -/
structure Inum where
  val : Nat
  used : val ≠ 0
  fits : val < 2 ^ 16

/-- A section that holds the lock of the directory.  The path is what is left for the last
`skipelem`, and `name` is the field before it. -/
inductive Label where
  /-- `create`; `inum` is what `ialloc` returns if it is called. -/
  | create (path : List Byte) (name : Nat -> Byte) (inum : Inum)
  | link (path : List Byte) (name : Nat -> Byte) (inum : Inum)
  | unlink (path : List Byte) (name : Nat -> Byte) (allowed : Bool)

/-- The directory that a call leaves, when it does not panic. -/
def left (dir : Contents) : Except Panic (Option Contents) -> Option Contents
  | .error _ => none
  | .ok none => some dir
  | .ok (some after) => some after

/-- The directory after `create`, which panics when `dirlink` fails. -/
def create (dir : Contents) (name : Nat -> Byte) (inum : Nat) : Option Contents :=
  match dirlookup dir name with
  | .error _ => none
  | .ok (some _) => some dir
  | .ok none =>
    match dirlink dir name inum with
    | .ok (some after) => some after
    | _ => none

def perform (dir : Contents) : Label -> Option Contents
  | .create path field inum =>
    match skipelem path field with
    | none => some dir
    | some name => create dir name inum.val
  | .link path field inum =>
    match skipelem path field with
    | none => some dir
    | some name => left dir (dirlink dir name inum.val)
  | .unlink path field allowed =>
    match skipelem path field with
    | none => some dir
    | some name => left dir (unlink dir name allowed)

def Step (dir : Contents) (label : Label) (after : Contents) : Prop :=
  perform dir label = some after

/-- The directory is not full when an entry may be added. -/
def NotFull (dir : Contents) : Label -> Prop
  | .unlink _ _ _ => True
  | _ => Room dir

/-- The name that a path ends in, cut off after `DIRSIZ` bytes. -/
def lastName (path : List Byte) : Option Name :=
  if element path = [] then none else some ((element path).take DIRSIZ)

def Binding.link (m : Binding) (path : List Byte) (inum : Nat) : Binding :=
  match lastName path with
  | none => m
  | some name => if m name = none then update m name (some inum) else m

def Binding.unlink (m : Binding) (path : List Byte) (allowed : Bool) : Binding :=
  match lastName path with
  | none => m
  | some name => if name = dot ∨ name = dotdot ∨ allowed = false then m else update m name none

/-- The map after a section. -/
def bound (m : Binding) : Label -> Binding
  | .create path _ inum => m.link path inum.val
  | .link path _ inum => m.link path inum.val
  | .unlink path _ allowed => m.unlink path allowed

theorem Binding.link_nothing {m : Binding} (nothing : lastName path = none) :
    m.link path inum = m := by
  unfold Binding.link
  rw [nothing]

theorem Binding.unlink_nothing {m : Binding} (nothing : lastName path = none) :
    m.unlink path allowed = m := by
  unfold Binding.unlink
  rw [nothing]

theorem skipelem_cases (path : List Byte) (field : Nat -> Byte) :
    (skipelem path field = none /\ lastName path = none) ∨ ∃ name,
      skipelem path field = some name /\ lastName path = some (nameOf name) := by
  unfold lastName
  cases result : skipelem path field with
  | none =>
    left
    unfold skipelem at result
    dsimp only at result
    split at result
    next nothing => exact ⟨rfl, if_pos nothing⟩
    next => split at result <;> cases result
  | some name =>
    right
    refine ⟨name, rfl, ?_⟩
    rw [nameOf_skipelem result]
    apply if_neg
    intro nothing
    unfold skipelem at result
    dsimp only at result
    rw [if_pos nothing] at result
    cases result

namespace WellFormed

variable {dir after : Contents}

/-- `create` looks the name up before `dirlink` does. -/
theorem create_eq (sound : WellFormed dir) (room : Room dir) (name : Nat -> Byte) (inum : Inum) :
    create dir name inum.val = left dir (Dirents.dirlink dir name inum.val) := by
  unfold create
  rw [dirlookup_eq sound.aligned]
  have lookup := locate_fst (nameOf name) (slots dir) 0
  rcases sound.dirlink name room inum.used inum.fits with ⟨present, fails⟩ | ⟨absent, next, done, _⟩
  · rw [fails]
    cases place : locate (nameOf name) (slots dir) 0 with
    | none =>
      rw [place] at lookup
      exact absurd lookup.symm present
    | some entry => rfl
  · rw [done]
    cases place : locate (nameOf name) (slots dir) 0 with
    | none => rfl
    | some entry =>
      rw [place] at lookup
      cases lookup.trans absent

theorem link_step (sound : WellFormed dir) (room : Room dir) {path : List Byte} {inum : Inum}
    {name : Nat -> Byte} (here : lastName path = some (nameOf name))
    (step : left dir (Dirents.dirlink dir name inum.val) = some after) :
    WellFormed after /\ found after = (found dir).link path inum.val := by
  unfold Binding.link
  rw [here]
  dsimp only
  rcases sound.dirlink name room inum.used inum.fits with ⟨present, fails⟩ | ⟨absent, next, done,
    soundNext, same⟩
  · rw [fails] at step
    cases step
    rw [if_neg present]
    exact ⟨sound, rfl⟩
  · rw [done] at step
    cases step
    rw [if_pos absent]
    exact ⟨soundNext, same⟩

theorem unlink_step (sound : WellFormed dir) {path : List Byte} {name : Nat -> Byte}
    (here : lastName path = some (nameOf name))
    (step : left dir (Dirents.unlink dir name allowed) = some after) :
    WellFormed after /\ found after = (found dir).unlink path allowed := by
  unfold Binding.unlink
  rw [here]
  dsimp only
  rcases sound.unlink name allowed with ⟨refused, fails⟩ | ⟨notDots, yes, next, done, soundNext, same⟩
  · rw [fails] at step
    cases step
    refine ⟨sound, ?_⟩
    split
    next => rfl
    next kept =>
      -- Nothing is bound to the name.
      rw [<- or_assoc] at kept
      have absent : found dir (nameOf name) = none := by tauto
      exact (update_eq_self_iff.mpr absent.symm).symm
  · rw [done] at step
    cases step
    rw [if_neg (by rw [<- or_assoc, yes]; tauto)]
    exact ⟨soundNext, same⟩

theorem step {label : Label} (sound : WellFormed dir) (notFull : NotFull dir label)
    (step : Step dir label after) : WellFormed after /\ found after = bound (found dir) label := by
  unfold Step perform at step
  cases label with
  | create path field inum =>
    dsimp only at step
    rcases skipelem_cases path field with ⟨nothing, noName⟩ | ⟨name, taken, here⟩
    · rw [nothing] at step
      cases step
      exact ⟨sound, (Binding.link_nothing noName).symm⟩
    · rw [taken] at step
      dsimp only at step
      rw [sound.create_eq notFull] at step
      exact sound.link_step notFull here step
  | link path field inum =>
    dsimp only at step
    rcases skipelem_cases path field with ⟨nothing, noName⟩ | ⟨name, taken, here⟩
    · rw [nothing] at step
      cases step
      exact ⟨sound, (Binding.link_nothing noName).symm⟩
    · rw [taken] at step
      exact sound.link_step notFull here step
  | unlink path field allowed =>
    dsimp only at step
    rcases skipelem_cases path field with ⟨nothing, noName⟩ | ⟨name, taken, here⟩
    · rw [nothing] at step
      cases step
      exact ⟨sound, (Binding.unlink_nothing noName).symm⟩
    · rw [taken] at step
      exact sound.unlink_step here step

theorem run {labels : List Label} (run : GuardedRun Step NotFull dir labels after)
    (sound : WellFormed dir) :
    WellFormed after /\ found after = labels.foldl bound (found dir) := by
  induction run with
  | nil => exact ⟨sound, rfl⟩
  | cons allowed taken _ ih =>
    rcases sound.step allowed taken with ⟨next, same⟩
    rw [List.foldl_cons, <- same]
    exact ih next

end WellFormed

/-- The name field of the entry at an offset. -/
def nameField (dir : Contents) (off : Nat) : Nat -> Byte := fun k => byteAt dir.data (off + (k + 2))

theorem namecmp_entries {dir : Contents} (distinct : Distinct (slots dir)) {j : Nat} (ne : j ≠ k)
    (first : j < (slots dir).length) (second : k < (slots dir).length)
    (firstUsed : (direntAt dir (j * direntSize)).inum ≠ 0)
    (secondUsed : (direntAt dir (k * direntSize)).inum ≠ 0) :
    namecmp (nameField dir (j * direntSize)) (nameField dir (k * direntSize)) ≠ 0 := by
  have apart : ∀ {j k : Nat} (first : j < (slots dir).length) (second : k < (slots dir).length), j < k ->
      (direntAt dir (j * direntSize)).inum ≠ 0 -> (direntAt dir (k * direntSize)).inum ≠ 0 ->
        (direntAt dir (j * direntSize)).name ≠ (direntAt dir (k * direntSize)).name := by
    intro j k first second order
    have pair := List.pairwise_iff_getElem.mp distinct j k first second order
    rw [slots_getElem, slots_getElem] at pair
    exact pair
  intro equal
  have same : (direntAt dir (j * direntSize)).name = (direntAt dir (k * direntSize)).name :=
    namecmp_eq_zero.mp equal
  rcases Nat.lt_or_gt_of_ne ne with before | behind
  · exact apart first second before firstUsed secondUsed same
  · exact apart second first behind secondUsed firstUsed same.symm

/-- The inode number that `dirlookup` returns. -/
def lookup (dir : Contents) (name : Nat -> Byte) : Except Panic (Option Nat) :=
  (dirlookup dir name).map fun entry => entry.map Prod.fst

theorem lookup_eq {dir : Contents} (aligned : Aligned dir) (name : Nat -> Byte) :
    lookup dir name = .ok (found dir (nameOf name)) := by
  unfold lookup found
  rw [dirlookup_eq aligned, <- locate_fst _ _ 0]
  rfl

/-- A directory is a finite map.  After any run of sections on a directory that is not full when an
entry may be added, used entries have different names; `dirlookup` finds what was linked last and
not unlinked since; `dirlink` fails exactly on the names that are present; and linking or unlinking
a name leaves what is found under the others. -/
theorem directory_map {first last : Contents} {labels : List Label} (sound : WellFormed first)
    (run : GuardedRun Step NotFull first labels last) :
    (∀ j k, j ≠ k -> j < last.size / direntSize -> k < last.size / direntSize ->
      (direntAt last (j * direntSize)).inum ≠ 0 -> (direntAt last (k * direntSize)).inum ≠ 0 ->
        namecmp (nameField last (j * direntSize)) (nameField last (k * direntSize)) ≠ 0) /\
    (∀ name, lookup last name = .ok (labels.foldl bound (found first) (nameOf name))) /\
    (∀ name (inum : Inum), Room last ->
      (dirlink last name inum.val = .ok none <->
        labels.foldl bound (found first) (nameOf name) ≠ none) /\
      ((∃ after, dirlink last name inum.val = .ok (some after)) <->
        labels.foldl bound (found first) (nameOf name) = none)) /\
    (∀ name (inum : Inum) after, Room last -> dirlink last name inum.val = .ok (some after) ->
      lookup after name = .ok (some inum.val) /\
        ∀ other, namecmp other name ≠ 0 -> lookup after other = lookup last other) /\
    (∀ name allowed after, unlink last name allowed = .ok (some after) ->
      lookup after name = .ok none /\
        ∀ other, namecmp other name ≠ 0 -> lookup after other = lookup last other) := by
  rcases sound.run run with ⟨soundLast, same⟩
  refine ⟨?_, ?_, ?_, ?_, ?_⟩
  · intro j k ne firstBelow secondBelow
    rw [<- slots_length] at firstBelow secondBelow
    exact namecmp_entries soundLast.distinct ne firstBelow secondBelow
  · intro name
    rw [lookup_eq soundLast.aligned, same]
  · intro name inum room
    rw [<- same]
    rcases soundLast.dirlink name room inum.used
      inum.fits with ⟨present, fails⟩ | ⟨absent, after, done, _⟩
    · rw [fails]
      exact ⟨⟨fun _ => present, fun _ => rfl⟩, ⟨nofun, fun absent => absurd absent present⟩⟩
    · rw [done]
      exact ⟨⟨nofun, fun present => absurd absent present⟩, ⟨fun _ => absent, fun _ => ⟨after, rfl⟩⟩⟩
  · intro name inum after room linked
    rcases soundLast.dirlink name room inum.used
      inum.fits with ⟨_, fails⟩ | ⟨_, next, done, soundNext, found⟩
    · rw [fails] at linked
      cases linked
    · rw [done] at linked
      cases linked
      constructor
      · rw [lookup_eq soundNext.aligned, found, update_self]
      · intro other ne
        rw [lookup_eq soundNext.aligned, lookup_eq soundLast.aligned, found, update_of_ne]
        exact fun equal => ne (namecmp_eq_zero.mpr equal)
  · intro name allowed after unlinked
    rcases soundLast.unlink name allowed with ⟨_, fails⟩ | ⟨_, _, next, done, soundNext, found⟩
    · rw [fails] at unlinked
      cases unlinked
    · rw [done] at unlinked
      cases unlinked
      constructor
      · rw [lookup_eq soundNext.aligned, found, update_self]
      · intro other ne
        rw [lookup_eq soundNext.aligned, lookup_eq soundLast.aligned, found, update_of_ne]
        exact fun equal => ne (namecmp_eq_zero.mpr equal)

/-- A directory that `create` has just allocated. -/
def newDirectory : Contents := ⟨fun _ _ => 0#8, 0⟩

/-- `mkdir` of directory 5 in directory 1, a file whose name has fifteen bytes, one whose name
differs from it in the last byte, and a link that takes the slot of an unlinked entry. -/
def someEntries : List Label :=
  [.link [46#8] (fun _ => 0#8) ⟨5, by decide, by decide⟩,
    .link [46#8, 46#8] (fun _ => 0#8) ⟨1, by decide, by decide⟩,
    .create [97#8] (fun _ => 0#8) ⟨7, by decide, by decide⟩,
    .create (List.replicate 15 98#8) (fun _ => 9#8) ⟨8, by decide, by decide⟩,
    .link (List.replicate 14 98#8 ++ [99#8]) (fun _ => 9#8) ⟨9, by decide, by decide⟩,
    .unlink [97#8] (fun _ => 9#8) true,
    .link [47#8, 100#8, 47#8] (fun _ => 9#8) ⟨9, by decide, by decide⟩]

theorem directory_map_someEntries : ∃ last,
    WellFormed newDirectory /\ GuardedRun Step NotFull newDirectory someEntries last /\
      lookup last (literal [100#8]) = .ok (some 9) /\ lookup last (literal [97#8]) = .ok none /\
      lookup last (literal (List.replicate 14 98#8)) = .ok (some 8) := by
  have sound : WellFormed newDirectory := ⟨⟨rfl, Nat.zero_le _⟩, List.Pairwise.nil⟩
  have outcome : (checked (fun dir _ => dir.size + direntSize <= MAXFILE * BSIZE) perform
      newDirectory someEntries).isSome = true := by
    decide +kernel
  rcases Option.isSome_iff_exists.mp outcome with ⟨last, reached⟩
  have run : GuardedRun Step NotFull newDirectory someEntries last := by
    apply (GuardedRun.of_checked reached).weaken
    intro dir label room
    cases label with
    | unlink path name allowed => trivial
    | _ => exact .inr room
  have results := (directory_map sound run).2.1
  refine ⟨last, sound, run, ?_, ?_, ?_⟩
  · rw [results]
    decide
  · rw [results]
    decide
  · rw [results]
    decide

end Xv6.Fs.Dirents
