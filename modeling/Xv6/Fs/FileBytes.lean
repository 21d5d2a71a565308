import Xv6.Fs.Sequential
import Xv6.Fs.Budget

namespace Xv6.Fs.FileBytes

open Library
open Inodes
open Xv6.Fs.Sequential (contents)

/-!
# `readi` and `writei` on the bytes of a file

A file is the list of its bytes.  `writei` replaces some of them, or appends, and `readi`
returns some.  The bytes of other files stay, since no block is in two files.

`writei` has two ways to stop: `balloc` panics when there is no free block, and
`log_write` when the transaction is too big.  A write of all that a file can
have is too big for the log.
-/

/-- The bytes of file `i`. -/
def fileBytes (s : Inodes.State) (i : Nat) : List Byte := (contents s.disk s.inode i).bytes

/-- An allocated inode that is no device and has no hole. -/
structure Whole (sb : Superblock) (s : Inodes.State) (i : Nat) : Prop where
  known : i < sb.ninodes
  type : (s.inode i).type ≠ 0#16
  notDevice : (s.inode i).type ≠ T_DEV
  covers : Covers s.disk s.inode i (s.inode i).size

namespace Whole

variable {sb : Superblock} {s : Inodes.State} {i : Nat}

theorem size_le (whole : Whole sb s i) : (s.inode i).size <= MAXFILE * BSIZE := by
  by_contra longer
  exact Nat.lt_irrefl _ (whole.covers MAXFILE (by omega)).1

theorem position (whole : Whole sb s i) {pos : Nat}
    (inside : pos < (s.inode i).size) : Position sb s i pos :=
  ⟨whole.known, whole.type, inside.trans_le whole.size_le⟩

theorem fileBytes_eq (whole : Whole sb s i) :
    fileBytes s i = (List.range (s.inode i).size).map (content s i) := by
  apply List.map_congr_left
  intro pos member
  have inside := List.mem_range.mp member
  have set := (whole.covers (pos / BSIZE) (Nat.lt_of_le_of_lt (Nat.div_mul_le_self pos BSIZE) inside)).2
  unfold content
  rw [if_neg set]
  rfl

theorem length_fileBytes (s : Inodes.State) (i : Nat) :
    (fileBytes s i).length = (s.inode i).size := by
  unfold fileBytes Contents.bytes
  rw [List.length_map, List.length_range]
  rfl

end Whole

/-- What a write leaves of a file system. -/
structure Replaced (sb : Superblock) (s t : Inodes.State) (i : Nat) (src : List Byte) (off : Nat) :
  Prop where
  recorded : Recorded sb t
  whole : Whole sb t i
  bytes : fileBytes t i = (fileBytes s i).take off ++ src ++ (fileBytes s i).drop (off + src.length)
  size : (t.inode i).size = max (s.inode i).size (off + src.length)
  others : ∀ j, j ≠ i -> Whole sb s j -> Whole sb t j /\ fileBytes t j = fileBytes s j

/-- A patch of a list that is given by its positions. -/
theorem map_range_patch {f g : Nat -> Byte} {m off : Nat} {src : List Byte} (start : off <= m)
    (patched : ∀ k, k < max m (off + src.length) ->
      f k = if off <= k /\ k < off + src.length then src.getD (k - off) 0#8 else g k) :
    (List.range (max m (off + src.length))).map f =
      ((List.range m).map g).take off ++ src ++ ((List.range m).map g).drop (off + src.length) := by
  have before : (((List.range m).map g).take off).length = off := by
    rw [List.length_take, List.length_map, List.length_range, Nat.min_eq_left start]
  apply List.ext_getElem
  · rw [List.length_append, List.length_append, before, List.length_drop, List.length_map,
      List.length_map, List.length_range, List.length_range]
    omega
  · intro k one two
    rw [List.length_map, List.length_range] at one
    rw [List.getElem_map, List.getElem_range, patched k one]
    by_cases early : k < off
    · rw [if_neg (by omega), List.getElem_append_left (by rw [List.length_append, before]; omega),
        List.getElem_append_left (by rw [before]; exact early), List.getElem_take, List.getElem_map,
          List.getElem_range]
    · by_cases middle : k < off + src.length
      · rw [if_pos ⟨by omega, middle⟩,
          List.getElem_append_left (by rw [List.length_append, before]; exact middle),
          List.getElem_append_right (by rw [before]; omega), List.getD_eq_getElem _ _ (by omega)]
        congr 1
        omega
      · rw [if_neg (by omega), List.getElem_append_right (by rw [List.length_append, before]; omega),
          List.getElem_drop, List.getElem_map, List.getElem_range]
        congr 1
        rw [List.length_append, before]
        omega

section Write

variable {sb : Superblock} {s u : Inodes.State} {i off : Nat} {src : List Byte} {new : List Nat}
  (whole : Whole sb s i) (start : off <= (s.inode i).size) (fits : off + src.length <= MAXFILE * BSIZE)
  (wrote : Wrote sb i (fun j => src.getD j 0#8) off src.length new s u)

include wrote

theorem size_grown : ((grown i (s.inode i).size (off + src.length) u).inode i).size =
    max (s.inode i).size (off + src.length) := by
  unfold grown
  split
  next longer =>
    change (Function.update u.inode i _ i).size = _
    rw [Function.update_self, Nat.max_eq_right (Nat.le_of_lt longer)]
  next same => rw [wrote.extends_.size, Nat.max_eq_left (Nat.not_lt.mp same)]

theorem type_grown (j : Nat) :
    ((grown i (s.inode i).size (off + src.length) u).inode j).type = (s.inode j).type := by
  unfold grown
  split
  · rw [type_stored, wrote.extends_.type]
  · rw [wrote.extends_.type]

theorem others_grown {j : Nat} (other : j ≠ i) :
    (grown i (s.inode i).size (off + src.length) u).inode j = s.inode j := by
  unfold grown
  split
  · exact (Function.update_of_ne other _ _).trans (wrote.extends_.others j other)
  · exact wrote.extends_.others j other

include whole

theorem addr_grown {p : Nat × Nat} (slot : Slot sb s.inode p) :
    addr (grown i (s.inode i).size (off + src.length) u).disk
      (grown i (s.inode i).size (off + src.length) u).inode p =
      addr u.disk u.inode p := by
  unfold grown
  split
  · exact addr_stored wrote.recorded whole.known _ ((wrote.extends_.slot p).mpr slot)
  · rfl

theorem content_grown {j pos : Nat} (position : Position sb s j pos) :
    content (grown i (s.inode i).size (off + src.length) u) j pos =
      if j = i /\ off <= pos /\ pos < off + src.length then src.getD (pos - off) 0#8
      else content s j pos := by
  have after : content (grown i (s.inode i).size (off + src.length) u) j pos = content u j pos := by
    unfold grown
    split
    · exact content_stored wrote.recorded whole.known _ (position.extends_ wrote.extends_)
    · rfl
  rw [after, wrote.content j pos position]

theorem recorded_grown : Recorded sb (grown i (s.inode i).size (off + src.length) u) := by
  unfold grown
  split
  · exact wrote.recorded.stored whole.known _
  · exact wrote.recorded

/-- Files without holes stay so. -/
theorem whole_other {j : Nat} (other : j ≠ i) (before : Whole sb s j) :
    Whole sb (grown i (s.inode i).size (off + src.length) u) j where
  known := before.known
  type := by
    rw [type_grown wrote]
    exact before.type
  notDevice := by
    rw [type_grown wrote]
    exact before.notDevice
  covers := by
    intro bn inside
    rw [others_grown wrote other] at inside
    rcases before.covers bn inside with ⟨bound, set⟩
    have slot : Slot sb s.inode (j, slotOf bn) := ⟨before.known, before.type, (slotOf_lt bound).1⟩
    refine ⟨bound, ?_⟩
    rw [addr_grown whole wrote slot, wrote.extends_.kept _ slot set]
    exact set

include start fits

theorem whole_grown : Whole sb (grown i (s.inode i).size (off + src.length) u) i where
  known := whole.known
  type := by
    rw [type_grown wrote]
    exact whole.type
  notDevice := by
    rw [type_grown wrote]
    exact whole.notDevice
  covers := by
    intro bn inside
    rw [size_grown wrote] at inside
    by_cases old : bn * BSIZE < (s.inode i).size
    · rcases whole.covers bn old with ⟨bound, set⟩
      have slot : Slot sb s.inode (i, slotOf bn) := ⟨whole.known, whole.type, (slotOf_lt bound).1⟩
      refine ⟨bound, ?_⟩
      rw [addr_grown whole wrote slot, wrote.extends_.kept _ slot set]
      exact set
    · have member : bn ∈ blocksIn off src.length := by
        rw [mem_blocksIn]
        unfold BSIZE at old inside ⊢
        omega
      have bound := blocksIn_lt fits member
      refine ⟨bound, ?_⟩
      rw [addr_grown whole wrote ⟨whole.known, whole.type, (slotOf_lt bound).1⟩]
      exact wrote.placed bn member

theorem replaced : Replaced sb s (grown i (s.inode i).size (off + src.length) u) i src off where
  recorded := recorded_grown whole wrote
  whole := whole_grown whole start fits wrote
  size := size_grown wrote
  bytes := by
    have after := whole_grown whole start fits wrote
    rw [after.fileBytes_eq, whole.fileBytes_eq, size_grown wrote]
    apply map_range_patch start
    intro k inside
    have position : Position sb s i k :=
      ⟨whole.known, whole.type, inside.trans_le (Nat.max_le.mpr ⟨whole.size_le, fits⟩)⟩
    rw [content_grown whole wrote position]
    simp only [true_and]
  others := by
    intro j other before
    have after := whole_other whole wrote other before
    refine ⟨after, ?_⟩
    rw [after.fileBytes_eq, before.fileBytes_eq, others_grown wrote other]
    apply List.map_congr_left
    intro pos member
    rw [content_grown whole wrote (before.position (List.mem_range.mp member)),
      if_neg fun both => other both.1]

end Write

/-! ## Both functions -/

section Calls

variable {sb : Superblock} {s : Inodes.State} {i : Nat}

/-- A `writei` of `src` that returns. -/
theorem writei_replaces (recorded : Recorded sb s) (whole : Whole sb s i) {src : List Byte}
    {off : Nat} (start : off <= (s.inode i).size) (fits : off + src.length <= MAXFILE * BSIZE) :
    Ensures (writei i (fun j => src.getD j 0#8) off src.length) s
      (fun result t => result = some src.length /\ Replaced sb s t i src off)
      fun _ _ => ¬ Roomy sb s i off src.length := by
  apply (ensures_writei _ recorded ⟨whole.known, whole.type⟩ whole.notDevice start fits).mono
  · rintro result t ⟨returned, new, u, wrote, rfl, _⟩
    exact ⟨returned, replaced whole start fits wrote⟩
  · exact fun halt _ lacks roomy => roomy.not_lacks halt (lacks roomy.nodup)

/-- A `writei` that returns is the one of `Contents`, which leaves out the blocks of the disk. -/
theorem writei_contents (recorded : Recorded sb s) (whole : Whole sb s i) {src : List Byte}
    {off : BitVec 32} {t : Inodes.State} {after : Contents} {result : Option Nat}
    (short : src.length < 2 ^ 32) (done : (contents s.disk s.inode i).writei src off = some after)
    (run : writei i (fun j => src.getD j 0#8) off.toNat src.length s = .ok result t) :
    result = some src.length /\ fileBytes t i = after.bytes := by
  rcases Contents.writei_some short done with ⟨fits, size, patched⟩
  have start : off.toNat <= (s.inode i).size := by
    by_contra behind
    rw [Contents.writei, if_pos (.inl (Nat.lt_of_not_le behind))] at done
    cases done
  rcases (writei_replaces recorded whole start fits).of_ok run with ⟨returned, replaced⟩
  refine ⟨returned, replaced.bytes.trans ?_⟩
  rw [Contents.bytes, size]
  exact (map_range_patch start fun k _ => patched k).symm

theorem readi_reads (whole : Whole sb s i) {off : BitVec 32} {n : Nat}
    (start : off.toNat <= (s.inode i).size) (stays : off.toNat + n < 2 ^ 32) :
    Sequential.readi i off n s = some (some (((fileBytes s i).drop off.toNat).take n), s) := by
  rw [Sequential.readi_eq whole.covers whole.notDevice off n (by omega)]
  rcases Contents.toNat_add_length stays with ⟨notLess, sum⟩
  have size : (contents s.disk s.inode i).size = (s.inode i).size := rfl
  have whole' : ∀ m, off.toNat + m <= (s.inode i).size -> m = min n ((s.inode i).size - off.toNat) ->
      (List.range m).map (fun j => Contents.byteAt (contents s.disk s.inode i).data (off.toNat + j)) =
        ((fileBytes s i).drop off.toNat).take n := by
    intro m inside least
    apply List.ext_getElem
    · rw [List.length_map, List.length_range, List.length_take, List.length_drop,
        Whole.length_fileBytes, least]
    · intro k one two
      rw [List.getElem_map, List.getElem_range, List.getElem_take, List.getElem_drop]
      unfold fileBytes Contents.bytes
      rw [List.getElem_map, List.getElem_range]
  congr 2
  unfold Contents.readi
  rw [size, sum, if_neg (not_or.mpr ⟨Nat.not_lt.mpr start, notLess⟩)]
  by_cases long : (s.inode i).size < off.toNat + n
  · rw [if_pos long, Contents.readiLoop_eq _ _ _ _ (le_refl _), whole' _ (by omega) (by omega)]
  · rw [if_neg long, Contents.readiLoop_eq _ _ _ _ (le_refl _), whole' _ (by omega) (by omega)]

/-- `readi` and `writei` of a file are reads and writes of a byte array, as long as there are blocks
and room in the log.  Without them a `writei` that returns does the same. -/
theorem readi_writei_byte_array (recorded : Recorded sb s) (whole : Whole sb s i) :
    (∀ (src : List Byte) (off : Nat), off <= (s.inode i).size ->
      off + src.length <= MAXFILE * BSIZE ->
      (Roomy sb s i off src.length -> ∃ t,
        writei i (fun j => src.getD j 0#8) off src.length s = .ok (some src.length) t /\
        Replaced sb s t i src off) /\
      ∀ result t, writei i (fun j => src.getD j 0#8) off src.length s = .ok result t ->
        result = some src.length /\ Replaced sb s t i src off) /\
    (∀ (src : List Byte) (off : Nat),
      ¬ (off <= (s.inode i).size /\ off + src.length <= MAXFILE * BSIZE) ->
      writei i (fun j => src.getD j 0#8) off src.length s = .ok none s) /\
    ∀ (off : BitVec 32) (n : Nat), off.toNat <= (s.inode i).size -> off.toNat + n < 2 ^ 32 ->
      Sequential.readi i off n s = some (some (((fileBytes s i).drop off.toNat).take n), s) := by
  refine ⟨fun src off start fits => ?_, fun src off refused => ?_, fun off n => readi_reads whole⟩
  · have spec := writei_replaces recorded whole start fits
    refine ⟨fun roomy => ?_, fun result t run => spec.of_ok run⟩
    have total := spec.mono (fun _ _ done => done) fun _ _ lacks => lacks roomy
    rcases total.exists_ok with ⟨_, t, run, rfl, done⟩
    exact ⟨t, run, done⟩
  · apply writei_refused
    omega

end Calls

/-! ## A file that does not fit into the log -/

theorem newFile_whole : Whole mkfsSuperblock Budget.newFile 2 where
  known := by decide
  type := Budget.newFile_slot.2
  notDevice := show T_FILE ≠ T_DEV by decide
  covers bn inside := absurd inside (Nat.not_lt_zero _)

/-- Twenty-eight blocks are a fifth of what a file can have.  With their bitmap, indirect and inode
blocks they are more than a log of thirty blocks takes. -/
theorem writei_too_big : 0 <= (Budget.newFile.inode 2).size /\ 0 + 14336 <= MAXFILE * BSIZE /\
    Recorded mkfsSuperblock Budget.newFile /\ Whole mkfsSuperblock Budget.newFile 2 /\
      ∃ halt t, writei 2 (fun _ => 1#8) 0 14336 Budget.newFile = .error halt t := by
  refine ⟨Nat.zero_le _, by decide, Budget.newFile_recorded, newFile_whole, ?_⟩
  cases run : writei 2 (fun _ => 1#8) 0 14336 Budget.newFile with
  | error halt t => exact ⟨halt, t, rfl⟩
  | ok result t =>
    have fits : 0 + 14336 <= MAXFILE * BSIZE := by decide
    have spec := ensures_writei (fun _ => 1#8) Budget.newFile_recorded Budget.newFile_slot
      newFile_whole.notDevice (Nat.zero_le _) fits
    rcases spec.of_ok run with ⟨_, new, u, wrote, _, room⟩
    have length := (Budget.length_logged Budget.newFile_slot fits wrote rfl).1
    have blocks : (blocksIn 0 14336).card = 28 := by decide
    have entries : (Budget.entriesIn Budget.newFile 2 0 14336).Nonempty :=
      ⟨12, Finset.mem_filter.mpr ⟨mem_blocksIn.mpr (by decide), by decide, Budget.newFile_addr _⟩⟩
    rw [blocks, Budget.newFile_bitmaps (Budget.newFile_lacking (by decide)), if_pos entries] at length
    have small := room (show 0 < 0 + 14336 by decide)
    rw [length] at small
    exact absurd small (by decide)

/-- Two blocks are written to the new file, and read back. -/
theorem readi_writei_blocks : ∃ t,
    writei 2 (fun j => (List.replicate 600 7#8).getD j 0#8) 0 600 Budget.newFile =
      .ok (some 600) t /\
      Sequential.readi 2 0#32 600 t = some (some (List.replicate 600 7#8), t) := by
  have length : (List.replicate 600 7#8).length = 600 := List.length_replicate
  have write := (readi_writei_byte_array Budget.newFile_recorded newFile_whole).1
    (List.replicate 600 7#8) 0 (Nat.zero_le _) (by rw [length]; decide)
  rw [length] at write
  rcases write.1 (Budget.newFile_roomy (by decide)) with ⟨t, run, replaced⟩
  have read := (readi_writei_byte_array replaced.recorded replaced.whole).2.2 0#32 600
      (Nat.zero_le _) (by decide)
  refine ⟨t, run, read.trans ?_⟩
  have all : fileBytes t 2 = List.replicate 600 7#8 := by
    rw [replaced.bytes, List.take_zero, List.nil_append,
      List.drop_eq_nil_of_le (by rw [Whole.length_fileBytes]; exact Nat.zero_le _), List.append_nil]
  rw [all, show (0#32).toNat = 0 from rfl, List.drop_zero, List.take_of_length_le (Nat.le_of_eq length)]

end Xv6.Fs.FileBytes
