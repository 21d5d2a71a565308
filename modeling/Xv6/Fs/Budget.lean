import Xv6.Log.Crash
import Xv6.Fs.Filewrite
import Xv6.Fs.Bytes

namespace Xv6.Fs.Budget

open Library
open Inodes
open Filewrite (most)
open Log (MAXOPBLOCKS)
open Finset (mem_image mem_filter)

/-!
# How many blocks one transaction of `filewrite` logs

`begin_op` reserves `MAXOPBLOCKS` blocks of the log for each operation.  `filewrite`
makes its transactions as large as `LOGSIZE` allows, which is for more blocks
than that.  The count below is exact: the blocks that the bytes are in, the bitmap blocks
of the blocks that `balloc` hands out, the indirect block when an entry of it is new,
and the block of the inode when the file grows.
-/

/-- One pass of the loop of `filewrite`, from `begin_op` to `end_op`. -/
structure Section where
  start : Inodes.State
  off : Nat
  n : Nat
  finish : Inodes.State

/-- The transactions of `filewrite(f, src, left)` that end, when nothing else runs. -/
def sections (i : Nat) : Nat -> (Nat -> Byte) -> Nat -> Nat -> Inodes.State -> List Section
  | 0, _, _, _, _ => []
  | more + 1, src, off, left, s =>
    if left = 0 then []
    else
      match writei i src off (min left most) s with
      | .ok (some r) t =>
        ⟨s, off, min left most, t⟩ ::
          sections i more (fun j => src (j + r)) (off + r) (left - r) (endOp t)
      | .ok none t => [⟨s, off, min left most, t⟩]
      | .error _ _ => []

/-- The bitmap blocks of the next free blocks. -/
def bitmapsOf (sb : Superblock) (disk : Disk) (count : Nat) : Finset Nat :=
  ((freeList sb disk).take count).toFinset.image fun b => BBLOCK b sb.ninodes

/-- The blocks of the range that need a new entry in the indirect block. -/
def entriesIn (s : Inodes.State) (i off n : Nat) : Finset Nat :=
  (blocksIn off n).filter fun bn => NDIRECT <= bn /\ addr s.disk s.inode (i, slotOf bn) = 0

/-- The blocks that a transaction logs. -/
def cost (sb : Superblock) (s : Inodes.State) (i off n : Nat) : Nat :=
  if (s.inode i).type = T_DEV ∨ (s.inode i).size < off ∨ MAXFILE * BSIZE < off + n then 0
  else (blocksIn off n).card + (bitmapsOf sb s.disk (lacking s i off n)).card +
    (if (entriesIn s i off n).Nonempty then 1 else 0) + if (s.inode i).size < off + n then 1 else 0

section Count

variable {sb : Superblock} {s u : Inodes.State} {i off n : Nat} {src : Nat -> Byte} {new : List Nat}
  (slot : i < sb.ninodes /\ (s.inode i).type ≠ 0#16) (fits : off + n <= MAXFILE * BSIZE)
  (wrote : Wrote sb i src off n new s u)

include slot fits wrote

theorem held {bn : Nat} (member : bn ∈ blocksIn off n) :
    Holds sb u.disk u.inode (i, slotOf bn) (addr u.disk u.inode (i, slotOf bn)) := by
  have bound := blocksIn_lt fits member
  exact ⟨(wrote.extends_.slot _).mpr ⟨slot.1, slot.2, (slotOf_lt bound).1⟩, rfl, wrote.placed bn member⟩

omit slot fits in
theorem new_eq_take : new = (freeList sb s.disk).take (lacking s i off n) := by
  rw [wrote.free, <- wrote.count, List.take_left]

/-- The data blocks are different blocks. -/
theorem card_data :
    ((blocksIn off n).image fun bn => addr u.disk u.inode (i, slotOf bn)).card =
      (blocksIn off n).card := by
  apply Finset.card_image_of_injOn
  intro one first two second same
  have other := held slot fits wrote second
  dsimp only at same
  rw [<- same] at other
  have slots := wrote.recorded.record.once _ _ _ (held slot fits wrote first) other
  exact slotOf_injective (congrArg Prod.snd slots)

/-- The indirect block is none of the data blocks. -/
theorem pointer_apart {bn : Nat} (member : bn ∈ blocksIn off n)
    (set : (u.inode i).addrs NDIRECT ≠ 0) :
    addr u.disk u.inode (i, slotOf bn) ≠ (u.inode i).addrs NDIRECT := by
  intro same
  have pointer := Good.holds_indirect ⟨slot.1, by rw [wrote.extends_.type]; exact slot.2⟩ set
  have block := held slot fits wrote member
  rw [same] at block
  exact (slotOf_lt (blocksIn_lt fits member)).2
    (congrArg Prod.snd (wrote.recorded.record.once _ _ _ block pointer))

/-- What is in the log after the loop of `writei`. -/
def loggedBlocks (sb : Superblock) (s u : Inodes.State) (i off n : Nat) : Finset Nat :=
  (blocksIn off n).image (fun bn => addr u.disk u.inode (i, slotOf bn)) ∪
    (if (entriesIn s i off n).Nonempty then {(u.inode i).addrs NDIRECT} else ∅) ∪
    bitmapsOf sb s.disk (lacking s i off n)

omit slot fits in
theorem toFinset_logged (empty : s.logged = []) :
    u.logged.toFinset = loggedBlocks sb s u i off n := by
  ext c
  unfold loggedBlocks bitmapsOf
  rw [<- new_eq_take wrote, List.mem_toFinset, wrote.logged, empty]
  simp only [List.not_mem_nil, false_or, Finset.mem_union, mem_image, List.mem_toFinset]
  constructor
  · rintro (⟨d, member, rfl⟩ | ⟨bn, member, rfl | ⟨late, unset, rfl⟩⟩)
    · exact .inr ⟨d, member, rfl⟩
    · exact .inl (.inl ⟨bn, member, rfl⟩)
    · have some : (entriesIn s i off n).Nonempty := ⟨bn, mem_filter.mpr ⟨member, late, unset⟩⟩
      rw [if_pos some]
      exact .inl (.inr (Finset.mem_singleton_self _))
  · rintro ((⟨bn, member, rfl⟩ | pointer) | ⟨d, member, rfl⟩)
    · exact .inr ⟨bn, member, .inl rfl⟩
    · split at pointer
      next some =>
        rcases some with ⟨bn, entry⟩
        rcases mem_filter.mp entry with ⟨member, late, unset⟩
        exact .inr ⟨bn, member, .inr ⟨late, unset, Finset.mem_singleton.mp pointer⟩⟩
      next => exact absurd pointer (Finset.notMem_empty c)
    · exact .inl ⟨d, member, rfl⟩

/-- The data blocks and the indirect block are not before the data, and the other blocks are. -/
theorem late_of_mem {c : Nat}
    (member : c ∈ (blocksIn off n).image (fun bn => addr u.disk u.inode (i, slotOf bn)) ∪
      (if (entriesIn s i off n).Nonempty then {(u.inode i).addrs NDIRECT} else ∅)) :
    dataStart sb <= c := by
  rcases Finset.mem_union.mp member with block | pointer
  · rcases mem_image.mp block with ⟨bn, inside, rfl⟩
    exact wrote.recorded.low (held slot fits wrote inside)
  · split at pointer
    next some =>
      rcases some with ⟨bn, entry⟩
      rcases mem_filter.mp entry with ⟨inside, late, _⟩
      rw [Finset.mem_singleton.mp pointer]
      exact wrote.recorded.low (Good.holds_indirect ⟨slot.1, by rw [wrote.extends_.type]; exact slot.2⟩
        (wrote.pointed bn inside late))
    next => exact absurd pointer (Finset.notMem_empty c)

omit slot fits in
theorem mem_bitmapsOf {c : Nat} (member : c ∈ bitmapsOf sb s.disk (lacking s i off n)) :
    sb.ninodes / IPB + 3 <= c /\ c < dataStart sb := by
  unfold bitmapsOf at member
  rw [<- new_eq_take wrote] at member
  rcases mem_image.mp member with ⟨d, taken, rfl⟩
  exact ⟨BBLOCK_low d sb.ninodes, BBLOCK_lt_dataStart sb d (wrote.below d (List.mem_toFinset.mp taken))⟩

theorem card_loggedBlocks : (loggedBlocks sb s u i off n).card = (blocksIn off n).card +
    (bitmapsOf sb s.disk (lacking s i off n)).card +
      if (entriesIn s i off n).Nonempty then 1 else 0 := by
  have apart : Disjoint ((blocksIn off n).image (fun bn => addr u.disk u.inode (i, slotOf bn)) ∪
      (if (entriesIn s i off n).Nonempty then {(u.inode i).addrs NDIRECT} else ∅))
      (bitmapsOf sb s.disk (lacking s i off n)) := by
    rw [Finset.disjoint_left]
    intro c block bitmap
    have late := late_of_mem slot fits wrote block
    have early := mem_bitmapsOf wrote bitmap
    omega
  unfold loggedBlocks
  rw [Finset.card_union_of_disjoint apart]
  by_cases some : (entriesIn s i off n).Nonempty
  · have pointer : Disjoint ((blocksIn off n).image fun bn => addr u.disk u.inode (i, slotOf bn))
        {(u.inode i).addrs NDIRECT} := by
      rw [Finset.disjoint_singleton_right, mem_image]
      rintro ⟨bn, inside, same⟩
      rcases some with ⟨entry, member⟩
      rcases mem_filter.mp member with ⟨within, late, _⟩
      exact pointer_apart slot fits wrote inside (wrote.pointed entry within late) same
    rw [if_pos some, if_pos some, Finset.card_union_of_disjoint pointer, card_data slot fits wrote,
      Finset.card_singleton]
    omega
  · rw [if_neg some, if_neg some, Finset.union_empty, card_data slot fits wrote, Nat.add_zero]

/-- The length of the log after the loop, and that the block of the inode is not in it. -/
theorem length_logged (empty : s.logged = []) : u.logged.length = (blocksIn off n).card +
    (bitmapsOf sb s.disk (lacking s i off n)).card +
      (if (entriesIn s i off n).Nonempty then 1 else 0) /\
    IBLOCK i ∉ u.logged := by
  have nodup : u.logged.Nodup := wrote.nodup (by rw [empty]; exact List.nodup_nil)
  have members := toFinset_logged wrote empty
  constructor
  · rw [<- card_loggedBlocks slot fits wrote, <- members, List.toFinset_card_of_nodup nodup]
  · intro member
    rw [<- List.mem_toFinset, members] at member
    have early := IBLOCK_early slot.1
    have first := dataStart_low sb
    rcases Finset.mem_union.mp member with block | bitmap
    · have late := late_of_mem slot fits wrote block
      omega
    · have low := mem_bitmapsOf wrote bitmap
      omega

end Count

theorem length_grown {i size end_ : Nat} {u : Inodes.State} (absent : IBLOCK i ∉ u.logged) :
    (grown i size end_ u).logged.length = u.logged.length + if size < end_ then 1 else 0 := by
  unfold grown
  by_cases longer : size < end_
  · rw [if_pos longer, if_pos longer]
    change (if IBLOCK i ∈ u.logged then u.logged else u.logged ++ [IBLOCK i]).length = _
    rw [if_neg absent, List.length_append]
    rfl
  · rw [if_neg longer, if_neg longer]
    rfl

variable {n : Nat}

/-- A `writei` that returns has logged exactly its cost. -/
theorem writei_cost {sb : Superblock} {s t : Inodes.State} {i off : Nat} {src : Nat -> Byte}
    {result : Option Nat} (recorded : Recorded sb s)
    (slot : i < sb.ninodes /\ (s.inode i).type ≠ 0#16) (empty : s.logged = [])
    (run : writei i src off n s = .ok result t) : t.logged.length = cost sb s i off n := by
  unfold cost
  by_cases refused : (s.inode i).type = T_DEV ∨ (s.inode i).size < off ∨ MAXFILE * BSIZE < off + n
  · rw [if_pos refused]
    rw [writei_refused src refused] at run
    cases run
    rw [empty]
    rfl
  · rw [if_neg refused]
    rcases not_or.mp refused with ⟨notDevice, range⟩
    have fits : off + n <= MAXFILE * BSIZE := by omega
    have accepted := ensures_writei src recorded slot notDevice
        (show off <= (s.inode i).size by omega) fits
    rcases accepted.of_ok run with ⟨_, new, u, wrote, rfl, _⟩
    rcases length_logged slot fits wrote empty with ⟨length, absent⟩
    rw [length_grown absent, length]

/-! ## The transactions of a call -/

/-- The transactions of `filewrite(f, src, n)`.  Each writes at least one byte. -/
def filewrite (i : Nat) (src : Nat -> Byte) (off n : Nat) (s : Inodes.State) : List Section :=
  sections i n src off n s

/-- Each transaction is a `writei` that starts with nothing in the log. -/
theorem sections_run (i : Nat) (more : Nat) :
    ∀ (src : Nat -> Byte) (off left : Nat) (s : Inodes.State),
    s.logged = [] -> ∀ part, part ∈ sections i more src off left s ->
      part.start.logged = [] /\ ∃ bytes result,
        writei i bytes part.off part.n part.start = .ok result part.finish := by
  induction more with
  | zero => exact fun _ _ _ _ _ _ member => absurd member List.not_mem_nil
  | succ more ih =>
    intro src off left s empty part member
    rw [sections] at member
    by_cases none : left = 0
    · rw [if_pos none] at member
      exact absurd member List.not_mem_nil
    · rw [if_neg none] at member
      cases run : writei i src off (min left most) s with
      | error halt t =>
        rw [run] at member
        exact absurd member List.not_mem_nil
      | ok result t =>
        rw [run] at member
        cases result with
        | none =>
          rw [List.mem_singleton.mp member]
          exact ⟨empty, src, Option.none, run⟩
        | some r =>
          rcases List.mem_cons.mp member with rfl | rest
          · exact ⟨empty, src, some r, run⟩
          · exact ih _ _ _ (endOp t) rfl part rest

/-- A transaction of `filewrite` stays within what `begin_op` reserves exactly when its cost
does. -/
theorem filewrite_within_budget_iff {sb : Superblock} {i off n : Nat} {src : Nat -> Byte}
    {s : Inodes.State} (empty : s.logged = []) (part : Section)
    (member : part ∈ filewrite i src off n s) (recorded : Recorded sb part.start)
    (slot : i < sb.ninodes /\ (part.start.inode i).type ≠ 0#16) :
    part.finish.logged.length <= MAXOPBLOCKS <->
    cost sb part.start i part.off part.n <= MAXOPBLOCKS := by
  rcases sections_run i n src off n s empty part member with ⟨start, bytes, result, run⟩
  rw [writei_cost recorded slot start run]

/-! ## An empty file on a new file system -/

/-- The blocks before the data are in use, and inode 2 is an empty file. -/
def newFile : Inodes.State :=
  ⟨mkfsDisk 29, [], fun j => blank (if j = 2 then T_FILE else 0#16), []⟩

theorem newFile_image : Image mkfsSuperblock 29 newFile.disk :=
  mkfsDisk_image (by decide) (by decide)

theorem newFile_addr (p : Nat × Nat) : addr newFile.disk newFile.inode p = 0 := by
  unfold addr
  split
  · rfl
  · exact if_pos rfl

theorem newFile_recorded : Recorded mkfsSuperblock newFile where
  super := newFile_image.super
  record := by
    have nothing : ∀ p b, ¬ Holds mkfsSuperblock newFile.disk newFile.inode p b := by
      rintro p b ⟨_, same, some⟩
      rw [newFile_addr] at same
      exact some same.symm
    refine ⟨fun p _ b held => absurd held (nothing p b), fun b => ?_,
      fun p b held => absurd held (nothing p b)⟩
    have start : dataStart mkfsSuperblock = 29 := by decide
    have used : Used mkfsSuperblock newFile.disk b <-> b < 29 := by
      unfold Used
      constructor
      · rintro ⟨inside, set⟩
        rw [newFile_image.marked (Nat.lt_trans inside (by decide))] at set
        exact of_decide_eq_true set
      · intro early
        refine ⟨Nat.lt_trans early (by decide), ?_⟩
        rw [newFile_image.marked (Nat.lt_trans early (by decide))]
        exact decide_eq_true early
    rw [used, start]
    exact ⟨.inl, fun either => either.resolve_right fun held => nothing _ b held.choose_spec⟩

theorem newFile_slot : 2 < mkfsSuperblock.ninodes /\ (newFile.inode 2).type ≠ 0#16 := by
  refine ⟨by decide, ?_⟩
  change T_FILE ≠ 0#16
  decide

/-- The image has one bitmap block. -/
theorem BBLOCK_mkfs {b : Nat} (inside : b < 1024) : BBLOCK b mkfsSuperblock.ninodes = 28 := by
  have first : b / BPB = 0 := Nat.div_eq_of_lt (Nat.lt_trans inside (by decide))
  unfold BBLOCK
  rw [first]
  rfl

theorem newFile_free :
    freeList mkfsSuperblock newFile.disk = (List.range 1024).filter fun c => !decide (c < 29) := by
  apply List.filter_congr
  intro c member
  rw [newFile_image.marked (Nat.lt_trans (List.mem_range.mp member) (by decide))]

theorem newFile_load : load mkfsSuperblock 2 newFile <= 2 := by
  have one : bitmaps mkfsSuperblock ⊆ {28} := by
    intro c member
    rcases mem_image.mp member with ⟨b, inside, rfl⟩
    rw [BBLOCK_mkfs (Finset.mem_range.mp inside)]
    exact Finset.mem_singleton_self 28
  have less := Finset.card_le_card one
  have nothing : indirect newFile 2 = ∅ := if_pos rfl
  have absent : (newFile.inode 2).addrs NDIRECT = 0 := rfl
  have log : newFile.logged.toFinset = ∅ := rfl
  unfold load
  rw [nothing, log, if_pos absent, Finset.union_empty, Finset.empty_union]
  rw [Finset.card_singleton] at less
  omega

theorem newFile_roomy (short : n <= 6656) : Roomy mkfsSuperblock newFile 2 0 n := by
  have blocks : (blocksIn 0 n).card <= 13 := by
    unfold blocksIn
    split
    · exact Nat.zero_le 13
    · rw [Nat.card_Ico]
      unfold BSIZE
      omega
  have lacks : lacking newFile 2 0 n <= 14 := by
    unfold lacking
    have less := Finset.card_filter_le (blocksIn 0 n) fun bn =>
        addr newFile.disk newFile.inode (2, slotOf bn) = 0
    split <;> omega
  have free : 14 <= (freeList mkfsSuperblock newFile.disk).length := by
    rw [newFile_free]
    decide +kernel
  refine ⟨lacks.trans free, List.nodup_nil, ?_⟩
  exact Nat.lt_of_le_of_lt (Nat.add_le_add newFile_load blocks) (by decide)

/-- Every write to the new file of up to thirteen blocks returns. -/
theorem newFile_writes (src : Nat -> Byte) (short : n <= 6656) :
    ∃ t, writei 2 src 0 n newFile = .ok (some n) t := by
  have accepted := ensures_writei src newFile_recorded newFile_slot (show T_FILE ≠ T_DEV by decide)
      (Nat.zero_le _)
    (show 0 + n <= MAXFILE * BSIZE from Nat.le_trans (by omega) (show 6656 <= MAXFILE * BSIZE by decide))
  have returns : Ensures (writei 2 src 0 n) newFile (fun result _ => result = some n) fun _ _ => False :=
    accepted.mono (fun _ _ done => done.1) fun halt _ lacks =>
      (newFile_roomy short).not_lacks halt (lacks List.nodup_nil)
  rcases returns.exists_ok with ⟨_, t, run, rfl⟩
  exact ⟨t, run⟩

/-- The first transaction of a call on the new file. -/
theorem newFile_section (src : Nat -> Byte) (some : 0 < n) (short : n <= 6656) : ∃ t,
    (⟨newFile, 0, n, t⟩ : Section) ∈ filewrite 2 src 0 n newFile /\
    writei 2 src 0 n newFile = .ok (Option.some n) t := by
  rcases newFile_writes src short with ⟨t, run⟩
  refine ⟨t, ?_, run⟩
  have least : min n most = n := Nat.min_eq_left short
  cases n with
  | zero => exact absurd some (Nat.lt_irrefl 0)
  | succ more =>
    unfold filewrite
    rw [sections, if_neg (Nat.succ_ne_zero more), least, run]
    exact List.mem_cons_self

theorem newFile_lacking (some : 0 < n) : 0 < lacking newFile 2 0 n := by
  have first : 0 ∈ (blocksIn 0 n).filter fun bn =>
      addr newFile.disk newFile.inode (2, slotOf bn) = 0 := by
    rw [mem_filter, mem_blocksIn]
    exact ⟨⟨some, by decide, Nat.zero_le _⟩, newFile_addr _⟩
  have pos := Finset.card_pos.mpr ⟨0, first⟩
  unfold lacking
  omega

theorem newFile_bitmaps {count : Nat} (some : 0 < count) :
    (bitmapsOf mkfsSuperblock newFile.disk count).card = 1 := by
  have free : ∃ rest, freeList mkfsSuperblock newFile.disk = 29 :: rest := by
    rw [newFile_free]
    exact ⟨((List.range 1024).filter fun c => !decide (c < 29)).tail, by decide +kernel⟩
  rcases free with ⟨rest, free⟩
  have single : bitmapsOf mkfsSuperblock newFile.disk count = {28} := by
    unfold bitmapsOf
    rw [Finset.eq_singleton_iff_nonempty_unique_mem]
    constructor
    · refine (Finset.image_nonempty).mpr ⟨29, List.mem_toFinset.mpr ?_⟩
      cases count with
      | zero => exact absurd some (Nat.lt_irrefl 0)
      | succ more =>
        rw [free]
        exact List.mem_cons_self
    · intro c member
      rcases mem_image.mp member with ⟨b, taken, rfl⟩
      have inside := List.mem_of_mem_take (List.mem_toFinset.mp taken)
      exact BBLOCK_mkfs (List.mem_range.mp (List.mem_filter.mp inside).1)
  rw [single, Finset.card_singleton]

/-- A write of as many bytes as `filewrite` allows logs thirteen data blocks, the bitmap block, the
indirect block and the block of the inode. -/
theorem filewrite_sixteen_blocks : ∃ part, part ∈ filewrite 2 (fun _ => 1#8) 0 6656 newFile /\
    Recorded mkfsSuperblock part.start /\ part.finish.logged.length = 16 /\
      ¬ part.finish.logged.length <= MAXOPBLOCKS := by
  rcases newFile_section (fun _ => 1#8) (show 0 < 6656 by decide) (le_refl _) with ⟨t, member, run⟩
  have entries : (entriesIn newFile 2 0 6656).Nonempty :=
    ⟨12, mem_filter.mpr ⟨mem_blocksIn.mpr (by decide), by decide, newFile_addr _⟩⟩
  have blocks : (blocksIn 0 6656).card = 13 := by decide
  have length : t.logged.length = 16 := by
    rw [writei_cost newFile_recorded newFile_slot rfl run, cost, if_neg (by decide), blocks,
      newFile_bitmaps (newFile_lacking (by decide)), if_pos entries]
    rfl
  refine ⟨_, member, newFile_recorded, length, ?_⟩
  rw [length]
  decide

/-- Four blocks cost themselves, the bitmap block and the block of the inode. -/
theorem filewrite_within_budget_blocks : ∃ part, part ∈ filewrite 2 (fun _ => 1#8) 0 2000 newFile /\
    part.finish.logged.length <= MAXOPBLOCKS := by
  rcases newFile_section (fun _ => 1#8) (show 0 < 2000 by decide) (by decide) with ⟨t, member, _⟩
  refine ⟨_, member, (filewrite_within_budget_iff rfl _ member newFile_recorded newFile_slot).mpr ?_⟩
  have blocks : (blocksIn 0 2000).card = 4 := by decide
  change cost mkfsSuperblock newFile 2 0 2000 <= MAXOPBLOCKS
  rw [cost, if_neg (by decide), blocks, newFile_bitmaps (newFile_lacking (by decide))]
  split <;> split <;> decide

end Xv6.Fs.Budget
