import Mathlib.Data.Finset.Sigma
import Mathlib.Order.Interval.Finset.Nat
import Xv6.Fs.Written

namespace Xv6.Fs.Mkfs

open Inodes (Dinode dinode NDIRECT MAXFILE SLOTS addr slotOf slotOf_lt addr_direct Covers)
open Dirents (slash direntSize)
open Finset (range mem_range)

/-!
# Is the image of `mkfs` consistent?

The blocks that the inodes refer to are different blocks of the data region, and
the bitmap has exactly these and the blocks in front of the data region.  No
block is marked and not used: there are as many slots with an address as blocks
taken from the counter.

The size of the root is rounded up by a block too much when its entries fill
their last block, so that it says more than there is.
-/

/-- Block `b` belongs to an inode, as a block of the file or as its indirect block. -/
def Refers (disk : Disk) (b : Nat) : Prop :=
  ∃ i k, i < NINODES /\ k < SLOTS /\ addr disk (dinode disk) (i, k) = b

structure Consistent (disk : Disk) : Prop where
  covers : ∀ i, i < NINODES -> Covers disk (dinode disk) i (dinode disk i).size
  apart : ∀ i k j l, i < NINODES -> k < SLOTS -> j < NINODES -> l < SLOTS ->
    addr disk (dinode disk) (i, k) ≠ 0 ->
    addr disk (dinode disk) (i, k) = addr disk (dinode disk) (j, l) -> i = j /\ k = l
  inside : ∀ i k, i < NINODES -> k < SLOTS -> addr disk (dinode disk) (i, k) ≠ 0 ->
    dataStart mkfsSuperblock <= addr disk (dinode disk) (i, k) /\
      addr disk (dinode disk) (i, k) < logStart mkfsSuperblock
  bitmap : ∀ b, b < mkfsSuperblock.size -> (marked disk mkfsSuperblock.ninodes b = true <->
    b < dataStart mkfsSuperblock ∨ Refers disk b)

/-! ## Every block that was taken is used -/

theorem slotOf_injective {m n : Nat} (same : slotOf m = slotOf n) : m = n := by
  unfold slotOf at same
  split at same <;> split at same <;> omega

section Counting

variable {disk : Disk} {inode : Nat -> Dinode} {count : Nat -> Nat} {content : Nat -> List Byte}
  {next i : Nat}

/-- The slots of inode `i` that have an address. -/
def slotsOf (disk : Disk) (inode : Nat -> Dinode) (i : Nat) : Finset Nat :=
  (range SLOTS).filter fun k => addr disk inode (i, k) ≠ 0

/-- The slots of all inodes that have an address. -/
def allSlots (disk : Disk) (inode : Nat -> Dinode) : Finset (Sigma fun _ : Nat => Nat) :=
  (range NINODES).sigma (slotsOf disk inode)

theorem mem_allSlots (disk : Disk) (inode : Nat -> Dinode) (p : Sigma fun _ : Nat => Nat) :
    p ∈ allSlots disk inode <-> p.1 < NINODES /\ p.2 < SLOTS /\ addr disk inode (p.1, p.2) ≠ 0 := by
  rw [allSlots, Finset.mem_sigma, mem_range, slotsOf, Finset.mem_filter, mem_range]

theorem card_allSlots (disk : Disk) (inode : Nat -> Dinode) :
    (allSlots disk inode).card = (range NINODES).sum fun i => (slotsOf disk inode i).card :=
  Finset.card_sigma _ _

-- the elements of the set are not to be computed
attribute [irreducible] allSlots

section

variable (filed : Filed disk inode count content next)

include filed

theorem Filed.pointer_ne_zero (known : i < NINODES)
    (high : NDIRECT < count i) : addr disk inode (i, NDIRECT) ≠ 0 := by
  have bound := (filed.fits i known).1
  have set := (filed.mapped i NDIRECT known (by omega)).mpr high
  rw [slotOf, if_neg (Nat.lt_irrefl _), addr_indirect (Nat.lt_succ_self _)] at set
  rw [addr_direct le_rfl]
  intro none
  rw [if_pos none] at set
  exact set rfl

/-- The slots of a file are those of its blocks and, for a long file, that of the indirect block. -/
theorem Filed.need_le (known : i < NINODES) : need (count i) <= (slotsOf disk inode i).card := by
  have bound := (filed.fits i known).1
  have blocks : (range (count i)).image slotOf ⊆ slotsOf disk inode i := by
    intro k listed
    rcases Finset.mem_image.mp listed with ⟨bn, inside, rfl⟩
    have below := mem_range.mp inside
    exact Finset.mem_filter.mpr ⟨mem_range.mpr (slotOf_lt (by omega)).1,
      (filed.mapped i bn known (by omega)).mpr below⟩
  have card : ((range (count i)).image slotOf).card = count i := by
    rw [Finset.card_image_of_injective _ fun _ _ => slotOf_injective, Finset.card_range]
  unfold need
  by_cases high : NDIRECT < count i
  · rw [if_pos high]
    have other : NDIRECT ∉ (range (count i)).image slotOf := by
      intro listed
      rcases Finset.mem_image.mp listed with ⟨bn, inside, same⟩
      have below := mem_range.mp inside
      exact (slotOf_lt (by omega)).2 same
    have pointer : NDIRECT ∈ slotsOf disk inode i :=
      Finset.mem_filter.mpr ⟨mem_range.mpr (by decide), filed.pointer_ne_zero known high⟩
    have more := Finset.card_le_card (Finset.insert_subset pointer blocks)
    rw [Finset.card_insert_of_notMem other, card] at more
    exact more
  · rw [if_neg high, Nat.add_zero, <- card]
    exact Finset.card_le_card blocks

/-- As many slots have an address as blocks were taken, so that each of these is in a slot. -/
theorem Filed.surjective (taken : next <= 29 + (range NINODES).sum fun j => need (count j))
    {b : Nat} (low : 29 <= b) (high : b < next) :
    ∃ i k, i < NINODES /\ k < SLOTS /\ addr disk inode (i, k) = b := by
  have inside : (allSlots disk inode).image (fun p => addr disk inode (p.1, p.2)) ⊆ Finset.Ico 29
      next := by
    intro c listed
    rcases Finset.mem_image.mp listed with ⟨p, member, rfl⟩
    rcases (mem_allSlots disk inode p).mp member with ⟨known, bounded, nonzero⟩
    exact Finset.mem_Ico.mpr (filed.laid.range p.1 p.2 known bounded nonzero)
  have injective : Set.InjOn (fun p : Sigma fun _ : Nat => Nat => addr disk inode (p.1, p.2))
      (allSlots disk inode) := by
    intro p member q member' same
    rcases (mem_allSlots disk inode p).mp (Finset.mem_coe.mp member) with ⟨known, bounded, nonzero⟩
    rcases (mem_allSlots disk inode q).mp (Finset.mem_coe.mp member') with ⟨known', bounded', _⟩
    rcases filed.laid.apart p.1 p.2 q.1 q.2 known bounded known' bounded' nonzero
      same with ⟨first, second⟩
    exact Sigma.ext first (heq_of_eq second)
  have enough : (Finset.Ico 29 next).card <= ((allSlots disk inode).image fun p =>
      addr disk inode (p.1, p.2)).card := by
    rw [Finset.card_image_of_injOn injective, card_allSlots, Nat.card_Ico]
    have each := Finset.sum_le_sum fun j (known : j ∈ range NINODES) =>
      filed.need_le (mem_range.mp known)
    omega
  have member : b ∈ Finset.Ico 29 next := Finset.mem_Ico.mpr ⟨low, high⟩
  rw [<- Finset.eq_of_subset_of_card_le inside enough] at member
  rcases Finset.mem_image.mp member with ⟨p, listed, same⟩
  rcases (mem_allSlots disk inode p).mp listed with ⟨known, bounded, _⟩
  exact ⟨p.1, p.2, known, bounded, same⟩

end

end Counting

/-! ## The image -/

section Image

variable {disk : Disk} {content : Nat -> List Byte} {inodes used : Nat}

section

variable (written : Written disk content inodes used)

include written

theorem Written.marked_iff {b : Nat} (inside : b < mkfsSuperblock.size) :
    marked disk mkfsSuperblock.ninodes b = true <->
    b < dataStart mkfsSuperblock ∨ Refers disk b := by
  have start : dataStart mkfsSuperblock = 29 := by decide
  have small : mkfsSuperblock.size < BPB := by decide
  have place : marked disk mkfsSuperblock.ninodes b = decide (b < used) := by
    rw [Fs.marked, BBLOCK, Nat.div_eq_of_lt (by omega), Nat.mod_eq_of_lt (by omega), Nat.zero_add,
      written.image.bitmap, bitOf_mkfsBits]
  have first := written.filed.laid.start
  rw [place, decide_eq_true_iff, start]
  constructor
  · intro below
    by_cases low : b < 29
    · exact .inl low
    · exact .inr (written.filed.surjective written.taken (by omega) below)
  · rintro (low | ⟨i, k, known, bounded, rfl⟩)
    · omega
    · by_cases none : addr disk (dinode disk) (i, k) = 0
      · omega
      · exact (written.filed.laid.range i k known bounded none).2

/-- The blocks of a file have addresses, and no others. -/
theorem Written.covers_iff {i : Nat} (known : i < NINODES) (m : Nat) :
    Covers disk (dinode disk) i m <-> blocksOf m <= counts content i := by
  have bound := (written.filed.fits i known).1
  unfold Covers blocksOf BSIZE
  constructor
  · intro covers
    by_contra more
    rcases covers (counts content i) (by omega) with ⟨small, set⟩
    exact absurd ((written.filed.mapped i _ known small).mp set) (Nat.lt_irrefl _)
  · intro enough bn below
    have inside : bn < counts content i := by omega
    exact ⟨by omega, (written.filed.mapped i bn known (by omega)).mpr inside⟩

/-- The image is consistent unless the entries of the root fill their last block. -/
theorem Written.consistent_iff (some : 1 < inodes) (below : used <= logStart mkfsSuperblock) :
    Consistent disk <-> (content ROOTINO).length % BSIZE ≠ 0 := by
  have root := (written.fields ROOTINO (by decide) some).2.2
  rw [if_pos rfl] at root
  have rounded : Covers disk (dinode disk) ROOTINO (dinode disk ROOTINO).size <->
      (content ROOTINO).length % BSIZE ≠ 0 := by
    rw [written.covers_iff (by decide), root]
    unfold counts blocksOf BSIZE
    omega
  refine ⟨fun consistent => rounded.mp (consistent.covers ROOTINO (by decide)), fun partly => ?_⟩
  constructor
  case covers =>
    intro i known
    by_cases other : i = ROOTINO
    · rw [other]
      exact rounded.mpr partly
    · rw [written.covers_iff known]
      by_cases allocated : 0 < i /\ i < inodes
      · have size := (written.fields i allocated.1 allocated.2).2.2
        rw [if_neg other] at size
        rw [size]
        exact le_rfl
      · rw [written.idle i (by omega) known]
        exact Nat.zero_le _
  case apart => exact written.filed.laid.apart
  case inside =>
    intro i k known bounded set
    have start : dataStart mkfsSuperblock = 29 := by decide
    have range := written.filed.laid.range i k known bounded set
    rw [start]
    exact ⟨range.1, range.2.trans_le below⟩
  case bitmap => exact fun b inside => written.marked_iff inside

end

end Image

/-- The files fit in the image. -/
structure FilesFit (files : List File) : Prop where
  inodes : files.length + 2 <= NINODES
  good : ∀ file, file ∈ files -> slash ∉ file.arg /\ file.content.length <= BSIZE * MAXFILE
  blocks : blocksNeeded files <= mkfsSuperblock.nblocks

theorem main_image {files : List File} (fit : FilesFit files) : ∃ disk,
    main files = some disk /\
    (Consistent disk <-> (direntSize * (files.length + 2)) % BSIZE ≠ 0) := by
  rcases main_written fit.inodes fit.good fit.blocks with ⟨disk, used, done, written, below⟩
  refine ⟨disk, done, ?_⟩
  rw [written.consistent_iff (by omega) below, <- rootBytes_length files]
  rfl

theorem files_fit_empty {n : Nat} (few : n <= 100) : FilesFit (List.replicate n ⟨[], []⟩) where
  inodes := by
    rw [List.length_replicate]
    unfold NINODES
    omega
  good file listed := by
    rw [List.eq_of_mem_replicate listed]
    exact ⟨List.not_mem_nil, Nat.zero_le _⟩
  blocks := by
    have none : need (blocksOf (File.content ⟨[], []⟩).length) = 0 := by decide
    have blocks : mkfsSuperblock.nblocks = 965 := rfl
    rw [blocksNeeded, List.length_replicate, List.map_replicate, none, List.sum_replicate,
      nsmul_zero, blocks]
    unfold need blocksOf direntSize NDIRECT
    split <;> omega

/-- `mkfs` makes a consistent image exactly when the entries of the root do not
fill whole blocks. -/
theorem main_consistent_iff {files : List File} (fit : FilesFit files) : ∃ disk,
    main files = some disk /\ (Consistent disk <-> (files.length + 2) % 32 ≠ 0) := by
  rcases main_image fit with ⟨disk, done, exact⟩
  refine ⟨disk, done, exact.trans ?_⟩
  unfold direntSize BSIZE
  omega

/-- A file of two blocks. -/
def twoBlocks : File := ⟨[0x61], List.replicate 2 (List.replicate 300 0x62)⟩

theorem main_consistent_one : ∃ disk, main [twoBlocks] = some disk /\ Consistent disk := by
  have fit : FilesFit [twoBlocks] := ⟨by decide, by decide +kernel, by decide +kernel⟩
  rcases main_consistent_iff fit with ⟨disk, done, exact⟩
  exact ⟨disk, done, exact.mpr (by decide)⟩

/-- With thirty files the root has 32 entries in one block, and a size of two blocks. -/
theorem main_inconsistent_thirty : FilesFit (List.replicate 30 ⟨[], []⟩) /\ ∃ disk,
    main (List.replicate 30 ⟨[], []⟩) = some disk /\ ¬ Consistent disk := by
  have fit := files_fit_empty (n := 30) (by decide)
  rcases main_image fit with ⟨disk, done, exact⟩
  exact ⟨fit, disk, done, fun consistent => exact.mp consistent (by decide)⟩

end Xv6.Fs.Mkfs
