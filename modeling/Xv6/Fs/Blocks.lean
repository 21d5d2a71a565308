import Mathlib.Algebra.Group.Nat.Defs
import Mathlib.Logic.Function.Basic
import Mathlib.Order.Basic
import Mathlib.Data.Nat.Basic
import Xv6.Library.GuardedRun

namespace Xv6.Fs

open Library
open Function

/-!
# The block allocator, `balloc` and `bfree` of `fs.c`, and the bitmap of `mkfs.c`

The kernel keeps one bit for every block below `sb.size`.  `balloc` takes the
first block whose bit is clear.  `mkfs` sets the bits of a prefix of the disk:
the blocks before the data and the data blocks of the files it wrote.  The log
is at the other end, at `sb.size - sb.nlog`, and its bits are clear.

A disk is what the buffer cache shows of it, byte for byte.
-/

abbrev Byte := BitVec 8
abbrev Block := Nat -> Byte
abbrev Disk := Nat -> Block

def BSIZE : Nat := 512
/-- `BSIZE / sizeof(struct dinode)` -/
def IPB : Nat := BSIZE / 64
def BPB : Nat := BSIZE * 8

/-- The block with the bit of block `b`. -/
def BBLOCK (b ninodes : Nat) : Nat := b / BPB + ninodes / IPB + 3

structure Superblock where
  size : Nat
  nblocks : Nat
  ninodes : Nat
  nlog : Nat
  deriving DecidableEq, Repr

/-- The word at index `i`, lowest byte first. -/
def word (data : Block) (i : Nat) : Nat :=
  (data (4 * i)).toNat + (data (4 * i + 1)).toNat * 2 ^ 8 + (data (4 * i + 2)).toNat * 2 ^ 16 +
    (data (4 * i + 3)).toNat * 2 ^ 24

def readsb (disk : Disk) : Superblock :=
  ⟨word (disk 1) 0, word (disk 1) 1, word (disk 1) 2, word (disk 1) 3⟩

def bzero (disk : Disk) (bno : Nat) : Disk := update disk bno fun _ => 0#8

inductive Panic where
  | outOfBlocks
  | freeingFreeBlock
  deriving DecidableEq, Repr

/-- The mask `m = 1 << (bi % 8)`. -/
def mask (bi : Nat) : Byte := 1#8 <<< (bi % 8)

def setBit (data : Block) (bi : Nat) : Block := update data (bi / 8) (data (bi / 8) ||| mask bi)

def clearBit (data : Block) (bi : Nat) : Block :=
  update data (bi / 8) (data (bi / 8) &&& ~~~ mask bi)

/-- The inner loop of `balloc` from `bi` on, over the bitmap block of block `b`. -/
def ballocBit (data : Block) (size b : Nat) : Nat -> Nat -> Option Nat
  | 0, _ => none
  | more + 1, bi =>
    if b + bi < size then
      if data (bi / 8) &&& mask bi = 0#8 then some bi else ballocBit data size b more (bi + 1)
    else none

/-- The outer loop of `balloc` from `b` on: the values of `b` and `bi` at the free block. -/
def ballocLoop (disk : Disk) (sb : Superblock) : Nat -> Nat -> Option (Nat × Nat)
  | 0, _ => none
  | more + 1, b =>
    if b < sb.size then
      match ballocBit (disk (BBLOCK b sb.ninodes)) sb.size b BPB 0 with
      | some bi => some (b, bi)
      | none => ballocLoop disk sb more (b + BPB)
    else none

/-- The end of `balloc`, for what its loops found. -/
def ballocEnd (disk : Disk) (ninodes : Nat) : Option (Nat × Nat) -> Except Panic (Nat × Disk)
  | none => .error .outOfBlocks
  | some (b, bi) =>
    .ok (b + bi,
      bzero (update disk (BBLOCK b ninodes) (setBit (disk (BBLOCK b ninodes)) bi)) (b + bi))

/-- `balloc`.  The outer loop makes at most `size / BPB + 1` passes. -/
def balloc (disk : Disk) : Except Panic (Nat × Disk) :=
  let sb := readsb disk
  ballocEnd disk sb.ninodes (ballocLoop disk sb (sb.size / BPB + 1) 0)

def bfree (disk : Disk) (b : Nat) : Except Panic Disk :=
  let sb := readsb disk
  let data := disk (BBLOCK b sb.ninodes)
  if data (b % BPB / 8) &&& mask (b % BPB) = 0#8 then .error .freeingFreeBlock
  else .ok (update disk (BBLOCK b sb.ninodes) (clearBit data (b % BPB)))

/-! ## The image of `mkfs` -/

/-- The first data block: `usedblocks` before `mkfs` writes any file. -/
def dataStart (sb : Superblock) : Nat := sb.ninodes / IPB + 3 + (sb.size / BPB + 1)

/-- Where `initlog` puts the log. -/
def logStart (sb : Superblock) : Nat := sb.size - sb.nlog

/-- The buffer that `balloc` of `mkfs.c` writes. -/
def mkfsBits : Nat -> Block
  | 0 => fun _ => 0#8
  | used + 1 => setBit (mkfsBits used) used

/-- An image whose bitmap `mkfs` wrote when `used` blocks were in use. -/
structure Image (sb : Superblock) (used : Nat) (disk : Disk) : Prop where
  super : readsb disk = sb
  bitmap : disk (sb.ninodes / IPB + 3) = mkfsBits used
  /-- `usedblocks` only grows. -/
  prefixed : dataStart sb <= used
  /-- The assertion `used < 512*8`. -/
  fits : used < BPB
  /-- The assertion `nblocks + usedblocks + nlog == size`, made before any file is written. -/
  total : sb.nblocks + dataStart sb + sb.nlog = sb.size

/-! ## Runs of the allocator -/

structure State where
  disk : Disk
  /-- The blocks that `balloc` returned so far. -/
  returned : List Nat
  panicked : Option Panic

inductive Label where
  | balloc
  | bfree (b : Nat)

/-- `bfree` is called only for blocks that `balloc` returned. -/
def Enabled (s : State) : Label -> Prop
  | .balloc => True
  | .bfree b => b ∈ s.returned

/-- The state after a call of `balloc` with this outcome. -/
def afterBalloc (s : State) : Except Panic (Nat × Disk) -> State
  | .error panic => { s with panicked := some panic }
  | .ok (b, disk) => { s with disk := disk, returned := b :: s.returned }

/-- The state after a call of `bfree` with this outcome. -/
def afterBfree (s : State) : Except Panic Disk -> State
  | .error panic => { s with panicked := some panic }
  | .ok disk => { s with disk := disk }

def perform (s : State) : Label -> State
  | .balloc => afterBalloc s (balloc s.disk)
  | .bfree b => afterBfree s (bfree s.disk b)

def Step (s : State) (label : Label) (t : State) : Prop :=
  s.panicked = none /\ Enabled s label /\ t = perform s label

def started (disk : Disk) : State := ⟨disk, [], none⟩

/-! ## Bits -/

/-- The bit at index `bi` of a bitmap block. -/
def bitOf (data : Block) (bi : Nat) : Bool := (data (bi / 8)).getLsbD (bi % 8)

theorem mask_eq (bi : Nat) : mask bi = BitVec.twoPow 8 (bi % 8) := rfl

variable {data : Block} {bi b : Nat} {disk : Disk}

theorem free_iff : data (bi / 8) &&& mask bi = 0#8 <-> bitOf data bi = false := by
  have bound : bi % 8 < 8 := Nat.mod_lt _ (by decide)
  rw [mask_eq, BitVec.and_twoPow, bitOf]
  by_cases set : (data (bi / 8)).getLsbD (bi % 8) = true
  · rw [if_pos set, set]
    constructor
    · intro zero
      have bit := congrArg (fun byte : Byte => byte.getLsbD (bi % 8)) zero
      simp [bound] at bit
    · intro wrong
      cases wrong
  · rw [if_neg set]
    exact ⟨fun _ => Bool.eq_false_iff.mpr set, fun _ => rfl⟩

/-- Two indices name the same bit only when they are the same. -/
theorem bit_index {bj : Nat} (byte : bj / 8 = bi / 8) (bit : bj % 8 = bi % 8) : bj = bi := by
  omega

theorem bitOf_setBit (data : Block) (bi bj : Nat) :
    bitOf (setBit data bi) bj = (bitOf data bj || bj = bi) := by
  have bound : bi % 8 < 8 := Nat.mod_lt _ (by decide)
  unfold bitOf setBit
  by_cases byte : bj / 8 = bi / 8
  · rw [byte, update_self, BitVec.getLsbD_or, mask_eq, BitVec.getLsbD_twoPow]
    congr 1
    have same : (bi % 8 = bj % 8) = (bj = bi) :=
      propext ⟨fun bit => bit_index byte bit.symm, fun equal => by rw [equal]⟩
    simp only [bound, same, decide_true, Bool.true_and]
  · have apart : bj ≠ bi := fun equal => byte (by rw [equal])
    rw [update_of_ne byte]
    simp only [apart, decide_false, Bool.or_false]

theorem bitOf_clearBit (data : Block) (bi bj : Nat) :
    bitOf (clearBit data bi) bj = (bitOf data bj && bj ≠ bi) := by
  have bound : bi % 8 < 8 := Nat.mod_lt _ (by decide)
  have other : bj % 8 < 8 := Nat.mod_lt _ (by decide)
  unfold bitOf clearBit
  by_cases byte : bj / 8 = bi / 8
  · rw [byte, update_self, BitVec.getLsbD_and, BitVec.getLsbD_not, mask_eq, BitVec.getLsbD_twoPow]
    congr 1
    have same : (bi % 8 = bj % 8) = (bj = bi) :=
      propext ⟨fun bit => bit_index byte bit.symm, fun equal => by rw [equal]⟩
    simp only [bound, other, same, decide_true, Bool.true_and, ne_eq, decide_not]
  · grind [update_apply]

theorem bitOf_mkfsBits (used bi : Nat) : bitOf (mkfsBits used) bi = decide (bi < used) := by
  induction used with
  | zero => simp [bitOf, mkfsBits]
  | succ used step =>
    rw [mkfsBits, bitOf_setBit, step]
    by_cases same : bi = used
    · simp [same]
    · have shift : (bi < used + 1) = (bi < used) := propext ⟨fun less => by omega, fun less => by omega⟩
      simp [same, shift]

/-! ## The bitmap as a whole -/

/-- The bit of block `b`. -/
def marked (disk : Disk) (ninodes b : Nat) : Bool := bitOf (disk (BBLOCK b ninodes)) (b % BPB)

theorem ballocBit_some {size : Nat} (more : Nat) : ∀ bi found,
    ballocBit data size b more bi = some found ->
      bi <= found /\ found < bi + more /\ b + found < size /\ bitOf data found = false /\
        ∀ bj, bi <= bj -> bj < found -> bitOf data bj = true := by
  induction more with
  | zero =>
    intro bi found run
    cases run
  | succ more step =>
    intro bi found run
    rw [ballocBit] at run
    by_cases inside : b + bi < size
    · rw [if_pos inside] at run
      by_cases free : data (bi / 8) &&& mask bi = 0#8
      · rw [if_pos free] at run
        cases run
        exact ⟨le_rfl, by omega, inside, free_iff.mp free, fun bj low high => by omega⟩
      · rw [if_neg free] at run
        rcases step (bi + 1) found run with ⟨low, high, below, clear, set⟩
        refine ⟨by omega, by omega, below, clear, ?_⟩
        intro bj first second
        by_cases same : bj = bi
        · rw [free_iff] at free
          rw [same]
          exact (Bool.not_eq_false _).mp free
        · exact set bj (by omega) second
    · rw [if_neg inside] at run
      cases run

theorem ballocBit_none {size : Nat} (more : Nat) : ∀ bi,
    ballocBit data size b more bi = none ->
      ∀ bj, bi <= bj -> bj < bi + more -> b + bj < size -> bitOf data bj = true := by
  induction more with
  | zero =>
    intro bi _ bj low high
    omega
  | succ more step =>
    intro bi run bj low high below
    rw [ballocBit, if_pos (by omega)] at run
    by_cases free : data (bi / 8) &&& mask bi = 0#8
    · rw [if_pos free] at run
      cases run
    · rw [if_neg free] at run
      by_cases same : bj = bi
      · rw [free_iff] at free
        rw [same]
        exact (Bool.not_eq_false _).mp free
      · exact step (bi + 1) run bj (by omega) (by omega) below

/-- The bit of block `b + bi` in the bitmap block of `b`. -/
theorem marked_add (disk : Disk) (ninodes : Nat) (aligned : BPB ∣ b) (small : bi < BPB) :
    BBLOCK (b + bi) ninodes = BBLOCK b ninodes /\ (b + bi) % BPB = bi /\
      marked disk ninodes (b + bi) = bitOf (disk (BBLOCK b ninodes)) bi := by
  rcases aligned with ⟨k, rfl⟩
  have pos : 0 < BPB := by decide
  have block : BBLOCK (BPB * k + bi) ninodes = BBLOCK (BPB * k) ninodes := by
    rw [BBLOCK, BBLOCK, Nat.mul_add_div pos, Nat.div_eq_of_lt small, Nat.mul_div_cancel_left k pos]
    omega
  have index : (BPB * k + bi) % BPB = bi := by
    rw [Nat.mul_add_mod, Nat.mod_eq_of_lt small]
  exact ⟨block, index, by rw [marked, block, index]⟩

theorem ballocLoop_some {sb : Superblock} (more : Nat) : ∀ b found bi, BPB ∣ b ->
    ballocLoop disk sb more b = some (found, bi) ->
      BPB ∣ found /\ bi < BPB /\ found + bi < sb.size /\
      marked disk sb.ninodes (found + bi) = false /\
        ∀ c, b <= c -> c < found + bi -> marked disk sb.ninodes c = true := by
  induction more with
  | zero =>
    intro b found bi _ run
    cases run
  | succ more step =>
    intro b found bi aligned run
    rw [ballocLoop] at run
    by_cases inside : b < sb.size
    · rw [if_pos inside] at run
      cases scan : ballocBit (disk (BBLOCK b sb.ninodes)) sb.size b BPB 0 with
      | some here =>
        rw [scan] at run
        cases run
        rcases ballocBit_some BPB 0 bi scan with ⟨_, high, below, clear, set⟩
        have small : bi < BPB := by omega
        refine ⟨aligned, small, below, (marked_add disk sb.ninodes aligned small).2.2.trans clear, ?_⟩
        intro c low less
        have index : c = b + (c - b) := by omega
        rw [index, (marked_add disk sb.ninodes aligned (by omega)).2.2]
        exact set (c - b) (Nat.zero_le _) (by omega)
      | none =>
        rw [scan] at run
        rcases step (b + BPB) found bi (Nat.dvd_add aligned (Nat.dvd_refl BPB))
          run with ⟨even, small, below, clear, set⟩
        refine ⟨even, small, below, clear, ?_⟩
        intro c low less
        by_cases near : c < b + BPB
        · have index : c = b + (c - b) := by omega
          rw [index, (marked_add disk sb.ninodes aligned (by omega)).2.2]
          exact ballocBit_none BPB 0 scan (c - b) (Nat.zero_le _) (by omega) (by omega)
        · exact set c (by omega) less
    · rw [if_neg inside] at run
      cases run

theorem ballocLoop_none {sb : Superblock} (more : Nat) : ∀ b, BPB ∣ b ->
    sb.size <= b + more * BPB -> ballocLoop disk sb more b = none ->
      ∀ c, b <= c -> c < sb.size -> marked disk sb.ninodes c = true := by
  induction more with
  | zero =>
    intro b _ enough _ c low below
    omega
  | succ more step =>
    intro b aligned enough run c low below
    rw [ballocLoop, if_pos (by omega)] at run
    cases scan : ballocBit (disk (BBLOCK b sb.ninodes)) sb.size b BPB 0 with
    | some here =>
      rw [scan] at run
      cases run
    | none =>
      rw [scan] at run
      by_cases near : c < b + BPB
      · have index : c = b + (c - b) := by omega
        rw [index, (marked_add disk sb.ninodes aligned (by omega)).2.2]
        exact ballocBit_none BPB 0 scan (c - b) (Nat.zero_le _) (by omega) (by omega)
      · refine step (b + BPB) (Nat.dvd_add aligned (Nat.dvd_refl BPB)) ?_ run c (by omega) below
        rw [Nat.succ_mul] at enough
        omega

variable {after : Disk}

/-- `balloc` takes the first block whose bit is clear, and panics when there is none below
`sb.size`. -/
theorem balloc_ok (run : balloc disk = .ok (b, after)) :
    b < (readsb disk).size /\ marked disk (readsb disk).ninodes b = false /\
      (∀ c, c < b -> marked disk (readsb disk).ninodes c = true) /\
      after = bzero (update disk (BBLOCK b (readsb disk).ninodes)
        (setBit (disk (BBLOCK b (readsb disk).ninodes)) (b % BPB))) b := by
  rw [balloc] at run
  generalize loop : ballocLoop disk (readsb disk) ((readsb disk).size / BPB + 1) 0 = result at run
  cases result with
  | none => cases run
  | some pair =>
    cases run
    rcases ballocLoop_some _ 0 pair.1 pair.2 (Nat.dvd_zero BPB)
      loop with ⟨aligned, small, below, clear, set⟩
    rcases marked_add disk (readsb disk).ninodes aligned small with ⟨block, index, _⟩
    exact ⟨below, clear, fun c less => set c (Nat.zero_le c) less, by rw [block, index]⟩

theorem balloc_error {panic : Panic} (run : balloc disk = .error panic) :
    panic = .outOfBlocks /\ ∀ c, c < (readsb disk).size ->
    marked disk (readsb disk).ninodes c = true := by
  rw [balloc] at run
  generalize loop : ballocLoop disk (readsb disk) ((readsb disk).size / BPB + 1) 0 = result at run
  cases result with
  | none =>
    cases run
    refine ⟨rfl, fun c below => ?_⟩
    apply ballocLoop_none _ 0 (Nat.dvd_zero BPB) _ loop c (Nat.zero_le c) below
    have whole := Nat.div_add_mod (readsb disk).size BPB
    have rest : (readsb disk).size % BPB < BPB := Nat.mod_lt _ (by decide)
    rw [Nat.add_mul, Nat.mul_comm]
    omega
  | some pair => cases run

theorem bfree_ok (run : bfree disk b = .ok after) :
    after = update disk (BBLOCK b (readsb disk).ninodes)
      (clearBit (disk (BBLOCK b (readsb disk).ninodes)) (b % BPB)) := by
  unfold bfree at run
  by_cases free : disk (BBLOCK b (readsb disk).ninodes) (b % BPB / 8) &&& mask (b % BPB) = 0#8
  · simp only [if_pos free] at run
    cases run
  · simp only [if_neg free] at run
    cases run
    rfl

/-- Two blocks have the same bit only when they are the same. -/
theorem block_index {c ninodes : Nat} (block : BBLOCK c ninodes = BBLOCK b ninodes)
    (index : c % BPB = b % BPB) : c = b := by
  have quotient : c / BPB = b / BPB := by
    unfold BBLOCK at block
    omega
  rw [<- Nat.div_add_mod c BPB, quotient, index, Nat.div_add_mod]

theorem marked_setBit (disk : Disk) (ninodes b c : Nat) :
    marked (update disk (BBLOCK b ninodes) (setBit (disk (BBLOCK b ninodes)) (b % BPB))) ninodes c =
      (marked disk ninodes c || c = b) := by
  unfold marked
  by_cases block : BBLOCK c ninodes = BBLOCK b ninodes
  · have same : (c % BPB = b % BPB) = (c = b) := propext ⟨block_index block, fun equal => by rw [equal]⟩
    rw [block, update_self, bitOf_setBit]
    simp only [same]
  · have apart : c ≠ b := fun equal => block (by rw [equal])
    rw [update_of_ne block]
    simp only [apart, decide_false, Bool.or_false]

theorem marked_clearBit (disk : Disk) (ninodes b c : Nat) :
    marked (update disk (BBLOCK b ninodes) (clearBit (disk (BBLOCK b ninodes)) (b % BPB))) ninodes
      c = (marked disk ninodes c && c ≠ b) := by
  unfold marked
  by_cases block : BBLOCK c ninodes = BBLOCK b ninodes
  · have same : (c % BPB = b % BPB) = (c = b) := propext ⟨block_index block, fun equal => by rw [equal]⟩
    rw [block, update_self, bitOf_clearBit]
    simp only [ne_eq, same]
  · grind [update_apply]

/-- The bitmap is before the data. -/
theorem BBLOCK_lt_dataStart (sb : Superblock) (c : Nat) (below : c < sb.size) :
    BBLOCK c sb.ninodes < dataStart sb := by
  have smaller : c / BPB <= sb.size / BPB := Nat.div_le_div_right (Nat.le_of_lt below)
  unfold BBLOCK dataStart
  omega

theorem three_lt_dataStart (sb : Superblock) : 3 < dataStart sb := by
  have inodes := Nat.zero_le (sb.ninodes / IPB)
  have bits := Nat.zero_le (sb.size / BPB)
  unfold dataStart
  omega

theorem BBLOCK_ne_one (b ninodes : Nat) : BBLOCK b ninodes ≠ 1 := by
  have bits := Nat.zero_le (b / BPB)
  have inodes := Nat.zero_le (ninodes / IPB)
  unfold BBLOCK
  omega

theorem readsb_update (apart : b ≠ 1) : readsb (update disk b data) = readsb disk := by
  unfold readsb
  rw [update_of_ne apart.symm]

/-! ## Runs -/

/-- What every call keeps. -/
structure Inv (sb : Superblock) (s : State) : Prop where
  super : readsb s.disk = sb
  reserved : ∀ c, c < dataStart sb -> marked s.disk sb.ninodes c = true
  returned : ∀ b, b ∈ s.returned -> dataStart sb <= b /\ b < logStart sb

/-- When `balloc` is called, some data block is free or no block of the log is. -/
def Spare (sb : Superblock) (s : State) : Label -> Prop
  | .balloc => (∃ c, dataStart sb <= c /\ c < logStart sb /\ marked s.disk sb.ninodes c = false) ∨
      ∀ c, logStart sb <= c -> c < sb.size -> marked s.disk sb.ninodes c = true
  | .bfree _ => True

section Runs

variable {sb : Superblock} {s : State} {used : Nat} {disk : Disk}

theorem Image.marked (image : Image sb used disk) {c : Nat} (small : c < BPB) :
    marked disk sb.ninodes c = decide (c < used) := by
  rw [Fs.marked, BBLOCK, Nat.div_eq_of_lt small, Nat.mod_eq_of_lt small, Nat.zero_add, image.bitmap,
    bitOf_mkfsBits]

/-- The first block that `balloc` returns on an image of `mkfs`. -/
theorem Image.balloc_first (image : Image sb used disk) (below : used < sb.size) :
    ∃ after, balloc disk = .ok (used, after) := by
  have fits := image.fits
  have free : Fs.marked disk sb.ninodes used = false := by
    rw [image.marked fits]
    exact decide_eq_false (Nat.lt_irrefl used)
  cases run : balloc disk with
  | error panic =>
    have all := (balloc_error run).2
    rw [image.super] at all
    rw [all used below] at free
    cases free
  | ok pair =>
    rcases balloc_ok run with ⟨_, clear, first, _⟩
    rw [image.super] at clear first
    have same : pair.1 = used := by
      apply Nat.le_antisymm
      · by_contra later
        rw [first used (by omega)] at free
        cases free
      · by_contra earlier
        rw [image.marked (by omega), decide_eq_true (by omega)] at clear
        cases clear
    exact ⟨pair.2, congrArg (fun b => Except.ok (b, pair.2)) same⟩

theorem Image.inv (image : Image sb used disk) : Inv sb (started disk) := by
  have early := image.prefixed
  have fits := image.fits
  constructor
  · exact image.super
  · intro c below
    have small : c < BPB := by omega
    change Fs.marked disk sb.ninodes c = true
    rw [image.marked small]
    exact decide_eq_true (by omega)
  · intro b none
    exact absurd none List.not_mem_nil

theorem Inv.balloc {b : Nat} (valid : Inv sb s) (spare : Spare sb s .balloc)
    (run : balloc s.disk = .ok (b, after)) :
    Inv sb { s with disk := after, returned := b :: s.returned } := by
  rcases balloc_ok run with ⟨below, clear, first, rfl⟩
  rw [valid.super] at below clear first ⊢
  have late : dataStart sb <= b := by
    by_contra early
    rw [valid.reserved b (by omega)] at clear
    cases clear
  have high : b < logStart sb := by
    by_contra inLog
    rcases spare with ⟨c, low, before, free⟩ | full
    · rw [first c (by omega)] at free
      cases free
    · rw [full b (by omega) below] at clear
      cases clear
  have start := three_lt_dataStart sb
  constructor
  · change readsb (bzero _ b) = sb
    rw [bzero, readsb_update (by omega), readsb_update (BBLOCK_ne_one b sb.ninodes), valid.super]
  · intro d reserved
    have block := BBLOCK_lt_dataStart sb d (by omega)
    have same : marked (bzero (update s.disk (BBLOCK b sb.ninodes)
        (setBit (s.disk (BBLOCK b sb.ninodes)) (b % BPB))) b) sb.ninodes d =
          marked (update s.disk (BBLOCK b sb.ninodes)
        (setBit (s.disk (BBLOCK b sb.ninodes)) (b % BPB))) sb.ninodes d := by
      rw [marked, marked, bzero, update_of_ne (by omega)]
    change marked (bzero _ b) sb.ninodes d = true
    rw [same, marked_setBit, valid.reserved d reserved, Bool.true_or]
  · intro d member
    cases List.mem_cons.mp member with
    | inl new => exact new ▸ ⟨late, high⟩
    | inr old => exact valid.returned d old

theorem Inv.bfree {b : Nat} (valid : Inv sb s) (member : b ∈ s.returned)
    (run : bfree s.disk b = .ok after) : Inv sb { s with disk := after } := by
  have late := (valid.returned b member).1
  rw [bfree_ok run, valid.super]
  constructor
  · change readsb (update s.disk _ _) = sb
    rw [readsb_update (BBLOCK_ne_one b sb.ninodes), valid.super]
  · intro c reserved
    change marked (update s.disk _ _) sb.ninodes c = true
    rw [marked_clearBit, valid.reserved c reserved, Bool.true_and]
    exact decide_eq_true (by omega)
  · exact valid.returned

theorem perform_balloc (s : State) : perform s .balloc = afterBalloc s (balloc s.disk) := rfl

theorem perform_bfree (s : State) (b : Nat) :
    perform s (.bfree b) = afterBfree s (bfree s.disk b) := rfl

theorem Inv.perform {label : Label} (valid : Inv sb s) (spare : Spare sb s label)
    (enabled : Enabled s label) : Inv sb (perform s label) := by
  cases label with
  | balloc =>
    cases run : Fs.balloc s.disk with
    | error panic =>
      rw [perform_balloc, run]
      exact ⟨valid.super, valid.reserved, valid.returned⟩
    | ok pair =>
      rw [perform_balloc, run]
      exact valid.balloc spare run
  | bfree b =>
    cases run : Fs.bfree s.disk b with
    | error panic =>
      rw [perform_bfree, run]
      exact ⟨valid.super, valid.reserved, valid.returned⟩
    | ok after =>
      rw [perform_bfree, run]
      exact valid.bfree enabled run

end Runs

/-- The superblock that `mkfs` writes. -/
def mkfsSuperblock : Superblock := ⟨1024, 965, 200, 30⟩

/-- The bytes of that superblock. -/
def mkfsSuperbytes : Block := fun i =>
  match i with
  | 1 => 0x04#8
  | 4 => 0xc5#8
  | 5 => 0x03#8
  | 8 => 0xc8#8
  | 12 => 0x1e#8
  | _ => 0x00#8

/-- An image with nothing but the superblock and the bitmap. -/
def mkfsDisk (used : Nat) : Disk := fun sector =>
  if sector = 1 then mkfsSuperbytes else if sector = 28 then mkfsBits used else fun _ => 0#8

theorem mkfsDisk_image {used : Nat} (prefixed : 29 <= used) (fits : used < BPB) :
    Image mkfsSuperblock used (mkfsDisk used) := by
  constructor
  · change readsb (fun _ => mkfsSuperbytes) = _
    decide
  · rfl
  · exact prefixed
  · exact fits
  · decide

end Xv6.Fs
