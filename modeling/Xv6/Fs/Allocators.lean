import Xv6.Library.Lease
import Xv6.Fs.Encoding

namespace Xv6.Fs.Allocators

open Library
open Inodes (Dinode putDinode dinode IBLOCK LOGSIZE blank code commit BBLOCK_low dataStart_low)
open Function

/-!
# `balloc`, `bfree`, `ialloc` and the freeing of inodes by many processes

A step is what a process does while it holds one buffer.  `balloc` looks at
one bitmap block in a step, and zeroes the block that it has found in a later
one; `ialloc` looks at one inode in a step.  Between two steps any other process
takes its own.

A block in use is freed, or written, by whoever uses it; `owned` says which
blocks are in use.  `fresh` are the blocks that `balloc` returned and that have
not been written since.  The two histories record what the allocators returned
and what was freed.

A commit may come between any two steps.  It copies the logged blocks to the
log, which is at the end of the disk, and installs them.
-/

inductive Task where
  | idle
  /-- In `balloc`, about to read the bitmap block of block `b`. -/
  | scanning (b : Nat)
  /-- In `balloc`, about to zero the block that it has marked. -/
  | zeroing (b : Nat)
  /-- In `ialloc`, about to read inode `inum`. -/
  | searching (kind : Kind) (inum : Nat)
  deriving DecidableEq, Repr

variable {ι : Type}

structure State (ι : Type) where
  disk : Disk
  /-- `log.lh.sector[0 .. log.lh.n)` -/
  logged : List Nat
  task : ι -> Task
  owned : Nat -> Bool
  fresh : Nat -> Bool
  blocks : List (Lease Nat)
  inodes : List (Lease Nat)

inductive Label (ι : Type) where
  | balloc (p : ι)
  | scan (p : ι)
  | bzero (p : ι)
  | bfree (b : Nat)
  /-- Whoever uses the block writes it. -/
  | write (b : Nat) (data : Block)
  | ialloc (p : ι) (kind : Kind)
  | search (p : ι)
  /-- `iupdate` of an inode in use. -/
  | iupdate (i : Nat) (d : Dinode)
  /-- The last `iupdate` of `iput`, with type zero. -/
  | ifree (i : Nat) (d : Dinode)
  | commit

/-! ## Steps -/

/-- `log_write`, which panics when the log is full. -/
def logWrite (s : State ι) (b : Nat) : Option (State ι) :=
  if LOGSIZE <= s.logged.length ∨ (readsb s.disk).nlog - 1 <= s.logged.length then none
  else some { s with logged := if b ∈ s.logged then s.logged else s.logged ++ [b] }

def setDisk (s : State ι) (b : Nat) (data : Block) : State ι :=
  { s with disk := update s.disk b data }

def setInode (s : State ι) (i : Nat) (d : Dinode) : State ι :=
  setDisk s (IBLOCK i) (putDinode (s.disk (IBLOCK i)) i d)

/-- An inode that `ialloc` may return. -/
def Inum (s : State ι) (i : Nat) : Prop := 1 <= i /\ i < (readsb s.disk).ninodes

instance (s : State ι) (i : Nat) : Decidable (Inum s i) := inferInstanceAs (Decidable (_ /\ _))

variable [DecidableEq ι]

def setTask (s : State ι) (p : ι) (task : Task) : State ι := { s with task := update s.task p task }

/-- One pass of the outer loop of `balloc`. -/
def scan (s : State ι) (p : ι) (b : Nat) : Option (State ι) :=
  let sb := readsb s.disk
  if b < sb.size then
    match ballocBit (s.disk (BBLOCK b sb.ninodes)) sb.size b BPB 0 with
    | some bi =>
      logWrite (setTask (setDisk s (BBLOCK b sb.ninodes) (setBit (s.disk (BBLOCK b sb.ninodes)) bi)) p
        (.zeroing (b + bi))) (BBLOCK b sb.ninodes)
    | none => some (setTask s p (.scanning (b + BPB)))
  else none

/-- The end of `balloc`. -/
def bzeroBlock (s : State ι) (p : ι) (b : Nat) : Option (State ι) :=
  logWrite
    { setTask (setDisk s b fun _ => 0#8) p .idle with
      owned := update s.owned b true
      fresh := update s.fresh b true
      blocks := .acquire b :: s.blocks } b

omit [DecidableEq ι] in
def bfreeBlock (s : State ι) (b : Nat) : Option (State ι) :=
  match bfree s.disk b with
  | .error _ => none
  | .ok disk =>
    logWrite
      { s with
        disk := disk
        owned := update s.owned b false
        fresh := update s.fresh b false
        blocks := .release b :: s.blocks } (BBLOCK b (readsb s.disk).ninodes)

/-- One pass of the loop of `ialloc`. -/
def search (s : State ι) (p : ι) (kind : Kind) (inum : Nat) : Option (State ι) :=
  if inum < (readsb s.disk).ninodes then
    if (dinode s.disk inum).type = 0#16 then
      logWrite
        { setTask (setInode s inum (blank (code kind))) p .idle with inodes := .acquire inum :: s.inodes }
        (IBLOCK inum)
    else some (setTask s p (.searching kind (inum + 1)))
  else none

def perform (s : State ι) : Label ι -> Option (State ι)
  | .balloc p => if s.task p = .idle then some (setTask s p (.scanning 0)) else none
  | .scan p =>
    match s.task p with
    | .scanning b => scan s p b
    | _ => none
  | .bzero p =>
    match s.task p with
    | .zeroing b => bzeroBlock s p b
    | _ => none
  | .bfree b => if s.owned b = true then bfreeBlock s b else none
  | .write b data =>
    if s.owned b = true then logWrite { setDisk s b data with fresh := update s.fresh b false } b
    else none
  | .ialloc p kind => if s.task p = .idle then some (setTask s p (.searching kind 1)) else none
  | .search p =>
    match s.task p with
    | .searching kind inum => search s p kind inum
    | _ => none
  | .iupdate i d =>
    if Inum s i /\ (dinode s.disk i).type ≠ 0#16 /\ d.type ≠ 0#16 then logWrite (setInode s i d)
      (IBLOCK i) else none
  | .ifree i d =>
    if Inum s i /\ (dinode s.disk i).type ≠ 0#16 then
      logWrite { setInode s i { d with type := 0#16 } with inodes := .release i :: s.inodes } (IBLOCK i)
    else none
  | .commit => some { s with disk := commit s.disk s.logged, logged := [] }

def Step (s : State ι) (label : Label ι) (t : State ι) : Prop := perform s label = some t

omit [DecidableEq ι] in
/-- All data blocks that the bitmap marks are in use. -/
def started (sb : Superblock) (disk : Disk) : State ι where
  disk := disk
  logged := []
  task := fun _ => .idle
  owned := fun b => dataStart sb <= b /\ b < logStart sb /\ marked disk sb.ninodes b = true
  fresh := fun _ => false
  blocks := []
  inodes := []

/-- The bitmap marks what is before the data, and the log is behind it. -/
structure WellFormed (sb : Superblock) (disk : Disk) : Prop where
  super : readsb disk = sb
  reserved : ∀ c, c < dataStart sb -> marked disk sb.ninodes c = true
  layout : dataStart sb <= logStart sb

/-- Block `c` has the first clear bit of the bitmap block that starts with the bit of block `b`. -/
structure First (sb : Superblock) (disk : Disk) (b c : Nat) : Prop where
  low : b <= c
  high : c < b + BPB
  inside : c < sb.size
  clear : marked disk sb.ninodes c = false
  before : ∀ d, b <= d -> d < c -> marked disk sb.ninodes d = true

omit [DecidableEq ι] in
/-- The first clear bit of the bitmap block that a scan reads is not the bit of a log block. -/
def Spare (sb : Superblock) (s : State ι) : Label ι -> Prop
  | .scan p => ∀ b c, s.task p = .scanning b -> First sb s.disk b c -> c < logStart sb
  | _ => True

/-! ## The invariant -/

/-- A data block that the bitmap marks. -/
structure Claimed (sb : Superblock) (disk : Disk) (b : Nat) : Prop where
  low : dataStart sb <= b
  high : b < logStart sb
  marked : marked disk sb.ninodes b = true

structure Inv (sb : Superblock) (s : State ι) : Prop where
  well : WellFormed sb s.disk
  owned : ∀ b, s.owned b = true -> Claimed sb s.disk b
  zeroing : ∀ p b, s.task p = .zeroing b -> Claimed sb s.disk b /\ s.owned b = false
  sole : ∀ p q b, s.task p = .zeroing b -> s.task q = .zeroing b -> p = q
  scanning : ∀ p b, s.task p = .scanning b -> BPB ∣ b
  fresh : ∀ b, s.fresh b = true -> s.owned b = true /\ s.disk b = fun _ => 0#8
  logged : ∀ c, c ∈ s.logged -> c < logStart sb
  blocks : Lease.Exclusive s.blocks /\ ∀ b, Lease.Held s.blocks b -> s.owned b = true
  inodes : Lease.Exclusive s.inodes /\
    ∀ i, Lease.Held s.inodes i -> i < sb.ninodes /\ (dinode s.disk i).type ≠ 0#16

/-! ## What a write leaves -/

section Disk

variable {sb : Superblock} {disk disk' : Disk}

theorem IBLOCK_lt {i : Nat} (below : i < sb.ninodes) : IBLOCK i < sb.ninodes / IPB + 3 := by
  have smaller : i / IPB <= sb.ninodes / IPB := Nat.div_le_div_right (Nat.le_of_lt below)
  unfold IBLOCK
  omega

theorem marked_congr {c : Nat} (same : disk' (BBLOCK c sb.ninodes) = disk (BBLOCK c sb.ninodes)) :
    marked disk' sb.ninodes c = marked disk sb.ninodes c := by
  unfold marked
  rw [same]

theorem type_congr {i : Nat} (same : disk' (IBLOCK i) = disk (IBLOCK i)) :
    (dinode disk' i).type = (dinode disk i).type := by
  unfold dinode
  rw [same]

theorem logStart_le (sb : Superblock) : logStart sb <= sb.size := Nat.sub_le _ _

/-- A change at or behind the data blocks. -/
structure Behind (sb : Superblock) (disk disk' : Disk) : Prop where
  super : readsb disk' = readsb disk
  marked : ∀ c, c < sb.size -> marked disk' sb.ninodes c = marked disk sb.ninodes c
  type : ∀ i, i < sb.ninodes -> (dinode disk' i).type = (dinode disk i).type

theorem Behind.of_low (low : ∀ c, c < dataStart sb -> disk' c = disk c) : Behind sb disk disk' where
  super := by
    unfold readsb
    rw [low 1 (Nat.lt_trans (by decide) (three_lt_dataStart sb))]
  marked c below := marked_congr (low _ (BBLOCK_lt_dataStart sb c below))
  type i below := type_congr (low _ (Nat.lt_trans (IBLOCK_lt below) (dataStart_low sb)))

theorem WellFormed.behind (well : WellFormed sb disk) (behind : Behind sb disk disk') :
    WellFormed sb disk' where
  super := behind.super.trans well.super
  reserved c below := by
    have inside : c < sb.size := Nat.lt_of_lt_of_le below (Nat.le_trans well.layout (logStart_le sb))
    rw [behind.marked c inside]
    exact well.reserved c below
  layout := well.layout

theorem Claimed.behind {b : Nat} (claimed : Claimed sb disk b)
    (behind : Behind sb disk disk') : Claimed sb disk' b where
  low := claimed.low
  high := claimed.high
  marked := by
    rw [behind.marked b (Nat.lt_of_lt_of_le claimed.high (logStart_le sb))]
    exact claimed.marked

theorem Claimed.lt_size {b : Nat} (claimed : Claimed sb disk b) : b < sb.size :=
  Nat.lt_of_lt_of_le claimed.high (logStart_le sb)

end Disk

namespace Inv

variable {sb : Superblock} {s t : State ι} {p : ι}

variable {b : Nat}

omit [DecidableEq ι] in
theorem logWrite (inv : Inv sb s) (low : b < logStart sb)
    (done : logWrite s b = some t) : Inv sb t := by
  unfold Allocators.logWrite at done
  split at done
  next => cases done
  next =>
    cases done
    exact { inv with
      logged := by
        intro c listed
        dsimp only at listed
        split at listed
        next => exact inv.logged c listed
        next =>
          rcases List.mem_append.mp listed with old | new
          · exact inv.logged c old
          · rw [List.mem_singleton.mp new]
            exact low }

/-- A process goes on, and does not zero a block. -/
theorem setTask {task : Task} (inv : Inv sb s) (quiet : ∀ b, task ≠ .zeroing b)
    (aligned : ∀ b, task = .scanning b -> BPB ∣ b) : Inv sb (setTask s p task) := by
  have zeroing : ∀ {q : ι} {b : Nat}, (Allocators.setTask s p task).task q = .zeroing b ->
      s.task q = .zeroing b := by
    intro q b here
    dsimp only [Allocators.setTask] at here
    by_cases same : q = p
    · rw [same, update_self] at here
      exact absurd here (quiet b)
    · rw [update_of_ne same] at here
      exact here
  exact { inv with
    zeroing := fun q b here => inv.zeroing q b (zeroing here)
    sole := fun q r b first second => inv.sole q r b (zeroing first) (zeroing second)
    scanning := by
      intro q b here
      dsimp only [Allocators.setTask] at here
      by_cases same : q = p
      · rw [same, update_self] at here
        exact aligned b here
      · rw [update_of_ne same] at here
        exact inv.scanning q b here }

/-- The part of `balloc` that marks block `c`. -/
theorem mark {c : Nat} {block : Block} (inv : Inv sb s) (below : c < logStart sb)
    (free : marked s.disk sb.ninodes c = false)
    (bits : block = setBit (s.disk (BBLOCK c sb.ninodes)) (c % BPB)) :
    Inv sb (Allocators.setTask (setDisk s (BBLOCK c sb.ninodes) block) p (.zeroing c)) := by
  have inside : c < sb.size := Nat.lt_of_lt_of_le below (logStart_le sb)
  have late : dataStart sb <= c := by
    by_contra early
    rw [inv.well.reserved c (Nat.lt_of_not_le early)] at free
    cases free
  have place := BBLOCK_lt_dataStart sb c inside
  have marks : ∀ d, marked (update s.disk (BBLOCK c sb.ninodes) block) sb.ninodes d =
      (marked s.disk sb.ninodes d || d = c) := by
    intro d
    rw [bits]
    exact marked_setBit s.disk sb.ninodes c d
  have claims : ∀ {d : Nat}, Claimed sb s.disk d ->
      Claimed sb (update s.disk (BBLOCK c sb.ninodes) block) d := by
    intro d claimed
    refine ⟨claimed.low, claimed.high, ?_⟩
    rw [marks, claimed.marked]
    rfl
  have other : ∀ {d : Nat}, Claimed sb s.disk d -> d ≠ c := by
    rintro d claimed rfl
    rw [claimed.marked] at free
    cases free
  have notOwned : s.owned c = false := by
    by_contra owned
    exact other (inv.owned c ((Bool.not_eq_false _).mp owned)) rfl
  have zeroing : ∀ q d, update s.task p (.zeroing c) q = .zeroing d ->
      (q = p /\ d = c) ∨ (q ≠ p /\ s.task q = .zeroing d) := by
    intro q d here
    by_cases same : q = p
    · rw [same, update_self] at here
      exact .inl ⟨same, (Task.zeroing.inj here).symm⟩
    · rw [update_of_ne same] at here
      exact .inr ⟨same, here⟩
  constructor
  · constructor
    · exact (readsb_update (BBLOCK_ne_one c sb.ninodes)).trans inv.well.super
    · intro d early
      dsimp only [Allocators.setTask, setDisk]
      rw [marks, inv.well.reserved d early]
      rfl
    · exact inv.well.layout
  · exact fun d owned => claims (inv.owned d owned)
  · intro q d here
    rcases zeroing q d here with ⟨_, rfl⟩ | ⟨_, before⟩
    · refine ⟨⟨late, below, ?_⟩, notOwned⟩
      exact (marks d).trans (by rw [decide_eq_true rfl, Bool.or_true])
    · exact ⟨claims (inv.zeroing q d before).1, (inv.zeroing q d before).2⟩
  · intro q r d first second
    rcases zeroing q d first with ⟨rfl, rfl⟩ | ⟨_, before⟩
    · rcases zeroing r d second with ⟨rfl, _⟩ | ⟨_, before⟩
      · rfl
      · exact absurd rfl (other (inv.zeroing r d before).1)
    · rcases zeroing r d second with ⟨_, rfl⟩ | ⟨_, secondBefore⟩
      · exact absurd rfl (other (inv.zeroing q d before).1)
      · exact inv.sole q r d before secondBefore
  · intro q d here
    dsimp only [Allocators.setTask] at here
    by_cases same : q = p
    · rw [same, update_self] at here
      cases here
    · rw [update_of_ne same] at here
      exact inv.scanning q d here
  · intro d fresh
    rcases inv.fresh d fresh with ⟨owned, zeros⟩
    refine ⟨owned, ?_⟩
    dsimp only [Allocators.setTask, setDisk]
    rw [update_of_ne (Nat.ne_of_gt (Nat.lt_of_lt_of_le place (inv.owned d owned).low))]
    exact zeros
  · exact inv.logged
  · exact inv.blocks
  · refine ⟨inv.inodes.1, fun i held => ?_⟩
    rcases inv.inodes.2 i held with ⟨number, used⟩
    refine ⟨number, ?_⟩
    dsimp only [Allocators.setTask, setDisk]
    rw [type_congr]
    · exact used
    · exact update_of_ne (Nat.ne_of_lt (Nat.lt_of_lt_of_le (IBLOCK_lt number)
        (BBLOCK_low c sb.ninodes))) _ _

theorem scan (inv : Inv sb s) (here : s.task p = .scanning b) (spare : Spare sb s (.scan p))
    (done : scan s p b = some t) : Inv sb t := by
  have aligned := inv.scanning p b here
  unfold Allocators.scan at done
  rw [inv.well.super] at done
  dsimp only at done
  split at done
  next below =>
    split at done
    next bi found =>
      rcases ballocBit_some BPB 0 bi found with ⟨_, small, inside, clear, before⟩
      rw [Nat.zero_add] at small
      rcases marked_add s.disk sb.ninodes aligned small with ⟨block, index, bit⟩
      have first : First sb s.disk b (b + bi) := by
        refine ⟨Nat.le_add_right b bi, by omega, inside, bit.trans clear, fun d late early => ?_⟩
        obtain ⟨k, rfl⟩ := Nat.exists_eq_add_of_le late
        exact (marked_add s.disk sb.ninodes aligned (by omega)).2.2.trans
          (before k (Nat.zero_le k) (by omega))
      have low : b + bi < logStart sb := spare b _ here first
      have marks : Inv sb (Allocators.setTask (setDisk s (BBLOCK b sb.ninodes)
          (setBit (s.disk (BBLOCK b sb.ninodes)) bi)) p (.zeroing (b + bi))) := by
        rw [<- block]
        apply inv.mark low (bit.trans clear)
        rw [index]
      have place := BBLOCK_lt_dataStart sb b below
      exact marks.logWrite (Nat.lt_of_lt_of_le place inv.well.layout) done
    next =>
      cases done
      apply inv.setTask (by nofun)
      intro c next
      cases next
      exact (Nat.dvd_add_right aligned).mpr (Nat.dvd_refl _)
  next => cases done

omit [DecidableEq ι] in
/-- A write of a data block. -/
theorem behind_setDisk {data : Block} (late : dataStart sb <= b) :
    Behind sb s.disk (update s.disk b data) := by
  apply Behind.of_low
  intro c early
  exact update_of_ne (Nat.ne_of_lt (Nat.lt_of_lt_of_le early late)) _ _

omit [DecidableEq ι] in
theorem inodes_behind {disk : Disk} (inv : Inv sb s) (behind : Behind sb s.disk disk) (i : Nat)
    (held : Lease.Held s.inodes i) : i < sb.ninodes /\ (dinode disk i).type ≠ 0#16 := by
  rcases inv.inodes.2 i held with ⟨number, used⟩
  refine ⟨number, ?_⟩
  rw [behind.type i number]
  exact used

theorem bzeroBlock (inv : Inv sb s) (here : s.task p = .zeroing b)
    (done : bzeroBlock s p b = some t) : Inv sb t := by
  rcases inv.zeroing p b here with ⟨claimed, notOwned⟩
  refine logWrite ?_ claimed.high done
  have behind : Behind sb s.disk (update s.disk b fun _ => 0#8) := behind_setDisk claimed.low
  have others : ∀ {q : ι} {c : Nat}, update s.task p .idle q = .zeroing c ->
      q ≠ p /\ s.task q = .zeroing c := by
    intro q c still
    by_cases same : q = p
    · rw [same, update_self] at still
      cases still
    · rw [update_of_ne same] at still
      exact ⟨same, still⟩
  constructor
  · exact inv.well.behind behind
  · intro c owned
    dsimp only at owned
    by_cases same : c = b
    · rw [same]
      exact claimed.behind behind
    · rw [update_of_ne same] at owned
      exact (inv.owned c owned).behind behind
  · intro q c still
    rcases others still with ⟨apart, before⟩
    refine ⟨(inv.zeroing q c before).1.behind behind, ?_⟩
    have ne : c ≠ b := fun same => apart (inv.sole q p c before (by rw [here, same]))
    exact (update_of_ne ne _ _).trans (inv.zeroing q c before).2
  · exact fun q r c first second => inv.sole q r c (others first).2 (others second).2
  · intro q c still
    by_cases same : q = p
    · dsimp only [Allocators.setTask] at still
      rw [same, update_self] at still
      cases still
    · dsimp only [Allocators.setTask] at still
      rw [update_of_ne same] at still
      exact inv.scanning q c still
  · intro c fresh
    dsimp only [Allocators.setTask, setDisk] at fresh ⊢
    by_cases same : c = b
    · rw [same, update_self, update_self]
      exact ⟨rfl, rfl⟩
    · rw [update_of_ne same] at fresh
      rw [update_of_ne same, update_of_ne same]
      exact inv.fresh c fresh
  · exact inv.logged
  · constructor
    · apply inv.blocks.1.acquire
      intro held
      rw [inv.blocks.2 b held] at notOwned
      cases notOwned
    · intro c held
      dsimp only
      by_cases same : c = b
      · rw [same, update_self]
      · rw [update_of_ne same]
        rcases held with equal | held
        · exact absurd equal.symm same
        · exact inv.blocks.2 c held
  · exact ⟨inv.inodes.1, inv.inodes_behind behind⟩

section

omit [DecidableEq ι]

theorem bfreeBlock (inv : Inv sb s) (owned : s.owned b = true) (done : bfreeBlock s b = some t) :
    Inv sb t := by
  have claimed := inv.owned b owned
  unfold Allocators.bfreeBlock at done
  split at done
  next => cases done
  next disk freed =>
    rw [inv.well.super] at done
    have place := BBLOCK_lt_dataStart sb b claimed.lt_size
    refine logWrite ?_ (Nat.lt_of_lt_of_le place inv.well.layout) done
    have change : disk = update s.disk (BBLOCK b sb.ninodes)
        (clearBit (s.disk (BBLOCK b sb.ninodes)) (b % BPB)) := by
      have after := bfree_ok freed
      rw [inv.well.super] at after
      exact after
    have marks : ∀ c, marked disk sb.ninodes c = (marked s.disk sb.ninodes c && c ≠ b) := by
      intro c
      rw [change]
      exact marked_clearBit s.disk sb.ninodes b c
    have claims : ∀ {c : Nat}, Claimed sb s.disk c -> c ≠ b -> Claimed sb disk c := by
      intro c before ne
      refine ⟨before.low, before.high, ?_⟩
      rw [marks, before.marked, decide_eq_true ne]
      rfl
    constructor
    · constructor
      · rw [change]
        exact (readsb_update (BBLOCK_ne_one b sb.ninodes)).trans inv.well.super
      · intro c early
        have ne : c ≠ b := Nat.ne_of_lt (Nat.lt_of_lt_of_le early claimed.low)
        dsimp only
        rw [marks, inv.well.reserved c early, decide_eq_true ne]
        rfl
      · exact inv.well.layout
    · grind [update_apply, inv.owned]
    · grind [update_apply, inv.zeroing]
    · exact inv.sole
    · exact inv.scanning
    · intro c fresh
      dsimp only at fresh ⊢
      by_cases same : c = b
      · rw [same, update_self] at fresh
        cases fresh
      · rw [update_of_ne same] at fresh
        rcases inv.fresh c fresh with ⟨stillOwned, zeros⟩
        refine ⟨(update_of_ne same _ _).trans stillOwned, ?_⟩
        rw [change, update_of_ne (Nat.ne_of_gt (Nat.lt_of_lt_of_le place (inv.owned c stillOwned).low))]
        exact zeros
    · exact inv.logged
    · refine ⟨inv.blocks.1.release b, fun c held => ?_⟩
      exact (update_of_ne (Ne.symm held.1) _ _).trans (inv.blocks.2 c held.2)
    · refine ⟨inv.inodes.1, fun i held => ?_⟩
      rcases inv.inodes.2 i held with ⟨number, used⟩
      refine ⟨number, ?_⟩
      dsimp only
      rw [change, type_congr]
      · exact used
      · exact update_of_ne (Nat.ne_of_lt (Nat.lt_of_lt_of_le (IBLOCK_lt number)
          (BBLOCK_low b sb.ninodes))) _ _

theorem write {data : Block} (inv : Inv sb s) (owned : s.owned b = true) :
    Inv sb { setDisk s b data with fresh := update s.fresh b false } := by
  have claimed := inv.owned b owned
  have behind : Behind sb s.disk (update s.disk b data) := behind_setDisk claimed.low
  constructor
  · exact inv.well.behind behind
  · exact fun c owned => (inv.owned c owned).behind behind
  · exact fun q c here => ⟨(inv.zeroing q c here).1.behind behind, (inv.zeroing q c here).2⟩
  · exact inv.sole
  · exact inv.scanning
  · intro c fresh
    dsimp only [setDisk] at fresh ⊢
    by_cases same : c = b
    · rw [same, update_self] at fresh
      cases fresh
    · rw [update_of_ne same] at fresh ⊢
      exact inv.fresh c fresh
  · exact inv.logged
  · exact inv.blocks
  · exact ⟨inv.inodes.1, inv.inodes_behind behind⟩

/-- A write of an inode. -/
theorem setInode {i : Nat} {d : Dinode} {inodes : List (Lease Nat)} (inv : Inv sb s)
    (number : i < sb.ninodes)
    (leases : Lease.Exclusive inodes /\ ∀ j, Lease.Held inodes j ->
      (j = i -> d.type ≠ 0#16) /\ (j ≠ i -> Lease.Held s.inodes j)) :
    Inv sb { setInode s i d with inodes := inodes } := by
  have place := IBLOCK_lt number
  have marks : ∀ c, marked (update s.disk (IBLOCK i) (putDinode (s.disk (IBLOCK i)) i d)) sb.ninodes c =
      marked s.disk sb.ninodes c := by
    intro c
    apply marked_congr
    exact update_of_ne (Nat.ne_of_gt (Nat.lt_of_lt_of_le place (BBLOCK_low c sb.ninodes))) _ _
  have claims : ∀ {c : Nat}, Claimed sb s.disk c ->
      Claimed sb (update s.disk (IBLOCK i) (putDinode (s.disk (IBLOCK i)) i d)) c :=
    fun before => ⟨before.low, before.high, (marks _).trans before.marked⟩
  constructor
  · constructor
    · have apart : IBLOCK i ≠ 1 := by
        have blocks := Nat.zero_le (i / IPB)
        unfold IBLOCK
        omega
      exact (readsb_update apart).trans inv.well.super
    · exact fun c early => (marks c).trans (inv.well.reserved c early)
    · exact inv.well.layout
  · exact fun c owned => claims (inv.owned c owned)
  · exact fun q c here => ⟨claims (inv.zeroing q c here).1, (inv.zeroing q c here).2⟩
  · exact inv.sole
  · exact inv.scanning
  · intro c fresh
    rcases inv.fresh c fresh with ⟨owned, zeros⟩
    refine ⟨owned, ?_⟩
    dsimp only [Allocators.setInode, setDisk]
    rw [update_of_ne]
    · exact zeros
    · exact Nat.ne_of_gt (Nat.lt_trans place (Nat.lt_of_lt_of_le (dataStart_low sb)
        (inv.owned c owned).low))
  · exact inv.logged
  · exact inv.blocks
  · refine ⟨leases.1, fun j held => ?_⟩
    rcases leases.2 j held with ⟨mine, other⟩
    dsimp only [Allocators.setInode, setDisk]
    rw [Inodes.type_update]
    by_cases same : j = i
    · rw [if_pos same, same]
      exact ⟨number, mine same⟩
    · rw [if_neg same]
      exact inv.inodes.2 j (other same)

end

theorem search {kind : Kind} {inum : Nat} (inv : Inv sb s)
    (done : search s p kind inum = some t) : Inv sb t := by
  unfold Allocators.search at done
  rw [inv.well.super] at done
  split at done
  next number =>
    have place := Nat.lt_trans (IBLOCK_lt number) (dataStart_low sb)
    split at done
    next free =>
      refine logWrite ?_ (Nat.lt_of_lt_of_le place inv.well.layout) done
      have used : (blank (code kind)).type ≠ 0#16 := by cases kind <;> decide
      have change : Inv sb { Allocators.setInode s inum (blank (code kind)) with
          inodes := .acquire inum :: s.inodes } := by
        apply inv.setInode number
        constructor
        · apply inv.inodes.1.acquire
          intro held
          exact (inv.inodes.2 inum held).2 free
        · intro j held
          refine ⟨fun _ => used, fun ne => ?_⟩
          rcases held with equal | held
          · exact absurd equal.symm ne
          · exact held
      exact change.setTask (by nofun) (by nofun)
    next =>
      cases done
      exact inv.setTask (by nofun) (by nofun)
  next => cases done

omit [DecidableEq ι] in
theorem commit (inv : Inv sb s) :
    Inv sb { s with disk := Inodes.commit s.disk s.logged, logged := [] } := by
  have low : ∀ c, c < logStart sb -> Inodes.commit s.disk s.logged c = s.disk c := by
    intro c below
    rw [<- inv.well.super] at below
    apply Inodes.commit_low _ below
    rw [inv.well.super]
    exact inv.logged
  have behind : Behind sb s.disk (Inodes.commit s.disk s.logged) :=
    Behind.of_low fun c early => low c (Nat.lt_of_lt_of_le early inv.well.layout)
  constructor
  · exact inv.well.behind behind
  · exact fun c owned => (inv.owned c owned).behind behind
  · exact fun q c here => ⟨(inv.zeroing q c here).1.behind behind, (inv.zeroing q c here).2⟩
  · exact inv.sole
  · exact inv.scanning
  · intro c fresh
    rcases inv.fresh c fresh with ⟨owned, zeros⟩
    exact ⟨owned, (low c (inv.owned c owned).high).trans zeros⟩
  · nofun
  · exact inv.blocks
  · exact ⟨inv.inodes.1, inv.inodes_behind behind⟩

theorem step {label : Label ι} (inv : Inv sb s) (spare : Spare sb s label)
    (step : Step s label t) : Inv sb t := by
  unfold Step perform at step
  cases label with
  | balloc q =>
    dsimp only at step
    split at step
    next =>
      cases step
      apply inv.setTask (by nofun)
      intro b start
      cases start
      exact Nat.dvd_zero BPB
    next => cases step
  | scan q =>
    dsimp only at step
    split at step
    next here => exact inv.scan here spare step
    next => cases step
  | bzero q =>
    dsimp only at step
    split at step
    next here => exact inv.bzeroBlock here step
    next => cases step
  | bfree b =>
    dsimp only at step
    split at step
    next owned => exact inv.bfreeBlock owned step
    next => cases step
  | write b data =>
    dsimp only at step
    split at step
    next owned => exact (inv.write owned).logWrite (inv.owned b owned).high step
    next => cases step
  | ialloc q kind =>
    dsimp only at step
    split at step
    next =>
      cases step
      exact inv.setTask (by nofun) (by nofun)
    next => cases step
  | search q =>
    dsimp only at step
    split at step
    next => exact inv.search step
    next => cases step
  | iupdate i d =>
    dsimp only at step
    split at step
    next here =>
      rcases here with ⟨⟨_, number⟩, _, used⟩
      rw [inv.well.super] at number
      have place := Nat.lt_trans (IBLOCK_lt number) (dataStart_low sb)
      refine logWrite ?_ (Nat.lt_of_lt_of_le place inv.well.layout) step
      exact inv.setInode number ⟨inv.inodes.1, fun j held => ⟨fun _ => used, fun _ => held⟩⟩
    next => cases step
  | ifree i d =>
    dsimp only at step
    split at step
    next here =>
      rcases here with ⟨⟨_, number⟩, _⟩
      rw [inv.well.super] at number
      have place := Nat.lt_trans (IBLOCK_lt number) (dataStart_low sb)
      refine logWrite ?_ (Nat.lt_of_lt_of_le place inv.well.layout) step
      apply inv.setInode number
      refine ⟨inv.inodes.1.release i, fun j held => ?_⟩
      exact ⟨fun same => absurd same.symm held.1, fun _ => held.2⟩
    next => cases step
  | commit =>
    cases step
    exact inv.commit

end Inv

omit [DecidableEq ι] in
theorem WellFormed.inv {sb : Superblock} {disk : Disk} (well : WellFormed sb disk) :
    Inv sb (started sb disk : State ι) where
  well := well
  owned b owned := by
    rcases of_decide_eq_true owned with ⟨low, high, marked⟩
    exact ⟨low, high, marked⟩
  zeroing := nofun
  sole := nofun
  scanning := nofun
  fresh := nofun
  logged := nofun
  blocks := ⟨Lease.exclusive_nil, nofun⟩
  inodes := ⟨Lease.exclusive_nil, nofun⟩

/-- As long as no scan takes a block of the log: a block that `balloc` returns twice was freed in
between, an inode that `ialloc` returns twice was freed in between, and a block reads as zeroes from
the time `balloc` returns it until it is written by whoever uses it. -/
theorem exclusive_allocation {sb : Superblock} {disk : Disk} {labels : List (Label ι)} {s : State ι}
    (well : WellFormed sb disk) (run : GuardedRun Step (Spare sb) (started sb disk) labels s) :
    Lease.Exclusive s.blocks /\ Lease.Exclusive s.inodes /\ ∀ b, s.fresh b = true ->
    s.disk b = fun _ => 0#8 := by
  have inv := run.invariant (fun _ _ _ spare step before => before.step spare step) well.inv
  exact ⟨inv.blocks.1, inv.inodes.1, fun b fresh => (inv.fresh b fresh).2⟩

theorem wellFormed_of_image {sb : Superblock} {used : Nat} {disk : Disk}
    (image : Image sb used disk) : WellFormed sb disk where
  super := image.super
  reserved c early := by
    have before := image.prefixed
    have fits := image.fits
    rw [image.marked (by omega)]
    exact decide_eq_true (by omega)
  layout := by
    have total := image.total
    unfold logStart
    omega

/-- Two processes allocate a block each, one of which is written, freed and allocated again. -/
def takeTurns : List (Label Bool) :=
  [.balloc false, .balloc true, .scan true, .scan false, .bzero false, .write 61 fun _ => 1#8,
    .bzero true, .commit,
    .bfree 61, .balloc true, .scan true, .ialloc false .file, .bzero true, .search false]

/-- The bit of data block 900 is clear whenever the bitmap is scanned. -/
def early (s : State Bool) : Label Bool -> Bool
  | .scan p => s.task p = .scanning 0 && !marked s.disk mkfsSuperblock.ninodes 900
  | _ => true

theorem spare_of_early {s : State Bool} {label : Label Bool} (clear : early s label = true) :
    Spare mkfsSuperblock s label := by
  cases label with
  | scan p =>
    rcases Bool.and_eq_true_iff.mp clear with ⟨here, free⟩
    rintro b c scanning ⟨_, _, _, _, before⟩
    cases (of_decide_eq_true here).symm.trans scanning
    by_contra late
    have start : logStart mkfsSuperblock = 994 := rfl
    rw [before 900 (Nat.zero_le _) (by omega)] at free
    cases free
  | _ => trivial

theorem exclusive_allocation_takeTurns : ∃ s : State Bool,
    WellFormed mkfsSuperblock (mkfsDisk 60) /\
      GuardedRun Step (Spare mkfsSuperblock) (started mkfsSuperblock (mkfsDisk 60)) takeTurns s /\
      s.blocks = [.acquire 61, .release 61, .acquire 60, .acquire 61] /\ s.inodes = [.acquire 1] /\
      s.fresh 61 = true /\ Lease.Exclusive s.blocks /\ Lease.Exclusive s.inodes /\
      ∀ b, s.fresh b = true -> s.disk b = fun _ => 0#8 := by
  have image : Image mkfsSuperblock 60 (mkfsDisk 60) := mkfsDisk_image (by decide) (by decide)
  have well := wellFormed_of_image image
  have outcome : (checked (fun s label => early s label = true) perform
      (started mkfsSuperblock (mkfsDisk 60)) takeTurns).map
      (fun s => (s.blocks, s.inodes, s.fresh 61)) =
        some ([.acquire 61, .release 61, .acquire 60, .acquire 61], [.acquire 1], true) := by
    decide +kernel
  rcases Option.map_eq_some_iff.mp outcome with ⟨s, reached, seen⟩
  rcases Prod.mk.inj seen with ⟨blocks, rest⟩
  rcases Prod.mk.inj rest with ⟨inodes, fresh⟩
  have run := (GuardedRun.of_checked reached).weaken fun s label => spare_of_early
  exact ⟨s, well, run, blocks, inodes, fresh, exclusive_allocation well run⟩

/-- An image of `mkfs` whose 994 blocks before the log are all in use. -/
def fullDisk : Disk := fun sector =>
  if sector = 1 then mkfsSuperbytes
  else if sector = 28 then fun j => if j < 124 then 0xff#8 else if j = 124 then 0x03#8 else 0x00#8
  else fun _ => 0#8

/-- A block is allocated, and in the next transaction an inode. -/
def blockThenInode : List (Label Bool) :=
  [.balloc false, .scan false, .bzero false, .commit, .ialloc false .file, .search false, .commit]

/-- `balloc` returns the header of the log.  The second commit leaves the sector of the inode block
there. -/
theorem fullDisk_not_zeroed : ∃ s : State Bool,
    WellFormed mkfsSuperblock fullDisk /\
      GuardedRun Step (fun _ _ => True) (started mkfsSuperblock fullDisk) blockThenInode s /\
      s.blocks = [.acquire 994] /\ s.fresh 994 = true /\ s.disk 994 4 = 2#8 := by
  have well : WellFormed mkfsSuperblock fullDisk := ⟨by decide, by decide, by decide⟩
  have outcome : (checked (fun _ _ => True) perform (started mkfsSuperblock fullDisk)
      blockThenInode).map (fun s => (s.blocks, s.fresh 994, s.disk 994 4)) =
        some ([.acquire 994], true, 2#8) := by
    decide +kernel
  rcases Option.map_eq_some_iff.mp outcome with ⟨s, reached, seen⟩
  rcases Prod.mk.inj seen with ⟨blocks, rest⟩
  rcases Prod.mk.inj rest with ⟨fresh, byte⟩
  exact ⟨s, well, GuardedRun.of_checked reached, blocks, fresh, byte⟩

end Xv6.Fs.Allocators
