import Xv6.Library.Exact
import Xv6.Fs.Encoding

namespace Xv6.Fs.Inodes

open Library
open Function

/-!
# Who refers to a block

A block is held by a slot of an inode: one of its thirteen addresses or, when
it has an indirect block, one of the entries there.  On a well-formed file
system no block is held twice, the bitmap marks the blocks before the data and
the blocks that are held, and no file has a hole.
-/

/-! ## Slots -/

/-- The thirteen addresses of an inode, and the entries of its indirect block. -/
def SLOTS : Nat := NDIRECT + 1 + NINDIRECT

/-- The address in a slot, zero when there is none. -/
def addr (disk : Disk) (inode : Nat -> Dinode) (p : Nat × Nat) : Nat :=
  if p.2 <= NDIRECT then (inode p.1).addrs p.2
  else if (inode p.1).addrs NDIRECT = 0 then 0
  else word (disk ((inode p.1).addrs NDIRECT)) (p.2 - NDIRECT - 1)

/-- A slot of an allocated inode. -/
def Slot (sb : Superblock) (inode : Nat -> Dinode) (p : Nat × Nat) : Prop :=
  p.1 < sb.ninodes /\ (inode p.1).type ≠ 0#16 /\ p.2 < SLOTS

def Holds (sb : Superblock) (disk : Disk) (inode : Nat -> Dinode) (p : Nat × Nat)
    (b : Nat) : Prop :=
  Slot sb inode p /\ addr disk inode p = b /\ b ≠ 0

/-- An inode in use has a slot for its indirect block. -/
theorem slot_pointer {sb : Superblock} {inode : Nat -> Dinode} {i : Nat}
    (known : i < sb.ninodes /\ (inode i).type ≠ 0#16) : Slot sb inode (i, NDIRECT) :=
  ⟨known.1, known.2, by change NDIRECT < SLOTS; decide⟩

def Used (sb : Superblock) (disk : Disk) (b : Nat) : Prop :=
  b < sb.size /\ marked disk sb.ninodes b = true

/-- The slot of block `bn` of a file. -/
def slotOf (bn : Nat) : Nat := if bn < NDIRECT then bn else bn + 1

/-- The blocks of the first `m` bytes of file `i` have addresses. -/
def Covers (disk : Disk) (inode : Nat -> Dinode) (i m : Nat) : Prop :=
  ∀ bn, bn * BSIZE < m -> bn < MAXFILE /\ addr disk inode (i, slotOf bn) ≠ 0

/-- No block is held twice and the bitmap is right, wherever the blocks are. -/
structure Recorded (sb : Superblock) (s : State) : Prop where
  super : readsb s.disk = sb
  record : Exact (Holds sb s.disk s.inode) (Used sb s.disk) fun b => b < dataStart sb

variable {disk : Disk} {inode : Nat -> Dinode} {i k b : Nat} {p : Nat × Nat} {sb : Superblock}
  {s : State}

theorem addr_direct (direct : k <= NDIRECT) : addr disk inode (i, k) = (inode i).addrs k :=
  if_pos direct

theorem addr_entry {j : Nat} (indirect : (inode i).addrs NDIRECT ≠ 0) :
    addr disk inode (i, NDIRECT + 1 + j) = word (disk ((inode i).addrs NDIRECT)) j := by
  rw [addr, if_neg (by dsimp only; omega), if_neg indirect]
  congr 1
  dsimp only
  omega

/-- Only the contents of the indirect block matter. -/
theorem addr_congr {disk' : Disk}
    (same : (inode p.1).addrs NDIRECT ≠ 0 ->
      disk' ((inode p.1).addrs NDIRECT) = disk ((inode p.1).addrs NDIRECT)) :
    addr disk' inode p = addr disk inode p := by
  unfold addr
  by_cases none : (inode p.1).addrs NDIRECT = 0
  · rw [if_pos none, if_pos none]
  · rw [if_neg none, if_neg none, same none]

/-- Only the addresses and the indirect block of the inode itself matter. -/
theorem addr_inode {inode' : Nat -> Dinode}
    (same : ∀ k, k <= NDIRECT -> (inode' p.1).addrs k = (inode p.1).addrs k) :
    addr disk inode' p = addr disk inode p := by
  unfold addr
  rw [same NDIRECT (le_refl _)]
  by_cases direct : p.2 <= NDIRECT
  · rw [if_pos direct, if_pos direct, same p.2 direct]
  · rw [if_neg direct, if_neg direct]

theorem slotOf_lt {bn : Nat} (bound : bn < MAXFILE) : slotOf bn < SLOTS /\ slotOf bn ≠ NDIRECT := by
  unfold slotOf SLOTS
  unfold MAXFILE at bound
  split
  · constructor <;> omega
  · constructor <;> omega

namespace Good

variable {sb : Superblock} {s : State}

theorem holds_indirect {i : Nat} (slot : i < sb.ninodes /\ (s.inode i).type ≠ 0#16)
    (some : (s.inode i).addrs NDIRECT ≠ 0) :
    Holds sb s.disk s.inode (i, NDIRECT) ((s.inode i).addrs NDIRECT) :=
  ⟨⟨slot.1, slot.2, by change NDIRECT < SLOTS; decide⟩, addr_direct (le_refl _), some⟩

/-- A change of blocks that are no indirect blocks changes no slot. -/
theorem holds_disk {disk : Disk}
    (kept : ∀ i b, Holds sb s.disk s.inode (i, NDIRECT) b -> disk b = s.disk b) (p : Nat × Nat)
    (b : Nat) : Holds sb disk s.inode p b <-> Holds sb s.disk s.inode p b := by
  unfold Holds
  apply and_congr_right
  intro slot
  rw [addr_congr fun some => kept p.1 _ (holds_indirect ⟨slot.1, slot.2.1⟩ some)]

end Good

/-! ## The allocator -/

/-- What `balloc` of block `b` does to the disk. -/
structure Took (sb : Superblock) (disk : Disk) (b : Nat) (disk' : Disk) : Prop where
  low : dataStart sb <= b
  below : b < sb.size
  free : ¬ Used sb disk b
  super : readsb disk' = sb
  used : ∀ c, Used sb disk' c <-> Used sb disk c ∨ c = b
  zero : disk' b = fun _ => 0#8
  data : ∀ c, dataStart sb <= c -> c ≠ b -> disk' c = disk c
  inodes : ∀ c, c < sb.ninodes / IPB + 3 -> disk' c = disk c

theorem Took.of_balloc {disk' : Disk} (super : readsb disk = sb)
    (reserved : ∀ c, c < dataStart sb -> Used sb disk c) (run : balloc disk = .ok (b, disk')) :
    Took sb disk b disk' := by
  rcases balloc_ok run with ⟨below, clear, _, rfl⟩
  rw [super] at below clear ⊢
  have low : dataStart sb <= b := by
    by_contra early
    have wrong := (reserved b (by omega)).2
    rw [clear] at wrong
    cases wrong
  have bitmap := BBLOCK_lt_dataStart sb b below
  have bitmapLow := BBLOCK_low b sb.ninodes
  have first := dataStart_low sb
  have start := three_lt_dataStart sb
  constructor
  case low => exact low
  case below => exact below
  case free =>
    intro used
    rw [used.2] at clear
    cases clear
  case super => rw [bzero, readsb_update (by omega), readsb_update (BBLOCK_ne_one b sb.ninodes), super]
  case used =>
    intro c
    unfold Used
    by_cases inside : c < sb.size
    · have block := BBLOCK_lt_dataStart sb c inside
      have same : marked (bzero (update disk (BBLOCK b sb.ninodes)
          (setBit (disk (BBLOCK b sb.ninodes)) (b % BPB))) b) sb.ninodes c = marked (update disk
          (BBLOCK b sb.ninodes) (setBit (disk (BBLOCK b sb.ninodes)) (b % BPB))) sb.ninodes c := by
        rw [marked, marked, bzero, update_of_ne (by omega)]
      rw [same, marked_setBit, Bool.or_eq_true, decide_eq_true_eq]
      tauto
    · constructor
      · exact fun used => absurd used.1 inside
      · rintro (used | rfl)
        · exact absurd used.1 inside
        · exact absurd below inside
  case zero => exact update_self _ _ _
  case data =>
    intro c late other
    rw [bzero, update_of_ne other, update_of_ne (by omega)]
  case inodes =>
    intro c early
    rw [bzero, update_of_ne (by omega), update_of_ne (by omega)]

/-! ## New blocks of a file -/

/-- What an allocation for inode `i` leaves as it was. -/
structure Extends (sb : Superblock) (s t : State) (i : Nat) : Prop where
  fields : ∃ addrs, t.inode i = { s.inode i with addrs := addrs }
  others : ∀ j, j ≠ i -> t.inode j = s.inode j
  kept : ∀ p, Slot sb s.inode p -> addr s.disk s.inode p ≠ 0 ->
    addr t.disk t.inode p = addr s.disk s.inode p
  inodes : ∀ c, c < sb.ninodes / IPB + 3 -> t.disk c = s.disk c

namespace Extends

variable {sb : Superblock} {s t u : State} {i : Nat}

theorem refl (sb : Superblock) (s : State) (i : Nat) : Extends sb s s i :=
  ⟨⟨(s.inode i).addrs, rfl⟩, fun _ _ => rfl, fun _ _ _ => rfl, fun _ _ => rfl⟩

theorem type (extends_ : Extends sb s t i) (j : Nat) : (t.inode j).type = (s.inode j).type := by
  by_cases same : j = i
  · rcases extends_.fields with ⟨addrs, equal⟩
    rw [same, equal]
  · rw [extends_.others j same]

theorem slot (extends_ : Extends sb s t i) (p : Nat × Nat) :
    Slot sb t.inode p <-> Slot sb s.inode p := by
  unfold Slot
  rw [extends_.type]

theorem size (extends_ : Extends sb s t i) : (t.inode i).size = (s.inode i).size := by
  rcases extends_.fields with ⟨addrs, equal⟩
  rw [equal]

theorem trans (first : Extends sb s t i) (second : Extends sb t u i) : Extends sb s u i where
  fields := by
    rcases first.fields with ⟨addrs, equal⟩
    rcases second.fields with ⟨more, again⟩
    exact ⟨more, by rw [again, equal]⟩
  others j other := (second.others j other).trans (first.others j other)
  kept p slot some := by
    have one := first.kept p slot some
    rw [<- one]
    exact second.kept p ((first.slot p).mpr slot) (by rw [one]; exact some)
  inodes c low := (second.inodes c low).trans (first.inodes c low)

end Extends

theorem used_update (data : Block) (late : dataStart sb <= b) (c : Nat) :
    Used sb (update disk b data) c <-> Used sb disk c := by
  unfold Used
  apply and_congr_right
  intro inside
  have block := BBLOCK_lt_dataStart sb c inside
  rw [marked, marked, update_of_ne (by omega)]

section Claim

variable {sb : Superblock} {s t : State} {q : Nat × Nat} {b : Nat} (slot : Slot sb s.inode q)
  (unset : addr s.disk s.inode q = 0) (pos : b ≠ 0) (types : ∀ j, (t.inode j).type = (s.inode j).type)
  (addrs : ∀ p, Slot sb s.inode p -> addr t.disk t.inode p = if p = q then b else addr s.disk s.inode p)

include slot unset pos types addrs

/-- What is held once block `b` is in slot `q`. -/
theorem holds_claim (p : Nat × Nat) (c : Nat) :
    Holds sb t.disk t.inode p c <-> Holds sb s.disk s.inode p c ∨ (p = q /\ c = b) := by
  have slots : Slot sb t.inode p <-> Slot sb s.inode p := by
    unfold Slot
    rw [types]
  unfold Holds
  rw [slots]
  by_cases same : p = q
  · subst same
    constructor
    · rintro ⟨inside, equal, some⟩
      rw [addrs p inside, if_pos rfl] at equal
      exact .inr ⟨rfl, equal.symm⟩
    · rintro (⟨_, equal, some⟩ | ⟨_, rfl⟩)
      · exact absurd (equal.symm.trans unset) some
      · exact ⟨slot, by rw [addrs p slot, if_pos rfl], pos⟩
  · constructor
    · rintro ⟨inside, equal, some⟩
      rw [addrs p inside, if_neg same] at equal
      exact .inl ⟨inside, equal, some⟩
    · rintro (⟨inside, equal, some⟩ | ⟨wrong, _⟩)
      · exact ⟨inside, by rw [addrs p inside, if_neg same]; exact equal, some⟩
      · exact absurd wrong same

/-- A free block goes into an empty slot. -/
theorem Recorded.claim (recorded : Recorded sb s) (free : ¬ Used sb s.disk b)
    (super : readsb t.disk = sb)
    (used : ∀ c, Used sb t.disk c <-> Used sb s.disk c ∨ c = b) : Recorded sb t :=
  ⟨super, recorded.record.take free (holds_claim slot unset pos types addrs) used⟩

end Claim

namespace Recorded

variable {sb : Superblock} {s : State}

theorem low (recorded : Recorded sb s) {p : Nat × Nat} {b : Nat}
    (held : Holds sb s.disk s.inode p b) : dataStart sb <= b :=
  Nat.le_of_not_lt (recorded.record.apart p b held)

theorem reserved (recorded : Recorded sb s) (c : Nat)
    (early : c < dataStart sb) : Used sb s.disk c :=
  (recorded.record.used_iff c).mpr (.inl early)

theorem size_lt (recorded : Recorded sb s) : sb.size < 2 ^ 32 := by
  rw [<- recorded.super]
  exact word_lt _ _

/-- The indirect block of an inode is not the block that was free. -/
theorem indirect_kept (recorded : Recorded sb s) {b : Nat} {disk : Disk}
    (took : Took sb s.disk b disk) {i : Nat} (slot : i < sb.ninodes /\ (s.inode i).type ≠ 0#16)
    (some : (s.inode i).addrs NDIRECT ≠ 0) :
    disk ((s.inode i).addrs NDIRECT) = s.disk ((s.inode i).addrs NDIRECT) := by
  have held := Good.holds_indirect slot some
  apply took.data _ (recorded.low held)
  intro same
  apply took.free
  rw [<- same]
  exact recorded.record.used_of_holds held

end Recorded

/-- The slots after `addrs[k] = b` for a fresh block `b`. -/
theorem addr_setAddr (recorded : Recorded sb s) (took : Took sb s.disk b disk)
    (direct : k <= NDIRECT) (unset : (s.inode i).addrs k = 0) (slot : Slot sb s.inode p) :
    addr disk (update s.inode i { s.inode i with addrs := update (s.inode i).addrs k b }) p =
      if p = (i, k) then b else addr s.disk s.inode p := by
  rcases p with ⟨j, l⟩
  by_cases other : j = i
  · subst other
    by_cases isDirect : l <= NDIRECT
    · rw [addr_direct isDirect, addr_direct isDirect, update_self]
      by_cases same : l = k
      · rw [same, if_pos rfl]
        exact update_self _ _ _
      · rw [if_neg fun wrong => same (congrArg Prod.snd wrong)]
        exact update_of_ne same _ _
    · have ne : (j, l) ≠ (j, k) := by
        intro wrong
        cases wrong
        exact isDirect direct
      simp only [addr, update_self, if_neg isDirect, if_neg ne]
      by_cases atIndirect : NDIRECT = k
      · -- The indirect block is new, and `bzero` has cleared its entries.
        subst atIndirect
        simp only [update_self, took.zero, word_zero, ite_self, unset, if_pos]
      · simp only [update_of_ne atIndirect]
        by_cases none : (s.inode j).addrs NDIRECT = 0
        · rw [if_pos none, if_pos none]
        · rw [if_neg none, if_neg none, recorded.indirect_kept took ⟨slot.1, slot.2.1⟩ none]
  · rw [if_neg fun wrong => other (congrArg Prod.fst wrong)]
    have sameInode : addr disk (update s.inode i
        { s.inode i with addrs := update (s.inode i).addrs k b }) (j, l) = addr disk s.inode (j, l) := by
      apply addr_inode
      intro m _
      dsimp only
      rw [update_of_ne other]
    rw [sameInode]
    exact addr_congr fun some => recorded.indirect_kept took ⟨slot.1, slot.2.1⟩ some

/-- The slots after `a[k] = b` in the indirect block, for a fresh block `b`. -/
theorem addr_setWord (recorded : Recorded sb s) (slot : i < sb.ninodes /\ (s.inode i).type ≠ 0#16)
    (took : Took sb s.disk b disk) (some : (s.inode i).addrs NDIRECT ≠ 0)
    (inside : Slot sb s.inode p) :
    addr (update disk ((s.inode i).addrs NDIRECT) (setWord (disk ((s.inode i).addrs NDIRECT)) k b))
      s.inode p =
      if p = (i, NDIRECT + 1 + k) then b else addr s.disk s.inode p := by
  rcases p with ⟨j, l⟩
  have small : b < 2 ^ 32 := by
    have size := recorded.size_lt
    have below := took.below
    omega
  by_cases isDirect : l <= NDIRECT
  · rw [addr_direct isDirect, addr_direct isDirect, if_neg]
    intro wrong
    cases wrong
    omega
  · by_cases other : j = i
    · subst other
      simp only [addr, if_neg isDirect, if_neg some, update_self, word_setWord small,
        recorded.indirect_kept took slot some, Prod.mk.injEq, true_and]
      have index : (l - NDIRECT - 1 = k) = (l = NDIRECT + 1 + k) :=
        propext ⟨fun _ => by omega, fun _ => by omega⟩
      simp only [index]
    · rw [if_neg fun wrong => other (congrArg Prod.fst wrong)]
      apply addr_congr
      intro indirect
      have held := Good.holds_indirect ⟨inside.1, inside.2.1⟩ indirect
      have ne : (s.inode j).addrs NDIRECT ≠ (s.inode i).addrs NDIRECT := by
        intro equal
        rw [show ((j, l) : Nat × Nat).1 = j from rfl, equal] at held
        exact other (congrArg Prod.fst (recorded.record.once _ _ _ held (Good.holds_indirect slot some)))
      rw [update_of_ne ne]
      exact recorded.indirect_kept took ⟨inside.1, inside.2.1⟩ indirect

/-! ## Blocks that are there -/

/-- The program returns the value and changes nothing. -/
def Reads {α : Type} (program : M α) (s : State) (value : α) : Prop :=
  Ensures program s (fun other t => other = value /\ t = s) fun _ _ => False

theorem reads_addrOf (set : (s.inode i).addrs k ≠ 0) :
    Reads (addrOf i k) s ((s.inode i).addrs k) := by
  unfold Reads addrOf
  rw [ensures_bind, ensures_get, if_neg set, ensures_pure]
  exact ⟨rfl, rfl⟩

theorem reads_entryOf {a : Nat} (set : word (s.disk a) k ≠ 0) :
    Reads (entryOf a k) s (word (s.disk a) k) := by
  unfold Reads entryOf
  rw [ensures_bind, ensures_get, if_neg set, ensures_pure]
  exact ⟨rfl, rfl⟩

/-- `bmap` of a block that is there. -/
theorem reads_bmap {bn : Nat} (bound : bn < MAXFILE)
    (set : addr s.disk s.inode (i, slotOf bn) ≠ 0) :
    Reads (bmap i bn) s (addr s.disk s.inode (i, slotOf bn)) := by
  unfold bmap
  by_cases direct : bn < NDIRECT
  · have index : slotOf bn = bn := if_pos direct
    rw [index, addr_direct (Nat.le_of_lt direct)] at set ⊢
    rw [if_pos direct]
    exact reads_addrOf set
  · have index : slotOf bn = NDIRECT + 1 + (bn - NDIRECT) := by
      rw [slotOf, if_neg direct]
      omega
    have indirect : (s.inode i).addrs NDIRECT ≠ 0 := by
      intro none
      apply set
      rw [addr, if_neg (by rw [index]; dsimp only; omega), if_pos none]
    have inside : bn - NDIRECT < NINDIRECT := by
      unfold MAXFILE at bound
      omega
    rw [index, addr_entry indirect] at set ⊢
    rw [if_neg direct, if_pos inside]
    unfold Reads
    rw [ensures_bind]
    apply (reads_addrOf indirect).mono _ fun _ _ wrong => wrong
    rintro _ _ ⟨rfl, rfl⟩
    exact reads_entryOf set

end Xv6.Fs.Inodes
