import Mathlib.Data.Finset.Card
import Mathlib.Data.Finset.Image
import Xv6.Fs.Ownership

namespace Xv6.Fs.Inodes

open Library
open Function

/-!
# Which blocks a file is given, and what that logs

`balloc` takes the first free block.  What it returns over a whole call is thus a
prefix of the list of free blocks before the call, and so are the bitmap blocks that
the call logs.  The specifications here say this of `bmap`, together with all that it
leaves as it was.  They hold wherever the blocks are, also in the log.

A call stops only for want of a block, or because the transaction is too big.
-/

/-! ## The free blocks and the log -/

/-- The free blocks, in the order in which `balloc` takes them. -/
def freeList (sb : Superblock) (disk : Disk) : List Nat :=
  (List.range sb.size).filter fun c => !marked disk sb.ninodes c

/-- The size of a transaction at which `log_write` panics. -/
def capacity (sb : Superblock) : Nat := min LOGSIZE (sb.nlog - 1)

def bitmaps (sb : Superblock) : Finset Nat :=
  (Finset.range sb.size).image fun b => BBLOCK b sb.ninodes

/-- The indirect block of inode `i`, if there is one. -/
def indirect (s : State) (i : Nat) : Finset Nat :=
  if (s.inode i).addrs NDIRECT = 0 then ∅ else {(s.inode i).addrs NDIRECT}

/-- The size of the transaction once it has all bitmap blocks and the indirect block of inode
`i`. -/
def load (sb : Superblock) (i : Nat) (s : State) : Nat :=
  (s.logged.toFinset ∪ bitmaps sb ∪ indirect s i).card + if (s.inode i).addrs NDIRECT = 0 then 1 else 0

/-- Why a call may stop that takes at most `blocks` blocks and adds at most `entries` to the
load. -/
def Lacks (sb : Superblock) (i : Nat) (s : State) (blocks entries : Nat) : Halt -> Prop
  | .block .outOfBlocks => (freeList sb s.disk).length < blocks
  | .tooBigTransaction => capacity sb <= load sb i s + entries
  | _ => False

variable {sb : Superblock} {i b j pos : Nat} {s t : State}

theorem Lacks.weaken {blocks entries more further : Nat} {halt : Halt}
    (lacks : Lacks sb i s blocks entries halt) (one : blocks <= more) (two : entries <= further) :
    Lacks sb i s more further halt := by
  cases halt with
  | block panic =>
    cases panic with
    | outOfBlocks => exact Nat.lt_of_lt_of_le lacks one
    | freeingFreeBlock => exact lacks
  | tooBigTransaction => exact Nat.le_trans lacks (Nat.add_le_add_left two _)
  | bmapOutOfRange => exact lacks
  | noInodes => exact lacks
  | noType => exact lacks

section FreeList

variable {sb : Superblock} {disk disk' : Disk} {b : Nat}

theorem freeList_nil (all : ∀ c, c < sb.size -> marked disk sb.ninodes c = true) :
    freeList sb disk = [] := by
  apply List.filter_eq_nil_iff.mpr
  intro c member
  rw [all c (List.mem_range.mp member)]
  decide

/-- The first free block is taken. -/
theorem freeList_cons (below : b < sb.size) (clear : marked disk sb.ninodes b = false)
    (before : ∀ c, c < b -> marked disk sb.ninodes c = true) (took : Took sb disk b disk') :
    freeList sb disk = b :: freeList sb disk' := by
  have after : ∀ c, c < sb.size -> c ≠ b -> marked disk' sb.ninodes c = marked disk sb.ninodes c := by
    intro c inside other
    rw [Bool.eq_iff_iff]
    constructor
    · intro set
      rcases (took.used c).mp ⟨inside, set⟩ with used | same
      · exact used.2
      · exact absurd same other
    · exact fun set => ((took.used c).mpr (.inl ⟨inside, set⟩)).2
  have here : marked disk' sb.ninodes b = true := ((took.used b).mpr (.inr rfl)).2
  have split : List.range sb.size = List.range b ++ b :: List.range' (b + 1) (sb.size - b - 1) := by
    rw [List.range_eq_range', List.range_eq_range', <- List.range'_succ, <- Nat.zero_add b,
      Nat.zero_add b]
    have more := @List.range'_append 0 b (sb.size - b - 1 + 1) 1
    rw [Nat.zero_add, Nat.one_mul] at more
    rw [more]
    congr 1
    omega
  have none : ∀ other : Disk, (∀ c, c < b -> marked other sb.ninodes c = true) ->
      (List.range b).filter (fun c => !marked other sb.ninodes c) = [] := by
    intro other all
    apply List.filter_eq_nil_iff.mpr
    intro c member
    rw [all c (List.mem_range.mp member)]
    decide
  unfold freeList
  rw [split, List.filter_append, List.filter_append, none disk before,
    none disk' fun c less => (after c (by omega) (by omega)).trans (before c less), List.nil_append,
      List.nil_append,
    List.filter_cons_of_pos (by rw [clear]; decide), List.filter_cons_of_neg (by rw [here]; decide)]
  congr 1
  apply List.filter_congr
  intro c member
  have range := List.mem_range'_1.mp member
  rw [after c (by omega) (by omega)]

end FreeList

section Logged

variable {sb : Superblock} {s : State} {b c : Nat}

theorem mem_addLogged : c ∈ (addLogged b s).logged <-> c ∈ s.logged ∨ c = b := by
  unfold addLogged
  dsimp only
  split
  next member =>
    refine ⟨.inl, ?_⟩
    rintro (old | rfl)
    · exact old
    · exact member
  next => rw [List.mem_append, List.mem_singleton]

theorem nodup_addLogged (nodup : s.logged.Nodup) : (addLogged b s).logged.Nodup := by
  unfold addLogged
  dsimp only
  split
  next => exact nodup
  next absent =>
    rw [List.nodup_append]
    refine ⟨nodup, List.nodup_singleton b, ?_⟩
    intro d member e last same
    rw [List.mem_singleton.mp last] at same
    exact absent (same ▸ member)

theorem ensures_logWrite (b : Nat) (s : State) : Ensures (logWrite b) s
    (fun _ t => t = addLogged b s /\ s.logged.length < capacity (readsb s.disk))
    fun halt _ => halt = .tooBigTransaction /\ capacity (readsb s.disk) <= s.logged.length := by
  unfold logWrite
  rw [ensures_bind, ensures_get, ensures_ite]
  constructor
  · intro full
    rw [ensures_throw]
    refine ⟨rfl, ?_⟩
    unfold capacity
    omega
  · intro room
    rw [ensures_modify]
    refine ⟨rfl, ?_⟩
    unfold capacity
    omega

/-- The transaction is no larger than its load. -/
theorem length_le_load (sb : Superblock) (s : State) (i : Nat) (nodup : s.logged.Nodup) :
    s.logged.length <= load sb i s := by
  rw [<- List.toFinset_card_of_nodup nodup]
  unfold load
  have subset : s.logged.toFinset ⊆ s.logged.toFinset ∪ bitmaps sb ∪ indirect s i :=
    Finset.subset_union_left.trans Finset.subset_union_left
  have less := Finset.card_le_card subset
  omega

/-- What is logged besides bitmap blocks and the indirect block adds to the load. -/
theorem load_le {t : State} {i : Nat} {extra : Finset Nat}
    (members : ∀ c, c ∈ t.logged -> c ∈ s.logged ∨ c ∈ bitmaps sb ∨ c ∈ extra ∨ c ∈ indirect t i)
    (kept : (s.inode i).addrs NDIRECT ≠ 0 ->
      (t.inode i).addrs NDIRECT = (s.inode i).addrs NDIRECT) :
    load sb i t <= load sb i s + extra.card := by
  have subset : t.logged.toFinset ∪ bitmaps sb ∪ indirect t i ⊆
      (s.logged.toFinset ∪ bitmaps sb ∪ extra) ∪ indirect t i := by
    intro c member
    simp only [Finset.mem_union, List.mem_toFinset] at member ⊢
    rcases member with (logged | bitmap) | pointer
    · rcases members c logged with old | bitmap | new | pointer
      · exact .inl (.inl (.inl old))
      · exact .inl (.inl (.inr bitmap))
      · exact .inl (.inr new)
      · exact .inr pointer
    · exact .inl (.inl (.inr bitmap))
    · exact .inr pointer
  have less := Finset.card_le_card subset
  unfold load
  by_cases none : (s.inode i).addrs NDIRECT = 0
  · -- The load of `s` counts an indirect block already.
    have nothing : indirect s i = ∅ := if_pos none
    have one : (indirect t i).card + (if (t.inode i).addrs NDIRECT = 0 then 1 else 0) = 1 := by
      unfold indirect
      split
      · exact Nat.zero_add 1
      · rw [Finset.card_singleton]
    rw [if_pos none, nothing, Finset.union_empty]
    have union := Finset.card_union_le (s.logged.toFinset ∪ bitmaps sb ∪ extra) (indirect t i)
    have more := Finset.card_union_le (s.logged.toFinset ∪ bitmaps sb) extra
    omega
  · have same : indirect t i = indirect s i := by
      unfold indirect
      rw [kept none]
    rw [same, Finset.union_right_comm _ extra] at less
    rw [kept none, if_neg none, same]
    have more := Finset.card_union_le (s.logged.toFinset ∪ bitmaps sb ∪ indirect s i) extra
    omega

end Logged

/-! ## `balloc` -/

/-- `balloc` returned `b`. -/
structure Allocated (sb : Superblock) (s : State) (b : Nat) (t : State) : Prop where
  took : Took sb s.disk b t.disk
  inode : t.inode = s.inode
  taken : t.taken = b :: s.taken
  free : freeList sb s.disk = b :: freeList sb t.disk
  logged : ∀ c, c ∈ t.logged <-> c ∈ s.logged ∨ c = BBLOCK b sb.ninodes ∨ c = b
  nodup : s.logged.Nodup -> t.logged.Nodup

theorem mem_bitmaps (below : b < sb.size) : BBLOCK b sb.ninodes ∈ bitmaps sb :=
  Finset.mem_image_of_mem _ (Finset.mem_range.mpr below)

/-- The load does not count bitmap blocks twice. -/
theorem load_bitmap (i : Nat) (below : b < sb.size) :
    load sb i (addLogged (BBLOCK b sb.ninodes) s) = load sb i s := by
  have same : (addLogged (BBLOCK b sb.ninodes) s).logged.toFinset ∪ bitmaps sb =
      s.logged.toFinset ∪ bitmaps sb := by
    ext c
    rw [Finset.mem_union, Finset.mem_union, List.mem_toFinset, List.mem_toFinset, mem_addLogged]
    constructor
    · rintro ((old | rfl) | bitmap)
      · exact .inl old
      · exact .inr (mem_bitmaps below)
      · exact .inr bitmap
    · exact Or.imp_left Or.inl
  unfold load
  rw [same]
  rfl

theorem ensures_ballocOp (recorded : Recorded sb s) (i : Nat) :
    Ensures ballocOp s (Allocated sb s) fun halt _ => s.logged.Nodup -> Lacks sb i s 1 0 halt := by
  unfold ballocOp
  rw [ensures_bind, ensures_get]
  cases run : balloc s.disk with
  | error panic =>
    rcases balloc_error run with ⟨rfl, all⟩
    rw [recorded.super] at all
    change Ensures (throw _) s _ _
    rw [ensures_throw]
    intro _
    change (freeList sb s.disk).length < 1
    rw [freeList_nil all]
    exact Nat.zero_lt_one
  | ok pair =>
    rcases pair with ⟨b, disk⟩
    have took := Took.of_balloc recorded.super recorded.reserved run
    rcases balloc_ok run with ⟨below, clear, before, _⟩
    rw [recorded.super] at below clear before
    unfold take
    rw [ensures_bind, ensures_modify, ensures_bind, ensures_get, took.super]
    generalize taken : ({ s with disk := disk, taken := b :: s.taken } : State) = u
    have super : readsb u.disk = sb := by
      rw [<- taken]
      exact took.super
    have logged : u.logged = s.logged := by rw [<- taken]
    have same : load sb i u = load sb i s := by
      rw [<- taken]
      rfl
    rw [ensures_bind]
    apply (ensures_logWrite _ _).mono
    · rintro _ _ ⟨rfl, _⟩
      rw [ensures_bind]
      apply (ensures_logWrite _ _).mono
      · rintro _ _ ⟨rfl, _⟩
        rw [ensures_pure]
        refine ⟨?_, ?_, ?_, ?_, fun c => ?_, fun nodup => ?_⟩
        · rw [<- taken]
          exact took
        · rw [<- taken]
          rfl
        · rw [<- taken]
          rfl
        · rw [<- taken]
          exact freeList_cons below clear before took
        · rw [mem_addLogged, mem_addLogged, logged, or_assoc]
        · exact nodup_addLogged (nodup_addLogged (by rw [logged]; exact nodup))
      · rintro _ _ ⟨rfl, full⟩ nodup
        have start : readsb (addLogged (BBLOCK b sb.ninodes) u).disk = sb := super
        rw [start] at full
        have least : (addLogged (BBLOCK b sb.ninodes) u).logged.length <=
            load sb i (addLogged (BBLOCK b sb.ninodes) u) :=
          length_le_load sb _ i (nodup_addLogged (by rw [logged]; exact nodup))
        rw [load_bitmap i below, same] at least
        exact full.trans least
    · rintro _ _ ⟨rfl, full⟩ nodup
      rw [super, logged] at full
      exact full.trans (length_le_load sb s i nodup)

/-! ## New blocks of a file -/

/-- A free block `b` is now in slot `k` of inode `i`, and zero. -/
structure Assigned (sb : Superblock) (s : State) (i k b : Nat) (t : State) : Prop where
  recorded : Recorded sb t
  extends_ : Extends sb s t i
  unset : addr s.disk s.inode (i, k) = 0
  unused : ¬ Used sb s.disk b
  low : dataStart sb <= b
  below : b < sb.size
  addrs : ∀ p, Slot sb s.inode p -> addr t.disk t.inode p =
    if p = (i, k) then b else addr s.disk s.inode p
  zero : t.disk b = fun _ => 0#8
  /-- An entry of the indirect block changes that block. -/
  data : ∀ c, dataStart sb <= c -> c ≠ b -> (NDIRECT < k -> c ≠ (s.inode i).addrs NDIRECT) ->
    t.disk c = s.disk c
  taken : t.taken = b :: s.taken
  free : freeList sb s.disk = b :: freeList sb t.disk
  logged : ∀ c, c ∈ t.logged <->
    c ∈ s.logged ∨ c = BBLOCK b sb.ninodes ∨ c = b ∨ (NDIRECT < k /\ c = (s.inode i).addrs NDIRECT)
  nodup : s.logged.Nodup -> t.logged.Nodup

theorem freeList_update {disk : Disk} (data : Block) (late : dataStart sb <= b) :
    freeList sb (update disk b data) = freeList sb disk := by
  apply List.filter_congr
  intro c member
  have block := BBLOCK_lt_dataStart sb c (List.mem_range.mp member)
  rw [marked, marked, update_of_ne (by omega)]

section Blocks

variable {sb : Superblock} {s : State} {i : Nat} (recorded : Recorded sb s)
  (slot : i < sb.ninodes /\ (s.inode i).type ≠ 0#16)

include recorded slot

variable {k : Nat}

theorem Allocated.assign {b : Nat} {t : State} (allocated : Allocated sb s b t)
    (direct : k <= NDIRECT) (unset : (s.inode i).addrs k = 0) :
    Assigned sb s i k b (setAddr i k b t) := by
  have took := allocated.took
  have start := three_lt_dataStart sb
  have low := took.low
  have inode : (setAddr i k b t).inode =
      update s.inode i { s.inode i with addrs := update (s.inode i).addrs k b } := by
    unfold setAddr setInode
    rw [allocated.inode]
  have formula : ∀ p, Slot sb s.inode p -> addr (setAddr i k b t).disk (setAddr i k b t).inode p =
      if p = (i, k) then b else addr s.disk s.inode p := by
    intro p inside
    rw [inode]
    exact addr_setAddr recorded took direct unset inside
  have fields : (setAddr i k b t).inode i =
      { s.inode i with addrs := update (s.inode i).addrs k b } := by
    rw [inode]
    exact update_self _ _ _
  have others : ∀ j, j ≠ i -> (setAddr i k b t).inode j = s.inode j := by
    intro j other
    rw [inode]
    exact update_of_ne other _ _
  have types : ∀ j, ((setAddr i k b t).inode j).type = (s.inode j).type := by
    intro j
    by_cases same : j = i
    · rw [same, fields]
    · rw [others j same]
  have here : Slot sb s.inode (i, k) := ⟨slot.1, slot.2, Nat.lt_of_le_of_lt direct (by decide)⟩
  have empty : addr s.disk s.inode (i, k) = 0 := by
    rw [addr_direct direct]
    exact unset
  refine ⟨?_, ⟨⟨_, fields⟩, others, ?_, took.inodes⟩, empty, took.free, low, took.below, formula,
    took.zero, ?_, allocated.taken, allocated.free, fun c => ?_, allocated.nodup⟩
  · exact Recorded.claim here empty (show b ≠ 0 by omega) types formula recorded took.free
      took.super took.used
  · intro p inside some
    rw [formula p inside, if_neg]
    rintro rfl
    exact some empty
  · exact fun c late other _ => took.data c late other
  · refine (allocated.logged c).trans (or_congr_right (or_congr_right ?_))
    exact ⟨.inl, fun either => either.resolve_right fun wrong => absurd wrong.1 (Nat.not_lt.mpr direct)⟩

theorem Allocated.assignEntry {b : Nat} {t : State} (allocated : Allocated sb s b t)
    (bound : k < NINDIRECT) (some : (s.inode i).addrs NDIRECT ≠ 0)
    (unset : word (s.disk ((s.inode i).addrs NDIRECT)) k = 0) :
    Assigned sb s i (NDIRECT + 1 + k) b (addLogged ((s.inode i).addrs NDIRECT)
      (setDisk ((s.inode i).addrs NDIRECT) (setWord (t.disk ((s.inode i).addrs NDIRECT)) k b)
        t)) := by
  have took := allocated.took
  have start := three_lt_dataStart sb
  have low := took.low
  have held := Good.holds_indirect slot some
  have late := recorded.low held
  have first := dataStart_low sb
  have here : Slot sb s.inode (i, NDIRECT + 1 + k) := ⟨slot.1, slot.2, by unfold SLOTS; dsimp only; omega⟩
  have formula : ∀ p, Slot sb s.inode p -> addr (update t.disk ((s.inode i).addrs NDIRECT)
      (setWord (t.disk ((s.inode i).addrs NDIRECT)) k b)) t.inode p =
      if p = (i, NDIRECT + 1 + k) then b else addr s.disk s.inode p := by
    intro p inside
    rw [allocated.inode]
    exact addr_setWord recorded slot took some inside
  have empty : addr s.disk s.inode (i, NDIRECT + 1 + k) = 0 := by
    rw [addr_entry some]
    exact unset
  have ne : b ≠ (s.inode i).addrs NDIRECT := by
    intro same
    apply took.free
    rw [same]
    exact recorded.record.used_of_holds held
  refine ⟨?_, ⟨⟨(s.inode i).addrs, ?_⟩, ?_, ?_, ?_⟩, empty, took.free, low, took.below, formula, ?_, ?_,
    allocated.taken, ?_, fun c => ?_, fun nodup => nodup_addLogged (allocated.nodup nodup)⟩
  · apply Recorded.claim here empty (show b ≠ 0 by omega) _ formula recorded took.free
    · change readsb (update t.disk _ _) = sb
      rw [readsb_update (by omega)]
      exact took.super
    · intro c
      exact (used_update _ late c).trans (took.used c)
    · intro j
      change (t.inode j).type = _
      rw [allocated.inode]
  · change t.inode i = _
    rw [allocated.inode]
  · intro j _
    change t.inode j = _
    rw [allocated.inode]
  · intro p inside set
    refine (formula p inside).trans (if_neg ?_)
    rintro rfl
    exact set empty
  · intro c early
    change update t.disk _ _ c = _
    rw [update_of_ne (by omega)]
    exact took.inodes c early
  · change update t.disk _ _ b = _
    rw [update_of_ne ne]
    exact took.zero
  · intro c after other apart
    change update t.disk _ _ c = _
    rw [update_of_ne (apart (by omega))]
    exact took.data c after other
  · change _ = b :: freeList sb (update t.disk _ _)
    rw [freeList_update _ late]
    exact allocated.free
  · rw [mem_addLogged]
    change c ∈ t.logged ∨ _ <-> _
    rw [allocated.logged, or_assoc, or_assoc]
    apply or_congr_right
    apply or_congr_right
    apply or_congr_right
    exact ⟨fun same => ⟨by omega, same⟩, And.right⟩

theorem ensures_addrOf (direct : k <= NDIRECT) : Ensures (addrOf i k) s
    (fun b t => ((s.inode i).addrs k ≠ 0 /\ b = (s.inode i).addrs k /\ t = s) ∨
      Assigned sb s i k b t)
    fun halt _ => (s.inode i).addrs k = 0 /\ (s.logged.Nodup -> Lacks sb i s 1 0 halt) := by
  unfold addrOf
  rw [ensures_bind, ensures_get, ensures_ite]
  constructor
  · intro unset
    rw [ensures_bind]
    apply (ensures_ballocOp recorded i).mono _ fun _ _ lacks => ⟨unset, lacks⟩
    intro b t allocated
    rw [ensures_bind, ensures_modify, ensures_pure]
    exact .inr (allocated.assign recorded slot direct unset)
  · intro set
    rw [ensures_pure]
    exact .inl ⟨set, rfl, rfl⟩

theorem ensures_entryOf (bound : k < NINDIRECT) (some : (s.inode i).addrs NDIRECT ≠ 0) :
    Ensures (entryOf ((s.inode i).addrs NDIRECT) k) s
      (fun b t => (addr s.disk s.inode (i, NDIRECT + 1 + k) ≠ 0 /\
        b = addr s.disk s.inode (i, NDIRECT + 1 + k) /\ t = s) ∨
        Assigned sb s i (NDIRECT + 1 + k) b t)
      fun halt _ => addr s.disk s.inode (i, NDIRECT + 1 + k) = 0 /\
      (s.logged.Nodup -> Lacks sb i s 1 1 halt) := by
  unfold entryOf
  rw [ensures_bind, ensures_get, ensures_ite, addr_entry some]
  constructor
  · intro unset
    rw [ensures_bind]
    apply (ensures_ballocOp recorded i).mono
    · intro b t allocated
      rw [ensures_bind, ensures_modify, ensures_bind]
      apply (ensures_logWrite _ _).mono
      · rintro _ _ ⟨rfl, _⟩
        rw [ensures_pure]
        exact .inr (allocated.assignEntry recorded slot bound some unset)
      · rintro _ _ ⟨rfl, full⟩
        refine ⟨unset, fun nodup => ?_⟩
        have late := recorded.low (Good.holds_indirect slot some)
        have start := three_lt_dataStart sb
        have super : readsb (setDisk ((s.inode i).addrs NDIRECT)
            (setWord (t.disk ((s.inode i).addrs NDIRECT)) k b) t).disk = sb := by
          change readsb (update t.disk _ _) = sb
          rw [readsb_update (by omega)]
          exact allocated.took.super
        rw [super] at full
        have least : t.logged.length <= load sb i t := length_le_load sb t i (allocated.nodup nodup)
        have more : load sb i t <= load sb i s + ({b} : Finset Nat).card := by
          apply load_le
          · intro c member
            rcases (allocated.logged c).mp member with old | rfl | rfl
            · exact .inl old
            · exact .inr (.inl (mem_bitmaps allocated.took.below))
            · exact .inr (.inr (.inl (Finset.mem_singleton_self c)))
          · intro _
            rw [allocated.inode]
        rw [Finset.card_singleton] at more
        exact full.trans (least.trans more)
    · intro halt _ lacks
      exact ⟨unset, fun nodup => (lacks nodup).weaken (le_refl 1) (Nat.zero_le 1)⟩
  · intro set
    rw [ensures_pure]
    exact .inl ⟨set, rfl, rfl⟩

end Blocks

/-! ## What a file reads -/

/-- Byte `pos` of file `i`, zero where it has no block. -/
def content (s : State) (i pos : Nat) : Byte :=
  if addr s.disk s.inode (i, slotOf (pos / BSIZE)) = 0 then 0#8
  else s.disk (addr s.disk s.inode (i, slotOf (pos / BSIZE))) (pos % BSIZE)

/-- The bytes that a file can have. -/
def Position (sb : Superblock) (s : State) (j pos : Nat) : Prop :=
  j < sb.ninodes /\ (s.inode j).type ≠ 0#16 /\ pos < MAXFILE * BSIZE

theorem Position.slot (position : Position sb s j pos) :
    Slot sb s.inode (j, slotOf (pos / BSIZE)) /\ slotOf (pos / BSIZE) ≠ NDIRECT := by
  have inside : pos / BSIZE < MAXFILE := Nat.div_lt_of_lt_mul (by rw [Nat.mul_comm]; exact position.2.2)
  have bound := slotOf_lt inside
  exact ⟨⟨position.1, position.2.1, bound.1⟩, bound.2⟩

theorem Position.extends_ (position : Position sb s j pos)
    (extends_ : Extends sb s t i) : Position sb t j pos :=
  ⟨position.1, by rw [extends_.type]; exact position.2.1, position.2.2⟩

/-- A new block is zero, as the hole was. -/
theorem Assigned.content {k : Nat} (recorded : Recorded sb s)
    (slot : i < sb.ninodes /\ (s.inode i).type ≠ 0#16) (assigned : Assigned sb s i k b t)
    (position : Position sb s j pos) : content t j pos = content s j pos := by
  rcases position.slot with ⟨inside, notIndirect⟩
  unfold Inodes.content
  rw [assigned.addrs _ inside]
  by_cases here : (j, slotOf (pos / BSIZE)) = (i, k)
  · rw [if_pos here, here, assigned.unset, if_pos rfl, assigned.zero]
    exact ite_self _
  · rw [if_neg here]
    by_cases none : addr s.disk s.inode (j, slotOf (pos / BSIZE)) = 0
    · rw [if_pos none, if_pos none]
    · rw [if_neg none, if_neg none]
      have held : Holds sb s.disk s.inode (j, slotOf (pos / BSIZE))
          (addr s.disk s.inode (j, slotOf (pos / BSIZE))) := ⟨inside, rfl, none⟩
      rw [assigned.data _ (recorded.low held)]
      · intro same
        apply assigned.unused
        rw [<- same]
        exact recorded.record.used_of_holds held
      · intro _ same
        rw [same] at held none
        exact notIndirect (congrArg Prod.snd (recorded.record.once _ _ _ held
          (Good.holds_indirect slot none)))

/-! ## `bmap` -/

/-- How many blocks `bmap` of block `bn` takes. -/
def lackingAt (s : State) (i bn : Nat) : Nat :=
  (if NDIRECT <= bn /\ (s.inode i).addrs NDIRECT = 0 then 1 else 0) +
    if addr s.disk s.inode (i, slotOf bn) = 0 then 1 else 0

/-- `bmap` of block `bn` returned `b`, after it took the blocks `new`. -/
structure Mapped (sb : Superblock) (s : State) (i bn b : Nat) (new : List Nat) (t : State) : Prop where
  recorded : Recorded sb t
  extends_ : Extends sb s t i
  found : addr t.disk t.inode (i, slotOf bn) = b
  nonzero : b ≠ 0
  frame : ∀ p, Slot sb s.inode p -> p ≠ (i, slotOf bn) -> p ≠ (i, NDIRECT) ->
    addr t.disk t.inode p = addr s.disk s.inode p
  pointer : bn < NDIRECT -> (t.inode i).addrs NDIRECT = (s.inode i).addrs NDIRECT
  pointed : NDIRECT <= bn -> (t.inode i).addrs NDIRECT ≠ 0
  content : ∀ j pos, Position sb s j pos -> content t j pos = content s j pos
  taken : t.taken = new.reverse ++ s.taken
  free : freeList sb s.disk = new ++ freeList sb t.disk
  count : new.length = lackingAt s i bn
  below : ∀ c, c ∈ new -> c < sb.size
  logged : ∀ c, c ∈ t.logged <-> c ∈ s.logged ∨ (∃ d, d ∈ new /\ c = BBLOCK d sb.ninodes) ∨
    (addr s.disk s.inode (i, slotOf bn) = 0 /\ (c = b ∨ NDIRECT <= bn /\ c = (t.inode i).addrs NDIRECT))
  nodup : s.logged.Nodup -> t.logged.Nodup

/-- A new indirect block. -/
theorem Assigned.fresh {a : Nat} (slot : i < sb.ninodes /\ (s.inode i).type ≠ 0#16)
    (first : Assigned sb s i NDIRECT a t) :
    (s.inode i).addrs NDIRECT = 0 /\ (t.inode i).addrs NDIRECT = a /\ a ≠ 0 := by
  have start := three_lt_dataStart sb
  have low := first.low
  have unset := first.unset
  have equal := first.addrs (i, NDIRECT) (slot_pointer slot)
  rw [addr_direct (le_refl _)] at unset
  rw [if_pos rfl, addr_direct (le_refl _)] at equal
  exact ⟨unset, equal, by omega⟩

section Map

variable {sb : Superblock} {s t : State} {i bn b : Nat} (recorded : Recorded sb s)
  (slot : i < sb.ninodes /\ (s.inode i).type ≠ 0#16)

include recorded

theorem Mapped.same (some : addr s.disk s.inode (i, slotOf bn) ≠ 0)
    (pointed : NDIRECT <= bn -> (s.inode i).addrs NDIRECT ≠ 0) :
    Mapped sb s i bn (addr s.disk s.inode (i, slotOf bn)) [] s where
  recorded := recorded
  extends_ := Extends.refl sb s i
  found := rfl
  nonzero := some
  frame _ _ _ _ := rfl
  pointer _ := rfl
  pointed := pointed
  content _ _ _ := rfl
  taken := rfl
  free := rfl
  count := by
    unfold lackingAt
    rw [if_neg some, if_neg fun both => pointed both.1 both.2]
    rfl
  below _ member := absurd member List.not_mem_nil
  logged c := by
    constructor
    · exact .inl
    · rintro (old | ⟨_, member, _⟩ | ⟨none, _⟩)
      · exact old
      · exact absurd member List.not_mem_nil
      · exact absurd none some
  nodup nodup := nodup

include slot

theorem Assigned.mapped (bound : bn < MAXFILE) (assigned : Assigned sb s i (slotOf bn) b t)
    (pointed : NDIRECT <= bn -> (s.inode i).addrs NDIRECT ≠ 0) : Mapped sb s i bn b [b] t := by
  have here : Slot sb s.inode (i, slotOf bn) := ⟨slot.1, slot.2, (slotOf_lt bound).1⟩
  have start := three_lt_dataStart sb
  have low := assigned.low
  have pointer : (t.inode i).addrs NDIRECT = (s.inode i).addrs NDIRECT := by
    have equal := assigned.addrs (i, NDIRECT) (slot_pointer slot)
    rw [if_neg fun same => (slotOf_lt bound).2 (congrArg Prod.snd same).symm, addr_direct (le_refl _),
      addr_direct (le_refl _)] at equal
    exact equal
  have high : NDIRECT < slotOf bn <-> NDIRECT <= bn := by
    unfold slotOf
    split <;> omega
  constructor
  case recorded => exact assigned.recorded
  case extends_ => exact assigned.extends_
  case found => rw [assigned.addrs _ here, if_pos rfl]
  case nonzero => omega
  case frame =>
    intro p inside other _
    rw [assigned.addrs p inside, if_neg other]
  case pointer => exact fun _ => pointer
  case pointed =>
    intro late
    rw [pointer]
    exact pointed late
  case content => exact fun j pos position => assigned.content recorded slot position
  case taken => exact assigned.taken
  case free => exact assigned.free
  case count =>
    unfold lackingAt
    rw [if_pos assigned.unset, if_neg fun both => pointed both.1 both.2]
    rfl
  case below =>
    intro c member
    rw [List.mem_singleton.mp member]
    exact assigned.below
  case logged =>
    intro c
    rw [assigned.logged, pointer, high]
    apply or_congr_right
    constructor
    · rintro (rfl | rfl | indirect)
      · exact .inl ⟨b, List.mem_singleton_self b, rfl⟩
      · exact .inr ⟨assigned.unset, .inl rfl⟩
      · exact .inr ⟨assigned.unset, .inr indirect⟩
    · rintro (⟨d, member, rfl⟩ | ⟨_, same | indirect⟩)
      · rw [List.mem_singleton.mp member]
        exact .inl rfl
      · exact .inr (.inl same)
      · exact .inr (.inr indirect)
  case nodup => exact assigned.nodup

/-- The indirect block comes first. -/
theorem Mapped.after {u : State} {a : Nat} {new : List Nat} (bound : bn < MAXFILE)
    (late : NDIRECT <= bn) (first : Assigned sb s i NDIRECT a t)
    (second : Mapped sb t i bn b new u) : Mapped sb s i bn b (a :: new) u := by
  have here : Slot sb s.inode (i, slotOf bn) := ⟨slot.1, slot.2, (slotOf_lt bound).1⟩
  rcases first.fresh slot with ⟨none, fresh, positive⟩
  have kept : (u.inode i).addrs NDIRECT = a := by
    have equal := second.extends_.kept (i, NDIRECT) ((first.extends_.slot _).mpr (slot_pointer slot))
    rw [addr_direct (le_refl _), addr_direct (le_refl _), fresh] at equal
    exact equal positive
  have apart : (i, slotOf bn) ≠ (i, NDIRECT) := fun same => (slotOf_lt bound).2 (congrArg Prod.snd same)
  have between : addr t.disk t.inode (i, slotOf bn) = addr s.disk s.inode (i, slotOf bn) := by
    rw [first.addrs _ here, if_neg apart]
  have unset : addr s.disk s.inode (i, slotOf bn) = 0 := by
    have index : ¬ slotOf bn <= NDIRECT := by
      unfold slotOf
      split <;> omega
    rw [addr, if_neg index, if_pos none]
  constructor
  case recorded => exact second.recorded
  case extends_ => exact first.extends_.trans second.extends_
  case found => exact second.found
  case nonzero => exact second.nonzero
  case frame =>
    intro p inside other notPointer
    rw [second.frame p ((first.extends_.slot p).mpr inside) other notPointer, first.addrs p inside,
      if_neg notPointer]
  case pointer => exact fun early => absurd early (Nat.not_lt.mpr late)
  case pointed => exact second.pointed
  case content =>
    intro j pos position
    rw [second.content j pos (position.extends_ first.extends_), first.content recorded slot position]
  case taken =>
    rw [second.taken, first.taken, List.reverse_cons, List.append_assoc]
    rfl
  case free =>
    rw [first.free, second.free]
    rfl
  case count =>
    have rest := second.count
    unfold lackingAt at rest ⊢
    rw [between, fresh, if_neg fun both => positive both.2] at rest
    have one : (if NDIRECT <= bn /\ (s.inode i).addrs NDIRECT = 0 then 1 else 0) = 1 :=
      if_pos ⟨late, none⟩
    rw [List.length_cons, rest, one]
    omega
  case below =>
    intro c member
    rcases List.mem_cons.mp member with rfl | rest
    · exact first.below
    · exact second.below c rest
  case logged =>
    intro c
    rw [second.logged, first.logged, between, kept]
    constructor
    · rintro ((old | rfl | rfl | ⟨wrong, _⟩) | ⟨d, member, rfl⟩ | ⟨_, same | indirect⟩)
      · exact .inl old
      · exact .inr (.inl ⟨a, List.mem_cons_self, rfl⟩)
      · exact .inr (.inr ⟨unset, .inr ⟨late, rfl⟩⟩)
      · exact absurd wrong (Nat.lt_irrefl _)
      · exact .inr (.inl ⟨d, List.mem_cons_of_mem a member, rfl⟩)
      · exact .inr (.inr ⟨unset, .inl same⟩)
      · exact .inr (.inr ⟨unset, .inr indirect⟩)
    · rintro (old | ⟨d, member, rfl⟩ | both)
      · exact .inl (.inl old)
      · rcases List.mem_cons.mp member with rfl | rest
        · exact .inl (.inr (.inl rfl))
        · exact .inr (.inl ⟨d, rest, rfl⟩)
      · exact .inr (.inr both)
  case nodup => exact fun nodup => second.nodup (first.nodup nodup)

omit recorded in
/-- After the indirect block there are fewer blocks, and no higher load. -/
theorem Assigned.lacks {a blocks entries : Nat} {halt : Halt} (first : Assigned sb s i NDIRECT a t)
    (lacks : Lacks sb i t blocks entries halt) : Lacks sb i s (blocks + 1) entries halt := by
  cases halt with
  | block panic =>
    cases panic with
    | outOfBlocks =>
      change (freeList sb s.disk).length < blocks + 1
      rw [first.free, List.length_cons]
      exact Nat.succ_lt_succ lacks
    | freeingFreeBlock => exact lacks
  | tooBigTransaction =>
    rcases first.fresh slot with ⟨none, fresh, positive⟩
    have more : load sb i t <= load sb i s + (∅ : Finset Nat).card := by
      apply load_le
      · intro c member
        rcases (first.logged c).mp member with old | rfl | rfl | ⟨wrong, _⟩
        · exact .inl old
        · exact .inr (.inl (mem_bitmaps first.below))
        · refine .inr (.inr (.inr ?_))
          unfold indirect
          rw [fresh, if_neg positive]
          exact Finset.mem_singleton_self c
        · exact absurd wrong (Nat.lt_irrefl _)
      · exact fun some => absurd none some
    rw [Finset.card_empty] at more
    exact Nat.le_trans lacks (Nat.add_le_add_right more entries)
  | bmapOutOfRange => exact lacks
  | noInodes => exact lacks
  | noType => exact lacks

theorem ensures_bmap (bound : bn < MAXFILE) : Ensures (bmap i bn) s
    (fun b t => ∃ new, Mapped sb s i bn b new t)
    fun halt _ => s.logged.Nodup -> Lacks sb i s (lackingAt s i bn) 1 halt := by
  unfold bmap
  rw [ensures_ite]
  constructor
  · intro direct
    have index : slotOf bn = bn := if_pos direct
    apply (ensures_addrOf recorded slot (Nat.le_of_lt direct)).mono
    · rintro b t (⟨set, rfl, rfl⟩ | assigned)
      · have equal : addr t.disk t.inode (i, slotOf bn) = (t.inode i).addrs bn := by
          rw [index]
          exact addr_direct (Nat.le_of_lt direct)
        rw [<- equal] at set ⊢
        exact ⟨[], Mapped.same recorded set fun late => absurd direct (Nat.not_lt.mpr late)⟩
      · rw [<- index] at assigned
        exact ⟨[b], assigned.mapped recorded slot bound fun late => absurd direct (Nat.not_lt.mpr late)⟩
    · rintro halt _ ⟨unset, lacks⟩ nodup
      refine (lacks nodup).weaken ?_ (Nat.zero_le 1)
      unfold lackingAt
      rw [index, addr_direct (Nat.le_of_lt direct), if_pos unset]
      exact Nat.le_add_left 1 _
  · intro notDirect
    have late : NDIRECT <= bn := Nat.not_lt.mp notDirect
    have inside : bn - NDIRECT < NINDIRECT := by
      unfold MAXFILE at bound
      omega
    have index : slotOf bn = NDIRECT + 1 + (bn - NDIRECT) := by
      rw [slotOf, if_neg notDirect]
      omega
    rw [if_pos inside, ensures_bind]
    apply (ensures_addrOf recorded slot (le_refl NDIRECT)).mono
    · rintro a t (⟨some, rfl, rfl⟩ | first)
      · apply (ensures_entryOf recorded slot inside some).mono
        · rintro b u (⟨set, rfl, rfl⟩ | assigned)
          · rw [<- index] at set ⊢
            exact ⟨[], Mapped.same recorded set fun _ => some⟩
          · rw [<- index] at assigned
            exact ⟨[b], assigned.mapped recorded slot bound fun _ => some⟩
        · rintro halt _ ⟨unset, lacks⟩ nodup
          refine (lacks nodup).weaken ?_ (le_refl 1)
          unfold lackingAt
          rw [index, if_pos unset]
          exact Nat.le_add_left 1 _
      · rcases first.fresh slot with ⟨none, fresh, positive⟩
        have slotAfter : i < sb.ninodes /\ (t.inode i).type ≠ 0#16 :=
          ⟨slot.1, by rw [first.extends_.type]; exact slot.2⟩
        have some : (t.inode i).addrs NDIRECT ≠ 0 := by
          rw [fresh]
          exact positive
        have entry := ensures_entryOf first.recorded slotAfter inside some
        rw [fresh] at entry
        apply entry.mono
        · rintro b u (⟨set, rfl, rfl⟩ | assigned)
          · rw [<- index] at set ⊢
            exact ⟨[a], Mapped.after recorded slot bound late first
              (Mapped.same first.recorded set fun _ => some)⟩
          · rw [<- index] at assigned
            exact ⟨[a, b], Mapped.after recorded slot bound late first
              (assigned.mapped first.recorded slotAfter bound fun _ => some)⟩
        · rintro halt _ ⟨unset, lacks⟩ nodup
          refine (first.lacks slot (lacks (first.nodup nodup))).weaken ?_ (le_refl 1)
          have one : (if NDIRECT <= bn /\ (s.inode i).addrs NDIRECT = 0 then 1 else 0) = 1 :=
            if_pos ⟨late, none⟩
          have index' : ¬ slotOf bn <= NDIRECT := by omega
          unfold lackingAt
          rw [one, addr, if_neg index', if_pos none, if_pos rfl]
    · rintro halt _ ⟨unset, lacks⟩ nodup
      refine (lacks nodup).weaken ?_ (Nat.zero_le 1)
      unfold lackingAt
      rw [if_pos ⟨late, unset⟩]
      exact Nat.le_add_right 1 _

end Map

end Xv6.Fs.Inodes
