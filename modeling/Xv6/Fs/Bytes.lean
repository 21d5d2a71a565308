import Mathlib.Data.Finset.Max
import Mathlib.Order.Interval.Finset.Nat
import Xv6.Fs.Assign

namespace Xv6.Fs.Inodes

open Library
open Function

/-!
# `writei` as a write to a byte array

One pass of the loop of `writei` maps a block, copies bytes into it and logs it.  What
a pass does to the bytes of all files, to the free blocks and to the log composes over
the passes, since they are for different blocks.
-/

/-! ## The blocks of a range of bytes -/

/-- The blocks of the bytes from `off` on, `n` in number. -/
def blocksIn (off n : Nat) : Finset Nat :=
  if n = 0 then ∅ else Finset.Ico (off / BSIZE) ((off + n - 1) / BSIZE + 1)

variable {off n m : Nat} {bn : Nat}

theorem mem_blocksIn :
    bn ∈ blocksIn off n <-> 0 < n /\ off / BSIZE <= bn /\ bn <= (off + n - 1) / BSIZE := by
  unfold blocksIn
  by_cases none : n = 0
  · rw [if_pos none]
    exact ⟨fun member => absurd member (Finset.notMem_empty bn), fun range => absurd none (by omega)⟩
  · rw [if_neg none, Finset.mem_Ico]
    omega

/-- A range is split at the start of a block. -/
theorem blocksIn_add {k : Nat} (some : 0 < m) (aligned : k = 0 ∨ (off + m) % BSIZE = 0) :
    blocksIn off (m + k) = blocksIn off m ∪ blocksIn (off + m) k /\
    Disjoint (blocksIn off m) (blocksIn (off + m) k) := by
  unfold BSIZE at aligned
  constructor
  · ext bn
    rw [Finset.mem_union, mem_blocksIn, mem_blocksIn, mem_blocksIn]
    unfold BSIZE
    omega
  · rw [Finset.disjoint_left]
    intro bn first second
    rw [mem_blocksIn] at first second
    unfold BSIZE at first second
    omega

/-- The bytes of one pass are in one block. -/
theorem blocksIn_chunk (some : 0 < m) (short : m <= BSIZE - off % BSIZE) :
    blocksIn off m = {off / BSIZE} := by
  ext bn
  rw [mem_blocksIn, Finset.mem_singleton]
  unfold BSIZE at short ⊢
  omega

theorem blocksIn_lt (fits : off + n <= MAXFILE * BSIZE) (member : bn ∈ blocksIn off n) :
    bn < MAXFILE := by
  rw [mem_blocksIn] at member
  unfold BSIZE at member fits
  omega

theorem slotOf_injective {one two : Nat} (same : slotOf one = slotOf two) : one = two := by
  unfold slotOf at same
  split at same
  next => split at same <;> omega
  next => split at same <;> omega

/-- How many blocks a write to the range takes. -/
def lacking (s : State) (i off n : Nat) : Nat :=
  ((blocksIn off n).filter fun bn => addr s.disk s.inode (i, slotOf bn) = 0).card +
    if (s.inode i).addrs NDIRECT = 0 /\
      ((blocksIn off n).filter fun bn => NDIRECT <= bn).Nonempty then 1 else 0

/-- One pass lacks what `bmap` lacks. -/
theorem lacking_chunk (s : State) (i : Nat) (some : 0 < m) (short : m <= BSIZE - off % BSIZE) :
    lacking s i off m = lackingAt s i (off / BSIZE) := by
  unfold lackingAt lacking
  rw [blocksIn_chunk some short, Finset.filter_singleton, Finset.filter_singleton, Nat.add_comm]
  congr 1
  · by_cases late : NDIRECT <= off / BSIZE
    · simp only [late, true_and, if_true, Finset.singleton_nonempty, and_true]
    · simp only [late, false_and, if_false, Finset.not_nonempty_empty, and_false]
  · split
    · rfl
    · rfl

theorem lacking_mono (s : State) (i : Nat) (shorter : m <= n) :
    lacking s i off m <= lacking s i off n := by
  have subset : blocksIn off m ⊆ blocksIn off n := by
    intro bn member
    rw [mem_blocksIn] at member ⊢
    unfold BSIZE at member ⊢
    omega
  unfold lacking
  apply Nat.add_le_add
  · exact Finset.card_le_card (Finset.filter_subset_filter _ subset)
  · by_cases early : (s.inode i).addrs NDIRECT = 0 /\
      ((blocksIn off m).filter fun bn => NDIRECT <= bn).Nonempty
    · rw [if_pos early, if_pos ⟨early.1, early.2.mono (Finset.filter_subset_filter _ subset)⟩]
    · rw [if_neg early]
      exact Nat.zero_le _

/-- A write of `n` bytes at `off` to file `i`, which took the blocks `new`. -/
structure Wrote (sb : Superblock) (i : Nat) (src : Nat -> Byte) (off n : Nat) (new : List Nat)
  (s t : State) : Prop where
  recorded : Recorded sb t
  extends_ : Extends sb s t i
  placed : ∀ bn, bn ∈ blocksIn off n -> addr t.disk t.inode (i, slotOf bn) ≠ 0
  frame : ∀ p, Slot sb s.inode p -> p ≠ (i, NDIRECT) ->
    (∀ bn, bn ∈ blocksIn off n -> p ≠ (i, slotOf bn)) ->
    addr t.disk t.inode p = addr s.disk s.inode p
  pointer : (∀ bn, bn ∈ blocksIn off n -> bn < NDIRECT) ->
    (t.inode i).addrs NDIRECT = (s.inode i).addrs NDIRECT
  pointed : ∀ bn, bn ∈ blocksIn off n -> NDIRECT <= bn -> (t.inode i).addrs NDIRECT ≠ 0
  content : ∀ j pos, Position sb s j pos -> content t j pos =
    if j = i /\ off <= pos /\ pos < off + n then src (pos - off) else content s j pos
  taken : t.taken = new.reverse ++ s.taken
  free : freeList sb s.disk = new ++ freeList sb t.disk
  count : new.length = lacking s i off n
  below : ∀ c, c ∈ new -> c < sb.size
  logged : ∀ c, c ∈ t.logged <-> c ∈ s.logged ∨ (∃ d, d ∈ new /\ c = BBLOCK d sb.ninodes) ∨
    ∃ bn, bn ∈ blocksIn off n /\ (c = addr t.disk t.inode (i, slotOf bn) ∨
      NDIRECT <= bn /\ addr s.disk s.inode (i, slotOf bn) = 0 /\ c = (t.inode i).addrs NDIRECT)
  nodup : s.logged.Nodup -> t.logged.Nodup

theorem blocksIn_zero (off : Nat) : blocksIn off 0 = ∅ := if_pos rfl

theorem Wrote.nothing {sb : Superblock} {s : State} (recorded : Recorded sb s) (i : Nat)
    (src : Nat -> Byte) (off : Nat) : Wrote sb i src off 0 [] s s where
  recorded := recorded
  extends_ := Extends.refl sb s i
  placed bn member := absurd member (by rw [blocksIn_zero]; exact Finset.notMem_empty bn)
  frame _ _ _ _ := rfl
  pointer _ := rfl
  pointed bn member := absurd member (by rw [blocksIn_zero]; exact Finset.notMem_empty bn)
  content j pos _ := by rw [if_neg (by omega)]
  taken := rfl
  free := rfl
  count := by
    unfold lacking
    rw [blocksIn_zero, Finset.filter_empty, Finset.filter_empty,
      if_neg fun both => Finset.not_nonempty_empty both.2]
    rfl
  below _ member := absurd member List.not_mem_nil
  logged c := by
    rw [blocksIn_zero]
    constructor
    · exact .inl
    · rintro (old | ⟨_, member, _⟩ | ⟨bn, member, _⟩)
      · exact old
      · exact absurd member List.not_mem_nil
      · exact absurd member (Finset.notMem_empty bn)
  nodup nodup := nodup

section Pass

variable {sb : Superblock} {s t : State} {i off m b : Nat} {new : List Nat}
  (slot : i < sb.ninodes /\ (s.inode i).type ≠ 0#16) (some : 0 < m) (short : m <= BSIZE - off % BSIZE)
  (inside : off / BSIZE < MAXFILE) (mapped : Mapped sb s i (off / BSIZE) b new t)

include slot inside mapped

theorem Mapped.held : Holds sb t.disk t.inode (i, slotOf (off / BSIZE)) b :=
  ⟨(mapped.extends_.slot _).mpr ⟨slot.1, slot.2, (slotOf_lt inside).1⟩, mapped.found, mapped.nonzero⟩

/-- The block that is written is no indirect block. -/
theorem Mapped.apart {j : Nat} {c : Nat}
    (held : Holds sb t.disk t.inode (j, NDIRECT) c) : c ≠ b := by
  rintro rfl
  have same := mapped.recorded.record.once _ _ _ held (mapped.held slot inside)
  exact (slotOf_lt inside).2 (congrArg Prod.snd same).symm

theorem Mapped.addr_write (data : Block) {p : Nat × Nat} (within : Slot sb t.inode p) :
    addr (update t.disk b data) t.inode p = addr t.disk t.inode p := by
  apply addr_congr
  intro pointer
  exact update_of_ne (mapped.apart slot inside (Good.holds_indirect ⟨within.1, within.2.1⟩ pointer)) _ _

theorem Mapped.recorded_write (data : Block) : Recorded sb (setDisk b data t) := by
  have low := mapped.recorded.low (mapped.held slot inside)
  have start := three_lt_dataStart sb
  refine ⟨?_, mapped.recorded.record.congr ?_ ?_⟩
  · change readsb (update t.disk b data) = sb
    rw [readsb_update (by omega)]
    exact mapped.recorded.super
  · intro p c
    change Holds sb (update t.disk b data) t.inode p c <-> _
    apply Good.holds_disk
    intro j d held
    exact update_of_ne (mapped.apart slot inside held) _ _
  · exact used_update data low

include some short

/-- One pass of the loop. -/
theorem Mapped.wrote (src : Nat -> Byte) :
    Wrote sb i src off m new s (addLogged b (setDisk b (patch (t.disk b) (off % BSIZE) m src)
      t)) := by
  have blocks := blocksIn_chunk some short
  have held := mapped.held slot inside
  have low := mapped.recorded.low held
  have first := dataStart_low sb
  have slots : ∀ p, Slot sb t.inode p <-> Slot sb s.inode p := mapped.extends_.slot
  have addrs : ∀ p, Slot sb s.inode p -> addr (update t.disk b (patch (t.disk b) (off % BSIZE) m src))
      t.inode p = addr t.disk t.inode p :=
        fun p within => mapped.addr_write slot inside _ ((slots p).mpr within)
  have here : Slot sb s.inode (i, slotOf (off / BSIZE)) := ⟨slot.1, slot.2, (slotOf_lt inside).1⟩
  have found : addr (update t.disk b (patch (t.disk b) (off % BSIZE) m src)) t.inode
      (i, slotOf (off / BSIZE)) = b := (addrs _ here).trans mapped.found
  constructor
  case recorded =>
    have after := mapped.recorded_write slot inside (patch (t.disk b) (off % BSIZE) m src)
    exact ⟨after.super, after.record⟩
  case extends_ =>
    refine ⟨mapped.extends_.fields, mapped.extends_.others, ?_, ?_⟩
    · intro p within set
      exact (addrs p within).trans (mapped.extends_.kept p within set)
    · intro c early
      change update t.disk b _ c = _
      rw [update_of_ne (by omega)]
      exact mapped.extends_.inodes c early
  case placed =>
    intro bn member
    rw [blocks, Finset.mem_singleton] at member
    subst member
    change addr (update t.disk b _) t.inode _ ≠ 0
    rw [found]
    exact mapped.nonzero
  case frame =>
    intro p within notPointer others
    refine (addrs p within).trans (mapped.frame p within (others _ ?_) notPointer)
    rw [blocks]
    exact Finset.mem_singleton_self _
  case pointer =>
    intro early
    exact mapped.pointer (early _ (by rw [blocks]; exact Finset.mem_singleton_self _))
  case pointed =>
    intro bn member late
    rw [blocks, Finset.mem_singleton] at member
    subst member
    exact mapped.pointed late
  case content =>
    intro j pos position
    rcases position.slot with ⟨within, notPointer⟩
    rw [<- mapped.content j pos position]
    unfold Inodes.content
    change (if addr (update t.disk b _) t.inode _ = 0 then _ else
      update t.disk b _ (addr (update t.disk b _) t.inode _) _) = _
    rw [addrs _ within]
    by_cases same : (j, slotOf (pos / BSIZE)) = (i, slotOf (off / BSIZE))
    · have file : j = i := congrArg Prod.fst same
      have block : pos / BSIZE = off / BSIZE := slotOf_injective (congrArg Prod.snd same)
      rw [same, mapped.found, if_neg mapped.nonzero, if_neg mapped.nonzero, update_self, patch]
      by_cases patched : off % BSIZE <= pos % BSIZE /\ pos % BSIZE < off % BSIZE + m
      · rw [if_pos patched, if_pos]
        · congr 1
          unfold BSIZE at block patched ⊢
          omega
        · unfold BSIZE at block patched
          exact ⟨file, by omega, by omega⟩
      · rw [if_neg patched, if_neg]
        unfold BSIZE at block patched
        omega
    · have outside : ¬ (j = i /\ off <= pos /\ pos < off + m) := by
        rintro ⟨rfl, start, finish⟩
        apply same
        have block : pos / BSIZE = off / BSIZE := by
          unfold BSIZE at short ⊢
          omega
        rw [block]
      rw [if_neg outside]
      by_cases none : addr t.disk t.inode (j, slotOf (pos / BSIZE)) = 0
      · rw [if_pos none, if_pos none]
      · rw [if_neg none, if_neg none, update_of_ne]
        intro equal
        have other : Holds sb t.disk t.inode (j, slotOf (pos / BSIZE)) b :=
          ⟨(slots _).mpr within, equal, mapped.nonzero⟩
        exact same (mapped.recorded.record.once _ _ _ other held)
  case taken => exact mapped.taken
  case free =>
    change _ = new ++ freeList sb (update t.disk b _)
    rw [freeList_update _ low]
    exact mapped.free
  case count => rw [mapped.count, lacking_chunk s i some short]
  case below => exact mapped.below
  case logged =>
    intro c
    rw [mem_addLogged]
    change (c ∈ t.logged ∨ c = b) <-> _ ∨ _ ∨ ∃ bn, _ /\ (c = addr (update t.disk b _) t.inode _ ∨ _)
    rw [mapped.logged, blocks, or_assoc, or_assoc]
    apply or_congr_right
    apply or_congr_right
    constructor
    · rintro (⟨unset, same | ⟨late, pointer⟩⟩ | same)
      · exact ⟨_, Finset.mem_singleton_self _, .inl (same.trans found.symm)⟩
      · exact ⟨_, Finset.mem_singleton_self _, .inr ⟨late, unset, pointer⟩⟩
      · exact ⟨_, Finset.mem_singleton_self _, .inl (same.trans found.symm)⟩
    · rintro ⟨bn, member, same | ⟨late, unset, pointer⟩⟩
      · rw [Finset.mem_singleton] at member
        subst member
        exact .inr (same.trans found)
      · rw [Finset.mem_singleton] at member
        subst member
        exact .inl ⟨unset, .inr ⟨late, pointer⟩⟩
  case nodup => exact fun nodup => nodup_addLogged (mapped.nodup nodup)

end Pass

section Passes

variable {sb : Superblock} {s t u : State} {i off m k : Nat} {src : Nat -> Byte} {new more : List Nat}
  (slot : i < sb.ninodes /\ (s.inode i).type ≠ 0#16) (some : 0 < m)
    (aligned : k = 0 ∨ (off + m) % BSIZE = 0)
  (fits : off + m + k <= MAXFILE * BSIZE) (first : Wrote sb i src off m new s t)
  (second : Wrote sb i (fun j => src (j + m)) (off + m) k more t u)

include slot some aligned fits first

/-- The first pass leaves the blocks of the others as they were. -/
theorem Wrote.addr_rest (member : bn ∈ blocksIn (off + m) k) :
    addr t.disk t.inode (i, slotOf bn) = addr s.disk s.inode (i, slotOf bn) := by
  rcases blocksIn_add some aligned with ⟨union, disjoint⟩
  have bound := blocksIn_lt fits member
  apply first.frame _ ⟨slot.1, slot.2, (slotOf_lt bound).1⟩
  · exact fun same => (slotOf_lt bound).2 (congrArg Prod.snd same)
  · intro other earlier same
    rw [slotOf_injective (congrArg Prod.snd same)] at member
    exact Finset.disjoint_left.mp disjoint earlier member

/-- What the first pass took and what the others lack. -/
theorem Wrote.lacking_add :
    lacking s i off (m + k) = lacking s i off m + lacking t i (off + m) k := by
  rcases blocksIn_add some aligned with ⟨union, disjoint⟩
  have same : (blocksIn (off + m) k).filter (fun bn => addr t.disk t.inode (i, slotOf bn) = 0) =
      (blocksIn (off + m) k).filter fun bn => addr s.disk s.inode (i, slotOf bn) = 0 := by
    apply Finset.filter_congr
    intro bn member
    rw [first.addr_rest slot some aligned fits member]
  unfold lacking
  rw [union, Finset.filter_union, Finset.filter_union, same,
    Finset.card_union_of_disjoint (Finset.disjoint_filter_filter disjoint)]
  by_cases late : ((blocksIn off m).filter fun bn => NDIRECT <= bn).Nonempty
  · have pointed : (t.inode i).addrs NDIRECT ≠ 0 := by
      rcases late with ⟨bn, member⟩
      rw [Finset.mem_filter] at member
      exact first.pointed bn member.1 member.2
    simp only [Finset.union_nonempty, late, pointed, true_or, false_and, and_true, if_false]
    omega
  · have pointer : (t.inode i).addrs NDIRECT = (s.inode i).addrs NDIRECT := by
      apply first.pointer
      intro bn member
      by_contra high
      exact late ⟨bn, Finset.mem_filter.mpr ⟨member, Nat.not_lt.mp high⟩⟩
    simp only [Finset.union_nonempty, late, pointer, false_or, and_false, if_false]
    omega

include second

theorem Wrote.trans : Wrote sb i src off (m + k) (new ++ more) s u := by
  rcases blocksIn_add some aligned with ⟨union, disjoint⟩
  have slots : ∀ p, Slot sb t.inode p <-> Slot sb s.inode p := first.extends_.slot
  have kept : ∀ bn, bn ∈ blocksIn off m ->
      addr u.disk u.inode (i, slotOf bn) = addr t.disk t.inode (i, slotOf bn) := by
    intro bn member
    have inside := blocksIn_lt ((Nat.le_add_right _ k).trans fits) member
    exact second.extends_.kept _ ((slots _).mpr ⟨slot.1, slot.2, (slotOf_lt inside).1⟩)
      (first.placed bn member)
  have pointerKept : (t.inode i).addrs NDIRECT ≠ 0 ->
      (u.inode i).addrs NDIRECT = (t.inode i).addrs NDIRECT := by
    intro set
    have equal := second.extends_.kept _ ((slots _).mpr (slot_pointer slot))
    rw [addr_direct (le_refl _), addr_direct (le_refl _)] at equal
    exact equal set
  constructor
  case recorded => exact second.recorded
  case extends_ => exact first.extends_.trans second.extends_
  case placed =>
    intro bn member
    rw [union, Finset.mem_union] at member
    rcases member with earlier | later
    · rw [kept bn earlier]
      exact first.placed bn earlier
    · exact second.placed bn later
  case frame =>
    intro p within notPointer others
    rw [union] at others
    rw [second.frame p ((slots p).mpr within) notPointer fun bn member =>
      others bn (Finset.mem_union_right _ member)]
    exact first.frame p within notPointer fun bn member => others bn (Finset.mem_union_left _ member)
  case pointer =>
    intro early
    rw [union] at early
    rw [second.pointer fun bn member => early bn (Finset.mem_union_right _ member)]
    exact first.pointer fun bn member => early bn (Finset.mem_union_left _ member)
  case pointed =>
    intro bn member late
    rw [union, Finset.mem_union] at member
    rcases member with earlier | later
    · rw [pointerKept (first.pointed bn earlier late)]
      exact first.pointed bn earlier late
    · exact second.pointed bn later late
  case content =>
    intro j pos position
    rw [second.content j pos (position.extends_ first.extends_), first.content j pos position]
    by_cases later : j = i /\ off + m <= pos /\ pos < off + m + k
    · rw [if_pos later, if_pos ⟨later.1, by omega, by omega⟩]
      congr 1
      omega
    · rw [if_neg later]
      by_cases earlier : j = i /\ off <= pos /\ pos < off + m
      · rw [if_pos earlier, if_pos ⟨earlier.1, earlier.2.1, by omega⟩]
      · rw [if_neg earlier, if_neg (by omega)]
  case taken => rw [second.taken, first.taken, List.reverse_append, List.append_assoc]
  case free => rw [first.free, second.free, List.append_assoc]
  case count =>
    rw [List.length_append, first.count, second.count, first.lacking_add slot some aligned fits]
  case below =>
    intro c member
    rcases List.mem_append.mp member with earlier | later
    · exact first.below c earlier
    · exact second.below c later
  case logged =>
    intro c
    rw [second.logged, first.logged, union]
    constructor
    · rintro ((old | ⟨d, member, rfl⟩ | ⟨bn, member, same | ⟨late, unset, pointer⟩⟩) | ⟨d, member, rfl⟩ |
        ⟨bn, member, same | ⟨late, unset, pointer⟩⟩)
      · exact .inl old
      · exact .inr (.inl ⟨d, List.mem_append_left _ member, rfl⟩)
      · exact .inr (.inr ⟨bn, Finset.mem_union_left _ member, .inl (same.trans (kept bn member).symm)⟩)
      · refine .inr (.inr ⟨bn, Finset.mem_union_left _ member, .inr ⟨late, unset, ?_⟩⟩)
        rw [pointer, pointerKept (first.pointed bn member late)]
      · exact .inr (.inl ⟨d, List.mem_append_right _ member, rfl⟩)
      · exact .inr (.inr ⟨bn, Finset.mem_union_right _ member, .inl same⟩)
      · rw [first.addr_rest slot some aligned fits member] at unset
        exact .inr (.inr ⟨bn, Finset.mem_union_right _ member, .inr ⟨late, unset, pointer⟩⟩)
    · rintro (old | ⟨d, member, rfl⟩ | ⟨bn, member, same⟩)
      · exact .inl (.inl old)
      · rcases List.mem_append.mp member with earlier | later
        · exact .inl (.inr (.inl ⟨d, earlier, rfl⟩))
        · exact .inr (.inl ⟨d, later, rfl⟩)
      · rcases Finset.mem_union.mp member with earlier | later
        · refine .inl (.inr (.inr ⟨bn, earlier, ?_⟩))
          rw [kept bn earlier] at same
          refine same.imp_right fun all => ⟨all.1, all.2.1, ?_⟩
          rw [all.2.2, pointerKept (first.pointed bn earlier all.1)]
        · refine .inr (.inr ⟨bn, later, ?_⟩)
          rw [first.addr_rest slot some aligned fits later]
          exact same
  case nodup => exact fun nodup => second.nodup (first.nodup nodup)

end Passes

/-! ## The loop -/

section Loop

variable {sb : Superblock} {s t : State} {i off n : Nat} {src : Nat -> Byte} {new : List Nat}

/-- Of what it logs only the blocks of the range add to the load. -/
theorem Wrote.load_le (slot : i < sb.ninodes /\ (s.inode i).type ≠ 0#16)
    (wrote : Wrote sb i src off n new s t) :
    load sb i t <= load sb i s + (blocksIn off n).card := by
  have extra : load sb i t <= load sb i s +
      ((blocksIn off n).image fun bn => addr t.disk t.inode (i, slotOf bn)).card := by
    apply Inodes.load_le
    · intro c member
      rcases (wrote.logged c).mp member with old | ⟨d, taken, rfl⟩ | ⟨bn, block, rfl | ⟨late, _, rfl⟩⟩
      · exact .inl old
      · exact .inr (.inl (mem_bitmaps (wrote.below d taken)))
      · exact .inr (.inr (.inl (Finset.mem_image_of_mem _ block)))
      · refine .inr (.inr (.inr ?_))
        unfold indirect
        rw [if_neg (wrote.pointed bn block late)]
        exact Finset.mem_singleton_self _
    · intro set
      have equal := wrote.extends_.kept _ (slot_pointer slot)
      rw [addr_direct (le_refl _), addr_direct (le_refl _)] at equal
      exact equal set
  exact extra.trans (Nat.add_le_add_left Finset.card_image_le _)

/-- A later call stops only if there was too little for both. -/
theorem Wrote.lacks (slot : i < sb.ninodes /\ (s.inode i).type ≠ 0#16)
    (wrote : Wrote sb i src off n new s t) {blocks entries : Nat} {halt : Halt}
    (lacks : Lacks sb i t blocks entries halt) :
    Lacks sb i s (lacking s i off n + blocks) ((blocksIn off n).card + entries) halt := by
  cases halt with
  | block panic =>
    cases panic with
    | outOfBlocks =>
      change (freeList sb s.disk).length < lacking s i off n + blocks
      rw [wrote.free, List.length_append, wrote.count]
      exact Nat.add_lt_add_left lacks _
    | freeingFreeBlock => exact lacks
  | tooBigTransaction =>
    have less := wrote.load_le slot
    change capacity sb <= _ at lacks
    change capacity sb <= _
    omega
  | bmapOutOfRange => exact lacks
  | noInodes => exact lacks
  | noType => exact lacks

theorem length_addLogged (b : Nat) (s : State) :
    s.logged.length <= (addLogged b s).logged.length := by
  unfold addLogged
  dsimp only
  split
  · exact le_refl _
  · rw [List.length_append]
    exact Nat.le_add_right _ _

theorem ensures_writeiLoop (i : Nat) (more : Nat) :
    ∀ (src : Nat -> Byte) (off left : Nat) (s : State),
    Recorded sb s -> (i < sb.ninodes /\ (s.inode i).type ≠ 0#16) -> left <= more ->
    off + left <= MAXFILE * BSIZE ->
      Ensures (writeiLoop i more src off left) s (fun _ t => ∃ new, Wrote sb i src off left new s t)
        fun halt _ => s.logged.Nodup ->
        Lacks sb i s (lacking s i off left) (blocksIn off left).card halt := by
  induction more with
  | zero =>
    intro src off left s recorded _ enough _
    rw [Nat.le_zero.mp enough, writeiLoop, ensures_pure]
    exact ⟨[], Wrote.nothing recorded i src off⟩
  | succ more ih =>
    intro src off left s recorded slot enough fits
    rw [writeiLoop, ensures_ite]
    constructor
    · rintro rfl
      rw [ensures_pure]
      exact ⟨[], Wrote.nothing recorded i src off⟩
    · intro some
      have least : chunk off left <= left := Nat.min_le_left _ _
      have short : chunk off left <= BSIZE - off % BSIZE := Nat.min_le_right _ _
      have rest : off % BSIZE < BSIZE := Nat.mod_lt _ (by decide)
      have positive : 0 < chunk off left := by
        unfold chunk
        omega
      have inside : off / BSIZE < MAXFILE := Nat.div_lt_of_lt_mul (by rw [Nat.mul_comm]; omega)
      have aligned : left - chunk off left = 0 ∨ (off + chunk off left) % BSIZE = 0 := by
        unfold chunk BSIZE
        omega
      have whole : chunk off left + (left - chunk off left) = left := by omega
      have end_ : off + chunk off left + (left - chunk off left) <= MAXFILE * BSIZE := by omega
      have one := lacking_chunk s i positive short
      have block : (blocksIn off (chunk off left)).card = 1 := by
        rw [blocksIn_chunk positive short, Finset.card_singleton]
      have total : (blocksIn off left).card =
          1 + (blocksIn (off + chunk off left) (left - chunk off left)).card := by
        rcases blocksIn_add positive aligned with ⟨union, disjoint⟩
        rw [whole] at union
        rw [union, Finset.card_union_of_disjoint disjoint, block]
      rw [ensures_bind]
      apply (ensures_bmap recorded slot inside).mono
      · rintro b t ⟨new, mapped⟩
        have wrote := mapped.wrote slot positive short inside src
        rw [ensures_bind, ensures_modify, ensures_bind]
        apply (ensures_logWrite _ _).mono
        · rintro _ _ ⟨rfl, _⟩
          have slotAfter : i < sb.ninodes /\ ((addLogged b (setDisk b (patch (t.disk b) (off % BSIZE)
              (chunk off left) src) t)).inode i).type ≠ 0#16 :=
                ⟨slot.1, by rw [wrote.extends_.type]; exact slot.2⟩
          apply (ih (fun j => src (j + chunk off left)) _ _ _ wrote.recorded slotAfter (by omega)
            end_).mono
          · rintro _ u ⟨later, second⟩
            have both := wrote.trans slot positive aligned end_ second
            rw [whole] at both
            exact ⟨_, both⟩
          · intro halt _ lacks nodup
            have both := wrote.lacks slot (lacks (wrote.nodup nodup))
            have sum := wrote.lacking_add slot positive aligned end_
            rw [whole] at sum
            rw [<- sum, block, <- total] at both
            exact both
        · rintro _ _ ⟨rfl, full⟩ nodup
          have super : readsb (setDisk b (patch (t.disk b) (off % BSIZE) (chunk off left) src)
              t).disk = sb :=
            wrote.recorded.super
          have longer := length_addLogged b (setDisk b
              (patch (t.disk b) (off % BSIZE) (chunk off left) src) t)
          have loaded := length_le_load sb _ i (wrote.nodup nodup)
          have more := wrote.load_le slot
          rw [super] at full
          change capacity sb <= load sb i s + _
          omega
      · intro halt _ lacks nodup
        refine (lacks nodup).weaken ?_ (by omega)
        rw [<- one]
        exact lacking_mono s i least

end Loop

/-! ## `writei` -/

/-- The state once the new size is in the inode, and the inode on the disk. -/
def stored (i size : Nat) (t : State) : State :=
  addLogged (IBLOCK i) (setDisk (IBLOCK i) (putDinode (t.disk (IBLOCK i)) i
    { t.inode i with size := size }) (setInode i { t.inode i with size := size } t))

/-- There are blocks enough for a write, and room in the log. -/
structure Roomy (sb : Superblock) (s : State) (i off n : Nat) : Prop where
  blocks : lacking s i off n <= (freeList sb s.disk).length
  nodup : s.logged.Nodup
  entries : load sb i s + (blocksIn off n).card < capacity sb

theorem Roomy.not_lacks {sb : Superblock} {s : State} {i : Nat} (roomy : Roomy sb s i off n)
    (halt : Halt) : ¬ Lacks sb i s (lacking s i off n) (blocksIn off n).card halt := by
  intro lacks
  cases halt with
  | block panic =>
    cases panic with
    | outOfBlocks => exact absurd roomy.blocks (Nat.not_le.mpr lacks)
    | freeingFreeBlock => exact lacks
  | tooBigTransaction => exact absurd roomy.entries (Nat.not_lt.mpr lacks)
  | bmapOutOfRange => exact lacks
  | noInodes => exact lacks
  | noType => exact lacks

section Writei

variable {sb : Superblock} {s t : State} {i off n : Nat}

theorem IBLOCK_early {i : Nat} (known : i < sb.ninodes) :
    1 < IBLOCK i /\ IBLOCK i < sb.ninodes / IPB + 3 := by
  have smaller : i / IPB <= sb.ninodes / IPB := Nat.div_le_div_right (Nat.le_of_lt known)
  have first := Nat.zero_le (i / IPB)
  unfold IBLOCK
  omega

/-- The inode blocks are not among the blocks that files have, nor is the bitmap. -/
theorem addr_stored (recorded : Recorded sb t) (known : i < sb.ninodes) (size : Nat) {p : Nat × Nat}
    (slot : Slot sb t.inode p) :
    addr (stored i size t).disk (stored i size t).inode p = addr t.disk t.inode p := by
  have early := IBLOCK_early known
  have first := dataStart_low sb
  have disk : addr (stored i size t).disk t.inode p = addr t.disk t.inode p := by
    apply addr_congr
    intro pointer
    have late := recorded.low (Good.holds_indirect ⟨slot.1, slot.2.1⟩ pointer)
    exact update_of_ne (by omega) _ _
  refine Eq.trans (addr_inode fun k _ => ?_) disk
  change (update t.inode i _ p.1).addrs k = _
  by_cases same : p.1 = i
  · rw [same, update_self]
  · rw [update_of_ne same]

theorem type_stored (i size : Nat) (t : State) (j : Nat) :
    ((stored i size t).inode j).type = (t.inode j).type := by
  change (update t.inode i _ j).type = _
  by_cases same : j = i
  · rw [same, update_self]
  · rw [update_of_ne same]

theorem Recorded.stored (recorded : Recorded sb t) (known : i < sb.ninodes) (size : Nat) :
    Recorded sb (stored i size t) := by
  have early := IBLOCK_early known
  have first := dataStart_low sb
  refine ⟨?_, recorded.record.congr ?_ ?_⟩
  · change readsb (update t.disk _ _) = sb
    rw [readsb_update (by omega)]
    exact recorded.super
  · intro p c
    have slots : Slot sb (Inodes.stored i size t).inode p <-> Slot sb t.inode p := by
      unfold Slot
      rw [type_stored]
    unfold Holds
    rw [slots]
    apply and_congr_right
    intro slot
    rw [addr_stored recorded known size slot]
  · intro c
    have low := BBLOCK_low c sb.ninodes
    unfold Used marked
    change _ /\ bitOf (update t.disk _ _ _) _ = true <-> _
    rw [update_of_ne (by omega)]

theorem content_stored (recorded : Recorded sb t) (known : i < sb.ninodes) (size : Nat)
    {j pos : Nat} (position : Position sb t j pos) :
    content (stored i size t) j pos = content t j pos := by
  have early := IBLOCK_early known
  have first := dataStart_low sb
  have slot := position.slot.1
  unfold content
  rw [addr_stored recorded known size slot]
  by_cases none : addr t.disk t.inode (j, slotOf (pos / BSIZE)) = 0
  · rw [if_pos none, if_pos none]
  · have late := recorded.low ⟨slot, rfl, none⟩
    rw [if_neg none, if_neg none]
    change update t.disk _ _ _ _ = _
    rw [update_of_ne (by omega)]

/-- What a write leaves, with the size and the inode stored when the file has grown. -/
def grown (i size end_ : Nat) (t : State) : State := if size < end_ then stored i end_ t else t

/-- A write that `writei` refuses. -/
theorem writei_refused (src : Nat -> Byte)
    (refused : (s.inode i).type = T_DEV ∨ (s.inode i).size < off ∨ MAXFILE * BSIZE < off + n) :
    writei i src off n s = .ok none s := by
  apply Ensures.eq_ok
  unfold writei
  rw [ensures_bind, ensures_get]
  by_cases device : (s.inode i).type = T_DEV
  · rw [if_pos device, ensures_pure]
    exact ⟨rfl, rfl⟩
  · rw [if_neg device, ensures_ite]
    constructor
    · intro _
      rw [ensures_pure]
      exact ⟨rfl, rfl⟩
    · intro inside
      have range := refused.resolve_left device
      rw [if_pos (by omega), ensures_pure]
      exact ⟨rfl, rfl⟩

theorem ensures_writei (src : Nat -> Byte) (recorded : Recorded sb s)
    (slot : i < sb.ninodes /\ (s.inode i).type ≠ 0#16) (notDevice : (s.inode i).type ≠ T_DEV)
    (start : off <= (s.inode i).size) (fits : off + n <= MAXFILE * BSIZE) :
    Ensures (writei i src off n) s
      (fun result t => result = some n /\ ∃ new u,
        Wrote sb i src off n new s u /\ t = grown i (s.inode i).size (off + n) u /\
          ((s.inode i).size < off + n -> u.logged.length < capacity sb))
      fun halt _ => s.logged.Nodup ->
      Lacks sb i s (lacking s i off n) (blocksIn off n).card halt := by
  have largest : MAXFILE * BSIZE < 2 ^ 32 := by decide
  unfold writei
  rw [ensures_bind, ensures_get, if_neg notDevice, if_neg (by omega), if_neg (by omega), ensures_bind]
  apply (ensures_writeiLoop i n src off n s recorded slot (le_refl n) fits).mono _ fun _ _ lacks => lacks
  rintro _ u ⟨new, wrote⟩
  have size := wrote.extends_.size
  rw [ensures_ite]
  constructor
  · rintro ⟨_, longer⟩
    have early := IBLOCK_early slot.1
    rw [ensures_bind, ensures_modify, ensures_bind]
    unfold iupdate
    rw [ensures_bind, ensures_modify]
    apply (ensures_logWrite _ _).mono
    · rintro _ _ ⟨rfl, room⟩
      change u.logged.length < capacity (readsb (update u.disk (IBLOCK i) _)) at room
      rw [readsb_update (by omega), wrote.recorded.super] at room
      rw [ensures_pure]
      refine ⟨rfl, new, u, wrote, ?_, fun _ => room⟩
      rw [grown, if_pos longer]
      unfold stored setInode setDisk
      simp only [update_self]
    · rintro _ _ ⟨rfl, full⟩ nodup
      change capacity (readsb (update u.disk (IBLOCK i) _)) <= u.logged.length at full
      rw [readsb_update (by omega), wrote.recorded.super] at full
      have loaded := length_le_load sb u i (wrote.nodup nodup)
      have more := wrote.load_le slot
      change capacity sb <= load sb i s + _
      omega
  · intro same
    rw [ensures_pure]
    refine ⟨rfl, new, u, wrote, ?_, fun longer => absurd longer (by omega)⟩
    rw [grown, if_neg (by omega)]

end Writei

end Xv6.Fs.Inodes
