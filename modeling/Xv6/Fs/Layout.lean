import Xv6.Fs.Mkfs

namespace Xv6.Fs.Mkfs

open Inodes (Dinode dinode NDIRECT NINDIRECT MAXFILE SLOTS addr slotOf addr_direct addr_entry
  setWord patch putDinode getDinode Same Fits slotOf_lt)
open Function

/-!
# Where `mkfs` puts the files

Every block that a slot of an inode refers to was the free block once, so that no
two slots refer to the same block, and the blocks that were not taken yet are zero.
`Filed` relates this to the files: the first blocks of a file have addresses, its
bytes are there, and what is after its end is zero.
-/

/-- `ninodes` -/
def NINODES : Nat := 200

/-- The slots refer to different blocks below the free block, which is zero like all after it. -/
structure Laid (disk : Disk) (inode : Nat -> Dinode) (next : Nat) : Prop where
  start : 29 <= next
  range : ∀ i k, i < NINODES -> k < SLOTS -> addr disk inode (i, k) ≠ 0 ->
    29 <= addr disk inode (i, k) /\ addr disk inode (i, k) < next
  apart : ∀ i k j l, i < NINODES -> k < SLOTS -> j < NINODES -> l < SLOTS -> addr disk inode (i, k) ≠ 0 ->
    addr disk inode (i, k) = addr disk inode (j, l) -> i = j /\ k = l
  zero : ∀ b, next <= b -> disk b = fun _ => 0#8

variable {disk disk' : Disk} {inode inode' : Nat -> Dinode} {next i : Nat}

theorem addr_indirect {l : Nat} (high : NDIRECT < l) : addr disk inode (i, l) =
    if (inode i).addrs NDIRECT = 0 then 0
    else word (disk ((inode i).addrs NDIRECT)) (l - NDIRECT - 1) :=
  if_neg (Nat.not_le_of_lt high)

namespace Laid

section

variable (laid : Laid disk inode next)

include laid

variable {k : Nat}

/-- The slots are the same but for one, which has the free block. -/
theorem claimed (slots : ∀ j l, j < NINODES -> l < SLOTS ->
      addr disk' inode' (j, l) = if j = i /\ l = k then next else addr disk inode (j, l))
    (zero : ∀ b, next + 1 <= b -> disk' b = fun _ => 0#8) : Laid disk' inode' (next + 1) := by
  have start := laid.start
  refine ⟨by omega, ?_, ?_, zero⟩
  · intro j l inside bound
    rw [slots j l inside bound]
    split
    · omega
    · intro set
      have old := laid.range j l inside bound set
      omega
  · intro j l j' l' inside bound inside' bounded'
    rw [slots j l inside bound, slots j' l' inside' bounded']
    by_cases first : j = i /\ l = k
    · rw [if_pos first]
      by_cases second : j' = i /\ l' = k
      · exact fun _ _ => ⟨first.1.trans second.1.symm, first.2.trans second.2.symm⟩
      · rw [if_neg second]
        intro _ same
        have old := laid.range j' l' inside' bounded' (by omega)
        omega
    · rw [if_neg first]
      by_cases second : j' = i /\ l' = k
      · rw [if_pos second]
        intro set same
        have old := laid.range j l inside bound set
        omega
      · rw [if_neg second]
        exact laid.apart j l j' l' inside bound inside' bounded'

/-- `addrs[k]` of an inode gets the free block. -/
theorem claimAddress (direct : k <= NDIRECT) (empty : (inode i).addrs k = 0) :
    ∀ j l, j < NINODES -> l < SLOTS ->
      addr disk (update inode i { inode i with addrs := update (inode i).addrs k next }) (j, l) =
        if j = i /\ l = k then next else addr disk inode (j, l) := by
  have start := laid.start
  intro j l inside bound
  by_cases other : j = i
  · subst other
    by_cases low : l <= NDIRECT
    · rw [addr_direct low, addr_direct low, update_self]
      by_cases same : l = k
      · rw [if_pos ⟨rfl, same⟩, same]
        exact update_self _ _ _
      · rw [if_neg (fun both => same both.2)]
        exact update_of_ne same _ _
    · have high := Nat.lt_of_not_le low
      have pointer : (update inode j { inode j with addrs := update (inode j).addrs k next } j).addrs
          NDIRECT = update (inode j).addrs k next NDIRECT := by
        rw [update_self]
      rw [if_neg (by omega), addr_indirect high, addr_indirect high, pointer]
      by_cases last : k = NDIRECT
      · subst last
        rw [update_self, if_neg (by omega), if_pos empty, laid.zero next (le_refl _), Inodes.word_zero]
      · rw [update_of_ne (Ne.symm last)]
  · rw [if_neg (fun both => other both.1)]
    unfold addr
    dsimp only
    rw [update_of_ne other]

/-- `indirect[k]` of an inode gets the free block. -/
theorem claimEntry (known : i < NINODES) (some : (inode i).addrs NDIRECT ≠ 0)
    (small : next < 2 ^ 32) : ∀ j l, j < NINODES -> l < SLOTS ->
      addr (update disk ((inode i).addrs NDIRECT) (setWord (disk ((inode i).addrs NDIRECT)) k next))
        inode (j, l) =
        if j = i /\ l = NDIRECT + 1 + k then next else addr disk inode (j, l) := by
  intro j l inside within
  by_cases low : l <= NDIRECT
  · rw [addr_direct low, addr_direct low, if_neg (by omega)]
  · have high := Nat.lt_of_not_le low
    rw [addr_indirect high, addr_indirect high]
    by_cases other : j = i
    · subst other
      rw [if_neg some, if_neg some, update_self, Inodes.word_setWord small]
      by_cases same : l = NDIRECT + 1 + k
      · rw [if_pos (by omega), if_pos ⟨rfl, same⟩]
      · rw [if_neg (by omega), if_neg (fun both => same both.2)]
    · rw [if_neg (c := j = i /\ l = NDIRECT + 1 + k) (fun both => other both.1)]
      by_cases none : (inode j).addrs NDIRECT = 0
      · rw [if_pos none, if_pos none]
      · have ne : (inode j).addrs NDIRECT ≠ (inode i).addrs NDIRECT := by
          intro same
          have pointer := laid.apart j NDIRECT i NDIRECT inside (by decide) known (by decide)
          rw [addr_direct (le_refl _), addr_direct (le_refl _)] at pointer
          exact other (pointer none same).1
        rw [if_neg none, if_neg none, update_of_ne ne]

/-- Only the addresses of the inodes and the blocks for files matter. -/
theorem congr_addr (kept : ∀ b, 29 <= b -> disk' b = disk b)
    (same : ∀ j, j < NINODES -> ∀ k, k <= NDIRECT -> (inode' j).addrs k = (inode j).addrs k)
    {j l : Nat} (inside : j < NINODES) : addr disk' inode' (j, l) = addr disk inode (j, l) := by
  rw [Inodes.addr_inode (same j inside)]
  apply Inodes.addr_congr
  intro some
  have pointer := laid.range j NDIRECT inside (by decide)
  rw [addr_direct (le_refl _)] at pointer
  exact kept _ (pointer some).1

/-- The slots and the free blocks are the same. -/
theorem congr (slots : ∀ {j l}, j < NINODES -> addr disk' inode' (j, l) = addr disk inode (j, l))
    (kept : ∀ b, next <= b -> disk' b = disk b) : Laid disk' inode' next := by
  refine ⟨laid.start, ?_, ?_, ?_⟩
  · intro j l inside bound
    rw [slots inside]
    exact laid.range j l inside bound
  · intro j l j' l' inside bound inside' bounded'
    rw [slots inside, slots inside']
    exact laid.apart j l j' l' inside bound inside' bounded'
  · intro b free
    rw [kept b free]
    exact laid.zero b free

end

end Laid

/-! ## Files -/

/-- The files have `count` blocks, with their bytes and zeros after them. -/
structure Filed (disk : Disk) (inode : Nat -> Dinode) (count : Nat -> Nat)
  (content : Nat -> List Byte) (next : Nat) :
    Prop where
  laid : Laid disk inode next
  mapped : ∀ i bn, i < NINODES -> bn < MAXFILE -> (addr disk inode (i, slotOf bn) ≠ 0 <-> bn < count i)
  fits : ∀ i, i < NINODES -> count i <= MAXFILE /\ (content i).length <= BSIZE * count i
  bytes : ∀ i bn r, i < NINODES -> bn < count i -> r < BSIZE ->
    disk (addr disk inode (i, slotOf bn)) r = (content i).getD (BSIZE * bn + r) 0#8

variable {fbn : Nat}

namespace Filed

variable {count : Nat -> Nat} {content : Nat -> List Byte}

section

variable (filed : Filed disk inode count content next)

include filed

theorem congr (kept : ∀ b, 29 <= b -> disk' b = disk b)
    (same : ∀ j, j < NINODES -> ∀ k, k <= NDIRECT -> (inode' j).addrs k = (inode j).addrs k) :
    Filed disk' inode' count content next := by
  have slots : ∀ {j l}, j < NINODES -> addr disk' inode' (j, l) = addr disk inode (j, l) :=
    fun inside => filed.laid.congr_addr kept same inside
  constructor
  case laid => exact filed.laid.congr slots fun b free => kept b (filed.laid.start.trans free)
  case mapped =>
    intro j bn inside bound
    rw [slots inside]
    exact filed.mapped j bn inside bound
  case fits => exact filed.fits
  case bytes =>
    intro j bn r inside within less
    have set := (filed.mapped j bn inside (within.trans_le (filed.fits j inside).1)).mpr within
    have range := filed.laid.range j _ inside (slotOf_lt (within.trans_le (filed.fits j inside).1)).1 set
    rw [slots inside, kept _ range.1]
    exact filed.bytes j bn r inside within less

section

variable (known : i < NINODES)

include known

/-- The block after the last one gets an address. -/
theorem claimed (room : count i < MAXFILE)
    (slots : ∀ j l, j < NINODES -> l < SLOTS ->
      addr disk' inode' (j, l) =
        if j = i /\ l = slotOf (count i) then next else addr disk inode (j, l))
    (kept : ∀ j bn, j < NINODES -> bn < count j ->
      disk' (addr disk inode (j, slotOf bn)) = disk (addr disk inode (j, slotOf bn)))
    (zero : ∀ b, next <= b -> disk' b = fun _ => 0#8) :
    Filed disk' inode' (update count i (count i + 1)) content (next + 1) := by
  have start := filed.laid.start
  have slotted : ∀ {j bn}, j < NINODES -> bn < MAXFILE -> addr disk' inode' (j, slotOf bn) =
      if j = i /\ bn = count i then next else addr disk inode (j, slotOf bn) := by
    intro j bn inside bound
    rw [slots j _ inside (slotOf_lt bound).1]
    have same : slotOf bn = slotOf (count i) <-> bn = count i := by
      unfold slotOf
      split <;> split <;> omega
    simp only [same]
  constructor
  case laid => exact filed.laid.claimed slots fun b free => zero b (by omega)
  case mapped =>
    intro j bn inside bound
    rw [slotted inside bound]
    have old := filed.mapped j bn inside bound
    by_cases other : j = i
    · grind [update_apply]
    · rw [if_neg (fun both => other both.1), update_of_ne other, old]
  case fits =>
    intro j inside
    have old := filed.fits j inside
    by_cases other : j = i
    · subst other
      rw [update_self]
      refine ⟨room, old.2.trans (Nat.mul_le_mul_left _ (Nat.le_succ _))⟩
    · rw [update_of_ne other]
      exact old
  case bytes =>
    intro j bn r inside within less
    by_cases last : j = i /\ bn = count i
    · have new := slotted known room
      rw [if_pos ⟨rfl, rfl⟩] at new
      rw [last.1, last.2, new, zero next (le_refl _), List.getD_eq_default]
      exact (filed.fits i known).2.trans (Nat.le_add_right _ _)
    · have before : bn < count j := by
        by_cases other : j = i
        · grind [update_apply]
        · rw [update_of_ne other] at within
          exact within
      rw [slotted inside (before.trans_le (filed.fits j inside).1), if_neg last, kept j bn inside before]
      exact filed.bytes j bn r inside before less

omit known in
/-- A file gets its indirect block. -/
theorem pointed (empty : (inode i).addrs NDIRECT = 0) :
    Filed disk (update inode i { inode i with addrs := update (inode i).addrs NDIRECT next }) count
      content (next + 1) := by
  have slots := filed.laid.claimAddress (le_refl NDIRECT) empty
  have slotted : ∀ {j bn}, j < NINODES -> bn < MAXFILE -> addr disk
      (update inode i { inode i with addrs := update (inode i).addrs NDIRECT next }) (j, slotOf bn) =
        addr disk inode (j, slotOf bn) := by
    intro j bn inside bound
    have slot := slotOf_lt bound
    rw [slots j _ inside slot.1, if_neg (fun both => slot.2 both.2)]
  constructor
  case laid => exact filed.laid.claimed slots fun b free => filed.laid.zero b (by omega)
  case mapped =>
    intro j bn inside bound
    rw [slotted inside bound]
    exact filed.mapped j bn inside bound
  case fits => exact filed.fits
  case bytes =>
    intro j bn r inside within less
    rw [slotted inside (within.trans_le (filed.fits j inside).1)]
    exact filed.bytes j bn r inside within less

theorem unmapped (room : count i < MAXFILE) : addr disk inode (i, slotOf (count i)) = 0 := by
  by_contra set
  exact Nat.lt_irrefl _ ((filed.mapped i _ known room).mp set)

/-- A direct block is added. -/
theorem direct (low : count i < NDIRECT) :
    Filed disk (update inode i { inode i with addrs := update (inode i).addrs (count i) next })
      (update count i (count i + 1)) content (next + 1) := by
  have room : count i < MAXFILE := low.trans_le (Nat.le_add_right _ _)
  have slot : slotOf (count i) = count i := if_pos low
  have empty := filed.unmapped known room
  rw [slot, addr_direct (Nat.le_of_lt low)] at empty
  refine filed.claimed known room ?_ (fun _ _ _ _ => rfl) filed.laid.zero
  rw [slot]
  exact filed.laid.claimAddress (Nat.le_of_lt low) empty

/-- No block of a file is an indirect block. -/
theorem apart_pointer {j bn : Nat} (inside : j < NINODES) (within : bn < count j) :
    addr disk inode (j, slotOf bn) ≠ (inode i).addrs NDIRECT := by
  intro same
  have bound := within.trans_le (filed.fits j inside).1
  have slot := slotOf_lt bound
  have set := (filed.mapped j bn inside bound).mpr within
  have pointer : addr disk inode (i, NDIRECT) = (inode i).addrs NDIRECT := addr_direct (le_refl NDIRECT)
  rw [<- pointer] at same
  exact slot.2 (filed.laid.apart j _ i _ inside slot.1 known (by decide) set same).2

/-- A block is added in the indirect block. -/
theorem entered (high : NDIRECT <= count i)
    (room : count i < MAXFILE) (some : (inode i).addrs NDIRECT ≠ 0) (small : next < 2 ^ 32) :
    Filed (update disk ((inode i).addrs NDIRECT)
        (setWord (disk ((inode i).addrs NDIRECT)) (count i - NDIRECT) next)) inode
      (update count i (count i + 1)) content (next + 1) := by
  have slot : slotOf (count i) = NDIRECT + 1 + (count i - NDIRECT) := by
    unfold slotOf
    rw [if_neg (Nat.not_lt.mpr high)]
    omega
  have pointer := filed.laid.range i NDIRECT known (by decide)
  rw [addr_direct (le_refl _)] at pointer
  refine filed.claimed known room ?_ ?_ ?_
  · rw [slot]
    exact filed.laid.claimEntry known some small
  · intro j bn inside within
    exact update_of_ne (filed.apart_pointer known inside within) _ _
  · intro b free
    have below := (pointer some).2
    rw [update_of_ne (by omega)]
    exact filed.laid.zero b free

/-- Bytes are written after the end of a file, in a block that it has. -/
theorem patched (within : fbn < count i) {p : List Byte} {n1 : Nat} (part : n1 <= p.length)
    (start : (content i).length / 512 = fbn) (fits : (content i).length + n1 <= BSIZE * (fbn + 1)) :
    Filed (update disk (addr disk inode (i, slotOf fbn))
        (patch (disk (addr disk inode (i, slotOf fbn))) ((content i).length - fbn * 512) n1 fun j =>
          p.getD j 0#8))
      inode count (update content i (content i ++ p.take n1)) next := by
  have bound := within.trans_le (filed.fits i known).1
  have set := (filed.mapped i fbn known bound).mpr within
  have range := filed.laid.range i _ known (slotOf_lt bound).1 set
  have slots : ∀ {j l}, j < NINODES -> addr (update disk (addr disk inode (i, slotOf fbn))
        (patch (disk (addr disk inode (i, slotOf fbn))) ((content i).length - fbn * 512) n1 fun j =>
          p.getD j 0#8))
      inode (j, l) = addr disk inode (j, l) := by
    intro j l inside
    apply Inodes.addr_congr
    intro _
    exact update_of_ne (filed.apart_pointer inside known within).symm _ _
  have low : BSIZE * fbn <= (content i).length := by
    rw [<- start]
    exact Nat.mul_div_le _ _
  have taken : (p.take n1).length = n1 := List.length_take_of_le part
  constructor
  case laid => exact filed.laid.congr slots fun b free => update_of_ne (by omega) _ _
  case mapped =>
    intro j bn inside bound
    rw [slots inside]
    exact filed.mapped j bn inside bound
  case fits =>
    intro j inside
    have old := filed.fits j inside
    by_cases other : j = i
    · subst other
      rw [update_self, List.length_append, taken]
      exact ⟨old.1, fits.trans (Nat.mul_le_mul_left _ within)⟩
    · rw [update_of_ne other]
      exact old
  case bytes =>
    intro j bn r inside within' less
    have bounded' := within'.trans_le (filed.fits j inside).1
    have set' := (filed.mapped j bn inside bounded').mpr within'
    have old := filed.bytes j bn r inside within' less
    rw [slots inside]
    by_cases same : j = i /\ bn = fbn
    · rcases same with ⟨rfl, rfl⟩
      rw [update_self, update_self, patch, old]
      unfold BSIZE at low less fits ⊢
      by_cases before : 512 * bn + r < (content j).length
      · rw [if_neg (by omega), List.getD_append _ _ _ _ before]
      · rw [List.getD_append_right _ _ _ _ (Nat.le_of_not_lt before)]
        by_cases inside : 512 * bn + r < (content j).length + n1
        · rw [if_pos (by omega), List.getD_eq_getElem?_getD, List.getD_eq_getElem?_getD,
            List.getElem?_take_of_lt (by omega)]
          congr 2
          omega
        · rw [if_neg (by omega), List.getD_eq_default _ _ (Nat.le_of_not_lt before),
            List.getD_eq_default _ _ (by omega)]
    · have ne : addr disk inode (j, slotOf bn) ≠ addr disk inode (i, slotOf fbn) := by
        intro equal
        have slot := filed.laid.apart j _ i _ inside (slotOf_lt bounded').1 known (slotOf_lt bound).1 set'
          equal
        refine same ⟨slot.1, ?_⟩
        have places := slot.2
        unfold slotOf at places
        split at places <;> split at places <;> omega
      rw [update_of_ne ne, old]
      by_cases other : j = i
      · subst other
        rw [update_self]
        have block : bn ≠ fbn := fun equal => same ⟨rfl, equal⟩
        by_cases before : bn < fbn
        · have inside : BSIZE * bn + BSIZE <= BSIZE * fbn := Nat.mul_le_mul_left _ before
          rw [List.getD_append _ _ _ _ (by omega)]
        · have after : BSIZE * (fbn + 1) <= BSIZE * bn := Nat.mul_le_mul_left _ (by omega)
          rw [List.getD_eq_default _ _ (by omega),
            List.getD_eq_default _ _ (by rw [List.length_append]; omega)]
      · rw [update_of_ne other]

end

end

end Filed

/-! ## `iappend` -/

/-- The blocks of a file of `n` bytes. -/
def blocksOf (n : Nat) : Nat := (n + 511) / 512

/-- The blocks that a file takes, with the indirect block. -/
def need (count : Nat) : Nat := count + if NDIRECT < count then 1 else 0

/-- What `iappend` of one inode leaves of the inode and of the state. -/
structure Extended (din : Dinode) (s : State) (din' : Dinode) (s' : State) : Prop where
  type : din'.type = din.type
  nlink : din'.nlink = din.nlink
  freeinode : s'.freeinode = s.freeinode
  used : s'.usedblocks + s.freeblock = s.usedblocks + s'.freeblock
  low : ∀ b, b < 29 -> s'.disk b = s.disk b

namespace Extended

variable {din din' din'' : Dinode} {s s' s'' : State}

theorem refl (din : Dinode) (s : State) : Extended din s din s :=
  ⟨rfl, rfl, rfl, rfl, fun _ _ => rfl⟩

theorem trans (first : Extended din s din' s') (second : Extended din' s' din'' s'') :
    Extended din s din'' s'' where
  type := second.type.trans first.type
  nlink := second.nlink.trans first.nlink
  freeinode := second.freeinode.trans first.freeinode
  used := by
    have one := first.used
    have two := second.used
    omega
  low b below := (second.low b below).trans (first.low b below)

end Extended

section Append

variable {count : Nat -> Nat} {content : Nat -> List Byte} {din : Dinode} {s : State}

section

variable (filed : Filed s.disk (update inode i din) count content s.freeblock)

include filed

/-- The indirect block of a file, which may be new. -/
theorem address_pointer (known : i < NINODES) : ∃ din' s', address NDIRECT din s = (din', s') /\
      Filed s'.disk (update inode i din') count content s'.freeblock /\ Extended din s din' s' /\
      din'.addrs NDIRECT ≠ 0 /\ s'.freeblock <= s.freeblock + 1 /\
      (NDIRECT < count i -> s'.freeblock = s.freeblock) := by
  unfold address
  by_cases empty : din.addrs NDIRECT = 0
  · rw [if_pos empty]
    have start := filed.laid.start
    have pointed := filed.pointed (i := i) (by rw [update_self]; exact empty)
    rw [update_self, update_idem] at pointed
    refine ⟨_, _, rfl, pointed, ⟨rfl, rfl, rfl, ?_, fun _ _ => rfl⟩, ?_, le_refl _, ?_⟩
    · change s.usedblocks + 1 + s.freeblock = s.usedblocks + (s.freeblock + 1)
      omega
    · change update din.addrs NDIRECT s.freeblock NDIRECT ≠ 0
      rw [update_self]
      omega
    · intro many
      have set := (filed.mapped i NDIRECT known (by decide)).mpr many
      have none : addr s.disk (update inode i din) (i, slotOf NDIRECT) = 0 := by
        rw [addr_indirect (by decide), update_self]
        exact if_pos empty
      exact absurd none set
  · rw [if_neg empty]
    exact ⟨din, s, rfl, filed, Extended.refl _ _, empty, Nat.le_succ _, fun _ => rfl⟩

/-- The block after the last one or the last one, in the indirect block. -/
theorem entry_filed (known : i < NINODES)
    (at_end : fbn = count i ∨ fbn + 1 = count i) (bound : fbn < MAXFILE) (high : NDIRECT <= fbn)
    (some : din.addrs NDIRECT ≠ 0) (small : s.freeblock < 2 ^ 32) :
    ∃ x s', entry (din.addrs NDIRECT) (fbn - NDIRECT) s = (x, s') /\
      Filed s'.disk (update inode i din) (update count i (fbn + 1)) content s'.freeblock /\
      x = addr s'.disk (update inode i din) (i, slotOf fbn) /\ Extended din s din s' /\
      s'.freeblock + count i <= s.freeblock + (fbn + 1) := by
  have pointer : (update inode i din i).addrs NDIRECT = din.addrs NDIRECT := by
    rw [update_self]
  have range := filed.laid.range i NDIRECT known (by decide)
  rw [addr_direct (le_refl _), pointer] at range
  have slot : slotOf fbn = NDIRECT + 1 + (fbn - NDIRECT) := by
    unfold slotOf
    rw [if_neg (Nat.not_lt.mpr high)]
    omega
  have placed : ∀ disk' : Disk, addr disk' (update inode i din) (i, slotOf fbn) =
      word (disk' (din.addrs NDIRECT)) (fbn - NDIRECT) := by
    intro disk'
    rw [slot, addr_entry (by rw [pointer]; exact some), pointer]
  have mapped := filed.mapped i fbn known bound
  rw [placed] at mapped
  unfold entry
  by_cases empty : word (s.disk (din.addrs NDIRECT)) (fbn - NDIRECT) = 0
  · rw [if_pos empty]
    have last : fbn = count i := by
      have outside : ¬ fbn < count i := fun within => mapped.mpr within empty
      omega
    subst last
    have entered := filed.entered known high bound (by rw [pointer]; exact some) small
    rw [pointer] at entered
    refine ⟨_, _, rfl, entered, ?_, ⟨rfl, rfl, rfl, ?_, ?_⟩, ?_⟩
    · rw [placed]
      change _ = word (update s.disk (din.addrs NDIRECT) _ (din.addrs NDIRECT)) _
      rw [update_self, Inodes.word_setWord small, if_pos rfl]
    · change s.usedblocks + 1 + s.freeblock = s.usedblocks + (s.freeblock + 1)
      omega
    · intro b below
      have above := (range some).1
      exact update_of_ne (by omega) _ _
    · change s.freeblock + 1 + count i <= _
      omega
  · rw [if_neg empty]
    have within := mapped.mp empty
    have same : update count i (fbn + 1) = count := by
      rw [update_eq_self_iff]
      omega
    rw [same]
    exact ⟨_, s, rfl, filed, (placed _).symm, Extended.refl _ _, by omega⟩

/-- The block of `fbn`, which is the last block of the file or one that is added after it. -/
theorem block_filed (known : i < NINODES) (at_end : fbn = count i ∨ fbn + 1 = count i)
    (bound : fbn < MAXFILE) (small : s.freeblock + 1 < 2 ^ 32) :
    ∃ x din' s', block fbn din s = (x, din', s') /\
      Filed s'.disk (update inode i din') (update count i (fbn + 1)) content s'.freeblock /\
      x = addr s'.disk (update inode i din') (i, slotOf fbn) /\ Extended din s din' s' /\
      s'.freeblock + need (count i) <= s.freeblock + need (fbn + 1) := by
  unfold block
  by_cases low : fbn < NDIRECT
  · rw [if_pos low]
    have slot : slotOf fbn = fbn := if_pos low
    have placed : ∀ (disk' : Disk) (d : Dinode),
        addr disk' (update inode i d) (i, slotOf fbn) = d.addrs fbn := by
      intro disk' d
      rw [slot, addr_direct (Nat.le_of_lt low), update_self]
    have mapped := filed.mapped i fbn known bound
    rw [placed] at mapped
    dsimp only
    unfold address
    by_cases empty : din.addrs fbn = 0
    · rw [if_pos empty]
      have last : fbn = count i := by
        have outside : ¬ fbn < count i := fun within => mapped.mpr within empty
        omega
      subst last
      have added := filed.direct known low
      rw [update_self, update_idem] at added
      refine ⟨_, _, _, rfl, added, (placed _ _).symm, ⟨rfl, rfl, rfl, ?_, fun _ _ => rfl⟩, ?_⟩
      · change s.usedblocks + 1 + s.freeblock = s.usedblocks + (s.freeblock + 1)
        omega
      · change s.freeblock + 1 + need (count i) <= _
        unfold need
        rw [if_neg (by omega), if_neg (by omega)]
        omega
    · rw [if_neg empty]
      have within := mapped.mp empty
      have full : fbn + 1 = count i := by omega
      have same : update count i (fbn + 1) = count := by
        rw [update_eq_self_iff]
        exact full
      rw [same, full]
      exact ⟨_, din, s, rfl, filed, (placed _ _).symm, Extended.refl _ _, le_refl _⟩
  · rw [if_neg low]
    rcases address_pointer filed known with ⟨din', s', pointed, filed', extended, some, one, none⟩
    rcases entry_filed filed' known at_end bound (Nat.le_of_not_lt low)
      some (Nat.lt_of_le_of_lt one small) with
      ⟨x, s'', entered, filed'', place, extended', total⟩
    rw [pointed]
    dsimp only
    rw [entered]
    refine ⟨x, din', s'', rfl, filed'', place, Extended.trans extended extended', ?_⟩
    unfold need
    split <;> split <;> omega

end

/-- The blocks of each file. -/
def counts (content : Nat -> List Byte) (j : Nat) : Nat := blocksOf (content j).length

theorem counts_update (content : Nat -> List Byte) (i : Nat) (bytes : List Byte) :
    counts (update content i bytes) = update (counts content) i (blocksOf bytes.length) := by
  funext j
  by_cases other : j = i
  · rw [other, update_self, counts, update_self]
  · rw [update_of_ne other, counts, update_of_ne other]
    rfl

theorem need_mono {m n : Nat} (le : m <= n) : need (blocksOf m) <= need (blocksOf n) := by
  unfold need blocksOf
  split <;> split <;> omega

omit din s in
/-- `iappend` adds the bytes to the file, and takes the blocks that they need. -/
theorem iappendLoop_filed (known : i < NINODES) {limit : Nat} (small : limit + 1 < 2 ^ 32)
    (more : Nat) :
    ∀ {p : List Byte} {content : Nat -> List Byte} {din : Dinode} {s : State}, p.length <= more ->
      Filed s.disk (update inode i din) (counts content) content s.freeblock ->
      (content i).length + p.length <= BSIZE * MAXFILE ->
      s.freeblock + need (blocksOf ((content i).length + p.length)) <= limit + need
        (blocksOf (content i).length) ->
      ∃ din' s',
        iappendLoop more p (content i).length din s =
          some ((content i).length + p.length, din', s') /\
        Filed s'.disk (update inode i din') (counts (update content i (content i ++ p)))
          (update content i (content i ++ p)) s'.freeblock /\
        Extended din s din' s' /\ s'.freeblock <= limit := by
  induction more with
  | zero =>
    intro p content din s enough filed _ room
    cases List.length_eq_zero_iff.mp (Nat.le_zero.mp enough)
    rw [List.append_nil, update_eq_self]
    exact ⟨din, s, rfl, filed, Extended.refl _ _, Nat.le_of_add_le_add_right room⟩
  | succ more ih =>
    intro p content din s enough filed fits room
    rw [iappendLoop]
    by_cases none : p = []
    · subst none
      rw [if_pos rfl, List.append_nil, update_eq_self]
      exact ⟨din, s, rfl, filed, Extended.refl _ _, Nat.le_of_add_le_add_right room⟩
    · rw [if_neg none]
      have some : 0 < p.length := List.length_pos_iff.mpr none
      have whole := need_mono (Nat.le_add_right (content i).length p.length)
      have bound : (content i).length / 512 < MAXFILE := by
        rw [Nat.div_lt_iff_lt_mul (by decide)]
        unfold BSIZE at fits
        omega
      have at_end : (content i).length / 512 = counts content i ∨
          (content i).length / 512 + 1 = counts content i := by
        unfold counts blocksOf
        omega
      rcases block_filed filed known at_end bound
        (by omega) with ⟨x, din', s', found, filed', place, extended, total⟩
      dsimp only
      rw [if_pos bound, found]
      dsimp only
      generalize piece : min p.length (((content i).length / 512 + 1) * 512 - (content i).length) = n1
      have part : n1 <= p.length := by omega
      have blocks : blocksOf ((content i).length + n1) = (content i).length / 512 + 1 := by
        unfold blocksOf
        omega
      have patched := filed'.patched known (by rw [update_self]; exact Nat.lt_succ_self _) part rfl
        (by unfold BSIZE; omega)
      have taken : (content i ++ p.take n1).length = (content i).length + n1 := by
        rw [List.length_append, List.length_take_of_le part]
      rw [<- blocks, <- taken, <- counts_update, <- place] at patched
      have after : need (blocksOf ((content i).length + n1)) <=
          need (blocksOf ((content i).length + p.length)) :=
        need_mono (by omega)
      rw [<- blocks] at total
      change s'.freeblock + need (blocksOf (content i).length) <= _ at total
      rcases ih (p := p.drop n1) (s := wsect x _ s') (by rw [List.length_drop]; omega) patched
        (by rw [update_self, taken, List.length_drop]; omega)
        (by rw [update_self, taken, List.length_drop, Nat.add_assoc, Nat.add_sub_cancel' part]
            change s'.freeblock + _ <= _
            omega) with ⟨din'', s'', rest, filed'', extended', below⟩
      rw [update_self, taken, List.length_drop, Nat.add_assoc, Nat.add_sub_cancel' part] at rest
      rw [update_self, update_idem, List.append_assoc, List.take_append_drop] at filed''
      have set := (filed'.mapped i _ known bound).mpr (by rw [update_self]; exact Nat.lt_succ_self _)
      have above := (filed'.laid.range i _ known (slotOf_lt bound).1 set).1
      rw [<- place] at above
      have written : Extended din' s' din' (wsect x
          (patch (s'.disk x) ((content i).length - (content i).length / 512 * 512) n1 fun j =>
            p.getD j 0#8) s') :=
        ⟨rfl, rfl, rfl, rfl, fun b low => update_of_ne (by omega) _ _⟩
      exact ⟨din'', s'', rest, filed'', extended.trans (written.trans extended'), below⟩

end Append

end Xv6.Fs.Mkfs
