import Mathlib.Data.List.Pairwise

namespace Xv6.Heap

/-!
# Blocks of memory

A block has an address and a size in units of a header, eight bytes.  The free
blocks of a heap are kept in the order of their addresses, and no two of them
touch.  `insert` is what freeing a block means: the block is put in its place and
is joined to a neighbour that it touches.
-/

structure Block where
  addr : Nat
  size : Nat
  deriving DecidableEq, Repr

namespace Block

/-- The first address after the block. -/
def stop (b : Block) : Nat := b.addr + 8 * b.size

def Has (b : Block) (x : Nat) : Prop := b.addr <= x /\ x < b.stop

instance (b : Block) (x : Nat) : Decidable (b.Has x) := inferInstanceAs (Decidable (_ /\ _))

end Block

/-- No byte is in both blocks. -/
def Disjoint (b c : Block) : Prop := ∀ x, ¬ (b.Has x /\ c.Has x)

variable {b c : Block} {blocks : List Block} {x : Nat}

theorem Disjoint.symm (disjoint : Disjoint b c) : Disjoint c b := fun x both =>
  disjoint x ⟨both.2, both.1⟩

instance : Std.Symm Disjoint := ⟨fun _ _ => Disjoint.symm⟩

theorem Disjoint.apart (disjoint : Disjoint b c) (first : 1 <= b.size) (second : 1 <= c.size) :
    b.stop <= c.addr ∨ c.stop <= b.addr := by
  have atFirst := disjoint b.addr
  have atSecond := disjoint c.addr
  simp only [Block.Has, Block.stop] at *
  omega

theorem disjoint_of_le (before : b.stop <= c.addr) : Disjoint b c := by
  rintro x ⟨⟨_, high⟩, ⟨low, _⟩⟩
  exact absurd (Nat.lt_of_lt_of_le high (Nat.le_trans before low)) (Nat.lt_irrefl x)

/-- Some block of the list has the byte. -/
def Covers (blocks : List Block) (x : Nat) : Prop := ∃ b, b ∈ blocks /\ b.Has x

theorem covers_cons : Covers (b :: blocks) x <-> b.Has x ∨ Covers blocks x := by
  simp [Covers]

theorem covers_append {front back : List Block} :
    Covers (front ++ back) x <-> Covers front x ∨ Covers back x := by
  induction front with
  | nil => simp [Covers]
  | cons b rest ih => rw [List.cons_append, covers_cons, covers_cons, ih, or_assoc]

/-- The blocks are in order and do not touch. -/
abbrev Spaced (blocks : List Block) : Prop := blocks.Pairwise fun b c => b.stop < c.addr

/-- The blocks below an address, and those above it. -/
theorem Spaced.split (spaced : Spaced blocks)
    (other : ∀ c, c ∈ blocks -> c.addr ≠ x) : ∃ front back,
    blocks = front ++ back /\ (∀ c, c ∈ front -> c.addr < x) /\ (∀ c, c ∈ back -> x < c.addr) := by
  induction blocks with
  | nil => exact ⟨[], [], rfl, by simp, by simp⟩
  | cons b rest ih =>
    rcases List.pairwise_cons.mp spaced with ⟨first, spacedRest⟩
    rcases Nat.lt_or_gt_of_ne (other b List.mem_cons_self) with below | above
    · rcases ih spacedRest (fun c listed => other c (List.mem_cons_of_mem _ listed)) with
        ⟨front, back, joined, lower, upper⟩
      refine ⟨b :: front, back, by rw [joined, List.cons_append], fun c listed => ?_, upper⟩
      rcases List.mem_cons.mp listed with rfl | later
      · exact below
      · exact lower c later
    · refine ⟨[], b :: rest, rfl, by simp, fun c listed => ?_⟩
      rcases List.mem_cons.mp listed with rfl | later
      · exact above
      · have far := first c later
        simp only [Block.stop] at far
        omega

/-! ## Joining and inserting -/

/-- The block before a list, joined to the first of the list if they touch. -/
def joinRight (b : Block) : List Block -> List Block
  | [] => [b]
  | n :: rest => if b.stop = n.addr then ⟨b.addr, b.size + n.size⟩ :: rest else b :: n :: rest

def insert (b : Block) : List Block -> List Block
  | [] => [b]
  | q :: rest => if b.addr < q.addr then joinRight b (q :: rest) else joinRight q (insert b rest)

theorem covers_joinRight : Covers (joinRight b blocks) x <-> b.Has x ∨ Covers blocks x := by
  cases blocks with
  | nil => exact covers_cons
  | cons n rest =>
    rw [joinRight]
    split
    · next touch =>
        rw [covers_cons, covers_cons, <- or_assoc]
        apply or_congr_left
        simp only [Block.Has, Block.stop] at *
        omega
    · exact covers_cons

theorem covers_insert : Covers (insert b blocks) x <-> b.Has x ∨ Covers blocks x := by
  induction blocks with
  | nil => exact covers_cons
  | cons q rest ih =>
    rw [insert]
    split
    · exact covers_joinRight
    · rw [covers_joinRight, ih, covers_cons]
      exact or_left_comm

/-- The ends of a joined block are ends of the blocks it is made of. -/
theorem ends_joinRight (listed : c ∈ joinRight b blocks) :
    (∃ d, d ∈ b :: blocks /\ c.addr = d.addr /\ d.size <= c.size) /\
      (∃ d, d ∈ b :: blocks /\ c.stop = d.stop) := by
  cases blocks with
  | nil =>
    rw [List.mem_singleton.mp listed]
    exact ⟨⟨b, List.mem_cons_self, rfl, Nat.le_refl _⟩, ⟨b, List.mem_cons_self, rfl⟩⟩
  | cons n rest =>
    rw [joinRight] at listed
    split at listed
    · next touch =>
        rcases List.mem_cons.mp listed with rfl | later
        · refine ⟨⟨b, List.mem_cons_self, rfl, Nat.le_add_right _ _⟩, ⟨n, by simp, ?_⟩⟩
          simp only [Block.stop] at *
          omega
        · have known : c ∈ b :: n :: rest := by simp [later]
          exact ⟨⟨c, known, rfl, Nat.le_refl _⟩, ⟨c, known, rfl⟩⟩
    · exact ⟨⟨c, listed, rfl, Nat.le_refl _⟩, ⟨c, listed, rfl⟩⟩

theorem ends_insert : ∀ {c : Block}, c ∈ insert b blocks ->
    (∃ d, d ∈ b :: blocks /\ c.addr = d.addr /\ d.size <= c.size) /\
      (∃ d, d ∈ b :: blocks /\ c.stop = d.stop) := by
  induction blocks with
  | nil =>
    intro c listed
    exact @ends_joinRight b c [] listed
  | cons q rest ih =>
    intro c listed
    rw [insert] at listed
    split at listed
    · exact ends_joinRight listed
    · rcases ends_joinRight listed with ⟨⟨d, inFirst, sameAddr, larger⟩, ⟨e, inSecond, sameStop⟩⟩
      constructor
      · rcases List.mem_cons.mp inFirst with rfl | later
        · exact ⟨d, by simp, sameAddr, larger⟩
        · rcases (ih later).1 with ⟨d', known, sameAddr', larger'⟩
          refine ⟨d', ?_, sameAddr.trans sameAddr', Nat.le_trans larger' larger⟩
          rcases List.mem_cons.mp known with rfl | old
          · exact List.mem_cons_self
          · exact List.mem_cons_of_mem _ (List.mem_cons_of_mem _ old)
      · rcases List.mem_cons.mp inSecond with rfl | later
        · exact ⟨e, by simp, sameStop⟩
        · rcases (ih later).2 with ⟨e', known, sameStop'⟩
          refine ⟨e', ?_, sameStop.trans sameStop'⟩
          rcases List.mem_cons.mp known with rfl | old
          · exact List.mem_cons_self
          · exact List.mem_cons_of_mem _ (List.mem_cons_of_mem _ old)

theorem joinRight_larger (listed : c ∈ b :: blocks) :
    ∃ d, d ∈ joinRight b blocks /\ c.size <= d.size := by
  cases blocks with
  | nil => exact ⟨c, listed, Nat.le_refl _⟩
  | cons n rest =>
    rw [joinRight]
    split
    · refine (List.mem_cons.mp listed).elim (fun same => ⟨_, List.mem_cons_self, ?_⟩) (fun later => ?_)
      · rw [same]
        exact Nat.le_add_right _ _
      · rcases List.mem_cons.mp later with rfl | other
        · exact ⟨_, List.mem_cons_self, Nat.le_add_left _ _⟩
        · exact ⟨c, List.mem_cons_of_mem _ other, Nat.le_refl _⟩
    · exact ⟨c, listed, Nat.le_refl _⟩

theorem insert_larger (b : Block) (blocks : List Block) :
    ∃ d, d ∈ insert b blocks /\ b.size <= d.size := by
  induction blocks with
  | nil => exact ⟨b, List.mem_cons_self, Nat.le_refl _⟩
  | cons q rest ih =>
    rw [insert]
    split
    · exact joinRight_larger List.mem_cons_self
    · rcases ih with ⟨c, listed, larger⟩
      rcases joinRight_larger (List.mem_cons_of_mem q listed) with ⟨d, known, larger'⟩
      exact ⟨d, known, Nat.le_trans larger larger'⟩

theorem spaced_joinRight (spaced : Spaced blocks)
    (before : ∀ c, c ∈ blocks -> b.stop <= c.addr) : Spaced (joinRight b blocks) := by
  cases blocks with
  | nil => exact List.pairwise_singleton _ _
  | cons n rest =>
    rcases List.pairwise_cons.mp spaced with ⟨first, spacedRest⟩
    rw [joinRight]
    split
    · next touch =>
        refine List.pairwise_cons.mpr ⟨fun c listed => ?_, spacedRest⟩
        have far := first c listed
        simp only [Block.stop] at *
        omega
    · next apart =>
        refine List.pairwise_cons.mpr ⟨fun c listed => ?_, spaced⟩
        have near := before n List.mem_cons_self
        rcases List.mem_cons.mp listed with rfl | later
        · exact Nat.lt_of_le_of_ne near apart
        · have far := first c later
          simp only [Block.stop] at *
          omega

theorem spaced_insert (spaced : Spaced blocks)
    (apart : ∀ c, c ∈ blocks -> b.stop <= c.addr ∨ c.stop <= b.addr) (pos : 1 <= b.size) :
    Spaced (insert b blocks) := by
  induction blocks with
  | nil => exact List.pairwise_singleton _ _
  | cons q rest ih =>
    rcases List.pairwise_cons.mp spaced with ⟨first, spacedRest⟩
    have atFirst := apart q List.mem_cons_self
    rw [insert]
    split
    · next before =>
        refine spaced_joinRight spaced (fun c listed => ?_)
        rcases List.mem_cons.mp listed with rfl | later
        · simp only [Block.stop] at *
          omega
        · have far := first c later
          simp only [Block.stop] at *
          omega
    · next after =>
        refine spaced_joinRight (ih spacedRest (fun c listed =>
          apart c (List.mem_cons_of_mem _ listed))) (fun c listed => ?_)
        rcases (ends_insert listed).1 with ⟨d, known, same, _⟩
        rw [same]
        rcases List.mem_cons.mp known with rfl | old
        · simp only [Block.stop] at *
          omega
        · exact Nat.le_of_lt (first d old)

theorem insert_of_lt (before : ∀ c, c ∈ blocks -> b.addr < c.addr) :
    insert b blocks = joinRight b blocks := by
  cases blocks with
  | nil => rfl
  | cons q rest => rw [insert, if_pos (before q List.mem_cons_self)]

theorem joinRight_of_lt (before : ∀ c, c ∈ blocks -> b.stop < c.addr) :
    joinRight b blocks = b :: blocks := by
  cases blocks with
  | nil => rfl
  | cons n rest => rw [joinRight, if_neg (Nat.ne_of_lt (before n List.mem_cons_self))]

/-- A block that lies after the front is put behind it, and joined to its last block. -/
theorem insert_append {q : Block} {back : List Block} (before : ∀ c, c ∈ back -> b.addr < c.addr)
    (after : q.addr < b.addr) (front : List Block) (spaced : Spaced (front ++ [q])) :
    insert b (front ++ q :: back) = front ++ joinRight q (joinRight b back) := by
  induction front with
  | nil => rw [List.nil_append, insert, if_neg (Nat.not_lt_of_gt after), insert_of_lt before,
    List.nil_append]
  | cons c rest ih =>
    rcases List.pairwise_cons.mp spaced with ⟨first, spacedRest⟩
    have beforeLast : c.stop < q.addr := first q (by simp)
    have notLess : ¬ b.addr < c.addr := by
      simp only [Block.stop] at beforeLast
      omega
    rw [List.cons_append, insert, if_neg notLess, ih spacedRest, List.cons_append]
    apply joinRight_of_lt
    intro d listed
    rcases List.mem_append.mp listed with early | late
    · exact first d (by simp [early])
    · rcases (ends_joinRight late).1 with ⟨d', known, same, _⟩
      rw [same]
      rcases List.mem_cons.mp known with rfl | inner
      · exact beforeLast
      · rcases (ends_joinRight inner).1 with ⟨d'', known', same', _⟩
        rw [same']
        rcases List.mem_cons.mp known' with rfl | old
        · exact Nat.lt_trans beforeLast after
        · exact Nat.lt_trans (Nat.lt_trans beforeLast after) (before d'' old)

end Xv6.Heap
