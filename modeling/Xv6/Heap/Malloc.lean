import Xv6.Heap.Free

namespace Xv6.Heap

open Library (Bytes Track)
open Library.Chain (ending ending_mem)

/-!
# Taking blocks from the free list

`malloc` goes round the ring once, from where the last call stopped.  If no block
is large enough it asks for more memory, and the second round finds a block.
-/

variable {base : Nat} {s t : State} {blocks : List Block}

namespace Sound

/-! ## More memory -/

variable {nu prevp nunits : Nat} {c : Block}

section

variable (sound : Sound base s blocks)

include sound

/-- A region above the heap is one more live block. -/
theorem grow {hp : Nat} (above : s.top <= hp) (high : hp + 8 * nu <= 2 ^ 32)
    (pos : 1 <= nu) : Sound base (Heap.grow s hp nu) blocks := by
  have low := sound.low
  have agree : ∀ c, c ∈ blocks ++ s.live -> Agree s.mem (setSize s.mem hp nu) c.addr := by
    intro c listed
    have stop := (sound.bounds c listed).2
    have size := sound.positive c listed
    refine agree_setSize (.inl ?_)
    simp only [Block.stop] at stop
    omega
  have atBase : Agree s.mem (setSize s.mem hp nu) base := agree_setSize (.inl (by omega))
  have sized : size (setSize s.mem hp nu) hp = nu := size_setSize (by omega)
  have fresh : ∀ c, c ∈ blocks ++ s.live -> Disjoint c ⟨hp, nu⟩ := fun c listed =>
    disjoint_of_le (Nat.le_trans (sound.bounds c listed).2 above)
  have parts : ∀ c, c ∈ blocks ++ ⟨hp, nu⟩ :: s.live -> c = ⟨hp, nu⟩ ∨ c ∈ blocks ++ s.live := by
    intro c listed
    rcases List.mem_append.mp listed with old | new
    · exact .inr (List.mem_append_left _ old)
    · rcases List.mem_cons.mp new with rfl | later
      · exact .inl rfl
      · exact .inr (List.mem_append_right _ later)
  rw [Heap.grow]
  generalize setSize s.mem hp nu = n at agree atBase sized
  refine ⟨sound.based, ?_, high, ?_, ?_, sound.start, ?_, sound.spaced, ?_, ?_, ?_, ?_, ?_⟩
  · show base + 8 <= hp + 8 * nu
    omega
  · exact sound.linked.restart atBase.ptr (fun c listed => agree c (List.mem_append_left _ listed))
  · rw [atBase.size, sound.sentinel]
  · intro c listed
    rcases List.mem_cons.mp listed with rfl | later
    · exact sized
    · rw [(agree c (List.mem_append_right _ later)).size, sound.marked c later]
  · intro c listed
    rcases parts c listed with rfl | old
    · exact pos
    · exact sound.positive c old
  · intro c listed
    rcases parts c listed with rfl | old
    · exact ⟨Nat.le_trans low above, Nat.le_refl _⟩
    · have bounds := sound.bounds c old
      refine ⟨bounds.1, Nat.le_trans bounds.2 ?_⟩
      show s.top <= hp + 8 * nu
      omega
  · refine List.pairwise_cons.mpr ⟨fun c listed => ?_, sound.apart⟩
    exact (fresh c (List.mem_append_right _ listed)).symm
  · intro c listed d known
    rcases List.mem_cons.mp listed with rfl | later
    · exact (fresh d (List.mem_append_left _ known)).symm
    · exact sound.separate c later d known
  · intro x
    rw [covers_cons, sound.covered x, covers_append, covers_append, covers_cons]
    exact or_left_comm

/-! ## Taking a block -/

/-- A part of the free memory goes to the caller. -/
theorem taken {b : Block} {blocks' : List Block} {n : Bytes} {p : Nat}
    (linked : Linked n base blocks' base) (sentinel : size n base = 0)
    (start : p ∈ base :: blocks'.map Block.addr) (sized : size n b.addr = b.size)
    (agree : ∀ c, c ∈ s.live -> Agree s.mem n c.addr) (spaced : Spaced blocks')
    (inside : ∀ c, c ∈ b :: blocks' ->
      1 <= c.size /\ ∃ d, d ∈ blocks /\ d.addr <= c.addr /\ c.stop <= d.stop)
    (disjoint : ∀ c, c ∈ blocks' -> Disjoint b c)
    (covers : ∀ x, Covers blocks x <-> b.Has x ∨ Covers blocks' x) :
    Sound base { s with mem := n, freep := p, live := b :: s.live } blocks' := by
  have bound : ∀ c, c ∈ b :: blocks' -> base + 8 <= c.addr /\ c.stop <= s.top := by
    intro c listed
    rcases (inside c listed).2 with ⟨d, known, low, high⟩
    have bounds := sound.bounds_free known
    exact ⟨Nat.le_trans bounds.1 low, Nat.le_trans high bounds.2⟩
  have apart : ∀ c, c ∈ s.live -> ∀ d, d ∈ b :: blocks' -> Disjoint c d := by
    rintro c live d listed x ⟨inLive, inFree⟩
    have free : Covers blocks x := by
      rw [covers x, <- covers_cons]
      exact ⟨d, listed, inFree⟩
    rcases free with ⟨e, known, has⟩
    exact sound.separate c live e known x ⟨inLive, has⟩
  have parts : ∀ c, c ∈ blocks' ++ b :: s.live -> c ∈ b :: blocks' ∨ c ∈ s.live := by
    intro c listed
    rcases List.mem_append.mp listed with free | rest
    · exact .inl (List.mem_cons_of_mem _ free)
    · rcases List.mem_cons.mp rest with rfl | live
      · exact .inl List.mem_cons_self
      · exact .inr live
  refine ⟨sound.based, sound.low, sound.high, linked, sentinel, start, ?_, spaced, ?_, ?_, ?_, ?_, ?_⟩
  · intro c listed
    rcases List.mem_cons.mp listed with rfl | later
    · exact sized
    · rw [(agree c later).size, sound.marked c later]
  · intro c listed
    rcases parts c listed with new | old
    · exact (inside c new).1
    · exact sound.positive_live old
  · intro c listed
    rcases parts c listed with new | old
    · exact bound c new
    · exact sound.bounds_live old
  · exact List.pairwise_cons.mpr ⟨fun c listed => (apart c listed b List.mem_cons_self).symm, sound.apart⟩
  · intro c listed d known
    rcases List.mem_cons.mp listed with rfl | later
    · exact disjoint d known
    · exact apart c later d (List.mem_cons_of_mem _ known)
  · intro x
    show Covers s.obtained x <-> Covers (blocks' ++ b :: s.live) x
    rw [sound.covered x, covers_append, covers_append, covers_cons, covers x, or_assoc]
    exact or_left_comm

/-- The block before a free block in the ring. -/
theorem before (listed : c ∈ blocks) (ring : prevp ∈ base :: blocks.map Block.addr)
    (next : ptr s.mem prevp = c.addr) :
    ∃ front q back, ⟨base, 0⟩ :: blocks = front ++ q :: c :: back /\ prevp = q.addr := by
  rcases List.append_of_mem listed with ⟨early, back, split⟩
  rcases List.eq_nil_or_concat (Block.mk base 0 :: early) with empty | ⟨front, q, concat⟩
  · exact absurd empty (List.cons_ne_nil _ _)
  · have whole : Block.mk base 0 :: blocks = front ++ q :: c :: back := by
      rw [split, <- List.cons_append, concat]
      simp
    refine ⟨front, q, back, whole, ?_⟩
    have nodup : (blocks.map Block.addr ++ [base]).Nodup := by
      have order := sound.ascending.imp (fun {x y} less => Nat.ne_of_lt less)
      exact (List.perm_append_singleton base _).nodup_iff.mpr order
    have member : q.addr ∈ base :: blocks.map Block.addr := by
      have cells : base :: blocks.map Block.addr = (front ++ q :: c :: back).map Block.addr := by
        rw [<- whole]
        rfl
      rw [cells]
      simp
    exact sound.linked.track.injective nodup ring member
      (next.trans (sound.linked_from whole).tail.1.symm)

theorem free_disjoint : blocks.Pairwise Disjoint :=
  sound.spaced.imp fun before => disjoint_of_le (Nat.le_of_lt before)

theorem free_nodup : blocks.Nodup := by
  refine sound.spaced.imp_of_mem fun {b c} first _ before same => ?_
  have pos := sound.positive_free first
  rw [<- same] at before
  simp only [Block.stop] at before
  omega

omit sound in
/-- The ring without a block. -/
theorem unlink {q : Block} {front back : List Block}
    (split : ⟨base, 0⟩ :: blocks = front ++ q :: c :: back) :
    ∃ blocks', ⟨base, 0⟩ :: blocks' = front ++ q :: back /\ blocks'.Sublist blocks /\
      blocks.Perm (c :: blocks') := by
  have tail : ∃ blocks', ⟨base, 0⟩ :: blocks' = front ++ q :: back := by
    cases front with
    | nil => exact ⟨back, by rw [(List.cons_eq_cons.mp split).1]; rfl⟩
    | cons first rest => exact ⟨rest ++ q :: back, by rw [(List.cons_eq_cons.mp split).1]; rfl⟩
  rcases tail with ⟨blocks', joined⟩
  have shorter : (Block.mk base 0 :: blocks').Sublist (Block.mk base 0 :: blocks) := by
    rw [joined, split]
    simp
  have moved : (front ++ q :: c :: back).Perm (front ++ c :: q :: back) :=
    List.Perm.append_left front (List.Perm.swap c q back)
  have perm : (Block.mk base 0 :: blocks).Perm (c :: Block.mk base 0 :: blocks') := by
    rw [joined, split]
    exact moved.trans List.perm_middle
  exact ⟨blocks', joined, List.cons_sublist_cons.mp shorter, (perm.trans (List.Perm.swap _ _ _)).cons_inv⟩

/-- A block of the right size is unlinked. -/
theorem take_whole (listed : c ∈ blocks) (ring : prevp ∈ base :: blocks.map Block.addr)
    (next : ptr s.mem prevp = c.addr) : ∃ blocks',
    Sound base
      { s with mem := setPtr s.mem prevp (ptr s.mem c.addr), freep := prevp, live := c :: s.live }
      blocks' := by
  rcases sound.before listed ring next with ⟨front, q, back, split, rfl⟩
  rcases unlink split with ⟨blocks', joined, shorter, perm⟩
  have order := sound.headers
  rw [split] at order
  rcases List.pairwise_append.mp order with ⟨_, orderBack, orderFront⟩
  have afterLast := (List.pairwise_cons.mp orderBack).1
  have inRing : q ∈ Block.mk base 0 :: blocks := by rw [split]; simp
  have agree : ∀ d : Block, Far d.addr q.addr ->
      Agree s.mem (setPtr s.mem q.addr (ptr s.mem c.addr)) d.addr :=
    fun d far => agree_setPtr far
  have linked : Linked (setPtr s.mem q.addr (ptr s.mem c.addr)) q.addr back base := by
    refine (sound.linked_from split).tail.2.2.restart (ptr_setPtr ptr_lt)
      (fun d member => agree d (.inr ?_))
    exact afterLast d (List.mem_cons_of_mem _ member)
  have sized : size (setPtr s.mem q.addr (ptr s.mem c.addr)) q.addr = q.size := by
    rw [size_setPtr, sound.sizes_ring inRing]
  rcases sound.linked_replace split joined rfl sized linked (fun d member =>
    agree d (.inl (orderFront d member q List.mem_cons_self))) with ⟨linked', sentinel, start⟩
  have ne : c ∉ blocks' := (List.nodup_cons.mp (perm.nodup_iff.mp sound.free_nodup)).1
  refine ⟨blocks', sound.taken linked' sentinel start ?_ ?_ (sound.spaced.sublist shorter) ?_ ?_ ?_⟩
  · rw [(agree c (.inr (afterLast c List.mem_cons_self))).size, sound.linked.sizes c listed]
  · intro d live
    refine agree d ?_
    have pos := sound.positive_live live
    have around := sound.ring_live live inRing
    simp only [Far, Block.stop] at *
    omega
  · intro d member
    have known : d ∈ blocks := perm.mem_iff.mpr member
    exact ⟨sound.positive_free known, d, known, Nat.le_refl _, Nat.le_refl _⟩
  · intro d member
    have known : d ∈ blocks := shorter.subset member
    exact sound.free_disjoint.forall listed known (fun same => ne (same ▸ member))
  · intro x
    rw [<- covers_cons]
    simp only [Covers, perm.mem_iff]

/-- The tail of a larger block is taken. -/
theorem take_tail (listed : c ∈ blocks) {k : Nat} (ring : prevp ∈ base :: blocks.map Block.addr)
    (pos : 1 <= nunits) (left : 1 <= k) (parts : c.size = k + nunits) : ∃ blocks', Sound base
      { s with
        mem := setSize (setSize s.mem c.addr k) (c.addr + 8 * k) nunits
        freep := prevp
        live := ⟨c.addr + 8 * k, nunits⟩ :: s.live } blocks' := by
  rcases List.append_of_mem listed with ⟨early, back, split⟩
  have high := Nat.le_trans (sound.bounds_free listed).2 sound.high
  have whole : Block.mk base 0 :: blocks = (Block.mk base 0 :: early) ++ c :: back := by
    rw [split, List.cons_append]
  have inRing : c ∈ Block.mk base 0 :: blocks := List.mem_cons_of_mem _ listed
  have order := sound.headers
  rw [whole] at order
  have orderFront := (List.pairwise_append.mp order).2.2
  have spaced := sound.spaced
  rw [split] at spaced
  rcases List.pairwise_append.mp spaced with ⟨spacedFront, spacedBack, across⟩
  rcases List.pairwise_cons.mp spacedBack with ⟨afterBlock, spacedRest⟩
  have middle : c.addr + 8 * k + 8 * nunits = c.stop := by
    rw [Block.stop]
    omega
  have agree : ∀ x, (x + 8 <= c.addr ∨ c.stop <= x) ->
      Agree s.mem (setSize (setSize s.mem c.addr k) (c.addr + 8 * k) nunits) x := by
    intro x outside
    refine (agree_setSize ?_).trans (agree_setSize ?_)
    · rw [Far]
      omega
    · rw [Far]
      omega
  have separated : Far c.addr (c.addr + 8 * k) := Or.inl (by omega)
  have agreeFront : ∀ d, d ∈ Block.mk base 0 :: early -> Agree s.mem
      (setSize (setSize s.mem c.addr k) (c.addr + 8 * k) nunits) d.addr := fun d member =>
    agree d.addr (.inl (orderFront d member c List.mem_cons_self))
  have linked : Linked (setSize (setSize s.mem c.addr k) (c.addr + 8 * k) nunits) c.addr back base := by
    refine (sound.linked_from whole).restart ?_ (fun d member => agree d.addr (.inr ?_))
    · rw [(agree_setSize separated).ptr, ptr_setSize]
    · exact Nat.le_of_lt (afterBlock d member)
  have sized : size (setSize (setSize s.mem c.addr k) (c.addr + 8 * k) nunits) c.addr = k := by
    rw [(agree_setSize separated).size, size_setSize (by omega)]
  have joined : Block.mk base 0 :: (early ++ ⟨c.addr, k⟩ :: back) =
      (Block.mk base 0 :: early) ++ ⟨c.addr, k⟩ :: back :=
    rfl
  rcases sound.linked_replace whole joined rfl sized linked agreeFront with ⟨linked', sentinel, _⟩
  have inFree : ∀ d, d ∈ early ++ back -> d ∈ blocks /\ (d.stop < c.addr ∨ c.stop < d.addr) := by
    intro d member
    rw [split]
    rcases List.mem_append.mp member with first | second
    · exact ⟨by simp [first], .inl (across d first c List.mem_cons_self)⟩
    · exact ⟨by simp [second], .inr (afterBlock d second)⟩
  have members : ∀ d, d ∈ early ++ ⟨c.addr, k⟩ :: back -> d = ⟨c.addr, k⟩ ∨ d ∈ early ++ back := by
    intro d member
    rcases List.mem_append.mp member with first | second
    · exact .inr (List.mem_append_left _ first)
    · exact (List.mem_cons.mp second).imp_right (List.mem_append_right _)
  refine ⟨early ++ ⟨c.addr, k⟩ :: back,
    sound.taken linked' sentinel ?_ (size_setSize (by omega)) ?_ ?_ ?_ ?_ ?_⟩
  · rw [split] at ring
    simpa using ring
  · intro d live
    refine agree d.addr ?_
    have around := sound.ring_live live inRing
    have size := sound.positive_live live
    simp only [Block.stop] at *
    omega
  · refine List.pairwise_append.mpr ⟨spacedFront,
      List.pairwise_cons.mpr ⟨fun d member => ?_, spacedRest⟩, ?_⟩
    · refine Nat.lt_of_le_of_lt ?_ (afterBlock d member)
      simp only [Block.stop] at *
      omega
    · intro d first e second
      rcases List.mem_cons.mp second with rfl | later
      · exact across d first c List.mem_cons_self
      · exact across d first e (List.mem_cons_of_mem _ later)
  · intro d member
    rcases List.mem_cons.mp member with rfl | rest
    · exact ⟨pos, c, listed, Nat.le_add_right _ _, Nat.le_of_eq middle⟩
    · rcases members d rest with rfl | other
      · refine ⟨left, c, listed, Nat.le_refl _, ?_⟩
        simp only [Block.stop]
        omega
      · have known := (inFree d other).1
        exact ⟨sound.positive_free known, d, known, Nat.le_refl _, Nat.le_refl _⟩
  · rintro d member x ⟨⟨low, high⟩, ⟨low', high'⟩⟩
    rcases members d member with rfl | other
    · simp only [Block.stop] at *
      omega
    · have outside := (inFree d other).2
      simp only [Block.stop] at *
      omega
  · intro x
    have cut : c.Has x <-> (⟨c.addr, k⟩ : Block).Has x ∨ (⟨c.addr + 8 * k, nunits⟩ : Block).Has x := by
      simp only [Block.Has, Block.stop]
      omega
    rw [split, covers_append, covers_append, covers_cons, covers_cons, cut]
    simp only [or_assoc, or_left_comm]

/-- The caller, who had some blocks, has one more of that many units. -/
def Gave (base : Nat) (live : List Block) (nunits : Nat) (result : State × Nat) : Prop :=
  ∃ blocks b, Sound base result.1 blocks /\ result.1.live = b :: live /\ b.size = nunits /\
    result.2 = (b.addr + 8) % 2 ^ 32

theorem take (listed : c ∈ blocks) (ring : prevp ∈ base :: blocks.map Block.addr)
    (next : ptr s.mem prevp = c.addr) (pos : 1 <= nunits) (fits : nunits <= c.size) :
    Gave base s.live nunits (Heap.take s nunits prevp c.addr) /\
      (Heap.take s nunits prevp c.addr).2 = (c.stop + 8 - 8 * nunits) % 2 ^ 32 := by
  have sized := sound.linked.sizes c listed
  by_cases whole : c.size = nunits
  · have effect : Heap.take s nunits prevp c.addr = ({ s with
        mem := setPtr s.mem prevp (ptr s.mem c.addr), freep := prevp, live := c :: s.live },
          (c.addr + 8) % 2 ^ 32) := by
      rw [Heap.take, if_pos (sized.trans whole), <- whole]
    rcases sound.take_whole listed ring next with ⟨blocks', sound'⟩
    rw [effect, Block.stop]
    exact ⟨⟨blocks', c, sound', rfl, whole, rfl⟩, by omega⟩
  · obtain ⟨k, parts⟩ := Nat.exists_eq_add_of_le' fits
    have high := Nat.le_trans (sound.bounds_free listed).2 sound.high
    have inside : past (setSize s.mem c.addr k) c.addr = c.addr + 8 * k := by
      rw [past, size_setSize]
      · simp only [Block.stop] at high
        omega
      · simp only [Block.stop] at high
        omega
    have effect : Heap.take s nunits prevp c.addr = ({ s with
        mem := setSize (setSize s.mem c.addr k) (c.addr + 8 * k) nunits
        freep := prevp
        live := ⟨c.addr + 8 * k, nunits⟩ :: s.live }, (c.addr + 8 * k + 8) % 2 ^ 32) := by
      simp only [Heap.take]
      rw [if_neg (fun same => whole (sized.symm.trans same)), sized, parts, Nat.add_sub_cancel, inside]
    rcases sound.take_tail listed ring pos (by omega) parts with ⟨blocks', sound'⟩
    rw [effect, Block.stop]
    exact ⟨⟨blocks', _, sound', rfl, rfl, rfl⟩, by omega⟩

/-! ## The search -/

omit sound in
theorem mallocLoop_skip {a z : Nat} {cells : List Nat} (track : Track (ptr s.mem) a cells z)
    (small : ∀ x, x ∈ cells -> size s.mem x < nunits /\ x ≠ s.freep) (n : Nat)
    (gaps : List (Option Nat)) :
    mallocLoop nunits (n + cells.length) gaps s a (ptr s.mem a) =
      mallocLoop nunits n gaps s (ending a cells) z := by
  induction cells generalizing a with
  | nil => rw [show ptr s.mem a = z from track]; rfl
  | cons c rest ih =>
    rcases small c List.mem_cons_self with ⟨less, other⟩
    rw [List.length_cons, <- Nat.add_assoc, mallocLoop, track.1, if_neg (Nat.not_le_of_lt less),
      if_neg other]
    exact ih track.2 (fun x listed => small x (List.mem_cons_of_mem _ listed))

/-- The ring from where the search starts, which is met only at its end. -/
theorem round : ∃ cells, Track (ptr s.mem) s.freep cells s.freep /\
    (s.freep :: cells).Perm (base :: blocks.map Block.addr) /\ s.freep ∉ cells /\
    cells.length = blocks.length := by
  rcases sound.linked.track.rotate sound.start with ⟨cells, track, perm⟩
  have nodup : (base :: blocks.map Block.addr).Nodup :=
    sound.ascending.imp (fun {x y} less => Nat.ne_of_lt less)
  have length := perm.length_eq
  simp only [List.length_cons, List.length_map] at length
  exact ⟨cells, track, perm, (List.nodup_cons.mp (perm.nodup_iff.mpr nodup)).1, by omega⟩

section

variable (pos : 1 <= nunits)

include pos

/-- A cell of the ring that is large enough is a free block. -/
theorem block_of_fit {x : Nat} (ring : x ∈ base :: blocks.map Block.addr)
    (fits : nunits <= size s.mem x) : ∃ c, c ∈ blocks /\ x = c.addr /\ nunits <= c.size := by
  rcases List.mem_cons.mp ring with rfl | later
  · rw [sound.sentinel] at fits
    omega
  · rcases List.mem_map.mp later with ⟨c, listed, rfl⟩
    exact ⟨c, listed, rfl, sound.linked.sizes c listed ▸ fits⟩

/-- Where the search ends if a free block is large enough, and the cells that it passes before. -/
theorem find (listed : c ∈ blocks) (fits : nunits <= c.size) :
    ∃ front d, d ∈ blocks /\ nunits <= d.size /\
      Track (ptr s.mem) s.freep front d.addr /\
      (∀ x, x ∈ front -> size s.mem x < nunits /\ x ≠ s.freep) /\
      front.length <= blocks.length /\ ending s.freep front ∈ base :: blocks.map Block.addr := by
  rcases sound.round with ⟨cells, track, perm, apart, length⟩
  have exist : ∃ x, (cells ++ [s.freep]).find? (fun x => decide (nunits <= size s.mem x)) = some x := by
    rw [<- Option.isSome_iff_exists, List.find?_isSome]
    refine ⟨c.addr, ?_, ?_⟩
    · rw [(List.perm_append_singleton _ _).mem_iff, perm.mem_iff]
      exact List.mem_cons_of_mem _ (List.mem_map_of_mem listed)
    · rw [sound.linked.sizes c listed]
      exact decide_eq_true fits
  rcases exist with ⟨x, found⟩
  rcases List.find?_eq_some_iff_append.mp found with ⟨large, front, back, split, small⟩
  have whole : Track (ptr s.mem) s.freep (cells ++ [s.freep]) (ptr s.mem s.freep) :=
    (Track.append_iff cells).mpr ⟨track, rfl⟩
  have nodup : (cells ++ [s.freep]).Nodup := by
    rw [(List.perm_append_singleton _ _).nodup_iff, perm.nodup_iff]
    exact sound.ascending.imp (fun {x y} less => Nat.ne_of_lt less)
  have members : ∀ y, y ∈ cells ++ [s.freep] -> y ∈ base :: blocks.map Block.addr := fun y member =>
    perm.mem_iff.mp ((List.perm_append_singleton _ _).mem_iff.mp member)
  have ending_eq := congrArg List.getLast? split
  have longer := congrArg List.length split
  rw [split] at whole nodup members
  have before := ((Track.append_iff front).mp whole).1
  -- The search starts after the cell that it may stop at, which therefore is none of those passed.
  have passed : ∀ y, y ∈ front -> size s.mem y < nunits /\ y ≠ s.freep := by
    intro y member
    have less := small y member
    rw [Bool.not_eq_true', decide_eq_false_iff_not] at less
    refine ⟨Nat.lt_of_not_le less, fun same => ?_⟩
    have last : s.freep ∈ x :: back := by
      rw [List.getLast?_append_of_ne_nil _ (List.cons_ne_nil _ _), List.getLast?_append_of_ne_nil _
        (List.cons_ne_nil _ _)] at ending_eq
      exact List.mem_of_getLast? ending_eq.symm
    exact (List.disjoint_of_nodup_append nodup) member (same ▸ last)
  rcases sound.block_of_fit pos (members x (by simp))
    (of_decide_eq_true large) with ⟨d, known, rfl, enough⟩
  simp only [List.length_append, List.length_cons, List.length_nil] at longer
  refine ⟨front, d, known, enough, before, passed, by omega, ?_⟩
  rcases List.mem_cons.mp (ending_mem front s.freep) with same | inside
  · rw [same]
    exact sound.start
  · exact members _ (List.mem_append_left _ inside)

/-- If a free block is large enough, one round finds one. -/
theorem search (listed : c ∈ blocks)
    (fits : nunits <= c.size) : ∃ result, Gave base s.live nunits result /\
      ∀ fuel gaps, blocks.length < fuel ->
        mallocLoop nunits fuel gaps s s.freep (ptr s.mem s.freep) = some result := by
  rcases sound.find pos listed fits with ⟨front, d, known, enough, before, passed, short, ring⟩
  refine ⟨_, (sound.take known ring before.next_ending pos enough).1, fun fuel gaps room => ?_⟩
  obtain ⟨n, rfl⟩ : ∃ n, fuel = n + 1 + front.length := ⟨fuel - 1 - front.length, by omega⟩
  rw [mallocLoop_skip before passed, mallocLoop,
    if_pos (by rw [sound.linked.sizes d known]; exact enough)]

/-- If no free block is large enough, the search comes back to where it started. -/
theorem pass (small : ∀ c, c ∈ blocks -> c.size < nunits) :
    ∃ cells, Track (ptr s.mem) s.freep cells s.freep /\
      (∀ x, x ∈ cells -> size s.mem x < nunits /\ x ≠ s.freep) /\ size s.mem s.freep < nunits /\
      cells.length = blocks.length /\ ∀ x, x ∈ cells -> x ∈ base :: blocks.map Block.addr := by
  rcases sound.round with ⟨cells, track, perm, apart, length⟩
  have less : ∀ x, x ∈ s.freep :: cells -> size s.mem x < nunits := by
    intro x member
    by_contra fits
    rcases sound.block_of_fit pos (perm.mem_iff.mp member)
      (Nat.le_of_not_lt fits) with ⟨c, listed, _, enough⟩
    exact Nat.not_le_of_lt (small c listed) enough
  refine ⟨cells, track, fun x member => ?_, less s.freep List.mem_cons_self, length, fun x member => ?_⟩
  · exact ⟨less x (List.mem_cons_of_mem _ member), fun same => apart (same ▸ member)⟩
  · exact perm.mem_iff.mp (List.mem_cons_of_mem _ member)

/-- If no free block is large enough, `malloc` asks for more memory after one round. -/
theorem exhaust (small : ∀ c, c ∈ blocks -> c.size < nunits) (n : Nat) (gaps : List (Option Nat)) :
    mallocLoop nunits (n + 1 + blocks.length) gaps s s.freep (ptr s.mem s.freep) =
      match morecore n s (gaps.headD none) nunits with
      | none => none
      | some (t, q) => if q = 0 then some (t, 0)
        else mallocLoop nunits n gaps.tail t q (ptr t.mem q) := by
  rcases sound.pass pos small with ⟨cells, track, passed, less, length, _⟩
  rw [<- length, mallocLoop_skip track passed, mallocLoop, if_neg (Nat.not_le_of_lt less)]
  exact if_pos rfl

end

/-! ## More memory is enough -/

theorem freep_pos : s.freep ≠ 0 := by
  have based := sound.based
  rcases List.mem_cons.mp sound.start with same | later
  · omega
  · rcases List.mem_map.mp later with ⟨c, listed, same⟩
    have bounds := sound.bounds_free listed
    omega

/-- The region that `sbrk` gave is put in the list. -/
theorem release {hp : Nat} (above : s.top <= hp) (high : hp + 8 * nu <= 2 ^ 32)
    (pos : 1 <= nu) : ∃ t, Sound base t (insert ⟨hp, nu⟩ blocks) /\ t.live = s.live /\
      t.top = hp + 8 * nu /\ ∀ fuel, blocks.length < fuel ->
        Heap.free fuel (Heap.grow s hp nu) ((hp + 8) % 2 ^ 32) = some t := by
  have grown := sound.grow above high pos
  have held : (⟨hp, nu⟩ : Block) ∈ (Heap.grow s hp nu).live := List.mem_cons_self
  rcases grown.free held with ⟨p, sound', ends⟩
  refine ⟨_, sound', ?_, rfl, ends⟩
  show ((⟨hp, nu⟩ :: s.live).filter fun c => decide (c.addr ≠ hp)) = s.live
  rw [List.filter_cons_of_neg (by simp), List.filter_eq_self]
  intro c listed
  have bounds := (sound.bounds_live listed).2
  have size := sound.positive_live listed
  simp only [Block.stop] at bounds
  exact decide_eq_true (Nat.ne_of_lt (by omega))

/-- `morecore` fails and changes nothing, or the list has a block that is large enough. -/
theorem morecore (small : nu < 2 ^ 28) (gap : Option Nat) :
    (∀ fuel, Heap.morecore fuel s gap nu = some (s, 0)) ∨
      ∃ t blocks', Sound base t blocks' /\ t.live = s.live /\
        (∃ c, c ∈ blocks' /\ nu <= c.size) /\
        ∀ fuel, blocks.length < fuel -> Heap.morecore fuel s gap nu = some (t, t.freep) := by
  obtain ⟨asked, chosen⟩ : ∃ asked, asked = if nu < 4096 then 4096 else nu := ⟨_, rfl⟩
  have enough : nu <= asked /\ 1 <= asked /\ asked < 2 ^ 28 := by
    rw [chosen]
    split <;> omega
  have bytes : asked * 8 % 2 ^ 32 = 8 * asked := by omega
  cases answer : sbrk s gap (8 * asked) with
  | none =>
    left
    intro fuel
    simp only [Heap.morecore]
    rw [<- chosen, bytes, answer]
  | some hp =>
    right
    rcases Option.bind_eq_some_iff.mp answer with ⟨g, _, placed⟩
    obtain ⟨room, at_top⟩ := Option.ite_none_right_eq_some.mp placed
    obtain rfl := Option.some.inj at_top
    rcases sound.release (Nat.le_add_right s.top g) room enough.2.1 with ⟨t, sound', live, _, ends⟩
    rcases insert_larger ⟨s.top + g, asked⟩ blocks with ⟨c, listed, larger⟩
    refine ⟨t, _, sound', live, ⟨c, listed, Nat.le_trans enough.1 larger⟩, fun fuel long => ?_⟩
    simp only [Heap.morecore]
    rw [<- chosen, bytes, answer]
    simp only []
    rw [ends fuel long]
    rfl

/-- A call of `malloc` ends: it fails and changes nothing, or the caller gets a block. -/
theorem mallocLoop (pos : 1 <= nunits) (small : nunits < 2 ^ 28)
    (gaps : List (Option Nat)) : ∃ result, (result = (s, 0) ∨ Gave base s.live nunits result) /\
      ∃ n, ∀ fuel, n <= fuel ->
        Heap.mallocLoop nunits fuel gaps s s.freep (ptr s.mem s.freep) = some result := by
  by_cases fit : ∃ c, c ∈ blocks /\ nunits <= c.size
  · rcases fit with ⟨c, listed, fits⟩
    rcases sound.search pos listed fits with ⟨result, gave, ends⟩
    exact ⟨result, .inr gave, blocks.length + 1, fun fuel long => ends fuel gaps long⟩
  · have less : ∀ c, c ∈ blocks -> c.size < nunits := fun c listed =>
      Nat.lt_of_not_le fun fits => fit ⟨c, listed, fits⟩
    rcases sound.morecore small (gaps.headD none) with refused | ⟨t, blocks', sound', live,
      ⟨c, listed, fits⟩, given⟩
    · refine ⟨(s, 0), .inl rfl, blocks.length + 1, fun fuel long => ?_⟩
      obtain ⟨n, rfl⟩ : ∃ n, fuel = n + 1 + blocks.length := ⟨fuel - 1 - blocks.length, by omega⟩
      rw [sound.exhaust pos less, refused]
      rfl
    · rcases sound'.search pos listed fits with ⟨result, gave, ends⟩
      refine ⟨result, .inr (live ▸ gave), blocks.length + blocks'.length + 2 + blocks.length,
        fun fuel long => ?_⟩
      obtain ⟨n, rfl⟩ : ∃ n, fuel = n + 1 + blocks.length := ⟨fuel - 1 - blocks.length, by omega⟩
      rw [sound.exhaust pos less, given n (by omega)]
      simp only [sound'.freep_pos, if_false]
      exact ends n gaps.tail (by omega)

end

end Sound

end Xv6.Heap
