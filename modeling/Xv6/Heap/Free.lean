import Xv6.Heap.Calls

namespace Xv6.Heap

open Library (Bytes Track walk)

/-!
# The free list

`Sound base s blocks` says that the free list of the heap is the ring of these
blocks, entered at the sentinel, and how they lie in memory together with the live
ones.  Freeing a live block keeps it, with the block inserted.
-/

/-! ## Headers -/

/-- Two headers do not overlap. -/
def Far (x y : Nat) : Prop := x + 8 <= y ∨ y + 8 <= x

/-- The header at `x` is the same in both memories. -/
structure Agree (m n : Bytes) (x : Nat) : Prop where
  ptr : ptr n x = ptr m x
  size : size n x = size m x

variable {m n : Bytes} {p q x v : Nat}

theorem Agree.trans {k : Bytes} (first : Agree m n x) (second : Agree n k x) : Agree m k x :=
  ⟨second.ptr.trans first.ptr, second.size.trans first.size⟩

theorem ptr_setPtr (small : v < 2 ^ 32) : ptr (setPtr m p v) p = v := Bytes.load_store small

theorem ptr_lt : ptr m p < 2 ^ 32 := Bytes.load_lt m p

theorem size_setSize (small : v < 2 ^ 32) : size (setSize m p v) p = v := Bytes.load_store small

theorem size_setPtr : size (setPtr m p v) p = size m p :=
  Bytes.load_store_of_far (.inr (Nat.le_refl _))

theorem ptr_setSize : ptr (setSize m p v) p = ptr m p :=
  Bytes.load_store_of_far (.inl (Nat.le_refl _))

theorem agree_setPtr (far : Far x p) : Agree m (setPtr m p v) x := by
  rw [Far] at far
  exact ⟨Bytes.load_store_of_far (by omega), Bytes.load_store_of_far (by omega)⟩

theorem agree_setSize (far : Far x p) : Agree m (setSize m p v) x := by
  rw [Far] at far
  exact ⟨Bytes.load_store_of_far (by omega), Bytes.load_store_of_far (by omega)⟩

variable {bp : Nat}

theorem agree_linkNext (far : Far x bp) : Agree m (linkNext m bp p) x := by
  rw [linkNext]
  split
  · exact (agree_setSize far).trans (agree_setPtr far)
  · exact agree_setPtr far

theorem agree_linkPrev (far : Far x p) : Agree m (linkPrev m bp p) x := by
  rw [linkPrev]
  split
  · exact (agree_setSize far).trans (agree_setPtr far)
  · exact agree_setPtr far

/-! ## The ring and the blocks -/

/-- From `a` the pointers run through the blocks to `z`, and each block has its size in its
header. -/
structure Linked (m : Bytes) (a : Nat) (blocks : List Block) (z : Nat) : Prop where
  track : Track (ptr m) a (blocks.map Block.addr) z
  sizes : ∀ b, b ∈ blocks -> size m b.addr = b.size

variable {a z : Nat} {c : Block}

theorem Linked.restart {b : Nat} {blocks : List Block} (linked : Linked m a blocks z)
    (first : ptr n b = ptr m a) (same : ∀ c, c ∈ blocks -> Agree m n c.addr) :
    Linked n b blocks z where
  track := by
    refine linked.track.restart first (fun x listed => ?_)
    rcases List.mem_map.mp listed with ⟨c, known, rfl⟩
    exact (same c known).ptr
  sizes c listed := (same c listed).size.trans (linked.sizes c listed)

variable {front back : List Block}

theorem Linked.append (before : Linked m a front c.addr) (after : Linked m c.addr back z)
    (sized : size m c.addr = c.size) : Linked m a (front ++ c :: back) z where
  track := by
    rw [List.map_append, List.map_cons]
    exact (Track.append_iff _).mpr ⟨before.track, after.track⟩
  sizes d listed := by
    rcases List.mem_append.mp listed with early | late
    · exact before.sizes d early
    · rcases List.mem_cons.mp late with rfl | later
      · exact sized
      · exact after.sizes d later

theorem Linked.split (linked : Linked m a (front ++ c :: back) z) :
    Linked m a front c.addr /\ size m c.addr = c.size /\ Linked m c.addr back z := by
  have track := linked.track
  rw [List.map_append, List.map_cons] at track
  rcases (Track.append_iff _).mp track with ⟨before, after⟩
  exact ⟨⟨before, fun b listed => linked.sizes b (by simp [listed])⟩, linked.sizes c (by simp),
    ⟨after, fun b listed => linked.sizes b (by simp [listed])⟩⟩

theorem Linked.tail {rest : List Block} (linked : Linked m a (c :: rest) z) :
    ptr m a = c.addr /\ size m c.addr = c.size /\ Linked m c.addr rest z :=
  ⟨linked.track.1, linked.sizes c List.mem_cons_self,
    ⟨linked.track.2, fun b listed => linked.sizes b (List.mem_cons_of_mem _ listed)⟩⟩

structure Sound (base : Nat) (s : State) (blocks : List Block) : Prop where
  based : 0 < base
  low : base + 8 <= s.top
  high : s.top <= 2 ^ 32
  linked : Linked s.mem base blocks base
  sentinel : size s.mem base = 0
  start : s.freep ∈ base :: blocks.map Block.addr
  marked : ∀ b, b ∈ s.live -> size s.mem b.addr = b.size
  spaced : Spaced blocks
  positive : ∀ b, b ∈ blocks ++ s.live -> 1 <= b.size
  bounds : ∀ b, b ∈ blocks ++ s.live -> base + 8 <= b.addr /\ b.stop <= s.top
  apart : s.live.Pairwise Disjoint
  separate : ∀ b, b ∈ s.live -> ∀ c, c ∈ blocks -> Disjoint b c
  covered : ∀ x, Covers s.obtained x <-> Covers (blocks ++ s.live) x

variable {base : Nat} {s t : State} {blocks : List Block}

theorem Disjoint.far {b : Block} (disjoint : Disjoint b c) (first : 1 <= b.size)
    (second : 1 <= c.size) : Far b.addr c.addr := by
  have apart := disjoint.apart first second
  simp only [Block.stop, Far] at *
  omega

namespace Sound

variable {b c : Block}

section

variable (sound : Sound base s blocks)

include sound

theorem positive_free (listed : b ∈ blocks) : 1 <= b.size :=
  sound.positive b (List.mem_append_left _ listed)

theorem positive_live (listed : b ∈ s.live) : 1 <= b.size :=
  sound.positive b (List.mem_append_right _ listed)

theorem bounds_free (listed : b ∈ blocks) : base + 8 <= b.addr /\ b.stop <= s.top :=
  sound.bounds b (List.mem_append_left _ listed)

theorem bounds_live (listed : b ∈ s.live) : base + 8 <= b.addr /\ b.stop <= s.top :=
  sound.bounds b (List.mem_append_right _ listed)

/-- Only the headers of the heap matter. -/
theorem congr {n : Bytes} (atBase : Agree s.mem n base)
    (agree : ∀ c, c ∈ blocks ++ s.live -> Agree s.mem n c.addr) :
    Sound base { s with mem := n } blocks where
  based := sound.based
  low := sound.low
  high := sound.high
  linked := sound.linked.restart atBase.ptr (fun c listed => agree c (List.mem_append_left _ listed))
  sentinel := by rw [atBase.size, sound.sentinel]
  start := sound.start
  marked c listed := by rw [(agree c (List.mem_append_right _ listed)).size, sound.marked c listed]
  spaced := sound.spaced
  positive := sound.positive
  bounds := sound.bounds
  apart := sound.apart
  separate := sound.separate
  covered := sound.covered

/-- The addresses of the ring ascend from the sentinel. -/
theorem ascending : (base :: blocks.map Block.addr).Pairwise (· < ·) := by
  refine List.pairwise_cons.mpr ⟨fun x listed => ?_, ?_⟩
  · rcases List.mem_map.mp listed with ⟨b, known, rfl⟩
    have bound := (sound.bounds_free known).1
    omega
  · refine List.pairwise_map.mpr (sound.spaced.imp fun {b c} before => ?_)
    simp only [Block.stop] at before
    omega

theorem live_unique (first : b ∈ s.live) (second : c ∈ s.live)
    (same : b.addr = c.addr) : b = c := by
  by_contra ne
  have apart := (sound.apart.forall first second ne).apart (sound.positive_live first)
    (sound.positive_live second)
  have firstSize := sound.positive_live first
  have secondSize := sound.positive_live second
  simp only [Block.stop] at apart
  omega

/-! ## The loop of free -/

/-- The loop stops at the last cell of the ring that is below the block, and only there. -/
theorem stops_iff (above : base < bp)
    (other : ∀ x, x ∈ blocks.map Block.addr -> x ≠ bp) (listed : p ∈ base :: blocks.map Block.addr)
    (below : p < bp) (last : ∀ x, x ∈ base :: blocks.map Block.addr -> x < bp -> x <= p)
    (known : x ∈ base :: blocks.map Block.addr) : stops s.mem bp x = true <-> x = p := by
  have smallest : ∀ y, y ∈ base :: blocks.map Block.addr -> base <= y := by
    intro y member
    rcases List.mem_cons.mp member with rfl | later
    · exact Nat.le_refl _
    · exact Nat.le_of_lt ((List.pairwise_cons.mp sound.ascending).1 y later)
  have atBlock := smallest p listed
  have lastBelow := last x known
  simp only [stops, Bool.or_eq_true, Bool.and_eq_true, decide_eq_true_eq]
  rcases sound.linked.track.ascending sound.ascending
    known with ⟨larger, next, closest⟩ | ⟨linked, largest⟩
  · have ne := other _ next
    have nextBelow := last _ (List.mem_cons_of_mem _ next)
    have around := closest p listed
    constructor
    · intro stopped
      omega
    · intro same
      omega
  · have around := largest p listed
    rw [linked]
    constructor
    · intro stopped
      omega
    · intro same
      omega

/-! ## What free does to the ring -/

omit sound in
/-- The block gets the pointer of its predecessor, and is joined to the next block if they touch. -/
theorem linkNext_linked {a : Nat} (back : List Block) (linked : Linked m a back base)
    (apart : Far a b.addr) (sized : size m b.addr = b.size) (based : 0 < base) (low : base < b.addr)
    (pos : 1 <= b.size) (high : b.stop <= 2 ^ 32)
    (above : ∀ c, c ∈ back -> b.stop <= c.addr /\ c.stop <= 2 ^ 32 /\ 1 <= c.size) :
    ∃ c rest,
    joinRight b back = c :: rest /\ c.addr = b.addr /\ size (linkNext m b.addr a) b.addr = c.size /\
      Linked (linkNext m b.addr a) b.addr rest base := by
  have far : ∀ c, c ∈ back -> Far c.addr b.addr := by
    intro c listed
    have bound := (above c listed).1
    simp only [Block.stop, Far] at *
    omega
  cases back with
  | nil =>
    have next : ptr m a = base := linked.track
    have unjoined : past m b.addr ≠ ptr m a := by
      rw [next, past, sized]
      simp only [Block.stop] at high
      omega
    refine ⟨b, [], rfl, rfl, ?_, ⟨?_, fun c listed => absurd listed List.not_mem_nil⟩⟩
    · rw [linkNext, if_neg unjoined, size_setPtr, sized]
    · show ptr (linkNext m b.addr a) b.addr = base
      rw [linkNext, if_neg unjoined, ptr_setPtr ptr_lt, next]
  | cons d rest =>
    rcases linked.tail with ⟨next, sizedNext, after⟩
    rcases above d List.mem_cons_self with ⟨low', high', positive'⟩
    have farRest : ∀ c, c ∈ rest -> Far c.addr b.addr := fun c listed =>
      far c (List.mem_cons_of_mem _ listed)
    have reached : past m b.addr = d.addr <-> b.stop = d.addr := by
      rw [past, sized]
      simp only [Block.stop] at *
      omega
    by_cases touch : b.stop = d.addr
    · have joined : past m b.addr = ptr m a := by rw [next, reached.mpr touch]
      have small : b.size + d.size < 2 ^ 32 := by
        simp only [Block.stop] at *
        omega
      have effect : linkNext m b.addr a =
          setPtr (setSize m b.addr (b.size + d.size)) b.addr (ptr m d.addr) := by
        simp only [linkNext]
        rw [if_pos joined, next, sized, sizedNext, Nat.mod_eq_of_lt small,
          (agree_setSize apart).ptr, next, (agree_setSize (far d List.mem_cons_self)).ptr]
      refine ⟨⟨b.addr, b.size + d.size⟩, rest, by rw [joinRight, if_pos touch], rfl, ?_, ?_⟩
      · rw [effect, size_setPtr, size_setSize small]
      · refine after.restart ?_ (fun c listed => agree_linkNext (farRest c listed))
        rw [effect, ptr_setPtr ptr_lt]
    · have unjoined : past m b.addr ≠ ptr m a := by
        rw [next]
        exact fun same => touch (reached.mp same)
      refine ⟨b, d :: rest, by rw [joinRight, if_neg touch], rfl, ?_, ?_⟩
      · rw [linkNext, if_neg unjoined, size_setPtr, sized]
      · refine linked.restart ?_ (fun c listed => agree_linkNext (far c listed))
        rw [linkNext, if_neg unjoined, ptr_setPtr ptr_lt]

omit sound in
/-- The block before is linked to the freed one, and takes it in if they touch. -/
theorem linkPrev_linked {q : Block} {rest : List Block} (linked : Linked m c.addr rest base)
    (sized : size m c.addr = c.size) (sizedPrev : size m q.addr = q.size)
    (apart : Far c.addr q.addr) (before : q.stop <= c.addr) (high : c.stop <= 2 ^ 32)
    (pos : 1 <= c.size) (far : ∀ d, d ∈ rest -> Far d.addr q.addr) : ∃ q' rest',
    joinRight q (c :: rest) = q' :: rest' /\ q'.addr = q.addr /\
    size (linkPrev m c.addr q.addr) q.addr = q'.size /\
      Linked (linkPrev m c.addr q.addr) q.addr rest' base := by
  have reached : past m q.addr = c.addr <-> q.stop = c.addr := by
    rw [past, sizedPrev]
    simp only [Block.stop] at *
    omega
  by_cases touch : q.stop = c.addr
  · have small : q.size + c.size < 2 ^ 32 := by
      simp only [Block.stop] at *
      omega
    have effect : linkPrev m c.addr q.addr =
        setPtr (setSize m q.addr (q.size + c.size)) q.addr (ptr m c.addr) := by
      simp only [linkPrev]
      rw [if_pos (reached.mpr touch), sizedPrev, sized, Nat.mod_eq_of_lt small, (agree_setSize apart).ptr]
    refine ⟨⟨q.addr, q.size + c.size⟩, rest, by rw [joinRight, if_pos touch], rfl, ?_, ?_⟩
    · rw [effect, size_setPtr, size_setSize small]
    · refine linked.restart ?_ (fun d listed => agree_linkPrev (far d listed))
      rw [effect, ptr_setPtr ptr_lt]
  · have effect : linkPrev m c.addr q.addr = setPtr m q.addr c.addr := by
      rw [linkPrev, if_neg (fun same => touch (reached.mp same))]
    have small : c.addr < 2 ^ 32 := by
      simp only [Block.stop] at *
      omega
    refine ⟨q, c :: rest, by rw [joinRight, if_neg touch], rfl, ?_, ?_⟩
    · rw [effect, size_setPtr, sizedPrev]
    · have entered : Linked (linkPrev m c.addr q.addr) q.addr [] c.addr := by
        refine ⟨?_, fun d listed => absurd listed List.not_mem_nil⟩
        show ptr (linkPrev m c.addr q.addr) q.addr = c.addr
        rw [effect, ptr_setPtr small]
      refine entered.append (linked.restart (agree_linkPrev apart).ptr
        (fun d listed => agree_linkPrev (far d listed))) ?_
      rw [(agree_linkPrev apart).size, sized]

/-! ## Freeing a block -/

theorem far_live (held : b ∈ s.live) (listed : c ∈ blocks) : Far c.addr b.addr :=
  (sound.separate b held c listed).symm.far (sound.positive_free listed) (sound.positive_live held)

/-- The sentinel, as a block of no bytes before the others. -/
theorem spaced_sentinel : Spaced (⟨base, 0⟩ :: blocks) := by
  refine List.pairwise_cons.mpr ⟨fun c listed => ?_, sound.spaced⟩
  have bound := (sound.bounds_free listed).1
  simp only [Block.stop]
  omega

/-- The last block below the freed one, with the blocks around it. -/
theorem below (held : b ∈ s.live) :
    ∃ front q back, ⟨base, 0⟩ :: blocks = front ++ q :: back /\
      q.addr < b.addr /\ (∀ c, c ∈ back -> b.addr < c.addr) := by
  have bounds := (sound.bounds_live held).1
  have other : ∀ c, c ∈ Block.mk base 0 :: blocks -> c.addr ≠ b.addr := by
    intro c listed
    rcases List.mem_cons.mp listed with rfl | later
    · exact Nat.ne_of_lt (show base < b.addr by omega)
    · have far := sound.far_live held later
      rw [Far] at far
      omega
  rcases sound.spaced_sentinel.split other with ⟨front, back, split, lower, upper⟩
  rcases List.eq_nil_or_concat front with rfl | ⟨rest, q, rfl⟩
  · rw [List.nil_append] at split
    have atBase := upper ⟨base, 0⟩ (by rw [<- split]; exact List.mem_cons_self)
    exact absurd atBase (show ¬ b.addr < base by omega)
  · refine ⟨rest, q, back, by rw [split]; simp, lower q (by simp), upper⟩

theorem headers : (⟨base, 0⟩ :: blocks).Pairwise fun c d => c.addr + 8 <= d.addr := by
  refine List.pairwise_cons.mpr ⟨fun c listed => (sound.bounds_free listed).1, ?_⟩
  refine sound.spaced.imp_of_mem fun {c d} first _ before => ?_
  have pos := sound.positive_free first
  simp only [Block.stop] at before
  omega

theorem sizes_ring (listed : c ∈ Block.mk base 0 :: blocks) : size s.mem c.addr = c.size := by
  rcases List.mem_cons.mp listed with rfl | later
  · exact sound.sentinel
  · exact sound.linked.sizes c later

/-- A live block lies before or after a block of the ring. -/
theorem ring_live (held : b ∈ s.live) (listed : c ∈ Block.mk base 0 :: blocks) :
    (c.stop <= b.addr /\ c.addr + 8 <= b.addr) ∨
    (b.stop <= c.addr /\ 1 <= c.size /\ c.stop <= 2 ^ 32) := by
  have bounds := sound.bounds_live held
  have high := sound.high
  have pos := sound.positive_live held
  rcases List.mem_cons.mp listed with rfl | later
  · simp only [Block.stop]
    omega
  · have size := sound.positive_free later
    have stop := (sound.bounds_free later).2
    have apart := (sound.separate b held c later).apart pos size
    simp only [Block.stop] at *
    omega

theorem insert_sentinel (held : b ∈ s.live) :
    insert b (⟨base, 0⟩ :: blocks) = ⟨base, 0⟩ :: insert b blocks := by
  have low : ∀ c, c ∈ b :: blocks -> base + 8 <= c.addr := by
    intro c listed
    rcases List.mem_cons.mp listed with rfl | later
    · exact (sound.bounds_live held).1
    · exact (sound.bounds_free later).1
  have above := low b List.mem_cons_self
  rw [insert, if_neg (show ¬ b.addr < base by omega)]
  apply joinRight_of_lt
  intro c listed
  rcases (ends_insert listed).1 with ⟨d, known, same, _⟩
  have bound := low d known
  simp only [Block.stop]
  omega

/-- From a block of the ring on, the blocks after it are linked. -/
theorem linked_from {q : Block}
    (split : ⟨base, 0⟩ :: blocks = front ++ q :: back) : Linked s.mem q.addr back base := by
  cases front with
  | nil =>
    obtain ⟨rfl, rfl⟩ := List.cons_eq_cons.mp split
    exact sound.linked
  | cons first rest =>
    obtain ⟨rfl, inner⟩ := List.cons_eq_cons.mp split
    have linked := sound.linked
    rw [inner] at linked
    exact linked.split.2.2

/-- A ring is put together again when a block and what follows it have changed. -/
theorem linked_replace {q q' : Block} {front back rest blocks' : List Block}
    (split : ⟨base, 0⟩ :: blocks = front ++ q :: back)
    (joined : ⟨base, 0⟩ :: blocks' = front ++ q' :: rest) (same : q'.addr = q.addr)
    (sized : size n q.addr = q'.size) (linked : Linked n q.addr rest base)
    (agree : ∀ c, c ∈ front -> Agree s.mem n c.addr) :
    Linked n base blocks' base /\ size n base = 0 /\ q.addr ∈ base :: blocks'.map Block.addr := by
  cases front with
  | nil =>
    obtain ⟨rfl, rfl⟩ := List.cons_eq_cons.mp split
    obtain ⟨rfl, rfl⟩ := List.cons_eq_cons.mp joined
    exact ⟨linked, sized, List.mem_cons_self⟩
  | cons first others =>
    obtain ⟨rfl, inner⟩ := List.cons_eq_cons.mp split
    obtain ⟨_, rfl⟩ := List.cons_eq_cons.mp joined
    have before := sound.linked
    rw [inner] at before
    have atBase := agree ⟨base, 0⟩ List.mem_cons_self
    refine ⟨?_, atBase.size.trans sound.sentinel, ?_⟩
    · rw [<- same] at linked sized
      refine Linked.append ?_ linked sized
      rw [same]
      exact before.split.1.restart atBase.ptr (fun c listed => agree c (List.mem_cons_of_mem _ listed))
    · rw [<- same]
      simp

/-- The ring after the block is linked in behind the last block below it. -/
theorem linked_insert {q : Block} (held : b ∈ s.live)
    (split : ⟨base, 0⟩ :: blocks = front ++ q :: back) (lower : q.addr < b.addr)
    (upper : ∀ c, c ∈ back -> b.addr < c.addr) :
    Linked (linkPrev (linkNext s.mem b.addr q.addr) b.addr q.addr) base (insert b blocks) base /\
      size (linkPrev (linkNext s.mem b.addr q.addr) b.addr q.addr) base = 0 /\
      q.addr ∈ base :: (insert b blocks).map Block.addr := by
  have pos := sound.positive_live held
  have bounds := sound.bounds_live held
  have high := Nat.le_trans bounds.2 sound.high
  have order := sound.headers
  rw [split] at order
  rcases List.pairwise_append.mp order with ⟨_, orderBack, orderFront⟩
  have afterLast := (List.pairwise_cons.mp orderBack).1
  have inRing : ∀ c, c ∈ front ++ q :: back -> c ∈ Block.mk base 0 :: blocks :=
    fun c listed => split ▸ listed
  have beforeLast : q.stop <= b.addr /\ q.addr + 8 <= b.addr := by
    have around := sound.ring_live held (inRing q (by simp))
    simp only [Block.stop] at *
    omega
  have above : ∀ c, c ∈ back -> b.stop <= c.addr /\ c.stop <= 2 ^ 32 /\ 1 <= c.size := by
    intro c listed
    have around := sound.ring_live held (inRing c (by simp [listed]))
    have order := upper c listed
    simp only [Block.stop] at *
    omega
  rcases linkNext_linked back (sound.linked_from split) (.inl beforeLast.2) (sound.marked b held)
    sound.based (by omega) pos high above with ⟨c, rest, joined, sameAddr, sized, linked⟩
  -- The block and those after it lie above the last block before it.
  have ends : ∀ d, d ∈ c :: rest -> q.addr + 8 <= d.addr /\ d.stop <= 2 ^ 32 /\ 1 <= d.size := by
    intro d listed
    rw [<- joined] at listed
    rcases ends_joinRight listed with ⟨⟨e, first, same, larger⟩, ⟨e', second, same'⟩⟩
    have bound : ∀ e, e ∈ b :: back -> q.addr + 8 <= e.addr /\ e.stop <= 2 ^ 32 /\ 1 <= e.size := by
      intro e member
      rcases List.mem_cons.mp member with rfl | later
      · exact ⟨beforeLast.2, high, pos⟩
      · exact ⟨afterLast e later, (above e later).2⟩
    rw [same, same']
    exact ⟨(bound e first).1, (bound e' second).2.1, Nat.le_trans (bound e first).2.2 larger⟩
  have atBlock := ends c List.mem_cons_self
  rw [<- sameAddr] at linked sized beforeLast ⊢
  have sizedLast : size (linkNext s.mem c.addr q.addr) q.addr = q.size := by
    rw [(agree_linkNext (.inl atBlock.1)).size, sound.sizes_ring (inRing q (by simp))]
  rcases linkPrev_linked linked sized sizedLast (.inr atBlock.1) beforeLast.1 atBlock.2.1 atBlock.2.2
    (fun d listed => .inr (ends d (List.mem_cons_of_mem _ listed)).1) with
    ⟨q', rest', joined', sameLast, sized', linked'⟩
  have inserted : ⟨base, 0⟩ :: insert b blocks = front ++ q' :: rest' := by
    have spaced := sound.spaced_sentinel
    rw [split] at spaced
    have spacedFront : Spaced (front ++ [q]) := spaced.sublist (by simp)
    rw [<- sound.insert_sentinel held, split, insert_append upper lower front spacedFront, joined,
      joined']
  refine sound.linked_replace split inserted sameLast sized' linked' (fun d listed => ?_)
  have early : d.addr + 8 <= q.addr := orderFront d listed q List.mem_cons_self
  refine (agree_linkNext (.inl ?_)).trans (agree_linkPrev (.inl early))
  omega

/-- A block of the caller goes to the free memory. -/
theorem returned (held : b ∈ s.live) {live : List Block}
    (linked : Linked n base (insert b blocks) base) (sentinel : size n base = 0)
    (start : p ∈ base :: (insert b blocks).map Block.addr)
    (agree : ∀ c, c ∈ live -> Agree s.mem n c.addr) (apart : live.Pairwise Disjoint)
    (left : ∀ c, c ∈ live <-> c ∈ s.live /\ c ≠ b) :
    Sound base { s with mem := n, freep := p, live := live } (insert b blocks) := by
  have known : ∀ c, c ∈ b :: blocks -> c ∈ blocks ++ s.live := by
    intro c listed
    rcases List.mem_cons.mp listed with rfl | later
    · exact List.mem_append_right _ held
    · exact List.mem_append_left _ later
  refine ⟨sound.based, sound.low, sound.high, linked, sentinel, start, ?_, ?_, ?_, ?_, apart, ?_, ?_⟩
  · intro c listed
    rw [(agree c listed).size, sound.marked c ((left c).mp listed).1]
  · refine spaced_insert sound.spaced (fun c listed => ?_) (sound.positive_live held)
    exact (sound.separate b held c listed).apart (sound.positive_live held) (sound.positive_free listed)
  · intro c listed
    rcases List.mem_append.mp listed with inserted | old
    · rcases (ends_insert inserted).1 with ⟨d, member, _, larger⟩
      exact Nat.le_trans (sound.positive d (known d member)) larger
    · exact sound.positive_live ((left c).mp old).1
  · intro c listed
    rcases List.mem_append.mp listed with inserted | old
    · rcases ends_insert inserted with ⟨⟨d, first, sameAddr, _⟩, ⟨e, second, sameStop⟩⟩
      rw [sameAddr, sameStop]
      exact ⟨(sound.bounds d (known d first)).1, (sound.bounds e (known e second)).2⟩
    · exact sound.bounds_live ((left c).mp old).1
  · rintro c listed d inserted x ⟨inFirst, inSecond⟩
    rcases (left c).mp listed with ⟨old, ne⟩
    have covered : Covers (insert b blocks) x := ⟨d, inserted, inSecond⟩
    rcases covers_insert.mp covered with inBlock | ⟨e, free, inFree⟩
    · exact sound.apart.forall old held ne x ⟨inFirst, inBlock⟩
    · exact sound.separate c old e free x ⟨inFirst, inFree⟩
  · intro x
    have parts : Covers s.live x <-> b.Has x ∨ Covers live x := by
      constructor
      · rintro ⟨c, listed, has⟩
        by_cases same : c = b
        · exact .inl (same ▸ has)
        · exact .inr ⟨c, (left c).mpr ⟨listed, same⟩, has⟩
      · rintro (has | ⟨c, listed, has⟩)
        · exact ⟨b, held, has⟩
        · exact ⟨c, ((left c).mp listed).1, has⟩
    rw [sound.covered x, covers_append, covers_append, covers_insert, parts, or_assoc]
    exact or_left_comm

/-- The state after `free` has linked the block in behind `p`. -/
def freed (s : State) (b : Block) (p : Nat) : State :=
  { s with
    mem := linkPrev (linkNext s.mem b.addr p) b.addr p
    freep := p
    live := s.live.filter fun c => decide (c.addr ≠ b.addr) }

theorem freed_sound {q : Block} (held : b ∈ s.live)
    (split : ⟨base, 0⟩ :: blocks = front ++ q :: back) (lower : q.addr < b.addr)
    (upper : ∀ c, c ∈ back -> b.addr < c.addr) :
    Sound base (freed s b q.addr) (insert b blocks) := by
  rcases sound.linked_insert held split lower upper with ⟨linked, sentinel, start⟩
  have ring : q ∈ Block.mk base 0 :: blocks := by rw [split]; simp
  have left : ∀ c, c ∈ (s.live.filter fun c => decide (c.addr ≠ b.addr)) <-> c ∈ s.live /\ c ≠ b := by
    intro c
    rw [List.mem_filter, decide_eq_true_eq]
    constructor
    · rintro ⟨listed, other⟩
      exact ⟨listed, fun same => other (by rw [same])⟩
    · rintro ⟨listed, other⟩
      exact ⟨listed, fun same => other (sound.live_unique listed held same)⟩
  refine sound.returned held linked sentinel start (fun c listed => ?_) (sound.apart.filter _) left
  rcases (left c).mp listed with ⟨old, ne⟩
  have pos := sound.positive_live old
  have farBlock := (sound.apart.forall old held ne).far pos (sound.positive_live held)
  have farLast : Far c.addr q.addr := by
    have around := sound.ring_live old ring
    simp only [Far, Block.stop] at *
    omega
  exact (agree_linkNext farBlock).trans (agree_linkPrev farLast)

/-- The loop of `free` ends at the last cell of the ring below the block. -/
theorem walk_below {q : Block} (split : ⟨base, 0⟩ :: blocks = front ++ q :: back)
    (above : base < bp) (lower : q.addr < bp) (upper : ∀ c, c ∈ back -> bp < c.addr)
    (other : ∀ c, c ∈ blocks -> c.addr ≠ bp) {fuel : Nat} (enough : blocks.length < fuel) :
    walk (ptr s.mem) (stops s.mem bp) fuel s.freep = some q.addr := by
  have cells : base :: blocks.map Block.addr = (front ++ q :: back).map Block.addr := by
    rw [<- split]
    rfl
  have order := sound.ascending
  rw [cells, List.map_append, List.map_cons] at order
  have orderFront := (List.pairwise_append.mp order).2.2
  have listed : q.addr ∈ base :: blocks.map Block.addr := by
    rw [cells]
    simp
  have last : ∀ x, x ∈ base :: blocks.map Block.addr -> x < bp -> x <= q.addr := by
    intro x member below
    rw [cells, List.map_append, List.map_cons] at member
    rcases List.mem_append.mp member with early | late
    · exact Nat.le_of_lt (orderFront x early q.addr List.mem_cons_self)
    · rcases List.mem_cons.mp late with rfl | later
      · exact Nat.le_refl _
      · rcases List.mem_map.mp later with ⟨c, known, rfl⟩
        exact absurd (upper c known) (Nat.not_lt_of_gt below)
  have ne : ∀ x, x ∈ blocks.map Block.addr -> x ≠ bp := by
    intro x member
    rcases List.mem_map.mp member with ⟨c, known, rfl⟩
    exact other c known
  rcases sound.linked.track.rotate sound.start with ⟨rest, ring, same⟩
  have length : rest.length < fuel := by
    have equal := same.length_eq
    simp only [List.length_cons, List.length_map] at equal
    omega
  refine ring.walk_eq (same.mem_iff.mpr listed) (fun x member => ?_) length
  exact sound.stops_iff above ne listed lower last (same.mem_iff.mp member)

/-- `free` ends for a live block, and puts it in the list. -/
theorem free (held : b ∈ s.live) : ∃ p,
    Sound base (freed s b p) (insert b blocks) /\ ∀ fuel, blocks.length < fuel ->
      Heap.free fuel s ((b.addr + 8) % 2 ^ 32) = some (freed s b p) := by
  rcases sound.below held with ⟨front, q, back, split, lower, upper⟩
  refine ⟨q.addr, sound.freed_sound held split lower upper, fun fuel enough => ?_⟩
  have bounds := sound.bounds_live held
  have high := sound.high
  have pos := sound.positive_live held
  have header : ((b.addr + 8) % 2 ^ 32 + 2 ^ 32 - 8) % 2 ^ 32 = b.addr := by
    simp only [Block.stop] at bounds
    omega
  have other : ∀ c, c ∈ blocks -> c.addr ≠ b.addr := by
    intro c known
    have far := sound.far_live held known
    rw [Far] at far
    omega
  simp only [Heap.free]
  rw [header, sound.walk_below split (by omega) lower upper other enough]
  rfl

end

end Sound

end Xv6.Heap
