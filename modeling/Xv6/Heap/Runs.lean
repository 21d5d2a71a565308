import Xv6.Heap.Malloc

namespace Xv6.Heap

open Library (Bytes GuardedRun Track checked walk)

/-!
# Runs of the heap

Until the first `malloc` the heap has no ring; from then on the ring is sound.
-/

variable {base : Nat} {s t : State} {blocks : List Block}

/-! ## More fuel -/

variable {n k : Nat} {label : Label}

theorem free_le {ap : Nat} (done : free n s ap = some t) (more : n <= k) :
    free k s ap = some t := by
  rcases Option.map_eq_some_iff.mp done with ⟨p, found, rfl⟩
  rw [free, Library.walk_le found more]
  rfl

theorem morecore_le {nu : Nat} {gap : Option Nat} {result : State × Nat}
    (done : morecore n s gap nu = some result) (more : n <= k) :
    morecore k s gap nu = some result := by
  simp only [morecore] at *
  cases answer : sbrk s gap ((if nu < 4096 then 4096 else nu) * 8 % 2 ^ 32) with
  | none =>
    rw [answer] at done
    exact done
  | some hp =>
    rw [answer] at done
    rcases Option.map_eq_some_iff.mp done with ⟨t, freed, rfl⟩
    simp only [free_le freed more, Option.map_some]

theorem mallocLoop_le {nunits : Nat} {result : State × Nat} :
    ∀ {n k : Nat} {gaps : List (Option Nat)} {s : State}
    {prevp p : Nat}, mallocLoop nunits n gaps s prevp p = some result -> n <= k ->
    mallocLoop nunits k gaps s prevp p = some result := by
  intro n
  induction n with
  | zero =>
    intro k gaps s prevp p done more
    cases done
  | succ n ih =>
    intro k gaps s prevp p done more
    obtain ⟨k, rfl⟩ : ∃ m, k = m + 1 := ⟨k - 1, by omega⟩
    have less := Nat.le_of_succ_le_succ more
    rw [mallocLoop] at *
    by_cases fits : nunits <= size s.mem p
    · rw [if_pos fits] at *
      exact done
    · rw [if_neg fits] at *
      by_cases last : p = s.freep
      · rw [if_pos last] at *
        cases answer : morecore n s (gaps.headD none) nunits with
        | none =>
          rw [answer] at done
          cases done
        | some given =>
          rw [answer] at done
          rw [morecore_le answer less]
          simp only [] at *
          by_cases null : given.2 = 0
          · rw [if_pos null] at *
            exact done
          · rw [if_neg null] at *
            exact ih done less
      · rw [if_neg last] at *
        exact ih done less

theorem perform_le (done : perform base n s label = some t) (more : n <= k) :
    perform base k s label = some t := by
  cases label with
  | malloc nbytes gaps =>
    rcases Option.map_eq_some_iff.mp done with ⟨result, called, rfl⟩
    rw [perform, show malloc base k s nbytes gaps = some result from mallocLoop_le called more]
    rfl
  | free ap => exact free_le done more
  | store x v => exact done

/-! ## Before the first call -/

structure Fresh (base : Nat) (s : State) : Prop where
  unset : s.freep = 0
  top : s.top = base + 8
  obtained : s.obtained = []
  live : s.live = []

def Kept (base : Nat) (s : State) : Prop := Fresh base s ∨ ∃ blocks, Sound base s blocks

theorem Fresh.prepare (fresh : Fresh base s) (based : 0 < base) (placed : base + 8 <= 2 ^ 32) :
    Sound base (prepare base s) [] := by
  have links : ptr (setSize (setPtr s.mem base base) base 0) base = base := by
    rw [ptr_setSize, ptr_setPtr (by omega)]
  have sized : size (setSize (setPtr s.mem base base) base 0) base = 0 := size_setSize (by decide)
  rw [Heap.prepare, if_pos fresh.unset]
  generalize setSize (setPtr s.mem base base) base 0 = n at links sized
  have linked : Linked n base [] base := ⟨links, fun c listed => absurd listed List.not_mem_nil⟩
  refine ⟨based, ?_, ?_, linked, sized, List.mem_cons_self, ?_, List.Pairwise.nil, ?_, ?_, ?_, ?_, ?_⟩
  all_goals simp only [fresh.top, fresh.live, fresh.obtained]
  · exact Nat.le_refl _
  · exact placed
  all_goals simp

theorem Kept.prepare (kept : Kept base s) (based : 0 < base) (placed : base + 8 <= 2 ^ 32) :
    (prepare base s).live = s.live /\ ∃ blocks, Sound base (prepare base s) blocks := by
  rcases kept with fresh | ⟨blocks, sound⟩
  · refine ⟨?_, [], fresh.prepare based placed⟩
    rw [Heap.prepare, if_pos fresh.unset]
  · rw [Heap.prepare, if_neg sound.freep_pos]
    exact ⟨rfl, blocks, sound⟩

/-! ## The calls -/

/-- `malloc` returns this state and pointer. -/
def Returns (base : Nat) (s : State) (nbytes : Nat) (gaps : List (Option Nat)) (t : State)
    (ap : Nat) : Prop :=
  ∃ n, ∀ fuel, n <= fuel -> malloc base fuel s nbytes gaps = some (t, ap)

theorem Kept.malloc (kept : Kept base s) (based : 0 < base) (placed : base + 8 <= 2 ^ 32)
    {nbytes : Nat} (small : nbytes < 2 ^ 30) (gaps : List (Option Nat)) : ∃ t ap,
    Returns base s nbytes gaps t ap /\ (∃ blocks, Sound base t blocks) /\
      ((t.live = s.live /\ ap = 0) ∨ ∃ b,
        t.live = b :: s.live /\ ap = (b.addr + 8) % 2 ^ 32 /\ nbytes <= 8 * (b.size - 1)) := by
  rcases kept.prepare based placed with ⟨live, blocks, sound⟩
  have counted : 1 <= units nbytes /\ units nbytes < 2 ^ 28 /\ nbytes <= 8 * (units nbytes - 1) := by
    rw [units]
    omega
  rcases sound.mallocLoop counted.1 counted.2.1 gaps with ⟨⟨t, ap⟩, outcome, n, ends⟩
  refine ⟨t, ap, ⟨n, ends⟩, ?_⟩
  rcases outcome with failed | ⟨blocks', b, sound', given, size, address⟩
  · obtain ⟨rfl, rfl⟩ := Prod.mk.inj failed
    exact ⟨⟨blocks, sound⟩, .inl ⟨live, rfl⟩⟩
  · refine ⟨⟨blocks', sound'⟩, .inr ⟨b, ?_, address, ?_⟩⟩
    · rw [<- live]
      exact given
    · rw [size]
      exact counted.2.2

theorem agree_byte {m : Bytes} {x y : Nat} {v : BitVec 8} (outside : ¬ (y <= x /\ x < y + 8)) :
    Agree m (fun z => if z = x then v else m z) y := by
  constructor
  · refine Bytes.load_congr fun z low high => if_neg ?_
    omega
  · refine Bytes.load_congr fun z low high => if_neg ?_
    omega

/-- A store of the program meets no header of the heap. -/
theorem Sound.store (sound : Sound base s blocks) {x : Nat} (writable : Writable base s x)
    (v : BitVec 8) : Sound base { s with mem := fun y => if y = x then v else s.mem y } blocks := by
  have atBase : Agree s.mem (fun y => if y = x then v else s.mem y) base := agree_byte writable.1
  have agree : ∀ c, c ∈ blocks ++ s.live ->
      Agree s.mem (fun y => if y = x then v else s.mem y) c.addr := by
    refine fun c listed => agree_byte fun header => ?_
    have pos := sound.positive c listed
    have has : c.Has x := by
      simp only [Block.Has, Block.stop]
      omega
    rcases writable.2 ((sound.covered x).mpr ⟨c, listed, has⟩) with ⟨b, held, low, high⟩
    have inBlock : b.Has x := ⟨by omega, high⟩
    rcases List.mem_append.mp listed with free | live
    · exact sound.separate b held c free x ⟨inBlock, has⟩
    · have ne : b ≠ c := by
        intro same
        rw [same] at low
        omega
      exact sound.apart.forall held live ne x ⟨inBlock, has⟩
  exact sound.congr atBase agree

/-- Every call that a caller may make ends, and leaves the heap sound. -/
theorem Kept.progress (kept : Kept base s) (based : 0 < base) (placed : base + 8 <= 2 ^ 32)
    (proper : Proper base s label) : ∃ t, Step base s label t /\ Kept base t := by
  cases label with
  | malloc nbytes gaps =>
    rcases kept.malloc based placed proper gaps with ⟨t, ap, ⟨n, ends⟩, sound, _⟩
    refine ⟨t, ⟨n, fun fuel long => ?_⟩, .inr sound⟩
    rw [perform, ends fuel long]
    rfl
  | free ap =>
    rcases proper with ⟨b, held, rfl⟩
    rcases kept with fresh | ⟨blocks, sound⟩
    · rw [fresh.live] at held
      exact absurd held List.not_mem_nil
    · rcases sound.free held with ⟨p, sound', ends⟩
      exact ⟨_, ⟨blocks.length + 1, ends⟩, .inr ⟨_, sound'⟩⟩
  | store x v =>
    refine ⟨_, ⟨0, fun fuel _ => rfl⟩, ?_⟩
    rcases kept with fresh | ⟨blocks, sound⟩
    · exact .inl ⟨fresh.unset, fresh.top, fresh.obtained, fresh.live⟩
    · exact .inr ⟨blocks, sound.store proper v⟩

theorem Step.unique {t' : State} (first : Step base s label t) (second : Step base s label t') :
    t = t' := by
  rcases first with ⟨n, ends⟩
  rcases second with ⟨n', ends'⟩
  exact Option.some.inj ((ends (n + n') (Nat.le_add_right _ _)).symm.trans
    (ends' (n + n') (Nat.le_add_left _ _)))

theorem Step.kept (based : 0 < base) (placed : base + 8 <= 2 ^ 32) (proper : Proper base s label)
    (step : Step base s label t) (kept : Kept base s) : Kept base t := by
  rcases kept.progress based placed proper with ⟨t', taken, kept'⟩
  rw [step.unique taken]
  exact kept'

/-! ## What holds in every run -/

/-- The free list is the ring of the blocks, entered at the sentinel, and the live and the free
blocks divide the memory that was obtained. -/
structure Arranged (base : Nat) (s : State) (blocks : List Block) : Prop where
  ring : Track (ptr s.mem) base (blocks.map Block.addr) base
  entered : s.freep ∈ base :: blocks.map Block.addr
  sizes : ∀ b, b ∈ blocks -> size s.mem b.addr = b.size
  spaced : Spaced blocks
  above : ∀ b, b ∈ blocks ++ s.live -> base + 8 <= b.addr /\ 1 <= b.size
  disjoint : (blocks ++ s.live).Pairwise Disjoint
  divided : ∀ x, Covers s.obtained x <-> ExistsUnique fun b => b ∈ blocks ++ s.live /\ b.Has x

theorem Sound.arranged (sound : Sound base s blocks) : Arranged base s blocks := by
  have disjoint : (blocks ++ s.live).Pairwise Disjoint :=
    List.pairwise_append.mpr ⟨sound.free_disjoint, sound.apart, fun c free b held =>
      (sound.separate b held c free).symm⟩
  refine ⟨sound.linked.track, sound.start, sound.linked.sizes, sound.spaced, ?_, disjoint, fun x => ?_⟩
  · exact fun b listed => ⟨(sound.bounds b listed).1, sound.positive b listed⟩
  · rw [sound.covered x]
    constructor
    · rintro ⟨b, listed, has⟩
      refine ⟨b, ⟨listed, has⟩, fun c other => ?_⟩
      by_contra ne
      exact disjoint.forall other.1 listed ne x ⟨other.2, has⟩
    · rintro ⟨b, inside, _⟩
      exact ⟨b, inside⟩

/-- In every run of proper calls and stores the heap is arranged, every further call ends, and
`malloc` fails or returns a block that is large enough. -/
theorem heap_arranged (based : 0 < base) (placed : base + 8 <= 2 ^ 32) {mem : Bytes}
    {labels : List Label} (run : GuardedRun (Step base) (Proper base) (boot base mem) labels s) :
    ((s.freep = 0 /\ s.obtained = [] /\ s.live = []) ∨ ∃ blocks, Arranged base s blocks) /\
      (∀ label, Proper base s label -> ∃ t, Step base s label t) /\
      ∀ nbytes gaps, nbytes < 2 ^ 30 -> ∃ t ap, Returns base s nbytes gaps t ap /\
        ((t.live = s.live /\ ap = 0) ∨ ∃ b,
          t.live = b :: s.live /\ ap = (b.addr + 8) % 2 ^ 32 /\ nbytes <= 8 * (b.size - 1)) := by
  have kept : Kept base s :=
    run.invariant (fun s label t proper step kept => step.kept based placed proper kept)
      (.inl ⟨rfl, rfl, rfl, rfl⟩)
  refine ⟨?_, fun label proper => ?_, fun nbytes gaps small => ?_⟩
  · rcases kept with fresh | ⟨blocks, sound⟩
    · exact .inl ⟨fresh.unset, fresh.obtained, fresh.live⟩
    · exact .inr ⟨blocks, sound.arranged⟩
  · rcases kept.progress based placed proper with ⟨t, step, _⟩
    exact ⟨t, step⟩
  · rcases kept.malloc based placed small gaps with ⟨t, ap, returns, _, outcome⟩
    exact ⟨t, ap, returns, outcome⟩

instance (blocks : List Block) (x : Nat) : Decidable (Covers blocks x) :=
  inferInstanceAs (Decidable (∃ b, b ∈ blocks /\ b.Has x))

instance (base : Nat) (s : State) (x : Nat) : Decidable (Writable base s x) :=
  inferInstanceAs (Decidable (_ /\ (_ -> ∃ b, b ∈ s.live /\ (b.addr + 8 <= x /\ x < b.stop))))

instance (base : Nat) (s : State) (label : Label) : Decidable (Proper base s label) :=
  match label with
  | .malloc nbytes _ => inferInstanceAs (Decidable (nbytes < 2 ^ 30))
  | .free ap => inferInstanceAs (Decidable (∃ b, b ∈ s.live /\ ap = (b.addr + 8) % 2 ^ 32))
  | .store x _ => inferInstanceAs (Decidable (Writable base s x))

/-- Three blocks are taken, of which the first two are freed again in the order in which they were
taken; then a large block needs a second region, which touches the first. -/
def reused : List Label :=
  [.malloc 100 [some 0], .malloc 20 [], .malloc 8 [], .store 32680 7, .free 32680, .free 32648,
    .malloc 40000 [some 0]]

theorem heap_arranged_reused : ∃ s,
    GuardedRun (Step 8) (Proper 8) (boot 8 fun _ => 0) reused s /\
    s.live = [⟨32784, 5001⟩, ⟨32624, 2⟩] /\
      (∃ blocks, Arranged 8 s blocks) := by
  have outcome : (checked (Proper 8) (perform 8 20) (boot 8 fun _ => 0) reused).map
      (fun s => (s.freep, s.live)) = some (16, [⟨32784, 5001⟩, ⟨32624, 2⟩]) := by
    decide +kernel
  rcases Option.map_eq_some_iff.mp outcome with ⟨s, done, values⟩
  have run : GuardedRun (Step 8) (Proper 8) (boot 8 fun _ => 0) reused s :=
    (GuardedRun.of_checked done).imp fun _ _ _ performed =>
      ⟨20, fun fuel more => perform_le performed more⟩
  obtain ⟨entered, live⟩ := Prod.mk.inj values
  refine ⟨s, run, live, ?_⟩
  rcases (heap_arranged (by decide) (by decide) run).1 with ⟨unset, _⟩ | arranged
  · rw [entered] at unset
    cases unset
  · exact arranged

end Xv6.Heap
