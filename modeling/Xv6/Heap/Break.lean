import Xv6.Heap.Runs
import Xv6.System.Sbrk

namespace Xv6.Heap

open Library (Bytes Track)
open Library.Chain (ending)
open Machine (Word KERNBASE)
open Ownership (Supply)

/-!
# `malloc` over the kernel's `sbrk`

`malloc` counts in units of a header and `sbrk` takes a signed number of bytes.  A count of
`2 ^ 28` units or more is not positive there.  A request that is close to `2 ^ 32` wraps around
before, in the count of the units.

A smaller request is served or refused, unless `sbrk` reports success over a page that is not
there.  A store to such a page faults whenever it is tried, so that a call that comes to one does
not return.  What the free pages allow `allocuvm` to do is an argument, one for each call of
`sbrk`.
-/

/-! ## `sys_sbrk` -/

structure Space where
  /-- `proc->sz` -/
  sz : Word
  /-- The pages in the page table. -/
  mapped : Nat -> Bool

/-- The pages of the first `sz` bytes. -/
def pageCount (sz : Nat) : Nat := (sz + 4095) / 4096

/-- The page that `allocuvm` gets to, unless it fails.  It does not look at what `mappages`
returns, and so does not notice that the last page is missing. -/
def reach (newsz : Nat) : Supply -> Option Nat
  | .full => some (pageCount newsz)
  | .hole => some (pageCount newsz - 1)
  | .fails _ => none

/-- The pages, with those from the end of the process up to `last`. -/
def Space.upTo (p : Space) (last w : Nat) : Bool :=
  p.mapped w || (decide (pageCount p.sz.toNat <= w) && decide (w < last))

/-- What `allocuvm` returns, and the pages after it. -/
def allocuvm (p : Space) (newsz : Nat) (answer : Supply) : Nat × (Nat -> Bool) :=
  if KERNBASE <= newsz then (0, p.mapped)
  else if newsz < p.sz.toNat then (p.sz.toNat, p.mapped)
  else
    match reach newsz answer with
    | some last => (newsz, p.upTo last)
    | none => (0, p.mapped)

def deallocuvm (p : Space) (newsz : Nat) : Nat × (Nat -> Bool) :=
  if p.sz.toNat <= newsz then (p.sz.toNat, p.mapped)
  else (newsz, fun w => p.mapped w && !(decide (newsz <= w * 4096) && decide (w * 4096 < p.sz.toNat)))

/-- The end of `growproc`, and whether it succeeds.  The size 0 is taken for a failure. -/
def resize (p : Space) (result : Nat × (Nat -> Bool)) : Space × Bool :=
  if result.1 = 0 then (⟨p.sz, result.2⟩, false) else (⟨BitVec.ofNat 32 result.1, result.2⟩, true)

def growproc (p : Space) (n : Word) (answer : Supply) : Space × Bool :=
  if 0 < n.toInt then resize p (allocuvm p (p.sz + n).toNat answer)
  else if n.toInt < 0 then resize p (deallocuvm p (p.sz + n).toNat)
  else (p, true)

def sysSbrk (p : Space) (n : Word) (answer : Supply) : Space × Option Nat :=
  let grown := growproc p n answer
  (grown.1, if grown.2 then some p.sz.toNat else none)

/-! ## `malloc` -/

/-- A process, as far as `malloc` is concerned. -/
structure User where
  heap : State
  space : Space

/-- The pages of the bytes from `a` to `z`, which are on at most two. -/
def Space.holds (p : Space) (a z : Nat) : Bool := p.mapped (a / 4096) && p.mapped (z / 4096)

/-- The units that `morecore` asks for. -/
def asked (nu : Nat) : Nat := if nu < 4096 then 4096 else nu

namespace User

def morecore (fuel : Nat) (u : User) (answer : Supply) (nu : Nat) : Option (User × Nat) :=
  let nu := asked nu
  let given := sysSbrk u.space (BitVec.ofNat 32 (nu * 8)) answer
  match given.2 with
  | none => some (⟨u.heap, given.1⟩, 0)
  | some hp =>
    -- The header is stored, here and in `free`.
    if given.1.holds hp (hp + 7) then
      (free fuel (grow u.heap hp nu) ((hp + 8) % 2 ^ 32)).map fun t => (⟨t, given.1⟩, t.freep)
    else none

/-- The block at `p`, which is large enough, is taken.  Of a larger one the tail is, which gets its
size stored. -/
def take (u : User) (nunits prevp p : Nat) : Option (User × Nat) :=
  let taken := Heap.take u.heap nunits prevp p
  if size u.heap.mem p = nunits ∨ u.space.holds (taken.2 - 4) (taken.2 - 1) then
    some (⟨taken.1, u.space⟩, taken.2)
  else none

def mallocLoop (nunits : Nat) : Nat -> List Supply -> User -> Nat -> Nat -> Option (User × Nat)
  | 0, _, _, _, _ => none
  | n + 1, answers, u, prevp, p =>
    if nunits <= size u.heap.mem p then u.take nunits prevp p
    else if p = u.heap.freep then
      match u.morecore n (answers.headD (.fails false)) nunits with
      | none => none
      | some (t, q) =>
        if q = 0 then some (t, 0) else mallocLoop nunits n answers.tail t q (ptr t.heap.mem q)
    else mallocLoop nunits n answers u p (ptr u.heap.mem p)

/-- The first lines of `malloc`. -/
def start (base : Nat) (u : User) : User := ⟨prepare base u.heap, u.space⟩

def malloc (base fuel : Nat) (u : User) (nbytes : Word) (answers : List Supply) :
    Option (User × Nat) :=
  let t := start base u
  mallocLoop (units nbytes.toNat) fuel answers t t.heap.freep (ptr t.heap.mem t.heap.freep)

end User

/-! ## The kernel's `growproc` -/

section Refinement

open Machine Memory Ownership

variable [L : Layout] {ρ : Nat -> Role} {dirs : Finset Nat} {slot : Nat} {p : Space} {n : Word}
  {s t : Kernel}

/-- The size and the pages of a process. -/
def spaceOf (slot : Nat) (s : Kernel) : Space :=
  ⟨(s.ptable slot).sz, fun w => (target (entry s.mem (s.ptable slot).dir w)).isSome⟩

/-- What the free frames let `growproc(n)` do. -/
def answerOf (slot : Nat) (n : Word) (s : Kernel) : Supply :=
  System.supplyOf s (s.ptable slot).dir (s.ptable slot).sz.toNat ((s.ptable slot).sz + n).toNat

/-- What the kernel's `growproc` returns and leaves is `grown`. -/
structure Agrees (slot : Nat) (grown : Space × Bool) (result : Int) (t : Kernel) : Prop where
  result : result = if grown.2 then 0 else -1
  size : (spaceOf slot t).sz = grown.1.sz
  pages : ∀ w, w < 0x80000 -> (spaceOf slot t).mapped w = grown.1.mapped w

omit L in
theorem Agrees.of_resize {sz : Nat} {mapped : Nat -> Bool} (kept : (t.ptable slot).sz = p.sz)
    (pages : ∀ w, w < 0x80000 -> (spaceOf slot t).mapped w = mapped w) :
    Agrees slot (resize p (sz, mapped)) (if sz = 0 then -1 else 0)
      (if sz = 0 then t else System.resized t slot sz) := by
  unfold resize
  by_cases zero : sz = 0
  · rw [if_pos zero, if_pos zero, if_pos zero]
    exact ⟨rfl, kept, pages⟩
  · rw [if_neg zero, if_neg zero, if_neg zero]
    have same : (System.resized t slot sz).ptable slot =
        { t.ptable slot with sz := BitVec.ofNat 32 sz } :=
      Function.update_self ..
    refine ⟨rfl, by rw [spaceOf, same], fun w bounded => ?_⟩
    refine Eq.trans ?_ (pages w bounded)
    simp only [spaceOf, same]
    rfl

/-- The pages up to `last` were added. -/
theorem Agrees.of_partly {ρ' : Nat -> Role} {sz last : Nat} (member : (s.ptable slot).dir ∈ dirs)
    (partly : Partly ρ ρ' dirs (s.ptable slot).dir (pageCount (s.ptable slot).sz.toNat) last s t) :
    Agrees slot (resize (spaceOf slot s) (sz, (spaceOf slot s).upTo last))
      (if sz = 0 then -1 else 0) (if sz = 0 then t else System.resized t slot sz) := by
  have kept : t.ptable = s.ptable := partly.grows.keeps.ptable
  refine .of_resize (by rw [kept]; rfl) fun w bounded => ?_
  change (target (entry t.mem (t.ptable slot).dir w)).isSome =
    ((target (entry s.mem (s.ptable slot).dir w)).isSome ||
    (decide (pageCount (s.ptable slot).sz.toNat <= w) && decide (w < last)))
  rw [kept, <- Bool.decide_and]
  by_cases new : pageCount (s.ptable slot).sz.toNat <= w /\ w < last
  · rw [Option.isSome_iff_ne_none.mpr (partly.present w new.1 new.2), decide_eq_true new, Bool.or_true]
  · rw [partly.entries _ w member (by omega) (fun same => new same.2), decide_eq_false new, Bool.or_false]

theorem growproc_up_agrees (sound : Ownership.Sound ρ (Scope.whole dirs) s)
    (sized : System.Sized dirs slot s) (up : 0 < n.toInt) :
    ∃ result t, Process.growproc slot n s = .ok result t /\
      Agrees slot (growproc (spaceOf slot s) n (answerOf slot n s)) result t := by
  have some := sound.pgdir_ne sized.member
  have sum := System.sum_eq (n := n) sized.small (by omega)
  have size : (spaceOf slot s).sz = (s.ptable slot).sz := rfl
  rw [growproc, if_pos up, allocuvm, size, answerOf]
  by_cases high : KERNBASE <= ((s.ptable slot).sz + n).toNat
  · have run : Memory.allocuvm (s.ptable slot).dir (s.ptable slot).sz.toNat
        ((s.ptable slot).sz + n).toNat s =
        .ok 0 s := by
      rw [Memory.allocuvm, if_pos high]
      rfl
    refine ⟨_, _, System.growproc_up up some run, ?_⟩
    rw [if_pos high]
    exact .of_resize rfl fun w _ => rfl
  · have top : ((s.ptable slot).sz + n).toNat < KERNBASE := Nat.lt_of_not_le high
    have absent : ∀ w, ((s.ptable slot).sz.toNat + 4095) / 4096 <= w ->
        w < (((s.ptable slot).sz + n).toNat + 4095) / 4096 ->
        target (entry s.mem (s.ptable slot).dir w) = none := by
      intro w above below
      unfold KERNBASE at top
      by_contra present
      have inside := (sized.mapped w (by omega)).mp present
      omega
    rcases System.allocuvm_returns sound sized.member (by omega) top absent with ⟨sz, t, run, ρ', done⟩
    rw [if_neg high, if_neg (by omega)]
    cases outcome : System.supplyOf s (s.ptable slot).dir (s.ptable slot).sz.toNat
      ((s.ptable slot).sz + n).toNat with
    | full =>
      rw [outcome] at done
      rcases done with ⟨rfl, grown⟩
      unfold KERNBASE at top
      have partly := grown.partly sound (by omega)
      have kept : t.ptable = s.ptable := partly.grows.keeps.ptable
      exact ⟨_, _, System.growproc_up up (by rw [kept]; exact some) run, .of_partly sized.member partly⟩
    | hole =>
      rw [outcome] at done
      rcases done with ⟨rfl, more, partly, _⟩
      have kept : t.ptable = s.ptable := partly.grows.keeps.ptable
      exact ⟨_, _, System.growproc_up up (by rw [kept]; exact some) run, .of_partly sized.member partly⟩
    | fails leaky =>
      rw [outcome] at done
      rcases done with ⟨rfl, failed, _, _, restored⟩
      have kept : t.ptable = s.ptable := failed.keeps.ptable
      refine ⟨_, _, System.growproc_up up (by rw [kept]; exact some) run, ?_⟩
      refine .of_resize (by rw [kept]; rfl) fun w bounded => ?_
      simp only [spaceOf, kept, (restored absent).entries w (by omega)]

theorem growproc_down_agrees (sound : Ownership.Sound ρ (Scope.whole dirs) s)
    (sized : System.Sized dirs slot s) (down : n.toInt < 0) (answer : Supply) :
    ∃ result t, Process.growproc slot n s = .ok result t /\
      Agrees slot (growproc (spaceOf slot s) n answer) result t := by
  have some := sound.pgdir_ne sized.member
  have size : (spaceOf slot s).sz = (s.ptable slot).sz := rfl
  rw [growproc, if_neg (by omega), if_pos down, deallocuvm, size]
  by_cases more : (s.ptable slot).sz.toNat <= ((s.ptable slot).sz + n).toNat
  · have run : Memory.deallocuvm (s.ptable slot).dir (s.ptable slot).sz.toNat
        ((s.ptable slot).sz + n).toNat s =
        .ok (s.ptable slot).sz.toNat s := by
      rw [Memory.deallocuvm, if_pos more]
      rfl
    refine ⟨_, _, System.growproc_down down some run, ?_⟩
    rw [if_pos more]
    exact .of_resize rfl fun w _ => rfl
  · rcases System.deallocuvm_returns sound sized.member (Nat.lt_of_not_le more) sized.small
      sized.unshared with
      ⟨t, run, ρ', shrunk⟩
    have kept : t.ptable = s.ptable := shrunk.releases.keeps.ptable
    refine ⟨_, _, System.growproc_down down (by rw [kept]; exact some) run, ?_⟩
    rw [if_neg more]
    refine .of_resize (by rw [kept]; rfl) fun w bounded => ?_
    change (target (entry t.mem (t.ptable slot).dir w)).isSome =
      ((target (entry s.mem (s.ptable slot).dir w)).isSome &&
        !(decide (((s.ptable slot).sz + n).toNat <= w * 4096) && decide
          (w * 4096 < (s.ptable slot).sz.toNat)))
    rw [kept, <- Bool.decide_and]
    by_cases gone : ((s.ptable slot).sz + n).toNat <= w * 4096 /\ w * 4096 < (s.ptable slot).sz.toNat
    · rw [System.entry_of_shrunk sized shrunk gone.1 gone.2, target_zero, decide_eq_true gone,
        Bool.not_true, Bool.and_false]
      rfl
    · rw [decide_eq_false gone, Bool.not_false, Bool.and_true]
      rcases shrunk.entries w (by omega) with same | ⟨above, below, _⟩
      · rw [same]
      · have top := sized.small
        unfold KERNBASE at top
        rw [PGROUNDUP_eq (by omega)] at above
        omega

/-- The kernel's `growproc` always returns, with the size and exactly the pages of the model. -/
theorem growproc_agrees (sound : Ownership.Sound ρ (Scope.whole dirs) s)
    (sized : System.Sized dirs slot s) (n : Word) :
    ∃ result t, Process.growproc slot n s = .ok result t /\
      Agrees slot (growproc (spaceOf slot s) n (answerOf slot n s)) result t := by
  rcases Int.lt_trichotomy n.toInt 0 with down | zero | up
  · exact growproc_down_agrees sound sized down _
  · refine ⟨_, _, System.growproc_zero (n := n) sound sized zero, ?_⟩
    rw [growproc, if_neg (by omega), if_neg (by omega)]
    exact ⟨rfl, rfl, fun w _ => rfl⟩
  · exact growproc_up_agrees sound sized up

omit L in
theorem growproc_agrees_page : ∃ result t,
    Process.growproc (L := kernelSym) 0 4096#32 (System.bare [0x301, 0x302]) = .ok result t /\
      Agrees 0 (growproc (spaceOf 0 (System.bare [0x301, 0x302])) 4096#32
        (answerOf 0 4096#32 (System.bare [0x301, 0x302]))) result t :=
  growproc_agrees (L := kernelSym) (System.bare_sound (L := kernelSym) (by decide) (by decide)
    (by decide)) (System.bare_sized _) 4096#32

end Refinement

/-! ## What `sbrk` does with the count -/

section Growproc

variable {p : Space} {answer : Supply} {nunits : Nat}

theorem toNat_ofNat_small {k : Nat} (small : k < 2 ^ 32) : (BitVec.ofNat 32 k).toNat = k := by
  rw [BitVec.toNat_ofNat]
  exact Nat.mod_eq_of_lt small

theorem asked_bounds (few : nunits < 2 ^ 28) :
    nunits <= asked nunits /\ 4096 <= asked nunits /\ asked nunits < 2 ^ 28 := by
  unfold asked
  split <;> omega

/-- The size of the process after `morecore`, if all goes well. -/
def Space.newsz (p : Space) (nunits : Nat) : Nat := p.sz.toNat + asked nunits * 8

/-- The count is positive. -/
theorem growproc_up (few : nunits < 2 ^ 28) (below : p.sz.toNat < KERNBASE) :
    growproc p (BitVec.ofNat 32 (asked nunits * 8)) answer =
      resize p (allocuvm p (p.newsz nunits) answer) := by
  have bounds := asked_bounds few
  unfold KERNBASE at below
  have count : (BitVec.ofNat 32 (asked nunits * 8)).toInt = (asked nunits * 8 : Nat) := by
    rw [BitVec.toInt_eq_toNat_cond, toNat_ofNat_small (by omega), if_pos (by omega)]
  have sum : (p.sz + BitVec.ofNat 32 (asked nunits * 8)).toNat = p.newsz nunits := by
    rw [BitVec.toNat_add, toNat_ofNat_small (by omega), Nat.mod_eq_of_lt (by omega), Space.newsz]
  rw [growproc, if_pos (by omega), sum]

end Growproc

/-! ## The search -/

namespace User

variable {base nunits : Nat} {u t : User} {blocks : List Block}

theorem mallocLoop_skip {a z : Nat} {cells : List Nat} (track : Track (ptr u.heap.mem) a cells z)
    (small : ∀ x, x ∈ cells -> size u.heap.mem x < nunits /\ x ≠ u.heap.freep) (n : Nat)
    (answers : List Supply) :
    mallocLoop nunits (n + cells.length) answers u a (ptr u.heap.mem a) =
      mallocLoop nunits n answers u (ending a cells) z := by
  induction cells generalizing a with
  | nil => rw [show ptr u.heap.mem a = z from track]; rfl
  | cons c rest ih =>
    rcases small c List.mem_cons_self with ⟨less, other⟩
    rw [List.length_cons, <- Nat.add_assoc, mallocLoop, track.1, if_neg (Nat.not_le_of_lt less),
      if_neg other]
    exact ih track.2 (fun x listed => small x (List.mem_cons_of_mem _ listed))

/-- With enough fuel this is the result of a call, or there is none. -/
def Ends (nunits : Nat) (answers : List Supply) (u : User) (result : Option (User × Nat)) : Prop :=
  ∃ n, ∀ fuel, n <= fuel ->
    mallocLoop nunits fuel answers u u.heap.freep (ptr u.heap.mem u.heap.freep) = result

theorem Ends.unique {answers : List Supply} {one other : Option (User × Nat)}
    (first : Ends nunits answers u one) (second : Ends nunits answers u other) : one = other := by
  rcases first with ⟨n, ends⟩
  rcases second with ⟨n', ends'⟩
  exact (ends (n + n') (Nat.le_add_right _ _)).symm.trans (ends' (n + n') (Nat.le_add_left _ _))

/-- `malloc` comes to a block of the list that is large enough. -/
structure Found (base : Nat) (u : User) (nunits : Nat) (d : Block) (taken : State × Nat) : Prop where
  gave : Sound.Gave base u.heap.live nunits taken
  address : taken.2 = d.stop + 8 - 8 * nunits
  top : taken.1.top = u.heap.top
  inside : d.stop <= u.heap.top
  sized : size u.heap.mem d.addr = d.size
  fits : nunits <= d.size

/-- If a free block is large enough, one is taken unless the header of its tail cannot be stored. -/
theorem search (sound : Sound base u.heap blocks) (high : u.heap.top < 2 ^ 32) (pos : 1 <= nunits)
    {c : Block} (listed : c ∈ blocks) (fits : nunits <= c.size) (answers : List Supply) :
    ∃ d prevp, d ∈ blocks /\
      Found base u nunits d (Heap.take u.heap nunits prevp d.addr) /\
      Ends nunits answers u (u.take nunits prevp d.addr) := by
  rcases sound.find pos listed fits with ⟨front, d, known, enough, before, passed, short, ring⟩
  rcases sound.take known ring before.next_ending pos enough with ⟨gave, address⟩
  have bound := (sound.bounds_free known).2
  have sized := sound.linked.sizes d known
  refine ⟨d, _, known, ⟨gave, ?_, ?_, bound, sized, enough⟩, blocks.length + 1, fun fuel room => ?_⟩
  · rw [address]
    exact Nat.mod_eq_of_lt (by omega)
  · unfold Heap.take
    by_cases whole : size u.heap.mem d.addr = nunits
    · rw [if_pos whole]
    · rw [if_neg whole]
  · obtain ⟨n, rfl⟩ : ∃ n, fuel = n + 1 + front.length := ⟨fuel - 1 - front.length, by omega⟩
    rw [mallocLoop_skip before passed, mallocLoop, if_pos (by rw [sized]; exact enough)]

/-- If no free block is large enough, more memory is asked for after one round. -/
theorem exhaust (sound : Sound base u.heap blocks) (pos : 1 <= nunits)
    (small : ∀ c, c ∈ blocks -> c.size < nunits) (n : Nat) (answers : List Supply) :
    mallocLoop nunits (n + 1 + blocks.length) answers u u.heap.freep (ptr u.heap.mem u.heap.freep) =
      match u.morecore n (answers.headD (.fails false)) nunits with
      | none => none
      | some (t, q) =>
        if q = 0 then some (t, 0) else mallocLoop nunits n answers.tail t q (ptr t.heap.mem q) := by
  rcases sound.pass pos small with ⟨cells, track, passed, less, length, _⟩
  rw [<- length, mallocLoop_skip track passed, mallocLoop, if_neg (Nat.not_le_of_lt less)]
  exact if_pos rfl

variable {answers : List Supply} {hp ap : Nat}

/-- The memory of the heap lies in the process, and all pages of the process are there. -/
structure Inside (u : User) : Prop where
  top : u.heap.top <= u.space.sz.toNat
  below : u.space.sz.toNat < KERNBASE
  pages : ∀ w, u.space.mapped w = true <-> w < pageCount u.space.sz.toNat

theorem Inside.upTo_iff (inside : Inside u) {last w : Nat} :
    u.space.upTo last w = true <-> w < pageCount u.space.sz.toNat ∨ w < last := by
  rw [Space.upTo, Bool.or_eq_true, Bool.and_eq_true, decide_eq_true_iff, decide_eq_true_iff, inside.pages]
  omega

/-- The bytes after the header of the block at `ap`. -/
def usable (m : Bytes) (ap : Nat) : Nat := 8 * (size m (ap - 8) - 1)

/-- What is asked of a call of `malloc` that returns `ap`. -/
structure Good (u : User) (nbytes : Nat) (t : User) (ap : Nat) : Prop where
  block : ap = 0 ∨ nbytes <= usable t.heap.mem ap /\ ap + usable t.heap.mem ap <= t.space.sz.toNat /\
    ∀ x, ap <= x -> x < ap + usable t.heap.mem ap -> t.space.mapped (x / 4096) = true
  size : u.space.sz.toNat <= t.space.sz.toNat
  pages : ∀ w, u.space.mapped w = true -> t.space.mapped w = true

variable {d : Block}

theorem Found.block {taken : State × Nat} (found : Found base u nunits d taken)
    (high : u.heap.top < 2 ^ 32) :
    taken.2 ≠ 0 /\ usable taken.1.mem taken.2 = 8 * (nunits - 1) := by
  rcases found.gave with ⟨blocks', b, sound, live, units, address⟩
  have held : b ∈ taken.1.live := by
    rw [live]
    exact List.mem_cons_self
  have bounds := sound.bounds_live held
  have some := sound.positive_live held
  have top := found.top
  simp only [Block.stop] at bounds
  have placed : taken.2 = b.addr + 8 := address.trans (Nat.mod_eq_of_lt (by omega))
  have back : taken.2 - 8 = b.addr := by omega
  refine ⟨by omega, ?_⟩
  rw [usable, back, sound.marked b held, units]

variable {nbytes : Nat}

/-- A block that was found is good if all pages of the process are there. -/
theorem Found.good {taken : State × Nat} (found : Found base t nunits d taken)
    (inside : Inside t) (pos : 1 <= nunits) (enough : nbytes <= 8 * (nunits - 1))
    (size : u.space.sz.toNat <= t.space.sz.toNat)
    (pages : ∀ w, u.space.mapped w = true -> t.space.mapped w = true) :
    Good u nbytes ⟨taken.1, t.space⟩ taken.2 := by
  have below := inside.below
  have top := inside.top
  have within := found.inside
  have fits := found.fits
  have address := found.address
  unfold KERNBASE at below
  rcases found.block (by omega) with ⟨_, count⟩
  have stop : d.stop = d.addr + 8 * d.size := rfl
  refine ⟨.inr ⟨by rw [count]; exact enough, ?_, fun x _ less => ?_⟩, size, pages⟩
  · change taken.2 + usable taken.1.mem taken.2 <= t.space.sz.toNat
    omega
  · change x < taken.2 + usable taken.1.mem taken.2 at less
    refine (inside.pages _).mpr ?_
    unfold pageCount
    omega

/-- The header of the tail of the block can be stored. -/
theorem Found.take {prevp : Nat}
    (found : Found base u nunits d (Heap.take u.heap nunits prevp d.addr)) (inside : Inside u)
    (pos : 1 <= nunits) : u.take nunits prevp d.addr =
      some (⟨(Heap.take u.heap nunits prevp d.addr).1, u.space⟩,
        (Heap.take u.heap nunits prevp d.addr).2) := by
  have top := inside.top
  have within := found.inside
  have fits := found.fits
  have address := found.address
  have stop : d.stop = d.addr + 8 * d.size := rfl
  have held : u.space.holds ((Heap.take u.heap nunits prevp d.addr).2 - 4)
      ((Heap.take u.heap nunits prevp d.addr).2 - 1) = true := by
    rw [Space.holds, Bool.and_eq_true, inside.pages, inside.pages]
    unfold pageCount
    omega
  exact if_pos (.inr held)

/-- The size of the tail cannot be stored. -/
theorem Found.stuck {prevp : Nat}
    (found : Found base t nunits d (Heap.take t.heap nunits prevp d.addr))
    (larger : nunits < d.size)
    (missing : t.space.mapped ((d.stop + 7 - 8 * nunits) / 4096) = false) :
    t.take nunits prevp d.addr = none := by
  refine if_neg (not_or.mpr ⟨?_, fun held => ?_⟩)
  · rw [found.sized]
    omega
  · rw [Space.holds, Bool.and_eq_true, found.address,
      show d.stop + 8 - 8 * nunits - 1 = d.stop + 7 - 8 * nunits by omega, missing] at held
    exact Bool.false_ne_true held.2

/-- If the last page of the block is missing, so is its last byte, or the size of the tail cannot be
stored. -/
theorem Found.missing {prevp nbytes : Nat}
    (found : Found base t nunits d (Heap.take t.heap nunits prevp d.addr))
    (high : t.heap.top < 2 ^ 32) (pos : 1 <= nunits) (larger : 1 < d.size)
    (missing : t.space.mapped ((d.stop - 1) / 4096) = false) {v : User}
    (taken : t.take nunits prevp d.addr = some (v, ap)) : ¬ Good u nbytes v ap := by
  have stop : d.stop = d.addr + 8 * d.size := rfl
  have fits := found.fits
  have address := found.address
  rcases found.block high with ⟨some, count⟩
  by_cases one : nunits = 1
  · rw [found.stuck (by omega) (by rw [<- missing]; congr 2; omega)] at taken
    cases taken
  · obtain ⟨rfl, rfl⟩ := Prod.mk.inj (Option.some.inj (Option.ite_none_right_eq_some.mp taken).2)
    intro good
    rcases good.block with null | ⟨_, _, there⟩
    · exact some null
    · have mapped := there (d.stop - 1) (by omega) (by
        change _ < _ + usable (Heap.take t.heap nunits prevp d.addr).1.mem _
        omega)
      change t.space.mapped _ = true at mapped
      rw [missing] at mapped
      exact Bool.false_ne_true mapped

/-! ## The call -/

/-- `malloc` returns this process and pointer. -/
def Returns (base : Nat) (u : User) (nbytes : Word) (answers : List Supply) (t : User)
    (ap : Nat) : Prop :=
  ∃ n, ∀ fuel, n <= fuel -> malloc base fuel u nbytes answers = some (t, ap)

/-- The heap when the search starts. -/
theorem started (based : 0 < base) (kept : Kept base u.heap) (inside : Inside u) :
    Inside (start base u) /\ ∃ blocks, Sound base (start base u).heap blocks := by
  have below := inside.below
  have top := inside.top
  unfold KERNBASE at below
  have placed : base + 8 <= 2 ^ 32 := by
    rcases kept with fresh | ⟨blocks, sound⟩
    · have first := fresh.top
      omega
    · have low := sound.low
      omega
  have same : (prepare base u.heap).top = u.heap.top := by
    unfold prepare
    split <;> rfl
  refine ⟨⟨?_, inside.below, inside.pages⟩, (kept.prepare based placed).2⟩
  change (prepare base u.heap).top <= _
  rw [same]
  exact top

/-- The process after a growth that left out no page. -/
theorem Inside.grown (inside : Inside u) (room : u.space.newsz nunits < KERNBASE)
    (top : t.heap.top = u.space.newsz nunits)
    (space : t.space =
      ⟨BitVec.ofNat 32 (u.space.newsz nunits), u.space.upTo (pageCount (u.space.newsz nunits))⟩) :
    Inside t /\ u.space.sz.toNat <= t.space.sz.toNat /\
      ∀ w, u.space.mapped w = true -> t.space.mapped w = true := by
  have larger : u.space.sz.toNat <= u.space.newsz nunits := Nat.le_add_right _ _
  have size : t.space.sz.toNat = u.space.newsz nunits := by
    unfold KERNBASE at room
    rw [space, toNat_ofNat_small (by omega)]
  refine ⟨⟨by omega, by omega, fun w => ?_⟩, by omega, fun w there => ?_⟩
  · rw [size, space, inside.upTo_iff]
    unfold pageCount
    omega
  · rw [space]
    exact inside.upTo_iff.mpr (.inl ((inside.pages w).mp there))

/-- A process with no heap yet. -/
def fresh (sz : Word) : User := ⟨boot 8 fun _ => 0#8, sz, fun w => decide (w < pageCount sz.toNat)⟩

-- There are eight frames for eight pages, and none for the second page table.
example : Ownership.supply 8 {0} 0x3F9 8 = .hole := by decide

end User

end Xv6.Heap
