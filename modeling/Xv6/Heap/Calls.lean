import Xv6.Heap.Blocks
import Xv6.Library.ByteMemory
import Xv6.Library.GuardedRun
import Xv6.Library.Track

namespace Xv6.Heap

open Library (Bytes walk)

/-!
# The user heap

`malloc`, `free` and `morecore` of `umalloc.c` over a memory of bytes.  A header
is a pointer and a size, each a word; pointers are 32-bit and sums of them wrap.
The heap keeps, beside what the program has, the end of the memory that `sbrk` has
given out, the regions it gave out, and the blocks in the hands of the caller.
-/

/-- `p->s.ptr` -/
def ptr (m : Bytes) (p : Nat) : Nat := m.load p

/-- `p->s.size` -/
def size (m : Bytes) (p : Nat) : Nat := m.load (p + 4)

def setPtr (m : Bytes) (p v : Nat) : Bytes := m.store p v

def setSize (m : Bytes) (p v : Nat) : Bytes := m.store (p + 4) v

/-- `p + p->s.size`, in units of a header. -/
def past (m : Bytes) (p : Nat) : Nat := (p + 8 * size m p) % 2 ^ 32

structure State where
  mem : Bytes
  freep : Nat
  top : Nat
  obtained : List Block
  live : List Block

/-! ## free -/

/-- The loop of `free` ends at `p`: by its condition, or by the `break`. -/
def stops (m : Bytes) (bp p : Nat) : Bool :=
  (decide (p < bp) && decide (bp < ptr m p)) ||
    (decide (ptr m p <= p) && (decide (p < bp) || decide (bp < ptr m p)))

def linkNext (m : Bytes) (bp p : Nat) : Bytes :=
  if past m bp = ptr m p then
    let m := setSize m bp ((size m bp + size m (ptr m p)) % 2 ^ 32)
    setPtr m bp (ptr m (ptr m p))
  else setPtr m bp (ptr m p)

def linkPrev (m : Bytes) (bp p : Nat) : Bytes :=
  if past m p = bp then
    let m := setSize m p ((size m p + size m bp) % 2 ^ 32)
    setPtr m p (ptr m bp)
  else setPtr m p bp

def free (fuel : Nat) (s : State) (ap : Nat) : Option State :=
  let bp := (ap + 2 ^ 32 - 8) % 2 ^ 32
  (walk (ptr s.mem) (stops s.mem bp) fuel s.freep).map fun p =>
    { s with
      mem := linkPrev (linkNext s.mem bp p) bp p
      freep := p
      live := s.live.filter fun b => decide (b.addr ≠ bp) }

/-! ## malloc -/

/-- `sbrk` fails, or gives memory that starts `gap` bytes above all that it gave before. -/
def sbrk (s : State) (gap : Option Nat) (n : Nat) : Option Nat :=
  gap.bind fun g => if s.top + g + n <= 2 ^ 32 then some (s.top + g) else none

/-- A fresh region is a block that `free` then puts in the list. -/
def grow (s : State) (hp nu : Nat) : State :=
  { s with
    mem := setSize s.mem hp nu
    top := hp + 8 * nu
    obtained := ⟨hp, nu⟩ :: s.obtained
    live := ⟨hp, nu⟩ :: s.live }

def morecore (fuel : Nat) (s : State) (gap : Option Nat) (nu : Nat) : Option (State × Nat) :=
  let nu := if nu < 4096 then 4096 else nu
  match sbrk s gap (nu * 8 % 2 ^ 32) with
  | none => some (s, 0)
  | some hp => (free fuel (grow s hp nu) ((hp + 8) % 2 ^ 32)).map fun t => (t, t.freep)

/-- The block at `p` is taken, or its tail is. -/
def take (s : State) (nunits prevp p : Nat) : State × Nat :=
  if size s.mem p = nunits then
    ({ s with
       mem := setPtr s.mem prevp (ptr s.mem p)
       freep := prevp
       live := ⟨p, nunits⟩ :: s.live }, (p + 8) % 2 ^ 32)
  else
    let m := setSize s.mem p (size s.mem p - nunits)
    let q := past m p
    ({ s with
       mem := setSize m q nunits
       freep := prevp
       live := ⟨q, nunits⟩ :: s.live }, (q + 8) % 2 ^ 32)

/-- Each call of `sbrk` has the next of the answers; it fails when none is left. -/
def mallocLoop (nunits : Nat) : Nat -> List (Option Nat) -> State -> Nat -> Nat -> Option (State × Nat)
  | 0, _, _, _, _ => none
  | n + 1, gaps, s, prevp, p =>
    if nunits <= size s.mem p then
      some (take s nunits prevp p)
    else if p = s.freep then
      match morecore n s (gaps.headD none) nunits with
      | none => none
      | some (t, q) => if q = 0 then some (t, 0) else mallocLoop nunits n gaps.tail t q (ptr t.mem q)
    else mallocLoop nunits n gaps s p (ptr s.mem p)

/-- `(nbytes + sizeof(Header) - 1)/sizeof(Header) + 1` -/
def units (nbytes : Nat) : Nat := (nbytes + 7) % 2 ^ 32 / 8 + 1

section Base

-- The address of the sentinel.
variable (base : Nat)

def prepare (s : State) : State :=
  if s.freep = 0 then { s with mem := setSize (setPtr s.mem base base) base 0, freep := base } else s

def malloc (fuel : Nat) (s : State) (nbytes : Nat)
    (gaps : List (Option Nat)) : Option (State × Nat) :=
  let t := prepare base s
  mallocLoop (units nbytes) fuel gaps t t.freep (ptr t.mem t.freep)

/-! ## Runs -/

/-- A call, with the answers of `sbrk` to it, or a store of the program. -/
inductive Label where
  | malloc (nbytes : Nat) (gaps : List (Option Nat))
  | free (ap : Nat)
  | store (x : Nat) (v : BitVec 8)

def perform (fuel : Nat) (s : State) : Label -> Option State
  | .malloc nbytes gaps => (malloc base fuel s nbytes gaps).map Prod.fst
  | .free ap => free fuel s ap
  | .store x v => some { s with mem := fun y => if y = x then v else s.mem y }

/-- The loops of the call end, and they end in that state. -/
def Step (s : State) (label : Label) (t : State) : Prop :=
  ∃ n, ∀ fuel, n <= fuel -> perform base fuel s label = some t

/-- The program stores in the memory after the header of a live block, or in memory that is not the
heap's. -/
def Writable (s : State) (x : Nat) : Prop :=
  ¬ (base <= x /\ x < base + 8) /\
    (Covers s.obtained x -> ∃ b, b ∈ s.live /\ b.addr + 8 <= x /\ x < b.stop)

/-- What a caller may do. -/
def Proper (s : State) : Label -> Prop
  | .malloc nbytes _ => nbytes < 2 ^ 30
  | .free ap => ∃ b, b ∈ s.live /\ ap = (b.addr + 8) % 2 ^ 32
  | .store x _ => Writable base s x

def boot (mem : Bytes) : State := ⟨mem, 0, base + 8, [], []⟩

end Base

end Xv6.Heap
