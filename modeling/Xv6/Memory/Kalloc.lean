import Xv6.Machine.State

namespace Xv6.Memory

open Library Machine

/-!
# The physical page allocator, `kalloc.c`

The free list is the list of its page frames, from its head on.  The link that
`kfree` stores in the first word of a page is stored in the model too, but the
list itself is not read back from memory: nothing writes to a page while it is
on the list, unless some process still maps it.
-/

variable [L : Layout]

/-- What `kfree` leaves in a page: ones, and a pointer to the next free page. -/
def freedPage (freelist : List Nat) : Nat -> Word :=
  fun index => if index = 0 then (freelist.head?.map kernelPage).getD 0#32 else 0x01010101#32

/-- `kfree(p2v(frame * PGSIZE))`.  The alignment test cannot fail on a page. -/
def kfree (frame : Nat) : K Unit := do
  if KERNBASE + frame * PGSIZE < L.kend ∨ PHYSTOP <= frame * PGSIZE then
    throw (.panic "kfree")
  else do
    let s ← get
    writePage frame (freedPage s.freelist)
    modify fun s => { s with freelist := frame :: s.freelist }

/-- The page at the head of the free list, or nothing when memory is out. -/
def kalloc : K (Option Nat) := do
  let s ← get
  match s.freelist with
  | [] => return none
  | frame :: rest => do
      modify fun s => { s with freelist := rest }
      return some frame

/-- Free every whole page between two physical addresses. -/
def freerange (p vend : Nat) : K Unit :=
  if _inside : p + PGSIZE <= vend then do
    kfree (p / PGSIZE)
    freerange (p + PGSIZE) vend
  else return ()
termination_by vend - p
decreasing_by simp only [PGSIZE] at *; omega

end Xv6.Memory
