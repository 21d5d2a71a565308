import Xv6.Process.Proc

namespace Xv6.Process

open Library Machine Memory

/-!
# Traps from user mode, `trap.c`

The switch of `trap`.  It reads the fault address from `cr2`, which keeps the
address of the last page fault.  The interrupts that it handles change nothing in
this state.
-/

variable [L : Layout]

/-- The protection reported for a page-fault error code. -/
def faultType (err : Word) : Word :=
  if err = 4#32 ∨ err = 6#32 ∨ err = 5#32 then PROT_NONE
  else if err = 7#32 then PROT_READ
  else PROT_WRITE

/-- The case `T_PGFLT`. -/
def pageFaultCase (slot : Nat) (tf : TrapFrame) : K Unit := do
  note (.pageFault slot)
  let s ← get
  if (s.ptable slot).shared = 1#32 then
    handleCowFault (s.ptable slot).dir s.cr2.toNat
  else do
    let handler ← loadHandler slot (BitVec.ofNat 32 SIGSEGV)
    if handler ≠ NOHANDLER then
      signalDeliver slot (BitVec.ofNat 32 SIGSEGV) ⟨s.cr2, faultType tf.err⟩
    else
      return ()

/-- The case `T_DIVIDE`, which falls into the next one without a handler. -/
def divideCase (slot : Nat) (tf : TrapFrame) : K Unit := do
  let handler ← loadHandler slot (BitVec.ofNat 32 SIGFPE)
  if handler ≠ NOHANDLER then
    signalDeliver slot (BitVec.ofNat 32 SIGFPE) ⟨5#32, 1#32⟩
  else
    pageFaultCase slot tf

/-- The interrupt numbers with a case of their own: timer, disk, keyboard,
serial port and the spurious ones. -/
def isInterrupt (trapno : Word) : Bool :=
  trapno.toNat ∈ [T_IRQ0 + 0, T_IRQ0 + 14, T_IRQ0 + 15, T_IRQ0 + 1, T_IRQ0 + 4, T_IRQ0 + 7, T_IRQ0 + 31]

/-- The switch of `trap`. -/
def trapSwitch (slot : Nat) (tf : TrapFrame) : K Unit := do
  if isInterrupt tf.trapno then
    return ()
  else if tf.trapno = T_DIVIDE then
    divideCase slot tf
  else if tf.trapno = T_PGFLT then
    pageFaultCase slot tf
  else if tf.cs &&& 3#32 = 0#32 then
    throw (.panic "trap")
  else
    modifyProc slot (fun p => { p with killed := 1#32 })

/-- The error code of a page fault on a user access. -/
def faultCode (mem : Memory) (d va : Nat) (write : Bool) : Word :=
  let present := HasFlag (mem d (va / 4096 / 1024)) PTE_P && HasFlag (entry mem d (va / 4096)) PTE_P
  (if present then 1#32 else 0#32) ||| (if write then 2#32 else 0#32) ||| 4#32

end Xv6.Process
