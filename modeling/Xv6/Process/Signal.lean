import Xv6.Memory.Vm

namespace Xv6.Process

open Library Machine Memory
open Function

/-!
# Signals, the end of `proc.c`

`struct proc` declares `handlers[2]`, while `SIGSEGV` is 14 and the signal
number of `signal_register` comes from the user.  An index past the array names
the fields behind it, then the fields of the next slot of `ptable`, and at the
end of the table whatever the linker placed there.  `handlerAddr` is the address
that the C expression names, and a load takes the word at that address.

`signal_deliver` stores through the saved user stack pointer in kernel mode.
Such a store is checked by the memory management unit like any other, and a
fault in it enters `trap` again.
-/

variable [L : Layout]

/-! ## The process table as words -/

def ProcState.toWord : ProcState -> Word
  | .UNUSED => 0#32
  | .EMBRYO => 1#32
  | .SLEEPING => 2#32
  | .RUNNABLE => 3#32
  | .RUNNING => 4#32
  | .ZOMBIE => 5#32
  | .invalid value => value

/-- Word `index` of a `struct proc`, in the order of its declaration. -/
def procWord (p : Proc) (index : Nat) : Word :=
  match index with
  | 0 => p.sz
  | 1 => p.pgdir
  | 2 => p.kstack
  | 3 => ProcState.toWord p.state
  | 4 => p.pid
  | 5 => p.parent
  | 6 => p.tf
  | 7 => p.context
  | 8 => p.chan
  | 9 => p.killed
  | 26 => p.cwd
  | 33 => p.restorerAddr
  | 34 => p.shared
  | _ =>
    if index < 26 then p.ofile (index - 10)
    else if index < 31 then p.name (index - 27)
    else p.handlers (index - 31)

/-- Word of `struct proc` at which `handlers` starts. -/
def HANDLERS : Nat := 31

/-- The address of `ptable.proc[slot].handlers[signum]`, whatever `signum`. -/
def handlerAddr (slot : Nat) (signum : Word) : Nat :=
  (L.ptable + PROCSIZE * slot + 4 * HANDLERS + 4 * signum.toNat) % 2 ^ 32

/-- The word of `ptable.proc` at an address, as slot and word, when it is in
the table. -/
def tableWord (address : Nat) : Option (Nat × Nat) :=
  if L.ptable <= address /\ address < L.ptable + PROCSIZE * NPROC then
    some ((address - L.ptable) / PROCSIZE, (address - L.ptable) % PROCSIZE / 4)
  else
    none

def loadHandler (slot : Nat) (signum : Word) : K Word := do
  note (.handler slot signum.toNat)
  let s ← get
  match tableWord (handlerAddr slot signum) with
  | some (other, index) => return procWord (s.ptable other) index
  | none => return s.beyond (BitVec.ofNat 32 (handlerAddr slot signum))

/-- `(sighandler_t) -1`, the mark of no handler. -/
def NOHANDLER : Word := 0xFFFFFFFF#32

/-! ## Stores of the kernel to user addresses -/

/-- The page fault of a kernel store at a user address, and the store again
after it.  In a process marked shared the fault is left to `handle_cow_fault`.
Otherwise `trap` looks at `handlers[SIGSEGV]` and either delivers a signal on
the same stack, which faults again, or returns to the same store. -/
def retryUserByte (slot va : Nat) (byte : BitVec 8) : K Unit := do
  modify fun s => { s with cr2 := BitVec.ofNat 32 va }
  let p ← getProc slot
  if p.shared = 1#32 then do
    handleCowFault p.dir va
    let s ← get
    if permits s.mem p.dir va false true then
      writeByte (frameOf (entry s.mem p.dir (va / 4096))) (va % 4096) byte
    else do
      handleCowFault p.dir va
      throw .unresolved
  else do
    let _ ← loadHandler slot (BitVec.ofNat 32 SIGSEGV)
    throw .unresolved

/-- A byte that the kernel stores at a user address of the current process.  A
store above `KERNBASE` overwrites the kernel, and what follows is not
modelled. -/
def storeUserByte (slot va : Nat) (byte : BitVec 8) : K Unit := do
  let s ← get
  let p := s.ptable slot
  if KERNBASE <= va then
    throw .undefined
  else if permits s.mem p.dir va false true then
    writeByte (frameOf (entry s.mem p.dir (va / 4096))) (va % 4096) byte
  else
    retryUserByte slot va byte

/-- Store the bytes of a word, the lowest first. -/
def storeUserWord (slot : Nat) (address value : Word) : K Unit := do
  storeUserByte slot address.toNat (getByte value 0)
  storeUserByte slot (address + 1#32).toNat (getByte value 1)
  storeUserByte slot (address + 2#32).toNat (getByte value 2)
  storeUserByte slot (address + 3#32).toNat (getByte value 3)

def storeUserWords (slot : Nat) : List (Word × Word) -> K Unit
  | [] => return ()
  | (address, value) :: rest => do
      storeUserWord slot address value
      storeUserWords slot rest

/-! ## Delivery -/

/-- `siginfo_t`. -/
structure SigInfo where
  addr : Word
  type : Word

/-- The eight stores of `signal_deliver`, as address and value, in order. -/
def deliveryWords (tf : TrapFrame) (restorerAddr signum : Word) (si : SigInfo) :
    List (Word × Word) :=
  [(tf.esp - 4#32, tf.eip), (tf.esp - 8#32, tf.eax), (tf.esp - 12#32, tf.ecx),
    (tf.esp - 16#32, tf.edx), (tf.esp - 20#32, si.type), (tf.esp - 24#32, si.addr),
    (tf.esp - 28#32, signum), (tf.esp - 32#32, restorerAddr)]

/-- Record the addresses of the stores. -/
def noteDelivery (slot : Nat) : List (Word × Word) -> K Unit
  | [] => return ()
  | (address, _) :: rest => do
      note (.delivery slot address)
      noteDelivery slot rest

/-- `signal_deliver`.  For a trap from user mode `proc->tf` is the frame that
was just pushed. -/
def signalDeliver (slot : Nat) (signum : Word) (si : SigInfo) : K Unit := do
  let s ← get
  let tf := s.trapframe slot
  let words := deliveryWords tf (s.ptable slot).restorerAddr signum si
  noteDelivery slot words
  storeUserWords slot words
  let handler ← loadHandler slot signum
  modify fun s =>
    { s with trapframe :=
        update s.trapframe slot { tf with esp := tf.esp - 32#32, eip := handler } }

end Xv6.Process
