import Xv6.Library.Program
import Xv6.Machine.Layout

namespace Xv6.Machine

open Library
open Function

/-!
# The kernel state

Physical memory is a page frame number and a word index, and everything that
the hardware or the kernel reads as memory is there: user pages, page
directories and page tables.  The kernel's own variables are typed fields.  A
`struct proc` keeps every field of the source, in its order and as words,
because `handlers[]` is indexed past its end and then reads and writes them.
Of a trap frame only the registers that some function reads are kept.

The translation lookaside buffer is the set of translations that the processor
may still hold.  It may load any translation of the current page table at any
time, so before each change of memory it takes them all, and `lcr3` empties it.

Locks do not appear: a system call or a trap is one step, and the lock-held
sections inside it are already atomic.
-/

/-- Physical memory, by page frame and word. -/
abbrev Memory := Nat -> Nat -> Word

/-- The saved user registers.  The segment registers other than `cs`, and the
registers no modelled function reads, are left out. -/
structure TrapFrame where
  edx : Word
  ecx : Word
  eax : Word
  trapno : Word
  err : Word
  eip : Word
  cs : Word
  esp : Word

/-- `enum procstate`, with the other values an `int` can hold. -/
inductive ProcState where
  | UNUSED
  | EMBRYO
  | SLEEPING
  | RUNNABLE
  | RUNNING
  | ZOMBIE
  | invalid (value : Word)
  deriving DecidableEq

/-- `struct proc`.  Pointers are kept as the words stored. -/
structure Proc where
  sz : Word
  pgdir : Word
  kstack : Word
  state : ProcState
  pid : Word
  parent : Word
  tf : Word
  context : Word
  chan : Word
  killed : Word
  ofile : Nat -> Word
  cwd : Word
  name : Nat -> Word
  handlers : Nat -> Word
  restorerAddr : Word
  shared : Word

/-- The page directory of a process. -/
def Proc.dir (p : Proc) : Nat := kernelFrame p.pgdir

inductive FileType where
  | FD_NONE
  | FD_PIPE
  | FD_INODE
  deriving DecidableEq

/-- `struct file`, with the pipe as the frame of its page. -/
structure File where
  type : FileType
  ref : Int
  readable : Bool
  writable : Bool
  pipe : Nat

/-- `struct pipe`, which fills the start of a page from `kalloc`. -/
structure Pipe where
  data : Nat -> BitVec 8
  nread : Word
  nwrite : Word
  readopen : Bool
  writeopen : Bool

/-- What the functions of the signal code touch, recorded as they run. -/
inductive Access where
  /-- `ptable.proc[slot].handlers[index]` is read or written. -/
  | handler (slot index : Nat)
  /-- `signal_deliver` stores a word at a user address. -/
  | delivery (slot : Nat) (address : Word)
  /-- `trap` enters the case of a page fault. -/
  | pageFault (slot : Nat)
  deriving DecidableEq

structure Kernel where
  mem : Memory
  freelist : List Nat
  pteArray : Nat -> BitVec 8
  ptable : Nat -> Proc
  /-- Kernel words outside `ptable.proc` that an overrun of it reaches. -/
  beyond : Word -> Word
  trapframe : Nat -> TrapFrame
  nextpid : Word
  initproc : Nat
  kpgdir : Nat
  cpustacks : List Nat
  ftable : Nat -> File
  pipes : Nat -> Pipe
  cr2 : Word
  cr3 : Nat
  tlb : Nat -> Word -> Prop
  running : Option Nat
  trace : List Access

/-- Why a run of kernel code does not return. -/
inductive Stop where
  /-- A call of `panic`. -/
  | panic (message : String)
  /-- A null or wild pointer is followed, which C gives no meaning. -/
  | undefined
  /-- A page fault in the kernel that `trap` returns from unchanged. -/
  | unresolved
  /-- A loop that never reaches its end. -/
  | diverges
  deriving DecidableEq

/-- Kernel code. -/
abbrev K := EStateM Stop Kernel

/-! ## Reading a two-level page table -/

/-- The entry of page `v` in the page table rooted at `d`, zero when the page
directory has no table for it. -/
def entry (mem : Memory) (d v : Nat) : Word :=
  if HasFlag (mem d (v / 1024)) PTE_P then mem (frameOf (mem d (v / 1024))) (v % 1024) else 0#32

/-- The check of the memory management unit.  `CR0.WP` is set, so a write needs
`PTE_W` in the kernel as well; only a user access needs `PTE_U`. -/
def permits (mem : Memory) (d va : Nat) (user write : Bool) : Bool :=
  let pde := mem d (va / 4096 / 1024)
  let pte := entry mem d (va / 4096)
  (HasFlag pde PTE_P && HasFlag pte PTE_P) &&
    ((!user || (HasFlag pde PTE_U && HasFlag pte PTE_U)) &&
      (!write || (HasFlag pde PTE_W && HasFlag pte PTE_W)))

/-- The translations that the buffer may hold once it has looked at the
current page table. -/
def Kernel.loaded (s : Kernel) : Nat -> Word -> Prop :=
  fun v e => s.tlb v e ∨ (v < 2 ^ 20 /\ entry s.mem s.cr3 v = e /\ HasFlag e PTE_P = true)

/-! ## Memory commands -/

def Kernel.setMem (s : Kernel) (mem : Memory) : Kernel :=
  { s with mem := mem, tlb := s.loaded }

def setWord (mem : Memory) (frame index : Nat) (value : Word) : Memory :=
  update mem frame (update (mem frame) index value)

def readWord (frame index : Nat) : K Word := do
  let s ← get
  return s.mem frame index

def writeWord (frame index : Nat) (value : Word) : K Unit :=
  modify fun s => s.setMem (setWord s.mem frame index value)

/-- `memset` and `memmove` of a whole page. -/
def writePage (frame : Nat) (page : Nat -> Word) : K Unit :=
  modify fun s => s.setMem (update s.mem frame page)

/-- Load the page directory register, which empties the buffer. -/
def lcr3 (d : Nat) : K Unit :=
  modify fun s => { s with cr3 := d, tlb := fun _ _ => False }

/-! ## Bytes of a word -/

def getByte (word : Word) (index : Nat) : BitVec 8 :=
  (word >>> (8 * index)).setWidth 8

def setByte (word : Word) (index : Nat) (byte : BitVec 8) : Word :=
  (word &&& ~~~(0xFF#32 <<< (8 * index))) ||| (byte.setWidth 32 <<< (8 * index))

def pageByte (page : Nat -> Word) (offset : Nat) : BitVec 8 :=
  getByte (page (offset / 4)) (offset % 4)

def writeByte (frame offset : Nat) (byte : BitVec 8) : K Unit := do
  let word ← readWord frame (offset / 4)
  writeWord frame (offset / 4) (setByte word (offset % 4) byte)

theorem getLsbD_getByte (value : Word) (index i : Nat) (small : i < 8) :
    (getByte value index).getLsbD i = value.getLsbD (8 * index + i) := by
  rw [getByte, BitVec.getLsbD_setWidth, BitVec.getLsbD_ushiftRight, decide_eq_true small, Bool.true_and]

theorem append_bytes (value : Word) :
    getByte value 3 ++ (getByte value 2 ++ (getByte value 1 ++ getByte value 0)) = value := by
  apply BitVec.eq_of_getLsbD_eq
  intro i bound
  rw [BitVec.getLsbD_append, BitVec.getLsbD_append, BitVec.getLsbD_append]
  by_cases third : i < 8 + (8 + 8)
  · by_cases second : i < 8 + 8
    · by_cases first : i < 8
      · rw [if_pos third, if_pos second, if_pos first, getLsbD_getByte value 0 i first,
          Nat.mul_zero, Nat.zero_add]
      · rw [if_pos third, if_pos second, if_neg first, getLsbD_getByte value 1 _ (by omega)]
        exact congrArg value.getLsbD (by omega)
    · rw [if_pos third, if_neg second, getLsbD_getByte value 2 _ (by omega)]
      exact congrArg value.getLsbD (by omega)
  · rw [if_neg third, getLsbD_getByte value 3 _ (by omega)]
    exact congrArg value.getLsbD (by omega)

theorem getByte_setByte (word : Word) (byte : BitVec 8) {i j : Nat} (first : i < 4)
    (second : j < 4) :
    getByte (setByte word i byte) j = if j = i then byte else getByte word j := by
  apply BitVec.eq_of_getLsbD_eq
  intro k small
  have mask : ∀ n : Nat, (0xFF#32).getLsbD n = decide (n < 8) := by
    intro n
    by_cases less : n < 32
    · revert n
      decide
    · rw [BitVec.getLsbD_of_ge _ _ (by omega)]
      exact (decide_eq_false (by omega)).symm
  rw [getLsbD_getByte _ _ _ small, setByte, BitVec.getLsbD_or, BitVec.getLsbD_and, BitVec.getLsbD_not,
    BitVec.getLsbD_shiftLeft, BitVec.getLsbD_shiftLeft, mask, BitVec.getLsbD_setWidth]
  by_cases same : j = i
  · subst same
    have inside : 8 * j + k < 32 := by omega
    have width : k < 32 := by omega
    have past : ¬ 8 * j + k < 8 * j := by omega
    simp [inside, small, width, past]
  · rw [if_neg same, getLsbD_getByte _ _ _ small]
    have inside : 8 * j + k < 32 := by omega
    by_cases under : 8 * j + k < 8 * i
    · simp [inside, under]
    · have past : ¬ 8 * j + k - 8 * i < 8 := by omega
      have none : byte.getLsbD (8 * j + k - 8 * i) = false := BitVec.getLsbD_of_ge _ _ (by omega)
      simp [inside, under, past, none]

theorem pageByte_update {page : Nat -> Word} {offset other : Nat} {byte : BitVec 8} :
    pageByte (update page (offset / 4) (setByte (page (offset / 4)) (offset % 4) byte)) other =
      if other = offset then byte else pageByte page other := by
  have first : offset % 4 < 4 := Nat.mod_lt _ (by decide)
  have second : other % 4 < 4 := Nat.mod_lt _ (by decide)
  unfold pageByte
  by_cases word : other / 4 = offset / 4
  · rw [word, update_self, getByte_setByte _ _ first second]
    by_cases same : other = offset
    · rw [if_pos same, if_pos (by rw [same])]
    · rw [if_neg same, if_neg (by omega)]
  · rw [update_of_ne word, if_neg fun same => word (by rw [same])]

/-! ## Updating the process table -/

def Kernel.setProc (s : Kernel) (slot : Nat) (change : Proc -> Proc) : Kernel :=
  { s with ptable := update s.ptable slot (change (s.ptable slot)) }

def modifyProc (slot : Nat) (change : Proc -> Proc) : K Unit :=
  modify fun s => s.setProc slot change

def getProc (slot : Nat) : K Proc := do
  let s ← get
  return s.ptable slot

def note (access : Access) : K Unit :=
  modify fun s => { s with trace := access :: s.trace }

end Xv6.Machine
