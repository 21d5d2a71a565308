import Xv6.Library.PageWord

namespace Xv6.Machine

open Library

/-!
# Constants and address arithmetic

The constants of `param.h`, `mmu.h`, `memlayout.h`, `traps.h`, `signal.h` and
`types.h` that the modelled functions read, and the address macros of `mmu.h`.
Addresses that a loop steps through are natural numbers, and the one macro
whose sum can pass 32 bits keeps the wrap.  Words stored in memory, in page
tables and in the process table are bit vectors of 32 bits.

Where the linker places the kernel's symbols is not fixed by the source.  A
`Layout` names the symbols that the modelled functions compare addresses with,
and carries what `kernel.ld` and `entrypgdir` guarantee about them.
-/

/-- A 32-bit machine word. -/
abbrev Word := BitVec 32

/-! ## `param.h` -/

def NPROC : Nat := 64
def NCPU : Nat := 8
def NOFILE : Nat := 16
def NFILE : Nat := 100

theorem NPROC_pos : 0 < NPROC := by decide

theorem one_lt_NPROC : 1 < NPROC := by decide

/-! ## `memlayout.h` -/

def EXTMEM : Nat := 0x100000
def PHYSTOP : Nat := 0xE000000
def DEVSPACE : Nat := 0xFE000000
def KERNBASE : Nat := 0x80000000
def KERNLINK : Nat := 0x80100000

/-! ## `mmu.h` -/

def PGSIZE : Nat := 4096
def NPDENTRIES : Nat := 1024
def NPTENTRIES : Nat := 1024

def PTE_P : Word := 0x001#32
def PTE_W : Word := 0x002#32
def PTE_U : Word := 0x004#32

def PDX (va : Nat) : Nat := va / 2 ^ 22 % 1024
def PTX (va : Nat) : Nat := va / 2 ^ 12 % 1024

def PGROUNDUP (sz : Nat) : Nat := (sz + PGSIZE - 1) % 2 ^ 32 / PGSIZE * PGSIZE
def PGROUNDDOWN (a : Nat) : Nat := a / PGSIZE * PGSIZE

def PTE_ADDR (pte : Word) : Word := pte &&& ~~~0xFFF#32
def PTE_FLAGS (pte : Word) : Word := pte &&& 0xFFF#32

/-- The page frame an entry refers to, `PTE_ADDR(pte) / PGSIZE`. -/
def frameOf (pte : Word) : Nat := pageOf 12 (PTE_ADDR pte)

/-- The physical address of a page frame. -/
def frameAddr (frame : Nat) : Word := BitVec.ofNat 32 (frame * 2 ^ 12)

/-! ## `memlayout.h`: kernel addresses of physical pages -/

def v2p (a : Word) : Word := a - 0x80000000#32
def p2v (a : Word) : Word := a + 0x80000000#32

/-- The kernel address of a page frame. -/
def kernelPage (frame : Nat) : Word := p2v (frameAddr frame)

/-- The page frame behind a kernel address. -/
def kernelFrame (a : Word) : Nat := pageOf 12 (v2p a)

/-! ## `types.h`, `signal.h` and `traps.h` -/

def PROT_NONE : Word := 0#32
def PROT_READ : Word := 1#32
def PROT_WRITE : Word := 2#32

def SIGKILL : Nat := 0
def SIGFPE : Nat := 1
def SIGSEGV : Nat := 14

def T_DIVIDE : Word := 0#32
def T_PGFLT : Word := 14#32
def T_IRQ0 : Nat := 32

/-! ## Symbols placed by the linker -/

/-- The bytes of one `struct proc`. -/
def PROCSIZE : Nat := 140

/-- Addresses of the kernel symbols `data`, `end`, `ptable.proc` and
`ftable.file`.  `kernel.ld` aligns `data` to a page, the two tables are parts
of the data that ends at `end`, and `entrypgdir`, on which `kinit1` runs, maps
the first four megabytes only. -/
class Layout where
  data : Nat
  kend : Nat
  ptable : Nat
  ftable : Nat
  data_aligned : data % 4096 = 0
  data_above : 0x80100000 < data
  ptable_above : data <= ptable
  ptable_aligned : ptable % 4 = 0
  ptable_below : ptable + 8960 <= kend
  ftable_above : data <= ftable
  ftable_below : ftable + 2400 <= kend
  kend_below : kend <= 0x80400000

/-- The layout of the kernel image whose symbol table is `kernel.sym`. -/
@[reducible] def kernelSym : Layout where
  data := 0x8010a000
  kend := 0x8021659c
  ptable := 0x801139b4
  ftable := 0x80111894
  data_aligned := by decide
  data_above := by decide
  ptable_above := by decide
  ptable_aligned := by decide
  ptable_below := by decide
  ftable_above := by decide
  ftable_below := by decide
  kend_below := by decide

/-! ## Facts about entries and page addresses -/

theorem frameOf_eq (pte : Word) : frameOf pte = pageOf 12 pte :=
  pageOf_and_not_flags pte (by decide)

variable {frame : Nat}

theorem pageOf_frameAddr (bound : frame < 2 ^ 20) : pageOf 12 (frameAddr frame) = frame :=
  pageOf_ofNat (by omega)

theorem frameOf_frameAddr (bound : frame < 2 ^ 20) : frameOf (frameAddr frame) = frame := by
  rw [frameOf_eq, pageOf_frameAddr bound]

/-- Setting flags does not change the page an entry refers to. -/
theorem frameOf_or (pte : Word) {flags : Word} (small : flags.toNat < 2 ^ 12) :
    frameOf (pte ||| flags) = frameOf pte := by
  rw [frameOf_eq, frameOf_eq, pageOf_or_flags _ small]

/-- Nor does clearing them. -/
theorem frameOf_and_not (pte : Word) {flags : Word} (small : flags.toNat < 2 ^ 12) :
    frameOf (pte &&& ~~~flags) = frameOf pte := by
  rw [frameOf_eq, frameOf_eq, pageOf_and_not_flags _ small]

@[simp] theorem hasFlag_P_P : HasFlag PTE_P PTE_P = true := by decide
@[simp] theorem hasFlag_P_W : HasFlag PTE_P PTE_W = false := by decide
@[simp] theorem hasFlag_P_U : HasFlag PTE_P PTE_U = false := by decide
@[simp] theorem hasFlag_W_P : HasFlag PTE_W PTE_P = false := by decide
@[simp] theorem hasFlag_W_W : HasFlag PTE_W PTE_W = true := by decide
@[simp] theorem hasFlag_W_U : HasFlag PTE_W PTE_U = false := by decide
@[simp] theorem hasFlag_U_P : HasFlag PTE_U PTE_P = false := by decide
@[simp] theorem hasFlag_U_W : HasFlag PTE_U PTE_W = false := by decide
@[simp] theorem hasFlag_U_U : HasFlag PTE_U PTE_U = true := by decide

/-- A page address has no flag of an entry set. -/
theorem hasFlag_frameAddr (frame : Nat) {flag : Word} (small : flag.toNat < 2 ^ 12) :
    HasFlag (frameAddr frame) flag = false := by
  rw [hasFlag_eq_false_iff]
  apply BitVec.eq_of_toNat_eq
  rw [BitVec.toNat_and, BitVec.toNat_zero]
  apply Nat.eq_of_testBit_eq
  intro i
  rw [Nat.testBit_and, Nat.zero_testBit]
  by_cases low : i < 12
  · have zero : (frameAddr frame).toNat.testBit i = false := by
      rw [frameAddr, BitVec.toNat_ofNat, Nat.testBit_mod_two_pow]
      rw [Nat.mul_comm, Nat.testBit_two_pow_mul]
      simp [low]
    rw [zero, Bool.false_and]
  · rw [Nat.testBit_lt_two_pow (Nat.lt_of_lt_of_le small
      (Nat.pow_le_pow_right (by decide) (Nat.le_of_not_lt low))), Bool.and_false]

/-! ## Pages that can be allocated, and table entries as pointers -/

variable [L : Layout]

/-- The frames that `freerange` hands to `kfree` in `kinit1` and `kinit2`:
whole pages between `end` and `PHYSTOP`. -/
def Allocatable (frame : Nat) : Prop :=
  L.kend <= KERNBASE + frame * 4096 /\ frame * 4096 < PHYSTOP

instance (frame : Nat) : Decidable (Allocatable frame) :=
  inferInstanceAs (Decidable (_ /\ _))

theorem Allocatable.lt (allocatable : Allocatable frame) : frame < 57344 := by
  have below := allocatable.2
  unfold PHYSTOP at below
  omega

/-- The pages below the kernel's data are never handed out. -/
theorem Allocatable.ge (allocatable : Allocatable frame) : 256 <= frame := by
  have above := allocatable.1
  have data := L.data_above
  have table := L.ptable_above
  have inside := L.ptable_below
  unfold KERNBASE at above
  omega

end Xv6.Machine
