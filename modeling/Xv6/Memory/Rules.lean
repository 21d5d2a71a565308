import Xv6.Memory.Vm

namespace Xv6.Memory

open Library Machine

/-!
# Rules for the commands of the memory code

The commands without a loop have one outcome from each state, which these rules
name.  The ones that always apply are simplification rules; those that depend
on the free list or on a page table take that as a hypothesis.
-/

variable {s : Kernel} {stopped : Stop -> Kernel -> Prop}

@[simp] theorem ensures_readWord (frame index : Nat) {returned : Word -> Kernel -> Prop} :
    Ensures (readWord frame index) s returned stopped <-> returned (s.mem frame index) s := by
  unfold Ensures
  rfl

variable {returned : Unit -> Kernel -> Prop}

@[simp] theorem ensures_writeWord (frame index : Nat) (value : Word) :
    Ensures (writeWord frame index value) s returned stopped <->
      returned () (s.setMem (setWord s.mem frame index value)) := by
  unfold Ensures
  rfl

@[simp] theorem ensures_writePage (frame : Nat) (page : Nat -> Word) :
    Ensures (writePage frame page) s returned stopped <->
      returned () (s.setMem (Function.update s.mem frame page)) := by
  unfold Ensures
  rfl

@[simp] theorem ensures_lcr3 (d : Nat) :
    Ensures (lcr3 d) s returned stopped <->
      returned () { s with cr3 := d, tlb := fun _ _ => False } := by
  unfold Ensures
  rfl

@[simp] theorem ensures_getProc (slot : Nat) {returned : Proc -> Kernel -> Prop} :
    Ensures (getProc slot) s returned stopped <-> returned (s.ptable slot) s := by
  unfold Ensures
  rfl

@[simp] theorem ensures_modifyProc (slot : Nat) (change : Proc -> Proc) :
    Ensures (modifyProc slot change) s returned stopped <->
    returned () (s.setProc slot change) := by
  unfold Ensures
  rfl

theorem ensures_switchuvm {slot : Nat} (some : (s.ptable slot).pgdir ≠ 0#32) :
    Ensures (switchuvm slot) s returned stopped <->
      returned () { s with cr3 := (s.ptable slot).dir, tlb := fun _ _ => False } := by
  rw [switchuvm, ensures_bind, ensures_getProc, if_neg some, ensures_lcr3]

@[simp] theorem ensures_note (access : Access) :
    Ensures (note access) s returned stopped <->
    returned () { s with trace := access :: s.trace } := by
  unfold Ensures
  rfl

/-! ## The allocator -/

theorem ensures_kalloc_nil (empty : s.freelist = []) {returned : Option Nat -> Kernel -> Prop} :
    Ensures kalloc s returned stopped <-> returned none s := by
  rw [kalloc, ensures_bind, ensures_get, empty, ensures_pure]

theorem ensures_kalloc_cons {frame : Nat} {rest : List Nat} (list : s.freelist = frame :: rest)
    {returned : Option Nat -> Kernel -> Prop} :
    Ensures kalloc s returned stopped <-> returned (some frame) { s with freelist := rest } := by
  rw [kalloc, ensures_bind, ensures_get, list, ensures_bind, ensures_modify, ensures_pure]

/-- Both outcomes of `kalloc`. -/
theorem kalloc_rule {returned : Option Nat -> Kernel -> Prop}
    (none : s.freelist = [] -> returned none s)
    (some : ∀ frame rest, s.freelist = frame :: rest ->
      returned (some frame) { s with freelist := rest }) : Ensures kalloc s returned stopped := by
  cases list : s.freelist with
  | nil => exact (ensures_kalloc_nil list).mpr (none list)
  | cons frame rest => exact (ensures_kalloc_cons list).mpr (some frame rest list)

/-! ## Walking a page table -/

theorem PDX_eq {va : Nat} (bound : va < 2 ^ 32) : PDX va = va / 4096 / 1024 := by
  unfold PDX
  omega

theorem PTX_eq (va : Nat) : PTX va = va / 4096 % 1024 := rfl

/-- `walkpgdir` without allocation only reads the directory. -/
theorem ensures_walkpgdir {d va : Nat} (bound : va < 2 ^ 32)
    {returned : Option (Nat × Nat) -> Kernel -> Prop} :
    Ensures (walkpgdir d va false) s returned stopped <->
      returned (if HasFlag (s.mem d (va / 4096 / 1024)) PTE_P
        then some (frameOf (s.mem d (va / 4096 / 1024)), va / 4096 % 1024) else none) s := by
  rw [walkpgdir, ensures_bind, ensures_readWord, PDX_eq bound, PTX_eq]
  by_cases present : HasFlag (s.mem d (va / 4096 / 1024)) PTE_P = true
  · rw [if_pos present, if_pos present, ensures_pure]
  · rw [if_neg present, if_neg present]
    simp

/-- One pass of `mappages` for a range inside one page. -/
theorem mappages_page {d va : Nat} {pa perm : Word} (aligned : va % 4096 = 0)
    (bound : va < 2 ^ 32) : mappages d va PGSIZE pa perm = mappage d va pa perm := by
  have start : PGROUNDDOWN va = va := by
    unfold PGROUNDDOWN PGSIZE
    omega
  have last : PGROUNDDOWN ((va + PGSIZE + 2 ^ 32 - 1) % 2 ^ 32) = va := by
    unfold PGROUNDDOWN PGSIZE
    omega
  have passes : (va + 2 ^ 32 - va) % 2 ^ 32 / PGSIZE = 0 := by
    unfold PGSIZE
    omega
  simp only [mappages, start, last, passes]
  rfl

/-! ## Freeing -/

variable [L : Layout]

/-- What `kfree` makes of a state. -/
def freed (s : Kernel) (frame : Nat) : Kernel :=
  { s.setMem (Function.update s.mem frame (freedPage s.freelist)) with freelist := frame :: s.freelist }

theorem ensures_kfree {frame : Nat} (allocatable : Allocatable frame) :
    Ensures (kfree frame) s returned stopped <-> returned () (freed s frame) := by
  have accepted : ¬ (KERNBASE + frame * PGSIZE < L.kend ∨ PHYSTOP <= frame * PGSIZE) := by
    have above := allocatable.1
    have below := allocatable.2
    unfold PGSIZE
    omega
  rw [kfree, if_neg accepted, ensures_bind, ensures_get, ensures_bind, ensures_writePage, ensures_modify]
  rfl

end Xv6.Memory
