import Xv6.Ownership.Mapping

namespace Xv6.Ownership

open Library Machine Memory

/-!
# The lines of `kmap`, which `setupkvm` maps

The lines lie in the kernel half in the order of their addresses, and need 64
page tables.
-/

variable [L : Layout]

/-! ## A range of the kernel half -/

omit L in
theorem frameAddr_succ (k : Nat) : frameAddr k + BitVec.ofNat 32 PGSIZE = frameAddr (k + 1) := by
  have sum : (k + 1) * 2 ^ 12 = k * 2 ^ 12 + PGSIZE := Nat.succ_mul k (2 ^ 12)
  rw [frameAddr, frameAddr, sum, BitVec.ofNat_add]

/-! ## The table `kmap` -/

/-- The first page of a line of `kmap`. -/
def firstOf (k : Kmap) : Nat := k.virt / 4096

/-- The number of pages of a line of `kmap`. -/
def pagesOf (k : Kmap) : Nat := (k.physEnd + 2 ^ 32 - k.physStart) % 2 ^ 32 / 4096

/-- A line that maps whole pages of the kernel half, from `base` on. -/
structure LineOk (base : Nat) (k : Kmap) : Prop where
  virtAligned : k.virt % 4096 = 0
  sizeAligned : (k.physEnd + 2 ^ 32 - k.physStart) % 2 ^ 32 % 4096 = 0
  physAligned : k.physStart % 4096 = 0
  above : base <= firstOf k
  some : 0 < pagesOf k
  below : firstOf k + pagesOf k <= 0x100000
  supervisor : HasFlag k.perm PTE_U = false

/-- Lines in the order of their addresses. -/
def Ascending : Nat -> List Kmap -> Prop
  | _, [] => True
  | base, k :: rest => LineOk base k /\ Ascending (firstOf k + pagesOf k) rest

/-- A directory index that some line needs a page table for. -/
def Needs (lines : List Kmap) (i : Nat) : Prop :=
  ∃ k, k ∈ lines /\ firstOf k / 1024 <= i /\ i <= (firstOf k + pagesOf k - 1) / 1024

omit L in
/-- A whole line is one loop of `mappages`. -/
theorem mappages_line {base : Nat} {k : Kmap} (ok : LineOk base k) (d : Nat) :
    mappages d k.virt ((k.physEnd + 2 ^ 32 - k.physStart) % 2 ^ 32)
      (BitVec.ofNat 32 k.physStart) k.perm =
      mappagesLoop d k.perm (pagesOf k - 1) (firstOf k * 4096)
        (frameAddr (k.physStart / 4096)) := by
  have virtAligned := ok.virtAligned
  have sizeAligned := ok.sizeAligned
  have physAligned := ok.physAligned
  have some := ok.some
  have below := ok.below
  have size : (k.physEnd + 2 ^ 32 - k.physStart) % 2 ^ 32 = pagesOf k * 4096 := by
    unfold pagesOf
    omega
  have virt : k.virt = firstOf k * 4096 := by
    unfold firstOf
    omega
  have phys : frameAddr (k.physStart / 4096) = BitVec.ofNat 32 k.physStart := by
    have whole : k.physStart / 4096 * 2 ^ 12 = k.physStart := by omega
    rw [frameAddr, whole]
  have start : PGROUNDDOWN (firstOf k * 4096) = firstOf k * 4096 := by
    unfold PGROUNDDOWN PGSIZE
    omega
  have last : PGROUNDDOWN ((firstOf k * 4096 + pagesOf k * 4096 + 2 ^ 32 - 1) % 2 ^ 32) =
      (firstOf k + pagesOf k - 1) * 4096 := by
    unfold PGROUNDDOWN PGSIZE
    omega
  have passes : ((firstOf k + pagesOf k - 1) * 4096 + 2 ^ 32 - firstOf k * 4096) % 2 ^ 32 / PGSIZE =
      pagesOf k - 1 := by
    unfold PGSIZE
    omega
  simp only [mappages, size, virt, phys, start, last, passes]

/-- The directory indices of the kernel half that `kmap` fills. -/
def kernelTables : Finset Nat :=
  (Finset.range 1024).filter (fun i => 512 <= i /\ i < 568 ∨ 1016 <= i)

omit L in
theorem card_kernelTables : kernelTables.card = 64 := by decide +kernel

/-- The lines of `kmap` in a kernel whose data is linked there. -/
def kmapAt (data : Nat) : List Kmap :=
  [⟨KERNBASE, 0, EXTMEM, PTE_W⟩,
    ⟨KERNLINK, KERNLINK - KERNBASE, data - KERNBASE, 0#32⟩,
    ⟨data, data - KERNBASE, PHYSTOP, PTE_W⟩,
    ⟨DEVSPACE, DEVSPACE, 0, PTE_W⟩]

omit L in
theorem ascending_kmapAt {page : Nat} (above : 0x80100 < page) (below : page < 0x8E000) :
    Ascending 0x80000 (kmapAt (page * 4096)) := by
  simp only [kmapAt, Ascending]
  refine ⟨?_, ?_, ?_, ?_, trivial⟩ <;> constructor <;>
    simp only [firstOf, pagesOf, KERNBASE, KERNLINK, EXTMEM, PHYSTOP, DEVSPACE, hasFlag_W_U,
      hasFlag_zero] <;> omega

omit L in
theorem needs_kmapAt {page : Nat} (above : 0x80100 < page) (below : page < 0x8E000) (i : Nat) :
    Needs (kmapAt (page * 4096)) i <-> i ∈ kernelTables := by
  simp only [Needs, kmapAt, kernelTables, List.mem_cons, List.not_mem_nil, or_false, exists_eq_or_imp,
    exists_eq_left, firstOf, pagesOf, KERNBASE, KERNLINK, EXTMEM, PHYSTOP, DEVSPACE, Finset.mem_filter,
    Finset.mem_range]
  omega

end Xv6.Ownership
