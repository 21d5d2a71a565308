import Xv6.Memory.Kalloc

namespace Xv6.Memory

open Library Machine
open Function

/-!
# Page tables and user memory, `vm.c`

Each function follows its source.  A page directory is named by its page frame,
and a pointer to an entry by the frame of the table and the index in it, so the
null pointer is `none`.  Reading through a null pointer is `Stop.undefined`.

A `for` loop over addresses keeps the source's cursor and test and recurses on
what is left.  The callers never pass a size above `KERNBASE`, so these cursors
do not wrap.  The loop of `mappages` leaves on equality with the last page and
may run up to the end of the address space: it counts the passes that remain.
The loop of `mprotect` compares a wrapping cursor with a bound that need not be
reachable, and its passes are bounded by the number of values of the cursor.
-/

variable [L : Layout]

/-! ## Walking and mapping -/

/-- The entry for `va`, making the page table that should hold it when
`alloc` is set. -/
def walkpgdir (pgdir va : Nat) (alloc : Bool) : K (Option (Nat × Nat)) := do
  let pde ← readWord pgdir (PDX va)
  if HasFlag pde PTE_P then
    return some (frameOf pde, PTX va)
  else if alloc then do
    match ← kalloc with
    | none => return none
    | some pgtab => do
        writePage pgtab (fun _ => 0#32)
        writeWord pgdir (PDX va) (frameAddr pgtab ||| PTE_P ||| PTE_W ||| PTE_U)
        return some (pgtab, PTX va)
  else
    return none

/-- One pass of the loop of `mappages`. -/
def mappage (pgdir a : Nat) (pa perm : Word) : K Int := do
  match ← walkpgdir pgdir a true with
  | none => return -1
  | some (table, index) => do
      let pte ← readWord table index
      if HasFlag pte PTE_P then
        throw (.panic "remap")
      else do
        writeWord table index (pa ||| perm ||| PTE_P)
        return 0

/-- The pass at `a` and the `more` passes after it. -/
def mappagesLoop (pgdir : Nat) (perm : Word) : Nat -> Nat -> Word -> K Int
  | 0, a, pa => mappage pgdir a pa perm
  | more + 1, a, pa => do
      let failed ← mappage pgdir a pa perm
      if failed < 0 then
        return -1
      else
        mappagesLoop pgdir perm more ((a + PGSIZE) % 2 ^ 32) (pa + BitVec.ofNat 32 PGSIZE)

def mappages (pgdir va size : Nat) (pa perm : Word) : K Int :=
  let a := PGROUNDDOWN va
  let last := PGROUNDDOWN ((va + size + 2 ^ 32 - 1) % 2 ^ 32)
  mappagesLoop pgdir perm ((last + 2 ^ 32 - a) % 2 ^ 32 / PGSIZE) a pa

/-- One line of the kernel's mappings. -/
structure Kmap where
  virt : Nat
  physStart : Nat
  physEnd : Nat
  perm : Word

def kmap : List Kmap :=
  [⟨KERNBASE, 0, EXTMEM, PTE_W⟩,
    ⟨KERNLINK, KERNLINK - KERNBASE, L.data - KERNBASE, 0#32⟩,
    ⟨L.data, L.data - KERNBASE, PHYSTOP, PTE_W⟩,
    ⟨DEVSPACE, DEVSPACE, 0, PTE_W⟩]

/-- Map the remaining lines.  A failure returns at once and frees nothing. -/
def setupkvmLoop (pgdir : Nat) : List Kmap -> K (Option Nat)
  | [] => return some pgdir
  | k :: rest => do
      let failed ← mappages pgdir k.virt ((k.physEnd + 2 ^ 32 - k.physStart) % 2 ^ 32)
        (BitVec.ofNat 32 k.physStart) k.perm
      if failed < 0 then
        return none
      else
        setupkvmLoop pgdir rest

def setupkvm : K (Option Nat) := do
  match ← kalloc with
  | none => return none
  | some pgdir => do
      writePage pgdir (fun _ => 0#32)
      if DEVSPACE < KERNBASE + PHYSTOP then
        throw (.panic "PHYSTOP too high")
      else
        setupkvmLoop pgdir kmap

/-- Switch to the page table of a process. -/
def switchuvm (slot : Nat) : K Unit := do
  let p ← getProc slot
  if p.pgdir = 0#32 then
    throw (.panic "switchuvm: no pgdir")
  else
    lcr3 p.dir

/-! ## Freeing -/

/-- The loop of `deallocuvm`.  Only the first branch on the count clears the
entry. -/
def deallocuvmLoop (pgdir oldsz a : Nat) : K Unit :=
  if _inside : a < oldsz then do
    match ← walkpgdir pgdir a false with
    | none => deallocuvmLoop pgdir oldsz (a + (NPTENTRIES - 1) * PGSIZE + PGSIZE)
    | some (table, index) => do
        let pte ← readWord table index
        if HasFlag pte PTE_P then do
          let pa := frameOf pte
          let s ← get
          if (s.pteArray pa).toInt < 2 then do
            if pa = 0 then
              throw (.panic "kfree")
            else do
              kfree pa
              writeWord table index 0#32
              deallocuvmLoop pgdir oldsz (a + PGSIZE)
          else if (s.pteArray pa).toInt = 2 then do
            writeWord table index (pte ||| PTE_W)
            modify fun s => { s with pteArray := update s.pteArray pa 1#8 }
            deallocuvmLoop pgdir oldsz (a + PGSIZE)
          else do
            modify fun s =>
              { s with pteArray := update s.pteArray pa (s.pteArray pa - 1#8) }
            deallocuvmLoop pgdir oldsz (a + PGSIZE)
        else
          deallocuvmLoop pgdir oldsz (a + PGSIZE)
  else return ()
termination_by oldsz - a
decreasing_by all_goals simp only [PGSIZE, NPTENTRIES] at *; omega

def deallocuvm (pgdir oldsz newsz : Nat) : K Nat := do
  if oldsz <= newsz then
    return oldsz
  else do
    deallocuvmLoop pgdir oldsz (PGROUNDUP newsz)
    return newsz

/-- Free the page tables `i`, `i + 1`, ... of a directory. -/
def freeTables (pgdir : Nat) : Nat -> Nat -> K Unit
  | 0, _ => return ()
  | more + 1, i => do
      let pde ← readWord pgdir i
      if HasFlag pde PTE_P then do
        kfree (frameOf pde)
        freeTables pgdir more (i + 1)
      else
        freeTables pgdir more (i + 1)

def freevm (pgdir : Nat) : K Unit := do
  let _ ← deallocuvm pgdir KERNBASE 0
  freeTables pgdir NPDENTRIES 0
  kfree pgdir

/-! ## Growing -/

/-- The loop of `allocuvm`.  What `mappages` returns is not looked at. -/
def allocuvmLoop (pgdir oldsz newsz a : Nat) : K Nat :=
  if _inside : a < newsz then do
    match ← kalloc with
    | none => do
        let _ ← deallocuvm pgdir newsz oldsz
        return 0
    | some mem => do
        writePage mem (fun _ => 0#32)
        let _ ← mappages pgdir a PGSIZE (frameAddr mem) (PTE_W ||| PTE_U)
        allocuvmLoop pgdir oldsz newsz (a + PGSIZE)
  else return newsz
termination_by newsz - a
decreasing_by simp only [PGSIZE] at *; omega

def allocuvm (pgdir oldsz newsz : Nat) : K Nat := do
  if KERNBASE <= newsz then
    return 0
  else if newsz < oldsz then
    return oldsz
  else
    allocuvmLoop pgdir oldsz newsz (PGROUNDUP oldsz)

def clearpteu (pgdir uva : Nat) : K Unit := do
  match ← walkpgdir pgdir uva false with
  | none => throw (.panic "clearpteu")
  | some (table, index) => do
      let pte ← readWord table index
      writeWord table index (pte &&& ~~~PTE_U)

/-! ## Copying an address space -/

def copyuvmLoop (pgdir sz d i : Nat) : K (Option Nat) :=
  if _inside : i < sz then do
    match ← walkpgdir pgdir i false with
    | none => throw (.panic "copyuvm: pte should exist")
    | some (table, index) => do
        let pte ← readWord table index
        if HasFlag pte PTE_P then do
          match ← kalloc with
          | none => do
              freevm d
              return none
          | some mem => do
              let s ← get
              writePage mem (s.mem (frameOf pte))
              let failed ← mappages d i PGSIZE (frameAddr mem) (PTE_FLAGS pte)
              if failed < 0 then do
                freevm d
                return none
              else
                copyuvmLoop pgdir sz d (i + PGSIZE)
        else
          throw (.panic "copyuvm: page not present")
  else return some d
termination_by sz - i
decreasing_by simp only [PGSIZE] at *; omega

def copyuvm (pgdir sz : Nat) : K (Option Nat) := do
  match ← setupkvm with
  | none => return none
  | some d => copyuvmLoop pgdir sz d 0

/-! ## The copy-on-write fault -/

/-- The index of the second test of `handle_cow_fault`, which compares inside
the brackets: `pte_array[pa/PGSIZE == 1]`. -/
def comparedIndex (pa : Nat) : Nat := if pa = 1 then 1 else 0

/-- `handle_cow_fault(addr)` in the process whose page directory is `pgdir`.
The test for a missing process has no counterpart here. -/
def handleCowFault (pgdir addr : Nat) : K Unit := do
  if KERNBASE <= addr then
    throw (.panic "handle_cow_fault: given kernel level address\n")
  else do
    match ← walkpgdir pgdir addr false with
    | none => throw (.panic "handle_cow_fault: invalid memory addresss given")
    | some (table, index) => do
        let pte ← readWord table index
        if HasFlag pte PTE_W then
          throw (.panic "handle_cow_fault: page memory already writable. PGFAULT out of my hooves")
        else do
          let pa := frameOf pte
          let s ← get
          if s.pteArray pa = 0#8 then
            throw (.panic "cowfork: process not shared")
          else if s.pteArray (comparedIndex pa) ≠ 0#8 then do
            writeWord table index (pte ||| PTE_W)
            modify fun s =>
              { s with pteArray := update s.pteArray pa (s.pteArray pa - 1#8) }
            lcr3 pgdir
          else do
            modify fun s =>
              { s with pteArray := update s.pteArray pa (s.pteArray pa - 1#8) }
            match ← kalloc with
            | none => throw (.panic "cowfork handle fault: bad things happened")
            | some mem => do
                let s ← get
                writePage mem (s.mem pa)
                writeWord table index (frameAddr mem ||| PTE_P ||| PTE_U ||| PTE_W)
                lcr3 pgdir

/-! ## Protection -/

/-- The flags that the `switch` of `mprotect` sets, nothing for a value that
has no case. -/
def protFlags (prot : Word) : Word :=
  if prot = PROT_NONE then PTE_P
  else if prot = PROT_READ then PTE_P ||| PTE_U
  else if prot = PROT_WRITE then PTE_P ||| PTE_W
  else if prot = PROT_READ ||| PROT_WRITE then PTE_P ||| PTE_W ||| PTE_U
  else 0#32

/-- The `do` loop of `mprotect`, with a bound on its passes. -/
def mprotectLoop (pgdir : Nat) (prot : Word) (bound : Nat) : Nat -> Nat -> K Unit
  | 0, _ => throw .diverges
  | passes + 1, curr => do
      match ← walkpgdir pgdir curr false with
      | none => throw .undefined
      | some (table, index) => do
          let pte ← readWord table index
          writeWord table index (pte &&& 0xfffffff9#32)
          writeWord table index ((pte &&& 0xfffffff9#32) ||| protFlags prot)
          let curr := (curr + PGSIZE) % 2 ^ 32
          if curr < bound then
            mprotectLoop pgdir prot bound passes curr
          else
            return ()

def mprotect (pgdir : Nat) (addr len prot : Word) : K Int := do
  mprotectLoop pgdir prot (addr + len).toNat (2 ^ 20) (PGROUNDDOWN addr.toNat)
  lcr3 pgdir
  return 0

/-! ## Copying out to another address space -/

/-- The page behind a user address, or nothing when it is not a user page.
The result of `walkpgdir` is used without a test. -/
def uva2ka (pgdir uva : Nat) : K (Option Nat) := do
  match ← walkpgdir pgdir uva false with
  | none => throw .undefined
  | some (table, index) => do
      let pte ← readWord table index
      if HasFlag pte PTE_P = false then
        return none
      else if HasFlag pte PTE_U = false then
        return none
      else
        return some (frameOf pte)

/-- Store consecutive bytes of one page. -/
def writeBytes (frame : Nat) : Nat -> List (BitVec 8) -> K Unit
  | _, [] => return ()
  | offset, byte :: rest => do
      writeByte frame offset byte
      writeBytes frame (offset + 1) rest

/-- `copyout`, with the buffer and its length as one list.  Each pass stores
what fits in the page of `va`. -/
def copyout (pgdir va : Nat) (buf : List (BitVec 8)) : K Int :=
  if _more : buf = [] then return 0
  else do
    let va0 := PGROUNDDOWN va
    match ← uva2ka pgdir va0 with
    | none => return -1
    | some pa0 => do
        let n := min (PGSIZE - (va - va0)) buf.length
        writeBytes pa0 (va - va0) (buf.take n)
        copyout pgdir ((va0 + PGSIZE) % 2 ^ 32) (buf.drop n)
termination_by buf.length
decreasing_by
  have offset : va - PGROUNDDOWN va < PGSIZE := by
    simp only [PGROUNDDOWN, PGSIZE]
    omega
  have nonempty : 0 < buf.length := List.length_pos_iff.mpr _more
  simp only [List.length_drop]
  omega

end Xv6.Memory
