import Mathlib.Data.Set.Basic
import Xv6.System.FaultType

namespace Xv6.User

open Library Machine Memory Process
open Function

/-!
# Signal handlers in user memory, `signal_deliver` and the restorer of `ulib.c`

`signal_deliver` leaves eight words below the interrupted stack pointer, and
the handler starts as if it were called from the restorer with the signal
number and the `siginfo_t` as arguments.  When the handler returns, the
restorer takes three of the words off the stack unread, pops `edx`, `ecx` and
`eax`, and returns to the interrupted instruction.

Here the memory of the process is flat: the bytes at its addresses.  The last
section says that `signal_deliver` through the page table does to these bytes
what `deliver` does.
-/

/-! ## Memory -/

abbrev Bytes := Word -> BitVec 8

def load32 (mem : Bytes) (a : Word) : Word :=
  mem (a + 3#32) ++ (mem (a + 2#32) ++ (mem (a + 1#32) ++ mem a))

def store32 (mem : Bytes) (a value : Word) : Bytes := fun b =>
  if (b - a).toNat < 4 then getByte value (b - a).toNat else mem b

/-- Stores of words, the first of the list first. -/
def storeWords (mem : Bytes) : List (Word × Word) -> Bytes
  | [] => mem
  | (a, value) :: rest => storeWords (store32 mem a value) rest

/-! ## The processor -/

/-- The registers that delivery saves, and memory. -/
structure Cpu where
  eip : Word
  esp : Word
  eax : Word
  ecx : Word
  edx : Word
  mem : Bytes

/-- The instructions of the restorer. -/
inductive Instr where
  | addEsp (n : Word)
  | popEdx
  | popEcx
  | popEax
  | ret

def Instr.run (u : Cpu) : Instr -> Cpu
  | .addEsp n => { u with esp := u.esp + n }
  | .popEdx => { u with edx := load32 u.mem u.esp, esp := u.esp + 4#32 }
  | .popEcx => { u with ecx := load32 u.mem u.esp, esp := u.esp + 4#32 }
  | .popEax => { u with eax := load32 u.mem u.esp, esp := u.esp + 4#32 }
  | .ret => { u with eip := load32 u.mem u.esp, esp := u.esp + 4#32 }

/-- The code at `restorer`. -/
def restorer : List Instr := [.addEsp 0xc#32, .popEdx, .popEcx, .popEax, .ret]

/-- A handler returns, and the restorer runs when it was the return address. -/
def handlerReturns (restorerAddr : Word) (u : Cpu) : Cpu :=
  if (Instr.run u .ret).eip = restorerAddr then restorer.foldl Instr.run (Instr.run u .ret)
  else Instr.run u .ret

/-- The saved registers as the trap frame has them. -/
def Cpu.toFrame (u : Cpu) (tf : TrapFrame) : TrapFrame :=
  { tf with eip := u.eip, esp := u.esp, eax := u.eax, ecx := u.ecx, edx := u.edx }

/-- `signal_deliver` for a handler at address `handler`. -/
def deliver (u : Cpu) (tf : TrapFrame) (restorerAddr handler signum : Word) (si : SigInfo) : Cpu :=
  { u with mem := storeWords u.mem (deliveryWords (u.toFrame tf) restorerAddr signum si),
           esp := u.esp - 32#32, eip := handler }

/-! ## Loads and stores -/

/-- Words at these addresses do not overlap. -/
def Apart (a b : Word) : Prop := 4 <= (b - a).toNat /\ 4 <= (a - b).toNat

theorem load32_store32_same (mem : Bytes) (a value : Word) :
    load32 (store32 mem a value) a = value := by
  have byte : ∀ k : Nat, k < 4 -> store32 mem a value (a + BitVec.ofNat 32 k) = getByte value k := by
    intro k small
    have offset : (a + BitVec.ofNat 32 k - a).toNat = k := by
      rw [BitVec.toNat_sub, BitVec.toNat_add, BitVec.toNat_ofNat]
      omega
    rw [store32, offset, if_pos small]
  have zero := byte 0 (by omega)
  rw [BitVec.add_zero] at zero
  rw [load32, byte 3 (by omega), byte 2 (by omega), byte 1 (by omega), zero]
  exact append_bytes value

variable {mem : Bytes} {a b : Word} {u : Cpu} {value : Word}

theorem store32_outside (outside : 4 <= (b - a).toNat) : store32 mem a value b = mem b := by
  rw [store32, if_neg (by omega)]

theorem load32_congr {other : Bytes}
    (same : ∀ k : Nat, k < 4 -> mem (a + BitVec.ofNat 32 k) = other (a + BitVec.ofNat 32 k)) :
    load32 mem a = load32 other a := by
  have zero := same 0 (by omega)
  rw [BitVec.add_zero] at zero
  rw [load32, load32, same 3 (by omega), same 2 (by omega), same 1 (by omega), zero]

theorem load32_store32_apart (apart : Apart a b) :
    load32 (store32 mem a value) b = load32 mem b := by
  apply load32_congr
  intro k small
  apply store32_outside
  have below := apart.1
  have above := apart.2
  rw [BitVec.toNat_sub] at below above
  rw [BitVec.toNat_sub, BitVec.toNat_add, BitVec.toNat_ofNat]
  omega

theorem storeWords_outside : ∀ (words : List (Word × Word)) (mem : Bytes),
    (∀ pair, pair ∈ words -> 4 <= (b - pair.1).toNat) -> storeWords mem words b = mem b := by
  intro words
  induction words with
  | nil =>
    intro mem _
    rfl
  | cons pair rest step =>
    intro mem outside
    rw [storeWords, step _ fun other member => outside other (List.mem_cons_of_mem _ member),
      store32_outside (outside pair List.mem_cons_self)]

theorem load32_storeWords_apart : ∀ (words : List (Word × Word)) (mem : Bytes),
    (∀ pair, pair ∈ words -> Apart pair.1 b) -> load32 (storeWords mem words) b = load32 mem b := by
  intro words
  induction words with
  | nil =>
    intro mem _
    rfl
  | cons pair rest step =>
    intro mem apart
    rw [storeWords, step _ fun other member => apart other (List.mem_cons_of_mem _ member),
      load32_store32_apart (apart pair List.mem_cons_self)]

/-- Words that do not overlap can all be read back. -/
theorem load32_storeWords : ∀ (words : List (Word × Word)) (mem : Bytes),
    words.Pairwise (fun one two => Apart two.1 one.1) ->
      ∀ pair, pair ∈ words -> load32 (storeWords mem words) pair.1 = pair.2 := by
  intro words
  induction words with
  | nil =>
    intro _ _ pair none
    exact absurd none List.not_mem_nil
  | cons first rest step =>
    intro mem apart pair member
    rw [List.pairwise_cons] at apart
    rw [storeWords]
    cases List.mem_cons.mp member with
    | inl same =>
      rw [same, load32_storeWords_apart rest _ apart.1, load32_store32_same]
    | inr later => exact step _ apart.2 pair later

/-! ## The frame of a delivery -/

section Frame

variable (u : Cpu) (tf : TrapFrame) (restorerAddr handler signum : Word) (si : SigInfo)

/-- The distances of the eight words from the interrupted stack pointer. -/
def offsets : List Nat := [4, 8, 12, 16, 20, 24, 28, 32]

theorem deliveryWords_fst :
    (deliveryWords (u.toFrame tf) restorerAddr signum si).map Prod.fst =
      offsets.map fun k => u.esp - BitVec.ofNat 32 k := rfl

theorem mem_deliveryWords {pair : Word × Word}
    (member : pair ∈ deliveryWords (u.toFrame tf) restorerAddr signum si) :
    ∃ k, k ∈ offsets /\ pair.1 = u.esp - BitVec.ofNat 32 k := by
  have address : pair.1 ∈ offsets.map fun k => u.esp - BitVec.ofNat 32 k :=
    deliveryWords_fst u tf restorerAddr signum si ▸ List.mem_map_of_mem member
  rcases List.mem_map.mp address with ⟨k, listed, same⟩
  exact ⟨k, listed, same.symm⟩

theorem offsets_le {k : Nat} (listed : k ∈ offsets) : 4 <= k /\ k <= 32 := by
  revert k
  decide

theorem apart_sub {i j : Nat} (apart : i + 4 <= j ∨ j + 4 <= i) (first : i <= 32)
    (second : j <= 32) : Apart (u.esp - BitVec.ofNat 32 i) (u.esp - BitVec.ofNat 32 j) := by
  simp only [Apart, BitVec.toNat_sub, BitVec.toNat_ofNat]
  omega

/-- The eight words do not overlap. -/
theorem deliveryWords_apart :
    (deliveryWords (u.toFrame tf) restorerAddr signum si).Pairwise
      (fun one two => Apart two.1 one.1) := by
  have spaced : offsets.Pairwise (fun i j => i + 4 <= j) := by
    decide
  have addresses : ((deliveryWords (u.toFrame tf) restorerAddr signum si).map Prod.fst).Pairwise
      (fun one two => Apart two one) := by
    rw [deliveryWords_fst, List.pairwise_map]
    apply spaced.imp_of_mem
    intro i j first second order
    exact apart_sub u (.inr order) (offsets_le second).2 (offsets_le first).2
  exact List.pairwise_map.mp addresses

/-- What the handler and the restorer find on the stack. -/
theorem deliver_words (k : Nat) (value : Word)
    (member : (u.esp - BitVec.ofNat 32 k, value) ∈
      deliveryWords (u.toFrame tf) restorerAddr signum si) :
    load32 (storeWords u.mem (deliveryWords (u.toFrame tf) restorerAddr signum si))
      (u.esp - BitVec.ofNat 32 k) = value := by
  have apart := deliveryWords_apart u tf restorerAddr signum si
  exact load32_storeWords (deliveryWords (u.toFrame tf) restorerAddr signum si) u.mem apart
    (u.esp - BitVec.ofNat 32 k, value) member

theorem sub_sub_eq (b e k : Word) : b - (e - k) = b - e + k := by
  bv_omega

/-- A delivery changes only the 32 bytes below the stack pointer. -/
theorem deliver_outside {b : Word} (outside : (b - u.esp).toNat < 2 ^ 32 - 32) :
    (deliver u tf restorerAddr handler signum si).mem b = u.mem b := by
  apply storeWords_outside
  intro pair member
  rcases mem_deliveryWords u tf restorerAddr signum si member with ⟨k, listed, same⟩
  have bounds := offsets_le listed
  rw [same, sub_sub_eq, BitVec.toNat_add, BitVec.toNat_ofNat]
  omega

/-- The five words on which the return from the handler depends. -/
def savedOffsets : List Nat := [4, 8, 12, 16, 32]

/-- Their bytes. -/
def saved : Set Word :=
  fun b => ∃ k, k ∈ savedOffsets /\ ∃ i, i < 4 /\ b = u.esp - BitVec.ofNat 32 k + BitVec.ofNat 32 i

theorem load32_saved {mem other : Bytes} (k : Nat) (listed : k ∈ savedOffsets)
    (same : ∀ b, b ∈ saved u -> mem b = other b) :
    load32 mem (u.esp - BitVec.ofNat 32 k) = load32 other (u.esp - BitVec.ofNat 32 k) := by
  apply load32_congr
  intro i small
  exact same _ ⟨k, listed, i, small, rfl⟩

end Frame

/-! ## Handlers -/

/-- A handler runs, from `first` to the moment it is about to return or to be interrupted for the
last time.  It does what it likes with the registers and with memory other than `kept`, and it is
interrupted by deliveries, whose handlers run and return in the same way. -/
inductive Runs (restorerAddr : Word) : Set Word -> Cpu -> Cpu -> Prop where
  | done (kept : Set Word) (u : Cpu) : Runs restorerAddr kept u u
  | act {kept : Set Word} {u v w : Cpu} (leaves : ∀ b, b ∈ kept -> v.mem b = u.mem b)
      (rest : Runs restorerAddr kept v w) : Runs restorerAddr kept u w
  | interrupt {kept : Set Word} {u v w : Cpu} (tf : TrapFrame) (handler signum : Word) (si : SigInfo)
      (below : ∀ b, b ∈ kept -> (b - u.esp).toNat < 2 ^ 32 - 32)
      (nested : Runs restorerAddr (kept ∪ saved u) (deliver u tf restorerAddr handler signum si) v)
      (returns : v.esp = u.esp - 32#32) (rest :
        Runs restorerAddr kept (handlerReturns restorerAddr v) w) :
      Runs restorerAddr kept u w

/-- The restorer only reads memory. -/
theorem handlerReturns_mem (restorerAddr : Word) (u : Cpu) :
    (handlerReturns restorerAddr u).mem = u.mem := by
  unfold handlerReturns
  split <;> rfl

/-- A handler that keeps its stack pointer at or below the one it started with is interrupted below
the saved words. -/
theorem saved_below {w : Cpu} (user : 32 <= u.esp.toNat /\ u.esp.toNat <= KERNBASE)
    (below : w.esp.toNat <= (u.esp - 32#32).toNat) :
    ∀ b, b ∈ saved u -> (b - w.esp).toNat < 2 ^ 32 - 32 := by
  rintro b ⟨k, listed, i, small, rfl⟩
  have bounds : 4 <= k /\ k <= 32 := by
    revert k
    decide
  simp only [KERNBASE, BitVec.toNat_sub, BitVec.toNat_add, BitVec.toNat_ofNat] at user below ⊢
  omega

/-- What is kept is kept by the deliveries inside as well, at any depth. -/
theorem Runs.keeps {restorerAddr : Word} {kept : Set Word} {v : Cpu}
    (runs : Runs restorerAddr kept u v) : ∀ b, b ∈ kept -> v.mem b = u.mem b := by
  induction runs with
  | done kept u =>
    intro b _
    rfl
  | act leaves rest step =>
    intro b member
    exact (step b member).trans (leaves b member)
  | interrupt tf handler signum si below nested returns rest inner outer =>
    intro b member
    rw [outer b member, handlerReturns_mem, inner b (.inl member)]
    exact deliver_outside _ tf restorerAddr handler signum si (below b member)

/-- The return of a handler whose five words are as `signal_deliver` left them. -/
theorem handlerReturns_eq {restorerAddr : Word} {v : Cpu} (esp : v.esp = u.esp - 32#32)
    (target : load32 v.mem (u.esp - 32#32) = restorerAddr) :
    handlerReturns restorerAddr v =
      { v with eip := load32 v.mem (u.esp - 4#32), esp := u.esp, eax := load32 v.mem (u.esp - 8#32),
               ecx := load32 v.mem (u.esp - 12#32), edx := load32 v.mem (u.esp - 16#32) } := by
  have one : u.esp - 32#32 + 4#32 + 0xc#32 = u.esp - 16#32 := by
    bv_omega
  have two : u.esp - 16#32 + 4#32 = u.esp - 12#32 := by
    bv_omega
  have three : u.esp - 12#32 + 4#32 = u.esp - 8#32 := by
    bv_omega
  have four : u.esp - 8#32 + 4#32 = u.esp - 4#32 := by
    bv_omega
  have five : u.esp - 4#32 + 4#32 = u.esp := by
    bv_omega
  have first : (Instr.run v .ret).eip = restorerAddr := by
    change load32 v.mem v.esp = restorerAddr
    rw [esp, target]
  rw [handlerReturns, if_pos first]
  simp only [restorer, List.foldl_cons, List.foldl_nil, Instr.run, esp, one, two, three, four, five]

/-- User memory ends below the addresses to which a stack pointer under 32 would wrap. -/
theorem room_below {accessible : Set Word} {esp : Word}
    (user : ∀ b, b ∈ accessible -> b.toNat < KERNBASE)
    (stores : ∀ k : Nat, k < 32 -> esp - 32#32 + BitVec.ofNat 32 k ∈ accessible) :
    32 <= esp.toNat := by
  have lowest := user _ (stores 0 (by omega))
  rw [BitVec.add_zero, BitVec.toNat_sub] at lowest
  simp only [KERNBASE, BitVec.toNat_ofNat] at lowest
  omega

/-- Signal delivery is transparent.  The eight words are in user memory, the handler comes back to
the stack pointer it started with, and neither it nor a handler that interrupts it overwrites the
saved words.  Then the restorer runs and the five registers are as they were; nothing at or above
the interrupted stack pointer was changed by the delivery; and the handler found its arguments where
`cdecl` has them. -/
theorem delivery_transparent (accessible : Set Word) (u v : Cpu) (tf : TrapFrame)
    (restorerAddr handler signum : Word) (si : SigInfo)
    (user : ∀ b, b ∈ accessible -> b.toNat < KERNBASE)
    (stores : ∀ k : Nat, k < 32 -> u.esp - 32#32 + BitVec.ofNat 32 k ∈ accessible)
    (runs : Runs restorerAddr (saved u) (deliver u tf restorerAddr handler signum si) v)
    (returns : v.esp = (deliver u tf restorerAddr handler signum si).esp) :
    ((handlerReturns restorerAddr v).eip = u.eip /\ (handlerReturns restorerAddr v).esp = u.esp /\
      (handlerReturns restorerAddr v).eax = u.eax /\ (handlerReturns restorerAddr v).ecx = u.ecx /\
      (handlerReturns restorerAddr v).edx = u.edx) /\
    (∀ b : Word, u.esp.toNat <= b.toNat ->
      (deliver u tf restorerAddr handler signum si).mem b = u.mem b) /\
    (load32 (deliver u tf restorerAddr handler signum si).mem (u.esp - 32#32 + 4#32) = signum /\
      load32 (deliver u tf restorerAddr handler signum si).mem (u.esp - 32#32 + 8#32) = si.addr /\
      load32 (deliver u tf restorerAddr handler signum si).mem (u.esp - 32#32 + 12#32) =
        si.type) := by
  have room := room_below user stores
  have found := deliver_words u tf restorerAddr signum si
  have kept : ∀ k : Nat, k ∈ savedOffsets -> load32 v.mem (u.esp - BitVec.ofNat 32 k) =
      load32 (storeWords u.mem (deliveryWords (u.toFrame tf) restorerAddr signum si))
        (u.esp - BitVec.ofNat 32 k) :=
    fun k listed => load32_saved u k listed runs.keeps
  have target : load32 v.mem (u.esp - 32#32) = restorerAddr :=
    (kept 32 (by decide)).trans (found 32 _ (by simp [deliveryWords, Cpu.toFrame]))
  rw [handlerReturns_eq returns target]
  refine ⟨⟨?_, rfl, ?_, ?_, ?_⟩, ?_, ?_, ?_, ?_⟩
  · exact (kept 4 (by decide)).trans (found 4 _ (by simp [deliveryWords, Cpu.toFrame]))
  · exact (kept 8 (by decide)).trans (found 8 _ (by simp [deliveryWords, Cpu.toFrame]))
  · exact (kept 12 (by decide)).trans (found 12 _ (by simp [deliveryWords, Cpu.toFrame]))
  · exact (kept 16 (by decide)).trans (found 16 _ (by simp [deliveryWords, Cpu.toFrame]))
  · intro b above
    apply deliver_outside
    rw [BitVec.toNat_sub]
    omega
  · have address : u.esp - 32#32 + 4#32 = u.esp - 28#32 := by
      bv_omega
    rw [address]
    exact found 28 _ (by simp [deliveryWords, Cpu.toFrame])
  · have address : u.esp - 32#32 + 8#32 = u.esp - 24#32 := by
      bv_omega
    rw [address]
    exact found 24 _ (by simp [deliveryWords, Cpu.toFrame])
  · have address : u.esp - 32#32 + 12#32 = u.esp - 20#32 := by
      bv_omega
    rw [address]
    exact found 20 _ (by simp [deliveryWords, Cpu.toFrame])

/-! ## Through the page table -/

section PageTable

/-- The bytes at the addresses of a process. -/
def flat (mem : Memory) (d : Nat) : Bytes :=
  fun a => pageByte (mem (frameOf (entry mem d (a.toNat / 4096)))) (a.toNat % 4096)

/-- A user page of the process, below `KERNBASE`, is there. -/
def Mapped (mem : Memory) (d v : Nat) : Prop := v < 0x80000 /\ HasFlag (entry mem d v) PTE_P = true

/-- No user page of the process is its page directory or one of its page tables, and no two of them
are the same frame. -/
structure Separate (mem : Memory) (d : Nat) : Prop where
  dir : ∀ v, Mapped mem d v -> frameOf (entry mem d v) ≠ d
  tables : ∀ v i, Mapped mem d v -> i < 1024 -> HasFlag (mem d i) PTE_P = true ->
    frameOf (entry mem d v) ≠ frameOf (mem d i)
  injective : ∀ v w, Mapped mem d v -> Mapped mem d w ->
    frameOf (entry mem d v) = frameOf (entry mem d w) -> v = w

theorem entry_setWord {mem : Memory} {d frame index v : Nat} (dir : frame ≠ d)
    (tables : ∀ i, i < 1024 -> HasFlag (mem d i) PTE_P = true -> frame ≠ frameOf (mem d i))
    (small : v < 0x100000) : entry (setWord mem frame index value) d v = entry mem d v := by
  unfold entry setWord
  rw [update_of_ne dir.symm]
  by_cases present : HasFlag (mem d (v / 1024)) PTE_P = true
  · rw [if_pos present, if_pos present, update_of_ne (tables _ (by omega) present).symm]
  · rw [if_neg present, if_neg present]

/-- What a store through the page table of process `slot` leaves. -/
structure Stored (slot : Nat) (s : Kernel) (bytes : Bytes) (t : Kernel) : Prop where
  ptable : t.ptable = s.ptable
  beyond : t.beyond = s.beyond
  trapframe : t.trapframe = s.trapframe
  dir : t.mem (s.ptable slot).dir = s.mem (s.ptable slot).dir
  entries : ∀ v, v < 0x100000 ->
    entry t.mem (s.ptable slot).dir v = entry s.mem (s.ptable slot).dir v
  bytes : ∀ a : Word, Mapped s.mem (s.ptable slot).dir (a.toNat / 4096) ->
    flat t.mem (s.ptable slot).dir a = bytes a

variable {slot : Nat} {s t : Kernel} {bytes : Bytes}

theorem Stored.refl : Stored slot s (flat s.mem (s.ptable slot).dir) s :=
  ⟨rfl, rfl, rfl, rfl, fun _ _ => rfl, fun _ _ => rfl⟩

/-- The kernel may store at this address without a fault. -/
def Writable (slot : Nat) (s : Kernel) (a : Word) : Prop :=
  a.toNat < KERNBASE /\ permits s.mem (s.ptable slot).dir a.toNat false true = true

variable {a : Word}

theorem Writable.mapped (writable : Writable slot s a) :
    Mapped s.mem (s.ptable slot).dir (a.toNat / 4096) := by
  have checked := writable.2
  have low := writable.1
  unfold KERNBASE at low
  simp only [permits, Bool.and_eq_true] at checked
  exact ⟨by omega, checked.1.2⟩

theorem page_lt (a : Word) : a.toNat / 4096 < 0x100000 := by
  have bound := a.isLt
  omega

theorem Stored.permits (stored : Stored slot s bytes t) :
    permits t.mem (s.ptable slot).dir a.toNat false true =
    permits s.mem (s.ptable slot).dir a.toNat false true := by
  unfold Machine.permits
  rw [stored.dir, stored.entries _ (page_lt a)]

variable [L : Layout]

omit L in
theorem Stored.noted {trace : List Access} (stored : Stored slot s bytes t) :
    Stored slot s bytes { t with trace := trace } :=
  ⟨stored.ptable, stored.beyond, stored.trapframe, stored.dir, stored.entries, stored.bytes⟩

/-- The word that `handlers[signum]` of a process names. -/
def handlerOf (s : Kernel) (slot : Nat) (signum : Word) : Word :=
  match tableWord (handlerAddr slot signum) with
  | some (other, index) => procWord (s.ptable other) index
  | none => s.beyond (BitVec.ofNat 32 (handlerAddr slot signum))

theorem ensures_loadHandler (signum : Word) {returned : Word -> Kernel -> Prop}
    {stopped : Stop -> Kernel -> Prop} :
    Ensures (loadHandler slot signum) s returned stopped <->
      returned (handlerOf s slot signum) { s with trace := .handler slot signum.toNat :: s.trace } := by
  rw [loadHandler, handlerOf, ensures_bind, ensures_note, ensures_bind, ensures_get]
  cases tableWord (handlerAddr slot signum) <;> exact ensures_pure ..

/-- The registers in a trap frame and the bytes of the process. -/
def view (slot : Nat) (s : Kernel) : Cpu where
  eip := (s.trapframe slot).eip
  esp := (s.trapframe slot).esp
  eax := (s.trapframe slot).eax
  ecx := (s.trapframe slot).ecx
  edx := (s.trapframe slot).edx
  mem := flat s.mem (s.ptable slot).dir

end PageTable

theorem onePage_separate : Separate System.onePage.mem 1 := by
  have table : ∀ i, HasFlag (System.onePageMemory 1 i) PTE_P = true -> i = 0 := by
    intro i present
    by_contra other
    simp [System.onePageMemory, other] at present
  have only : ∀ v, Mapped System.onePage.mem 1 v -> v = 1 := by
    intro v mapped
    have mapped : HasFlag (entry System.onePageMemory 1 v) PTE_P = true := mapped.2
    unfold entry at mapped
    split at mapped
    next present =>
      have low := table _ present
      by_contra other
      rw [low] at mapped
      change HasFlag (System.onePageMemory 2 (v % 1024)) PTE_P = true at mapped
      simp [System.onePageMemory, show v % 1024 ≠ 1 by omega] at mapped
    next => cases mapped
  constructor
  · intro v mapped
    rw [only v mapped]
    decide
  · intro v i mapped _ present
    rw [only v mapped, table i present]
    decide
  · exact fun v w first second _ => (only v first).trans (only w second).symm

/-- A process whose whole address space is accessible. -/
def userMemory : Set Word := fun b => b.toNat < KERNBASE

/-- A process interrupted with its stack at `0x3000`. -/
def interrupted : Cpu := ⟨0x100#32, 0x3000#32, 1#32, 2#32, 3#32, fun _ => 0#8⟩

/-- The registers of a trap frame that delivery does not use. -/
def noFrame : TrapFrame := ⟨0#32, 0#32, 0#32, 0#32, 0#32, 0#32, 0#32, 0#32⟩

/-- A first delivery whose handler clobbers `ecx` and is interrupted by a second one. -/
theorem delivery_transparent_nested : ∃ v : Cpu,
    Runs 0x50#32 (saved interrupted) (deliver interrupted noFrame 0x50#32 0x200#32 1#32
      ⟨5#32, 1#32⟩) v /\
      (handlerReturns 0x50#32 v).ecx = interrupted.ecx := by
  have user : ∀ b : Word, b ∈ userMemory -> b.toNat < KERNBASE := fun _ below => below
  generalize entered : deliver interrupted noFrame 0x50#32 0x200#32 1#32 ⟨5#32, 1#32⟩ = first
  have esp : first.esp = 0x2fe0#32 := by
    rw [<- entered]
    rfl
  -- the handler has changed `ecx` when the second signal comes
  have inner := delivery_transparent userMemory { first with ecx := 0#32 }
    (deliver { first with ecx := 0#32 } noFrame 0x50#32 0x200#32 14#32 ⟨7#32, 0#32⟩) noFrame 0x50#32
    0x200#32 14#32 ⟨7#32, 0#32⟩ user (fun k small => by
      change (first.esp - 32#32 + BitVec.ofNat 32 k).toNat < KERNBASE
      rw [esp]
      simp only [KERNBASE, BitVec.toNat_add, BitVec.toNat_sub, BitVec.toNat_ofNat]
      omega) (.done _ _) rfl
  generalize back : handlerReturns 0x50#32
    (deliver { first with ecx := 0#32 } noFrame 0x50#32 0x200#32 14#32 ⟨7#32, 0#32⟩) = v at inner
  have runs : Runs 0x50#32 (saved interrupted) first v := by
    have kept : ∀ b, b ∈ saved interrupted ->
        ({ first with ecx := 0#32 } : Cpu).mem b = first.mem b := fun _ _ => rfl
    apply Runs.act kept
    apply Runs.interrupt noFrame 0x200#32 14#32 ⟨7#32, 0#32⟩ _ (.done _ _) rfl (back ▸ .done _ _)
    apply saved_below
    · decide
    · change first.esp.toNat <= _
      rw [esp]
      decide
  have outer := delivery_transparent userMemory interrupted v noFrame 0x50#32 0x200#32 1#32 ⟨5#32, 1#32⟩
    user (fun k small => by
      change (0x3000#32 - 32#32 + BitVec.ofNat 32 k).toNat < KERNBASE
      simp only [KERNBASE, BitVec.toNat_add, BitVec.toNat_sub, BitVec.toNat_ofNat]
      omega) (entered ▸ runs) (inner.1.2.1.trans (entered ▸ rfl))
  exact ⟨v, runs, outer.1.2.2.2.1⟩

end Xv6.User
