import Xv6.Ownership.Protect
import Xv6.Process.Trap

namespace Xv6.System

open Library Machine Memory Process Ownership
open Function

/-!
# The protection that a `SIGSEGV` handler is told

`trap` computes `si.type` from the error code of the page fault, and the error
code only says whether the page was there and whether the access was a write.
`mprotect` sets the page as present for every protection that it knows.  So a
read that faults is reported as `PROT_NONE` and a write as `PROT_READ`,
whatever `mprotect` was last asked for.

The process shares no pages, and its page table is any in which the tables are
frames of their own.
-/

/-- The tables of a page directory are different frames, and none is the directory. -/
structure Proper (m : Memory) (d : Nat) : Prop where
  dir : ∀ i, HasFlag (m d i) PTE_P = true -> frameOf (m d i) ≠ d
  distinct : ∀ i j, HasFlag (m d i) PTE_P = true -> HasFlag (m d j) PTE_P = true ->
    frameOf (m d i) = frameOf (m d j) -> i = j

/-- A call of `mprotect`. -/
structure Call where
  addr : Word
  len : Word
  prot : Word

/-- A run of calls of `mprotect` that all return. -/
inductive Calls (d : Nat) : Kernel -> List Call -> Kernel -> Prop where
  | nil (s : Kernel) : Calls d s [] s
  | cons {s t u : Kernel} {result : Int} {call : Call} {rest : List Call}
      (run : mprotect d call.addr call.len call.prot s = .ok result t) (later : Calls d t rest u) :
      Calls d s (call :: rest) u

/-- The protection that was set last on page `v`. -/
def lastProt (v : Nat) : List Call -> Option Word -> Option Word
  | [], last => last
  | call :: rest, last => lastProt v rest (if Visits call.addr call.len v then some call.prot else last)

/-! ## What `mprotect` does to the entries -/

variable {s t : Kernel}

section Entries

variable {m : Memory} {d : Nat} {prot : Word} {bound : Nat}

/-- Writing an entry changes that entry alone. -/
theorem Proper.entry_setWord (proper : Proper m d) {c w : Nat} {value : Word}
    (there : HasFlag (m d (c / 1024)) PTE_P = true) :
    entry (setWord m (frameOf (m d (c / 1024))) (c % 1024) value) d w =
      if w = c then value else entry m d w := by
  have apart := proper.dir _ there
  unfold entry setWord
  rw [update_of_ne apart.symm]
  by_cases present : HasFlag (m d (w / 1024)) PTE_P = true
  · rw [if_pos present, if_pos present]
    by_cases table : frameOf (m d (w / 1024)) = frameOf (m d (c / 1024))
    · have slot := proper.distinct _ _ present there table
      rw [table, update_self]
      by_cases same : w = c
      · rw [if_pos same, same, update_self]
      · rw [if_neg same, update_of_ne (by omega)]
    · have ne : w ≠ c := fun same => table (by rw [same])
      rw [if_neg ne, update_of_ne table]
  · have ne : w ≠ c := fun same => present (same ▸ there)
    rw [if_neg present, if_neg present, if_neg ne]

/-- The entries for which `visited` holds have a new protection, and the directory is the same. -/
structure Reprotects (d : Nat) (prot : Word) (visited : Nat -> Prop) [DecidablePred visited]
  (s t : Kernel) : Prop where
  dir : t.mem d = s.mem d
  ptable : t.ptable = s.ptable
  entries : ∀ w, w < 0x100000 -> entry t.mem d w =
    if visited w then reprotected prot (entry s.mem d w) else entry s.mem d w

theorem Proper.congr {n : Memory} (proper : Proper m d) (same : n d = m d) : Proper n d := by
  constructor
  · rw [same]
    exact proper.dir
  · rw [same]
    exact proper.distinct

/-- One pass of the loop. -/
theorem reprotects_page {s : Kernel} {c : Nat} (prot : Word) (proper : Proper s.mem d)
    (there : HasFlag (s.mem d (c / 1024)) PTE_P = true) :
    Reprotects d prot (fun w => w = c) s
      (protecting s (frameOf (s.mem d (c / 1024))) (c % 1024) prot (entry s.mem d c)) := by
  have apart := proper.dir _ there
  generalize middle : s.setMem (setWord s.mem (frameOf (s.mem d (c / 1024))) (c % 1024)
    (entry s.mem d c &&& 0xfffffff9#32)) = t
  have same : t.mem d = s.mem d := by
    rw [<- middle]
    exact update_of_ne apart.symm _ _
  have cleared : ∀ w, entry t.mem d w =
      if w = c then entry s.mem d c &&& 0xfffffff9#32 else entry s.mem d w := by
    intro w
    rw [<- middle]
    exact proper.entry_setWord there
  have again : HasFlag (t.mem d (c / 1024)) PTE_P = true := by
    rw [same]
    exact there
  constructor
  · change setWord (s.setMem _).mem _ _ _ d = _
    rw [middle, setWord, update_of_ne apart.symm, same]
  · rfl
  · intro w _
    change entry (setWord (s.setMem _).mem _ _ _) d w = _
    rw [middle, <- same, (proper.congr same).entry_setWord again]
    by_cases here : w = c
    · rw [if_pos here, if_pos here, here]
    · rw [if_neg here, if_neg here, cleared, if_neg here]

theorem Reprotects.trans {first second whole : Nat -> Prop} [DecidablePred first]
    [DecidablePred second] [DecidablePred whole] {s t u : Kernel}
    (one : Reprotects d prot first s t) (two : Reprotects d prot second t u)
    (apart : ∀ w, first w -> ¬ second w) (both : ∀ w, whole w <-> first w ∨ second w) :
    Reprotects d prot whole s u := by
  constructor
  · exact two.dir.trans one.dir
  · exact two.ptable.trans one.ptable
  · intro w small
    rw [two.entries w small, one.entries w small]
    by_cases early : first w
    · rw [if_pos early, if_neg (apart w early), if_pos ((both w).mpr (.inl early))]
    · by_cases late : second w
      · rw [if_neg early, if_pos late, if_pos ((both w).mpr (.inr late))]
      · rw [if_neg early, if_neg late, if_neg fun visited => ((both w).mp visited).elim early late]

theorem mprotectLoop_entries (reachable : bound <= 0xFFFFF000) (passes : Nat) :
    ∀ (s : Kernel) (c : Nat), c < 0x100000 -> Proper s.mem d ->
      Ensures (mprotectLoop d prot bound passes (c * 4096)) s
        (fun _ t => Reprotects d prot (VisitsFrom bound c) s t) (fun _ _ => True) := by
  induction passes with
  | zero =>
    intro s c _ _
    rw [mprotectLoop, ensures_throw]
    trivial
  | succ passes step =>
    intro s c inside proper
    have page : c * 4096 / 4096 = c := by omega
    have next : (c * 4096 + PGSIZE) % 2 ^ 32 = (c + 1) % 2 ^ 20 * 4096 := by
      unfold PGSIZE
      omega
    rw [mprotectLoop, ensures_bind, ensures_walkpgdir (by omega), page]
    by_cases table : HasFlag (s.mem d (c / 1024)) PTE_P = true
    · have first := reprotects_page prot proper table
      rw [if_pos table]
      simp only [ensures_bind, ensures_readWord, ensures_writeWord]
      rw [<- entry_of_table (target_of_present table), next]
      change Ensures _ (protecting s (frameOf (s.mem d (c / 1024))) (c % 1024) prot (entry s.mem d c)) _ _
      generalize protecting s (frameOf (s.mem d (c / 1024))) (c % 1024) prot (entry s.mem d c) =
        t at first ⊢
      have onward : (c + 1) % 2 ^ 20 < 0x100000 := Nat.mod_lt _ (by decide)
      by_cases more : (c + 1) % 2 ^ 20 * 4096 < bound
      · rw [if_pos more]
        apply (step t _ onward (proper.congr first.dir)).mono
        · intro _ u rest
          -- the cursor is below the last page now, so it does not wrap again
          apply first.trans rest
          · intro w here visited
            unfold VisitsFrom at visited
            omega
          · intro w
            unfold VisitsFrom
            omega
        · intro _ _ _
          trivial
      · rw [if_neg more, ensures_pure]
        have only : ∀ w, VisitsFrom bound c w <-> w = c := by
          intro w
          unfold VisitsFrom
          omega
        refine ⟨first.dir, first.ptable, ?_⟩
        intro w small
        rw [first.entries w small]
        simp only [only]
    · rw [if_neg table]
      simp

/-- `mprotect` gives the pages that it visits the new protection, and does nothing else. -/
theorem mprotect_entries {addr len : Word} {result : Int} (proper : Proper s.mem d)
    (run : mprotect d addr len prot s = .ok result t) :
    Reprotects d prot (Visits addr len) s t := by
  have start : PGROUNDDOWN addr.toNat = addr.toNat / 4096 * 4096 := rfl
  have inside : addr.toNat / 4096 < 0x100000 := by
    have small := addr.isLt
    omega
  have spec : Ensures (mprotect d addr len prot) s
      (fun _ t => Reprotects d prot (Visits addr len) s t) (fun _ _ => True) := by
    rw [mprotect, ensures_bind, start]
    by_cases last : 0xFFFFF000 < (addr + len).toNat
    · exact (mprotectLoop_diverges last _ s _ inside).mono (fun _ _ impossible => impossible.elim)
        (fun _ _ _ => trivial)
    · apply (mprotectLoop_entries (by omega) _ s _ inside proper).mono
      · intro _ u done
        rw [ensures_bind, ensures_lcr3, ensures_pure]
        exact ⟨done.dir, done.ptable, done.entries⟩
      · intro _ _ _
        trivial
  exact spec.of_ok run

/-- A call of `mprotect` for one page returns, and has written to its entry. -/
theorem mprotect_returns (d : Nat) (s : Kernel) (addr len prot : Word)
    (there : HasFlag (s.mem d (addr.toNat / 4096 / 1024)) PTE_P = true)
    (one : (addr + len).toNat <= (addr.toNat / 4096 + 1) * 4096)
    (low : addr.toNat / 4096 + 1 < 0x100000) :
    mprotect d addr len prot s =
      .ok 0 (flushed (protecting s (frameOf (s.mem d (addr.toNat / 4096 / 1024)))
      (addr.toNat / 4096 % 1024) prot (s.mem (frameOf (s.mem d (addr.toNat / 4096 / 1024)))
        (addr.toNat / 4096 % 1024))) d) := by
  have start : PGROUNDDOWN addr.toNat = addr.toNat / 4096 * 4096 := rfl
  have page : addr.toNat / 4096 * 4096 / 4096 = addr.toNat / 4096 := by omega
  have next : (addr.toNat / 4096 * 4096 + PGSIZE) % 2 ^ 32 = (addr.toNat / 4096 + 1) * 4096 := by
    unfold PGSIZE
    omega
  apply Ensures.eq_ok
  rw [mprotect, ensures_bind, start]
  change Ensures (mprotectLoop d prot _ (1048575 + 1) _) s _ _
  rw [mprotectLoop, ensures_bind, ensures_walkpgdir (by omega), page, if_pos there]
  simp only [ensures_bind, ensures_readWord, ensures_writeWord]
  rw [next, if_neg (by omega), ensures_pure, ensures_lcr3, ensures_pure]
  exact ⟨rfl, rfl⟩

end Entries

/-! ## The flags of a page -/

/-- The entry has the flags of a protection that `mprotect` knows. -/
def Carries (e prot : Word) : Prop :=
  protFlags prot ≠ 0#32 ->
    HasFlag e PTE_P = true /\ HasFlag e PTE_U = HasFlag (protFlags prot) PTE_U /\
      HasFlag e PTE_W = HasFlag (protFlags prot) PTE_W

theorem carries_reprotected (e prot : Word) : Carries (reprotected prot e) prot := by
  intro known
  have present : HasFlag (protFlags prot) PTE_P = true := by
    revert known
    unfold protFlags
    repeat' split
    all_goals decide
  have write : HasFlag (e &&& 0xfffffff9#32) PTE_W = false := by
    have none : 0xfffffff9#32 &&& PTE_W = 0#32 := by decide
    rw [hasFlag_and, none, HasFlag, BitVec.and_zero]
    rfl
  unfold reprotected
  rw [hasFlag_or, hasFlag_or, hasFlag_or, masked_user, write, present]
  exact ⟨Bool.or_true _, Bool.false_or _, Bool.false_or _⟩

/-- After a run of calls a page has the flags of the protection that was set last. -/
theorem Calls.carries {d v : Nat} {calls : List Call} (run : Calls d s calls t)
    (small : v < 0x100000) :
    Proper s.mem d -> ∀ last :
      Option Word, (∀ prot, last = some prot -> Carries (entry s.mem d v) prot) ->
      ∀ prot, lastProt v calls last = some prot -> Carries (entry t.mem d v) prot := by
  induction run with
  | nil s =>
    intro _ last before prot found
    exact before prot found
  | cons run later step =>
    rename_i s t u result call rest
    intro proper last before prot found
    have done := mprotect_entries proper run
    apply step (proper.congr done.dir) _ _ prot found
    intro set same
    rw [done.entries v small]
    by_cases visited : Visits call.addr call.len v
    · rw [if_pos visited] at same
      rw [if_pos visited]
      cases same
      exact carries_reprotected _ _
    · rw [if_neg visited] at same
      rw [if_neg visited]
      exact before set same

theorem Calls.frame {d : Nat} {calls : List Call} (run : Calls d s calls t) :
    Proper s.mem d -> t.mem d = s.mem d /\ t.ptable = s.ptable := by
  induction run with
  | nil s =>
    intro _
    exact ⟨rfl, rfl⟩
  | cons run later step =>
    intro proper
    have done := mprotect_entries proper run
    have rest := step (proper.congr done.dir)
    exact ⟨rest.1.trans done.dir, rest.2.trans done.ptable⟩

/-! ## The page fault -/

/-- A page table of user memory is present, writable and open to the user. -/
def UserTable (pde : Word) : Prop :=
  HasFlag pde PTE_P = true /\ HasFlag pde PTE_W = true /\ HasFlag pde PTE_U = true

theorem permits_user {m : Memory} {d va : Nat} {write : Bool}
    (table : UserTable (m d (va / 4096 / 1024)))
    (present : HasFlag (entry m d (va / 4096)) PTE_P = true) :
    permits m d va true write =
      (HasFlag (entry m d (va / 4096)) PTE_U &&
      (!write || HasFlag (entry m d (va / 4096)) PTE_W)) := by
  simp only [permits, table.1, table.2.1, table.2.2, present, Bool.true_and, Bool.not_true, Bool.false_or]

/-- The type that `trap` reports does not depend on the protection of a page that is there. -/
theorem faultType_present {m : Memory} {d va : Nat} (write : Bool)
    (table : UserTable (m d (va / 4096 / 1024)))
    (present : HasFlag (entry m d (va / 4096)) PTE_P = true) :
    faultType (faultCode m d va write) = if write then PROT_READ else PROT_NONE := by
  simp only [faultCode, table.1, present, Bool.true_and]
  cases write <;> decide

/-- The next protection up, as the handler of `test_mprotect` chooses it. -/
def raised (type : Word) : Word := if type = PROT_READ then PROT_READ ||| PROT_WRITE else PROT_READ

section Trap

variable [L : Layout]

/-- `trap` with a `siginfo_t`: deliver `SIGSEGV` when there is a handler. -/
def deliverSegv (slot : Nat) (si : SigInfo) : K Unit := do
  let handler ← loadHandler slot (BitVec.ofNat 32 SIGSEGV)
  if handler ≠ NOHANDLER then signalDeliver slot (BitVec.ofNat 32 SIGSEGV) si else return ()

/-- In a process that shares no pages, the page-fault case delivers `SIGSEGV` with the type of the
error code. -/
theorem pageFaultCase_unshared {slot : Nat} {tf : TrapFrame} {s : Kernel}
    (unshared : (s.ptable slot).shared ≠ 1#32) :
    pageFaultCase slot tf s =
      deliverSegv slot ⟨s.cr2, faultType tf.err⟩
        { s with trace := .pageFault slot :: s.trace } := by
  have opened : pageFaultCase slot tf s =
      (if (s.ptable slot).shared = 1#32 then handleCowFault (s.ptable slot).dir s.cr2.toNat
        else deliverSegv slot ⟨s.cr2, faultType tf.err⟩ : K Unit)
          { s with trace := .pageFault slot :: s.trace } := rfl
  rw [opened, if_neg unshared]

/-- A process shares no pages, and after a run of `mprotect` calls the last protection set on a page
is `prot`.  An access to the page faults.  The type that the handler of `SIGSEGV` is told is `prot`
exactly for a read of a `PROT_NONE` page and a write to a `PROT_READ` page.  Whatever it is told,
raising the page from there by one level lets the access succeed. -/
theorem fault_type_iff {slot : Nat} {s t : Kernel} {calls : List Call} {va : Nat} {write : Bool}
    {prot : Word} {tf : TrapFrame} (proper : Proper s.mem (s.ptable slot).dir)
    (unshared : (s.ptable slot).shared ≠ 1#32) (user : va < KERNBASE)
    (table : UserTable (s.mem (s.ptable slot).dir (va / 4096 / 1024)))
    (run : Calls (s.ptable slot).dir s calls t) (last : lastProt (va / 4096) calls none = some prot)
    (named : prot = PROT_NONE ∨ prot = PROT_READ ∨ prot = PROT_WRITE)
    (faults : permits t.mem (s.ptable slot).dir va true write = false)
    (err : tf.err = faultCode t.mem (s.ptable slot).dir va write) :
    ∃ type,
      (pageFaultCase slot tf { t with cr2 := BitVec.ofNat 32 va } =
        deliverSegv slot ⟨BitVec.ofNat 32 va, type⟩
          { t with cr2 := BitVec.ofNat 32 va, trace := .pageFault slot :: t.trace }) /\
      (type = prot <-> prot = PROT_NONE /\ write = false ∨ prot = PROT_READ) /\
      ∀ addr len u result, Visits addr len (va / 4096) ->
        mprotect (s.ptable slot).dir addr len (raised type) t = .ok result u ->
          permits u.mem (s.ptable slot).dir va true write = true := by
  have small : va / 4096 < 0x100000 := by
    unfold KERNBASE at user
    omega
  have known : protFlags prot ≠ 0#32 := by
    rcases named with rfl | rfl | rfl <;> decide
  rcases run.frame proper with ⟨dir, ptable⟩
  rcases run.carries small proper none (fun _ wrong => nomatch wrong) prot last
    known with ⟨present, opened, writable⟩
  have there : UserTable (t.mem (s.ptable slot).dir (va / 4096 / 1024)) := by
    rw [dir]
    exact table
  have type := faultType_present write there present
  refine ⟨faultType tf.err, ?_, ?_, ?_⟩
  · apply pageFaultCase_unshared
    change (t.ptable slot).shared ≠ 1#32
    rw [ptable]
    exact unshared
  · rw [permits_user there present, opened, writable] at faults
    rw [err, type]
    revert faults
    rcases named with rfl | rfl | rfl <;> cases write <;> decide
  · intro addr len u result visited again
    have done := mprotect_entries (proper.congr dir) again
    have table : UserTable (u.mem (s.ptable slot).dir (va / 4096 / 1024)) := by
      rw [done.dir]
      exact there
    have level : protFlags (raised (faultType tf.err)) ≠ 0#32 := by
      rw [err, type]
      cases write <;> decide
    rcases carries_reprotected (entry t.mem (s.ptable slot).dir (va / 4096))
      _ level with ⟨now, reads, writes⟩
    have entry := done.entries (va / 4096) small
    rw [if_pos visited] at entry
    rw [<- entry] at now reads writes
    rw [permits_user table now, reads, writes, err, type]
    cases write <;> decide

end Trap

/-! ## A process with one page -/

/-- Frame 1 is the directory, frame 2 its only table, and frame 3 the page at `0x1000`. -/
def onePageMemory : Memory := fun frame index =>
  if frame = 1 /\ index = 0 then 0x2007#32 else if frame = 2 /\ index = 1 then 0x3007#32 else 0#32

def onePageProc : Proc where
  sz := 0x2000#32
  pgdir := 0x80001000#32
  kstack := 0#32
  state := .RUNNING
  pid := 1#32
  parent := 0#32
  tf := 0#32
  context := 0#32
  chan := 0#32
  killed := 0#32
  ofile := fun _ => 0#32
  cwd := 0#32
  name := fun _ => 0#32
  handlers := fun _ => 0x400#32
  restorerAddr := 0x500#32
  shared := 0#32

def onePage : Kernel where
  mem := onePageMemory
  freelist := []
  pteArray := fun _ => 0#8
  ptable := fun _ => onePageProc
  beyond := fun _ => 0x400#32
  trapframe := fun _ => ⟨0#32, 0#32, 0#32, 14#32, 0#32, 0#32, 3#32, 0x1800#32⟩
  nextpid := 2#32
  initproc := 0
  kpgdir := 0
  cpustacks := []
  ftable := fun _ => ⟨.FD_NONE, 0, false, false, 0⟩
  pipes := fun _ => ⟨fun _ => 0#8, 0#32, 0#32, false, false⟩
  cr2 := 0#32
  cr3 := 1
  tlb := fun _ _ => False
  running := some 0
  trace := []

theorem onePage_proper : Proper onePage.mem (onePage.ptable 0).dir := by
  have only : ∀ i, HasFlag (onePage.mem (onePage.ptable 0).dir i) PTE_P = true -> i = 0 := by
    intro i present
    by_contra other
    have zero : onePage.mem (onePage.ptable 0).dir i = 0#32 := by
      change onePageMemory 1 i = _
      simp [onePageMemory, other]
    rw [zero, hasFlag_zero] at present
    cases present
  constructor
  · intro i present
    rw [only i present]
    decide
  · intro i j first second _
    rw [only i first, only j second]

theorem onePage_calls (prot : Word) :
    ∃ t, Calls (onePage.ptable 0).dir onePage [⟨0x1000#32, 4#32, prot⟩] t := by
  have run := mprotect_returns (onePage.ptable 0).dir onePage 0x1000#32 4#32 prot (by decide)
      (by decide) (by decide)
  exact ⟨_, .cons run (.nil _)⟩

theorem onePage_table : UserTable (onePage.mem (onePage.ptable 0).dir (0x1000 / 4096 / 1024)) := by
  refine ⟨?_, ?_, ?_⟩ <;> decide

/-- The page after that call. -/
theorem onePage_after {prot : Word} {t : Kernel} (known : protFlags prot ≠ 0#32)
    (run : Calls (onePage.ptable 0).dir onePage [⟨0x1000#32, 4#32, prot⟩] t) :
    lastProt (0x1000 / 4096) [⟨0x1000#32, 4#32, prot⟩] none = some prot /\
      UserTable (t.mem (onePage.ptable 0).dir (0x1000 / 4096 / 1024)) /\
      HasFlag (entry t.mem (onePage.ptable 0).dir (0x1000 / 4096)) PTE_P = true /\
      ∀ write, permits t.mem (onePage.ptable 0).dir 0x1000 true write =
        (HasFlag (protFlags prot) PTE_U && (!write || HasFlag (protFlags prot) PTE_W)) := by
  have visited : Visits 0x1000#32 4#32 (0x1000 / 4096) := by
    decide
  have last : lastProt (0x1000 / 4096) [⟨0x1000#32, 4#32, prot⟩] none = some prot := by
    rw [lastProt, lastProt, if_pos visited]
  rcases run.carries (by decide) onePage_proper none (fun _ wrong => nomatch wrong) prot last known with
    ⟨present, opened, writable⟩
  have table : UserTable (t.mem (onePage.ptable 0).dir (0x1000 / 4096 / 1024)) := by
    rw [(run.frame onePage_proper).1]
    exact onePage_table
  refine ⟨last, table, present, ?_⟩
  intro write
  rw [permits_user table present, opened, writable]

/-- A write to a page that was last set to `PROT_READ`. -/
theorem fault_type_iff_read : ∃ t : Kernel, ∃ tf : TrapFrame,
    permits t.mem (onePage.ptable 0).dir 0x1000 true true = false /\
      pageFaultCase (L := kernelSym) 0 tf { t with cr2 := 0x1000#32 } =
        deliverSegv (L := kernelSym) 0 ⟨0x1000#32, PROT_READ⟩
          { t with cr2 := 0x1000#32, trace := .pageFault 0 :: t.trace } := by
  rcases onePage_calls PROT_READ with ⟨t, run⟩
  rcases onePage_after (by decide) run with ⟨last, _, _, allowed⟩
  have faults : permits t.mem (onePage.ptable 0).dir 0x1000 true true = false := allowed true
  have err : { onePage.trapframe 0 with err := faultCode t.mem (onePage.ptable 0).dir 0x1000 true }.err =
      faultCode t.mem (onePage.ptable 0).dir 0x1000 true := rfl
  rcases fault_type_iff (L := kernelSym) onePage_proper (by decide) (by decide) onePage_table run
    last (.inr (.inl rfl)) faults err with ⟨type, delivered, same, _⟩
  rw [same.mpr (.inr rfl)] at delivered
  exact ⟨t, _, faults, delivered⟩

/-- A write to a page that was last set to `PROT_NONE` is reported like one to a readable page. -/
theorem none_write_reported_read : ∃ t : Kernel, ∃ tf : TrapFrame,
    Calls (onePage.ptable 0).dir onePage [⟨0x1000#32, 4#32, PROT_NONE⟩] t /\
      lastProt (0x1000 / 4096) [⟨0x1000#32, 4#32, PROT_NONE⟩] none = some PROT_NONE /\
      permits t.mem (onePage.ptable 0).dir 0x1000 true true = false /\
      tf.err = faultCode t.mem (onePage.ptable 0).dir 0x1000 true /\
      pageFaultCase (L := kernelSym) 0 tf { t with cr2 := 0x1000#32 } =
        deliverSegv (L := kernelSym) 0 ⟨0x1000#32, PROT_READ⟩
          { t with cr2 := 0x1000#32, trace := .pageFault 0 :: t.trace } /\
      PROT_READ ≠ PROT_NONE := by
  rcases onePage_calls PROT_NONE with ⟨t, run⟩
  rcases onePage_after (by decide) run with ⟨last, table, present, allowed⟩
  have unshared : (t.ptable 0).shared ≠ 1#32 := by
    rw [(run.frame onePage_proper).2]
    decide
  refine ⟨t, { onePage.trapframe 0 with err := faultCode t.mem (onePage.ptable 0).dir 0x1000 true },
    run, last, allowed true, rfl, ?_, by decide⟩
  refine (pageFaultCase_unshared (L := kernelSym) (s := { t with cr2 := 0x1000#32 }) unshared).trans ?_
  exact congrArg (fun type => deliverSegv (L := kernelSym) 0 ⟨0x1000#32, type⟩ _)
    (faultType_present true table present)

end Xv6.System
