import Xv6.Process.Restorer
import Xv6.Syscall.ReadWrite
import Xv6.System.CowFault

namespace Xv6.System

open Library Machine Memory Ownership Process
open Function
open Syscall (sysRead twoBytes)
open Finset (mem_singleton)

/-!
# The kernel at user addresses

A system call checks its pointers against `proc->sz` only, and then loads and
stores through them, one byte after the other.  `CR0.WP` is set, so that such an
access looks at the page table like one of the process, but for `PTE_U`.  A fault
comes to `trap` as one in user mode does: `handle_cow_fault` in a process that is
marked as shared, and otherwise the signal of the process, or nothing at all.
Each copy takes a free page and a count, so that the accesses of one call depend
on each other.
-/

/-! ## Every outcome of `handle_cow_fault` -/

/-- The entry for `addr` that `handle_cow_fault` leaves, if it returns. -/
def cowEntry (s : Kernel) (d addr : Nat) : Option Word :=
  let pte := entry s.mem d (addr / 4096)
  if addr < KERNBASE /\ HasFlag (s.mem d (addr / 4096 / 1024)) PTE_P = true /\
      HasFlag pte PTE_W = false /\ s.pteArray (frameOf pte) ≠ 0#8 then
    if s.pteArray (comparedIndex (frameOf pte)) ≠ 0#8 then some (pte ||| PTE_W)
    else s.freelist.head?.map copyEntry
  else none

section Fault

variable {dirs : Finset Nat} {s : Kernel} {d addr : Nat}

theorem cowEntry_walked {f : Nat} (walked : Walked s d addr f) :
    cowEntry s d addr =
      if s.pteArray (comparedIndex f) ≠ 0#8 then some (entry s.mem d (addr / 4096) ||| PTE_W)
      else s.freelist.head?.map copyEntry := by
  rw [cowEntry, if_pos ⟨walked.low, walked.table,
    walked.readonly, by rw [walked.frame]; exact walked.counted⟩, walked.frame]

/-- What the fault leaves as it was. -/
structure Handled (s : Kernel) (d addr : Nat) (t : Kernel) : Prop where
  entry : cowEntry s d addr = some (entry t.mem d (addr / 4096))
  dir : t.mem d = s.mem d
  ptable : t.ptable = s.ptable
  trapframe : t.trapframe = s.trapframe

theorem handleCowFault_walked {f : Nat} (placed : Placed dirs s) (member : d ∈ dirs)
    (walked : Walked s d addr f) :
    Ensures (handleCowFault d addr) s (fun _ t => Handled s d addr t)
      (fun _ _ => cowEntry s d addr = none) := by
  have low := walked.page
  have notDir := (placed.table d _ member (show addr / 4096 / 1024 < 1024 by omega) walked.table).1
  have apart : d ≠ frameOf (s.mem d (addr / 4096 / 1024)) := fun same => notDir (same ▸ member)
  apply handleCowFault_rule walked
  · intro other
    refine ⟨?_, update_of_ne apart _ _, rfl, rfl⟩
    rw [cowEntry_walked walked, if_pos other, entry_keeping placed member walked]
  · intro g rest zero list
    have other : d ≠ g := by
      rintro rfl
      exact placed.dir d member (list ▸ List.mem_cons_self)
    have now := entry_unsharing placed member walked list member (show addr / 4096 < 0x100000 by omega)
    rw [if_pos ⟨rfl, rfl⟩] at now
    refine ⟨?_, ?_, rfl, rfl⟩
    · rw [cowEntry_walked walked, if_neg (not_not.mpr zero), list, now]
      rfl
    · exact (update_of_ne apart _ _).trans (update_of_ne other _ _)
  · intro zero list _ _
    rw [cowEntry_walked walked, if_neg (not_not.mpr zero), list]
    rfl

theorem handleCowFault_spec (placed : Placed dirs s) (member : d ∈ dirs) (bound : addr < 2 ^ 32) :
    Ensures (handleCowFault d addr) s (fun _ t => Handled s d addr t)
      (fun _ _ => cowEntry s d addr = none) := by
  by_cases walks : addr < KERNBASE /\ HasFlag (s.mem d (addr / 4096 / 1024)) PTE_P = true /\
      HasFlag (entry s.mem d (addr / 4096)) PTE_W = false /\
        s.pteArray (frameOf (entry s.mem d (addr / 4096))) ≠ 0#8
  · exact handleCowFault_walked placed member ⟨walks.1, walks.2.1, rfl, walks.2.2.1, walks.2.2.2⟩
  · have nothing : cowEntry s d addr = none := by
      rw [cowEntry, if_neg walks]
    rw [handleCowFault]
    by_cases high : KERNBASE <= addr
    · rw [if_pos high, ensures_throw]
      exact nothing
    · rw [if_neg high, ensures_bind, ensures_walkpgdir bound]
      by_cases table : HasFlag (s.mem d (addr / 4096 / 1024)) PTE_P = true
      · rw [if_pos table]
        simp only [ensures_bind, ensures_readWord]
        rw [<- entry_of_table (target_of_present table)]
        by_cases writable : HasFlag (entry s.mem d (addr / 4096)) PTE_W = true
        · rw [if_pos writable, ensures_throw]
          exact nothing
        · rw [if_neg writable]
          simp only [ensures_bind, ensures_get]
          have none : s.pteArray (frameOf (entry s.mem d (addr / 4096))) = 0#8 := by
            by_contra counted
            exact walks ⟨Nat.lt_of_not_le high, table, Bool.eq_false_of_not_eq_true writable, counted⟩
          rw [if_pos none, ensures_throw]
          exact nothing
      · rw [if_neg table, ensures_throw]
        exact nothing

end Fault

/-! ## The pages of one process -/

/-- The page directory `d`, its tables, its user pages and the free pages have different roles.
Empty entries are zero, and no count stands for the pages 0 and 1, which `handle_cow_fault` looks
at. -/
structure Orderly (ρ : Nat -> Role) (d : Nat) (s : Kernel) : Prop where
  dir : ρ d = .dir
  table : ∀ i, i < 1024 -> HasFlag (s.mem d i) PTE_P = true -> ρ (frameOf (s.mem d i)) = .table d i
  page : ∀ v f, v < 0x80000 -> target (entry s.mem d v) = some f -> ρ f = .user v
  absent : ∀ v, v < 0x80000 -> target (entry s.mem d v) = none -> entry s.mem d v = 0#32
  free : ∀ g, g ∈ s.freelist -> ρ g = .free /\ g < 2 ^ 20
  nodup : s.freelist.Nodup
  low : ∀ f, f < 2 -> s.pteArray f = 0#8

namespace Orderly

variable {ρ : Nat -> Role} {s : Kernel} {d addr f g : Nat} {rest : List Nat}

/-- Every process of a sound state is in order. -/
theorem of_sound [L : Layout] {dirs : Finset Nat} (sound : Sound ρ (Scope.whole dirs) s)
    (member : d ∈ dirs) : Orderly ρ d s where
  dir := (sound.tables.dir_iff d).mpr member
  table i bound present :=
    (sound.tables.table d i _ member bound (by simp) (target_of_present present)).1
  page v f small mapped := sound.pages.page d v f member small (by rw [Scope.view_whole, mapped])
  absent v small := by
    have zero := sound.pages.absent d v member small
    rwa [Scope.view_whole] at zero
  free g listed :=
    have free := (sound.frames.free_iff g).mp listed
    ⟨free, sound.frame_lt (by simp [free])⟩
  nodup := sound.frames.nodup
  low f small := by
    refine sound.pages.fixed f (not_not.mp fun used => ?_)
    have above := (sound.frames.allocatable f used).1
    have kernel := L.data_above
    have data := L.ptable_above
    have last := L.ptable_below
    unfold KERNBASE at above
    omega

section Roles

variable (orderly : Orderly ρ d s)

include orderly

theorem not_free {r : Role} (role : ρ f = r) (other : r ≠ .free) : f ∉ s.freelist :=
  fun listed => other (role.symm.trans (orderly.free f listed).1)

theorem placed : Placed {d} s := by
  constructor
  case dir =>
    intro d' same
    rw [mem_singleton.mp same]
    exact orderly.not_free orderly.dir nofun
  case table =>
    intro d' i same bound present
    rw [mem_singleton.mp same] at present ⊢
    have role := orderly.table i bound present
    refine ⟨fun inside => ?_, orderly.not_free role nofun⟩
    rw [mem_singleton.mp inside, orderly.dir] at role
    cases role
  case distinct =>
    intro d' d'' i j same same' bound bounded' present present' frame
    rw [mem_singleton.mp same] at present frame ⊢
    rw [mem_singleton.mp same'] at present' frame ⊢
    have role := orderly.table i bound present
    rw [frame, orderly.table j bounded' present'] at role
    cases role
    exact ⟨rfl, rfl⟩
  case user =>
    intro d' v f same small mapped
    rw [mem_singleton.mp same] at mapped
    have role := orderly.page v f small mapped
    refine ⟨fun inside => ?_, orderly.not_free role nofun, ?_⟩
    · rw [mem_singleton.mp inside, orderly.dir] at role
      cases role
    · rintro d'' i same' bound present rfl
      rw [mem_singleton.mp same'] at present role
      rw [orderly.table i bound present] at role
      cases role
  case free => exact fun g listed => (orderly.free g listed).2

variable (walked : Walked s d addr f)

include walked

/-- A page with a count is there. -/
theorem there : target (entry s.mem d (addr / 4096)) = some f := by
  cases found : target (entry s.mem d (addr / 4096)) with
  | some g => rw [<- walked.frame, (target_eq_some_iff.mp found).2]
  | none =>
    have frame := walked.frame
    rw [orderly.absent _ walked.page found] at frame
    exact absurd (orderly.low f (frame ▸ by decide)) walked.counted

variable (list : s.freelist = g :: rest)

include list

theorem copied_dir : (copied s d addr f g rest).mem d = s.mem d := by
  have low := walked.page
  have role := orderly.table _ (show addr / 4096 / 1024 < 1024 by omega) walked.table
  have apart : d ≠ frameOf (s.mem d (addr / 4096 / 1024)) := by
    intro same
    rw [<- same, orderly.dir] at role
    cases role
  have other : d ≠ g := by
    rintro rfl
    exact orderly.not_free orderly.dir nofun (list ▸ List.mem_cons_self)
  exact (update_of_ne apart _ _).trans (update_of_ne other _ _)

theorem copied_entry {v : Nat} (small : v < 0x100000) : entry (copied s d addr f g rest).mem d v =
    if v = addr / 4096 then copyEntry g else entry s.mem d v := by
  rw [entry_unsharing orderly.placed (Finset.mem_singleton_self d) walked list
    (Finset.mem_singleton_self d) small]
  exact if_congr (and_iff_right rfl) rfl rfl

/-- The copy is a user page now. -/
theorem copied : Orderly (update ρ g (.user (addr / 4096))) d (copied s d addr f g rest) := by
  have first : g ∈ s.freelist := list ▸ List.mem_cons_self
  have nodup := List.nodup_cons.mp (list ▸ orderly.nodup)
  have kept : ∀ {h r}, ρ h = r -> r ≠ .free -> update ρ g (.user (addr / 4096)) h = r := by
    intro h r role other
    refine (update_of_ne ?_ _ _).trans role
    rintro rfl
    exact orderly.not_free role other first
  have page := target_copyEntry (orderly.free g first).2
  constructor
  case dir => exact kept orderly.dir nofun
  case table =>
    intro i bound present
    rw [orderly.copied_dir walked list] at present ⊢
    exact kept (orderly.table i bound present) nofun
  case page =>
    intro v h small mapped
    rw [orderly.copied_entry walked list (by omega)] at mapped
    split at mapped
    next here =>
      cases page.symm.trans mapped
      rw [here, update_self]
    next => exact kept (orderly.page v h small mapped) nofun
  case absent =>
    intro v small empty
    rw [orderly.copied_entry walked list (by omega)] at empty ⊢
    split at empty
    next => cases page.symm.trans empty
    next other =>
      rw [if_neg other]
      exact orderly.absent v small empty
  case free =>
    intro h listed
    have other : h ≠ g := fun same => nodup.1 (same ▸ listed)
    rw [update_of_ne other]
    exact orderly.free h (list ▸ List.mem_cons_of_mem g listed)
  case nodup => exact nodup.2
  case low =>
    intro h small
    refine (update_of_ne ?_ _ _).trans (orderly.low h small)
    rintro rfl
    exact walked.counted (orderly.low h small)

end Roles

end Orderly

/-! ## One access -/

section Access

variable [L : Layout]

variable {s : Kernel} {slot : Nat} {address : Word} {write : Bool} {tf : TrapFrame}

/-- A delivery moves the stack pointer of the process. -/
theorem signalDeliver_esp (signum : Word) (si : SigInfo) :
    Ensures (signalDeliver slot signum si) s
      (fun _ t => (t.trapframe slot).esp = (s.trapframe slot).esp - 32#32) (fun _ _ => True) := by
  rw [signalDeliver, ensures_bind, ensures_get, ensures_bind]
  refine .of_forall (fun _ _ => ?_) fun _ _ => trivial
  rw [ensures_bind]
  refine .of_forall (fun _ _ => ?_) fun _ _ => trivial
  rw [ensures_bind]
  refine .of_forall (fun _ _ => ?_) fun _ _ => trivial
  rw [ensures_modify]
  simp only [update_self]

end Access

/-! ## A whole call -/

/-- The entries for an address are present, and the table may be written through for a store. -/
def Present (mem : Memory) (d a : Nat) (write : Bool) : Prop :=
  HasFlag (mem d (a / 4096 / 1024)) PTE_P = true /\ HasFlag (entry mem d (a / 4096)) PTE_P = true /\
    (write = true -> HasFlag (mem d (a / 4096 / 1024)) PTE_W = true)

instance {mem : Memory} {d a : Nat} {write : Bool} : Decidable (Present mem d a write) :=
  inferInstanceAs (Decidable (_ /\ _ /\ _))

/-- The pages to which is stored although their entries are for reading. -/
def readonlyPages (mem : Memory) (d : Nat) (accesses : List (Word × Bool)) : Finset Nat :=
  ((accesses.filter fun e => e.2 && !HasFlag (entry mem d (e.1.toNat / 4096)) PTE_W).map
    fun e => e.1.toNat / 4096).toFinset

/-- All pages are there.  Those that are stored to and are for reading are user pages with a count,
and there are enough free pages for the copies. -/
structure Provided (d : Nat) (accesses : List (Word × Bool)) (s : Kernel) : Prop where
  present : ∀ e, e ∈ accesses -> Present s.mem d e.1.toNat e.2
  counted : ∀ v, v ∈ readonlyPages s.mem d accesses ->
    v < 0x80000 /\ s.pteArray (frameOf (entry s.mem d v)) ≠ 0#8
  free : (readonlyPages s.mem d accesses).card <= s.freelist.length

section Provision

variable {ρ : Nat -> Role} {s : Kernel} {d v : Nat} {address : Word} {write : Bool}
  {accesses : List (Word × Bool)}

theorem mem_readonlyPages {mem : Memory} : v ∈ readonlyPages mem d accesses <->
    ∃ a, (a, true) ∈ accesses /\ a.toNat / 4096 = v /\ HasFlag (entry mem d v) PTE_W = false := by
  unfold readonlyPages
  simp only [List.mem_toFinset, List.mem_map, List.mem_filter, Bool.and_eq_true, Bool.not_eq_true',
    Prod.exists]
  constructor
  · rintro ⟨a, write, ⟨listed, store, readonly⟩, rfl⟩
    exact ⟨a, store ▸ listed, rfl, readonly⟩
  · rintro ⟨a, listed, rfl, readonly⟩
    exact ⟨a, true, ⟨listed, rfl, readonly⟩, rfl⟩

theorem permits_iff {mem : Memory} {a : Nat} : permits mem d a false write = true <->
    Present mem d a write /\ (write = true -> HasFlag (entry mem d (a / 4096)) PTE_W = true) := by
  cases write <;> simp [permits, Present, and_assoc]

/-- An access that is refused although its page is there stores to a page for reading. -/
theorem Provided.refused (provided : Provided d ((address, write) :: accesses) s)
    (refused : permits s.mem d address.toNat false write ≠ true) :
    write = true /\ address.toNat / 4096 ∈ readonlyPages s.mem d
      ((address, write) :: accesses) := by
  have store : write = true /\ HasFlag (entry s.mem d (address.toNat / 4096)) PTE_W = false := by
    by_contra other
    refine refused (permits_iff.mpr ⟨provided.present (address, write) List.mem_cons_self,
      fun store => ?_⟩)
    by_contra readonly
    exact other ⟨store, Bool.eq_false_of_not_eq_true readonly⟩
  exact ⟨store.1, mem_readonlyPages.mpr ⟨address, store.1 ▸ List.mem_cons_self, rfl, store.2⟩⟩

section Copy

variable {f g : Nat} {rest : List Nat} (orderly : Orderly ρ d s) (walked : Walked s d address.toNat f)
  (list : s.freelist = g :: rest)

include orderly walked list

end Copy

end Provision

section Calls

variable [L : Layout]

variable {ρ : Nat -> Role} {s : Kernel} {slot : Nat} {address : Word} {write : Bool}
  {accesses : List (Word × Bool)} {frame : Word -> TrapFrame}

section

variable (orderly : Orderly ρ (s.ptable slot).dir s)

include orderly

end

end Calls

/-- The page is shared by two processes, and the process is marked. -/
def twoSharers : Kernel :=
  { sharedPage 2#8 with ptable := fun _ => { onePageProc with shared := 1#32 } }

theorem twoSharers_placed : Placed {1} twoSharers :=
  have placed := sharedPage_placed 2#8
  ⟨placed.dir, placed.table, placed.distinct, placed.user, placed.free⟩

/-- `handle_cow_fault` comes back exactly if it finds an entry to leave.  When it comes back it has
left that one. -/
theorem handle_cow_fault_outcome {dirs : Finset Nat} {s : Kernel} {d addr : Nat}
    (placed : Placed dirs s) (member : d ∈ dirs) (bound : addr < 2 ^ 32) :
    ((∃ t, handleCowFault d addr s = .ok () t) <-> cowEntry s d addr ≠ none) /\
      ∀ t, handleCowFault d addr s = .ok () t -> Handled s d addr t := by
  have spec := handleCowFault_spec placed member bound
  refine ⟨⟨?_, fun found => ?_⟩, fun t run => spec.of_ok run⟩
  · rintro ⟨t, run⟩ nothing
    cases (spec.of_ok run).entry.symm.trans nothing
  · cases run : handleCowFault d addr s with
    | ok value t => exact ⟨t, rfl⟩
    | error stop t => exact absurd (spec.of_error run) found

theorem handle_cow_fault_outcome_two :
    ∃ t, handleCowFault 1 0x1000 twoSharers = .ok () t /\ Handled twoSharers 1 0x1000 t := by
  have outcome := handle_cow_fault_outcome twoSharers_placed (Finset.mem_singleton_self 1)
    (show 0x1000 < 2 ^ 32 by decide)
  rcases outcome.1.mpr (by decide +kernel) with ⟨t, run⟩
  exact ⟨t, run, outcome.2 t run⟩

/-! ## Faults that change nothing -/

section Restart

variable {s : Kernel} {slot : Nat}

/-- Nothing has changed but what is recorded: the instruction that has faulted faults again. -/
def Same (s t : Kernel) : Prop := t = { s with trace := t.trace }

/-- When `handle_cow_fault` comes back it has lowered a count. -/
theorem handleCowFault_changes {d addr : Nat} (bound : addr < 2 ^ 32) :
    Ensures (handleCowFault d addr) s (fun _ t => ¬ Same s t) (fun _ _ => True) := by
  have lower : ∀ {t : Kernel} (f : Nat), t.pteArray = update s.pteArray f (s.pteArray f - 1#8) ->
      ¬ Same s t := by
    intro t f lowered same
    have here := congrFun (lowered.symm.trans (congrArg Kernel.pteArray same)) f
    rw [update_self] at here
    bv_omega
  rw [handleCowFault, ensures_ite]
  refine ⟨fun _ => (ensures_throw ..).mpr trivial, fun _ => ?_⟩
  rw [ensures_bind, ensures_walkpgdir bound]
  cases (if HasFlag (s.mem d (addr / 4096 / 1024)) PTE_P
      then some (frameOf (s.mem d (addr / 4096 / 1024)), addr / 4096 % 1024)
        else none : Option (Nat × Nat)) with
  | none => exact (ensures_throw ..).mpr trivial
  | some place =>
    simp only [ensures_bind, ensures_readWord, ensures_ite, ensures_throw, ensures_get,
      ensures_writeWord, ensures_modify, ensures_lcr3, implies_true, true_and]
    refine fun _ _ => ⟨fun _ => lower _ rfl, fun _ => ?_⟩
    refine kalloc_rule (fun _ => (ensures_throw ..).mpr trivial) fun frame rest _ => ?_
    simp only [ensures_bind, ensures_get, ensures_writePage, ensures_writeWord, ensures_lcr3]
    exact lower _ rfl

variable [L : Layout]

/-- Delivery moves the stack pointer. -/
theorem signalDeliver_changes (signum : Word) (si : SigInfo) :
    Ensures (signalDeliver slot signum si) s (fun _ t => ¬ Same s t) (fun _ _ => True) := by
  refine (signalDeliver_esp signum si).imp fun _ t moved same => ?_
  have esp := moved.symm.trans (congrArg (fun t : Kernel => (t.trapframe slot).esp) same)
  have some : ∀ esp : Word, esp - 32#32 ≠ esp := by
    intro esp
    bv_omega
  exact some _ esp

/-- The process is not marked as shared, and the word that `handlers[SIGSEGV]` names is -1. -/
def Unanswered (slot : Nat) (s : Kernel) : Prop :=
  (s.ptable slot).shared ≠ 1#32 /\ User.handlerOf s slot (BitVec.ofNat 32 SIGSEGV) = NOHANDLER

theorem pageFaultCase_same (tf : TrapFrame) : Ensures (pageFaultCase slot tf) s
    (fun _ t => Same s t <-> Unanswered slot s) (fun _ _ => ¬ Unanswered slot s) := by
  rw [pageFaultCase, ensures_bind, ensures_note, ensures_bind, ensures_get, ensures_ite]
  refine ⟨fun shared => ?_, fun unshared => ?_⟩
  · exact (handleCowFault_changes s.cr2.isLt).mono
      (fun _ t changed => iff_of_false changed fun quiet => quiet.1 shared)
      fun _ _ _ quiet => quiet.1 shared
  · rw [ensures_bind, User.ensures_loadHandler, ensures_ite]
    refine ⟨fun handler => ?_, fun none => ?_⟩
    · exact (signalDeliver_changes _ _).mono (fun _ t changed => iff_of_false changed fun quiet =>
        handler quiet.2) fun _ _ _ quiet => handler quiet.2
    · rw [ensures_pure]
      exact iff_of_true rfl ⟨unshared, not_not.mp none⟩

/-- A fault is left as it was exactly if the process is not marked as shared and has no handler for
`SIGSEGV`.  A divide error, which falls into that case, also needs to have none for `SIGFPE`. -/
theorem trap_restarts_iff (slot : Nat) (tf : TrapFrame) (s : Kernel) :
    Ensures (trapSwitch slot { tf with trapno := T_PGFLT }) s
      (fun _ t => Same s t <-> Unanswered slot s) (fun _ _ => ¬ Unanswered slot s) /\
    Ensures (trapSwitch slot { tf with trapno := T_DIVIDE }) s
      (fun _ t => Same s t <->
        User.handlerOf s slot (BitVec.ofNat 32 SIGFPE) = NOHANDLER /\ Unanswered slot s)
      (fun _ _ => ¬ (User.handlerOf s slot (BitVec.ofNat 32 SIGFPE) = NOHANDLER /\
        Unanswered slot s)) := by
  refine ⟨pageFaultCase_same _, ?_⟩
  change Ensures (divideCase slot _) s _ _
  rw [divideCase, ensures_bind, User.ensures_loadHandler, ensures_ite]
  refine ⟨fun handler => ?_, fun none => ?_⟩
  · exact (signalDeliver_changes _ _).mono (fun _ t changed => iff_of_false changed fun quiet =>
      handler quiet.1) fun _ _ _ quiet => handler quiet.1
  · exact (pageFaultCase_same _).mono (fun _ t same => same.trans (and_iff_right (not_not.mp none)).symm)
      fun _ _ loud quiet => loud quiet.2

end Restart

end Xv6.System
