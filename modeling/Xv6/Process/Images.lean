import Mathlib.Data.List.FinRange
import Mathlib.Logic.Function.Basic
import Xv6.Library.GuardedRun
import Xv6.Machine.Layout

namespace Xv6.Images

open Library
open Machine (NPROC Word SIGKILL SIGFPE SIGSEGV)
open Function

/-!
# Signals and program images

What `exec`, `fork` and `cowfork` do to the handlers, the restorer and the flag
`shared` of a process, and when `trap` uses them.  The page table of a process
is the list of its pages, each with a name of its own and the flag that lets it
be written.  Whether the count of a page lets `handle_cow_fault` copy it is
left open, and so is all memory that is not mapped.

`handlers` has two elements, and `SIGSEGV` is 14: `handlers[SIGSEGV]` of a slot
is `ofile[0]` of the next slot.

`signal_deliver` takes several steps, since the kernel may fault when it stores
to the user stack.

`registered`, `restorers`, `strayed` and `ever` are not in the source.  The first two
keep what the program has registered since its last `exec`, the third one whether
`handlers[SIGSEGV]` has been stored to as a descriptor since, and the last one which
pages have been in two page tables.
-/

structure Entry where
  page : Nat
  writable : Bool

/-- The signals that `trap` delivers. -/
inductive Signal where
  | fpe
  | segv
deriving DecidableEq

def Signal.signum : Signal -> Nat
  | .fpe => SIGFPE
  | .segv => SIGSEGV

inductive Point where
  /-- In user mode, or at the start of a call -/
  | user
  /-- In `signal_deliver` -/
  | delivering (signal : Signal)
deriving DecidableEq

structure Proc where
  /-- The state is not `UNUSED`. -/
  used : Bool
  ofile0 : Word
  /-- `handlers[SIGKILL]` -/
  kill : Word
  /-- `handlers[SIGFPE]` -/
  fpe : Word
  restorer : Word
  shared : Word
  pages : List Entry
  point : Point
  registered : List (Nat × Word)
  restorers : List Word

structure State where
  ptable : Fin NPROC -> Proc
  /-- The word that is `handlers[SIGSEGV]` of the last slot -/
  beyond : Word
  /-- Pages from here on have not been used. -/
  fresh : Nat
  ever : Nat -> Bool
  strayed : Fin NPROC -> Bool
  cr2 : Nat

/-- How far `kalloc` lets a `fork` come. -/
inductive Memory where
  | noStack
  /-- `copyuvm_cow` has been through some pages. -/
  | noPages (copied : Nat)
  | enough

inductive Label where
  | signalRegister (p : Fin NPROC) (signum : Nat) (handler : Word)
  | signalRestorer (p : Fin NPROC) (address : Word)
  | fork (p : Fin NPROC) (memory : Memory)
  | cowfork (p : Fin NPROC) (memory : Memory)
  /-- A call of `exec` that succeeds, with an image of so many pages -/
  | exec (p : Fin NPROC) (pages : Nat)
  /-- A page fault in user mode -/
  | pageFault (p : Fin NPROC) (va : Nat)
  | divide (p : Fin NPROC)
  /-- A page fault of the kernel, which stores to the user stack -/
  | storeFault (p : Fin NPROC) (va : Nat)
  /-- The end of `signal_deliver` -/
  | redirect (p : Fin NPROC)
  /-- Descriptor 0 is opened or closed. -/
  | descriptor (p : Fin NPROC) (pointer : Word)

/-- `(sighandler_t) -1` -/
def NONE : Word := -1

def setProc (s : State) (p : Fin NPROC) (l : Proc) : State :=
  { s with ptable := update s.ptable p l }

/-- `p->handlers[SIGSEGV]` -/
def segv (s : State) (p : Fin NPROC) : Word :=
  if inside : p.val + 1 < NPROC then (s.ptable ⟨p.val + 1, inside⟩).ofile0 else s.beyond

def setSegv (s : State) (p : Fin NPROC) (handler : Word) : State :=
  let t := { s with strayed := update s.strayed p false }
  if inside : p.val + 1 < NPROC then
    setProc t ⟨p.val + 1, inside⟩ { s.ptable ⟨p.val + 1, inside⟩ with ofile0 := handler }
  else { t with beyond := handler }

/-- Descriptor 0 is stored, which is a handler of the slot before. -/
def setDescriptor (s : State) (p : Fin NPROC) (pointer : Word) : State :=
  { setProc s p { s.ptable p with ofile0 := pointer } with
    strayed := fun q => s.strayed q || decide (q.val + 1 = p.val) }

/-- `p->handlers[signal]`, with the word that is `handlers[SIGSEGV]` -/
def Proc.handler (l : Proc) (word : Word) : Signal -> Word
  | .fpe => l.fpe
  | .segv => word

/-- The first slot that is unused. -/
def allocproc (s : State) : Option (Fin NPROC) :=
  (List.finRange NPROC).find? fun p => (s.ptable p).used = false

/-- The stores at the end of `allocproc`. -/
def silence (s : State) (np : Fin NPROC) : State :=
  setSegv (setProc s np
    { s.ptable np with kill := NONE, fpe := NONE, restorer := NONE, shared := 0 }) np NONE

/-- A page table like this one, with pages of its own. -/
def copyuvm (fresh : Nat) (pages : List Entry) : List Entry :=
  pages.zipIdx.map fun entry => ⟨fresh + entry.2, entry.1.writable⟩

/-- The page table of the caller of `copyuvm_cow`, when some pages have been shared. -/
def protectFirst (copied : Nat) (pages : List Entry) : List Entry :=
  pages.zipIdx.map fun entry => if entry.2 < copied then { entry.1 with writable := false } else entry.1

/-- What `fork` and `cowfork` do at the end. -/
def start (s : State) (p np : Fin NPROC) (pages : List Entry) : State :=
  let t := if (s.ptable p).ofile0 = 0 then s else setDescriptor s np (s.ptable p).ofile0
  setProc t np
    { t.ptable np with
      used := true
      pages := pages
      point := .user
      registered := []
      restorers := [] }

def fork (s : State) (p : Fin NPROC) (memory : Memory) : State :=
  match allocproc s with
  | none => s
  | some np =>
    match memory with
    | .noStack => s
    | .noPages _ => silence s np
    | .enough =>
      let t := silence s np
      { start t p np (copyuvm t.fresh (t.ptable p).pages) with fresh :=
        t.fresh + (t.ptable p).pages.length }

def cowfork (s : State) (p : Fin NPROC) (memory : Memory) : State :=
  match allocproc s with
  | none => s
  | some np =>
    match memory with
    | .noStack => s
    | .noPages copied =>
      let t := silence s np
      setProc t p { t.ptable p with pages := protectFirst copied (t.ptable p).pages }
    | .enough =>
      let t := silence s np
      let pages := (t.ptable p).pages
      let t := start t p np pages
      let t := setProc t np { t.ptable np with shared := 1 }
      { setProc t p { t.ptable p with pages := protectFirst pages.length pages, shared := 1 } with
        ever := fun page => s.ever page || pages.any fun entry => entry.page = page }

/-- `handle_cow_fault`, when it does not panic. -/
def handleCowFault (s : State) (p : Fin NPROC) (va : Nat) : Option State :=
  match (s.ptable p).pages[va / 4096]? with
  | none => none
  | some entry =>
    if entry.writable = true then none
    else
      some { setProc s p
          { s.ptable p with pages := (s.ptable p).pages.set (va / 4096) ⟨s.fresh, true⟩ } with
        fresh := s.fresh + 1 }

/-- The case `T_PGFLT` of `trap`. -/
def pageFaultCase (s : State) (p : Fin NPROC) : Option State :=
  if (s.ptable p).shared = 1 then handleCowFault s p s.cr2
  else if segv s p ≠ NONE then some (setProc s p { s.ptable p with point := .delivering .segv })
  else some s

def perform (s : State) : Label -> Option State
  | .signalRegister p signum handler =>
    if (s.ptable p).used = true /\ (s.ptable p).point = .user then
      let l := s.ptable p
      let t := setProc s p { l with registered := (signum, handler) :: l.registered }
      let l := t.ptable p
      -- From 2 on the store is behind the array.
      match signum with
      | 0 => some (setProc t p { l with kill := handler })
      | 1 => some (setProc t p { l with fpe := handler })
      | 2 => some (setProc t p { l with restorer := handler })
      | 3 => some (setProc t p { l with shared := handler })
      | 14 => some (setSegv t p handler)
      -- The word that is stored to is not in the model.
      | _ => none
    else none
  | .signalRestorer p address =>
    if (s.ptable p).used = true /\ (s.ptable p).point = .user then
      some (setProc s p
        { s.ptable p with restorer := address, restorers := address :: (s.ptable p).restorers })
    else none
  | .fork p memory =>
    if (s.ptable p).used = true /\ (s.ptable p).point = .user then some (fork s p memory) else none
  | .cowfork p memory =>
    if (s.ptable p).used = true /\ (s.ptable p).point = .user then some (cowfork s p memory) else none
  | .exec p pages =>
    if (s.ptable p).used = true /\ (s.ptable p).point = .user /\ 2 <= pages then
      some { setProc s p
        { s.ptable p with
          pages := (List.range pages).map fun page => ⟨s.fresh + page, true⟩
          registered := []
          restorers := [] } with
        fresh := s.fresh + pages }
    else none
  | .pageFault p va =>
    if (s.ptable p).used = true /\ (s.ptable p).point = .user then
      pageFaultCase { s with cr2 := va } p
    else none
  | .divide p =>
    if (s.ptable p).used = true /\ (s.ptable p).point = .user then
      if (s.ptable p).fpe ≠ NONE then some (setProc s p { s.ptable p with point := .delivering .fpe })
      else pageFaultCase s p
    else none
  | .storeFault p va =>
    match (s.ptable p).used, (s.ptable p).point with
    | true, .delivering _ =>
      -- In a process that is not shared the same store faults for ever.
      if (s.ptable p).shared = 1 then handleCowFault { s with cr2 := va } p va else none
    | _, _ => none
  | .redirect p =>
    match (s.ptable p).used, (s.ptable p).point with
    | true, .delivering _ => some (setProc s p { s.ptable p with point := .user })
    | _, _ => none
  | .descriptor p pointer =>
    if (s.ptable p).used = true /\ (s.ptable p).point = .user then some (setDescriptor s p pointer)
    else none

def Step (s : State) (label : Label) (t : State) : Prop := perform s label = some t

/-- After `userinit`: the first process has one page, and no handlers. -/
def boot : State where
  ptable := fun p =>
    { used := p.val = 0
      ofile0 := if p.val = 1 then NONE else 0
      kill := if p.val = 0 then NONE else 0
      fpe := if p.val = 0 then NONE else 0
      restorer := if p.val = 0 then NONE else 0
      shared := 0
      pages := if p.val = 0 then [⟨0, true⟩] else []
      point := .user
      registered := []
      restorers := [] }
  beyond := 0
  fresh := 1
  ever := fun _ => false
  strayed := fun _ => false
  cr2 := 0

/-- `handlers[SIGSEGV]` as the process or `allocproc` has stored it. -/
def own (s : State) (p : Fin NPROC) : Word := if s.strayed p = true then NONE else segv s p

/-- No process is on its way to the handler that is stored in descriptor 0 of `p`. -/
def Quiet (s : State) (p : Fin NPROC) : Prop :=
  ∀ q : Fin NPROC, q.val + 1 = p.val -> (s.ptable q).point ≠ .delivering .segv

/-- The process has a page that has been shared, besides the one at the address. -/
def SharesOther (s : State) (p : Fin NPROC) (va : Nat) : Prop :=
  ∃ i : Fin (s.ptable p).pages.length, i.val ≠ va / 4096 /\ s.ever ((s.ptable p).pages.get i).page = true

/-- A page fault is handled: the process shares other pages, or its handler, if it has one, has not
been overwritten and comes with a restorer. -/
def Handled (s : State) (p : Fin NPROC) (va : Nat) : Prop :=
  ((s.ptable p).shared = 1 -> SharesOther s p va) /\
    ((s.ptable p).shared ≠ 1 -> segv s p ≠ NONE -> s.strayed p = false /\ (s.ptable p).restorers ≠ [])

/-- A program registers signals that there are; `exec` is called with nothing registered and nothing
shared; a signal is delivered to a program that has a restorer, and `SIGSEGV` not when its handler
has been overwritten as a descriptor; and the last page of a process that has been shared is not
replaced. -/
def Careful (s : State) : Label -> Prop
  | .signalRegister _ signum _ => signum = SIGKILL ∨ signum = SIGFPE ∨ signum = SIGSEGV
  | .exec p _ => (s.ptable p).fpe = NONE /\ own s p = NONE /\ (s.ptable p).shared ≠ 1
  | .fork _ .enough | .cowfork _ .enough => ∀ np, allocproc s = some np -> Quiet s np
  | .pageFault p va => Handled s p va
  | .divide p =>
    ((s.ptable p).fpe ≠ NONE -> (s.ptable p).restorers ≠ []) /\
      ((s.ptable p).fpe = NONE -> Handled s p s.cr2)
  | .storeFault p va => SharesOther s p va
  | .descriptor p _ => Quiet s p
  | _ => True

instance (s : State) (p : Fin NPROC) : Decidable (Quiet s p) := inferInstanceAs (Decidable (∀ _, _))

instance (s : State) (p : Fin NPROC) (va : Nat) : Decidable (SharesOther s p va) :=
  inferInstanceAs (Decidable (Exists _))

instance (s : State) (p : Fin NPROC) (va : Nat) : Decidable (Handled s p va) :=
  inferInstanceAs (Decidable (_ /\ _))

instance (s : State) (label : Label) : Decidable (Careful s label) := by
  unfold Careful
  split <;> infer_instance

/-! ## What a process has registered -/

/-- The handlers and the restorer of a process are its program's, and it is marked shared with
reason. -/
structure Loyal (ever : Nat -> Bool) (word : Word) (l : Proc) : Prop where
  handler : ∀ signal, l.handler word signal ≠ NONE ->
    (signal.signum, l.handler word signal) ∈ l.registered
  restorer : l.restorers ≠ [] -> l.restorer ∈ l.restorers
  delivering : ∀ signal, l.point = .delivering signal -> l.handler word signal ≠ NONE /\ l.restorers ≠ []
  cow : l.shared = 1 -> ∃ entry, entry ∈ l.pages /\ ever entry.page = true
  pages : l.pages ≠ []

/-- Every process is loyal. -/
def AllLoyal (s : State) : Prop :=
  ∀ p, (s.ptable p).used = true -> Loyal s.ever (own s p) (s.ptable p)

theorem setProc_self (s : State) (p : Fin NPROC) (l : Proc) : (setProc s p l).ptable p = l :=
  update_self _ _ _

variable {p np : Fin NPROC} {s : State} {pages : List Entry}

theorem setProc_other (s : State) {q : Fin NPROC} (l : Proc) (ne : q ≠ p) :
    (setProc s p l).ptable q = s.ptable q := update_of_ne ne _ _

theorem segv_setProc (s : State) (p : Fin NPROC) (l : Proc) (q : Fin NPROC) :
    segv (setProc s p l) q = if q.val + 1 = p.val then l.ofile0 else segv s q := by
  unfold segv
  split
  next inside =>
    by_cases same : q.val + 1 = p.val
    · have slot : (⟨q.val + 1, inside⟩ : Fin NPROC) = p := Fin.ext same
      rw [if_pos same, slot, setProc_self]
    · rw [if_neg same, setProc_other]
      exact fun slot => same (congrArg Fin.val slot)
  next outside =>
    rw [if_neg]
    · rfl
    · intro same
      exact outside (by rw [same]; exact p.isLt)

/-- A slot that keeps its descriptor 0 keeps the handlers of all. -/
theorem segv_setProc_of_eq (s : State) (p : Fin NPROC) {l : Proc}
    (same : l.ofile0 = (s.ptable p).ofile0) (q : Fin NPROC) :
    segv (setProc s p l) q = segv s q := by
  rw [segv_setProc]
  split
  next before =>
    have inside : q.val + 1 < NPROC := before ▸ p.isLt
    have slot : (⟨q.val + 1, inside⟩ : Fin NPROC) = p := Fin.ext before
    rw [segv, dif_pos inside, slot, same]
  next => rfl

theorem own_setProc (s : State) (p : Fin NPROC) {l : Proc} (same : l.ofile0 = (s.ptable p).ofile0)
    (q : Fin NPROC) : own (setProc s p l) q = own s q := by
  rw [own, segv_setProc_of_eq s p same]
  rfl

theorem own_setSegv (s : State) (p : Fin NPROC) (handler : Word) (q : Fin NPROC) :
    own (setSegv s p handler) q = if q = p then handler else own s q := by
  have strayed : (setSegv s p handler).strayed = update s.strayed p false := by
    unfold setSegv
    split <;> rfl
  unfold own
  rw [strayed]
  by_cases same : q = p
  · rw [same, update_self, if_neg Bool.false_ne_true, if_pos rfl]
    unfold setSegv
    split
    next inside => rw [segv_setProc, if_pos rfl]
    next outside => rw [segv, dif_neg outside]
  · rw [update_of_ne same, if_neg same]
    congr 1
    unfold setSegv
    split
    next inside =>
      rw [segv_setProc, if_neg (fun next => same (Fin.ext (Nat.succ.inj next)))]
      rfl
    next outside =>
      have inside : q.val + 1 < NPROC := by
        have := q.isLt
        have := p.isLt
        have := Fin.val_ne_of_ne same
        omega
      rw [segv, segv, dif_pos inside, dif_pos inside]

theorem own_setDescriptor (s : State) (p : Fin NPROC) (pointer : Word) (q : Fin NPROC) :
    own (setDescriptor s p pointer) q = if q.val + 1 = p.val then NONE else own s q := by
  have word : segv (setDescriptor s p pointer) q = if q.val + 1 = p.val then pointer else segv s q :=
    segv_setProc s p _ q
  unfold own
  rw [word]
  change (if (s.strayed q || decide (q.val + 1 = p.val)) = true then NONE else _) = _
  by_cases next : q.val + 1 = p.val
  · rw [if_pos next, if_pos next, decide_eq_true next, Bool.or_true, if_pos rfl]
  · rw [if_neg next, if_neg next, decide_eq_false next, Bool.or_false]

theorem ptable_setSegv (s : State) (p : Fin NPROC) (handler : Word) (q : Fin NPROC) :
    ∃ pointer, (setSegv s p handler).ptable q = { s.ptable q with ofile0 := pointer } := by
  unfold setSegv
  split
  next inside =>
    by_cases same : q = ⟨p.val + 1, inside⟩
    · rw [same, setProc_self]
      exact ⟨handler, rfl⟩
    · exact ⟨(s.ptable q).ofile0, setProc_other _ _ same⟩
  next => exact ⟨(s.ptable q).ofile0, rfl⟩

namespace Loyal

variable {ever : Nat -> Bool} {word : Word} {l : Proc}

section

variable (loyal : Loyal ever word l)

include loyal

/-- The handlers that are delivered stay, and nothing registered is forgotten. -/
theorem alter {l' : Proc} (fpe : l'.fpe = l.fpe)
    (registered : ∀ pair, pair ∈ l.registered -> pair ∈ l'.registered)
    (restorer : l'.restorer = l.restorer) (restorers : l'.restorers = l.restorers)
    (delivering : ∀ signal, l'.point = .delivering signal ->
      l.handler word signal ≠ NONE /\ l.restorers ≠ [])
    (cow : l'.shared = 1 -> ∃ entry, entry ∈ l'.pages /\ ever entry.page = true)
    (pages : l'.pages ≠ []) : Loyal ever word l' := by
  have handlers : ∀ signal, l'.handler word signal = l.handler word signal := by
    intro signal
    cases signal with
    | fpe => exact fpe
    | segv => rfl
  constructor
  · intro signal
    rw [handlers]
    exact fun real => registered _ (loyal.handler signal real)
  · rw [restorers, restorer]
    exact loyal.restorer
  · intro signal
    rw [handlers, restorers]
    exact delivering signal
  · exact cow
  · exact pages

/-- A stray descriptor is no harm to the process that has it. -/
theorem descriptor (pointer : Word) : Loyal ever word { l with ofile0 := pointer } :=
  loyal.alter rfl (fun _ => id) rfl rfl loyal.delivering loyal.cow loyal.pages

theorem withKill (handler : Word) : Loyal ever word { l with kill := handler } :=
  loyal.alter rfl (fun _ => id) rfl rfl loyal.delivering loyal.cow loyal.pages

theorem noted (pair : Nat × Word) : Loyal ever word { l with registered := pair :: l.registered } :=
  loyal.alter rfl (fun _ => List.mem_cons_of_mem pair) rfl rfl loyal.delivering loyal.cow loyal.pages

theorem atPoint {point : Point}
    (delivering : ∀ signal, point = .delivering signal ->
      l.handler word signal ≠ NONE /\ l.restorers ≠ []) :
    Loyal ever word { l with point := point } :=
  loyal.alter rfl (fun _ => id) rfl rfl delivering loyal.cow loyal.pages

/-- The pages change, and one that has been shared is left if the process is marked shared. -/
theorem withPages {pages : List Entry} {shared : Word} (some : pages ≠ [])
    (cow : shared = 1 -> ∃ entry, entry ∈ pages /\ ever entry.page = true) :
    Loyal ever word { l with pages := pages, shared := shared } :=
  loyal.alter rfl (fun _ => id) rfl rfl loyal.delivering cow some

/-- The word of `SIGSEGV` is overwritten. -/
theorem stray (quiet : l.point ≠ .delivering .segv) : Loyal ever NONE l where
  handler
    | .fpe => loyal.handler .fpe
    | .segv => fun real => absurd rfl real
  restorer := loyal.restorer
  delivering
    | .fpe => loyal.delivering .fpe
    | .segv => fun here => absurd here quiet
  cow := loyal.cow
  pages := loyal.pages

/-- More pages have been shared. -/
theorem mono {ever' : Nat -> Bool} (more : ∀ page, ever page = true -> ever' page = true) :
    Loyal ever' word l where
  handler := loyal.handler
  restorer := loyal.restorer
  delivering := loyal.delivering
  cow := by
    intro shared
    rcases loyal.cow shared with ⟨entry, mine, was⟩
    exact ⟨entry, mine, more entry.page was⟩
  pages := loyal.pages

end

end Loyal

namespace AllLoyal

variable {s t : State} {p np : Fin NPROC} {l : Proc}

section

variable (all : AllLoyal s)

include all

/-- A process works on a slot, and leaves its descriptor 0 alone. -/
theorem setProc (placed : l.ofile0 = (s.ptable p).ofile0)
    (loyal : l.used = true -> Loyal s.ever (own s p) l) : AllLoyal (setProc s p l) := by
  intro q used
  rw [own_setProc s p placed]
  by_cases same : q = p
  · rw [same, setProc_self] at used ⊢
    exact loyal used
  · rw [setProc_other s l same] at used ⊢
    exact all q used

theorem own (ofile0 : l.ofile0 = (s.ptable p).ofile0) (loyal : Loyal s.ever (own s p) l) :
    AllLoyal (Images.setProc s p l) := all.setProc ofile0 fun _ => loyal

/-- `handlers[SIGSEGV]` of a slot is stored. -/
theorem setSegv {handler : Word}
    (loyal : (s.ptable p).used = true -> Loyal s.ever handler (s.ptable p)) :
    AllLoyal (setSegv s p handler) := by
  intro q used
  have sameEver : (Images.setSegv s p handler).ever = s.ever := by
    unfold Images.setSegv
    split
    next => rfl
    next => rfl
  rcases ptable_setSegv s p handler q with ⟨pointer, slot⟩
  rw [slot] at used ⊢
  rw [sameEver, own_setSegv]
  apply Loyal.descriptor
  by_cases same : q = p
  · rw [if_pos same, same]
    rw [same] at used
    exact loyal used
  · rw [if_neg same]
    exact all q used

theorem setDescriptor (quiet : Quiet s p) (pointer : Word) :
    AllLoyal (setDescriptor s p pointer) := by
  intro q used
  have slot : ∃ word, (Images.setDescriptor s p pointer).ptable q =
      { s.ptable q with ofile0 := word } := by
    by_cases same : q = p
    · exact ⟨pointer, by rw [same]; exact setProc_self ..⟩
    · exact ⟨(s.ptable q).ofile0, setProc_other s _ same⟩
  rcases slot with ⟨word, slot⟩
  rw [slot] at used ⊢
  rw [own_setDescriptor]
  apply Loyal.descriptor
  split
  next before => exact (all q used).stray (quiet q before)
  next => exact all q used

theorem silence (free : (s.ptable np).used = false) : AllLoyal (silence s np) := by
  apply AllLoyal.setSegv
  · exact all.setProc rfl fun used => nomatch used.symm.trans free
  · intro used
    rw [setProc_self, free] at used
    cases used

theorem withEver {ever : Nat -> Bool} (more : ∀ page, s.ever page = true -> ever page = true) :
    AllLoyal { s with ever := ever } := fun p used => (all p used).mono more

theorem redirect (used : (s.ptable p).used = true) :
    AllLoyal (Images.setProc s p { s.ptable p with point := .user }) :=
  all.own rfl ((all p used).atPoint (fun _ here => nomatch here))

end

end AllLoyal

/-! ## `fork` and `cowfork` -/

theorem allocproc_some (found : allocproc s = some np) : (s.ptable np).used = false := by
  have accepted := List.find?_some found
  simpa only [decide_eq_true_eq] using accepted

theorem silence_other (s : State) (ne : p ≠ np) :
    ∃ pointer, (silence s np).ptable p = { s.ptable p with ofile0 := pointer } := by
  rcases ptable_setSegv (setProc s np _) np NONE p with ⟨pointer, slot⟩
  rw [setProc_other s _ ne] at slot
  exact ⟨pointer, slot⟩

theorem silence_self (s : State) (np : Fin NPROC) : ∃ pointer, (silence s np).ptable np =
    { s.ptable np with
      kill := NONE, fpe := NONE, restorer := NONE, shared := 0, ofile0 := pointer } := by
  rcases ptable_setSegv
    (setProc s np { s.ptable np with kill := NONE, fpe := NONE, restorer := NONE, shared := 0 }) np
    NONE np with ⟨pointer, slot⟩
  rw [setProc_self] at slot
  exact ⟨pointer, slot⟩

theorem silence_ever (s : State) (np : Fin NPROC) : (silence s np).ever = s.ever := by
  unfold silence setSegv
  split
  next => rfl
  next => rfl

theorem silence_used (s : State) (np q : Fin NPROC) :
    ((silence s np).ptable q).used = (s.ptable q).used := by
  by_cases same : q = np
  · rcases silence_self s np with ⟨pointer, slot⟩
    rw [same, slot]
  · rcases silence_other s same with ⟨pointer, slot⟩
    rw [slot]

/-- A new process has nothing registered. -/
theorem loyal_newborn {ever : Nat -> Bool} {l : Proc} (fpe : l.fpe = NONE) (shared : l.shared = 0)
    (some : pages ≠ []) :
    Loyal ever NONE { l with
      used := true, pages := pages, point := .user, registered := [], restorers := [] } where
  handler := by
    intro signal registered
    cases signal with
    | fpe => exact absurd fpe registered
    | segv => exact absurd rfl registered
  restorer := fun registered => absurd rfl registered
  delivering := fun _ here => nomatch here
  cow := by
    intro set
    rw [show l.shared = 1 from set] at shared
    exact absurd shared (by decide)
  pages := some

theorem AllLoyal.start (all : AllLoyal s) (found : allocproc s = some np) (quiet : Quiet s np)
    (some : pages ≠ []) : AllLoyal (Images.start (Images.silence s np) p np pages) := by
  have silent := all.silence (allocproc_some found)
  rcases silence_self s np with ⟨pointer, slot⟩
  have none : Images.own (Images.silence s np) np = NONE := by
    rw [Images.silence, own_setSegv, if_pos rfl]
  unfold Images.start
  dsimp only
  split
  next =>
    refine silent.own rfl ?_
    rw [none]
    exact loyal_newborn (by rw [slot]) (by rw [slot]) some
  next =>
    have still : Quiet (Images.silence s np) np := by
      intro q before
      have ne : q ≠ np := fun same => by rw [same] at before; omega
      rcases silence_other s ne with ⟨word, other⟩
      rw [other]
      exact quiet q before
    refine (silent.setDescriptor still _).own rfl ?_
    rw [own_setDescriptor, if_neg (by omega), none, Images.setDescriptor, setProc_self]
    exact loyal_newborn (by rw [slot]) (by rw [slot]) some

theorem start_ever (s : State) : (start s p np pages).ever = s.ever := by
  unfold start
  dsimp only
  split
  next => rfl
  next => rfl

theorem start_other (s : State) {q : Fin NPROC} (ne : q ≠ np) :
    (start s p np pages).ptable q = s.ptable q := by
  unfold start
  rw [setProc_other _ _ ne]
  split
  next => rfl
  next => exact setProc_other _ _ ne

theorem mem_protectFirst {entry : Entry} (copied : Nat) (mine : entry ∈ pages) :
    ∃ entry', entry' ∈ protectFirst copied pages /\ entry'.page = entry.page := by
  rcases List.mem_iff_getElem?.mp mine with ⟨i, here⟩
  have listed : (entry, i) ∈ pages.zipIdx := List.mk_mem_zipIdx_iff_getElem?.mpr here
  refine ⟨_, List.mem_map.mpr ⟨(entry, i), listed, rfl⟩, ?_⟩
  dsimp only
  split
  next => rfl
  next => rfl

theorem protectFirst_ne_nil (copied : Nat) (some : pages ≠ []) :
    protectFirst copied pages ≠ [] := by
  rcases List.exists_mem_of_ne_nil pages some with ⟨entry, mine⟩
  rcases mem_protectFirst copied mine with ⟨entry', listed, _⟩
  exact List.ne_nil_of_mem listed

theorem copyuvm_ne_nil (fresh : Nat) (some : pages ≠ []) : copyuvm fresh pages ≠ [] := by
  intro none
  apply some
  rw [<- List.length_eq_zero_iff] at none ⊢
  rw [copyuvm, List.length_map, List.length_zipIdx] at none
  exact none

/-- The caller of `fork` still has its pages when there is a slot for the child. -/
theorem AllLoyal.caller (all : AllLoyal s) (used : (s.ptable p).used = true)
    (found : allocproc s = some np) : p ≠ np /\ ((Images.silence s np).ptable p).pages ≠ [] := by
  have ne : p ≠ np := by
    rintro rfl
    exact nomatch used.symm.trans (allocproc_some found)
  rcases silence_other s ne with ⟨pointer, slot⟩
  refine ⟨ne, ?_⟩
  rw [slot]
  exact (all p used).pages

theorem AllLoyal.fork {memory : Memory} (all : AllLoyal s) (used : (s.ptable p).used = true)
    (careful : Careful s (.fork p memory)) : AllLoyal (fork s p memory) := by
  unfold Images.fork
  split
  next => exact all
  next np found =>
    have free := allocproc_some found
    split
    next => exact all
    next => exact all.silence free
    next => exact all.start found (careful np found) (copyuvm_ne_nil _ (all.caller used found).2)

theorem AllLoyal.protect (all : AllLoyal s) (used : (s.ptable p).used = true) (copied : Nat) :
    AllLoyal
      (Images.setProc s p { s.ptable p with pages := protectFirst copied (s.ptable p).pages }) := by
  have loyal := all p used
  refine all.own rfl (loyal.withPages (protectFirst_ne_nil copied loyal.pages) ?_)
  intro shared
  rcases loyal.cow shared with ⟨entry, mine, was⟩
  rcases mem_protectFirst copied mine with ⟨entry', listed, same⟩
  refine ⟨entry', listed, ?_⟩
  rw [same]
  exact was

/-- The end of `cowfork`. -/
theorem AllLoyal.share {ever : Nat -> Bool} (all : AllLoyal s)
    (ne : p ≠ np) (used : (s.ptable p).used = true) (started : (s.ptable np).used = true)
    (child : (s.ptable np).pages = pages) (some : pages ≠ [])
    (more : ∀ page, s.ever page = true -> ever page = true)
    (marked : ∀ entry, entry ∈ pages -> ever entry.page = true) (copied : Nat) :
    AllLoyal { Images.setProc (Images.setProc s np { s.ptable np with shared := 1 }) p
      { (Images.setProc s np { s.ptable np with shared := 1 }).ptable p with
        pages := protectFirst copied pages, shared := 1 } with ever := ever } := by
  rcases List.exists_mem_of_ne_nil pages some with ⟨entry, mine⟩
  have wide : AllLoyal { s with ever := ever } := all.withEver more
  have first : AllLoyal (Images.setProc { s with ever := ever } np { s.ptable np with shared := 1 }) := by
    refine wide.own rfl ((wide np started).withPages (wide np started).pages fun _ =>
      ⟨entry, ?_, marked entry mine⟩)
    rw [child]
    exact mine
  have caller : ((Images.setProc { s with ever := ever } np { s.ptable np with shared := 1 }).ptable
      p).used = true := by
    rw [setProc_other _ _ ne]
    exact used
  refine first.own rfl ((first p caller).withPages (protectFirst_ne_nil copied some) fun _ => ?_)
  rcases mem_protectFirst copied mine with ⟨entry', listed, same⟩
  refine ⟨entry', listed, ?_⟩
  rw [same]
  exact marked entry mine

theorem AllLoyal.cowfork {memory : Memory} (all : AllLoyal s) (used : (s.ptable p).used = true)
    (careful : Careful s (.cowfork p memory)) : AllLoyal (cowfork s p memory) := by
  unfold Images.cowfork
  split
  next => exact all
  next np found =>
    have free := allocproc_some found
    split
    next => exact all
    next copied =>
      apply (all.silence free).protect
      rw [silence_used]
      exact used
    next =>
      rcases all.caller used found with ⟨ne, some⟩
      apply (all.start found (careful np found) some).share ne
      · rw [start_other _ ne, silence_used]
        exact used
      · rw [Images.start, setProc_self]
      · rw [Images.start, setProc_self]
      · exact some
      · intro page was
        rw [start_ever, silence_ever] at was
        rw [was]
        exact Bool.true_or _
      · intro entry mine
        rw [Bool.or_eq_true]
        exact .inr (List.any_eq_true.mpr ⟨entry, mine, decide_eq_true rfl⟩)

/-! ## Registering, `exec` and faults -/

namespace AllLoyal

variable {s t : State} {p : Fin NPROC}

section

variable (all : AllLoyal s)

include all

theorem register {signum : Nat} {handler : Word}
    (careful : Careful s (.signalRegister p signum handler))
    (step : Step s (.signalRegister p signum handler) t) : AllLoyal t := by
  rcases Option.ite_none_right_eq_some.mp step with ⟨allowed, step⟩
  have noted : AllLoyal (Images.setProc s p
      { s.ptable p with registered := (signum, handler) :: (s.ptable p).registered }) :=
    all.own rfl ((all p allowed.1).noted (signum, handler))
  have mine := noted p (by rw [setProc_self]; exact allowed.1)
  rw [setProc_self] at mine
  rcases careful with rfl | rfl | rfl
  · cases step
    rw [setProc_self]
    exact noted.own (by rw [setProc_self]) (mine.withKill handler)
  · cases step
    rw [setProc_self]
    refine noted.own (by rw [setProc_self]) ⟨?_, mine.restorer, ?_, mine.cow, mine.pages⟩
    · intro signal real
      cases signal with
      | fpe => exact List.mem_cons_self
      | segv => exact mine.handler .segv real
    · exact fun signal here => nomatch allowed.2.symm.trans here
  · cases step
    apply noted.setSegv
    intro used
    rw [setProc_self]
    refine ⟨?_, mine.restorer, ?_, mine.cow, mine.pages⟩
    · intro signal real
      cases signal with
      | fpe => exact mine.handler .fpe real
      | segv => exact List.mem_cons_self
    · exact fun signal here => nomatch allowed.2.symm.trans here

theorem restore {address : Word} (step : Step s (.signalRestorer p address) t) : AllLoyal t := by
  rcases Option.ite_none_right_eq_some.mp step with ⟨allowed, ⟨⟩⟩
  have loyal := all p allowed.1
  refine all.own rfl ⟨?_, fun _ => List.mem_cons_self, ?_, loyal.cow, loyal.pages⟩
  · intro signal
    cases signal with
    | fpe => exact loyal.handler .fpe
    | segv => exact loyal.handler .segv
  · exact fun signal here => nomatch allowed.2.symm.trans here

theorem exec {pages : Nat} (careful : Careful s (.exec p pages)) (step : Step s (.exec p pages) t) :
    AllLoyal t := by
  rcases Option.ite_none_right_eq_some.mp step with ⟨allowed, ⟨⟩⟩
  refine all.own rfl ⟨?_, fun registered => absurd rfl registered, ?_,
    fun shared => absurd shared careful.2.2, ?_⟩
  · intro signal real
    cases signal with
    | fpe => exact absurd careful.1 real
    | segv => exact absurd careful.2.1 real
  · exact fun signal here => nomatch allowed.2.1.symm.trans here
  · intro none
    have length := congrArg List.length none
    rw [List.length_map, List.length_range] at length
    exact absurd allowed.2.2 (by rw [length]; decide)

theorem handleCowFault (used : (s.ptable p).used = true) {va : Nat} (shares : SharesOther s p va)
    (done : handleCowFault s p va = some t) : AllLoyal t := by
  unfold Images.handleCowFault at done
  split at done
  next => cases done
  next entry here =>
    split at done
    next => cases done
    next =>
      cases done
      have loyal := all p used
      rcases shares with ⟨i, other, was⟩
      have left : (s.ptable p).pages.get i ∈ (s.ptable p).pages.set (va / 4096) ⟨s.fresh, true⟩ := by
        apply List.mem_iff_getElem?.mpr
        refine ⟨i.val, ?_⟩
        rw [List.getElem?_set_ne (Ne.symm other)]
        exact List.getElem?_eq_getElem i.isLt
      exact all.own rfl (loyal.withPages (List.ne_nil_of_mem left) fun _ => ⟨_, left, was⟩)

/-- `trap` begins to deliver a signal. -/
theorem delivers (used : (s.ptable p).used = true) {signal : Signal}
    (real : (s.ptable p).handler (Images.own s p) signal ≠ NONE)
    (restored : (s.ptable p).restorers ≠ []) :
    AllLoyal (Images.setProc s p { s.ptable p with point := .delivering signal }) := by
  refine all.own rfl ((all p used).atPoint ?_)
  intro other here
  cases here
  exact ⟨real, restored⟩

theorem pageFaultCase (used : (s.ptable p).used = true) (handled : Handled s p s.cr2)
    (done : pageFaultCase s p = some t) : AllLoyal t := by
  unfold Images.pageFaultCase at done
  split at done
  next shared => exact all.handleCowFault used (handled.1 shared) done
  next shared =>
    split at done
    next real =>
      cases done
      rcases handled.2 shared real with ⟨kept, restored⟩
      have same : Images.own s p = segv s p := if_neg (ne_true_of_eq_false kept)
      apply all.delivers used _ restored
      rw [same]
      exact real
    next =>
      cases done
      exact all

theorem step {label : Label} (careful : Careful s label) (step : Step s label t) : AllLoyal t := by
  cases label with
  | signalRegister p signum handler => exact all.register careful step
  | signalRestorer p address => exact all.restore step
  | fork p memory =>
    rcases Option.ite_none_right_eq_some.mp step with ⟨allowed, ⟨⟩⟩
    exact all.fork allowed.1 careful
  | cowfork p memory =>
    rcases Option.ite_none_right_eq_some.mp step with ⟨allowed, ⟨⟩⟩
    exact all.cowfork allowed.1 careful
  | exec p pages => exact all.exec careful step
  | pageFault p va =>
    rcases Option.ite_none_right_eq_some.mp step with ⟨allowed, done⟩
    exact AllLoyal.pageFaultCase (s := { s with cr2 := va }) all allowed.1 careful done
  | divide p =>
    rcases Option.ite_none_right_eq_some.mp step with ⟨allowed, done⟩
    split at done
    next real =>
      cases done
      exact all.delivers allowed.1 real (careful.1 real)
    next none => exact all.pageFaultCase allowed.1 (careful.2 (not_not.mp none)) done
  | storeFault p va =>
    unfold Step perform at step
    dsimp only at step
    split at step
    next signal used here =>
      rcases Option.ite_none_right_eq_some.mp step with ⟨_, done⟩
      exact AllLoyal.handleCowFault (s := { s with cr2 := va }) all used careful done
    next => cases step
  | redirect p =>
    unfold Step perform at step
    dsimp only at step
    split at step
    next signal used here =>
      cases step
      exact all.redirect used
    next => cases step
  | descriptor p pointer =>
    rcases Option.ite_none_right_eq_some.mp step with ⟨allowed, ⟨⟩⟩
    exact all.setDescriptor careful pointer

end

end AllLoyal

def slot0 : Fin NPROC := ⟨0, by decide⟩

/-- A program registers a handler and shares its pages, and another one takes its place and divides
by zero. -/
def inherited : List Label :=
  [.signalRestorer slot0 0x100, .signalRegister slot0 SIGFPE 0x200, .cowfork slot0 .enough,
    .exec slot0 3, .divide slot0]

end Xv6.Images
