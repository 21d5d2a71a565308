import Xv6.Table.Calls

namespace Xv6.Cpus

open Library
open Machine (NPROC NPROC_pos one_lt_NPROC)
open Table (ProcState)
open Function (update update_of_ne update_self)

/-!
# Processors and processes

`scheduler`, `sched`, `forkret` and the calls that hold `ptable.lock`, on any
number of processors.  A step is one statement of these functions; processors
take steps in any order, and the lock is the only thing that keeps them apart.

`proc` is the variable of a processor, and `stack` is the process on whose
kernel stack it executes, which the source does not store: the stack changes in
`swtch` only.  The statements of `sched` and of its callers act on `proc`.

Which process makes a new process, sleeps on which address or is the parent of
which is left open, and so is the order of the scheduler's scan: every choice
is a run.
-/

variable {κ : Type}

/-- Where a process has called `swtch`; `forkret` is where `allocproc` lets it begin. -/
inductive Site where
  | forkret
  | yield
  /-- `sleep`, with another lock -/
  | sleep
  /-- `sleep` with `ptable.lock`, in `wait` -/
  | wait
  | exit
deriving DecidableEq

/-- What a process makes of its state before it calls `sched`. -/
def Site.state : Site -> ProcState
  | .forkret | .yield => .RUNNABLE
  | .sleep | .wait => .SLEEPING
  | .exit => .ZOMBIE

/-- The next statement of a processor.  The argument is the variable `p` of `scheduler`. -/
inductive Control where
  /-- `scheduler`, before it acquires the lock -/
  | idle
  /-- An interrupt of `scheduler` has acquired the lock. -/
  | handling
  /-- `scheduler` looks for a process. -/
  | scan
  /-- `switchuvm(p)` -/
  | switchuvm (p : Fin NPROC)
  /-- `p->state = RUNNING` -/
  | mark (p : Fin NPROC)
  /-- `swtch(&cpu->scheduler, proc->context)` -/
  | swtch (p : Fin NPROC)
  /-- `switchkvm()` -/
  | switchkvm (p : Fin NPROC)
  /-- `proc = 0` -/
  | clear (p : Fin NPROC)
  /-- A process, without the lock -/
  | runs
  /-- A process that has acquired the lock -/
  | locked
  /-- `sched` is to save the context. -/
  | sched (site : Site)
  /-- The context has been restored, and the lock is to be released. -/
  | resumed
deriving DecidableEq

structure Cpu where
  control : Control
  proc : Option (Fin NPROC)
  stack : Option (Fin NPROC)
  /-- The process whose page directory is loaded, or none for `kpgdir` -/
  cr3 : Option (Fin NPROC)

structure Slot where
  state : ProcState
  /-- The saved context -/
  context : Site
  /-- `kstack` and `pgdir` are allocated. -/
  kstack : Bool
  pgdir : Bool

structure State (κ : Type) where
  cpu : κ -> Cpu
  lock : Option κ
  ptable : Fin NPROC -> Slot

inductive Label (κ : Type) where
  /-- The next statement of the scheduler, of `sched` or of what follows it -/
  | next (c : κ)
  | choose (c : κ) (p : Fin NPROC)
  /-- The scheduler's scan ends. -/
  | release (c : κ)
  /-- `acquire`, of a process or of the scheduler -/
  | acquire (c : κ)
  /-- `acquire`, of an interrupt of the scheduler -/
  | interrupt (c : κ)
  /-- `release`, of a process or an interrupt that has not called `sched` -/
  | unlock (c : κ)
  /-- `yield`, `sleep`, `wait` or `exit` changes the state. -/
  | leave (c : κ) (site : Site)
  /-- `wakeup1` or `kill` -/
  | wake (c : κ) (q : Fin NPROC)
  /-- `wait` frees a zombie. -/
  | reap (c : κ) (z : Fin NPROC)
  /-- `allocproc` takes a slot. -/
  | allocproc (c : κ) (np : Fin NPROC)
  /-- It gives the slot a stack and a context, and its caller a page directory. -/
  | prepare (c : κ) (np : Fin NPROC)
  /-- There is no memory. -/
  | fail (c : κ) (np : Fin NPROC)
  /-- `np->state = RUNNABLE` -/
  | start (c : κ) (np : Fin NPROC)

variable [DecidableEq κ]

def setCpu (s : State κ) (c : κ) (x : Cpu) : State κ := { s with cpu := update s.cpu c x }

def setSlot (s : State κ) (p : Fin NPROC) (l : Slot) : State κ :=
  { s with ptable := update s.ptable p l }

/-- One statement. -/
def advance (s : State κ) (c : κ) : Option (State κ) :=
  let x := s.cpu c
  match x.control with
  | .switchuvm p => some (setCpu s c { x with cr3 := some p, control := .mark p })
  | .mark p => some (setCpu (setSlot s p { s.ptable p with state := .RUNNING }) c
    { x with control := .swtch p })
  | .swtch _ =>
    match x.proc with
    | none => none
    | some q =>
      match (s.ptable q).context with
      | .forkret | .yield | .sleep => some (setCpu s c { x with stack := some q, control := .resumed })
      | .wait => some (setCpu s c { x with stack := some q, control := .locked })
      -- panic("zombie exit")
      | .exit => none
  | .switchkvm p => some (setCpu s c { x with cr3 := none, control := .clear p })
  | .clear _ => some (setCpu s c { x with proc := none, control := .scan })
  | .sched site =>
    match x.proc with
    | none => none
    | some q =>
      some (setCpu (setSlot s q { s.ptable q with context := site }) c
        { x with stack := none, control := .switchkvm q })
  | .resumed => some { setCpu s c { x with control := .runs } with lock := none }
  | _ => none

def perform (s : State κ) : Label κ -> Option (State κ)
  | .next c => advance s c
  | .choose c p =>
    if (s.cpu c).control = .scan /\ (s.ptable p).state = .RUNNABLE then
      some (setCpu s c { s.cpu c with proc := some p, control := .switchuvm p })
    else none
  | .release c =>
    if (s.cpu c).control = .scan then some { setCpu s c
      { s.cpu c with control := .idle } with lock := none } else none
  | .acquire c =>
    if s.lock = none then
      match (s.cpu c).control with
      | .runs => some { setCpu s c { s.cpu c with control := .locked } with lock := some c }
      | .idle => some { setCpu s c { s.cpu c with control := .scan } with lock := some c }
      | _ => none
    else none
  | .interrupt c =>
    if s.lock = none /\ (s.cpu c).control = .idle then
      some { setCpu s c { s.cpu c with control := .handling } with lock := some c }
    else none
  | .unlock c =>
    match (s.cpu c).control with
    | .locked => some { setCpu s c { s.cpu c with control := .runs } with lock := none }
    | .handling => some { setCpu s c { s.cpu c with control := .idle } with lock := none }
    | _ => none
  | .leave c site =>
    if (s.cpu c).control = .locked /\ site ≠ .forkret then
      match (s.cpu c).proc with
      | none => none
      | some p =>
        some (setCpu (setSlot s p { s.ptable p with state := site.state }) c
          { s.cpu c with control := .sched site })
    else none
  | .wake c q =>
    if ((s.cpu c).control = .locked ∨ (s.cpu c).control = .handling) /\
      (s.ptable q).state = .SLEEPING then
      some (setSlot s q { s.ptable q with state := .RUNNABLE })
    else none
  | .reap c z =>
    if (s.cpu c).control = .locked /\ (s.ptable z).state = .ZOMBIE then
      some (setSlot s z { s.ptable z with state := .UNUSED, kstack := false, pgdir := false })
    else none
  | .allocproc c np =>
    if (s.cpu c).control = .locked /\ (s.ptable np).state = .UNUSED then
      some (setSlot s np { s.ptable np with state := .EMBRYO })
    else none
  | .prepare c np =>
    if (s.cpu c).control = .runs /\ (s.ptable np).state = .EMBRYO then
      some (setSlot s np { s.ptable np with context := .forkret, kstack := true, pgdir := true })
    else none
  | .fail c np =>
    if (s.cpu c).control = .runs /\ (s.ptable np).state = .EMBRYO then
      some (setSlot s np { s.ptable np with state := .UNUSED, kstack := false, pgdir := false })
    else none
  | .start c np =>
    if (s.cpu c).control = .locked /\ (s.ptable np).state = .EMBRYO /\ (s.ptable np).kstack = true /\
        (s.ptable np).pgdir = true then
      some (setSlot s np { s.ptable np with state := .RUNNABLE })
    else none

def Step (s : State κ) (label : Label κ) (t : State κ) : Prop := perform s label = some t

/-- After `userinit`: the first process is ready, and every processor comes to its scheduler. -/
def boot : State κ where
  cpu := fun _ => ⟨.idle, none, none, none⟩
  lock := none
  ptable := fun p => if p.val = 0 then ⟨.RUNNABLE, .forkret, true, true⟩
    else ⟨.UNUSED, .forkret, false, false⟩

/-! ## What a processor knows at each statement -/

def Control.holds : Control -> Bool
  | .idle | .runs => false
  | _ => true

def Control.hasProc : Control -> Bool
  | .idle | .handling | .scan => false
  | _ => true

def Control.onStack : Control -> Bool
  | .runs | .locked | .sched _ | .resumed => true
  | _ => false

def Control.loaded : Control -> Bool
  | .idle | .handling | .scan | .switchuvm _ | .clear _ => false
  | _ => true

/-- The states in which a process waits for a processor, or for its parent. -/
def Away (state : ProcState) : Prop := state = .RUNNABLE ∨ state = .SLEEPING ∨ state = .ZOMBIE

theorem Site.away (site : Site) : Away site.state := by
  cases site with
  | forkret => exact .inl rfl
  | yield => exact .inl rfl
  | sleep => exact .inr (.inl rfl)
  | wait => exact .inr (.inl rfl)
  | exit => exact .inr (.inr rfl)

/-- The state of `proc`. -/
def Control.Expects : Control -> ProcState -> Prop
  | .switchuvm _ | .mark _ => fun state => state = .RUNNABLE
  | .sched _ | .switchkvm _ | .clear _ => Away
  | _ => fun state => state = .RUNNING

/-- The variable `p` of `scheduler`. -/
def Control.choice : Control -> Option (Fin NPROC)
  | .switchuvm p | .mark p | .swtch p | .switchkvm p | .clear p => some p
  | _ => none

structure Fits (ptable : Fin NPROC -> Slot) (x : Cpu) : Prop where
  proc : if x.control.hasProc = true then ∃ p, x.proc = some p /\ x.control.Expects (ptable p).state
    else x.proc = none
  stack : x.stack = if x.control.onStack = true then x.proc else none
  cr3 : x.cr3 = if x.control.loaded = true then x.proc else none
  choice : ∀ p, x.control.choice = some p -> x.proc = some p

namespace Fits

variable {ptable ptable' : Fin NPROC -> Slot} {x : Cpu} {p : Fin NPROC}

section

variable (fits : Fits ptable x)

include fits

theorem proc_of_stack (on : x.stack = some p) : x.proc = some p := by
  rw [fits.stack] at on
  split at on
  next => exact on
  next => cases on

theorem proc_of_cr3 (loaded : x.cr3 = some p) : x.proc = some p := by
  rw [fits.cr3] at loaded
  split at loaded
  next => exact loaded
  next => cases loaded

theorem expects (named : x.proc = some p) :
    x.control.hasProc = true /\ x.control.Expects (ptable p).state := by
  have known := fits.proc
  split at known
  next has =>
    rcases known with ⟨q, same, expected⟩
    rw [named] at same
    cases same
    exact ⟨has, expected⟩
  next => exact nomatch named.symm.trans known

theorem has (has : x.control.hasProc = true) :
    ∃ p, x.proc = some p /\ x.control.Expects (ptable p).state := by
  have known := fits.proc
  rw [if_pos has] at known
  exact known

/-- Without the lock, a processor has the process that it runs. -/
theorem running (free : x.control.holds = false) (named : x.proc = some p) :
    (ptable p).state = .RUNNING := by
  rcases fits.expects named with ⟨has, expected⟩
  cases control : x.control with
  | runs =>
    rw [control] at expected
    exact expected
  | idle =>
    rw [control] at has
    cases has
  | _ =>
    rw [control] at free
    cases free

/-- The fields at a known statement. -/
theorem known {control : Control} (here : x.control = control) (named : x.proc = some p) :
    control.Expects (ptable p).state /\
    x.stack = (if control.onStack = true then some p else none) /\
      x.cr3 = if control.loaded = true then some p else none := by
  subst here
  rw [<- named]
  exact ⟨(fits.expects named).2, fits.stack, fits.cr3⟩

omit fits in
theorem expects_started {control : Control} {state : ProcState} (expected : control.Expects state) :
    state ≠ .UNUSED /\ state ≠ .EMBRYO := by
  have away : ∀ other, Away other -> other ≠ .UNUSED /\ other ≠ .EMBRYO := by
    rintro other (rfl | rfl | rfl) <;> decide
  cases control with
  | sched => exact away state expected
  | switchkvm => exact away state expected
  | clear => exact away state expected
  | _ =>
    rw [show state = _ from expected]
    decide

/-- A processor is not concerned with other slots than that of its process. -/
theorem congr (same : ∀ p, x.proc = some p -> (ptable' p).state = (ptable p).state) :
    Fits ptable' x where
  proc := by
    have known := fits.proc
    split at known
    next has =>
      rw [if_pos has]
      rcases known with ⟨p, named, expected⟩
      refine ⟨p, named, ?_⟩
      rw [same p named]
      exact expected
    next none =>
      rw [if_neg none]
      exact known
  stack := fits.stack
  cr3 := fits.cr3
  choice := fits.choice

end

end Fits

/-- Nothing that a process needs has been freed. -/
def Kept (l : Slot) : Prop :=
  l.state ≠ .UNUSED -> l.state ≠ .EMBRYO -> l.kstack = true /\ l.pgdir = true

structure Sound (s : State κ) : Prop where
  lock : ∀ c, s.lock = some c <-> (s.cpu c).control.holds = true
  fits : ∀ c, Fits s.ptable (s.cpu c)
  unique : ∀ c c' p, (s.cpu c).proc = some p -> (s.cpu c').proc = some p -> c = c'
  running : ∀ p, (s.ptable p).state = .RUNNING -> ∃ c, (s.cpu c).proc = some p
  kept : ∀ p, Kept (s.ptable p)

namespace Sound

variable {s : State κ} {c c' : κ} {p q : Fin NPROC}

section

omit [DecidableEq κ]

theorem others_run (sound : Sound s) (holds : (s.cpu c).control.holds = true) (other : c' ≠ c)
    (named : (s.cpu c').proc = some p) : (s.ptable p).state = .RUNNING := by
  apply (sound.fits c').running _ named
  by_contra holding
  have first := (sound.lock c).mpr holds
  have second := (sound.lock c').mpr (Bool.eq_true_of_not_eq_false holding)
  rw [first] at second
  cases second
  exact other rfl

/-- A processor that has the lock and runs a process is alone with a process that does not run. -/
theorem nobody (sound : Sound s)
    (control : (s.cpu c).control = .locked ∨ (s.cpu c).control = .handling)
    (still : (s.ptable q).state ≠ .RUNNING) (c' : κ) : (s.cpu c').proc ≠ some q := by
  intro named
  have holds : (s.cpu c).control.holds = true := by
    rcases control with locked | handling
    · rw [locked]
      rfl
    · rw [handling]
      rfl
  by_cases same : c' = c
  · subst c'
    rcases (sound.fits c).expects named with ⟨has, expected⟩
    rcases control with locked | handling
    · rw [locked] at expected
      exact still expected
    · rw [handling] at has
      cases has
  · exact still (sound.others_run holds same named)

theorem nobody_embryo (sound : Sound s) (empty : (s.ptable q).state = .EMBRYO) (c' : κ) :
    (s.cpu c').proc ≠ some q :=
  fun named => (Fits.expects_started ((sound.fits c').expects named).2).2 empty

/-- A slot changes that is no processor's. -/
theorem setSlot (sound : Sound s) {l : Slot} (nobody : ∀ c, (s.cpu c).proc ≠ some q)
    (still : l.state ≠ .RUNNING) (kept : Kept l) : Sound (setSlot s q l) := by
  have others : ∀ p, p ≠ q -> update s.ptable q l p = s.ptable p :=
    fun p ne => update_of_ne ne _ _
  have here : update s.ptable q l q = l := update_self _ _ _
  constructor
  · exact sound.lock
  · intro c
    apply (sound.fits c).congr
    intro p named
    have ne : p ≠ q := by
      rintro rfl
      exact nobody c named
    exact congrArg Slot.state (others p ne)
  · exact sound.unique
  · intro p runs
    change (update s.ptable q l p).state = _ at runs
    by_cases same : p = q
    · rw [same, here] at runs
      exact absurd runs still
    · rw [others p same] at runs
      exact sound.running p runs
  · intro p
    change Kept (update s.ptable q l p)
    by_cases same : p = q
    · rw [same, here]
      exact kept
    · rw [others p same]
      exact sound.kept p

/-- The lock stays as it is, is acquired or is released, as the statements of the processor say. -/
def Locks (s : State κ) (c : κ) (lock : Option κ) (control : Control) : Prop :=
  (lock = s.lock /\ control.holds = (s.cpu c).control.holds) ∨
    (s.lock = none /\ lock = some c /\ control.holds = true) ∨
    ((s.cpu c).control.holds = true /\ lock = none /\ control.holds = false)

end

/-- A processor moves on, and may change the slot of its process. -/
theorem setCpu (sound : Sound s) {x : Cpu} {lock : Option κ} {ptable : Fin NPROC -> Slot}
    (locks : Locks s c lock x.control) (fits : Fits ptable x)
    (slots : ∀ q, (s.cpu c).proc ≠ some q -> ptable q = s.ptable q)
    (fresh : ∀ q, x.proc = some q -> (s.cpu c).proc = some q ∨ ∀ c', (s.cpu c').proc ≠ some q)
    (left : ∀ q, (s.cpu c).proc = some q -> (ptable q).state = .RUNNING -> x.proc = some q)
    (kept : ∀ q, (s.cpu c).proc = some q -> Kept (ptable q)) :
    Sound { s with cpu := update s.cpu c x, lock := lock, ptable := ptable } := by
  have others : ∀ c', c' ≠ c -> update s.cpu c x c' = s.cpu c' :=
    fun c' ne => update_of_ne ne _ _
  have here : update s.cpu c x c = x := update_self _ _ _
  have separate : ∀ c' q, c' ≠ c -> (s.cpu c').proc = some q -> (s.cpu c).proc ≠ some q :=
    fun c' q ne named both => ne (sound.unique c' c q named both)
  constructor <;> dsimp only
  · intro c'
    by_cases same : c' = c
    · rw [same, here]
      rcases locks with ⟨sameLock, sameHolds⟩ | ⟨_, taken, holds⟩ | ⟨_, released, holds⟩
      · rw [sameLock, sameHolds]
        exact sound.lock c
      · exact iff_of_true taken holds
      · rw [released, holds]
        exact iff_of_false (fun none => nomatch none) Bool.false_ne_true
    · rw [others c' same, <- sound.lock c']
      rcases locks with ⟨sameLock, _⟩ | ⟨free, taken, _⟩ | ⟨held, released, _⟩
      · rw [sameLock]
      · rw [taken, free]
        exact iff_of_false (fun both => same (Option.some.inj both).symm) (fun none => nomatch none)
      · rw [released, (sound.lock c).mpr held]
        exact iff_of_false (fun none => nomatch none) (fun both => same (Option.some.inj both).symm)
  · intro c'
    by_cases same : c' = c
    · rw [same, here]
      exact fits
    · rw [others c' same]
      apply (sound.fits c').congr
      intro q named
      rw [slots q (separate c' q same named)]
  · have apart : ∀ c' q, c' ≠ c -> (s.cpu c').proc = some q -> x.proc ≠ some q := by
      intro c' q ne named mine
      rcases fresh q mine with before | nobody
      · exact separate c' q ne named before
      · exact nobody c' named
    intro c1 c2 q first second
    by_cases same1 : c1 = c
    · by_cases same2 : c2 = c
      · rw [same1, same2]
      · rw [same1, here] at first
        rw [others c2 same2] at second
        exact absurd first (apart c2 q same2 second)
    · rw [others c1 same1] at first
      by_cases same2 : c2 = c
      · rw [same2, here] at second
        exact absurd second (apart c1 q same1 first)
      · rw [others c2 same2] at second
        exact sound.unique c1 c2 q first second
  · intro q runs
    by_cases mine : (s.cpu c).proc = some q
    · exact ⟨c, by rw [here]; exact left q mine runs⟩
    · rw [slots q mine] at runs
      rcases sound.running q runs with ⟨c', named⟩
      have ne : c' ≠ c := by
        rintro rfl
        exact mine named
      exact ⟨c', by rw [others c' ne]; exact named⟩
  · intro q
    by_cases mine : (s.cpu c).proc = some q
    · exact kept q mine
    · rw [slots q mine]
      exact sound.kept q

/-- A processor moves on with its process. -/
theorem moves (sound : Sound s) {x : Cpu} {lock : Option κ} (locks : Locks s c lock x.control)
    (fits : Fits s.ptable x) (proc : x.proc = (s.cpu c).proc) :
    Sound { s with cpu := update s.cpu c x, lock := lock } := by
  apply sound.setCpu locks fits (fun _ _ => rfl)
  · intro q named
    rw [proc] at named
    exact .inl named
  · intro q named _
    rw [proc]
    exact named
  · exact fun q _ => sound.kept q

end Sound

/-! ## Steps -/

namespace Fits

variable {ptable : Fin NPROC -> Slot} {x : Cpu} {p : Fin NPROC}

theorem of_proc (has : x.control.hasProc = true) (named : x.proc = some p)
    (expected : x.control.Expects (ptable p).state)
    (stack : x.stack = if x.control.onStack = true then some p else none)
    (cr3 : x.cr3 = if x.control.loaded = true then some p else none)
    (choice : ∀ q, x.control.choice = some q -> p = q) : Fits ptable x where
  proc := by
    rw [if_pos has]
    exact ⟨p, named, expected⟩
  stack := by
    rw [named]
    exact stack
  cr3 := by
    rw [named]
    exact cr3
  choice := by
    intro q chosen
    rw [named, choice q chosen]

theorem of_none (none : x.control.hasProc = false) (proc : x.proc = Option.none)
    (stack : x.stack = Option.none) (cr3 : x.cr3 = Option.none)
    (choice : x.control.choice = Option.none) : Fits ptable x where
  proc := by
    rw [if_neg (Bool.eq_false_iff.mp none)]
    exact proc
  stack := by
    rw [stack, proc, ite_self]
  cr3 := by
    rw [cr3, proc, ite_self]
  choice := fun q chosen => nomatch choice.symm.trans chosen

end Fits

namespace Sound

variable {s t : State κ} {c : κ} {p q : Fin NPROC}

section

variable (sound : Sound s)

include sound

/-- A processor changes the slot of its process. -/
theorem own {x : Cpu} {l : Slot} (named : (s.cpu c).proc = some q) (proc : x.proc = some q)
    (holds : x.control.holds = (s.cpu c).control.holds) (fits : Fits (fun _ => l) x)
    (kept : Kept l) : Sound (Cpus.setCpu (Cpus.setSlot s q l) c x) := by
  have here : update s.ptable q l q = l := update_self _ _ _
  have mine : ∀ r, (s.cpu c).proc = some r -> r = q :=
    fun r other => Option.some.inj (other.symm.trans named)
  refine sound.setCpu (.inl ⟨rfl, holds⟩) (fits.congr ?_) ?_ ?_ ?_ ?_
  · intro r same
    rw [Option.some.inj (same.symm.trans proc)]
    exact congrArg Slot.state here
  · intro r other
    apply update_of_ne
    rintro rfl
    exact other named
  · exact fun r same => .inl (named.trans (proc.symm.trans same))
  · exact fun r same _ => proc.trans (named.symm.trans same)
  · intro r same
    rw [mine r same]
    change Kept (update s.ptable q l q)
    rw [here]
    exact kept

theorem switchuvm (control : (s.cpu c).control = .switchuvm p) :
    Sound (Cpus.setCpu s c { s.cpu c with cr3 := some p, control := .mark p }) := by
  have named := (sound.fits c).choice p (by rw [control]; rfl)
  rcases (sound.fits c).known control named with ⟨ready, stack, _⟩
  exact sound.moves (.inl ⟨rfl, by rw [control]; rfl⟩)
    (Fits.of_proc rfl named ready stack rfl fun q chosen => Option.some.inj chosen) rfl

theorem mark (control : (s.cpu c).control = .mark p) :
    Sound (Cpus.setCpu (Cpus.setSlot s p { s.ptable p with state := .RUNNING }) c
      { s.cpu c with control := .swtch p }) := by
  have named := (sound.fits c).choice p (by rw [control]; rfl)
  rcases (sound.fits c).known control named with ⟨ready, stack, cr3⟩
  refine sound.own named named (by rw [control]; rfl) ?_ fun _ _ => ?_
  · exact Fits.of_proc rfl named rfl stack cr3 fun q chosen => Option.some.inj chosen
  · exact sound.kept p (by rw [ready]; decide) (by rw [ready]; decide)

/-- A context is restored. -/
theorem swtch {control' : Control} (control : (s.cpu c).control = .swtch p)
    (named : (s.cpu c).proc = some q) (goes : control' = .resumed ∨ control' = .locked) :
    Sound (Cpus.setCpu s c { s.cpu c with stack := some q, control := control' }) := by
  rcases (sound.fits c).known control named with ⟨runs, _, cr3⟩
  rcases goes with rfl | rfl
  · exact sound.moves (.inl ⟨rfl, by rw [control]; rfl⟩)
      (Fits.of_proc rfl named runs rfl cr3 fun q chosen => nomatch chosen) rfl
  · exact sound.moves (.inl ⟨rfl, by rw [control]; rfl⟩)
      (Fits.of_proc rfl named runs rfl cr3 fun q chosen => nomatch chosen) rfl

theorem switchkvm (control : (s.cpu c).control = .switchkvm p) :
    Sound (Cpus.setCpu s c { s.cpu c with cr3 := none, control := .clear p }) := by
  have named := (sound.fits c).choice p (by rw [control]; rfl)
  rcases (sound.fits c).known control named with ⟨away, stack, _⟩
  exact sound.moves (.inl ⟨rfl, by rw [control]; rfl⟩)
    (Fits.of_proc rfl named away stack rfl fun q chosen => Option.some.inj chosen) rfl

theorem clear (control : (s.cpu c).control = .clear p) :
    Sound (Cpus.setCpu s c { s.cpu c with proc := none, control := .scan }) := by
  have named := (sound.fits c).choice p (by rw [control]; rfl)
  rcases (sound.fits c).known control named with ⟨away, stack, cr3⟩
  refine sound.setCpu (.inl ⟨rfl, by rw [control]; rfl⟩) (Fits.of_none rfl rfl stack cr3 rfl)
    (fun _ _ => rfl) (fun q none => nomatch none) ?_ fun q _ => sound.kept q
  intro q mine runs
  rw [Option.some.inj (mine.symm.trans named)] at runs
  rcases away with ready | sleeping | gone
  · exact nomatch ready.symm.trans runs
  · exact nomatch sleeping.symm.trans runs
  · exact nomatch gone.symm.trans runs

theorem sched {site : Site} (control : (s.cpu c).control = .sched site)
    (named : (s.cpu c).proc = some q) :
    Sound (Cpus.setCpu (Cpus.setSlot s q { s.ptable q with context := site }) c
      { s.cpu c with stack := none, control := .switchkvm q }) := by
  rcases (sound.fits c).known control named with ⟨away, _, cr3⟩
  exact sound.own named named (by rw [control]; rfl)
    (Fits.of_proc rfl named away rfl cr3 fun r chosen => Option.some.inj chosen) (sound.kept q)

theorem leave {site : Site} (control : (s.cpu c).control = .locked)
    (named : (s.cpu c).proc = some q) :
    Sound (Cpus.setCpu (Cpus.setSlot s q { s.ptable q with state := site.state }) c
      { s.cpu c with control := .sched site }) := by
  rcases (sound.fits c).known control named with ⟨runs, stack, cr3⟩
  refine sound.own named named (by rw [control]; rfl) ?_ fun _ _ => ?_
  · exact Fits.of_proc rfl named site.away stack cr3 fun r chosen => nomatch chosen
  · exact sound.kept q (by rw [runs]; decide) (by rw [runs]; decide)

theorem choose (control : (s.cpu c).control = .scan) (ready : (s.ptable p).state = .RUNNABLE) :
    Sound (Cpus.setCpu s c { s.cpu c with proc := some p, control := .switchuvm p }) := by
  have fits := sound.fits c
  have stack := fits.stack
  have cr3 := fits.cr3
  have empty : (s.cpu c).proc = none := by
    have known := fits.proc
    rw [control] at known
    exact known
  rw [control] at stack cr3
  refine sound.setCpu (.inl ⟨rfl, by rw [control]; rfl⟩) (Fits.of_proc rfl rfl ready stack cr3 ?_)
    (fun _ _ => rfl) ?_ (fun q mine => nomatch empty.symm.trans mine) fun q _ => sound.kept q
  · exact fun q chosen => Option.some.inj chosen
  · intro q chosen
    cases chosen
    refine .inr fun c' named => ?_
    by_cases same : c' = c
    · rw [same, empty] at named
      cases named
    · have runs := sound.others_run (by rw [control]; rfl) same named
      exact nomatch ready.symm.trans runs

end

end Sound

/-- The processor executes a process, and `sched` is not under way. -/
def Control.Executes (control : Control) : Prop :=
  control = .runs ∨ control = .locked ∨ control = .resumed

variable {control : Control}

theorem Fits.executes {ptable : Fin NPROC -> Slot} {x : Cpu} (fits : Fits ptable x)
    (before : x.control.Executes) (after : control.Executes) :
    Fits ptable { x with control := control } := by
  have known : ∀ {control : Control}, control.Executes ->
      control.hasProc = true /\ control.onStack = true /\
      control.loaded = true /\ control.choice = none /\ control.Expects = fun state =>
        state = .RUNNING := by
    rintro _ (rfl | rfl | rfl) <;> exact ⟨rfl, rfl, rfl, rfl, rfl⟩
  rcases known before with ⟨has, on, loaded, _, expects⟩
  rcases known after with ⟨has', on', loaded', choice', expects'⟩
  rcases fits.has has with ⟨p, named, expected⟩
  have stack := fits.stack
  have cr3 := fits.cr3
  rw [if_pos on, named] at stack
  rw [if_pos loaded, named] at cr3
  rw [expects] at expected
  refine Fits.of_proc has' named ?_ ?_ ?_ ?_ <;> dsimp only
  · rw [expects']
    exact expected
  · rw [if_pos on']
    exact stack
  · rw [if_pos loaded']
    exact cr3
  · exact fun q chosen => nomatch choice'.symm.trans chosen

/-- The processor has no process. -/
def Control.Rests (control : Control) : Prop :=
  control = .idle ∨ control = .handling ∨ control = .scan

theorem Fits.rests {ptable : Fin NPROC -> Slot} {x : Cpu} (fits : Fits ptable x)
    (before : x.control.Rests) (after : control.Rests) :
    Fits ptable { x with control := control } := by
  have known : ∀ {control : Control}, control.Rests ->
      control.hasProc = false /\ control.onStack = false /\
      control.loaded = false /\ control.choice = none := by
    rintro _ (rfl | rfl | rfl) <;> exact ⟨rfl, rfl, rfl, rfl⟩
  rcases known before with ⟨has, on, loaded, _⟩
  rcases known after with ⟨has', _, _, choice'⟩
  have proc := fits.proc
  have stack := fits.stack
  have cr3 := fits.cr3
  rw [if_neg (Bool.eq_false_iff.mp has)] at proc
  rw [if_neg (Bool.eq_false_iff.mp on)] at stack
  rw [if_neg (Bool.eq_false_iff.mp loaded)] at cr3
  exact Fits.of_none has' proc stack cr3 choice'

namespace Sound

variable {s t : State κ} {c : κ}

theorem advance (sound : Sound s) (step : advance s c = some t) : Sound t := by
  unfold Cpus.advance at step
  dsimp only at step
  split at step
  next p control =>
    cases step
    exact sound.switchuvm control
  next p control =>
    cases step
    exact sound.mark control
  next p control =>
    split at step
    next => cases step
    next q named =>
      split at step
      next =>
        cases step
        exact sound.swtch control named (.inl rfl)
      next =>
        cases step
        exact sound.swtch control named (.inl rfl)
      next =>
        cases step
        exact sound.swtch control named (.inl rfl)
      next =>
        cases step
        exact sound.swtch control named (.inr rfl)
      next => cases step
  next p control =>
    cases step
    exact sound.switchkvm control
  next p control =>
    cases step
    exact sound.clear control
  next site control =>
    split at step
    next => cases step
    next q named =>
      cases step
      exact sound.sched control named
  next control =>
    cases step
    have executes := (sound.fits c).executes (.inr (.inr control)) (.inl rfl)
    exact sound.moves (.inr (.inr ⟨by rw [control]; rfl, rfl, rfl⟩)) executes rfl
  next => cases step

theorem releases {control : Control} (sound : Sound s) (holds : (s.cpu c).control.holds = true)
    (fits : Fits s.ptable { s.cpu c with control := control }) (free : control.holds = false) :
    Sound { Cpus.setCpu s c { s.cpu c with control := control } with lock := none } :=
  sound.moves (.inr (.inr ⟨holds, rfl, free⟩)) fits rfl

theorem acquires {control : Control} (sound : Sound s) (free : s.lock = none)
    (fits : Fits s.ptable { s.cpu c with control := control }) (holds : control.holds = true) :
    Sound { Cpus.setCpu s c { s.cpu c with control := control } with lock := some c } :=
  sound.moves (.inr (.inl ⟨free, rfl, holds⟩)) fits rfl

theorem step {label : Label κ} (sound : Sound s) (step : Step s label t) : Sound t := by
  unfold Step perform at step
  cases label with
  | next c => exact sound.advance step
  | choose c p =>
    rcases Option.ite_none_right_eq_some.mp step with ⟨allowed, ⟨⟩⟩
    exact sound.choose allowed.1 allowed.2
  | release c =>
    rcases Option.ite_none_right_eq_some.mp step with ⟨control, ⟨⟩⟩
    exact sound.releases (by rw [control]; rfl)
      ((sound.fits c).rests (.inr (.inr control)) (.inl rfl)) rfl
  | acquire c =>
    rcases Option.ite_none_right_eq_some.mp step with ⟨free, step⟩
    split at step
    next control =>
      cases step
      exact sound.acquires free ((sound.fits c).executes (.inl control) (.inr (.inl rfl))) rfl
    next control =>
      cases step
      exact sound.acquires free ((sound.fits c).rests (.inl control) (.inr (.inr rfl))) rfl
    next => cases step
  | interrupt c =>
    rcases Option.ite_none_right_eq_some.mp step with ⟨⟨free, control⟩, ⟨⟩⟩
    exact sound.acquires free ((sound.fits c).rests (.inl control) (.inr (.inl rfl))) rfl
  | unlock c =>
    dsimp only at step
    split at step
    next control =>
      cases step
      exact sound.releases (by rw [control]; rfl)
        ((sound.fits c).executes (.inr (.inl control)) (.inl rfl)) rfl
    next control =>
      cases step
      exact sound.releases (by rw [control]; rfl)
        ((sound.fits c).rests (.inr (.inl control)) (.inl rfl)) rfl
    next => cases step
  | leave c site =>
    rcases Option.ite_none_right_eq_some.mp step with ⟨allowed, step⟩
    split at step
    next => cases step
    next q named =>
      cases step
      exact sound.leave allowed.1 named
  | wake c q =>
    rcases Option.ite_none_right_eq_some.mp step with ⟨⟨control, asleep⟩, ⟨⟩⟩
    refine sound.setSlot (sound.nobody control (by rw [asleep]; decide)) (fun runs => nomatch runs)
      fun _ _ => ?_
    exact sound.kept q (by rw [asleep]; decide) (by rw [asleep]; decide)
  | reap c z =>
    rcases Option.ite_none_right_eq_some.mp step with ⟨⟨control, zombie⟩, ⟨⟩⟩
    exact sound.setSlot (sound.nobody (.inl control) (by rw [zombie]; decide)) (fun runs => nomatch runs)
      fun unused => absurd rfl unused
  | allocproc c np =>
    rcases Option.ite_none_right_eq_some.mp step with ⟨⟨control, unused⟩, ⟨⟩⟩
    exact sound.setSlot (sound.nobody (.inl control) (by rw [unused]; decide)) (fun runs => nomatch runs)
      fun _ empty => absurd rfl empty
  | prepare c np =>
    rcases Option.ite_none_right_eq_some.mp step with ⟨⟨_, embryo⟩, ⟨⟩⟩
    exact sound.setSlot (sound.nobody_embryo embryo) (fun runs => nomatch embryo.symm.trans runs)
      fun _ _ => ⟨rfl, rfl⟩
  | fail c np =>
    rcases Option.ite_none_right_eq_some.mp step with ⟨⟨_, embryo⟩, ⟨⟩⟩
    exact sound.setSlot (sound.nobody_embryo embryo) (fun runs => nomatch runs) fun unused =>
      absurd rfl unused
  | start c np =>
    rcases Option.ite_none_right_eq_some.mp step with ⟨⟨_, embryo, memory⟩, ⟨⟩⟩
    exact sound.setSlot (sound.nobody_embryo embryo) (fun runs => nomatch runs) fun _ _ => memory

end Sound

omit [DecidableEq κ] in
theorem sound_boot : Sound (boot : State κ) := by
  constructor
  · exact fun c => iff_of_false (fun none => nomatch none) (fun holds => nomatch holds)
  · exact fun c => Fits.of_none rfl rfl rfl rfl rfl
  · exact fun c c' p named => nomatch named
  · intro p runs
    by_cases first : p.val = 0
    · rw [show (boot : State κ).ptable p = _ from if_pos first] at runs
      cases runs
    · rw [show (boot : State κ).ptable p = _ from if_neg first] at runs
      cases runs
  · intro p used _
    by_cases first : p.val = 0
    · rw [show (boot : State κ).ptable p = _ from if_pos first]
      exact ⟨rfl, rfl⟩
    · rw [show (boot : State κ).ptable p = _ from if_neg first] at used
      exact absurd rfl used

/-- Between the choice of a process and `swtch`, or between a change of its state and `proc = 0`. -/
def Control.Handing : Control -> Prop
  | .switchuvm _ | .mark _ | .sched _ | .switchkvm _ | .clear _ => True
  | _ => False

theorem Control.handing {state : ProcState} (has : control.hasProc = true)
    (expected : control.Expects state) (still : state ≠ .RUNNING) :
    control.holds = true /\ control.Handing := by
  cases control with
  | idle => cases has
  | handling => cases has
  | scan => cases has
  | swtch => exact absurd expected still
  | runs => exact absurd expected still
  | locked => exact absurd expected still
  | resumed => exact absurd expected still
  | _ => exact ⟨rfl, trivial⟩

/-- A processor that has the lock gives `p` to a processor, or takes it away. -/
def HandsOver (s : State κ) (p : Fin NPROC) : Prop :=
  ∃ c, s.lock = some c /\ (s.cpu c).proc = some p /\ (s.cpu c).control.Handing

/-- One processor at a time executes a process, and what it executes on is there. -/
theorem one_cpu_per_process {labels : List (Label κ)} {s : State κ}
    (run : GuardedRun Step (fun _ _ => True) boot labels s) :
    (∀ c c' p, (s.cpu c).stack = some p -> (s.cpu c').stack = some p -> c = c') /\
    (∀ c c' p q, (s.cpu c).control = .swtch p -> (s.cpu c).proc = some q ->
      (s.cpu c').stack ≠ some q) /\
    (∀ p, ¬ HandsOver s p -> ((s.ptable p).state = .RUNNING <-> ∃ c, (s.cpu c).proc = some p)) /\
    (∀ c z t, Step s (.reap c z) t -> ∀ c', (s.cpu c').stack ≠ some z /\ (s.cpu c').cr3 ≠ some z) /\
    ∀ c p, ((s.cpu c).stack = some p -> (s.ptable p).kstack = true) /\
      ((s.cpu c).cr3 = some p -> (s.ptable p).pgdir = true) := by
  have kept : ∀ (s : State κ) label t, True -> Step s label t -> Sound s -> Sound t :=
    fun s label t _ step sound => sound.step step
  have sound := run.invariant kept sound_boot
  have memory : ∀ c p, (s.cpu c).proc = some p ->
      (s.ptable p).kstack = true /\ (s.ptable p).pgdir = true := by
    intro c p named
    have started := Fits.expects_started ((sound.fits c).expects named).2
    exact sound.kept p started.1 started.2
  refine ⟨?_, ?_, ?_, ?_, ?_⟩
  · intro c c' p first second
    exact sound.unique c c' p ((sound.fits c).proc_of_stack first) ((sound.fits c').proc_of_stack second)
  · intro c c' p q control named on
    have same := sound.unique c c' q named ((sound.fits c').proc_of_stack on)
    subst c'
    have stack := (sound.fits c).stack
    rw [control, on] at stack
    cases stack
  · intro p calm
    refine ⟨sound.running p, ?_⟩
    rintro ⟨c, named⟩
    rcases (sound.fits c).expects named with ⟨has, expected⟩
    by_contra still
    have handing := Control.handing has expected still
    exact calm ⟨c, (sound.lock c).mpr handing.1, named, handing.2⟩
  · intro c z t step c'
    rcases Option.ite_none_right_eq_some.mp step with ⟨⟨control, zombie⟩, _⟩
    have nobody := sound.nobody (.inl control) (by rw [zombie]; decide) c'
    exact ⟨fun on => nobody ((sound.fits c').proc_of_stack on),
      fun loaded => nobody ((sound.fits c').proc_of_cr3 loaded)⟩
  · intro c p
    exact ⟨fun on => (memory c p ((sound.fits c).proc_of_stack on)).1,
      fun loaded => (memory c p ((sound.fits c).proc_of_cr3 loaded)).2⟩

/-- Two processors, the first process and a child of it. -/
def twoCpus : List (Label Bool) :=
  [.acquire false, .choose false ⟨0, NPROC_pos⟩, .next false, .next false, .next false, .next false,
    .acquire false, .allocproc false ⟨1, one_lt_NPROC⟩, .unlock false, .prepare false ⟨1, one_lt_NPROC⟩,
    .acquire false, .start false ⟨1, one_lt_NPROC⟩, .unlock false,
    .acquire true, .choose true ⟨1, one_lt_NPROC⟩, .next true, .next true, .next true, .next true,
    .acquire true, .leave true .exit, .next true, .next true, .next true, .release true, .acquire false]

theorem one_cpu_per_process_twoCpus : ∃ s : State Bool,
    GuardedRun Step (fun _ _ => True) boot twoCpus s /\ (s.ptable ⟨1, by decide⟩).state = .ZOMBIE /\
      (s.cpu false).stack = some ⟨0, by decide⟩ /\ (s.cpu true).stack ≠ some ⟨0, by decide⟩ := by
  have outcome : (checked (fun _ _ => True) perform boot twoCpus).map
      (fun s => ((s.ptable ⟨1, by decide⟩).state, (s.cpu false).stack)) =
        some (.ZOMBIE, some ⟨0, by decide⟩) := by
    decide +kernel
  rcases Option.map_eq_some_iff.mp outcome with ⟨s, done, values⟩
  simp only [Prod.mk.injEq] at values
  have run : GuardedRun Step (fun _ _ => True) boot twoCpus s := GuardedRun.of_checked done
  refine ⟨s, run, values.1, values.2, fun both => ?_⟩
  exact nomatch (one_cpu_per_process run).1 false true _ values.2 both

end Xv6.Cpus
