import Mathlib.Data.List.FinRange
import Mathlib.Logic.Function.Basic
import Xv6.Library.GuardedRun
import Xv6.Machine.Layout

namespace Xv6.Table

open Library
open Machine (NPROC Word)

/-!
# The process tree

`fork`, `cowfork`, `exit`, `wait` and `kill`, with `sleep`, `wakeup`, `yield`
and the scheduler, on any number of processors.  A step is a section that holds
`ptable.lock`, or one store of a call into a slot that its `allocproc` has
taken; other processes run between any two steps of a call.

A process that the scheduler chooses holds the lock until it releases it, and
so the scan of `wait` that follows a sleep is in the step of the scheduler.

`allocations`, `exited` and `returned` are not in the source.  They count the
calls of `allocproc` that have found a slot, and keep the pids that have
exited and what calls of `wait` have returned.
-/

inductive ProcState where
  | UNUSED
  | EMBRYO
  | SLEEPING
  | RUNNABLE
  | RUNNING
  | ZOMBIE
deriving DecidableEq

/-- It has been started and has not left. -/
def ProcState.Active (state : ProcState) : Prop :=
  state = .SLEEPING ∨ state = .RUNNABLE ∨ state = .RUNNING

instance (state : ProcState) : Decidable state.Active := inferInstanceAs (Decidable (_ ∨ _))

/-- An address that a process sleeps on. -/
inductive Chan where
  /-- The `struct proc` of a process, which is what it sleeps on in `wait`. -/
  | proc (p : Fin NPROC)
  | other (address : Nat)
deriving DecidableEq

/-- Where a process is in a call. -/
inductive Point where
  /-- In user mode, or in a call that is none of these. -/
  | user
  /-- `allocproc` has found a slot for `fork` or `cowfork`. -/
  | embryo (np : Fin NPROC)
  /-- `np->parent` has been stored. -/
  | child (np : Fin NPROC)
  /-- `exit` closes the files. -/
  | exiting
  /-- `wait` has not got the lock yet. -/
  | waiting
  /-- `wait` is in `sleep`. -/
  | asleep
deriving DecidableEq

structure Proc where
  state : ProcState
  pid : Word
  parent : Option (Fin NPROC)
  chan : Option Chan
  killed : Bool
  point : Point

structure State where
  ptable : Fin NPROC -> Proc
  nextpid : Word
  allocations : Nat
  exited : List Word
  returned : List (Fin NPROC × Word)

def initproc : Fin NPROC := ⟨0, Machine.NPROC_pos⟩

inductive Label where
  /-- The scheduler of some processor chooses `p`. -/
  | schedule (p : Fin NPROC)
  | yield (p : Fin NPROC)
  /-- `sleep`, of a call other than `wait` -/
  | sleep (p : Fin NPROC) (address : Nat)
  | wakeup (address : Nat)
  /-- `allocproc`, of `fork` or `cowfork` -/
  | fork (p : Fin NPROC)
  /-- There is no memory for the kernel stack or for the page directory. -/
  | forkFails (p : Fin NPROC)
  /-- `np->parent = proc` -/
  | forkCopies (p : Fin NPROC)
  /-- `np->state = RUNNABLE` -/
  | forkStarts (p : Fin NPROC)
  | exit (p : Fin NPROC)
  /-- The section of `exit` -/
  | exitLocked (p : Fin NPROC)
  | wait (p : Fin NPROC)
  /-- The first section of `wait` -/
  | waitLocked (p : Fin NPROC)
  | kill (pid : Word)
  /-- `trap` gives up on the process. -/
  | fault (p : Fin NPROC)

def setProc (s : State) (p : Fin NPROC) (l : Proc) : State :=
  { s with ptable := Function.update s.ptable p l }

/-- The first slot that is unused. -/
def allocproc (ptable : Fin NPROC -> Proc) : Option (Fin NPROC) :=
  (List.finRange NPROC).find? fun p => (ptable p).state = .UNUSED

/-- The slot, after `wakeup1`. -/
def wake (chan : Chan) (l : Proc) : Proc :=
  if l.state = .SLEEPING /\ l.chan = some chan then { l with state := .RUNNABLE } else l

def wakeup1 (ptable : Fin NPROC -> Proc) (chan : Chan) : Fin NPROC -> Proc :=
  fun p => wake chan (ptable p)

/-- One turn of the loop of `exit` over the slots. -/
def abandon (p : Fin NPROC) (ptable : Fin NPROC -> Proc) (q : Fin NPROC) : Fin NPROC -> Proc :=
  if (ptable q).parent = some p then
    let passed := Function.update ptable q { ptable q with parent := some initproc }
    if (ptable q).state = .ZOMBIE then wakeup1 passed (.proc initproc) else passed
  else ptable

/-- The section of `exit`. -/
def exitSection (s : State) (p : Fin NPROC) : State :=
  let woken := match (s.ptable p).parent with
    | some parent => wakeup1 s.ptable (.proc parent)
    | none => s.ptable
  let passed := (List.finRange NPROC).foldl (abandon p) woken
  { s with
    ptable := Function.update passed p { passed p with state := .ZOMBIE, point := .user }
    exited := s.exited ++ [(s.ptable p).pid] }

/-- The first slot that holds a child of `p` which has exited. -/
def zombie (ptable : Fin NPROC -> Proc) (p : Fin NPROC) : Option (Fin NPROC) :=
  (List.finRange NPROC).find? fun q => (ptable q).parent = some p /\ (ptable q).state = .ZOMBIE

def havekids (ptable : Fin NPROC -> Proc) (p : Fin NPROC) : Bool :=
  (List.finRange NPROC).any fun q => (ptable q).parent = some p

/-- The loop of `wait`, until it sleeps or returns. -/
def waitSection (s : State) (p : Fin NPROC) : State :=
  match zombie s.ptable p with
  | some q =>
    let t := setProc s q { s.ptable q with state := .UNUSED, pid := 0, parent := none, killed := false }
    { setProc t p { t.ptable p with point := .user } with returned :=
      s.returned ++ [(p, (s.ptable q).pid)] }
  | none =>
    if havekids s.ptable p = false ∨ (s.ptable p).killed = true then
      { setProc s p { s.ptable p with point := .user } with returned := s.returned ++ [(p, -1)] }
    else setProc s p { s.ptable p with chan := some (.proc p), state := .SLEEPING, point := .asleep }

/-- What `kill` does to the slot that it finds. -/
def hit (l : Proc) : Proc :=
  { l with killed := true, state := if l.state = .SLEEPING then .RUNNABLE else l.state }

def perform (s : State) : Label -> Option State
  | .schedule p =>
    if (s.ptable p).state = .RUNNABLE then
      -- `sleep` tidies up `chan`, and it is null already after `yield` and in `forkret`.
      let t := setProc s p { s.ptable p with state := .RUNNING, chan := none }
      if (s.ptable p).point = .asleep then some (waitSection t p) else some t
    else none
  | .yield p =>
    if (s.ptable p).state = .RUNNING then some (setProc s p { s.ptable p with state := .RUNNABLE })
    else none
  | .sleep p address =>
    if (s.ptable p).state = .RUNNING /\ ((s.ptable p).point = .user ∨ (s.ptable p).point = .exiting) then
      some (setProc s p { s.ptable p with chan := some (.other address), state := .SLEEPING })
    else none
  | .wakeup address => some { s with ptable := wakeup1 s.ptable (.other address) }
  | .fork p =>
    if (s.ptable p).state = .RUNNING /\ (s.ptable p).point = .user then
      match allocproc s.ptable with
      | none => some s
      | some np =>
        let t := setProc s np { s.ptable np with state := .EMBRYO, pid := s.nextpid }
        some { setProc t p { t.ptable p with point := .embryo np } with
          nextpid := s.nextpid + 1, allocations := s.allocations + 1 }
    else none
  | .forkFails p =>
    match (s.ptable p).state, (s.ptable p).point with
    | .RUNNING, .embryo np =>
      let t := setProc s np { s.ptable np with state := .UNUSED }
      some (setProc t p { t.ptable p with point := .user })
    | _, _ => none
  | .forkCopies p =>
    match (s.ptable p).state, (s.ptable p).point with
    | .RUNNING, .embryo np =>
      let t := setProc s np { s.ptable np with parent := some p }
      some (setProc t p { t.ptable p with point := .child np })
    | _, _ => none
  | .forkStarts p =>
    match (s.ptable p).state, (s.ptable p).point with
    | .RUNNING, .child np =>
      let t := setProc s np { s.ptable np with state := .RUNNABLE }
      some (setProc t p { t.ptable p with point := .user })
    | _, _ => none
  | .exit p =>
    -- panic("init exiting")
    if p = initproc then none
    else if (s.ptable p).state = .RUNNING /\ (s.ptable p).point = .user then
      some (setProc s p { s.ptable p with point := .exiting })
    else none
  | .exitLocked p =>
    if (s.ptable p).state = .RUNNING /\ (s.ptable p).point = .exiting then some (exitSection s p)
    else none
  | .wait p =>
    if (s.ptable p).state = .RUNNING /\ (s.ptable p).point = .user then
      some (setProc s p { s.ptable p with point := .waiting })
    else none
  | .waitLocked p =>
    if (s.ptable p).state = .RUNNING /\ (s.ptable p).point = .waiting then some (waitSection s p)
    else none
  | .kill pid =>
    match (List.finRange NPROC).find? fun p => (s.ptable p).pid = pid with
    | none => some s
    | some p => some (setProc s p (hit (s.ptable p)))
  | .fault p =>
    if (s.ptable p).state = .RUNNING then some (setProc s p { s.ptable p with killed := true }) else none

def Step (s : State) (label : Label) (t : State) : Prop := perform s label = some t

/-- After `userinit`. -/
def boot : State where
  ptable := fun p =>
    { state := if p = initproc then .RUNNABLE else .UNUSED
      pid := if p = initproc then 1 else 0
      parent := none
      chan := none
      killed := false
      point := .user }
  nextpid := 2
  allocations := 1
  exited := []
  returned := []

end Xv6.Table
