import Mathlib.Data.List.FinRange
import Mathlib.Logic.Function.Basic
import Xv6.Machine.Layout

namespace Xv6.OpenFiles

open Machine (NPROC NFILE NOFILE)
open Function

/-!
# Open files, when processes share them

`open`, `dup`, `pipe`, `close`, `fork`, `cowfork` and `exit`, with the counts
that they keep in `ftable`, in pipes and in inodes.  A step is a section that
holds `ftable.lock`, `p->lock` or `ptable.lock`, or work of a process on its
own descriptors; other processes run between any two steps of a call.

An `ofile[]` slot is null, or points into `ftable`, or is `wild`: `allocproc`
of a slot stores `-1` at its `handlers[SIGSEGV]`, which is outside of the array
and is `ofile[0]` of the next slot of `ptable`.

`used` and the counts of `kalloc` and `kfree` for a page are not in the source.
A slot's `ofile[0]` is used from the time that `fork` has dealt with it until
`exit` has.  `iref` counts the references to an inode that are kept by open
files or by calls of `open` and `close`.
-/

variable {π ν : Type}

inductive Pointer where
  | null
  | file (f : Fin NFILE)
  /-- `(struct file*)-1` -/
  | wild
deriving DecidableEq

inductive FileType where
  | FD_NONE
  | FD_PIPE
  | FD_INODE
deriving DecidableEq

structure File (π ν : Type) where
  type : FileType
  ref : Int
  readable : Bool
  writable : Bool
  pipe : π
  ip : ν

structure Pipe where
  readopen : Bool
  writeopen : Bool

/-- The pipe without one of its ends. -/
def Pipe.shut (x : Pipe) (writable : Bool) : Pipe :=
  if writable = true then { x with writeopen := false } else { x with readopen := false }

inductive Status where
  | UNUSED
  | EMBRYO
  /-- It has been started and has not left. -/
  | RUNNABLE
  | ZOMBIE
deriving DecidableEq

/-- What is left of calls of `fileclose`. -/
inductive Closing (π ν : Type) where
  | fileclose (f : Fin NFILE)
  | pipeclose (p : π) (writable : Bool)
  | iput (ip : ν)
deriving DecidableEq

/-- Where a process is in a system call, when its calls of `fileclose` have returned. -/
inductive Point (ν : Type) where
  | user
  /-- `sys_open` has its inode. -/
  | openFile (ip : ν) (readable writable : Bool)
  | openFd (ip : ν) (readable writable : Bool) (f : Fin NFILE)
  | openSet (ip : ν) (readable writable : Bool) (f : Fin NFILE)
  /-- `pipealloc` -/
  | pipeFile0
  | pipeFile1 (f0 : Fin NFILE)
  | pipePage (f0 f1 : Fin NFILE)
  /-- `sys_pipe` has a pipe. -/
  | pipeFd0 (rf wf : Fin NFILE)
  | pipeFd1 (fd0 : Fin NOFILE) (rf wf : Fin NFILE)
  /-- `sys_dup` has a descriptor. -/
  | filedup (f : Fin NFILE)
  /-- `allocproc` has a slot. -/
  | kstack (np : Fin NPROC)
  | handlers (np : Fin NPROC)
  | copyuvm (np : Fin NPROC)
  /-- The loop of `fork` over the descriptors. -/
  | dupFiles (np : Fin NPROC) (fd : Nat)
  /-- The loop of `exit` over the descriptors. -/
  | exitFd (fd : Nat)
  | clearFd (fd : Fin NOFILE) (f : Fin NFILE)
deriving DecidableEq

structure Proc (π ν : Type) where
  state : Status
  ofile : Fin NOFILE -> Pointer
  used : Bool
  closing : List (Closing π ν)
  point : Point ν

structure State (π ν : Type) where
  ptable : Fin NPROC -> Proc π ν
  ftable : Fin NFILE -> File π ν
  pipes : π -> Pipe
  allocated : π -> Bool
  kallocs : π -> Nat
  kfrees : π -> Nat
  iref : ν -> Int

inductive Label (π ν : Type) where
  /-- `sys_open`, when `namei` or `create` has given an inode. -/
  | sysOpen (p : Fin NPROC) (ip : ν) (readable writable : Bool)
  | sysDup (p : Fin NPROC) (fd : Fin NOFILE)
  | sysPipe (p : Fin NPROC)
  | sysClose (p : Fin NPROC) (fd : Fin NOFILE)
  /-- `fork` or `cowfork` -/
  | fork (p : Fin NPROC)
  | exit (p : Fin NPROC)
  /-- `wait` has found a zombie. -/
  | wait (child : Fin NPROC)
  /-- The next step of a call; `memory` is what `kalloc` has for it. -/
  | next (p : Fin NPROC) (memory : Option π)

variable [DecidableEq π] [DecidableEq ν]

def fd0 : Fin NOFILE := ⟨0, by decide⟩

/-- The lowest descriptor that is free. -/
def fdalloc (ofile : Fin NOFILE -> Pointer) : Option (Fin NOFILE) :=
  (List.finRange NOFILE).find? fun fd => ofile fd = .null

/-- The first file that is free. -/
def filealloc (ftable : Fin NFILE -> File π ν) : Option (Fin NFILE) :=
  (List.finRange NFILE).find? fun f => (ftable f).ref = 0

/-- The first slot that is unused. -/
def allocproc (ptable : Fin NPROC -> Proc π ν) : Option (Fin NPROC) :=
  (List.finRange NPROC).find? fun p => (ptable p).state = .UNUSED

def setProc (s : State π ν) (p : Fin NPROC) (l : Proc π ν) : State π ν :=
  { s with ptable := update s.ptable p l }

def setFile (s : State π ν) (f : Fin NFILE) (x : File π ν) : State π ν :=
  { s with ftable := update s.ftable f x }

/-- One step of `fileclose`, for a process with more of them to do. -/
def close (s : State π ν) (p : Fin NPROC) (rest : List (Closing π ν)) : Closing π ν -> Option (State π ν)
  | .fileclose f =>
    let ff := s.ftable f
    if ff.ref < 1 then none
    else if 0 < ff.ref - 1 then
      some (setProc (setFile s f { ff with ref := ff.ref - 1 }) p { s.ptable p with closing := rest })
    else
      some (setProc (setFile s f { ff with ref := 0, type := .FD_NONE }) p
        { s.ptable p with
          closing := match ff.type with
            | .FD_PIPE => .pipeclose ff.pipe ff.writable :: rest
            | .FD_INODE => .iput ff.ip :: rest
            | .FD_NONE => rest })
  | .pipeclose g writable =>
    let x := (s.pipes g).shut writable
    let t := { s with pipes := update s.pipes g x }
    let l := { s.ptable p with closing := rest }
    if x.readopen = false /\ x.writeopen = false then
      some (setProc { t with
        allocated := update t.allocated g false
        kfrees := update t.kfrees g (t.kfrees g + 1) } p l)
    else some (setProc t p l)
  | .iput ip =>
    some (setProc { s with iref := update s.iref ip (s.iref ip - 1) } p
      { s.ptable p with closing := rest })

/-- `np->handlers[SIGSEGV] = -1` -/
def overrun (s : State π ν) (np : Fin NPROC) : State π ν :=
  if inside : np.val + 1 < NPROC then
    let next := s.ptable ⟨np.val + 1, inside⟩
    setProc s ⟨np.val + 1, inside⟩ { next with ofile := update next.ofile fd0 .wild }
  else s

/-- One turn of the loop of `fork`. -/
def dupFile (s : State π ν) (p np : Fin NPROC) (fd : Fin NOFILE) : Option (State π ν) :=
  let child := s.ptable np
  let used := if fd = fd0 then true else child.used
  let l := { s.ptable p with point := .dupFiles np (fd.val + 1) }
  match (s.ptable p).ofile fd with
  | .null => some (setProc (setProc s np { child with used := used }) p l)
  | .wild => none
  | .file f =>
    let ff := s.ftable f
    if ff.ref < 1 then none
    else
      some (setProc (setProc (setFile s f { ff with ref := ff.ref + 1 }) np
        { child with ofile := update child.ofile fd (.file f), used := used }) p l)

/-- One step of a call that has no `fileclose` to wait for. -/
def advance (s : State π ν) (p : Fin NPROC) (memory : Option π)
    (point : Point ν) : Option (State π ν) :=
  let l := s.ptable p
  match point with
  | .user => none
  | .openFile ip readable writable =>
    match filealloc s.ftable with
    | none => some (setProc s p { l with closing := [.iput ip], point := .user })
    | some f =>
      some (setProc (setFile s f { s.ftable f with ref := 1 }) p
        { l with point := .openFd ip readable writable f })
  | .openFd ip readable writable f =>
    match fdalloc l.ofile with
    | none => some (setProc s p { l with closing := [.fileclose f, .iput ip], point := .user })
    | some fd =>
      some (setProc s p
        { l with ofile := update l.ofile fd (.file f), point := .openSet ip readable writable f })
  | .openSet ip readable writable f =>
    some (setProc (setFile s f
      { s.ftable f with type := .FD_INODE, ip := ip, readable := readable, writable := writable }) p
      { l with point := .user })
  | .pipeFile0 =>
    match filealloc s.ftable with
    | none => some (setProc s p { l with point := .user })
    | some f0 => some (setProc (setFile s f0 { s.ftable f0 with ref := 1 }) p
      { l with point := .pipeFile1 f0 })
  | .pipeFile1 f0 =>
    match filealloc s.ftable with
    | none => some (setProc s p { l with closing := [.fileclose f0], point := .user })
    | some f1 => some (setProc (setFile s f1 { s.ftable f1 with ref := 1 }) p
      { l with point := .pipePage f0 f1 })
  | .pipePage f0 f1 =>
    match memory with
    | none => some (setProc s p { l with closing := [.fileclose f0, .fileclose f1], point := .user })
    | some g =>
      if s.allocated g = true then none
      else
        let t := setFile s f0
          { s.ftable f0 with type := .FD_PIPE, readable := true, writable := false, pipe := g }
        let t := setFile t f1
          { t.ftable f1 with type := .FD_PIPE, readable := false, writable := true, pipe := g }
        some (setProc { t with
          pipes := update t.pipes g ⟨true, true⟩
          allocated := update t.allocated g true
          kallocs := update t.kallocs g (t.kallocs g + 1) } p { l with point := .pipeFd0 f0 f1 })
  | .pipeFd0 rf wf =>
    match fdalloc l.ofile with
    | none => some (setProc s p { l with closing := [.fileclose rf, .fileclose wf], point := .user })
    | some fd =>
      some (setProc s p { l with ofile := update l.ofile fd (.file rf), point := .pipeFd1 fd rf wf })
  | .pipeFd1 fd rf wf =>
    match fdalloc l.ofile with
    | none =>
      some (setProc s p
        { l with
          ofile := update l.ofile fd .null
          closing := [.fileclose rf, .fileclose wf]
          point := .user })
    | some fd1 => some (setProc s p { l with ofile := update l.ofile fd1 (.file wf), point := .user })
  | .filedup f =>
    let ff := s.ftable f
    if ff.ref < 1 then none
    else some (setProc (setFile s f { ff with ref := ff.ref + 1 }) p { l with point := .user })
  | .kstack np =>
    match memory with
    | none => some (setProc (setProc s np { s.ptable np with state := .UNUSED }) p
      { l with point := .user })
    | some _ => some (setProc s p { l with point := .handlers np })
  | .handlers np => some (overrun (setProc s p { l with point := .copyuvm np }) np)
  | .copyuvm np =>
    match memory with
    | none => some (setProc (setProc s np { s.ptable np with state := .UNUSED }) p
      { l with point := .user })
    | some _ => some (setProc s p { l with point := .dupFiles np 0 })
  | .dupFiles np fd =>
    if inside : fd < NOFILE then dupFile s p np ⟨fd, inside⟩
    else some (setProc (setProc s np { s.ptable np with state := .RUNNABLE }) p { l with point := .user })
  | .exitFd fd =>
    if inside : fd < NOFILE then
      match l.ofile ⟨fd, inside⟩ with
      | .null =>
        some (setProc s p { l with used := if fd = 0 then false else l.used, point := .exitFd (fd + 1) })
      | .wild => none
      | .file f =>
        some (setProc s p { l with closing := [.fileclose f], point := .clearFd ⟨fd, inside⟩ f })
    else some (setProc s p { l with state := .ZOMBIE, point := .user })
  | .clearFd fd _ =>
    some (setProc s p
      { l with
        ofile := update l.ofile fd .null
        used := if fd.val = 0 then false else l.used
        point := .exitFd (fd.val + 1) })

/-- The process is in user mode. -/
def Ready (l : Proc π ν) : Prop := l.state = .RUNNABLE /\ l.closing = [] /\ l.point = .user

instance (l : Proc π ν) : Decidable (Ready l) := inferInstanceAs (Decidable (_ /\ _))

def perform (s : State π ν) : Label π ν -> Option (State π ν)
  | .sysOpen p ip readable writable =>
    if Ready (s.ptable p) then
      some (setProc { s with iref := update s.iref ip (s.iref ip + 1) } p
        { s.ptable p with point := .openFile ip readable writable })
    else none
  | .sysDup p fd =>
    if Ready (s.ptable p) then
      match (s.ptable p).ofile fd with
      | .null => some s
      | .wild => none
      | .file f =>
        match fdalloc (s.ptable p).ofile with
        | none => some s
        | some other =>
          some (setProc s p
            { s.ptable p with
              ofile := update (s.ptable p).ofile other (.file f)
              point := .filedup f })
    else none
  | .sysPipe p =>
    if Ready (s.ptable p) then some (setProc s p { s.ptable p with point := .pipeFile0 }) else none
  | .sysClose p fd =>
    if Ready (s.ptable p) then
      match (s.ptable p).ofile fd with
      | .null => some s
      | .wild => none
      | .file f =>
        some (setProc s p
          { s.ptable p with
            ofile := update (s.ptable p).ofile fd .null
            closing := [.fileclose f] })
    else none
  | .fork p =>
    if Ready (s.ptable p) then
      match allocproc s.ptable with
      | none => some s
      | some np =>
        some (setProc (setProc s np { s.ptable np with state := .EMBRYO }) p
          { s.ptable p with point := .kstack np })
    else none
  | .exit p =>
    -- panic("init exiting")
    if p.val = 0 then none
    else if Ready (s.ptable p) then some (setProc s p { s.ptable p with point := .exitFd 0 })
    else none
  | .wait child =>
    if (s.ptable child).state = .ZOMBIE then some (setProc s child
      { s.ptable child with state := .UNUSED }) else none
  | .next p memory =>
    match (s.ptable p).closing with
    | [] => advance s p memory (s.ptable p).point
    | first :: rest => close s p rest first

def Step (s : State π ν) (label : Label π ν) (t : State π ν) : Prop := perform s label = some t

/-- After `userinit`: the first slot has been taken, and its `allocproc` has stored into the
second. -/
def boot (null : π) (nowhere : ν) : State π ν where
  ptable := fun p =>
    { state := if p.val = 0 then .RUNNABLE else .UNUSED
      ofile := fun fd => if p.val = 1 /\ fd = fd0 then .wild else .null
      used := p.val = 0
      closing := []
      point := .user }
  ftable := fun _ => ⟨.FD_NONE, 0, false, false, null, nowhere⟩
  pipes := fun _ => ⟨false, false⟩
  allocated := fun _ => false
  kallocs := fun _ => 0
  kfrees := fun _ => 0
  iref := fun _ => 0

/-- The store of `allocproc` hits no descriptor that is used, and `fork` leaves no such store as a
descriptor of the child. -/
def Spared (s : State π ν) : Label π ν -> Prop
  | .next p _ =>
    match (s.ptable p).closing, (s.ptable p).point with
    | [], .handlers np => ∀ inside : np.val + 1 < NPROC, (s.ptable ⟨np.val + 1, inside⟩).used = false
    | [], .dupFiles np 0 => (s.ptable p).ofile fd0 = .null -> (s.ptable np).ofile fd0 = .null
    | _, _ => True
  | _ => True

instance (s : State π ν) (label : Label π ν) : Decidable (Spared s label) := by
  unfold Spared
  split
  next =>
    split
    next => infer_instance
    next => infer_instance
    next => infer_instance
  next => infer_instance

end Xv6.OpenFiles
