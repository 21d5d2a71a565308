import Mathlib.Algebra.BigOperators.Pi
import Mathlib.Algebra.Group.Pi.Basic
import Xv6.Library.Ledger
import Xv6.OpenFiles.Calls

namespace Xv6.OpenFiles

open Library
open Machine (NPROC NFILE NOFILE)
open Function

/-!
# References to files, inodes and pipes

What the counts in `ftable`, in inodes and in pipes stand for: the references
that descriptors, open files and calls in progress have.  The invariant says
that both sides agree, and what each process is like between two steps.
-/

variable {π ν : Type} [DecidableEq π] [DecidableEq ν]

/-! ## What is counted -/

inductive Resource (π ν : Type) where
  | file (f : Fin NFILE)
  | inode (ip : ν)
  | pipeEnd (g : π) (writable : Bool)
deriving DecidableEq

/-- So many references to each file, to each inode and to each end of a pipe. -/
abbrev Amount (π ν : Type) := Resource π ν -> Int

def one (r : Resource π ν) : Amount π ν := Pi.single r 1

def Pointer.amount : Pointer -> Amount π ν
  | .file f => one (.file f)
  | _ => 0

def Closing.amount : Closing π ν -> Amount π ν
  | .fileclose f => one (.file f)
  | .pipeclose g writable => one (.pipeEnd g writable)
  | .iput ip => one (.inode ip)

/-- The references that a call has and no descriptor shows, less those that a descriptor shows too
early or too long. -/
def Point.amount : Point ν -> Amount π ν
  | .openFile ip _ _ => one (.inode ip)
  | .openFd ip _ _ f => one (.inode ip) + one (.file f)
  | .openSet ip _ _ _ => one (.inode ip)
  | .pipeFile1 f0 => one (.file f0)
  | .pipePage f0 f1 => one (.file f0) + one (.file f1)
  | .pipeFd0 rf wf => one (.file rf) + one (.file wf)
  | .pipeFd1 _ _ wf => one (.file wf)
  | .filedup f => - one (.file f)
  | .clearFd _ f => - one (.file f)
  | _ => 0

def descriptors (ofile : Fin NOFILE -> Pointer) : Amount π ν := ∑ fd, (ofile fd).amount

def Proc.amount (l : Proc π ν) : Amount π ν :=
  descriptors l.ofile + (l.closing.map Closing.amount).sum + l.point.amount

def File.amount (x : File π ν) : Amount π ν :=
  match x.type with
  | .FD_NONE => 0
  | .FD_PIPE => one (.pipeEnd x.pipe x.writable)
  | .FD_INODE => one (.inode x.ip)

def Pipe.opened (x : Pipe) (writable : Bool) : Bool :=
  if writable = true then x.writeopen else x.readopen

/-- An end counts when the page is a pipe's. -/
def Pipe.ends (x : Pipe) (allocated writable : Bool) : Int :=
  if allocated = true /\ x.opened writable = true then 1 else 0

/-- The references that the counts and flags admit. -/
def supply (s : State π ν) : Amount π ν
  | .file f => (s.ftable f).ref
  | .inode ip => s.iref ip
  | .pipeEnd g writable => (s.pipes g).ends (s.allocated g) writable

def Balanced (s : State π ν) : Prop :=
  supply s = ∑ p, (s.ptable p).amount + ∑ f, (s.ftable f).amount

section Amounts

variable {s t : State π ν} {p : Fin NPROC} {f : Fin NFILE} {l : Proc π ν} {x : File π ν}
  {r : Resource π ν}

@[simp]
theorem one_self : one r r = 1 := Pi.single_eq_same r 1

theorem one_of_ne {r' : Resource π ν} (ne : r' ≠ r) : one r r' = 0 := Pi.single_eq_of_ne ne 1

theorem one_apply (r r' : Resource π ν) : one r r' = if r' = r then 1 else 0 :=
  Pi.single_apply r 1 r'

theorem one_nonneg (r r' : Resource π ν) : 0 <= one r r' := by
  rcases eq_or_ne r' r with rfl | ne
  · rw [one_self]
    decide
  · rw [one_of_ne ne]

theorem descriptors_update (ofile : Fin NOFILE -> Pointer) (fd : Fin NOFILE) (pointer : Pointer) :
    (descriptors (update ofile fd pointer) : Amount π ν) =
      descriptors ofile + (pointer.amount - (ofile fd).amount) :=
  sum_update Pointer.amount ofile fd pointer

omit [DecidableEq π] [DecidableEq ν] in
@[simp]
theorem supply_setProc (s : State π ν) (p : Fin NPROC) (l : Proc π ν) :
    supply (setProc s p l) = supply s := by
  funext r
  cases r with
  | _ => rfl

theorem supply_setFile {d : Int} (count : x.ref = (s.ftable f).ref + d) :
    supply (setFile s f x) = supply s + d • one (.file f) := by
  funext r
  cases r with
  | file f' =>
    change (update s.ftable f x f').ref = (s.ftable f').ref + d • one (.file f) (.file f')
    rcases eq_or_ne f' f with rfl | other
    · rw [update_self, one_self, count]
      simp
    · rw [update_of_ne other]
      simp [one_apply, other]
  | inode ip =>
    change s.iref ip = s.iref ip + d • one (.file f) (.inode ip)
    simp [one_apply]
  | pipeEnd g writable =>
    change supply s (.pipeEnd g writable) =
      supply s (.pipeEnd g writable) + d • one (.file f) (.pipeEnd g writable)
    simp [one_apply]

theorem supply_iref (s : State π ν) (ip : ν) (d : Int) :
    supply { s with iref := update s.iref ip (s.iref ip + d) } =
      supply s + d • one (.inode ip) := by
  funext r
  cases r with
  | file f =>
    change (s.ftable f).ref = (s.ftable f).ref + d • one (.inode ip) (.file f)
    simp [one_apply]
  | inode ip' =>
    change update s.iref ip (s.iref ip + d) ip' = s.iref ip' + d • one (.inode ip) (.inode ip')
    rcases eq_or_ne ip' ip with rfl | other
    · rw [update_self, one_self]
      simp
    · rw [update_of_ne other]
      simp [one_apply, other]
  | pipeEnd g writable =>
    change supply s (.pipeEnd g writable) =
      supply s (.pipeEnd g writable) + d • one (.inode ip) (.pipeEnd g writable)
    simp [one_apply]

/-- One process and one file change. -/
theorem Balanced.change (balanced : Balanced s) (d : Amount π ν)
    (procs : t.ptable = update s.ptable p l) (files : t.ftable = update s.ftable f x)
    (total : supply t = supply s + d)
    (same : d = (l.amount - (s.ptable p).amount) + (x.amount - (s.ftable f).amount)) :
    Balanced t := by
  unfold Balanced at balanced ⊢
  rw [total, procs, files, sum_update Proc.amount, sum_update File.amount, balanced, same]
  abel

/-- Two processes and one file change. -/
theorem Balanced.changePair {np : Fin NPROC} {c : Proc π ν} (balanced : Balanced s) (d : Amount π ν)
    (ne : p ≠ np) (procs : t.ptable = update (update s.ptable np c) p l)
    (files : t.ftable = update s.ftable f x) (total : supply t = supply s + d)
    (same : d = (l.amount - (s.ptable p).amount) + (c.amount - (s.ptable np).amount) +
      (x.amount - (s.ftable f).amount)) : Balanced t := by
  unfold Balanced at balanced ⊢
  rw [total, procs, files, sum_update Proc.amount, sum_update Proc.amount, sum_update File.amount,
    balanced, same, update_of_ne ne]
  abel

/-- Two processes change and keep what they have. -/
theorem Balanced.keepPair {np : Fin NPROC} {c : Proc π ν} (balanced : Balanced s) (ne : p ≠ np)
    (sameL : l.amount = (s.ptable p).amount) (sameC : c.amount = (s.ptable np).amount) :
    Balanced (setProc (setProc s np c) p l) := by
  unfold Balanced at balanced ⊢
  rw [supply_setProc, supply_setProc]
  unfold setProc
  dsimp only
  rw [sum_update Proc.amount, sum_update Proc.amount, update_of_ne ne, sameL, sameC, sub_self, sub_self,
    add_zero, add_zero]
  exact balanced

/-- One process changes. -/
theorem Balanced.changeProc (balanced : Balanced s) (d : Amount π ν)
    (procs : t.ptable = update s.ptable p l) (files : t.ftable = s.ftable)
    (total : supply t = supply s + d) (same : d = l.amount - (s.ptable p).amount) : Balanced t := by
  unfold Balanced at balanced ⊢
  rw [total, procs, files, sum_update Proc.amount, balanced, same]
  abel

end Amounts

/-! ## Single processes -/

/-- The process is on its way through `exit`. -/
def Point.Leaving : Point ν -> Prop
  | .exitFd _ => True
  | .clearFd _ _ => True
  | _ => False

/-- What the descriptors are like at a point of a call. -/
def Placed (ofile : Fin NOFILE -> Pointer) (used : Bool) : Point ν -> Prop
  | .openSet _ _ _ f => ∃ fd, ofile fd = .file f
  | .pipeFd1 fd rf _ => ofile fd = .file rf
  | .filedup f => ∃ a b, a ≠ b /\ ofile a = .file f /\ ofile b = .file f
  | .exitFd n => (∀ fd, fd.val < n -> ∀ f, ofile fd ≠ .file f) /\ (0 < n -> used = false)
  | .clearFd fd f =>
    ofile fd = .file f /\ (∀ other, other.val < fd.val -> ∀ f, ofile other ≠ .file f) /\
      (0 < fd.val -> used = false)
  | _ => True

structure Sound (l : Proc π ν) : Prop where
  wild : ∀ fd, l.ofile fd = .wild -> fd = fd0 /\ l.used = false
  unused : l.used = false -> ∀ f, l.ofile fd0 ≠ .file f
  started : l.state ≠ .RUNNABLE -> l.closing = [] /\ l.point = .user
  inUse : l.state = .RUNNABLE -> l.point.Leaving ∨ l.used = true
  placed : Placed l.ofile l.used l.point
  blank : l.state = .UNUSED ∨ l.state = .ZOMBIE -> l.used = false /\ ∀ fd f, l.ofile fd ≠ .file f

variable {here : Point ν}

section Sound

variable {ofile : Fin NOFILE -> Pointer} {used : Bool} {point : Point ν} {l : Proc π ν}
  {f : Fin NFILE} {fd a b : Fin NOFILE}

theorem Pointer.amount_nonneg (pointer : Pointer) (r : Resource π ν) : 0 <= pointer.amount r := by
  cases pointer with
  | file f => exact one_nonneg _ _
  | _ => exact le_refl 0

theorem Pointer.amount_eq_zero {pointer : Pointer} (noFile : ∀ f, pointer ≠ .file f) :
    (pointer.amount : Amount π ν) = 0 := by
  cases pointer with
  | file f => exact absurd rfl (noFile f)
  | _ => rfl

theorem descriptors_apply (ofile : Fin NOFILE -> Pointer) (r : Resource π ν) :
    descriptors ofile r = ∑ fd, (ofile fd).amount r :=
  Finset.sum_apply r _ _

theorem descriptors_nonneg (ofile : Fin NOFILE -> Pointer) (r : Resource π ν) :
    0 <= descriptors ofile r := by
  rw [descriptors_apply]
  exact Finset.sum_nonneg fun fd _ => (ofile fd).amount_nonneg r

theorem descriptors_file (here : ofile fd = .file f) :
    1 <= (descriptors ofile : Amount π ν) (.file f) := by
  rw [descriptors_apply]
  have share := Finset.single_le_sum (fun fd _ => (ofile fd).amount_nonneg (.file f : Resource π ν))
      (Finset.mem_univ fd)
  rw [here] at share
  exact le_trans (le_of_eq one_self.symm) share

theorem descriptors_pair (ne : a ≠ b) (first : ofile a = .file f) (second : ofile b = .file f) :
    2 <= (descriptors ofile : Amount π ν) (.file f) := by
  rw [descriptors_apply]
  have share := pair_le_sum (fun fd => (ofile fd).amount_nonneg (.file f : Resource π ν)) ne
  rw [first, second] at share
  have each : (Pointer.amount (.file f) : Amount π ν) (.file f) = 1 := one_self
  rw [each] at share
  exact share

theorem closing_nonneg (closing : List (Closing π ν)) (r : Resource π ν) :
    0 <= (closing.map Closing.amount).sum r := by
  induction closing with
  | nil => exact le_refl 0
  | cons first rest ih =>
    rw [List.map_cons, List.sum_cons, Pi.add_apply]
    refine add_nonneg ?_ ih
    cases first with
    | _ => exact one_nonneg _ _

/-- A descriptor stands behind every reference that a call does not have. -/
theorem placed_nonneg (placed : Placed ofile used point) (r : Resource π ν) :
    0 <= descriptors ofile r + point.amount r := by
  have base := descriptors_nonneg ofile r
  have less : ∀ f : Fin NFILE, 1 <= (descriptors ofile : Amount π ν) (.file f) ->
      0 <= descriptors ofile r + (- one (.file f)) r := by
    intro f some
    rw [Pi.neg_apply]
    rcases eq_or_ne r (.file f) with rfl | other
    · rw [one_self]
      omega
    · rw [one_of_ne other]
      omega
  cases point with
  | filedup f =>
    rcases placed with ⟨a, b, ne, first, second⟩
    exact less f (descriptors_file first)
  | clearFd fd f => exact less f (descriptors_file placed.1)
  | openFd ip readable writable f | pipePage f0 f1 | pipeFd0 rf wf =>
    exact add_nonneg base (add_nonneg (one_nonneg _ _) (one_nonneg _ _))
  | openFile ip readable writable | openSet ip readable writable f | pipeFile1 f0 | pipeFd1 fd rf wf =>
    exact add_nonneg base (one_nonneg _ _)
  | _ => exact add_nonneg base (le_refl 0)

theorem Proc.amount_apply (l : Proc π ν) (r : Resource π ν) :
    l.amount r = descriptors l.ofile r + (l.closing.map Closing.amount).sum r + l.point.amount r :=
  rfl

theorem Sound.nonneg (sound : Sound l) (r : Resource π ν) : 0 <= l.amount r := by
  have base := placed_nonneg sound.placed r
  have more := closing_nonneg l.closing r
  rw [Proc.amount_apply]
  omega

/-- What is left of `fileclose` comes on top of what the rest of the call has. -/
theorem Sound.closing_le (sound : Sound l) (r : Resource π ν) :
    (l.closing.map Closing.amount).sum r <= l.amount r := by
  have base := placed_nonneg sound.placed r
  rw [Proc.amount_apply]
  omega

/-- Files that a call has taken and not filled in. -/
def Point.fresh : Point ν -> List (Fin NFILE)
  | .openFd _ _ _ f => [f]
  | .openSet _ _ _ f => [f]
  | .pipeFile1 f0 => [f0]
  | .pipePage f0 f1 => [f0, f1]
  | _ => []

theorem fresh_placed (placed : Placed ofile used point) (fresh : f ∈ point.fresh) :
    1 <= (descriptors ofile : Amount π ν) (.file f) + (point.amount : Amount π ν) (.file f) := by
  have base := descriptors_nonneg ofile (.file f : Resource π ν)
  cases point with
  | openFd ip readable writable f' =>
    obtain rfl := List.mem_singleton.mp fresh
    have here : (Point.amount (.openFd ip readable writable f) : Amount π ν) (.file f) = 1 := by
      change one (.inode ip) (.file f) + one (.file f) (.file f) = 1
      simp [one_apply]
    omega
  | openSet ip readable writable f' =>
    obtain rfl := List.mem_singleton.mp fresh
    rcases placed with ⟨fd, here⟩
    have some := descriptors_file (π := π) (ν := ν) here
    have nothing := one_nonneg (.inode ip) (.file f : Resource π ν)
    have here : (Point.amount (.openSet ip readable writable f) : Amount π ν) (.file f) =
        one (.inode ip) (.file f) := rfl
    omega
  | pipeFile1 f0 =>
    obtain rfl := List.mem_singleton.mp fresh
    have here : (Point.amount (.pipeFile1 f : Point ν) : Amount π ν) (.file f) = 1 := one_self
    omega
  | pipePage f0 f1 =>
    have here : (Point.amount (.pipePage f0 f1 : Point ν) : Amount π ν) (.file f) =
      one (.file f0) (.file f) + one (.file f1) (.file f) := rfl
    have left := one_nonneg (.file f0) (.file f : Resource π ν)
    have right := one_nonneg (.file f1) (.file f : Resource π ν)
    rcases List.mem_cons.mp fresh with rfl | later
    · rw [one_self] at here
      omega
    · obtain rfl := List.mem_singleton.mp later
      rw [one_self (r := (.file f : Resource π ν))] at here
      omega
  | _ => cases fresh

theorem Sound.fresh_amount (sound : Sound l) (fresh : f ∈ l.point.fresh) :
    1 + (l.closing.map Closing.amount).sum (.file f) <= l.amount (.file f) := by
  have some := fresh_placed (π := π) sound.placed fresh
  rw [Proc.amount_apply]
  omega

theorem Sound.fresh_le (sound : Sound l) (fresh : f ∈ l.point.fresh) : 1 <= l.amount (.file f) := by
  have more := sound.fresh_amount fresh
  have rest := closing_nonneg l.closing (.file f)
  omega

omit [DecidableEq π] [DecidableEq ν]

theorem Sound.ofUsed (running : l.state = .RUNNABLE) (used : l.used = true)
    (tame : ∀ fd, l.ofile fd ≠ .wild) (placed : Placed l.ofile l.used l.point) : Sound l where
  wild := fun fd here => absurd here (tame fd)
  unused := fun wrong => nomatch used.symm.trans wrong
  started := fun wrong => absurd running wrong
  inUse := fun _ => .inr used
  placed := placed
  blank := by
    rw [running]
    exact nofun

theorem Sound.tame (sound : Sound l) (used : l.used = true)
    (fd : Fin NOFILE) : l.ofile fd ≠ .wild :=
  fun here => nomatch used.symm.trans (sound.wild fd here).2

/-- A process that is in a call and not in `exit`, with no `fileclose` to wait for. -/
structure Calling (l : Proc π ν) (here : Point ν) : Prop where
  running : l.state = .RUNNABLE
  used : l.used = true
  tame : ∀ fd, l.ofile fd ≠ .wild
  closing : l.closing = []
  point : l.point = here

theorem Sound.running (sound : Sound l) (point : l.point = here) (call : here ≠ .user) :
    l.state = .RUNNABLE := by
  by_contra other
  exact call (point.symm.trans (sound.started other).2)

theorem Sound.calling (sound : Sound l) (running : l.state = .RUNNABLE) (closing : l.closing = [])
    (point : l.point = here) (staying : ¬ here.Leaving) : Calling l here := by
  have used : l.used = true := by
    refine (sound.inUse running).resolve_left ?_
    rw [point]
    exact staying
  exact ⟨running, used, sound.tame used, closing, point⟩

theorem tame_update (tame : ∀ fd, ofile fd ≠ .wild) (fd : Fin NOFILE) (pointer : Pointer)
    (known : pointer ≠ .wild) (other : Fin NOFILE) : update ofile fd pointer other ≠ .wild := by
  rcases eq_or_ne other fd with rfl | ne
  · rw [update_self]
    exact known
  · rw [update_of_ne ne]
    exact tame other

/-- A child that has been given descriptor 0. -/
theorem Sound.ofEmbryo (state : l.state = .EMBRYO) (used : l.used = true)
    (tame : ∀ fd, l.ofile fd ≠ .wild) (closing : l.closing = [])
    (point : l.point = .user) : Sound l where
  wild := fun fd here => absurd here (tame fd)
  unused := fun wrong => nomatch used.symm.trans wrong
  started := fun _ => ⟨closing, point⟩
  inUse := fun _ => .inr used
  placed := by
    rw [point]
    trivial
  blank := by
    rw [state]
    exact nofun

theorem Sound.setClosing (sound : Sound l) (running : l.state = .RUNNABLE)
    (closing : List (Closing π ν)) : Sound { l with closing := closing } where
  wild := sound.wild
  unused := sound.unused
  started := fun wrong => absurd running wrong
  inUse := sound.inUse
  placed := sound.placed
  blank := sound.blank

theorem fdalloc_null (found : fdalloc ofile = some fd) : ofile fd = .null := by
  have accepted := List.find?_some found
  exact of_decide_eq_true accepted

theorem filealloc_free {ftable : Fin NFILE -> File π ν}
    (found : filealloc ftable = some f) : (ftable f).ref = 0 := by
  have accepted := List.find?_some found
  exact of_decide_eq_true accepted

theorem allocproc_unused {ptable : Fin NPROC -> Proc π ν} {p : Fin NPROC}
    (found : allocproc ptable = some p) : (ptable p).state = .UNUSED := by
  have accepted := List.find?_some found
  exact of_decide_eq_true accepted

end Sound

theorem Calling.amount {l : Proc π ν} (call : Calling l here) :
    l.amount = descriptors l.ofile + here.amount := by
  rw [Proc.amount, call.closing, call.point, List.map_nil, List.sum_nil, add_zero]

/-! ## All processes together -/

/-- The slot that a call of `fork` is filling, and the descriptor it has come to. -/
def Point.child : Point ν -> Option (Fin NPROC × Nat)
  | .kstack np => some (np, 0)
  | .handlers np => some (np, 0)
  | .copyuvm np => some (np, 0)
  | .dupFiles np fd => some (np, fd)
  | _ => none

structure Unborn (l : Proc π ν) (n : Nat) : Prop where
  state : l.state = .EMBRYO
  blank : ∀ fd, n <= fd.val -> ∀ f, l.ofile fd ≠ .file f
  used : l.used = true <-> 0 < n

omit [DecidableEq π] [DecidableEq ν] in
theorem Unborn.not_running {l : Proc π ν} {n : Nat} (unborn : Unborn l n) :
    l.state ≠ .RUNNABLE := by
  rw [unborn.state]
  rintro ⟨⟩

/-- A page is allocated as long as one end of its pipe is open. -/
structure Paged (pipes : π -> Pipe) (allocated : π -> Bool) (kallocs kfrees : π -> Nat) : Prop where
  ends : ∀ g, allocated g = true -> (pipes g).readopen = true ∨ (pipes g).writeopen = true
  count : ∀ g, kallocs g = kfrees g + (allocated g).toNat

section Paged

variable {pipes : π -> Pipe} {allocated : π -> Bool} {kallocs kfrees : π -> Nat} {g : π} {x : Pipe}

section

omit [DecidableEq ν]

theorem Paged.alloc (paged : Paged pipes allocated kallocs kfrees) (unused : allocated g = false) :
    Paged (update pipes g ⟨true, true⟩) (update allocated g true)
      (update kallocs g (kallocs g + 1)) kfrees := by
  constructor
  · grind [update_apply, paged.ends]
  · grind [update_apply, paged.count]

theorem Paged.free (paged : Paged pipes allocated kallocs kfrees) (used : allocated g = true) :
    Paged (update pipes g x) (update allocated g false) kallocs
      (update kfrees g (kfrees g + 1)) := by
  constructor
  · grind [update_apply, paged.ends]
  · grind [update_apply, paged.count]

theorem Paged.shut (paged : Paged pipes allocated kallocs kfrees)
    (still : x.readopen = true ∨ x.writeopen = true) :
    Paged (update pipes g x) allocated kallocs kfrees := by
  refine ⟨?_, paged.count⟩
  intro g'
  rcases eq_or_ne g' g with rfl | other
  · rw [update_self]
    exact fun _ => still
  · rw [update_of_ne other]
    exact paged.ends g'

end

end Paged

structure Inv (s : State π ν) : Prop where
  balanced : Balanced s
  sound : ∀ p, Sound (s.ptable p)
  fresh : ∀ p f, f ∈ (s.ptable p).point.fresh -> (s.ftable f).ref = 1 /\ (s.ftable f).type = .FD_NONE
  free : ∀ f, (s.ftable f).ref = 0 -> (s.ftable f).type = .FD_NONE
  paged : Paged s.pipes s.allocated s.kallocs s.kfrees
  child : ∀ p np n, (s.ptable p).point.child = some (np, n) -> Unborn (s.ptable np) n
  apart : ∀ p q np n m, (s.ptable p).point.child = some (np, n) ->
    (s.ptable q).point.child = some (np, m) -> p = q

theorem File.amount_file (x : File π ν) (f : Fin NFILE) : x.amount (.file f) = 0 := by
  unfold File.amount
  cases x.type with
  | FD_NONE => rfl
  | _ => simp [one_apply]

theorem File.amount_nonneg (x : File π ν) (r : Resource π ν) : 0 <= x.amount r := by
  unfold File.amount
  cases x.type with
  | FD_NONE => exact le_refl 0
  | _ => exact one_nonneg _ _

namespace Inv

variable {s t : State π ν} {p q np : Fin NPROC} {f : Fin NFILE} {l c : Proc π ν} {x : File π ν} {n : Nat}

/-- Only processes refer to files. -/
theorem ref_eq (inv : Inv s) (f : Fin NFILE) :
    (s.ftable f).ref = ∑ p, (s.ptable p).amount (.file f) := by
  have total := congrFun inv.balanced (.file f)
  rw [Pi.add_apply, Finset.sum_apply, Finset.sum_apply,
    Finset.sum_eq_zero fun g _ => File.amount_file (s.ftable g) f, add_zero] at total
  exact total

theorem amount_le (inv : Inv s) (p : Fin NPROC) (f : Fin NFILE) :
    (s.ptable p).amount (.file f) <= (s.ftable f).ref := by
  rw [inv.ref_eq f]
  exact Finset.single_le_sum (fun q _ => (inv.sound q).nonneg (.file f)) (Finset.mem_univ p)

theorem amount_pair (inv : Inv s) (ne : p ≠ q) (f : Fin NFILE) :
    (s.ptable p).amount (.file f) + (s.ptable q).amount (.file f) <= (s.ftable f).ref := by
  rw [inv.ref_eq f]
  exact pair_le_sum (fun q => (inv.sound q).nonneg (.file f)) ne

/-- One process and the files that it refers to, or that are free, change. -/
theorem change (inv : Inv s) (procs : t.ptable = update s.ptable p l) (balanced : Balanced t)
    (sound : Sound l) (unborn : ∀ n, Unborn (s.ptable p) n -> Unborn l n)
    (child : l.point.child = none ∨ l.point.child = (s.ptable p).point.child)
    (touched : ∀ f, t.ftable f = s.ftable f ∨ 1 <= (s.ptable p).amount (.file f) ∨
      (s.ftable f).ref = 0)
    (fresh : ∀ f, f ∈ l.point.fresh -> (t.ftable f).ref = 1 /\ (t.ftable f).type = .FD_NONE)
    (free : ∀ f, (t.ftable f).ref = 0 -> (t.ftable f).type = .FD_NONE)
    (paged : Paged t.pipes t.allocated t.kallocs t.kfrees) : Inv t := by
  have old : ∀ q np n, (t.ptable q).point.child = some (np, n) ->
      (s.ptable q).point.child = some (np, n) := by
    intro q np n filling
    rw [procs] at filling
    rcases eq_or_ne q p with rfl | other
    · grind [update_apply]
    · rw [update_of_ne other] at filling
      exact filling
  refine ⟨balanced, ?_, ?_, free, paged, ?_, ?_⟩
  · intro q
    rw [procs]
    rcases eq_or_ne q p with rfl | other
    · rw [update_self]
      exact sound
    · rw [update_of_ne other]
      exact inv.sound q
  · intro q f
    rw [procs]
    rcases eq_or_ne q p with rfl | other
    · rw [update_self]
      exact fresh f
    · rw [update_of_ne other]
      intro isFresh
      have before := inv.fresh q f isFresh
      rcases touched f with same | mine | unused
      · rw [same]
        exact before
      · have both := inv.amount_pair other f
        have theirs := (inv.sound q).fresh_le isFresh
        omega
      · omega
  · intro q np n filling
    have before := inv.child q np n (old q np n filling)
    rw [procs]
    rcases eq_or_ne np p with rfl | other
    · rw [update_self]
      exact unborn n before
    · rw [update_of_ne other]
      exact before
  · exact fun q r np n m first second => inv.apart q r np n m (old q np n first) (old r np m second)

/-- A process changes its own part only. -/
theorem own (inv : Inv s) (same : l.amount = (s.ptable p).amount) (sound : Sound l)
    (unborn : ∀ n, Unborn (s.ptable p) n -> Unborn l n)
    (child : l.point.child = none ∨ l.point.child = (s.ptable p).point.child)
    (fresh : ∀ f, f ∈ l.point.fresh -> f ∈ (s.ptable p).point.fresh) : Inv (setProc s p l) := by
  apply inv.change (t := setProc s p l) rfl _ sound unborn child (fun f => .inl rfl)
    (fun f isFresh => inv.fresh p f (fresh f isFresh)) inv.free inv.paged
  apply inv.balanced.changeProc (t := setProc s p l) 0 rfl rfl
  · rw [supply_setProc, add_zero]
  · rw [same, sub_self]

/-- A process takes a free file. -/
theorem take (inv : Inv s) (unused : (s.ftable f).ref = 0)
    (more : l.amount = (s.ptable p).amount + one (.file f)) (sound : Sound l)
    (running : (s.ptable p).state = .RUNNABLE) (child : l.point.child = none)
    (fresh : ∀ g, g ∈ l.point.fresh -> g = f ∨ g ∈ (s.ptable p).point.fresh) :
    Inv (setProc (setFile s f { s.ftable f with ref := 1 }) p l) := by
  have other : ∀ g, g ≠ f -> update s.ftable f { s.ftable f with ref := 1 } g = s.ftable g :=
    fun g ne => update_of_ne ne _ _
  apply inv.change (t := setProc (setFile s f { s.ftable f with ref := 1 }) p l) rfl _ sound
    (fun n unborn => (unborn.not_running running).elim) (.inl child) _ _ _ inv.paged
  · apply inv.balanced.change (one (.file f)) rfl rfl
    · rw [supply_setProc, supply_setFile (d := 1), one_zsmul]
      rw [unused]
      rfl
    · rw [more]
      unfold File.amount
      dsimp only
      abel
  · intro g
    rcases eq_or_ne g f with rfl | ne
    · exact .inr (.inr unused)
    · exact .inl (other g ne)
  · intro g isFresh
    change (update s.ftable f { s.ftable f with ref := 1 } g).ref = 1 /\
      (update s.ftable f { s.ftable f with ref := 1 } g).type = .FD_NONE
    rcases eq_or_ne g f with rfl | ne
    · rw [update_self]
      exact ⟨rfl, inv.free g unused⟩
    · rw [other g ne]
      exact inv.fresh p g ((fresh g isFresh).resolve_left ne)
  · intro g
    change (update s.ftable f { s.ftable f with ref := 1 } g).ref = 0 ->
      (update s.ftable f { s.ftable f with ref := 1 } g).type = .FD_NONE
    rcases eq_or_ne g f with rfl | ne
    · rw [update_self]
      exact nofun
    · rw [other g ne]
      exact inv.free g

end Inv
end Xv6.OpenFiles
