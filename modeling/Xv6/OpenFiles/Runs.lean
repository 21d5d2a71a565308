import Mathlib.Algebra.BigOperators.Ring.Finset
import Xv6.Library.GuardedRun
import Xv6.OpenFiles.Steps

namespace Xv6.OpenFiles

open Library
open Machine (NPROC NFILE NOFILE)
open Function

/-!
# Open files over whole runs
-/

variable {π ν : Type} [DecidableEq π] [DecidableEq ν]

/-- No call is in progress. -/
def Calm (s : State π ν) : Prop := ∀ p, (s.ptable p).closing = [] /\ (s.ptable p).point = .user

instance (s : State π ν) : Decidable (Calm s) := inferInstanceAs (Decidable (∀ _, _))

/-- The slots of `ofile[]` that point to a file. -/
def pointers (s : State π ν) (f : Fin NFILE) : Finset (Fin NPROC × Fin NOFILE) :=
  Finset.univ.filter fun slot => (s.ptable slot.1).ofile slot.2 = .file f

/-- What `fileclose` has to give back with the last reference. -/
def File.release (x : File π ν) : List (Closing π ν) :=
  match x.type with
  | .FD_NONE => []
  | .FD_PIPE => [.pipeclose x.pipe x.writable]
  | .FD_INODE => [.iput x.ip]

instance : NeZero NOFILE := ⟨by decide⟩

instance : NeZero NFILE := ⟨by decide⟩

instance : NeZero NPROC := ⟨by decide⟩

section Runs

variable {s : State π ν} {p : Fin NPROC} {f : Fin NFILE} {null : π} {nowhere : ν}

theorem boot_inv (null : π) (nowhere : ν) : Inv (boot null nowhere) where
  balanced := by
    have noFile : ∀ p fd, (((boot null nowhere).ptable p).ofile fd).amount = (0 : Amount π ν) := by
      intro p fd
      apply Pointer.amount_eq_zero
      intro f
      unfold boot
      dsimp only
      split
      next => exact nofun
      next => exact nofun
    have procs : ∀ p, ((boot null nowhere).ptable p).amount = (0 : Amount π ν) := by
      intro p
      unfold Proc.amount descriptors
      rw [Finset.sum_eq_zero fun fd _ => noFile p fd]
      rfl
    have files : ∀ f, ((boot null nowhere).ftable f).amount = (0 : Amount π ν) := fun f => rfl
    unfold Balanced
    rw [Finset.sum_eq_zero fun p _ => procs p, Finset.sum_eq_zero fun f _ => files f]
    funext r
    cases r with
    | _ => rfl
  sound := by
    intro p
    have known : ∀ fd f, ((boot null nowhere).ptable p).ofile fd ≠ .file f := by
      intro fd f
      unfold boot
      dsimp only
      split
      next => exact nofun
      next => exact nofun
    refine ⟨?_, fun _ f => known fd0 f, fun _ => ⟨rfl, rfl⟩, ?_, trivial, ?_⟩
    · intro fd wild
      unfold boot at wild ⊢
      dsimp only at wild ⊢
      split at wild
      next second => exact ⟨second.2, by rw [second.1]; rfl⟩
      next => cases wild
    · intro running
      right
      unfold boot at running ⊢
      dsimp only at running ⊢
      split at running
      next first => exact decide_eq_true first
      next => cases running
    · intro gone
      refine ⟨?_, known⟩
      unfold boot at gone ⊢
      dsimp only at gone ⊢
      split at gone
      next => rcases gone with wrong | wrong <;> cases wrong
      next later => exact decide_eq_false later
  fresh := fun _ _ => nofun
  free := fun _ _ => rfl
  paged := ⟨fun _ => nofun, fun _ => rfl⟩
  child := fun _ _ _ => nofun
  apart := fun _ _ _ _ _ => nofun

theorem calm_amount (calm : Calm s) (p : Fin NPROC) :
    (s.ptable p).amount = descriptors (s.ptable p).ofile := by
  rw [Proc.amount, (calm p).1, (calm p).2]
  change descriptors (s.ptable p).ofile + 0 + 0 = _
  rw [add_zero, add_zero]

theorem Pointer.amount_file (pointer : Pointer) (f : Fin NFILE) :
    (pointer.amount : Amount π ν) (.file f) = if pointer = .file f then 1 else 0 := by
  cases pointer with
  | file g =>
    change one (.file g) (.file f) = _
    rw [one_apply]
    congr 1
    simp [eq_comm]
  | _ => rfl

theorem calm_ref (inv : Inv s) (calm : Calm s) (f : Fin NFILE) :
    (s.ftable f).ref = (pointers s f).card := by
  rw [inv.ref_eq f]
  have each : ∀ p, (s.ptable p).amount (.file f) = ∑ fd,
      if (s.ptable p).ofile fd = .file f then 1 else 0 := by
    intro p
    rw [calm_amount calm, descriptors_apply]
    exact Finset.sum_congr rfl fun fd _ => Pointer.amount_file _ f
  rw [Finset.sum_congr rfl fun p _ => each p, <- Finset.sum_product', Finset.univ_product_univ]
  exact Finset.sum_boole _ _

omit [DecidableEq π] [DecidableEq ν] in
theorem pointers_eq_empty : pointers s f = ∅ <-> ∀ p fd, (s.ptable p).ofile fd ≠ .file f := by
  simp only [pointers, Finset.filter_eq_empty_iff, Finset.mem_univ, forall_true_left, Prod.forall, ne_eq]

theorem Pointer.amount_other (pointer : Pointer) {r : Resource π ν} (other : ∀ f, r ≠ .file f) :
    pointer.amount r = 0 := by
  cases pointer with
  | file g => exact one_of_ne (other g)
  | _ => rfl

/-- Without calls, only files have inodes and ends of pipes. -/
theorem calm_other (inv : Inv s) (calm : Calm s) {r : Resource π ν} (other : ∀ f, r ≠ .file f) :
    supply s r = ∑ f, (s.ftable f).amount r := by
  have total := congrFun inv.balanced r
  rw [Pi.add_apply, Finset.sum_apply, Finset.sum_apply] at total
  rw [total, Finset.sum_eq_zero, zero_add]
  intro p _
  rw [calm_amount calm, descriptors_apply]
  exact Finset.sum_eq_zero fun fd _ => Pointer.amount_other _ other

theorem sum_files (s : State π ν) (r : Resource π ν) {holds : File π ν -> Prop}
    [DecidablePred holds] (each : ∀ x : File π ν, x.amount r = if holds x then 1 else 0) :
    ∑ f, (s.ftable f).amount r = (Finset.univ.filter fun f => holds (s.ftable f)).card := by
  rw [Finset.sum_congr rfl fun f _ => each (s.ftable f)]
  exact Finset.sum_boole _ _

theorem File.amount_inode (x : File π ν) (ip : ν) :
    x.amount (.inode ip) = if x.type = .FD_INODE /\ x.ip = ip then 1 else 0 := by
  unfold File.amount
  cases x.type with
  | FD_NONE => rfl
  | _ => simp [one_apply, eq_comm]

theorem File.amount_pipeEnd (x : File π ν) (g : π) (writable : Bool) :
    x.amount (.pipeEnd g writable) =
      if x.type = .FD_PIPE /\ x.pipe = g /\ x.writable = writable then 1 else 0 := by
  unfold File.amount
  cases x.type with
  | FD_NONE => rfl
  | _ => simp [one_apply, eq_comm]

/-- What `fileclose` does in its section that holds the lock. -/
theorem fileclose_step (inv : Inv s) {rest : List (Closing π ν)}
    (closing : (s.ptable p).closing = .fileclose f :: rest) (memory : Option π) :
    1 <= (s.ftable f).ref /\ ∃ t,
      Step s (.next p memory) t /\ (t.ftable f).ref = (s.ftable f).ref - 1 /\
      ((s.ftable f).ref = 1 ->
        (t.ftable f).type = .FD_NONE /\ (t.ptable p).closing = (s.ftable f).release ++ rest) /\
      ((s.ftable f).ref ≠ 1 ->
        (t.ftable f).type = (s.ftable f).type /\ (t.ptable p).closing = rest) := by
  have mine : 1 <= (s.ftable f).ref :=
    le_trans (le_trans (le_of_eq one_self.symm) (inv.closing_amount closing (.file f)))
      (inv.amount_le p f)
  refine ⟨mine, ?_⟩
  have unfolded : perform s (.next p memory) = close s p rest (.fileclose f) := by
    unfold perform
    dsimp only
    rw [closing]
  unfold Step
  rw [unfolded]
  unfold close
  dsimp only
  rw [if_neg (by omega)]
  by_cases last : (s.ftable f).ref = 1
  · rw [if_neg (by omega)]
    refine ⟨_, rfl, ?_, fun _ => ⟨?_, ?_⟩, fun wrong => absurd last wrong⟩
    · change (update s.ftable f _ f).ref = _
      rw [update_self, last]
      rfl
    · change (update s.ftable f _ f).type = _
      rw [update_self]
    · change (update s.ptable p _ p).closing = _
      rw [update_self]
      unfold File.release
      cases (s.ftable f).type with
      | _ => rfl
  · rw [if_pos (by omega)]
    refine ⟨_, rfl, ?_, fun wrong => absurd wrong last, fun _ => ⟨?_, ?_⟩⟩
    · change (update s.ftable f _ f).ref = _
      rw [update_self]
    · change (update s.ftable f _ f).type = _
      rw [update_self]
    · change (update s.ptable p _ p).closing = _
      rw [update_self]

/-- Open files.  In every state that a run reaches in which the store behind `handlers[]` hits no
descriptor that is used, the counts of files, inodes and pipes are those of the references that
descriptors, files and calls have; the last `fileclose` of a file passes on its inode or its end of
a pipe, and only that one does; and a page is freed once for each time that a pipe got it, when both
ends are closed.  When no call is in progress, the count of a file is the number of descriptors that
point to it, and an inode or an end of a pipe is kept by open files only. -/
theorem open_files {labels : List (Label π ν)}
    (run : GuardedRun Step Spared (boot null nowhere) labels s) :
    Balanced s /\
    (∀ p f rest memory, (s.ptable p).closing = .fileclose f :: rest -> 1 <= (s.ftable f).ref /\
      ∃ t, Step s (.next p memory) t /\ (t.ftable f).ref = (s.ftable f).ref - 1 /\
        ((s.ftable f).ref = 1 ->
          (t.ftable f).type = .FD_NONE /\ (t.ptable p).closing = (s.ftable f).release ++ rest) /\
        ((s.ftable f).ref ≠ 1 ->
          (t.ftable f).type = (s.ftable f).type /\ (t.ptable p).closing = rest)) /\
    (∀ f, (s.ftable f).ref = 0 -> (s.ftable f).type = .FD_NONE) /\
    (∀ g, s.allocated g = true -> (s.pipes g).readopen = true ∨ (s.pipes g).writeopen = true) /\
    (∀ g, s.kallocs g = s.kfrees g + (s.allocated g).toNat) /\
    (Calm s ->
      (∀ f, (s.ftable f).ref = (pointers s f).card) /\
      (∀ f, (s.ftable f).ref = 0 <-> ∀ p fd, (s.ptable p).ofile fd ≠ .file f) /\
      (∀ ip, s.iref ip =
        (Finset.univ.filter fun f => (s.ftable f).type = .FD_INODE /\ (s.ftable f).ip = ip).card) /\
      ∀ g writable, (s.pipes g).ends (s.allocated g) writable = (Finset.univ.filter fun f =>
        (s.ftable f).type = .FD_PIPE /\ (s.ftable f).pipe = g /\
        (s.ftable f).writable = writable).card) := by
  have inv : Inv s :=
    run.invariant (fun _ _ _ spared step before => before.step spared step) (boot_inv null nowhere)
  refine ⟨inv.balanced, fun p f rest memory closing => fileclose_step inv closing memory, inv.free,
    inv.paged.ends,
    inv.paged.count, fun calm => ⟨calm_ref inv calm, fun f => ?_, fun ip => ?_, fun g writable => ?_⟩⟩
  · rw [calm_ref inv calm f]
    have empty : ((pointers s f).card : Int) = 0 <-> pointers s f = ∅ := by
      rw [<- Finset.card_eq_zero]
      omega
    exact empty.trans pointers_eq_empty
  · exact (calm_other inv calm (r := .inode ip) nofun).trans
      (sum_files s _ fun x => File.amount_inode x ip)
  · exact (calm_other inv calm (r := .pipeEnd g writable) nofun).trans
      (sum_files s _ fun x => File.amount_pipeEnd x g writable)

end Runs

/-- The first process opens a file, duplicates the descriptor, makes a pipe and closes its write
end. -/
def openDupPipe : List (Label Unit Unit) :=
  .sysOpen 0 () true true :: List.replicate 3 (.next 0 none) ++
    (.sysDup 0 0 :: .next 0 none :: .sysPipe 0 :: List.replicate 5 (.next 0 (some ()))) ++
    (.sysClose 0 3 :: List.replicate 2 (.next 0 none))

theorem open_files_openDupPipe : ∃ s : State Unit Unit,
    GuardedRun Step Spared (boot () ()) openDupPipe s /\ Calm s /\ (s.ftable 0).ref = 2 /\
      (s.ftable 2).ref = 0 /\ (pointers s 0).card = 2 /\ s.iref () = 1 := by
  have outcome : (checked Spared perform (boot () ()) openDupPipe).map
      (fun s => (decide (Calm s), (s.ftable 0).ref, (s.ftable 2).ref, s.iref ())) =
        some (true, 2, 0, 1) := by
    decide +kernel
  rcases Option.map_eq_some_iff.mp outcome with ⟨s, reached, view⟩
  rcases Prod.mk.inj view with ⟨calmly, rest⟩
  rcases Prod.mk.inj rest with ⟨count, rest⟩
  rcases Prod.mk.inj rest with ⟨closed, inodes⟩
  have run := GuardedRun.of_checked reached
  have calm := of_decide_eq_true calmly
  rcases (open_files run).2.2.2.2.2 calm with ⟨counts, _⟩
  refine ⟨s, run, calm, count, closed, ?_, inodes⟩
  have counted := counts 0
  rw [count] at counted
  exact_mod_cast counted.symm

/-- The first process opens a file and makes two children; the first of them leaves and its slot is
filled again. -/
def refill : List (Label Unit Unit) :=
  .sysOpen 0 () true true :: List.replicate 3 (.next 0 none) ++
    (.fork 0 :: List.replicate 20 (.next 0 (some ()))) ++
      (.fork 0 :: List.replicate 20 (.next 0 (some ()))) ++
    (.exit 1 :: List.replicate 19 (.next 1 none)) ++
      (.wait 1 :: .fork 0 :: List.replicate 20 (.next 0 (some ())))

/-- The second child's descriptor 0 has been overwritten, and the count of the file is too high for
good. -/
theorem refill_loses_descriptor : ∃ s : State Unit Unit,
    GuardedRun Step (fun _ _ => True) (boot () ()) refill s /\ Calm s /\
      (s.ptable 2).ofile 0 = .wild /\ (s.ftable 0).ref = 3 /\ (pointers s 0).card = 2 := by
  have outcome : (checked (fun _ _ => True) perform (boot () ()) refill).map
      (fun s => (decide (Calm s), (s.ptable 2).ofile 0, (s.ftable 0).ref, (pointers s 0).card)) =
        some (true, .wild, 3, 2) := by
    decide +kernel
  rcases Option.map_eq_some_iff.mp outcome with ⟨s, reached, view⟩
  rcases Prod.mk.inj view with ⟨calmly, rest⟩
  rcases Prod.mk.inj rest with ⟨wild, rest⟩
  rcases Prod.mk.inj rest with ⟨count, slots⟩
  exact ⟨s, GuardedRun.of_checked reached, of_decide_eq_true calmly, wild, count, slots⟩

end Xv6.OpenFiles
