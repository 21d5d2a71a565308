import Xv6.OpenFiles.References

namespace Xv6.OpenFiles

open Library
open Machine (NPROC NFILE NOFILE)
open Function

/-!
# Every step of a call keeps the counts

First how a step may change a process and the files it refers to, then the
steps of `open` and `pipe`, of `fileclose`, of `exit` and of `fork`.
-/

variable {π ν : Type} [DecidableEq π] [DecidableEq ν]

namespace Inv

variable {s t : State π ν} {p q np : Fin NPROC} {f : Fin NFILE} {l c : Proc π ν} {x : File π ν} {n : Nat}

variable {here : Point ν}

variable {point : Point ν}

/-- A process goes on with its call, or returns from it. -/
theorem move (inv : Inv s) (call : Calling (s.ptable p) here) {ofile : Fin NOFILE -> Pointer}
    {closing : List (Closing π ν)}
    (same : descriptors ofile + (closing.map Closing.amount).sum + point.amount =
      (descriptors (s.ptable p).ofile + here.amount : Amount π ν)) (tame : ∀ fd, ofile fd ≠ .wild)
    (placed : Placed ofile (s.ptable p).used point)
    (child : point.child = none ∨ point.child = here.child)
    (fresh : ∀ f, f ∈ point.fresh -> f ∈ here.fresh) :
    Inv (setProc s p ⟨(s.ptable p).state, ofile, (s.ptable p).used, closing, point⟩) := by
  refine inv.own (same.trans call.amount.symm) (Sound.ofUsed call.running call.used tame placed)
    (fun n unborn => (unborn.not_running call.running).elim) ?_ ?_
  · rw [call.point]
    exact child
  · rw [call.point]
    exact fresh

/-- `filealloc` finds a file. -/
theorem grab (inv : Inv s) (call : Calling (s.ptable p) here) (found : filealloc s.ftable = some f)
    (more : (point.amount : Amount π ν) = here.amount + one (.file f))
    (placed : Placed (s.ptable p).ofile (s.ptable p).used point) (child : point.child = none)
    (fresh : ∀ g, g ∈ point.fresh -> g = f ∨ g ∈ here.fresh) :
    Inv (setProc (setFile s f { s.ftable f with ref := 1 }) p
      { s.ptable p with point := point }) := by
  refine inv.take (filealloc_free found) ?_ (Sound.ofUsed call.running call.used call.tame placed)
    call.running child ?_
  · simp only [Proc.amount, call.point, more, add_assoc]
  · rw [call.point]
    exact fresh

/-- A process changes a file to which it refers. -/
theorem refile (inv : Inv s) (mine : 1 <= (s.ptable p).amount (.file f)) {d : Int}
    (count : x.ref = (s.ftable f).ref + d)
    (same : d • one (.file f) = (l.amount - (s.ptable p).amount) + (x.amount - (s.ftable f).amount))
    (sound : Sound l) (running : (s.ptable p).state = .RUNNABLE)
    (child : l.point.child = none ∨ l.point.child = (s.ptable p).point.child)
    (fresh : ∀ g, g ∈ l.point.fresh -> g ≠ f /\ g ∈ (s.ptable p).point.fresh)
    (free : x.ref = 0 -> x.type = .FD_NONE) : Inv (setProc (setFile s f x) p l) := by
  have other : ∀ g, g ≠ f -> update s.ftable f x g = s.ftable g :=
    fun g ne => update_of_ne ne _ _
  refine inv.change (t := setProc (setFile s f x) p l) rfl ?_ sound
    (fun n unborn => (unborn.not_running running).elim) child ?_ ?_ ?_ inv.paged
  · refine inv.balanced.change (t := setProc (setFile s f x) p l) _ rfl rfl ?_ same
    rw [supply_setProc, supply_setFile count]
  · intro g
    rcases eq_or_ne g f with rfl | ne
    · exact .inr (.inl mine)
    · exact .inl (other g ne)
  · intro g isFresh
    change (update s.ftable f x g).ref = 1 /\ (update s.ftable f x g).type = .FD_NONE
    rw [other g (fresh g isFresh).1]
    exact inv.fresh p g (fresh g isFresh).2
  · intro g
    change (update s.ftable f x g).ref = 0 -> (update s.ftable f x g).type = .FD_NONE
    rcases eq_or_ne g f with rfl | ne
    · rw [update_self]
      exact free
    · rw [other g ne]
      exact inv.free g

section Advance

variable {ip : ν} {readable writable : Bool} {memory : Option π} {f0 f1 rf wf : Fin NFILE}
  {fd : Fin NOFILE}

section

variable (inv : Inv s)

include inv

theorem openFile (call : Calling (s.ptable p) (.openFile ip readable writable))
    (step : advance s p memory (.openFile ip readable writable) = some t) : Inv t := by
  unfold advance at step
  dsimp only at step
  split at step
  next =>
    cases step
    refine inv.move call ?_ call.tame trivial (.inl rfl) (by rintro _ ⟨⟩)
    simp [Closing.amount, Point.amount]
  next f found =>
    cases step
    exact inv.grab call found rfl trivial rfl fun g isFresh => .inl (List.mem_singleton.mp isFresh)

theorem openFd (call : Calling (s.ptable p) (.openFd ip readable writable f))
    (step : advance s p memory (.openFd ip readable writable f) = some t) : Inv t := by
  unfold advance at step
  dsimp only at step
  split at step
  next =>
    cases step
    refine inv.move call ?_ call.tame trivial (.inl rfl) (by rintro _ ⟨⟩)
    simp [Closing.amount, Point.amount, add_comm]
  next fd found =>
    cases step
    refine inv.move call ?_ (tame_update call.tame fd _ (by rintro ⟨⟩)) ⟨fd, update_self _ _ _⟩ (.inl rfl)
      fun g isFresh => isFresh
    simp only [call.closing, List.map_nil, List.sum_nil, Point.amount, descriptors_update,
      fdalloc_null found, Pointer.amount]
    abel

theorem openSet (call : Calling (s.ptable p) (.openSet ip readable writable f))
    (step : advance s p memory (.openSet ip readable writable f) = some t) : Inv t := by
  have isFresh : f ∈ (s.ptable p).point.fresh := by
    rw [call.point]
    exact List.mem_singleton_self f
  have before := inv.fresh p f isFresh
  cases step
  refine inv.refile (d := 0) ((inv.sound p).fresh_le isFresh) (add_zero _).symm ?_
    (Sound.ofUsed call.running call.used call.tame trivial) call.running (.inl rfl) (by rintro _ ⟨⟩) ?_
  · simp only [Proc.amount, File.amount, call.closing, call.point, Point.amount, before.2, zero_zsmul]
    abel
  · rw [before.1]
    rintro ⟨⟩

theorem pipeFile0 (call : Calling (s.ptable p) .pipeFile0)
    (step : advance s p memory .pipeFile0 = some t) : Inv t := by
  unfold advance at step
  dsimp only at step
  split at step
  next =>
    cases step
    refine inv.move call ?_ call.tame trivial (.inl rfl) (by rintro _ ⟨⟩)
    simp [call.closing, Point.amount]
  next f0 found =>
    cases step
    exact inv.grab call found (zero_add _).symm trivial rfl fun g isFresh =>
      .inl (List.mem_singleton.mp isFresh)

theorem pipeFile1 (call : Calling (s.ptable p) (.pipeFile1 f0))
    (step : advance s p memory (.pipeFile1 f0) = some t) : Inv t := by
  unfold advance at step
  dsimp only at step
  split at step
  next =>
    cases step
    refine inv.move call ?_ call.tame trivial (.inl rfl) (by rintro _ ⟨⟩)
    simp [Closing.amount, Point.amount]
  next f1 found =>
    cases step
    refine inv.grab call found rfl trivial rfl fun g isFresh => ?_
    rcases List.mem_cons.mp isFresh with rfl | later
    · exact .inr (List.mem_singleton_self g)
    · exact .inl (List.mem_singleton.mp later)

theorem pipeFd0 (call : Calling (s.ptable p) (.pipeFd0 rf wf))
    (step : advance s p memory (.pipeFd0 rf wf) = some t) : Inv t := by
  unfold advance at step
  dsimp only at step
  split at step
  next =>
    cases step
    refine inv.move call ?_ call.tame trivial (.inl rfl) (by rintro _ ⟨⟩)
    simp [Closing.amount, Point.amount]
  next fd found =>
    cases step
    refine inv.move call ?_ (tame_update call.tame fd _ (by rintro ⟨⟩)) (update_self _ _ _) (.inl rfl)
      (by rintro _ ⟨⟩)
    simp [call.closing, Point.amount, descriptors_update, fdalloc_null found, Pointer.amount, add_assoc]

theorem pipeFd1 (call : Calling (s.ptable p) (.pipeFd1 fd rf wf))
    (step : advance s p memory (.pipeFd1 fd rf wf) = some t) : Inv t := by
  have placed := (inv.sound p).placed
  rw [call.point] at placed
  have here : (s.ptable p).ofile fd = .file rf := placed
  unfold advance at step
  dsimp only at step
  split at step
  next =>
    cases step
    refine inv.move call ?_ (tame_update call.tame fd _ (by rintro ⟨⟩)) trivial (.inl rfl)
      (by rintro _ ⟨⟩)
    simp [Closing.amount, Point.amount, descriptors_update, here, Pointer.amount]
  next fd1 found =>
    cases step
    refine inv.move call ?_ (tame_update call.tame fd1 _ (by rintro ⟨⟩)) trivial (.inl rfl)
      (by rintro _ ⟨⟩)
    simp [call.closing, Point.amount, descriptors_update, fdalloc_null found, Pointer.amount]

theorem filedup (call : Calling (s.ptable p) (.filedup f))
    (step : advance s p memory (.filedup f) = some t) : Inv t := by
  have placed := (inv.sound p).placed
  rw [call.point] at placed
  rcases placed with ⟨a, b, ne, first, second⟩
  unfold advance at step
  dsimp only at step
  split at step
  next => cases step
  next counted =>
    cases step
    refine inv.refile (d := 1) ?_ rfl ?_ (Sound.ofUsed call.running call.used call.tame trivial)
      call.running (.inl rfl) (by rintro _ ⟨⟩) ?_
    · have two := descriptors_pair (π := π) (ν := ν) ne first second
      rw [call.amount]
      change 1 <= descriptors (s.ptable p).ofile (.file f) + - one (.file f) (.file f)
      rw [one_self]
      omega
    · simp only [Proc.amount, File.amount, call.closing, call.point, Point.amount]
      abel
    · intro wrong
      dsimp only at wrong
      omega

omit inv in
/-- A page that was not allocated gets a pipe. -/
theorem supply_page {g : π} (unused : s.allocated g = false) :
    supply { s with
      pipes := update s.pipes g ⟨true, true⟩
      allocated := update s.allocated g true
      kallocs := update s.kallocs g (s.kallocs g + 1) } =
      supply s + (one (.pipeEnd g false) + one (.pipeEnd g true)) := by
  funext r
  cases r with
  | file f =>
    change (s.ftable f).ref = (s.ftable f).ref +
      (one (.pipeEnd g false) (.file f) + one (.pipeEnd g true) (.file f))
    simp [one_apply]
  | inode ip =>
    change s.iref ip = s.iref ip + (one (.pipeEnd g false) (.inode ip) +
      one (.pipeEnd g true) (.inode ip))
    simp [one_apply]
  | pipeEnd g' writable =>
    rw [Pi.add_apply, Pi.add_apply]
    unfold supply
    dsimp only
    rcases eq_or_ne g' g with rfl | other
    · rw [update_self, update_self, unused]
      cases writable with
      | _ => simp [one_apply, Pipe.ends, Pipe.opened]
    · rw [update_of_ne other, update_of_ne other]
      simp [one_apply, other]

theorem pipePage (call : Calling (s.ptable p) (.pipePage f0 f1))
    (step : advance s p memory (.pipePage f0 f1) = some t) : Inv t := by
  unfold advance at step
  dsimp only at step
  split at step
  next =>
    cases step
    refine inv.move call ?_ call.tame trivial (.inl rfl) (by rintro _ ⟨⟩)
    simp [Closing.amount, Point.amount]
  next g =>
    split at step
    next => cases step
    next notUsed =>
      have unused := Bool.eq_false_of_not_eq_true notUsed
      have fresh0 : f0 ∈ (s.ptable p).point.fresh := by
        rw [call.point]
        exact List.mem_cons_self
      have fresh1 : f1 ∈ (s.ptable p).point.fresh := by
        rw [call.point]
        exact List.mem_cons_of_mem _ List.mem_cons_self
      have before0 := inv.fresh p f0 fresh0
      have before1 := inv.fresh p f1 fresh1
      -- both files have one reference, so they are ne
      have ne : f1 ≠ f0 := by
        rintro rfl
        have most := inv.amount_le p f1
        have base := descriptors_nonneg (s.ptable p).ofile (.file f1 : Resource π ν)
        rw [call.amount] at most
        change descriptors (s.ptable p).ofile (.file f1) +
          (one (.file f1) (.file f1) + one (.file f1) (.file f1)) <= _
          at most
        rw [one_self] at most
        omega
      cases step
      refine inv.change (l := { s.ptable p with point := .pipeFd0 f0 f1 }) rfl ?_
        (Sound.ofUsed call.running call.used call.tame trivial)
        (fun n unborn => (unborn.not_running call.running).elim) (.inl rfl) ?_ (by rintro _ ⟨⟩) ?_ ?_
      · unfold Balanced
        rw [supply_setProc, supply_page (by exact unused),
          supply_setFile (d := 0) (by exact (add_zero _).symm),
          supply_setFile (d := 0) (by exact (add_zero _).symm), inv.balanced]
        unfold setProc setFile
        dsimp only
        rw [sum_update Proc.amount, sum_update File.amount, sum_update File.amount, update_of_ne ne]
        simp only [Proc.amount, File.amount, call.closing, call.point, Point.amount, before0.2,
          before1.2, zero_zsmul]
        abel
      · intro f
        rcases eq_or_ne f f1 with rfl | not1
        · exact .inr (.inl ((inv.sound p).fresh_le fresh1))
        · rcases eq_or_ne f f0 with rfl | not0
          · exact .inr (.inl ((inv.sound p).fresh_le fresh0))
          · exact .inl ((update_of_ne not1 _ _).trans (update_of_ne not0 _ _))
      · intro f
        unfold setProc setFile
        dsimp only
        rw [update_of_ne ne]
        rcases eq_or_ne f f1 with rfl | not1
        · rw [update_self, before1.1]
          rintro ⟨⟩
        · grind [update_apply, inv.free]
      · exact inv.paged.alloc unused

end

end Advance

/-! ### `fileclose` -/

theorem Pipe.shut_opened (x : Pipe) (writable : Bool) :
    (x.shut writable).opened writable = false := by
  cases writable with
  | _ => rfl

theorem Pipe.shut_opened_not (x : Pipe) (writable : Bool) :
    (x.shut writable).opened (!writable) = x.opened (!writable) := by
  cases writable with
  | _ => rfl

theorem Pipe.opened_eq_false {x : Pipe} (noReader : x.readopen = false)
    (noWriter : x.writeopen = false) (writable : Bool) : x.opened writable = false := by
  cases writable with
  | false => exact noReader
  | true => exact noWriter

section Closing

variable {rest : List (Closing π ν)} {g : π} {ip : ν} {writable : Bool} {first : Closing π ν}

/-- The process has what it is about to give back. -/
theorem closing_amount (inv : Inv s) (closing : (s.ptable p).closing = first :: rest)
    (r : Resource π ν) : first.amount r <= (s.ptable p).amount r := by
  have most := (inv.sound p).closing_le r
  have others := closing_nonneg rest r
  rw [closing, List.map_cons, List.sum_cons, Pi.add_apply] at most
  omega

theorem closing_running (inv : Inv s) (closing : (s.ptable p).closing = first :: rest) :
    (s.ptable p).state = .RUNNABLE := by
  by_contra other
  rw [((inv.sound p).started other).1] at closing
  cases closing

theorem fileclose (inv : Inv s) (closing : (s.ptable p).closing = .fileclose f :: rest)
    (step : close s p rest (.fileclose f) = some t) : Inv t := by
  have running := inv.closing_running closing
  have mine : 1 <= (s.ptable p).amount (.file f) :=
    le_trans (le_of_eq one_self.symm) (inv.closing_amount closing (.file f))
  have notFresh : ∀ g, g ∈ (s.ptable p).point.fresh -> g ≠ f /\ g ∈ (s.ptable p).point.fresh := by
    intro g isFresh
    refine ⟨?_, isFresh⟩
    rintro rfl
    have more := (inv.sound p).fresh_amount isFresh
    have most := inv.amount_le p g
    have others := closing_nonneg rest (.file g)
    rw [closing, List.map_cons, List.sum_cons, Pi.add_apply, Closing.amount, one_self] at more
    rw [(inv.fresh p g isFresh).1] at most
    omega
  unfold close at step
  dsimp only at step
  split at step
  next => cases step
  next =>
    split at step
    next more =>
      cases step
      refine inv.refile (d := -1) mine rfl ?_ ((inv.sound p).setClosing running rest) running
        (.inr rfl) notFresh ?_
      · simp only [Proc.amount, File.amount, closing, List.map_cons, List.sum_cons, Closing.amount,
          neg_one_zsmul]
        abel
      · intro wrong
        dsimp only at wrong
        omega
    next last =>
      cases step
      refine inv.refile (d := -1) mine (by dsimp only; omega) ?_
        ((inv.sound p).setClosing running _) running (.inr rfl) notFresh fun _ => rfl
      cases kind : (s.ftable f).type with
      | _ =>
        simp only [Proc.amount, File.amount, closing, kind, List.map_cons, List.sum_cons,
          Closing.amount, neg_one_zsmul]
        abel

theorem iput (inv : Inv s) (closing : (s.ptable p).closing = .iput ip :: rest)
    (step : close s p rest (.iput ip) = some t) : Inv t := by
  have running := inv.closing_running closing
  cases step
  refine inv.change (l := { s.ptable p with closing := rest }) rfl ?_
    ((inv.sound p).setClosing running rest)
    (fun n unborn => (unborn.not_running running).elim) (.inr rfl) (fun f => .inl rfl) (inv.fresh p)
    inv.free inv.paged
  · refine inv.balanced.changeProc (l := { s.ptable p with closing := rest }) (- one (.inode ip))
      rfl rfl ?_ ?_
    · rw [supply_setProc, <- neg_one_zsmul]
      exact supply_iref s ip (-1)
    · simp only [Proc.amount, closing, List.map_cons, List.sum_cons, Closing.amount]
      abel

/-- One end of a pipe is closed, and the page may go with it. -/
theorem supply_shut {a : Bool} {k : π -> Nat} (here : supply s (.pipeEnd g writable) = 1)
    (other : ((s.pipes g).shut writable).ends a (!writable) = supply s (.pipeEnd g (!writable))) :
    supply { s with
      pipes := update s.pipes g ((s.pipes g).shut writable)
      allocated := update s.allocated g a
      kfrees := k } = supply s + - one (.pipeEnd g writable) := by
  funext r
  cases r with
  | file f =>
    change (s.ftable f).ref = (s.ftable f).ref + - one (.pipeEnd g writable) (.file f)
    simp [one_apply]
  | inode ip =>
    change s.iref ip = s.iref ip + - one (.pipeEnd g writable) (.inode ip)
    simp [one_apply]
  | pipeEnd g' last =>
    change (update s.pipes g ((s.pipes g).shut writable) g').ends (update s.allocated g a g') last =
      supply s (.pipeEnd g' last) + - one (.pipeEnd g writable) (.pipeEnd g' last)
    rcases eq_or_ne g' g with rfl | ne
    · rw [update_self, update_self]
      rcases Bool.eq_or_eq_not last writable with rfl | rfl
      · rw [here, one_self, Pipe.ends, Pipe.shut_opened, if_neg fun wrong => by cases wrong.2]
        rfl
      · rw [other]
        cases writable with
        | _ => simp [one_apply]
    · rw [update_of_ne ne, update_of_ne ne]
      change supply s (.pipeEnd g' last) = _
      simp [one_apply, ne]

theorem pipeclose (inv : Inv s) (closing : (s.ptable p).closing = .pipeclose g writable :: rest)
    (step : close s p rest (.pipeclose g writable) = some t) : Inv t := by
  have running := inv.closing_running closing
  -- the process has the end, so the page is a pipe's and the end is open
  have some : 1 <= supply s (.pipeEnd g writable) := by
    have mine : 1 <= (s.ptable p).amount (.pipeEnd g writable) :=
      le_trans (le_of_eq one_self.symm) (inv.closing_amount closing (.pipeEnd g writable))
    have total := congrFun inv.balanced (.pipeEnd g writable)
    rw [Pi.add_apply, Finset.sum_apply, Finset.sum_apply] at total
    have share := Finset.single_le_sum (fun q _ => (inv.sound q).nonneg (.pipeEnd g writable))
        (Finset.mem_univ p)
    have others : 0 <= ∑ f, (s.ftable f).amount (.pipeEnd g writable) :=
      Finset.sum_nonneg fun f _ => (s.ftable f).amount_nonneg _
    omega
  have live : s.allocated g = true /\ (s.pipes g).opened writable = true := by
    by_contra wrong
    have nothing : supply s (.pipeEnd g writable) = 0 := if_neg wrong
    omega
  have here : supply s (.pipeEnd g writable) = 1 := if_pos live
  have amounts : - one (.pipeEnd g writable) =
      ({ s.ptable p with closing := rest } : Proc π ν).amount - (s.ptable p).amount := by
    simp only [Proc.amount, closing, List.map_cons, List.sum_cons, Closing.amount]
    abel
  -- whatever becomes of the page, the rest of the state is as after any step of `fileclose`
  have shutting : ∀ {t : State π ν}, t.ptable = update s.ptable p { s.ptable p with closing := rest } ->
      t.ftable = s.ftable -> supply t = supply s + - one (.pipeEnd g writable) ->
      Paged t.pipes t.allocated t.kallocs t.kfrees -> Inv t := by
    intro t procs files total paged
    refine inv.change procs (inv.balanced.changeProc _ procs files total amounts)
      ((inv.sound p).setClosing running rest) (fun n unborn => (unborn.not_running running).elim)
      (.inr rfl) ?_ ?_ ?_ paged
    · exact fun f => .inl (congrFun files f)
    · rw [files]
      exact inv.fresh p
    · rw [files]
      exact inv.free
  unfold close at step
  dsimp only at step
  split at step
  next both =>
    cases step
    refine shutting rfl rfl ((supply_setProc _ _ _).trans (supply_shut (a := false) here ?_))
      (inv.paged.free live.1)
    have gone : (s.pipes g).opened (!writable) = false := by
      rw [<- Pipe.shut_opened_not]
      exact Pipe.opened_eq_false both.1 both.2 _
    refine (if_neg fun wrong => by cases wrong.1).trans (if_neg fun wrong => ?_).symm
    rw [gone] at wrong
    cases wrong.2
  next notBoth =>
    cases step
    have still : ((s.pipes g).shut writable).readopen = true ∨
        ((s.pipes g).shut writable).writeopen = true := by
      by_contra neither
      rcases not_or.mp neither with ⟨noReader, noWriter⟩
      exact notBoth ⟨Bool.eq_false_of_not_eq_true noReader, Bool.eq_false_of_not_eq_true noWriter⟩
    have other : ((s.pipes g).shut writable).ends (s.allocated g) (!writable) =
        supply s (.pipeEnd g (!writable)) := by
      rw [Pipe.ends, Pipe.shut_opened_not]
      rfl
    have shut := supply_shut (a := s.allocated g) (k := s.kfrees) here other
    rw [update_eq_self] at shut
    exact shutting rfl rfl ((supply_setProc _ _ _).trans shut) (inv.paged.shut still)

end Closing

/-! ### `exit` -/

section Exit

variable {memory : Option π} {fd : Fin NOFILE}

theorem exitFd (inv : Inv s) (closing : (s.ptable p).closing = [])
    (point : (s.ptable p).point = .exitFd n)
    (step : advance s p memory (.exitFd n) = some t) : Inv t := by
  have sound := inv.sound p
  have running := sound.running point (by rintro ⟨⟩)
  have unborn : ∀ {l' : Proc π ν} n, Unborn (s.ptable p) n -> Unborn l' n :=
    fun n unborn => (unborn.not_running running).elim
  have placed := sound.placed
  rw [point] at placed
  rcases placed with ⟨below, past⟩
  unfold advance at step
  dsimp only at step
  split at step
  next inside =>
    split at step
    next null =>
      cases step
      refine inv.own ?_ ?_ unborn (.inl rfl) (by rintro _ ⟨⟩)
      · simp only [Proc.amount, closing, point, Point.amount]
      · constructor
        · intro fd here
          rcases sound.wild fd here with ⟨first, notUsed⟩
          refine ⟨first, ?_⟩
          dsimp only
          rw [notUsed, ite_self]
        · intro notUsed f here
          by_cases first : n = 0
          · subst first
            cases null.symm.trans here
          · dsimp only at notUsed
            rw [if_neg first] at notUsed
            exact sound.unused notUsed f here
        · exact fun wrong => absurd running wrong
        · exact fun _ => .inl trivial
        · refine ⟨?_, ?_⟩
          · intro fd lower f here
            rcases Nat.lt_succ_iff_lt_or_eq.mp lower with earlier | rfl
            · exact below fd earlier f here
            · cases null.symm.trans here
          · intro _
            dsimp only
            by_cases first : n = 0
            · rw [if_pos first]
            · rw [if_neg first]
              exact past (Nat.pos_of_ne_zero first)
        · dsimp only
          rw [running]
          rintro (wrong | wrong) <;> cases wrong
    next => cases step
    next f here =>
      cases step
      refine inv.own ?_ ?_ unborn (.inl rfl) (by rintro _ ⟨⟩)
      · simp only [Proc.amount, closing, point, List.map_cons, List.map_nil, List.sum_cons,
          List.sum_nil, Closing.amount, Point.amount]
        abel
      · refine ⟨sound.wild, sound.unused, fun wrong => absurd running wrong, fun _ => .inl trivial,
          ⟨here, below, past⟩, ?_⟩
        dsimp only
        rw [running]
        rintro (wrong | wrong) <;> cases wrong
  next outside =>
    cases step
    refine inv.own ?_ ?_ unborn (.inl rfl) (by rintro _ ⟨⟩)
    · simp only [Proc.amount, closing, point, Point.amount]
    · have many : 0 < n := lt_of_lt_of_le (by decide) (Nat.not_lt.mp outside)
      refine ⟨sound.wild, sound.unused, fun _ => ⟨closing, rfl⟩, (by rintro ⟨⟩), trivial,
        fun _ => ⟨past many, ?_⟩⟩
      exact fun fd f => below fd (lt_of_lt_of_le fd.isLt (Nat.not_lt.mp outside)) f

theorem clearFd (inv : Inv s) (closing : (s.ptable p).closing = [])
    (point : (s.ptable p).point = .clearFd fd f)
    (step : advance s p memory (.clearFd fd f) = some t) : Inv t := by
  have sound := inv.sound p
  have running := sound.running point (by rintro ⟨⟩)
  have unborn : ∀ {l' : Proc π ν} n, Unborn (s.ptable p) n -> Unborn l' n :=
    fun n unborn => (unborn.not_running running).elim
  have placed := sound.placed
  rw [point] at placed
  rcases placed with ⟨here, below, past⟩
  cases step
  refine inv.own ?_ ?_ unborn (.inl rfl) (by rintro _ ⟨⟩)
  · simp only [Proc.amount, closing, point, Point.amount, descriptors_update, here, Pointer.amount]
    abel
  · have other : ∀ a, a ≠ fd -> update (s.ptable p).ofile fd .null a = (s.ptable p).ofile a :=
      fun a ne => update_of_ne ne _ _
    have notUsed : (if fd.val = 0 then false else (s.ptable p).used) = false := by
      by_cases first : fd.val = 0
      · rw [if_pos first]
      · rw [if_neg first]
        exact past (Nat.pos_of_ne_zero first)
    constructor
    · grind [update_apply, sound.wild]
    · intro _ g
      dsimp only
      rcases eq_or_ne fd0 fd with rfl | ne
      · rw [update_self]
        rintro ⟨⟩
      · rw [other fd0 ne]
        refine sound.unused (past (Nat.pos_of_ne_zero fun zero => ne ?_)) g
        exact Fin.ext zero.symm
    · exact fun wrong => absurd running wrong
    · exact fun _ => .inl trivial
    · refine ⟨?_, fun _ => notUsed⟩
      intro a lower g
      dsimp only
      rcases eq_or_ne a fd with rfl | ne
      · rw [update_self]
        rintro ⟨⟩
      · rw [other a ne]
        refine below a (lt_of_le_of_ne (Nat.lt_succ_iff.mp lower) fun same => ne (Fin.ext same)) g
    · dsimp only
      rw [running]
      rintro (wrong | wrong) <;> cases wrong

end Exit

/-! ### `fork` -/

/-- A process and the slot that it fills change. -/
theorem pair (inv : Inv s) (ne : p ≠ np) (procs : t.ptable = update (update s.ptable np c) p l)
    (balanced : Balanced t) (soundL : Sound l) (soundC : Sound c)
    (running : (s.ptable p).state = .RUNNABLE)
    (alone : ∀ q n, q ≠ p -> (s.ptable q).point.child ≠ some (np, n))
    (child : ∀ m n, l.point.child = some (m, n) -> m = np /\ Unborn c n) (calm : l.point.fresh = [])
    (idle : c.point = .user)
    (touched : ∀ f, t.ftable f = s.ftable f ∨ 1 <= (s.ptable p).amount (.file f))
    (free : ∀ f, (t.ftable f).ref = 0 -> (t.ftable f).type = .FD_NONE)
    (paged : Paged t.pipes t.allocated t.kallocs t.kfrees) : Inv t := by
  have atL : t.ptable p = l := by rw [procs, update_self]
  have atC : t.ptable np = c := by rw [procs, update_of_ne ne.symm, update_self]
  have atOther : ∀ q, q ≠ p -> q ≠ np -> t.ptable q = s.ptable q := by
    intro q notP notC
    rw [procs, update_of_ne notP, update_of_ne notC]
  -- whoever else fills a slot fills another one, as before
  have old : ∀ q m n, q ≠ p -> (t.ptable q).point.child = some (m, n) ->
      (s.ptable q).point.child = some (m, n) /\ m ≠ p /\ m ≠ np := by
    intro q m n notP filling
    have notC : q ≠ np := by
      rintro rfl
      rw [atC, idle] at filling
      cases filling
    rw [atOther q notP notC] at filling
    refine ⟨filling, ?_, ?_⟩
    · rintro rfl
      exact (inv.child q m n filling).not_running running
    · rintro rfl
      exact alone q n notP filling
  refine ⟨balanced, ?_, ?_, free, paged, ?_, ?_⟩
  · intro q
    rcases eq_or_ne q p with rfl | notP
    · rw [atL]
      exact soundL
    · rcases eq_or_ne q np with rfl | notC
      · rw [atC]
        exact soundC
      · rw [atOther q notP notC]
        exact inv.sound q
  · intro q f
    rcases eq_or_ne q p with rfl | notP
    · rw [atL, calm]
      exact nofun
    · rcases eq_or_ne q np with rfl | notC
      · rw [atC, idle]
        exact nofun
      · rw [atOther q notP notC]
        intro isFresh
        have before := inv.fresh q f isFresh
        rcases touched f with same | mine
        · rw [same]
          exact before
        · have both := inv.amount_pair notP f
          have theirs := (inv.sound q).fresh_le isFresh
          omega
  · intro q m n filling
    rcases eq_or_ne q p with rfl | notP
    · rw [atL] at filling
      rcases child m n filling with ⟨rfl, unborn⟩
      rw [atC]
      exact unborn
    · rcases old q m n notP filling with ⟨before, notMe, notChild⟩
      rw [atOther m notMe notChild]
      exact inv.child q m n before
  · intro q r m i j first second
    rcases eq_or_ne q p with rfl | notQ
    · rcases eq_or_ne r q with rfl | notR
      · rfl
      · rw [atL] at first
        exact absurd (child m i first).1 (old r m j notR second).2.2
    · rcases eq_or_ne r p with rfl | notR
      · rw [atL] at second
        exact absurd (child m j second).1 (old q m i notQ first).2.2
      · exact inv.apart q r m i j (old q m i notQ first).1 (old r m j notR second).1

section Fork

variable {memory : Option π} {fd : Fin NOFILE}

section

variable (inv : Inv s)

include inv

/-- A slot that a process fills is nobody else's, and not the process itself. -/
theorem filling (running : (s.ptable p).state = .RUNNABLE)
    (child : (s.ptable p).point.child = some (np, n)) :
    p ≠ np /\ ∀ q m, q ≠ p -> (s.ptable q).point.child ≠ some (np, m) := by
  refine ⟨?_, fun q m other also => other (inv.apart q p np m n also child)⟩
  rintro rfl
  exact (inv.child p p n child).not_running running

/-- The state of the child changes and its descriptors stay. -/
theorem setChild {state : Status} (call : Calling (s.ptable p) here) (ne : p ≠ np)
    (alone : ∀ q m, q ≠ p -> (s.ptable q).point.child ≠ some (np, m)) {point : Point ν}
    (same : (point.amount : Amount π ν) = here.amount)
    (placed : Placed (s.ptable p).ofile (s.ptable p).used point)
    (soundC : Sound { s.ptable np with state := state }) (idle : (s.ptable np).point = .user)
    (child : ∀ m n, point.child = some (m, n) ->
      m = np /\ Unborn { s.ptable np with state := state } n) (calm : point.fresh = []) :
    Inv (setProc (setProc s np { s.ptable np with state := state }) p
      { s.ptable p with point := point }) := by
  refine inv.pair (t := setProc (setProc s np { s.ptable np with state := state }) p
    { s.ptable p with point := point })
    ne rfl (inv.balanced.keepPair ne ?_ rfl) (Sound.ofUsed call.running call.used call.tame placed) soundC
    call.running alone child calm idle (fun f => .inl rfl) inv.free inv.paged
  simp only [Proc.amount, call.point, same]

theorem fork (call : Calling (s.ptable p) .user) (found : allocproc s.ptable = some np) :
    Inv (setProc (setProc s np { s.ptable np with state := .EMBRYO }) p
      { s.ptable p with point := .kstack np }) := by
  have unused := allocproc_unused found
  have soundC := inv.sound np
  have ne : p ≠ np := by
    rintro rfl
    cases call.running.symm.trans unused
  have alone : ∀ q m, q ≠ p -> (s.ptable q).point.child ≠ some (np, m) := by
    intro q m _ also
    cases unused.symm.trans (inv.child q np m also).state
  have idle : (s.ptable np).closing = [] /\ (s.ptable np).point = .user := by
    apply soundC.started
    rw [unused]
    rintro ⟨⟩
  have blank := soundC.blank (.inl unused)
  refine inv.setChild call ne alone rfl trivial ?_ idle.2 ?_ rfl
  · exact ⟨soundC.wild, soundC.unused, fun _ => idle, (by rintro ⟨⟩), soundC.placed,
      (by rintro (wrong | wrong) <;> cases wrong)⟩
  · rintro m n ⟨⟩
    refine ⟨rfl, rfl, fun fd _ => blank.2 fd, ?_⟩
    dsimp only
    rw [blank.1]
    exact ⟨(by rintro ⟨⟩), (by rintro ⟨⟩)⟩

theorem Unborn.idle (unborn : Unborn (s.ptable np) n) :
    (s.ptable np).closing = [] /\ (s.ptable np).point = .user :=
  (inv.sound np).started unborn.not_running

/-- `allocproc` or `copyuvm` has run out of memory. -/
theorem abandon (call : Calling (s.ptable p) here) (amount : (here.amount : Amount π ν) = 0)
    (child : here.child = some (np, 0)) :
    Inv (setProc (setProc s np { s.ptable np with state := .UNUSED }) p
      { s.ptable p with point := .user }) := by
  rw [<- call.point] at child
  rcases inv.filling call.running child with ⟨ne, alone⟩
  have unborn := inv.child p np 0 child
  have soundC := inv.sound np
  have idle := Unborn.idle inv unborn
  refine inv.setChild call ne alone amount.symm trivial ?_ idle.2 (by rintro _ _ ⟨⟩) rfl
  refine ⟨soundC.wild, soundC.unused, fun _ => idle, (by rintro ⟨⟩), soundC.placed,
    fun _ => ⟨?_, fun fd f => ?_⟩⟩
  · exact Bool.eq_false_of_not_eq_true fun wrong => Nat.lt_irrefl 0 (unborn.used.mp wrong)
  · exact unborn.blank fd (Nat.zero_le _) f

/-- The child has all its descriptors. -/
theorem start (call : Calling (s.ptable p) (.dupFiles np n)) (done : NOFILE <= n) :
    Inv (setProc (setProc s np { s.ptable np with state := .RUNNABLE }) p
      { s.ptable p with point := .user }) := by
  have child : (s.ptable p).point.child = some (np, n) := congrArg Point.child call.point
  rcases inv.filling call.running child with ⟨ne, alone⟩
  have unborn := inv.child p np n child
  have soundC := inv.sound np
  have childUsed : (s.ptable np).used = true := unborn.used.mpr (lt_of_lt_of_le (by decide) done)
  refine inv.setChild call ne alone rfl trivial ?_ (Unborn.idle inv unborn).2 (by rintro _ _ ⟨⟩) rfl
  exact Sound.ofUsed rfl childUsed (soundC.tame childUsed) soundC.placed

/-- The child has no wild descriptor once descriptor 0 has been dealt with. -/
theorem child_tame (unborn : Unborn (s.ptable np) fd.val) {a : Fin NOFILE}
    (other : a ≠ fd ∨ (fd = fd0 -> (s.ptable np).ofile fd0 = .null)) :
    (s.ptable np).ofile a ≠ .wild := by
  intro here
  rcases (inv.sound np).wild a here with ⟨rfl, notUsed⟩
  have atFirst : fd = fd0 := by
    by_contra later
    have used := unborn.used.mpr (Nat.pos_of_ne_zero fun zero => later (Fin.ext zero))
    exact nomatch used.symm.trans notUsed
  rcases other with ne | null
  · exact ne atFirst.symm
  · exact nomatch (null atFirst).symm.trans here

end

omit [DecidableEq π] [DecidableEq ν] in
theorem child_used (unborn : Unborn c fd.val) : (if fd = fd0 then true else c.used) = true := by
  by_cases first : fd = fd0
  · rw [if_pos first]
  · rw [if_neg first]
    exact unborn.used.mpr (Nat.pos_of_ne_zero fun zero => first (Fin.ext zero))

theorem dupFile (inv : Inv s) (call : Calling (s.ptable p) (.dupFiles np fd.val))
    (spared : fd = fd0 -> (s.ptable p).ofile fd0 = .null -> (s.ptable np).ofile fd0 = .null)
    (step : OpenFiles.dupFile s p np fd = some t) : Inv t := by
  have child : (s.ptable p).point.child = some (np, fd.val) := congrArg Point.child call.point
  rcases inv.filling call.running child with ⟨ne, alone⟩
  have unborn := inv.child p np fd.val child
  have idle := Unborn.idle inv unborn
  have childUsed := child_used unborn
  have nextUsed : (if fd = fd0 then true else (s.ptable np).used) = true <-> 0 < fd.val + 1 :=
    ⟨fun _ => Nat.succ_pos _, fun _ => childUsed⟩
  have soundL : Sound { s.ptable p with point := .dupFiles np (fd.val + 1) } :=
    Sound.ofUsed call.running call.used call.tame trivial
  have sameL : ({ s.ptable p with point := .dupFiles np (fd.val + 1) } : Proc π ν).amount =
      (s.ptable p).amount := by
    simp only [Proc.amount, call.point, Point.amount]
  unfold OpenFiles.dupFile at step
  dsimp only at step
  split at step
  next null =>
    cases step
    refine inv.pair ne rfl (inv.balanced.keepPair ne sameL rfl) soundL ?_ call.running alone ?_ rfl idle.2
      (fun f => .inl rfl) inv.free inv.paged
    · refine Sound.ofEmbryo unborn.state childUsed (fun a => ?_) idle.1 idle.2
      exact inv.child_tame unborn (.inr fun first => spared first (by rw [<- first]; exact null))
    · rintro m n ⟨⟩
      exact ⟨rfl, unborn.state, fun a later => unborn.blank a (Nat.le_of_succ_le later), nextUsed⟩
  next => cases step
  next f here =>
    split at step
    next => cases step
    next counted =>
      cases step
      have mine : 1 <= (s.ptable p).amount (.file f) := by
        have some := descriptors_file (π := π) (ν := ν) here
        rw [call.amount]
        change 1 <= descriptors (s.ptable p).ofile (.file f) + 0
        omega
      have before : ((s.ptable np).ofile fd).amount = (0 : Amount π ν) :=
        Pointer.amount_eq_zero (unborn.blank fd (le_refl _))
      have added : (Pointer.file f).amount = (one (.file f) : Amount π ν) := rfl
      refine inv.pair ne rfl ?_ soundL ?_ call.running alone ?_ rfl idle.2 (fun g => ?_)
        (fun g => ?_) inv.paged
      · refine inv.balanced.changePair (one (.file f)) ne rfl rfl ?_ ?_
        · rw [supply_setProc, supply_setProc, supply_setFile (d := 1) (by rfl), one_zsmul]
        · rw [sameL]
          simp only [Proc.amount, File.amount, descriptors_update, before, added]
          abel
      · refine Sound.ofEmbryo unborn.state childUsed (fun a => ?_) idle.1 idle.2
        dsimp only
        rcases eq_or_ne a fd with rfl | other
        · rw [update_self]
          rintro ⟨⟩
        · rw [update_of_ne other]
          exact inv.child_tame unborn (.inl other)
      · rintro m n ⟨⟩
        refine ⟨rfl, unborn.state, fun a later g => ?_, nextUsed⟩
        dsimp only
        rw [update_of_ne]
        · exact unborn.blank a (Nat.le_of_succ_le later) g
        · rintro rfl
          exact Nat.not_succ_le_self _ later
      · rcases eq_or_ne g f with rfl | other
        · exact .inr mine
        · exact .inl (update_of_ne other _ _)
      · change (update s.ftable f { s.ftable f with ref := (s.ftable f).ref + 1 } g).ref = 0 ->
          (update s.ftable f { s.ftable f with ref := (s.ftable f).ref + 1 } g).type = .FD_NONE
        rcases eq_or_ne g f with rfl | other
        · rw [update_self]
          dsimp only
          intro wrong
          omega
        · rw [update_of_ne other]
          exact inv.free g

/-- The store behind `handlers[]` hits a descriptor that is not used. -/
theorem overrun (inv : Inv s)
    (spared : ∀ inside : np.val + 1 < NPROC, (s.ptable ⟨np.val + 1, inside⟩).used = false) :
    Inv (OpenFiles.overrun s np) := by
  unfold OpenFiles.overrun
  split
  next inside =>
    dsimp only
    have notUsed := spared inside
    generalize (⟨np.val + 1, inside⟩ : Fin NPROC) = next at notUsed
    have sound := inv.sound next
    have noFile := sound.unused notUsed
    have other : ∀ fd f, (s.ptable next).ofile fd = .file f ->
        update (s.ptable next).ofile fd0 .wild fd = .file f := by
      intro fd f here
      rw [update_of_ne]
      · exact here
      · rintro rfl
        exact noFile f here
    have back : ∀ fd f, update (s.ptable next).ofile fd0 .wild fd = .file f ->
        (s.ptable next).ofile fd = .file f := by
      intro fd f here
      rcases eq_or_ne fd fd0 with rfl | ne
      · rw [update_self] at here
        cases here
      · rw [update_of_ne ne] at here
        exact here
    have hit : Sound { s.ptable next with ofile := update (s.ptable next).ofile fd0 .wild } := by
      constructor
      · grind [update_apply, sound.wild]
      · exact fun _ f here => noFile f (back fd0 f here)
      · exact sound.started
      · exact sound.inUse
      · have placed := sound.placed
        dsimp only
        cases point : (s.ptable next).point with
        | openSet ip readable writable f =>
          rw [point] at placed
          rcases placed with ⟨fd, here⟩
          exact ⟨fd, other fd f here⟩
        | pipeFd1 fd rf wf =>
          rw [point] at placed
          exact other fd rf placed
        | filedup f =>
          rw [point] at placed
          rcases placed with ⟨a, b, ne, first, second⟩
          exact ⟨a, b, ne, other a f first, other b f second⟩
        | exitFd n =>
          rw [point] at placed
          exact ⟨fun fd lower f here => placed.1 fd lower f (back fd f here), placed.2⟩
        | clearFd fd f =>
          rw [point] at placed
          exact ⟨other fd f placed.1, fun a lower g here => placed.2.1 a lower g (back a g here),
            placed.2.2⟩
        | _ => trivial
      · intro gone
        exact ⟨(sound.blank gone).1, fun fd f here => (sound.blank gone).2 fd f (back fd f here)⟩
    have same : ({ s.ptable next with ofile := update (s.ptable next).ofile fd0 .wild } :
        Proc π ν).amount = (s.ptable next).amount := by
      have before : ((s.ptable next).ofile fd0).amount = (0 : Amount π ν) := Pointer.amount_eq_zero noFile
      have after : Pointer.wild.amount = (0 : Amount π ν) := rfl
      simp only [Proc.amount, descriptors_update, before, after, sub_self, add_zero]
    refine inv.own same hit (fun n unborn => ⟨unborn.state, fun fd later f here => ?_, unborn.used⟩)
      (.inr rfl) fun _ old => old
    exact unborn.blank fd later f (back fd f here)
  next => exact inv

end Fork

/-! ### Every step -/

/-- `fork` goes on with the same child. -/
theorem proceed (inv : Inv s) (call : Calling (s.ptable p) here)
    (same : (point.amount : Amount π ν) = here.amount)
    (placed : Placed (s.ptable p).ofile (s.ptable p).used point) (child : point.child = here.child)
    (calm : point.fresh = []) : Inv (setProc s p { s.ptable p with point := point }) := by
  refine inv.move call ?_ call.tame placed (.inr child) fun f isFresh => ?_
  · rw [call.closing, List.map_nil, List.sum_nil, add_zero, same]
  · rw [calm] at isFresh
    cases isFresh

theorem advance {memory : Option π} (inv : Inv s) (closing : (s.ptable p).closing = [])
    (spared : Spared s (.next p memory))
    (step : OpenFiles.advance s p memory (s.ptable p).point = some t) : Inv t := by
  have sound := inv.sound p
  unfold Spared at spared
  dsimp only at spared
  rw [closing] at spared
  generalize point : (s.ptable p).point = here at step spared
  have calling : here ≠ .user -> ¬ here.Leaving -> Calling (s.ptable p) here :=
    fun call staying => sound.calling (sound.running point call) closing point staying
  cases here with
  | user => cases step
  | openFile ip readable writable => exact inv.openFile (calling (by rintro ⟨⟩) id) step
  | openFd ip readable writable f => exact inv.openFd (calling (by rintro ⟨⟩) id) step
  | openSet ip readable writable f => exact inv.openSet (calling (by rintro ⟨⟩) id) step
  | pipeFile0 => exact inv.pipeFile0 (calling (by rintro ⟨⟩) id) step
  | pipeFile1 f0 => exact inv.pipeFile1 (calling (by rintro ⟨⟩) id) step
  | pipePage f0 f1 => exact inv.pipePage (calling (by rintro ⟨⟩) id) step
  | pipeFd0 rf wf => exact inv.pipeFd0 (calling (by rintro ⟨⟩) id) step
  | pipeFd1 fd rf wf => exact inv.pipeFd1 (calling (by rintro ⟨⟩) id) step
  | filedup f => exact inv.filedup (calling (by rintro ⟨⟩) id) step
  | kstack np | copyuvm np =>
    have call := calling (by rintro ⟨⟩) id
    cases memory with
    | none =>
      cases step
      exact inv.abandon call rfl rfl
    | some page =>
      cases step
      exact inv.proceed call rfl trivial rfl rfl
  | handlers np =>
    have call := calling (by rintro ⟨⟩) id
    cases step
    have moved : Inv (setProc s p { s.ptable p with point := .copyuvm np }) :=
      inv.proceed call rfl trivial rfl rfl
    apply moved.overrun
    intro inside
    change (update s.ptable p { s.ptable p with point := .copyuvm np } ⟨np.val + 1, inside⟩).used = false
    rcases eq_or_ne (⟨np.val + 1, inside⟩ : Fin NPROC) p with same | other
    · rw [same, update_self, <- same]
      exact spared inside
    · rw [update_of_ne other]
      exact spared inside
  | dupFiles np n =>
    have call := calling (by rintro ⟨⟩) id
    unfold OpenFiles.advance at step
    dsimp only at step
    split at step
    next inside =>
      apply inv.dupFile (show Calling (s.ptable p) (.dupFiles np (⟨n, inside⟩ : Fin NOFILE).val)
        from call) ?_ step
      intro first
      have zero : n = 0 := congrArg Fin.val first
      subst zero
      exact spared
    next outside =>
      cases step
      exact inv.start call (Nat.not_lt.mp outside)
  | exitFd n => exact inv.exitFd closing point step
  | clearFd fd f => exact inv.clearFd closing point step

theorem openCall (inv : Inv s) (call : Calling (s.ptable p) .user) (ip : ν)
    (readable writable : Bool) :
    Inv (setProc { s with iref := update s.iref ip (s.iref ip + 1) } p
      { s.ptable p with point := .openFile ip readable writable }) := by
  refine inv.change (l := { s.ptable p with point := .openFile ip readable writable }) rfl ?_
    (Sound.ofUsed call.running call.used call.tame trivial)
      (fun n unborn => (unborn.not_running call.running).elim)
    (.inl rfl) (fun f => .inl rfl) (by rintro _ ⟨⟩) inv.free inv.paged
  refine inv.balanced.changeProc (l := { s.ptable p with point := .openFile ip readable writable })
    (one (.inode ip))
    rfl rfl ?_ ?_
  · rw [supply_setProc, supply_iref, one_zsmul]
  · simp only [Proc.amount, call.closing, call.point, Point.amount]
    abel

theorem dupCall (inv : Inv s) (call : Calling (s.ptable p) .user) {fd other : Fin NOFILE}
    (here : (s.ptable p).ofile fd = .file f) (found : fdalloc (s.ptable p).ofile = some other) :
    Inv (setProc s p
      { s.ptable p with ofile := update (s.ptable p).ofile other (.file f), point := .filedup f }) := by
  have null := fdalloc_null found
  have ne : fd ≠ other := by
    rintro rfl
    cases here.symm.trans null
  refine inv.move call ?_ (tame_update call.tame other _ (by rintro ⟨⟩)) ?_ (.inl rfl) (by rintro _ ⟨⟩)
  · simp [call.closing, Point.amount, descriptors_update, null, Pointer.amount]
  · exact ⟨fd, other, ne, (update_of_ne ne _ _).trans here, update_self _ _ _⟩

theorem closeCall (inv : Inv s) (call : Calling (s.ptable p) .user) {fd : Fin NOFILE}
    (here : (s.ptable p).ofile fd = .file f) :
    Inv (setProc s p
      { s.ptable p with
        ofile := update (s.ptable p).ofile fd .null
        closing := [.fileclose f] }) := by
  refine inv.move call ?_ (tame_update call.tame fd _ (by rintro ⟨⟩)) ?_ ?_ fun f isFresh => ?_
  · simp [call.point, Closing.amount, Point.amount, descriptors_update, here, Pointer.amount]
  · rw [call.point]
    trivial
  · rw [call.point]
    exact .inl rfl
  · rw [call.point] at isFresh
    exact isFresh

theorem step {label : Label π ν} (inv : Inv s) (spared : Spared s label)
    (step : Step s label t) : Inv t := by
  have calling : ∀ {p}, Ready (s.ptable p) -> Calling (s.ptable p) .user :=
    fun ready => (inv.sound _).calling ready.1 ready.2.1 ready.2.2 id
  unfold Step perform at step
  cases label with
  | sysOpen p ip readable writable =>
    rcases Option.ite_none_right_eq_some.mp step with ⟨ready, step⟩
    cases step
    exact inv.openCall (calling ready) ip readable writable
  | sysDup p fd =>
    rcases Option.ite_none_right_eq_some.mp step with ⟨ready, step⟩
    split at step
    next =>
      cases step
      exact inv
    next => cases step
    next f here =>
      split at step
      next =>
        cases step
        exact inv
      next other found =>
        cases step
        exact inv.dupCall (calling ready) here found
  | sysPipe p =>
    rcases Option.ite_none_right_eq_some.mp step with ⟨ready, step⟩
    cases step
    refine inv.move (calling ready) ?_ (calling ready).tame trivial (.inl rfl) (by rintro _ ⟨⟩)
    simp [(calling ready).closing, Point.amount]
  | sysClose p fd =>
    rcases Option.ite_none_right_eq_some.mp step with ⟨ready, step⟩
    split at step
    next =>
      cases step
      exact inv
    next => cases step
    next f here =>
      cases step
      exact inv.closeCall (calling ready) here
  | fork p =>
    rcases Option.ite_none_right_eq_some.mp step with ⟨ready, step⟩
    split at step
    next =>
      cases step
      exact inv
    next np found =>
      cases step
      exact inv.fork (calling ready) found
  | exit p =>
    rcases Option.ite_none_left_eq_some.mp step with ⟨_, step⟩
    rcases Option.ite_none_right_eq_some.mp step with ⟨ready, step⟩
    cases step
    refine inv.move (calling ready) ?_ (calling ready).tame ⟨by rintro _ ⟨⟩, by rintro ⟨⟩⟩ (.inl rfl)
      (by rintro _ ⟨⟩)
    simp [(calling ready).closing, Point.amount]
  | wait child =>
    rcases Option.ite_none_right_eq_some.mp step with ⟨zombie, step⟩
    cases step
    have sound := inv.sound child
    have idle := sound.started (by rw [zombie]; rintro ⟨⟩)
    have blank := sound.blank (.inr zombie)
    refine inv.own rfl ⟨sound.wild, sound.unused, fun _ => idle, (by rintro ⟨⟩), sound.placed,
      fun _ => blank⟩ (fun n unborn => ?_) (.inr rfl) fun _ old => old
    cases zombie.symm.trans unborn.state
  | next p memory =>
    dsimp only at step
    split at step
    next closing => exact inv.advance closing spared step
    next first rest closing =>
      cases first with
      | fileclose f => exact inv.fileclose closing step
      | pipeclose g writable => exact inv.pipeclose closing step
      | iput ip => exact inv.iput closing step

end Inv

end Xv6.OpenFiles
