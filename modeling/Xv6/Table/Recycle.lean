import Xv6.OpenFiles.Calls
import Xv6.Table.Calls

namespace Xv6.Recycle

open Library
open Machine (NPROC NOFILE Word)
open OpenFiles (Pointer fd0)
open Table (ProcState initproc)
open Function

/-!
# Slots of the process table, used again

`fork`, `cowfork`, `exit`, `wait` and `kill`, one call after the other, with
what a slot keeps from the process that had it before.  `wait` clears `pid`,
`parent` and `killed`, and `exit` the descriptors; a `fork` that fails leaves
its new pid in a slot that is unused, and `allocproc` clears none of these.
`kill` looks at no state, and so finds such slots.  The store of `allocproc` at
`handlers[SIGSEGV]` is the `ofile[0]` of the next slot.

`since` is not in the source: it keeps what has happened to the process in a
slot since it was made.
-/

/-- What has happened to a process. -/
structure Since where
  /-- `trap` has given up on it. -/
  faulted : Bool
  /-- The arguments of the calls of `kill` -/
  kills : List Word

structure Proc where
  state : ProcState
  pid : Word
  parent : Option (Fin NPROC)
  killed : Bool
  ofile : Fin NOFILE -> Pointer
  since : Since

structure State where
  ptable : Fin NPROC -> Proc
  nextpid : Word

/-- How far `kalloc` lets a `fork` come. -/
inductive Memory where
  | noStack
  | noPages
  | enough
deriving DecidableEq

inductive Label where
  /-- `fork` or `cowfork` -/
  | fork (p : Fin NPROC) (memory : Memory)
  | exit (p : Fin NPROC)
  | wait (p : Fin NPROC)
  | kill (pid : Word)
  /-- `trap` sets `killed`. -/
  | fault (p : Fin NPROC)
  /-- A descriptor of the process is given a file, or none. -/
  | install (p : Fin NPROC) (fd : Fin NOFILE) (pointer : Pointer)

def setProc (s : State) (p : Fin NPROC) (l : Proc) : State :=
  { s with ptable := update s.ptable p l }

/-- The first slot that is unused. -/
def allocproc (ptable : Fin NPROC -> Proc) : Option (Fin NPROC) :=
  (List.finRange NPROC).find? fun p => (ptable p).state = .UNUSED

/-- `np->handlers[SIGSEGV] = -1` -/
def overrun (ptable : Fin NPROC -> Proc) (np : Fin NPROC) : Fin NPROC -> Proc :=
  if inside : np.val + 1 < NPROC then
    let next := ptable ⟨np.val + 1, inside⟩
    update ptable ⟨np.val + 1, inside⟩ { next with ofile := update next.ofile fd0 .wild }
  else ptable

/-- The loop of `fork` over the descriptors; `filedup` of a wild pointer is not modelled. -/
def dupFiles (parent child : Fin NOFILE -> Pointer) : Option (Fin NOFILE -> Pointer) :=
  if ∀ fd, parent fd ≠ .wild then some fun fd => if parent fd = .null then child fd else parent fd
  else none

/-- What a call returns, as an `int`. -/
def fork (s : State) (p : Fin NPROC) (memory : Memory) : Option (State × Word) :=
  match allocproc s.ptable with
  | none => some (s, -1)
  | some np =>
    let l := { s.ptable np with pid := s.nextpid }
    let failed := { setProc s np l with nextpid := s.nextpid + 1 }
    match memory with
    | .noStack => some (failed, -1)
    | .noPages => some ({ failed with ptable := overrun failed.ptable np }, -1)
    | .enough =>
      let ptable := overrun failed.ptable np
      (dupFiles (ptable p).ofile (ptable np).ofile).map fun ofile =>
        (setProc { failed with ptable := ptable } np
          { ptable np with
            state := .RUNNABLE, parent := some p, ofile := ofile, since := ⟨false, []⟩ }, s.nextpid)

def exit (s : State) (p : Fin NPROC) : Option State :=
  -- panic("init exiting")
  if p = initproc then none
  -- `fileclose` of a wild pointer is not modelled.
  else if ∀ fd, (s.ptable p).ofile fd ≠ .wild then
    let passed := fun q =>
      if (s.ptable q).parent = some p then { s.ptable q with parent := some initproc } else s.ptable q
    some { s with ptable := update passed p { passed p with state := .ZOMBIE, ofile := fun _ => .null } }
  else none

/-- `wait`, when it need not sleep. -/
def wait (s : State) (p : Fin NPROC) : Option (State × Word) :=
  match (List.finRange NPROC).find? fun q => (s.ptable q).parent = some p /\
    (s.ptable q).state = .ZOMBIE with
  | some q =>
    some (setProc s q { s.ptable q with state := .UNUSED, pid := 0, parent := none, killed := false },
      (s.ptable q).pid)
  | none =>
    if ((List.finRange NPROC).any fun q => (s.ptable q).parent = some p) = false ∨
      (s.ptable p).killed = true then
      some (s, -1)
    else none

/-- The slot that `kill` finds. -/
def target (s : State) (pid : Word) : Option (Fin NPROC) :=
  (List.finRange NPROC).find? fun p => (s.ptable p).pid = pid

def kill (s : State) (pid : Word) : State × Word :=
  let t := { s with ptable := fun q =>
    { s.ptable q with since := { (s.ptable q).since with kills := pid :: (s.ptable q).since.kills } } }
  match target s pid with
  | none => (t, -1)
  | some p => (setProc t p { t.ptable p with killed := true }, 0)

def perform (s : State) : Label -> Option State
  | .fork p memory => if (s.ptable p).state = .RUNNABLE then (fork s p memory).map Prod.fst else none
  | .exit p => if (s.ptable p).state = .RUNNABLE then exit s p else none
  | .wait p => if (s.ptable p).state = .RUNNABLE then (wait s p).map Prod.fst else none
  | .kill pid => some (kill s pid).1
  | .fault p =>
    if (s.ptable p).state = .RUNNABLE then
      some (setProc s p
        { s.ptable p with killed := true, since := { (s.ptable p).since with faulted := true } })
    else none
  | .install p fd pointer =>
    if (s.ptable p).state = .RUNNABLE /\ pointer ≠ .wild then
      some (setProc s p { s.ptable p with ofile := update (s.ptable p).ofile fd pointer })
    else none

def Step (s : State) (label : Label) (t : State) : Prop := perform s label = some t

/-- After `userinit`, whose `allocproc` has stored into the second slot. -/
def boot : State where
  ptable := fun p =>
    { state := if p = initproc then .RUNNABLE else .UNUSED
      pid := if p = initproc then 1 else 0
      parent := none
      killed := false
      ofile := fun fd => if p.val = 1 /\ fd = fd0 then .wild else .null
      since := ⟨false, []⟩ }
  nextpid := 2

/-- A pid that an unused slot has, 0 or one that a failed `fork` has left, is killed only if a
process in a slot before has it; and `fork` leaves no stray store as a descriptor of the child. -/
def Aimed (s : State) : Label -> Prop
  | .kill pid => ∀ p, (s.ptable p).state = .UNUSED -> (s.ptable p).pid = pid ->
    ∃ q, q < p /\ (s.ptable q).state ≠ .UNUSED /\ (s.ptable q).pid = pid
  | .fork p .enough =>
    ∀ np, allocproc s.ptable = some np -> (s.ptable p).ofile fd0 = .null ->
      (s.ptable np).ofile fd0 = .null
  | _ => True

instance (s : State) (label : Label) : Decidable (Aimed s label) := by
  unfold Aimed
  split
  next => infer_instance
  next => infer_instance
  next => infer_instance

/-! ## What a slot keeps -/

/-- `killed` has a reason. -/
def Blamed (l : Proc) : Prop := l.killed = true -> l.since.faulted = true ∨ l.pid ∈ l.since.kills

/-- Nothing of the last process is left, but for a descriptor that `allocproc` of the slot before
has stored into. -/
structure Clean (l : Proc) : Prop where
  calm : l.state = .UNUSED -> l.killed = false
  closed : l.state = .UNUSED ∨ l.state = .ZOMBIE -> ∀ fd, fd ≠ fd0 -> l.ofile fd = .null
  blamed : l.state ≠ .UNUSED -> Blamed l

def Tidy (s : State) : Prop := ∀ p, Clean (s.ptable p)

variable {s t : State} {p np : Fin NPROC} {l : Proc} {memory : Memory}

theorem Tidy.setProc (tidy : Tidy s) (clean : Clean l) : Tidy (setProc s p l) := by
  intro q
  change Clean (update s.ptable p l q)
  by_cases same : q = p
  · rw [same, update_self]
    exact clean
  · rw [update_of_ne same]
    exact tidy q

theorem allocproc_some {t : Fin NPROC -> Proc} (found : allocproc t = some np) :
    (t np).state = .UNUSED := by
  have accepted := List.find?_some found
  simpa only [decide_eq_true_eq] using accepted

/-- The stray store changes one descriptor. -/
structure Strayed (l l' : Proc) : Prop where
  state : l'.state = l.state
  pid : l'.pid = l.pid
  killed : l'.killed = l.killed
  since : l'.since = l.since
  ofile : ∀ fd, fd ≠ fd0 -> l'.ofile fd = l.ofile fd

theorem Strayed.refl (l : Proc) : Strayed l l := ⟨rfl, rfl, rfl, rfl, fun _ _ => rfl⟩

theorem Strayed.clean {l' : Proc} (strayed : Strayed l l') (clean : Clean l) : Clean l' where
  calm := by
    rw [strayed.state, strayed.killed]
    exact clean.calm
  closed := by
    intro gone fd other
    rw [strayed.state] at gone
    rw [strayed.ofile fd other]
    exact clean.closed gone fd other
  blamed := by
    rw [strayed.state]
    intro used
    unfold Blamed
    rw [strayed.killed, strayed.since, strayed.pid]
    exact clean.blamed used

theorem overrun_strayed (t : Fin NPROC -> Proc) (np q : Fin NPROC) :
    Strayed (t q) (overrun t np q) := by
  unfold overrun
  split
  next inside =>
    dsimp only
    by_cases same : q = ⟨np.val + 1, inside⟩
    · rw [same, update_self]
      exact ⟨rfl, rfl, rfl, rfl, fun fd other => update_of_ne other _ _⟩
    · rw [update_of_ne same]
      exact .refl (t q)
  next => exact .refl (t q)

theorem overrun_self (t : Fin NPROC -> Proc) (np : Fin NPROC) : overrun t np np = t np := by
  unfold overrun
  split
  next inside =>
    refine update_of_ne ?_ _ _
    intro same
    have equal := congrArg Fin.val same
    exact absurd equal (Nat.ne_of_lt (Nat.lt_succ_self np.val))
  next => rfl

/-- A slot that is unused is made ready for a child. -/
theorem Clean.numbered (clean : Clean l) (free : l.state = .UNUSED) (pid : Word) :
    Clean { l with pid := pid } where
  calm := clean.calm
  closed := clean.closed
  blamed := fun used => absurd free used

theorem dupFiles_some {parent child ofile : Fin NOFILE -> Pointer}
    (done : dupFiles parent child = some ofile) :
    (∀ fd, parent fd ≠ .wild) /\
      ofile = fun fd => if parent fd = .null then child fd else parent fd := by
  unfold dupFiles at done
  rcases Option.ite_none_right_eq_some.mp done with ⟨tame, ⟨⟩⟩
  exact ⟨tame, rfl⟩

/-- A process either keeps its descriptors or has a wild one. -/
theorem overrun_tame {t : Fin NPROC -> Proc} {q : Fin NPROC}
    (tame : (overrun t np q).ofile fd0 ≠ .wild) : overrun t np q = t q := by
  unfold overrun at tame ⊢
  split at tame
  next inside =>
    rw [dif_pos inside]
    dsimp only at tame ⊢
    by_cases same : q = ⟨np.val + 1, inside⟩
    · rw [same, update_self] at tame
      exact absurd (update_self fd0 Pointer.wild (t ⟨np.val + 1, inside⟩).ofile) tame
    · rw [update_of_ne same]
  next outside => rw [dif_neg outside]

/-- The table, when `allocproc` has given a pid to a slot. -/
def numbered (s : State) (np : Fin NPROC) : Fin NPROC -> Proc :=
  update s.ptable np { s.ptable np with pid := s.nextpid }

theorem numbered_self (s : State) (np : Fin NPROC) :
    numbered s np np = { s.ptable np with pid := s.nextpid } :=
  update_self _ _ _

theorem numbered_other (s : State) {q : Fin NPROC} (ne : q ≠ np) : numbered s np q = s.ptable q :=
  update_of_ne ne _ _

theorem numbered_state (s : State) (np q : Fin NPROC) :
    (numbered s np q).state = (s.ptable q).state := by
  by_cases same : q = np
  · rw [same, numbered_self]
  · rw [numbered_other s same]

/-- What `fork` can do: nothing, or number a slot, or make a child in it. -/
inductive Forked (s : State) (p : Fin NPROC) : Memory -> State -> Prop
  | full (memory : Memory) : Forked s p memory s
  | failed (memory : Memory) (t : State) (np : Fin NPROC) (found : allocproc s.ptable = some np)
      (strayed : ∀ q, Strayed (numbered s np q) (t.ptable q)) : Forked s p memory t
  | made (t : State) (np : Fin NPROC) (found : allocproc s.ptable = some np)
    (ofile : Fin NOFILE -> Pointer)
      (copied : dupFiles (overrun (numbered s np) np p).ofile (s.ptable np).ofile = some ofile)
      (others : ∀ q, q ≠ np -> Strayed (s.ptable q) (t.ptable q))
      (child : t.ptable np =
        { numbered s np np with
          state := .RUNNABLE, parent := some p, ofile := ofile, since := ⟨false, []⟩ }) :
      Forked s p .enough t

theorem fork_forked {result : Word}
    (done : fork s p memory = some (t, result)) : Forked s p memory t := by
  unfold fork at done
  split at done
  next =>
    cases done
    exact .full memory
  next np found =>
    dsimp only at done
    cases memory with
    | noStack =>
      cases done
      exact .failed _ _ np found (fun q => .refl _)
    | noPages =>
      cases done
      exact .failed _ _ np found (overrun_strayed (numbered s np) np)
    | enough =>
      rcases Option.map_eq_some_iff.mp done with ⟨ofile, copied, equal⟩
      cases equal
      have self := overrun_self (numbered s np) np
      change dupFiles _ (overrun (numbered s np) np np).ofile = _ at copied
      rw [self, numbered_self] at copied
      refine .made _ np found ofile copied ?_ ?_
      · intro q ne
        change Strayed _ (update (overrun (numbered s np) np) np _ q)
        rw [update_of_ne ne, <- numbered_other s ne]
        exact overrun_strayed (numbered s np) np q
      · change update (overrun (numbered s np) np) np { overrun (numbered s np) np np with
          state := .RUNNABLE, parent := some p, ofile := ofile, since := ⟨false, []⟩ } np = _
        rw [update_self, self]

theorem Tidy.numbered (tidy : Tidy s) (found : allocproc s.ptable = some np)
    (q : Fin NPROC) : Clean (numbered s np q) := by
  by_cases same : q = np
  · rw [same, numbered_self]
    exact (tidy np).numbered (allocproc_some found) s.nextpid
  · rw [numbered_other s same]
    exact tidy q

theorem Forked.tidy (forked : Forked s p memory t) (tidy : Tidy s) : Tidy t := by
  cases forked with
  | full => exact tidy
  | failed _ _ np found strayed => exact fun q => (strayed q).clean (tidy.numbered found q)
  | made _ np found ofile copied others child =>
    intro q
    by_cases same : q = np
    · have calm := (tidy np).calm (allocproc_some found)
      rw [same, child, numbered_self]
      refine ⟨(fun unused => nomatch unused), ?_, fun _ killed => ?_⟩
      · rintro (unused | gone)
        · exact nomatch unused
        · exact nomatch gone
      · exact nomatch calm.symm.trans killed
    · exact (others q same).clean (tidy q)

/-- A child of `fork` is not killed, and its descriptors are its parent's. -/
theorem Forked.newborn (forked : Forked s p memory t)
    (tidy : Tidy s) (aimed : Aimed s (.fork p memory)) (running : (s.ptable p).state = .RUNNABLE)
    (free : (s.ptable np).state = .UNUSED) (used : (t.ptable np).state ≠ .UNUSED) :
    (t.ptable np).killed = false /\
      ∀ fd, (t.ptable np).ofile fd ≠ .null -> (t.ptable np).ofile fd = (s.ptable p).ofile fd := by
  cases forked with
  | full => exact absurd free used
  | failed _ _ other found strayed =>
    rw [(strayed np).state, numbered_state] at used
    exact absurd free used
  | made _ other found ofile copied others child =>
    by_cases same : np = other
    · subst other
      have apart : p ≠ np := by
        rintro rfl
        exact nomatch running.symm.trans free
      rcases dupFiles_some copied with ⟨tame, descriptors⟩
      rw [overrun_tame (tame fd0), numbered_other s apart] at descriptors
      rw [child, numbered_self]
      refine ⟨(tidy np).calm free, fun fd opened => ?_⟩
      dsimp only at opened ⊢
      rw [descriptors] at opened ⊢
      dsimp only at opened ⊢
      split
      next null =>
        -- The child has kept what was in its slot, which is nothing.
        rw [if_pos null] at opened
        by_cases first : fd = fd0
        · rw [first] at opened null
          exact absurd (aimed np found null) opened
        · exact absurd ((tidy np).closed (.inl free) fd first) opened
      next => rfl
    · rw [(others np same).state] at used
      exact absurd free used

theorem Tidy.exit (tidy : Tidy s) (running : (s.ptable p).state = .RUNNABLE)
    (done : exit s p = some t) : Tidy t := by
  unfold Recycle.exit at done
  rcases Option.ite_none_left_eq_some.mp done with ⟨_, done⟩
  split at done
  next =>
    cases done
    have passed : ∀ q, Clean (if (s.ptable q).parent =
        some p then { s.ptable q with parent := some initproc }
        else s.ptable q) := by
      intro q
      split
      next => exact ⟨(tidy q).calm, (tidy q).closed, (tidy q).blamed⟩
      next => exact tidy q
    have blamed : Blamed (if (s.ptable p).parent = some p then { s.ptable p with parent := some initproc }
        else s.ptable p) := by
      apply (passed p).blamed
      split
      next => exact fun unused => nomatch running.symm.trans unused
      next => exact fun unused => nomatch running.symm.trans unused
    refine Tidy.setProc (s := { s with ptable := _ }) passed ?_
    exact ⟨(fun unused => nomatch unused), fun _ _ _ => rfl, fun _ => blamed⟩
  next => cases done

theorem Tidy.wait {result : Word} (tidy : Tidy s)
    (done : wait s p = some (t, result)) : Tidy t := by
  unfold Recycle.wait at done
  split at done
  next q found =>
    have accepted := List.find?_some found
    simp only [decide_eq_true_eq] at accepted
    cases done
    apply tidy.setProc
    exact ⟨fun _ => rfl, fun _ => (tidy q).closed (.inr accepted.2), fun used => absurd rfl used⟩
  next =>
    rcases Option.ite_none_right_eq_some.mp done with ⟨_, ⟨⟩⟩
    exact tidy

theorem target_some {pid : Word} (found : target s pid = some p) : (s.ptable p).pid = pid := by
  have accepted := List.find?_some found
  simpa only [decide_eq_true_eq] using accepted

theorem target_used {pid : Word} (aimed : Aimed s (.kill pid)) (found : target s pid = some p) :
    (s.ptable p).state ≠ .UNUSED := by
  intro unused
  rcases aimed p unused (target_some found) with ⟨q, before, _, same⟩
  rcases (List.find?_eq_some_iff_getElem.mp found).2 with ⟨i, inside, here, refused⟩
  have first := congrArg Fin.val here
  rw [List.getElem_finRange] at first
  have other := refused q.val (Nat.lt_of_lt_of_eq before first.symm)
  rw [List.getElem_finRange] at other
  simp [same] at other

theorem Tidy.kill {pid : Word} (tidy : Tidy s) (aimed : Aimed s (.kill pid)) :
    Tidy (kill s pid).1 := by
  have noted : ∀ q, Clean { s.ptable q with
      since := { (s.ptable q).since with kills := pid :: (s.ptable q).since.kills } } := by
    intro q
    refine ⟨(tidy q).calm, (tidy q).closed, fun used killed => ?_⟩
    rcases (tidy q).blamed used killed with faulted | listed
    · exact .inl faulted
    · exact .inr (List.mem_cons_of_mem _ listed)
  unfold Recycle.kill
  dsimp only
  split
  next => exact noted
  next p found =>
    refine Tidy.setProc (s := { s with ptable := _ }) noted ?_
    refine ⟨fun unused => absurd unused (target_used aimed found), (tidy p).closed, fun _ _ => .inr ?_⟩
    rw [<- target_some found]
    exact List.mem_cons_self

theorem Tidy.step {label : Label} (tidy : Tidy s) (aimed : Aimed s label) (step : Step s label t) :
    Tidy t := by
  unfold Step perform at step
  cases label with
  | fork p memory =>
    rcases Option.ite_none_right_eq_some.mp step with ⟨_, step⟩
    rcases Option.map_eq_some_iff.mp step with ⟨⟨after, result⟩, done, same⟩
    cases same
    exact (fork_forked done).tidy tidy
  | exit p =>
    rcases Option.ite_none_right_eq_some.mp step with ⟨running, step⟩
    exact tidy.exit running step
  | wait p =>
    rcases Option.ite_none_right_eq_some.mp step with ⟨_, step⟩
    rcases Option.map_eq_some_iff.mp step with ⟨⟨after, result⟩, done, same⟩
    cases same
    exact tidy.wait done
  | kill pid =>
    cases step
    exact tidy.kill aimed
  | fault p =>
    rcases Option.ite_none_right_eq_some.mp step with ⟨running, ⟨⟩⟩
    apply tidy.setProc
    refine ⟨fun unused => ?_, (tidy p).closed, fun _ _ => .inl rfl⟩
    exact nomatch running.symm.trans unused
  | install p fd pointer =>
    rcases Option.ite_none_right_eq_some.mp step with ⟨allowed, ⟨⟩⟩
    apply tidy.setProc
    refine ⟨(tidy p).calm, ?_, (tidy p).blamed⟩
    rintro (unused | gone)
    · exact nomatch allowed.1.symm.trans unused
    · exact nomatch allowed.1.symm.trans gone

theorem tidy_boot : Tidy boot := by
  intro p
  refine ⟨fun _ => rfl, fun _ fd other => ?_, fun _ killed => nomatch killed⟩
  exact if_neg (fun both => other both.2)

/-- `kill` reaches its target only, and `fork` makes clean processes. -/
theorem slots_clean {labels : List Label} {s : State} (run : GuardedRun Step Aimed boot labels s) :
    (∀ p, (s.ptable p).state ≠ .UNUSED -> (s.ptable p).killed = true ->
      (s.ptable p).since.faulted = true ∨ (s.ptable p).pid ∈ (s.ptable p).since.kills) /\
    (∀ pid, Aimed s (.kill pid) ->
      ((kill s pid).2 = 0 <-> ∃ q, (s.ptable q).state ≠ .UNUSED /\ (s.ptable q).pid = pid)) /\
    ∀ p memory t np, Aimed s (.fork p memory) -> Step s (.fork p memory) t ->
    (s.ptable np).state = .UNUSED ->
      (t.ptable np).state ≠ .UNUSED -> (t.ptable np).killed = false /\
        ∀ fd, (t.ptable np).ofile fd ≠ .null -> (t.ptable np).ofile fd = (s.ptable p).ofile fd := by
  have kept : ∀ (s : State) label t, Aimed s label -> Step s label t -> Tidy s -> Tidy t :=
    fun s label t aimed step tidy => tidy.step aimed step
  have tidy := run.invariant kept tidy_boot
  refine ⟨fun p used => (tidy p).blamed used, fun pid aimed => ?_, ?_⟩
  · unfold kill
    dsimp only
    split
    next missed =>
      refine iff_of_false (show ¬ (-1 : Word) = 0 by decide) ?_
      rintro ⟨q, _, same⟩
      have refused := List.find?_eq_none.mp missed q (List.mem_finRange q)
      simp only [decide_eq_true_eq] at refused
      exact refused same
    next p found => exact iff_of_true rfl ⟨p, target_used aimed found, target_some found⟩
  · intro p memory t np aimed step free used
    unfold Step perform at step
    rcases Option.ite_none_right_eq_some.mp step with ⟨running, step⟩
    rcases Option.map_eq_some_iff.mp step with ⟨⟨after, result⟩, done, same⟩
    cases same
    exact (fork_forked done).newborn tidy aimed running free used

def slot1 : Fin NPROC := ⟨1, Machine.one_lt_NPROC⟩

/-- A child is killed and waited for, and its slot is used again. -/
def killedOnce : List Label :=
  [.install initproc fd0 (.file ⟨0, by decide⟩), .fork initproc .enough, .fork initproc .noPages,
    .kill 2, .exit slot1, .wait initproc, .fork initproc .enough]

theorem slots_clean_killedOnce : ∃ s,
    GuardedRun Step Aimed boot killedOnce s /\ (s.ptable slot1).pid = 4 /\
    (s.ptable slot1).killed = false /\
      ((kill s 4).2 = 0 <-> ∃ q, (s.ptable q).state ≠ .UNUSED /\ (s.ptable q).pid = 4) := by
  have outcome : (checked Aimed perform boot killedOnce).map
      (fun s => ((s.ptable slot1).pid, (s.ptable slot1).killed, decide (Aimed s (.kill 4)))) =
        some (4, false, true) := by
    decide +kernel
  rcases Option.map_eq_some_iff.mp outcome with ⟨s, done, values⟩
  simp only [Prod.mk.injEq] at values
  rcases values with ⟨pid, killed, aimed⟩
  have run : GuardedRun Step Aimed boot killedOnce s := GuardedRun.of_checked done
  exact ⟨s, run, pid, killed, (slots_clean run).2.1 4 (of_decide_eq_true aimed)⟩

/-- A call with pid 0, and then a child. -/
def killedUnborn : List Label := [.kill 0, .fork initproc .enough]

/-- No process has pid 0, and `kill(0)` returns 0; the next child is killed, and has a descriptor
that its parent does not have. -/
theorem killedUnborn_reaches_child : (kill boot 0).2 = 0 /\
    (∀ q, (boot.ptable q).state ≠ .UNUSED -> (boot.ptable q).pid ≠ 0) /\
    ∃ s, GuardedRun Step (fun _ _ => True) boot killedUnborn s /\
    (s.ptable slot1).state = .RUNNABLE /\
      (s.ptable slot1).killed = true /\ (s.ptable slot1).since.faulted = false /\
      (s.ptable slot1).since.kills = [] /\
      (s.ptable slot1).ofile fd0 = .wild /\ (s.ptable initproc).ofile fd0 = .null := by
  have outcome : (checked (fun _ _ => True) perform boot killedUnborn).map
      (fun s => decide ((s.ptable slot1).state = .RUNNABLE /\ (s.ptable slot1).killed = true /\
        (s.ptable slot1).since.faulted = false /\ (s.ptable slot1).since.kills = [] /\
        (s.ptable slot1).ofile fd0 = .wild /\ (s.ptable initproc).ofile fd0 = .null)) = some true := by
    decide +kernel
  refine ⟨by decide +kernel, by decide +kernel, ?_⟩
  rcases Option.map_eq_some_iff.mp outcome with ⟨s, done, values⟩
  have run : GuardedRun Step (fun _ _ => True) boot killedUnborn s := GuardedRun.of_checked done
  exact ⟨s, run, of_decide_eq_true values⟩

end Xv6.Recycle
