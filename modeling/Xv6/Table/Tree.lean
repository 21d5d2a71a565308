import Mathlib.Order.Basic
import Xv6.Table.Calls

namespace Xv6.Table

open Machine (NPROC Word)
open Function

/-!
# Parents

Who is a parent, who is making a child and who waits for one.  The invariants
hold together: `exit` wakes its parent before it is a zombie and leaves its
children to `initproc`, and a call of `wait` sleeps only when none of its
children has exited.  `Change` says once what a step can do.
-/

/-- A call works on the slot of a child, and goes on. -/
def both (t : Fin NPROC -> Proc) (p q : Fin NPROC) (l : Proc) (point : Point) : Fin NPROC -> Proc :=
  update (update t q l) p { update t q l p with point := point }

section Both

variable {t : Fin NPROC -> Proc} {p q : Fin NPROC} {l : Proc} {point : Point}

theorem both_others {r : Fin NPROC} (notCaller : r ≠ p) (notChild : r ≠ q) :
    both t p q l point r = t r := by
  rw [both, update_of_ne notCaller, update_of_ne notChild]

theorem both_child (apart : p ≠ q) : both t p q l point q = l := by
  rw [both, update_of_ne apart.symm, update_self]

theorem both_caller (apart : p ≠ q) : both t p q l point p = { t p with point := point } := by
  rw [both, update_self, update_of_ne apart]

theorem both_keeps (apart : p ≠ q) {r : Fin NPROC} (notChild : r ≠ q) :
    (both t p q l point r).state = (t r).state /\ (both t p q l point r).pid = (t r).pid := by
  by_cases caller : r = p
  · rw [caller, both_caller apart]
    exact ⟨rfl, rfl⟩
  · rw [both_others caller notChild]
    exact ⟨rfl, rfl⟩

end Both

theorem active_of_running {l : Proc} (running : l.state = .RUNNING) : l.state.Active :=
  Or.inr (.inr running)

/-! ## Families -/

/-- What holds of the parents, and of the calls that are making children or waiting for them. -/
structure Family (t : Fin NPROC -> Proc) : Prop where
  init_active : (t initproc).state.Active
  init_parent : (t initproc).parent = none
  init_stays : (t initproc).point ≠ .exiting
  proper : ∀ q, (t q).parent ≠ some q
  parent_active : ∀ p q, (t q).parent = some p -> (t p).state.Active
  has_parent : ∀ q, q ≠ initproc -> (t q).state.Active ∨ (t q).state = .ZOMBIE -> (t q).parent ≠ none
  unused : ∀ q, (t q).state = .UNUSED -> (t q).parent = none
  embryo : ∀ p np, (t p).point = .embryo np -> (t np).state = .EMBRYO /\ (t np).parent = none
  child : ∀ p np, (t p).point = .child np -> (t np).state = .EMBRYO /\ (t np).parent = some p
  made : ∀ p q np, (t p).point = .embryo np -> (t q).point = .embryo np -> p = q
  idle : ∀ p, ¬ (t p).state.Active -> (t p).point = .user
  asleep : ∀ p, (t p).point = .asleep -> (t p).state = .SLEEPING -> (t p).chan = some (.proc p)
  awake : ∀ p q, (t p).point = .asleep -> (t p).state = .SLEEPING -> (t q).parent = some p ->
    (t q).state ≠ .ZOMBIE

namespace Family

variable {t t' : Fin NPROC -> Proc}

/-- Processes go on by themselves: they make no child, and sleep in `wait` only when none of their
children has exited. -/
theorem goes (family : Family t) (parent : ∀ q, (t' q).parent = (t q).parent)
    (state : ∀ q, (t' q).state = (t q).state ∨ (t q).state.Active /\ (t' q).state.Active)
    (stays : (t' initproc).point = .exiting -> (t initproc).point = .exiting)
    (idle : ∀ q, ¬ (t q).state.Active -> (t' q).point = (t q).point)
    (embryo : ∀ p np, (t' p).point = .embryo np -> (t p).point = .embryo np)
    (child : ∀ p np, (t' p).point = .child np -> (t p).point = .child np)
    (asleep : ∀ p, (t' p).point = .asleep -> (t' p).state = .SLEEPING ->
      (t' p).chan = some (.proc p) /\ ∀ q, (t q).parent = some p -> (t q).state ≠ .ZOMBIE) :
    Family t' := by
  have active : ∀ q, (t' q).state.Active <-> (t q).state.Active := by
    intro q
    rcases state q with same | ⟨before, after⟩
    · rw [same]
    · exact iff_of_true after before
  have still : ∀ q value, ¬ value.Active -> ((t' q).state = value <-> (t q).state = value) := by
    intro q value inactive
    rcases state q with same | ⟨before, after⟩
    · rw [same]
    · exact iff_of_false (fun same => inactive (same ▸ after)) (fun same => inactive (same ▸ before))
  have unused := fun q => still q .UNUSED (by decide)
  have making := fun q => still q .EMBRYO (by decide)
  have gone := fun q => still q .ZOMBIE (by decide)
  constructor
  · exact (active initproc).mpr family.init_active
  · rw [parent]
    exact family.init_parent
  · exact fun exiting => family.init_stays (stays exiting)
  · intro q
    rw [parent]
    exact family.proper q
  · intro p q found
    rw [parent] at found
    exact (active p).mpr (family.parent_active p q found)
  · intro q other started
    rw [active, gone] at started
    rw [parent]
    exact family.has_parent q other started
  · intro q free
    rw [parent]
    exact family.unused q ((unused q).mp free)
  · intro p np here
    rw [making, parent]
    exact family.embryo p np (embryo p np here)
  · intro p np here
    rw [making, parent]
    exact family.child p np (child p np here)
  · intro p q np first second
    exact family.made p q np (embryo p np first) (embryo q np second)
  · intro p inactive
    rw [active] at inactive
    rw [idle p inactive]
    exact family.idle p inactive
  · exact fun p here sleeping => (asleep p here sleeping).1
  · intro p q here sleeping found left
    rw [parent] at found
    exact (asleep p here sleeping).2 q found ((gone q).mp left)

variable {p np : Fin NPROC}

theorem ne_of_active {q : Fin NPROC} (active : (t p).state.Active)
    (still : ¬ (t q).state.Active) : p ≠ q := by
  rintro rfl
  exact still active

theorem embryo_still (empty : (t np).state = .EMBRYO) : ¬ (t np).state.Active := by
  rw [empty]
  decide

/-- No other call works on the slot. -/
theorem alone (family : Family t)
    (mine : (t p).point = .embryo np ∨ (t p).point = .child np ∨ (t np).state ≠ .EMBRYO)
    (q : Fin NPROC) (other : q ≠ p) : (t q).point ≠ .embryo np /\ (t q).point ≠ .child np := by
  have first := family.child p np
  have second := family.child q np
  grind [family.embryo, family.made]

/-- A call that makes a child, or that reaps one, changes the slot and goes on. -/
theorem fills (family : Family t) {l : Proc} {point : Point} (running : (t p).state.Active)
    (still : ¬ (t np).state.Active)
    (alone : ∀ q, q ≠ p -> (t q).point ≠ .embryo np /\ (t q).point ≠ .child np)
    (idle : l.point = .user) (stays : l.state ≠ .ZOMBIE)
    (free : l.state = .UNUSED -> l.parent = none)
    (parent : l.parent = none /\ ¬ l.state.Active ∨ l.parent = some p)
    (goes : point = .user ∨ point = .embryo np /\ l.state = .EMBRYO /\ l.parent = none ∨
      point = .child np /\ l.state = .EMBRYO /\ l.parent = some p) :
    Family (both t p np l point) := by
  have apart : p ≠ np := ne_of_active running still
  have notInit : initproc ≠ np := ne_of_active family.init_active still
  have childless : ∀ q, (t q).parent ≠ some np := fun q found => still (family.parent_active np q found)
  have others : ∀ q, q ≠ p -> q ≠ np -> both t p np l point q = t q := fun q => both_others
  have child : both t p np l point np = l := both_child apart
  have caller : both t p np l point p = { t p with point := point } := both_caller apart
  generalize both t p np l point = t' at others child caller
  constructor
  · grind [family.init_active]
  · grind [family.init_parent]
  · grind [family.init_stays]
  · grind [family.proper]
  · grind [family.parent_active]
  · grind [family.has_parent]
  · grind [family.unused]
  · grind [family.embryo]
  · grind [family.child]
  · grind [family.made]
  · grind [family.idle]
  · grind [family.asleep]
  · grind [family.awake]

/-- `exit` leaves its children to `initproc`, and wakes who waits for it or for them. -/
theorem leaves (family : Family t) (other : p ≠ initproc) (running : (t p).state.Active)
    (exiting : (t p).point = .exiting)
    (others : ∀ q, q ≠ p ->
      (t' q).point = (t q).point /\ (t' q).chan = (t q).chan /\
      ((t' q).state = (t q).state ∨ (t q).state = .SLEEPING /\ (t' q).state = .RUNNABLE))
    (parents : ∀ q, (t' q).parent = if (t q).parent = some p then some initproc else (t q).parent)
    (state : (t' p).state = .ZOMBIE) (point : (t' p).point = .user)
    (told : ∀ q, (t p).parent = some q -> (t' q).state = .SLEEPING -> (t' q).chan ≠ some (.proc q))
    (inherited : ∀ q, (t q).parent = some p -> (t q).state = .ZOMBIE ->
      (t' initproc).state = .SLEEPING -> (t' initproc).chan ≠ some (.proc initproc)) :
    Family t' := by
  have active : ∀ q, q ≠ p -> ((t' q).state.Active <-> (t q).state.Active) := by grind [ProcState.Active]
  constructor
  · exact (active initproc other.symm).mpr family.init_active
  · grind [family.init_parent]
  · grind [family.init_stays]
  · grind [family.proper, family.init_parent]
  · grind [family.parent_active, family.init_active]
  · grind [family.has_parent]
  · grind [family.unused]
  · grind [family.embryo, ProcState.Active]
  · grind [family.child, ProcState.Active]
  · grind [family.made]
  · grind [family.idle]
  · grind [family.asleep]
  · intro q child here sleeping found left
    have apart : q ≠ p := by
      rintro rfl
      rw [point] at here
      cases here
    rcases others q apart with ⟨samePoint, sameChan, change⟩
    rw [samePoint] at here
    have slept : (t q).state = .SLEEPING := by grind
    have chan : (t' q).chan = some (.proc q) := sameChan.trans (family.asleep q here slept)
    rw [parents child] at found
    split at found
    next abandoned =>
      cases found
      have gone : (t child).state = .ZOMBIE := by grind [family.proper]
      exact inherited child abandoned gone sleeping chan
    next kept =>
      by_cases self : child = p
      · rw [self] at found
        exact told q found sleeping chan
      · have gone : (t child).state = .ZOMBIE := by grind
        exact family.awake q child here slept found gone

end Family

/-! ## The section of `exit` -/

theorem wake_state (chan : Chan) (l : Proc) :
    (wake chan l).state = l.state ∨ l.state = .SLEEPING /\ (wake chan l).state = .RUNNABLE := by
  unfold wake
  split
  next woken => exact .inr ⟨woken.1, rfl⟩
  next => exact .inl rfl

theorem wake_told (chan : Chan) (l : Proc) (sleeping : (wake chan l).state = .SLEEPING) :
    (wake chan l).chan ≠ some chan := by
  unfold wake at sleeping ⊢
  split at sleeping
  next => cases sleeping
  next still =>
    rw [if_neg still]
    exact fun same => still ⟨sleeping, same⟩

@[simp] theorem wake_parent (chan : Chan) (l : Proc) : (wake chan l).parent = l.parent := by
  unfold wake
  split <;> rfl

@[simp] theorem wake_pid (chan : Chan) (l : Proc) : (wake chan l).pid = l.pid := by
  unfold wake
  split <;> rfl

@[simp] theorem wake_chan (chan : Chan) (l : Proc) : (wake chan l).chan = l.chan := by
  unfold wake
  split <;> rfl

@[simp] theorem wake_point (chan : Chan) (l : Proc) : (wake chan l).point = l.point := by
  unfold wake
  split <;> rfl

/-- Some processes have been woken, and children of `p` in `slots` have been left to `initproc`. -/
structure Passed (p : Fin NPROC) (slots : List (Fin NPROC)) (t t' : Fin NPROC -> Proc) : Prop where
  pid : ∀ q, (t' q).pid = (t q).pid
  chan : ∀ q, (t' q).chan = (t q).chan
  point : ∀ q, (t' q).point = (t q).point
  state : ∀ q, (t' q).state = (t q).state ∨ (t q).state = .SLEEPING /\ (t' q).state = .RUNNABLE
  parent : ∀ q, (t' q).parent = if q ∈ slots /\ (t q).parent = some p then some initproc else (t q).parent
  told : ∀ q, q ∈ slots -> (t q).parent = some p -> (t q).state = .ZOMBIE ->
    (t' initproc).state = .SLEEPING -> (t' initproc).chan ≠ some (.proc initproc)

namespace Passed

variable {p : Fin NPROC} {slots : List (Fin NPROC)} {t t' u : Fin NPROC -> Proc}

theorem zombie (passed : Passed p slots t t') (q : Fin NPROC) :
    (t' q).state = .ZOMBIE <-> (t q).state = .ZOMBIE := by
  rcases passed.state q with same | ⟨before, after⟩
  · rw [same]
  · rw [before, after]
    decide

theorem sleeping (passed : Passed p slots t t') {q : Fin NPROC}
    (asleep : (t' q).state = .SLEEPING) : (t q).state = .SLEEPING := by
  rcases passed.state q with same | ⟨before, _⟩
  · exact same ▸ asleep
  · exact before

theorem wakeup1 (p : Fin NPROC) (t : Fin NPROC -> Proc) (chan : Chan) :
    Passed p [] t (wakeup1 t chan) where
  pid := fun q => wake_pid chan (t q)
  chan := fun q => wake_chan chan (t q)
  point := fun q => wake_point chan (t q)
  state := fun q => wake_state chan (t q)
  parent := by
    intro q
    rw [if_neg (fun both => List.not_mem_nil both.1)]
    exact wake_parent chan (t q)
  told := fun q listed => absurd listed List.not_mem_nil

theorem hit (p : Fin NPROC) (t : Fin NPROC -> Proc) (q : Fin NPROC) :
    Passed p [] t (update t q (hit (t q))) := by
  have others : ∀ r, r ≠ q -> update t q (Table.hit (t q)) r = t r :=
    fun r ne => update_of_ne ne _ _
  have here : update t q (Table.hit (t q)) q = Table.hit (t q) := update_self _ _ _
  constructor <;> grind [Table.hit]

theorem trans {slots' : List (Fin NPROC)} (first : Passed p slots t t')
    (second : Passed p slots' t' u) : Passed p (slots ++ slots') t u where
  pid := fun q => (second.pid q).trans (first.pid q)
  chan := fun q => (second.chan q).trans (first.chan q)
  point := fun q => (second.point q).trans (first.point q)
  state := by
    intro q
    rcases first.state q with same | ⟨before, after⟩
    · rw [<- same]
      exact second.state q
    · rcases second.state q with same | ⟨sleeping, _⟩
      · exact .inr ⟨before, same.trans after⟩
      · rw [after] at sleeping
        cases sleeping
  parent := by
    intro q
    rw [second.parent, first.parent]
    grind
  told := by
    intro q listed mine gone asleep
    rw [second.chan]
    have slept := second.sleeping asleep
    rcases List.mem_append.mp listed with inFirst | inSecond
    · exact first.told q inFirst mine gone slept
    · by_cases inFirst : q ∈ slots
      · exact first.told q inFirst mine gone slept
      · have still : (t' q).parent = some p := by
          rw [first.parent, if_neg (fun both => inFirst both.1)]
          exact mine
        rw [<- second.chan]
        exact second.told q inSecond still ((first.zombie q).mpr gone) asleep

/-- One turn of the loop. -/
theorem abandon (p : Fin NPROC) (t : Fin NPROC -> Proc) (q : Fin NPROC) :
    Passed p [q] t (abandon p t q) := by
  have others : ∀ r, r ≠ q -> update t q { t q with parent := some initproc } r = t r :=
    fun r ne => update_of_ne ne _ _
  have here : update t q { t q with parent := some initproc } q = { t q with parent := some initproc } :=
    update_self _ _ _
  unfold Table.abandon
  split
  next mine =>
    generalize update t q { t q with parent := some initproc } = moved at others here
    dsimp only
    split
    next gone =>
      unfold Table.wakeup1
      constructor
      · grind [wake_pid]
      · grind [wake_chan]
      · grind [wake_point]
      · intro r
        have same : (moved r).state = (t r).state := by grind
        rw [<- same]
        exact wake_state _ (moved r)
      · intro r
        rw [wake_parent]
        grind
      · exact fun _ _ _ _ asleep => wake_told _ _ asleep
    next alive => constructor <;> grind
  next other => constructor <;> grind

theorem abandonAll (p : Fin NPROC) (slots : List (Fin NPROC)) (t : Fin NPROC -> Proc) :
    Passed p slots t (slots.foldl (Table.abandon p) t) := by
  induction slots generalizing t with
  | nil => constructor <;> simp
  | cons q slots ih => exact (abandon p t q).trans (ih (Table.abandon p t q))

end Passed

variable {s : State} {p : Fin NPROC} {t : Fin NPROC -> Proc}

theorem Family.exitSection (family : Family s.ptable) (other : p ≠ initproc)
    (running : (s.ptable p).state = .RUNNING) (exiting : (s.ptable p).point = .exiting) :
    Family (exitSection s p).ptable := by
  cases named : (s.ptable p).parent with
  | none => exact absurd named (family.has_parent p other (.inl (active_of_running running)))
  | some parent =>
    have first := Passed.wakeup1 p s.ptable (.proc parent)
    have second := Passed.abandonAll p (List.finRange NPROC) (wakeup1 s.ptable (.proc parent))
    have passed := first.trans second
    have told : ∀ q, (s.ptable p).parent = some q ->
        ((List.finRange NPROC).foldl (abandon p) (wakeup1 s.ptable (.proc parent)) q).state = .SLEEPING ->
        ((List.finRange NPROC).foldl (abandon p) (wakeup1 s.ptable (.proc parent)) q).chan ≠
          some (.proc q) := by
      intro q mine asleep
      rw [named] at mine
      cases mine
      rw [second.chan]
      exact wake_told _ _ (second.sleeping asleep)
    unfold Table.exitSection
    rw [named]
    dsimp only
    generalize (List.finRange NPROC).foldl (abandon p) (wakeup1 s.ptable (.proc parent)) =
      t at passed told
    apply family.leaves other (active_of_running running) exiting
    · intro q ne
      rw [update_of_ne ne]
      exact ⟨passed.point q, passed.chan q, passed.state q⟩
    · intro q
      have parents : (t q).parent =
          if (s.ptable q).parent = some p then some initproc else (s.ptable q).parent := by
        rw [passed.parent q]
        simp only [List.nil_append, List.mem_finRange, true_and]
      rw [<- parents]
      by_cases same : q = p
      · rw [same, update_self]
      · rw [update_of_ne same]
    · rw [update_self]
    · rw [update_self]
    · grind [update_apply, family.proper]
    · intro q mine gone asleep
      rw [update_of_ne (Ne.symm other)] at asleep ⊢
      exact passed.told q (by simp) mine gone asleep
/-- Processes are woken. -/
theorem Family.roused {t' : Fin NPROC -> Proc} (family : Family t) (passed : Passed p [] t t') :
    Family t' := by
  apply family.goes
  · intro q
    rw [passed.parent, if_neg (fun both => List.not_mem_nil both.1)]
  · intro q
    rcases passed.state q with same | ⟨before, after⟩
    · exact .inl same
    · exact .inr ⟨.inl before, .inr (.inl after)⟩
  · intro exiting
    rw [<- passed.point]
    exact exiting
  · exact fun q _ => passed.point q
  · intro q np
    rw [passed.point]
    exact id
  · intro q np
    rw [passed.point]
    exact id
  · intro q sleeps sleeping
    rw [passed.point] at sleeps
    rw [passed.chan]
    have slept := passed.sleeping sleeping
    exact ⟨family.asleep q sleeps slept, fun child => family.awake q child sleeps slept⟩

theorem Family.single (family : Family t) {l : Proc} (active : (t p).state.Active)
    (active' : l.state.Active) (parent : l.parent = (t p).parent)
    (point : l.point = (t p).point ∨ l.point = .user ∨ l.point = .waiting ∨
      l.point = .exiting /\ p ≠ initproc ∨ l.point = .asleep)
    (asleep : l.point = .asleep -> l.state = .SLEEPING ->
      l.chan = some (.proc p) /\ ∀ q, (t q).parent = some p -> (t q).state ≠ .ZOMBIE) :
    Family (update t p l) := by
  have others : ∀ q, q ≠ p -> update t p l q = t q := fun q ne => update_of_ne ne _ _
  have here : update t p l p = l := update_self _ _ _
  generalize update t p l = t' at others here
  apply family.goes
  · grind
  · grind
  · grind
  · grind
  · grind
  · grind
  · intro q sleeps sleeping
    by_cases same : q = p
    · subst q
      rw [here] at sleeps sleeping ⊢
      exact asleep sleeps sleeping
    · rw [others q same] at sleeps sleeping ⊢
      exact ⟨family.asleep q sleeps sleeping, fun child mine => family.awake q child sleeps sleeping mine⟩

theorem zombie_some {q : Fin NPROC} (found : zombie t p = some q) :
    (t q).parent = some p /\ (t q).state = .ZOMBIE := by
  have accepted := List.find?_some found
  simpa only [decide_eq_true_eq] using accepted

theorem zombie_none (none : zombie t p = none) (q : Fin NPROC)
    (mine : (t q).parent = some p) : (t q).state ≠ .ZOMBIE := by
  have refused := List.find?_eq_none.mp none q (List.mem_finRange q)
  simp only [decide_eq_true_eq] at refused
  exact fun gone => refused ⟨mine, gone⟩
theorem allocproc_some {np : Fin NPROC} (found : allocproc t = some np) :
    (t np).state = .UNUSED := by
  have accepted := List.find?_some found
  simpa only [decide_eq_true_eq] using accepted
/-! ## What a step does -/

/-- What one step can do to the table. -/
inductive Change (s : State) : State -> Prop
  | stays : Change s s
  | goes (p : Fin NPROC) (l : Proc) (active : (s.ptable p).state.Active) (active' : l.state.Active)
      (pid : l.pid = (s.ptable p).pid) (parent : l.parent = (s.ptable p).parent)
      (point : l.point = (s.ptable p).point ∨ l.point = .user ∨ l.point = .waiting ∨
        l.point = .exiting /\ p ≠ initproc ∨ l.point = .asleep)
      (awake : l.point = .asleep -> l.state ≠ .SLEEPING) : Change s (setProc s p l)
  | rouses (ptable : Fin NPROC -> Proc) (roused : Passed initproc [] s.ptable ptable) :
      Change s { s with ptable := ptable }
  | takes (p np : Fin NPROC) (running : (s.ptable p).state = .RUNNING)
    (free : (s.ptable np).state = .UNUSED) :
      Change s { s with
        ptable := both s.ptable p np { s.ptable np with state := .EMBRYO, pid := s.nextpid } (.embryo np)
        nextpid := s.nextpid + 1
        allocations := s.allocations + 1 }
  | fails (p np : Fin NPROC) (running : (s.ptable p).state = .RUNNING)
    (making : (s.ptable p).point = .embryo np) :
      Change s { s with ptable := both s.ptable p np { s.ptable np with state := .UNUSED } .user }
  | copies (p np : Fin NPROC) (running : (s.ptable p).state = .RUNNING)
    (making : (s.ptable p).point = .embryo np) :
      Change s { s with ptable := both s.ptable p np { s.ptable np with parent := some p } (.child np) }
  | starts (p np : Fin NPROC) (running : (s.ptable p).state = .RUNNING)
    (making : (s.ptable p).point = .child np) :
      Change s { s with ptable := both s.ptable p np { s.ptable np with state := .RUNNABLE } .user }
  | exits (p : Fin NPROC) (running : (s.ptable p).state = .RUNNING)
    (exiting : (s.ptable p).point = .exiting) :
      Change s (exitSection s p)
  | waits (p : Fin NPROC) (running : (s.ptable p).state = .RUNNING) : Change s (waitSection s p)
  | resumes (p : Fin NPROC) (ready : (s.ptable p).state = .RUNNABLE) :
      Change s (waitSection (setProc s p { s.ptable p with state := .RUNNING, chan := none }) p)

theorem Step.change {t : State} {label : Label} (step : Step s label t) : Change s t := by
  unfold Step perform at step
  cases label with
  | schedule p =>
    rcases Option.ite_none_right_eq_some.mp step with ⟨ready, step⟩
    split at step
    next =>
      cases step
      exact .resumes p ready
    next =>
      cases step
      exact .goes p _ (.inr (.inl ready)) (.inr (.inr rfl)) rfl rfl (.inl rfl) (by rintro _ ⟨⟩)
  | yield p =>
    rcases Option.ite_none_right_eq_some.mp step with ⟨running, step⟩
    cases step
    exact .goes p _ (active_of_running running) (.inr (.inl rfl)) rfl rfl (.inl rfl) (by rintro _ ⟨⟩)
  | sleep p address =>
    rcases Option.ite_none_right_eq_some.mp step with ⟨allowed, step⟩
    cases step
    refine .goes p _ (active_of_running allowed.1) (.inl rfl) rfl rfl (.inl rfl) (fun asleep => ?_)
    rcases allowed.2 with user | exiting
    · cases user.symm.trans asleep
    · cases exiting.symm.trans asleep
  | wakeup address =>
    cases step
    exact .rouses _ (Passed.wakeup1 initproc s.ptable (.other address))
  | fork p =>
    rcases Option.ite_none_right_eq_some.mp step with ⟨allowed, step⟩
    split at step
    next =>
      cases step
      exact .stays
    next np found =>
      cases step
      exact .takes p np allowed.1 (allocproc_some found)
  | forkFails p =>
    dsimp only at step
    split at step
    next np running making =>
      cases step
      exact .fails p np running making
    next => cases step
  | forkCopies p =>
    dsimp only at step
    split at step
    next np running making =>
      cases step
      exact .copies p np running making
    next => cases step
  | forkStarts p =>
    dsimp only at step
    split at step
    next np running making =>
      cases step
      exact .starts p np running making
    next => cases step
  | exit p =>
    rcases Option.ite_none_left_eq_some.mp step with ⟨other, step⟩
    rcases Option.ite_none_right_eq_some.mp step with ⟨allowed, step⟩
    have active := active_of_running allowed.1
    cases step
    exact .goes p _ active active rfl rfl (.inr (.inr (.inr (.inl ⟨rfl, other⟩)))) (by rintro ⟨⟩)
  | exitLocked p =>
    rcases Option.ite_none_right_eq_some.mp step with ⟨allowed, step⟩
    cases step
    exact .exits p allowed.1 allowed.2
  | wait p =>
    rcases Option.ite_none_right_eq_some.mp step with ⟨allowed, step⟩
    have active := active_of_running allowed.1
    cases step
    exact .goes p _ active active rfl rfl (.inr (.inr (.inl rfl))) (by rintro ⟨⟩)
  | waitLocked p =>
    rcases Option.ite_none_right_eq_some.mp step with ⟨allowed, step⟩
    cases step
    exact .waits p allowed.1
  | kill pid =>
    dsimp only at step
    split at step
    next =>
      cases step
      exact .stays
    next p found =>
      cases step
      exact .rouses _ (Passed.hit initproc s.ptable p)
  | fault p =>
    rcases Option.ite_none_right_eq_some.mp step with ⟨running, step⟩
    have active := active_of_running running
    cases step
    refine .goes p _ active active rfl rfl (.inl rfl) fun _ sleeping => ?_
    cases running.symm.trans sleeping

/-! ## Families last -/

theorem Family.waitSection (family : Family s.ptable)
    (running : (s.ptable p).state = .RUNNING) : Family (waitSection s p).ptable := by
  have active := active_of_running running
  unfold Table.waitSection
  cases found : zombie s.ptable p with
  | some q =>
    rcases zombie_some found with ⟨mine, left⟩
    have still : ¬ (s.ptable q).state.Active := by
      rw [left]
      decide
    exact family.fills active still (family.alone (.inr (.inr (by rw [left]; decide))))
      (family.idle q still)
      (by rintro ⟨⟩) (fun _ => rfl) (.inl ⟨rfl, show ¬ ProcState.UNUSED.Active by decide⟩) (.inl rfl)
  | none =>
    dsimp only
    split
    next =>
      apply family.single active
      · exact active
      · rfl
      · exact .inr (.inl rfl)
      · exact fun sleeps => nomatch sleeps
    next =>
      apply family.single active
      · exact .inl rfl
      · rfl
      · exact .inr (.inr (.inr (.inr rfl)))
      · exact fun _ _ => ⟨rfl, zombie_none found⟩
theorem Family.change {t : State} (family : Family s.ptable)
    (change : Change s t) : Family t.ptable := by
  cases change with
  | stays => exact family
  | goes p l before after pid parent point awake =>
    exact family.single before after parent point (fun asleep sleeping => absurd sleeping (awake asleep))
  | rouses ptable roused => exact family.roused roused
  | takes p np running free =>
    have still : ¬ (s.ptable np).state.Active := by
      rw [free]
      decide
    have orphan := family.unused np free
    exact family.fills (active_of_running running) still
      (family.alone (.inr (.inr (by rw [free]; decide))))
      (family.idle np still) (by rintro ⟨⟩) (fun _ => orphan)
      (.inl ⟨orphan, show ¬ ProcState.EMBRYO.Active by decide⟩) (.inr (.inl ⟨rfl, rfl, orphan⟩))
  | fails p np running making =>
    rcases family.embryo p np making with ⟨empty, orphan⟩
    have still := Family.embryo_still empty
    exact family.fills (active_of_running running) still (family.alone (.inl making))
      (family.idle np still)
      (by rintro ⟨⟩) (fun _ => orphan) (.inl ⟨orphan, show ¬ ProcState.UNUSED.Active by decide⟩)
        (.inl rfl)
  | copies p np running making =>
    rcases family.embryo p np making with ⟨empty, orphan⟩
    have still := Family.embryo_still empty
    refine family.fills (active_of_running running) still (family.alone (.inl making))
      (family.idle np still) ?_ ?_ (.inr rfl) (.inr (.inr ⟨rfl, empty, rfl⟩))
    · intro gone
      cases empty.symm.trans gone
    · intro free
      cases empty.symm.trans free
  | starts p np running making =>
    rcases family.child p np making with ⟨empty, mine⟩
    have still := Family.embryo_still empty
    exact family.fills (active_of_running running) still (family.alone (.inr (.inl making)))
      (family.idle np still) (by rintro ⟨⟩) (by rintro ⟨⟩) (.inr mine) (.inl rfl)
  | exits p running exiting =>
    have other : p ≠ initproc := by
      rintro rfl
      exact family.init_stays exiting
    exact family.exitSection other running exiting
  | waits p running => exact family.waitSection running
  | resumes p ready =>
    have chosen : Family (update s.ptable p { s.ptable p with state := .RUNNING, chan := none }) :=
      family.single (.inr (.inl ready)) (.inr (.inr rfl)) rfl (.inl rfl) (by rintro _ ⟨⟩)
    exact Family.waitSection chosen (congrArg Proc.state (update_self (β := fun _ => Proc) p _ _))

end Xv6.Table
