import Xv6.Table.Tree

namespace Xv6.Table

open Library
open Machine (NPROC Word)
open Function

/-!
# Pids and what `wait` returns

A pid is given to one process, and one call of `wait` returns it.
-/

/-- The pids that calls of `wait` have returned. -/
def reaped (s : State) : List Word := (s.returned.map Prod.snd).filter fun pid => pid ≠ -1

/-- Pids go up and are used once. -/
structure Numbered (s : State) : Prop where
  next : s.nextpid.toNat = s.allocations + 1
  given : ∀ q, (s.ptable q).state ≠ .UNUSED -> (s.ptable q).pid.toNat <= s.allocations
  distinct : ∀ p q, (s.ptable p).state ≠ .UNUSED -> (s.ptable q).state ≠ .UNUSED ->
    (s.ptable p).pid = (s.ptable q).pid -> p = q
  left : ∀ q, (s.ptable q).state = .ZOMBIE -> (s.ptable q).pid ∈ s.exited
  once : (reaped s).Nodup
  past : ∀ pid, pid ∈ reaped s -> pid.toNat <= s.allocations /\ pid ∈ s.exited
  free : ∀ q, (s.ptable q).state ≠ .UNUSED -> (s.ptable q).pid ∉ reaped s

namespace Numbered

variable {s t : State}

/-- No slot is taken and none is left. -/
theorem frame (numbered : Numbered s) (next : t.nextpid = s.nextpid)
    (allocations : t.allocations = s.allocations) (exited : t.exited = s.exited)
    (sameReaped : reaped t = reaped s)
    (pid : ∀ q, (t.ptable q).state ≠ .UNUSED ->
      (s.ptable q).state ≠ .UNUSED /\ (t.ptable q).pid = (s.ptable q).pid)
    (left : ∀ q, (t.ptable q).state = .ZOMBIE -> (s.ptable q).state = .ZOMBIE) : Numbered t where
  next := by
    rw [next, allocations]
    exact numbered.next
  given := by
    intro q used
    rw [(pid q used).2, allocations]
    exact numbered.given q (pid q used).1
  distinct := by
    intro p q first second same
    rw [(pid p first).2, (pid q second).2] at same
    exact numbered.distinct p q (pid p first).1 (pid q second).1 same
  left := by
    intro q gone
    rw [(pid q (by rw [gone]; decide)).2, exited]
    exact numbered.left q (left q gone)
  once := by
    rw [sameReaped]
    exact numbered.once
  past := by
    rw [sameReaped, allocations, exited]
    exact numbered.past
  free := by
    intro q used
    rw [(pid q used).2, sameReaped]
    exact numbered.free q (pid q used).1

/-- `allocproc` gives the next pid. -/
theorem takes (numbered : Numbered s) {np : Fin NPROC} (few : s.allocations + 1 < 2 ^ 31)
    (next : t.nextpid = s.nextpid + 1) (allocations : t.allocations = s.allocations + 1)
    (exited : t.exited = s.exited) (returned : t.returned = s.returned)
    (others : ∀ q, q ≠ np ->
      (t.ptable q).state = (s.ptable q).state /\ (t.ptable q).pid = (s.ptable q).pid)
    (state : (t.ptable np).state = .EMBRYO) (pid : (t.ptable np).pid = s.nextpid) : Numbered t := by
  have sameReaped : reaped t = reaped s := by rw [reaped, reaped, returned]
  have fresh : ∀ q, (s.ptable q).state ≠ .UNUSED -> (s.ptable q).pid ≠ s.nextpid := by
    intro q used same
    have bound := numbered.given q used
    rw [same, numbered.next] at bound
    omega
  constructor
  · have one : (1 : Word).toNat = 1 := by decide
    rw [next, allocations, BitVec.toNat_add, numbered.next, one]
    exact Nat.mod_eq_of_lt (by omega)
  · intro q used
    rw [allocations]
    by_cases same : q = np
    · rw [same, pid, numbered.next]
    · rw [(others q same).1] at used
      rw [(others q same).2]
      exact Nat.le_succ_of_le (numbered.given q used)
  · grind [numbered.distinct]
  · intro q gone
    have ne : q ≠ np := by
      rintro rfl
      exact nomatch state.symm.trans gone
    rw [(others q ne).1] at gone
    rw [(others q ne).2, exited]
    exact numbered.left q gone
  · rw [sameReaped]
    exact numbered.once
  · intro word listed
    rw [sameReaped] at listed
    rw [allocations, exited]
    exact ⟨Nat.le_succ_of_le (numbered.past word listed).1, (numbered.past word listed).2⟩
  · intro q used
    rw [sameReaped]
    by_cases same : q = np
    · rw [same, pid]
      intro listed
      have bound := (numbered.past _ listed).1
      rw [numbered.next] at bound
      omega
    · rw [(others q same).1] at used
      rw [(others q same).2]
      exact numbered.free q used

variable {p : Fin NPROC}

section

variable (numbered : Numbered s)

include numbered

/-- A process exits. -/
theorem leaves (next : t.nextpid = s.nextpid) (allocations : t.allocations = s.allocations)
    (exited : t.exited = s.exited ++ [(s.ptable p).pid]) (returned : t.returned = s.returned)
    (pid : ∀ q, (t.ptable q).pid = (s.ptable q).pid)
    (used : ∀ q, (t.ptable q).state ≠ .UNUSED -> (s.ptable q).state ≠ .UNUSED)
    (gone : ∀ q, (t.ptable q).state = .ZOMBIE -> q = p ∨ (s.ptable q).state = .ZOMBIE) :
    Numbered t := by
  have sameReaped : reaped t = reaped s := by rw [reaped, reaped, returned]
  constructor
  · rw [next, allocations]
    exact numbered.next
  · intro q isUsed
    rw [pid, allocations]
    exact numbered.given q (used q isUsed)
  · intro q r first second same
    rw [pid, pid] at same
    exact numbered.distinct q r (used q first) (used r second) same
  · intro q isGone
    rw [pid, exited]
    rcases gone q isGone with same | before
    · rw [same]
      exact List.mem_append_right _ (List.mem_singleton_self _)
    · exact List.mem_append_left _ (numbered.left q before)
  · rw [sameReaped]
    exact numbered.once
  · intro word listed
    rw [sameReaped] at listed
    rw [allocations, exited]
    exact ⟨(numbered.past word listed).1, List.mem_append_left _ (numbered.past word listed).2⟩
  · intro q isUsed
    rw [pid, sameReaped]
    exact numbered.free q (used q isUsed)

/-- `wait` returns the pid of a child. -/
theorem reaps {q : Fin NPROC} (left : (s.ptable q).state = .ZOMBIE) (few : s.allocations < 2 ^ 31)
    (next : t.nextpid = s.nextpid) (allocations : t.allocations = s.allocations)
    (exited : t.exited = s.exited) (returned : t.returned = s.returned ++ [(p, (s.ptable q).pid)])
    (others : ∀ r, r ≠ q ->
      (t.ptable r).state = (s.ptable r).state /\ (t.ptable r).pid = (s.ptable r).pid)
    (state : (t.ptable q).state = .UNUSED) : Numbered t := by
  have used : (s.ptable q).state ≠ .UNUSED := by
    rw [left]
    decide
  have pos : (s.ptable q).pid ≠ -1 := by
    intro same
    have bound := numbered.given q used
    rw [same] at bound
    have value : (-1 : Word).toNat = 2 ^ 32 - 1 := by decide
    omega
  have longer : reaped t = reaped s ++ [(s.ptable q).pid] := by
    rw [reaped, reaped, returned, List.map_append, List.filter_append]
    simp only [List.map_cons, List.map_nil, List.filter_cons, List.filter_nil, pos, ne_eq,
      not_false_eq_true,
      decide_true, if_true]
  have kept : ∀ r, (t.ptable r).state ≠ .UNUSED -> r ≠ q := by
    rintro r isUsed rfl
    exact isUsed state
  constructor
  · rw [next, allocations]
    exact numbered.next
  · intro r isUsed
    have ne := kept r isUsed
    rw [(others r ne).1] at isUsed
    rw [(others r ne).2, allocations]
    exact numbered.given r isUsed
  · intro r r' first second same
    rw [(others r (kept r first)).2, (others r' (kept r' second)).2] at same
    rw [(others r (kept r first)).1] at first
    rw [(others r' (kept r' second)).1] at second
    exact numbered.distinct r r' first second same
  · intro r gone
    have ne := kept r (by rw [gone]; decide)
    rw [(others r ne).1] at gone
    rw [(others r ne).2, exited]
    exact numbered.left r gone
  · rw [longer]
    exact List.nodup_append.mpr ⟨numbered.once, List.nodup_singleton _, by
      intro first listed second last
      rw [List.mem_singleton] at last
      rintro rfl
      rw [last] at listed
      exact numbered.free q used listed⟩
  · intro word listed
    rw [longer] at listed
    rw [allocations, exited]
    rcases List.mem_append.mp listed with before | last
    · exact numbered.past word before
    · rw [List.mem_singleton.mp last]
      exact ⟨numbered.given q used, numbered.left q left⟩
  · intro r isUsed listed
    have ne := kept r isUsed
    rw [(others r ne).1] at isUsed
    rw [(others r ne).2, longer] at listed
    rcases List.mem_append.mp listed with before | last
    · exact numbered.free r isUsed before
    · exact ne (numbered.distinct r q isUsed used (List.mem_singleton.mp last))

/-- A process goes on by itself. -/
theorem single {l : Proc} (used : (s.ptable p).state ≠ .UNUSED) (pid : l.pid = (s.ptable p).pid)
    (left : l.state = .ZOMBIE -> (s.ptable p).state = .ZOMBIE) : Numbered (setProc s p l) := by
  refine numbered.frame rfl rfl rfl rfl ?_ ?_
  · intro q isUsed
    by_cases same : q = p
    · subst q
      exact ⟨used, (congrArg Proc.pid (update_self (β := fun _ => Proc) p l s.ptable)).trans pid⟩
    · change (update s.ptable p l q).state ≠ _ at isUsed
      change _ /\ (update s.ptable p l q).pid = _
      rw [update_of_ne same] at isUsed ⊢
      exact ⟨isUsed, rfl⟩
  · intro q gone
    change (update s.ptable p l q).state = _ at gone
    by_cases same : q = p
    · subst q
      rw [update_self] at gone
      exact left gone
    · rw [update_of_ne same] at gone
      exact gone

/-- A call works on the slot of a child that it is making. -/
theorem pair {np : Fin NPROC} {l : Proc} {point : Point} (apart : p ≠ np)
    (used : (s.ptable np).state ≠ .UNUSED) (pid : l.pid = (s.ptable np).pid)
    (left : l.state ≠ .ZOMBIE) : Numbered { s with ptable := both s.ptable p np l point } := by
  have others : ∀ r, r ≠ np -> (both s.ptable p np l point r).state = (s.ptable r).state /\
      (both s.ptable p np l point r).pid = (s.ptable r).pid := fun r => both_keeps apart
  have child : both s.ptable p np l point np = l := both_child apart
  refine numbered.frame rfl rfl rfl rfl ?_ ?_
  · grind
  · grind

theorem waitSection (running : (s.ptable p).state = .RUNNING)
    (few : s.allocations < 2 ^ 31) : Numbered (waitSection s p) := by
  have used : (s.ptable p).state ≠ .UNUSED := by
    rw [running]
    decide
  unfold Table.waitSection
  cases found : zombie s.ptable p with
  | some q =>
    have left := (zombie_some found).2
    have apart : p ≠ q := by
      rintro rfl
      exact nomatch running.symm.trans left
    refine numbered.reaps left few rfl rfl rfl rfl ?_ ?_
    · exact fun r notChild => both_keeps apart notChild
    · change (both s.ptable p q _ _ q).state = _
      rw [both_child apart]
  | none =>
    dsimp only
    split
    next =>
      have went : Numbered (setProc s p { s.ptable p with point := .user }) := numbered.single used rfl id
      refine went.frame rfl rfl rfl ?_ ?_ ?_
      · rw [reaped, reaped, List.map_append, List.filter_append]
        exact List.append_nil _
      · exact fun q isUsed => ⟨isUsed, rfl⟩
      · exact fun q => id
    next => exact numbered.single used rfl (fun gone => nomatch gone)

theorem roused {ptable : Fin NPROC -> Proc} (passed : Passed p [] s.ptable ptable) :
    Numbered { s with ptable := ptable } := by
  refine numbered.frame rfl rfl rfl rfl ?_ ?_
  · intro q used
    refine ⟨?_, passed.pid q⟩
    rcases passed.state q with same | ⟨before, _⟩
    · exact same ▸ used
    · rw [before]
      decide
  · exact fun q => (passed.zombie q).mp

theorem exitSection (running : (s.ptable p).state = .RUNNING) : Numbered (exitSection s p) := by
  have leaves {slots : List (Fin NPROC)} {ptable : Fin NPROC -> Proc}
      (passed : Passed p slots s.ptable ptable) :
      Numbered { s with
        ptable := update ptable p { ptable p with state := .ZOMBIE, point := .user }
        exited := s.exited ++ [(s.ptable p).pid] } := by
    have others (q : Fin NPROC) (l : Proc) (ne : q ≠ p) : update ptable p l q = ptable q :=
      update_of_ne ne _ _
    refine numbered.leaves rfl rfl rfl rfl ?_ ?_ ?_ <;> dsimp only
    · grind [update_apply, passed.pid]
    · intro q used
      by_cases same : q = p
      · rw [same, running]
        decide
      · rw [others q _ same] at used
        rcases passed.state q with still | ⟨before, _⟩
        · exact still ▸ used
        · rw [before]
          decide
    · intro q gone
      by_cases same : q = p
      · exact .inl same
      · rw [others q _ same] at gone
        exact .inr ((passed.zombie q).mp gone)
  unfold Table.exitSection
  cases (s.ptable p).parent with
  | none => exact leaves (Passed.abandonAll p (List.finRange NPROC) s.ptable)
  | some parent =>
    exact leaves ((Passed.wakeup1 p s.ptable (.proc parent)).trans
      (Passed.abandonAll p (List.finRange NPROC) _))

end

end Numbered
theorem waitSection_allocations (s : State) (p : Fin NPROC) :
    (waitSection s p).allocations = s.allocations := by
  unfold waitSection
  split
  next => rfl
  next =>
    split
    next => rfl
    next => rfl
variable {s t : State}

theorem allocations_le (change : Change s t) : s.allocations <= t.allocations := by
  cases change with
  | takes => exact Nat.le_succ _
  | waits p => exact (waitSection_allocations s p).ge
  | resumes p => exact (waitSection_allocations (setProc s p _) p).ge
  | _ => exact le_rfl

theorem Numbered.change (family : Family s.ptable) (numbered : Numbered s)
    (few : t.allocations < 2 ^ 31) (change : Change s t) : Numbered t := by
  have apart : ∀ {p np}, (s.ptable p).state = .RUNNING -> (s.ptable np).state = .EMBRYO -> p ≠ np :=
    fun running empty => Family.ne_of_active (active_of_running running) (Family.embryo_still empty)
  cases change with
  | stays => exact numbered
  | goes p l before after pid parent point awake =>
    apply numbered.single _ pid
    · intro gone
      rw [gone] at after
      exact absurd after (by decide)
    · intro unused
      rw [unused] at before
      exact absurd before (by decide)
  | rouses ptable roused => exact numbered.roused roused
  | takes p np running free =>
    have apart : p ≠ np := Family.ne_of_active (active_of_running running) (by rw [free]; decide)
    refine numbered.takes few rfl rfl rfl rfl (fun r notChild => both_keeps apart notChild) ?_ ?_
    · exact congrArg Proc.state (both_child apart)
    · exact congrArg Proc.pid (both_child (l :=
        { s.ptable np with state := .EMBRYO, pid := s.nextpid }) apart)
  | fails p np running making =>
    have empty := (family.embryo p np making).1
    exact numbered.pair (apart running empty) (by rw [empty]; decide) rfl
      (fun gone => nomatch gone)
  | copies p np running making =>
    have empty := (family.embryo p np making).1
    exact numbered.pair (apart running empty) (by rw [empty]; decide) rfl
      (fun gone => nomatch empty.symm.trans gone)
  | starts p np running making =>
    have empty := (family.child p np making).1
    exact numbered.pair (apart running empty) (by rw [empty]; decide) rfl
      (fun gone => nomatch gone)
  | exits p running exiting => exact numbered.exitSection running
  | waits p running =>
    rw [waitSection_allocations] at few
    exact numbered.waitSection running few
  | resumes p ready =>
    have chosen : Numbered (setProc s p { s.ptable p with state := .RUNNING, chan := none }) :=
      numbered.single (by rw [ready]; decide) rfl (fun gone => nomatch gone)
    rw [waitSection_allocations] at few
    exact chosen.waitSection (congrArg Proc.state (update_self (β := fun _ => Proc) p _ _)) few

/-! ## What `wait` returns -/

/-- A call of `wait` by `p` returns `result` in this step. -/
def Returns (s t : State) (p : Fin NPROC) (result : Word) : Prop :=
  t.returned = s.returned ++ [(p, result)]

/-- The step returns from no call of `wait`, or it gives the pid of a child that has exited, or it
gives up. -/
def Answers (s t : State) : Prop :=
  t.returned = s.returned ∨
  (∃ p q, Returns s t p (s.ptable q).pid /\ (s.ptable q).parent = some p /\
    (s.ptable q).state = .ZOMBIE) ∨
  ∃ p, Returns s t p (-1) /\ ((∀ q, (s.ptable q).parent ≠ some p) ∨ (s.ptable p).killed = true)

theorem havekids_false {t : Fin NPROC -> Proc} {p : Fin NPROC} (none : havekids t p = false)
    (q : Fin NPROC) : (t q).parent ≠ some p := by
  have refused := List.any_eq_false.mp none q (List.mem_finRange q)
  simpa only [decide_eq_true_eq] using refused

theorem waitSection_answers (s : State) (p : Fin NPROC) : Answers s (waitSection s p) := by
  unfold waitSection
  split
  next q found => exact .inr (.inl ⟨p, q, rfl, zombie_some found⟩)
  next =>
    split
    next ended =>
      refine .inr (.inr ⟨p, rfl, ?_⟩)
      rcases ended with childless | killed
      · exact .inl (havekids_false childless)
      · exact .inr killed
    next => exact .inl rfl

/-- The scheduler's choice of `p` is no exit. -/
theorem Answers.of_chosen {p : Fin NPROC} (running : (s.ptable p).state ≠ .ZOMBIE)
    (answers : Answers (setProc s p { s.ptable p with state := .RUNNING, chan := none }) t) :
    Answers s t := by
  have others : ∀ q, q ≠ p ->
      (setProc s p { s.ptable p with state := .RUNNING, chan := none }).ptable q = s.ptable q :=
    fun q ne => update_of_ne ne _ _
  have here : (setProc s p { s.ptable p with state := .RUNNING, chan := none }).ptable p =
      { s.ptable p with state := .RUNNING, chan := none } := update_self _ _ _
  rcases answers with same | ⟨caller, q, gives, mine, gone⟩ | ⟨caller, gives, ended⟩
  · exact .inl same
  · have ne : q ≠ p := by
      rintro rfl
      rw [here] at gone
      cases gone
    rw [others q ne] at gives mine gone
    exact .inr (.inl ⟨caller, q, gives, mine, gone⟩)
  · refine .inr (.inr ⟨caller, gives, ?_⟩)
    grind

theorem Answers.of_change (change : Change s t) : Answers s t := by
  cases change with
  | waits p => exact waitSection_answers s p
  | resumes p ready => exact (waitSection_answers _ p).of_chosen (by rw [ready]; decide)
  | _ => exact .inl rfl

/-! ## Runs -/

theorem family_boot : Family boot.ptable := by
  have states : ∀ p, (boot.ptable p).state = .UNUSED ∨ p = initproc /\
      (boot.ptable p).state = .RUNNABLE := by
    intro p
    by_cases init : p = initproc
    · exact .inr ⟨init, if_pos init⟩
    · exact .inl (if_neg init)
  constructor
  · decide
  · rfl
  · decide
  · exact fun q named => nomatch named
  · exact fun p q named => nomatch named
  · intro q other started
    rcases states q with unused | ⟨same, _⟩
    · rw [unused] at started
      exact absurd started (by decide)
    · exact absurd same other
  · exact fun q _ => rfl
  · exact fun p np making => nomatch making
  · exact fun p np making => nomatch making
  · exact fun p q np making => nomatch making
  · exact fun p _ => rfl
  · exact fun p sleeps => nomatch sleeps
  · exact fun p q sleeps => nomatch sleeps

theorem numbered_boot : Numbered boot := by
  have init : ∀ p, (boot.ptable p).state ≠ .UNUSED -> p = initproc := by
    intro p used
    by_contra other
    exact used (if_neg other)
  constructor
  · decide
  · intro q used
    rw [init q used]
    decide
  · intro p q first second _
    rw [init p first, init q second]
  · intro q gone
    have same := init q (by rw [gone]; decide)
    rw [same] at gone
    cases gone
  · exact List.nodup_nil
  · exact fun pid listed => absurd listed List.not_mem_nil
  · exact fun q _ => List.not_mem_nil

/-- What every state of a run meets. -/
def Orderly (s : State) : Prop := Family s.ptable /\ (s.allocations < 2 ^ 31 -> Numbered s)

theorem run_orderly {labels : List Label} (run : GuardedRun Step (fun _ _ => True) boot labels s) :
    Orderly s := by
  have kept : ∀ (s : State) label t, True -> Step s label t -> Orderly s -> Orderly t := by
    intro s label t _ step orderly
    refine ⟨orderly.1.change step.change, fun few => ?_⟩
    have before := Nat.lt_of_le_of_lt (allocations_le step.change) few
    exact (orderly.2 before).change orderly.1 few step.change
  exact run.invariant kept ⟨family_boot, fun _ => numbered_boot⟩

/-- Every process has a parent that lives, until it is waited for once. -/
theorem children_reaped {labels : List Label} {s : State}
    (run : GuardedRun Step (fun _ _ => True) boot labels s) (few : s.allocations < 2 ^ 31) :
    (∀ q, q ≠ initproc -> (s.ptable q).state.Active ∨ (s.ptable q).state = .ZOMBIE -> ∃ p,
      (s.ptable q).parent = some p /\ (s.ptable p).state ≠ .UNUSED /\
      (s.ptable p).state ≠ .ZOMBIE) /\
    (∀ p q, (s.ptable p).state ≠ .UNUSED -> (s.ptable q).state ≠ .UNUSED ->
      (s.ptable p).pid = (s.ptable q).pid -> p = q) /\
    (reaped s).Nodup /\ (∀ pid, pid ∈ reaped s -> pid ∈ s.exited) /\
    (∀ label t, Step s label t -> Answers s t) /\
    ∀ p q, (s.ptable p).state = .SLEEPING -> (s.ptable p).point = .asleep ->
      (s.ptable q).parent = some p -> (s.ptable q).state ≠ .ZOMBIE := by
  rcases run_orderly run with ⟨family, numbered⟩
  have numbered := numbered few
  refine ⟨?_, numbered.distinct, numbered.once, fun pid listed => (numbered.past pid listed).2, ?_, ?_⟩
  · intro q other started
    rcases Option.ne_none_iff_exists'.mp (family.has_parent q other started) with ⟨p, named⟩
    refine ⟨p, named, ?_⟩
    have active := family.parent_active p q named
    constructor
    · intro unused
      rw [unused] at active
      exact absurd active (by decide)
    · intro gone
      rw [gone] at active
      exact absurd active (by decide)
  · exact fun label t step => Answers.of_change (Step.change step)
  · exact fun p q sleeping asleep => family.awake p q asleep sleeping

def slot1 : Fin NPROC := ⟨1, Machine.one_lt_NPROC⟩

def slot2 : Fin NPROC := ⟨2, by decide⟩

/-- The first process waits for a child, which leaves its own child behind. -/
def orphaned : List Label :=
  [.schedule initproc, .fork initproc, .forkCopies initproc, .forkStarts initproc, .wait initproc,
    .waitLocked initproc, .schedule slot1, .fork slot1, .forkCopies slot1, .forkStarts slot1,
      .schedule slot2,
    .exit slot2, .exitLocked slot2, .exit slot1, .exitLocked slot1, .schedule initproc]

theorem children_reaped_orphaned : ∃ s,
    GuardedRun Step (fun _ _ => True) boot orphaned s /\ s.allocations < 2 ^ 31 /\
    s.returned = [(initproc, 2)] /\
      (s.ptable slot2).state = .ZOMBIE /\ (s.ptable slot2).parent = some initproc /\
      (reaped s).Nodup := by
  have outcome : (checked (fun _ _ => True) perform boot orphaned).map
      (fun s => (s.allocations, s.returned, (s.ptable slot2).state, (s.ptable slot2).parent)) =
        some (3, [(initproc, 2)], .ZOMBIE, some initproc) := by
    decide +kernel
  rcases Option.map_eq_some_iff.mp outcome with ⟨s, done, values⟩
  simp only [Prod.mk.injEq] at values
  rcases values with ⟨count, returned, gone, parent⟩
  have run : GuardedRun Step (fun _ _ => True) boot orphaned s := GuardedRun.of_checked done
  have few : s.allocations < 2 ^ 31 := by
    rw [count]
    decide
  exact ⟨s, run, few, returned, gone, parent, (children_reaped run few).2.2.1⟩

end Xv6.Table
