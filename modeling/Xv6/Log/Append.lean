import Mathlib.Data.Fintype.Basic
import Xv6.Log.Group

namespace Xv6.Log.Append

open Library Machine
open Function

/-!
# `log_write` among other calls of `log_write`

`log_write` holds no lock.  Here every read and every write of `log.lh` is a
step of its own, and any number of calls take their steps in any order.  The
calls belong to admitted operations, so `log.outstanding` is positive and no
commit runs while they last.

A call that does not find its sector leaves the loop at the index where the
header ends, stores the sector there and then makes the header longer.  From
the one read of `lh.n` to the write of `lh.n` it is *appending*.  When no two
calls are appending at once no sector is lost; when two are, both store to the
same index.
-/

/-- The next read or write of a call. -/
inductive Pc where
  /-- `log.lh.n >= LOGSIZE` -/
  | check
  /-- `log.lh.n >= log.size - 1` -/
  | checkSize
  /-- `i < log.lh.n` -/
  | test (i : Nat)
  /-- `log.lh.sector[i] == b->sector` -/
  | compare (i : Nat)
  /-- `log.lh.sector[i] = b->sector` -/
  | store (i : Nat)
  /-- `i == log.lh.n` -/
  | last (i : Nat)
  /-- The read of `log.lh.n++`. -/
  | load
  /-- The write of `log.lh.n++`. -/
  | writeBack (n : Int)
  | returned
  deriving DecidableEq, Repr

variable {ι : Type}

structure State (ι : Type) where
  size : Int
  lh : Header
  pc : ι -> Pc
  /-- A call panicked, or stored past the end of `lh.sector[]`. -/
  stopped : Bool

variable [DecidableEq ι]

/-- A call goes on at `next`. -/
def goto (s : State ι) (c : ι) (next : Pc) : State ι := { s with pc := update s.pc c next }

def setSector (s : State ι) (i : Nat) (sector : Word) : State ι :=
  { s with lh := { s.lh with sector := update s.lh.sector i sector } }

def setN (s : State ι) (n : Int) : State ι := { s with lh := { s.lh with n := n } }

/-- The next step of the call `c`, whose buffer has sector `wanted c`. -/
def advance (wanted : ι -> Word) (s : State ι) (c : ι) : State ι :=
  match s.pc c with
  | .check => if (LOGSIZE : Int) <= s.lh.n then { s with stopped := true } else goto s c .checkSize
  | .checkSize => if s.size - 1 <= s.lh.n then { s with stopped := true } else goto s c (.test 0)
  | .test i => if (i : Int) < s.lh.n then goto s c (.compare i) else goto s c (.store i)
  | .compare i => if s.lh.sector i = wanted c then goto s c (.store i) else goto s c (.test (i + 1))
  | .store i =>
    if LOGSIZE <= i then { s with stopped := true }
    else goto (setSector s i (wanted c)) c (.last i)
  | .last i => if (i : Int) = s.lh.n then goto s c .load else goto s c .returned
  | .load => goto s c (.writeBack s.lh.n)
  | .writeBack n => goto (setN s (n + 1)) c .returned
  | .returned => s

def Step (wanted : ι -> Word) (s : State ι) (c : ι) (t : State ι) : Prop :=
  s.stopped = false /\ s.pc c ≠ .returned /\ t = advance wanted s c

/-- All calls are about to start. -/
def started (size : Int) (lh : Header) : State ι := ⟨size, lh, fun _ => .check, false⟩

/-- A call at this point is between the read of `lh.n` that ended its loop and its write of
`lh.n`. -/
def AppendsAt (n : Int) : Pc -> Prop
  | .store i => (i : Int) = n
  | .last i => (i : Int) = n
  | .load => True
  | .writeBack _ => True
  | _ => False

def Appending (s : State ι) (c : ι) : Prop := AppendsAt s.lh.n (s.pc c)

/-- The step is not one that starts appending while another call does. -/
def NoOverlap (s : State ι) (c : ι) : Prop :=
  match s.pc c with
  | .test i => s.lh.n <= i -> ∀ d, d ≠ c -> ¬ Appending s d
  | _ => True

instance (n : Int) (pc : Pc) : Decidable (AppendsAt n pc) := by
  cases pc <;> unfold AppendsAt <;> infer_instance

instance (s : State ι) (c : ι) : Decidable (Appending s c) :=
  inferInstanceAs (Decidable (AppendsAt _ _))

instance [Fintype ι] (s : State ι) (c : ι) : Decidable (NoOverlap s c) := by
  unfold NoOverlap
  split <;> infer_instance

/-! ## What a call knows -/

/-- The sector is not among the first `bound` of the header. -/
def Absent (lh : Header) (wanted : Word) (bound : Int) : Prop :=
  ∀ j : Nat, (j : Int) < bound -> lh.sector j ≠ wanted

def Present (lh : Header) (wanted : Word) (i : Nat) : Prop :=
  (i : Int) < lh.n /\ lh.sector i = wanted

/-- What the reads of a call so far say about the header. -/
def Knows (lh : Header) (wanted : Word) : Pc -> Prop
  | .check => True
  | .checkSize => True
  | .test i => (i : Int) <= lh.n /\ Absent lh wanted i
  | .compare i => (i : Int) < lh.n /\ Absent lh wanted i
  | .store i => Present lh wanted i ∨ (i : Int) = lh.n /\ Absent lh wanted lh.n
  | .last i => Present lh wanted i ∨ (i : Int) = lh.n /\ lh.sector i = wanted /\ Absent lh wanted lh.n
  | .load => lh.sector lh.n.toNat = wanted /\ Absent lh wanted lh.n
  | .writeBack n => n = lh.n /\ lh.sector lh.n.toNat = wanted /\ Absent lh wanted lh.n
  | .returned => ∃ i, Present lh wanted i

structure Inv (wanted : ι -> Word) (s : State ι) : Prop where
  positive : 0 <= s.lh.n
  distinct : ∀ i j : Nat, (i : Int) < s.lh.n -> (j : Int) < s.lh.n ->
    s.lh.sector i = s.lh.sector j -> i = j
  alone : ∀ c d, Appending s c -> Appending s d -> c = d
  knows : ∀ c, Knows s.lh (wanted c) (s.pc c)

section Steps

variable {wanted : ι -> Word} {s : State ι} {c : ι}

/-- A step that changes only the counter of its call. -/
theorem Inv.goto {next : Pc} (valid : Inv wanted s) (known : Knows s.lh (wanted c) next)
    (appends : Appending (goto s c next) c -> ∀ d, d ≠ c -> ¬ Appending s d) :
    Inv wanted (goto s c next) := by
  have other : ∀ d, d ≠ c -> Appending (Append.goto s c next) d -> Appending s d := by
    intro d apart
    exact (congrArg (AppendsAt s.lh.n) (update_of_ne apart next s.pc)).mp
  constructor
  · exact valid.positive
  · exact valid.distinct
  · intro d e first second
    by_cases left : d = c
    · by_cases right : e = c
      · exact left.trans right.symm
      · exact absurd (other e right second) (appends (left ▸ first) e right)
    · by_cases right : e = c
      · exact absurd (other d left first) (appends (right ▸ second) d left)
      · exact valid.alone d e (other d left first) (other e right second)
  · intro d
    change Knows s.lh (wanted d) (update s.pc c next d)
    by_cases this : d = c
    · rw [this, update_self]
      exact known
    · rw [update_of_ne this]
      exact valid.knows d

theorem not_appending_goto {next : Pc} (quiet : ¬ AppendsAt s.lh.n next) :
    Appending (Append.goto s c next) c -> ∀ d, d ≠ c -> ¬ Appending s d := by
  intro appends
  change AppendsAt s.lh.n (update s.pc c next c) at appends
  rw [update_self] at appends
  exact absurd appends quiet

omit [DecidableEq ι] in
theorem Inv.stop (valid : Inv wanted s) : Inv wanted { s with stopped := true } :=
  ⟨valid.positive, valid.distinct, valid.alone, valid.knows⟩

/-- While one call appends, the others keep to the part of the header that is already there. -/
theorem Knows.append {lh after : Header} {sector : Word} {pc : Pc} (known : Knows lh sector pc)
    (quiet : ∀ i, pc = .store i ∨ pc = .last i -> (i : Int) ≠ lh.n)
    (scanning : pc ≠ .load /\ ∀ n, pc ≠ .writeBack n) (longer : lh.n <= after.n)
    (same : ∀ j : Nat, (j : Int) < lh.n -> after.sector j = lh.sector j) :
    Knows after sector pc := by
  have absent : ∀ bound, bound <= lh.n -> Absent lh sector bound -> Absent after sector bound := by
    intro bound small missing j below
    rw [same j (by omega)]
    exact missing j below
  have present : ∀ i, Present lh sector i -> Present after sector i := by
    intro i here
    have bounded := here.1
    exact ⟨by omega, (same i bounded).trans here.2⟩
  cases pc with
  | check => trivial
  | checkSize => trivial
  | test i =>
    have bounded := known.1
    exact ⟨by omega, absent _ bounded known.2⟩
  | compare i =>
    have bounded := known.1
    exact ⟨by omega, absent _ (by omega) known.2⟩
  | store i =>
    cases known with
    | inl here => exact .inl (present i here)
    | inr ends => exact absurd ends.1 (quiet i (.inl rfl))
  | last i =>
    cases known with
    | inl here => exact .inl (present i here)
    | inr ends => exact absurd ends.1 (quiet i (.inr rfl))
  | load => exact absurd rfl scanning.1
  | writeBack n => exact absurd rfl (scanning.2 n)
  | returned =>
    rcases known with ⟨i, here⟩
    exact ⟨i, present i here⟩

theorem Knows.not_appendsAt_succ {lh : Header} {sector : Word} {pc : Pc}
    (known : Knows lh sector pc) (scanning : pc ≠ .load /\ ∀ n, pc ≠ .writeBack n) :
    ¬ AppendsAt (lh.n + 1) pc := by
  intro ends
  cases pc with
  | store i =>
    change (i : Int) = lh.n + 1 at ends
    cases known with
    | inl here =>
      have bounded := here.1
      omega
    | inr here => omega
  | last i =>
    change (i : Int) = lh.n + 1 at ends
    cases known with
    | inl here =>
      have bounded := here.1
      omega
    | inr here => omega
  | load => exact scanning.1 rfl
  | writeBack n => exact scanning.2 n rfl
  | _ => exact ends

omit [DecidableEq ι] in
/-- Beside an appending call no other is. -/
theorem Inv.scanning {d : ι} (valid : Inv wanted s) (appends : Appending s c) (apart : d ≠ c) :
    (∀ i, s.pc d = .store i ∨ s.pc d = .last i -> (i : Int) ≠ s.lh.n) /\
      s.pc d ≠ .load /\ ∀ n, s.pc d ≠ .writeBack n := by
  have quiet : ¬ AppendsAt s.lh.n (s.pc d) := fun too => apart (valid.alone d c too appends)
  refine ⟨?_, ?_, ?_⟩
  · intro i either ends
    cases either with
    | inl there =>
      rw [there] at quiet
      exact quiet ends
    | inr there =>
      rw [there] at quiet
      exact quiet ends
  · intro there
    rw [there] at quiet
    exact quiet trivial
  · intro n there
    rw [there] at quiet
    exact quiet trivial

/-- The store of an appending call. -/
theorem Inv.store {i : Nat} (valid : Inv wanted s) (there : s.pc c = .store i) :
    Inv wanted (Append.goto (setSector s i (wanted c)) c (.last i)) := by
  have known := valid.knows c
  rw [there] at known
  cases known with
  | inl here =>
    -- the sector is absorbed, and the header does not change
    have same : setSector s i (wanted c) = s := by
      rw [setSector, <- here.2, update_eq_self]
    rw [same]
    apply valid.goto
    · exact .inl here
    · intro ends
      change AppendsAt s.lh.n (update s.pc c (.last i) c) at ends
      rw [update_self] at ends
      exact absurd ends here.1.ne
  | inr ends =>
    have appends : Appending s c := by
      unfold Appending
      rw [there]
      exact ends.1
    have same : ∀ j : Nat, (j : Int) < s.lh.n -> update s.lh.sector i (wanted c) j = s.lh.sector j := by
      intro j below
      exact update_of_ne (by omega) _ _
    have other : ∀ d, d ≠ c -> update s.pc c (.last i) d = s.pc d :=
      fun d apart => update_of_ne apart _ _
    constructor
    · exact valid.positive
    · intro j k first second equal
      change update s.lh.sector i (wanted c) j = update s.lh.sector i (wanted c) k at equal
      rw [same j first, same k second] at equal
      exact valid.distinct j k first second equal
    · have only : ∀ d, Appending (Append.goto (setSector s i (wanted c)) c (.last i)) d -> d = c := by
        intro d again
        by_contra apart
        exact apart (valid.alone d c ((congrArg (AppendsAt s.lh.n) (other d apart)).mp again) appends)
      intro d e first second
      exact (only d first).trans (only e second).symm
    · intro d
      by_cases this : d = c
      · rw [this]
        change Knows _ (wanted c) (update s.pc c (.last i) c)
        rw [update_self]
        refine .inr ⟨ends.1, update_self _ _ _, ?_⟩
        intro j below
        exact ne_of_eq_of_ne (same j below) (ends.2 j below)
      · change Knows _ (wanted d) (update s.pc c (.last i) d)
        rw [other d this]
        rcases valid.scanning appends this with ⟨quiet, scanning⟩
        exact (valid.knows d).append quiet scanning le_rfl same

/-- The write that makes the header longer. -/
theorem Inv.writeBack {n : Int} (valid : Inv wanted s) (there : s.pc c = .writeBack n) :
    Inv wanted (Append.goto (setN s (n + 1)) c .returned) := by
  have known := valid.knows c
  rw [there] at known
  rcases known with ⟨rfl, stored, absent⟩
  have appends : Appending s c := by
    unfold Appending
    rw [there]
    trivial
  have pos := valid.positive
  have other : ∀ d, d ≠ c -> update s.pc c .returned d = s.pc d :=
    fun d apart => update_of_ne apart _ _
  constructor
  · change 0 <= s.lh.n + 1
    omega
  · intro j k first second equal
    change (j : Int) < s.lh.n + 1 at first
    change (k : Int) < s.lh.n + 1 at second
    change s.lh.sector j = s.lh.sector k at equal
    by_cases left : (j : Int) < s.lh.n
    · by_cases right : (k : Int) < s.lh.n
      · exact valid.distinct j k left right equal
      · have index : k = s.lh.n.toNat := by omega
        exact absurd (equal.trans (index ▸ stored)) (absent j left)
    · by_cases right : (k : Int) < s.lh.n
      · have index : j = s.lh.n.toNat := by omega
        exact absurd (equal.symm.trans (index ▸ stored)) (absent k right)
      · omega
  · -- nobody has read the new end of the header yet
    have none : ∀ d, ¬ Appending (Append.goto (setN s (s.lh.n + 1)) c .returned) d := by
      intro d again
      change AppendsAt (s.lh.n + 1) (update s.pc c .returned d) at again
      by_cases this : d = c
      · rw [this, update_self] at again
        exact again
      · rw [other d this] at again
        exact (valid.knows d).not_appendsAt_succ (valid.scanning appends this).2 again
    intro d _ first _
    exact absurd first (none d)
  · intro d
    by_cases this : d = c
    · rw [this]
      change Knows _ (wanted c) (update s.pc c .returned c)
      rw [update_self]
      refine ⟨s.lh.n.toNat, ?_, stored⟩
      change (s.lh.n.toNat : Int) < s.lh.n + 1
      omega
    · change Knows _ (wanted d) (update s.pc c .returned d)
      rw [other d this]
      rcases valid.scanning appends this with ⟨quiet, scanning⟩
      exact (valid.knows d).append quiet scanning (by change s.lh.n <= s.lh.n + 1; omega) fun _ _ => rfl

/-- Every step that does not overlap keeps the invariant. -/
theorem Inv.advance (valid : Inv wanted s) (apart : NoOverlap s c) :
    Inv wanted (advance wanted s c) := by
  have known := valid.knows c
  unfold Append.advance
  cases there : s.pc c with
  | check =>
    dsimp only
    by_cases full : (LOGSIZE : Int) <= s.lh.n
    · rw [if_pos full]
      exact valid.stop
    · rw [if_neg full]
      exact valid.goto trivial (not_appending_goto id)
  | checkSize =>
    dsimp only
    by_cases full : s.size - 1 <= s.lh.n
    · rw [if_pos full]
      exact valid.stop
    · rw [if_neg full]
      apply valid.goto
      · exact ⟨valid.positive, fun j below => absurd below (by omega)⟩
      · exact not_appending_goto id
  | test i =>
    dsimp only
    rw [there] at known
    by_cases more : (i : Int) < s.lh.n
    · rw [if_pos more]
      exact valid.goto ⟨more, known.2⟩ (not_appending_goto id)
    · rw [if_neg more]
      have ends : (i : Int) = s.lh.n := by
        have bounded := known.1
        omega
      apply valid.goto
      · exact .inr ⟨ends, ends ▸ known.2⟩
      · intro _
        rw [NoOverlap, there] at apart
        exact apart ends.ge
  | compare i =>
    dsimp only
    rw [there] at known
    by_cases found : s.lh.sector i = wanted c
    · rw [if_pos found]
      apply valid.goto
      · exact .inl ⟨known.1, found⟩
      · exact not_appending_goto fun ends => known.1.ne ends
    · rw [if_neg found]
      apply valid.goto
      · refine ⟨by have bounded := known.1; omega, ?_⟩
        intro j below
        by_cases same : j = i
        · exact same ▸ found
        · exact known.2 j (by omega)
      · exact not_appending_goto id
  | store i =>
    dsimp only
    by_cases past : LOGSIZE <= i
    · rw [if_pos past]
      exact valid.stop
    · rw [if_neg past]
      exact valid.store there
  | last i =>
    dsimp only
    rw [there] at known
    by_cases ends : (i : Int) = s.lh.n
    · rw [if_pos ends]
      have appends : Appending s c := by
        rw [Appending, there]
        exact ends
      have index : s.lh.n.toNat = i := by omega
      apply valid.goto
      · cases known with
        | inl here => exact absurd ends here.1.ne
        | inr here => exact ⟨index ▸ here.2.1, here.2.2⟩
      · intro _ d other again
        exact other (valid.alone d c again appends)
    · rw [if_neg ends]
      apply valid.goto
      · cases known with
        | inl here => exact ⟨i, here⟩
        | inr here => exact absurd here.1 ends
      · exact not_appending_goto id
  | load =>
    dsimp only
    rw [there] at known
    have appends : Appending s c := by
      rw [Appending, there]
      trivial
    apply valid.goto
    · exact ⟨rfl, known⟩
    · intro _ d other again
      exact other (valid.alone d c again appends)
  | writeBack n => exact valid.writeBack there
  | returned => exact valid

omit [DecidableEq ι] in
theorem inv_started {size : Int} {lh : Header} (pos : 0 <= lh.n)
    (distinct : ∀ i j :
      Nat, (i : Int) < lh.n -> (j : Int) < lh.n -> lh.sector i = lh.sector j -> i = j) :
    Inv wanted (started size lh) :=
  ⟨pos, distinct, fun _ _ wrong => wrong.elim, fun _ => trivial⟩

/-- When no two calls are appending at the same time, every sector is once in the header after the
calls. -/
theorem no_block_lost {size : Int} {lh : Header} {steps : List ι} (pos : 0 <= lh.n)
    (distinct : ∀ i j :
      Nat, (i : Int) < lh.n -> (j : Int) < lh.n -> lh.sector i = lh.sector j -> i = j)
    (run : GuardedRun (Step wanted) NoOverlap (started size lh) steps s)
    (done : ∀ c, s.pc c = .returned) : ∀ c, ∃! i, Present s.lh (wanted c) i := by
  have valid : Inv wanted s := by
    apply run.invariant
    · rintro state c next apart ⟨_, _, rfl⟩ valid
      exact valid.advance apart
    · exact inv_started pos distinct
  intro c
  have known := valid.knows c
  rw [done c] at known
  rcases known with ⟨i, here⟩
  refine ⟨i, here, ?_⟩
  intro j there
  exact valid.distinct j i there.1 here.1 (there.2.trans here.2.symm)

end Steps

/-- A step, when it is possible. -/
def attempt (wanted : ι -> Word) (s : State ι) (c : ι) : Option (State ι) :=
  if s.stopped = false /\ s.pc c ≠ .returned then some (advance wanted s c) else none

theorem attempt_step {wanted : ι -> Word} {s t : State ι} {c : ι}
    (run : attempt wanted s c = some t) : Step wanted s c t := by
  unfold attempt at run
  by_cases able : s.stopped = false /\ s.pc c ≠ .returned
  · rw [if_pos able] at run
    cases run
    exact ⟨able.1, able.2, rfl⟩
  · rw [if_neg able] at run
    cases run

def twoSectors : Bool -> Word
  | false => 40#32
  | true => 41#32

/-- One call leaves its loop only after the other has returned. -/
def inTurn : List Bool :=
  [false, true, true, false, false, false, false, false, false] ++ List.replicate 7 true

theorem no_block_lost_inTurn : ∃ s : State Bool,
    GuardedRun (Step twoSectors) NoOverlap (started LOGSIZE ⟨0, fun _ => 0#32⟩) inTurn s /\
      ∀ c, ∃! i, Present s.lh (twoSectors c) i := by
  have outcome : ∃ s : State Bool,
      checked NoOverlap (attempt twoSectors) (started LOGSIZE ⟨0, fun _ => 0#32⟩) inTurn = some s /\
        ∀ c, s.pc c = .returned := by
    refine ⟨_, rfl, ?_⟩
    decide
  rcases outcome with ⟨s, reached, done⟩
  have run := (GuardedRun.of_checked reached).imp fun _ _ _ => attempt_step
  exact ⟨s, run, no_block_lost le_rfl (fun i _ wrong => absurd wrong (by simp)) run done⟩

/-- Both calls leave their loops before either stores. -/
def together : List Bool :=
  List.replicate 3 false ++ List.replicate 3 true ++ List.replicate 4 false ++ List.replicate 2 true

/-- The call that stores first is lost, and the header has one sector after two calls. -/
theorem together_loses : ∃ s : State Bool,
    GuardedRun (Step twoSectors) (fun _ _ => True)
      (started LOGSIZE ⟨0, fun _ => 0#32⟩) together s /\
      (∀ c, s.pc c = .returned) /\ ¬ ∃ i, Present s.lh (twoSectors false) i := by
  have outcome : ∃ s : State Bool,
      checked (fun _ _ => True) (attempt twoSectors) (started LOGSIZE ⟨0, fun _ => 0#32⟩) together =
        some s /\
        (∀ c, s.pc c = .returned) /\ s.lh.n = 1 /\ s.lh.sector 0 = 41#32 := by
    refine ⟨_, rfl, ?_, rfl, rfl⟩
    decide
  rcases outcome with ⟨s, reached, done, count, sector⟩
  refine ⟨s, (GuardedRun.of_checked reached).imp fun _ _ _ => attempt_step, done, ?_⟩
  rintro ⟨i, bounded, same⟩
  have zero : i = 0 := by omega
  rw [zero, sector] at same
  exact absurd same (by decide)

end Xv6.Log.Append
