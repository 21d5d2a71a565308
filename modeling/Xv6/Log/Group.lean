import Mathlib.Data.Finset.Card
import Mathlib.Algebra.BigOperators.Group.Finset.Basic
import Mathlib.Algebra.Order.BigOperators.Group.Finset
import Xv6.Library.GuardedRun
import Xv6.Log.Crash

namespace Xv6.Log.Group

open Library Machine
open Function

/-!
# Group commit: `begin_op`, `end_op` and `log_write`

Any number of processes run operations of the file system.  `begin_op` and the
two locked parts of `end_op` hold `log.lock`, so each pass of the loop in
`begin_op`, and each part, is one step.  `commit` runs without the lock, and so
does `log_write`; each is taken as one step here, and what happens when
`log_write` is not one step is the subject of the module on appending.

Beside the fields of `log` a state records what happened: which operation put
which sector into which transaction, and what was committed.  No function of
the source reads these fields.
-/

/-! ## The functions of `log.c` -/

inductive Panic where
  | tooBigATransaction
  | outsideOfTrans
  | logCommitting
  deriving DecidableEq, Repr

/-- The fields of `struct log` that these functions read and write. -/
structure Fields where
  size : Int
  outstanding : Int
  committing : Bool
  lh : Header

/-- One pass of the loop in `begin_op`.  Without a result the process goes to sleep on `&log`. -/
def beginOp (log : Fields) : Option Fields :=
  if log.committing then none
  else if (LOGSIZE : Int) < log.lh.n + (log.outstanding + 1) * MAXOPBLOCKS then none
  else some { log with outstanding := log.outstanding + 1 }

/-- The first locked part of `end_op`, with the value of `do_commit`.  When that is false the part
ends with `wakeup(&log)`. -/
def endOp (log : Fields) : Except Panic (Fields × Bool) :=
  if log.committing then .error .logCommitting
  else if log.outstanding - 1 = 0 then
    .ok ({ log with outstanding := log.outstanding - 1, committing := true }, true)
  else
    .ok ({ log with outstanding := log.outstanding - 1 }, false)

/-- What `commit` does to the header in memory. -/
def commit (log : Fields) : Fields :=
  if 0 < log.lh.n then { log with lh := { log.lh with n := 0 } } else log

/-- The second locked part of `end_op`.  It ends with `wakeup(&log)`. -/
def endCommit (log : Fields) : Fields := { log with committing := false }

/-- The passes of the loop in `log_write` from `i` on: where it stops. -/
def scanFrom (sector : Nat -> Word) (wanted : Word) : Nat -> Nat -> Nat
  | 0, i => i
  | more + 1, i => if sector i = wanted then i else scanFrom sector wanted more (i + 1)

def logWrite (log : Fields) (wanted : Word) : Except Panic Fields :=
  if (LOGSIZE : Int) <= log.lh.n ∨ log.size - 1 <= log.lh.n then .error .tooBigATransaction
  else if log.outstanding < 1 then .error .outsideOfTrans
  else
    let i := scanFrom log.lh.sector wanted log.lh.n.toNat 0
    .ok { log with lh := { n := if (i : Int) = log.lh.n then log.lh.n + 1 else log.lh.n,
                           sector := update log.lh.sector i wanted } }

/-- The sectors of the transaction. -/
def sectors (lh : Header) : List Word := (List.range lh.n.toNat).map lh.sector

/-! ## Processes -/

/-- Where a process is. -/
inductive Pc where
  | idle
  /-- Asleep on `&log` in `begin_op`. -/
  | asleep
  /-- Woken, and about to take the lock again. -/
  | woken
  /-- Between its `begin_op` and its `end_op`. -/
  | inOp
  /-- In `end_op`, about to call `commit`. -/
  | lastOut
  /-- Back from `commit`. -/
  | afterCommit
  deriving DecidableEq, Repr

/-- One call of `log_write`: the operation, the number of commits before it, the sector. -/
structure Record where
  op : Nat
  transaction : Nat
  sector : Word
  deriving DecidableEq

variable {ι : Type}

structure State (ι : Type) where
  log : Fields
  pc : ι -> Pc
  panicked : Option Panic
  /-- The number of the operation that a process is in. -/
  op : ι -> Nat
  begun : Nat
  records : List Record
  /-- The sectors of each transaction committed so far. -/
  committed : List (List Word)

inductive Label (ι : Type) where
  | beginOp (p : ι)
  /-- A sleeper is woken without `wakeup(&log)`, as `kill` does. -/
  | wake (p : ι)
  | logWrite (p : ι) (sector : Word)
  | endOp (p : ι)
  | commit (p : ι)
  | endCommit (p : ι)

/-- `wakeup(&log)`. -/
def wakeup (pc : ι -> Pc) : ι -> Pc := fun p => if pc p = .asleep then .woken else pc p

/-- The steps that a process can take next. -/
def Enabled (s : State ι) : Label ι -> Prop
  | .beginOp p => s.pc p = .idle ∨ s.pc p = .woken
  | .wake p => s.pc p = .asleep
  | .logWrite p _ => s.pc p = .inOp
  | .endOp p => s.pc p = .inOp
  | .commit p => s.pc p = .lastOut
  | .endCommit p => s.pc p = .afterCommit

instance (s : State ι) (label : Label ι) : Decidable (Enabled s label) := by
  cases label <;> unfold Enabled <;> infer_instance

variable [DecidableEq ι]

def perform (s : State ι) : Label ι -> State ι
  | .beginOp p =>
    match beginOp s.log with
    | none => { s with pc := update s.pc p .asleep }
    | some log => { s with log := log, pc := update s.pc p .inOp,
                           op := update s.op p s.begun, begun := s.begun + 1 }
  | .wake p => { s with pc := update s.pc p .woken }
  | .logWrite p sector =>
    match logWrite s.log sector with
    | .error panic => { s with panicked := some panic }
    | .ok log => { s with log := log, records := ⟨s.op p, s.committed.length, sector⟩ :: s.records }
  | .endOp p =>
    match endOp s.log with
    | .error panic => { s with panicked := some panic }
    | .ok (log, true) => { s with log := log, pc := update s.pc p .lastOut }
    | .ok (log, false) => { s with log := log, pc := wakeup (update s.pc p .idle) }
  | .commit p => { s with log := commit s.log, pc := update s.pc p .afterCommit,
                          committed := s.committed ++ [sectors s.log.lh] }
  | .endCommit p => { s with log := endCommit s.log, pc := wakeup (update s.pc p .idle) }

/-- A panic stops every process. -/
def Step (s : State ι) (label : Label ι) (t : State ι) : Prop :=
  s.panicked = none /\ Enabled s label /\ t = perform s label

omit [DecidableEq ι] in
/-- The state after `initlog`, on a log of `size` blocks. -/
def started (size : Int) : State ι where
  log := ⟨size, 0, false, ⟨0, fun _ => 0#32⟩⟩
  pc := fun _ => .idle
  panicked := none
  op := fun _ => 0
  begun := 0
  records := []
  committed := []

/-! ## What the functions do -/

variable {after : Fields}

section Functions

theorem scanFrom_spec (sector : Nat -> Word) (wanted : Word) (more : Nat) : ∀ i,
    i <= scanFrom sector wanted more i /\ scanFrom sector wanted more i <= i + more /\
      (∀ j, i <= j -> j < scanFrom sector wanted more i -> sector j ≠ wanted) /\
      (scanFrom sector wanted more i < i + more ->
        sector (scanFrom sector wanted more i) = wanted) := by
  induction more with
  | zero =>
    intro i
    rw [scanFrom]
    exact ⟨by omega, by omega, fun j low high => by omega, fun short => by omega⟩
  | succ more step =>
    intro i
    rw [scanFrom]
    by_cases found : sector i = wanted
    · rw [if_pos found]
      exact ⟨by omega, by omega, fun j low high => by omega, fun _ => found⟩
    · rw [if_neg found]
      rcases step (i + 1) with ⟨low, high, missed, hit⟩
      refine ⟨by omega, by omega, ?_, fun short => hit (by omega)⟩
      intro j first second
      by_cases same : j = i
      · exact same ▸ found
      · exact missed j (by omega) second

variable {lh : Header} {wanted : Word} {log : Fields}

theorem mem_sectors : wanted ∈ sectors lh <-> ∃ i, i < lh.n.toNat /\ lh.sector i = wanted := by
  simp only [sectors, List.mem_map, List.mem_range]

/-- The state after `log_write` stored the sector at index `i`. -/
def stored (log : Fields) (i : Nat) (wanted : Word) : Fields :=
  { log with lh := { n := if (i : Int) = log.lh.n then log.lh.n + 1 else log.lh.n,
                     sector := update log.lh.sector i wanted } }

theorem logWrite_ok (run : logWrite log wanted = .ok after) :
    log.lh.n < LOGSIZE /\ log.lh.n < log.size - 1 /\ 1 <= log.outstanding /\
      after = stored log (scanFrom log.lh.sector wanted log.lh.n.toNat 0) wanted := by
  unfold logWrite at run
  by_cases full : (LOGSIZE : Int) <= log.lh.n ∨ log.size - 1 <= log.lh.n
  · rw [if_pos full] at run
    cases run
  · rw [if_neg full] at run
    by_cases outside : log.outstanding < 1
    · rw [if_pos outside] at run
      cases run
    · rw [if_neg outside] at run
      cases run
      exact ⟨by omega, by omega, by omega, rfl⟩

theorem logWrite_error {panic : Panic} (admitted : 1 <= log.outstanding)
    (run : logWrite log wanted = .error panic) :
    panic = .tooBigATransaction /\ ((LOGSIZE : Int) <= log.lh.n ∨ log.size - 1 <= log.lh.n) := by
  unfold logWrite at run
  by_cases full : (LOGSIZE : Int) <= log.lh.n ∨ log.size - 1 <= log.lh.n
  · rw [if_pos full] at run
    cases run
    exact ⟨rfl, full⟩
  · rw [if_neg full, if_neg (by omega)] at run
    cases run

/-- `log_write` absorbs a sector that the transaction has, and appends any other. -/
theorem sectors_logWrite (pos : 0 <= log.lh.n) (run : logWrite log wanted = .ok after) :
    sectors after.lh =
      if wanted ∈ sectors log.lh then sectors log.lh else sectors log.lh ++ [wanted] := by
  rcases logWrite_ok run with ⟨_, _, _, rfl⟩
  rcases scanFrom_spec log.lh.sector wanted log.lh.n.toNat 0 with ⟨_, high, missed, hit⟩
  generalize scanFrom log.lh.sector wanted log.lh.n.toNat 0 = index at high missed hit ⊢
  by_cases last : (index : Int) = log.lh.n
  · -- the scan went over the whole header
    have absent : wanted ∉ sectors log.lh := by
      intro found
      rcases mem_sectors.mp found with ⟨i, bounded, same⟩
      exact missed i (Nat.zero_le i) (by omega) same
    have whole : index = log.lh.n.toNat := by omega
    have length : (log.lh.n + 1).toNat = log.lh.n.toNat + 1 := by omega
    rw [if_neg absent, stored, sectors, if_pos last, length, List.range_succ, List.map_append, whole]
    congr 1
    · apply List.map_congr_left
      intro i bounded
      exact update_of_ne (List.mem_range.mp bounded).ne _ _
    · exact congrArg (fun sector => [sector]) (update_self _ _ _)
  · have short : index < 0 + log.lh.n.toNat := by omega
    have present : wanted ∈ sectors log.lh := mem_sectors.mpr ⟨index, by omega, hit short⟩
    rw [if_pos present, stored, if_neg last, <- hit short, update_eq_self]

theorem logWrite_frame (run : logWrite log wanted = .ok after) :
    after.size = log.size /\ after.outstanding = log.outstanding /\
      after.committing = log.committing /\ log.lh.n <= after.lh.n := by
  rcases logWrite_ok run with ⟨_, _, _, rfl⟩
  refine ⟨rfl, rfl, rfl, ?_⟩
  simp only [stored]
  split <;> omega

theorem sectors_length (pos : 0 <= lh.n) : ((sectors lh).length : Int) = lh.n := by
  rw [sectors, List.length_map, List.length_range]
  omega

theorem sectors_empty (none : lh.n = 0) : sectors lh = [] := by
  rw [sectors, none]
  rfl

theorem commit_frame (log : Fields) :
    (commit log).size = log.size /\ (commit log).outstanding = log.outstanding /\
      (commit log).committing = log.committing := by
  unfold commit
  split <;> exact ⟨rfl, rfl, rfl⟩

/-- The step `commit` is what `commit` with its disk writes does to the header, when it returns. -/
theorem commit_refines {s t : Log.State} (same : s.lh = log.lh) (run : Log.commit s = .ok () t) :
    t.lh = (commit log).lh := by
  rw [((commit_memory s).of_ok run).2, commit, same]
  split <;> rfl

theorem commit_n (pos : 0 <= log.lh.n) : (commit log).lh.n = 0 := by
  unfold commit
  by_cases some : 0 < log.lh.n
  · rw [if_pos some]
  · rw [if_neg some]
    omega

end Functions

/-! ## The flags, the counter and the sleepers -/

/-- A process that is committing. -/
def Committer (pc : Pc) : Prop := pc = .lastOut ∨ pc = .afterCommit

/-- The log has no room for one more operation now. -/
def Refuses (log : Fields) : Prop :=
  log.committing = true ∨ (LOGSIZE : Int) < log.lh.n + (log.outstanding + 1) * MAXOPBLOCKS

structure Control (log : Fields) (pc : ι -> Pc) : Prop where
  members : ∃ inside : Finset ι, (∀ p, p ∈ inside <-> pc p = .inOp) /\
    (inside.card : Int) = log.outstanding
  positive : 0 <= log.lh.n
  busy : ∀ p, Committer (pc p) -> log.committing = true
  alone : ∀ p q, Committer (pc p) -> Committer (pc q) -> p = q
  drained : log.committing = true -> log.outstanding = 0
  cleared : ∀ p, pc p = .afterCommit -> log.lh.n = 0
  quiet : log.outstanding = 0 -> log.committing = false -> log.lh.n = 0
  waiting : ∀ p, pc p = .asleep -> Refuses log

/-- The blocks that operations logged are where the log will commit them, or where it did. -/
structure History (s : State ι) : Prop where
  numbered : ∀ p, s.pc p = .inOp -> s.op p < s.begun
  distinct : ∀ p q, s.pc p = .inOp -> s.pc q = .inOp -> s.op p = s.op q -> p = q
  fresh : ∀ r, r ∈ s.records -> r.op < s.begun
  opened : ∀ r p, r ∈ s.records -> s.pc p = .inOp -> r.op = s.op p -> r.transaction = s.committed.length
  whole : ∀ r r', r ∈ s.records -> r' ∈ s.records -> r.op = r'.op -> r.transaction = r'.transaction
  placed : ∀ r, r ∈ s.records ->
    (r.transaction = s.committed.length /\ r.sector ∈ sectors s.log.lh) ∨
      ∃ blocks, s.committed[r.transaction]? = some blocks /\ r.sector ∈ blocks

variable {sector : Word} {next : Pc}

section Control

variable {log : Fields} {pc : ι -> Pc} {p : ι}

section

omit [DecidableEq ι]

theorem Control.none_inOp (valid : Control log pc) (none : log.outstanding = 0)
    (q : ι) : pc q ≠ .inOp := by
  rcases valid.members with ⟨inside, member, count⟩
  intro there
  have empty : inside = ∅ := Finset.card_eq_zero.mp (by omega)
  have found := (member q).mpr there
  rw [empty] at found
  exact absurd found (Finset.notMem_empty q)

theorem Control.admitted (valid : Control log pc) (there : pc p = .inOp) :
    1 <= log.outstanding := by
  rcases valid.members with ⟨inside, member, count⟩
  have pos : 0 < inside.card := Finset.card_pos.mpr ⟨p, (member p).mpr there⟩
  omega

theorem Control.not_committing (valid : Control log pc) (there : pc p = .inOp) :
    log.committing = false := by
  have some := valid.admitted there
  rw [Bool.eq_false_iff]
  intro busy
  have none := valid.drained busy
  omega

/-- While nobody commits, only the counter and the sleepers matter. -/
theorem Control.of_calm (members : ∃ inside : Finset ι, (∀ p, p ∈ inside <-> pc p = .inOp) /\
      (inside.card : Int) = log.outstanding) (pos : 0 <= log.lh.n) (calm : log.committing = false)
    (none : ∀ p, ¬ Committer (pc p)) (quiet : log.outstanding = 0 -> log.lh.n = 0)
    (waiting : ∀ p, pc p = .asleep -> Refuses log) : Control log pc where
  members := members
  positive := pos
  busy p there := absurd there (none p)
  alone p _ there := absurd there (none p)
  drained busy := Bool.noConfusion (calm.symm.trans busy)
  cleared p there := absurd (.inr there) (none p)
  quiet zero _ := quiet zero
  waiting := waiting

end

/-- A process outside of operations and commits. -/
theorem outside {pc : Pc} (there : pc = .idle ∨ pc = .asleep ∨ pc = .woken) :
    pc ≠ .inOp /\ ¬ Committer pc := by
  rcases there with rfl | rfl | rfl <;>
    exact ⟨Pc.noConfusion, fun wrong => wrong.elim Pc.noConfusion Pc.noConfusion⟩

/-- The process that moves does not commit after it, and the others do not. -/
theorem not_committer (after : ¬ Committer next) (others : ∀ q, q ≠ p -> ¬ Committer (pc q))
    (q : ι) : ¬ Committer (update pc p next q) := by
  by_cases this : q = p
  · rw [this, update_self]
    exact after
  · rw [update_of_ne this]
    exact others q this

omit [DecidableEq ι] in
/-- While an operation is open, nobody commits. -/
theorem Control.none_commits (valid : Control log pc) (calm : log.committing = false)
    (q : ι) : ¬ Committer (pc q) :=
  fun there => Bool.noConfusion (calm.symm.trans (valid.busy q there))

/-- A process moves without entering or leaving an operation or a commit. -/
theorem Control.move (valid : Control log pc) (before : pc p ≠ .inOp /\ ¬ Committer (pc p))
    (after : next ≠ .inOp /\ ¬ Committer next) (asleep : next = .asleep -> Refuses log) :
    Control log (update pc p next) := by
  have same : ∀ q, Committer (update pc p next q) -> Committer (pc q) := by
    intro q there
    by_cases this : q = p
    · rw [this, update_self] at there
      exact absurd there after.2
    · rwa [update_of_ne this] at there
  constructor
  · grind [update_apply, valid.members]
  · exact valid.positive
  · intro q there
    exact valid.busy q (same q there)
  · intro q r first second
    exact valid.alone q r (same q first) (same r second)
  · exact valid.drained
  · intro q there
    by_cases this : q = p
    · rw [this, update_self] at there
      exact absurd (.inr there) after.2
    · exact valid.cleared q (by rwa [update_of_ne this] at there)
  · exact valid.quiet
  · grind [update_apply, valid.waiting]

omit [DecidableEq ι] in
theorem beginOp_none (refused : beginOp log = none) : Refuses log := by
  unfold beginOp at refused
  by_cases busy : log.committing = true
  · exact .inl busy
  · rw [if_neg busy] at refused
    by_cases full : (LOGSIZE : Int) < log.lh.n + (log.outstanding + 1) * MAXOPBLOCKS
    · exact .inr full
    · rw [if_neg full] at refused
      cases refused

omit [DecidableEq ι] in
theorem beginOp_some (run : beginOp log = some after) :
    log.committing = false /\ log.lh.n + (log.outstanding + 1) * MAXOPBLOCKS <= LOGSIZE /\
      after = { log with outstanding := log.outstanding + 1 } := by
  unfold beginOp at run
  by_cases busy : log.committing = true
  · rw [if_pos busy] at run
    cases run
  · rw [if_neg busy] at run
    by_cases full : (LOGSIZE : Int) < log.lh.n + (log.outstanding + 1) * MAXOPBLOCKS
    · rw [if_pos full] at run
      cases run
    · rw [if_neg full] at run
      cases run
      exact ⟨Bool.eq_false_iff.mpr busy, by omega, rfl⟩

theorem Control.beginOp (valid : Control log pc) (before : pc p ≠ .inOp)
    (run : beginOp log = some after) : Control after (update pc p .inOp) := by
  rcases beginOp_some run with ⟨calm, _, rfl⟩
  rcases valid.members with ⟨inside, member, count⟩
  refine .of_calm ⟨insert p inside, ?_, ?_⟩ valid.positive calm
    (not_committer (by rintro (wrong | wrong) <;> cases wrong) fun q _ => valid.none_commits calm q) ?_ ?_
  · grind [update_apply]
  · rw [Finset.card_insert_of_notMem fun found => before ((member p).mp found)]
    change ((inside.card + 1 : Nat) : Int) = log.outstanding + 1
    omega
  · intro zero
    change log.outstanding + 1 = 0 at zero
    omega
  · intro q there
    by_cases this : q = p
    · rw [this, update_self] at there
      cases there
    · rw [update_of_ne this] at there
      cases valid.waiting q there with
      | inl busy => exact .inl busy
      | inr full =>
        refine .inr ?_
        change (LOGSIZE : Int) < log.lh.n + (log.outstanding + 1 + 1) * MAXOPBLOCKS
        simp only [MAXOPBLOCKS] at full ⊢
        omega

section

omit [DecidableEq ι]

theorem Control.logWrite (valid : Control log pc) (there : pc p = .inOp)
    (run : logWrite log sector = .ok after) : Control after pc := by
  rcases logWrite_frame run with ⟨_, outstanding, committing, grown⟩
  have pos := valid.positive
  have calm := valid.not_committing there
  have some := valid.admitted there
  constructor
  · rw [outstanding]
    exact valid.members
  · omega
  · rw [committing]
    exact valid.busy
  · exact valid.alone
  · rw [committing, outstanding]
    exact valid.drained
  · intro q done
    exact absurd (.inr done) (valid.none_commits calm q)
  · intro zero
    omega
  · intro q waits
    cases valid.waiting q waits with
    | inl busy => exact .inl (committing.trans busy)
    | inr full =>
      refine .inr ?_
      rw [outstanding]
      omega

theorem wakeup_eq_iff {q : ι} (next : Pc) (asleep : next ≠ .asleep) (woken : next ≠ .woken) :
    wakeup pc q = next <-> pc q = next := by
  unfold wakeup
  by_cases there : pc q = .asleep
  · rw [if_pos there, there]
    exact ⟨fun same => absurd same.symm woken, fun same => absurd same.symm asleep⟩
  · rw [if_neg there]

theorem wakeup_committer {q : ι} : Committer (wakeup pc q) <-> Committer (pc q) := by
  unfold Committer
  rw [wakeup_eq_iff .lastOut Pc.noConfusion Pc.noConfusion,
    wakeup_eq_iff .afterCommit Pc.noConfusion Pc.noConfusion]

theorem wakeup_ne_asleep (q : ι) : wakeup pc q ≠ .asleep := by
  unfold wakeup
  by_cases there : pc q = .asleep
  · rw [if_pos there]
    exact Pc.noConfusion
  · rwa [if_neg there]

end

/-- A process leaves its operation. -/
theorem members_erase {out : Int}
    (members : ∃ inside : Finset ι, (∀ q, q ∈ inside <-> pc q = .inOp) /\ (inside.card : Int) = out)
    (there : pc p = .inOp) (leaves : next ≠ .inOp) :
    ∃ inside : Finset ι, (∀ q, q ∈ inside <-> update pc p next q = .inOp) /\
      (inside.card : Int) = out - 1 := by
  rcases members with ⟨inside, member, count⟩
  have found := (member p).mpr there
  refine ⟨inside.erase p, ?_, ?_⟩
  · grind [update_apply]
  · have pos : 0 < inside.card := Finset.card_pos.mpr ⟨p, found⟩
    rw [Finset.card_erase_of_mem found]
    omega

theorem Control.endOp_left (valid : Control log pc) (there : pc p = .inOp)
    (more : log.outstanding - 1 ≠ 0) :
    Control { log with outstanding := log.outstanding - 1 } (wakeup (update pc p .idle)) := by
  have calm := valid.not_committing there
  refine .of_calm ?_ valid.positive calm (fun q busy => ?_) (fun zero => absurd zero more)
    fun q waits => absurd waits (wakeup_ne_asleep q)
  · simp only [wakeup_eq_iff .inOp Pc.noConfusion Pc.noConfusion]
    exact members_erase valid.members there Pc.noConfusion
  · exact not_committer (outside (.inl rfl)).2 (fun q _ => valid.none_commits calm q) q
      (wakeup_committer.mp busy)

theorem Control.endOp_last (valid : Control log pc) (there : pc p = .inOp)
    (last : log.outstanding - 1 = 0) :
    Control { log with outstanding := log.outstanding - 1, committing := true }
      (update pc p .lastOut) := by
  have calm := valid.not_committing there
  have only : ∀ q, Committer (update pc p .lastOut q) -> q = p := by
    intro q busy
    by_contra other
    rw [update_of_ne other] at busy
    exact valid.none_commits calm q busy
  constructor
  · exact members_erase valid.members there Pc.noConfusion
  · exact valid.positive
  · intro _ _
    rfl
  · intro q r first second
    exact (only q first).trans (only r second).symm
  · intro _
    exact last
  · intro q done
    have this := only q (.inr done)
    rw [this, update_self] at done
    cases done
  · intro _ wrong
    cases wrong
  · intro _ _
    exact .inl rfl

theorem Control.commit (valid : Control log pc) (there : pc p = .lastOut) :
    Control (commit log) (update pc p .afterCommit) := by
  rcases commit_frame log with ⟨_, outstanding, committing⟩
  have busy := valid.busy p (.inl there)
  have none := valid.none_inOp (valid.drained busy)
  have same : ∀ q, Committer (update pc p .afterCommit q) -> Committer (pc q) := by
    intro q commits
    by_cases this : q = p
    · exact this ▸ .inl there
    · rwa [update_of_ne this] at commits
  have zero := commit_n valid.positive
  constructor
  · grind [update_apply, valid.members]
  · omega
  · intro _ _
    exact committing.trans busy
  · intro q r first second
    exact valid.alone q r (same q first) (same r second)
  · intro _
    exact outstanding.trans (valid.drained busy)
  · intro _ _
    exact zero
  · intro _ _
    exact zero
  · intro _ _
    exact .inl (committing.trans busy)

theorem Control.endCommit (valid : Control log pc) (there : pc p = .afterCommit) :
    Control (endCommit log) (wakeup (update pc p .idle)) := by
  refine .of_calm ?_ valid.positive rfl (fun q busy => ?_) (fun _ => valid.cleared p there)
    fun q waits => absurd waits (wakeup_ne_asleep q)
  · simp only [wakeup_eq_iff .inOp Pc.noConfusion Pc.noConfusion]
    rcases valid.members with ⟨inside, member, count⟩
    refine ⟨inside, ?_, count⟩
    intro q
    by_cases this : q = p
    · rw [this, update_self, member p, there]
      exact ⟨fun wrong => Pc.noConfusion wrong, fun wrong => Pc.noConfusion wrong⟩
    · rw [update_of_ne this]
      exact member q
  · refine not_committer (outside (.inl rfl)).2 (fun q other commits => ?_) q (wakeup_committer.mp busy)
    exact other (valid.alone q p commits (.inr there))

end Control

/-! ## Operations and transactions -/

section History

variable {s : State ι} {p : ι}

omit [DecidableEq ι] in
/-- The history does not depend on how the processes outside operations move. -/
theorem History.recast {t : State ι} (valid : History s)
    (inside : ∀ q, t.pc q = .inOp -> s.pc q = .inOp) (op : t.op = s.op) (begun : t.begun = s.begun)
    (records : t.records = s.records) (committed : t.committed = s.committed)
    (lh : t.log.lh = s.log.lh) : History t := by
  constructor
  · intro q there
    rw [op, begun]
    exact valid.numbered q (inside q there)
  · intro q r first second
    rw [op]
    exact valid.distinct q r (inside q first) (inside r second)
  · rw [records, begun]
    exact valid.fresh
  · intro r q
    rw [records, op, committed]
    exact fun logged there => valid.opened r q logged (inside q there)
  · rw [records]
    exact valid.whole
  · rw [records, committed, lh]
    exact valid.placed

theorem update_inOp {pc : ι -> Pc} (leaves : next ≠ .inOp) (q : ι)
    (there : update pc p next q = .inOp) : pc q = .inOp := by
  by_cases this : q = p
  · rw [this, update_self] at there
    exact absurd there leaves
  · rwa [update_of_ne this] at there

theorem wakeup_inOp {pc : ι -> Pc} (q : ι)
    (there : wakeup (update pc p .idle) q = .inOp) : pc q = .inOp :=
  update_inOp Pc.noConfusion q ((wakeup_eq_iff .inOp Pc.noConfusion Pc.noConfusion).mp there)

theorem History.beginOp {log : Fields} (valid : History s) (run : beginOp s.log = some log) :
    History { s with log := log, pc := update s.pc p .inOp, op := update s.op p s.begun,
                     begun := s.begun + 1 } := by
  rcases beginOp_some run with ⟨_, _, rfl⟩
  have older : ∀ q, q ≠ p -> update s.pc p .inOp q = .inOp -> s.pc q = .inOp := by
    intro q other there
    rwa [update_of_ne other] at there
  constructor
  · intro q there
    change update s.op p s.begun q < s.begun + 1
    by_cases this : q = p
    · rw [this, update_self]
      omega
    · rw [update_of_ne this]
      have bound := valid.numbered q (older q this there)
      omega
  · intro q r first second
    change update s.op p s.begun q = update s.op p s.begun r -> q = r
    by_cases left : q = p
    · by_cases right : r = p
      · exact fun _ => left.trans right.symm
      · rw [left, update_self, update_of_ne right]
        have bound := valid.numbered r (older r right second)
        omega
    · by_cases right : r = p
      · rw [right, update_self, update_of_ne left]
        have bound := valid.numbered q (older q left first)
        omega
      · rw [update_of_ne left, update_of_ne right]
        exact valid.distinct q r (older q left first) (older r right second)
  · intro r logged
    have bound := valid.fresh r logged
    change r.op < s.begun + 1
    omega
  · intro r q logged there
    change r.op = update s.op p s.begun q -> _
    by_cases this : q = p
    · rw [this, update_self]
      have bound := valid.fresh r logged
      omega
    · rw [update_of_ne this]
      exact valid.opened r q logged (older q this there)
  · exact valid.whole
  · exact valid.placed

omit [DecidableEq ι] in
theorem History.logWrite {log : Fields} (valid : History s) (pos : 0 <= s.log.lh.n)
    (there : s.pc p = .inOp) (run : logWrite s.log sector = .ok log) :
    History
      { s with log := log, records := ⟨s.op p, s.committed.length, sector⟩ :: s.records } := by
  have grown := sectors_logWrite pos run
  have kept : ∀ other, other ∈ sectors s.log.lh -> other ∈ sectors log.lh := by
    intro other found
    rw [grown]
    by_cases present : sector ∈ sectors s.log.lh
    · rwa [if_pos present]
    · rw [if_neg present]
      exact List.mem_append_left _ found
  have added : sector ∈ sectors log.lh := by
    rw [grown]
    by_cases present : sector ∈ sectors s.log.lh
    · rwa [if_pos present]
    · rw [if_neg present]
      exact List.mem_append_right _ (List.mem_singleton.mpr rfl)
  constructor
  · exact valid.numbered
  · exact valid.distinct
  · intro r logged
    cases List.mem_cons.mp logged with
    | inl new =>
      subst new
      exact valid.numbered p there
    | inr old => exact valid.fresh r old
  · intro r q logged inside same
    cases List.mem_cons.mp logged with
    | inl new =>
      subst new
      rfl
    | inr old => exact valid.opened r q old inside same
  · intro r r' first second same
    cases List.mem_cons.mp first with
    | inl new =>
      cases List.mem_cons.mp second with
      | inl again => rw [new, again]
      | inr old =>
        subst new
        exact (valid.opened r' p old there same.symm).symm
    | inr old =>
      cases List.mem_cons.mp second with
      | inl new =>
        subst new
        exact valid.opened r p old there same
      | inr again => exact valid.whole r r' old again same
  · intro r logged
    cases List.mem_cons.mp logged with
    | inl new =>
      subst new
      exact .inl ⟨rfl, added⟩
    | inr old =>
      cases valid.placed r old with
      | inl current => exact .inl ⟨current.1, kept _ current.2⟩
      | inr past => exact .inr past

theorem History.commit (valid : History s) (none : ∀ q, s.pc q ≠ .inOp) :
    History { s with log := commit s.log, pc := update s.pc p .afterCommit,
                     committed := s.committed ++ [sectors s.log.lh] } := by
  have outside : ∀ q, update s.pc p .afterCommit q ≠ .inOp := by
    intro q there
    exact none q (update_inOp Pc.noConfusion q there)
  constructor
  · intro q there
    exact absurd there (outside q)
  · intro q _ there
    exact absurd there (outside q)
  · exact valid.fresh
  · intro _ q _ there
    exact absurd there (outside q)
  · exact valid.whole
  · intro r logged
    refine .inr ?_
    cases valid.placed r logged with
    | inl current =>
      refine ⟨sectors s.log.lh, ?_, current.2⟩
      change (s.committed ++ [sectors s.log.lh])[r.transaction]? = _
      rw [current.1, List.getElem?_concat_length]
    | inr past =>
      rcases past with ⟨blocks, found, member⟩
      refine ⟨blocks, ?_, member⟩
      change (s.committed ++ [sectors s.log.lh])[r.transaction]? = _
      have bounded : r.transaction < s.committed.length := (List.getElem?_eq_some_iff.mp found).1
      rw [List.getElem?_append_left bounded, found]

end History

/-! ## Runs -/

/-- What every step keeps. -/
structure Inv (s : State ι) : Prop where
  control : Control s.log s.pc
  history : History s

omit [DecidableEq ι] in
theorem inv_started (size : Int) : Inv (started size : State ι) := by
  constructor
  · refine .of_calm ⟨∅, fun p => ?_, rfl⟩ le_rfl rfl ?_ (fun _ => rfl) (by rintro _ ⟨⟩)
    · exact ⟨fun none => absurd none (Finset.notMem_empty p), fun wrong => Pc.noConfusion wrong⟩
    · rintro _ (wrong | wrong) <;> cases wrong
  · constructor
    · rintro _ ⟨⟩
    · rintro _ _ ⟨⟩
    · exact fun _ none => absurd none List.not_mem_nil
    · exact fun _ _ none => absurd none List.not_mem_nil
    · exact fun _ _ none => absurd none List.not_mem_nil
    · exact fun _ none => absurd none List.not_mem_nil

/-- What a step can do, with the conditions under which it does it. -/
inductive Moves (s : State ι) : Label ι -> State ι -> Prop where
  | refused (p : ι) (before : s.pc p = .idle ∨ s.pc p = .woken) (run : beginOp s.log = none) :
      Moves s (.beginOp p) { s with pc := update s.pc p .asleep }
  | admitted (p : ι) (log : Fields) (before : s.pc p = .idle ∨ s.pc p = .woken)
    (run : beginOp s.log = some log) :
      Moves s (.beginOp p) { s with log := log, pc := update s.pc p .inOp,
                                    op := update s.op p s.begun, begun := s.begun + 1 }
  | woken (p : ι) (there : s.pc p = .asleep) : Moves s (.wake p) { s with pc := update s.pc p .woken }
  | tooBig (p : ι) (sector : Word) (there : s.pc p = .inOp)
      (full : (LOGSIZE : Int) <= s.log.lh.n ∨ s.log.size - 1 <= s.log.lh.n) :
      Moves s (.logWrite p sector) { s with panicked := some .tooBigATransaction }
  | logged (p : ι) (sector : Word) (log : Fields) (there : s.pc p = .inOp)
    (run : logWrite s.log sector = .ok log) :
      Moves s (.logWrite p sector) { s with log := log,
                                            records := ⟨s.op p, s.committed.length, sector⟩ :: s.records }
  | left (p : ι) (there : s.pc p = .inOp) (more : s.log.outstanding - 1 ≠ 0) :
      Moves s (.endOp p) { s with log := { s.log with outstanding := s.log.outstanding - 1 },
                                  pc := wakeup (update s.pc p .idle) }
  | last (p : ι) (there : s.pc p = .inOp) (none : s.log.outstanding - 1 = 0) :
      Moves s (.endOp p)
        { s with log := { s.log with outstanding := s.log.outstanding - 1, committing := true },
                                  pc := update s.pc p .lastOut }
  | committed (p : ι) (there : s.pc p = .lastOut) :
      Moves s (.commit p) { s with log := commit s.log, pc := update s.pc p .afterCommit,
                                   committed := s.committed ++ [sectors s.log.lh] }
  | ended (p : ι) (there : s.pc p = .afterCommit) :
      Moves s (.endCommit p) { s with log := endCommit s.log, pc := wakeup (update s.pc p .idle) }

variable {s t : State ι} {label : Label ι}

/-- With an open operation `end_op` does not panic, and `log_write` only when the log is full. -/
theorem Control.moves (valid : Control s.log s.pc) (enabled : Enabled s label) :
    Moves s label (perform s label) := by
  cases label with
  | beginOp p =>
    cases run : Group.beginOp s.log with
    | none =>
      simp only [perform, run]
      exact .refused p enabled run
    | some log =>
      simp only [perform, run]
      exact .admitted p log enabled run
  | wake p => exact .woken p enabled
  | logWrite p sector =>
    cases run : Group.logWrite s.log sector with
    | error panic =>
      rcases logWrite_error (valid.admitted enabled) run with ⟨rfl, full⟩
      simp only [perform, run]
      exact .tooBig p sector enabled full
    | ok log =>
      simp only [perform, run]
      exact .logged p sector log enabled run
  | endOp p =>
    have calm := Bool.eq_false_iff.mp (valid.not_committing enabled)
    by_cases last : s.log.outstanding - 1 = 0
    · simp only [perform, endOp, if_neg calm, if_pos last]
      exact .last p enabled last
    · simp only [perform, endOp, if_neg calm, if_neg last]
      exact .left p enabled last
  | commit p => exact .committed p enabled
  | endCommit p => exact .ended p enabled

/-- Every step keeps the invariant. -/
theorem Inv.moves (valid : Inv s) (moves : Moves s label t) : Inv t := by
  have control := valid.control
  have history := valid.history
  cases moves with
  | refused p before run =>
    constructor
    · exact control.move (outside (before.imp_right .inr)) (outside (.inr (.inl rfl))) fun _ =>
        beginOp_none run
    · exact history.recast (update_inOp Pc.noConfusion) rfl rfl rfl rfl rfl
  | admitted p log before run =>
    exact ⟨control.beginOp (outside (before.imp_right .inr)).1 run, history.beginOp run⟩
  | woken p there =>
    constructor
    · exact control.move (outside (.inr (.inl there))) (outside (.inr (.inr rfl))) Pc.noConfusion
    · exact history.recast (update_inOp Pc.noConfusion) rfl rfl rfl rfl rfl
  | tooBig p sector there full =>
    exact ⟨control, history.recast (fun _ there => there) rfl rfl rfl rfl rfl⟩
  | logged p sector log there run =>
    exact ⟨control.logWrite there run, history.logWrite control.positive there run⟩
  | left p there more =>
    exact ⟨control.endOp_left there more, history.recast wakeup_inOp rfl rfl rfl rfl rfl⟩
  | last p there none =>
    exact ⟨control.endOp_last there none, history.recast (update_inOp Pc.noConfusion) rfl rfl rfl rfl rfl⟩
  | committed p there =>
    have none := control.none_inOp (control.drained (control.busy p (.inl there)))
    exact ⟨control.commit there, history.commit none⟩
  | ended p there => exact ⟨control.endCommit there, history.recast wakeup_inOp rfl rfl rfl rfl rfl⟩

theorem inv_run {guard : State ι -> Label ι -> Prop} {size : Int} {labels : List (Label ι)}
    (run : GuardedRun Step guard (started size) labels s) : Inv s := by
  apply run.invariant
  · intro state label next _ taken valid
    rcases taken with ⟨_, enabled, rfl⟩
    exact valid.moves (valid.control.moves enabled)
  · exact inv_started size

/-- Group commit keeps operations whole.  While a commit is under way no operation is open and
nothing is logged; all blocks of one operation go to one transaction, and each is in the header
until that transaction is committed and in the committed transaction from then on; the header is
empty when no operation is open and no commit is under way; and nobody sleeps whose operation would
be admitted. -/
theorem group_commit {size : Int} {labels : List (Label ι)} {s : State ι}
    (run : GuardedRun Step (fun _ _ => True) (started size) labels s) :
    (s.log.committing = true ->
      s.log.outstanding = 0 /\ ∀ p sector, ¬ Enabled s (.logWrite p sector)) /\
    (∀ r r', r ∈ s.records -> r' ∈ s.records -> r.op = r'.op -> r.transaction = r'.transaction) /\
    (∀ r, r ∈ s.records -> (r.transaction = s.committed.length /\ r.sector ∈ sectors s.log.lh) ∨
      ∃ blocks, s.committed[r.transaction]? = some blocks /\ r.sector ∈ blocks) /\
    (s.log.outstanding = 0 -> s.log.committing = false -> s.log.lh.n = 0) /\
    (∀ p, s.pc p = .asleep -> s.log.committing = false ->
      ¬ s.log.lh.n + (s.log.outstanding + 1) * MAXOPBLOCKS <= LOGSIZE) := by
  have valid := inv_run run
  refine ⟨?_, valid.history.whole, valid.history.placed, valid.control.quiet, ?_⟩
  · intro busy
    have drained := valid.control.drained busy
    exact ⟨drained, fun p _ there => valid.control.none_inOp drained p there⟩
  · intro p asleep calm fits
    cases valid.control.waiting p asleep with
    | inl busy => exact Bool.noConfusion (calm.symm.trans busy)
    | inr full => omega

/-- A step, when it is possible. -/
def attempt (s : State ι) (label : Label ι) : Option (State ι) :=
  if s.panicked = none /\ Enabled s label then some (perform s label) else none

theorem attempt_step (run : attempt s label = some t) : Step s label t := by
  unfold attempt at run
  by_cases able : s.panicked = none /\ Enabled s label
  · rw [if_pos able] at run
    cases run
    exact ⟨able.1, able.2, rfl⟩
  · rw [if_neg able] at run
    cases run

/-- Two operations that overlap. -/
def overlapping : List (Label Bool) :=
  [.beginOp false, .logWrite false 40#32, .beginOp true, .endOp false, .logWrite true 41#32,
    .endOp true, .commit true, .endCommit true]

theorem group_commit_overlapping : ∃ s : State Bool,
    GuardedRun Step (fun _ _ => True) (started LOGSIZE) overlapping s /\
    s.committed = [[40#32, 41#32]] /\
      (s.log.outstanding = 0 -> s.log.committing = false -> s.log.lh.n = 0) := by
  have done : ∃ s : State Bool, checked (fun _ _ => True) attempt (started LOGSIZE) overlapping =
      some s /\ s.committed = [[40#32, 41#32]] := ⟨_, rfl, rfl⟩
  rcases done with ⟨s, reached, committed⟩
  have run := (GuardedRun.of_checked reached).imp fun _ _ _ => attempt_step
  exact ⟨s, run, committed, (group_commit run).2.2.2.1⟩

/-! ## Admission control -/

/-- The distinct blocks that the operation of a process logged so far. -/
def mine (s : State ι) (p : ι) : Finset Word :=
  ((s.records.filter fun r => r.op = s.op p).map Record.sector).toFinset

/-- The distinct blocks of the transaction that is not committed yet. -/
def current (s : State ι) : Finset Word :=
  ((s.records.filter fun r => r.transaction = s.committed.length).map Record.sector).toFinset

/-- No operation logs more than `MAXOPBLOCKS` distinct blocks. -/
def WithinBudget (s : State ι) : Label ι -> Prop
  | .logWrite p sector => (insert sector (mine s p)).card <= MAXOPBLOCKS
  | _ => True

/-- A block is logged only while the transaction leaves more than one log block free. -/
def Spare (s : State ι) : Label ι -> Prop
  | .logWrite _ _ => (current s).card < LOGSIZE - 1
  | _ => True

omit [DecidableEq ι] in
instance (s : State ι) (label : Label ι) : Decidable (WithinBudget s label) := by
  cases label <;> unfold WithinBudget <;> infer_instance

omit [DecidableEq ι] in
instance (s : State ι) (label : Label ι) : Decidable (Spare s label) := by
  cases label <;> unfold Spare <;> infer_instance

/-- The header holds the distinct blocks of the transaction. -/
structure Tally (s : State ι) : Prop where
  nodup : (sectors s.log.lh).Nodup
  traced : ∀ sector, sector ∈ sectors s.log.lh -> sector ∈ current s

section Admission

variable {s : State ι} {p : ι}

section

omit [DecidableEq ι]

theorem mem_current : sector ∈ current s <->
    ∃ r, r ∈ s.records /\ r.transaction = s.committed.length /\ r.sector = sector := by
  simp only [current, List.mem_toFinset, List.mem_map, List.mem_filter, decide_eq_true_eq, and_assoc]

theorem current_eq (valid : Inv s) (tally : Tally s) : current s = (sectors s.log.lh).toFinset := by
  ext sector
  rw [List.mem_toFinset]
  constructor
  · intro found
    rcases mem_current.mp found with ⟨r, logged, now, rfl⟩
    cases valid.history.placed r logged with
    | inl here => exact here.2
    | inr past =>
      rcases past with ⟨blocks, stored, _⟩
      have bounded := (List.getElem?_eq_some_iff.mp stored).1
      omega
  · exact tally.traced sector

/-- The count in the header is the number of distinct blocks logged since the last commit. -/
theorem n_eq_card_current (valid : Inv s) (tally : Tally s) : s.log.lh.n = (current s).card := by
  rw [current_eq valid tally, List.toFinset_card_of_nodup tally.nodup,
    sectors_length valid.control.positive]

end

variable {t : State ι} {label : Label ι}

section

omit [DecidableEq ι]

theorem Tally.recast (tally : Tally s) (records : t.records = s.records)
    (committed : t.committed = s.committed) (lh : t.log.lh = s.log.lh) : Tally t := by
  constructor
  · rw [lh]
    exact tally.nodup
  · rw [lh, current, records, committed]
    exact tally.traced

theorem Tally.of_empty (none : s.log.lh.n = 0) : Tally s := by
  constructor
  · rw [sectors_empty none]
    exact List.nodup_nil
  · rw [sectors_empty none]
    intro _ wrong
    exact absurd wrong List.not_mem_nil

theorem Tally.logWrite {log : Fields} (tally : Tally s) (pos : 0 <= s.log.lh.n)
    (run : logWrite s.log sector = .ok log) :
    Tally { s with log := log, records := ⟨s.op p, s.committed.length, sector⟩ :: s.records } := by
  have grown := sectors_logWrite pos run
  have kept : ∀ other, other ∈ current s ->
      other ∈ current
        { s with log := log, records := ⟨s.op p, s.committed.length, sector⟩ :: s.records } := by
    intro other found
    rcases mem_current.mp found with ⟨r, logged, now, same⟩
    exact mem_current.mpr ⟨r, List.mem_cons_of_mem _ logged, now, same⟩
  constructor
  · change (sectors log.lh).Nodup
    rw [grown]
    by_cases present : sector ∈ sectors s.log.lh
    · rw [if_pos present]
      exact tally.nodup
    · rw [if_neg present]
      rw [<- List.concat_eq_append]
      exact tally.nodup.concat present
  · intro other found
    change other ∈ sectors log.lh at found
    rw [grown] at found
    by_cases present : sector ∈ sectors s.log.lh
    · rw [if_pos present] at found
      exact kept other (tally.traced other found)
    · rw [if_neg present] at found
      cases List.mem_append.mp found with
      | inl old => exact kept other (tally.traced other old)
      | inr new =>
        exact mem_current.mpr ⟨_, List.mem_cons_self, rfl, (List.mem_singleton.mp new).symm⟩

end

theorem Tally.moves (tally : Tally s) (valid : Inv s) (moves : Moves s label t) : Tally t := by
  cases moves with
  | admitted p log before run =>
    rcases beginOp_some run with ⟨_, _, rfl⟩
    exact tally.recast rfl rfl rfl
  | logged p sector log there run => exact tally.logWrite valid.control.positive run
  | committed p there => exact .of_empty (commit_n valid.control.positive)
  | _ => exact tally.recast rfl rfl rfl

/-- No step changes `log.size`. -/
theorem Moves.size (moves : Moves s label t) : t.log.size = s.log.size := by
  cases moves with
  | admitted p log before run =>
    rcases beginOp_some run with ⟨_, _, rfl⟩
    rfl
  | logged p sector log there run => exact (logWrite_frame run).1
  | committed p there => exact (commit_frame s.log).1
  | _ => rfl

/-- The blocks of the transaction fit behind the header of a log of `size` blocks. -/
def Fits (size : Int) (log : Fields) : Prop := log.size = size /\ log.lh.n + 1 <= size

theorem Fits.moves {size : Int} (fits : Fits size s.log) (valid : Inv s)
    (moves : Moves s label t) : Fits size t.log := by
  have pos := valid.control.positive
  have here := fits.2
  refine ⟨moves.size.trans fits.1, ?_⟩
  cases moves with
  | admitted p log before run =>
    rcases beginOp_some run with ⟨_, _, rfl⟩
    exact here
  | logged p sector log there run =>
    rcases logWrite_ok run with ⟨_, room, _, rfl⟩
    have same := fits.1
    simp only [stored]
    split <;> omega
  | committed p there =>
    have zero := commit_n pos
    change (commit s.log).lh.n + 1 <= size
    omega
  | _ => exact here

omit [DecidableEq ι] in
/-- `log_write` panics on a log of `LOGSIZE` blocks exactly when the transaction has `LOGSIZE -
1`. -/
theorem full_iff_not_spare (valid : Inv s) (tally : Tally s) (size : s.log.size = LOGSIZE)
    (sector : Word) :
    ((LOGSIZE : Int) <= s.log.lh.n ∨ s.log.size - 1 <= s.log.lh.n) <->
    ¬ Spare s (.logWrite p sector) := by
  rw [n_eq_card_current valid tally, size]
  simp only [Spare, LOGSIZE, MAXOPBLOCKS]
  omega

/-- What holds as long as no full transaction is added to. -/
structure Admitting (s : State ι) : Prop where
  inv : Inv s
  tally : Tally s
  fits : Fits LOGSIZE s.log
  running : s.panicked = none

omit [DecidableEq ι] in
theorem admitting_started : Admitting (started LOGSIZE : State ι) := by
  constructor
  · exact inv_started LOGSIZE
  · exact .of_empty rfl
  · exact ⟨rfl, (by decide : (0 : Int) + 1 <= LOGSIZE)⟩
  · rfl

theorem Admitting.moves (valid : Admitting s) (spare : Spare s label)
    (moves : Moves s label t) : Admitting t := by
  constructor
  · exact valid.inv.moves moves
  · exact valid.tally.moves valid.inv moves
  · exact valid.fits.moves valid.inv moves
  · cases moves with
    | tooBig p sector there full =>
      exact absurd spare ((full_iff_not_spare valid.inv valid.tally valid.fits.1 sector).mp full)
    | _ => exact valid.running

/-- The log of `mkfs` has `LOGSIZE` blocks with the header.  As long as no block is logged into a
transaction that has `LOGSIZE - 1` already, `log_write` does not panic, and the transaction always
fits behind the header; one more call does panic. -/
theorem admission_control {labels : List (Label ι)}
    (run : GuardedRun Step (fun s label => WithinBudget s label /\ Spare s label) (started LOGSIZE)
      labels s) :
    s.panicked = none /\ s.log.size = LOGSIZE /\ s.log.lh.n + 1 <= s.log.size /\
      ∀ p sector t, Step s (.logWrite p sector) t ->
        (t.panicked = some .tooBigATransaction <-> ¬ Spare s (.logWrite p sector)) := by
  have valid : Admitting s := by
    apply run.invariant
    · rintro state label next allowed ⟨_, enabled, rfl⟩ valid
      exact valid.moves allowed.2 (valid.inv.control.moves enabled)
    · exact admitting_started
  have fits := valid.fits
  refine ⟨valid.running, fits.1, fits.1.symm ▸ fits.2, ?_⟩
  rintro p sector t ⟨_, enabled, rfl⟩
  rw [<- full_iff_not_spare valid.inv valid.tally fits.1 sector]
  have moves := valid.inv.control.moves enabled
  generalize perform s (.logWrite p sector) = after at moves
  cases moves with
  | tooBig _ _ there full => exact ⟨fun _ => full, fun _ => rfl⟩
  | logged _ _ log there done =>
    rcases logWrite_ok done with ⟨small, room, _⟩
    refine ⟨fun wrong => ?_, fun full => by omega⟩
    rw [valid.running] at wrong
    cases wrong

end Admission

/-- Three operations that each log ten blocks of their own. -/
def threeFull : List (Label (Fin 3)) :=
  [.beginOp 0, .beginOp 1, .beginOp 2] ++
    (List.finRange 3).flatMap fun p => (List.range MAXOPBLOCKS).map fun i =>
      .logWrite p (BitVec.ofNat 32 (100 + 10 * p.val + i))

/-- Twenty-nine blocks of three operations fit. -/
theorem admission_control_overlapping : ∃ s : State (Fin 3),
    GuardedRun Step (fun s label => WithinBudget s label /\ Spare s label)
      (started LOGSIZE) threeFull.dropLast s /\
      s.log.lh.n = 29 /\ s.panicked = none := by
  have outcome : (checked (fun s label => WithinBudget s label /\ Spare s label) attempt
      (started LOGSIZE : State (Fin 3)) threeFull.dropLast).map (fun s => s.log.lh.n) = some 29 := by
    decide +kernel
  rcases Option.map_eq_some_iff.mp outcome with ⟨s, reached, full⟩
  have run := (GuardedRun.of_checked reached).imp fun _ _ _ => attempt_step
  exact ⟨s, run, full, (admission_control run).1⟩

/-- The thirtieth block of three admitted operations does not fit. -/
theorem threeFull_panics : ∃ s : State (Fin 3),
    GuardedRun Step WithinBudget (started LOGSIZE) threeFull s /\
    s.panicked = some .tooBigATransaction := by
  have outcome : (checked WithinBudget attempt (started LOGSIZE : State (Fin 3)) threeFull).map
      State.panicked =
      some (some .tooBigATransaction) := by
    decide +kernel
  rcases Option.map_eq_some_iff.mp outcome with ⟨s, reached, panicked⟩
  exact ⟨s, (GuardedRun.of_checked reached).imp fun _ _ _ => attempt_step, panicked⟩

end Xv6.Log.Group
