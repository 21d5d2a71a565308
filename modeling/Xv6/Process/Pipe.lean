import Mathlib.Data.List.Infix
import Xv6.Library.GuardedRun
import Xv6.Library.Ring

namespace Xv6.Pipe

open Library
open Function

/-!
# `pipewrite`, `piperead` and `pipeclose` of `pipe.c`

A step is what a process does from the time it gets `p->lock` until it
releases it, by returning or by going to sleep.  Between two steps the lock is
free.  `sleep` releases the lock while it holds `ptable.lock`, and `wakeup`
needs `ptable.lock`, so that releasing and sleeping count as one.

A call looks at `proc->killed` at most once in a step.  A `kill` of the running
process may come before or after that, and so the step says what it saw; a
process that was not killed cannot be seen killed.

`stored` and `returned` record the bytes that writes stored, with their process, and
reads returned, in the order of the lock.
-/

abbrev Byte := BitVec 8

/-- `PIPESIZE` -/
def size : Ring.Capacity 32 := ⟨512, by decide, by decide, by decide⟩

/-- Where a process is.  The bytes and counts are what its call has left to do. -/
inductive Task where
  | idle
  /-- About to acquire the lock in `pipewrite`. -/
  | writing (rest : List Byte)
  /-- `SLEEPING` on `&p->nwrite` -/
  | writeSleep (rest : List Byte)
  /-- About to acquire the lock in `piperead`. -/
  | reading (n : Nat)
  /-- `SLEEPING` on `&p->nread` -/
  | readSleep (n : Nat)
  deriving DecidableEq, Repr

variable {ι : Type}

structure State (ι : Type) where
  /-- `data`, `nread` and `nwrite` -/
  ring : Ring 32 Byte
  readopen : Bool
  writeopen : Bool
  stored : List (ι × Byte)
  returned : List Byte
  task : ι -> Task
  killed : ι -> Bool

inductive Label (ι : Type) where
  | write (c : ι) (bytes : List Byte)
  | read (c : ι) (n : Nat)
  /-- The process acquires the lock; `killed` is what it sees of `proc->killed`. -/
  | run (c : ι) (killed : Bool)
  | close (writable : Bool)
  | kill (c : ι)
  deriving DecidableEq, Repr

/-! ## One step -/

/-- The loop of `pipewrite`, until the buffer is full or nothing is left.  The bytes that are left,
and those that were stored. -/
def writeLoop (ring : Ring 32 Byte) : List Byte -> Ring 32 Byte × List Byte × List Byte
  | [] => (ring, [], [])
  | byte :: rest =>
    if ring.full size then (ring, byte :: rest, [])
    else
      let after := writeLoop (ring.push size byte) rest
      (after.1, after.2.1, byte :: after.2.2)

/-- The second loop of `piperead`, and the bytes that it copies. -/
def readLoop (ring : Ring 32 Byte) : Nat -> Ring 32 Byte × List Byte
  | 0 => (ring, [])
  | n + 1 =>
    if ring.empty then (ring, [])
    else
      let after := readLoop ring.pop n
      (after.1, ring.front size :: after.2)

/-- `wakeup(&p->nread)` -/
def wakeReaders (s : State ι) : State ι :=
  { s with task := fun c => match s.task c with
      | .readSleep n => .reading n
      | other => other }

/-- `wakeup(&p->nwrite)` -/
def wakeWriters (s : State ι) : State ι :=
  { s with task := fun c => match s.task c with
      | .writeSleep rest => .writing rest
      | other => other }

variable [DecidableEq ι]

def setTask (s : State ι) (c : ι) (task : Task) : State ι := { s with task := update s.task c task }

/-- `pipewrite` from the time it has the lock. -/
def pipewrite (s : State ι) (c : ι) (killed : Bool) (bytes : List Byte) : State ι :=
  let loop := writeLoop s.ring bytes
  let t := { s with ring := loop.1, stored := s.stored ++ loop.2.2.map (Prod.mk c) }
  if loop.2.1 = [] then setTask (wakeReaders t) c .idle
  else if s.readopen = false ∨ killed = true then setTask t c .idle
  else setTask (wakeReaders t) c (.writeSleep loop.2.1)

/-- `piperead` from the time it has the lock. -/
def piperead (s : State ι) (c : ι) (killed : Bool) (n : Nat) : State ι :=
  if s.ring.empty /\ s.writeopen = true then
    if killed = true then setTask s c .idle else setTask s c (.readSleep n)
  else
    let loop := readLoop s.ring n
    setTask (wakeWriters { s with ring := loop.1, returned := s.returned ++ loop.2 }) c .idle

def pipeclose (s : State ι) (writable : Bool) : State ι :=
  if writable then wakeReaders { s with writeopen := false }
  else wakeWriters { s with readopen := false }

/-- `kill`, which also wakes the process. -/
def kill (s : State ι) (c : ι) : State ι :=
  let t := { s with killed := update s.killed c true }
  match s.task c with
  | .writeSleep rest => setTask t c (.writing rest)
  | .readSleep n => setTask t c (.reading n)
  | _ => t

/-- Nothing happens to a pipe whose ends are both closed: its page has been freed. -/
def perform (s : State ι) (label : Label ι) : Option (State ι) :=
  if s.readopen = false /\ s.writeopen = false then none
  else
    match label with
    | .write c bytes => if s.task c = .idle then some (setTask s c (.writing bytes)) else none
    | .read c n => if s.task c = .idle then some (setTask s c (.reading n)) else none
    | .run c killed =>
      if killed = true /\ s.killed c = false then none
      else
        match s.task c with
        | .writing bytes => some (pipewrite s c killed bytes)
        | .reading n => some (piperead s c killed n)
        | _ => none
    | .close writable => some (pipeclose s writable)
    | .kill c => some (kill s c)

def Step (s : State ι) (label : Label ι) (t : State ι) : Prop := perform s label = some t

omit [DecidableEq ι] in
/-- `pipealloc`: both ends are open, and the counters are zero. -/
def fresh (data : Nat -> Byte) : State ι :=
  ⟨⟨data, 0#32, 0#32⟩, true, true, [], [], fun _ => .idle, fun _ => false⟩

/-! ## The bytes in the buffer -/

theorem writeLoop_holding (bytes : List Byte) : ∀ {ring : Ring 32 Byte} {values : List Byte},
    Ring.Holding size ring values ->
      Ring.Holding size (writeLoop ring bytes).1 (values ++ (writeLoop ring bytes).2.2) := by
  induction bytes with
  | nil =>
    intro ring values holding
    rw [writeLoop, List.append_nil]
    exact holding
  | cons byte rest ih =>
    intro ring values holding
    rw [writeLoop]
    by_cases full : ring.full size
    · rw [if_pos full, List.append_nil]
      exact holding
    · rw [if_neg full]
      have after := ih (holding.push full byte)
      rw [List.append_assoc] at after
      exact after

theorem readLoop_holding (n : Nat) : ∀ {ring : Ring 32 Byte} {values : List Byte},
    Ring.Holding size ring values -> ∃ rest,
      values = (readLoop ring n).2 ++ rest /\ Ring.Holding size (readLoop ring n).1 rest := by
  induction n with
  | zero => exact fun holding => ⟨_, rfl, holding⟩
  | succ n ih =>
    intro ring values holding
    rw [readLoop]
    by_cases none : ring.empty
    · rw [if_pos none]
      exact ⟨values, rfl, holding⟩
    · rw [if_neg none]
      cases values with
      | nil => exact absurd (holding.empty_iff.mpr rfl) none
      | cons first rest =>
        rcases holding.pop with ⟨front, after⟩
        rcases ih after with ⟨left, split, still⟩
        refine ⟨left, ?_, still⟩
        rw [front, List.cons_append, <- split]

/-- The buffer holds what has been stored and not yet returned. -/
def Lossless (s : State ι) : Prop :=
  ∃ values, Ring.Holding size s.ring values /\ s.stored.map Prod.snd = s.returned ++ values

omit [DecidableEq ι] in
theorem lossless_fresh (data : Nat -> Byte) : Lossless (fresh data : State ι) :=
  ⟨[], .of_empty rfl, rfl⟩

variable {s t : State ι}

omit [DecidableEq ι] in
theorem Lossless.congr (lossless : Lossless s) (ring : t.ring = s.ring)
    (stored : t.stored = s.stored) (returned : t.returned = s.returned) : Lossless t := by
  unfold Lossless
  rw [ring, stored, returned]
  exact lossless

theorem Lossless.pipewrite (lossless : Lossless s) (c : ι) (killed : Bool) (bytes : List Byte) :
    Lossless (pipewrite s c killed bytes) := by
  rcases lossless with ⟨values, holding, split⟩
  have after : Lossless { s with
      ring := (writeLoop s.ring bytes).1
      stored := s.stored ++ (writeLoop s.ring bytes).2.2.map (Prod.mk c) } := by
    refine ⟨values ++ (writeLoop s.ring bytes).2.2, writeLoop_holding bytes holding, ?_⟩
    change (s.stored ++ _).map Prod.snd = s.returned ++ _
    rw [List.map_append, List.map_map, split, List.append_assoc,
      show Prod.snd ∘ Prod.mk c = id from rfl, List.map_id]
  unfold Pipe.pipewrite
  dsimp only
  split
  next => exact after.congr rfl rfl rfl
  next =>
    split
    next => exact after.congr rfl rfl rfl
    next => exact after.congr rfl rfl rfl

theorem Lossless.piperead (lossless : Lossless s) (c : ι) (killed : Bool) (n : Nat) :
    Lossless (piperead s c killed n) := by
  unfold Pipe.piperead
  split
  next =>
    split
    next => exact lossless.congr rfl rfl rfl
    next => exact lossless.congr rfl rfl rfl
  next =>
    rcases lossless with ⟨values, holding, split⟩
    rcases readLoop_holding n holding with ⟨rest, parts, still⟩
    refine ⟨rest, still, ?_⟩
    change s.stored.map Prod.snd = s.returned ++ _ ++ rest
    rw [split, List.append_assoc, <- parts]

theorem kill_pipe (s : State ι) (c : ι) :
    (kill s c).ring = s.ring /\ (kill s c).stored = s.stored /\ (kill s c).returned = s.returned /\
      (kill s c).readopen = s.readopen /\ (kill s c).writeopen = s.writeopen := by
  unfold kill
  dsimp only
  split <;> exact ⟨rfl, rfl, rfl, rfl, rfl⟩

/-- What a step can be. -/
inductive Moves (s : State ι) : Label ι -> State ι -> Prop
  | write {c : ι} {bytes : List Byte} (idle : s.task c = .idle) :
      Moves s (.write c bytes) (setTask s c (.writing bytes))
  | read {c : ι} {n : Nat} (idle : s.task c = .idle) : Moves s (.read c n) (setTask s c (.reading n))
  | pipewrite {c : ι} {killed : Bool} {bytes : List Byte} (here : s.task c = .writing bytes) :
      Moves s (.run c killed) (pipewrite s c killed bytes)
  | piperead {c : ι} {killed : Bool} {n : Nat} (here : s.task c = .reading n) :
      Moves s (.run c killed) (piperead s c killed n)
  | close {writable : Bool} : Moves s (.close writable) (pipeclose s writable)
  | kill {c : ι} : Moves s (.kill c) (kill s c)

variable {label : Label ι}

theorem Step.moves (step : Step s label t) : Moves s label t := by
  unfold Step perform at step
  split at step
  next => cases step
  next =>
    cases label with
    | write c bytes =>
      dsimp only at step
      split at step
      next idle =>
        cases step
        exact .write idle
      next => cases step
    | read c n =>
      dsimp only at step
      split at step
      next idle =>
        cases step
        exact .read idle
      next => cases step
    | run c killed =>
      dsimp only at step
      split at step
      next => cases step
      next =>
        cases here : s.task c with
        | writing bytes =>
          rw [here] at step
          cases step
          exact .pipewrite here
        | reading n =>
          rw [here] at step
          cases step
          exact .piperead here
        | idle =>
          rw [here] at step
          cases step
        | writeSleep rest =>
          rw [here] at step
          cases step
        | readSleep n =>
          rw [here] at step
          cases step
    | close writable =>
      cases step
      exact .close
    | kill c =>
      cases step
      exact .kill

theorem Lossless.step (lossless : Lossless s) (step : Step s label t) : Lossless t := by
  cases step.moves with
  | write => exact lossless.congr rfl rfl rfl
  | read => exact lossless.congr rfl rfl rfl
  | pipewrite => exact lossless.pipewrite _ _ _
  | piperead => exact lossless.piperead _ _ _
  | @close writable => cases writable <;> exact lossless.congr rfl rfl rfl
  | @kill c =>
    rcases kill_pipe s c with ⟨ring, stored, returned, _⟩
    exact lossless.congr ring stored returned

/-- The bytes between the two counters, the oldest first. -/
def contents (ring : Ring 32 Byte) : List Byte :=
  (List.range (ring.tail - ring.head).toNat).map fun k => ring.data ((ring.head.toNat + k) % 512)

theorem contents_eq {ring : Ring 32 Byte} {values : List Byte}
    (holding : Ring.Holding size ring values) : contents ring = values := by
  unfold contents
  rw [holding.difference]
  apply List.ext_getElem
  · rw [List.length_map, List.length_range]
  · intro k _ inside
    rw [List.getElem_map, List.getElem_range]
    exact holding.slots k inside

/-! ## The bytes of each writer -/

/-- What a call of `pipewrite` has left to store. -/
def Task.rest : Task -> List Byte
  | .writing rest | .writeSleep rest => rest
  | _ => []

/-- The bytes of `c` that have been stored. -/
def storedBy (c : ι) (stored : List (ι × Byte)) : List Byte :=
  (stored.filter fun e => decide (e.1 = c)).map Prod.snd

/-- The bytes that a call of `c` is given. -/
def bytesOf (c : ι) : Label ι -> List Byte
  | .write d bytes => if d = c then bytes else []
  | _ => []

theorem storedBy_append (stored : List (ι × Byte)) (bytes : List Byte) (c d : ι) :
    storedBy d (stored ++ bytes.map (Prod.mk c)) = storedBy d stored ++
      if c = d then bytes else [] := by
  unfold storedBy
  rw [List.filter_append, List.map_append, List.filter_map]
  by_cases same : c = d
  · simp [same, Function.comp_def]
  · simp [same, Function.comp_def]

theorem writeLoop_split (bytes : List Byte) : ∀ ring : Ring 32 Byte,
    (writeLoop ring bytes).2.2 ++ (writeLoop ring bytes).2.1 = bytes := by
  induction bytes with
  | nil => exact fun _ => rfl
  | cons byte rest ih =>
    intro ring
    rw [writeLoop]
    by_cases full : ring.full size
    · rw [if_pos full]
      rfl
    · rw [if_neg full]
      exact congrArg (List.cons byte) (ih _)

omit [DecidableEq ι] in
theorem rest_wake (s : State ι) (c : ι) :
    ((wakeReaders s).task c).rest = (s.task c).rest /\
    ((wakeWriters s).task c).rest = (s.task c).rest := by
  unfold wakeReaders wakeWriters
  dsimp only
  cases s.task c <;> exact ⟨rfl, rfl⟩

theorem rest_setTask (s : State ι) (c d : ι) (task : Task) :
    ((setTask s c task).task d).rest = if d = c then task.rest else (s.task d).rest := by
  unfold setTask
  dsimp only
  by_cases same : d = c
  · rw [same, update_self, if_pos rfl]
  · rw [update_of_ne same, if_neg same]

/-- What a process has stored and has left to store comes from its calls.  A call that gives up
loses the rest. -/
def Sent (s : State ι) (past : List (Label ι)) : Prop :=
  ∀ c, (storedBy c s.stored ++ (s.task c).rest).Sublist (past.flatMap (bytesOf c))

variable {killed : Bool}

/-- A `pipewrite` stores a front part of what it has left, and keeps the rest or some of it. -/
theorem sublist_pipewrite {c : ι} {bytes : List Byte} (here : s.task c = .writing bytes) (d : ι) :
    (storedBy d (pipewrite s c killed bytes).stored ++
      ((pipewrite s c killed bytes).task d).rest).Sublist
      (storedBy d s.stored ++ (s.task d).rest) := by
  have kept : ∀ left, left.Sublist (writeLoop s.ring bytes).2.1 ->
      (storedBy d (s.stored ++ (writeLoop s.ring bytes).2.2.map (Prod.mk c)) ++
        if d = c then left else (s.task d).rest).Sublist (storedBy d s.stored ++ (s.task d).rest) := by
    intro left fewer
    rw [storedBy_append]
    by_cases same : d = c
    · rw [if_pos same, if_pos same.symm, same, here, List.append_assoc, Task.rest]
      refine List.Sublist.append_left ?_ _
      conv => rhs; rw [<- writeLoop_split bytes s.ring]
      exact fewer.append_left _
    · rw [if_neg same, if_neg (Ne.symm same), List.append_nil]
  unfold pipewrite
  dsimp only
  split
  next =>
    rw [rest_setTask, (rest_wake _ d).1]
    exact kept [] (List.nil_sublist _)
  next =>
    split
    next =>
      rw [rest_setTask]
      exact kept [] (List.nil_sublist _)
    next =>
      rw [rest_setTask, (rest_wake _ d).1]
      exact kept _ (List.Sublist.refl _)

theorem rest_dropped (s : State ι) (c d : ι) {task : Task} (none : task.rest = []) :
    ((setTask s c task).task d).rest.Sublist (s.task d).rest := by
  rw [rest_setTask]
  split
  next =>
    rw [none]
    exact List.nil_sublist _
  next => exact List.Sublist.refl _

theorem rest_piperead (s : State ι) (c d : ι) (killed : Bool) (n : Nat) :
    ((piperead s c killed n).task d).rest.Sublist (s.task d).rest := by
  unfold piperead
  split
  next =>
    split
    next => exact rest_dropped s c d rfl
    next => exact rest_dropped s c d rfl
  next =>
    rw [<- (rest_wake s d).2]
    exact rest_dropped _ c d rfl

theorem rest_kill (s : State ι) (c d : ι) : ((kill s c).task d).rest = (s.task d).rest := by
  unfold kill
  dsimp only
  split
  next rest here =>
    rw [rest_setTask]
    split
    next same => rw [same, here, Task.rest, Task.rest]
    next => rfl
  next n here =>
    rw [rest_setTask]
    split
    next same => rw [same, here]; rfl
    next => rfl
  next => rfl

theorem Sent.step {past : List (Label ι)} (sent : Sent s past) (step : Step s label t) :
    Sent t (past ++ [label]) := by
  intro d
  rw [List.flatMap_append, List.flatMap_singleton]
  refine List.Sublist.trans ?_ ((sent d).append_right (bytesOf d label))
  have quiet {bytes : List Byte} (less : bytes.Sublist (storedBy d s.stored ++ (s.task d).rest)) :=
    less.trans (List.sublist_append_left _ (bytesOf d label))
  cases step.moves with
  | @write c bytes idle =>
    by_cases same : d = c
    · rw [rest_setTask, bytesOf, if_pos same, if_pos same.symm, same, idle,
        show Task.idle.rest = [] from rfl, List.append_nil]
      exact List.Sublist.refl _
    · apply quiet
      rw [rest_setTask, if_neg same]
      exact List.Sublist.refl _
  | @read c n idle => exact quiet ((rest_dropped s c d rfl).append_left _)
  | pipewrite here => exact quiet (sublist_pipewrite here d)
  | @piperead c killed n here =>
    have same : (piperead s c killed n).stored = s.stored := by
      unfold piperead
      split
      next => split <;> rfl
      next => rfl
    apply quiet
    rw [same]
    exact (rest_piperead s c d killed n).append_left _
  | @close writable =>
    apply quiet
    cases writable with
    | false => exact List.Sublist.append_left ((rest_wake s d).2 ▸ List.Sublist.refl _) _
    | true => exact List.Sublist.append_left ((rest_wake s d).1 ▸ List.Sublist.refl _) _
  | @kill c =>
    apply quiet
    rw [(kill_pipe s c).2.1, rest_kill]

/-- A pipe never holds more than `PIPESIZE` bytes, and what has been stored is what reads have
returned followed by what the buffer holds.  What each process has stored comes from its calls, in
their order. -/
theorem pipe_fifo {data : Nat -> Byte} {labels : List (Label ι)} {s : State ι}
    (run : GuardedRun Step (fun _ _ => True) (fresh data) labels s) :
    (s.ring.tail - s.ring.head).toNat <= 512 /\ s.returned <+: s.stored.map Prod.snd /\
      s.stored.map Prod.snd = s.returned ++ contents s.ring /\
      ∀ c, (storedBy c s.stored ++ (s.task c).rest).Sublist (labels.flatMap (bytesOf c)) := by
  have lossless := run.invariant (fun _ _ _ _ step before => before.step step) (lossless_fresh data)
  have sent := run.history Sent (fun _ _ _ _ _ step before => before.step step) []
    fun _ => List.Sublist.refl _
  rcases lossless with ⟨values, holding, split⟩
  refine ⟨?_, ⟨values, split.symm⟩, ?_, sent⟩
  · rw [holding.difference]
    exact holding.bounded
  · rw [contents_eq holding]
    exact split

/-- A reader waits for two bytes, a writer stores three. -/
def handover : List (Label Bool) :=
  [.read false 2, .run false false, .write true [7#8, 8#8, 9#8], .run true false, .run false false]

theorem pipe_fifo_handover : ∃ s : State Bool,
    GuardedRun Step (fun _ _ => True) (fresh fun _ => 0#8) handover s /\ s.returned = [7#8, 8#8] /\
      (s.ring.tail - s.ring.head).toNat <= 512 /\ s.returned <+: s.stored.map Prod.snd /\
      s.stored.map Prod.snd = s.returned ++ contents s.ring /\
      ∀ c, (storedBy c s.stored ++ (s.task c).rest).Sublist (handover.flatMap (bytesOf c)) := by
  have outcome : ∃ s : State Bool,
      checked (fun _ _ => True) perform (fresh fun _ => 0#8) handover = some s /\
        s.returned = [7#8, 8#8] := by
    refine ⟨_, rfl, rfl⟩
  rcases outcome with ⟨s, reached, bytes⟩
  have run := GuardedRun.of_checked reached
  exact ⟨s, run, bytes, pipe_fifo run⟩

/-! ## Sleepers -/

/-- Whoever sleeps has a reason to. -/
structure Justified (s : State ι) : Prop where
  readers : ∀ c n, s.task c = .readSleep n -> s.ring.empty /\ s.writeopen = true
  writers : ∀ c rest, s.task c = .writeSleep rest -> s.ring.full size /\ s.readopen = true

/-- The process returns early from `pipewrite`: the buffer is full, and the read end is closed or it
sees that it has been killed. -/
def GivesUp (s : State ι) (c : ι) (killed : Bool) : Prop :=
  match s.task c with
  | .writing bytes => (writeLoop s.ring bytes).2.1 ≠ [] /\ (s.readopen = false ∨ killed = true)
  | _ => False

/-- No process sleeps on `&p->nread` when a `pipewrite` returns early. -/
def Heard (s : State ι) : Label ι -> Prop
  | .run c killed => GivesUp s c killed -> ∀ d n, s.task d ≠ .readSleep n
  | _ => True

theorem writeLoop_full {ring : Ring 32 Byte} (full : ring.full size) (bytes : List Byte) :
    writeLoop ring bytes = (ring, bytes, []) := by
  cases bytes with
  | nil => rfl
  | cons byte rest => rw [writeLoop, if_pos full]

theorem full_of_writeLoop (bytes : List Byte) :
    ∀ {ring : Ring 32 Byte}, (writeLoop ring bytes).2.1 ≠ [] ->
    (writeLoop ring bytes).1.full size := by
  induction bytes with
  | nil => exact fun left => absurd rfl left
  | cons byte rest ih =>
    intro ring left
    rw [writeLoop] at left ⊢
    by_cases full : ring.full size
    · rw [if_pos full]
      exact full
    · rw [if_neg full] at left ⊢
      exact ih left

section Wake

variable {s : State ι} {c d : ι} {n : Nat} {rest : List Byte}

section

omit [DecidableEq ι]

theorem wakeReaders_readSleep : (wakeReaders s).task d ≠ .readSleep n := by
  change (match s.task d with
    | .readSleep n => Task.reading n
    | other => other) ≠ _
  cases s.task d <;> nofun

theorem wakeReaders_writeSleep (asleep : (wakeReaders s).task d = .writeSleep rest) :
    s.task d = .writeSleep rest := by
  change (match s.task d with
    | .readSleep n => Task.reading n
    | other => other) = _ at asleep
  cases here : s.task d with
  | readSleep n =>
    rw [here] at asleep
    cases asleep
  | _ =>
    rw [here] at asleep
    exact asleep

theorem wakeWriters_writeSleep : (wakeWriters s).task d ≠ .writeSleep rest := by
  change (match s.task d with
    | .writeSleep rest => Task.writing rest
    | other => other) ≠ _
  cases s.task d <;> nofun

theorem wakeWriters_readSleep (asleep : (wakeWriters s).task d = .readSleep n) :
    s.task d = .readSleep n := by
  change (match s.task d with
    | .writeSleep rest => Task.writing rest
    | other => other) = _ at asleep
  cases here : s.task d with
  | writeSleep rest =>
    rw [here] at asleep
    cases asleep
  | _ =>
    rw [here] at asleep
    exact asleep

end

/-- A process that sleeps after another one has moved on slept before. -/
theorem setTask_of_ne {task other : Task} (asleep : (setTask s c task).task d = other)
    (ne : task ≠ other) : s.task d = other := by
  unfold setTask at asleep
  dsimp only at asleep
  by_cases same : d = c
  · rw [same, update_self] at asleep
    exact absurd asleep ne
  · rw [update_of_ne same] at asleep
    exact asleep

end Wake

namespace Justified

variable {s : State ι} {c : ι}

/-- A process moves on and does not sleep. -/
theorem awake (justified : Justified s) {task : Task} (notReader : ∀ n, task ≠ .readSleep n)
    (notWriter : ∀ rest, task ≠ .writeSleep rest) : Justified (setTask s c task) where
  readers d n asleep := justified.readers d n (setTask_of_ne asleep (notReader n))
  writers d rest asleep := justified.writers d rest (setTask_of_ne asleep (notWriter rest))

theorem pipewrite (justified : Justified s) {bytes : List Byte} (here : s.task c = .writing bytes)
    (heard : Heard s (.run c killed)) : Justified (pipewrite s c killed bytes) := by
  -- A writer that sleeps found the buffer full, and then nothing has been stored.
  have writers : ∀ d rest, s.task d = .writeSleep rest ->
      (writeLoop s.ring bytes).1.full size /\ s.readopen = true := by
    intro d rest asleep
    rcases justified.writers d rest asleep with ⟨full, isOpen⟩
    rw [writeLoop_full full]
    exact ⟨full, isOpen⟩
  unfold Pipe.pipewrite
  dsimp only
  split
  next =>
    constructor
    · intro d n asleep
      exact absurd (setTask_of_ne asleep (by nofun)) wakeReaders_readSleep
    · intro d rest asleep
      exact writers d rest (wakeReaders_writeSleep (setTask_of_ne asleep (by nofun)))
  next left =>
    split
    next early =>
      have givesUp : GivesUp s c killed := by
        unfold GivesUp
        rw [here]
        exact ⟨left, early⟩
      constructor
      · intro d n asleep
        exact absurd (setTask_of_ne asleep (by nofun)) (heard givesUp d n)
      · intro d rest asleep
        exact writers d rest (setTask_of_ne asleep (by nofun))
    next stay =>
      have isOpen : s.readopen = true := (Bool.not_eq_false _).mp (not_or.mp stay).1
      constructor
      · intro d n asleep
        exact absurd (setTask_of_ne asleep (by nofun)) wakeReaders_readSleep
      · intro d rest _
        exact ⟨full_of_writeLoop bytes left, isOpen⟩

theorem piperead (justified : Justified s) {n : Nat} : Justified (piperead s c killed n) := by
  unfold Pipe.piperead
  split
  next waits =>
    split
    next => exact justified.awake (by nofun) (by nofun)
    next =>
      constructor
      · exact fun _ _ _ => waits
      · intro d rest asleep
        exact justified.writers d rest (setTask_of_ne asleep (by nofun))
  next ready =>
    constructor
    · intro d m asleep
      have before := wakeWriters_readSleep (setTask_of_ne asleep (by nofun))
      exact absurd (justified.readers d m before) ready
    · intro d rest asleep
      exact absurd (setTask_of_ne asleep (by nofun)) wakeWriters_writeSleep

omit [DecidableEq ι] in
theorem pipeclose (justified : Justified s) (writable : Bool) :
    Justified (pipeclose s writable) := by
  unfold Pipe.pipeclose
  split
  next =>
    constructor
    · intro d n asleep
      exact absurd asleep wakeReaders_readSleep
    · intro d rest asleep
      exact justified.writers d rest (wakeReaders_writeSleep asleep)
  next =>
    constructor
    · intro d n asleep
      exact justified.readers d n (wakeWriters_readSleep asleep)
    · intro d rest asleep
      exact absurd asleep wakeWriters_writeSleep

theorem kill (justified : Justified s) : Justified (kill s c) := by
  have before : Justified { s with killed := update s.killed c true } :=
    ⟨justified.readers, justified.writers⟩
  unfold Pipe.kill
  dsimp only
  split
  next => exact before.awake (by nofun) (by nofun)
  next => exact before.awake (by nofun) (by nofun)
  next => exact before

theorem step (justified : Justified s) {t : State ι} (heard : Heard s label)
    (step : Step s label t) : Justified t := by
  cases step.moves with
  | write => exact justified.awake (by nofun) (by nofun)
  | read => exact justified.awake (by nofun) (by nofun)
  | pipewrite here => exact justified.pipewrite here heard
  | piperead => exact justified.piperead
  | close => exact justified.pipeclose _
  | kill => exact justified.kill

end Justified

/-- No process sleeps on `&p->nread` while there are bytes or no writer, and none on `&p->nwrite`
while there is room or no reader, as long as no `pipewrite` returns early while a process sleeps on
`&p->nread`. -/
theorem no_lost_wakeup {data : Nat -> Byte} {labels : List (Label ι)} {s : State ι}
    (run : GuardedRun Step Heard (fresh data) labels s) :
    (∀ c n, s.task c = .readSleep n -> s.ring.head = s.ring.tail /\ s.writeopen = true) /\
      ∀ c rest, s.task c = .writeSleep rest ->
      s.ring.tail = s.ring.head + 512#32 /\ s.readopen = true := by
  have start : Justified (fresh data : State ι) := ⟨nofun, nofun⟩
  have justified := run.invariant (fun _ _ _ heard step before => before.step heard step) start
  exact ⟨justified.readers, justified.writers⟩

instance (s : State ι) (c : ι) (killed : Bool) : Decidable (GivesUp s c killed) := by
  unfold GivesUp
  split
  next => infer_instance
  next => infer_instance

/-- The reader takes the last byte and asks for more. -/
def handoverAndWait : List (Label Bool) :=
  handover ++ [.read false 2, .run false false, .read false 2, .run false false]

theorem no_lost_wakeup_handover : ∃ s : State Bool,
    GuardedRun Step Heard (fresh fun _ => 0#8) handoverAndWait s /\ s.task false = .readSleep 2 /\
      (∀ c n, s.task c = .readSleep n -> s.ring.head = s.ring.tail /\ s.writeopen = true) /\
      ∀ c rest, s.task c = .writeSleep rest ->
      s.ring.tail = s.ring.head + 512#32 /\ s.readopen = true := by
  have outcome : ∃ s : State Bool,
      checked (fun s label => ∀ c killed, label = .run c killed -> ¬ GivesUp s c killed) perform
        (fresh fun _ => 0#8) handoverAndWait = some s /\ s.task false = .readSleep 2 := by
    refine ⟨_, rfl, rfl⟩
  rcases outcome with ⟨s, reached, asleep⟩
  have run : GuardedRun Step Heard (fresh fun _ => 0#8) handoverAndWait s := by
    apply (GuardedRun.of_checked reached).weaken
    intro s label quiet
    cases label with
    | run c killed => exact fun givesUp => absurd givesUp (quiet c killed rfl)
    | _ => trivial
  exact ⟨s, run, asleep, no_lost_wakeup run⟩

/-- A reader sleeps on the empty pipe.  A writer of one byte more than the buffer takes is killed
before it gets the lock. -/
def killedWriter : List (Label Bool) :=
  [.read false 1, .run false false, .write true (List.replicate 513 7#8), .kill true, .run true true]

/-- The killed writer returns with the buffer full and wakes nobody: the reader sleeps on. -/
theorem killedWriter_loses_wakeup : ∃ s : State Bool,
    GuardedRun Step (fun _ _ => True) (fresh fun _ => 0#8) killedWriter s /\
      s.task false = .readSleep 1 /\ s.ring.head ≠ s.ring.tail := by
  have outcome : (checked (fun _ _ => True) perform (fresh fun _ => 0#8) killedWriter).map
      (fun s => (s.task false, s.ring.head, s.ring.tail)) =
        some (.readSleep 1, 0#32, 512#32) := by decide +kernel
  rcases Option.map_eq_some_iff.mp outcome with ⟨s, reached, seen⟩
  rcases Prod.mk.inj seen with ⟨asleep, counters⟩
  rcases Prod.mk.inj counters with ⟨head, tail⟩
  refine ⟨s, GuardedRun.of_checked reached, asleep, ?_⟩
  rw [head, tail]
  decide

end Xv6.Pipe
