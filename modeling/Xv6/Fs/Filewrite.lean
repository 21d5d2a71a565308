import Mathlib.Data.List.Infix
import Xv6.Fs.Contents

namespace Xv6.Fs.Filewrite

open Library
open Inodes (MAXFILE LOGSIZE)
open Contents (byteAt writei_some)
open Function

/-!
# `filewrite` of `file.c` on one `struct file`

Any number of processes write through one open file, which they share by `fork`
or `dup`.  A process gives way between any two of the steps below, so that the
others run also while it holds the inode lock; what they cannot do then is to
get the lock.  `begin_op` and `end_op` change neither the file nor `f->off`, and
a process may stop there for as long as it likes: that is the time between
two steps.

`given` and `results` record what the processes asked for and what the calls
returned, `chunks` what each successful `writei` wrote and where.
-/

/-! ## One step -/

/-- `max`, the bytes of one transaction. -/
def most : Nat := (LOGSIZE - 1 - 1 - 2) / 2 * 512

/-- Where a process is in `filewrite(f, addr, n)`, with its `i` and, after `writei`, its `r`. -/
inductive Task where
  | idle
  /-- In the loop, without the inode lock. -/
  | looping (addr : List Byte) (i : Nat)
  | locked (addr : List Byte) (i : Nat)
  | written (addr : List Byte) (i : Nat) (r : Option Nat)
  /-- `f->off` has been advanced. -/
  | advanced (addr : List Byte) (i : Nat) (r : Option Nat)
  deriving DecidableEq, Repr

variable {ι : Type}

structure Chunk (ι : Type) where
  writer : ι
  off : Nat
  bytes : List Byte

structure State (ι : Type) where
  file : Contents
  /-- `f->off` -/
  off : BitVec 32
  /-- Who set `I_BUSY`. -/
  busy : Option ι
  task : ι -> Task
  given : ι -> List Byte
  results : List (ι × Option Nat)
  chunks : List (Chunk ι)

inductive Label (ι : Type) where
  | filewrite (c : ι) (addr : List Byte)
  | ilock (c : ι)
  | writei (c : ι)
  | advance (c : ι)
  | iunlock (c : ι)
  deriving DecidableEq, Repr

variable [DecidableEq ι]

def setTask (s : State ι) (c : ι) (task : Task) : State ι := { s with task := update s.task c task }

/-- `return i == n ? n : -1` -/
def returns (s : State ι) (c : ι) (addr : List Byte) (i : Nat) : State ι :=
  { setTask s c .idle with
    results := s.results ++ [(c, if i = addr.length then some addr.length else none)] }

/-- The test of the loop. -/
def loop (s : State ι) (c : ι) (addr : List Byte) (i : Nat) : State ι :=
  if i < addr.length then setTask s c (.looping addr i) else returns s c addr i

/-- The bytes of `writei(f->ip, addr + i, f->off, n1)`. -/
def piece (addr : List Byte) (i : Nat) : List Byte := (addr.drop i).take most

def store (s : State ι) (c : ι) (addr : List Byte) (i : Nat) : State ι :=
  match s.file.writei (piece addr i) s.off with
  | none => setTask s c (.written addr i none)
  | some file =>
    { setTask s c (.written addr i (some (piece addr i).length)) with
      file := file
      chunks := s.chunks ++ [⟨c, s.off.toNat, piece addr i⟩] }

/-- `f->off += r`, when `r` is positive. -/
def advance (s : State ι) (c : ι) (addr : List Byte) (i : Nat) (r : Option Nat) : State ι :=
  { setTask s c (.advanced addr i r) with off := s.off + BitVec.ofNat 32 (r.getD 0) }

/-- `iunlock`, `end_op` and the rest of the pass.  `r` is never short. -/
def finish (s : State ι) (c : ι) (addr : List Byte) (i : Nat) : Option Nat -> State ι
  | none => returns { s with busy := none } c addr i
  | some r => loop { s with busy := none } c addr (i + r)

def perform (s : State ι) : Label ι -> Option (State ι)
  | .filewrite c addr =>
    if s.task c = .idle then
      some (loop { s with given := update s.given c (s.given c ++ addr) } c addr 0)
    else none
  | .ilock c =>
    match s.task c with
    | .looping addr i =>
      if s.busy = none then some { setTask s c (.locked addr i) with busy := some c } else none
    | _ => none
  | .writei c =>
    match s.task c with
    | .locked addr i => some (store s c addr i)
    | _ => none
  | .advance c =>
    match s.task c with
    | .written addr i r => some (advance s c addr i r)
    | _ => none
  | .iunlock c =>
    match s.task c with
    | .advanced addr i r => some (finish s c addr i r)
    | _ => none

def Step (s : State ι) (label : Label ι) (t : State ι) : Prop := perform s label = some t

omit [DecidableEq ι] in
/-- Nobody is in `filewrite`. -/
def shared (file : Contents) (off : BitVec 32) : State ι :=
  ⟨file, off, none, fun _ => .idle, fun _ => [], [], []⟩

/-- What a step does, with the point where its process was. -/
inductive Moves (s : State ι) : Label ι -> State ι -> Prop
  | filewrite {c : ι} {addr : List Byte} (here : s.task c = .idle) :
      Moves s (.filewrite c addr) (loop { s with given := update s.given c (s.given c ++ addr) } c addr 0)
  | ilock {c : ι} {addr : List Byte} {i : Nat} (here : s.task c = .looping addr i)
    (free : s.busy = none) :
      Moves s (.ilock c) { setTask s c (.locked addr i) with busy := some c }
  | store {c : ι} {addr : List Byte} {i : Nat} (here : s.task c = .locked addr i) :
      Moves s (.writei c) (store s c addr i)
  | advance {c : ι} {addr : List Byte} {i : Nat} {r : Option Nat} (here : s.task c = .written addr i r) :
      Moves s (.advance c) (advance s c addr i r)
  | finish {c : ι} {addr : List Byte} {i : Nat} {r : Option Nat} (here : s.task c = .advanced addr i r) :
      Moves s (.iunlock c) (finish s c addr i r)

variable {label : Label ι}

theorem Step.moves {s t : State ι} (step : Step s label t) : Moves s label t := by
  unfold Step perform at step
  cases label with
  | filewrite c addr =>
    dsimp only at step
    split at step
    next here =>
      cases step
      exact .filewrite here
    next => cases step
  | ilock c =>
    dsimp only at step
    split at step
    next here =>
      split at step
      next free =>
        cases step
        exact .ilock here free
      next => cases step
    next => cases step
  | writei c =>
    dsimp only at step
    split at step
    next here =>
      cases step
      exact .store here
    next => cases step
  | advance c =>
    dsimp only at step
    split at step
    next here =>
      cases step
      exact .advance here
    next => cases step
  | iunlock c =>
    dsimp only at step
    split at step
    next here =>
      cases step
      exact .finish here
    next => cases step

/-! ## Where the chunks lie -/

omit [DecidableEq ι] in
/-- The bytes of the chunks, one after the other. -/
def written (chunks : List (Chunk ι)) : List Byte := chunks.flatMap fun chunk => chunk.bytes

/-- The bytes that a process has written. -/
def writtenBy (c : ι) (chunks : List (Chunk ι)) : List Byte :=
  written (chunks.filter fun chunk => decide (chunk.writer = c))

omit [DecidableEq ι] in
/-- Each chunk starts where the one before it ends, the first one at `start`. -/
def Consecutive : Nat -> List (Chunk ι) -> Prop
  | _, [] => True
  | start, chunk :: rest => chunk.off = start /\ Consecutive (start + chunk.bytes.length) rest

section Chunks

variable {chunks : List (Chunk ι)} {chunk : Chunk ι} {start : Nat}

omit [DecidableEq ι] in
theorem written_append : written (chunks ++ [chunk]) = written chunks ++ chunk.bytes := by
  unfold written
  rw [List.flatMap_append, List.flatMap_cons, List.flatMap_nil, List.append_nil]

theorem writtenBy_append_self {c : ι} {off : Nat} {bytes : List Byte} :
    writtenBy c (chunks ++ [⟨c, off, bytes⟩]) = writtenBy c chunks ++ bytes := by
  unfold writtenBy
  rw [List.filter_append, List.filter_cons_of_pos (by simp)]
  exact written_append

theorem writtenBy_append_of_ne {c : ι} (other : chunk.writer ≠ c) :
    writtenBy c (chunks ++ [chunk]) = writtenBy c chunks := by
  unfold writtenBy
  rw [List.filter_append, List.filter_cons_of_neg (by simpa using other), List.filter_nil,
    List.append_nil]

omit [DecidableEq ι] in
theorem Consecutive.append (next : chunk.off = start + (written chunks).length)
    (consecutive : Consecutive start chunks) : Consecutive start (chunks ++ [chunk]) := by
  induction chunks generalizing start with
  | nil => exact ⟨next, trivial⟩
  | cons first rest ih =>
    rcases consecutive with ⟨here, after⟩
    refine ⟨here, ih ?_ after⟩
    rw [next, Nat.add_assoc]
    unfold written
    rw [List.flatMap_cons, List.length_append]

end Chunks

section

omit [DecidableEq ι]

/-- The chunks lie in the file one after the other from `start` on. -/
structure Placed (start : Nat) (file : Contents) (chunks : List (Chunk ι)) : Prop where
  consecutive : Consecutive start chunks
  limit : start + (written chunks).length < 2 ^ 32
  inside : chunks = [] ∨ start + (written chunks).length <= file.size
  contents : ∀ k, k < (written chunks).length ->
    byteAt file.data (start + k) = (written chunks).getD k 0#8

theorem Placed.append {start : Nat} {file after : Contents} {chunks : List (Chunk ι)}
    {off : BitVec 32} {src : List Byte} (placed : Placed start file chunks) (c : ι)
    (short : src.length < 2 ^ 32) (done : file.writei src off = some after)
    (next : off.toNat = start + (written chunks).length) :
    Placed start after (chunks ++ [⟨c, off.toNat, src⟩]) := by
  rcases writei_some short done with ⟨limit, size, bytes⟩
  have length : (written (chunks ++ [⟨c, off.toNat, src⟩])).length =
      (written chunks).length + src.length := by
    rw [written_append, List.length_append]
  constructor
  · exact placed.consecutive.append next
  · have small : MAXFILE * BSIZE < 2 ^ 32 := by decide
    rw [length]
    omega
  · right
    rw [length, size]
    omega
  · intro k below
    rw [length] at below
    rw [bytes, next, written_append]
    by_cases old : k < (written chunks).length
    · rw [if_neg (by omega), placed.contents k old, List.getD_append _ _ _ _ old]
    · rw [if_pos (by omega), List.getD_append_right _ _ _ _ (by omega)]
      congr 1
      omega

theorem Placed.prefix_bytes {start : Nat} {file : Contents} {chunks : List (Chunk ι)}
    (placed : Placed start file chunks) : written chunks <+: file.bytes.drop start := by
  cases placed.inside with
  | inl none =>
    rw [none]
    exact List.nil_prefix
  | inr inside =>
    rw [List.prefix_iff_eq_take]
    apply List.ext_getElem
    · simp only [Contents.bytes, List.length_take, List.length_drop, List.length_map, List.length_range]
      omega
    · intro k below _
      have here := placed.contents k below
      rw [List.getD_eq_getElem _ _ below] at here
      simp only [Contents.bytes, List.getElem_take, List.getElem_drop, List.getElem_map,
        List.getElem_range]
      exact here.symm

end

/-! ## The invariant -/

namespace Task

/-- The process has the inode lock. -/
def Holds : Task -> Prop
  | idle | looping _ _ => False
  | _ => True

/-- The bytes that are in the file and that `f->off` does not count yet. -/
def pending : Task -> Nat
  | written _ _ r => r.getD 0
  | _ => 0

/-- What the call has left to write. -/
def rest : Task -> List Byte
  | idle => []
  | looping addr i | locked addr i => addr.drop i
  | written addr i r | advanced addr i r => addr.drop (i + r.getD 0)

def Within : Task -> Prop
  | idle => True
  | looping addr i | locked addr i => i < addr.length
  | written addr i r | advanced addr i r => i < addr.length /\ i + r.getD 0 <= addr.length

end Task

/-- The chunks and `f->off`. -/
structure Kept (start : Nat) (s : State ι) : Prop where
  placed : Placed start s.file s.chunks
  lock : ∀ c, (s.task c).Holds -> s.busy = some c
  within : ∀ c, (s.task c).Within
  pending : ∀ c, 0 < (s.task c).pending ->
    s.off.toNat + (s.task c).pending = start + (written s.chunks).length
  settled : (∀ c, (s.task c).pending = 0) -> s.off.toNat = start + (written s.chunks).length

/-- A process none of whose calls has failed has written what it was given, up to what is left. -/
def InOrder (s : State ι) (c : ι) : Prop :=
  (c, none) ∉ s.results -> writtenBy c s.chunks ++ (s.task c).rest = s.given c

theorem piece_length (addr : List Byte) (i : Nat) : (piece addr i).length <= addr.length - i := by
  unfold piece
  rw [List.length_take, List.length_drop]
  exact Nat.min_le_right _ _

theorem piece_short (addr : List Byte) (i : Nat) : (piece addr i).length < 2 ^ 32 := by
  have : (piece addr i).length <= most := by
    unfold piece
    rw [List.length_take]
    exact Nat.min_le_left _ _
  exact Nat.lt_of_le_of_lt this (by decide)

theorem piece_append (addr : List Byte) (i : Nat) :
    piece addr i ++ addr.drop (i + (piece addr i).length) = addr.drop i := by
  unfold piece
  rw [<- List.drop_drop, List.length_take]
  by_cases long : most <= (addr.drop i).length
  · rw [Nat.min_eq_left long, List.take_append_drop]
  · rw [Nat.min_eq_right (by omega), List.drop_length, List.append_nil, List.take_of_length_le (by omega)]

variable {r : Option Nat}

namespace Kept

variable {start : Nat} {s t : State ι} {c : ι} {addr : List Byte} {i : Nat}

omit [DecidableEq ι] in
/-- Only one process has the lock. -/
theorem pending_of_holds (kept : Kept start s) (holds : (s.task c).Holds) {d : ι} (other : d ≠ c) :
    (s.task d).pending = 0 := by
  cases task : s.task d with
  | written addr i r =>
    have busy := kept.lock d (by rw [task]; trivial)
    rw [kept.lock c holds] at busy
    cases busy
    exact absurd rfl other
  | _ => rfl

section

variable (kept : Kept start s)

include kept

/-- A step of process `c` that writes nothing. -/
theorem retask (task : Task) (file : t.file = s.file) (chunks : t.chunks = s.chunks)
    (off : t.off = s.off) (tasks : t.task = update s.task c task)
    (pending : task.pending = (s.task c).pending) (within : task.Within)
    (lock : task.Holds -> t.busy = some c)
    (others : ∀ d, d ≠ c -> (s.task d).Holds -> t.busy = some d) : Kept start t := by
  have same : ∀ d, (t.task d).pending = (s.task d).pending := by
    intro d
    rw [tasks]
    by_cases this : d = c
    · rw [this, update_self, pending]
    · rw [update_of_ne this]
  constructor
  · rw [file, chunks]
    exact kept.placed
  · intro d holds
    rw [tasks] at holds
    by_cases this : d = c
    · rw [this, update_self] at holds
      rw [this]
      exact lock holds
    · rw [update_of_ne this] at holds
      exact others d this holds
  · intro d
    rw [tasks]
    by_cases this : d = c
    · rw [this, update_self]
      exact within
    · rw [update_of_ne this]
      exact kept.within d
  · intro d some
    rw [same] at some ⊢
    rw [off, chunks]
    exact kept.pending d some
  · intro none
    rw [off, chunks]
    exact kept.settled fun d => (same d).symm.trans (none d)

theorem loop (quiet : (s.task c).pending = 0) {u : State ι} (file : u.file = s.file)
    (chunks : u.chunks = s.chunks) (off : u.off = s.off) (tasks : u.task = s.task)
    (others : ∀ d, d ≠ c -> (s.task d).Holds -> u.busy = some d) :
    Kept start (loop u c addr i) := by
  unfold Filewrite.loop
  split
  next more =>
    exact kept.retask (.looping addr i) file chunks off (by rw [<- tasks]; rfl) quiet.symm more nofun
      others
  next =>
    exact kept.retask .idle file chunks off (by rw [<- tasks]; rfl) quiet.symm trivial nofun others

theorem ilock (here : s.task c = .looping addr i) (free : s.busy = none) :
    Kept start { setTask s c (.locked addr i) with busy := some c } := by
  have within := kept.within c
  rw [here] at within
  refine kept.retask (.locked addr i) rfl rfl rfl rfl ?_ within (fun _ => by rfl) ?_
  · rw [here]
    rfl
  · intro d _ holds
    rw [kept.lock d holds] at free
    cases free

theorem store (here : s.task c = .locked addr i) : Kept start (store s c addr i) := by
  have within := kept.within c
  rw [here] at within
  have holds : (s.task c).Holds := by
    rw [here]
    trivial
  have none : ∀ d, (s.task d).pending = 0 := by
    intro d
    by_cases this : d = c
    · rw [this, here]
      rfl
    · exact kept.pending_of_holds holds this
  have next := kept.settled none
  -- A `writei` that fails, up to the file and the chunks.
  have failed : Kept start (setTask s c (.written addr i .none)) := by
    refine kept.retask (.written addr i .none) rfl rfl rfl rfl ?_ ⟨within, Nat.le_of_lt within⟩
      (fun _ => kept.lock c holds) (fun d _ => kept.lock d)
    rw [here]
    rfl
  unfold Filewrite.store
  split
  next => exact failed
  next file done =>
    have length := piece_length addr i
    have same : ∀ r d, d ≠ c -> (setTask s c (.written addr i r)).task d = s.task d :=
      fun r d other => update_of_ne other _ _
    have mine : ∀ r, (setTask s c (.written addr i r)).task c = .written addr i r :=
      fun r => update_self c _ _
    constructor
    · exact kept.placed.append c (piece_short addr i) done next
    · intro d holding
      by_cases this : d = c
      · rw [this]
        exact kept.lock c holds
      · exact kept.lock d (same _ d this ▸ holding)
    · intro d
      dsimp only
      by_cases this : d = c
      · rw [this, mine]
        refine ⟨within, ?_⟩
        change i < addr.length at within
        rw [Option.getD_some]
        omega
      · rw [same _ d this]
        exact kept.within d
    · intro d some
      dsimp only at some ⊢
      by_cases this : d = c
      · rw [this, mine, written_append, List.length_append, <- Nat.add_assoc, <- next]
        rfl
      · rw [same _ d this, none d] at some
        cases some
    · intro quiet
      have zero : (piece addr i).length = 0 := by
        have := quiet c
        dsimp only at this
        rw [mine] at this
        exact this
      dsimp only
      rw [written_append, List.length_append, zero]
      exact next

theorem advance (here : s.task c = .written addr i r) : Kept start (advance s c addr i r) := by
  have within := kept.within c
  rw [here] at within
  have holds : (s.task c).Holds := by
    rw [here]
    trivial
  have sum : s.off.toNat + r.getD 0 = start + (written s.chunks).length := by
    by_cases some : 0 < r.getD 0
    · have pending := kept.pending c (by rw [here]; exact some)
      rw [here] at pending
      exact pending
    · have zero : r.getD 0 = 0 := Nat.eq_zero_of_not_pos some
      rw [zero]
      apply kept.settled
      intro d
      by_cases this : d = c
      · rw [this, here]
        exact zero
      · exact kept.pending_of_holds holds this
  have off : (s.off + BitVec.ofNat 32 (r.getD 0)).toNat = start + (written s.chunks).length := by
    have limit := kept.placed.limit
    rw [BitVec.toNat_add, BitVec.toNat_ofNat]
    omega
  have quiet : ∀ d, ((Filewrite.advance s c addr i r).task d).pending = 0 := by
    intro d
    by_cases this : d = c
    · rw [this]
      dsimp only [Filewrite.advance, setTask]
      rw [update_self]
      rfl
    · dsimp only [Filewrite.advance, setTask]
      rw [update_of_ne this]
      exact kept.pending_of_holds holds this
  constructor
  · exact kept.placed
  · intro d holding
    by_cases this : d = c
    · rw [this]
      exact kept.lock c holds
    · dsimp only [Filewrite.advance, setTask] at holding
      rw [update_of_ne this] at holding
      exact kept.lock d holding
  · intro d
    dsimp only [Filewrite.advance, setTask]
    by_cases this : d = c
    · rw [this, update_self]
      exact within
    · rw [update_of_ne this]
      exact kept.within d
  · intro d some
    rw [quiet] at some
    cases some
  · exact fun _ => off

theorem finish (here : s.task c = .advanced addr i r) : Kept start (finish s c addr i r) := by
  have quiet : (s.task c).pending = 0 := by
    rw [here]
    rfl
  -- The others do not hold the lock, which `c` has.
  have others : ∀ d, d ≠ c -> (s.task d).Holds -> (none : Option ι) = some d := by
    intro d other holds
    have mine := kept.lock c (by rw [here]; trivial)
    rw [kept.lock d holds] at mine
    cases mine
    exact absurd rfl other
  cases r with
  | none => exact kept.retask .idle rfl rfl rfl rfl quiet.symm trivial nofun others
  | some r => exact kept.loop quiet rfl rfl rfl rfl others

theorem step (moves : Moves s label t) : Kept start t := by
  cases moves with
  | filewrite here => exact kept.loop (by rw [here]; rfl) rfl rfl rfl rfl fun d _ => kept.lock d
  | ilock here free => exact kept.ilock here free
  | store here => exact kept.store here
  | advance here => exact kept.advance here
  | finish here => exact kept.finish here

end

end Kept

/-! ## Each writer's own order -/

section Loop

variable (s : State ι) (c : ι) (addr : List Byte) (i : Nat)

theorem loop_fields : (loop s c addr i).chunks = s.chunks /\ (loop s c addr i).given = s.given := by
  unfold loop
  split
  next => exact ⟨rfl, rfl⟩
  next => exact ⟨rfl, rfl⟩

theorem loop_task_of_ne {d : ι} (other : d ≠ c) : (loop s c addr i).task d = s.task d := by
  unfold loop
  split
  next => exact update_of_ne other _ _
  next => exact update_of_ne other _ _

theorem loop_rest (within : i <= addr.length) : ((loop s c addr i).task c).rest = addr.drop i := by
  unfold loop
  split
  next =>
    dsimp only [setTask]
    rw [update_self]
    rfl
  next done =>
    have last : i = addr.length := Nat.le_antisymm within (Nat.le_of_not_lt done)
    dsimp only [returns, setTask]
    rw [last, List.drop_length, update_self]
    rfl

theorem loop_results {result : ι × Option Nat} (old : result ∈ s.results) :
    result ∈ (loop s c addr i).results := by
  unfold loop
  split
  next => exact old
  next => exact List.mem_append_left _ old

end Loop

namespace InOrder

variable {s t : State ι} {c d : ι} {addr : List Byte} {i : Nat}

section

variable (before : InOrder s d)

include before

theorem congr (rest : (t.task d).rest = (s.task d).rest) (given : t.given d = s.given d)
    (chunks : writtenBy d t.chunks = writtenBy d s.chunks)
    (results : ∀ result, result ∈ s.results -> result ∈ t.results) : InOrder t d := by
  intro ok
  rw [rest, given, chunks]
  exact before fun failed => ok (results _ failed)

theorem filewrite (here : s.task c = .idle) :
    InOrder (loop { s with given := update s.given c (s.given c ++ addr) } c addr 0) d := by
  rcases loop_fields { s with given := update s.given c (s.given c ++ addr) } c addr
    0 with ⟨chunks, given⟩
  by_cases this : d = c
  · subst this
    intro ok
    have same := before fun failed => ok (loop_results _ _ _ _ failed)
    rw [here, Task.rest, List.append_nil] at same
    rw [loop_rest _ _ _ _ (Nat.zero_le _), chunks, given]
    dsimp only
    rw [update_self, <- same, List.drop_zero]
  · apply before.congr
    · rw [loop_task_of_ne _ _ _ _ this]
    · rw [given]
      exact update_of_ne this _ _
    · rw [chunks]
    · exact fun _ old => loop_results _ _ _ _ old

/-- A step after which the process has the same bytes left. -/
theorem setTask {task : Task} (rest : task.rest = (s.task c).rest)
    (tasks : t.task = update s.task c task) (given : t.given = s.given)
    (chunks : t.chunks = s.chunks) (results : t.results = s.results) : InOrder t d := by
  apply before.congr
  · rw [tasks]
    by_cases this : d = c
    · rw [this, update_self, rest]
    · rw [update_of_ne this]
  · rw [given]
  · rw [chunks]
  · rw [results]
    exact fun _ old => old

theorem store (here : s.task c = .locked addr i) : InOrder (store s c addr i) d := by
  have rest : (Task.written addr i none).rest = (s.task c).rest := by
    rw [here]
    rfl
  unfold Filewrite.store
  split
  next => exact before.setTask rest rfl rfl rfl rfl
  next file done =>
    by_cases this : d = c
    · subst this
      intro ok
      have same := before ok
      rw [here] at same
      change writtenBy d s.chunks ++ addr.drop i = s.given d at same
      dsimp only [Filewrite.setTask]
      rw [update_self, writtenBy_append_self, List.append_assoc]
      rw [<- same, <- piece_append addr i]
      rfl
    · apply before.congr
      · exact congrArg Task.rest (update_of_ne this _ _)
      · rfl
      · exact writtenBy_append_of_ne fun same => this same.symm
      · exact fun _ old => old

theorem finish (here : s.task c = .advanced addr i r)
    (within : (s.task c).Within) : InOrder (finish s c addr i r) d := by
  rw [here] at within
  rcases within with ⟨more, enough⟩
  cases r with
  | none =>
    by_cases this : d = c
    · subst this
      intro ok
      apply absurd _ ok
      change (d, none) ∈ s.results ++ [(d, if i = addr.length then some addr.length else none)]
      rw [if_neg (Nat.ne_of_lt more)]
      exact List.mem_append_right _ (List.mem_singleton_self _)
    · apply before.congr
      · exact congrArg Task.rest (update_of_ne this _ _)
      · rfl
      · rfl
      · exact fun _ old => List.mem_append_left _ old
  | some r =>
    rcases loop_fields { s with busy := none } c addr (i + r) with ⟨chunks, given⟩
    change InOrder (loop { s with busy := none } c addr (i + r)) d
    apply before.congr
    · by_cases this : d = c
      · rw [this, here]
        exact loop_rest _ _ _ _ enough
      · rw [loop_task_of_ne _ _ _ _ this]
    · rw [given]
    · rw [chunks]
    · exact fun _ old => loop_results _ _ _ _ old

theorem step {start : Nat} (kept : Kept start s) (moves : Moves s label t) : InOrder t d := by
  cases moves with
  | filewrite here => exact before.filewrite here
  | ilock here => exact before.setTask (by rw [here]; rfl) rfl rfl rfl rfl
  | store here => exact before.store here
  | advance here => exact before.setTask (by rw [here]; rfl) rfl rfl rfl rfl
  | finish here => exact before.finish here (kept.within _)

end

end InOrder

def Safe (start : Nat) (s : State ι) : Prop := Kept start s /\ ∀ c, InOrder s c

theorem Safe.step {start : Nat} {s t : State ι} (safe : Safe start s) (step : Step s label t) :
    Safe start t :=
  ⟨safe.1.step step.moves, fun c => (safe.2 c).step safe.1 step.moves⟩

/-- The bytes that a call of `c` is given. -/
def bytesOf (c : ι) : Label ι -> List Byte
  | .filewrite d addr => if d = c then addr else []
  | _ => []

theorem Step.given {s t : State ι} (step : Step s label t) (c : ι) :
    t.given c = s.given c ++ bytesOf c label := by
  cases step.moves with
  | @filewrite d addr =>
    rw [(loop_fields _ d addr 0).2]
    change update s.given d (s.given d ++ addr) c = _
    by_cases same : d = c
    · subst same
      rw [update_self, bytesOf, if_pos rfl]
    · rw [update_of_ne (Ne.symm same), bytesOf, if_neg same, List.append_nil]
  | ilock => exact (List.append_nil _).symm
  | @store d addr i =>
    unfold store
    split <;> exact (List.append_nil _).symm
  | advance => exact (List.append_nil _).symm
  | @finish d addr i r =>
    cases r with
    | none => exact (List.append_nil _).symm
    | some r =>
      rw [finish, (loop_fields _ d addr (i + r)).2]
      exact (List.append_nil _).symm

/-- Any number of processes write through one open file, and their calls have all returned without a
failure.  The chunks lie in the file one after the other in lock order, from the first offset on;
each process's chunks are the bytes that it gave, in its order; and `f->off` has advanced by the
total length. -/
theorem shared_filewrite {file : Contents} {off : BitVec 32} {labels : List (Label ι)} {s : State ι}
    (run : GuardedRun Step (fun _ _ => True) (shared file off) labels s)
    (succeeded : ∀ c, (c, none) ∉ s.results) (finished : ∀ c, s.task c = .idle) :
    Consecutive off.toNat s.chunks /\ written s.chunks <+: s.file.bytes.drop off.toNat /\
      s.off.toNat = off.toNat + (written s.chunks).length /\
      ∀ c, writtenBy c s.chunks = s.given c /\ s.given c = labels.flatMap (bytesOf c) := by
  have first : Kept off.toNat (shared file off : State ι) := {
    placed := ⟨trivial, off.isLt, .inl rfl, nofun⟩
    lock := nofun
    within := fun _ => trivial
    pending := nofun
    settled := fun _ => rfl }
  have start : Safe off.toNat (shared file off : State ι) := ⟨first, fun _ _ => rfl⟩
  have invariant := run.invariant (fun _ _ _ _ step before => before.step step) start
  rcases invariant with ⟨kept, order⟩
  refine ⟨kept.placed.consecutive, kept.placed.prefix_bytes, ?_, ?_⟩
  · apply kept.settled
    intro c
    rw [finished c]
    rfl
  · intro c
    have done := order c (succeeded c)
    rw [finished c, Task.rest, List.append_nil] at done
    refine ⟨done, ?_⟩
    refine run.history (fun s past => s.given c = past.flatMap (bytesOf c)) ?_ [] rfl
    intro s past label t _ step before
    rw [step.given, before, List.flatMap_append, List.flatMap_singleton]

/-- Two processes, the second of which gets the lock between the calls of the first. -/
def alternating : List (Label Bool) :=
  [.filewrite false [1#8, 2#8], .filewrite true [3#8], .ilock false, .writei false, .advance false,
    .iunlock false, .filewrite false [4#8], .ilock true, .writei true, .advance true, .iunlock true,
    .ilock false, .writei false, .advance false, .iunlock false]

theorem shared_filewrite_alternating : ∃ s : State Bool,
    GuardedRun Step (fun _ _ => True) (shared ⟨fun _ _ => 0#8, 7⟩ 7#32) alternating s /\
      (∀ c, (c, none) ∉ s.results) /\ (∀ c, s.task c = .idle) /\
      Consecutive 7 s.chunks /\ written s.chunks <+: s.file.bytes.drop 7 /\
      s.off.toNat = 7 + (written s.chunks).length /\
      ∀ c, writtenBy c s.chunks = s.given c /\ s.given c = alternating.flatMap (bytesOf c) := by
  have outcome : ∃ s : State Bool,
      checked (fun _ _ => True) perform (shared ⟨fun _ _ => 0#8, 7⟩ 7#32) alternating =
        some s /\ (∀ c, (c, none) ∉ s.results) /\ ∀ c, s.task c = .idle := by
    refine ⟨_, rfl, ?_⟩
    decide
  rcases outcome with ⟨s, reached, succeeded, finished⟩
  have run : GuardedRun Step (fun _ _ => True) (shared ⟨fun _ _ => 0#8, 7⟩ 7#32) alternating s :=
    GuardedRun.of_checked reached
  exact ⟨s, run, succeeded, finished, shared_filewrite run succeeded finished⟩

end Xv6.Fs.Filewrite
