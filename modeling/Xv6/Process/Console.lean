import Mathlib.Data.List.Infix
import Mathlib.Data.List.Count
import Xv6.Library.GuardedRun
import Xv6.Library.Ring

namespace Xv6.Console

open Library
open Function

/-!
# The line discipline of `console.c`

`consoleintr` puts characters into a ring, at the index `e`.  What is between
`w` and `e` may still be edited; a newline, a `^D` or a full ring commits it by
`w = e`.  `consoleread` takes committed characters at the index `r`.  A step is
what happens from the time that `input.lock` is acquired until it is released.

The characters come from `kbdgetc` and `uartgetc`, which return bytes.  The
echo of `consputc` is left out.  A sleeping reader may look at the ring again
at any time: what wakes it up does not matter here.
-/

abbrev Byte := BitVec 8

/-- `INPUT_BUF` -/
def size : Ring.Capacity 32 := ⟨128, by decide, by decide, by decide⟩

/-- `C(x)` -/
def C (x : Char) : Byte := BitVec.ofNat 8 (x.toNat - 64)

def newline : Byte := 10#8
def carriageReturn : Byte := 13#8
def delete : Byte := 0x7f#8

structure Input where
  /-- `buf`, `r` and `e` -/
  ring : Ring 32 Byte
  w : BitVec 32

/-! ## `consoleintr` -/

/-- The loop for `^U`.  It ends at `w` at the latest. -/
def killLine (w : BitVec 32) : Nat -> Ring 32 Byte -> Ring 32 Byte
  | 0, ring => ring
  | more + 1, ring =>
    if ring.tail ≠ w /\ ring.back size ≠ newline then killLine w more ring.unpush else ring

/-- The rest of the last case, once `c` is stored. -/
def commitAt (c : Byte) (w : BitVec 32) (ring : Ring 32 Byte) : Input :=
  if c = newline ∨ c = C 'D' ∨ ring.full size then ⟨ring, ring.tail⟩ else ⟨ring, w⟩

/-- One pass of the loop of `consoleintr`. -/
def receive (input : Input) (c : Byte) : Input :=
  if c = C 'P' then input
  else if c = C 'U' then
    { input with ring := killLine input.w (input.ring.tail - input.w).toNat input.ring }
  else if c = C 'H' ∨ c = delete then
    if input.ring.tail ≠ input.w then { input with ring := input.ring.unpush } else input
  else if c ≠ 0#8 /\ (input.ring.tail - input.ring.head).toNat < size.slots then
    let c := if c = carriageReturn then newline else c
    commitAt c input.w (input.ring.push size c)
  else input

def consoleintr (input : Input) (chars : List Byte) : Input := chars.foldl receive input

/-! ## `consoleread` -/

inductive Exit where
  /-- `n` bytes were read. -/
  | full
  | line
  | eof
  | killed
  deriving DecidableEq, Repr

/-- What a step of a read has done. -/
structure Report where
  /-- The bytes stored at `dst`. -/
  bytes : List Byte
  /-- `n` at the end -/
  left : Nat
  /-- How the call returned; `none` when it went to sleep. -/
  exit : Option Exit
  deriving DecidableEq, Repr

/-- One more byte was stored first. -/
def Report.cons (c : Byte) (report : Report) : Report := { report with bytes := c :: report.bytes }

/-- The loop of `consoleread`, with `n` bytes to go. -/
def readLoop (target : Nat) (killed : Bool) : Nat -> Input -> Input × Report
  | 0, input => (input, ⟨[], 0, some .full⟩)
  | n + 1, input =>
    if input.ring.head = input.w then (input, ⟨[], n + 1, if killed then some .killed else none⟩)
    else
      let c := input.ring.front size
      let taken := { input with ring := input.ring.pop }
      if c = C 'D' then
        -- `input.r--` when something was read before
        let ring := if n + 1 < target then { taken.ring with head := taken.ring.head - 1#32 }
            else taken.ring
        ({ taken with ring := ring }, ⟨[], n + 1, some .eof⟩)
      else if c = newline then (taken, ⟨[c], n, some .line⟩)
      else
        let rest := readLoop target killed n taken
        (rest.1, rest.2.cons c)

/-! ## Runs -/

variable {ι : Type}

/-- A call of `consoleread` that sleeps. -/
structure Waiting where
  target : Nat
  left : Nat
  /-- What it has stored at `dst`. -/
  bytes : List Byte

/-- A call of `consoleread` that returned. -/
structure Finished (ι : Type) where
  reader : ι
  target : Nat
  bytes : List Byte
  exit : Exit

/-- What the call returns. -/
def Finished.result (f : Finished ι) : Int := if f.exit = .killed then -1 else f.bytes.length

/-- The readers, and what they got. -/
structure Readers (ι : Type) where
  reader : ι -> Option Waiting
  /-- Every byte stored for a reader, in order. -/
  delivered : List Byte
  finished : List (Finished ι)

structure State (ι : Type) where
  input : Input
  readers : Readers ι

inductive Label (ι : Type) where
  /-- `consoleintr`, with the characters that `getc` returns. -/
  | intr (chars : List Byte)
  /-- `consoleread(ip, dst, n)`; `killed` is what it sees of `proc->killed`. -/
  | read (p : ι) (n : Int) (killed : Bool)
  /-- A sleeping reader gets the lock again. -/
  | resume (p : ι) (killed : Bool)

variable [DecidableEq ι]

/-- A step of the call `call` of process `p` reports. -/
def Readers.after (r : Readers ι) (p : ι) (call : Waiting) (report : Report) : Readers ι :=
  let bytes := call.bytes ++ report.bytes
  match report.exit with
  | none =>
    { r with
      reader := update r.reader p (some ⟨call.target, report.left, bytes⟩)
      delivered := r.delivered ++ report.bytes }
  | some exit =>
    { reader := update r.reader p none
      delivered := r.delivered ++ report.bytes
      finished := r.finished ++ [⟨p, call.target, bytes, exit⟩] }

def consoleread (s : State ι) (p : ι) (killed : Bool) (call : Waiting) : State ι :=
  let done := readLoop call.target killed call.left s.input
  ⟨done.1, s.readers.after p call done.2⟩

/-- The call starts with `n` bytes to go; none when `n` is negative. -/
def newCall (n : Int) : Waiting := ⟨n.toNat, n.toNat, []⟩

def perform (s : State ι) : Label ι -> Option (State ι)
  | .intr chars => some { s with input := consoleintr s.input chars }
  | .read p n killed =>
    if (s.readers.reader p).isNone then some (consoleread s p killed (newCall n)) else none
  | .resume p killed => (s.readers.reader p).map (consoleread s p killed)

def Step (s : State ι) (label : Label ι) (t : State ι) : Prop := perform s label = some t

def started (buf : Nat -> Byte) : State ι := ⟨⟨⟨buf, 0#32, 0#32⟩, 0#32⟩, ⟨fun _ => none, [], []⟩⟩

/-! ## The line discipline

What is committed, how much of it readers have taken, and the line that is
being typed, without a ring.
-/

structure Line where
  committed : List Byte
  taken : Nat
  pending : List Byte

namespace Line

def unread (l : Line) : List Byte := l.committed.drop l.taken

/-- A character is accepted when there is room for it. -/
def accepts (l : Line) (c : Byte) : Prop := c ≠ 0#8 /\ l.unread.length + l.pending.length < 128

instance (l : Line) (c : Byte) : Decidable (l.accepts c) := inferInstanceAs (Decidable (_ /\ _))

/-- An accepted character goes to the end of the line, which it may commit. -/
def add (l : Line) (c : Byte) : Line :=
  if c = newline ∨ c = C 'D' ∨ l.unread.length + (l.pending ++ [c]).length = 128 then
    ⟨l.committed ++ (l.pending ++ [c]), l.taken, []⟩
  else { l with pending := l.pending ++ [c] }

def type (l : Line) (c : Byte) : Line :=
  if c = C 'P' then l
  else if c = C 'U' then { l with pending := [] }
  else if c = C 'H' ∨ c = delete then { l with pending := l.pending.dropLast }
  else if l.accepts c then l.add (if c = carriageReturn then newline else c)
  else l

/-- What a read takes of the unread characters, and its report.  A `^D` ends it, and is taken when
it comes first. -/
def read (target : Nat) (killed : Bool) : Nat -> List Byte -> Nat × Report
  | 0, _ => (0, ⟨[], 0, some .full⟩)
  | n + 1, [] => (0, ⟨[], n + 1, if killed then some .killed else none⟩)
  | n + 1, c :: rest =>
    if c = C 'D' then (if n + 1 < target then 0 else 1, ⟨[], n + 1, some .eof⟩)
    else if c = newline then (1, ⟨[c], n, some .line⟩)
    else
      let more := read target killed n rest
      (more.1 + 1, more.2.cons c)

end Line

/-- The line discipline with its readers. -/
structure Discipline (ι : Type) where
  line : Line
  readers : Readers ι

namespace Discipline

def read (d : Discipline ι) (p : ι) (killed : Bool) (call : Waiting) : Discipline ι :=
  let done := Line.read call.target killed call.left d.line.unread
  ⟨{ d.line with taken := d.line.taken + done.1 }, d.readers.after p call done.2⟩

def perform (d : Discipline ι) : Label ι -> Option (Discipline ι)
  | .intr chars => some { d with line := chars.foldl Line.type d.line }
  | .read p n killed => if (d.readers.reader p).isNone then some (d.read p killed (newCall n)) else none
  | .resume p killed => (d.readers.reader p).map (d.read p killed)

def started : Discipline ι := ⟨⟨[], 0, []⟩, ⟨fun _ => none, [], []⟩⟩

end Discipline

/-! ## The ring follows the line -/

/-- The ring has the unread characters, and after them the line. -/
structure Follows (input : Input) (l : Line) : Prop where
  holding : Ring.Holding size input.ring (l.unread ++ l.pending)
  w : input.w = input.ring.head + BitVec.ofNat 32 l.unread.length
  taken : l.taken <= l.committed.length
  plain : ∀ c, c ∈ l.pending -> c ≠ newline /\ c ≠ C 'D'

namespace Follows

variable {input : Input} {l : Line}

section

variable (follows : Follows input l)

include follows

theorem length : l.unread.length + l.pending.length <= 128 := by
  have bound := follows.holding.bounded
  rw [List.length_append] at bound
  exact bound

theorem tail_eq : input.ring.tail = input.w + BitVec.ofNat 32 l.pending.length := by
  rw [follows.holding.tail, List.length_append, BitVec.ofNat_add, <- BitVec.add_assoc, <- follows.w]

/-- The two parts of the ring. -/
theorem distance :
    (input.w - input.ring.head).toNat = l.unread.length /\
    (input.ring.tail - input.w).toNat = l.pending.length := by
  have bound := follows.length
  constructor
  · rw [follows.w, BitVec.add_comm, BitVec.add_sub_cancel, BitVec.toNat_ofNat]
    omega
  · rw [follows.tail_eq, BitVec.add_comm, BitVec.add_sub_cancel, BitVec.toNat_ofNat]
    omega

theorem editable_iff : input.ring.tail ≠ input.w <-> l.pending ≠ [] := by
  constructor
  · intro apart none
    apply apart
    rw [follows.tail_eq, none]
    exact BitVec.add_zero _
  · intro some same
    have part := follows.distance.2
    rw [same, BitVec.sub_self] at part
    exact some (List.length_eq_zero_iff.mp part.symm)

theorem readable_iff : input.ring.head = input.w <-> l.unread = [] := by
  constructor
  · intro same
    have part := follows.distance.1
    rw [same, BitVec.sub_self] at part
    exact List.length_eq_zero_iff.mp part.symm
  · intro none
    have w := follows.w
    rw [none] at w
    exact (w.trans (BitVec.add_zero _)).symm

end

variable {c : Byte}

/-- The character that was typed last is erased. -/
theorem erase {typed : List Byte} (follows : Follows input { l with pending := typed ++ [c] }) :
    input.ring.back size = c /\
    Follows { input with ring := input.ring.unpush } { l with pending := typed } := by
  have holding := follows.holding
  change Ring.Holding size input.ring (l.unread ++ (typed ++ [c])) at holding
  rw [<- List.append_assoc] at holding
  refine ⟨holding.unpush.1, holding.unpush.2, follows.w, follows.taken, ?_⟩
  intro other listed
  exact follows.plain other (List.mem_append_left _ listed)

/-- The loop for `^U` erases the whole line. -/
theorem killLine (typed : List Byte) :
    ∀ {input : Input}, Follows input { l with pending := typed } ->
    Follows { input with ring := Console.killLine input.w typed.length input.ring }
      { l with pending := [] } := by
  induction typed using List.reverseRecOn with
  | nil => exact fun follows => follows
  | append_singleton typed c ih =>
    intro input follows
    rcases follows.erase with ⟨back, shorter⟩
    have edit : input.ring.tail ≠ input.w := follows.editable_iff.mpr (by simp)
    have plain := (follows.plain c (by simp)).1
    rw [List.length_append, List.length_singleton, Console.killLine, if_pos ⟨edit, back ▸ plain⟩]
    exact ih shorter

theorem add (follows : Follows input l) (room : l.unread.length + l.pending.length < 128) :
    Follows (commitAt c input.w (input.ring.push size c)) (l.add c) := by
  have notFull : ¬ input.ring.full size := by
    rw [follows.holding.full_iff, List.length_append]
    exact Nat.ne_of_lt room
  have pushed := follows.holding.push notFull c
  rw [List.append_assoc] at pushed
  have full : (input.ring.push size c).full size <->
      l.unread.length + (l.pending ++ [c]).length = 128 := by
    rw [pushed.full_iff, List.length_append]
    rfl
  have same : (c = newline ∨ c = C 'D' ∨ (input.ring.push size c).full size) <->
      c = newline ∨ c = C 'D' ∨ l.unread.length + (l.pending ++ [c]).length = 128 := by
    rw [full]
  unfold commitAt Line.add
  by_cases commits : c = newline ∨ c = C 'D' ∨ l.unread.length + (l.pending ++ [c]).length = 128
  · have unread : (Line.mk (l.committed ++ (l.pending ++ [c])) l.taken []).unread =
        l.unread ++ (l.pending ++ [c]) :=
      List.drop_append_of_le_length follows.taken
    rw [if_pos (same.mpr commits), if_pos commits]
    refine ⟨?_, ?_, ?_, nofun⟩
    · rw [unread, List.append_nil]
      exact pushed
    · rw [unread]
      exact pushed.tail
    · rw [List.length_append]
      exact Nat.le_add_right_of_le follows.taken
  · rw [if_neg (same.not.mpr commits), if_neg commits]
    refine ⟨pushed, follows.w, follows.taken, ?_⟩
    intro other listed
    rcases List.mem_append.mp listed with old | new
    · exact follows.plain other old
    · rw [List.mem_singleton.mp new]
      exact ⟨fun same => commits (.inl same), fun same => commits (.inr (.inl same))⟩

theorem receive (follows : Follows input l) (c : Byte) :
    Follows (Console.receive input c) (l.type c) := by
  unfold Console.receive Line.type
  by_cases list : c = C 'P'
  · rw [if_pos list, if_pos list]
    exact follows
  rw [if_neg list, if_neg list]
  by_cases kill : c = C 'U'
  · rw [if_pos kill, if_pos kill, follows.distance.2]
    exact follows.killLine l.pending
  rw [if_neg kill, if_neg kill]
  by_cases back : c = C 'H' ∨ c = delete
  · rw [if_pos back, if_pos back]
    by_cases none : l.pending = []
    · rw [if_neg fun edit => follows.editable_iff.mp edit none, none]
      change Follows input { l with pending := [] }
      rw [<- none]
      exact follows
    · rw [if_pos (follows.editable_iff.mpr none)]
      have whole : Follows input
        { l with pending := l.pending.dropLast ++ [l.pending.getLast none] } := by
        rw [List.dropLast_append_getLast none]
        exact follows
      exact whole.erase.2
  rw [if_neg back, if_neg back]
  have room : (input.ring.tail - input.ring.head).toNat = l.unread.length + l.pending.length := by
    rw [follows.holding.difference, List.length_append]
  rw [room]
  by_cases accepted : l.accepts c
  · have stored : c ≠ 0#8 /\ l.unread.length + l.pending.length < size.slots := accepted
    rw [if_pos stored, if_pos accepted]
    exact follows.add accepted.2
  · have dropped : ¬ (c ≠ 0#8 /\ l.unread.length + l.pending.length < size.slots) := accepted
    rw [if_neg dropped, if_neg accepted]
    exact follows

theorem consoleintr (chars : List Byte) : ∀ {input : Input} {l : Line}, Follows input l ->
    Follows (Console.consoleintr input chars) (chars.foldl Line.type l) := by
  induction chars with
  | nil => exact fun follows => follows
  | cons c rest ih => exact fun follows => ih (follows.receive c)

/-- A reader takes the first unread character. -/
theorem pop {rest : List Byte} (follows : Follows input l) (first : l.unread = c :: rest) :
    input.ring.front size = c /\ ({ l with taken := l.taken + 1 } : Line).unread = rest /\
      Follows { input with ring := input.ring.pop } { l with taken := l.taken + 1 } := by
  have holding := follows.holding
  rw [first, List.cons_append] at holding
  have next : ({ l with taken := l.taken + 1 } : Line).unread = rest := by
    have tail := congrArg List.tail first
    rw [Line.unread, List.tail_drop] at tail
    exact tail
  have less : l.taken < l.committed.length := by
    by_contra all
    have none : l.unread = [] := List.drop_eq_nil_of_le (Nat.le_of_not_lt all)
    rw [first] at none
    cases none
  refine ⟨holding.pop.1, next, ?_, ?_, less, follows.plain⟩
  · rw [next]
    exact holding.pop.2
  · rw [next]
    have w := follows.w
    rw [first, List.length_cons, Nat.add_comm, BitVec.ofNat_add, <- BitVec.add_assoc] at w
    exact w

theorem readLoop (target : Nat) (killed : Bool) (n : Nat) :
    ∀ {input : Input} {l : Line}, Follows input l ->
    (readLoop target killed n input).2 = (Line.read target killed n l.unread).2 /\
      Follows (Console.readLoop target killed n input).1
        { l with taken := l.taken + (Line.read target killed n l.unread).1 } := by
  induction n with
  | zero =>
    intro input l follows
    exact ⟨rfl, follows⟩
  | succ n ih =>
    intro input l follows
    cases first : l.unread with
    | nil =>
      rw [Console.readLoop, if_pos (follows.readable_iff.mpr first)]
      exact ⟨rfl, follows⟩
    | cons c rest =>
      have some : input.ring.head ≠ input.w := by
        intro same
        rw [follows.readable_iff.mp same] at first
        cases first
      rcases follows.pop first with ⟨front, next, popped⟩
      rw [Console.readLoop, if_neg some, Line.read]
      dsimp only
      rw [front]
      by_cases eof : c = C 'D'
      · rw [if_pos eof, if_pos eof]
        refine ⟨rfl, ?_⟩
        by_cases again : n + 1 < target
        · have back : ({ input.ring.pop with head := input.ring.pop.head - 1#32 } : Ring 32 Byte) =
              input.ring := by
            unfold Ring.pop
            rw [BitVec.add_sub_cancel]
          rw [if_pos again, if_pos again, back]
          exact follows
        · rw [if_neg again, if_neg again]
          exact popped
      · rw [if_neg eof, if_neg eof]
        by_cases line : c = newline
        · rw [if_pos line, if_pos line]
          exact ⟨rfl, popped⟩
        · rw [if_neg line, if_neg line]
          rcases ih popped with ⟨same, later⟩
          rw [next] at same later
          refine ⟨congrArg (Report.cons c) same, ?_⟩
          rw [Nat.add_assoc, Nat.add_comm 1] at later
          exact later

end Follows

/-! ## What readers get -/

/-- A read takes a part of what is unread.  Its bytes are that part without a `^D`, and a `^D` is in
it only when nothing else is. -/
structure Takes (target n : Nat) (unread : List Byte) (done : Nat × Report) : Prop where
  part : done.1 <= unread.length
  bytes : done.2.bytes = (unread.take done.1).filter fun c => c ≠ C 'D'
  left : done.2.bytes.length + done.2.left = n
  marker : (unread.take done.1).count (C 'D') =
    if done.2.exit = some .eof /\ target <= done.2.left then 1 else 0

theorem Line.read_takes (target : Nat) (killed : Bool) (n : Nat) :
    ∀ unread, Takes target n unread (Line.read target killed n unread) := by
  induction n with
  | zero => exact fun unread => ⟨Nat.zero_le _, rfl, rfl, rfl⟩
  | succ n ih =>
    intro unread
    cases unread with
    | nil =>
      refine ⟨Nat.le_refl _, rfl, Nat.zero_add _, ?_⟩
      cases killed <;> rfl
    | cons c rest =>
      rw [Line.read]
      by_cases eof : c = C 'D'
      · subst eof
        rw [if_pos rfl]
        by_cases again : n + 1 < target
        · rw [if_pos again]
          refine ⟨Nat.zero_le _, rfl, Nat.zero_add _, ?_⟩
          rw [if_neg fun first => absurd first.2 (Nat.not_le.mpr again)]
          rfl
        · rw [if_neg again]
          refine ⟨Nat.le_add_left 1 rest.length, ?_, Nat.zero_add _, ?_⟩
          · simp
          · rw [if_pos ⟨rfl, Nat.not_lt.mp again⟩]
            simp
      · rw [if_neg eof]
        by_cases line : c = newline
        · subst line
          rw [if_pos rfl]
          refine ⟨Nat.le_add_left 1 rest.length, ?_, Nat.add_comm 1 n, ?_⟩
          · simp [eof]
          · rw [if_neg fun first => nomatch first.1]
            simp [eof]
        · rw [if_neg line]
          have takes := ih rest
          dsimp only
          generalize Line.read target killed n rest = more at takes
          have left := takes.left
          refine ⟨Nat.succ_le_succ takes.part, ?_, ?_, ?_⟩
          · rw [List.take_succ_cons, List.filter_cons_of_pos (by simpa using eof), <- takes.bytes]
            rfl
          · change more.2.bytes.length + 1 + more.2.left = n + 1
            omega
          · rw [List.take_succ_cons, List.count_cons_of_ne eof, takes.marker]
            rfl

/-- What has been taken so far, and by whom. -/
structure Sound (d : Discipline ι) : Prop where
  part : d.line.taken <= d.line.committed.length
  delivered : d.readers.delivered = (d.line.committed.take d.line.taken).filter fun c => c ≠ C 'D'
  markers : (d.line.committed.take d.line.taken).count (C 'D') =
    d.readers.finished.countP fun f => f.exit = .eof /\ f.bytes = []
  waiting : ∀ p call, d.readers.reader p = some call ->
    call.bytes.length + call.left = call.target /\ C 'D' ∉ call.bytes
  plain : ∀ f, f ∈ d.readers.finished -> C 'D' ∉ f.bytes

theorem Line.add_grows (l : Line) (c : Byte) :
    l.committed <+: (l.add c).committed /\ (l.add c).taken = l.taken := by
  unfold Line.add
  split
  next => exact ⟨List.prefix_append _ _, rfl⟩
  next => exact ⟨List.prefix_rfl, rfl⟩

theorem Line.type_grows (l : Line) (c : Byte) :
    l.committed <+: (l.type c).committed /\ (l.type c).taken = l.taken := by
  unfold Line.type
  split
  next => exact ⟨List.prefix_rfl, rfl⟩
  next =>
    split
    next => exact ⟨List.prefix_rfl, rfl⟩
    next =>
      split
      next => exact ⟨List.prefix_rfl, rfl⟩
      next =>
        split
        next => exact l.add_grows _
        next => exact ⟨List.prefix_rfl, rfl⟩

theorem Line.types_grow (chars : List Byte) : ∀ l : Line,
    l.committed <+: (chars.foldl Line.type l).committed /\
    (chars.foldl Line.type l).taken = l.taken := by
  induction chars with
  | nil => exact fun l => ⟨List.prefix_rfl, rfl⟩
  | cons c rest ih =>
    intro l
    rcases l.type_grows c with ⟨grows, taken⟩
    rcases ih (l.type c) with ⟨more, still⟩
    exact ⟨grows.trans more, still.trans taken⟩

theorem take_prefix {first second : List Byte} {n : Nat} (grows : first <+: second)
    (part : n <= first.length) : second.take n = first.take n := by
  rcases grows with ⟨more, rfl⟩
  exact List.take_append_of_le_length part

namespace Sound

variable {d e : Discipline ι}

omit [DecidableEq ι] in
theorem intr (sound : Sound d) (chars : List Byte) :
    Sound { d with line := chars.foldl Line.type d.line } := by
  rcases Line.types_grow chars d.line with ⟨grows, taken⟩
  have same : (chars.foldl Line.type d.line).committed.take (chars.foldl Line.type d.line).taken =
      d.line.committed.take d.line.taken := by
    rw [taken]
    exact take_prefix grows sound.part
  refine ⟨?_, ?_, ?_, sound.waiting, sound.plain⟩
  · rw [taken]
    exact Nat.le_trans sound.part grows.length_le
  · rw [same]
    exact sound.delivered
  · rw [same]
    exact sound.markers

/-- A step of a read. -/
theorem read (sound : Sound d) (p : ι) (killed : Bool) {call : Waiting}
    (proper : call.bytes.length + call.left = call.target) (clean : C 'D' ∉ call.bytes) :
    Sound (d.read p killed call) := by
  have takes := Line.read_takes call.target killed call.left d.line.unread
  unfold Discipline.read
  dsimp only
  generalize Line.read call.target killed call.left d.line.unread = done at takes
  rcases done with ⟨count, bytes, left, exit⟩
  have part := takes.part
  have total := takes.left
  have marker := takes.marker
  have room := takes.bytes
  dsimp only at part total marker room
  have more : d.line.committed.take (d.line.taken + count) =
      d.line.committed.take d.line.taken ++ d.line.unread.take count :=
    List.take_add
  have inside : d.line.taken + count <= d.line.committed.length := by
    have length : d.line.unread.length = d.line.committed.length - d.line.taken := List.length_drop
    have before := sound.part
    omega
  have delivered : d.readers.delivered ++ bytes =
      (d.line.committed.take (d.line.taken + count)).filter fun c => c ≠ C 'D' := by
    rw [more, List.filter_append, <- sound.delivered, <- room]
  have first : call.target <= left <-> call.bytes ++ bytes = [] := by
    rw [List.append_eq_nil_iff, <- List.length_eq_zero_iff, <- List.length_eq_zero_iff]
    omega
  have plain : C 'D' ∉ call.bytes ++ bytes := by
    intro listed
    rcases List.mem_append.mp listed with old | new
    · exact clean old
    · rw [room] at new
      exact of_decide_eq_true (List.mem_filter.mp new).2 rfl
  unfold Readers.after
  cases exit with
  | none =>
    refine ⟨inside, delivered, ?_, ?_, sound.plain⟩
    · rw [more, List.count_append, sound.markers, marker, if_neg fun wrong => nomatch wrong.1]
      rfl
    · grind [update_apply, sound.waiting]
  | some exit =>
    refine ⟨inside, delivered, ?_, ?_, ?_⟩
    · rw [more, List.count_append, sound.markers, marker, List.countP_append, List.countP_singleton]
      simp only [Option.some.injEq, first, decide_eq_true_eq]
    · grind [update_apply, sound.waiting]
    · intro f listed
      rcases List.mem_append.mp listed with old | new
      · exact sound.plain f old
      · rw [List.mem_singleton.mp new]
        exact plain

end Sound

variable {d : Discipline ι}

/-- Committed characters and delivered bytes stay. -/
theorem Discipline.perform_grows {e : Discipline ι} {label : Label ι}
    (step : d.perform label = some e) :
    d.line.committed <+: e.line.committed /\ d.readers.delivered <+: e.readers.delivered := by
  have reads : ∀ p killed call, d.line.committed <+: (d.read p killed call).line.committed /\
      d.readers.delivered <+: (d.read p killed call).readers.delivered := by
    intro p killed call
    refine ⟨List.prefix_rfl, ?_⟩
    unfold Discipline.read Readers.after
    dsimp only
    split
    next => exact List.prefix_append _ _
    next => exact List.prefix_append _ _
  unfold Discipline.perform at step
  cases label with
  | intr chars =>
    cases step
    exact ⟨(Line.types_grow chars d.line).1, List.prefix_rfl⟩
  | read p n killed =>
    dsimp only at step
    split at step
    next =>
      cases step
      exact reads p killed (newCall n)
    next => cases step
  | resume p killed =>
    rcases Option.map_eq_some_iff.mp step with ⟨call, _, rfl⟩
    exact reads p killed call

theorem Discipline.run_grows (labels : List (Label ι)) : ∀ {d e : Discipline ι},
    labels.foldlM Discipline.perform d = some e ->
      d.line.committed <+: e.line.committed /\ d.readers.delivered <+: e.readers.delivered := by
  induction labels with
  | nil =>
    intro d e run
    cases run
    exact ⟨List.prefix_rfl, List.prefix_rfl⟩
  | cons label rest ih =>
    intro d e run
    rw [List.foldlM_cons] at run
    rcases Option.bind_eq_some_iff.mp run with ⟨middle, step, later⟩
    have one := Discipline.perform_grows step
    have two := ih later
    exact ⟨one.1.trans two.1, one.2.trans two.2⟩

/-! ## Every run -/

/-- The state of the ring and the line discipline that it implements. -/
structure Related (s : State ι) (d : Discipline ι) : Prop where
  follows : Follows s.input d.line
  readers : s.readers = d.readers
  sound : Sound d

omit [DecidableEq ι] in
theorem related_started (buf : Nat -> Byte) :
    Related (started buf : State ι) Discipline.started where
  follows := ⟨Ring.Holding.of_empty rfl, rfl, Nat.le_refl _, nofun⟩
  readers := rfl
  sound := ⟨Nat.le_refl _, rfl, rfl, nofun, nofun⟩

theorem Related.step {s t : State ι} {label : Label ι} (related : Related s d)
    (step : Step s label t) : ∃ e, d.perform label = some e /\ Related t e := by
  have reads : ∀ p killed call, call.bytes.length + call.left = call.target -> C 'D' ∉ call.bytes ->
      Related (consoleread s p killed call) (d.read p killed call) := by
    intro p killed call proper clean
    rcases related.follows.readLoop call.target killed call.left with ⟨report, follows⟩
    refine ⟨follows, ?_, related.sound.read p killed proper clean⟩
    unfold consoleread Discipline.read
    dsimp only
    rw [report, related.readers]
  have same := related.readers
  unfold Step perform at step
  unfold Discipline.perform
  cases label with
  | intr chars =>
    cases step
    exact ⟨_, rfl, related.follows.consoleintr chars, same, related.sound.intr chars⟩
  | read p n killed =>
    dsimp only at step ⊢
    rw [same] at step
    split at step
    next idle =>
      cases step
      rw [if_pos idle]
      exact ⟨_, rfl, reads p killed (newCall n) (Nat.zero_add _) nofun⟩
    next => cases step
  | resume p killed =>
    dsimp only at step ⊢
    rw [same] at step
    rcases Option.map_eq_some_iff.mp step with ⟨call, asleep, rfl⟩
    rcases related.sound.waiting p call asleep with ⟨proper, clean⟩
    rw [asleep]
    exact ⟨_, rfl, reads p killed call proper clean⟩

/-- The indices of the ring are in order and at most `INPUT_BUF` apart, as distances modulo `2 ^
32`. -/
def Ordered (input : Input) : Prop :=
  (input.w - input.ring.head).toNat + (input.ring.tail - input.w).toNat =
    (input.ring.tail - input.ring.head).toNat /\ (input.ring.tail - input.ring.head).toNat <= 128

theorem Follows.ordered {input : Input} {l : Line} (follows : Follows input l) : Ordered input := by
  have whole := follows.holding.difference
  rw [List.length_append] at whole
  unfold Ordered
  rw [follows.distance.1, follows.distance.2, whole]
  exact ⟨rfl, follows.length⟩

/-- A read that meets a `^D` first returns 0 and takes it. -/
theorem Related.first_marker {s : State ι} (related : Related s d) {p : ι} {n : Int}
    {rest : List Byte} (idle : s.readers.reader p = none) (pos : 0 < n)
    (first : d.line.unread = C 'D' :: rest) (killed : Bool) :
    ∃ t, Step s (.read p n killed) t /\
      t.readers.finished = s.readers.finished ++ [⟨p, n.toNat, [], .eof⟩] /\
      t.readers.delivered = s.readers.delivered := by
  have report := (related.follows.readLoop n.toNat killed n.toNat).1
  have read : (Line.read n.toNat killed n.toNat d.line.unread).2 = ⟨[], n.toNat, some .eof⟩ := by
    rw [first]
    cases count : n.toNat with
    | zero => omega
    | succ k => rw [Line.read, if_pos rfl]
  rw [read] at report
  have idle' : (s.readers.reader p).isNone = true := by
    rw [idle]
    rfl
  refine ⟨consoleread s p killed (newCall n), ?_, ?_, ?_⟩
  · unfold Step perform
    dsimp only
    rw [if_pos idle']
  · unfold consoleread newCall
    dsimp only
    rw [report]
    rfl
  · unfold consoleread newCall
    dsimp only
    rw [report]
    exact List.append_nil _

/-- Every run of the console is a run of the line discipline: readers get the same bytes and the
same results.  The indices stay in order.  What is delivered is the committed input, up to where it
was taken, without its `^D` markers.  A read that meets a marker first returns 0, each marker that
was taken made one read do so, and no read stores one.  Nothing that is committed is ever erased,
and nothing that is delivered is taken back. -/
theorem line_discipline {buf : Nat -> Byte} {labels : List (Label ι)} {s : State ι}
    (run : GuardedRun Step (fun _ _ => True) (started buf) labels s) : ∃ d : Discipline ι,
      labels.foldlM Discipline.perform Discipline.started = some d /\ s.readers = d.readers /\
      Ordered s.input /\ (s.input.w - s.input.ring.head).toNat = d.line.unread.length /\
      (s.input.ring.tail - s.input.w).toNat = d.line.pending.length /\
      s.readers.delivered = (d.line.committed.take d.line.taken).filter (fun c => c ≠ C 'D') /\
      (d.line.committed.take d.line.taken).count (C 'D') =
        s.readers.finished.countP (fun f => f.exit = .eof /\ f.bytes = []) /\
      (∀ f, f ∈ s.readers.finished ->
        C 'D' ∉ f.bytes /\ (f.exit = .eof -> f.result = f.bytes.length)) /\
      (∀ p n rest killed, s.readers.reader p = none -> 0 < n -> d.line.unread = C 'D' :: rest ->
        ∃ t, Step s (.read p n killed) t /\
          t.readers.finished = s.readers.finished ++ [⟨p, n.toNat, [], .eof⟩] /\
          t.readers.delivered = s.readers.delivered) /\
      ∀ (more : List (Label ι)) (later : Discipline ι),
        more.foldlM Discipline.perform d = some later ->
        d.line.committed <+: later.line.committed /\
        d.readers.delivered <+: later.readers.delivered := by
  have kept : ∀ (s : State ι) label t (d : Discipline ι), True -> Step s label t -> Related s d ->
      ∃ e, d.perform label = some e /\ Related t e :=
    fun _ _ _ _ _ step related => related.step step
  rcases run.simulate kept (related_started buf) with ⟨d, abstract, related⟩
  have sound := related.sound
  have same := related.readers
  have distance := related.follows.distance
  refine ⟨d, abstract, same, related.follows.ordered, distance.1, distance.2, ?_, ?_, ?_, ?_, ?_⟩
  · rw [same]
    exact sound.delivered
  · rw [same]
    exact sound.markers
  · intro f listed
    rw [same] at listed
    refine ⟨sound.plain f listed, ?_⟩
    intro eof
    unfold Finished.result
    rw [eof]
    rfl
  · intro p n rest killed idle pos first
    exact related.first_marker idle pos first killed
  · exact fun more later => Discipline.run_grows more

/-- A reader waits, a line with a correction is typed, and a `^D` follows. -/
def typedLine : List (Label Bool) :=
  [.read true 10 false, .intr [97#8, 98#8, C 'H', 99#8, carriageReturn], .resume true false,
    .intr [C 'D'], .read true 5 false]

theorem line_discipline_typedLine : ∃ s : State Bool,
    GuardedRun Step (fun _ _ => True) (started fun _ => 0#8) typedLine s /\
      s.readers.delivered = [97#8, 99#8, newline] /\
      s.readers.finished.map Finished.result = [3, 0] /\ Ordered s.input := by
  have outcome : ∃ s : State Bool,
      checked (fun _ _ => True) perform (started fun _ => 0#8) typedLine = some s /\
        s.readers.delivered = [97#8, 99#8, newline] /\ s.readers.finished.map Finished.result = [3, 0] :=
    ⟨_, rfl, by decide +kernel, by decide +kernel⟩
  rcases outcome with ⟨s, done, delivered, results⟩
  have run := GuardedRun.of_checked done
  rcases line_discipline run with ⟨_, _, _, ordered, _⟩
  exact ⟨s, run, delivered, results, ordered⟩

end Xv6.Console
