import Xv6.Fs.Filewrite
import Xv6.Process.Console
import Xv6.Process.Pipe
import Xv6.Syscall.Arguments

namespace Xv6.Syscall

open Library Machine
open Fs (Contents)
open Fs.Inodes (T_DEV)

/-!
# The user bytes that `sys_read` and `sys_write` touch

A call may have to wait, and while it does the other processes change the pipe, the console's
ring or the file.  What a call finds each time that it holds the lock is an argument here, as a
list: the results hold for all such lists, and so in every interleaving.  A call that comes to
the end of its list sleeps.  What it leaves in the pipe, in the ring and in the file is part of
the models of these.

`fileread` passes `n` on to `readi`, which takes it for a `uint`.  There a negative `n` is a
large one, and it is cut down to the rest of the file.
-/

/-! ## The functions -/

def NDEV : Nat := 10

/-- The only device with drivers. -/
def CONSOLE : BitVec 16 := 1#16

/-- A pipe, and what a process sees of `proc->killed`. -/
structure PipeVisit where
  ring : Ring 32 Byte
  readopen : Bool
  writeopen : Bool
  killed : Bool

structure ConsoleVisit where
  input : Console.Input
  killed : Bool

/-- A locked inode, and the offset of the open file. -/
structure InodeVisit where
  type : BitVec 16
  major : BitVec 16
  contents : Contents
  off : Word

/-- What a call finds when it has a lock. -/
structure World where
  pipe : List PipeVisit
  console : List ConsoleVisit
  inode : List InodeVisit

/-- Store bytes from an address on. -/
def copyOut : Word -> List Byte -> U Unit
  | _, [] => return ()
  | dst, byte :: rest => do
      modify fun s =>
        { s with mem := Function.update s.mem dst byte, touched := s.touched ++ [.store dst] }
      copyOut (dst + 1#32) rest

/-- Load `n` bytes. -/
def copyIn : Word -> Nat -> U (List Byte)
  | _, 0 => return []
  | src, n + 1 => do
      let s ← get
      modify fun s => s.note [.load src]
      let rest ← copyIn (src + 1#32) n
      return s.mem src :: rest

/-- `n` bytes of the caller, as they are. -/
def Caller.bytes (s : Caller) (src : Word) (n : Nat) : List Byte := (span src n).map s.mem

def piperead (addr n : Word) : List PipeVisit -> U Int
  | [] => throw .waiting
  | p :: later =>
    if p.ring.empty /\ p.writeopen = true then
      if p.killed = true then return -1 else piperead addr n later
    else do
      let data := (Pipe.readLoop p.ring n.toInt.toNat).2
      copyOut addr data
      return data.length

/-- `pipewrite`, from byte `i` on. -/
def pipewrite (addr n : Word) : List PipeVisit -> Nat -> U Int
  | [], _ => throw .waiting
  | p :: later, i => do
      let s ← get
      let loop := Pipe.writeLoop p.ring (s.bytes (addr + BitVec.ofNat 32 i) (n.toInt.toNat - i))
      let stored ← copyIn (addr + BitVec.ofNat 32 i) loop.2.2.length
      if loop.2.1 = [] then
        return n.toInt
      else if p.readopen = false ∨ p.killed = true then
        return -1
      else
        pipewrite addr n later (i + stored.length)

/-- `consoleread`, with `left` bytes to go. -/
def consoleread (target : Nat) : List ConsoleVisit -> Word -> Nat -> U Int
  | [], _, _ => throw .waiting
  | c :: later, dst, left => do
      let report := (Console.readLoop target c.killed left c.input).2
      copyOut dst report.bytes
      match report.exit with
      | none => consoleread target later (dst + BitVec.ofNat 32 report.bytes.length) report.left
      | some .killed => return -1
      | some _ => return target - report.left

def consolewrite (buf n : Word) : U Int := do
  let _ ← copyIn buf n.toInt.toNat
  return n.toInt

/-- The test for a device without a driver. -/
def InodeVisit.driverless (ip : InodeVisit) : Prop :=
  ip.major.toInt < 0 ∨ (NDEV : Int) <= ip.major.toInt ∨ ip.major ≠ CONSOLE

instance (ip : InodeVisit) : Decidable ip.driverless := inferInstanceAs (Decidable (_ ∨ _))

def readi (ip : InodeVisit) (console : List ConsoleVisit) (dst n : Word) : U Int := do
  if ip.type = T_DEV then
    if ip.driverless then return -1
    else consoleread n.toInt.toNat console dst n.toInt.toNat
  else
    match ip.contents.readi ip.off n.toNat with
    | none => return -1
    | some data => do
        copyOut dst data
        return (BitVec.ofNat 32 data.length).toInt

def writei (ip : InodeVisit) (src n : Word) : U Int := do
  if ip.type = T_DEV then
    if ip.driverless then return -1
    else consolewrite src n
  else do
    let s ← get
    match ip.contents.writei (s.bytes src n.toNat) ip.off with
    | none => return -1
    | some _ => do
        let _ ← copyIn src n.toNat
        return n.toInt

def fileread (f : Handle) (world : World) (addr n : Word) : U Int :=
  if f.readable = false then return -1
  else
    match f.type with
    | .FD_PIPE => piperead addr n world.pipe
    | .FD_INODE =>
      match world.inode with
      | [] => throw .waiting
      | ip :: _ => readi ip world.console addr n
    | .FD_NONE => throw (.panic "fileread")

/-- `return i == n ? n : -1` -/
def written (n : Word) (i : Nat) : Int := if (i : Int) = n.toInt then n.toInt else -1

/-- The loop of `filewrite`, from `i` on. -/
def filewriteLoop (addr n : Word) : List InodeVisit -> Nat -> U Int
  | [], i => if (i : Int) < n.toInt then throw .waiting else return written n i
  | ip :: later, i =>
    if (i : Int) < n.toInt then do
      let n1 := min (n.toInt.toNat - i) Fs.Filewrite.most
      let r ← writei ip (addr + BitVec.ofNat 32 i) (BitVec.ofNat 32 n1)
      if r < 0 then
        return written n i
      else if r ≠ n1 then
        throw (.panic "short filewrite")
      else
        filewriteLoop addr n later (i + n1)
    else
      return written n i

def filewrite (f : Handle) (world : World) (addr n : Word) : U Int :=
  if f.writable = false then return -1
  else
    match f.type with
    | .FD_PIPE => pipewrite addr n world.pipe 0
    | .FD_INODE => filewriteLoop addr n world.inode 0
    | .FD_NONE => throw (.panic "filewrite")

/-- The three arguments of `sys_read` and `sys_write`, and the call that follows. -/
def withBuffer (call : Handle -> Word -> Word -> U Int) : U Int := do
  match ← argfd 0#32 with
  | none => return -1
  | some f => do
      match ← argint 2#32 with
      | none => return -1
      | some n => do
          match ← argptr 1#32 n with
          | none => return -1
          | some p => call f p n

def sysRead (world : World) : U Int := withBuffer fun f p n => fileread f world p n

def sysWrite (world : World) : U Int := withBuffer fun f p n => filewrite f world p n

/-! ## Touched bytes -/

/-- Only such bytes have been touched. -/
def Only (ok : Touch -> Prop) (s : Caller) : Prop := ∀ e, e ∈ s.touched -> ok e

/-- The program touches only such bytes, however it ends. -/
def Touches {α : Type} (ok : Touch -> Prop) (program : U α) : Prop :=
  ∀ s, Only ok s -> Ensures program s (fun _ t => Only ok t) (fun _ t => Only ok t)

namespace Touches

variable {α β : Type} {ok : Touch -> Prop}

theorem pure (value : α) : Touches ok (pure value : U α) := by
  intro s start
  rwa [ensures_pure]

theorem throw (reason : Stop) : Touches ok (throw reason : U α) := by
  intro s start
  rwa [ensures_throw]

theorem bind {first : U α} {next : α -> U β} (one : Touches ok first)
    (two : ∀ value, Touches ok (next value)) : Touches ok (first >>= next) := by
  intro s start
  rw [ensures_bind]
  exact (one s start).mono (fun value t => two value t) (fun _ _ kept => kept)

theorem get : Touches ok (get : U Caller) := by
  intro s start
  rwa [ensures_get]

theorem ite {condition : Prop} [Decidable condition] {yes no : U α} (one : Touches ok yes)
    (two : Touches ok no) : Touches ok (if condition then yes else no) := by
  by_cases taken : condition
  · rw [if_pos taken]
    exact one
  · rw [if_neg taken]
    exact two

end Touches

section Copies

variable {s : Caller} {ok : Touch -> Prop}

theorem span_succ (first : Word) (n : Nat) :
    span first (n + 1) = first :: span (first + 1#32) n := by
  unfold span
  rw [List.range_succ_eq_map, List.map_cons, List.map_map]
  congr 1
  · exact BitVec.add_zero first
  · refine List.map_congr_left fun k _ => ?_
    change first + BitVec.ofNat 32 (k + 1) = first + 1#32 + BitVec.ofNat 32 k
    rw [Nat.add_comm k 1, BitVec.ofNat_add, BitVec.add_assoc]

theorem span_part {first a : Word} {i m n : Nat} (inside : a ∈ span (first + BitVec.ofNat 32 i) m)
    (part : m <= n - i) : a ∈ span first n := by
  rcases mem_span.mp inside with ⟨k, less, rfl⟩
  refine mem_span.mpr ⟨i + k, by omega, ?_⟩
  rw [BitVec.ofNat_add, BitVec.add_assoc]

theorem length_span (first : Word) (n : Nat) : (span first n).length = n := by
  rw [span, List.length_map, List.length_range]

theorem length_bytes (s : Caller) (src : Word) (n : Nat) : (s.bytes src n).length = n := by
  rw [Caller.bytes, List.length_map, length_span]

theorem span_shorter {first a : Word} {m n : Nat} (inside : a ∈ span first m)
    (part : m <= n) : a ∈ span first n := by
  rcases mem_span.mp inside with ⟨k, less, rfl⟩
  exact mem_span.mpr ⟨k, by omega, rfl⟩

/-- By induction on the bytes. -/
theorem copyOut_touched (data : List Byte) : ∀ (dst : Word) (s : Caller),
    Ensures (copyOut dst data) s (fun _ t =>
      t.touched = s.touched ++ (span dst data.length).map .store) (fun _ _ => False) := by
  induction data with
  | nil =>
    intro dst s
    rw [copyOut, ensures_pure]
    exact (List.append_nil _).symm
  | cons byte rest ih =>
    intro dst s
    rw [copyOut, ensures_bind, ensures_modify]
    refine (ih (dst + 1#32) _).imp ?_
    intro _ t touched
    rw [touched, List.length_cons, span_succ, List.map_cons, List.append_assoc]
    rfl

theorem copyIn_touched (n : Nat) : ∀ (src : Word) (s : Caller),
    Ensures (copyIn src n) s (fun data t =>
      data.length = n /\ t.touched = s.touched ++ (span src n).map .load) (fun _ _ => False) := by
  induction n with
  | zero =>
    intro src s
    rw [copyIn, ensures_pure]
    exact ⟨rfl, (List.append_nil _).symm⟩
  | succ n ih =>
    intro src s
    simp only [copyIn, ensures_bind, ensures_get, ensures_modify]
    refine (ih (src + 1#32) _).imp ?_
    rintro data t ⟨length, touched⟩
    rw [ensures_pure]
    refine ⟨congrArg Nat.succ length, ?_⟩
    rw [touched, span_succ, List.map_cons, Caller.note, List.append_assoc]
    rfl

theorem Only.append (start : Only ok s) {t : Caller} {new : List Touch}
    (touched : t.touched = s.touched ++ new) (fine : ∀ e, e ∈ new -> ok e) : Only ok t := by
  intro e inside
  rw [touched] at inside
  cases List.mem_append.mp inside with
  | inl old => exact start e old
  | inr added => exact fine e added

theorem touches_copyOut {dst : Word} {data : List Byte}
    (fine : ∀ a, a ∈ span dst data.length -> ok (.store a)) : Touches ok (copyOut dst data) := by
  intro s start
  refine (copyOut_touched data dst s).mono (fun _ t touched => start.append touched ?_)
    (fun _ _ no => no.elim)
  intro e added
  rcases List.mem_map.mp added with ⟨a, inside, rfl⟩
  exact fine a inside

/-- `copyIn`, and what comes after it. -/
theorem touches_copyIn {α : Type} {src : Word} {n : Nat} {next : List Byte -> U α}
    (fine : ∀ a, a ∈ span src n -> ok (.load a))
    (rest : ∀ data, data.length = n -> Touches ok (next data)) :
    Touches ok (copyIn src n >>= next) := by
  intro s start
  rw [ensures_bind]
  refine (copyIn_touched n src s).mono ?_ (fun _ _ no => no.elim)
  rintro data t ⟨length, touched⟩
  refine rest data length t (start.append touched ?_)
  intro e added
  rcases List.mem_map.mp added with ⟨a, inside, rfl⟩
  exact fine a inside

end Copies

/-! ## Files -/

variable {f : Handle}

section Files

variable {ok : Touch -> Prop} {addr n : Word}

theorem length_pipeRead (count : Nat) :
    ∀ ring : Ring 32 Byte, (Pipe.readLoop ring count).2.length <= count := by
  induction count with
  | zero => exact fun ring => Nat.le_refl 0
  | succ count ih =>
    intro ring
    rw [Pipe.readLoop]
    by_cases none : ring.empty
    · rw [if_pos none]
      exact Nat.zero_le _
    · rw [if_neg none]
      exact Nat.succ_le_succ (ih ring.pop)

theorem length_pipeWrite (data : List Byte) : ∀ ring : Ring 32 Byte,
    (Pipe.writeLoop ring data).2.2.length <= data.length := by
  induction data with
  | nil => exact fun ring => Nat.le_refl 0
  | cons byte rest ih =>
    intro ring
    rw [Pipe.writeLoop]
    by_cases full : ring.full Pipe.size
    · rw [if_pos full]
      exact Nat.zero_le _
    · rw [if_neg full]
      exact Nat.succ_le_succ (ih _)

theorem length_consoleRead (target : Nat) (killed : Bool) (count : Nat) : ∀ input : Console.Input,
    (Console.readLoop target killed count input).2.bytes.length +
      (Console.readLoop target killed count input).2.left = count := by
  induction count with
  | zero => exact fun input => rfl
  | succ count ih =>
    intro input
    rw [Console.readLoop]
    by_cases none : input.ring.head = input.w
    · rw [if_pos none]
      exact Nat.zero_add _
    rw [if_neg none]
    dsimp only
    by_cases eof : input.ring.front Console.size = Console.C 'D'
    · rw [if_pos eof]
      exact Nat.zero_add _
    rw [if_neg eof]
    by_cases line : input.ring.front Console.size = Console.newline
    · rw [if_pos line]
      exact Nat.add_comm 1 count
    · rw [if_neg line]
      have rest := ih { input with ring := input.ring.pop }
      change (Console.readLoop target killed count _).2.bytes.length + 1 +
        (Console.readLoop target killed count _).2.left = count + 1
      omega

theorem touches_piperead (fine : ∀ a, a ∈ span addr n.toInt.toNat -> ok (.store a))
    (visits : List PipeVisit) : Touches ok (piperead addr n visits) := by
  induction visits with
  | nil => exact .throw _
  | cons p later ih =>
    rw [piperead]
    refine .ite (.ite (.pure _) ih) (.bind (touches_copyOut fun a inside => ?_) fun _ => .pure _)
    exact fine a (span_shorter inside (length_pipeRead _ _))

section

variable (fine : ∀ a, a ∈ span addr n.toInt.toNat -> ok (.load a))

include fine

theorem touches_pipewrite (visits : List PipeVisit) :
    ∀ i, Touches ok (pipewrite addr n visits i) := by
  induction visits with
  | nil => exact fun i => .throw _
  | cons p later ih =>
    intro i
    rw [pipewrite]
    refine .bind .get fun s => touches_copyIn (fun a inside => ?_) fun data length => ?_
    · have short := length_pipeWrite (s.bytes (addr + BitVec.ofNat 32 i) (n.toInt.toNat - i)) p.ring
      rw [length_bytes] at short
      exact fine a (span_part inside short)
    · exact .ite (.pure _) (.ite (.pure _) (ih _))

omit fine in
/-- By induction on the visits.  The bytes from `dst` on are those that are left. -/
theorem touches_consoleread (target : Nat) (visits : List ConsoleVisit) :
    ∀ (dst : Word) (left : Nat),
    (∀ a, a ∈ span dst left -> ok (.store a)) ->
    Touches ok (consoleread target visits dst left) := by
  induction visits with
  | nil => exact fun dst left fine => .throw _
  | cons c later ih =>
    intro dst left fine
    have length := length_consoleRead target c.killed left c.input
    rw [consoleread]
    refine .bind (touches_copyOut fun a inside => fine a (span_shorter inside (by omega))) fun _ => ?_
    cases exit : (Console.readLoop target c.killed left c.input).2.exit with
    | none => exact ih _ _ fun a inside => fine a (span_part inside (by omega))
    | some how => cases how <;> exact .pure _

theorem touches_consolewrite : Touches ok (consolewrite addr n) :=
  touches_copyIn fine fun _ _ => .pure _

omit fine in
/-- What `readi` refuses, and how much it reads otherwise. -/
theorem readi_cases (file : Contents) (off : Word) {count : Nat} (short : count < 2 ^ 32) :
    file.readi off count = none /\ (file.size < off.toNat ∨ 2 ^ 32 <= off.toNat + count) ∨
      ∃ data, file.readi off count = some data /\ off.toNat <= file.size /\
        off.toNat + count < 2 ^ 32 /\ data.length = min count (file.size - off.toNat) := by
  unfold Contents.readi
  by_cases refused : file.size < off.toNat ∨ off + BitVec.ofNat 32 count < off
  · rw [if_pos refused]
    refine .inl ⟨rfl, refused.imp id fun wraps => ?_⟩
    by_contra stays
    exact (Contents.toNat_add_length (by omega)).1 wraps
  · rcases not_or.mp refused with ⟨inside, stays⟩
    have small := Contents.small_of_not_lt short stays
    rw [if_neg refused, (Contents.toNat_add_length small).2]
    refine .inr ?_
    by_cases cut : file.size < off.toNat + count
    · rw [if_pos cut]
      refine ⟨_, rfl, by omega, small, ?_⟩
      rw [Contents.readiLoop_eq _ _ _ _ (Nat.le_refl _), List.length_map, List.length_range]
      omega
    · rw [if_neg cut]
      refine ⟨_, rfl, by omega, small, ?_⟩
      rw [Contents.readiLoop_eq _ _ _ _ (Nat.le_refl _), List.length_map, List.length_range]
      omega

omit fine in
theorem toNat_of_nonneg (pos : 0 <= n.toInt) : n.toInt.toNat = n.toNat := by
  rw [BitVec.toInt_eq_toNat_cond] at pos ⊢
  have bound := n.isLt
  by_cases small : 2 * n.toNat < 2 ^ 32
  · rw [if_pos small]
    rfl
  · rw [if_neg small] at pos
    omega

omit fine in
theorem toNat_of_neg (negative : n.toInt < 0) : (n.toNat : Int) = n.toInt + 2 ^ 32 := by
  rw [BitVec.toInt_eq_toNat_cond] at negative ⊢
  by_cases small : 2 * n.toNat < 2 ^ 32
  · rw [if_pos small] at negative
    omega
  · rw [if_neg small]
    omega

/-- A read of a file that is not a device, with a negative count.  The offset is before the end of
the file, and so near to its start that the sum with the count, as a `uint`, does not wrap
around. -/
structure Unbounded (ip : InodeVisit) (n : Word) : Prop where
  regular : ip.type ≠ T_DEV
  negative : n.toInt < 0
  rest : ip.off.toNat < ip.contents.size
  near : (ip.off.toNat : Int) < - n.toInt

omit fine in
theorem touches_readi (fine : ∀ a, a ∈ span addr n.toInt.toNat -> ok (.store a)) (ip : InodeVisit)
    (console : List ConsoleVisit) (bounded : ¬ Unbounded ip n) :
    Touches ok (readi ip console addr n) := by
  rw [readi]
  by_cases device : ip.type = T_DEV
  · rw [if_pos device]
    exact .ite (.pure _) (touches_consoleread _ console addr _ fine)
  · rw [if_neg device]
    rcases readi_cases ip.contents ip.off n.isLt with ⟨none, _⟩ | ⟨data, some, start, stays, length⟩
    · rw [none]
      exact .pure _
    · rw [some]
      refine .bind (touches_copyOut fun a inside => fine a (span_shorter inside ?_)) fun _ => .pure _
      by_cases negative : n.toInt < 0
      · -- The sum does not wrap around, so that the offset is near; then it is at the end of the file.
        have large := toNat_of_neg negative
        have atEnd : ¬ ip.off.toNat < ip.contents.size :=
          fun rest => bounded ⟨device, negative, rest, by omega⟩
        omega
      · rw [toNat_of_nonneg (by omega)]
        omega

theorem touches_writei (pos : 0 <= n.toInt) (ip : InodeVisit) : Touches ok (writei ip addr n) := by
  rw [writei]
  by_cases device : ip.type = T_DEV
  · rw [if_pos device]
    exact .ite (.pure _) (touches_consolewrite fine)
  · rw [if_neg device]
    refine .bind .get fun s => ?_
    cases ip.contents.writei (s.bytes addr n.toNat) ip.off with
    | none => exact .pure _
    | some after =>
      refine touches_copyIn (fun a inside => fine a ?_) fun _ _ => .pure _
      rw [toNat_of_nonneg pos]
      exact inside

theorem touches_filewriteLoop (visits : List InodeVisit) :
    ∀ i, Touches ok (filewriteLoop addr n visits i) := by
  induction visits with
  | nil => exact fun i => .ite (.throw _) (.pure _)
  | cons ip later ih =>
    intro i
    have most : min (n.toInt.toNat - i) Fs.Filewrite.most < 2 ^ 31 :=
      Nat.lt_of_le_of_lt (Nat.min_le_right _ _) (by decide)
    have count : (BitVec.ofNat 32 (min (n.toInt.toNat - i) Fs.Filewrite.most)).toInt =
        min (n.toInt.toNat - i) Fs.Filewrite.most := by
      rw [BitVec.toInt_eq_toNat_cond, BitVec.toNat_ofNat, Nat.mod_eq_of_lt (by omega), if_pos (by omega)]
    rw [filewriteLoop]
    refine .ite (.bind (touches_writei (fun a inside => fine a (span_part inside ?_)) ?_ ip)
      fun r => ?_) (.pure _)
    · rw [count, Int.toNat_natCast]
      exact Nat.min_le_left _ _
    · rw [count]
      exact Int.natCast_nonneg _
    · exact .ite (.pure _) (.ite (.throw _) (ih _))

omit fine in
theorem touches_fileread (fine : ∀ a, a ∈ span addr n.toInt.toNat -> ok (.store a)) {world : World}
    (bounded : f.readable = true -> f.type = .FD_INODE -> ∀ ip later, world.inode = ip :: later ->
      ¬ Unbounded ip n) : Touches ok (fileread f world addr n) := by
  rw [fileread]
  by_cases refused : f.readable = false
  · rw [if_pos refused]
    exact .pure _
  · rw [if_neg refused]
    cases type : f.type with
    | FD_NONE => exact .throw _
    | FD_PIPE => exact touches_piperead fine _
    | FD_INODE =>
      cases visits : world.inode with
      | nil => exact .throw _
      | cons ip later =>
        exact touches_readi fine ip _ (bounded (Bool.eq_true_of_not_eq_false refused) type ip later
          visits)

theorem touches_filewrite (f : Handle) (world : World) : Touches ok (filewrite f world addr n) := by
  rw [filewrite]
  refine .ite (.pure _) ?_
  cases f.type with
  | FD_NONE => exact .throw _
  | FD_PIPE => exact touches_pipewrite fine _ 0
  | FD_INODE => exact touches_filewriteLoop fine _ 0

end

end Files

/-! ## The calls -/

/-- All checks of the arguments pass, and `f` is the file. -/
structure Accepted (s : Caller) (f : Handle) : Prop where
  descriptor : Fetchable s (s.slot 0#32)
  count : Fetchable s (s.slot 2#32)
  buffer : Fetchable s (s.slot 1#32)
  range : ¬ ((s.argument 0#32).toInt < 0 ∨ (NOFILE : Int) <= (s.argument 0#32).toInt)
  file : s.ofile (s.argument 0#32).toNat = some f
  pointer : Pointer s (s.argument 1#32) (s.argument 2#32)

/-- The caller after all arguments have been read. -/
def Caller.fetchedAll (s : Caller) : Caller := ((s.fetched 0#32).fetched 2#32).fetched 1#32

section Calls

variable {s : Caller} {ok : Touch -> Prop} {call : Handle -> Word -> Word -> U Int}

theorem only_fetched (start : Only ok s) {n : Word}
    (fine : ∀ a, a ∈ span (s.slot n) 4 -> ok (.fetch a)) : Only ok (s.fetched n) := by
  refine start.append rfl fun e added => ?_
  rcases List.mem_map.mp added with ⟨a, inside, rfl⟩
  exact fine a inside

theorem withBuffer_rule (start : Only ok s)
    (fetch : ∀ n, Fetchable s (s.slot n) -> ∀ a, a ∈ span (s.slot n) 4 -> ok (.fetch a))
    (fine : ∀ f, Accepted s f -> Touches ok (call f (s.argument 1#32) (s.argument 2#32))) :
    Ensures (withBuffer call) s (fun _ t => Only ok t) (fun _ t => Only ok t) := by
  rw [withBuffer, ensures_bind, argfd, ensures_bind]
  refine argint_rule ?_ fun descriptor => ?_
  · simp only [ensures_pure]
    exact start
  have first := only_fetched start (fetch 0#32 descriptor)
  simp only [ensures_bind, ensures_get]
  by_cases range : (s.argument 0#32).toInt < 0 ∨ (NOFILE : Int) <= (s.argument 0#32).toInt
  · rw [if_pos range]
    simp only [ensures_pure]
    exact first
  rw [if_neg range, ensures_pure]
  cases file : (s.fetched 0#32).ofile (s.argument 0#32).toNat with
  | none =>
    rw [ensures_pure]
    exact first
  | some f =>
    change Ensures (argint 2#32 >>= _) (s.fetched 0#32) _ _
    rw [ensures_bind]
    refine argint_rule ?_ fun count => ?_
    · rw [ensures_pure]
      exact first
    have second := only_fetched first (fetch 2#32 count)
    change Ensures (argptr 1#32 (s.argument 2#32) >>= _) ((s.fetched 0#32).fetched 2#32) _ _
    rw [ensures_bind]
    refine argptr_rule ?_ (fun buffer => ?_) fun buffer pointer => ?_
    · rw [ensures_pure]
      exact second
    · rw [ensures_pure]
      exact only_fetched second (fetch 1#32 buffer)
    · exact fine f ⟨descriptor, count, buffer, range, file, pointer⟩
        _ (only_fetched second (fetch 1#32 buffer))

/-- With good arguments the call is made. -/
theorem ensures_withBuffer (accepted : Accepted s f) {returned : Int -> Caller -> Prop}
    {stopped : Stop -> Caller -> Prop}
    (made : Ensures (call f (s.argument 1#32) (s.argument 2#32)) s.fetchedAll returned stopped) :
    Ensures (withBuffer call) s returned stopped := by
  have file : (s.fetched 0#32).ofile (s.argument 0#32).toNat = some f := accepted.file
  have count : Fetchable (s.fetched 0#32) ((s.fetched 0#32).slot 2#32) := accepted.count
  have buffer : Fetchable ((s.fetched 0#32).fetched 2#32) (((s.fetched 0#32).fetched 2#32).slot 1#32) :=
    accepted.buffer
  rw [withBuffer, ensures_bind, argfd, ensures_bind, ensures_argint_some accepted.descriptor]
  simp only [ensures_bind, ensures_get]
  rw [if_neg accepted.range, ensures_pure, file]
  change Ensures (argint 2#32 >>= _) (s.fetched 0#32) _ _
  rw [ensures_bind, ensures_argint_some count]
  change Ensures (argptr 1#32 (s.argument 2#32) >>= _) ((s.fetched 0#32).fetched 2#32) _ _
  rw [ensures_bind, ensures_argptr_some buffer accepted.pointer]
  exact made

end Calls

/-! ## Soundness -/

/-- A byte may be touched: one of the arguments, or one of the buffer. -/
def Vouched (s : Caller) : Touch -> Prop
  | .fetch a => a.toNat < s.sz.toNat
  | .load a | .store a => ∃ k : Nat, (k : Int) < (s.argument 2#32).toInt /\
      a = s.argument 1#32 + BitVec.ofNat 32 k /\ (s.argument 1#32).toNat + k < s.sz.toNat

/-- The caller at the start of a call. -/
def Caller.start (s : Caller) : Caller := { s with touched := [] }

/-- A call that touches only what it may. -/
def Within (s : Caller) (program : U Int) : Prop :=
  Ensures program s.start (fun _ t => Only (Vouched s) t) (fun _ t => Only (Vouched s) t)

structure PointersSound (s : Caller) (world : World) : Prop where
  arguments : Checked s
  read : Within s (sysRead world)
  write : Within s (sysWrite world)

/-- `sys_read` gets past its checks, to a read without a bound. -/
def Overruns (s : Caller) (world : World) : Prop :=
  ∃ f ip later, Accepted s f /\ f.readable = true /\ f.type = .FD_INODE /\
    world.inode = ip :: later /\ Unbounded ip (s.argument 2#32)

section Soundness

variable {s : Caller} {world : World}

theorem accepted_start : Accepted s.start f <-> Accepted s f :=
  ⟨fun a => ⟨a.descriptor, a.count, a.buffer, a.range, a.file, a.pointer⟩,
    fun a => ⟨a.descriptor, a.count, a.buffer, a.range, a.file, a.pointer⟩⟩

theorem vouched_buffer (small : s.sz.toNat < KERNBASE) (accepted : Accepted s f) {a : Word}
    (inside : a ∈ span (s.argument 1#32) (s.argument 2#32).toInt.toNat) :
    Vouched s (.load a) /\ Vouched s (.store a) := by
  rcases mem_span.mp inside with ⟨k, less, same⟩
  have below : (k : Int) < (s.argument 2#32).toInt := by omega
  have vouched : Vouched s (.load a) := ⟨k, below, same, accepted.pointer.inside small below⟩
  exact ⟨vouched, vouched⟩

theorem within_withBuffer (small : s.sz.toNat < KERNBASE) {call : Handle -> Word -> Word -> U Int}
    (fine : ∀ f, Accepted s f -> Touches (Vouched s) (call f (s.argument 1#32) (s.argument 2#32))) :
    Within s (withBuffer call) := by
  refine withBuffer_rule (fun e impossible => nomatch impossible) (fun n accepted a inside => ?_)
    fun f accepted => ?_
  · exact Fetchable.span (s := s) accepted small inside
  · exact fine f (accepted_start.mp accepted)

/-- A read without a bound stores its first byte. -/
theorem sysRead_stores (overruns : Overruns s world) :
    Ensures (sysRead world) s.start (fun _ t => Touch.store (s.argument 1#32) ∈ t.touched)
      (fun _ _ => False) := by
  rcases overruns with ⟨f, ip, later, accepted, readable, type, visits, unbounded⟩
  have large := toNat_of_neg unbounded.negative
  have least := BitVec.le_two_mul_toInt (x := s.argument 2#32)
  have near := unbounded.near
  have rest := unbounded.rest
  refine ensures_withBuffer (accepted_start.mpr accepted) ?_
  rw [fileread, if_neg (by rw [readable]; exact Bool.noConfusion), type]
  simp only [visits]
  rw [readi, if_neg unbounded.regular]
  change Ensures (match ip.contents.readi ip.off (s.argument 2#32).toNat with
    | none => _
    | some data => _) _ _ _
  rcases readi_cases ip.contents ip.off (s.argument 2#32).isLt with ⟨_, refused⟩ | ⟨data, read, _,
    _, length⟩
  · omega
  · rw [read]
    change Ensures (copyOut (s.argument 1#32) data >>= _) _ _ _
    rw [ensures_bind]
    refine (copyOut_touched data _ _).imp ?_
    intro _ t touched
    rw [ensures_pure, touched]
    refine List.mem_append_right _ (List.mem_map.mpr ⟨_, mem_span.mpr ⟨0, by omega, ?_⟩, rfl⟩)
    exact (BitVec.add_zero _).symm

/-- The bytes of a buffer of negative length are none. -/
theorem not_within_sysRead (overruns : Overruns s world) : ¬ Within s (sysRead world) := by
  intro within
  rcases (sysRead_stores overruns).exists_ok with ⟨_, t, run, stored⟩
  rcases Ensures.of_ok within run _ stored with ⟨k, less, _⟩
  rcases overruns with ⟨_, _, _, _, _, _, _, unbounded⟩
  have negative := unbounded.negative
  omega

/-- The checks of the arguments are sound, and `sys_write` is.  `sys_read` is sound exactly if it
does not come to a read without a bound. -/
theorem pointers_sound_iff (small : s.sz.toNat < KERNBASE) :
    PointersSound s world <-> ¬ Overruns s world := by
  constructor
  · exact fun sound overruns => not_within_sysRead overruns sound.read
  · intro bounded
    constructor
    case arguments => exact checked small
    case read =>
      refine within_withBuffer small fun f accepted => ?_
      refine touches_fileread (fun a inside => (vouched_buffer small accepted inside).2) ?_
      exact fun readable type ip later visits unbounded =>
        bounded ⟨f, ip, later, accepted, readable, type, visits, unbounded⟩
    case write =>
      refine within_withBuffer small fun f accepted => ?_
      exact touches_filewrite (fun a inside => (vouched_buffer small accepted inside).1) f world

end Soundness

/-! ### A process with a file of two bytes -/

/-- The stack is at 0.  The arguments are file 0, the buffer at 16 and a count. -/
def reader (count : Word) : Caller where
  sz := 0x1000#32
  esp := 0#32
  mem := fun a => if a = 8#32 then 16#8 else if 12#32 <= a /\ a < 16#32 then
    (count >>> (8 * (a.toNat - 12))).setWidth 8 else 0#8
  ofile := fun _ => some ⟨.FD_INODE, true, true⟩
  touched := []

def twoBytes : World where
  pipe := []
  console := []
  inode := [⟨2#16, 0#16, ⟨fun _ _ => 65#8, 2⟩, 0#32⟩]

/-- A read of one byte. -/
theorem pointers_sound_one : PointersSound (reader 1#32) twoBytes := by
  refine (pointers_sound_iff (by decide)).mpr ?_
  rintro ⟨f, ip, later, _, _, _, _, unbounded⟩
  exact absurd unbounded.negative (by decide)

/-- A read of -1 bytes stores the whole file. -/
theorem sysRead_negative :
    Overruns (reader 0xffffffff#32) twoBytes /\
    ¬ PointersSound (reader 0xffffffff#32) twoBytes := by
  have overruns : Overruns (reader 0xffffffff#32) twoBytes := by
    refine ⟨⟨.FD_INODE, true, true⟩, _, [], ?_, rfl, rfl, rfl, ?_⟩
    · exact ⟨by decide, by decide, by decide, by decide, rfl, by decide⟩
    · constructor <;> decide
  exact ⟨overruns, fun sound => not_within_sysRead overruns sound.read⟩

end Xv6.Syscall
