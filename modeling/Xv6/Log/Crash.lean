import Xv6.Library.Program
import Xv6.Machine.Layout

namespace Xv6.Log

open Library Machine
open Function

/-!
# The log on disk and its recovery, `log.c`

`commit` writes the blocks of a transaction to the log, then the header that
makes them count, then the blocks to their home sectors, and last an empty
header.  At the next start `recover_from_log` repeats the installation when the
header on disk is not empty.

The power may fail before any sector write.  A state carries the number of
writes that are still made, so a run that is cut is a run that stops for
`Halt.crash`, with the disk as it was at that point.  Of the buffer cache only
the buffers whose contents are not on the disk matter: those of the blocks in
the transaction.  All others may be read from the disk again.  `log.start` is
the value that `initlog` computes from the superblock, which nothing in the
kernel writes.
-/

/-! ## Disk and state -/

/-- The 128 words of a sector. -/
abbrev Block := Nat -> Word

abbrev Disk := Word -> Block

def MAXOPBLOCKS : Nat := 10
def LOGSIZE : Nat := MAXOPBLOCKS * 3

/-- `struct logheader` in memory. -/
structure Header where
  n : Int
  sector : Nat -> Word

structure State where
  disk : Disk
  /-- Buffers marked `B_DIRTY`. -/
  dirty : Word -> Option Block
  /-- The field `log.start`. -/
  start : Word
  lh : Header
  /-- Sector writes before the power fails. -/
  writes : Nat

inductive Halt where
  | crash
  | undefined
  deriving DecidableEq

abbrev M := EStateM Halt State

/-! ## The functions of `log.c` -/

def bread (sector : Word) : M Block := do
  let s ← get
  return (s.dirty sector).getD (s.disk sector)

/-- `bwrite` of a buffer that holds `data`. -/
def bwrite (sector : Word) (data : Block) : M Unit := do
  let s ← get
  if s.writes = 0 then
    throw .crash
  else
    modify fun s =>
      { s with disk := update s.disk sector data, dirty := update s.dirty sector none,
               writes := s.writes - 1 }

/-- The sector of log block `tail`. -/
def logSector (start : Word) (tail : Nat) : Word := start + BitVec.ofNat 32 tail + 1#32

/-- The passes of `install_trans` from `tail` on. -/
def installLoop : Nat -> Nat -> M Unit
  | 0, _ => return ()
  | more + 1, tail => do
      let s ← get
      let lbuf ← bread (logSector s.start tail)
      bwrite (s.lh.sector tail) lbuf
      installLoop more (tail + 1)

/-- `install_trans`.  A negative count makes no pass. -/
def installTrans : M Unit := do
  let s ← get
  installLoop s.lh.n.toNat 0

/-- `read_head`.  A count above `LOGSIZE` would write past `lh.sector[]`. -/
def readHead : M Unit := do
  let s ← get
  let buf ← bread s.start
  if (LOGSIZE : Int) < (buf 0).toInt then
    throw .undefined
  else
    modify fun s =>
      { s with lh := { n := (buf 0).toInt,
                       sector := fun i => if (i : Int) < (buf 0).toInt then buf (1 + i)
                         else s.lh.sector i } }

/-- The header block with the count and the sectors of a header in memory. -/
def headBlock (lh : Header) (buf : Block) : Block := fun word =>
  if word = 0 then BitVec.ofInt 32 lh.n
  else if ((word - 1 : Nat) : Int) < lh.n then lh.sector (word - 1)
  else buf word

def writeHead : M Unit := do
  let s ← get
  let buf ← bread s.start
  bwrite s.start (headBlock s.lh buf)

def recoverFromLog : M Unit := do
  readHead
  installTrans
  modify fun s => { s with lh := { s.lh with n := 0 } }
  writeHead

/-- The passes of `write_log` from `tail` on. -/
def writeLogLoop : Nat -> Nat -> M Unit
  | 0, _ => return ()
  | more + 1, tail => do
      let s ← get
      let source ← bread (s.lh.sector tail)
      bwrite (logSector s.start tail) source
      writeLogLoop more (tail + 1)

def writeLog : M Unit := do
  let s ← get
  writeLogLoop s.lh.n.toNat 0

def commit : M Unit := do
  let s ← get
  if 0 < s.lh.n then do
    writeLog
    writeHead
    installTrans
    modify fun s => { s with lh := { s.lh with n := 0 } }
    writeHead
  else
    return ()

/-- The contents of the blocks as the kernel sees them. -/
def cached (s : State) : Disk := fun sector => (s.dirty sector).getD (s.disk sector)

/-! ## Crashes and restarts -/

/-- The state in which recovery starts: nothing is cached. -/
def restarted (start : Word) (disk : Disk) (writes : Nat) : State where
  disk := disk
  dirty := fun _ => none
  start := start
  lh := ⟨0, fun _ => 0#32⟩
  writes := writes

/-- The disk that a run leaves, whether it came to its end or not. -/
def leftDisk {α : Type} : EStateM.Result Halt State α -> Disk
  | .ok _ s => s.disk
  | .error _ s => s.disk

/-- The disk after recoveries that were each cut after some number of writes. -/
def cutRecoveries (start : Word) : List Nat -> Disk -> Disk
  | [], disk => disk
  | writes :: rest, disk =>
    cutRecoveries start rest (leftDisk (recoverFromLog (restarted start disk writes)))

/-! ## What a transaction leaves on the disk -/

/-- A sector of the header or of the log blocks, in a log of `size` sectors. -/
def InLog (start : Word) (size : Nat) (sector : Word) : Prop :=
  ∃ i, i < size /\ sector = start + BitVec.ofNat 32 i

/-- Distinct home sectors outside the log, few enough for the log. -/
structure Transaction (start : Word) (size : Nat) (lh : Header) (count : Nat) : Prop where
  counted : lh.n = count
  fits : count <= LOGSIZE
  inside : count < size
  small : size <= 2 ^ 32
  distinct : ∀ i j, i < count -> j < count -> lh.sector i = lh.sector j -> i = j
  outside : ∀ i, i < count -> ¬ InLog start size (lh.sector i)

/-- All home sectors are old, or all are new, and the log is empty. -/
structure Settled (start : Word) (size : Nat) (lh : Header) (count : Nat) (old new : Disk)
  (disk : Disk) : Prop where
  home : (∀ i, i < count -> disk (lh.sector i) = old (lh.sector i)) ∨
    (∀ i, i < count -> disk (lh.sector i) = new (lh.sector i))
  others : ∀ sector, ¬ InLog start size sector -> (∀ i, i < count -> sector ≠ lh.sector i) ->
    disk sector = old sector
  empty : disk start 0 = 0#32

/-- The states that a disk can be in on the way. -/
inductive Phase where
  /-- The header on disk is empty and the home sectors are old. -/
  | before
  /-- The header counts, and some of the home sectors are new. -/
  | committed
  /-- The header is empty again and the home sectors are new. -/
  | after

structure InPhase (start : Word) (size : Nat) (lh : Header) (count : Nat) (old new : Disk)
  (phase : Phase) (disk : Disk) :
    Prop where
  others : ∀ sector, ¬ InLog start size sector -> (∀ i, i < count -> sector ≠ lh.sector i) ->
    disk sector = old sector
  home : ∀ i, i < count -> match phase with
    | .before => disk (lh.sector i) = old (lh.sector i)
    | .committed => disk (lh.sector i) = old (lh.sector i) ∨ disk (lh.sector i) = new (lh.sector i)
    | .after => disk (lh.sector i) = new (lh.sector i)
  head : match phase with
    | .committed => disk start 0 = BitVec.ofNat 32 count /\
      (∀ i, i < count -> disk start (1 + i) = lh.sector i) /\
        ∀ i, i < count -> disk (logSector start i) = new (lh.sector i)
    | _ => disk start 0 = 0#32

section Proofs

variable {start : Word} {size count : Nat} {lh : Header} {old new : Disk} {s : State} {phase : Phase}

/-! ## Sectors of the log -/

variable {i : Nat} {stopped : Halt -> State -> Prop} {disk mid : Disk} {t : State}

theorem logSector_inLog (bound : i + 1 < size) : InLog start size (logSector start i) := by
  refine ⟨i + 1, bound, ?_⟩
  rw [logSector, BitVec.add_assoc, <- BitVec.ofNat_add]

theorem start_inLog (pos : 0 < size) : InLog start size start :=
  ⟨0, pos, by simp⟩

theorem logSector_injective {j : Nat} (first : i < 2 ^ 32) (second : j < 2 ^ 32)
    (same : logSector start i = logSector start j) : i = j := by
  rw [logSector, logSector, BitVec.add_left_inj, BitVec.add_right_inj] at same
  have values := congrArg BitVec.toNat same
  rwa [BitVec.toNat_ofNat, BitVec.toNat_ofNat, Nat.mod_eq_of_lt first, Nat.mod_eq_of_lt second] at values

theorem logSector_ne_start (bound : i + 1 < 2 ^ 32) : logSector start i ≠ start := by
  intro same
  have zero : BitVec.ofNat 32 (i + 1) = 0#32 := by
    rw [logSector, BitVec.add_assoc, <- BitVec.ofNat_add] at same
    exact (BitVec.add_right_inj start).mp (same.trans (BitVec.add_zero start).symm)
  have values := congrArg BitVec.toNat zero
  rw [BitVec.toNat_ofNat, Nat.mod_eq_of_lt bound, BitVec.toNat_zero] at values
  omega

/-! ## One write -/

theorem ensures_bread {sector : Word} {returned : Block -> State -> Prop} :
    Ensures (bread sector) s returned stopped <->
    returned ((s.dirty sector).getD (s.disk sector)) s := by
  rw [bread, ensures_bind, ensures_get, ensures_pure]

/-- The state after one sector write. -/
def written (s : State) (sector : Word) (data : Block) : State :=
  { s with disk := update s.disk sector data, dirty := update s.dirty sector none,
           writes := s.writes - 1 }

variable {returned : Unit -> State -> Prop}

theorem bwrite_rule {sector : Word} {data : Block} (cut : s.writes = 0 -> stopped .crash s)
    (done : s.writes ≠ 0 -> returned () (written s sector data)) :
    Ensures (bwrite sector data) s returned stopped := by
  rw [bwrite, ensures_bind, ensures_get]
  by_cases none : s.writes = 0
  · rw [if_pos none, ensures_throw]
    exact cut none
  · rw [if_neg none, ensures_modify]
    exact done none

section

variable (valid : Transaction start size lh count)

include valid

/-- A write to a log block, while the header is empty. -/
theorem InPhase.logBlock {data : Block} (here : InPhase start size lh count old new .before disk)
    (bound : i < count) :
    InPhase start size lh count old new .before (update disk (logSector start i) data) := by
  have inside := valid.inside
  have small := valid.small
  have block : InLog start size (logSector start i) := logSector_inLog (by omega)
  refine ⟨?_, ?_, ?_⟩
  · intro sector apart foreign
    rw [update_of_ne]
    · exact here.others sector apart foreign
    · rintro rfl
      exact apart block
  · intro j below
    change update disk _ data (lh.sector j) = _
    rw [update_of_ne]
    · exact here.home j below
    · intro same
      exact valid.outside j below (same ▸ block)
  · change update disk _ data start 0 = _
    rw [update_of_ne (logSector_ne_start (by omega)).symm]
    exact here.head

/-- The write of the header that commits the transaction. -/
theorem InPhase.commitHead {buf : Block} (here : InPhase start size lh count old new .before disk)
    (logged : ∀ i, i < count -> disk (logSector start i) = new (lh.sector i)) :
    InPhase start size lh count old new .committed (update disk start (headBlock lh buf)) := by
  have inside := valid.inside
  have small := valid.small
  have block : InLog start size start := start_inLog (by omega)
  refine ⟨?_, ?_, ?_, ?_, ?_⟩
  · intro sector apart foreign
    rw [update_of_ne]
    · exact here.others sector apart foreign
    · rintro rfl
      exact apart block
  · grind [update_apply, here.home, valid.outside]
  · rw [update_self, headBlock, if_pos rfl, valid.counted]
    simp
  · intro i below
    rw [update_self, headBlock, if_neg (by omega), valid.counted]
    simp [below]
  · intro i below
    rw [update_of_ne (logSector_ne_start (by omega))]
    exact logged i below

/-- The installation of one block. -/
theorem InPhase.install (here : InPhase start size lh count old new .committed disk)
    (bound : i < count) :
    InPhase start size lh count old new .committed
      (update disk (lh.sector i) (disk (logSector start i))) := by
  have inside := valid.inside
  rcases here.head with ⟨counted, sectors, logged⟩
  have apart : ∀ sector, InLog start size sector -> sector ≠ lh.sector i := by
    rintro sector block rfl
    exact valid.outside i bound block
  refine ⟨?_, ?_, ?_, ?_, ?_⟩
  · intro sector outside foreign
    rw [update_of_ne (foreign i bound)]
    exact here.others sector outside foreign
  · intro j below
    by_cases same : lh.sector j = lh.sector i
    · refine .inr ?_
      rw [same, update_self, logged i bound]
    · rw [update_of_ne same]
      exact here.home j below
  · rw [update_of_ne (apart start (start_inLog (by omega)))]
    exact counted
  · rw [update_of_ne (apart start (start_inLog (by omega)))]
    exact sectors
  · intro j below
    rw [update_of_ne (apart _ (logSector_inLog (by omega)))]
    exact logged j below

omit valid in
/-- The write of the empty header. -/
theorem InPhase.clear (here : InPhase start size lh count old new phase disk) (cleared : Header)
    (buf : Block) (valid : Transaction start size lh count) (zero : cleared.n = 0)
    (all : phase = .committed -> ∀ i, i < count -> disk (lh.sector i) = new (lh.sector i)) :
    InPhase start size lh count old new (match phase with | .before => .before | _ => .after)
      (update disk start (headBlock cleared buf)) := by
  have inside := valid.inside
  have block : InLog start size start := start_inLog (by omega)
  have kept : ∀ j, j < count -> update disk start (headBlock cleared buf) (lh.sector j) =
      disk (lh.sector j) := by
    intro j below
    refine update_of_ne ?_ ..
    intro same
    exact valid.outside j below (same ▸ block)
  have others : ∀ sector, ¬ InLog start size sector -> (∀ i, i < count -> sector ≠ lh.sector i) ->
      update disk start (headBlock cleared buf) sector = old sector := by
    intro sector apart foreign
    rw [update_of_ne]
    · exact here.others sector apart foreign
    · rintro rfl
      exact apart block
  have empty : update disk start (headBlock cleared buf) start 0 = 0#32 := by
    rw [update_self, headBlock, if_pos rfl, zero]
    rfl
  cases phase with
  | before => exact ⟨others, fun j below => (kept j below).trans (here.home j below), empty⟩
  | committed => exact ⟨others, fun j below => (kept j below).trans (all rfl j below), empty⟩
  | after => exact ⟨others, fun j below => (kept j below).trans (here.home j below), empty⟩

/-! ## Programs -/

/-- The power failed, in some phase of the transaction. -/
def Cut (start : Word) (size : Nat) (lh : Header) (count : Nat) (old new : Disk) (stop : Halt)
    (t : State) : Prop :=
  stop = .crash /\ ∃ phase, InPhase start size lh count old new phase t.disk

/-- `write_log` has copied the blocks below `tail`. -/
structure Logging (start : Word) (size : Nat) (lh : Header) (count : Nat) (old : Disk) (s : State)
  (tail : Nat) (t : State) :
    Prop where
  header : t.lh = lh
  origin : t.start = start
  pinned : t.dirty = s.dirty
  phase : InPhase start size lh count old (cached s) .before t.disk
  copied : ∀ i, i < tail -> t.disk (logSector start i) = cached s (lh.sector i)

/-- `install_trans` has copied the blocks below `tail`, and started with `budget` writes. -/
structure Installing (start : Word) (size : Nat) (lh : Header) (count : Nat) (old new : Disk)
  (budget tail : Nat) (t : State) :
    Prop where
  sectors : ∀ i, i < count -> t.lh.sector i = lh.sector i
  origin : t.start = start
  clean : ∀ i, i < count -> t.dirty (logSector start i) = none
  phase : InPhase start size lh count old new .committed t.disk
  installed : ∀ i, i < tail -> t.disk (lh.sector i) = new (lh.sector i)
  spent : t.writes + tail = budget

theorem writeLogLoop_spec (old_eq : ∀ i, i < count -> old (lh.sector i) = s.disk (lh.sector i))
    (clean : ∀ i, i < count -> s.dirty (logSector start i) = none) :
    ∀ more tail (t : State), tail + more = count -> Logging start size lh count old s tail t ->
      Ensures (writeLogLoop more tail) t (fun _ u => Logging start size lh count old s count u)
        (Cut start size lh count old (cached s)) := by
  intro more
  induction more with
  | zero =>
    intro tail t total here
    rw [writeLogLoop, ensures_pure]
    exact total ▸ here
  | succ more step =>
    intro tail t total here
    have below : tail < count := by omega
    have inside := valid.inside
    have small := valid.small
    rw [writeLogLoop, ensures_bind, ensures_get, ensures_bind, ensures_bread, ensures_bind]
    have content : (t.dirty (t.lh.sector tail)).getD (t.disk (t.lh.sector tail)) =
        cached s (lh.sector tail) := by
      rw [here.header, here.pinned, cached]
      congr 1
      exact (here.phase.home tail below).trans (old_eq tail below)
    rw [content, here.origin]
    apply bwrite_rule
    · intro _
      exact ⟨rfl, .before, here.phase⟩
    · intro _
      apply step (tail + 1) _ (by omega)
      constructor
      · exact here.header
      · exact here.origin
      · change update t.dirty _ none = _
        rw [here.pinned, <- clean tail below, update_eq_self]
      · exact here.phase.logBlock valid below
      · intro i before
        change update t.disk _ _ _ = _
        by_cases same : i = tail
        · rw [same, update_self]
        · rw [update_of_ne]
          · exact here.copied i (by omega)
          · intro equal
            exact same (logSector_injective (by omega) (by omega) equal)

theorem installLoop_spec {budget : Nat} :
    ∀ more tail (t : State), tail + more = count ->
    Installing start size lh count old new budget tail t ->
      Ensures (installLoop more tail) t (fun _ u =>
        Installing start size lh count old new budget count u)
        (fun stop u => Cut start size lh count old new stop u /\ budget <= count) := by
  intro more
  induction more with
  | zero =>
    intro tail t total here
    rw [installLoop, ensures_pure]
    exact total ▸ here
  | succ more step =>
    intro tail t total here
    have below : tail < count := by omega
    have spent := here.spent
    rw [installLoop, ensures_bind, ensures_get, ensures_bind, ensures_bread, ensures_bind, here.origin,
      here.clean tail below, here.sectors tail below, Option.getD_none]
    apply bwrite_rule
    · intro none
      exact ⟨⟨rfl, .committed, here.phase⟩, by omega⟩
    · intro some
      apply step (tail + 1) _ (by omega)
      constructor
      · exact here.sectors
      · exact here.origin
      · intro i before
        change update t.dirty _ none _ = none
        by_cases same : logSector start i = lh.sector tail
        · rw [same, update_self]
        · rw [update_of_ne same]
          exact here.clean i before
      · exact here.phase.install valid below
      · intro i before
        change update t.disk _ _ _ = _
        by_cases same : i = tail
        · rw [same, update_self]
          exact here.phase.head.2.2 tail below
        · rw [update_of_ne]
          · exact here.installed i (by omega)
          · intro equal
            exact same (valid.distinct i tail (by omega) below equal)
      · change t.writes - 1 + (tail + 1) = budget
        omega

omit valid in
theorem ensures_writeHead (cut : t.writes = 0 -> stopped .crash t)
    (done : ∀ buf, t.writes ≠ 0 -> returned () (written t t.start (headBlock t.lh buf))) :
    Ensures writeHead t returned stopped := by
  rw [writeHead, ensures_bind, ensures_get, ensures_bind, ensures_bread]
  exact bwrite_rule cut (done _)

/-- The installation and the clearing of the header, as `commit` and recovery both end. -/
theorem install_clear_spec {budget : Nat} (counted : t.lh.n = count)
    (here : Installing start size lh count old new budget 0 t) :
    Ensures (do installTrans; modify fun s => { s with lh := { s.lh with n := 0 } }; writeHead :
      M Unit) t (fun _ u => InPhase start size lh count old new .after u.disk)
      (fun stop u => Cut start size lh count old new stop u /\ budget <= count) := by
  rw [ensures_bind, installTrans, ensures_bind, ensures_get, counted, Int.toNat_natCast]
  apply (installLoop_spec valid count 0 t (by omega) here).mono
  · intro _ u done
    have spent := done.spent
    rw [ensures_bind, ensures_modify]
    apply ensures_writeHead
    · intro none
      change u.writes = 0 at none
      exact ⟨⟨rfl, .committed, done.phase⟩, by omega⟩
    · intro buf _
      change InPhase start size lh count old new .after (update u.disk u.start _)
      rw [done.origin]
      exact done.phase.clear { u.lh with n := 0 } buf valid rfl (fun _ => done.installed)
  · intro stop u both
    exact both

omit valid in
theorem Logging.headWritten (logged : Logging start size lh count old s count t)
    (valid : Transaction start size lh count)
    (clean : ∀ i, i < count -> s.dirty (logSector start i) = none) (buf : Block) :
    Installing start size lh count old (cached s) (t.writes - 1) 0
      (written t t.start (headBlock t.lh buf)) := by
  have inside := valid.inside
  have small := valid.small
  rw [logged.header, logged.origin]
  constructor
  · intro i _
    exact congrArg (fun header : Header => header.sector i) logged.header
  · exact logged.origin
  · intro i below
    change update t.dirty start none _ = none
    rw [update_of_ne (logSector_ne_start (by omega)), logged.pinned]
    exact clean i below
  · exact logged.phase.commitHead valid logged.copied
  · intro i none
    exact absurd none (Nat.not_lt_zero i)
  · rfl

omit valid in
theorem commit_cut (valid : Transaction start size s.lh count) (origin : s.start = start)
    (pinned : ∀ sector, s.dirty sector ≠ none -> ∃ i, i < count /\ sector = s.lh.sector i)
    (empty : s.disk start 0 = 0#32) :
    Ensures commit s (fun _ t => InPhase start size s.lh count s.disk (cached s) .after t.disk)
      (Cut start size s.lh count s.disk (cached s)) := by
  have inside := valid.inside
  have fresh : InPhase start size s.lh count s.disk (cached s) .before s.disk :=
    ⟨fun _ _ _ => rfl, fun _ _ => rfl, empty⟩
  have clean : ∀ i, i < count -> s.dirty (logSector start i) = none := by
    intro i below
    by_contra held
    rcases pinned _ held with ⟨j, within, same⟩
    exact valid.outside j within (same ▸ logSector_inLog (by omega))
  rw [commit, ensures_bind, ensures_get, ensures_ite]
  constructor
  · intro _
    rw [ensures_bind, writeLog, ensures_bind, ensures_get, valid.counted, Int.toNat_natCast]
    apply (writeLogLoop_spec valid (fun _ _ => rfl) clean count 0 s (by omega)
      ⟨rfl, origin, rfl, fresh, fun i none => absurd none (Nat.not_lt_zero i)⟩).mono
    · intro _ t logged
      rw [ensures_bind]
      apply ensures_writeHead
      · intro _
        exact ⟨rfl, .before, logged.phase⟩
      · intro buf _
        have ready := logged.headWritten valid clean buf
        apply (install_clear_spec valid (logged.header ▸ valid.counted) ready).mono
        · intro _ u done
          exact done
        · intro stop u cut
          exact cut.1
    · intro stop t cut
      exact cut
  · intro none
    have counted := valid.counted
    rw [ensures_pure]
    exact ⟨fresh.others, fun i below => absurd below (by omega), fresh.head⟩

/-! ## Recovery -/

omit valid in
theorem ensures_readHead (t : State) (n : Nat)
    (counted : (t.dirty t.start).getD (t.disk t.start) 0 = BitVec.ofNat 32 n) (small : n <= LOGSIZE)
    (done : ∀ lh : Header, lh.n = n ->
      (∀ i, i < n -> lh.sector i = (t.dirty t.start).getD (t.disk t.start) (1 + i)) ->
      returned () { t with lh := lh }) : Ensures readHead t returned stopped := by
  have value : ((t.dirty t.start).getD (t.disk t.start) 0).toInt = n := by
    rw [counted, BitVec.toInt_ofNat']
    simp only [LOGSIZE, MAXOPBLOCKS] at small
    rw [Int.bmod_def]
    omega
  rw [readHead, ensures_bind, ensures_get, ensures_bind, ensures_bread, value, if_neg (by omega),
    ensures_modify]
  apply done
  · rfl
  · intro i below
    exact if_pos (by omega)

/-- A disk without a transaction to install. -/
def Recovered (start : Word) (size : Nat) (lh : Header) (count : Nat)
    (old new disk : Disk) : Prop :=
  InPhase start size lh count old new .before disk ∨ InPhase start size lh count old new .after disk

theorem recoverFromLog_spec (here : InPhase start size lh count old new phase disk) (writes : Nat) :
    Ensures recoverFromLog (restarted start disk writes)
      (fun _ t => Recovered start size lh count old new t.disk)
      (fun stop t => Cut start size lh count old new stop t /\ writes <= count) := by
  -- without a committed transaction the only write is that of the header
  have idle : disk start 0 = 0#32 -> phase ≠ .committed ->
      Ensures recoverFromLog (restarted start disk writes)
        (fun _ t => Recovered start size lh count old new t.disk)
        (fun stop t => Cut start size lh count old new stop t /\ writes <= count) := by
    intro empty quiet
    rw [recoverFromLog, ensures_bind]
    apply ensures_readHead (restarted start disk writes) 0 empty (Nat.zero_le _)
    intro header zero _
    rw [ensures_bind, installTrans, ensures_bind, ensures_get]
    change Ensures (installLoop header.n.toNat 0) _ _ _
    rw [zero, Int.toNat_natCast, installLoop, ensures_pure, ensures_bind, ensures_modify]
    apply ensures_writeHead
    · intro none
      change writes = 0 at none
      exact ⟨⟨rfl, phase, here⟩, by omega⟩
    · intro buf _
      have cleared := here.clear { header with n := 0 } buf valid rfl (fun same => absurd same quiet)
      cases phase with
      | before => exact .inl cleared
      | committed => exact absurd rfl quiet
      | after => exact .inr cleared
  cases phase with
  | before => exact idle here.head Phase.noConfusion
  | after => exact idle here.head Phase.noConfusion
  | committed =>
    rcases here.head with ⟨counted, sectors, logged⟩
    rw [recoverFromLog, ensures_bind]
    apply ensures_readHead (restarted start disk writes) count counted valid.fits
    intro header same read
    have ready : Installing start size lh count old new writes 0
        { restarted start disk writes with lh := header } :=
      ⟨fun i below => (read i below).trans (sectors i below), rfl, fun _ _ => rfl, here,
        fun i none => absurd none (Nat.not_lt_zero i), rfl⟩
    apply (install_clear_spec valid same ready).mono
    · intro _ t done
      exact .inr done
    · intro stop t cut
      exact cut

omit valid in
theorem Recovered.settled (done : Recovered start size lh count old new disk) :
    Settled start size lh count old new disk := by
  cases done with
  | inl before => exact ⟨.inl before.home, before.others, before.head⟩
  | inr after => exact ⟨.inr after.home, after.others, after.head⟩

omit valid in
theorem leftDisk_of_ensures {program : M Unit} (property : Disk -> Prop)
    (spec : Ensures program s (fun _ t => property t.disk) (fun _ t => property t.disk)) :
    property (leftDisk (program s)) := by
  cases run : program s with
  | ok value t => exact spec.of_ok run
  | error stop t => exact spec.of_error run

/-- Any number of recoveries that were cut leaves a disk from which recovery can start again. -/
theorem cutRecoveries_phase :
    ∀ (cuts : List Nat) (disk : Disk) (phase : Phase),
      InPhase start size lh count old new phase disk ->
      ∃ phase, InPhase start size lh count old new phase (cutRecoveries start cuts disk) := by
  intro cuts
  induction cuts with
  | nil =>
    intro disk phase here
    exact ⟨phase, here⟩
  | cons writes rest step =>
    intro disk phase here
    have left : ∃ phase, InPhase start size lh count old new phase
        (leftDisk (recoverFromLog (restarted start disk writes))) := by
      apply leftDisk_of_ensures fun disk => ∃ phase, InPhase start size lh count old new phase disk
      apply (recoverFromLog_spec valid here writes).mono
      · intro _ t done
        cases done with
        | inl before => exact ⟨.before, before⟩
        | inr after => exact ⟨.after, after⟩
      · intro stop t cut
        exact cut.1.2
    rcases left with ⟨next, there⟩
    exact step _ next there

end

/-! ## The disk between transactions -/

/-- The disks that the log code leaves between transactions: after the recovery of a start, and
after each commit. -/
inductive Ready (start : Word) : Disk -> Prop where
  | recovered (disk : Disk) (writes : Nat) (t : State) :
      recoverFromLog (restarted start disk writes) = .ok () t -> Ready start t.disk
  | committed (s t : State) : Ready start s.disk -> s.start = start -> commit s = .ok () t ->
    Ready start t.disk

/-- A sector write changes neither `log.start` nor the header in memory. -/
def Still (start : Word) (lh : Header) (t : State) : Prop := t.start = start /\ t.lh = lh

theorem bwrite_still (sector : Word) (data : Block) :
    Maintains (Still start lh) (fun _ => True) (bwrite sector data) := by
  intro t still
  apply bwrite_rule
  · intro _
    trivial
  · intro _
    exact still

theorem bread_still (sector : Word) :
    Maintains (Still start lh) (fun _ => True) (bread sector) := by
  intro t still
  exact ensures_bread.mpr still

theorem installLoop_still (more : Nat) :
    ∀ tail, Maintains (Still start lh) (fun _ => True) (installLoop more tail) := by
  induction more with
  | zero =>
    intro tail
    exact .pure ()
  | succ more step =>
    intro tail
    apply Maintains.get_bind
    intro t still
    exact (bread_still _).bind (fun _ => (bwrite_still _ _).bind (fun _ => step _)) t still

theorem writeLogLoop_still (more : Nat) : ∀ tail,
    Maintains (Still start lh) (fun _ => True) (writeLogLoop more tail) := by
  induction more with
  | zero =>
    intro tail
    exact .pure ()
  | succ more step =>
    intro tail
    apply Maintains.get_bind
    intro t still
    exact (bread_still _).bind (fun _ => (bwrite_still _ _).bind (fun _ => step _)) t still

theorem installTrans_still : Maintains (Still start lh) (fun _ => True) installTrans :=
  .get_bind fun t still => installLoop_still _ _ t still

theorem writeLog_still : Maintains (Still start lh) (fun _ => True) writeLog :=
  .get_bind fun t still => writeLogLoop_still _ _ t still

theorem writeHead_still : Maintains (Still start lh) (fun _ => True) writeHead :=
  .get_bind fun t still => (bread_still _).bind (fun _ => bwrite_still _ _) t still

/-- The end of `commit` and of recovery leaves an empty header, on disk and in memory. -/
theorem clear_spec (still : Still start lh t) :
    Ensures (do installTrans; modify fun s => { s with lh := { s.lh with n := 0 } }; writeHead :
      M Unit) t
      (fun _ u => u.disk start 0 = 0#32 /\ u.lh = { lh with n := 0 }) (fun _ _ => True) := by
  rw [ensures_bind]
  apply (installTrans_still t still).mono
  · intro _ u there
    rw [ensures_bind, ensures_modify]
    apply ensures_writeHead
    · intro _
      trivial
    · intro buf _
      constructor
      · change update u.disk u.start _ start 0 = _
        rw [there.1, update_self]
        rfl
      · exact congrArg (fun header : Header => { header with n := 0 }) there.2
  · intro _ _ _
    trivial

theorem recoverFromLog_empty (disk : Disk) (writes : Nat) :
    Ensures recoverFromLog (restarted start disk writes) (fun _ t => t.disk start 0 = 0#32)
      (fun _ _ => True) := by
  rw [recoverFromLog, ensures_bind, readHead, ensures_bind, ensures_get, ensures_bind,
    ensures_bread, ensures_ite]
  constructor
  · intro _
    rw [ensures_throw]
    trivial
  · intro _
    rw [ensures_modify]
    apply (clear_spec ⟨rfl, rfl⟩).mono
    · intro _ t done
      exact done.1
    · intro _ _ _
      trivial

theorem commit_memory (s : State) :
    Ensures commit s
      (fun _ t => (s.disk s.start 0 = 0#32 -> t.disk s.start 0 = 0#32) /\
        t.lh = if 0 < s.lh.n then { s.lh with n := 0 } else s.lh)
      (fun _ _ => True) := by
  rw [commit, ensures_bind, ensures_get, ensures_ite]
  constructor
  · intro some
    rw [if_pos some, ensures_bind]
    apply (writeLog_still s ⟨rfl, rfl⟩).mono
    · intro _ t there
      rw [ensures_bind]
      apply (writeHead_still t there).mono
      · intro _ u after
        apply (clear_spec after).mono
        · intro _ v done
          exact ⟨fun _ => done.1, done.2⟩
        · intro _ _ _
          trivial
      · intro _ _ _
        trivial
    · intro _ _ _
      trivial
  · intro none
    rw [if_neg none, ensures_pure]
    exact ⟨id, rfl⟩

theorem Ready.empty (ready : Ready start disk) : disk start 0 = 0#32 := by
  induction ready with
  | recovered disk writes t run => exact (recoverFromLog_empty disk writes).of_ok run
  | committed s t _ origin run before => exact origin ▸ ((commit_memory s).of_ok run).1 (origin ▸ before)

/-! ## Crash atomicity -/

/-- Cut `commit` after any number of sector writes and the recoveries that follow after any numbers
of theirs.  The next recovery never goes wrong, it comes to its end when it can make one write more
than the transaction has blocks, and then the transaction is on disk as a whole or not at all. -/
theorem commit_crash_atomic (s : State) (cut : Nat) (cuts : List Nat) (writes : Nat)
    (valid : Transaction start size s.lh count) (origin : s.start = start)
    (pinned : ∀ sector, s.dirty sector ≠ none -> ∃ i, i < count /\ sector = s.lh.sector i)
    (ready : Ready start s.disk) :
    match recoverFromLog
        (restarted start (cutRecoveries start cuts (leftDisk (commit { s with writes := cut })))
          writes) with
    | .ok _ t => Settled start size s.lh count s.disk (cached s) t.disk
    | .error stop _ => stop = .crash /\ writes <= count := by
  have committed : ∃ phase, InPhase start size s.lh count s.disk (cached s) phase
      (leftDisk (commit { s with writes := cut })) := by
    apply leftDisk_of_ensures fun disk => ∃ phase,
      InPhase start size s.lh count s.disk (cached s) phase disk
    apply (commit_cut (s := { s with writes := cut }) valid origin pinned ready.empty).mono
    · intro _ t here
      exact ⟨.after, here⟩
    · intro stop t here
      exact here.2
  rcases committed with ⟨first, here⟩
  rcases cutRecoveries_phase valid cuts _ first here with ⟨phase, there⟩
  have spec := recoverFromLog_spec valid there writes
  cases run : recoverFromLog (restarted start _ writes) with
  | ok value t => exact (spec.of_ok run).settled
  | error stop t =>
    have stopped := spec.of_error run
    exact ⟨stopped.1.1, stopped.2⟩

/-- Two blocks to commit, on a disk that was just recovered. -/
def twoBlocks : State where
  disk := update (fun _ _ => 0#32) 970#32 (headBlock ⟨0, fun _ => 0#32⟩ fun _ => 0#32)
  dirty := update (update (fun _ => none) 40#32 (some fun _ => 1#32)) 41#32 (some fun _ => 2#32)
  start := 970#32
  lh := ⟨2, fun i => if i = 0 then 40#32 else 41#32⟩
  writes := 0

theorem twoBlocks_transaction : Transaction 970#32 30 twoBlocks.lh 2 := by
  have sectors : ∀ i, i < 2 -> twoBlocks.lh.sector i = 40#32 ∨ twoBlocks.lh.sector i = 41#32 := by
    decide
  constructor
  · rfl
  · decide
  · decide
  · decide
  · have apart : ∀ i, i < 2 -> ∀ j, j < 2 -> twoBlocks.lh.sector i = twoBlocks.lh.sector j -> i = j := by
      decide
    intro i j first second
    exact apart i first j second
  · intro i below inside
    rcases inside with ⟨k, bound, same⟩
    have value := congrArg BitVec.toNat same
    rw [BitVec.toNat_add, BitVec.toNat_ofNat] at value
    cases sectors i below with
    | inl first =>
      rw [first] at value
      simp at value
      omega
    | inr second =>
      rw [second] at value
      simp at value
      omega

/-- The power fails after the fourth write of `commit` and after the second of the first
recovery. -/
theorem commit_crash_atomic_twoBlocks :
    match recoverFromLog
        (restarted 970#32 (cutRecoveries 970#32 [2]
          (leftDisk (commit { twoBlocks with writes := 4 }))) 3) with
    | .ok _ t => Settled 970#32 30 twoBlocks.lh 2 twoBlocks.disk (cached twoBlocks) t.disk
    | .error stop _ => stop = .crash /\ 3 <= 2 := by
  apply commit_crash_atomic twoBlocks 4 [2] 3 twoBlocks_transaction rfl
  · intro sector held
    by_cases second : sector = 41#32
    · exact ⟨1, by decide, second⟩
    · by_cases first : sector = 40#32
      · exact ⟨0, by decide, first⟩
      · exact absurd ((update_of_ne second _ _).trans (update_of_ne first _ _)) held
  · have run : recoverFromLog (restarted 970#32 (fun _ _ => 0#32) 1) =
        .ok ()
          { restarted 970#32 twoBlocks.disk 0 with dirty := update (fun _ => none) 970#32 none } :=
      rfl
    have ready := Ready.recovered _ _ _ run
    exact ready

/-! ## One commit after the other -/

/-- What the file system leaves to `commit`: the header, and the buffers that it names as dirty. -/
structure Logged (start : Word) (size : Nat) where
  lh : Header
  dirty : Word -> Option Block
  count : Nat
  valid : Transaction start size lh count
  pinned : ∀ sector, dirty sector ≠ none -> ∃ i, i < count /\ sector = lh.sector i

/-- The state in which `commit` is called. -/
def Logged.onDisk (txn : Logged start size) (disk : Disk) (writes : Nat) : State :=
  ⟨disk, txn.dirty, start, txn.lh, writes⟩

/-- The disk with the blocks of the transactions, in order. -/
def applied (txns : List (Logged start size)) (disk : Disk) : Disk :=
  txns.foldl (fun disk txn => cached (txn.onDisk disk 0)) disk

/-- The transactions have been committed one after the other, and each call of `commit` has
returned. -/
inductive Committed (disk : Disk) : List (Logged start size) -> Disk -> Prop
  | nil : Committed disk [] disk
  | snoc {txns : List (Logged start size)} {txn : Logged start size} {mid : Disk} {writes : Nat}
    {t : State} :
      Committed disk txns mid -> commit (txn.onDisk mid writes) = .ok () t ->
        Committed disk (txns ++ [txn]) t.disk

/-- Outside the log one disk is as the other. -/
def Outside (start : Word) (size : Nat) (disk other : Disk) : Prop :=
  ∀ sector, ¬ InLog start size sector -> disk sector = other sector

variable {txn : Logged start size}

theorem applied_snoc {txns : List (Logged start size)} (writes : Nat)
    (same : Outside start size mid (applied txns disk)) :
    Outside start size (cached (txn.onDisk mid writes)) (applied (txns ++ [txn]) disk) := by
  intro sector outside
  rw [applied, List.foldl_append]
  exact congrArg _ (same sector outside)

theorem InPhase.outside {target : Disk}
    (here : InPhase start size txn.lh txn.count mid new phase disk)
    (home : ∀ i, i < txn.count -> disk (txn.lh.sector i) = target (txn.lh.sector i))
    (elsewhere : ∀ sector, txn.dirty sector = none -> mid sector = target sector) :
    Outside start size disk target := by
  intro sector outside
  by_cases listed : ∃ i, i < txn.count /\ sector = txn.lh.sector i
  · rcases listed with ⟨i, below, rfl⟩
    exact home i below
  · have clean : txn.dirty sector = none := by
      by_contra held
      exact listed (txn.pinned sector held)
    exact (here.others sector outside fun i below equal => listed ⟨i, below, equal⟩).trans
      (elsewhere sector clean)

theorem InPhase.after_outside {writes : Nat}
    (here : InPhase start size txn.lh txn.count mid (cached (txn.onDisk mid writes)) .after disk) :
    Outside start size disk (cached (txn.onDisk mid writes)) :=
  here.outside here.home fun sector clean => (congrArg (Option.getD · (mid sector)) clean).symm

theorem Committed.outside {txns : List (Logged start size)} (run : Committed disk txns mid)
    (empty : disk start 0 = 0#32) :
    mid start 0 = 0#32 /\ Outside start size mid (applied txns disk) := by
  induction run with
  | nil => exact ⟨empty, fun _ _ => rfl⟩
  | @snoc txns txn mid writes t _ step ih =>
    have here := (commit_cut (s := txn.onDisk mid writes) txn.valid rfl txn.pinned ih.1).of_ok step
    refine ⟨here.head, fun sector outside => ?_⟩
    exact (here.after_outside sector outside).trans (applied_snoc writes ih.2 sector outside)

/-- Let commits return, cut the next one after any number of sector writes, and the recoveries that
follow after any numbers of theirs.  A recovery that comes to its end leaves an empty log, the
blocks of all the commits that returned, and those of the last one as a whole or not at all. -/
theorem commits_durable {txns : List (Logged start size)} {mid disk : Disk}
    (run : Committed disk txns mid) (empty : disk start 0 = 0#32) (txn : Logged start size)
    (cut : Nat) (cuts : List Nat) (writes : Nat) :
    match recoverFromLog
        (restarted start (cutRecoveries start cuts (leftDisk (commit (txn.onDisk mid cut))))
          writes) with
    | .ok _ t => t.disk start 0 = 0#32 /\
        (Outside start size t.disk (applied txns disk) ∨
          Outside start size t.disk (applied (txns ++ [txn]) disk))
    | .error stop _ => stop = .crash /\ writes <= LOGSIZE := by
  rcases run.outside empty with ⟨settled, same⟩
  have committed : ∃ phase,
      InPhase start size txn.lh txn.count mid (cached (txn.onDisk mid cut)) phase
        (leftDisk (commit (txn.onDisk mid cut))) := by
    apply leftDisk_of_ensures fun disk => ∃ phase, InPhase start size txn.lh txn.count mid _ phase disk
    exact (commit_cut txn.valid rfl txn.pinned settled).mono (fun _ t here => ⟨.after, here⟩)
      fun _ t here => here.2
  rcases committed with ⟨first, here⟩
  rcases cutRecoveries_phase txn.valid cuts _ first here with ⟨phase, there⟩
  have spec := recoverFromLog_spec txn.valid there writes
  cases outcome : recoverFromLog (restarted start _ writes) with
  | ok value t =>
    rcases spec.of_ok outcome with before | after
    · exact ⟨before.head, .inl fun sector outside =>
        (before.outside before.home (fun _ _ => rfl) sector outside).trans (same sector outside)⟩
    · exact ⟨after.head, .inr fun sector outside =>
        (after.after_outside sector outside).trans (applied_snoc cut same sector outside)⟩
  | error stop t =>
    have stopped := spec.of_error outcome
    exact ⟨stopped.1.1, stopped.2.trans txn.valid.fits⟩

/-- The two blocks above. -/
def twoLogged : Logged 970#32 30 where
  lh := twoBlocks.lh
  dirty := twoBlocks.dirty
  count := 2
  valid := twoBlocks_transaction
  pinned sector held := by
    by_cases second : sector = 41#32
    · exact ⟨1, by decide, second⟩
    · by_cases first : sector = 40#32
      · exact ⟨0, by decide, first⟩
      · exact absurd ((update_of_ne second _ _).trans (update_of_ne first _ _)) held

theorem commits_durable_twice :
    ∃ mid, Committed twoBlocks.disk [twoLogged] mid /\ ∀ cut cuts writes,
    match recoverFromLog
        (restarted 970#32 (cutRecoveries 970#32 cuts (leftDisk (commit (twoLogged.onDisk mid cut))))
          writes) with
    | .ok _ t => t.disk 970#32 0 = 0#32 /\
    (Outside 970#32 30 t.disk (applied [twoLogged] twoBlocks.disk) ∨
        Outside 970#32 30 t.disk (applied ([twoLogged] ++ [twoLogged]) twoBlocks.disk))
    | .error stop _ => stop = .crash /\ writes <= LOGSIZE := by
  have returns : ∃ t, commit (twoLogged.onDisk twoBlocks.disk 6) = .ok () t := ⟨_, rfl⟩
  rcases returns with ⟨t, step⟩
  have run : Committed twoBlocks.disk [twoLogged] t.disk := .snoc .nil step
  exact ⟨t.disk, run, commits_durable run rfl twoLogged⟩

end Proofs

end Xv6.Log
