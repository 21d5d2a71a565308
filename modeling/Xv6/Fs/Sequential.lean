import Xv6.Fs.Calls
import Xv6.Fs.Ownership

namespace Xv6.Fs.Sequential

open Inodes (M Dinode dinode T_DIR T_DEV bmap chunk setInode addr slotOf Covers)
open Dirents (direntSize namecmp slots Aligned)
open Calls (Prog)
open Function

/-!
# A file system call that runs alone

The primitives of a call on the bytes of the disk, one call at a time.  Blocks
are what the buffer cache shows, so that `begin_op` and `end_op` are left out:
what a call leaves here is what its transaction commits.  The table of inodes
is indexed by inode number.

A run that panics or waits for itself has no result.
-/

structure Sys where
  fs : Inodes.State
  ref : Nat -> Nat
  /-- The inodes that have an entry of `icache.inode`. -/
  cached : Finset Nat
  /-- `I_VALID` -/
  valid : Nat -> Bool
  /-- `I_BUSY` -/
  busy : Nat -> Bool
  /-- `proc->cwd` -/
  cwd : Nat

/-! ## Directories -/

abbrev R := StateT Inodes.State Option

def ofM {α : Type} (program : M α) : R α := fun s =>
  match program s with
  | .ok value t => some (value, t)
  | .error _ _ => none

/-- The loop of `readi`, with the bytes that it copies. -/
def readiLoop (i : Nat) : Nat -> Nat -> Nat -> R (List Byte)
  | 0, _, _ => pure []
  | more + 1, off, left =>
    if left = 0 then pure []
    else do
      let b <- ofM (bmap i (off / BSIZE))
      let s <- get
      let rest <- readiLoop i more (off + chunk off left) (left - chunk off left)
      pure ((List.range (chunk off left)).map (fun j => s.disk b (off % BSIZE + j)) ++ rest)

/-- `readi`, with `none` for -1.  The drivers of devices are left out. -/
def readi (i : Nat) (off : BitVec 32) (n : Nat) : R (Option (List Byte)) := do
  let s <- get
  let size := (s.inode i).size
  if (s.inode i).type = T_DEV then pure none
  else if size < off.toNat ∨ off + BitVec.ofNat 32 n < off then pure none
  else if size < (off + BitVec.ofNat 32 n).toNat then
    some <$> readiLoop i (size - off.toNat) off.toNat (size - off.toNat)
  else some <$> readiLoop i n off.toNat n

/-- `readi(dp, &de, off, sizeof(de))`, or the panic that follows when it is short. -/
def readDirent (dp off : Nat) : R (Nat × (Nat -> Byte)) := do
  match <- readi dp (BitVec.ofNat 32 off) direntSize with
  | none => failure
  | some bytes =>
    if bytes.length = direntSize then
      pure ((bytes.getD 0 0#8).toNat + 256 * (bytes.getD 1 0#8).toNat, fun k => bytes.getD (k + 2) 0#8)
    else failure

def dirlookupLoop (dp : Nat) (name : Nat -> Byte) : Nat -> Nat -> R (Option (Nat × Nat))
  | 0, _ => pure none
  | more + 1, off => do
      let s <- get
      if off < (s.inode dp).size then do
        let de <- readDirent dp off
        if de.1 = 0 then dirlookupLoop dp name more (off + direntSize)
        else if namecmp name de.2 = 0 then pure (some (de.1, off))
        else dirlookupLoop dp name more (off + direntSize)
      else pure none

def dirlookup (dp : Nat) (name : Nat -> Byte) : R (Option (Nat × Nat)) := do
  let s <- get
  if (s.inode dp).type ≠ T_DIR then failure
  else dirlookupLoop dp name ((s.inode dp).size / direntSize + 1) 0

/-! ## The table of inodes -/

def NINODE : Nat := 50

/-- `iget` panics when the inode is not in the table and no entry is free. -/
def iget (i : Nat) (s : Sys) : Option Sys :=
  if 0 < s.ref i then some { s with ref := update s.ref i (s.ref i + 1) }
  else if s.cached.card < NINODE then
    some { s with
      ref := update s.ref i 1
      cached := insert i s.cached
      valid := update s.valid i false
      busy := update s.busy i false }
  else none

def idup (i : Nat) (s : Sys) : Sys := { s with ref := update s.ref i (s.ref i + 1) }

/-- `ilock` once it has the lock. -/
def load (i : Nat) (s : Sys) : Option Sys :=
  if s.valid i then some s
  else if (dinode s.fs.disk i).type = 0#16 then none
  else some { s with fs := setInode i (dinode s.fs.disk i) s.fs, valid := update s.valid i true }

def ilock (i : Nat) (s : Sys) : Option Sys :=
  if s.ref i < 1 ∨ s.busy i = true then none else load i { s with busy := update s.busy i true }

def iunlock (i : Nat) (s : Sys) : Option Sys :=
  if s.busy i = false ∨ s.ref i < 1 then none else some { s with busy := update s.busy i false }

/-- An entry without references is free. -/
def putRef (i : Nat) (s : Sys) : Sys :=
  { s with
    ref := update s.ref i (s.ref i - 1)
    cached := if s.ref i <= 1 then s.cached.erase i else s.cached }

/-- The state of the blocks and inodes changes. -/
def onFs {α : Type} (program : R α) (s : Sys) : Option (α × Sys) :=
  (program s.fs).map fun result => (result.1, { s with fs := result.2 })

/-- `iput` once the inode is freed. -/
def freed (i : Nat) (s : Sys) : Sys :=
  putRef i { s with valid := update s.valid i false, busy := update s.busy i false }

def iput (i : Nat) (s : Sys) : Option Sys :=
  if s.ref i = 1 /\ s.valid i = true /\ (s.fs.inode i).nlink = 0#16 then
    if s.busy i then none else (onFs (ofM (Inodes.iputFree i)) s).map fun result => freed i result.2
  else some (putRef i s)

/-! ## Calls -/

def ROOTINO : Nat := 1

/-- What the call returns, and the state that it leaves. -/
def run : Prog Nat -> Sys -> Option (Int × Sys)
  | .done result, s => some (result, s)
  | .iget k, s => (iget ROOTINO s).bind (run (k ROOTINO))
  | .idup k, s => run (k s.cwd) (idup s.cwd s)
  | .ilock ip k, s => (ilock ip s).bind (run k)
  | .iunlock ip k, s => (iunlock ip s).bind (run k)
  | .iput ip k, s => (iput ip s).bind (run k)
  | .type ip k, s => run (k (s.fs.inode ip).type) s
  | .dirlookup dp name k, s =>
    (onFs (dirlookup dp name) s).bind fun result =>
      match result.1 with
      | none => run (k none) result.2
      | some (inum, off) => (iget inum result.2).bind (run (k (some (inum, off))))

/-! ## What a directory has -/

/-- A file as its blocks, in the order that `bmap` gives. -/
def contents (disk : Disk) (inode : Nat -> Dinode) (i : Nat) : Contents where
  data bn := disk (addr disk inode (i, slotOf bn))
  size := (inode i).size

/-- The result of a function on the contents, for a program that changes nothing. -/
def result {α ε : Type} (outcome : Except ε α) (s : Inodes.State) : Option (α × Inodes.State) :=
  match outcome with
  | .ok value => some (value, s)
  | .error _ => none

variable {α β : Type} {s : Inodes.State} {first : R α}

theorem bind_some {next : α -> R β} {t : Inodes.State} {value : α}
    (run : first s = some (value, t)) : (first >>= next) s = next value t := by
  change (first s).bind _ = _
  rw [run]
  rfl

theorem bind_get (next : Inodes.State -> R α) (s : Inodes.State) : (get >>= next) s = next s s :=
  rfl

theorem map_some {change : α -> β} {t : Inodes.State} {value : α}
    (run : first s = some (value, t)) : (change <$> first) s = some (change value, t) := by
  change (first s).bind (fun result => some (change result.1, result.2)) = _
  rw [run]
  rfl

theorem bind_none {next : α -> R β} (run : first s = none) : (first >>= next) s = none := by
  change (first s).bind _ = _
  rw [run]
  rfl

section Reading

variable {s : Inodes.State} {i : Nat} (covers : Covers s.disk s.inode i (s.inode i).size)

include covers

theorem ofM_bmap {bn : Nat} (inside : bn * BSIZE < (s.inode i).size) :
    ofM (bmap i bn) s = some (addr s.disk s.inode (i, slotOf bn), s) := by
  rcases covers bn inside with ⟨bounded, set⟩
  unfold ofM
  rw [(Inodes.reads_bmap bounded set).eq_ok]

theorem readiLoop_eq (more : Nat) : ∀ off left, off + left <= (s.inode i).size ->
    readiLoop i more off left s =
      some (Contents.readiLoop more (contents s.disk s.inode i).data off left, s) := by
  induction more with
  | zero => exact fun _ _ _ => rfl
  | succ more ih =>
    intro off left inside
    rw [readiLoop, Contents.readiLoop]
    by_cases none : left = 0
    · rw [if_pos none, if_pos none]
      rfl
    · have start : off / BSIZE * BSIZE < (s.inode i).size := by
        have low := Nat.div_mul_le_self off BSIZE
        omega
      have part : chunk off left <= left := Nat.min_le_left _ _
      have rest := ih (off + chunk off left) (left - chunk off left) (by omega)
      rw [if_neg none, if_neg none, bind_some (ofM_bmap covers start), bind_get, bind_some rest]
      rfl

theorem readi_eq (notDevice : (s.inode i).type ≠ T_DEV) (off : BitVec 32) (n : Nat)
    (small : n < 2 ^ 32) : readi i off n s = some ((contents s.disk s.inode i).readi off n, s) := by
  unfold Contents.readi
  change (if (s.inode i).type = T_DEV then pure none else _ : R (Option (List Byte))) s = _
  rw [if_neg notDevice]
  change _ = some (if (s.inode i).size < off.toNat ∨ off + BitVec.ofNat 32 n < off then _ else _, s)
  by_cases outside : (s.inode i).size < off.toNat ∨ off + BitVec.ofNat 32 n < off
  · rw [if_pos outside, if_pos outside]
    rfl
  · rw [if_neg outside, if_neg outside]
    change _ = some (if (s.inode i).size < (off + BitVec.ofNat 32 n).toNat then _ else _, s)
    have noWrap := (not_or.mp outside).2
    by_cases long : (s.inode i).size < (off + BitVec.ofNat 32 n).toNat
    · rw [if_pos long, if_pos long]
      refine map_some (readiLoop_eq covers _ _ _ ?_)
      omega
    · rw [if_neg long, if_neg long]
      refine map_some (readiLoop_eq covers _ _ _ ?_)
      rw [BitVec.not_lt, BitVec.le_def, BitVec.toNat_add, BitVec.toNat_ofNat] at noWrap
      rw [BitVec.toNat_add, BitVec.toNat_ofNat] at long
      have bound := off.isLt
      omega

variable (notDevice : (s.inode i).type ≠ T_DEV)

include notDevice

theorem readDirent_eq (off : Nat) :
    readDirent i off s = result (Dirents.readDirent (contents s.disk s.inode i) off) s := by
  unfold readDirent Dirents.readDirent
  rw [bind_some (readi_eq covers notDevice _ _ (by decide))]
  cases (contents s.disk s.inode i).readi (BitVec.ofNat 32 off) direntSize with
  | none => rfl
  | some bytes =>
    dsimp only
    by_cases whole : bytes.length = direntSize
    · rw [if_pos whole, if_pos whole]
      rfl
    · rw [if_neg whole, if_neg whole]
      rfl

theorem dirlookupLoop_eq (name : Nat -> Byte) (more : Nat) :
    ∀ off, dirlookupLoop i name more off s =
    result (Dirents.dirlookupLoop (contents s.disk s.inode i) name more off) s := by
  induction more with
  | zero => exact fun _ => rfl
  | succ more ih =>
    intro off
    rw [dirlookupLoop, Dirents.dirlookupLoop, bind_get]
    change _ = result (if off < (s.inode i).size then _ else _) s
    by_cases inside : off < (s.inode i).size
    · rw [if_pos inside, if_pos inside]
      have read := readDirent_eq covers notDevice off
      cases entry : Dirents.readDirent (contents s.disk s.inode i) off with
      | error panic =>
        rw [entry] at read
        rw [bind_none read]
        rfl
      | ok de =>
        rw [entry] at read
        rw [bind_some read]
        change _ = result (if de.1 = 0 then _ else _) s
        by_cases free : de.1 = 0
        · rw [if_pos free, if_pos free, ih]
        · rw [if_neg free, if_neg free]
          by_cases same : namecmp name de.2 = 0
          · rw [if_pos same, if_pos same]
            rfl
          · rw [if_neg same, if_neg same, ih]
    · rw [if_neg inside, if_neg inside]
      rfl

omit notDevice in
/-- The first entry with the name. -/
theorem dirlookup_eq (isDir : (s.inode i).type = T_DIR)
    (aligned : Aligned (contents s.disk s.inode i)) (name : Nat -> Byte) : dirlookup i name s =
      some (Dirents.locate (Dirents.nameOf name) (slots (contents s.disk s.inode i)) 0, s) := by
  have notDevice : (s.inode i).type ≠ T_DEV := by
    rw [isDir]
    decide
  have enough : (slots (contents s.disk s.inode i)).length <= 0 +
      ((s.inode i).size / direntSize + 1) := by
    rw [Dirents.slots_length]
    change (s.inode i).size / direntSize <= _
    omega
  have loop := Dirents.dirlookupLoop_eq aligned name _ 0 enough
  rw [Nat.zero_mul, List.drop_zero] at loop
  unfold dirlookup
  rw [bind_get, if_neg (not_not.mpr isDir), dirlookupLoop_eq covers notDevice, loop]
  rfl

end Reading

end Xv6.Fs.Sequential
