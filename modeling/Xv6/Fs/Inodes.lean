import Xv6.Library.Program
import Xv6.Fs.Directory

namespace Xv6.Fs.Inodes

open Library
open Function

/-!
# The inode layer of `fs.c` on the bytes of the disk

Every file system call is a list of calls of this layer between `begin_op` and
`end_op`: `ialloc`, an `iupdate` of changed fields, `readi`, `writei`, and the
`iput` that frees an inode.  The kernel changes blocks in the buffer cache and
inodes in its table of inodes, and `end_op` copies the changed blocks through
the log.  Calls run one after the other here, so that each `end_op` commits.

`readi` and `writei` of a device call its driver, which is left out.
-/

def NDIRECT : Nat := 12
def NINDIRECT : Nat := BSIZE / 4
def MAXFILE : Nat := NDIRECT + NINDIRECT
def LOGSIZE : Nat := 30

/-- The block with inode `i`. -/
def IBLOCK (i : Nat) : Nat := i / IPB + 2

/-- The fields of a `struct dinode`, on the disk or in memory. -/
structure Dinode where
  type : BitVec 16
  major : BitVec 16
  minor : BitVec 16
  nlink : BitVec 16
  size : Nat
  /-- `addrs[k]`, for `k <= NDIRECT` -/
  addrs : Nat -> Nat

def T_DIR : BitVec 16 := 1#16
def T_FILE : BitVec 16 := 2#16
def T_DEV : BitVec 16 := 3#16

/-- The type that `create` passes to `ialloc`. -/
def code : Kind -> BitVec 16
  | .dir => T_DIR
  | .file => T_FILE
  | .dev => T_DEV

/-! ## Bytes -/

/-- Byte `m` of a word. -/
def byteOf (w m : Nat) : Byte := BitVec.ofNat 8 (w / 2 ^ (8 * m))

def setWord (data : Block) (i w : Nat) : Block :=
  fun j => if j / 4 = i then byteOf w (j % 4) else data j

/-- Word `k` of the sixteen words of an inode. -/
def Dinode.word (d : Dinode) : Nat -> Nat
  | 0 => d.type.toNat + d.major.toNat * 2 ^ 16
  | 1 => d.minor.toNat + d.nlink.toNat * 2 ^ 16
  | 2 => d.size
  | k + 3 => d.addrs k

/-- Inode `i` in the bytes of its block. -/
def getDinode (data : Block) (i : Nat) : Dinode where
  type := BitVec.ofNat 16 (word data (i % IPB * 16))
  major := BitVec.ofNat 16 (word data (i % IPB * 16) / 2 ^ 16)
  minor := BitVec.ofNat 16 (word data (i % IPB * 16 + 1))
  nlink := BitVec.ofNat 16 (word data (i % IPB * 16 + 1) / 2 ^ 16)
  size := word data (i % IPB * 16 + 2)
  addrs k := word data (i % IPB * 16 + 3 + k)

def putDinode (data : Block) (i : Nat) (d : Dinode) : Block := fun j =>
  if j / 64 = i % IPB then byteOf (d.word (j % 64 / 4)) (j % 4) else data j

/-- Inode `i` as it is on the disk. -/
def dinode (disk : Disk) (i : Nat) : Dinode := getDinode (disk (IBLOCK i)) i

/-! ## State -/

inductive Halt where
  | block (panic : Panic)
  | tooBigTransaction
  | bmapOutOfRange
  | noInodes
  | noType

structure State where
  /-- The blocks as the buffer cache shows them. -/
  disk : Disk
  /-- `log.lh.sector[0 .. log.lh.n)` -/
  logged : List Nat
  /-- The copies of the inodes in memory. -/
  inode : Nat -> Dinode
  /-- The blocks that `balloc` returned since the last `begin_op`. -/
  taken : List Nat

abbrev M := EStateM Halt State

def setDisk (b : Nat) (data : Block) (s : State) : State := { s with disk := update s.disk b data }

def setInode (i : Nat) (d : Dinode) (s : State) : State := { s with inode := update s.inode i d }

def setAddr (i k b : Nat) (s : State) : State :=
  setInode i { s.inode i with addrs := update (s.inode i).addrs k b } s

/-! ## `log_write`, `balloc` and `bfree` in a transaction -/

def addLogged (b : Nat) (s : State) : State :=
  { s with logged := if b ∈ s.logged then s.logged else s.logged ++ [b] }

def logWrite (b : Nat) : M Unit := do
  let s <- get
  if LOGSIZE <= s.logged.length ∨
    (readsb s.disk).nlog - 1 <= s.logged.length then throw .tooBigTransaction
  else modify (addLogged b)

/-- `balloc` once its scan is over. -/
def take : Except Panic (Nat × Disk) -> M Nat
  | .error panic => throw (.block panic)
  | .ok (b, disk) => do
      modify fun s => { s with disk := disk, taken := b :: s.taken }
      let s <- get
      logWrite (BBLOCK b (readsb s.disk).ninodes)
      logWrite b
      pure b

def ballocOp : M Nat := do
  let s <- get
  take (balloc s.disk)

def release (b : Nat) : Except Panic Disk -> M Unit
  | .error panic => throw (.block panic)
  | .ok disk => do
      modify fun s => { s with disk := disk }
      let s <- get
      logWrite (BBLOCK b (readsb s.disk).ninodes)

def bfreeOp (b : Nat) : M Unit := do
  let s <- get
  release b (bfree s.disk b)

/-! ## Inodes -/

def iupdate (i : Nat) : M Unit := do
  modify fun s => setDisk (IBLOCK i) (putDinode (s.disk (IBLOCK i)) i (s.inode i)) s
  logWrite (IBLOCK i)

def blank (type : BitVec 16) : Dinode := ⟨type, 0#16, 0#16, 0#16, 0, fun _ => 0⟩

/-- `addrs[k]`, allocated when it is zero. -/
def addrOf (i k : Nat) : M Nat := do
  let s <- get
  if (s.inode i).addrs k = 0 then do
    let b <- ballocOp
    modify (setAddr i k b)
    pure b
  else pure ((s.inode i).addrs k)

/-- `a[k]` in the indirect block `addr`, allocated when it is zero. -/
def entryOf (addr k : Nat) : M Nat := do
  let s <- get
  if word (s.disk addr) k = 0 then do
    let b <- ballocOp
    modify fun s => setDisk addr (setWord (s.disk addr) k b) s
    logWrite addr
    pure b
  else pure (word (s.disk addr) k)

def bmap (i bn : Nat) : M Nat :=
  if bn < NDIRECT then addrOf i bn
  else if bn - NDIRECT < NINDIRECT then do
    let addr <- addrOf i NDIRECT
    entryOf addr (bn - NDIRECT)
  else throw .bmapOutOfRange

/-- The loop of `itrunc` over the direct blocks from `k` on. -/
def truncDirect (i : Nat) : Nat -> Nat -> M Unit
  | 0, _ => pure ()
  | more + 1, k => do
      let s <- get
      if (s.inode i).addrs k ≠ 0 then do
        bfreeOp ((s.inode i).addrs k)
        modify (setAddr i k 0)
      truncDirect i more (k + 1)

/-- The loop of `itrunc` over the entries of an indirect block from `j` on. -/
def truncIndirect (a : Block) : Nat -> Nat -> M Unit
  | 0, _ => pure ()
  | more + 1, j => do
      if word a j ≠ 0 then bfreeOp (word a j)
      truncIndirect a more (j + 1)

def itrunc (i : Nat) : M Unit := do
  truncDirect i NDIRECT 0
  let s <- get
  if (s.inode i).addrs NDIRECT ≠ 0 then do
    truncIndirect (s.disk ((s.inode i).addrs NDIRECT)) NINDIRECT 0
    bfreeOp ((s.inode i).addrs NDIRECT)
    modify (setAddr i NDIRECT 0)
  modify fun s => setInode i { s.inode i with size := 0 } s
  iupdate i

/-- The branch of `iput` that frees the inode. -/
def iputFree (i : Nat) : M Unit := do
  itrunc i
  modify fun s => setInode i { s.inode i with type := 0#16 } s
  iupdate i

/-! ## Reading and writing -/

/-- `m`, the bytes of one pass. -/
def chunk (off left : Nat) : Nat := min left (BSIZE - off % BSIZE)

/-- `memmove` into a block. -/
def patch (data : Block) (first count : Nat) (src : Nat -> Byte) : Block := fun j =>
  if first <= j /\ j < first + count then src (j - first) else data j

/-- The loop of `writei`, with `left` bytes to go. -/
def writeiLoop (i : Nat) : Nat -> (Nat -> Byte) -> Nat -> Nat -> M Unit
  | 0, _, _, _ => pure ()
  | more + 1, src, off, left =>
    if left = 0 then pure ()
    else do
      let b <- bmap i (off / BSIZE)
      modify fun s => setDisk b (patch (s.disk b) (off % BSIZE) (chunk off left) src) s
      logWrite b
      writeiLoop i more (fun j => src (j + chunk off left)) (off + chunk off left) (left - chunk off left)

def writei (i : Nat) (src : Nat -> Byte) (off n : Nat) : M (Option Nat) := do
  let s <- get
  if (s.inode i).type = T_DEV then pure none
  else if (s.inode i).size < off ∨ 2 ^ 32 <= off + n then pure none
  else if MAXFILE * BSIZE < off + n then pure none
  else do
    writeiLoop i n src off n
    if 0 < n /\ (s.inode i).size < off + n then do
      modify fun s => setInode i { s.inode i with size := off + n } s
      iupdate i
    pure (some n)

/-! ## `commit` -/

/-- `write_log` from `tail` on. -/
def writeLog (start : Nat) : Nat -> List Nat -> Disk -> Disk
  | _, [], disk => disk
  | tail, sector :: rest, disk =>
    writeLog start (tail + 1) rest (update disk (start + tail + 1) (disk sector))

/-- `install_trans` from `tail` on. -/
def installTrans (start : Nat) : Nat -> List Nat -> Disk -> Disk
  | _, [], disk => disk
  | tail, sector :: rest, disk =>
    installTrans start (tail + 1) rest (update disk sector (disk (start + tail + 1)))

/-- The sectors of a header from `i` on. -/
def headSectors : Nat -> List Nat -> Block -> Block
  | _, [], data => data
  | i, sector :: rest, data => headSectors (i + 1) rest (setWord data (1 + i) sector)

/-- `write_head` -/
def writeHead (start : Nat) (sectors : List Nat) (disk : Disk) : Disk :=
  update disk start (headSectors 0 sectors (setWord (disk start) 0 sectors.length))

def commit (disk : Disk) (sectors : List Nat) : Disk :=
  let start := logStart (readsb disk)
  if sectors = [] then disk
  else writeHead start [] (installTrans start 0 sectors
    (writeHead start sectors (writeLog start 0 sectors disk)))

/-- The state after `end_op`. -/
def endOp (s : State) : State :=
  { s with disk := commit s.disk s.logged, logged := [], taken := [] }

def started (disk : Disk) : State := ⟨disk, [], dinode disk, []⟩

end Xv6.Fs.Inodes
