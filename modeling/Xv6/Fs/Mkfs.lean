import Xv6.Fs.Sequential

namespace Xv6.Fs.Mkfs

open Inodes (Dinode NDIRECT MAXFILE T_DIR T_FILE getDinode putDinode setWord patch)
open Dirents (encode literal slash)

/-!
# `mkfs.c`

The program that makes the image of the file system, on the bytes of the image.
The kernel is not involved: `iappend` allocates blocks from a counter, places
inodes and addresses by its own arithmetic, and copies the files in the pieces
that `read` returned.

A failed assertion has no result.
-/

structure State where
  disk : Disk
  freeblock : Nat
  usedblocks : Nat
  freeinode : Nat

/-! ## Sectors and inodes -/

def wsect (sec : Nat) (buf : Block) (s : State) : State :=
  { s with disk := Function.update s.disk sec buf }

def i2b (inum : Nat) : Nat := inum / IPB + 2

def winode (inum : Nat) (din : Dinode) (s : State) : State :=
  wsect (i2b inum) (putDinode (s.disk (i2b inum)) inum din) s

def rinode (inum : Nat) (s : State) : Dinode := getDinode (s.disk (i2b inum)) inum

/-- The inode number is `s.freeinode`. -/
def ialloc (type : BitVec 16) (s : State) : State :=
  winode s.freeinode ⟨type, 0#16, 0#16, 1#16, 0, fun _ => 0⟩ { s with freeinode := s.freeinode + 1 }

/-! ## `iappend` -/

/-- `freeblock++; usedblocks++` -/
def takeBlock (s : State) : State :=
  { s with freeblock := s.freeblock + 1, usedblocks := s.usedblocks + 1 }

/-- `din.addrs[k]`, allocated when it is zero. -/
def address (k : Nat) (din : Dinode) (s : State) : Dinode × State :=
  if din.addrs k = 0 then ({ din with addrs := Function.update din.addrs k s.freeblock },
    takeBlock s) else (din, s)

/-- `indirect[k]` in the block `sec`, allocated when it is zero. -/
def entry (sec k : Nat) (s : State) : Nat × State :=
  if word (s.disk sec) k = 0 then
    (s.freeblock, wsect sec (setWord (s.disk sec) k s.freeblock) (takeBlock s))
  else (word (s.disk sec) k, s)

/-- The block `x` of the file block `fbn`. -/
def block (fbn : Nat) (din : Dinode) (s : State) : Nat × Dinode × State :=
  if fbn < NDIRECT then
    let direct := address fbn din s
    (direct.1.addrs fbn, direct.1, direct.2)
  else
    let pointer := address NDIRECT din s
    let indirect := entry (pointer.1.addrs NDIRECT) (fbn - NDIRECT) pointer.2
    (indirect.1, pointer.1, indirect.2)

/-- The loop of `iappend`.  Each pass copies at least one byte. -/
def iappendLoop : Nat -> List Byte -> Nat -> Dinode -> State -> Option (Nat × Dinode × State)
  | 0, _, off, din, s => some (off, din, s)
  | more + 1, p, off, din, s =>
    if p = [] then some (off, din, s)
    else
      let fbn := off / 512
      if fbn < MAXFILE then
        let found := block fbn din s
        let x := found.1
        let n1 := min p.length ((fbn + 1) * 512 - off)
        let buf := patch (found.2.2.disk x) (off - fbn * 512) n1 fun j => p.getD j 0#8
        iappendLoop more (p.drop n1) (off + n1) found.2.1 (wsect x buf found.2.2)
      else none

def iappend (inum : Nat) (xp : List Byte) (s : State) : Option State :=
  (iappendLoop xp.length xp (rinode inum s).size (rinode inum s) s).map fun (off, din, s) =>
    winode inum { din with size := off } s

/-! ## `main` -/

/-- A file of the command line: `argv[i]`, and what each call of `read` returned until it returned
nothing. -/
structure File where
  arg : List Byte
  reads : List (List Byte)

def underscore : Byte := 95#8

/-- The name without a leading underscore. -/
def File.name (file : File) : List Byte :=
  if file.arg.head? = some underscore then file.arg.tail else file.arg

def iappendAll (inum : Nat) : List (List Byte) -> State -> Option State
  | [], s => some s
  | buf :: rest, s => (iappend inum buf s).bind (iappendAll inum rest)

def ROOTINO : Nat := 1

/-- One pass of the loop over the files. -/
def addFile (file : File) (s : State) : Option State :=
  if slash ∈ file.arg then none
  else
    let inum := s.freeinode
    (iappend ROOTINO (encode inum (literal file.name)) (ialloc T_FILE s)).bind
      (iappendAll inum file.reads)

def addFiles : List File -> State -> Option State
  | [], s => some s
  | file :: rest, s => (addFile file s).bind (addFiles rest)

/-- The image of nothing but the superblock. -/
def blank : State where
  disk sector := if sector = 1 then mkfsSuperbytes else fun _ => 0#8
  freeblock := 29
  usedblocks := 29
  freeinode := 1

/-- The directory with its first two entries. -/
def makeRoot (s : State) : Option State :=
  (iappend ROOTINO (encode ROOTINO (literal dot)) (ialloc T_DIR s)).bind
    (iappend ROOTINO (encode ROOTINO (literal dotdot)))

/-- The size of the directory is rounded up, past the last block when that is full. -/
def fixRoot (s : State) : State :=
  let din := rinode ROOTINO s
  winode ROOTINO { din with size := (din.size / BSIZE + 1) * BSIZE } s

/-- `balloc`, which writes the bitmap. -/
def balloc (s : State) : Option State :=
  if s.usedblocks < 512 * 8 then some (wsect (mkfsSuperblock.ninodes / IPB + 3)
    (mkfsBits s.usedblocks) s) else none

def main (files : List File) : Option Disk :=
  (((makeRoot blank).bind (addFiles files)).bind fun s => balloc (fixRoot s)).map State.disk

end Xv6.Fs.Mkfs
