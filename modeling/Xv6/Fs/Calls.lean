import Xv6.Fs.Dirents

namespace Xv6.Fs.Calls

open Inodes (T_DIR)
open Dirents (slash skipelem literal)

/-!
# Paths, and the primitives that follow them

A call is a tree: a primitive of `fs.c`, and what follows for each of its
results.  The primitives get their meaning elsewhere, for a call that runs alone
on the bytes of the disk.  `H` is what stands for a `struct inode *`.

There is one device with a file system, so that `dev` is left out.
-/

inductive Prog (H : Type) where
  | done (result : Int)
  /-- `iget(ROOTDEV, ROOTINO)` -/
  | iget (k : H -> Prog H)
  /-- `idup(proc->cwd)` -/
  | idup (k : H -> Prog H)
  | ilock (ip : H) (k : Prog H)
  | iunlock (ip : H) (k : Prog H)
  | iput (ip : H) (k : Prog H)
  /-- A use of `ip->type`. -/
  | type (ip : H) (k : BitVec 16 -> Prog H)
  /-- What is found comes with a reference to it, and the offset of its entry. -/
  | dirlookup (dp : H) (name : Nat -> Byte) (k : Option (H × Nat) -> Prog H)

section Programs

variable {H : Type}

def iunlockput (ip : H) (k : Prog H) : Prog H := .iunlock ip (.iput ip k)

/-! ## Paths -/

/-- Where `skipelem` leaves the path. -/
def remaining (path : List Byte) : List Byte :=
  ((path.dropWhile fun b => b = slash).dropWhile fun b => b ≠ slash /\ b ≠ 0#8).dropWhile fun b =>
    b = slash

/-- `namex` after its loop. -/
def namexEnd (nameiparent : Bool) (k : Option (H × (Nat -> Byte)) -> Prog H) (name : Nat -> Byte)
    (ip : H) : Prog H :=
  if nameiparent then .iput ip (k none) else k (some (ip, name))

/-- The loop of `namex`.  Every pass takes an element off the path. -/
def namexLoop (nameiparent : Bool) (k : Option (H × (Nat -> Byte)) -> Prog H) :
    Nat -> List Byte -> (Nat -> Byte) -> H -> Prog H
  | 0, _, name, ip => namexEnd nameiparent k name ip
  | more + 1, path, name, ip =>
    match skipelem path name with
    | none => namexEnd nameiparent k name ip
    | some name =>
      .ilock ip <| .type ip fun type =>
        if type ≠ T_DIR then iunlockput ip (k none)
        else if nameiparent = true /\ (remaining path).headD 0#8 = 0#8 then
          .iunlock ip (k (some (ip, name)))
        else
          .dirlookup ip name fun found =>
            match found with
            | none => iunlockput ip (k none)
            | some (next, _) => iunlockput ip (namexLoop nameiparent k more (remaining path) name next)

/-- `namex`.  The array `name` is not read before `skipelem` has written to it. -/
def namex (nameiparent : Bool) (path : List Byte)
    (k : Option (H × (Nat -> Byte)) -> Prog H) : Prog H :=
  if path.headD 0#8 = slash then .iget (namexLoop nameiparent k path.length path (literal []))
  else .idup (namexLoop nameiparent k path.length path (literal []))

def namei (path : List Byte) (k : Option H -> Prog H) : Prog H :=
  namex false path fun found => k (found.map Prod.fst)

def nameiparent (path : List Byte) (k : Option (H × (Nat -> Byte)) -> Prog H) : Prog H :=
  namex true path k

end Programs

end Xv6.Fs.Calls
