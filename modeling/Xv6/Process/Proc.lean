import Xv6.Process.Signal

namespace Xv6.Process

open Library Machine Memory

/-!
# Growing and shrinking a process, `proc.c`

The current process, the per-CPU variable `proc` of the source, is the argument
`slot`.
-/

variable [L : Layout]

def growproc (slot : Nat) (n : Word) : K Int := do
  let p ← getProc slot
  if 0 < n.toInt then do
    let sz ← allocuvm p.dir p.sz.toNat (p.sz + n).toNat
    if sz = 0 then
      return -1
    else do
      modifyProc slot (fun p => { p with sz := BitVec.ofNat 32 sz })
      switchuvm slot
      return 0
  else if n.toInt < 0 then do
    let sz ← deallocuvm p.dir p.sz.toNat (p.sz + n).toNat
    if sz = 0 then
      return -1
    else do
      modifyProc slot (fun p => { p with sz := BitVec.ofNat 32 sz })
      switchuvm slot
      return 0
  else do
    switchuvm slot
    return 0

end Xv6.Process
