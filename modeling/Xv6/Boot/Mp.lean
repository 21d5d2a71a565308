import Xv6.Machine.Layout

namespace Xv6.Boot

open Machine
open Function

/-!
# The table of processors, `mp.c`

`mpconfig` accepts a table by its signature, version and checksum, and `mpinit`
walks over its entries.  Memory is bytes by address, pointers are 32-bit words,
and the loop keeps a record of the addresses that it reads.  The result of
`mpsearch` is a parameter.

The loop does not move past an entry of a kind that it does not know, and checks
neither the length of an entry nor the number of processors.
-/

abbrev Bytes := Word -> BitVec 8

def ushort (mem : Bytes) (a : Word) : BitVec 16 := mem (a + 1) ++ mem a

def uint (mem : Bytes) (a : Word) : Word := mem (a + 3) ++ mem (a + 2) ++ mem (a + 1) ++ mem a

def sum (mem : Bytes) (addr : Word) (len : Nat) : BitVec 8 :=
  (List.range len).foldl (fun total i => total + mem (addr + BitVec.ofNat 32 i)) 0

/-- `conf->length` -/
def length (mem : Bytes) (conf : Word) : Nat := (ushort mem (conf + 4)).toNat

/-- The table that the floating pointer `mp` leads to, or the null pointer. -/
def mpconfig (mem : Bytes) (mp : Word) : Word :=
  if mp = 0 ∨ uint mem (mp + 4) = 0 then
    0
  else
    let conf := uint mem (mp + 4) + BitVec.ofNat 32 KERNBASE
    if ¬ (mem conf = 0x50 /\ mem (conf + 1) = 0x43 /\ mem (conf + 2) = 0x4D /\ mem (conf + 3) = 0x50) then
      0
    else if mem (conf + 6) ≠ 1 /\ mem (conf + 6) ≠ 4 then
      0
    else if sum mem conf (length mem conf) ≠ 0 then
      0
    else
      conf

def MPBOOT : BitVec 8 := 0x02

/-- The types of entries. -/
inductive Kind where
  | MPPROC
  | MPBUS
  | MPIOAPIC
  | MPIOINTR
  | MPLINTR
deriving DecidableEq

namespace Kind

def code : Kind -> BitVec 8
  | MPPROC => 0x00
  | MPBUS => 0x01
  | MPIOAPIC => 0x02
  | MPIOINTR => 0x03
  | MPLINTR => 0x04

def size : Kind -> Word
  | MPPROC => 20
  | _ => 8

/-- The bytes of an entry at `p` that `mpinit` reads. -/
def touched (p : Word) : Kind -> List Word
  | MPPROC => [p, p + 1, p + 3]
  | MPIOAPIC => [p, p + 1]
  | _ => [p]

end Kind

/-- The variables of the loop, `cpus[i].id` and the addresses that were read. -/
structure Mp where
  p : Word
  ismp : Bool := true
  ncpu : Nat := 0
  bcpu : Nat := 0
  ioapicid : BitVec 8 := 0
  id : Nat -> Nat := fun _ => 0
  reads : List Word := []

/-- The `switch` in the loop of `mpinit`. -/
def entry (mem : Bytes) (m : Mp) : Mp :=
  if mem m.p = Kind.MPPROC.code then
    { m with
      ismp := m.ismp && decide (m.ncpu = (mem (m.p + 1)).toNat)
      bcpu := if mem (m.p + 3) &&& MPBOOT ≠ 0 then m.ncpu else m.bcpu
      id := update m.id m.ncpu m.ncpu
      ncpu := m.ncpu + 1
      p := m.p + 20
      reads := m.reads ++ [m.p, m.p + 1, m.p + 3] }
  else if mem m.p = Kind.MPIOAPIC.code then
    { m with ioapicid := mem (m.p + 1), p := m.p + 8, reads := m.reads ++ [m.p, m.p + 1] }
  else if mem m.p = Kind.MPBUS.code ∨ mem m.p = Kind.MPIOINTR.code ∨ mem m.p = Kind.MPLINTR.code then
    { m with p := m.p + 8, reads := m.reads ++ [m.p] }
  else
    { m with ismp := false, reads := m.reads ++ [m.p] }

/-- At most `fuel` passes of the loop, which ends at `e`. -/
def entries (mem : Bytes) (e : Word) : Nat -> Mp -> Option Mp
  | 0, m => if m.p < e then none else some m
  | fuel + 1, m => if m.p < e then entries mem e fuel (entry mem m) else some m

/-- The loop as `mpinit` starts it.  The header has 44 bytes. -/
def table (mem : Bytes) (conf : Word) (fuel : Nat) : Option Mp :=
  entries mem (conf + BitVec.ofNat 32 (length mem conf)) fuel { p := conf + 44 }

/-- What the loop found, with the local APIC's address, or one processor if it found something
wrong. -/
def mpinit (mem : Bytes) (mp : Word) (fuel : Nat) : Option (Option (Mp × Word)) :=
  let conf := mpconfig mem mp
  if conf = 0 then
    some none
  else
    (table mem conf fuel).map fun m =>
      if m.ismp then some (m, uint mem (conf + 36)) else some ({ m with ncpu := 1, ioapicid := 0 }, 0)

/-! ## Tables of known entries -/

/-- The entries from `p` on are of these kinds, one directly behind the other up to the end, and
what is read of each is before the end. -/
def LaidOut (mem : Bytes) (conf : Word) : Word -> List Kind -> Prop
  | p, [] => ¬ p < conf + BitVec.ofNat 32 (length mem conf)
  | p, kind :: rest => p < conf + BitVec.ofNat 32 (length mem conf) /\ mem p = kind.code /\
      (∀ a, a ∈ kind.touched p -> (a - conf).toNat < length mem conf) /\
        LaidOut mem conf (p + kind.size) rest

section Loop

variable {mem : Bytes} {conf : Word} {m m' : Mp} {kind : Kind}

/-- One pass over a known entry. -/
theorem entry_known (here : mem m.p = kind.code) : (entry mem m).p = m.p + kind.size /\
    (entry mem m).ncpu = m.ncpu + [kind].count .MPPROC /\
    (entry mem m).reads = m.reads ++ kind.touched m.p := by
  unfold entry
  rw [here]
  cases kind <;> exact ⟨rfl, rfl, rfl⟩

/-- One pass over an entry of another kind does not move. -/
theorem entry_unknown (other : ∀ kind : Kind, mem m.p ≠ kind.code) : (entry mem m).p = m.p := by
  unfold entry
  rw [if_neg (other _), if_neg (other _), if_neg]
  rintro (bus | interrupt | interrupt)
  · exact other _ bus
  · exact other _ interrupt
  · exact other _ interrupt

theorem reads_entry (mem : Bytes) (m : Mp) : m.reads ⊆ (entry mem m).reads := by
  unfold entry
  split_ifs <;> exact List.subset_append_left _ _

/-- A run that ends has gone over known entries. -/
theorem laidOut_of_entries (fuel : Nat) : ∀ m,
    entries mem (conf + BitVec.ofNat 32 (length mem conf)) fuel m = some m' -> m.reads ⊆ m'.reads /\
      ((∀ a, a ∈ m'.reads -> (a - conf).toNat < length mem conf) ->
        ∃ kinds, LaidOut mem conf m.p kinds /\ m'.ncpu = m.ncpu + kinds.count .MPPROC) := by
  have finished (m : Mp) (stop : ¬ m.p < conf + BitVec.ofNat 32 (length mem conf)) (same : m = m') :
      m.reads ⊆ m'.reads /\ ((∀ a, a ∈ m'.reads -> (a - conf).toNat < length mem conf) ->
        ∃ kinds, LaidOut mem conf m.p kinds /\ m'.ncpu = m.ncpu + kinds.count .MPPROC) := by
    subst same
    exact ⟨fun _ => id, fun _ => ⟨[], stop, rfl⟩⟩
  induction fuel with
  | zero =>
    intro m ends
    rw [entries, Option.ite_none_left_eq_some, Option.some.injEq] at ends
    exact finished m ends.1 ends.2
  | succ fuel ih =>
    intro m ends
    rw [entries] at ends
    by_cases more : m.p < conf + BitVec.ofNat 32 (length mem conf)
    · rw [if_pos more] at ends
      rcases ih _ ends with ⟨later, rest⟩
      refine ⟨List.Subset.trans (reads_entry mem m) later, fun bound => ?_⟩
      rcases rest bound with ⟨kinds, laid, count⟩
      by_cases known : ∃ kind : Kind, mem m.p = kind.code
      · rcases known with ⟨kind, here⟩
        rcases entry_known here with ⟨next, counted, touched⟩
        rw [next] at laid
        refine ⟨kind :: kinds, ⟨more, here, fun a inside => bound a (later ?_), laid⟩, ?_⟩
        · rw [touched]
          exact List.mem_append_right _ inside
        · rw [count, counted, Nat.add_assoc, <- List.count_append, List.singleton_append]
      · -- The pointer has not moved, and no kind fits.
        rw [entry_unknown (not_exists.mp known)] at laid
        cases kinds with
        | nil => exact absurd more laid
        | cons kind kinds => exact absurd ⟨kind, laid.2.1⟩ known
    · rw [if_neg more, Option.some.injEq] at ends
      exact finished m more ends

/-- A run over known entries ends, and reads and counts nothing else. -/
theorem entries_of_laidOut (kinds : List Kind) : ∀ m, LaidOut mem conf m.p kinds ->
    (∀ a, a ∈ m.reads -> (a - conf).toNat < length mem conf) ->
    ∃ m', entries mem (conf + BitVec.ofNat 32 (length mem conf)) kinds.length m = some m' /\
      m'.ncpu = m.ncpu + kinds.count .MPPROC /\ ∀ a, a ∈ m'.reads ->
      (a - conf).toNat < length mem conf := by
  induction kinds with
  | nil =>
    intro m laid bound
    exact ⟨m, if_neg laid, rfl, bound⟩
  | cons kind kinds ih =>
    rintro m ⟨more, here, inside, laid⟩ bound
    rcases entry_known here with ⟨next, counted, touched⟩
    rw [<- next] at laid
    have next (a : Word) (read : a ∈ (entry mem m).reads) : (a - conf).toNat < length mem conf := by
      rw [touched] at read
      exact (List.mem_append.mp read).elim (bound a) (inside a)
    rcases ih (entry mem m) laid next with ⟨m', ends, count, result⟩
    refine ⟨m', (if_pos more).trans ends, ?_, result⟩
    rw [count, counted, Nat.add_assoc, <- List.count_append, List.singleton_append]

/-- A run that comes to an entry of another kind does not end. -/
theorem entries_unknown {e : Word} (other : ∀ kind : Kind, mem m.p ≠ kind.code) (more : m.p < e)
    (fuel : Nat) : entries mem e fuel m = none := by
  induction fuel generalizing m with
  | zero => exact if_pos more
  | succ fuel ih =>
    have same := entry_unknown other
    rw [entries, if_pos more]
    exact ih (by rwa [same]) (by rwa [same])

end Loop

/-- The loop of `mpinit` ends, with at most `NCPU` processors and without a read behind the table,
only if the table is entries of known kinds up to its end with at most `NCPU` processors.  That
`mpconfig` accepts it is no help. -/
theorem table_bounded_iff (mem : Bytes) (conf : Word) :
    (∃ fuel m, table mem conf fuel = some m /\ m.ncpu <= NCPU /\
      ∀ a, a ∈ m.reads -> (a - conf).toNat < length mem conf) ↔
      ∃ kinds, LaidOut mem conf (conf + 44) kinds /\ kinds.count .MPPROC <= NCPU := by
  constructor
  · rintro ⟨fuel, m, ends, few, bound⟩
    rcases (laidOut_of_entries fuel _ ends).2 bound with ⟨kinds, laid, count⟩
    rw [count, Nat.zero_add] at few
    exact ⟨kinds, laid, few⟩
  · rintro ⟨kinds, laid, few⟩
    rcases entries_of_laidOut kinds { p := conf + 44 } laid nofun with ⟨m, ends, count, bound⟩
    exact ⟨kinds.length, m, ends, by rw [count, Nat.zero_add]; exact few, bound⟩

/-- A table at 0x80001000 with one byte behind its header, and a floating pointer at its byte 48. -/
private def small (kind checksum : BitVec 8) : Bytes := fun a =>
  ([0x50, 0x43, 0x4D, 0x50, 45, 0, 1, checksum] ++ List.replicate 36 0 ++ [kind] ++ List.replicate 8 0 ++
    [0x10, 0, 0]).getD (a - 0x80001000#32).toNat 0

example : LaidOut (small 1 0xA1) 0x80001000 0x8000102C [.MPBUS] := by
  refine ⟨by decide +kernel, by decide +kernel, fun a inside => ?_, show ¬ _ < _ by decide +kernel⟩
  cases List.mem_singleton.mp inside
  decide +kernel

/-- A table with an entry of an unknown kind is accepted, and the loop does not end. -/
theorem table_unknown_endless : mpconfig (small 9 0x99) 0x80001030 = 0x80001000 /\
    ∀ fuel, table (small 9 0x99) 0x80001000 fuel = none /\
    mpinit (small 9 0x99) 0x80001030 fuel = none := by
  have accepted : mpconfig (small 9 0x99) 0x80001030 = 0x80001000 := by decide +kernel
  have endless (fuel : Nat) : table (small 9 0x99) 0x80001000 fuel = none := by
    refine entries_unknown (fun kind => ?_) (by decide +kernel) fuel
    cases kind <;> decide +kernel
  refine ⟨accepted, fun fuel => ⟨endless fuel, ?_⟩⟩
  simp only [mpinit, accepted, endless, if_neg (show (0x80001000 : Word) ≠ 0 by decide), Option.map_none]

end Xv6.Boot
