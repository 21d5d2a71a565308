import Mathlib.Data.Nat.ModEq
import Mathlib.Data.List.Basic

namespace Xv6.Library

/-!
# A ring of slots between two free-running counters

Values go in at the counter `tail` and come out at the counter `head`.  Both
counters are words that only ever grow, and wrap; a slot is a counter modulo
the number of slots.  When that number divides the number of words, a wrap
does not disturb the slots, and the difference of the counters is the number of
values in the ring.
-/

variable {w : Nat} {α : Type}

structure Ring (w : Nat) (α : Type) where
  data : Nat -> α
  head : BitVec w
  tail : BitVec w

namespace Ring

/-- The number of slots. -/
structure Capacity (w : Nat) where
  slots : Nat
  positive : 0 < slots
  divides : slots ∣ 2 ^ w
  small : slots < 2 ^ w

variable (cap : Capacity w)

def full (r : Ring w α) : Prop := r.tail = r.head + BitVec.ofNat w cap.slots

def empty (r : Ring w α) : Prop := r.head = r.tail

instance (r : Ring w α) : Decidable (r.full cap) := inferInstanceAs (Decidable (_ = _))

instance (r : Ring w α) : Decidable r.empty := inferInstanceAs (Decidable (_ = _))

def push (r : Ring w α) (x : α) : Ring w α :=
  { r with data := Function.update r.data (r.tail.toNat % cap.slots) x, tail := r.tail + 1#w }

/-- The slot that was filled last. -/
def back (r : Ring w α) : α := r.data ((r.tail - 1#w).toNat % cap.slots)

/-- The value that went in last is taken back. -/
def unpush (r : Ring w α) : Ring w α := { r with tail := r.tail - 1#w }

/-- The value that comes out next. -/
def front (r : Ring w α) : α := r.data (r.head.toNat % cap.slots)

def pop (r : Ring w α) : Ring w α := { r with head := r.head + 1#w }

/-- The ring holds these values, the oldest first. -/
structure Holding (r : Ring w α) (values : List α) : Prop where
  bounded : values.length <= cap.slots
  tail : r.tail = r.head + BitVec.ofNat w values.length
  slots : ∀ (k : Nat) (inside : k < values.length), r.data ((r.head.toNat + k) % cap.slots) = values[k]

namespace Holding

variable {cap} {r : Ring w α} {values : List α}

theorem of_empty (same : r.tail = r.head) : Holding cap r ([] : List α) where
  bounded := Nat.zero_le _
  tail := by
    rw [same]
    exact (BitVec.add_zero r.head).symm
  slots := fun k inside => absurd inside (Nat.not_lt_zero k)

section

variable (holding : Holding cap r values)

include holding

theorem length_small : values.length < 2 ^ w :=
  Nat.lt_of_le_of_lt holding.bounded cap.small

/-- The difference of the counters is the number of values. -/
theorem difference : (r.tail - r.head).toNat = values.length := by
  have small := holding.length_small
  rw [holding.tail, BitVec.add_comm, BitVec.add_sub_cancel, BitVec.toNat_ofNat, Nat.mod_eq_of_lt small]

theorem full_iff : r.full cap <-> values.length = cap.slots := by
  have small := holding.length_small
  unfold full
  rw [holding.tail]
  constructor
  · intro same
    have words := congrArg BitVec.toNat (BitVec.add_right_inj r.head |>.mp same)
    rw [BitVec.toNat_ofNat, BitVec.toNat_ofNat, Nat.mod_eq_of_lt small,
      Nat.mod_eq_of_lt cap.small] at words
    exact words
  · intro same
    rw [same]

theorem empty_iff : r.empty <-> values = [] := by
  have difference := holding.difference
  constructor
  · intro same
    rw [same, BitVec.sub_self] at difference
    exact List.length_eq_zero_iff.mp difference.symm
  · intro none
    have tail := holding.tail
    rw [none] at tail
    exact (tail.trans (BitVec.add_zero r.head)).symm

/-- The slot at which the next value goes in. -/
theorem tail_slot : r.tail.toNat % cap.slots = (r.head.toNat + values.length) % cap.slots := by
  rw [holding.tail, BitVec.toNat_add, BitVec.toNat_ofNat, Nat.mod_eq_of_lt holding.length_small,
    Nat.mod_mod_of_dvd _ cap.divides]

omit holding in
/-- Fewer than `slots` steps lead to another slot. -/
theorem slot_ne {first second : Nat} (later : first < second) (near : second < first + cap.slots) :
    first % cap.slots ≠ second % cap.slots := by
  intro same
  have multiple := (Nat.modEq_iff_dvd' (Nat.le_of_lt later)).mp same
  have least := Nat.le_of_dvd (by omega) multiple
  omega

theorem push (room : ¬ r.full cap) (x : α) : Holding cap (r.push cap x) (values ++ [x]) := by
  have less : values.length < cap.slots := by
    rw [holding.full_iff] at room
    have bound := holding.bounded
    omega
  constructor
  case bounded =>
    rw [List.length_append, List.length_singleton]
    exact less
  case tail =>
    change r.tail + 1#w = r.head + _
    rw [holding.tail, List.length_append, List.length_singleton, BitVec.add_assoc, BitVec.ofNat_add]
  case slots =>
    intro k inside
    rw [List.length_append, List.length_singleton] at inside
    change Function.update r.data (r.tail.toNat % cap.slots) x ((r.head.toNat + k) % cap.slots) = _
    rw [holding.tail_slot]
    by_cases new : k = values.length
    · subst new
      rw [Function.update_self, List.getElem_concat_length rfl]
    · have old : k < values.length := by omega
      have apart : (r.head.toNat + k) % cap.slots ≠ (r.head.toNat + values.length) % cap.slots :=
        slot_ne (by omega) (by omega)
      rw [Function.update_of_ne apart, holding.slots k old, List.getElem_append_left old]

end

theorem unpush {x : α} (holding : Holding cap r (values ++ [x])) :
    r.back cap = x /\ Holding cap r.unpush values := by
  have bound := holding.bounded
  rw [List.length_append, List.length_singleton] at bound
  have tail : r.tail - 1#w = r.head + BitVec.ofNat w values.length := by
    rw [holding.tail, List.length_append, List.length_singleton, BitVec.ofNat_add, <- BitVec.add_assoc,
      BitVec.add_sub_cancel]
  have less : values.length < (values ++ [x]).length := by
    rw [List.length_append, List.length_singleton]
    exact Nat.lt_succ_self _
  have shorter : Holding cap r.unpush values := by
    refine ⟨by omega, tail, ?_⟩
    intro k inside
    have before := holding.slots k (Nat.lt_trans inside less)
    rw [List.getElem_append_left inside] at before
    exact before
  refine ⟨?_, shorter⟩
  have slot : (r.tail - 1#w).toNat % cap.slots = (r.head.toNat + values.length) % cap.slots :=
    shorter.tail_slot
  unfold back
  rw [slot, holding.slots values.length less, List.getElem_concat_length rfl]

theorem pop {x : α} {rest : List α} (holding : Holding cap r (x :: rest)) :
    r.front cap = x /\ Holding cap r.pop rest := by
  have first := holding.slots 0 (Nat.zero_lt_succ _)
  refine ⟨first, ?_⟩
  have bound := holding.bounded
  rw [List.length_cons] at bound
  constructor
  case bounded => omega
  case tail =>
    change r.tail = r.head + 1#w + _
    rw [holding.tail, List.length_cons, BitVec.add_assoc, Nat.add_comm, BitVec.ofNat_add]
  case slots =>
    intro k inside
    have next := holding.slots (k + 1) (by rw [List.length_cons]; omega)
    have slot : ((r.head + 1#w).toNat + k) % cap.slots = (r.head.toNat + (k + 1)) % cap.slots := by
      have one : (r.head + 1#w).toNat % cap.slots = (r.head.toNat + 1) % cap.slots := by
        rw [BitVec.toNat_add, Nat.mod_mod_of_dvd _ cap.divides, Nat.add_mod, BitVec.toNat_ofNat,
          Nat.mod_mod_of_dvd _ cap.divides, <- Nat.add_mod]
      rw [Nat.add_mod, one, <- Nat.add_mod]
      congr 1
      omega
    change r.data (((r.head + 1#w).toNat + k) % cap.slots) = _
    rw [slot, next, List.getElem_cons_succ]

end Holding

end Ring

end Xv6.Library
