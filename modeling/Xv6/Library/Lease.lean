import Mathlib.Data.List.Basic

namespace Xv6.Library

/-!
# Histories of things handed out and taken back

A history is the list of what has happened, the latest first.  Things are
handed out *exclusively* when between two times that the same thing is handed
out it has been taken back.
-/

variable {α : Type}

inductive Lease (α : Type) where
  | acquire (x : α)
  | release (x : α)
  deriving DecidableEq, Repr

namespace Lease

/-- The thing has been handed out and not taken back since. -/
def Held : List (Lease α) -> α -> Prop
  | [], _ => False
  | acquire y :: earlier, x => y = x ∨ Held earlier x
  | release y :: earlier, x => y ≠ x /\ Held earlier x

/-- Whatever is handed out twice has been taken back in between. -/
def Exclusive (history : List (Lease α)) : Prop :=
  ∀ later between earlier x, history = later ++ acquire x :: (between ++ acquire x :: earlier) ->
    release x ∈ between

variable {history : List (Lease α)} {x : α}

theorem held_of_not_released (between : List (Lease α)) {earlier : List (Lease α)}
    (kept : release x ∉ between) : Held (between ++ acquire x :: earlier) x := by
  induction between with
  | nil => exact .inl rfl
  | cons first rest ih =>
    have later := ih fun listed => kept (List.mem_cons_of_mem _ listed)
    cases first with
    | acquire y => exact .inr later
    | release y =>
      refine ⟨?_, later⟩
      rintro rfl
      exact kept List.mem_cons_self

theorem exclusive_nil : Exclusive ([] : List (Lease α)) := by
  intro later between earlier x split
  cases later <;> cases split

theorem Exclusive.acquire (exclusive : Exclusive history) (free : ¬ Held history x) :
    Exclusive (acquire x :: history) := by
  intro later between earlier y split
  cases later with
  | nil =>
    rcases List.cons.inj split with ⟨same, rest⟩
    cases same
    by_contra kept
    rw [rest] at free
    exact free (held_of_not_released between kept)
  | cons first later => exact exclusive later between earlier y (List.cons.inj split).2

theorem Exclusive.release (exclusive : Exclusive history) (x : α) :
    Exclusive (release x :: history) := by
  intro later between earlier y split
  cases later with
  | nil => cases (List.cons.inj split).1
  | cons first later => exact exclusive later between earlier y (List.cons.inj split).2

end Lease
end Xv6.Library
