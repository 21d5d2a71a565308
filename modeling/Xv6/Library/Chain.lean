import Mathlib.Data.List.Nodup
import Mathlib.Logic.Function.Basic

namespace Xv6.Library

open Function

/-!
# Queues linked by pointers

Cells are linked by a function `next`.  A queue is a link to its first cell,
and a new cell is put behind the last one, which is found by following the
links.
-/

variable {β : Type}

/-- The cells from a link on, in order. -/
def Chain (next : β -> Option β) : Option β -> List β -> Prop
  | link, [] => link = none
  | link, cell :: rest => link = some cell /\ Chain next (next cell) rest

namespace Chain

/-- The last cell from a cell on, when it is at most `n` links away. -/
def last (next : β -> Option β) : Nat -> β -> Option β
  | 0, _ => none
  | n + 1, cell =>
    match next cell with
    | none => some cell
    | some other => last next n other

/-- The last cell of a list. -/
def ending : β -> List β -> β
  | first, [] => first
  | _, second :: rest => ending second rest

variable {next next' : β -> Option β} {link : Option β} {cells : List β} {cell : β}

theorem congr (same : ∀ cell, cell ∈ cells -> next' cell = next cell)
    (chain : Chain next link cells) : Chain next' link cells := by
  induction cells generalizing link with
  | nil => exact chain
  | cons first rest ih =>
    rcases chain with ⟨here, later⟩
    refine ⟨here, ?_⟩
    rw [same first List.mem_cons_self]
    exact ih (fun cell listed => same cell (List.mem_cons_of_mem _ listed)) later

theorem ending_mem (rest : List β) : ∀ first, ending first rest ∈ first :: rest := by
  induction rest with
  | nil => exact fun _ => List.mem_cons_self
  | cons second rest ih => exact fun first => List.mem_cons_of_mem _ (ih second)

theorem last_eq (rest : List β) : ∀ {n : Nat} {first : β}, Chain next (next first) rest ->
    rest.length < n -> last next n first = some (ending first rest) := by
  induction rest with
  | nil =>
    intro n first chain enough
    cases n with
    | zero => cases enough
    | succ n =>
      have ends : next first = none := chain
      rw [last, ends]
      rfl
  | cons second rest ih =>
    intro n first chain enough
    cases n with
    | zero => cases enough
    | succ n =>
      rcases chain with ⟨here, later⟩
      rw [last, here]
      exact ih later (Nat.lt_of_succ_lt_succ enough)

variable [DecidableEq β]

/-- The links after a cell has been put at the end; `none` when the end is further away than `n`
links. -/
def enqueue (n : Nat) (next : β -> Option β) (link : Option β) (cell : β) :
    Option (Option β × (β -> Option β)) :=
  let next := update next cell none
  match link with
  | none => some (some cell, next)
  | some first => (last next n first).map fun ending => (some first, update next ending (some cell))

/-- A link at the last cell makes the queue one cell longer. -/
theorem snoc (rest : List β) :
    ∀ {first : β}, Chain next (next first) rest -> (first :: rest).Nodup ->
    cell ∉ first :: rest -> next cell = none ->
      Chain (update next (ending first rest) (some cell))
        (update next (ending first rest) (some cell) first) (rest ++ [cell]) := by
  induction rest with
  | nil =>
    intro first chain _ absent ends
    have ne : cell ≠ first := fun same => absent (by rw [same]; exact List.mem_cons_self)
    refine ⟨update_self _ _ _, ?_⟩
    exact (update_of_ne ne _ _).trans ends
  | cons second rest ih =>
    intro first chain nodup absent ends
    rcases chain with ⟨here, later⟩
    rcases List.nodup_cons.mp nodup with ⟨apart, nodupRest⟩
    have ne : first ≠ ending second rest := by
      intro same
      rw [same] at apart
      exact apart (ending_mem rest second)
    refine ⟨(update_of_ne ne _ _).trans here, ?_⟩
    exact ih later nodupRest (fun listed => absent (List.mem_cons_of_mem _ listed)) ends

theorem enqueue_eq {n : Nat} (chain : Chain next link cells) (nodup : cells.Nodup)
    (absent : cell ∉ cells) (enough : cells.length <= n) :
    ∃ links, enqueue n next link cell = some links /\ Chain links.2 links.1 (cells ++ [cell]) := by
  have cut : Chain (update next cell none) link cells := by
    apply chain.congr
    intro other listed
    rw [update_of_ne]
    rintro rfl
    exact absent listed
  have ends : update next cell none cell = none := update_self _ _ _
  cases cells with
  | nil =>
    cases chain
    exact ⟨_, rfl, rfl, ends⟩
  | cons first rest =>
    rcases cut with ⟨rfl, later⟩
    unfold enqueue
    dsimp only
    rw [last_eq rest later enough]
    exact ⟨_, rfl, rfl, snoc rest later nodup absent ends⟩

end Chain
end Xv6.Library
