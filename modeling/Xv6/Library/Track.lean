import Xv6.Library.Chain

namespace Xv6.Library

/-!
# Paths along a successor function

`Track next a cells z` follows `next` from `a` through the cells to `z`.  A ring
is a track from a cell back to itself; it can be entered at any of its cells,
and a walk that looks for one of them finds it within one round.
-/

open Chain (ending)

variable {α : Type}

def Track (next : α -> α) : α -> List α -> α -> Prop
  | a, [], z => next a = z
  | a, c :: rest, z => next a = c /\ Track next c rest z

/-- The first cell that is accepted, from a cell on; `none` when more than `n` cells are visited. -/
def walk (next : α -> α) (accept : α -> Bool) : Nat -> α -> Option α
  | 0, _ => none
  | n + 1, x => if accept x = true then some x else walk next accept n (next x)

theorem walk_le {next : α -> α} {accept : α -> Bool} {found : α} : ∀ {n k : Nat} {x : α},
    walk next accept n x = some found -> n <= k -> walk next accept k x = some found := by
  intro n
  induction n with
  | zero =>
    intro k x done more
    cases done
  | succ n ih =>
    intro k x done more
    obtain ⟨k, rfl⟩ := Nat.exists_eq_add_of_le' (Nat.le_trans (Nat.le_add_left 1 n) more)
    rw [walk] at *
    split
    · next accepted => rwa [if_pos accepted] at done
    · next refused =>
        rw [if_neg refused] at done
        exact ih done (Nat.le_of_succ_le_succ more)

namespace Track

variable {next next' : α -> α} {a z : α} {cells : List α}

theorem append_iff (front : List α) : ∀ {a c : α} {back : List α},
    Track next a (front ++ c :: back) z <-> Track next a front c /\ Track next c back z := by
  induction front with
  | nil =>
    intro a c back
    exact Iff.rfl
  | cons first rest ih =>
    intro a c back
    constructor
    · rintro ⟨here, later⟩
      rcases ih.mp later with ⟨before, after⟩
      exact ⟨⟨here, before⟩, after⟩
    · rintro ⟨⟨here, before⟩, after⟩
      exact ⟨here, ih.mpr ⟨before, after⟩⟩

section

variable (track : Track next a cells z)

include track

/-- The same cells, entered from another one. -/
theorem restart {b : α} (first : next' b = next a)
    (same : ∀ x, x ∈ cells -> next' x = next x) : Track next' b cells z := by
  induction cells generalizing a b with
  | nil => exact first.trans track
  | cons c rest ih =>
    refine ⟨first.trans track.1, ?_⟩
    exact ih track.2 (same c List.mem_cons_self)
      (fun x listed => same x (List.mem_cons_of_mem _ listed))

theorem next_ending : next (ending a cells) = z := by
  induction cells generalizing a with
  | nil => exact track
  | cons first rest ih => exact ih track.2

theorem next_mem {x : α} (listed : x ∈ a :: cells) : next x ∈ cells ++ [z] := by
  induction cells generalizing a with
  | nil =>
    rw [List.mem_singleton.mp listed, show next a = z from track]
    exact List.mem_singleton_self z
  | cons first rest ih =>
    rcases List.mem_cons.mp listed with rfl | later
    · rw [track.1]
      exact List.mem_cons_self
    · exact List.mem_cons_of_mem _ (ih track.2 later)

/-- A cell has one predecessor. -/
theorem injective (nodup : (cells ++ [z]).Nodup) {x y : α} (first : x ∈ a :: cells)
    (second : y ∈ a :: cells) (same : next x = next y) : x = y := by
  induction cells generalizing a with
  | nil => rw [List.mem_singleton.mp first, List.mem_singleton.mp second]
  | cons c rest ih =>
    rcases List.nodup_cons.mp nodup with ⟨apart, nodupRest⟩
    rcases List.mem_cons.mp first with rfl | laterFirst
    · rcases List.mem_cons.mp second with rfl | laterSecond
      · rfl
      · rw [track.1] at same
        rw [same] at apart
        exact absurd (track.2.next_mem laterSecond) apart
    · rcases List.mem_cons.mp second with rfl | laterSecond
      · rw [track.1] at same
        rw [<- same] at apart
        exact absurd (track.2.next_mem laterFirst) apart
      · exact ih track.2 nodupRest laterFirst laterSecond

omit track in
/-- A ring may be entered at any cell. -/
theorem rotate (track : Track next a cells a) {x : α} (listed : x ∈ a :: cells) : ∃ cells',
    Track next x cells' x /\ (x :: cells').Perm (a :: cells) := by
  rcases List.mem_cons.mp listed with rfl | later
  · exact ⟨cells, track, List.Perm.refl _⟩
  · rcases List.append_of_mem later with ⟨front, back, split⟩
    subst split
    rcases (append_iff front).mp track with ⟨before, after⟩
    refine ⟨back ++ a :: front, (append_iff back).mpr ⟨after, before⟩, ?_⟩
    have swapped : ((x :: back) ++ (a :: front)).Perm ((a :: front) ++ (x :: back)) :=
      List.perm_append_comm
    exact swapped

/-- The one cell of a track that is accepted is found. -/
theorem walk_eq {accept : α -> Bool} {p : α} (listed : p ∈ a :: cells)
    (accepted : ∀ x, x ∈ a :: cells -> (accept x = true <-> x = p)) {n : Nat}
    (enough : cells.length < n) : walk next accept n a = some p := by
  induction cells generalizing a n with
  | nil =>
    obtain ⟨m, rfl⟩ := Nat.exists_eq_succ_of_ne_zero (Nat.ne_of_gt enough)
    have here := List.mem_singleton.mp listed
    rw [walk, if_pos ((accepted a List.mem_cons_self).mpr here.symm), here]
  | cons first rest ih =>
    obtain ⟨m, rfl⟩ := Nat.exists_eq_succ_of_ne_zero
      (Nat.ne_of_gt (Nat.lt_of_le_of_lt (Nat.zero_le _) enough))
    by_cases here : a = p
    · rw [walk, if_pos ((accepted a List.mem_cons_self).mpr here), here]
    · have later : p ∈ first :: rest := (List.mem_cons.mp listed).resolve_left (Ne.symm here)
      rw [walk, if_neg (fun stops => here ((accepted a List.mem_cons_self).mp stops)), track.1]
      exact ih track.2 later (fun x known => accepted x (List.mem_cons_of_mem _ known))
        (Nat.lt_of_succ_lt_succ enough)

end

/-- Along ascending cells, each is followed by the next larger one, and the last by the end of the
track. -/
theorem ascending {next : Nat -> Nat} {a z x : Nat} {cells : List Nat}
    (track : Track next a cells z) (order : (a :: cells).Pairwise (· < ·))
    (listed : x ∈ a :: cells) :
    (x < next x /\ next x ∈ cells /\ ∀ y, y ∈ a :: cells -> y <= x ∨ next x <= y) ∨
      (next x = z /\ ∀ y, y ∈ a :: cells -> y <= x) := by
  induction cells generalizing a with
  | nil =>
    rw [List.mem_singleton.mp listed]
    exact .inr ⟨track, fun y known => Nat.le_of_eq (List.mem_singleton.mp known)⟩
  | cons c rest ih =>
    rcases List.pairwise_cons.mp order with ⟨first, orderRest⟩
    have below := (List.pairwise_cons.mp orderRest).1
    rcases List.mem_cons.mp listed with rfl | later
    · refine .inl ⟨track.1 ▸ first c List.mem_cons_self, track.1 ▸ List.mem_cons_self, fun y known => ?_⟩
      rw [track.1]
      rcases List.mem_cons.mp known with rfl | other
      · exact .inl (Nat.le_refl _)
      · rcases List.mem_cons.mp other with rfl | far
        · exact .inr (Nat.le_refl _)
        · exact .inr (Nat.le_of_lt (below y far))
    · have above := first x later
      rcases ih track.2 orderRest later with ⟨larger, known, closest⟩ | ⟨linked, largest⟩
      · refine .inl ⟨larger, List.mem_cons_of_mem _ known, fun y member => ?_⟩
        rcases List.mem_cons.mp member with rfl | other
        · exact .inl (Nat.le_of_lt above)
        · exact closest y other
      · refine .inr ⟨linked, fun y member => ?_⟩
        rcases List.mem_cons.mp member with rfl | other
        · exact Nat.le_of_lt above
        · exact largest y other

end Track

end Xv6.Library
