import Mathlib.Data.List.Nodup
import Mathlib.Data.List.Perm.Basic
import Mathlib.Logic.Function.Basic

namespace Xv6.Library

open Function

/-!
# Circular doubly linked lists

The cells and one extra node, the head, are linked in both directions.  The
head is `none`.  A list is changed by taking a cell out and by putting a cell
right behind the head, with the single assignments in the order in which they
are usually written, and it is searched in either direction until the head
comes up again.
-/

variable {β : Type}

structure Links (β : Type) where
  next : Option β -> Option β
  prev : Option β -> Option β

namespace Links

variable [DecidableEq β]

def unlink (l : Links β) (b : β) : Links β :=
  let prev := update l.prev (l.next (some b)) (l.prev (some b))
  ⟨update l.next (prev (some b)) (l.next (some b)), prev⟩

def pushFront (l : Links β) (b : β) : Links β :=
  let next := update l.next (some b) (l.next none)
  let prev := update l.prev (some b) none
  ⟨update next none (some b), update prev (next none) (some b)⟩

omit [DecidableEq β] in
def swap (l : Links β) : Links β := ⟨l.prev, l.next⟩

end Links

/-- The cells from one node to another, linked in both directions. -/
def Path (l : Links β) : Option β -> List β -> Option β -> Prop
  | a, [], z => l.next a = z /\ l.prev z = a
  | a, c :: rest, z => l.next a = some c /\ l.prev (some c) = a /\ Path l (some c) rest z

/-- The first cell that is accepted, from a node on; `none` when more than `n` nodes are visited. -/
def seek (next : Option β -> Option β) (accept : β -> Bool) : Nat -> Option β -> Option (Option β)
  | 0, _ => none
  | _ + 1, none => some none
  | n + 1, some b => if accept b = true then some (some b) else seek next accept n (next (some b))

namespace Path

variable {l l' : Links β} {a z w : Option β} {cells : List β} {b : β}

theorem append_iff (front : List β) : ∀ {a : Option β} {c : β} {back : List β},
    Path l a (front ++ c :: back) z <-> Path l a front (some c) /\ Path l (some c) back z := by
  induction front with
  | nil =>
    intro a c back
    exact and_assoc.symm
  | cons first rest ih =>
    intro a c back
    constructor
    · rintro ⟨next, prev, later⟩
      rcases ih.mp later with ⟨before, after⟩
      exact ⟨⟨next, prev, before⟩, after⟩
    · rintro ⟨⟨next, prev, before⟩, after⟩
      exact ⟨next, prev, ih.mpr ⟨before, after⟩⟩

theorem reverse (path : Path l a cells z) : Path l.swap z cells.reverse a := by
  induction cells generalizing a with
  | nil => exact ⟨path.2, path.1⟩
  | cons first rest ih =>
    rcases path with ⟨next, prev, later⟩
    rw [List.reverse_cons]
    exact (append_iff _).mpr ⟨ih later, prev, next⟩

theorem seek_eq {accept : β -> Bool} {n : Nat} (path : Path l a cells none)
    (enough : cells.length < n) : seek l.next accept n (l.next a) = some (cells.find? accept) := by
  induction cells generalizing a n with
  | nil =>
    cases n with
    | zero => cases enough
    | succ n =>
      rw [path.1]
      rfl
  | cons first rest ih =>
    cases n with
    | zero => cases enough
    | succ n =>
      rcases path with ⟨next, _, later⟩
      rw [next, seek, List.find?_cons]
      cases accept first with
      | true => rfl
      | false => exact ih later (Nat.lt_of_succ_lt_succ enough)

theorem congr (next : ∀ x, x ∈ a :: cells.map some -> l'.next x = l.next x)
    (prev : ∀ x, x = z ∨ x ∈ cells.map some -> l'.prev x = l.prev x) (path : Path l a cells z) :
    Path l' a cells z := by
  induction cells generalizing a with
  | nil => exact ⟨(next a List.mem_cons_self).trans path.1, (prev z (.inl rfl)).trans path.2⟩
  | cons first rest ih =>
    rcases path with ⟨here, back, later⟩
    refine ⟨(next a List.mem_cons_self).trans here, (prev _ (.inr List.mem_cons_self)).trans back, ?_⟩
    apply ih _ _ later
    · exact fun x listed => next x (List.mem_cons_of_mem _ listed)
    · exact fun x listed => prev x (listed.imp_right (List.mem_cons_of_mem _))

theorem prev_mem (path : Path l a cells z) : l.prev z ∈ a :: cells.map some := by
  induction cells generalizing a with
  | nil =>
    rw [path.2]
    exact List.mem_cons_self
  | cons first rest ih => exact List.mem_cons_of_mem _ (ih path.2.2)

theorem next_eq (path : Path l a cells z) : l.next a = z ∨ l.next a ∈ cells.map some := by
  cases cells with
  | nil => exact .inl path.1
  | cons first rest =>
    rw [path.1]
    exact .inr List.mem_cons_self

/-- The last cell of a path may be linked to another node. -/
theorem redirect (path : Path l a cells z) (nodup : (a :: cells.map some).Nodup)
    (joined : l'.next (l.prev z) = w) (joinedBack : l'.prev w = l.prev z)
    (next : ∀ x, x ∈ a :: cells.map some -> x ≠ l.prev z -> l'.next x = l.next x)
    (prev : ∀ x, x ∈ cells.map some -> l'.prev x = l.prev x) : Path l' a cells w := by
  induction cells generalizing a with
  | nil =>
    rw [path.2] at joined joinedBack
    exact ⟨joined, joinedBack⟩
  | cons first rest ih =>
    rcases path with ⟨here, back, later⟩
    rcases List.nodup_cons.mp nodup with ⟨apart, nodupRest⟩
    refine ⟨(next a List.mem_cons_self ?_).trans here, (prev _ List.mem_cons_self).trans back, ?_⟩
    · intro same
      rw [same] at apart
      exact apart later.prev_mem
    · apply ih later nodupRest
      · exact fun x listed => next x (List.mem_cons_of_mem _ listed)
      · exact fun x listed => prev x (List.mem_cons_of_mem _ listed)

end Path

/-- The head and the cells, each of them once. -/
structure Circle (l : Links β) (cells : List β) : Prop where
  path : Path l none cells none
  nodup : cells.Nodup

namespace Circle

variable {l : Links β} {cells front back : List β} {b : β}

theorem nodes_nodup (cells : List β) (nodup : cells.Nodup) : (none :: cells.map some).Nodup := by
  refine List.nodup_cons.mpr ⟨?_, nodup.map fun _ _ same => Option.some.inj same⟩
  intro listed
  rcases List.mem_map.mp listed with ⟨_, _, wrong⟩
  cases wrong

variable [DecidableEq β]

/-- Taking a cell out joins its neighbours. -/
theorem unlink (circle : Circle l (front ++ b :: back)) : Circle (l.unlink b) (front ++ back) := by
  rcases (Path.append_iff front).mp circle.path with ⟨before, after⟩
  have nodes := nodes_nodup _ circle.nodup
  rw [List.map_append, List.map_cons, <- List.cons_append] at nodes
  rcases List.nodup_append.mp nodes with ⟨frontNodup, backNodup, apart⟩
  rcases List.nodup_cons.mp backNodup with ⟨bApart, backNodup⟩
  have pred := before.prev_mem
  have bNotPred : some b ≠ l.prev (some b) := fun same => apart _ (by rw [<- same] at pred; exact pred) _
    List.mem_cons_self rfl
  have bNotSucc : some b ≠ l.next (some b) := by
    intro same
    rcases after.next_eq with last | listed
    · rw [last] at same
      cases same
    · rw [<- same] at listed
      exact bApart listed
  have prevEq : (l.unlink b).prev = update l.prev (l.next (some b)) (l.prev (some b)) := rfl
  have nextEq : (l.unlink b).next = update l.next (l.prev (some b)) (l.next (some b)) := by
    unfold Links.unlink
    dsimp only
    rw [update_of_ne bNotSucc]
  have reached : Path (l.unlink b) none front (l.next (some b)) := by
    apply before.redirect frontNodup
    · rw [nextEq, update_self]
    · rw [prevEq, update_self]
    · intro x _ ne
      rw [nextEq, update_of_ne ne]
    · intro x listed
      rw [prevEq, update_of_ne]
      rintro rfl
      rcases after.next_eq with last | inBack
      · rw [last] at listed
        rcases List.mem_map.mp listed with ⟨_, _, wrong⟩
        cases wrong
      · exact apart _ (List.mem_cons_of_mem _ listed) _ (List.mem_cons_of_mem _ inBack) rfl
  refine ⟨?_, ?_⟩
  · cases back with
    | nil =>
      rw [after.1] at reached
      rw [List.append_nil]
      exact reached
    | cons c rest =>
      rcases after with ⟨next, prev, later⟩
      rw [next] at reached prevEq
      refine (Path.append_iff front).mpr ⟨reached, ?_⟩
      apply later.congr
      · intro x listed
        rw [nextEq, update_of_ne]
        rintro rfl
        exact apart _ pred _ (List.mem_cons_of_mem _ listed) rfl
      · intro x listed
        rw [prevEq, update_of_ne]
        rintro rfl
        rcases listed with wrong | inRest
        · cases wrong
        · exact (List.nodup_cons.mp backNodup).1 inRest
  · exact circle.nodup.sublist (List.Sublist.append_left (List.sublist_cons_self b back) front)

theorem pushFront (circle : Circle l cells) (absent : b ∉ cells) :
    Circle (l.pushFront b) (b :: cells) := by
  have headNext : l.next none ≠ some b := by
    intro same
    rcases circle.path.next_eq with empty | listed
    · rw [empty] at same
      cases same
    · rw [same] at listed
      rcases List.mem_map.mp listed with ⟨_, inCells, here⟩
      cases here
      exact absent inCells
  have notHead : none ≠ some b := nofun
  have nextEq : (l.pushFront b).next = update (update l.next (some b) (l.next none)) none (some b) :=
    rfl
  have prevEq : (l.pushFront b).prev = update (update l.prev (some b) none) (l.next none) (some b) := by
    unfold Links.pushFront
    dsimp only
    rw [update_of_ne notHead]
  have bNext : (l.pushFront b).next (some b) = l.next none := by
    rw [nextEq, update_of_ne notHead.symm, update_self]
  have bBack : (l.pushFront b).prev (l.next none) = some b := by
    rw [prevEq, update_self]
  refine ⟨⟨?_, ?_, ?_⟩, List.nodup_cons.mpr ⟨absent, circle.nodup⟩⟩
  · rw [nextEq, update_self]
  · rw [prevEq, update_of_ne headNext.symm, update_self]
  · have nodes := nodes_nodup _ circle.nodup
    have path := circle.path
    cases cells with
    | nil =>
      rw [path.1] at bNext bBack
      exact ⟨bNext, bBack⟩
    | cons c rest =>
      rcases path with ⟨next, _, later⟩
      rw [next] at bNext bBack prevEq
      refine ⟨bNext, bBack, ?_⟩
      have away : ∀ x, x ∈ rest.map some -> x ≠ some b := by
        rintro x listed rfl
        rcases List.mem_map.mp listed with ⟨_, inRest, here⟩
        cases here
        exact absent (List.mem_cons_of_mem _ inRest)
      rcases List.nodup_cons.mp nodes with ⟨headApart, nodes⟩
      apply later.congr
      · intro x listed
        have notNone : x ≠ none := by
          rintro rfl
          exact headApart listed
        rw [nextEq, update_of_ne notNone, update_of_ne]
        rcases List.mem_cons.mp listed with rfl | inRest
        · exact fun same => absent (by cases same; exact List.mem_cons_self)
        · exact away x inRest
      · intro x listed
        rw [prevEq, update_of_ne, update_of_ne]
        · rcases listed with rfl | inRest
          · exact notHead
          · exact away x inRest
        · rcases listed with rfl | inRest
          · exact nofun
          · rintro rfl
            exact (List.nodup_cons.mp nodes).1 inRest

/-- Moving a cell behind the head keeps the cells. -/
theorem moveFront (circle : Circle l cells) (listed : b ∈ cells) : ∃ cells',
    Circle ((l.unlink b).pushFront b) cells' /\ cells'.Perm cells := by
  rcases List.append_of_mem listed with ⟨front, back, rfl⟩
  refine ⟨b :: (front ++ back), circle.unlink.pushFront ?_, List.perm_middle.symm⟩
  exact (List.nodup_cons.mp (List.nodup_middle.mp circle.nodup)).1

end Circle
end Xv6.Library
