import Mathlib.Algebra.BigOperators.Group.Finset.Basic
import Mathlib.Algebra.Order.BigOperators.Group.Finset
import Mathlib.Tactic.Ring
import Mathlib.Tactic.Linarith
import Xv6.Fs.Blocks

namespace Xv6.Fs

/-!
# Directories and link counts of `fs.c`

A directory is the list of its slots, and a slot with inode number zero is
free.  `dirlookup` takes the first used slot with the name, `dirlink` fills the
first free slot or adds one at the end, and `sys_unlink` writes zeros over a
slot.  `mkdir` puts `.` and `..` into the first two slots, which is what
`isdirempty` relies on.
-/

/-- A path element as `skipelem` leaves it: no slash, and at most `DIRSIZ` bytes. -/
abbrev Name := List Byte

structure Dirent where
  inum : Nat
  name : Name
  deriving DecidableEq, Repr

def dot : Name := [46#8]
def dotdot : Name := [46#8, 46#8]

/-- The inode that `dirlookup` finds. -/
def dirlookup (name : Name) : List Dirent -> Option Nat
  | [] => none
  | de :: rest => if de.inum ≠ 0 /\ de.name = name then some de.inum else dirlookup name rest

/-- The write of `dirlink`: the first free slot, or a new one at the end. -/
def fill (de : Dirent) : List Dirent -> List Dirent
  | [] => [de]
  | slot :: rest => if slot.inum = 0 then de :: rest else slot :: fill de rest

/-- The write of `sys_unlink`, at the offset that `dirlookup` found. -/
def erase (name : Name) : List Dirent -> List Dirent
  | [] => []
  | slot :: rest => if slot.inum ≠ 0 /\ slot.name = name then ⟨0, []⟩ :: rest else slot :: erase name rest

/-- What `create` makes. -/
inductive Kind where
  | dir
  | file
  | dev
  deriving DecidableEq, Repr

/-! ## Slots -/

/-- A used slot. -/
def Entry (slots : List Dirent) (name : Name) (i : Nat) : Prop :=
  i ≠ 0 /\ (⟨i, name⟩ : Dirent) ∈ slots

/-- No two used slots have the same name. -/
def Distinct (slots : List Dirent) : Prop :=
  slots.Pairwise fun first second => first.inum ≠ 0 -> second.inum ≠ 0 -> first.name ≠ second.name

variable {i : Nat} {de : Dirent} {name : Name} {slot : Dirent}

theorem entry_cons {rest : List Dirent} :
    Entry (slot :: rest) name i <-> (i ≠ 0 /\ slot = ⟨i, name⟩) ∨ Entry rest name i := by
  unfold Entry
  rw [List.mem_cons, eq_comm]
  tauto

variable {slots : List Dirent}

theorem dirlookup_some (found : dirlookup name slots = some i) : Entry slots name i := by
  induction slots with
  | nil => cases found
  | cons slot rest ih =>
    rw [dirlookup] at found
    split at found
    next here =>
      cases found
      exact ⟨here.1, by rw [<- here.2]; exact List.mem_cons_self⟩
    next => exact entry_cons.mpr (.inr (ih found))

theorem dirlookup_none (missing : dirlookup name slots = none) (i : Nat) :
    ¬ Entry slots name i := by
  induction slots with
  | nil => exact fun entry => nomatch entry.2
  | cons slot rest ih =>
    rw [dirlookup] at missing
    split at missing
    next => cases missing
    next other =>
      intro entry
      rcases entry_cons.mp entry with ⟨used, rfl⟩ | later
      · exact other ⟨used, rfl⟩
      · exact ih missing later

theorem entry_fill (used : de.inum ≠ 0) :
    Entry (fill de slots) name i <-> Entry slots name i ∨ (i = de.inum /\ name = de.name) := by
  have itself : (i ≠ 0 /\ de = ⟨i, name⟩) <-> (i = de.inum /\ name = de.name) := by
    constructor
    · rintro ⟨_, rfl⟩
      exact ⟨rfl, rfl⟩
    · rintro ⟨rfl, rfl⟩
      exact ⟨used, rfl⟩
  induction slots with
  | nil =>
    rw [fill, entry_cons, itself]
    exact or_comm
  | cons slot rest ih =>
    rw [fill]
    split
    next free =>
      have unused : ¬ (i ≠ 0 /\ slot = ⟨i, name⟩) := by
        rintro ⟨nonzero, rfl⟩
        exact nonzero free
      rw [entry_cons, entry_cons, itself]
      tauto
    next =>
      rw [entry_cons, entry_cons, or_assoc]
      exact or_congr_right ih

/-- A slot of the list after `fill` is the new one or an old one. -/
theorem mem_fill (member : slot ∈ fill de slots) : slot = de ∨ slot ∈ slots := by
  induction slots with
  | nil => exact .inl (List.mem_singleton.mp member)
  | cons head rest ih =>
    rw [fill] at member
    split at member
    next =>
      rcases List.mem_cons.mp member with rfl | later
      · exact .inl rfl
      · exact .inr (List.mem_cons_of_mem _ later)
    next =>
      rcases List.mem_cons.mp member with rfl | later
      · exact .inr List.mem_cons_self
      · exact (ih later).imp id (List.mem_cons_of_mem _)

theorem Distinct.fill (distinct : Distinct slots)
    (unused : ∀ i, ¬ Entry slots de.name i) : Distinct (fill de slots) := by
  induction slots with
  | nil => exact List.pairwise_singleton _ _
  | cons slot rest ih =>
    rcases List.pairwise_cons.mp distinct with ⟨first, others⟩
    have other : ∀ later, later ∈ slot :: rest -> later.inum ≠ 0 -> de.name ≠ later.name := by
      intro later member used same
      exact unused later.inum ⟨used, by rw [same]; exact member⟩
    rw [Fs.fill]
    split
    next =>
      apply List.pairwise_cons.mpr
      exact ⟨fun later member _ used => other later (List.mem_cons_of_mem _ member) used, others⟩
    next =>
      apply List.pairwise_cons.mpr
      constructor
      · intro later member here used
        rcases mem_fill member with rfl | old
        · exact (other slot List.mem_cons_self here).symm
        · exact first later old here used
      · exact ih others fun i entry => unused i (entry_cons.mpr (.inr entry))

/-- Erasing takes away the entry of that name and no other. -/
theorem entry_erase (distinct : Distinct slots) {other : Name} :
    Entry (erase name slots) other i <-> Entry slots other i /\ other ≠ name := by
  induction slots with
  | nil => exact ⟨fun entry => (nomatch entry.2), fun entry => (nomatch entry.1.2)⟩
  | cons slot rest ih =>
    rcases List.pairwise_cons.mp distinct with ⟨first, others⟩
    rw [erase]
    split
    next here =>
      rw [entry_cons, entry_cons]
      constructor
      · rintro (⟨nonzero, wrong⟩ | later)
        · exact absurd (congrArg Dirent.inum wrong).symm nonzero
        · refine ⟨.inr later, ?_⟩
          rintro rfl
          exact first ⟨i, other⟩ later.2 here.1 later.1 here.2
      · rintro ⟨⟨_, rfl⟩ | later, ne⟩
        · exact absurd here.2 ne
        · exact .inr later
    next skip =>
      rw [entry_cons, entry_cons, ih others]
      constructor
      · rintro (⟨used, rfl⟩ | ⟨later, ne⟩)
        · exact ⟨.inl ⟨used, rfl⟩, fun same => skip ⟨used, same⟩⟩
        · exact ⟨.inr later, ne⟩
      · rintro ⟨here | later, ne⟩
        · exact .inl here
        · exact .inr ⟨later, ne⟩

theorem mem_erase_used (member : slot ∈ erase name slots)
    (used : slot.inum ≠ 0) : slot ∈ slots := by
  induction slots with
  | nil => cases member
  | cons head rest ih =>
    rw [erase] at member
    split at member
    next =>
      rcases List.mem_cons.mp member with rfl | later
      · exact absurd rfl used
      · exact List.mem_cons_of_mem _ later
    next =>
      rcases List.mem_cons.mp member with rfl | later
      · exact List.mem_cons_self
      · exact List.mem_cons_of_mem _ (ih later)

theorem Distinct.erase (distinct : Distinct slots) : Distinct (erase name slots) := by
  induction slots with
  | nil => exact List.Pairwise.nil
  | cons slot rest ih =>
    rcases List.pairwise_cons.mp distinct with ⟨first, others⟩
    rw [Fs.erase]
    split
    next => exact List.pairwise_cons.mpr ⟨fun _ _ wrong => absurd rfl wrong, others⟩
    next =>
      apply List.pairwise_cons.mpr
      exact ⟨fun later member here used => first later (mem_erase_used member used) here used,
        ih others⟩

theorem Distinct.entry_unique (distinct : Distinct slots) {j : Nat}
    (first : Entry slots name i) (second : Entry slots name j) : i = j := by
  induction slots with
  | nil => exact nomatch first.2
  | cons slot rest ih =>
    rcases List.pairwise_cons.mp distinct with ⟨here, others⟩
    rcases entry_cons.mp first with ⟨used, rfl⟩ | firstLater
    · rcases entry_cons.mp second with ⟨_, same⟩ | later
      · exact congrArg Dirent.inum same
      · exact absurd rfl (here ⟨j, name⟩ later.2 used later.1)
    · rcases entry_cons.mp second with ⟨used, rfl⟩ | later
      · exact absurd rfl (here ⟨i, name⟩ firstLater.2 used firstLater.1)
      · exact ih others firstLater later

end Xv6.Fs
