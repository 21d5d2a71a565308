import Xv6.Library.Sharing
import Xv6.Machine.State

namespace Xv6.Ownership

open Library Machine
open Function

/-!
# Roles of page frames, and user pages with their counts

The abstract view of memory gives every page frame one role.  It says what the
allocator, the page tables, the processes and the pipes think the frame is for.
The model of the code has no such table: a role assignment is a witness that
their views fit together.

User memory is seen here as a table of entries, one for each page directory and
user page, whatever page tables hold them.  `Pages` says that present entries
refer to user frames of that page, that nothing else claims a user frame, and
that the counts of `pte_lookup_table` go with the number of entries.  Each
lemma after it is one change that the code makes.
-/

inductive Role where
  /-- Not handed to the allocator: the kernel image, low memory, devices. -/
  | fixed
  /-- On the free list. -/
  | free
  /-- Allocated, and referred to by nothing but the running code, if that. -/
  | held
  /-- A page directory. -/
  | dir
  /-- The page table of directory `d` at index `i`. -/
  | table (d i : Nat)
  /-- User memory, mapped as page `v`. -/
  | user (v : Nat)
  /-- The kernel stack of a process slot. -/
  | kstack (slot : Nat)
  /-- The buffer of a pipe. -/
  | pipe
  /-- The start-up stack of another processor. -/
  | cpu
  deriving DecidableEq

/-- Roles that no clause about page tables or user pages speaks of. -/
def Role.loose : Role -> Bool
  | .held => true
  | .kstack _ => true
  | .pipe => true
  | .cpu => true
  | _ => false

/-- Roles that the functions on page tables neither give nor take. -/
def Role.anchored : Role -> Bool
  | .fixed => true
  | .kstack _ => true
  | .pipe => true
  | .cpu => true
  | _ => false

variable {ρ : Nat -> Role} {f : Nat} {r : Role} {e : Word}

theorem anchored_update {g : Nat} (other : r.anchored = false)
    (now : (update ρ f r g).anchored = true) : update ρ f r g = ρ g := by
  by_cases same : g = f
  · subst same
    rw [update_self, other] at now
    cases now
  · exact update_of_ne same ..

/-- A role other than the new one is an old one. -/
theorem of_update {g : Nat} {q : Role} (now : update ρ f r g = q)
    (ne : r ≠ q) : g ≠ f /\ ρ g = q := by
  by_cases same : g = f
  · subst same
    rw [update_self] at now
    exact absurd now ne
  · rw [update_of_ne same] at now
    exact ⟨same, now⟩

/-- Count the frames that nothing refers to as taken for good. -/
def shelve (ρ : Nat -> Role) (f : Nat) : Role := if ρ f = .held then .cpu else ρ f

theorem shelve_eq_iff (held : r ≠ .held) (cpu : r ≠ .cpu) : shelve ρ f = r <-> ρ f = r := by
  unfold shelve
  by_cases before : ρ f = .held
  · rw [if_pos before, before]
    exact ⟨fun same => absurd same.symm cpu, fun same => absurd same.symm held⟩
  · rw [if_neg before]

theorem shelve_ne_held (ρ : Nat -> Role) (f : Nat) : shelve ρ f ≠ .held := by
  unfold shelve
  by_cases before : ρ f = .held
  · rw [if_pos before]
    exact nofun
  · rw [if_neg before]
    exact before

/-! ## Entries -/

/-- The frame that a present entry refers to. -/
def target (e : Word) : Option Nat :=
  if HasFlag e PTE_P then some (frameOf e) else none

theorem target_eq_some_iff : target e = some f <-> HasFlag e PTE_P = true /\ frameOf e = f := by
  unfold target
  by_cases present : HasFlag e PTE_P = true
  · simp [present]
  · simp [present]

theorem target_eq_none_iff : target e = none <-> HasFlag e PTE_P = false := by
  unfold target
  by_cases present : HasFlag e PTE_P = true
  · simp [present]
  · simp [present]

theorem target_of_present (present : HasFlag e PTE_P = true) : target e = some (frameOf e) :=
  target_eq_some_iff.mpr ⟨present, rfl⟩

@[simp] theorem target_zero : target 0#32 = none := by
  simp [target]

/-- The frames that a table of entries refers to. -/
def targets (A : Nat -> Nat -> Word) (d v : Nat) : Option Nat := target (A d v)

theorem targets_setCell (A : Nat -> Nat -> Word) (d v : Nat) (e : Word) :
    targets (setCell A d v e) = setCell (targets A) d v (target e) := by
  funext d' v'
  rw [targets, setCell_apply, setCell_apply]
  by_cases changed : d' = d /\ v' = v
  · rw [if_pos changed, if_pos changed]
  · rw [if_neg changed, if_neg changed, targets]

/-! ## User pages -/

/-- The entries `A` of the user pages of `dirs`, the roles and the counts fit
together. -/
structure Pages (ρ : Nat -> Role) (dirs : Finset Nat) (A : Nat -> Nat -> Word)
    (count : Nat -> BitVec 8) : Prop where
  few : dirs.card <= 100
  page : ∀ d v f, d ∈ dirs -> v < 0x80000 -> target (A d v) = some f -> ρ f = .user v
  absent : ∀ d v, d ∈ dirs -> v < 0x80000 -> target (A d v) = none -> A d v = 0#32
  owner : ∀ f v, ρ f = .user v -> v < 0x80000 /\ ∃ d, d ∈ dirs /\ target (A d v) = some f
  counted : ∀ f v, ρ f = .user v -> Counted (sharers dirs (targets A) v f).card (count f).toNat
  uncounted : ∀ f, (∀ v, ρ f ≠ .user v) -> (count f).toNat <= 1
  fixed : ∀ f, ρ f = .fixed -> count f = 0#8

namespace Pages

variable {ρ : Nat -> Role} {dirs : Finset Nat} {A : Nat -> Nat -> Word} {count : Nat -> BitVec 8}
variable {d v f g : Nat} {e : Word} {c : BitVec 8}

section

variable (pages : Pages ρ dirs A count)

include pages

/-- Only the entries of the user pages of `dirs` matter. -/
theorem congr {B : Nat -> Nat -> Word} (same : ∀ d v, d ∈ dirs -> v < 0x80000 -> B d v = A d v) :
    Pages ρ dirs B count where
  few := pages.few
  page d v f member bound filled := pages.page d v f member bound (same d v member bound ▸ filled)
  absent d v member bound empty := by
    rw [same d v member bound] at empty ⊢
    exact pages.absent d v member bound empty
  owner f v used := by
    rcases pages.owner f v used with ⟨bound, d, member, filled⟩
    exact ⟨bound, d, member, (same d v member bound).symm ▸ filled⟩
  counted f v used := by
    have bound := (pages.owner f v used).1
    have equal : sharers dirs (targets B) v f = sharers dirs (targets A) v f :=
      sharers_congr fun d member => by rw [targets, targets, same d v member bound]
    rw [equal]
    exact pages.counted f v used
  uncounted := pages.uncounted
  fixed := pages.fixed

/-- A frame that is not a user page can take any other such role. -/
theorem recast {r : Role} (before : ∀ v, ρ f ≠ .user v) (after : ∀ v, r ≠ .user v)
    (movable : r ≠ .fixed) : Pages (update ρ f r) dirs A count := by
  have users : ∀ g v, update ρ f r g = .user v <-> ρ g = .user v := by
    intro g v
    by_cases same : g = f
    · subst same
      simp [before, after]
    · simp [same]
  refine { few := pages.few, page := ?_, absent := pages.absent, owner := ?_, counted := ?_,
           uncounted := ?_, fixed := ?_ }
  · intro d v g member bound filled
    exact (users g v).mpr (pages.page d v g member bound filled)
  · intro g v used
    exact pages.owner g v ((users g v).mp used)
  · intro g v used
    exact pages.counted g v ((users g v).mp used)
  · intro g unused
    exact pages.uncounted g fun v used => unused v ((users g v).mpr used)
  · intro g stays
    by_cases same : g = f
    · subst same
      simp [movable] at stays
    · rw [update_of_ne same] at stays
      exact pages.fixed g stays

/-- A frame with another role has no sharer. -/
theorem card_zero (bound : v < 0x80000) (other : ρ f ≠ .user v) :
    (sharers dirs (targets A) v f).card = 0 :=
  card_sharers_zero fun d member filled => other (pages.page d v f member bound filled)

/-- What has to be shown of the frames involved when the entry of page `v` of
`d` becomes `e`: those are the frame it referred to and the frame it refers to
now. -/
structure Changed (ρ ρ' : Nat -> Role) (dirs : Finset Nat) (A : Nat -> Nat -> Word) (d v : Nat) (e : Word)
    (count' : Nat -> BitVec 8) (f : Nat) : Prop where
  before : ∀ w, ρ f = .user w -> w = v
  after : ∀ w, ρ' f = .user w -> w = v
  used : ρ' f = .user v ->
    0 < (sharers dirs (targets (setCell A d v e)) v f).card /\
      Counted (sharers dirs (targets (setCell A d v e)) v f).card (count' f).toNat
  unused : ρ' f ≠ .user v ->
    (sharers dirs (targets (setCell A d v e)) v f).card = 0 /\ (count' f).toNat <= 1
  movable : ρ' f ≠ .fixed

/-- The general rule for a change of one entry. -/
theorem change {ρ' : Nat -> Role} {count' : Nat -> BitVec 8} (empty : target e = none -> e = 0#32)
    (apart : ∀ f, target (A d v) ≠ some f -> target e ≠ some f -> ρ' f = ρ f /\ count' f = count f)
    (involved : ∀ f, target (A d v) = some f ∨ target e = some f ->
      Changed ρ ρ' dirs A d v e count' f) (member : d ∈ dirs) (bound : v < 0x80000) :
    Pages ρ' dirs (setCell A d v e) count' := by
  have split : ∀ f, (ρ' f = ρ f /\ count' f = count f /\ target (A d v) ≠ some f /\ target e ≠ some f) ∨
      Changed ρ ρ' dirs A d v e count' f := by
    intro f
    by_cases touched : target (A d v) = some f ∨ target e = some f
    · exact .inr (involved f touched)
    · rw [not_or] at touched
      have same := apart f touched.1 touched.2
      exact .inl ⟨same.1, same.2, touched.1, touched.2⟩
  have distant : ∀ f w, target (A d v) ≠ some f -> target e ≠ some f ->
      sharers dirs (targets (setCell A d v e)) w f = sharers dirs (targets A) w f := by
    intro f w old new
    rw [targets_setCell]
    exact sharers_setCell_other fun _ => ⟨old, new⟩
  refine { few := pages.few, page := ?_, absent := ?_, owner := ?_, counted := ?_,
           uncounted := ?_, fixed := ?_ }
  · intro d' v' f member' bounded' found
    rcases split f with ⟨sameRole, _, _, new⟩ | changed
    · rw [setCell_apply] at found
      by_cases here : d' = d /\ v' = v
      · rw [if_pos here] at found
        exact absurd found new
      · rw [if_neg here] at found
        rw [sameRole]
        exact pages.page d' v' f member' bounded' found
    · have page : v' = v := by
        rw [setCell_apply] at found
        by_cases here : d' = d /\ v' = v
        · exact here.2
        · rw [if_neg here] at found
          exact changed.before v' (pages.page d' v' f member' bounded' found)
      subst page
      by_cases role : ρ' f = .user v'
      · exact role
      · have none := (changed.unused role).1
        rw [Finset.card_eq_zero, Finset.eq_empty_iff_forall_notMem] at none
        exact absurd (mem_sharers.mpr ⟨member', found⟩) (none d')
  · intro d' v' member' bounded' found
    rw [setCell_apply] at found ⊢
    by_cases here : d' = d /\ v' = v
    · rw [if_pos here] at found ⊢
      exact empty found
    · rw [if_neg here] at found ⊢
      exact pages.absent d' v' member' bounded' found
  · intro f w role
    rcases split f with ⟨sameRole, _, old, _⟩ | changed
    · rw [sameRole] at role
      rcases pages.owner f w role with ⟨inside, d', member', found⟩
      refine ⟨inside, d', member', ?_⟩
      rw [setCell_of_ne]
      · exact found
      · rintro ⟨rfl, rfl⟩
        exact old found
    · have page := changed.after w role
      subst page
      rcases Finset.card_pos.mp (changed.used role).1 with ⟨d', shared⟩
      exact ⟨bound, d', (mem_sharers.mp shared).1, (mem_sharers.mp shared).2⟩
  · intro f w role
    rcases split f with ⟨sameRole, sameCount, old, new⟩ | changed
    · rw [distant f w old new, sameCount]
      rw [sameRole] at role
      exact pages.counted f w role
    · have page := changed.after w role
      subst page
      exact (changed.used role).2
  · intro f other
    rcases split f with ⟨sameRole, sameCount, _, _⟩ | changed
    · rw [sameCount]
      exact pages.uncounted f fun w role => other w (by rw [sameRole, role])
    · exact (changed.unused (other v)).2
  · intro f stays
    rcases split f with ⟨sameRole, sameCount, _, _⟩ | changed
    · rw [sameCount]
      exact pages.fixed f (sameRole.symm.trans stays)
    · exact absurd stays changed.movable

/-- Map a frame that only the running code holds. -/
theorem mapFresh (member : d ∈ dirs) (bound : v < 0x80000)
    (empty : target (A d v) = none) (held : ρ g = .held) (filled : target e = some g) :
    Pages (update ρ g (.user v)) dirs (setCell A d v e) count := by
  have unused : ∀ w, ρ g ≠ .user w := by simp [held]
  have one : (sharers dirs (targets (setCell A d v e)) v g).card = 1 := by
    rw [targets_setCell, filled, card_sharers_add member empty, pages.card_zero bound (unused v)]
  refine pages.change (by simp [filled]) ?_ ?_ member bound
  · intro f _ new
    have ne : f ≠ g := by
      rintro rfl
      exact new filled
    exact ⟨update_of_ne ne .., rfl⟩
  · intro f touched
    have same : f = g := by
      rcases touched with old | new
      · rw [empty] at old
        cases old
      · rw [filled] at new
        exact (Option.some.inj new).symm
    subst same
    refine ⟨fun w role => absurd role (unused w), ?_, ?_, ?_, by simp⟩
    · intro w role
      rw [update_self] at role
      exact (Role.user.inj role).symm
    · intro _
      have small := pages.uncounted f unused
      rw [one]
      exact ⟨by decide, fun two => absurd two (by decide), fun _ => small⟩
    · intro other
      simp at other

/-- Clear the only entry that refers to a frame, which is then nobody's. -/
theorem unmapLast (member : d ∈ dirs) (bound : v < 0x80000) (filled : target (A d v) = some f)
    (single : (sharers dirs (targets A) v f).card <= 1) (small : c.toNat <= 1) :
    Pages (update ρ f .held) dirs (setCell A d v 0#32) (update count f c) := by
  have used := pages.page d v f member bound filled
  have none : (sharers dirs (targets (setCell A d v 0#32)) v f).card = 0 := by
    have fewer := card_sharers_remove none member
      (show targets A d v = some f from filled) (by simp)
    rw [targets_setCell, target_zero]
    omega
  refine pages.change (fun _ => rfl) ?_ ?_ member bound
  · intro g old _
    have ne : g ≠ f := by
      rintro rfl
      exact old filled
    exact ⟨update_of_ne ne .., update_of_ne ne ..⟩
  · intro g touched
    have same : g = f := by
      rcases touched with old | new
      · rw [filled] at old
        exact (Option.some.inj old).symm
      · simp at new
    subst same
    refine ⟨?_, by simp, by simp, ?_, by simp⟩
    · intro w role
      rw [used] at role
      exact (Role.user.inj role).symm
    · intro _
      rw [none, update_self]
      exact ⟨rfl, small⟩

end

end Pages

end Xv6.Ownership
