import Xv6.Ownership.Pages

namespace Xv6.Ownership

open Library Machine
open Function

/-!
# Page directories and page tables in memory

A page directory and its page tables are frames whose roles keep them apart, so
a write to an entry of one directory is not a write to any other entry.
`Tables` states this, and that no entry of the kernel half of a page table has
`PTE_U`.

A page table is torn down page by page and then table by table, while its
entries stay in memory.  A `Scope` says which directories exist and how far the
one that is being torn down has got: `dropped` user pages, then
`dropped - 0x80000` page tables.
-/

/-! ## Scopes -/

structure Scope where
  dirs : Finset Nat
  dying : Nat
  dropped : Nat

namespace Scope

/-- The directories, none of which is being torn down. -/
def whole (dirs : Finset Nat) : Scope := ⟨dirs, 0, 0⟩

/-- How far the teardown of a directory has got. -/
def stage (σ : Scope) (d : Nat) : Nat := if d = σ.dying then σ.dropped else 0

/-- The user entries that still count. -/
def view (σ : Scope) (m : Memory) (d v : Nat) : Word :=
  if σ.stage d <= v then entry m d v else 0#32

/-- The entry for page `v` of directory `d` lies in a page table that exists. -/
structure Reaches (σ : Scope) (d v : Nat) : Prop where
  member : d ∈ σ.dirs
  bounded : v < 0x100000
  intact : σ.stage d <= 0x80000 + v / 1024

variable {d v : Nat}

@[simp] theorem stage_whole (dirs : Finset Nat) (d : Nat) : (whole dirs).stage d = 0 :=
  ite_self 0

@[simp] theorem dirs_whole (dirs : Finset Nat) : (whole dirs).dirs = dirs := rfl

theorem view_of_le {σ : Scope} {m : Memory} (counted : σ.stage d <= v) :
    σ.view m d v = entry m d v := by
  rw [view, if_pos counted]

@[simp] theorem view_whole (dirs : Finset Nat) (m : Memory) (d v : Nat) :
    (whole dirs).view m d v = entry m d v :=
  view_of_le (by simp)

/-- A user page that still counts is reached. -/
theorem reaches_user {σ : Scope} (member : d ∈ σ.dirs) (bound : v < 0x80000)
    (counted : σ.stage d <= v) : σ.Reaches d v :=
  ⟨member, by omega, by omega⟩

theorem reaches_whole {dirs : Finset Nat} (member : d ∈ dirs) (bound : v < 0x100000) :
    (whole dirs).Reaches d v :=
  ⟨member, bound, by simp⟩

/-- The directories whose entry for page `v` counts and refers to `f`. -/
abbrev sharersOf (σ : Scope) (m : Memory) (v f : Nat) : Finset Nat :=
  sharers σ.dirs (targets (σ.view m)) v f

end Scope

/-! ## The invariant of the tables -/

/-- Frames that hold page directories and page tables. -/
def Role.structural : Role -> Bool
  | .dir => true
  | .table _ _ => true
  | _ => false

/-- A loose role is none of those that the invariants speak of. -/
theorem Role.loose_cases {r : Role} (loose : r.loose = true) :
    r ≠ .free /\ r ≠ .fixed /\ r.structural = false /\ ∀ v, r ≠ .user v := by
  cases r <;> simp_all [Role.loose, Role.structural]

structure Tables (ρ : Nat -> Role) (σ : Scope) (m : Memory) : Prop where
  dir_iff : ∀ d, ρ d = .dir <-> d ∈ σ.dirs
  table : ∀ d i t, d ∈ σ.dirs -> i < 1024 -> σ.stage d <= 0x80000 + i -> target (m d i) = some t ->
    ρ t = .table d i /\ HasFlag (m d i) PTE_W = true /\ HasFlag (m d i) PTE_U = true
  back : ∀ t d i, ρ t = .table d i ->
    d ∈ σ.dirs /\ i < 1024 /\ σ.stage d <= 0x80000 + i /\ target (m d i) = some t
  kernel : ∀ d v, σ.Reaches d v -> 0x80000 <= v -> HasFlag (entry m d v) PTE_U = false

variable {m : Memory} {d v : Nat}

theorem entry_of_table {t : Nat} (table : target (m d (v / 1024)) = some t) :
    entry m d v = m t (v % 1024) := by
  rcases target_eq_some_iff.mp table with ⟨present, frame⟩
  rw [entry, if_pos present, frame]

theorem entry_of_none (none : target (m d (v / 1024)) = none) : entry m d v = 0#32 := by
  rw [entry, if_neg]
  rw [target_eq_none_iff.mp none]
  exact Bool.false_ne_true

/-- The table that holds a present entry is present. -/
theorem table_of_target {f : Nat} (filled : target (entry m d v) = some f) :
    ∃ table, target (m d (v / 1024)) = some table := by
  cases found : target (m d (v / 1024)) with
  | none =>
    rw [entry_of_none found, target_zero] at filled
    cases filled
  | some table => exact ⟨table, rfl⟩

/-- An entry is read from the directory and one table. -/
theorem entry_elsewhere {n : Memory} (directory : n d = m d)
    (table : ∀ t, target (m d (v / 1024)) = some t -> n t = m t) : entry n d v = entry m d v := by
  cases found : target (m d (v / 1024)) with
  | none => rw [entry_of_none found, entry_of_none (by rw [directory]; exact found)]
  | some t => rw [entry_of_table found, entry_of_table (by rw [directory]; exact found), table t found]

/-- One word of a table is one entry, if no other directory entry leads to the table. -/
theorem entry_setWord {w table : Nat} (e : Word) (present : target (m d (v / 1024)) = some table)
    (notDir : table ≠ d) (sole : target (m d (w / 1024)) = some table -> w / 1024 = v / 1024) :
    entry (setWord m table (v % 1024) e) d w = if w = v then e else entry m d w := by
  have directory : setWord m table (v % 1024) e d = m d := update_of_ne (Ne.symm notDir) ..
  by_cases same : w = v
  · subst same
    rw [if_pos rfl, entry_of_table (by rw [directory]; exact present), setWord, update_self, update_self]
  · rw [if_neg same]
    cases found : target (m d (w / 1024)) with
    | none => rw [entry_of_none found, entry_of_none (by rw [directory]; exact found)]
    | some f =>
      rw [entry_of_table found, entry_of_table (by rw [directory]; exact found), setWord]
      by_cases here : f = table
      · subst here
        have index := sole found
        rw [update_self, update_of_ne (by omega)]
      · rw [update_of_ne here]

/-- Write the entry of page `v` of directory `d`. -/
def setPte (m : Memory) (d v : Nat) (e : Word) : Memory :=
  setWord m (frameOf (m d (v / 1024))) (v % 1024) e

theorem setWord_apply (m : Memory) (f i : Nat) (e : Word) (g j : Nat) :
    setWord m f i e g j = if g = f /\ j = i then e else m g j :=
  setCell_apply m f i e g j

theorem setWord_other {f i : Nat} {e : Word} {g : Nat} (ne : g ≠ f) : setWord m f i e g = m g :=
  update_of_ne ne ..

namespace Tables

variable {ρ : Nat -> Role} {σ : Scope} {m n : Memory} {d v t i : Nat} {e : Word}

section

variable (tables : Tables ρ σ m)

include tables

/-- Entries only depend on the frames of directories and tables. -/
theorem entry_congr (same : ∀ f, (ρ f).structural = true -> n f = m f)
    (reached : σ.Reaches d v) : entry n d v = entry m d v := by
  have directory : n d = m d := same d (by rw [(tables.dir_iff d).mpr reached.member]; rfl)
  have index : v / 1024 < 1024 := by
    have bound := reached.bounded
    omega
  cases found : target (m d (v / 1024)) with
  | none => rw [entry_of_none found, entry_of_none (directory ▸ found)]
  | some t =>
    have role := (tables.table d (v / 1024) t reached.member index reached.intact found).1
    rw [entry_of_table found, entry_of_table (directory ▸ found), same t (by rw [role]; rfl)]

/-- Only the frames of directories and tables matter. -/
theorem congr (same : ∀ f, (ρ f).structural = true -> n f = m f) : Tables ρ σ n := by
  have directory : ∀ d, d ∈ σ.dirs -> n d = m d := fun d member =>
    same d (by rw [(tables.dir_iff d).mpr member]; rfl)
  refine ⟨tables.dir_iff, ?_, ?_, ?_⟩
  · intro d i t member
    rw [directory d member]
    exact tables.table d i t member
  · intro t d i role
    rcases tables.back t d i role with ⟨member, rest⟩
    exact ⟨member, directory d member ▸ rest⟩
  · intro d v reached high
    rw [tables.entry_congr same reached]
    exact tables.kernel d v reached high

/-- A frame that is neither a directory nor a table may take any other such
role. -/
theorem recast {r : Role} {f : Nat} (before : (ρ f).structural = false)
    (after : r.structural = false) : Tables (update ρ f r) σ m := by
  have same : ∀ g q, q.structural = true -> (update ρ f r g = q <-> ρ g = q) := by
    intro g q structural
    by_cases equal : g = f
    · subst equal
      rw [update_self]
      constructor
      · rintro rfl
        rw [after] at structural
        cases structural
      · rintro rfl
        rw [before] at structural
        cases structural
    · rw [update_of_ne equal]
  refine ⟨fun d => (same d .dir rfl).trans (tables.dir_iff d), ?_, ?_, tables.kernel⟩
  · intro d i t member bound intact found
    rcases tables.table d i t member bound intact found with ⟨role, flags⟩
    exact ⟨(same t _ rfl).mpr role, flags⟩
  · intro t d i role
    exact tables.back t d i ((same t _ rfl).mp role)

/-! ## Writing entries -/

/-- An entry write changes that entry and no other. -/
theorem entry_setPte (reached : σ.Reaches d v)
    (present : target (m d (v / 1024)) = some t) {d' v' : Nat} (reached' : σ.Reaches d' v') :
    entry (setPte m d v e) d' v' = if d' = d /\ v' = v then e else entry m d' v' := by
  have index : v / 1024 < 1024 := by
    have bound := reached.bounded
    omega
  have index' : v' / 1024 < 1024 := by
    have bound := reached'.bounded
    omega
  have frame : frameOf (m d (v / 1024)) = t := (target_eq_some_iff.mp present).2
  have role := (tables.table d (v / 1024) t reached.member index reached.intact present).1
  have directory : setPte m d v e d' = m d' := by
    rw [setPte, frame]
    apply setWord_other
    rintro rfl
    rw [(tables.dir_iff d').mpr reached'.member] at role
    cases role
  cases found : target (m d' (v' / 1024)) with
  | none =>
    rw [entry_of_none (directory ▸ found), entry_of_none found, if_neg]
    rintro ⟨rfl, rfl⟩
    rw [present] at found
    cases found
  | some t' =>
    have role' := (tables.table d' (v' / 1024) t' reached'.member index' reached'.intact found).1
    rw [entry_of_table (directory ▸ found), entry_of_table found, setPte, frame, setWord_apply]
    by_cases here : d' = d /\ v' = v
    · rcases here with ⟨rfl, rfl⟩
      rw [present] at found
      cases found
      rw [if_pos ⟨rfl, rfl⟩, if_pos ⟨rfl, rfl⟩]
    · rw [if_neg here, if_neg]
      rintro ⟨rfl, low⟩
      rw [role] at role'
      rcases Role.table.inj role' with ⟨rfl, high⟩
      exact here ⟨rfl, by omega⟩

/-- The frames outside the page table do not change. -/
theorem setPte_other (reached : σ.Reaches d v) (present : target (m d (v / 1024)) = some t)
    {f : Nat} (other : ρ f ≠ .table d (v / 1024)) : setPte m d v e f = m f := by
  have index : v / 1024 < 1024 := by
    have bound := reached.bounded
    omega
  rw [setPte, (target_eq_some_iff.mp present).2]
  apply setWord_other
  rintro rfl
  exact other (tables.table d (v / 1024) f reached.member index reached.intact present).1

/-- Entry writes keep the tables, if they give the kernel half no `PTE_U`. -/
theorem writePte (reached : σ.Reaches d v) (present : target (m d (v / 1024)) = some t)
    (supervisor : 0x80000 <= v -> HasFlag e PTE_U = false) : Tables ρ σ (setPte m d v e) := by
  have directory : ∀ d', d' ∈ σ.dirs -> setPte m d v e d' = m d' := by
    intro d' member
    apply tables.setPte_other reached present
    rw [(tables.dir_iff d').mpr member]
    simp
  refine ⟨tables.dir_iff, ?_, ?_, ?_⟩
  · intro d' i t' member
    rw [directory d' member]
    exact tables.table d' i t' member
  · intro t' d' i role
    rcases tables.back t' d' i role with ⟨member, rest⟩
    exact ⟨member, (directory d' member).symm ▸ rest⟩
  · intro d' v' reached' high
    rw [tables.entry_setPte reached present reached']
    by_cases here : d' = d /\ v' = v
    · rw [if_pos here]
      exact supervisor (here.2 ▸ high)
    · rw [if_neg here]
      exact tables.kernel d' v' reached' high

/-- The user entries after an entry write to a page that counts. -/
theorem view_setPte (member : d ∈ σ.dirs) (bound : v < 0x80000) (counted : σ.stage d <= v)
    (present : target (m d (v / 1024)) = some t) {d' v' : Nat} (member' : d' ∈ σ.dirs)
    (bounded' : v' < 0x80000) : σ.view (setPte m d v e) d' v' = setCell (σ.view m) d v e d' v' := by
  have reached := Scope.reaches_user member bound counted
  rw [setCell_apply]
  by_cases counted' : σ.stage d' <= v'
  · rw [Scope.view_of_le counted', Scope.view_of_le counted',
      tables.entry_setPte reached present (Scope.reaches_user member' bounded' counted')]
  · rw [Scope.view, if_neg counted', Scope.view, if_neg counted', if_neg]
    rintro ⟨rfl, rfl⟩
    exact counted' counted

/-- The user entries after a write that no page that counts can see. -/
theorem view_congr (same : ∀ f, (ρ f).structural = true -> n f = m f)
    (member : d ∈ σ.dirs) (bound : v < 0x80000) : σ.view n d v = σ.view m d v := by
  by_cases counted : σ.stage d <= v
  · rw [Scope.view_of_le counted, Scope.view_of_le counted,
      tables.entry_congr same (Scope.reaches_user member bound counted)]
  · rw [Scope.view, if_neg counted, Scope.view, if_neg counted]

/-! ## Adding tables and directories -/

/-- What an unused frame of zeroes is as a page table. -/
private theorem entry_link (member : d ∈ σ.dirs) (held : ρ t = .held)
    (zero : ∀ j, j < 1024 -> m t j = 0#32) (empty : target (m d i) = none)
    (filled : target e = some t) {d' v' : Nat} (reached' : σ.Reaches d' v') :
    entry (setWord m d i e) d' v' = entry m d' v' := by
  have index' : v' / 1024 < 1024 := by
    have bound := reached'.bounded
    omega
  have separate : t ≠ d := by
    rintro rfl
    rw [(tables.dir_iff t).mpr member] at held
    cases held
  by_cases here : d' = d /\ v' / 1024 = i
  · rcases here with ⟨rfl, rfl⟩
    have linked : target (setWord m d' (v' / 1024) e d' (v' / 1024)) = some t := by
      rw [setWord_apply, if_pos ⟨rfl, rfl⟩, filled]
    rw [entry_of_table linked, entry_of_none empty, setWord_other separate]
    exact zero (v' % 1024) (by omega)
  · have directory : setWord m d i e d' (v' / 1024) = m d' (v' / 1024) := by
      rw [setWord_apply, if_neg here]
    cases found : target (m d' (v' / 1024)) with
    | none => rw [entry_of_none (directory ▸ found), entry_of_none found]
    | some t' =>
      have role := (tables.table d' (v' / 1024) t' reached'.member index' reached'.intact found).1
      rw [entry_of_table (directory ▸ found), entry_of_table found, setWord_other]
      rintro rfl
      rw [(tables.dir_iff t').mpr member] at role
      cases role

/-- Put a zeroed frame into a directory as a new page table. -/
theorem link (member : d ∈ σ.dirs) (index : i < 1024) (intact : σ.stage d <= 0x80000 + i)
    (held : ρ t = .held) (zero : ∀ j, j < 1024 -> m t j = 0#32) (empty : target (m d i) = none)
    (filled : target e = some t) (writable : HasFlag e PTE_W = true)
    (user : HasFlag e PTE_U = true) :
    Tables (update ρ t (.table d i)) σ (setWord m d i e) /\
      ∀ d' v', σ.Reaches d' v' -> entry (setWord m d i e) d' v' = entry m d' v' := by
  have same := fun d' v' => @entry_link ρ σ m d t i e tables member held zero empty filled d' v'
  have keeps : ∀ f, f ≠ t -> update ρ t (.table d i) f = ρ f :=
    fun f ne => update_of_ne ne ..
  have role : update ρ t (.table d i) t = .table d i := update_self ..
  refine ⟨⟨?_, ?_, ?_, ?_⟩, same⟩
  · intro d'
    by_cases equal : d' = t
    · subst equal
      rw [role, <- tables.dir_iff d', held]
      simp
    · rw [keeps d' equal]
      exact tables.dir_iff d'
  · intro d' j t' member' index' intact' found
    rw [setWord_apply] at found ⊢
    by_cases here : d' = d /\ j = i
    · rw [if_pos here] at found ⊢
      rw [filled] at found
      cases found
      rw [role, here.1, here.2]
      exact ⟨rfl, writable, user⟩
    · rw [if_neg here] at found ⊢
      rcases tables.table d' j t' member' index' intact' found with ⟨role', flags⟩
      rw [keeps t' (fun equal => by rw [equal, held] at role'; cases role')]
      exact ⟨role', flags⟩
  · intro t' d' j role'
    by_cases equal : t' = t
    · subst equal
      rw [role] at role'
      cases role'
      exact ⟨member, index, intact, by rw [setWord_apply, if_pos ⟨rfl, rfl⟩, filled]⟩
    · rw [keeps t' equal] at role'
      rcases tables.back t' d' j role' with ⟨member', index', intact', found⟩
      refine ⟨member', index', intact', ?_⟩
      rw [setWord_apply, if_neg]
      · exact found
      · rintro ⟨rfl, rfl⟩
        rw [empty] at found
        cases found
  · intro d' v' reached' high
    rw [same d' v' reached']
    exact tables.kernel d' v' reached' high

end

end Tables

end Xv6.Ownership
