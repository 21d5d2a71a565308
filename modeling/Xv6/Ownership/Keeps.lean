import Xv6.Ownership.Tables

namespace Xv6.Ownership

open Library Machine

/-!
# What an operation on one page table leaves alone

An operation works on some directories, given by `D`.  `Keeps` says that
everything else is as before: the other directories and their tables, the
kernel stacks, pipes and fixed frames, every user page that another directory
maps, and all fields of the kernel state outside memory management.

The relation also carries translations.  If the processor runs on a page table
that is not being worked on, and what its buffer may hold agreed with that page
table before, then it still does.
-/

/-! ## Translations -/

/-- An entry that gives at least the access of another, to the same frame. -/
structure Grants (held now : Word) : Prop where
  frame : target now = some (frameOf held)
  write : HasFlag held PTE_W = true -> HasFlag now PTE_W = true
  user : HasFlag held PTE_U = true -> HasFlag now PTE_U = true

theorem Grants.refl {e : Word} (present : HasFlag e PTE_P = true) : Grants e e :=
  ⟨target_of_present present, id, id⟩

theorem Grants.present {held now : Word} (grants : Grants held now) : HasFlag now PTE_P = true :=
  (target_eq_some_iff.mp grants.frame).1

theorem Grants.trans {first second third : Word} (one : Grants first second)
    (two : Grants second third) : Grants first third := by
  have frame := (target_eq_some_iff.mp one.frame).2
  exact ⟨frame ▸ two.frame, fun flag => two.write (one.write flag), fun flag => two.user (one.user flag)⟩

/-- Every translation that the buffer may hold is one that the current page
table still gives. -/
def TlbOk (s : Kernel) : Prop :=
  ∀ v e, s.tlb v e -> v < 0x100000 /\ Grants e (entry s.mem s.cr3 v)

variable {s : Kernel} {D : Nat -> Prop} {ρ : Nat -> Role}

/-- Loading the current translations adds nothing that is stale. -/
theorem TlbOk.loaded (fresh : TlbOk s) {v : Nat} {e : Word} (held : s.loaded v e) :
    v < 0x100000 /\ Grants e (entry s.mem s.cr3 v) := by
  rcases held with old | ⟨bound, rfl, present⟩
  · exact fresh v e old
  · exact ⟨bound, .refl present⟩

/-- A change of memory that takes no access away. -/
theorem TlbOk.step {t : Kernel} (fresh : TlbOk s) (register : t.cr3 = s.cr3)
    (buffer : ∀ v e, t.tlb v e -> s.loaded v e)
    (grows : ∀ v, v < 0x100000 -> HasFlag (entry s.mem s.cr3 v) PTE_P = true ->
      Grants (entry s.mem s.cr3 v) (entry t.mem s.cr3 v)) : TlbOk t := by
  intro v e held
  rcases fresh.loaded (buffer v e held) with ⟨bound, grants⟩
  rw [register]
  exact ⟨bound, grants.trans (grows v bound grants.present)⟩

/-- A change of memory outside the current page table. -/
theorem TlbOk.same {t : Kernel} (fresh : TlbOk s) (register : t.cr3 = s.cr3)
    (buffer : ∀ v e, t.tlb v e -> s.loaded v e)
    (same : ∀ v, v < 0x100000 -> entry t.mem s.cr3 v = entry s.mem s.cr3 v) : TlbOk t :=
  fresh.step register buffer fun v bound present => by
    rw [same v bound]
    exact .refl present

/-! ## The frame relation -/

/-- Frames which an operation on the directories `D` does not touch.  Frame zero
is left out, because `loaduvm` follows an entry that is not there to it. -/
def Kept (D : Nat -> Prop) (ρ : Nat -> Role) (f : Nat) : Prop :=
  match ρ f with
  | .fixed => f ≠ 0
  | .kstack _ => True
  | .pipe => True
  | .cpu => True
  | .dir => ¬ D f
  | .table d _ => ¬ D d
  | .free => False
  | .held => False
  | .user _ => False

structure Keeps (D : Nat -> Prop) (ρ ρ' : Nat -> Role) (s t : Kernel) : Prop where
  rest : t = { s with mem := t.mem, freelist := t.freelist, pteArray := t.pteArray, tlb := t.tlb }
  frames : ∀ f, Kept D ρ f -> ρ' f = ρ f /\ t.mem f = s.mem f
  anchored : ∀ f, (ρ' f).anchored = true -> ρ' f = ρ f
  entries : ∀ d v, ρ d = .dir -> ¬ D d -> v < 0x100000 -> entry t.mem d v = entry s.mem d v
  pages : ∀ d v f, ρ d = .dir -> ¬ D d -> v < 0x80000 -> ρ f = .user v ->
    target (entry s.mem d v) = some f -> ρ' f = .user v /\ t.mem f = s.mem f
  quiet : ρ s.cr3 = .dir -> ¬ D s.cr3 -> TlbOk s -> TlbOk t

theorem kept_dir {d : Nat} (role : ρ d = .dir) (other : ¬ D d) : Kept D ρ d := by
  unfold Kept
  rw [role]
  exact other

theorem kept_table {t d i : Nat} (role : ρ t = .table d i) (other : ¬ D d) : Kept D ρ t := by
  unfold Kept
  rw [role]
  exact other

/-- A kept frame keeps its role, so it is still kept. -/
theorem Kept.of_same {ρ' : Nat -> Role} {f : Nat} (kept : Kept D ρ f) (same : ρ' f = ρ f) :
    Kept D ρ' f := by
  unfold Kept at kept ⊢
  rw [same]
  exact kept

namespace Keeps

variable {D : Nat -> Prop} {ρ ρ' ρ'' : Nat -> Role} {s t u : Kernel} {σ : Scope}

theorem ptable (keeps : Keeps D ρ ρ' s t) : t.ptable = s.ptable := by rw [keeps.rest]
theorem cr3 (keeps : Keeps D ρ ρ' s t) : t.cr3 = s.cr3 := by rw [keeps.rest]

theorem dir (keeps : Keeps D ρ ρ' s t) {d : Nat} (role : ρ d = .dir)
    (other : ¬ D d) : ρ' d = .dir :=
  (keeps.frames d (kept_dir role other)).1.trans role

theorem refl (D : Nat -> Prop) (ρ : Nat -> Role) (s : Kernel) : Keeps D ρ ρ s s where
  rest := rfl
  frames _ _ := ⟨rfl, rfl⟩
  anchored _ _ := rfl
  entries _ _ _ _ _ := rfl
  pages _ _ _ _ _ _ role _ := ⟨role, rfl⟩
  quiet _ _ fresh := fresh

theorem trans (first : Keeps D ρ ρ' s t) (second : Keeps D ρ' ρ'' t u) : Keeps D ρ ρ'' s u where
  rest := by
    rw [second.rest, first.rest]
  frames f kept := by
    rcases first.frames f kept with ⟨role, mem⟩
    rcases second.frames f (kept.of_same role) with ⟨role', mem'⟩
    exact ⟨role'.trans role, mem'.trans mem⟩
  anchored f now := by
    have same := second.anchored f now
    exact same.trans (first.anchored f (same ▸ now))
  entries d v role other bound :=
    (second.entries d v (first.dir role other) other bound).trans (first.entries d v role other bound)
  pages d v f role other bound used filled := by
    rcases first.pages d v f role other bound used filled with ⟨used', mem⟩
    have filled' : target (entry t.mem d v) = some f := by
      rw [first.entries d v role other (by omega), filled]
    rcases second.pages d v f (first.dir role other) other bound used' filled' with ⟨used'', mem'⟩
    exact ⟨used'', mem'.trans mem⟩
  quiet role other fresh := by
    have same := first.cr3
    exact second.quiet (same ▸ first.dir role other) (same ▸ other) (first.quiet role other fresh)

/-- One change of memory. -/
theorem make (tables : Tables ρ σ s.mem) (calm : ∀ d, d ∈ σ.dirs -> ¬ D d -> σ.stage d = 0)
    (rest : t =
      { s with mem := t.mem, freelist := t.freelist, pteArray := t.pteArray, tlb := t.tlb })
    (buffer : ∀ v e, t.tlb v e -> s.loaded v e)
    (anchored : ∀ f, (ρ' f).anchored = true -> ρ' f = ρ f)
    (frames : ∀ f, Kept D ρ f -> ρ' f = ρ f /\ t.mem f = s.mem f)
    (pages : ∀ d v f, d ∈ σ.dirs -> ¬ D d -> v < 0x80000 -> ρ f = .user v ->
      target (entry s.mem d v) = some f -> ρ' f = .user v /\ t.mem f = s.mem f) :
    Keeps D ρ ρ' s t := by
  have entries : ∀ d v, ρ d = .dir -> ¬ D d -> v < 0x100000 -> entry t.mem d v = entry s.mem d v := by
    intro d v role other bound
    have member := (tables.dir_iff d).mp role
    have directory : t.mem d = s.mem d := (frames d (kept_dir role other)).2
    cases found : target (s.mem d (v / 1024)) with
    | none => rw [entry_of_none found, entry_of_none (directory ▸ found)]
    | some table =>
      have inside := (tables.table d (v / 1024) table member (by omega)
        (by rw [calm d member other]; exact Nat.zero_le _) found).1
      rw [entry_of_table found, entry_of_table (directory ▸ found),
        (frames table (kept_table inside other)).2]
  refine ⟨rest, frames, anchored, entries, ?_, ?_⟩
  · intro d v f role other
    exact pages d v f ((tables.dir_iff d).mp role) other
  · intro role other fresh
    exact fresh.same (by rw [rest]) buffer fun v bound => entries s.cr3 v role other bound

/-- A write to an entry of a directory that is worked on, and to the counts. -/
theorem setEntry {d v table : Nat} {e : Word} (count : Nat -> BitVec 8) (tables : Tables ρ σ s.mem)
    (calm : ∀ d, d ∈ σ.dirs -> ¬ D d -> σ.stage d = 0) (inside : D d) (reached : σ.Reaches d v)
    (present : target (s.mem d (v / 1024)) = some table) :
    Keeps D ρ ρ s { s.setMem (setPte s.mem d v e) with pteArray := count } := by
  refine .make tables calm rfl (fun _ _ old => old) (fun _ _ => rfl) ?_ ?_
  · intro f kept
    refine ⟨rfl, tables.setPte_other reached present ?_⟩
    intro role
    unfold Kept at kept
    rw [role] at kept
    exact kept inside
  · intro _ _ f _ _ _ used _
    exact ⟨used, tables.setPte_other reached present (by simp [used])⟩

end Keeps

end Xv6.Ownership
