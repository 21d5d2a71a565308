import Xv6.Memory.Rules
import Xv6.Ownership.Tables

namespace Xv6.Ownership

open Library Machine Memory
open Function

/-!
# States in which every frame has one role

`Sound` joins the views of the allocator, of the page tables and of user
memory.  The lemmas below it are the single changes of state from which the
functions of `vm.c` are made, each with the change of roles that goes with it.
-/

variable [L : Layout]

/-- The free list has every free frame once, and only frames that were handed
to the allocator leave the role `fixed`. -/
structure Frames (ρ : Nat -> Role) (freelist : List Nat) : Prop where
  nodup : freelist.Nodup
  free_iff : ∀ f, f ∈ freelist <-> ρ f = .free
  allocatable : ∀ f, ρ f ≠ .fixed -> Allocatable f

structure Sound (ρ : Nat -> Role) (σ : Scope) (s : Kernel) : Prop where
  frames : Frames ρ s.freelist
  tables : Tables ρ σ s.mem
  pages : Pages ρ σ.dirs (σ.view s.mem) s.pteArray

/-! ## Frames -/

namespace Frames

variable {ρ : Nat -> Role} {freelist : List Nat} {f : Nat}

theorem recast {r : Role} (frames : Frames ρ freelist) (before : ρ f ≠ .free) (after : r ≠ .free)
    (movable : ρ f ≠ .fixed) : Frames (update ρ f r) freelist := by
  refine ⟨frames.nodup, ?_, ?_⟩
  · intro g
    by_cases same : g = f
    · subst same
      rw [update_self, frames.free_iff g]
      simp [before, after]
    · rw [update_of_ne same]
      exact frames.free_iff g
  · intro g left
    by_cases same : g = f
    · subst same
      exact frames.allocatable g movable
    · rw [update_of_ne same] at left
      exact frames.allocatable g left

theorem take {rest : List Nat} {r : Role} (frames : Frames ρ (f :: rest)) (after : r ≠ .free) :
    Frames (update ρ f r) rest := by
  have fresh := List.nodup_cons.mp frames.nodup
  have free := (frames.free_iff f).mp List.mem_cons_self
  refine ⟨fresh.2, ?_, ?_⟩
  · intro g
    by_cases same : g = f
    · subst same
      simp [fresh.1, after]
    · rw [update_of_ne same, <- frames.free_iff g, List.mem_cons]
      simp [same]
  · intro g left
    by_cases same : g = f
    · subst same
      exact frames.allocatable g (by simp [free])
    · rw [update_of_ne same] at left
      exact frames.allocatable g left

theorem give (frames : Frames ρ freelist) (before : ρ f ≠ .free) (allocatable : Allocatable f) :
    Frames (update ρ f .free) (f :: freelist) := by
  have outside : f ∉ freelist := fun inside => before ((frames.free_iff f).mp inside)
  refine ⟨List.nodup_cons.mpr ⟨outside, frames.nodup⟩, ?_, ?_⟩
  · intro g
    by_cases same : g = f
    · subst same
      simp
    · rw [update_of_ne same, <- frames.free_iff g, List.mem_cons]
      simp [same]
  · intro g left
    by_cases same : g = f
    · subst same
      exact allocatable
    · rw [update_of_ne same] at left
      exact frames.allocatable g left

end Frames

namespace Sound

variable {ρ : Nat -> Role} {σ : Scope} {s t : Kernel} {d v f g i : Nat} {e : Word} {c : BitVec 8}

section

variable (sound : Sound ρ σ s)

include sound

/-- A directory is not behind the null pointer. -/
theorem pgdir_ne {p : Proc} (member : p.dir ∈ σ.dirs) : p.pgdir ≠ 0#32 := by
  intro zero
  have directory := (sound.tables.dir_iff p.dir).mpr member
  have high := (sound.frames.allocatable p.dir (by simp [directory])).lt
  rw [Proc.dir, zero] at high
  have small : kernelFrame 0#32 = 0x80000 := by decide
  omega

/-- A write to frames that are not directories or tables. -/
theorem write {n : Memory} (same : ∀ f, (ρ f).structural = true -> n f = s.mem f) :
    Sound ρ σ (s.setMem n) :=
  ⟨sound.frames, sound.tables.congr same,
    sound.pages.congr fun _ _ member bound => sound.tables.view_congr same member bound⟩

omit sound in
theorem writeFrame (page : Nat -> Word) (sound : Sound ρ σ s) (other : (ρ f).structural = false) :
    Sound ρ σ (s.setMem (update s.mem f page)) := by
  apply sound.write
  intro g structural
  apply update_of_ne
  rintro rfl
  rw [other] at structural
  cases structural

/-- `kalloc` on a list that is not empty. -/
theorem take {rest : List Nat} (list : s.freelist = f :: rest) :
    Sound (update ρ f .held) σ { s with freelist := rest } := by
  have free : ρ f = .free := (sound.frames.free_iff f).mp (by rw [list]; exact List.mem_cons_self)
  refine ⟨?_, ?_, ?_⟩
  · have frames := sound.frames
    rw [list] at frames
    exact frames.take (by simp)
  · exact sound.tables.recast (by rw [free]; rfl) rfl
  · exact sound.pages.recast (by simp [free]) (by simp) (by simp)

/-- Put a frame that nothing refers to on the list. -/
theorem release (loose : (ρ f).loose = true) (mem : t.mem = s.mem)
    (freelist : t.freelist = f :: s.freelist) (count : t.pteArray = s.pteArray) :
    Sound (update ρ f .free) σ t := by
  rcases Role.loose_cases loose with ⟨notFree, notFixed, notStructural, notUser⟩
  refine ⟨?_, ?_, ?_⟩
  · rw [freelist]
    exact sound.frames.give notFree (sound.frames.allocatable f notFixed)
  · rw [mem]
    exact sound.tables.recast notStructural rfl
  · rw [mem, count]
    exact sound.pages.recast notUser (by simp) (by simp)

/-- Nothing is said of a held frame, so it may be taken for any other loose one. -/
theorem shelved : Sound (shelve ρ) σ s := by
  have free : ∀ f, shelve ρ f = .free <-> ρ f = .free := fun f => shelve_eq_iff nofun nofun
  have dir : ∀ f, shelve ρ f = .dir <-> ρ f = .dir := fun f => shelve_eq_iff nofun nofun
  have user : ∀ f v, shelve ρ f = .user v <-> ρ f = .user v := fun f v => shelve_eq_iff nofun nofun
  have fixed : ∀ f, shelve ρ f = .fixed <-> ρ f = .fixed := fun f => shelve_eq_iff nofun nofun
  have table : ∀ t d i, shelve ρ t = .table d i <-> ρ t = .table d i :=
    fun t d i => shelve_eq_iff nofun nofun
  refine ⟨⟨sound.frames.nodup, ?_, ?_⟩, ⟨?_, ?_, ?_, sound.tables.kernel⟩,
    ⟨sound.pages.few, ?_, sound.pages.absent, ?_, ?_, ?_, ?_⟩⟩
  · intro f
    exact (sound.frames.free_iff f).trans (free f).symm
  · intro f moved
    exact sound.frames.allocatable f fun wrong => moved ((fixed f).mpr wrong)
  · intro d
    exact (dir d).trans (sound.tables.dir_iff d)
  · intro d i t member index intact present
    rw [table]
    exact sound.tables.table d i t member index intact present
  · intro t d i role
    exact sound.tables.back t d i ((table t d i).mp role)
  · intro d v f member bound filled
    exact (user f v).mpr (sound.pages.page d v f member bound filled)
  · intro f v used
    exact sound.pages.owner f v ((user f v).mp used)
  · intro f v used
    exact sound.pages.counted f v ((user f v).mp used)
  · intro f other
    exact sound.pages.uncounted f fun v used => other v ((user f v).mpr used)
  · intro f role
    exact sound.pages.fixed f ((fixed f).mp role)

/-! ## Entries -/

/-- Map a held frame in an empty entry. -/
theorem mapFresh (member : d ∈ σ.dirs) (bound : v < 0x80000)
    (counted : σ.stage d <= v) {table : Nat} (present : target (s.mem d (v / 1024)) = some table)
    (empty : target (entry s.mem d v) = none) (held : ρ g = .held) (filled : target e = some g)
    (mem : t.mem = setPte s.mem d v e) (freelist : t.freelist = s.freelist)
    (count : t.pteArray = s.pteArray) : Sound (update ρ g (.user v)) σ t := by
  have reached := Scope.reaches_user member bound counted
  refine ⟨?_, ?_, ?_⟩
  · rw [freelist]
    exact sound.frames.recast (by simp [held]) (by simp) (by simp [held])
  · rw [mem]
    exact (sound.tables.writePte reached present (by omega)).recast (by rw [held]; rfl) rfl
  · rw [mem, count]
    have viewed : σ.view s.mem d v = entry s.mem d v := Scope.view_of_le counted
    have mapped := sound.pages.mapFresh member bound (by rw [viewed, empty]) held filled
    exact mapped.congr fun d' v' member' bounded' =>
      sound.tables.view_setPte member bound counted present member' bounded'

/-- Clear the only entry of a user frame. -/
theorem unmapLast (member : d ∈ σ.dirs) (bound : v < 0x80000)
    (counted : σ.stage d <= v) (filled : target (entry s.mem d v) = some f)
    (single : (σ.sharersOf s.mem v f).card <= 1) (small : c.toNat <= 1)
    (mem : t.mem = setPte s.mem d v 0#32) (freelist : t.freelist = s.freelist)
    (count : t.pteArray = update s.pteArray f c) : Sound (update ρ f .held) σ t := by
  rcases table_of_target filled with ⟨table, present⟩
  have reached := Scope.reaches_user member bound counted
  have viewed : σ.view s.mem d v = entry s.mem d v := Scope.view_of_le counted
  have used := sound.pages.page d v f member bound (by rw [viewed, filled])
  refine ⟨?_, ?_, ?_⟩
  · rw [freelist]
    exact sound.frames.recast (by simp [used]) (by simp) (by simp [used])
  · rw [mem]
    exact (sound.tables.writePte reached present (by simp)).recast (by rw [used]; rfl) rfl
  · rw [mem, count]
    have cleared := sound.pages.unmapLast member bound (by rw [viewed, filled]) single small
    exact cleared.congr fun d' v' member' bounded' =>
      sound.tables.view_setPte member bound counted present member' bounded'

/-! ## Tables and directories -/

/-- Put a zeroed held frame into a directory as a page table. -/
theorem link (member : d ∈ σ.dirs) (index : i < 1024) (intact : σ.stage d <= 0x80000 + i)
    (held : ρ g = .held) (zero : ∀ j, j < 1024 -> s.mem g j = 0#32)
    (empty : target (s.mem d i) = none) (filled : target e = some g)
    (writable : HasFlag e PTE_W = true) (user : HasFlag e PTE_U = true) :
    Sound (update ρ g (.table d i)) σ (s.setMem (setWord s.mem d i e)) /\
      ∀ d' v', σ.Reaches d' v' -> entry (setWord s.mem d i e) d' v' = entry s.mem d' v' := by
  rcases sound.tables.link member index intact held zero empty filled writable user with ⟨tables, same⟩
  refine ⟨⟨?_, tables, ?_⟩, same⟩
  · exact sound.frames.recast (by simp [held]) (by simp) (by simp [held])
  · refine (sound.pages.recast (by simp [held]) (by simp) (by simp)).congr
      fun d' v' member' bounded' => ?_
    by_cases counted' : σ.stage d' <= v'
    · rw [Scope.view_of_le counted', Scope.view_of_le counted']
      exact same d' v' (Scope.reaches_user member' bounded' counted')
    · rw [Scope.view, if_neg counted', Scope.view, if_neg counted']

end

end Sound

end Xv6.Ownership
