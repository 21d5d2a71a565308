import Xv6.Ownership.Growth
import Xv6.Process.Proc

namespace Xv6.System

open Library Machine Memory Ownership Process
open Scope (whole view_whole)

/-!
# `allocuvm` and `sbrk` when memory runs out

`allocuvm` does not look at what `mappages` returns.  A data page for which there
is no page table is lost, and if it was the last one, the call reports success over a page
that is not there.  `supply` says from the number of free pages and the page tables that
exist which of these happens.

`growproc` takes 0 from `allocuvm` and `deallocuvm` for an error, also where it is the new size,
and adds a signed argument to an unsigned size.
-/

/-! ## An address space with nothing in it -/

/-- Process 0 has an empty page directory, and all of memory is zero. -/
def bare (freelist : List Nat) : Kernel where
  mem := fun _ _ => 0#32
  freelist := freelist
  pteArray := fun _ => 0#8
  ptable := fun _ => ⟨0#32, 0x80300000#32, 0#32, .RUNNING, 1#32, 0#32, 0#32, 0#32, 0#32, 0#32,
    fun _ => 0#32, 0#32, fun _ => 0#32, fun _ => 0#32, 0#32, 0#32⟩
  beyond := fun _ => 0#32
  trapframe := fun _ => ⟨0#32, 0#32, 0#32, 0#32, 0#32, 0#32, 3#32, 0#32⟩
  nextpid := 2#32
  initproc := 0
  kpgdir := 0
  cpustacks := []
  ftable := fun _ => ⟨.FD_NONE, 0, false, false, 0⟩
  pipes := fun _ => ⟨fun _ => 0#8, 0#32, 0#32, false, false⟩
  cr2 := 0#32
  cr3 := 0x300
  tlb := fun _ _ => False
  running := some 0
  trace := []

def bareRole (freelist : List Nat) (f : Nat) : Role :=
  if f = 0x300 then .dir else if f ∈ freelist then .free else .fixed

theorem entry_bare (freelist : List Nat) (d v : Nat) : entry (bare freelist).mem d v = 0#32 :=
  ite_self 0#32

theorem tableSet_bare (freelist : List Nat) (d : Nat) : tableSet (bare freelist).mem d = ∅ := by
  ext i
  rw [mem_tableSet]
  simp [bare]

variable {f : Nat}

/-- No frame has another role. -/
theorem bareRole_ne {freelist : List Nat} {r : Role} (dir : r ≠ .dir) (free : r ≠ .free)
    (fixed : r ≠ .fixed) : bareRole freelist f ≠ r := by
  unfold bareRole
  by_cases directory : f = 0x300
  · rw [if_pos directory]
    exact dir.symm
  · by_cases listed : f ∈ freelist
    · rw [if_neg directory, if_pos listed]
      exact free.symm
    · rw [if_neg directory, if_neg listed]
      exact fixed.symm

theorem bare_sound [L : Layout] {freelist : List Nat} (above : L.kend <= 0x80300000)
    (nodup : freelist.Nodup) (inside : ∀ f, f ∈ freelist -> 0x300 < f /\ f < 0xE000) :
    Sound (bareRole freelist) (whole {0x300}) (bare freelist) := by
  have allocatable : ∀ f, 0x300 <= f -> f < 0xE000 -> Allocatable f := by
    intro f low high
    unfold Allocatable KERNBASE PHYSTOP
    omega
  have others : 0x300 ∉ freelist := fun listed => absurd (inside _ listed).1 (Nat.lt_irrefl _)
  have user : ∀ f v, bareRole freelist f ≠ .user v := fun f v => bareRole_ne (by simp) (by simp) (by simp)
  refine ⟨⟨nodup, ?_, ?_⟩, ⟨?_, ?_, ?_, ?_⟩, ⟨by simp, ?_, ?_, ?_, ?_, ?_, ?_⟩⟩
  · intro f
    unfold bareRole
    by_cases directory : f = 0x300
    · subst directory
      simp [bare, others]
    · rw [if_neg directory]
      change f ∈ freelist <-> _
      simp
  · intro f moved
    by_contra outside
    refine moved ?_
    rw [bareRole, if_neg, if_neg]
    · exact fun listed => outside (allocatable f (inside f listed).1.le (inside f listed).2)
    · rintro rfl
      exact outside (allocatable 0x300 (by decide) (by decide))
  · intro f
    rw [Scope.dirs_whole, Finset.mem_singleton, bareRole]
    by_cases directory : f = 0x300
    · simp [directory]
    · rw [if_neg directory]
      by_cases listed : f ∈ freelist
      · simp [directory, listed]
      · simp [directory, listed]
  · intro d i t _ _ _ present
    rw [show (bare freelist).mem d i = 0#32 from rfl, target_zero] at present
    cases present
  · intro t d i role
    exact absurd role (bareRole_ne (by simp) (by simp) (by simp))
  · intro d v _ _
    rw [entry_bare, hasFlag_zero]
  · intro d v f _ _ filled
    rw [view_whole, entry_bare, target_zero] at filled
    cases filled
  · intro d v _ _ _
    rw [view_whole, entry_bare]
  · exact fun f v used => absurd used (user f v)
  · exact fun f v used => absurd used (user f v)
  · exact fun f _ => Nat.zero_le 1
  · exact fun f _ => rfl

/-! ## `allocuvm` -/

/-- The pages from `oldsz` to `newsz` are there, and nothing else has changed. -/
structure Added (dirs : Finset Nat) (d oldsz newsz : Nat) (s t : Kernel) : Prop where
  page : ∀ w, (oldsz + 4095) / 4096 <= w -> w < (newsz + 4095) / 4096 -> ∃ g, g ∈ s.freelist /\
    entry t.mem d w = frameAddr g ||| (PTE_W ||| PTE_U) ||| PTE_P /\ target (entry t.mem d w) = some g /\
      t.mem g = fun _ => 0#32
  distinct : ∀ w w' g, (oldsz + 4095) / 4096 <= w -> w < (newsz + 4095) / 4096 ->
    (oldsz + 4095) / 4096 <= w' ->
    w' < (newsz + 4095) / 4096 -> target (entry t.mem d w) = some g ->
      target (entry t.mem d w') = some g -> w = w'
  others : ∀ d' w, d' ∈ dirs -> w < 0x100000 ->
    ¬ (d' = d /\ (oldsz + 4095) / 4096 <= w /\ w < (newsz + 4095) / 4096) ->
      entry t.mem d' w = entry s.mem d' w

/-- No page was added, and of the free pages only page tables are missing. -/
structure Undone (d : Nat) (s t : Kernel) : Prop where
  mapped : ∀ w, w < 0x80000 -> target (entry t.mem d w) ≠ none -> target (entry s.mem d w) ≠ none
  returned : ∀ f, f ∈ s.freelist -> f ∈ t.freelist ∨ ∃ i, i < 1024 /\ target (t.mem d i) = some f

def AllOrNothing (dirs : Finset Nat) (d oldsz newsz result : Nat) (s t : Kernel) : Prop :=
  (result = newsz -> Added dirs d oldsz newsz s t) /\ (result = 0 -> Undone d s t)

/-- What the free pages allow `allocuvm` to do. -/
def supplyOf (s : Kernel) (d oldsz newsz : Nat) : Supply :=
  supply ((newsz + 4095) / 4096 - (oldsz + 4095) / 4096) (tableSet s.mem d) ((oldsz + 4095) / 4096)
    s.freelist.length

section Allocuvm

variable [L : Layout] {ρ ρ' : Nat -> Role} {dirs : Finset Nat} {d oldsz newsz : Nat} {s t : Kernel}

section

variable (sound : Sound ρ (whole dirs) s)

include sound

/-- `allocuvm` over pages that are not there returns. -/
theorem allocuvm_returns (member : d ∈ dirs) (order : oldsz <= newsz) (top : newsz < KERNBASE)
    (empty : ∀ w, (oldsz + 4095) / 4096 <= w -> w < (newsz + 4095) / 4096 ->
      target (entry s.mem d w) = none) :
    ∃ result t, allocuvm d oldsz newsz s = .ok result t /\ ∃ ρ',
      AllocDone (supplyOf s d oldsz newsz) result newsz ρ ρ' dirs d
        ((oldsz + 4095) / 4096) s t := by
  have unshared : Unshared dirs d oldsz newsz s.mem := by
    intro w f above below filled
    rw [empty w (by omega) (by omega)] at filled
    cases filled
  have total := (allocuvm_spec sound member unshared order top).mono (fun _ _ done => done)
      fun _ _ wrong => by
    rcases wrong with ⟨_, w, above, below, there⟩
    exact there (empty w above below)
  exact total.exists_ok

theorem Added.of_grown
    (grown : Zeroed ρ ρ' dirs d ((oldsz + 4095) / 4096) ((newsz + 4095) / 4096) s t) :
    Added dirs d oldsz newsz s t where
  page w above below := by
    rcases grown.added w above below with ⟨g, cell, filled, free, _, content⟩
    exact ⟨g, (sound.frames.free_iff g).mpr free, cell, filled, content⟩
  distinct w w' g above below above' below' filled filled' := by
    rcases grown.added w above below with ⟨f, _, there, _, used, _⟩
    rcases grown.added w' above' below' with ⟨f', _, there', _, used', _⟩
    rw [there] at filled
    rw [there'] at filled'
    cases filled
    cases filled'
    rw [used] at used'
    cases used'
    rfl
  others := grown.entries

/-- A frame that was free and is not lost is free again or has become a page table. -/
theorem returned_of_restored (after : Sound ρ' (whole dirs) t)
    (keeps : Keeps (fun d' => d' = d) ρ ρ' s t) (restored : Restored ρ ρ' d s t)
    (noLeak : ∀ f, ρ' f = .held -> ρ f = .held) (listed : f ∈ s.freelist) :
    f ∈ t.freelist ∨ ∃ i, i < 1024 /\ target (t.mem d i) = some f := by
  have free : ρ f = .free := (sound.frames.free_iff f).mp listed
  have anchored : (ρ' f).anchored = true -> False := by
    intro now
    have same := keeps.anchored f now
    rw [same, free] at now
    cases now
  cases role : ρ' f with
  | free => exact .inl ((after.frames.free_iff f).mpr role)
  | table d' i =>
    rcases after.tables.back f d' i role with ⟨member, index, _, found⟩
    by_cases same : d' = d
    · subst same
      exact .inr ⟨i, index, found⟩
    · have directory := (sound.tables.dir_iff d').mpr member
      rw [(keeps.frames d' (kept_dir directory same)).2] at found
      have before := (sound.tables.table d' i f member index (by simp) found).1
      rw [free] at before
      cases before
  | held =>
    have before := noLeak f role
    rw [free] at before
    cases before
  | dir =>
    have before := (sound.tables.dir_iff f).mpr ((after.tables.dir_iff f).mp role)
    rw [free] at before
    cases before
  | user w =>
    rcases after.pages.owner f w role with ⟨bound, d', member, filled⟩
    have same : entry t.mem d' w = entry s.mem d' w := by
      by_cases here : d' = d
      · rw [here]
        exact restored.entries w (by omega)
      · exact keeps.entries d' w ((sound.tables.dir_iff d').mpr member) here (by omega)
    rw [view_whole, same] at filled
    have before := sound.pages.page d' w f member bound (by rw [view_whole]; exact filled)
    rw [free] at before
    cases before
  | fixed => exact absurd (by rw [role]; rfl) anchored
  | kstack slot => exact absurd (by rw [role]; rfl) anchored
  | pipe => exact absurd (by rw [role]; rfl) anchored
  | cpu => exact absurd (by rw [role]; rfl) anchored

end

/-- A frame that nothing refers to is not free, and no page table. -/
theorem lost_of_held (after : Sound ρ' (whole dirs) t) (member : d ∈ dirs) (held : ρ' f = .held) :
    ¬ (f ∈ t.freelist ∨ ∃ i, i < 1024 /\ target (t.mem d i) = some f) := by
  rintro (listed | ⟨i, index, found⟩)
  · rw [(after.frames.free_iff f).mp listed] at held
    cases held
  · rw [(after.tables.table d i f member index (by simp) found).1] at held
    cases held

/-- `allocuvm` is all or nothing exactly when memory does not run out at a page table. -/
theorem allocuvm_all_or_nothing_iff (sound : Sound ρ (whole dirs) s) (member : d ∈ dirs)
    (order : oldsz <= newsz) (top : newsz < KERNBASE)
    (empty : ∀ w, (oldsz + 4095) / 4096 <= w -> w < 0x80000 -> target (entry s.mem d w) = none) :
    (∃ result t, allocuvm d oldsz newsz s = .ok result t /\
      AllOrNothing dirs d oldsz newsz result s t) <-> (supplyOf s d oldsz newsz).clean = true := by
  have below : newsz < 2 ^ 31 := top
  have nothing : ∀ w, (oldsz + 4095) / 4096 <= w -> w < (newsz + 4095) / 4096 ->
      target (entry s.mem d w) = none :=
    fun w above under => empty w above (by omega)
  rcases allocuvm_returns sound member order top nothing with ⟨result, t, run, ρ', done⟩
  have determined : (∃ result t, allocuvm d oldsz newsz s = .ok result t /\
      AllOrNothing dirs d oldsz newsz result s t) <-> AllOrNothing dirs d oldsz newsz result s t := by
    constructor
    · rintro ⟨_, _, again, all⟩
      rw [run] at again
      cases again
      exact all
    · exact fun all => ⟨result, t, run, all⟩
  rw [determined]
  cases outcome : supplyOf s d oldsz newsz with
  | full =>
    rw [outcome] at done
    rcases done with ⟨rfl, grown⟩
    refine ⟨fun _ => rfl, fun _ => ⟨fun _ => .of_grown sound grown, fun zero => ?_⟩⟩
    subst zero
    have same : t = s := by
      rw [Nat.le_zero.mp order, allocuvm, if_neg (by decide), if_neg (by decide), allocuvmLoop,
        dif_neg (Nat.not_lt_zero _)] at run
      cases run
      rfl
    subst same
    exact ⟨fun _ _ there => there, fun _ listed => .inl listed⟩
  | hole =>
    rw [outcome] at done
    rcases done with ⟨rfl, some, partly, _⟩
    refine ⟨fun all => ?_, fun clean => absurd clean (by decide)⟩
    rcases (all.1 rfl).page ((result + 4095) / 4096 - 1) (by omega) (by omega) with ⟨g, _, _, filled, _⟩
    rw [partly.entries d _ member (by omega) (by omega), nothing _ (by omega) (by omega)] at filled
    cases filled
  | fails leaky =>
    rw [outcome] at done
    rcases done with ⟨rfl, failed, clean, leaks, restored⟩
    have back := restored nothing
    cases leaky with
    | false =>
      refine ⟨fun _ => rfl, fun _ => ⟨fun same => ?_, fun _ => ⟨?_, ?_⟩⟩⟩
      · have none : (newsz + 4095) / 4096 - (oldsz + 4095) / 4096 = 0 := by omega
        rw [supplyOf, none] at outcome
        cases outcome
      · intro w bound there
        rw [back.entries w (by omega)] at there
        exact there
      · exact fun f listed => returned_of_restored sound failed.sound failed.keeps back
          (clean rfl).1 listed
    | true =>
      refine ⟨fun all => ?_, fun clean => absurd clean (by decide)⟩
      rcases leaks rfl with ⟨f, free, held⟩
      exact absurd ((all.2 rfl).returned f ((sound.frames.free_iff f).mpr free))
        (lost_of_held failed.sound member held)

end Allocuvm

/-- One page, with a frame for it and one for its page table. -/
theorem allocuvm_all_or_nothing_page :
    ∃ result t, allocuvm (L := kernelSym) 0x300 0 4096 (bare [0x301, 0x302]) = .ok result t /\
      AllOrNothing {0x300} 0x300 0 4096 result (bare [0x301, 0x302]) t := by
  have supplied : (supplyOf (bare [0x301, 0x302]) 0x300 0 4096).clean = true := by
    rw [supplyOf, tableSet_bare]
    decide
  have sound : Sound (L := kernelSym) (bareRole [0x301, 0x302]) (whole {0x300}) (bare [0x301, 0x302]) :=
    bare_sound (L := kernelSym) (by decide) (by decide) (by decide)
  exact (allocuvm_all_or_nothing_iff (L := kernelSym) sound (Finset.mem_singleton_self _)
    (by decide) (by decide) fun w _ _ => by rw [entry_bare, target_zero]).mpr supplied

/-- With one free frame there is no page table for the page. -/
theorem bare_missing_page [L : Layout] (above : L.kend <= 0x80300000) : ∃ t,
    allocuvm 0x300 0 4096 (bare [0x301]) = .ok 4096 t /\ t.ptable = (bare [0x301]).ptable /\
      target (entry t.mem 0x300 0) = none := by
  have supplied : supplyOf (bare [0x301]) 0x300 0 4096 = .hole := by
    rw [supplyOf, tableSet_bare]
    decide
  have sound : Sound (bareRole [0x301]) (whole {0x300}) (bare [0x301]) :=
    bare_sound above (by decide) (by decide)
  have empty : ∀ w, target (entry (bare [0x301]).mem 0x300 w) = none := by
    intro w
    rw [entry_bare, target_zero]
  rcases allocuvm_returns sound (Finset.mem_singleton_self _) (Nat.zero_le 4096) (by decide)
    (fun w _ _ => empty w) with
    ⟨result, t, run, ρ', done⟩
  rw [supplied] at done
  rcases done with ⟨rfl, _, partly, _⟩
  refine ⟨t, run, partly.grows.keeps.ptable, ?_⟩
  rw [partly.entries 0x300 0 (Finset.mem_singleton_self _) (by decide) (by omega)]
  exact empty 0

theorem allocuvm_reports_missing_page : ∃ t,
    allocuvm (L := kernelSym) 0x300 0 4096 (bare [0x301]) = .ok 4096 t /\
      ¬ AllOrNothing {0x300} 0x300 0 4096 4096 (bare [0x301]) t := by
  rcases bare_missing_page (L := kernelSym) (by decide) with ⟨t, run, _, absent⟩
  refine ⟨t, run, fun all => ?_⟩
  rcases (all.1 rfl).page 0 (by decide) (by decide) with ⟨_, _, _, filled, _⟩
  rw [absent] at filled
  cases filled

/-! ## `growproc` -/

/-- Exactly the pages below the size of the process are mapped, and no other process shares them. -/
structure Sized (dirs : Finset Nat) (slot : Nat) (s : Kernel) : Prop where
  member : (s.ptable slot).dir ∈ dirs
  small : (s.ptable slot).sz.toNat < KERNBASE
  mapped : ∀ w, w < 0x80000 ->
    (target (entry s.mem (s.ptable slot).dir w) ≠ none <-> w * 4096 < (s.ptable slot).sz.toNat)
  unshared : Unshared dirs (s.ptable slot).dir 0 (s.ptable slot).sz.toNat s.mem

/-- The size has changed by `n`, and the pages with it. -/
structure Resized (slot : Nat) (n : Int) (s t : Kernel) : Prop where
  size : ((t.ptable slot).sz.toNat : Int) = (s.ptable slot).sz.toNat + n
  small : (t.ptable slot).sz.toNat < KERNBASE
  mapped : ∀ w, w < 0x80000 ->
    (target (entry t.mem (s.ptable slot).dir w) ≠ none <-> w * 4096 < (t.ptable slot).sz.toNat)
  kept : ∀ w f, w * 4096 < (s.ptable slot).sz.toNat -> w * 4096 < (t.ptable slot).sz.toNat ->
    target (entry s.mem (s.ptable slot).dir w) = some f ->
      target (entry t.mem (s.ptable slot).dir w) = some f /\ t.mem f = s.mem f
  zero : ∀ w f, (s.ptable slot).sz.toNat <= w * 4096 -> w * 4096 < (t.ptable slot).sz.toNat ->
    target (entry t.mem (s.ptable slot).dir w) = some f -> t.mem f = fun _ => 0#32

/-- The size, the page tables, user memory and the free pages are as before. -/
structure Untouched (dirs : Finset Nat) (slot : Nat) (s t : Kernel) : Prop where
  size : (t.ptable slot).sz = (s.ptable slot).sz
  entries : ∀ d w, d ∈ dirs -> w < 0x100000 -> entry t.mem d w = entry s.mem d w
  content : ∀ d w f, d ∈ dirs -> w < 0x80000 -> target (entry s.mem d w) = some f -> t.mem f = s.mem f
  free : ∀ f, f ∈ t.freelist <-> f ∈ s.freelist

def SbrkDone (dirs : Finset Nat) (slot : Nat) (n : Int) (result : Int) (s t : Kernel) : Prop :=
  (result = 0 -> Resized slot n s t) /\ (result = -1 -> Untouched dirs slot s t)

/-- The free pages run out before any page table is missing. -/
def RunsOut (s : Kernel) (d oldsz newsz : Nat) : Prop :=
  s.freelist.length < (newsz + 4095) / 4096 - (oldsz + 4095) / 4096 /\
    ∀ w, (oldsz + 4095) / 4096 <= w -> w < (oldsz + 4095) / 4096 + s.freelist.length ->
      w / 1024 ∈ tableSet s.mem d

/-- When `growproc` does what it says. -/
def Growable (slot : Nat) (n : Int) (s : Kernel) : Prop :=
  let p := s.ptable slot
  n = 0 ∨ (n < 0 /\ (p.sz.toNat = 0 ∨ 0 < p.sz.toNat + n)) ∨
    (0 < n /\ (KERNBASE <= p.sz.toNat + n ∨ supplyOf s p.dir p.sz.toNat (p.sz.toNat + n).toNat = .full ∨
      RunsOut s p.dir p.sz.toNat (p.sz.toNat + n).toNat))

section Growproc

variable [L : Layout] {ρ ρ' : Nat -> Role} {dirs : Finset Nat} {slot : Nat} {n : Word} {s t : Kernel}

/-- The process has the new size, and the processor runs on its page table again. -/
def resized (t : Kernel) (slot sz : Nat) : Kernel :=
  { t.setProc slot (fun p => { p with sz := BitVec.ofNat 32 sz }) with
    cr3 := (t.ptable slot).dir, tlb := fun _ _ => False }

omit L in
/-- What `growproc` does with the size that it is given. -/
theorem growproc_tail (some : (t.ptable slot).pgdir ≠ 0#32) (sz : Nat) :
    Ensures (if sz = 0 then return -1
      else do
        modifyProc slot (fun p => { p with sz := BitVec.ofNat 32 sz })
        switchuvm slot
        return 0 : K Int) t
      (fun result u =>
        result = (if sz = 0 then -1 else 0) /\ u = (if sz = 0 then t else resized t slot sz))
      (fun _ _ => False) := by
  by_cases zero : sz = 0
  · rw [if_pos zero, if_pos zero, if_pos zero, ensures_pure]
    exact ⟨rfl, rfl⟩
  · have same : ((t.setProc slot fun p => { p with sz := BitVec.ofNat 32 sz }).ptable slot) =
        { t.ptable slot with sz := BitVec.ofNat 32 sz } := Function.update_self ..
    rw [if_neg zero, if_neg zero, if_neg zero, ensures_bind, ensures_modifyProc, ensures_bind,
      ensures_switchuvm (by rw [same]; exact some), ensures_pure, same]
    exact ⟨rfl, rfl⟩

variable {sz d oldsz newsz : Nat}

theorem growproc_up (up : 0 < n.toInt) (some : (t.ptable slot).pgdir ≠ 0#32)
    (run : allocuvm (s.ptable slot).dir (s.ptable slot).sz.toNat ((s.ptable slot).sz + n).toNat s =
      .ok sz t) :
    growproc slot n s =
      .ok (if sz = 0 then -1 else 0) (if sz = 0 then t else resized t slot sz) := by
  apply Ensures.eq_ok
  rw [growproc, ensures_bind, ensures_getProc, if_pos up, ensures_bind, Ensures.iff_of_ok run]
  exact growproc_tail some sz

theorem growproc_down (down : n.toInt < 0) (some : (t.ptable slot).pgdir ≠ 0#32)
    (run : deallocuvm (s.ptable slot).dir (s.ptable slot).sz.toNat ((s.ptable slot).sz + n).toNat
      s = .ok sz t) :
    growproc slot n s =
      .ok (if sz = 0 then -1 else 0) (if sz = 0 then t else resized t slot sz) := by
  apply Ensures.eq_ok
  rw [growproc, ensures_bind, ensures_getProc, if_neg (by omega), if_pos down, ensures_bind,
    Ensures.iff_of_ok run]
  exact growproc_tail some sz

/-! ### Growing -/

omit L in
theorem sz_resized (t : Kernel) (slot : Nat) (small : sz < KERNBASE) :
    ((resized t slot sz).ptable slot).sz.toNat = sz := by
  have same : (resized t slot sz).ptable slot = { t.ptable slot with sz := BitVec.ofNat 32 sz } :=
    Function.update_self ..
  rw [same, BitVec.toNat_ofNat]
  exact Nat.mod_eq_of_lt (Nat.lt_trans small (by decide))

variable {change : Int}

theorem Resized.of_grown {new : Nat} (sound : Sound ρ (whole dirs) s) (sized : Sized dirs slot s)
    (sum : (new : Int) = (s.ptable slot).sz.toNat + change) (more : (s.ptable slot).sz.toNat <= new)
    (top : new < KERNBASE)
    (grown : Zeroed ρ ρ' dirs (s.ptable slot).dir (((s.ptable slot).sz.toNat + 4095) / 4096)
      ((new + 4095) / 4096) s t) : Resized slot change s (resized t slot new) := by
  have size := sz_resized t slot top
  have old : ∀ w, w < 0x80000 ->
      ¬ (((s.ptable slot).sz.toNat + 4095) / 4096 <= w /\ w < (new + 4095) / 4096) ->
      entry t.mem (s.ptable slot).dir w = entry s.mem (s.ptable slot).dir w :=
    fun w bound outside => grown.entries _ w sized.member (by omega) fun inside => outside inside.2
  unfold KERNBASE at top
  refine ⟨by rw [size]; exact sum, by rw [size]; exact top, ?_, ?_, ?_⟩
  · intro w bound
    rw [size]
    change target (entry t.mem _ w) ≠ none <-> _
    by_cases inside : ((s.ptable slot).sz.toNat + 4095) / 4096 <= w /\ w < (new + 4095) / 4096
    · rcases grown.added w inside.1 inside.2 with ⟨g, _, filled, _⟩
      rw [filled]
      exact ⟨fun _ => by omega, fun _ => nofun⟩
    · rw [old w bound inside, sized.mapped w bound]
      omega
  · intro w f before _ filled
    have below := sized.small
    unfold KERNBASE at below
    have used := sound.pages.page _ w f sized.member (by omega) (by rw [view_whole]; exact filled)
    refine ⟨?_, grown.grows.content f w used⟩
    change target (entry t.mem _ w) = _
    rw [old w (by omega) (by omega)]
    exact filled
  · intro w f above below filled
    rw [size] at below
    rcases grown.added w (by omega) (by omega) with ⟨g, _, filled', _, _, content⟩
    change target (entry t.mem _ w) = _ at filled
    rw [filled'] at filled
    cases filled
    exact content

omit L in
/-- Until the free pages are used up, no page table is missing. -/
theorem supply_of_runsOut {tables : Finset Nat} (more : Nat) : ∀ v free, free < more ->
    (∀ w, v <= w -> w < v + free -> w / 1024 ∈ tables) ->
    supply more tables v free = .fails false := by
  induction more with
  | zero => exact fun v free less => absurd less (Nat.not_lt_zero _)
  | succ more ih =>
    intro v free less tabled
    rw [supply]
    by_cases none : free = 0
    · rw [if_pos none]
    · rw [if_neg none, if_pos (tabled v le_rfl (by omega))]
      exact ih (v + 1) (free - 1) (by omega) fun w above below => tabled w (by omega) (by omega)

section

variable (sound : Sound ρ (whole dirs) s)

include sound

/-- A page table that a failed growth has left behind was a free page. -/
theorem free_of_new_table (after : Sound ρ' (whole dirs) t) {i : Nat} (member : d ∈ dirs)
    (restored : Restored ρ ρ' d s t) (none : ∀ f, ρ f ≠ .held) (now : i ∈ tableSet t.mem d)
    (before : i ∉ tableSet s.mem d) : ∃ f, f ∈ s.freelist /\ f ∉ t.freelist := by
  rcases mem_tableSet.mp now with ⟨index, present⟩
  rcases Option.ne_none_iff_exists'.mp present with ⟨f, found⟩
  have role := (after.tables.table d i f member index (by simp) found).1
  have free : ρ f = .free := by
    by_contra used
    have same := restored.roles f used (none f)
    rw [role] at same
    have old := (sound.tables.back f d i same.symm).2.2.2
    exact before (mem_tableSet.mpr ⟨index, by rw [old]; nofun⟩)
  refine ⟨f, (sound.frames.free_iff f).mpr free, fun listed => ?_⟩
  rw [(after.frames.free_iff f).mp listed] at role
  cases role

theorem RunsOut.of_same_free {mid : Nat} (after : Sound ρ' (whole dirs) t) (member : d ∈ dirs)
    (restored : Restored ρ ρ' d s t) (none : ∀ f, ρ f ≠ .held)
    (stop : FailedAt d ((oldsz + 4095) / 4096) mid ((newsz + 4095) / 4096) s t)
    (same : ∀ f, f ∈ t.freelist <-> f ∈ s.freelist) : RunsOut s d oldsz newsz := by
  have subset : tableSet t.mem d ⊆ tableSet s.mem d := by
    intro i now
    by_contra before
    rcases free_of_new_table sound after member restored none now before with ⟨f, listed, gone⟩
    exact gone ((same f).mpr listed)
  have tables := stop.tables
  have equal : tableSet t.mem d = tableSet s.mem d := by
    refine Finset.Subset.antisymm subset ?_
    rw [tables]
    exact Finset.subset_union_left
  have length := stop.length
  rw [equal] at length
  have above := stop.above
  have below := stop.below
  refine ⟨by omega, fun w first last => ?_⟩
  rw [<- equal, tables, Finset.mem_union, Finset.mem_image]
  exact .inr ⟨w, Finset.mem_Ico.mpr ⟨first, by omega⟩, rfl⟩

theorem Untouched.of_failed {mid : Nat} (member : (s.ptable slot).dir ∈ dirs)
    (failed : Failed ρ ρ' dirs (s.ptable slot).dir ((oldsz + 4095) / 4096) ((newsz + 4095) / 4096) s
      t) (restored : Restored ρ ρ' (s.ptable slot).dir s t)
    (noLeak : ∀ f, ρ' f = .held -> ρ f = .held)
    (stop : FailedAt (s.ptable slot).dir ((oldsz + 4095) / 4096) mid ((newsz + 4095) / 4096) s t)
    (out : RunsOut s (s.ptable slot).dir oldsz newsz) : Untouched dirs slot s t := by
  have after := failed.sound
  have entries : ∀ d w, d ∈ dirs -> w < 0x100000 -> entry t.mem d w = entry s.mem d w := by
    intro d w member' bound
    by_cases same : d = (s.ptable slot).dir
    · rw [same]
      exact restored.entries w bound
    · exact failed.keeps.entries d w ((sound.tables.dir_iff d).mpr member') same bound
  -- the growth stopped before it needed a page table
  have equal : tableSet t.mem (s.ptable slot).dir = tableSet s.mem (s.ptable slot).dir := by
    have more : tableSet s.mem (s.ptable slot).dir ⊆ tableSet t.mem (s.ptable slot).dir := by
      rw [stop.tables]
      exact Finset.subset_union_left
    have card := Finset.card_le_card more
    have length := stop.length
    rw [stop.tables]
    refine Finset.union_eq_left.mpr fun i new => ?_
    rcases Finset.mem_image.mp new with ⟨w, inside, rfl⟩
    rcases Finset.mem_Ico.mp inside with ⟨first, last⟩
    exact out.2 w first (by omega)
  refine ⟨by rw [failed.keeps.ptable], entries, ?_, fun f => ⟨fun listed => ?_, fun listed => ?_⟩⟩
  · intro d w f member' bound filled
    have used := sound.pages.page d w f member' bound (by rw [view_whole]; exact filled)
    have still := restored.roles f (by simp [used]) (by simp [used])
    rw [used] at still
    exact failed.content f w used still
  · exact (sound.frames.free_iff f).mpr (restored.taken f ((after.frames.free_iff f).mp listed))
  · rcases returned_of_restored sound after failed.keeps restored noLeak
      listed with back | ⟨i, index, found⟩
    · exact back
    · have known : i ∈ tableSet s.mem (s.ptable slot).dir := by
        rw [<- equal]
        exact mem_tableSet.mpr ⟨index, by rw [found]; nofun⟩
      rcases Option.ne_none_iff_exists'.mp (mem_tableSet.mp known).2 with ⟨g, old⟩
      have role := (sound.tables.table _ i g member index (by simp) old).1
      have still := restored.roles g (by simp [role]) (by simp [role])
      rw [role] at still
      have same := (after.tables.back g _ i still).2.2.2
      rw [found] at same
      cases same
      rw [(sound.frames.free_iff f).mp listed] at role
      cases role

/-! ### Shrinking -/

theorem deallocuvm_returns (member : d ∈ dirs)
    (less : newsz < oldsz) (top : oldsz < KERNBASE) (unshared : Unshared dirs d 0 oldsz s.mem) :
    ∃ t, deallocuvm d oldsz newsz s = .ok newsz t /\ ∃ ρ',
      Shrunk ρ ρ' dirs d (PGROUNDUP newsz) oldsz s t := by
  unfold KERNBASE at top
  have total : Ensures (deallocuvm d oldsz newsz) s (fun sz t => sz = newsz /\ ∃ ρ',
      Shrunk ρ ρ' dirs d (PGROUNDUP newsz) oldsz s t) (fun _ _ => False) := by
    rw [deallocuvm, if_neg (by omega), ensures_bind]
    refine (deallocuvmLoop_shrink member (by omega) oldsz ρ s (PGROUNDUP newsz) (by omega) ?_ sound
      ?_).imp ?_
    · rw [PGROUNDUP_eq (by omega)]
      omega
    · exact fun w f _ below => unshared w f (Nat.zero_le _) below
    · intro _ t shrunk
      rw [ensures_pure]
      exact ⟨rfl, shrunk⟩
  rcases total.exists_ok with ⟨_, t, run, rfl, shrunk⟩
  exact ⟨t, run, shrunk⟩

end

/-- All pages above the new size are gone. -/
theorem entry_of_shrunk {w : Nat} (sized : Sized dirs slot s)
    (shrunk : Shrunk ρ ρ' dirs (s.ptable slot).dir (PGROUNDUP newsz) (s.ptable slot).sz.toNat s t)
    (above : newsz <= w * 4096) (below : w * 4096 < (s.ptable slot).sz.toNat) :
    entry t.mem (s.ptable slot).dir w = 0#32 := by
  have top := sized.small
  unfold KERNBASE at top
  refine shrunk.cleared w ?_ below fun v _ last => ?_
  · rw [PGROUNDUP_eq (by omega)]
    omega
  · have inside : v * 4096 < (s.ptable slot).sz.toNat :=
      Nat.lt_of_le_of_lt (Nat.mul_le_mul_right 4096 last) below
    have present := (sized.mapped v (by omega)).mpr inside
    rcases Option.ne_none_iff_exists'.mp present with ⟨f, filled⟩
    rcases table_of_target filled with ⟨table, found⟩
    rw [found]
    nofun

theorem Resized.of_shrunk {new : Nat} (sized : Sized dirs slot s)
    (sum : (new : Int) = (s.ptable slot).sz.toNat + change) (less : new < (s.ptable slot).sz.toNat)
    (shrunk : Shrunk ρ ρ' dirs (s.ptable slot).dir (PGROUNDUP new) (s.ptable slot).sz.toNat s t) :
    Resized slot change s (resized t slot new) := by
  have top := sized.small
  have size := sz_resized t slot (less.trans top)
  unfold KERNBASE at top
  have old : ∀ w, w < 0x80000 -> ¬ (new <= w * 4096 /\ w * 4096 < (s.ptable slot).sz.toNat) ->
      entry t.mem (s.ptable slot).dir w = entry s.mem (s.ptable slot).dir w := by
    intro w bound outside
    rcases shrunk.entries w (by omega) with same | ⟨above, below, _⟩
    · exact same
    · rw [PGROUNDUP_eq (by omega)] at above
      omega
  refine ⟨by rw [size]; exact sum, by rw [size]; exact less.trans top, ?_, ?_, ?_⟩
  · intro w bound
    rw [size]
    change target (entry t.mem _ w) ≠ none <-> _
    by_cases inside : new <= w * 4096 /\ w * 4096 < (s.ptable slot).sz.toNat
    · rw [entry_of_shrunk sized shrunk inside.1 inside.2, target_zero]
      exact ⟨fun wrong => absurd rfl wrong, fun below => by omega⟩
    · rw [old w bound inside, sized.mapped w bound]
      omega
  · intro w f before now filled
    rw [size] at now
    have still : target (entry t.mem (s.ptable slot).dir w) = some f := by
      rw [old w (by omega) (by omega)]
      exact filled
    have used := shrunk.sound.pages.page _ w f sized.member (by omega) (by rw [view_whole]; exact still)
    exact ⟨still, shrunk.releases.content f w used⟩
  · intro w f above below
    rw [size] at below
    omega

/-! ### All sizes -/

omit L in
theorem Sized.switched (sized : Sized dirs slot s) :
    Resized slot 0 s { s with cr3 := (s.ptable slot).dir, tlb := fun _ _ => False } :=
  ⟨(Int.add_zero _).symm, sized.small, sized.mapped, fun _ _ _ _ filled => ⟨filled, rfl⟩,
    fun _ _ above below => absurd below (Nat.not_lt.mpr above)⟩

omit L in
theorem Untouched.refl (dirs : Finset Nat) (slot : Nat) (s : Kernel) : Untouched dirs slot s s :=
  ⟨rfl, fun _ _ _ _ => rfl, fun _ _ _ _ _ _ => rfl, fun _ => Iff.rfl⟩

/-- One run decides what holds of the result. -/
theorem done_iff {result : Int} (run : growproc slot n s = .ok result t) :
    (∃ result t, growproc slot n s = .ok result t /\ SbrkDone dirs slot change result s t) <->
      SbrkDone dirs slot change result s t := by
  constructor
  · rintro ⟨_, _, again, done⟩
    rw [run] at again
    cases again
    exact done
  · exact fun done => ⟨result, t, run, done⟩

omit L in
/-- The unsigned sum is the integer one when that is not negative. -/
theorem sum_eq {z : Word} (small : z.toNat < KERNBASE) (low : 0 <= (z.toNat : Int) + n.toInt) :
    ((z + n).toNat : Int) = z.toNat + n.toInt := by
  unfold KERNBASE at small
  rw [BitVec.toInt_eq_toNat_cond] at low ⊢
  rw [BitVec.toNat_add]
  have bound := n.isLt
  by_cases pos : 2 * n.toNat < 2 ^ 32
  · rw [if_pos pos] at low ⊢
    omega
  · rw [if_neg pos] at low ⊢
    omega

omit L in
/-- Otherwise it is far above every size. -/
theorem sum_wraps {z : Word} (small : z.toNat < KERNBASE) (low : (z.toNat : Int) + n.toInt < 0) :
    z.toNat <= (z + n).toNat := by
  unfold KERNBASE at small
  rw [BitVec.toInt_eq_toNat_cond] at low
  rw [BitVec.toNat_add]
  have bound := n.isLt
  by_cases pos : 2 * n.toNat < 2 ^ 32
  · rw [if_pos pos] at low
    omega
  · rw [if_neg pos] at low
    omega

omit L in
/-- The page that a growth by at least one page ends with. -/
theorem last_page (more : (oldsz + 4095) / 4096 < (newsz + 4095) / 4096) (top : newsz < KERNBASE) :
    ∃ w, w < 0x80000 /\ ((oldsz + 4095) / 4096 <= w /\ w < (newsz + 4095) / 4096) /\
      w * 4096 < newsz /\ ¬ w < (newsz + 4095) / 4096 - 1 := by
  unfold KERNBASE at top
  exact ⟨(newsz + 4095) / 4096 - 1, by omega, by omega, by omega, by omega⟩

section

variable (sound : Sound ρ (whole dirs) s)

include sound

theorem growproc_up_iff (sized : Sized dirs slot s) (up : 0 < n.toInt) :
    (∃ result t, growproc slot n s = .ok result t /\
      SbrkDone dirs slot n.toInt result s t) <-> Growable slot n.toInt s := by
  have some := sound.pgdir_ne sized.member
  have sum := sum_eq (n := n) sized.small (by omega)
  have new : ((s.ptable slot).sz.toNat + n.toInt).toNat = ((s.ptable slot).sz + n).toNat := by omega
  have growable : Growable slot n.toInt s <-> KERNBASE <= (s.ptable slot).sz.toNat + n.toInt ∨
      supplyOf s (s.ptable slot).dir (s.ptable slot).sz.toNat ((s.ptable slot).sz + n).toNat = .full ∨
      RunsOut s (s.ptable slot).dir (s.ptable slot).sz.toNat ((s.ptable slot).sz + n).toNat := by
    rw [<- new]
    constructor
    · rintro (zero | ⟨down, _⟩ | ⟨_, growable⟩)
      · omega
      · omega
      · exact growable
    · exact fun growable => .inr (.inr ⟨up, growable⟩)
  rw [growable]
  by_cases high : KERNBASE <= ((s.ptable slot).sz + n).toNat
  · have run : allocuvm (s.ptable slot).dir (s.ptable slot).sz.toNat ((s.ptable slot).sz + n).toNat
        s = .ok 0 s := by
      rw [allocuvm, if_pos high]
      rfl
    refine ⟨fun _ => .inl (by omega),
      fun _ => ⟨-1, s, growproc_up up some run, (by rintro ⟨⟩), fun _ => .refl dirs slot s⟩⟩
  · have shelved := sound.shelved
    have top : ((s.ptable slot).sz + n).toNat < KERNBASE := Nat.lt_of_not_le high
    have empty : ∀ w, ((s.ptable slot).sz.toNat + 4095) / 4096 <= w ->
        w < (((s.ptable slot).sz + n).toNat + 4095) / 4096 ->
          target (entry s.mem (s.ptable slot).dir w) = none := by
      intro w above below
      unfold KERNBASE at top
      by_contra present
      have inside := (sized.mapped w (by omega)).mp present
      omega
    rcases allocuvm_returns shelved sized.member (by omega) top empty with ⟨sz, t, run, ρ', done⟩
    have outcomes : (KERNBASE <= (s.ptable slot).sz.toNat + n.toInt ∨
        supplyOf s (s.ptable slot).dir (s.ptable slot).sz.toNat ((s.ptable slot).sz + n).toNat = .full ∨
        RunsOut s (s.ptable slot).dir (s.ptable slot).sz.toNat ((s.ptable slot).sz + n).toNat) ->
        supplyOf s (s.ptable slot).dir (s.ptable slot).sz.toNat ((s.ptable slot).sz + n).toNat = .full ∨
        supplyOf s (s.ptable slot).dir (s.ptable slot).sz.toNat ((s.ptable slot).sz + n).toNat =
          .fails false := by
      rintro (above | full | out)
      · omega
      · exact .inl full
      · exact .inr (supply_of_runsOut _ _ _ out.1 out.2)
    cases outcome : supplyOf s (s.ptable slot).dir (s.ptable slot).sz.toNat
      ((s.ptable slot).sz + n).toNat with
    | full =>
      rw [outcome] at done
      rcases done with ⟨rfl, grown⟩
      have whole := growproc_up up (by rw [grown.grows.keeps.ptable]; exact some) run
      have pos : ((s.ptable slot).sz + n).toNat ≠ 0 := by omega
      rw [if_neg pos, if_neg pos] at whole
      rw [done_iff whole]
      exact ⟨fun _ => .inr (.inl rfl),
        fun _ => ⟨fun _ => .of_grown shelved sized sum (by omega) top grown, (by rintro ⟨⟩)⟩⟩
    | hole =>
      rw [outcome] at done outcomes
      rcases done with ⟨rfl, more, partly, _⟩
      have whole := growproc_up up (by rw [partly.grows.keeps.ptable]; exact some) run
      have pos : ((s.ptable slot).sz + n).toNat ≠ 0 := by omega
      rw [if_neg pos, if_neg pos] at whole
      rw [done_iff whole]
      refine ⟨fun done => ?_, fun wrong => by rcases outcomes wrong with wrong | wrong <;> cases wrong⟩
      rcases last_page more top with ⟨w, bound, above, below, last⟩
      have present := ((done.1 rfl).mapped w bound).mpr (by rw [sz_resized t slot top]; exact below)
      refine absurd ?_ present
      change target (entry t.mem _ w) = none
      rw [partly.entries _ w sized.member (by omega) fun inside => last inside.2.2]
      exact empty w above.1 above.2
    | fails leaky =>
      rw [outcome] at done outcomes
      rcases done with ⟨rfl, failed, clean, leaks, restored⟩
      have whole := growproc_up up (by rw [failed.keeps.ptable]; exact some) run
      rw [if_pos rfl, if_pos rfl] at whole
      rw [done_iff whole]
      cases leaky with
      | false =>
        rcases clean rfl with ⟨noLeak, mid, stop⟩
        constructor
        · intro done
          exact .inr (.inr (.of_same_free shelved failed.sound sized.member (restored empty)
            (shelve_ne_held ρ) stop (done.2 rfl).free))
        · rintro (above | full | out)
          · omega
          · cases full
          · exact ⟨(by rintro ⟨⟩), fun _ =>
              .of_failed shelved sized.member failed (restored empty) noLeak stop out⟩
      | true =>
        refine ⟨fun done => ?_, fun wrong => by rcases outcomes wrong with wrong | wrong <;> cases wrong⟩
        rcases leaks rfl with ⟨f, free, held⟩
        have listed := ((done.2 rfl).free f).mpr ((shelved.frames.free_iff f).mpr free)
        rw [(failed.sound.frames.free_iff f).mp listed] at held
        cases held

theorem growproc_down_iff (sized : Sized dirs slot s) (down : n.toInt < 0) :
    (∃ result t, growproc slot n s = .ok result t /\
      SbrkDone dirs slot n.toInt result s t) <-> Growable slot n.toInt s := by
  have some := sound.pgdir_ne sized.member
  have growable : Growable slot n.toInt s <->
      (s.ptable slot).sz.toNat = 0 ∨ 0 < (s.ptable slot).sz.toNat + n.toInt := by
    constructor
    · rintro (zero | ⟨_, growable⟩ | ⟨up, _⟩)
      · omega
      · exact growable
      · omega
    · exact fun growable => .inr (.inl ⟨down, growable⟩)
  rw [growable]
  rcases Int.lt_trichotomy ((s.ptable slot).sz.toNat + n.toInt) 0 with below | zero | above
  · -- the unsigned sum is larger than the size, which is given back as it is
    have run : deallocuvm (s.ptable slot).dir (s.ptable slot).sz.toNat ((s.ptable slot).sz + n).toNat s =
        .ok (s.ptable slot).sz.toNat s := by
      rw [deallocuvm, if_pos (sum_wraps sized.small below)]
      rfl
    have whole := growproc_down down some run
    rw [done_iff whole]
    by_cases none : (s.ptable slot).sz.toNat = 0
    · rw [if_pos none, if_pos none]
      exact ⟨fun _ => .inl none, fun _ => ⟨(by rintro ⟨⟩), fun _ => .refl dirs slot s⟩⟩
    · rw [if_neg none, if_neg none]
      refine ⟨fun done => ?_, fun wrong => by omega⟩
      have size := (done.1 rfl).size
      rw [sz_resized s slot sized.small] at size
      omega
  · have sum := sum_eq (n := n) sized.small (by omega)
    by_cases none : (s.ptable slot).sz.toNat = 0
    · omega
    · rcases deallocuvm_returns sound sized.member
        (show ((s.ptable slot).sz + n).toNat < _ by omega) sized.small
        sized.unshared with ⟨t, run, ρ', shrunk⟩
      have kept : t.ptable = s.ptable := shrunk.releases.keeps.ptable
      have whole := growproc_down down (by rw [kept]; exact some) run
      have cleared : ((s.ptable slot).sz + n).toNat = 0 := by omega
      rw [if_pos cleared, if_pos cleared] at whole
      rw [done_iff whole]
      refine ⟨fun done => ?_, fun wrong => by omega⟩
      have pos : 0 * 4096 < (s.ptable slot).sz.toNat := by
        rw [Nat.zero_mul]
        exact Nat.pos_of_ne_zero none
      have same := (done.2 rfl).entries _ 0 sized.member (by decide)
      rw [entry_of_shrunk sized shrunk cleared.le pos] at same
      exact absurd (by rw [<- same, target_zero]) ((sized.mapped 0 (by decide)).mpr pos)
  · have sum := sum_eq (n := n) sized.small (by omega)
    rcases deallocuvm_returns sound sized.member (show ((s.ptable slot).sz + n).toNat < _ by omega)
      sized.small sized.unshared with ⟨t, run, ρ', shrunk⟩
    have kept : t.ptable = s.ptable := shrunk.releases.keeps.ptable
    have whole := growproc_down down (by rw [kept]; exact some) run
    have left : ((s.ptable slot).sz + n).toNat ≠ 0 := by omega
    rw [if_neg left, if_neg left] at whole
    rw [done_iff whole]
    exact ⟨fun _ => .inr above, fun _ =>
      ⟨fun _ => .of_shrunk sized sum (by omega) shrunk, (by rintro ⟨⟩)⟩⟩

theorem growproc_zero (sized : Sized dirs slot s) (zero : n.toInt = 0) :
    growproc slot n s = .ok 0 { s with cr3 := (s.ptable slot).dir, tlb := fun _ _ => False } := by
  apply Ensures.eq_ok
  rw [growproc, ensures_bind, ensures_getProc, if_neg (by omega), if_neg (by omega), ensures_bind,
    ensures_switchuvm (sound.pgdir_ne sized.member), ensures_pure]
  exact ⟨rfl, rfl⟩

end

/-- `growproc` does what it says, or nothing, exactly for these sizes and free pages. -/
theorem growproc_exact_iff (sound : Sound ρ (whole dirs) s) (sized : Sized dirs slot s) (n : Word) :
    (∃ result t, growproc slot n s = .ok result t /\
      SbrkDone dirs slot n.toInt result s t) <-> Growable slot n.toInt s := by
  rcases Int.lt_trichotomy n.toInt 0 with down | zero | up
  · exact growproc_down_iff sound sized down
  · refine ⟨fun _ => .inl zero, fun _ => ⟨0, _, growproc_zero sound sized zero, fun _ => ?_, nofun⟩⟩
    rw [zero]
    exact sized.switched
  · exact growproc_up_iff sound sized up

end Growproc

theorem bare_sized (freelist : List Nat) : Sized {0x300} 0 (bare freelist) := by
  have none : ∀ w, target (entry (bare freelist).mem ((bare freelist).ptable 0).dir w) = none := by
    intro w
    rw [entry_bare, target_zero]
  have size : ((bare freelist).ptable 0).sz.toNat = 0 := rfl
  refine ⟨Finset.mem_singleton.mpr ?_, by rw [size]; decide, fun w _ => ?_, fun w f _ _ filled => ?_⟩
  · change kernelFrame 0x80300000#32 = 0x300
    decide
  · rw [none, size]
    simp
  · rw [none] at filled
    cases filled

theorem growproc_exact_page : ∃ result t,
    growproc (L := kernelSym) 0 4096#32 (bare [0x301, 0x302]) = .ok result t /\
      SbrkDone {0x300} 0 4096 result (bare [0x301, 0x302]) t := by
  have sound : Sound (L := kernelSym) (bareRole [0x301, 0x302]) (whole {0x300}) (bare [0x301, 0x302]) :=
    bare_sound (L := kernelSym) (by decide) (by decide) (by decide)
  refine (growproc_exact_iff (L := kernelSym) sound (bare_sized _) 4096#32).mpr (.inr (.inr ⟨?_, ?_⟩))
  · decide
  · right
    left
    rw [supplyOf, tableSet_bare]
    decide

/-- `sbrk(4096)` with one free page reports success, and the new page is not there. -/
theorem growproc_reports_missing_page : ∃ t,
    growproc (L := kernelSym) 0 4096#32 (bare [0x301]) = .ok 0 t /\
    ¬ SbrkDone {0x300} 0 4096 0 (bare [0x301]) t := by
  rcases bare_missing_page (L := kernelSym) (by decide) with ⟨t, run, kept, absent⟩
  have whole : growproc (L := kernelSym) 0 4096#32 (bare [0x301]) = .ok 0 (resized t 0 4096) := by
    have called : allocuvm (L := kernelSym) ((bare [0x301]).ptable 0).dir
        ((bare [0x301]).ptable 0).sz.toNat
        (((bare [0x301]).ptable 0).sz + 4096#32).toNat (bare [0x301]) = .ok 4096 t := run
    refine growproc_up (L := kernelSym) (n := 4096#32) (by decide) ?_ called
    rw [kept]
    decide
  refine ⟨_, whole, fun all => ?_⟩
  refine ((all.1 rfl).mapped 0 (by decide)).mpr ?_ absent
  rw [sz_resized t 0 (by decide)]
  decide

end Xv6.System
