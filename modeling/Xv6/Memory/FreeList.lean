import Mathlib.Data.List.Infix
import Mathlib.Logic.Relation
import Xv6.System.FaultType

namespace Xv6.Memory

open Library Machine
open Function

/-!
# The free list in the free pages, `kalloc.c`

In the source the first word of a free page points to the next one, and `kalloc`
follows that pointer.  The model has the list beside the pages.  Both are the
same list as long as no free page is freed or stored into.
-/

/-- Each free page points to the next one, and none is listed twice. -/
structure Spelled (s : Kernel) : Prop where
  link : ∀ frame rest, frame :: rest <:+ s.freelist ->
    s.mem frame 0 = (rest.head?.map kernelPage).getD 0#32
  nodup : s.freelist.Nodup

variable {s t : Kernel}

/-- A change of another page keeps the links. -/
theorem Spelled.link_update (spelled : Spelled s) {frame g : Nat} {rest : List Nat}
    (apart : frame ∉ s.freelist) (listed : g :: rest <:+ s.freelist) (page : Nat -> Word) :
    Function.update s.mem frame page g 0 = (rest.head?.map kernelPage).getD 0#32 := by
  have other : g ≠ frame := by
    rintro rfl
    exact apart (listed.subset List.mem_cons_self)
  rw [update_of_ne other, spelled.link g rest listed]

variable [L : Layout]

/-- Calls of the allocator, and stores into pages that are not free. -/
inductive Step (s t : Kernel) : Prop
  | kalloc (result : Option Nat) : kalloc s = .ok result t -> Step s t
  | kfree (frame : Nat) : frame ∉ s.freelist -> kfree frame s = .ok () t -> Step s t
  | store (frame index : Nat) (value : Word) : frame ∉ s.freelist ->
    writeWord frame index value s = .ok () t -> Step s t

theorem Spelled.step (spelled : Spelled s) (step : Step s t) : Spelled t := by
  cases step with
  | store frame index value apart run =>
    cases run
    exact ⟨fun g rest listed => spelled.link_update apart listed _, spelled.nodup⟩
  | kalloc result run =>
    have kept : Ensures kalloc s (fun _ t => Spelled t) fun _ _ => True := by
      refine kalloc_rule (fun _ => spelled) fun frame rest list => ?_
      have shorter : rest <:+ s.freelist := list ▸ List.suffix_cons frame rest
      exact ⟨fun g _ listed => spelled.link g _ (listed.trans shorter),
        spelled.nodup.sublist shorter.sublist⟩
    exact kept.of_ok run
  | kfree frame apart run =>
    have kept : Ensures (kfree frame) s (fun _ t => Spelled t) fun _ _ => True := by
      rw [kfree]
      split
      · rw [ensures_throw]
        trivial
      · rw [ensures_bind, ensures_get, ensures_bind, ensures_writePage, ensures_modify]
        refine ⟨fun g rest listed => ?_, List.nodup_cons.mpr ⟨apart, spelled.nodup⟩⟩
        rcases List.suffix_cons_iff.mp listed with same | later
        · cases same
          exact congrFun (update_self frame (freedPage s.freelist) s.mem) 0
        · exact spelled.link_update apart later _
    exact kept.of_ok run

/-- The links in memory are the list of the model after every run, so `kalloc` may follow them. -/
theorem freelist_spelled (run : Relation.ReflTransGen Step s t)
    (start : Spelled s) : Spelled t := by
  induction run with
  | refl => exact start
  | tail _ step spelled => exact spelled.step step

omit L in
theorem freelist_spelled_two : ∃ t : Kernel, Spelled t /\ t.freelist = [0x302, 0x301] := by
  let once := freed System.onePage 0x301
  have first : Step (L := kernelSym) System.onePage once :=
    Step.kfree (L := kernelSym) 0x301 List.not_mem_nil rfl
  have second : Step (L := kernelSym) once (freed once 0x302) :=
    Step.kfree (L := kernelSym) 0x302 (by decide) rfl
  refine ⟨_, freelist_spelled (L := kernelSym) (.tail (.single first) second)
    ⟨fun frame rest listed => ?_, List.nodup_nil⟩, rfl⟩
  cases List.eq_nil_of_suffix_nil listed

end Xv6.Memory
