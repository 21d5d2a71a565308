import Mathlib.Logic.Basic

namespace Xv6.Library

/-!
# Guarded runs of a transition system

A system is a relation `step first label next`.  A *guarded run* takes labels
one after the other, and each label meets a guard in the state where it is
taken.  The guard is what a theorem about runs may ask of the environment: it
reads the state before the step and the label, never the state after it.

An assertion that holds at the start and is kept by every guarded step holds
at the end of every guarded run, and so in every state such a run passes
through.
-/

variable {σ ι : Type}

/-- A run of `step` from `first` to `last` along `labels`, each of which meets
`guard` in the state where it is taken. -/
inductive GuardedRun (step : σ -> ι -> σ -> Prop) (guard : σ -> ι -> Prop) :
    σ -> List ι -> σ -> Prop
  | nil (state : σ) : GuardedRun step guard state [] state
  | cons {first middle last : σ} {label : ι} {labels : List ι} (allowed : guard first label)
      (taken : step first label middle) (rest : GuardedRun step guard middle labels last) :
      GuardedRun step guard first (label :: labels) last

/-- The state after the labels, if `perform` can take them and each of them meets the guard. -/
def checked (guard : σ -> ι -> Prop) [∀ state label, Decidable (guard state label)]
    (perform : σ -> ι -> Option σ) (first : σ) (labels : List ι) : Option σ :=
  labels.foldlM (fun state label => if guard state label then perform state label else none) first

namespace GuardedRun

variable {step : σ -> ι -> σ -> Prop} {guard weaker : σ -> ι -> Prop} {first last : σ}
  {labels : List ι}

/-- The invariant rule. -/
theorem invariant {holds : σ -> Prop}
    (kept : ∀ state label next, guard state label -> step state label next ->
      holds state -> holds next)
    (run : GuardedRun step guard first labels last) (start : holds first) : holds last := by
  induction run with
  | nil => exact start
  | cons allowed taken _ ih =>
    exact ih (kept _ _ _ allowed taken start)

/-- The invariant rule with the labels taken so far. -/
theorem history (holds : σ -> List ι -> Prop)
    (kept : ∀ state past label next, guard state label -> step state label next ->
      holds state past -> holds next (past ++ [label]))
    (run : GuardedRun step guard first labels last) :
    ∀ past, holds first past -> holds last (past ++ labels) := by
  induction run with
  | nil =>
    intro past start
    rw [List.append_nil]
    exact start
  | cons allowed taken _ ih =>
    intro past start
    have later := ih _ (kept _ _ _ _ allowed taken start)
    rwa [List.append_assoc] at later

/-- A guarded run remains one under a weaker guard. -/
theorem weaken (implied : ∀ state label, guard state label -> weaker state label)
    (run : GuardedRun step guard first labels last) : GuardedRun step weaker first labels last := by
  induction run with
  | nil state => exact .nil state
  | cons allowed taken _ ih =>
    exact .cons (implied _ _ allowed) taken ih

/-- A guarded run is one of any system that has the steps. -/
theorem imp {other : σ -> ι -> σ -> Prop}
    (implied : ∀ state label next, step state label next -> other state label next)
    (run : GuardedRun step guard first labels last) : GuardedRun other guard first labels last := by
  induction run with
  | nil state => exact .nil state
  | cons allowed taken _ ih =>
    exact .cons allowed (implied _ _ _ taken) ih

/-- The steps are those of a partial function, and the guard is checked along the way. -/
theorem of_checked {perform : σ -> ι -> Option σ} [∀ state label, Decidable (guard state label)]
    (done : checked guard perform first labels = some last) :
    GuardedRun (fun state label next => perform state label = some next) guard first labels
      last := by
  induction labels generalizing first with
  | nil =>
    cases done
    exact .nil last
  | cons label labels ih =>
    rw [checked, List.foldlM_cons] at done
    rcases Option.bind_eq_some_iff.mp done with ⟨middle, here, later⟩
    rcases Option.ite_none_right_eq_some.mp here with ⟨allowed, taken⟩
    exact .cons allowed taken (ih later)

/-- The simulation rule: a deterministic system that answers every step goes along with the run. -/
theorem simulate {ρ : Type} {answer : ρ -> ι -> Option ρ} {related : σ -> ρ -> Prop}
    (kept : ∀ state label next mate, guard state label -> step state label next ->
      related state mate -> ∃ mate', answer mate label = some mate' /\ related next mate')
    (run : GuardedRun step guard first labels last) {mate : ρ} (start : related first mate) :
    ∃ mate', labels.foldlM answer mate = some mate' /\ related last mate' := by
  induction run generalizing mate with
  | nil => exact ⟨mate, rfl, start⟩
  | cons allowed taken _ ih =>
    rcases kept _ _ _ mate allowed taken start with ⟨middle, answered, relates⟩
    rcases ih relates with ⟨mate', rest, relates'⟩
    refine ⟨mate', ?_, relates'⟩
    rw [List.foldlM_cons, answered]
    exact rest

end GuardedRun

end Xv6.Library
