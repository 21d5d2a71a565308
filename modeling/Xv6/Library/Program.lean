import Mathlib.Logic.Basic

namespace Xv6.Library

/-!
# Programs over a state that may stop

A program of type `EStateM ε σ α` takes a state, and either returns a value
with a new state or stops for a reason with the state at that point.  The one
judgement used here is `Ensures`: from a given state, every return satisfies
one assertion and every stop another.  Taking the second assertion to be false
gives total correctness, taking it to be true gives partial correctness, and
anything between says for which reasons a program may stop.

The rules are stated as equivalences, so that a goal about a sequence of
commands rewrites to a goal about its first command.  A command which has a
specification of its own is passed by `Ensures.mono`.
-/

variable {ε σ α β : Type}

/-- What a run of `program` from `state` establishes: `returned` of its value
and final state, or `stopped` of the reason and the state where it stopped.  A
proof goes through the rules below; unfolded, the judgement would run the
program. -/
@[irreducible] def Ensures (program : EStateM ε σ α) (state : σ) (returned : α -> σ -> Prop)
    (stopped : ε -> σ -> Prop) : Prop :=
  match program state with
  | .ok value after => returned value after
  | .error reason after => stopped reason after

/-! ## Rules for the commands -/

@[simp] theorem ensures_pure (value : α) (state : σ) (returned : α -> σ -> Prop)
    (stopped : ε -> σ -> Prop) :
    Ensures (pure value) state returned stopped <-> returned value state := by
  unfold Ensures
  rfl

@[simp] theorem ensures_throw (reason : ε) (state : σ) (returned : α -> σ -> Prop)
    (stopped : ε -> σ -> Prop) :
    Ensures (throw reason) state returned stopped <-> stopped reason state := by
  unfold Ensures
  rfl

@[simp] theorem ensures_get (state : σ) (returned : σ -> σ -> Prop) (stopped : ε -> σ -> Prop) :
    Ensures get state returned stopped <-> returned state state := by
  unfold Ensures
  rfl

@[simp] theorem ensures_modify (change : σ -> σ) (state : σ) (returned : PUnit -> σ -> Prop)
    (stopped : ε -> σ -> Prop) :
    Ensures (modify change) state returned stopped <-> returned PUnit.unit (change state) := by
  unfold Ensures
  rfl

@[simp] theorem ensures_bind (first : EStateM ε σ α) (next : α -> EStateM ε σ β) (state : σ)
    (returned : β -> σ -> Prop) (stopped : ε -> σ -> Prop) :
    Ensures (first >>= next) state returned stopped <->
      Ensures first state (fun value after => Ensures (next value) after returned stopped)
        stopped := by
  unfold Ensures
  change (match EStateM.bind first next state with
    | .ok value after => returned value after
    | .error reason after => stopped reason after) <-> _
  unfold EStateM.bind
  cases first state <;> rfl

theorem ensures_ite (condition : Prop) [Decidable condition] (yes no : EStateM ε σ α) (state : σ)
    (returned : α -> σ -> Prop) (stopped : ε -> σ -> Prop) :
    Ensures (if condition then yes else no) state returned stopped <->
      (condition -> Ensures yes state returned stopped) /\
        (¬ condition -> Ensures no state returned stopped) := by
  by_cases holds : condition
  · rw [if_pos holds]
    exact ⟨fun taken => ⟨fun _ => taken, fun refused => absurd holds refused⟩, fun parts => parts.1 holds⟩
  · rw [if_neg holds]
    exact ⟨fun taken => ⟨fun accepted => absurd accepted holds, fun _ => taken⟩,
      fun parts => parts.2 holds⟩

namespace Ensures

variable {program : EStateM ε σ α} {state : σ}
variable {returned weaker : α -> σ -> Prop} {stopped wider : ε -> σ -> Prop} {after : σ} {value : α}

section

variable (established : Ensures program state returned stopped)

include established

/-- The consequence rule, which is how a specification is used by a caller. -/
theorem mono (onReturn : ∀ value after, returned value after -> weaker value after)
    (onStop : ∀ reason after, stopped reason after -> wider reason after) :
    Ensures program state weaker wider := by
  unfold Ensures at established ⊢
  cases outcome : program state with
  | ok value after => rw [outcome] at established; exact onReturn value after established
  | error reason after => rw [outcome] at established; exact onStop reason after established

theorem imp (onReturn : ∀ value after, returned value after -> weaker value after) :
    Ensures program state weaker stopped :=
  established.mono onReturn fun _ _ same => same

omit established in
/-- What is true of every outcome. -/
theorem of_forall (onReturn : ∀ value after, returned value after)
    (onStop : ∀ reason after, stopped reason after) : Ensures program state returned stopped := by
  unfold Ensures
  cases program state with
  | ok value after => exact onReturn value after
  | error reason after => exact onStop reason after

/-- Read the first assertion at an actual return. -/
theorem of_ok (outcome : program state = .ok value after) : returned value after := by
  unfold Ensures at established
  rw [outcome] at established
  exact established

/-- Read the second assertion at an actual stop. -/
theorem of_error {reason : ε}
    (outcome : program state = .error reason after) : stopped reason after := by
  unfold Ensures at established
  rw [outcome] at established
  exact established

end

/-- A run that is known settles every specification. -/
theorem iff_of_ok (outcome : program state = .ok value after) :
    Ensures program state returned stopped <-> returned value after := by
  unfold Ensures
  rw [outcome]

/-- A program that cannot stop does return. -/
theorem exists_ok (established : Ensures program state returned (fun _ _ => False)) :
    ∃ value after, program state = .ok value after /\ returned value after := by
  unfold Ensures at established
  cases outcome : program state with
  | ok value after => rw [outcome] at established; exact ⟨value, after, rfl, established⟩
  | error reason after => rw [outcome] at established; exact established.elim

/-- A program that can only return one value in one state. -/
theorem eq_ok
    (established : Ensures program state (fun other last => other = value /\ last = after)
      (fun _ _ => False)) : program state = .ok value after := by
  rcases exists_ok established with ⟨_, _, outcome, rfl, rfl⟩
  exact outcome

end Ensures

/-! ## Assertions that a program keeps -/

/-- From every state in which `holds`, the program returns to such a state or
stops for an accepted reason. -/
def Maintains (holds : σ -> Prop) (accepted : ε -> Prop) (program : EStateM ε σ α) : Prop :=
  ∀ state, holds state -> Ensures program state (fun _ after => holds after)
    (fun reason _ => accepted reason)

namespace Maintains

variable {holds : σ -> Prop} {accepted : ε -> Prop}

theorem pure (value : α) : Maintains holds accepted (pure value) := by
  intro state start
  rwa [ensures_pure]

theorem bind {first : EStateM ε σ α} {next : α -> EStateM ε σ β}
    (one : Maintains holds accepted first) (two : ∀ value, Maintains holds accepted (next value)) :
    Maintains holds accepted (first >>= next) := by
  intro state start
  rw [ensures_bind]
  exact (one state start).mono (fun value after => two value after) (fun _ _ fine => fine)

/-- What the rest of a program does may depend on the state that it reads. -/
theorem get_bind {next : σ -> EStateM ε σ α}
    (rest : ∀ state, holds state -> Ensures (next state) state (fun _ after => holds after)
      (fun reason _ => accepted reason)) : Maintains holds accepted (get >>= next) := by
  intro state start
  rw [ensures_bind, ensures_get]
  exact rest state start

end Maintains

end Xv6.Library
