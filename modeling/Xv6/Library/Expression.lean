import Mathlib.Computability.Language

namespace Xv6.Library

open Computability

/-!
# Sequences of letters and of repeated letters

An item names a class of letters.  It stands for one letter of the class, or for
any number of letters of the class.  A sequence of items denotes a regular
language over the letters.
-/

inductive Item (κ : Type) where
  | once (k : κ)
  | many (k : κ)
  deriving DecidableEq, Repr

namespace Item

variable {κ α : Type}

/-- The words of one letter of a class. -/
def letter (accepts : κ -> α -> Prop) (k : κ) : Language α :=
  { word | ∃ a, accepts k a /\ word = [a] }

def language (accepts : κ -> α -> Prop) : Item κ -> Language α
  | .once k => letter accepts k
  | .many k => (letter accepts k)∗

/-- The language of a sequence of items. -/
def words (accepts : κ -> α -> Prop) (items : List (Item κ)) : Language α :=
  (items.map (language accepts)).prod

variable {accepts : κ -> α -> Prop} {k : κ} {items : List (Item κ)} {word : List α}

theorem mem_letter : word ∈ letter accepts k <-> ∃ a, accepts k a /\ word = [a] := Iff.rfl

/-- A repeated letter is a word all of whose letters are of the class. -/
theorem mem_many : word ∈ (letter accepts k)∗ <-> ∀ a, a ∈ word -> accepts k a := by
  rw [Language.mem_kstar]
  constructor
  · rintro ⟨parts, rfl, letters⟩ a listed
    rcases List.mem_flatten.mp listed with ⟨part, inside, found⟩
    rcases mem_letter.mp (letters part inside) with ⟨b, accepted, rfl⟩
    rw [List.mem_singleton.mp found]
    exact accepted
  · intro accepted
    refine ⟨word.map fun a => [a], ?_, ?_⟩
    · induction word with
      | nil => rfl
      | cons a rest ih =>
        rw [List.map_cons, List.flatten_cons,
          ← ih fun b listed => accepted b (List.mem_cons_of_mem a listed), List.singleton_append]
    · intro part inside
      rcases List.mem_map.mp inside with ⟨a, listed, rfl⟩
      exact mem_letter.mpr ⟨a, accepted a listed, rfl⟩

theorem mem_words_nil : word ∈ words accepts [] <-> word = [] := Language.mem_one word

theorem mem_words_once : word ∈ words accepts (.once k :: items) <->
    ∃ a rest, word = a :: rest /\ accepts k a /\ rest ∈ words accepts items := by
  rw [words, List.map_cons, List.prod_cons, Language.mem_mul]
  constructor
  · rintro ⟨first, single, rest, others, rfl⟩
    rcases mem_letter.mp single with ⟨a, accepted, rfl⟩
    exact ⟨a, rest, rfl, accepted, others⟩
  · rintro ⟨a, rest, rfl, accepted, others⟩
    exact ⟨[a], mem_letter.mpr ⟨a, accepted, rfl⟩, rest, others, rfl⟩

theorem mem_words_many : word ∈ words accepts (.many k :: items) <->
    ∃ run rest,
      word = run ++ rest /\ (∀ a, a ∈ run -> accepts k a) /\ rest ∈ words accepts items := by
  rw [words, List.map_cons, List.prod_cons, Language.mem_mul]
  constructor
  · rintro ⟨run, repeated, rest, others, rfl⟩
    exact ⟨run, rest, rfl, mem_many.mp repeated, others⟩
  · rintro ⟨run, rest, rfl, repeated, others⟩
    exact ⟨run, mem_many.mpr repeated, rest, others, rfl⟩

end Item

end Xv6.Library
