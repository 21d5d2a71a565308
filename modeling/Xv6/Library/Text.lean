import Mathlib.Data.List.Basic

namespace Xv6.Library

/-!
# Texts in fields of a fixed width

A field is a sequence of characters.  The *text* in its first `n` characters
ends before the first terminator, and is all of them when there is none.  A
text of `n` characters therefore has no terminator.
-/

variable {α : Type} [DecidableEq α]

/-- The text in the first `n` characters of a field. -/
def text (stop : α) : Nat -> (Nat -> α) -> List α
  | 0, _ => []
  | n + 1, field => if field 0 = stop then [] else field 0 :: text stop n fun k => field (k + 1)

namespace Text

variable {stop : α}

/-- A field that starts with `chars`, and ends there or is full, has the text `chars`. -/
theorem eq_of_starts (chars : List α) : ∀ {n : Nat} {field : Nat -> α}, chars.length <= n ->
    (∀ k, k < chars.length -> chars[k]? = some (field k)) -> (∀ c, c ∈ chars -> c ≠ stop) ->
    (chars.length < n -> field chars.length = stop) -> text stop n field = chars := by
  induction chars with
  | nil =>
    intro n field _ _ _ ends
    cases n with
    | zero => rfl
    | succ n => exact if_pos (ends (Nat.succ_pos n))
  | cons c rest ih =>
    intro n field fits starts nonzero ends
    cases n with
    | zero => cases fits
    | succ n =>
      have first : c = field 0 := Option.some.inj (starts 0 (Nat.succ_pos _))
      have used : field 0 ≠ stop := first ▸ nonzero c List.mem_cons_self
      rw [text, if_neg used, first]
      congr 1
      apply ih (Nat.le_of_succ_le_succ fits)
      · intro k below
        exact starts (k + 1) (Nat.succ_lt_succ below)
      · intro d listed
        exact nonzero d (List.mem_cons_of_mem _ listed)
      · intro short
        exact ends (Nat.succ_lt_succ short)

/-- The text depends on the characters of the field only. -/
theorem congr (n : Nat) : ∀ {field other : Nat -> α}, (∀ k, k < n -> field k = other k) ->
    text stop n field = text stop n other := by
  induction n with
  | zero => exact fun _ => rfl
  | succ n ih =>
    intro field other same
    rw [text, text, same 0 (Nat.succ_pos n)]
    split
    next => rfl
    next =>
      congr 1
      exact ih fun k below => same (k + 1) (Nat.succ_lt_succ below)

end Text
end Xv6.Library
