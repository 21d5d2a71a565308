import Xv6.Library.Expression

namespace Xv6.Grep

open Library

/-!
# The matcher of `grep`

`match`, `matchhere` and `matchstar` of `grep.c`.  A pointer into a string is the
list of the characters from there on, and the string ends before the first NUL.
The three functions decide whether a part of the text is in the language of the
pattern.
-/

def NUL : Char := Char.ofNat 0

/-- The character that a pointer points at. -/
def char (s : List Char) : Char := s.headD NUL

theorem ne_nil_of_char {s : List Char} (used : char s ≠ NUL) : s ≠ [] := by
  rintro rfl
  exact used rfl

theorem tail_shorter {s : List Char} (used : char s ≠ NUL) : s.tail.length < s.length := by
  rw [List.length_tail]
  have some := List.length_pos_iff.mpr (ne_nil_of_char used)
  omega

mutual

def matchhere (re text : List Char) : Bool :=
  if _end : char re = NUL then
    true
  else if char re.tail = '*' then
    matchstar (char re) re.tail.tail text
  else if char re = '$' /\ char re.tail = NUL then
    decide (char text = NUL)
  else if char text ≠ NUL /\ (char re = '.' ∨ char re = char text) then
    matchhere re.tail text.tail
  else
    false
termination_by (re.length, text.length, 0)
decreasing_by
  · have shorter := tail_shorter _end
    simp only [List.length_tail] at shorter ⊢
    exact Prod.Lex.left _ _ (by omega)
  · exact Prod.Lex.left _ _ (tail_shorter _end)

def matchstar (c : Char) (re text : List Char) : Bool :=
  if matchhere re text then
    true
  else if _more : char text ≠ NUL /\ (char text = c ∨ c = '.') then
    matchstar c re text.tail
  else
    false
termination_by (re.length, text.length, 1)
decreasing_by
  · exact Prod.Lex.right _ (Prod.Lex.right _ (by decide))
  · exact Prod.Lex.right _ (Prod.Lex.left _ _ (tail_shorter _more.1))

end

/-- The loop of `match`, which also looks at the empty string. -/
def matchLoop (re text : List Char) : Bool :=
  if matchhere re text then
    true
  else if _more : char text ≠ NUL then
    matchLoop re text.tail
  else
    false
termination_by text.length
decreasing_by exact tail_shorter _more

def match' (re text : List Char) : Bool :=
  if char re = '^' then matchhere re.tail text else matchLoop re text

/-! ## The language of a pattern -/

/-- The string at a pointer. -/
def string (s : List Char) : List Char := s.takeWhile fun c => c ≠ NUL

/-- The characters that a character of a pattern stands for. -/
def accepts (c a : Char) : Prop := c = '.' ∨ c = a

/-- A pattern without its anchors, read from left to right. -/
def reading : List Char -> List (Item Char)
  | [] => []
  | [c] => [.once c]
  | c :: d :: re => if d = '*' then .many c :: reading re else .once c :: reading (d :: re)

/-- A pattern without the `$` at its end. -/
def open' (re : List Char) : List Char := if re.getLast? = some '$' then re.dropLast else re

/-- A pattern without its anchors. -/
def inner (re : List Char) : List Char := open' (if re.head? = some '^' then re.tail else re)

/-- A part of the text is in the language of the pattern, at the start or the
end of the text where the pattern is anchored. -/
def Matches (re text : List Char) : Prop :=
  ∃ before part after,
    text = before ++ part ++ after /\ part ∈ Item.words accepts (reading (inner re)) /\
      (re.head? = some '^' -> before = []) /\ (re.getLast? = some '$' -> after = [])

/-- The text starts with a word of the pattern. -/
def Begins (re text : List Char) : Prop :=
  ∃ part after,
    text = part ++ after /\ part ∈ Item.words accepts (reading (open' re)) /\
      (re.getLast? = some '$' -> after = [])

/-! ## The cases of a pattern -/

section Cases

variable {c : Char} {re text : List Char}

theorem open_cons (some : re ≠ []) : open' (c :: re) = c :: open' re := by
  unfold open'
  rw [List.getLast?_cons_of_ne_nil some, List.dropLast_cons_of_ne_nil some]
  split
  · rfl
  · rfl

theorem open_single (other : c ≠ '$') : open' [c] = [c] := by
  unfold open'
  rw [if_neg]
  simpa using other

theorem begins_nil (text : List Char) : Begins [] text :=
  ⟨[], text, rfl, Item.mem_words_nil.mpr rfl, fun impossible => by cases impossible⟩

theorem begins_end : Begins ['$'] text <-> text = [] := by
  constructor
  · rintro ⟨part, after, rfl, inside, ends⟩
    rw [ends rfl, Item.mem_words_nil.mp inside, List.append_nil]
  · rintro rfl
    exact ⟨[], [], rfl, Item.mem_words_nil.mpr rfl, fun _ => rfl⟩

/-- The rest of a pattern after its first items. -/
theorem begins_of_items {items : List (Item Char)} (same : reading (open' re) = items) :
    Begins re text <-> ∃ part after,
      text = part ++ after /\ part ∈ Item.words accepts items /\
      (re.getLast? = some '$' -> after = []) := by
  rw [<- same]
  rfl

theorem reading_star : reading (open' (c :: '*' :: re)) = .many c :: reading (open' re) := by
  rw [open_cons (List.cons_ne_nil '*' re)]
  cases re with
  | nil => rw [open_single (by decide), reading, if_pos rfl]; rfl
  | cons d rest => rw [open_cons (List.cons_ne_nil d rest), reading, if_pos rfl]

theorem getLast_star : (c :: '*' :: re).getLast? = some '$' <-> re.getLast? = some '$' := by
  cases re with
  | nil => simp
  | cons d rest => simp [List.getLast?_cons_cons]

/-- A starred character takes any number of characters. -/
theorem begins_star : Begins (c :: '*' :: re) text <->
    ∃ run rest, text = run ++ rest /\ (∀ a, a ∈ run -> accepts c a) /\ Begins re rest := by
  rw [begins_of_items reading_star]
  constructor
  · rintro ⟨part, after, rfl, inside, ends⟩
    rcases Item.mem_words_many.mp inside with ⟨run, rest, rfl, accepted, others⟩
    exact ⟨run, rest ++ after, List.append_assoc .., accepted, rest, after, rfl, others, fun last =>
      ends (getLast_star.mpr last)⟩
  · rintro ⟨run, _, rfl, accepted, part, after, rfl, others, ends⟩
    exact ⟨run ++ part, after, (List.append_assoc ..).symm,
      Item.mem_words_many.mpr ⟨run, part, rfl, accepted, others⟩,
      fun last => ends (getLast_star.mp last)⟩

theorem reading_once (plain : re.head? ≠ some '*') (inside : ¬ (c = '$' /\ re = [])) :
    reading (open' (c :: re)) = .once c :: reading (open' re) := by
  cases re with
  | nil =>
    have other : c ≠ '$' := fun same => inside ⟨same, rfl⟩
    rw [open_single other]
    rfl
  | cons d rest =>
    have other : d ≠ '*' := fun same => plain (congrArg some same)
    rw [open_cons (List.cons_ne_nil d rest)]
    by_cases last : d = '$' /\ rest = []
    · rcases last with ⟨rfl, rfl⟩
      rfl
    · have kept : ∃ rest', open' (d :: rest) = d :: rest' := by
        cases rest with
        | nil => exact ⟨[], open_single fun same => last ⟨same, rfl⟩⟩
        | cons e more => exact ⟨_, open_cons (List.cons_ne_nil e more)⟩
      rcases kept with ⟨rest', same⟩
      rw [same, reading, if_neg other]

theorem getLast_once (inside : ¬ (c = '$' /\ re = [])) :
    (c :: re).getLast? = some '$' <-> re.getLast? = some '$' := by
  cases re with
  | nil => simpa using inside
  | cons d rest => rw [List.getLast?_cons_cons]

/-- Any other character takes one character. -/
theorem begins_once (plain : re.head? ≠ some '*') (inside : ¬ (c = '$' /\ re = [])) :
    Begins (c :: re) text <-> ∃ a rest, text = a :: rest /\ accepts c a /\ Begins re rest := by
  rw [begins_of_items (reading_once plain inside)]
  constructor
  · rintro ⟨part, after, rfl, found, ends⟩
    rcases Item.mem_words_once.mp found with ⟨a, rest, rfl, accepted, others⟩
    exact ⟨a, rest ++ after, rfl, accepted, rest, after, rfl, others,
      fun last => ends ((getLast_once inside).mpr last)⟩
  · rintro ⟨a, _, rfl, accepted, part, after, rfl, others, ends⟩
    exact ⟨a :: part, after, rfl, Item.mem_words_once.mpr ⟨a, part, rfl, accepted, others⟩,
      fun last => ends ((getLast_once inside).mp last)⟩

end Cases

/-! ## The functions decide it -/

theorem string_eq (s : List Char) :
    string s = if char s = NUL then [] else char s :: string s.tail := by
  cases s with
  | nil => rfl
  | cons c rest =>
    change (c :: rest).takeWhile _ = if c = NUL then [] else c :: string rest
    rw [List.takeWhile_cons]
    by_cases stop : c = NUL
    · rw [if_pos stop, if_neg (by simpa using stop)]
    · rw [if_neg stop, if_pos (by simpa using stop)]
      rfl

variable {s : List Char}

theorem string_of_end (stop : char s = NUL) : string s = [] := by
  rw [string_eq, if_pos stop]

theorem string_of_char (used : char s ≠ NUL) : string s = char s :: string s.tail := by
  rw [string_eq, if_neg used]

theorem head_string {c : Char} (letter : c ≠ NUL) : (string s).head? = some c <-> char s = c := by
  rw [string_eq]
  by_cases stop : char s = NUL
  · rw [if_pos stop, stop]
    simpa using letter.symm
  · rw [if_neg stop]
    simp

theorem string_eq_nil : string s = [] <-> char s = NUL := by
  rw [string_eq]
  by_cases stop : char s = NUL
  · simp [stop]
  · simp [stop]

/-- Induction over the string at a pointer. -/
theorem string_induction {motive : List Char -> Prop}
    (step : ∀ s, (char s ≠ NUL -> motive s.tail) -> motive s) (s : List Char) : motive s := by
  induction s with
  | nil => exact step [] fun used => absurd rfl used
  | cons c rest ih => exact step (c :: rest) fun _ => ih

/-- The loop of `matchstar` tries every run of the character, the empty run first. -/
theorem matchstar_iff {re : List Char}
    (here : ∀ text, matchhere re text = true <-> Begins (string re) (string text)) (c : Char)
    (text : List Char) : matchstar c re text = true <-> ∃ run rest,
      string text = run ++ rest /\ (∀ a, a ∈ run -> accepts c a) /\ Begins (string re) rest := by
  induction text using string_induction with
  | step text ih =>
    rw [matchstar]
    by_cases now : matchhere re text = true
    · rw [if_pos now]
      exact ⟨fun _ => ⟨[], string text, rfl, fun a listed => (List.not_mem_nil listed).elim,
        (here text).mp now⟩, fun _ => rfl⟩
    · -- the empty run does not do
      have later : ∀ {rest}, string text = [] ++ rest -> ¬ Begins (string re) rest := by
        rintro _ rfl begins
        exact now ((here text).mpr begins)
      rw [if_neg now]
      by_cases more : char text ≠ NUL /\ (char text = c ∨ c = '.')
      · have accepted : accepts c (char text) := more.2.symm.imp_right Eq.symm
        rw [dif_pos more, ih more.1]
        constructor
        · rintro ⟨run, rest, same, all, begins⟩
          refine ⟨char text :: run, rest, (string_of_char more.1).trans (congrArg _ same),
            fun a listed => ?_, begins⟩
          rcases List.mem_cons.mp listed with rfl | inside
          · exact accepted
          · exact all a inside
        · rintro ⟨run, rest, same, all, begins⟩
          cases run with
          | nil => exact absurd begins (later same)
          | cons a run =>
            rw [string_of_char more.1] at same
            exact ⟨run, rest, (List.cons.inj same).2,
              fun b listed => all b (List.mem_cons_of_mem a listed), begins⟩
      · rw [dif_neg more]
        refine ⟨fun impossible => (by cases impossible), ?_⟩
        rintro ⟨run, rest, same, all, begins⟩
        cases run with
        | nil => exact absurd begins (later same)
        | cons a run =>
          have used : char text ≠ NUL := by
            intro stop
            rw [string_of_end stop] at same
            cases same
          rw [string_of_char used] at same
          have fits := all a List.mem_cons_self
          exact absurd ⟨used, fits.symm.imp_left fun equal =>
            (List.cons.inj same).1.trans equal.symm⟩ more

/-- `matchhere` finds a word of the pattern at the start of the text. -/
theorem matchhere_iff (n : Nat) : ∀ re text : List Char, re.length <= n ->
    (matchhere re text = true <-> Begins (string re) (string text)) := by
  induction n with
  | zero =>
    intro re text short
    have none : re = [] := List.length_eq_zero_iff.mp (Nat.le_zero.mp short)
    subst none
    have stop : char [] = NUL := rfl
    rw [matchhere, dif_pos stop]
    exact ⟨fun _ => begins_nil _, fun _ => rfl⟩
  | succ n ih =>
    intro re text short
    rw [matchhere]
    by_cases stop : char re = NUL
    · rw [dif_pos stop, string_of_end stop]
      exact ⟨fun _ => begins_nil _, fun _ => rfl⟩
    · have shorter := tail_shorter stop
      rw [dif_neg stop, string_of_char stop]
      by_cases star : char re.tail = '*'
      · have used : char re.tail ≠ NUL := by
          rw [star]
          decide
        have shorter' := tail_shorter used
        rw [if_pos star, string_of_char used, star, begins_star]
        exact matchstar_iff (fun text => ih _ text (by omega)) _ text
      · have plain : (string re.tail).head? ≠ some '*' :=
          fun head => star ((head_string (by decide)).mp head)
        rw [if_neg star]
        by_cases last : char re = '$' /\ char re.tail = NUL
        · rw [if_pos last, last.1, string_of_end last.2, begins_end, string_eq_nil, decide_eq_true_iff]
        · have inside : ¬ (char re = '$' /\ string re.tail = []) := fun both =>
            last ⟨both.1, string_eq_nil.mp both.2⟩
          rw [if_neg last, begins_once plain inside]
          by_cases fits : char text ≠ NUL /\ (char re = '.' ∨ char re = char text)
          · rw [if_pos fits, ih re.tail text.tail (by omega), string_of_char fits.1]
            constructor
            · intro begins
              exact ⟨char text, string text.tail, rfl, fits.2, begins⟩
            · rintro ⟨a, rest, same, _, begins⟩
              rw [(List.cons.inj same).2]
              exact begins
          · rw [if_neg fits]
            refine ⟨fun impossible => (by cases impossible), ?_⟩
            rintro ⟨a, rest, same, accepted, _⟩
            have used : char text ≠ NUL := by
              intro none
              rw [string_of_end none] at same
              cases same
            rw [string_of_char used] at same
            exact absurd ⟨used, (List.cons.inj same).1 ▸ accepted⟩ fits

/-- The loop of `match` tries every part that starts later. -/
theorem matchLoop_iff (re text : List Char) : matchLoop re text = true <-> ∃ before rest,
    string text = before ++ rest /\ Begins (string re) rest := by
  have here := fun text => matchhere_iff re.length re text le_rfl
  induction text using string_induction with
  | step text ih =>
    rw [matchLoop]
    by_cases now : matchhere re text = true
    · rw [if_pos now]
      exact ⟨fun _ => ⟨[], string text, rfl, (here text).mp now⟩, fun _ => rfl⟩
    · have later : ∀ {rest}, string text = [] ++ rest -> ¬ Begins (string re) rest := by
        rintro _ rfl begins
        exact now ((here text).mpr begins)
      rw [if_neg now]
      by_cases more : char text ≠ NUL
      · rw [dif_pos more]
        refine (ih more).trans ⟨?_, ?_⟩
        · rintro ⟨before, rest, same, begins⟩
          exact ⟨char text :: before, rest, (string_of_char more).trans (congrArg _ same), begins⟩
        · rintro ⟨before, rest, same, begins⟩
          cases before with
          | nil => exact absurd begins (later same)
          | cons a before =>
            rw [string_of_char more] at same
            exact ⟨before, rest, (List.cons.inj same).2, begins⟩
      · rw [dif_neg more]
        refine ⟨fun impossible => (by cases impossible), ?_⟩
        rintro ⟨before, rest, same, begins⟩
        rw [string_of_end (not_not.mp more)] at same
        rcases List.append_eq_nil_iff.mp same.symm with ⟨_, rfl⟩
        exact absurd begins (later (string_of_end (not_not.mp more)))

/-- `match` returns 1 exactly when a part of the text is in the language of the
pattern. -/
theorem match_iff (re text : List Char) :
    match' re text = true <-> Matches (string re) (string text) := by
  unfold match' Matches inner
  by_cases start : char re = '^'
  · have used : char re ≠ NUL := by
      rw [start]
      decide
    have head : (string re).head? = some '^' := (head_string (by decide)).mpr start
    have last : (string re).getLast? = some '$' <-> (string re.tail).getLast? = some '$' := by
      rw [string_of_char used, start]
      exact getLast_once fun both => absurd both.1 (by decide)
    rw [if_pos start, if_pos head, matchhere_iff re.length re.tail text (by simp)]
    rw [show (string re).tail = string re.tail by rw [string_of_char used]; rfl]
    constructor
    · rintro ⟨part, after, same, inside, ends⟩
      exact ⟨[], part, after, same, inside, fun _ => rfl, fun dollar => ends (last.mp dollar)⟩
    · rintro ⟨before, part, after, same, inside, starts, ends⟩
      rw [starts head] at same
      exact ⟨part, after, same, inside, fun dollar => ends (last.mpr dollar)⟩
  · have head : (string re).head? ≠ some '^' := fun same => start ((head_string (by decide)).mp same)
    rw [if_neg start, if_neg head, matchLoop_iff]
    constructor
    · rintro ⟨before, _, same, part, after, rfl, inside, ends⟩
      exact ⟨before, part, after, by rw [same, List.append_assoc], inside,
        fun impossible => absurd impossible head, ends⟩
    · rintro ⟨before, part, after, same, inside, _, ends⟩
      exact ⟨before, part ++ after, by rw [same, List.append_assoc], part, after, rfl, inside, ends⟩

end Xv6.Grep
