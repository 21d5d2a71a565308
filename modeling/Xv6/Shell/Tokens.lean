import Mathlib.Data.List.TakeWhile
import Xv6.Shell.Parser

namespace Xv6.Shell

/-!
# The tokens of a command

`tokens` cuts a text into its tokens.  `At text s ts` says that the pointer `s` has
the tokens `ts` before it; `peek` and `gettoken` are then about the first of them,
and the parser need not be looked at character by character.
-/

inductive Kind where
  | word | bar | lparen | rparen | semi | amp | less | greater | append
  deriving DecidableEq, Repr

structure Token where
  kind : Kind
  start : Nat
  stop : Nat
  deriving DecidableEq, Repr

namespace Kind

/-- What `gettoken` returns for it. -/
def code : Kind -> Char
  | word => 'a'
  | bar => '|'
  | lparen => '('
  | rparen => ')'
  | semi => ';'
  | amp => '&'
  | less => '<'
  | greater => '>'
  | append => '+'

/-- The symbol it begins with. -/
def first : Kind -> Option Char
  | word => none
  | append => some '>'
  | other => some other.code

end Kind

def symbolKind (c : Char) : Option Kind :=
  if c = '|' then some .bar
  else if c = '(' then some .lparen
  else if c = ')' then some .rparen
  else if c = ';' then some .semi
  else if c = '&' then some .amp
  else if c = '<' then some .less
  else if c = '>' then some .greater
  else none

/-- The tokens of the characters from position `s` on. -/
def tokens (s : Nat) (cs : List Char) : List Token :=
  match cs with
  | [] => []
  | c :: rest =>
    if c ∈ whitespace then tokens (s + 1) rest
    else if c = '>' /\ rest.head? = some '>' then ⟨.append, s, s + 2⟩ :: tokens (s + 2) rest.tail
    else
      match symbolKind c with
      | some kind => ⟨kind, s, s + 1⟩ :: tokens (s + 1) rest
      | none =>
        ⟨.word, s, s + 1 + (rest.takeWhile isWord).length⟩ ::
          tokens (s + 1 + (rest.takeWhile isWord).length) (rest.dropWhile isWord)
termination_by cs.length
decreasing_by
  · simp
  · simp only [List.length_cons, List.length_tail]
    omega
  · simp
  · simp only [List.length_cons]
    exact Nat.lt_succ_of_le (List.length_dropWhile_le _ _)

/-- The token sequence begins with one of these symbols. -/
def starts (toks : List Char) : List Token -> Bool
  | [] => false
  | token :: _ =>
    match token.kind.first with
    | none => false
    | some c => decide (c ∈ toks)

/-- The pointer is in the text, and these tokens are before it. -/
structure At (text : List Char) (s : Nat) (ts : List Token) : Prop where
  inside : s <= text.length
  rest : tokens s (text.drop s) = ts

section Text

variable {text : List Char} {s : Nat} {ts : List Token}

theorem drop_takeWhile (p : Char -> Bool) (cs : List Char) :
    cs.drop (cs.takeWhile p).length = cs.dropWhile p := by
  have split := List.takeWhile_append_dropWhile (p := p) (l := cs)
  calc cs.drop (cs.takeWhile p).length
      = (cs.takeWhile p ++ cs.dropWhile p).drop (cs.takeWhile p).length := by rw [split]
    _ = cs.dropWhile p := List.drop_left

theorem takeWhile_inside (p : Char -> Bool) (inside : s <= text.length) :
    s + ((text.drop s).takeWhile p).length <= text.length := by
  have shorter := (List.takeWhile_sublist p (l := text.drop s)).length_le
  rw [List.length_drop] at shorter
  omega

theorem tokens_skip (cs : List Char) : ∀ s : Nat,
    tokens (s + (cs.takeWhile isBlank).length) (cs.dropWhile isBlank) = tokens s cs := by
  induction cs with
  | nil => exact fun s => rfl
  | cons c rest ih =>
    intro s
    by_cases white : c ∈ whitespace
    · have blank : isBlank c = true := decide_eq_true white
      have further := ih (s + 1)
      rw [List.takeWhile_cons_of_pos blank, List.dropWhile_cons_of_pos blank,
        List.length_cons, <- Nat.add_assoc, Nat.add_right_comm, further]
      conv_rhs => rw [tokens, if_pos white]
    · have other : ¬ isBlank c = true := fun blank => white (of_decide_eq_true blank)
      rw [List.takeWhile_cons_of_neg other, List.dropWhile_cons_of_neg other]
      rfl

theorem At.skip (view : At text s ts) : At text (skip text s) ts where
  inside := takeWhile_inside _ view.inside
  rest := by
    rw [Shell.skip, <- List.drop_drop, drop_takeWhile, tokens_skip]
    exact view.rest

variable {c : Char} {cs : List Char} {rest : List Char}

/-- What is left after the blanks begins with no blank. -/
theorem drop_skip (here : text.drop (skip text s) = c :: rest) : c ∉ whitespace := by
  rw [skip, <- List.drop_drop, drop_takeWhile] at here
  have first := List.head?_dropWhile_not isBlank (text.drop s)
  rw [here] at first
  intro white
  rw [List.head?_cons] at first
  exact absurd (decide_eq_true white) (by simpa [isBlank] using first)

theorem charAt_eq (s : Nat) : charAt text s = (text.drop s).head?.getD NUL := by
  rw [charAt, List.getD_eq_getElem?_getD, List.head?_drop]

theorem symbolKind_some {kind : Kind} (symbol : symbolKind c = some kind) :
    kind.first = some c /\ kind.code = c /\ c ∈ symbols := by
  simp only [symbolKind] at symbol
  split_ifs at symbol with bar lparen rparen semi amp less greater
  all_goals
    cases symbol
    subst c
    decide

theorem symbolKind_none (other : symbolKind c = none) : c ∉ symbols := by
  simp only [symbolKind] at other
  split_ifs at other with bar lparen rparen semi amp less greater
  simp [symbols, *]

/-- The first token of a text that begins with no blank. -/
theorem tokens_cons (nonblank : c ∉ whitespace) (s : Nat) :
    (c = '>' /\ rest.head? = some '>' /\
      tokens s (c :: rest) = ⟨.append, s, s + 2⟩ :: tokens (s + 2) rest.tail) ∨
      (¬ (c = '>' /\ rest.head? = some '>') /\ ∃ kind, symbolKind c = some kind /\
        tokens s (c :: rest) = ⟨kind, s, s + 1⟩ :: tokens (s + 1) rest) ∨
      (symbolKind c = none /\ tokens s (c :: rest) =
        ⟨.word, s, s + 1 + (rest.takeWhile isWord).length⟩ ::
          tokens (s + 1 + (rest.takeWhile isWord).length) (rest.dropWhile isWord)) := by
  by_cases double : c = '>' /\ rest.head? = some '>'
  · refine .inl ⟨double.1, double.2, ?_⟩
    rw [tokens, if_neg nonblank, if_pos double]
  · right
    cases symbol : symbolKind c with
    | some kind =>
      refine .inl ⟨double, kind, rfl, ?_⟩
      rw [tokens, if_neg nonblank, if_neg double, symbol]
    | none =>
      refine .inr ⟨rfl, ?_⟩
      rw [tokens, if_neg nonblank, if_neg double, symbol]

theorem peek_eq (free : NUL ∉ text) (view : At text s ts) {toks : List Char}
    (known : toks.all (fun c => decide (c ∈ symbols)) = true) :
    peek text s toks = starts toks ts := by
  have skipped := view.skip.rest
  rw [peek, charAt_eq]
  cases here : text.drop (skip text s) with
  | nil =>
    rw [here, tokens] at skipped
    rw [<- skipped]
    rfl
  | cons c rest =>
    have nonnull : c ≠ NUL := by
      rintro rfl
      exact free (List.mem_of_mem_drop (here ▸ List.mem_cons_self))
    rw [here] at skipped
    rw [<- skipped, List.head?_cons, Option.getD_some, decide_eq_true nonnull, Bool.true_and]
    rcases tokens_cons (drop_skip here) (skip text s) with ⟨rfl, _, cut⟩ | ⟨_, kind, symbol,
      cut⟩ | ⟨other, cut⟩
    · rw [cut]
      rfl
    · rw [cut]
      simp only [starts, (symbolKind_some symbol).1]
    · rw [cut]
      simp only [starts, Kind.first]
      exact decide_eq_false fun listed =>
        symbolKind_none other (of_decide_eq_true (List.all_eq_true.mp known c listed))

theorem drop_add (here : text.drop s = cs) (k : Nat) : text.drop (s + k) = cs.drop k := by
  rw [<- List.drop_drop, here]

theorem add_inside (here : text.drop s = cs) (inside : s <= text.length) {k : Nat}
    (long : k <= cs.length) : s + k <= text.length := by
  have length := congrArg List.length here
  rw [List.length_drop] at length
  omega

/-- The pointer after some characters of what is left. -/
theorem At.add (here : text.drop s = cs) (inside : s <= text.length) {k : Nat}
    (long : k <= cs.length) : At text (s + k) (tokens (s + k) (cs.drop k)) :=
  ⟨add_inside here inside long, by rw [drop_add here]⟩

theorem gettoken_nil (view : At text s []) :
    (gettoken text s).ret = NUL /\ At text (gettoken text s).s [] := by
  have skipped := view.skip
  have here : text.drop (skip text s) = [] := by
    cases here : text.drop (skip text s) with
    | nil => rfl
    | cons c rest =>
      have cut := skipped.rest
      rw [here] at cut
      rcases tokens_cons (drop_skip here) (skip text s) with ⟨_, _, some⟩ | ⟨_, _, _, some⟩ | ⟨_,
        some⟩ <;>
        rw [some] at cut <;> cases cut
  have null : charAt text (skip text s) = NUL := by
    rw [charAt_eq, here]
    rfl
  rw [gettoken, null]
  exact ⟨rfl, skipped.skip⟩

theorem gettoken_cons (free : NUL ∉ text) {token : Token} (view : At text s (token :: ts)) :
    (gettoken text s).ret = token.kind.code /\ (gettoken text s).q = token.start /\
      (gettoken text s).eq = token.stop /\ At text (gettoken text s).s ts := by
  have inside := view.skip.inside
  have skipped := view.skip.rest
  cases here : text.drop (skip text s) with
  | nil =>
    rw [here, tokens] at skipped
    cases skipped
  | cons c rest =>
    have nonnull : c ≠ NUL := by
      rintro rfl
      exact free (List.mem_of_mem_drop (here ▸ List.mem_cons_self))
    have first : charAt text (skip text s) = c := by
      rw [charAt_eq, here]
      rfl
    have second : charAt text (skip text s + 1) = rest.head?.getD NUL := by
      rw [charAt_eq, drop_add here]
      rfl
    rw [here] at skipped
    simp only [gettoken, first, if_neg nonnull]
    rcases tokens_cons (drop_skip here) (skip text s) with ⟨rfl, double, cut⟩ | ⟨single, kind,
      symbol, cut⟩ | ⟨other, cut⟩
    · rw [cut] at skipped
      obtain ⟨rfl, rfl⟩ := List.cons_eq_cons.mp skipped
      have longer : 2 <= ('>' :: rest).length := by
        cases rest with
        | nil => cases double
        | cons d others => exact Nat.le_add_left _ _
      have after := (At.add here inside longer).skip
      rw [if_neg (by decide), if_pos rfl, second, double, Option.getD_some, if_pos rfl]
      refine ⟨rfl, rfl, rfl, ?_⟩
      rwa [List.drop_succ_cons, List.drop_one] at after
    · rw [cut] at skipped
      obtain ⟨rfl, rfl⟩ := List.cons_eq_cons.mp skipped
      have after := (At.add (k := 1) here inside (Nat.le_add_left _ _)).skip
      by_cases greater : c = '>'
      · have notDouble : ¬ rest.head?.getD NUL = '>' := by
          intro same
          apply single
          refine ⟨greater, ?_⟩
          cases rest with
          | nil => exact absurd same (by decide)
          | cons d others => exact congrArg some same
        rw [greater] at symbol ⊢
        rw [if_neg (by decide), if_pos rfl, second, if_neg notDouble]
        exact ⟨(symbolKind_some symbol).2.1.symm, rfl, rfl, after⟩
      · have listed : c ∈ ['|', '(', ')', ';', '&', '<'] := by
          by_contra unlisted
          simp only [List.mem_cons, List.not_mem_nil, or_false, not_or] at unlisted
          simp [symbolKind, unlisted, greater] at symbol
        rw [if_pos listed]
        exact ⟨(symbolKind_some symbol).2.1.symm, rfl, rfl, after⟩
    · rw [cut] at skipped
      obtain ⟨rfl, rfl⟩ := List.cons_eq_cons.mp skipped
      have plain := symbolKind_none other
      have isWordFirst : isWord c = true := by
        rw [isWord, decide_eq_true (drop_skip here), decide_eq_true plain]
        rfl
      have unlisted : c ∉ ['|', '(', ')', ';', '&', '<'] := fun listed => plain (by
        revert listed
        simp only [symbols, List.mem_cons]
        tauto)
      have notGreater : c ≠ '>' := fun same => plain (by rw [same]; decide)
      have scanned : scan text (skip text s) = skip text s + 1 + (rest.takeWhile isWord).length := by
        rw [scan, here, List.takeWhile_cons_of_pos isWordFirst, List.length_cons]
        omega
      have shorter := (List.takeWhile_sublist isWord (l := rest)).length_le
      have after := (At.add (k := 1 + (rest.takeWhile isWord).length) here inside (by
        rw [List.length_cons]
        omega)).skip
      rw [if_neg unlisted, if_neg notGreater, scanned]
      refine ⟨rfl, rfl, rfl, ?_⟩
      rwa [Nat.add_comm 1, List.drop_succ_cons, drop_takeWhile,
        Nat.add_comm _ 1, <- Nat.add_assoc] at after

/-- Only blanks are left exactly when no token is. -/
theorem skip_eq_length_iff (view : At text s ts) : skip text s = text.length <-> ts = [] := by
  have skipped := view.skip
  constructor
  · intro done
    have cut := skipped.rest
    rw [done, List.drop_length, tokens] at cut
    exact cut.symm
  · rintro rfl
    refine Nat.le_antisymm skipped.inside ?_
    by_contra inside
    cases here : text.drop (skip text s) with
    | nil =>
      rw [List.drop_eq_nil_iff] at here
      exact inside here
    | cons c rest =>
      have cut := skipped.rest
      rw [here] at cut
      rcases tokens_cons (drop_skip here) (skip text s) with ⟨_, _, some⟩ | ⟨_, _, _, some⟩ | ⟨_,
        some⟩ <;>
        rw [some] at cut <;> cases cut

/-! ## Words -/

/-- The span is a maximal run of word characters of the text. -/
structure IsMaximal (text : List Char) (word : Span) : Prop where
  nonempty : word.1 < word.2
  inside : word.2 <= text.length
  characters : ∀ i, word.1 <= i -> i < word.2 -> isWord (charAt text i) = true
  left : word.1 = 0 ∨ isWord (charAt text (word.1 - 1)) = false
  right : word.2 = text.length ∨ isWord (charAt text word.2) = false

/-- A word that begins at `s` is not the end of a longer one. -/
def Fresh (text : List Char) (s : Nat) : Prop :=
  s = 0 ∨ isWord (charAt text (s - 1)) = false ∨ ∀ c, (text.drop s).head? = some c -> isWord c = false

theorem charAt_of_drop (here : text.drop s = c :: rest) : charAt text s = c := by
  rw [charAt_eq, here]
  rfl

theorem Fresh.next (here : text.drop s = c :: rest) (other : isWord c = false) :
    Fresh text (s + 1) := by
  refine .inr (.inl ?_)
  rw [Nat.add_sub_cancel, charAt_of_drop here, other]

theorem isWord_eq_false (other : c ∈ whitespace ∨ c ∈ symbols) : isWord c = false := by
  rw [isWord, Bool.and_eq_false_iff, decide_eq_false_iff_not, decide_eq_false_iff_not, not_not, not_not]
  exact other

/-- The run of word characters from a position on. -/
theorem run_characters (here : text.drop s = cs) {i : Nat} (low : s <= i)
    (high : i < s + (cs.takeWhile isWord).length) : isWord (charAt text i) = true := by
  obtain ⟨j, rfl⟩ := Nat.exists_eq_add_of_le low
  have short : j < (cs.takeWhile isWord).length := by omega
  have character : (cs.takeWhile isWord)[j] = charAt text (s + j) := by
    rw [(List.takeWhile_prefix isWord).getElem short, charAt_eq, drop_add here, List.head?_drop,
      List.getElem?_eq_getElem, Option.getD_some]
  rw [<- character]
  exact List.mem_takeWhile_imp (List.getElem_mem short)

theorem run_right (here : text.drop s = cs) (inside : s <= text.length) :
    s + (cs.takeWhile isWord).length = text.length ∨
      isWord (charAt text (s + (cs.takeWhile isWord).length)) = false := by
  have after := drop_add here (cs.takeWhile isWord).length
  rw [drop_takeWhile] at after
  cases rest : cs.dropWhile isWord with
  | nil =>
    left
    rw [rest, List.drop_eq_nil_iff] at after
    refine Nat.le_antisymm ?_ after
    exact add_inside here inside (List.takeWhile_sublist isWord).length_le
  | cons d others =>
    right
    rw [rest] at after
    have first := List.head?_dropWhile_not isWord cs
    rw [rest] at first
    rw [charAt_of_drop after]
    exact first

theorem maximal_of_tokens (s : Nat) (cs : List Char) :
    text.drop s = cs -> s <= text.length -> Fresh text s ->
    ∀ token, token ∈ tokens s cs -> token.kind = .word ->
    IsMaximal text (token.start, token.stop) := by
  fun_induction tokens s cs with
  | case1 s => exact fun _ _ _ token listed _ => absurd listed List.not_mem_nil
  | case2 s c rest white ih =>
    intro here inside fresh
    exact ih (drop_add here 1) (add_inside here inside (Nat.le_add_left _ _))
      (Fresh.next here (isWord_eq_false (.inl white)))
  | case3 s c rest nonblank double ih =>
    intro here inside fresh token listed word
    cases rest with
    | nil => cases double.2
    | cons d others =>
      have next : text.drop (s + 1) = d :: others := drop_add here 1
      have greater : d = '>' := Option.some.inj double.2
      rcases List.mem_cons.mp listed with rfl | later
      · cases word
      · exact ih (drop_add here 2) (add_inside here inside (Nat.le_add_left _ _))
          (Fresh.next next (isWord_eq_false (.inr (by rw [greater]; decide)))) token later word
  | case4 s c rest nonblank single kind symbol ih =>
    intro here inside fresh token listed word
    have known := (symbolKind_some symbol).2.2
    rcases List.mem_cons.mp listed with rfl | later
    · rw [show kind = .word from word] at symbol
      exact absurd (symbolKind_some symbol).1 (by simp [Kind.first])
    · exact ih (drop_add here 1) (add_inside here inside (Nat.le_add_left _ _))
        (Fresh.next here (isWord_eq_false (.inr known))) token later word
  | case5 s c rest nonblank single other ih =>
    intro here inside fresh token listed word
    have plain : isWord c = true := by
      rw [isWord, decide_eq_true nonblank, decide_eq_true (symbolKind_none other)]
      rfl
    have run : s + 1 + (rest.takeWhile isWord).length = s + ((c :: rest).takeWhile isWord).length := by
      rw [List.takeWhile_cons_of_pos plain, List.length_cons]
      omega
    rcases List.mem_cons.mp listed with rfl | later
    · refine ⟨show s < s + 1 + _ by omega, ?_, ?_, ?_, ?_⟩
      · rw [run]
        exact add_inside here inside (List.takeWhile_sublist isWord).length_le
      · intro i low high
        exact run_characters here low (run ▸ high)
      · rcases fresh with zero | before | first
        · exact .inl zero
        · exact .inr before
        · rw [here] at first
          rw [first c rfl] at plain
          cases plain
      · rw [run]
        exact run_right here inside
    · rw [run] at ih later
      have after := drop_add here ((c :: rest).takeWhile isWord).length
      rw [drop_takeWhile, List.dropWhile_cons_of_pos plain] at after
      refine ih after (add_inside here inside (List.takeWhile_sublist isWord).length_le) ?_ token later
        word
      refine .inr (.inr fun d first => ?_)
      rw [after] at first
      have stopped := List.head?_dropWhile_not isWord rest
      rw [first] at stopped
      exact stopped

end Text

end Xv6.Shell
